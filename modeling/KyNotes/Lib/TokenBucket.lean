import Mathlib.Algebra.Order.Field.Basic
import Mathlib.Tactic.Linarith

/-!
# Token buckets

A bucket that is full at first, gains tokens at a constant rate while it is not full, and gives one for each event that is
admitted. The past is listed from the latest event back.

`taken_add_level_le`: what is admitted from an event on, with what is in the bucket afterwards, is the burst and what came in
at most; `taken_le`: so much is admitted between the first and the last event of a window.
-/

namespace TokenBucket

variable {K : Type*} [Field K] [LinearOrder K]

structure Event (K : Type*) where
  time : K
  admitted : Bool

/-- The tokens that an event takes. -/
def Event.taken (e : Event K) : K := if e.admitted then 1 else 0

/-- The tokens in the bucket at a time after the past. -/
def level (rate burst now : K) : List (Event K) → K
  | [] => burst
  | e :: past => min burst (level rate burst e.time past - e.taken + rate * (now - e.time))

def taken (events : List (Event K)) : K := (events.map Event.taken).sum

omit [LinearOrder K] in
@[simp] theorem taken_nil : taken ([] : List (Event K)) = 0 := List.sum_nil

/-- What each event takes is in the bucket at its time, and no time is before an earlier one. -/
def Paid (rate burst : K) : List (Event K) → Prop
  | [] => True
  | e :: past => e.taken ≤ level rate burst e.time past ∧ (∀ f ∈ past.head?, f.time ≤ e.time) ∧ Paid rate burst past

theorem level_le_burst (rate burst now : K) (past : List (Event K)) : level rate burst now past ≤ burst := by
  cases past with
  | nil => exact le_refl burst
  | cons e past => exact min_le_left _ _

section Ordered

variable [IsStrictOrderedRing K]

/-- What is admitted from an event on, with what is in the bucket afterwards, is the burst and what came in at most. -/
theorem taken_add_level_le (rate burst : K) (first : Event K) (past : List (Event K)) : ∀ (window : List (Event K)) (now : K),
    taken (window ++ [first]) + level rate burst now (window ++ first :: past) ≤ burst + rate * (now - first.time)
  | [], now => by
    have hlevel := level_le_burst rate burst first.time past
    have hmin : level rate burst now (first :: past) ≤ level rate burst first.time past - first.taken + rate * (now - first.time) :=
      min_le_right _ _
    have htaken : taken ([] ++ [first]) = first.taken := by rw [taken, List.nil_append, List.map_singleton, List.sum_singleton]
    rw [htaken, List.nil_append]
    linarith
  | e :: window, now => by
    have ih := taken_add_level_le rate burst first past window e.time
    have hmin : level rate burst now (e :: window ++ first :: past) ≤
      level rate burst e.time (window ++ first :: past) - e.taken + rate * (now - e.time) := min_le_right _ _
    have htaken : taken (e :: window ++ [first]) = e.taken + taken (window ++ [first]) := by
      rw [taken, List.cons_append, List.map_cons, List.sum_cons]
      rfl
    rw [htaken]
    linarith

theorem level_nonneg {rate burst now : K} (hrate : 0 ≤ rate) (hburst : 0 ≤ burst) {past : List (Event K)}
    (hpaid : Paid rate burst past) (hnow : ∀ f ∈ past.head?, f.time ≤ now) : 0 ≤ level rate burst now past := by
  cases past with
  | nil => exact hburst
  | cons e past =>
    have hgain : 0 ≤ rate * (now - e.time) := mul_nonneg hrate (sub_nonneg.mpr (hnow e rfl))
    exact le_min hburst (by linarith [hpaid.1])

/-- Between the first and the last event of a window the burst and what came in are admitted at most. -/
theorem taken_le {rate burst : K} {window past : List (Event K)} {first last : Event K}
    (hpaid : Paid rate burst (window ++ past)) (hlast : last ∈ window.head?) (hfirst : first ∈ window.getLast?) :
    taken window ≤ burst + rate * (last.time - first.time) := by
  obtain ⟨init, rfl⟩ := List.getLast?_eq_some_iff.mp hfirst
  cases init with
  | nil =>
    rw [List.nil_append, List.head?_cons, Option.mem_some_iff] at hlast
    subst hlast
    have hlevel := level_le_burst rate burst first.time past
    have htaken : taken ([] ++ [first]) = first.taken := by rw [taken, List.nil_append, List.map_singleton, List.sum_singleton]
    rw [htaken, sub_self, mul_zero, add_zero]
    exact hpaid.1.trans hlevel
  | cons e init =>
    rw [List.cons_append, List.head?_cons, Option.mem_some_iff] at hlast
    subst hlast
    have htaken : taken (e :: init ++ [first]) = e.taken + taken (init ++ [first]) := by
      rw [taken, List.cons_append, List.map_cons, List.sum_cons]
      rfl
    have hle := taken_add_level_le rate burst first past init e.time
    have he : e.taken ≤ level rate burst e.time (init ++ first :: past) := by
      rw [List.append_cons]
      exact hpaid.1
    rw [htaken]
    linarith

end Ordered

end TokenBucket
