import Mathlib.Data.List.Basic
import Mathlib.Algebra.Order.Ring.Nat

/-!
# A list in parts

A list cut into parts of a size, the last one shorter. The parts in order are the list; no part is empty; they are as
many as the size asks for.
-/

namespace Split

variable {α : Type*} {n : ℕ}

/-- At most `fuel` parts. -/
def partsUpTo (n : ℕ) : ℕ → List α → List (List α)
  | 0, _ => []
  | _ + 1, [] => []
  | fuel + 1, x :: xs => (x :: xs).take n :: partsUpTo n fuel ((x :: xs).drop n)

/-- The parts of `n` elements. -/
def parts (n : ℕ) (xs : List α) : List (List α) := partsUpTo n xs.length xs

theorem drop_le (hn : 0 < n) {fuel : ℕ} {x : α} {xs : List α} (h : (x :: xs).length ≤ fuel + 1) :
    ((x :: xs).drop n).length ≤ fuel := by
  rw [List.length_drop, List.length_cons] at *
  omega

theorem flatten_partsUpTo (hn : 0 < n) : ∀ {fuel : ℕ} {xs : List α}, xs.length ≤ fuel →
    (partsUpTo n fuel xs).flatten = xs
  | 0, xs, h => by rw [List.length_eq_zero_iff.1 (Nat.le_zero.1 h)]; rfl
  | _ + 1, [], _ => rfl
  | fuel + 1, x :: xs, h => by
    rw [partsUpTo, List.flatten_cons, flatten_partsUpTo hn (drop_le hn h), List.take_append_drop]

theorem flatten_parts (hn : 0 < n) (xs : List α) : (parts n xs).flatten = xs := flatten_partsUpTo hn (Nat.le_refl _)

theorem partsUpTo_ne_nil (hn : 0 < n) : ∀ {fuel : ℕ} {xs p : List α}, p ∈ partsUpTo n fuel xs → p ≠ []
  | 0, _, _, h => by cases h
  | _ + 1, [], _, h => by cases h
  | fuel + 1, x :: xs, p, h => by
    obtain rfl | h := List.mem_cons.1 h
    · cases n with
      | zero => exact absurd hn (Nat.lt_irrefl 0)
      | succ n => exact List.cons_ne_nil _ _
    · exact partsUpTo_ne_nil hn h

theorem parts_ne_nil (hn : 0 < n) {xs p : List α} (h : p ∈ parts n xs) : p ≠ [] := partsUpTo_ne_nil hn h

/-- Every part but the last is full. -/
theorem length_partsUpTo (hn : 0 < n) : ∀ {fuel : ℕ} {xs : List α}, xs.length ≤ fuel → xs ≠ [] →
    ((partsUpTo n fuel xs).length - 1) * n < xs.length ∧ partsUpTo n fuel xs ≠ []
  | 0, xs, h, hx => absurd (List.length_eq_zero_iff.1 (Nat.le_zero.1 h)) hx
  | _ + 1, [], _, hx => absurd rfl hx
  | fuel + 1, x :: xs, h, _ => by
    refine ⟨?_, List.cons_ne_nil _ _⟩
    rw [partsUpTo, List.length_cons, Nat.add_sub_cancel]
    by_cases hd : (x :: xs).drop n = []
    · have hp : partsUpTo n fuel ([] : List α) = [] := by cases fuel <;> rfl
      rw [hd, hp]
      simp
    · obtain ⟨hlt, hne⟩ := length_partsUpTo hn (drop_le hn h) hd
      have hpos := List.length_pos_of_ne_nil hne
      have hdl := List.length_pos_of_ne_nil hd
      rw [List.length_drop] at hlt hdl
      obtain ⟨m, hm⟩ := Nat.exists_eq_succ_of_ne_zero (Nat.ne_of_gt hpos)
      rw [hm, Nat.succ_sub_one] at hlt
      rw [hm, Nat.succ_mul]
      omega

/-- A list that fits `k` full parts has at most `k` parts. -/
theorem length_parts_le (hn : 0 < n) {k : ℕ} {xs : List α} (h : xs.length ≤ k * n) : (parts n xs).length ≤ k := by
  by_cases hx : xs = []
  · subst hx
    exact Nat.zero_le _
  · obtain ⟨hlt, -⟩ := length_partsUpTo hn (Nat.le_refl _) hx
    have := Nat.lt_of_mul_lt_mul_right (Nat.lt_of_lt_of_le hlt h)
    rw [parts]
    omega

end Split
