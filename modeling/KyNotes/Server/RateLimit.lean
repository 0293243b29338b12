import KyNotes.Lib.TokenBucket
import Mathlib.Algebra.Order.Field.Rat
import Mathlib.Data.List.Basic

/-!
# The rate limiter (`internal/httpapi/ratelimit.go`)

A bucket for each key, filled when a call comes; a key without one reads as a bucket of the zero time. Times are seconds
after the zero time, and arithmetic is exact. The history of a key is its own calls with their answers: `run_bucket` says
that its bucket holds what a token bucket of that history holds, whatever the calls of other keys are.
-/

namespace KyNotes.HttpApi

/-- `bucket`. -/
structure Bucket where
  tokens : ℚ
  last : ℚ

section Limiter

variable {κ : Type}

/-- `buckets`. -/
abbrev Limiter (κ : Type) := κ → Bucket

def newLimiter : Limiter κ := fun _ => ⟨0, 0⟩

structure Call (κ : Type) where
  key : κ
  rate : ℚ
  burst : ℤ
  now : ℚ

/-- The bucket of a call, filled. -/
def refill (l : Limiter κ) (c : Call κ) : ℚ :=
  let b := if (l c.key).last = 0 then ⟨c.burst, c.now⟩ else l c.key
  let tokens := b.tokens + (c.now - b.last) * c.rate
  if tokens > c.burst then c.burst else tokens

variable [DecidableEq κ]

def allow (l : Limiter κ) (c : Call κ) : Bool × Limiter κ :=
  if c.rate ≤ 0 ∨ c.burst ≤ 0 then (true, l)
  else
    let tokens := refill l c
    if tokens < 1 then (false, Function.update l c.key ⟨tokens, c.now⟩)
    else (true, Function.update l c.key ⟨tokens - 1, c.now⟩)

/-- The limiter after some calls. -/
def run (l : Limiter κ) (calls : List (Call κ)) : Limiter κ := calls.foldl (fun l c => (allow l c).2) l

/-- How many calls of a key are allowed. -/
def allowed (key : κ) : Limiter κ → List (Call κ) → ℕ
  | _, [] => 0
  | l, c :: calls => (if c.key = key ∧ (allow l c).1 = true then 1 else 0) + allowed key (allow l c).2 calls

/-- The calls of a key with their answers, the latest one first, after those of the past. -/
def history (key : κ) : Limiter κ → List (TokenBucket.Event ℚ) → List (Call κ) → List (TokenBucket.Event ℚ)
  | _, past, [] => past
  | l, past, c :: calls =>
    history key (allow l c).2 (if c.key = key then ⟨c.now, (allow l c).1⟩ :: past else past) calls

/-- The clock is past the zero time and never goes back. -/
def Clocked (calls : List (Call κ)) : Prop := (∀ c ∈ calls, 0 < c.now) ∧ calls.Pairwise fun c d => c.now ≤ d.now

/-- The calls of a key have one rate and one burst. -/
def Fixed (key : κ) (rate : ℚ) (burst : ℤ) (calls : List (Call κ)) : Prop :=
  ∀ c ∈ calls, c.key = key → c.rate = rate ∧ c.burst = burst

/-! ## The bucket of a key -/

variable {key : κ} {rate : ℚ} {burst : ℤ} {l : Limiter κ} {past : List (TokenBucket.Event ℚ)} {c : Call κ}

/-- The bucket of a key that has a history. -/
def Follows (key : κ) (rate : ℚ) (burst : ℤ) (l : Limiter κ) : List (TokenBucket.Event ℚ) → Prop
  | [] => (l key).last = 0
  | e :: past => 0 < e.time ∧ (l key).last = e.time ∧
      (l key).tokens = TokenBucket.level rate burst e.time past - e.taken

omit [DecidableEq κ] in
theorem refill_eq (h : Follows key rate burst l past) (hkey : c.key = key) (hrate : c.rate = rate) (hburst : c.burst = burst) :
    refill l c = TokenBucket.level rate burst c.now past := by
  subst hkey hrate hburst
  unfold refill
  cases past with
  | nil =>
    have hlast : (l c.key).last = 0 := h
    simp only [if_pos hlast, sub_self, zero_mul, add_zero, gt_iff_lt, lt_self_iff_false, if_false, TokenBucket.level]
  | cons e past =>
    obtain ⟨hpos, hlast, htokens⟩ := h
    have hne : (l c.key).last ≠ 0 := hlast ▸ hpos.ne'
    simp only [if_neg hne, TokenBucket.level]
    rw [htokens, hlast, mul_comm (c.now - e.time)]
    split
    · next hlt => exact (min_eq_left hlt.le).symm
    · next hge => exact (min_eq_right (not_lt.mp hge)).symm

/-- A call of the key is one event of its bucket. -/
theorem allow_spec (h : Follows key rate burst l past) (hrate : 0 < rate) (hburst : 0 < burst) (hkey : c.key = key)
    (hcrate : c.rate = rate) (hcburst : c.burst = burst) (hnow : 0 < c.now) :
    ((allow l c).1 = true ↔ 1 ≤ TokenBucket.level rate burst c.now past) ∧
      Follows key rate burst (allow l c).2 (⟨c.now, (allow l c).1⟩ :: past) := by
  have hrefill := refill_eq h hkey hcrate hcburst
  have hpositive : ¬(c.rate ≤ 0 ∨ c.burst ≤ 0) := by
    rw [hcrate, hcburst]
    exact fun hle => hle.elim (not_le.mpr hrate) (not_le.mpr hburst)
  have hself : ∀ b, Function.update l c.key b key = b := fun b => hkey ▸ Function.update_self ..
  simp only [allow, if_neg hpositive, hrefill]
  split
  · next hlt =>
    refine ⟨iff_of_false Bool.false_ne_true (not_le.mpr hlt), hnow, congrArg Bucket.last (hself _), ?_⟩
    exact (congrArg Bucket.tokens (hself _)).trans (sub_zero _).symm
  · next hge =>
    exact ⟨iff_of_true rfl (not_lt.mp hge), hnow, congrArg Bucket.last (hself _), congrArg Bucket.tokens (hself _)⟩

/-- A call of another key leaves the bucket. -/
theorem allow_other (hkey : c.key ≠ key) : (allow l c).2 key = l key := by
  unfold allow
  split
  · rfl
  · simp only
    split <;> exact Function.update_of_ne hkey.symm _ _

theorem Follows.other (h : Follows key rate burst l past) (hkey : c.key ≠ key) : Follows key rate burst (allow l c).2 past := by
  cases past with
  | nil =>
    rw [Follows, allow_other hkey]
    exact h
  | cons e past =>
    rw [Follows, allow_other hkey]
    exact h

/-! ## Runs -/

theorem history_past (key : κ) (calls : List (Call κ)) : ∀ (l : Limiter κ) (past : List (TokenBucket.Event ℚ)),
    history key l past calls = history key l [] calls ++ past := by
  induction calls with
  | nil => exact fun _ _ => rfl
  | cons c calls ih =>
    intro l past
    simp only [history]
    split
    · rw [ih _ (_ :: past), ih _ [_], List.append_assoc, List.singleton_append]
    · exact ih _ past

theorem history_append (key : κ) (calls calls' : List (Call κ)) : ∀ (l : Limiter κ) (past : List (TokenBucket.Event ℚ)),
    history key l past (calls ++ calls') = history key (run l calls) (history key l past calls) calls' := by
  induction calls with
  | nil => exact fun _ _ => rfl
  | cons c calls ih => exact fun l past => ih _ _

theorem taken_history (key : κ) (calls : List (Call κ)) : ∀ (l : Limiter κ) (past : List (TokenBucket.Event ℚ)),
    TokenBucket.taken (history key l past calls) = allowed key l calls + TokenBucket.taken past := by
  induction calls with
  | nil => exact fun l past => by rw [history, allowed, Nat.cast_zero, zero_add]
  | cons c calls ih =>
    intro l past
    have htaken : ∀ e : TokenBucket.Event ℚ, TokenBucket.taken (e :: past) = e.taken + TokenBucket.taken past := fun e => by
      rw [TokenBucket.taken, List.map_cons, List.sum_cons]
      rfl
    rw [history, ih, allowed, Nat.cast_add]
    by_cases hkey : c.key = key
    · have hif : ((if c.key = key ∧ (allow l c).1 = true then 1 else 0 : ℕ) : ℚ) =
          (⟨c.now, (allow l c).1⟩ : TokenBucket.Event ℚ).taken := by
        rw [TokenBucket.Event.taken]
        cases (allow l c).1 <;> simp [hkey]
      rw [if_pos hkey, htaken, hif, ← add_assoc]
      congr 1
      exact add_comm ..
    · rw [if_neg hkey, if_neg (fun h : c.key = key ∧ _ => hkey h.1), Nat.cast_zero, zero_add]

/-- The events of a key are calls. -/
theorem mem_history {e : TokenBucket.Event ℚ} (calls : List (Call κ)) : ∀ {l : Limiter κ} {past : List (TokenBucket.Event ℚ)},
    e ∈ history key l past calls → e ∈ past ∨ ∃ c ∈ calls, c.now = e.time := by
  induction calls with
  | nil => exact fun h => .inl h
  | cons c calls ih =>
    intro l past h
    rcases ih h with h | ⟨d, hd, htime⟩
    · split at h
      · rcases List.mem_cons.mp h with rfl | h
        · exact .inr ⟨c, List.mem_cons_self, rfl⟩
        · exact .inl h
      · exact .inl h
    · exact .inr ⟨d, List.mem_cons_of_mem c hd, htime⟩

/-- The bucket of a key is a token bucket of its own calls, whatever calls other keys make. -/
theorem run_bucket (hrate : 0 < rate) (hburst : 0 < burst) (calls : List (Call κ)) : ∀ {l : Limiter κ}
    {past : List (TokenBucket.Event ℚ)}, Clocked calls → Fixed key rate burst calls → Follows key rate burst l past →
    TokenBucket.Paid rate burst past → (∀ f ∈ past.head?, ∀ c ∈ calls, f.time ≤ c.now) →
    Follows key rate burst (run l calls) (history key l past calls) ∧
      TokenBucket.Paid rate burst (history key l past calls) := by
  induction calls with
  | nil => exact fun _ _ hfollows hpaid _ => ⟨hfollows, hpaid⟩
  | cons c calls ih =>
    intro l past hclock hfixed hfollows hpaid hpast
    obtain ⟨hpos, horder⟩ := hclock
    rw [List.pairwise_cons] at horder
    have hclock' : Clocked calls := ⟨fun d hd => hpos d (List.mem_cons_of_mem c hd), horder.2⟩
    have hfixed' : Fixed key rate burst calls := fun d hd => hfixed d (List.mem_cons_of_mem c hd)
    have hnow : ∀ f ∈ past.head?, f.time ≤ c.now := fun f hf => hpast f hf c List.mem_cons_self
    rw [history]
    by_cases hkey : c.key = key
    · obtain ⟨hcrate, hcburst⟩ := hfixed c List.mem_cons_self hkey
      obtain ⟨hallowed, hnext⟩ := allow_spec hfollows hrate hburst hkey hcrate hcburst (hpos c List.mem_cons_self)
      have htaken : (⟨c.now, (allow l c).1⟩ : TokenBucket.Event ℚ).taken ≤ TokenBucket.level rate burst c.now past := by
        rw [TokenBucket.Event.taken]
        split
        · next h => exact hallowed.mp h
        · exact TokenBucket.level_nonneg hrate.le (by exact_mod_cast hburst.le) hpaid hnow
      rw [if_pos hkey]
      refine ih hclock' hfixed' hnext ⟨htaken, hnow, hpaid⟩ fun f hf d hd => ?_
      rw [← Option.some.inj hf]
      exact horder.1 d hd
    · rw [if_neg hkey]
      exact ih hclock' hfixed' (hfollows.other hkey) hpaid fun f hf d hd => hpast f hf d (List.mem_cons_of_mem c hd)

omit [DecidableEq κ] in
/-- The calls of an interval come between its first and its last. -/
theorem between_of_pairwise {first last : Call κ} {interval : List (Call κ)}
    (horder : (first :: interval).Pairwise fun c d => c.now ≤ d.now) (hlast : last ∈ (first :: interval).getLast?) :
    ∀ c ∈ first :: interval, first.now ≤ c.now ∧ c.now ≤ last.now := by
  intro c hc
  constructor
  · rcases List.mem_cons.mp hc with rfl | hc
    · exact le_refl _
    · exact (List.pairwise_cons.mp horder).1 c hc
  · obtain ⟨init, hinit⟩ := List.getLast?_eq_some_iff.mp hlast
    rw [hinit] at horder hc
    rcases List.mem_append.mp hc with hc | hc
    · exact (List.pairwise_append.mp horder).2.2 c hc last (List.mem_singleton_self last)
    · rw [List.mem_singleton.mp hc]

/-- In every interval of a run no more calls of a key are allowed than the burst and what came in since its first call, and a
call is refused exactly if the token bucket of the calls of its key holds no whole token. -/
theorem allow_exact (key : κ) (rate : ℚ) (burst : ℤ) (hrate : 0 < rate) (hburst : 0 < burst) (calls : List (Call κ))
    (hclock : Clocked calls) (hfixed : Fixed key rate burst calls) :
    (∀ before first interval last after, calls = before ++ (first :: interval) ++ after →
      last ∈ (first :: interval).getLast? →
      (allowed key (run newLimiter before) (first :: interval) : ℚ) ≤ burst + rate * (last.now - first.now)) ∧
    ∀ before c after, calls = before ++ c :: after → c.key = key →
      ((allow (run newLimiter before) c).1 = false ↔
        TokenBucket.level rate burst c.now (history key newLimiter [] before) < 1) := by
  have hbefore : ∀ before rest, calls = before ++ rest → Follows key rate burst (run newLimiter before) (history key newLimiter [] before) ∧
      TokenBucket.Paid rate burst (history key newLimiter [] before) := by
    rintro before rest rfl
    have hclock' : Clocked before := ⟨fun c hc => hclock.1 c (List.mem_append_left rest hc), (List.pairwise_append.mp hclock.2).1⟩
    exact run_bucket hrate hburst before hclock' (fun c hc => hfixed c (List.mem_append_left rest hc)) rfl trivial
      fun f hf => nomatch hf
  constructor
  · intro before first interval last after hcalls hlast
    have hpaid := (hbefore (before ++ (first :: interval)) after hcalls).2
    rw [history_append, history_past] at hpaid
    have htaken := taken_history key (first :: interval) (run newLimiter before) []
    have horder : (first :: interval).Pairwise fun c d => c.now ≤ d.now :=
      (List.pairwise_append.mp (List.pairwise_append.mp (hcalls ▸ hclock.2)).1).2.1
    have hcallsBounds := between_of_pairwise horder hlast
    have hbounds : ∀ e ∈ history key (run newLimiter before) [] (first :: interval),
        first.now ≤ e.time ∧ e.time ≤ last.now := by
      intro e he
      obtain ⟨c, hc, htime⟩ := (mem_history _ he).resolve_left List.not_mem_nil
      exact htime ▸ hcallsBounds c hc
    cases hevents : history key (run newLimiter before) [] (first :: interval) with
    | nil =>
      have helapsed : 0 ≤ rate * (last.now - first.now) :=
        mul_nonneg hrate.le (sub_nonneg.mpr (hcallsBounds first List.mem_cons_self).2)
      have hpos : (0 : ℚ) ≤ burst := by exact_mod_cast hburst.le
      rw [hevents, TokenBucket.taken_nil, add_zero] at htaken
      rw [← htaken]
      exact add_nonneg hpos helapsed
    | cons e events =>
      obtain ⟨f, hf⟩ : ∃ f, f ∈ (e :: events).getLast? := ⟨_, List.getLast?_eq_getLast_of_ne_nil (List.cons_ne_nil e events)⟩
      have hf' : f ∈ history key (run newLimiter before) [] (first :: interval) := hevents ▸ List.mem_of_getLast? hf
      have he' : e ∈ history key (run newLimiter before) [] (first :: interval) := hevents ▸ List.mem_cons_self
      have hspan : e.time - f.time ≤ last.now - first.now := sub_le_sub (hbounds e he').2 (hbounds f hf').1
      rw [hevents] at hpaid htaken
      have hle := TokenBucket.taken_le hpaid rfl hf
      rw [htaken, TokenBucket.taken_nil, add_zero] at hle
      exact hle.trans (by gcongr)
  · intro before c after hcalls hkey
    obtain ⟨hcrate, hcburst⟩ := hfixed c (hcalls ▸ List.mem_append_right before List.mem_cons_self) hkey
    have hnow : 0 < c.now := hclock.1 c (hcalls ▸ List.mem_append_right before List.mem_cons_self)
    have hspec := (allow_spec (hbefore before _ hcalls).1 hrate hburst hkey hcrate hcburst hnow).1
    rw [← not_le, ← hspec, Bool.not_eq_true]

/-- Two keys in turns: of three calls of one key in two seconds the third is refused. -/
theorem allow_exact_two_keys :
    let calls : List (Call Bool) := [⟨true, 1 / 4, 2, 10⟩, ⟨false, 1, 1, 10⟩, ⟨true, 1 / 4, 2, 11⟩, ⟨true, 1 / 4, 2, 12⟩]
    (allowed true newLimiter calls : ℚ) ≤ (2 : ℤ) + 1 / 4 * (12 - 10) ∧
      ((allow (run newLimiter (calls.take 3)) ⟨true, 1 / 4, 2, 12⟩).1 = false ↔
        TokenBucket.level (1 / 4 : ℚ) ((2 : ℤ) : ℚ) 12 (history true newLimiter [] (calls.take 3)) < 1) := by
  intro calls
  have hclock : Clocked calls := ⟨by decide +kernel, by decide +kernel⟩
  have hfixed : Fixed true (1 / 4) 2 calls := by unfold Fixed; decide +kernel
  obtain ⟨hbound, hrefused⟩ := allow_exact true (1 / 4) 2 (by norm_num) (by decide) calls hclock hfixed
  exact ⟨hbound [] ⟨true, 1 / 4, 2, 10⟩ calls.tail ⟨true, 1 / 4, 2, 12⟩ [] rfl rfl,
    hrefused (calls.take 3) ⟨true, 1 / 4, 2, 12⟩ [] rfl rfl⟩

end Limiter

end KyNotes.HttpApi
