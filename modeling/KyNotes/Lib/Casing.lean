import KyNotes.Lib.Utf16

/-!
# Lower case

`toLowerCase` as ECMAScript has it from Unicode: each code point has its lower case, and a capital sigma at the end of a word
has the final one. What a code point beyond ASCII has is in the `Tables` of a Unicode version.

A mark is an ASCII character that is neither a letter nor ignored inside of a word. What is on its two sides is lowered by
itself (`toLowerCase_mark`).
-/

namespace Casing

open Utf16 (isHigh isLow)

/-- The code points of a string; a surrogate without its partner is one by itself. -/
def points : List UInt16 → List ℕ
  | [] => []
  | [u] => [u.toNat]
  | u :: v :: s =>
    if isHigh u ∧ isLow v then (0x10000 + (u.toNat - 0xd800) * 0x400 + (v.toNat - 0xdc00)) :: points s
    else u.toNat :: points (v :: s)

/-- The code units of a code point. -/
def unitsOf (n : ℕ) : List UInt16 :=
  if n < 0x10000 then [UInt16.ofNat n]
  else [UInt16.ofNat (0xd800 + (n - 0x10000) / 0x400), UInt16.ofNat (0xdc00 + (n - 0x10000) % 0x400)]

/-- What Unicode says of the code points beyond ASCII. None of them becomes a slash. -/
structure Tables where
  lower : ℕ → List ℕ
  cased : ℕ → Bool
  ignorable : ℕ → Bool
  no_slash : ∀ c, 47 ∉ (lower c).flatMap unitsOf

variable (T : Tables)

def Tables.lowerOf (c : ℕ) : List ℕ := if 65 ≤ c ∧ c ≤ 90 then [c + 32] else if c < 128 then [c] else T.lower c

def Tables.isCased (c : ℕ) : Bool :=
  if c < 128 then (65 ≤ c ∧ c ≤ 90) ∨ (97 ≤ c ∧ c ≤ 122) else T.cased c

/-- `Case_Ignorable`. -/
def Tables.isIgnorable (c : ℕ) : Bool := if c < 128 then [39, 46, 58, 94, 96].contains c else T.ignorable c

/-- A cased letter comes, with only ignored ones before it. -/
def followedByCased : List ℕ → Bool
  | [] => false
  | c :: s => T.isCased c || (T.isIgnorable c && followedByCased s)

/-- The lower case of what comes after the word part that `inWord` tells of. -/
def lowerPoints : Bool → List ℕ → List ℕ
  | _, [] => []
  | inWord, c :: s =>
    (if c = 0x3a3 ∧ inWord = true ∧ followedByCased T s = false then [0x3c2] else T.lowerOf c) ++
      lowerPoints (T.isCased c || (T.isIgnorable c && inWord)) s

def toLowerCase (s : List UInt16) : List UInt16 := (lowerPoints T false (points s)).flatMap unitsOf

/-- ASCII, no letter and not ignored. -/
def isMark (c : UInt16) : Bool :=
  c.toNat < 128 ∧ ¬(65 ≤ c.toNat ∧ c.toNat ≤ 90) ∧ ¬(97 ≤ c.toNat ∧ c.toNat ≤ 122) ∧
    [39, 46, 58, 94, 96].contains c.toNat = false

/-! ## Code points -/

theorem points_cons {u : UInt16} (hu : isHigh u = false) (s : List UInt16) : points (u :: s) = u.toNat :: points s := by
  cases s with
  | nil => rfl
  | cons v s => simp [points, hu]

theorem points_append {c : UInt16} (hhigh : isHigh c = false) (hlow : isLow c = false) (b : List UInt16) :
    ∀ a : List UInt16, points (a ++ c :: b) = points a ++ c.toNat :: points b := by
  intro a
  induction a using points.induct with
  | case1 => exact points_cons hhigh b
  | case2 u => simp [points, hlow, points_cons hhigh]
  | case3 u v s h ih => simp [points, h, ih]
  | case4 u v s h ih =>
    rw [List.cons_append, List.cons_append, points, if_neg h, points, if_neg h, ← List.cons_append, ih, List.cons_append]

theorem not_surrogate {c : UInt16} (hc : c.toNat < 128) : isHigh c = false ∧ isLow c = false := by
  unfold isHigh isLow
  simp
  omega

theorem points_ascii : ∀ {s : List UInt16}, (∀ c ∈ s, c.toNat < 128) → points s = s.map UInt16.toNat
  | [], _ => rfl
  | c :: s, h => by
    have hc := h c List.mem_cons_self
    rw [points_cons (not_surrogate hc).1, points_ascii fun d hd => h d (List.mem_cons_of_mem c hd)]
    rfl

/-- An ASCII code point is a character of the string. -/
theorem mem_points {n : ℕ} (hn : n < 128) : ∀ {s : List UInt16}, n ∈ points s → UInt16.ofNat n ∈ s := by
  intro s
  induction s using points.induct with
  | case1 => nofun
  | case2 u =>
    intro h
    obtain rfl := List.mem_singleton.mp h
    rw [UInt16.ofNat_toNat]
    exact List.mem_cons_self
  | case3 u v s h ih =>
    intro hmem
    rw [points, if_pos h, List.mem_cons] at hmem
    rcases hmem with heq | hmem
    · omega
    · exact List.mem_cons_of_mem u (List.mem_cons_of_mem v (ih hmem))
  | case4 u v s h ih =>
    intro hmem
    rw [points, if_neg h, List.mem_cons] at hmem
    rcases hmem with rfl | hmem
    · rw [UInt16.ofNat_toNat]
      exact List.mem_cons_self
    · exact List.mem_cons_of_mem u (ih hmem)

theorem unitsOf_toNat (c : UInt16) : unitsOf c.toNat = [c] := by
  rw [unitsOf, if_pos c.toNat_lt, UInt16.ofNat_toNat]

/-! ## Marks -/

section Marks

variable {T}

theorem followedByCased_mark {c : ℕ} (hcased : T.isCased c = false) (hignorable : T.isIgnorable c = false) (t : List ℕ) :
    ∀ s : List ℕ, followedByCased T (s ++ c :: t) = followedByCased T s
  | [] => by simp [followedByCased, hcased, hignorable]
  | d :: s => by rw [List.cons_append, followedByCased, followedByCased, followedByCased_mark hcased hignorable t s]

theorem lowerPoints_mark {c : ℕ} (hcased : T.isCased c = false) (hignorable : T.isIgnorable c = false) (hc : c < 128)
    (hlower : T.lowerOf c = [c]) (t : List ℕ) : ∀ (inWord : Bool) (s : List ℕ),
    lowerPoints T inWord (s ++ c :: t) = lowerPoints T inWord s ++ c :: lowerPoints T false t
  | inWord, [] => by
    have hsigma : c ≠ 0x3a3 := by omega
    simp [lowerPoints, hcased, hignorable, hlower, hsigma]
  | inWord, d :: s => by
    rw [List.cons_append, lowerPoints, lowerPoints, followedByCased_mark hcased hignorable,
      lowerPoints_mark hcased hignorable hc hlower t, List.append_assoc]

/-- The two sides of a mark. -/
theorem toLowerCase_mark {c : UInt16} (hc : isMark c = true) (a b : List UInt16) :
    toLowerCase T (a ++ c :: b) = toLowerCase T a ++ c :: toLowerCase T b := by
  obtain ⟨hascii, hupper, hletter, hignored⟩ := of_decide_eq_true hc
  have hcased : T.isCased c.toNat = false := by
    rw [Tables.isCased, if_pos hascii]
    exact decide_eq_false fun h => h.elim hupper hletter
  have hignorable : T.isIgnorable c.toNat = false := by rw [Tables.isIgnorable, if_pos hascii, hignored]
  have hlower : T.lowerOf c.toNat = [c.toNat] := by rw [Tables.lowerOf, if_neg hupper, if_pos hascii]
  unfold toLowerCase
  rw [points_append (not_surrogate hascii).1 (not_surrogate hascii).2, lowerPoints_mark hcased hignorable hascii hlower,
    List.flatMap_append, List.flatMap_cons, unitsOf_toNat]
  rfl

theorem lowerOf_slash {c : ℕ} (h : 47 ∈ (T.lowerOf c).flatMap unitsOf) : c = 47 := by
  unfold Tables.lowerOf at h
  split at h
  · have hsmall : c + 32 < 0x10000 := by omega
    have heq : (47 : UInt16) = UInt16.ofNat (c + 32) := by simpa [unitsOf, hsmall] using h
    have := congrArg UInt16.toNat heq
    simp at this
    omega
  · split at h
    · have hsmall : c < 0x10000 := by omega
      have heq : (47 : UInt16) = UInt16.ofNat c := by simpa [unitsOf, hsmall] using h
      have := congrArg UInt16.toNat heq
      simp at this
      omega
    · exact absurd h (T.no_slash c)

/-- No slash comes in. -/
theorem slash_not_mem {s : List UInt16} (hs : 47 ∉ s) : 47 ∉ toLowerCase T s := by
  have hpoints : 47 ∉ points s := fun h => hs (mem_points (by decide) h)
  suffices ∀ (ps : List ℕ) (inWord : Bool), 47 ∈ (lowerPoints T inWord ps).flatMap unitsOf → 47 ∈ ps from
    fun h => hpoints (this _ false h)
  intro ps
  induction ps with
  | nil => intro inWord h; exact absurd h List.not_mem_nil
  | cons c ps ih =>
    intro inWord h
    rw [lowerPoints, List.flatMap_append, List.mem_append] at h
    rcases h with h | h
    · split at h
      · exact absurd h (by decide)
      · exact lowerOf_slash h ▸ List.mem_cons_self
    · exact List.mem_cons_of_mem c (ih _ h)

/-- A character that lowering keeps, at the end. -/
theorem toLowerCase_concat {c : UInt16} (hc : c.toNat < 128) (hupper : ¬(65 ≤ c.toNat ∧ c.toNat ≤ 90)) (a : List UInt16) :
    ∃ b, toLowerCase T (a ++ [c]) = b ++ [c] := by
  have hlower : T.lowerOf c.toNat = [c.toNat] := by rw [Tables.lowerOf, if_neg hupper, if_pos hc]
  suffices ∀ (ps : List ℕ) (inWord : Bool), ∃ qs, lowerPoints T inWord (ps ++ [c.toNat]) = qs ++ [c.toNat] by
    obtain ⟨qs, hqs⟩ := this (points a) false
    refine ⟨qs.flatMap unitsOf, ?_⟩
    unfold toLowerCase
    rw [points_append (not_surrogate hc).1 (not_surrogate hc).2, show points [] = [] from rfl, hqs, List.flatMap_append,
      List.flatMap_singleton, unitsOf_toNat]
  intro ps
  induction ps with
  | nil =>
    intro inWord
    refine ⟨[], ?_⟩
    have hsigma : c.toNat ≠ 0x3a3 := by omega
    simp [lowerPoints, hsigma, hlower]
  | cons d ps ih =>
    intro inWord
    rw [List.cons_append, lowerPoints]
    obtain ⟨qs, hqs⟩ := ih (T.isCased d || (T.isIgnorable d && inWord))
    rw [hqs, ← List.append_assoc]
    exact ⟨_, rfl⟩

/-- ASCII without capitals stays. -/
theorem toLowerCase_lower {s : List UInt16} (hs : ∀ c ∈ s, c.toNat < 128 ∧ ¬(65 ≤ c.toNat ∧ c.toNat ≤ 90)) :
    toLowerCase T s = s := by
  unfold toLowerCase
  rw [points_ascii fun c hc => (hs c hc).1]
  suffices ∀ inWord, (lowerPoints T inWord (s.map UInt16.toNat)).flatMap unitsOf = s from this false
  induction s with
  | nil => intro inWord; rfl
  | cons c s ih =>
    intro inWord
    obtain ⟨hc, hupper⟩ := hs c List.mem_cons_self
    have hsigma : c.toNat ≠ 0x3a3 := by omega
    have hlower : T.lowerOf c.toNat = [c.toNat] := by rw [Tables.lowerOf, if_neg hupper, if_pos hc]
    rw [List.map_cons, lowerPoints, if_neg fun h => hsigma h.1, hlower, List.singleton_append, List.flatMap_cons,
      unitsOf_toNat, ih fun d hd => hs d (List.mem_cons_of_mem c hd)]
    rfl

end Marks

end Casing
