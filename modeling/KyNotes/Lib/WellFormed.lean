import KyNotes.Lib.Utf16

/-!
# Strings without lone surrogates

`toWellFormed` puts U+FFFD in the place of each surrogate without a partner, as every encoding does. What comes from
characters is well formed (`wellFormed_units`), and a string that a text without U+FFFD comes out of is that text
(`eq_units_of_scalars`).
-/

namespace Utf16

/-- `String.prototype.toWellFormed`. -/
def toWellFormed (s : List UInt16) : List UInt16 := (scalars s).flatMap units

/-- `String.prototype.isWellFormed`. -/
def IsWellFormed (s : List UInt16) : Prop := toWellFormed s = s

instance : DecidablePred IsWellFormed := fun _ => inferInstanceAs (Decidable (_ = _))

theorem wellFormed_units (cs : List Char) : IsWellFormed (cs.flatMap units) := by
  rw [IsWellFormed, toWellFormed, scalars_flatMap]

theorem scalars_toWellFormed (s : List UInt16) : scalars (toWellFormed s) = scalars s := scalars_flatMap _

theorem units_lone {u : UInt16} (h : isHigh u = false) (h' : isLow u = false) : units (lone u) = [u] := by
  have hlt := u.toNat_lt
  have hvalid : u.toNat.isValidChar := by
    simp only [isHigh, isLow, decide_eq_false_iff_not] at h h'
    unfold Nat.isValidChar
    omega
  have hlone : lone u = Char.ofNat u.toNat := if_neg (by simp [h, h'])
  have hcode : (Char.ofNat u.toNat).toNat = u.toNat := by
    rw [Char.ofNat, dif_pos hvalid]
    rfl
  rw [hlone, units, hcode, if_pos (by omega)]
  exact congrArg (· :: []) UInt16.ofNat_toNat

theorem units_pair {h l : UInt16} (hh : isHigh h = true) (hl : isLow l = true) : units (pair h l) = [h, l] := by
  simp only [isHigh, isLow, decide_eq_true_eq] at hh hl
  have hvalid : (0x10000 + (h.toNat - 0xd800) * 0x400 + (l.toNat - 0xdc00)).isValidChar := by
    unfold Nat.isValidChar
    omega
  have hcode : (pair h l).toNat = 0x10000 + (h.toNat - 0xd800) * 0x400 + (l.toNat - 0xdc00) :=
    by rw [pair, Char.ofNat, dif_pos hvalid]; rfl
  have hhigh : 0xd800 + (0x10000 + (h.toNat - 0xd800) * 0x400 + (l.toNat - 0xdc00) - 0x10000) / 0x400 = h.toNat := by omega
  have hlow : 0xdc00 + (0x10000 + (h.toNat - 0xd800) * 0x400 + (l.toNat - 0xdc00) - 0x10000) % 0x400 = l.toNat := by omega
  rw [units, hcode, if_neg (by omega), hhigh, hlow, UInt16.ofNat_toNat, UInt16.ofNat_toNat]

/-- A unit by itself is itself or is replaced. -/
theorem units_lone_or (u : UInt16) : units (lone u) = [u] ∨ lone u = '\uFFFD' := by
  by_cases h : isHigh u ∨ isLow u
  · exact .inr (if_pos h)
  · rw [not_or, Bool.not_eq_true, Bool.not_eq_true] at h
    exact .inl (units_lone h.1 h.2)

theorem eq_units_of_scalars : ∀ {s : List UInt16}, '\uFFFD' ∉ scalars s → s = (scalars s).flatMap units
  | [], _ => rfl
  | [u], h => by
    rcases units_lone_or u with hu | hu
    · rw [scalars, List.flatMap_singleton, hu]
    · rw [scalars, hu] at h
      exact absurd List.mem_cons_self h
  | u :: v :: s, h => by
    rw [scalars] at h ⊢
    split at h
    · next hpair =>
      rw [if_pos hpair, List.flatMap_cons, units_pair hpair.1 hpair.2,
        ← eq_units_of_scalars fun hmem => h (List.mem_cons_of_mem _ hmem)]
      rfl
    · next hpair =>
      rw [if_neg hpair, List.flatMap_cons, ← eq_units_of_scalars fun hmem => h (List.mem_cons_of_mem _ hmem)]
      rcases units_lone_or u with hu | hu
      · rw [hu]
        rfl
      · rw [hu] at h
        exact absurd List.mem_cons_self h

/-- A text without U+FFFD is what is replaced only where it was there. -/
theorem scalars_eq_iff {cs : List Char} (h : '\uFFFD' ∉ cs) {s : List UInt16} : scalars s = cs ↔ s = cs.flatMap units := by
  constructor
  · rintro rfl
    exact eq_units_of_scalars h
  · rintro rfl
    exact scalars_flatMap cs

theorem toWellFormed_eq_iff {cs : List Char} (h : '\uFFFD' ∉ cs) {s : List UInt16} :
    toWellFormed s = cs.flatMap units ↔ s = cs.flatMap units := by
  rw [← scalars_eq_iff h, ← scalars_eq_iff h, scalars_toWellFormed]

/-- A string whose units are no surrogates. -/
theorem isWellFormed_of_all {s : List UInt16} (h : ∀ u ∈ s, isHigh u = false ∧ isLow u = false) : IsWellFormed s := by
  induction s with
  | nil => rfl
  | cons u s ih =>
    obtain ⟨⟨hh, hl⟩, hs⟩ := List.forall_mem_cons.mp h
    rw [IsWellFormed, toWellFormed, scalars_cons hh, List.flatMap_cons, units_lone hh hl]
    exact congrArg (u :: ·) (ih hs)

/-- A string that is without U+FFFD after the replacement was well formed. -/
theorem isWellFormed_of_not_mem {s : List UInt16} (h : 0xfffd ∉ toWellFormed s) : IsWellFormed s := by
  refine (eq_units_of_scalars fun hmem => h ?_).symm
  exact List.mem_flatMap.mpr ⟨'\uFFFD', hmem, by decide⟩

end Utf16
