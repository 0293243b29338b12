import KyNotes.Cleanup.Cells
import Mathlib.Order.Basic

/-!
# The search for a padding (`internal/storage/cleanup_rows.go`)

A deletion rewrites a row, with as many bytes of padding as keep its cell from growing. The sizes that a padding gives rise
by three bytes at most from one padding to the next, and the sizes at which a record leaves least on the leaf lie in runs of
more than that; a padding is found but where the stored record is at the start of such a run and the sizes step over it
(`exists_fits_iff`).
-/

namespace KyNotes.Cleanup

/-! ## The search -/

/-- A record of a size takes the place of the old one. -/
def Fits (usable old size : Nat) : Prop :=
  size ≤ old ∧ (sqliteCellLayout size usable).1 ≤ (sqliteCellLayout old usable).1 ∧
    (sqliteCellLayout size usable).2 ≤ (sqliteCellLayout old usable).2

instance (usable old size : Nat) : Decidable (Fits usable old size) := inferInstanceAs (Decidable (_ ∧ _ ∧ _))

/-- The loop of `cleanupRowPaddingTx`, for a number of paddings. -/
def searchPadding (usable old : Nat) (size : Nat → Nat) : Nat → Nat → Option Nat
  | 0, _ => none
  | n + 1, pad =>
    if size pad > old then none
    else if (sqliteCellLayout (size pad) usable).1 ≤ (sqliteCellLayout old usable).1 ∧
        (sqliteCellLayout (size pad) usable).2 ≤ (sqliteCellLayout old usable).2 then some pad
    else searchPadding usable old size n (pad + 1)

/-- The paddings step over the sizes that have as many overflow pages as the old record, up to it; and the least padding
gives one overflow page less at most, and a greater cell. -/
def SteppedOver (usable old : Nat) (size : Nat → Nat) (minimum : Nat) : Prop :=
  ∃ n pad, (sqliteCellLayout old usable).2 = n + 1 ∧ minimum ≤ pad ∧
    size pad ≤ n * (usable - 4) + (usable - 35) ∧ old < size (pad + 1) ∧
    n ≤ (sqliteCellLayout (size minimum) usable).2 ∧
    (sqliteCellLayout old usable).1 < (sqliteCellLayout (size minimum) usable).1

section Search

variable {usable old minimum : Nat} {size : Nat → Nat}

/-- Each padding makes a record greater, by three bytes at most. -/
def Steps (size : Nat → Nat) : Prop := ∀ pad, size pad < size (pad + 1) ∧ size (pad + 1) ≤ size pad + 3

theorem Steps.add_le (h : Steps size) (pad k : Nat) : size pad + k ≤ size (pad + k) := by
  induction k with
  | zero => exact Nat.le_refl _
  | succ k ih =>
    have hlt : size (pad + k) < size (pad + (k + 1)) := (h (pad + k)).1
    omega

theorem Steps.mono (h : Steps size) {p q : Nat} (hpq : p ≤ q) : size p ≤ size q := by
  have hle := h.add_le p (q - p)
  rw [Nat.add_sub_cancel' hpq] at hle
  omega

/-- The last padding within a bound. -/
theorem Steps.last (h : Steps size) {b : Nat} (hb : size minimum ≤ b) :
    ∃ pad, minimum ≤ pad ∧ size pad ≤ b ∧ b < size (pad + 1) ∧ pad ≤ minimum + (b - size minimum) := by
  induction hd : b - size minimum generalizing b with
  | zero =>
    have := (h minimum).1
    exact ⟨minimum, Nat.le_refl _, hb, by omega, by omega⟩
  | succ d ih =>
    obtain ⟨pad, hmin, hle, hlt, hpad⟩ := ih (b := b - 1) (by omega) (by omega)
    by_cases hb' : size (pad + 1) ≤ b
    · have := (h (pad + 1)).1
      exact ⟨pad + 1, by omega, hb', by omega, by omega⟩
    · exact ⟨pad, hmin, by omega, by omega, by omega⟩

theorem searchPadding_some {n pad p : Nat} (h : searchPadding usable old size n pad = some p) :
    pad ≤ p ∧ p < pad + n ∧ Fits usable old (size p) := by
  induction n generalizing pad with
  | zero => cases h
  | succ n ih =>
    rw [searchPadding] at h
    split at h
    · cases h
    · rename_i hle
      split at h
      · rename_i hfits
        cases h
        exact ⟨Nat.le_refl _, Nat.lt_add_of_pos_right (Nat.succ_pos n), Nat.not_lt.1 hle, hfits⟩
      · obtain ⟨h1, h2, h3⟩ := ih h
        exact ⟨by omega, by omega, h3⟩

theorem searchPadding_isSome (hs : Steps size) {n pad p : Nat} (h1 : pad ≤ p) (h2 : p < pad + n)
    (hfits : Fits usable old (size p)) : ∃ q, searchPadding usable old size n pad = some q := by
  induction n generalizing pad with
  | zero => omega
  | succ n ih =>
    have hle : size pad ≤ old := (hs.mono h1).trans hfits.1
    rw [searchPadding, if_neg (Nat.not_lt.2 hle)]
    split
    · exact ⟨pad, rfl⟩
    · rename_i hnot
      obtain rfl | hlt := Nat.eq_or_lt_of_le h1
      · exact absurd hfits.2 hnot
      · exact ih hlt (by omega)

/-- A record that leaves as little on the leaf as can be takes the place of any greater one. -/
theorem fits_flat (hU : 480 ≤ usable) {n p : Nat} (h : Flat usable n p) (hle : p ≤ old) : Fits usable old p := by
  obtain ⟨hm, hm'⟩ := minimumLocal_bounds hU
  have hv := sqliteVarintBytes_mono hle
  refine ⟨hle, ?_⟩
  obtain ⟨k, hk | hk⟩ := rising_or_flat hU old
  · have hnk : n < k := by
      by_contra hkn
      have := Nat.mul_le_mul_right (usable - 4) (Nat.not_lt.1 hkn)
      have := h.1
      have := hk.2
      omega
    have := hk.1.resolve_left (by omega)
    rw [h.layout hU, hk.layout hU, if_pos (by omega)]
    exact ⟨by simp only; omega, hnk⟩
  · have hnk : n ≤ k := by
      by_contra hkn
      have := Nat.mul_le_mul_right (usable - 4) (Nat.not_le.1 hkn)
      have := h.1
      have := hk.2
      rw [Nat.succ_eq_add_one] at *
      omega
    rw [h.layout hU, hk.layout hU]
    exact ⟨by simp only; omega, Nat.succ_le_succ hnk⟩

/-- Records that fill the same overflow pages have cells in the order of their sizes. -/
theorem cell_rising (hU : 480 ≤ usable) {n p q : Nat} (hp : Rising usable n p) (hq : Rising usable n q) (hle : p ≤ q) :
    (sqliteCellLayout p usable).1 ≤ (sqliteCellLayout q usable).1 := by
  have hv := sqliteVarintBytes_mono hle
  rw [hp.layout hU, hq.layout hU]
  simp only
  omega

/-- A padding is found but where the paddings step over. -/
theorem exists_fits_iff (hU : 480 ≤ usable) (hs : Steps size) (hmin : size minimum ≤ old) :
    (∃ pad, minimum ≤ pad ∧ pad ≤ minimum + usable + 18 ∧ Fits usable old (size pad)) ↔
      ¬SteppedOver usable old size minimum := by
  obtain ⟨hm, hm'⟩ := minimumLocal_bounds hU
  constructor
  · -- what is found is at most the last padding before the step, and no smaller than the least one
    rintro ⟨p, hp, -, hle, hcell, -⟩ ⟨n, pad, hold, -, hpad, hover, hn, hgt⟩
    have hpp : p ≤ pad := by
      by_contra hlt
      have := hs.mono (Nat.not_le.1 hlt)
      rw [Nat.succ_eq_add_one] at this
      omega
    have hsp := hs.mono hpp
    have hsm := hs.mono hp
    obtain ⟨k, hk | hk⟩ := rising_or_flat hU (size minimum)
    · have hkn : k = n := by
        rw [hk.layout hU] at hn
        refine Nat.le_antisymm ?_ hn
        by_contra hlt
        have := Nat.mul_le_mul_right (usable - 4) (Nat.not_le.1 hlt)
        have := hk.1.resolve_left (by omega)
        rw [Nat.succ_mul] at *
        omega
      have hpr : Rising usable k (size p) := by
        refine ⟨hk.1.imp_right fun h => h.trans hsm, ?_⟩
        rw [hkn]
        omega
      have := cell_rising hU hk hpr hsm
      omega
    · have := (fits_flat hU hk hmin).2.1
      omega
  · intro hnot
    obtain ⟨n, hn | hn⟩ := rising_or_flat hU (size minimum)
    · obtain ⟨pad, hpad, hle, hlt, hbound⟩ := hs.last hn.2
      have hstep := (hs pad).2
      have hroom : pad + 1 ≤ minimum + usable + 18 := by
        obtain rfl | h1 := hn.1 <;> omega
      have hflat : Flat usable n (size (pad + 1)) := by
        refine ⟨hlt, ?_⟩
        rw [Nat.succ_mul]
        omega
      by_cases hreach : size (pad + 1) ≤ old
      · exact ⟨pad + 1, by omega, hroom, fits_flat hU hflat hreach⟩
      refine ⟨minimum, Nat.le_refl _, by omega, hmin, ?_⟩
      by_cases hsame : old ≤ n * (usable - 4) + (usable - 35)
      · have hold : Rising usable n old := ⟨hn.1.imp_right fun h => h.trans hmin, hsame⟩
        refine ⟨cell_rising hU hn hold hmin, ?_⟩
        rw [hn.layout hU, hold.layout hU]
      · have hold : Flat usable n old := ⟨Nat.not_le.1 hsame, lt_of_lt_of_le (Nat.not_le.1 hreach) (Nat.le_of_lt hflat.2)⟩
        have hov : (sqliteCellLayout old usable).2 = n + 1 := by rw [hold.layout hU]
        have hov' : (sqliteCellLayout (size minimum) usable).2 = n := by rw [hn.layout hU]
        refine ⟨?_, by omega⟩
        by_contra hgt
        exact hnot ⟨n, pad, hov, hpad, hle, Nat.not_le.1 hreach, hov'.ge, Nat.not_le.1 hgt⟩
    · exact ⟨minimum, Nat.le_refl _, by omega, fits_flat hU hn hmin⟩

end Search

end KyNotes.Cleanup
