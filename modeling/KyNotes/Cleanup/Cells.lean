import Mathlib.Algebra.Ring.Nat
import Mathlib.Data.Nat.Basic

/-!
# SQLite cells (`internal/storage/cleanup_rows.go`)

The size of a record from its header and body, and what a record leaves on the leaf page: up to `usable - 35` bytes it is
there whole; then the part on the leaf falls to a minimum and stays there (`Flat`) until the overflow pages are full, rises
back to `usable - 35` (`Rising`), and falls again.
-/

namespace KyNotes.Cleanup

/-! ## Varints -/

/-- `sqliteVarintBytes`. -/
def sqliteVarintBytes (n : Nat) : Nat := ((List.range' 1 8).find? fun size => n < 2 ^ (7 * size)).getD 9

theorem sqliteVarintBytes_le (n : Nat) : sqliteVarintBytes n ≤ 9 := by
  unfold sqliteVarintBytes
  cases hf : (List.range' 1 8).find? fun size => n < 2 ^ (7 * size) with
  | none => exact Nat.le_refl 9
  | some i =>
    have hi := List.mem_range'_1.1 (List.find?_range'_eq_some.1 hf).2.1
    simp only [Option.getD_some]
    omega

theorem sqliteVarintBytes_pos (n : Nat) : 1 ≤ sqliteVarintBytes n := by
  unfold sqliteVarintBytes
  cases hf : (List.range' 1 8).find? fun size => n < 2 ^ (7 * size) with
  | none => exact (by decide : 1 ≤ 9)
  | some i => exact (List.mem_range'_1.1 (List.find?_range'_eq_some.1 hf).2.1).1

theorem sqliteVarintBytes_le_iff {n k : Nat} (hk : 1 ≤ k) (hk' : k ≤ 8) : sqliteVarintBytes n ≤ k ↔ n < 2 ^ (7 * k) := by
  unfold sqliteVarintBytes
  cases hf : (List.range' 1 8).find? fun size => n < 2 ^ (7 * size) with
  | none =>
    have hnot := List.find?_range'_eq_none.1 hf k hk (by omega)
    simp only [Option.getD_none]
    exact iff_of_false (by omega) (by simpa using hnot)
  | some i =>
    obtain ⟨hi, -, hmin⟩ := List.find?_range'_eq_some.1 hf
    simp only [Option.getD_some]
    constructor
    · intro hle
      exact Nat.lt_of_lt_of_le (of_decide_eq_true hi) (Nat.pow_le_pow_right (by decide) (by omega))
    · intro hlt
      by_contra hgt
      have := hmin k hk (by omega)
      simp [hlt] at this

theorem sqliteVarintBytes_mono {m n : Nat} (h : m ≤ n) : sqliteVarintBytes m ≤ sqliteVarintBytes n := by
  by_cases hn : sqliteVarintBytes n ≤ 8
  · have hpos := sqliteVarintBytes_pos n
    have hlt := (sqliteVarintBytes_le_iff hpos hn).1 (Nat.le_refl _)
    exact (sqliteVarintBytes_le_iff hpos hn).2 (by omega)
  · have hm := sqliteVarintBytes_le m
    omega

/-- A number that is two greater takes one byte more at most. -/
theorem sqliteVarintBytes_add_two (n : Nat) : sqliteVarintBytes (n + 2) ≤ sqliteVarintBytes n + 1 := by
  have hpos := sqliteVarintBytes_pos n
  have h9 := sqliteVarintBytes_le (n + 2)
  by_cases hn : sqliteVarintBytes n ≤ 7
  · have hlt := (sqliteVarintBytes_le_iff hpos (by omega)).1 (Nat.le_refl _)
    have hpow : 2 ^ (7 * (sqliteVarintBytes n + 1)) = 2 ^ (7 * sqliteVarintBytes n) * 128 := by
      rw [Nat.mul_add, Nat.pow_add]
    exact (sqliteVarintBytes_le_iff (by omega) (by omega)).2 (by omega)
  · omega

/-! ## Records -/

/-- The loop of `sqliteRecordSize`: the bytes of the header's own length. -/
def headerBytes (header : Nat) : Nat :=
  ((List.range' 1 9).find? fun size => sqliteVarintBytes (header + size) = size).getD 0

/-- `sqliteRecordSize`. -/
def sqliteRecordSize (header body : Nat) : Nat := header + headerBytes header + body

section Record

variable {header header' body t : Nat}

/-- The loop ends by 9, as no varint is longer, and at a size that is no greater than any that is enough. -/
theorem headerBytes_spec (header : Nat) :
    sqliteVarintBytes (header + headerBytes header) = headerBytes header ∧
      ∀ t, 1 ≤ t → sqliteVarintBytes (header + t) ≤ t → headerBytes header ≤ t := by
  have hgrow : ∀ t, 1 ≤ t → (∀ j, 1 ≤ j → j ≤ t → sqliteVarintBytes (header + j) ≠ j) → t < sqliteVarintBytes (header + t) := by
    intro t ht
    induction t, ht using Nat.le_induction with
    | base =>
      intro hne
      exact Nat.lt_of_le_of_ne (sqliteVarintBytes_pos _) (Ne.symm (hne 1 (Nat.le_refl 1) (Nat.le_refl 1)))
    | succ t ht ih =>
      intro hne
      have hlt := ih fun j hj hle => hne j hj (Nat.le_succ_of_le hle)
      have hmono : sqliteVarintBytes (header + t) ≤ sqliteVarintBytes (header + (t + 1)) :=
        sqliteVarintBytes_mono (by omega)
      exact Nat.lt_of_le_of_ne (by omega) (Ne.symm (hne _ (by omega) (Nat.le_refl _)))
  unfold headerBytes
  cases hf : (List.range' 1 9).find? fun size => sqliteVarintBytes (header + size) = size with
  | none =>
    have hnone := List.find?_range'_eq_none.1 hf
    have h9 := hgrow 9 (by decide) fun j hj hle => by simpa using hnone j hj (by omega)
    have := sqliteVarintBytes_le (header + 9)
    omega
  | some s =>
    obtain ⟨hs, -, hmin⟩ := List.find?_range'_eq_some.1 hf
    refine ⟨of_decide_eq_true hs, fun t ht hle => ?_⟩
    by_contra hlt
    simp only [Option.getD_some, not_le] at hlt
    have := hgrow t ht fun j hj hjt => by simpa using hmin j hj (by omega)
    omega

theorem headerBytes_pos (header : Nat) : 1 ≤ headerBytes header := by
  rw [← (headerBytes_spec header).1]
  exact sqliteVarintBytes_pos _

theorem headerBytes_mono (h : header ≤ header') : headerBytes header ≤ headerBytes header' := by
  have hle : sqliteVarintBytes (header + headerBytes header') ≤ sqliteVarintBytes (header' + headerBytes header') :=
    sqliteVarintBytes_mono (by omega)
  rw [(headerBytes_spec header').1] at hle
  exact (headerBytes_spec header).2 _ (headerBytes_pos _) hle

theorem headerBytes_succ (header : Nat) : headerBytes (header + 1) ≤ headerBytes header + 1 := by
  have hle := sqliteVarintBytes_add_two (header + headerBytes header)
  rw [(headerBytes_spec header).1] at hle
  refine (headerBytes_spec (header + 1)).2 _ (Nat.le_add_left _ _) ?_
  have he : header + 1 + (headerBytes header + 1) = header + headerBytes header + 2 := by omega
  rwa [he]

theorem sqliteRecordSize_mono {body' : Nat} (hh : header ≤ header') (hb : body ≤ body') :
    sqliteRecordSize header body ≤ sqliteRecordSize header' body' := by
  have hle := headerBytes_mono hh
  unfold sqliteRecordSize
  omega

/-- The size of a record with a number of padding bytes. -/
def paddedSize (header body pad : Nat) : Nat :=
  sqliteRecordSize (header - 1 + sqliteVarintBytes (12 + 2 * pad)) (body + pad)

/-- Another byte of padding makes a record greater, by three bytes at most. -/
theorem paddedSize_step (header body pad : Nat) : paddedSize header body pad < paddedSize header body (pad + 1) ∧
    paddedSize header body (pad + 1) ≤ paddedSize header body pad + 3 := by
  have hmono : sqliteVarintBytes (12 + 2 * pad) ≤ sqliteVarintBytes (12 + 2 * pad + 2) := sqliteVarintBytes_mono (by omega)
  have htwo := sqliteVarintBytes_add_two (12 + 2 * pad)
  have hserial : 12 + 2 * (pad + 1) = 12 + 2 * pad + 2 := by omega
  have hb := headerBytes_succ (header - 1 + sqliteVarintBytes (12 + 2 * pad))
  have hm := headerBytes_mono (Nat.le_add_right (header - 1 + sqliteVarintBytes (12 + 2 * pad)) 1)
  unfold paddedSize sqliteRecordSize
  rw [hserial]
  obtain he | he : sqliteVarintBytes (12 + 2 * pad + 2) = sqliteVarintBytes (12 + 2 * pad) ∨
      sqliteVarintBytes (12 + 2 * pad + 2) = sqliteVarintBytes (12 + 2 * pad) + 1 := by omega
  · rw [he]
    omega
  · have hadd : header - 1 + (sqliteVarintBytes (12 + 2 * pad) + 1) = header - 1 + sqliteVarintBytes (12 + 2 * pad) + 1 := rfl
    rw [he, hadd]
    omega

end Record

/-! ## Cells -/

/-- What stays on the leaf of a record that spills. -/
def minimumLocal (usable : Nat) : Nat := (usable - 12) * 32 / 255 - 23

/-- `sqliteCellLayout`. A usable size is at least 480, so that no difference is negative. -/
def sqliteCellLayout (payload usable : Nat) : Nat × Nat :=
  let (onLeaf, overflow) :=
    if payload > usable - 35 then
      let minimum := minimumLocal usable
      let k := minimum + (payload - minimum) % (usable - 4)
      let onLeaf := if k > usable - 35 then minimum else k
      (onLeaf, (payload - onLeaf + usable - 5) / (usable - 4))
    else (payload, 0)
  (sqliteVarintBytes payload + onLeaf + if overflow > 0 then 4 else 0, overflow)

section Layout

variable {usable payload n : Nat}

theorem minimumLocal_bounds (h : 480 ≤ usable) : 35 ≤ minimumLocal usable ∧ minimumLocal usable + 35 ≤ usable - 35 := by
  unfold minimumLocal
  omega

/-- The record is whole on the leaf (`n = 0`), or fills `n` overflow pages. -/
def Rising (usable n payload : Nat) : Prop :=
  (n = 0 ∨ n * (usable - 4) + minimumLocal usable ≤ payload) ∧ payload ≤ n * (usable - 4) + (usable - 35)

/-- The record has as little on the leaf as can be, and fills `n` overflow pages and a part of another one. -/
def Flat (usable n payload : Nat) : Prop :=
  n * (usable - 4) + (usable - 35) < payload ∧ payload < (n + 1) * (usable - 4) + minimumLocal usable

theorem sqliteCellLayout_low (h : payload ≤ usable - 35) :
    sqliteCellLayout payload usable = (sqliteVarintBytes payload + payload, 0) := by
  unfold sqliteCellLayout
  rw [if_neg (Nat.not_lt.2 h)]
  rfl

theorem sqliteCellLayout_spilt (hU : 480 ≤ usable) (hn : 0 < n) (h : n * (usable - 4) + minimumLocal usable ≤ payload)
    (h' : payload ≤ n * (usable - 4) + (usable - 35)) :
    sqliteCellLayout payload usable = (sqliteVarintBytes payload + (payload - n * (usable - 4)) + 4, n) := by
  obtain ⟨hm, hm'⟩ := minimumLocal_bounds hU
  have hC : usable - 4 ≤ n * (usable - 4) := Nat.le_mul_of_pos_left _ hn
  have hmod : (payload - minimumLocal usable) % (usable - 4) = payload - minimumLocal usable - n * (usable - 4) := by
    have hsplit : payload - minimumLocal usable =
        payload - minimumLocal usable - n * (usable - 4) + (usable - 4) * n := by
      rw [Nat.mul_comm (usable - 4) n]
      omega
    rw [hsplit, Nat.add_mul_mod_self_left, Nat.mod_eq_of_lt (by omega), Nat.mul_comm (usable - 4) n]
    omega
  have hdiv : (n * (usable - 4) + (usable - 5)) / (usable - 4) = n := by
    rw [Nat.mul_comm, Nat.mul_add_div (by omega), Nat.div_eq_of_lt (by omega), Nat.add_zero]
  unfold sqliteCellLayout
  simp only [hmod]
  have hk : minimumLocal usable + (payload - minimumLocal usable - n * (usable - 4)) = payload - n * (usable - 4) := by omega
  rw [if_pos (by omega), hk, if_neg (by omega)]
  have he : payload - (payload - n * (usable - 4)) + usable - 5 = n * (usable - 4) + (usable - 5) := by omega
  simp only [he, hdiv, if_pos hn]

theorem Rising.layout (hU : 480 ≤ usable) (h : Rising usable n payload) : sqliteCellLayout payload usable =
    (sqliteVarintBytes payload + (payload - n * (usable - 4)) + if n > 0 then 4 else 0, n) := by
  obtain ⟨h1, h2⟩ := h
  obtain rfl | hn := Nat.eq_zero_or_pos n
  · rw [Nat.zero_mul, Nat.zero_add] at h2
    rw [sqliteCellLayout_low h2, Nat.zero_mul]
    rfl
  · rw [if_pos hn, sqliteCellLayout_spilt hU hn (h1.resolve_left (by omega)) h2]

theorem Flat.layout (hU : 480 ≤ usable) (hf : Flat usable n payload) :
    sqliteCellLayout payload usable = (sqliteVarintBytes payload + minimumLocal usable + 4, n + 1) := by
  obtain ⟨h, h'⟩ := hf
  obtain ⟨hm, hm'⟩ := minimumLocal_bounds hU
  rw [Nat.succ_mul] at h'
  have hmod : (payload - minimumLocal usable) % (usable - 4) = payload - minimumLocal usable - n * (usable - 4) := by
    have hsplit : payload - minimumLocal usable =
        payload - minimumLocal usable - n * (usable - 4) + (usable - 4) * n := by
      rw [Nat.mul_comm (usable - 4) n]
      omega
    rw [hsplit, Nat.add_mul_mod_self_left, Nat.mod_eq_of_lt (by omega), Nat.mul_comm (usable - 4) n]
    omega
  have hdiv : (payload - minimumLocal usable + usable - 5) / (usable - 4) = n + 1 := by
    have hsplit : payload - minimumLocal usable + usable - 5 =
        (usable - 4) * (n + 1) + (payload - minimumLocal usable + usable - 5 - (n * (usable - 4) + (usable - 4))) := by
      rw [Nat.mul_comm, Nat.succ_mul]
      omega
    rw [hsplit, Nat.mul_add_div (by omega), Nat.div_eq_of_lt (by omega), Nat.add_zero]
  unfold sqliteCellLayout
  simp only [hmod]
  rw [if_pos (by omega), if_pos (by omega)]
  simp only [hdiv, if_pos (Nat.succ_pos n)]

theorem rising_or_flat (hU : 480 ≤ usable) (payload : Nat) : ∃ n, Rising usable n payload ∨ Flat usable n payload := by
  obtain ⟨hm, hm'⟩ := minimumLocal_bounds hU
  have hdiv := Nat.div_add_mod (payload - minimumLocal usable) (usable - 4)
  have hmod := Nat.mod_lt (payload - minimumLocal usable) (by omega : usable - 4 > 0)
  rw [Nat.mul_comm] at hdiv
  by_cases hlow : payload ≤ usable - 35
  · exact ⟨0, .inl ⟨.inl rfl, by omega⟩⟩
  · refine ⟨(payload - minimumLocal usable) / (usable - 4), ?_⟩
    by_cases hle : payload ≤ (payload - minimumLocal usable) / (usable - 4) * (usable - 4) + (usable - 35)
    · exact .inl ⟨.inr (by omega), hle⟩
    · refine .inr ⟨Nat.not_le.1 hle, ?_⟩
      rw [Nat.succ_mul]
      omega

end Layout

end KyNotes.Cleanup
