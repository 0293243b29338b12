import KyNotes.Lib.Digits
import Mathlib.Data.UInt

/-!
# Varints of up to nine bytes

Numbers below `2 ^ 64` in as few bytes as they need: groups of seven bits, the highest first, each but the last with the high
bit; from `2 ^ 56` on eight such groups and a last byte of eight bits. `decode_encode` is the round trip, and
`length_encode_le_iff` says how long a number is.
-/

namespace Varint

/-- The groups of seven bits, the highest first. -/
def groups (n : ℕ) : List ℕ := if n < 128 then [n] else groups (n / 128) ++ [n % 128]
termination_by n

theorem groups_of_lt {n : ℕ} (h : n < 128) : groups n = [n] := by rw [groups, if_pos h]

theorem groups_of_le {n : ℕ} (h : 128 ≤ n) : groups n = groups (n / 128) ++ [n % 128] := by
  rw [groups, if_neg (Nat.not_lt.mpr h)]

theorem groups_lt (n : ℕ) : ∀ d ∈ groups n, d < 128 := by
  induction n using groups.induct with
  | case1 n h =>
    rw [groups_of_lt h]
    exact List.forall_mem_singleton.mpr h
  | case2 n h ih =>
    rw [groups_of_le (Nat.le_of_not_lt h)]
    exact List.forall_mem_append.mpr ⟨ih, List.forall_mem_singleton.mpr (Nat.mod_lt n (by decide))⟩

theorem value_groups (n : ℕ) : Digits.value 128 (groups n) = n := by
  induction n using groups.induct with
  | case1 n h =>
    rw [groups_of_lt h, Digits.value, List.foldl_cons, List.foldl_nil, Nat.zero_mul, Nat.zero_add]
  | case2 n h ih =>
    rw [groups_of_le (Nat.le_of_not_lt h), Digits.value_concat, ih, Nat.mul_comm]
    exact Nat.div_add_mod n 128

theorem length_groups_pos (n : ℕ) : 1 ≤ (groups n).length := by
  rw [groups]
  split
  · exact Nat.le_refl 1
  · rw [List.length_append, List.length_singleton]
    exact Nat.le_add_left 1 _

theorem length_groups_le_iff {k : ℕ} : ∀ n : ℕ, (groups n).length ≤ k + 1 ↔ n < 128 ^ (k + 1) := by
  induction k with
  | zero =>
    intro n
    by_cases h : n < 128
    · rw [groups_of_lt h]
      exact iff_of_true (Nat.le_refl 1) h
    · have hpos := length_groups_pos (n / 128)
      rw [groups_of_le (Nat.le_of_not_lt h), List.length_append, List.length_singleton]
      exact iff_of_false (by omega) (by omega)
  | succ k ih =>
    intro n
    by_cases h : n < 128
    · have hpow : 128 ≤ 128 ^ (k + 1 + 1) := Nat.le_self_pow (by omega) 128
      rw [groups_of_lt h, List.length_singleton]
      exact iff_of_true (by omega) (by omega)
    · rw [groups_of_le (Nat.le_of_not_lt h), List.length_append, List.length_singleton, Nat.add_le_add_iff_right, ih,
        Nat.div_lt_iff_lt_mul (by decide), Nat.pow_succ 128 (k + 1)]

/-- The bytes of groups that others follow. -/
def marked (ds : List ℕ) : List UInt8 := ds.map fun d => UInt8.ofNat (128 + d)

def encode (n : ℕ) : List UInt8 :=
  if n < 2 ^ 56 then marked (groups n).dropLast ++ [UInt8.ofNat (n % 128)]
  else marked (Digits.digits 128 8 (n / 256)) ++ [UInt8.ofNat (n % 256)]

/-- The number after `v`, with at most so many bytes before the last one. -/
def decodeFrom : ℕ → ℕ → List UInt8 → Option (ℕ × List UInt8)
  | _, _, [] => none
  | 0, v, b :: s => some (v * 256 + b.toNat, s)
  | k + 1, v, b :: s => if b.toNat < 128 then some (v * 128 + b.toNat, s) else decodeFrom k (v * 128 + (b.toNat - 128)) s

/-- The number that bytes begin with, and what follows it. -/
def decode (s : List UInt8) : Option (ℕ × List UInt8) := decodeFrom 8 0 s

theorem dropLast_groups (n : ℕ) : (groups n).dropLast ++ [n % 128] = groups n := by
  rw [groups]
  split
  · next h => rw [Nat.mod_eq_of_lt h]; rfl
  · rw [List.dropLast_concat]

theorem decodeFrom_marked (k : ℕ) (s : List UInt8) : ∀ (ds : List ℕ) (v : ℕ), (∀ d ∈ ds, d < 128) →
    decodeFrom (ds.length + k) v (marked ds ++ s) = decodeFrom k (ds.foldl (fun v d => v * 128 + d) v) s
  | [], v, _ => by
    rw [List.length_nil, Nat.zero_add]
    rfl
  | d :: ds, v, h => by
    rw [List.forall_mem_cons] at h
    have hd : (UInt8.ofNat (128 + d)).toNat = 128 + d := by
      rw [UInt8.toNat_ofNat']
      omega
    have hlength : (d :: ds).length + k = ds.length + k + 1 := by
      rw [List.length_cons]
      omega
    have hcons : marked (d :: ds) ++ s = UInt8.ofNat (128 + d) :: (marked ds ++ s) := rfl
    rw [hlength, hcons, decodeFrom, hd, if_neg (by omega), Nat.add_sub_cancel_left, decodeFrom_marked k s ds _ h.2,
      List.foldl_cons]

/-- A number reads back, whatever follows it. -/
theorem decode_encode {n : ℕ} (h : n < 2 ^ 64) (s : List UInt8) : decode (encode n ++ s) = some (n, s) := by
  unfold encode
  split
  · next hn =>
    have hlength : (groups n).length ≤ 8 := (length_groups_le_iff n).mpr hn
    have hdrop : (groups n).dropLast.length + (8 - (groups n).dropLast.length) = 8 := by
      rw [List.length_dropLast]
      omega
    obtain ⟨k, hk⟩ : ∃ k, 8 - (groups n).dropLast.length = k + 1 := ⟨8 - (groups n).length, by
      have hpos := length_groups_pos n
      rw [List.length_dropLast]
      omega⟩
    have hvalue : (groups n).dropLast.foldl (fun v d => v * 128 + d) 0 * 128 + n % 128 = n := by
      have hconcat := Digits.value_concat (b := 128) (groups n).dropLast (n % 128)
      rw [dropLast_groups, value_groups] at hconcat
      exact hconcat.symm
    have hlast : (UInt8.ofNat (n % 128)).toNat = n % 128 := by
      rw [UInt8.toNat_ofNat']
      omega
    have hread := decodeFrom_marked (k + 1) ([UInt8.ofNat (n % 128)] ++ s) (groups n).dropLast 0 fun d hd =>
      groups_lt n d (List.mem_of_mem_dropLast hd)
    rw [← hk, hdrop, hk] at hread
    rw [List.append_assoc, decode, hread, List.singleton_append, decodeFrom, hlast, if_pos (by omega), hvalue]
  · have hlast : (UInt8.ofNat (n % 256)).toNat = n % 256 := by
      rw [UInt8.toNat_ofNat']
      omega
    have hlt : n / 256 < 128 ^ 8 := by omega
    have hvalue : (Digits.digits 128 8 (n / 256)).foldl (fun v d => v * 128 + d) 0 = n / 256 :=
      (Digits.value_digits 8 (n / 256)).trans (Nat.mod_eq_of_lt hlt)
    have hread := decodeFrom_marked 0 ([UInt8.ofNat (n % 256)] ++ s) (Digits.digits 128 8 (n / 256)) 0 fun d hd =>
      Digits.digits_lt (by decide) hd
    rw [Digits.length_digits] at hread
    rw [List.append_assoc, decode, hread, List.singleton_append, decodeFrom, hlast, hvalue]
    congr 2
    omega

theorem length_encode_le (n : ℕ) : (encode n).length ≤ 9 := by
  unfold encode
  split
  · next hn =>
    have hlength : (groups n).length ≤ 8 := (length_groups_le_iff n).mpr hn
    rw [List.length_append, marked, List.length_map, List.length_dropLast, List.length_singleton]
    omega
  · rw [List.length_append, marked, List.length_map, Digits.length_digits, List.length_singleton]

theorem length_encode_le_iff {n k : ℕ} (hk : 1 ≤ k) (hk' : k ≤ 8) : (encode n).length ≤ k ↔ n < 2 ^ (7 * k) := by
  obtain ⟨k, rfl⟩ : ∃ j, k = j + 1 := ⟨k - 1, by omega⟩
  have hpow : 128 ^ (k + 1) = 2 ^ (7 * (k + 1)) := Nat.pow_mul 2 7 (k + 1) |>.symm
  unfold encode
  split
  · have hpos := length_groups_pos n
    have hgroups := length_groups_le_iff (k := k) n
    rw [hpow] at hgroups
    rw [← hgroups, List.length_append, marked, List.length_map, List.length_dropLast, List.length_singleton,
      Nat.sub_add_cancel hpos]
  · next hn =>
    have hle : 2 ^ (7 * (k + 1)) ≤ 2 ^ 56 := Nat.pow_le_pow_right (by decide) (by omega)
    rw [List.length_append, marked, List.length_map, Digits.length_digits, List.length_singleton]
    exact iff_of_false (by omega) (by omega)

end Varint
