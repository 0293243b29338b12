import Mathlib.Data.List.Basic
import Mathlib.Data.Nat.ModEq

/-!
# Fields of a binary file

Numbers in little-endian bytes, writes into a buffer and reads from a file. `At file i b` is the fact that a proof about a
format needs: the bytes `b` stand at `i`. It splits with the bytes (`At.left`, `At.right`) and answers the reads
(`At.field`, `At.slice`).
-/

namespace Binary

abbrev Bytes := List UInt8

/-- The low `w` bytes of a number, the lowest first. -/
def le : Nat → Nat → Bytes
  | 0, _ => []
  | w + 1, n => UInt8.ofNat n :: le w (n / 256)

/-- The number that bytes stand for. -/
def value : Bytes → Nat
  | [] => 0
  | b :: bs => b.toNat + 256 * value bs

@[simp] theorem length_le : ∀ w n : Nat, (le w n).length = w
  | 0, _ => rfl
  | w + 1, n => congrArg (· + 1) (length_le w (n / 256))

theorem value_le : ∀ w n : Nat, value (le w n) = n % 256 ^ w
  | 0, n => by rw [Nat.pow_zero, Nat.mod_one]; rfl
  | w + 1, n => by
    have hb : (UInt8.ofNat n).toNat = n % 256 := UInt8.toNat_ofNat'
    rw [le, value, value_le w, hb, Nat.pow_succ', Nat.mod_mul]

/-- A write into a buffer that has the room. -/
def write (b : Bytes) (i : Nat) (xs : Bytes) : Bytes := b.take i ++ xs ++ b.drop (i + xs.length)

/-- The `n` bytes at `i`. -/
def slice (file : Bytes) (i n : Nat) : Option Bytes :=
  if i + n ≤ file.length then some ((file.drop i).take n) else none

/-- The number in the `w` bytes at `i`. -/
def field (file : Bytes) (i w : Nat) : Option Nat := (slice file i w).map value

/-- The bytes `b` stand at `i`. -/
def At (file : Bytes) (i : Nat) (b : Bytes) : Prop := ∃ pre post, file = pre ++ b ++ post ∧ pre.length = i

variable {file a b : Bytes} {i : Nat}

theorem at_self : At file 0 file := ⟨[], [], by simp, rfl⟩

theorem At.left (h : At file i (a ++ b)) : At file i a := by
  obtain ⟨pre, post, rfl, hi⟩ := h
  exact ⟨pre, b ++ post, by simp only [List.append_assoc], hi⟩

theorem At.right (h : At file i (a ++ b)) : At file (i + a.length) b := by
  obtain ⟨pre, post, rfl, rfl⟩ := h
  exact ⟨pre ++ a, post, by simp only [List.append_assoc], List.length_append⟩

/-- Past a field of a known width. -/
theorem At.skip {w : Nat} (h : At file i (a ++ b)) (ha : a.length = w) : At file (i + w) b := ha ▸ h.right

theorem At.slice (h : At file i b) : slice file i b.length = some b := by
  obtain ⟨pre, post, rfl, rfl⟩ := h
  unfold Binary.slice
  rw [if_pos (by simp only [List.length_append]; omega), List.append_assoc, List.drop_left, List.take_left]

theorem At.field {w n : Nat} (h : At file i (le w n)) (hn : n < 256 ^ w) : field file i w = some n := by
  have hs := h.slice
  rw [length_le] at hs
  unfold Binary.field
  rw [hs, Option.map_some, value_le, Nat.mod_eq_of_lt hn]

end Binary
