import Mathlib.Algebra.BigOperators.Group.List.Basic
import Mathlib.Algebra.Order.Ring.Nat
import Mathlib.Data.UInt

/-!
# Bytes read as UTF-8

A string that is any bytes, read character by character: where no character starts, one byte is passed over. The text
of such a string has the replacement character in the place of each byte passed over, and is longer than the string.
-/

namespace Utf8

/-- The character that the bytes begin with. -/
def decodeChar (s : List UInt8) : Option Char := ByteArray.utf8DecodeChar? ⟨s.toArray⟩ 0

theorem utf8Size_le {s : List UInt8} {c : Char} (h : decodeChar s = some c) : c.utf8Size ≤ s.length := by
  have := ByteArray.le_size_of_utf8DecodeChar?_eq_some h
  rw [Nat.zero_add] at this
  exact this

/-- At most `n` characters; `none` is a byte passed over. -/
def runesUpTo : ℕ → List UInt8 → List (Option Char)
  | 0, _ => []
  | _ + 1, [] => []
  | n + 1, b :: s =>
    match decodeChar (b :: s) with
    | some c => some c :: runesUpTo n ((b :: s).drop c.utf8Size)
    | none => none :: runesUpTo n s

/-- The characters of a string. -/
def runes (s : List UInt8) : List (Option Char) := runesUpTo s.length s

/-- The bytes that were read. -/
def width (r : Option Char) : ℕ := r.elim 1 Char.utf8Size

/-- The bytes of a text. -/
def size (cs : List Char) : ℕ := (cs.map Char.utf8Size).sum

/-- The text of a string. -/
def text (s : List UInt8) : List Char := (runes s).map fun r => r.getD '\uFFFD'

theorem sum_width_runesUpTo : ∀ {n : ℕ} {s : List UInt8}, s.length ≤ n → ((runesUpTo n s).map width).sum = s.length
  | 0, s, h => by rw [List.length_eq_zero_iff.1 (Nat.le_zero.1 h)]; rfl
  | n + 1, [], _ => rfl
  | n + 1, b :: s, h => by
    have hs : s.length ≤ n := Nat.le_of_succ_le_succ h
    rw [runesUpTo]
    split
    · rename_i c hc
      have hle := utf8Size_le hc
      have hpos := c.utf8Size_pos
      have hd : ((b :: s).drop c.utf8Size).length ≤ n := by
        rw [List.length_drop, List.length_cons]
        omega
      rw [List.map_cons, List.sum_cons, sum_width_runesUpTo hd, List.length_drop]
      exact Nat.add_sub_cancel' hle
    · rw [List.map_cons, List.sum_cons, sum_width_runesUpTo hs, List.length_cons, Nat.add_comm]
      rfl

/-- Every byte of a string is read once. -/
theorem sum_width_runes (s : List UInt8) : ((runes s).map width).sum = s.length := sum_width_runesUpTo (Nat.le_refl _)

theorem sum_map_le {f : Option Char → ℕ} {k : ℕ} (h : ∀ r, f r ≤ k * width r) (rs : List (Option Char)) :
    (rs.map f).sum ≤ k * (rs.map width).sum := by
  induction rs with
  | nil => exact Nat.le_refl _
  | cons r rs ih =>
    rw [List.map_cons, List.sum_cons, List.map_cons, List.sum_cons, Nat.mul_add]
    exact Nat.add_le_add (h r) ih

/-- What a character costs, in total, is bounded by what a byte of it costs. -/
theorem sum_runes_le {f : Option Char → ℕ} {k : ℕ} (h : ∀ r, f r ≤ k * width r) (s : List UInt8) :
    ((runes s).map f).sum ≤ k * s.length := by
  rw [← sum_width_runes s]
  exact sum_map_le h _

/-! ## Texts as strings -/

/-- The UTF-8 of a text. -/
def encode (cs : List Char) : List UInt8 := cs.flatMap String.utf8EncodeChar

theorem decodeChar_encode (c : Char) (s : List UInt8) : decodeChar (String.utf8EncodeChar c ++ s) = some c := by
  have h := ByteArray.utf8DecodeChar?_utf8EncodeChar_append (b := ⟨s.toArray⟩) (c := c)
  rw [decodeChar, ← h]
  congr 1
  apply ByteArray.ext
  simp

theorem runesUpTo_encode : ∀ {n : ℕ} (cs : List Char), (encode cs).length ≤ n → runesUpTo n (encode cs) = cs.map some
  | 0, [], _ => rfl
  | n + 1, [], _ => rfl
  | n, c :: cs, h => by
    have hpos := c.utf8Size_pos
    have hlen := String.length_utf8EncodeChar c
    have hcons : encode (c :: cs) = String.utf8EncodeChar c ++ encode cs := rfl
    rw [hcons, List.length_append, hlen] at h
    obtain ⟨n, rfl⟩ : ∃ m, n = m + 1 := ⟨n - 1, by omega⟩
    have hdecode := decodeChar_encode c (encode cs)
    have hdrop : (String.utf8EncodeChar c ++ encode cs).drop c.utf8Size = encode cs := by
      rw [← hlen]
      exact List.drop_left
    rw [hcons]
    cases hs : String.utf8EncodeChar c ++ encode cs with
    | nil =>
      have hnil := congrArg List.length hs
      rw [List.length_append, hlen, List.length_nil] at hnil
      omega
    | cons b s =>
      rw [hs] at hdecode hdrop
      rw [runesUpTo, hdecode]
      simp only [hdrop, List.map_cons]
      rw [runesUpTo_encode cs (by omega)]

/-- A text is read back. -/
theorem runes_encode (cs : List Char) : runes (encode cs) = cs.map some := runesUpTo_encode cs (Nat.le_refl _)

theorem text_encode (cs : List Char) : text (encode cs) = cs := by
  rw [text, runes_encode, List.map_map]
  exact List.map_id cs

end Utf8
