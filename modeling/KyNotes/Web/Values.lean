import Mathlib.Algebra.Order.Ring.Unbundled.Rat
import KyNotes.Lib.Base64
import KyNotes.Server.Schema

/-!
# Values of the web client

Numbers, strings and byte arrays as the client compares them. Identifiers, names and base64 texts are strings; a
generation or a version is a number, which a server may choose freely.
-/

namespace KyNotes.Web

/-- A finite number of JavaScript. -/
abbrev Num := ℚ

/-- `Number.isInteger`. -/
def isInteger (x : Num) : Bool := x.den = 1

/-- `Number.isSafeInteger`. -/
def isSafeInteger (x : Num) : Bool := isInteger x && decide (-9007199254740991 ≤ x ∧ x ≤ 9007199254740991)

/-- A string of JavaScript, as its UTF-16 code units; `<` compares them one by one. -/
abbrev JsString := List UInt16

/-- `sameBytes`: no early exit. -/
def sameBytes (a b : Bytes) : Bool :=
  if a.length ≠ b.length then false
  else (a.zip b).foldl (fun diff p => diff ||| (p.1 ^^^ p.2)) 0 == 0

theorem foldl_diff : ∀ {a b : Bytes} (d : UInt8), a.length = b.length →
    ((a.zip b).foldl (fun diff p => diff ||| (p.1 ^^^ p.2)) d = 0 ↔ d = 0 ∧ a = b)
  | [], [], d, _ => by simp
  | [], _ :: _, _, h => by cases h
  | _ :: _, [], _, h => by cases h
  | x :: a, y :: b, d, h => by
    have ih := foldl_diff (d ||| (x ^^^ y)) (Nat.succ.inj h)
    rw [List.zip_cons_cons, List.foldl_cons, ih, UInt8.or_eq_zero_iff, UInt8.xor_eq_zero_iff, and_assoc,
      List.cons.injEq]

/-- No early exit, and the answer is equality. -/
@[simp] theorem sameBytes_iff {a b : Bytes} : sameBytes a b = true ↔ a = b := by
  unfold sameBytes
  by_cases h : a.length = b.length
  · rw [if_neg (not_not.mpr h), beq_iff_eq, foldl_diff 0 h, and_iff_right rfl]
  · rw [if_pos h]
    refine ⟨Bool.noConfusion, ?_⟩
    rintro rfl
    exact absurd rfl h

/-- `concat`. -/
def concat (parts : List Bytes) : Bytes := parts.flatten

/-- The bytes of a text of the source. -/
def utf8 (text : String) : Bytes := text.toUTF8.toList

/-- `base64`. -/
def base64 (bytes : Bytes) : JsString := Base64.encode bytes

/-- `fromBase64`; nothing where it throws. -/
def fromBase64 (value : JsString) : Option Bytes := Base64.decode value

theorem fromBase64_base64 (bytes : Bytes) : fromBase64 (base64 bytes) = some bytes := Base64.decode_encode bytes

end KyNotes.Web
