import Mathlib.Data.UInt
import Mathlib.Data.String.Basic
import Mathlib.Data.List.Flatten

/-!
# Strings of 16-bit code units

A string of a host that counts in UTF-16 is any list of code units. Encoding it goes through scalar values, where a
surrogate that has no partner becomes the replacement character.
-/

namespace Utf16

/-- The code units of a character. -/
def units (c : Char) : List UInt16 :=
  if c.toNat < 0x10000 then [UInt16.ofNat c.toNat]
  else [UInt16.ofNat (0xd800 + (c.toNat - 0x10000) / 0x400), UInt16.ofNat (0xdc00 + (c.toNat - 0x10000) % 0x400)]

/-- The string of a text. -/
def ofText (s : String) : List UInt16 := s.toList.flatMap units

def isHigh (u : UInt16) : Bool := 0xd800 ≤ u.toNat ∧ u.toNat < 0xdc00

def isLow (u : UInt16) : Bool := 0xdc00 ≤ u.toNat ∧ u.toNat < 0xe000

/-- The character of a surrogate pair. -/
def pair (h l : UInt16) : Char := Char.ofNat (0x10000 + (h.toNat - 0xd800) * 0x400 + (l.toNat - 0xdc00))

/-- A unit by itself. -/
def lone (u : UInt16) : Char := if isHigh u ∨ isLow u then '\uFFFD' else Char.ofNat u.toNat

/-- The scalar values of a string. -/
def scalars : List UInt16 → List Char
  | [] => []
  | [u] => [lone u]
  | u :: v :: s => if isHigh u ∧ isLow v then pair u v :: scalars s else lone u :: scalars (v :: s)

/-- The UTF-8 of a text. -/
def utf8 (s : String) : List UInt8 := s.toByteArray.data.toList

/-- The UTF-8 of a string. -/
def encode (s : List UInt16) : List UInt8 := utf8 (String.ofList (scalars s))

theorem utf8_injective : Function.Injective utf8 := by
  intro s t h
  apply String.toByteArray_inj.1
  exact ByteArray.ext (Array.toList_inj.1 h)

theorem scalars_cons {u : UInt16} (h : isHigh u = false) (s : List UInt16) : scalars (u :: s) = lone u :: scalars s := by
  cases s with
  | nil => rfl
  | cons v s => simp [scalars, h]

theorem scalars_units (c : Char) (s : List UInt16) : scalars (units c ++ s) = c :: scalars s := by
  have hv : c.toNat < 0xd800 ∨ 0xdfff < c.toNat ∧ c.toNat < 0x110000 := c.valid
  unfold units
  split
  · rename_i hlt
    have hu : (UInt16.ofNat c.toNat).toNat = c.toNat := by simp; omega
    have hh : isHigh (UInt16.ofNat c.toNat) = false := by simp only [isHigh, hu]; simp; omega
    have hl : isLow (UInt16.ofNat c.toNat) = false := by simp only [isLow, hu]; simp; omega
    rw [List.singleton_append, scalars_cons hh]
    simp [lone, hh, hl, hu]
  · rename_i hge
    have h₁ : (UInt16.ofNat (0xd800 + (c.toNat - 0x10000) / 0x400)).toNat = 0xd800 + (c.toNat - 0x10000) / 0x400 := by
      simp only [UInt16.toNat_ofNat']; omega
    have h₂ : (UInt16.ofNat (0xdc00 + (c.toNat - 0x10000) % 0x400)).toNat = 0xdc00 + (c.toNat - 0x10000) % 0x400 := by
      simp only [UInt16.toNat_ofNat']; omega
    have hh : isHigh (UInt16.ofNat (0xd800 + (c.toNat - 0x10000) / 0x400)) = true := by
      simp only [isHigh, h₁]; simp; omega
    have hl : isLow (UInt16.ofNat (0xdc00 + (c.toNat - 0x10000) % 0x400)) = true := by
      simp only [isLow, h₂]; simp; omega
    have hp : 0x10000 + (0xd800 + (c.toNat - 0x10000) / 0x400 - 0xd800) * 0x400 +
        (0xdc00 + (c.toNat - 0x10000) % 0x400 - 0xdc00) = c.toNat := by omega
    rw [List.cons_append, List.singleton_append, scalars, if_pos ⟨hh, hl⟩, pair, h₁, h₂, hp, Char.ofNat_toNat]

theorem scalars_flatMap : ∀ cs : List Char, scalars (cs.flatMap units) = cs
  | [] => rfl
  | c :: cs => by rw [List.flatMap_cons, scalars_units, scalars_flatMap cs]

theorem flatMap_units_injective : Function.Injective fun cs : List Char => cs.flatMap units :=
  Function.LeftInverse.injective scalars_flatMap

theorem ofText_injective : Function.Injective ofText := fun _ _ h => String.toList_inj.mp (flatMap_units_injective h)

@[simp] theorem encode_ofText (s : String) : encode (ofText s) = utf8 s := by
  rw [encode, ofText, scalars_flatMap, String.ofList_toList]

theorem encode_eq_nil {s : List UInt16} : encode s = [] ↔ s = [] := by
  constructor
  · intro h
    have ht : String.ofList (scalars s) = "" := utf8_injective h
    cases s with
    | nil => rfl
    | cons u s =>
      have hs : scalars (u :: s) = [] := by simpa using ht
      cases s with
      | nil => cases hs
      | cons v s =>
        rw [scalars] at hs
        split at hs <;> cases hs
  · rintro rfl
    rfl

end Utf16
