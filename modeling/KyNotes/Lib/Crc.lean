import Mathlib.Logic.Function.Iterate

/-!
# Cyclic redundancy checks

The register of a reflected CRC of any width and polynomial. `bit` is the definition, one bit of the message at a time;
`byte_eq` takes eight bits in one step, with a table for the low byte of the register.

The register is shifted by a map that is linear for the exclusive or (`shift_xor`), and a register with a zero low byte is
only shifted (`shift_iterate`): so the low byte and the rest go through the eight shifts apart.
-/

namespace Crc

variable {w : Nat} (poly : BitVec w)

/-- One shift of the register, with the polynomial when a one falls out. -/
def shift (c : BitVec w) : BitVec w := if c.getLsbD 0 then poly ^^^ (c >>> 1) else c >>> 1

/-- One bit of the message. -/
def bit (c : BitVec w) (b : Bool) : BitVec w := if c.getLsbD 0 ^^ b then poly ^^^ (c >>> 1) else c >>> 1

/-- The first `n` bits of a byte, the lowest first. -/
def bits (x : UInt8) : Nat → BitVec w → BitVec w
  | 0, c => c
  | n + 1, c => bit poly (bits x n c) (x.toBitVec.getLsbD n)

/-- The register after a message. -/
def register (init : BitVec w) (data : List UInt8) : BitVec w := data.foldl (fun c x => bits poly x 8 c) init

variable {poly}

theorem shift_xor (c d : BitVec w) : shift poly (c ^^^ d) = shift poly c ^^^ shift poly d := by
  unfold shift
  rw [BitVec.getLsbD_xor, BitVec.ushiftRight_xor_distrib]
  cases c.getLsbD 0 <;> cases d.getLsbD 0
  · rfl
  · simp only [Bool.false_xor, if_true, Bool.false_eq_true, if_false]
    rw [← BitVec.xor_assoc, ← BitVec.xor_assoc, BitVec.xor_comm poly]
  · simp only [Bool.xor_false, if_true, Bool.false_eq_true, if_false]
    rw [BitVec.xor_assoc]
  · simp only [Bool.xor_self, if_true, Bool.false_eq_true, if_false]
    rw [BitVec.xor_assoc, ← BitVec.xor_assoc (c >>> 1), BitVec.xor_comm (c >>> 1) poly, BitVec.xor_assoc poly,
      ← BitVec.xor_assoc poly poly, BitVec.xor_self, BitVec.zero_xor]

theorem shift_iterate_xor (n : Nat) (c d : BitVec w) :
    (shift poly)^[n] (c ^^^ d) = (shift poly)^[n] c ^^^ (shift poly)^[n] d := by
  induction n generalizing c d with
  | zero => rfl
  | succ n ih => rw [Function.iterate_succ_apply, shift_xor, ih, Function.iterate_succ_apply, Function.iterate_succ_apply]

/-- A register without its low `n` bits is only shifted. -/
theorem shift_iterate {n : Nat} {c : BitVec w} (h : ∀ i < n, c.getLsbD i = false) : (shift poly)^[n] c = c >>> n := by
  induction n generalizing c with
  | zero => simp
  | succ n ih =>
    have hshift : shift poly c = c >>> 1 := by
      unfold shift
      rw [h 0 (Nat.succ_pos n)]
      simp
    rw [Function.iterate_succ_apply, hshift, ih fun i hi => ?_, ← BitVec.shiftRight_add, Nat.add_comm]
    rw [BitVec.getLsbD_ushiftRight]
    exact h (1 + i) (by omega)

/-- A bit that is added to the register or comes from the message falls out alike. -/
theorem bit_xor (c d : BitVec w) : bit poly c (d.getLsbD 0) ^^^ (d >>> 1) = shift poly (c ^^^ d) := by
  unfold bit shift
  rw [BitVec.getLsbD_xor, BitVec.ushiftRight_xor_distrib]
  cases c.getLsbD 0 ^^ d.getLsbD 0
  · rfl
  · exact BitVec.xor_assoc _ _ _

/-- The bits of a byte that have been read are in the register as if it had been added in front. -/
theorem bits_xor (x : UInt8) (c : BitVec w) {n : Nat} (hn : n ≤ w) :
    bits poly x n c ^^^ (x.toBitVec.setWidth w >>> n) = (shift poly)^[n] (c ^^^ x.toBitVec.setWidth w) := by
  induction n with
  | zero => simp [bits]
  | succ n ih =>
    have hbit : (x.toBitVec.setWidth w >>> n).getLsbD 0 = x.toBitVec.getLsbD n := by
      rw [BitVec.getLsbD_ushiftRight, BitVec.getLsbD_setWidth, Nat.add_zero, decide_eq_true (by omega), Bool.true_and]
    rw [Function.iterate_succ_apply', ← ih (by omega), ← bit_xor, hbit, BitVec.shiftRight_add]
    rfl

/-- Eight bits in one step, with the shifts of the low byte from a table. -/
theorem bits_eq (hw : 8 ≤ w) (x : UInt8) (c : BitVec w) :
    bits poly x 8 c = (shift poly)^[8] ((c ^^^ x.toBitVec.setWidth w) &&& 255#w) ^^^ (c >>> 8) := by
  have hlow : x.toBitVec.setWidth w >>> 8 = 0#w := by
    refine BitVec.eq_of_getLsbD_eq fun i _ => ?_
    rw [BitVec.getLsbD_ushiftRight, BitVec.getLsbD_setWidth, BitVec.getLsbD_of_ge x.toBitVec (8 + i) (by omega)]
    simp
  have hbits : bits poly x 8 c = (shift poly)^[8] (c ^^^ x.toBitVec.setWidth w) := by
    rw [← bits_xor x c hw, hlow, BitVec.xor_zero]
  -- the low byte and the rest of the register go their own ways
  generalize hd : c ^^^ x.toBitVec.setWidth w = d at hbits ⊢
  have hsplit : d = (d &&& 255#w) ^^^ (d &&& ~~~255#w) := by
    refine BitVec.eq_of_getLsbD_eq fun i hi => ?_
    simp only [BitVec.getLsbD_xor, BitVec.getLsbD_and, BitVec.getLsbD_not, decide_eq_true hi, Bool.true_and]
    cases d.getLsbD i <;> cases (255#w).getLsbD i <;> rfl
  have hmask : ∀ i, i < w → (255#w).getLsbD i = decide (i < 8) := by
    intro i hi
    rw [BitVec.getLsbD_ofNat, decide_eq_true hi, Bool.true_and]
    exact Nat.testBit_two_pow_sub_one 8 i
  have hrest : (shift poly)^[8] (d &&& ~~~255#w) = c >>> 8 := by
    rw [shift_iterate fun i hi => ?_]
    · have hcd : d >>> 8 = c >>> 8 := by rw [← hd, BitVec.ushiftRight_xor_distrib, hlow, BitVec.xor_zero]
      rw [← hcd]
      refine BitVec.eq_of_getLsbD_eq fun i hi => ?_
      rw [BitVec.getLsbD_ushiftRight, BitVec.getLsbD_ushiftRight, BitVec.getLsbD_and, BitVec.getLsbD_not]
      by_cases hw : 8 + i < w
      · rw [hmask _ hw, decide_eq_true hw, decide_eq_false (by omega)]
        simp
      · rw [BitVec.getLsbD_of_ge d _ (by omega), Bool.false_and]
    · rw [BitVec.getLsbD_and, BitVec.getLsbD_not, hmask i (by omega), decide_eq_true hi]
      simp
  rw [hbits, ← hrest, ← shift_iterate_xor, ← hsplit]

/-- The register a byte at a time, from a table of the eight shifts of every byte. -/
theorem register_eq_table (hw : 8 ≤ w) (table : Nat → BitVec w)
    (ht : ∀ n < 256, table n = (shift poly)^[8] (BitVec.ofNat w n)) (init : BitVec w) (data : List UInt8) :
    data.foldl (fun c x => table ((c ^^^ x.toBitVec.setWidth w) &&& 255#w).toNat ^^^ (c >>> 8)) init =
      register poly init data := by
  have hstep : ∀ (c : BitVec w) (x : UInt8),
      table ((c ^^^ x.toBitVec.setWidth w) &&& 255#w).toNat ^^^ (c >>> 8) = bits poly x 8 c := by
    intro c x
    have hlt : ((c ^^^ x.toBitVec.setWidth w) &&& 255#w).toNat < 256 := by
      rw [BitVec.toNat_and]
      refine Nat.lt_of_le_of_lt Nat.and_le_right ?_
      exact Nat.lt_of_le_of_lt (Nat.mod_le _ _) (by decide)
    rw [ht _ hlt, BitVec.ofNat_toNat, BitVec.setWidth_eq, bits_eq hw]
  unfold register
  congr 1
  exact funext fun c => funext fun x => hstep c x

end Crc
