import KyNotes.Content.ObjectPayload
import Mathlib.Data.List.Lex
import Mathlib.Order.Basic

/-!
# Order keys (`web/src/order.ts`)

`keyBetween` makes a key between two. Its loop walks both keys digit by digit: over the digits that they share, and from
there over the lower one until a digit has room above it. A key never ends in `0`, so that the upper one has a digit left
wherever the lower one, filled up with zeros, still agrees with it.
-/

namespace KyNotes.Outline

open Content

/-- `DIGITS`. -/
def digits : List Char := "0123456789abcdefghijklmnopqrstuvwxyz".toList

/-- `DIGITS.indexOf`, of the character at a place or of `undefined`. -/
def indexOf (c : Option Char) : Int :=
  match c with
  | some c => if c ∈ digits then digits.idxOf c else -1
  | none => -1

/-- `DIGITS[i]`, as it is appended to a text. -/
def digitAt (i : Int) : List Char :=
  match i with
  | .ofNat n => (digits[n]?).elim "undefined".toList fun c => [c]
  | .negSucc _ => "undefined".toList

/-- What `keyBetween` throws; `outOfSteps` stands for a loop that goes on. -/
inductive Thrown | outOfOrder | limitReached | outOfSteps
deriving DecidableEq

/-- The digit of the lower key. -/
def low (a : List Char) (i : Nat) : Int := if i < a.length then indexOf a[i]? else 0

/-- The digit of the upper key; one above all digits at an open end. -/
def high (b : Option (List Char)) (i : Nat) : Int := b.elim 36 fun b => indexOf b[i]?

/-- The digit to place, one from an open end. -/
def pick (before after : Option (List Char)) (low high : Int) : Int :=
  if before ≠ none ∧ after = none then low + 1
  else if before = none ∧ after ≠ none then high - 1
  else (low + high) / 2

/-- The loop, for a number of steps. -/
def keyLoop (limit : Nat) (before after : Option (List Char)) :
    Nat → Nat → List Char → Option (List Char) → Except Thrown (List Char)
  | 0, _, _, _ => .error .outOfSteps
  | n + 1, i, out, b =>
    let a := before.getD []
    let lo := low a i
    let hi := high b i
    if lo = hi then keyLoop limit before after n (i + 1) (out ++ digitAt lo) b
    else
      let p := pick before after lo hi
      if lo < p ∧ p < hi then
        let key := out ++ digitAt p
        if limit < key.length then .error .limitReached else .ok key
      else keyLoop limit before after n (i + 1) (out ++ digitAt lo) none

/-- `keyBetween` with a limit. The loop takes no more steps than the keys have digits, and one. -/
def keyBetweenUpTo (limit : Nat) (before after : Option String) : Except Thrown String :=
  let a := before.getD ""
  if after.any fun b => b ≤ a then .error .outOfOrder
  else
    (keyLoop limit (before.map String.toList) (after.map String.toList)
      (a.toList.length + (after.getD "").toList.length + 2) 0 [] (after.map String.toList)).map String.ofList

/-- `keyBetween`. -/
def keyBetween (before after : Option String) : Except Thrown String := keyBetweenUpTo maxOrderKey before after

/-! ## Digits -/

/-- The digit of a value. -/
def digit (n : Nat) : Char := digits.getD n '0'

theorem digitAt_eq {n : Nat} (h : n < 36) : digitAt n = [digit n] := by
  have hall : ∀ n : Fin 36, digitAt n.val = [digit n.val] := by decide
  exact hall ⟨n, h⟩

theorem indexOf_digit {n : Nat} (h : n < 36) : indexOf (some (digit n)) = n := by
  have hall : ∀ n : Fin 36, indexOf (some (digit n.val)) = n.val := by decide
  exact hall ⟨n, h⟩

theorem digit_lt {m n : Nat} (h : m < n) (hn : n < 36) : digit m < digit n := by
  have hall : ∀ m n : Fin 36, m.val < n.val → digit m.val < digit n.val := by decide
  exact hall ⟨m, Nat.lt_trans h hn⟩ ⟨n, hn⟩ h

theorem orderDigit_digit {n : Nat} (h : n < 36) : orderDigit (digit n) = true := by
  have hall : ∀ n : Fin 36, orderDigit (digit n.val) = true := by decide
  exact hall ⟨n, h⟩

theorem digit_ne_zero {n : Nat} (h : n < 36) (h0 : 0 < n) : digit n ≠ '0' := (digit_lt h0 h).ne'

theorem exists_digit {c : Char} (h : orderDigit c = true) : ∃ n < 36, digit n = c := by
  have hall : ∀ n : Fin 128, orderDigit (Char.ofNat n.val) = true →
      digits.idxOf (Char.ofNat n.val) < 36 ∧ digit (digits.idxOf (Char.ofNat n.val)) = Char.ofNat n.val := by
    decide +kernel
  have hlt : c.toNat < 128 := by
    obtain hr | hr := of_decide_eq_true h
    · exact Nat.lt_of_le_of_lt hr.2 (by decide)
    · exact Nat.lt_of_le_of_lt hr.2 (by decide)
  have hc : Char.ofNat c.toNat = c := Char.ofNat_toNat c
  obtain ⟨hn, hd⟩ := hall ⟨c.toNat, hlt⟩ (hc.symm ▸ h)
  exact ⟨_, hn, hd.trans hc⟩

/-! ## The lower key -/

section Lower

variable {a b : List Char} {i : Nat}

/-- The first digits of a key, filled up with zeros. -/
def pad (a : List Char) (i : Nat) : List Char := a.take i ++ List.replicate (i - a.length) '0'

theorem length_pad (a : List Char) (i : Nat) : (pad a i).length = i := by
  rw [pad, List.length_append, List.length_take, List.length_replicate]
  omega

theorem pad_zero (a : List Char) : pad a 0 = [] := List.length_eq_zero_iff.1 (length_pad a 0)

theorem pad_of_lt (h : i < a.length) : pad a i = a.take i := by
  rw [pad, Nat.sub_eq_zero_of_le (Nat.le_of_lt h), List.replicate_zero, List.append_nil]

theorem pad_of_le (h : a.length ≤ i) : pad a i = a ++ List.replicate (i - a.length) '0' := by
  rw [pad, List.take_of_length_le h]

theorem pad_digits (ha : ∀ c ∈ a, orderDigit c = true) : ∀ c ∈ pad a i, orderDigit c = true := by
  intro c hc
  obtain hc | hc := List.mem_append.1 hc
  · exact ha c (List.mem_of_mem_take hc)
  · rw [List.eq_of_mem_replicate hc]
    decide

/-- The digit of the lower key, and the key made so far with it. -/
theorem low_spec (ha : ∀ c ∈ a, orderDigit c = true) (i : Nat) :
    ∃ n : Nat, n < 36 ∧ low a i = n ∧ pad a i ++ [digit n] = pad a (i + 1) := by
  by_cases h : i < a.length
  · obtain ⟨n, hn, hd⟩ := exists_digit (ha a[i] (List.getElem_mem h))
    refine ⟨n, hn, ?_, ?_⟩
    · rw [low, if_pos h, List.getElem?_eq_getElem h, ← hd, indexOf_digit hn]
    · rw [hd, pad_of_lt h, List.take_append_getElem h, pad, Nat.sub_eq_zero_of_le h, List.replicate_zero, List.append_nil]
  · have h := Nat.le_of_not_lt h
    refine ⟨0, by decide, if_neg (Nat.not_lt_of_le h), ?_⟩
    rw [pad_of_le h, pad_of_le (Nat.le_succ_of_le h), Nat.succ_sub h, List.replicate_succ', List.append_assoc]
    rfl

theorem getElem_of_low (ha : ∀ c ∈ a, orderDigit c = true) {n : Nat} (hl : low a i = n) (h : i < a.length) :
    a[i] = digit n := by
  obtain ⟨m, hm, hd⟩ := exists_digit (ha a[i] (List.getElem_mem h))
  rw [low, if_pos h, List.getElem?_eq_getElem h, ← hd, indexOf_digit hm] at hl
  rw [← hd, Int.ofNat.inj hl]

/-- A digit above the lower key's makes a key above it. -/
theorem lt_pad (ha : ∀ c ∈ a, orderDigit c = true) {n p : Nat} (hl : low a i = n) (hn : n < p) (hp : p < 36) :
    a < pad a i ++ [digit p] := by
  by_cases h : i < a.length
  · have hd := getElem_of_low ha hl h
    have hcons : a[i] :: a.drop (i + 1) < [digit p] := List.cons_lt_cons_iff.2 (.inl (hd ▸ digit_lt hn hp))
    have : a.take i ++ a[i] :: a.drop (i + 1) < a.take i ++ [digit p] := List.append_left_lt hcons
    rwa [← List.drop_eq_getElem_cons h, List.take_append_drop, ← pad_of_lt h] at this
  · have h := Nat.le_of_not_lt h
    have hnil : ([] : List Char) < List.replicate (i - a.length) '0' ++ [digit p] := by
      cases hr : List.replicate (i - a.length) '0' ++ [digit p] with
      | nil => exact absurd hr (by simp)
      | cons c l => exact List.nil_lt_cons c l
    have : a ++ [] < a ++ (List.replicate (i - a.length) '0' ++ [digit p]) := List.append_left_lt hnil
    rwa [List.append_nil, ← List.append_assoc, ← pad_of_le h] at this

/-- A digit of the lower key that is no zero is its own. -/
theorem eq_pad_of_low (ha : ∀ c ∈ a, orderDigit c = true) {n : Nat} (hl : low a i = n) (hn : 0 < n) :
    a = pad a i ++ digit n :: a.drop (i + 1) := by
  by_cases h : i < a.length
  · rw [pad_of_lt h, ← getElem_of_low ha hl h, ← List.drop_eq_getElem_cons h, List.take_append_drop]
  · rw [low, if_neg h] at hl
    omega

/-- The key made so far keeps what comes after it below `b`. -/
def Under (out b : List Char) : Prop := ∀ t, out ++ t < b

theorem under_of_digit (out r : List Char) {m n : Nat} (h : m < n) (hn : n < 36) :
    Under (out ++ [digit m]) (out ++ digit n :: r) := by
  intro t
  rw [List.append_assoc]
  exact List.append_left_lt (List.cons_lt_cons_iff.2 (.inl (digit_lt h hn)))

/-- What the lower key still has is zeros only if the upper one has none left. -/
theorem lt_length_of_shared (hab : a < b) (hb : b.getLast? ≠ some '0') (hi : i ≤ b.length) (h : pad a i = b.take i) :
    i < b.length := by
  by_contra hn
  have hi : i = b.length := by omega
  subst hi
  rw [List.take_length] at h
  by_cases hl : b.length < a.length
  · rw [pad_of_lt hl] at h
    have hnil : ([] : List Char) < a.drop b.length := by
      rw [List.drop_eq_getElem_cons hl]
      exact List.nil_lt_cons _ _
    have hlt : b < a := by
      have : a.take b.length ++ [] < a.take b.length ++ a.drop b.length := List.append_left_lt hnil
      rwa [List.append_nil, List.take_append_drop, h] at this
    exact absurd hab (not_lt_of_gt hlt)
  · have hl := Nat.le_of_not_lt hl
    rw [pad_of_le hl] at h
    cases hz : b.length - a.length with
    | zero =>
      rw [hz, List.replicate_zero, List.append_nil] at h
      exact absurd hab (h ▸ lt_irrefl a)
    | succ z =>
      rw [hz, List.replicate_succ', ← List.append_assoc] at h
      apply hb
      rw [← h, List.getLast?_concat]

end Lower

/-! ## The loop -/

section Loop

variable {before after : Option (List Char)} {a b : List Char} {i n : Nat}

/-- What the loop returns for a key. -/
def limited (limit : Nat) (key : List Char) : Except Thrown (List Char) :=
  if limit < key.length then .error .limitReached else .ok key

/-- Over an open end a digit has room above it unless it is the last one. -/
theorem pick_open {before : Option (List Char)} (after : Option (List Char)) {lo : Nat} (hlo : lo < 36) (h0 : before = none → lo = 0) :
    (∃ p : Nat, pick before after lo 36 = p ∧ lo < p ∧ p < 36) ∨
      lo = 35 ∧ ¬((lo : Int) < pick before after lo 36 ∧ pick before after lo 36 < 36) := by
  unfold pick
  split
  · by_cases h : lo = 35
    · exact .inr ⟨h, by omega⟩
    · exact .inl ⟨lo + 1, rfl, by omega, by omega⟩
  · split
    · rename_i h
      have := h0 h.1
      exact .inl ⟨35, rfl, by omega, by decide⟩
    · by_cases h : lo = 35
      · exact .inr ⟨h, by omega⟩
      · exact .inl ⟨(lo + 36) / 2, by omega, by omega, by omega⟩

/-- A key that the loop makes is above the lower one, extends what was made before, and does not end in a zero. -/
structure Made (a : List Char) (i : Nat) (key : List Char) : Prop where
  lt : a < key
  extends_pad : ∃ t, key = pad a i ++ t
  digits : ∀ c ∈ key, orderDigit c = true
  last : ∃ l c, key = l ++ [c] ∧ c ≠ '0'

theorem made_pick (ha : ∀ c ∈ a, orderDigit c = true) {p : Nat} (hl : low a i = n) (hn : n < p) (hp : p < 36) :
    Made a i (pad a i ++ [digit p]) where
  lt := lt_pad ha hl hn hp
  extends_pad := ⟨_, rfl⟩
  digits c hc := by
    obtain hc | hc := List.mem_append.1 hc
    · exact pad_digits ha c hc
    · rw [List.mem_singleton.1 hc]
      exact orderDigit_digit hp
  last := ⟨_, _, rfl, digit_ne_zero hp (by omega)⟩

theorem Made.of_succ {key : List Char} (ha : ∀ c ∈ a, orderDigit c = true) (h : Made a (i + 1) key) : Made a i key where
  lt := h.lt
  extends_pad := by
    obtain ⟨m, -, -, hpad⟩ := low_spec ha i
    obtain ⟨t, ht⟩ := h.extends_pad
    exact ⟨[digit m] ++ t, by rw [ht, ← hpad, List.append_assoc]⟩
  digits := h.digits
  last := h.last

theorem low_of_le (h : a.length ≤ i) : low a i = 0 := if_neg (Nat.not_lt_of_le h)

/-- Above an open end the loop makes a key, at the latest behind the lower one. -/
theorem keyLoop_open (after : Option (List Char)) (ha : ∀ c ∈ a, orderDigit c = true) (hbefore : before.getD [] = a) :
    ∀ {n i : Nat}, a.length + 1 ≤ n + i → 1 ≤ n →
      ∃ key, Made a i key ∧ ∀ limit, keyLoop limit before after n i (pad a i) none = limited limit key
  | n + 1, i, hn, _ => by
    obtain ⟨lo, hlo, hl, hpad⟩ := low_spec ha i
    have h0 : before = none → lo = 0 := by
      rintro rfl
      subst hbefore
      exact Int.ofNat.inj (hl.symm.trans (low_of_le (Nat.zero_le i)))
    have hne : (lo : Int) ≠ 36 := by omega
    obtain ⟨p, hp, hlp, hp36⟩ | ⟨rfl, hp⟩ := pick_open after hlo h0
    · refine ⟨pad a i ++ [digit p], made_pick ha hl hlp hp36, fun limit => ?_⟩
      have hin : (lo : Int) < p ∧ (p : Int) < 36 := ⟨Int.ofNat_lt.2 hlp, Int.ofNat_lt.2 hp36⟩
      simp only [keyLoop, hbefore, hl, high, Option.elim_none, if_neg hne, hp, if_pos hin, digitAt_eq hp36]
      rfl
    · have hi : i < a.length := by
        by_contra hi
        rw [low_of_le (Nat.le_of_not_lt hi)] at hl
        omega
      obtain ⟨key, hkey, hloop⟩ := keyLoop_open after ha hbefore (n := n) (i := i + 1) (by omega) (by omega)
      refine ⟨key, hkey.of_succ ha, fun limit => ?_⟩
      rw [← hloop limit, ← hpad]
      simp only [keyLoop, hbefore, hl, high, Option.elim_none, if_neg hne, if_neg hp, digitAt_eq hlo]

/-- Over the digits that the keys share, and from there on. -/
theorem keyLoop_shared (ha : ∀ c ∈ a, orderDigit c = true) (hb : ∀ c ∈ b, orderDigit c = true)
    (hbefore : before.getD [] = a) (hab : a < b) (hlast : b.getLast? ≠ some '0') :
    ∀ {n i : Nat}, a.length + b.length + 2 ≤ n + i → i ≤ b.length → pad a i = b.take i →
      ∃ key, Made a i key ∧ key < b ∧ ∀ limit, keyLoop limit before (some b) n i (pad a i) (some b) = limited limit key
  | 0, i, hn, hi, _ => absurd hn (by omega)
  | n + 1, i, hn, hi, hs => by
    have hi := lt_length_of_shared hab hlast hi hs
    obtain ⟨lo, hlo, hl, hpad⟩ := low_spec ha i
    obtain ⟨hi', hhi', hd⟩ := exists_digit (hb b[i] (List.getElem_mem hi))
    have hh : indexOf b[i]? = hi' := by rw [List.getElem?_eq_getElem hi, ← hd, indexOf_digit hhi']
    have hb' : b = pad a i ++ digit hi' :: b.drop (i + 1) := by
      rw [hs, hd, ← List.drop_eq_getElem_cons hi, List.take_append_drop]
    by_cases he : lo = hi'
    · subst he
      have htake : pad a (i + 1) = b.take (i + 1) := by
        rw [← hpad, hs, hd, List.take_append_getElem hi]
      obtain ⟨key, hkey, hlt, hloop⟩ := keyLoop_shared ha hb hbefore hab hlast (n := n) (i := i + 1) (by omega) hi htake
      refine ⟨key, hkey.of_succ ha, hlt, fun limit => ?_⟩
      rw [← hloop limit, ← hpad]
      simp only [keyLoop, hbefore, hl, high, Option.elim_some, hh, if_true, digitAt_eq hlo]
    · have hlt : lo < hi' := by
        by_contra hge
        have hlt : hi' < lo := by omega
        have ha' : a = pad a i ++ digit lo :: a.drop (i + 1) := eq_pad_of_low ha hl (by omega)
        have hba := under_of_digit (pad a i) (a.drop (i + 1)) hlt hlo (b.drop (i + 1))
        rw [List.append_assoc, List.singleton_append, ← hb', ← ha'] at hba
        exact absurd hab (not_lt_of_gt hba)
      have hne : (lo : Int) ≠ hi' := fun h => he (Int.ofNat.inj h)
      by_cases hp : (lo : Int) < pick before (some b) lo hi' ∧ pick before (some b) lo hi' < hi'
      · obtain ⟨p, hpeq⟩ := Int.eq_ofNat_of_zero_le (a := pick before (some b) lo hi') (by omega)
        rw [hpeq] at hp
        have hlp : lo < p := Int.ofNat_lt.1 hp.1
        have hph : p < hi' := Int.ofNat_lt.1 hp.2
        refine ⟨pad a i ++ [digit p], made_pick ha hl hlp (Nat.lt_trans hph hhi'), ?_, fun limit => ?_⟩
        · rw [hb']
          have := under_of_digit (pad a i) (b.drop (i + 1)) hph hhi' []
          rwa [List.append_nil] at this
        · simp only [keyLoop, hbefore, hl, high, Option.elim_some, hh, if_neg hne, hpeq, if_pos hp,
            digitAt_eq (Nat.lt_trans hph hhi')]
          rfl
      · obtain ⟨key, hkey, hloop⟩ := keyLoop_open (some b) ha hbefore (n := n) (i := i + 1) (by omega) (by omega)
        refine ⟨key, hkey.of_succ ha, ?_, fun limit => ?_⟩
        · obtain ⟨t, ht⟩ := hkey.extends_pad
          have hu : Under (pad a (i + 1)) b := by
            rw [← hpad]
            exact hb' ▸ under_of_digit _ _ hlt hhi'
          rw [ht]
          exact hu t
        · rw [← hloop limit, ← hpad]
          simp only [keyLoop, hbefore, hl, high, Option.elim_some, hh, if_neg hne, if_neg hp, digitAt_eq hlo]

end Loop

/-! ## Keys -/

theorem orderKey_iff {s : String} :
    orderKey s = true ↔ (∀ c ∈ s.toList, orderDigit c = true) ∧ ∃ l c, s.toList = l ++ [c] ∧ c ≠ '0' := by
  rw [orderKey, decide_eq_true_eq, List.all_eq_true]
  refine and_congr_right fun _ => ?_
  obtain hs | ⟨l, c, hs⟩ := List.eq_nil_or_concat s.toList
  · rw [hs]
    simp
  · rw [hs, List.concat_eq_append, List.getLast?_concat]
    constructor
    · exact fun h => ⟨l, c, rfl, of_decide_eq_true h⟩
    · rintro ⟨l', c', h, hc⟩
      obtain ⟨-, h⟩ := List.append_inj' h rfl
      cases h
      exact decide_eq_true hc

/-- A key has one code unit for each digit. -/
theorem utf16Length_orderKey {s : String} (h : orderKey s = true) : utf16Length s = s.toList.length := by
  have hd := (orderKey_iff.1 h).1
  have h1 : ∀ c ∈ s.toList, utf16Size c = 1 := by
    intro c hc
    obtain ⟨n, hn, rfl⟩ := exists_digit (hd c hc)
    have hall : ∀ n : Fin 36, utf16Size (digit n.val) = 1 := by decide
    exact hall ⟨n, hn⟩
  rw [utf16Length, List.map_congr_left h1, List.map_const', List.sum_replicate_nat, Nat.mul_one]

theorem orderKey_of_isOrderKey {s : String} (h : isOrderKey s = true) : orderKey s = true := (of_decide_eq_true h).2

/-- The lower end as a list of digits. -/
theorem getD_digits {before : Option String} (h : ∀ a ∈ before, isOrderKey a = true) :
    (before.map String.toList).getD [] = (before.getD "").toList ∧
      ∀ c ∈ (before.getD "").toList, orderDigit c = true := by
  cases before with
  | none => exact ⟨rfl, fun c hc => by cases hc⟩
  | some a => exact ⟨rfl, (orderKey_iff.1 (orderKey_of_isOrderKey (h a rfl))).1⟩

theorem getD_lt {before : Option String} {b : String} (hb : isOrderKey b = true) (h : ∀ a ∈ before, a < b) :
    before.getD "" < b := by
  cases before with
  | none =>
    obtain ⟨l, c, hl, -⟩ := (orderKey_iff.1 (orderKey_of_isOrderKey hb)).2
    rw [Option.getD_none, String.lt_iff_toList_lt, hl]
    cases l with
    | nil => exact List.nil_lt_cons c []
    | cons d l => exact List.nil_lt_cons d _
  | some a => exact h a rfl

/-- What the loop makes of two keys. -/
theorem keyLoop_made {before after : Option String} (hbefore : ∀ a ∈ before, isOrderKey a = true)
    (hafter : ∀ b ∈ after, isOrderKey b = true) (hlt : ∀ a ∈ before, ∀ b ∈ after, a < b) :
    ∃ key, Made (before.getD "").toList 0 key ∧ (∀ b ∈ after, key < b.toList) ∧ ∀ limit,
      keyLoop limit (before.map String.toList) (after.map String.toList)
        ((before.getD "").toList.length + (after.getD "").toList.length + 2) 0 [] (after.map String.toList) =
          limited limit key := by
  obtain ⟨hgetD, ha⟩ := getD_digits hbefore
  cases after with
  | none =>
    obtain ⟨key, hkey, hloop⟩ := keyLoop_open none ha hgetD
      (n := (before.getD "").toList.length + 0 + 2) (i := 0) (by omega) (by omega)
    rw [pad_zero] at hloop
    exact ⟨key, hkey, fun b hb => (by cases hb), hloop⟩
  | some b =>
    have hb := orderKey_iff.1 (orderKey_of_isOrderKey (hafter b rfl))
    have hab := getD_lt (hafter b rfl) fun a ha => hlt a ha b rfl
    have hlast : b.toList.getLast? ≠ some '0' := by
      obtain ⟨l, c, hl, hc⟩ := hb.2
      rw [hl, List.getLast?_concat]
      exact fun h => hc (Option.some.inj h)
    obtain ⟨key, hkey, hkb, hloop⟩ := keyLoop_shared ha hb.1 hgetD (String.lt_iff_toList_lt.1 hab) hlast
      (n := (before.getD "").toList.length + b.toList.length + 2) (i := 0) (by omega) (Nat.zero_le _) (pad_zero _)
    rw [pad_zero] at hloop
    refine ⟨key, hkey, fun b' hb' => ?_, hloop⟩
    cases hb'
    exact hkb

/-- The key between two, and what `keyBetween` does with it under any limit. -/
theorem keyBetween_made {before after : Option String} (hbefore : ∀ a ∈ before, isOrderKey a = true)
    (hafter : ∀ b ∈ after, isOrderKey b = true) (hlt : ∀ a ∈ before, ∀ b ∈ after, a < b) :
    ∃ key : String, orderKey key = true ∧ (∀ a ∈ before, a < key) ∧ (∀ b ∈ after, key < b) ∧
      ∀ limit, keyBetweenUpTo limit before after =
        if utf16Length key ≤ limit then .ok key else .error .limitReached := by
  obtain ⟨cs, hmade, hb, hloop⟩ := keyLoop_made hbefore hafter hlt
  have hcs : (String.ofList cs).toList = cs := String.toList_ofList
  have hkey : orderKey (String.ofList cs) = true := orderKey_iff.2 (hcs.symm ▸ ⟨hmade.digits, hmade.last⟩)
  have hlen : utf16Length (String.ofList cs) = cs.length := by rw [utf16Length_orderKey hkey, hcs]
  have hguard : (after.any fun b => b ≤ before.getD "") = false := by
    cases after with
    | none => rfl
    | some b => exact decide_eq_false (not_le_of_gt (getD_lt (hafter b rfl) fun a ha => hlt a ha b rfl))
  refine ⟨String.ofList cs, hkey, fun a ha => ?_, fun b hb' => ?_, fun limit => ?_⟩
  · cases ha
    rw [String.lt_iff_toList_lt, hcs]
    exact hmade.lt
  · rw [String.lt_iff_toList_lt, hcs]
    exact hb b hb'
  · rw [keyBetweenUpTo, hguard, if_neg Bool.false_ne_true, hloop, limited, hlen]
    by_cases h : limit < cs.length
    · rw [if_pos h, if_neg (Nat.not_le_of_lt h)]
      rfl
    · rw [if_neg h, if_pos (Nat.le_of_not_lt h)]
      rfl

theorem keyBetween_of_limited {before after : Option String} {key : String} (hkey : orderKey key = true)
    (h : ∀ limit, keyBetweenUpTo limit before after =
      if utf16Length key ≤ limit then .ok key else .error .limitReached) :
    keyBetween before after = .ok key ∧ isOrderKey key = true ∨
      keyBetween before after = .error .limitReached ∧ maxOrderKey < utf16Length key := by
  rw [keyBetween, h]
  by_cases hl : utf16Length key ≤ maxOrderKey
  · exact .inl ⟨if_pos hl, decide_eq_true ⟨hl, hkey⟩⟩
  · exact .inr ⟨if_neg hl, Nat.lt_of_not_le hl⟩

/-- `keyBetween` of two keys: one strictly between them, or the limit. -/
theorem keyBetween_cases {before after : Option String} (hbefore : ∀ a ∈ before, isOrderKey a = true)
    (hafter : ∀ b ∈ after, isOrderKey b = true) (hlt : ∀ a ∈ before, ∀ b ∈ after, a < b) :
    (∃ key, keyBetween before after = .ok key ∧ isOrderKey key = true ∧ (∀ a ∈ before, a < key) ∧
      ∀ b ∈ after, key < b) ∨ keyBetween before after = .error .limitReached := by
  obtain ⟨key, hkey, ha, hb, hall⟩ := keyBetween_made hbefore hafter hlt
  obtain ⟨h, hv⟩ | ⟨h, -⟩ := keyBetween_of_limited hkey hall
  · exact .inl ⟨key, h, hv, ha, hb⟩
  · exact .inr h

/-- `keyBetween` of two keys, of which either may be open: it makes one key strictly between them, which has digits
only and does not end in zero, and returns it if it is within the limit; else it throws. -/
theorem keyBetween_dense (before after : Option String) (hbefore : ∀ a ∈ before, isOrderKey a = true)
    (hafter : ∀ b ∈ after, isOrderKey b = true) (hlt : ∀ a ∈ before, ∀ b ∈ after, a < b) :
    ∃ key : String, orderKey key = true ∧ (∀ a ∈ before, a < key) ∧ (∀ b ∈ after, key < b) ∧
      (∀ limit, keyBetweenUpTo limit before after =
        if utf16Length key ≤ limit then .ok key else .error .limitReached) ∧
      (keyBetween before after = .ok key ∧ isOrderKey key = true ∨
        keyBetween before after = .error .limitReached ∧ maxOrderKey < utf16Length key) := by
  obtain ⟨key, hkey, ha, hb, hall⟩ := keyBetween_made hbefore hafter hlt
  exact ⟨key, hkey, ha, hb, hall, keyBetween_of_limited hkey hall⟩

/-- Between `1` and `2` there is `1i`. -/
theorem keyBetween_dense_digits : ∃ key : String, "1" < key ∧ key < "2" ∧ isOrderKey key = true := by
  have h1 : ∀ a ∈ some "1", isOrderKey a = true := by
    rintro a ⟨⟩
    decide
  have h2 : ∀ b ∈ some "2", isOrderKey b = true := by
    rintro b ⟨⟩
    decide
  have hlt : ∀ a ∈ some "1", ∀ b ∈ some "2", a < b := by
    rintro a ⟨⟩ b ⟨⟩
    decide
  obtain ⟨key, -, ha, hb, -, ⟨-, hk⟩ | ⟨h, -⟩⟩ := keyBetween_dense (some "1") (some "2") h1 h2 hlt
  · exact ⟨key, ha _ rfl, hb _ rfl, hk⟩
  · have hok : keyBetween (some "1") (some "2") = .ok "1i" := by decide +kernel
    rw [hok] at h
    cases h

end KyNotes.Outline
