import KyNotes.Lib.Digits
import KyNotes.Lib.JsonText
import KyNotes.Lib.Utf16
import Mathlib.Data.Rat.Defs
import Mathlib.Data.List.Sort

/-!
# JSON in JavaScript

`JSON.parse` and `JSON.stringify`: a string is any code units, a number is a value that its literal may be too large for,
and the keys of an object are enumerated with the indices first. What numbers there are, how they are read and how they
are written is a parameter.

`parse_stringify`: what is written reads back, with `null` in the place of a number that is not finite. Of what was parsed,
that is the value itself where all its numbers are finite (`reread_eq_self`).
-/

namespace Js

/-- A number that is not NaN. -/
inductive Num
  | finite (x : ℚ)
  | infinite (negative : Bool)
deriving DecidableEq

/-- The numbers: the finite ones, the value of a literal, the text of a number, and the value of a string, which is nothing
for NaN. -/
structure Numbers where
  IsNumber : ℚ → Prop
  read : List ℕ → Num
  write : ℚ → List ℕ
  ofString : List UInt16 → Option Num
  isNumber_natCast : ∀ n : ℕ, n ≤ 2 ^ 53 → IsNumber n
  isNumber_read : ∀ w x, read w = .finite x → IsNumber x
  isNumber_ofString : ∀ s x, ofString s = some (.finite x) → IsNumber x
  write_literal : ∀ x, IsNumber x → JsonText.isNumber (write x) = true
  read_write : ∀ x, IsNumber x → read (write x) = .finite x

inductive Value
  | null
  | bool (b : Bool)
  | num (n : Num)
  | str (s : List UInt16)
  | arr (values : List Value)
  | obj (members : List (List UInt16 × Value))

/-- A property of an object; nothing where it has none. -/
def Value.get (k : List UInt16) : Value → Option Value
  | .obj members => members.lookup k
  | _ => none

/-! ## Members -/

section Members

variable {α : Type}

/-- The index that a key is. -/
def indexOf (k : List UInt16) : Option ℕ :=
  let n := Digits.value 10 (k.map fun u => u.toNat - 48)
  if k ≠ [] ∧ k.all (fun u => JsonText.isDigit u.toNat) ∧ (k.length = 1 ∨ k.head? ≠ some 48) ∧ n < 2 ^ 32 - 1 then some n
  else none

/-- The order of enumeration: the indices go up, and the other keys come after them. -/
def keyLe (k k' : List UInt16) : Bool :=
  match indexOf k, indexOf k' with
  | some m, some n => m ≤ n
  | none, some _ => false
  | _, none => true

/-- `CreateDataProperty`: a key that is there keeps its place. -/
def setMember (members : List (List UInt16 × α)) (m : List UInt16 × α) : List (List UInt16 × α) :=
  if members.any fun m' => m'.1 = m.1 then members.map fun m' => if m'.1 = m.1 then m else m' else members ++ [m]

/-- The object of some members. -/
def fromMembers (members : List (List UInt16 × α)) : List (List UInt16 × α) :=
  (members.foldl setMember []).mergeSort fun m m' => keyLe m.1 m'.1

/-- Keys as an object has them. -/
def Keys (ks : List (List UInt16)) : Prop := ks.Nodup ∧ ks.Pairwise fun k k' => keyLe k k' = true

instance : DecidablePred Keys := fun _ => inferInstanceAs (Decidable (_ ∧ _))

end Members

/-! ## Strings -/

/-- A code unit without a partner. -/
def quoteUnit (u : UInt16) : JsonText.Item :=
  if (JsonText.shortOf.lookup u.toNat).isSome then .char u.toNat
  else if u.toNat < 32 ∨ Utf16.isHigh u ∨ Utf16.isLow u then .unit u.toNat
  else .char u.toNat

/-- `QuoteJSONString`. -/
def quoteString : List UInt16 → List JsonText.Item
  | [] => []
  | [u] => [quoteUnit u]
  | u :: v :: s =>
    if Utf16.isHigh u ∧ Utf16.isLow v then .char u.toNat :: .char v.toNat :: quoteString s
    else quoteUnit u :: quoteString (v :: s)

def itemUnit : JsonText.Item → UInt16
  | .char c => UInt16.ofNat c
  | .unit u => UInt16.ofNat u

/-- The string of a literal. -/
def stringOf (s : List JsonText.Item) : List UInt16 := s.map itemUnit

/-! ## Values -/

section Values

variable (N : Numbers)

mutual

def ofTree : JsonText.Tree → Value
  | .null => .null
  | .bool b => .bool b
  | .num w => .num (N.read w)
  | .str s => .str (stringOf s)
  | .arr vs => .arr (ofValues vs)
  | .obj ms => .obj (fromMembers (ofMembers ms))

def ofValues : List JsonText.Tree → List Value
  | [] => []
  | v :: vs => ofTree v :: ofValues vs

def ofMembers : List (List JsonText.Item × JsonText.Tree) → List (List UInt16 × Value)
  | [] => []
  | (k, v) :: ms => (stringOf k, ofTree v) :: ofMembers ms

end

mutual

/-- A number that is not finite has no literal. -/
def toTree : Value → JsonText.Tree
  | .null => .null
  | .bool b => .bool b
  | .num (.finite x) => .num (N.write x)
  | .num (.infinite _) => .null
  | .str s => .str (quoteString s)
  | .arr vs => .arr (toTrees vs)
  | .obj ms => .obj (treeMembers ms)

def toTrees : List Value → List JsonText.Tree
  | [] => []
  | v :: vs => toTree v :: toTrees vs

def treeMembers : List (List UInt16 × Value) → List (List JsonText.Item × JsonText.Tree)
  | [] => []
  | (k, v) :: ms => (quoteString k, toTree v) :: treeMembers ms

end

/-- `JSON.parse`; nothing where it throws. -/
def parse (s : List UInt16) : Option Value := (JsonText.parse (s.map UInt16.toNat)).map (ofTree N)

/-- `JSON.stringify`. -/
def stringify (v : Value) : List UInt16 := (toTree N v).print.map UInt16.ofNat

mutual

/-- What is parsed: keys as an object has them, and numbers that are numbers. -/
def Value.WF : Value → Prop
  | .null | .bool _ | .str _ | .num (.infinite _) => True
  | .num (.finite x) => N.IsNumber x
  | .arr vs => ValuesWF vs
  | .obj ms => Keys (ms.map Prod.fst) ∧ MembersWF ms

def ValuesWF : List Value → Prop
  | [] => True
  | v :: vs => v.WF ∧ ValuesWF vs

def MembersWF : List (List UInt16 × Value) → Prop
  | [] => True
  | (_, v) :: ms => v.WF ∧ MembersWF ms

end

end Values

mutual

/-- A value after it was written and read: `null` in the place of a number that is not finite. -/
def Value.reread : Value → Value
  | .null => .null
  | .bool b => .bool b
  | .num (.finite x) => .num (.finite x)
  | .num (.infinite _) => .null
  | .str s => .str s
  | .arr vs => .arr (rereadValues vs)
  | .obj ms => .obj (rereadMembers ms)

def rereadValues : List Value → List Value
  | [] => []
  | v :: vs => v.reread :: rereadValues vs

def rereadMembers : List (List UInt16 × Value) → List (List UInt16 × Value)
  | [] => []
  | (k, v) :: ms => (k, v.reread) :: rereadMembers ms

end

mutual

/-- All numbers are finite. -/
def Value.Finite : Value → Prop
  | .null | .bool _ | .str _ | .num (.finite _) => True
  | .num (.infinite _) => False
  | .arr vs => ValuesFinite vs
  | .obj ms => MembersFinite ms

def ValuesFinite : List Value → Prop
  | [] => True
  | v :: vs => v.Finite ∧ ValuesFinite vs

def MembersFinite : List (List UInt16 × Value) → Prop
  | [] => True
  | (_, v) :: ms => v.Finite ∧ MembersFinite ms

end

/-! ## Keys -/

section Members

variable {α : Type} {members : List (List UInt16 × α)}

/-- What a key that is an index comes after is a lower index. -/
theorem keyLe_iff {k k' : List UInt16} :
    keyLe k k' = true ↔ ∀ n, indexOf k' = some n → ∃ m, indexOf k = some m ∧ m ≤ n := by
  unfold keyLe
  cases indexOf k <;> cases indexOf k' <;> simp

theorem keyLe_total (k k' : List UInt16) : (keyLe k k' || keyLe k' k) = true := by
  unfold keyLe
  cases indexOf k <;> cases indexOf k' <;> simp [Nat.le_total]

theorem keyLe_trans {k k' k'' : List UInt16} (h : keyLe k k' = true) (h' : keyLe k' k'' = true) : keyLe k k'' = true := by
  rw [keyLe_iff] at h h' ⊢
  intro n hn
  obtain ⟨m, hm, hle⟩ := h' n hn
  obtain ⟨l, hl, hle'⟩ := h m hm
  exact ⟨l, hl, Nat.le_trans hle' hle⟩

theorem any_key {m : List UInt16 × α} : (members.any fun m' => m'.1 = m.1) = true ↔ m.1 ∈ members.map Prod.fst := by
  simp only [List.any_eq_true, decide_eq_true_eq, List.mem_map]

/-- A key stays where it is; a new one is the last. -/
theorem keys_setMember (members : List (List UInt16 × α)) (m : List UInt16 × α) :
    m.1 ∈ members.map Prod.fst ∧ (setMember members m).map Prod.fst = members.map Prod.fst ∨
      m.1 ∉ members.map Prod.fst ∧ (setMember members m).map Prod.fst = members.map Prod.fst ++ [m.1] := by
  unfold setMember
  split
  · next hany =>
    refine .inl ⟨any_key.mp hany, ?_⟩
    rw [List.map_map]
    refine List.map_congr_left fun m' _ => ?_
    simp only [Function.comp_apply]
    split
    · next h => exact h.symm
    · rfl
  · next hany =>
    refine .inr ⟨fun h => hany (any_key.mpr h), ?_⟩
    rw [List.map_append]
    rfl

theorem nodup_setMember (h : (members.map Prod.fst).Nodup) (m : List UInt16 × α) :
    ((setMember members m).map Prod.fst).Nodup := by
  rcases keys_setMember members m with ⟨-, hkeys⟩ | ⟨hm, hkeys⟩
  · rw [hkeys]
    exact h
  · rw [hkeys]
    exact List.concat_eq_append ▸ List.Nodup.concat hm h

theorem nodup_foldl_setMember (ms : List (List UInt16 × α)) : ∀ {acc : List (List UInt16 × α)}, (acc.map Prod.fst).Nodup →
    ((ms.foldl setMember acc).map Prod.fst).Nodup := by
  induction ms with
  | nil => exact id
  | cons m ms ih => exact fun h => ih (nodup_setMember h m)

theorem mem_setMember_iff {m m' : List UInt16 × α} : m' ∈ setMember members m ↔ m' ∈ members ∧ m'.1 ≠ m.1 ∨ m' = m := by
  unfold setMember
  split
  · next hany =>
    rw [List.mem_map]
    constructor
    · rintro ⟨m'', hm'', rfl⟩
      split
      · exact .inr rfl
      · next hne => exact .inl ⟨hm'', hne⟩
    · rintro (⟨hm', hne⟩ | rfl)
      · exact ⟨m', hm', if_neg hne⟩
      · obtain ⟨m'', hm'', hk⟩ := List.mem_map.mp (any_key.mp hany)
        exact ⟨m'', hm'', if_pos hk⟩
  · next hany =>
    rw [List.mem_append, List.mem_singleton]
    refine or_congr_left (iff_self_and.mpr fun hm' hk => hany (any_key.mpr ?_))
    exact hk ▸ List.mem_map_of_mem hm'

theorem mem_setMember {m m' : List UInt16 × α} (h : m' ∈ setMember members m) : m' ∈ members ∨ m' = m :=
  (mem_setMember_iff.mp h).imp_left And.left

theorem mem_foldl_setMember {m : List UInt16 × α} (ms : List (List UInt16 × α)) : ∀ {acc : List (List UInt16 × α)},
    m ∈ ms.foldl setMember acc → m ∈ acc ∨ m ∈ ms := by
  induction ms with
  | nil => exact .inl
  | cons m' ms ih =>
    intro acc h
    rcases ih h with h | h
    · exact (mem_setMember h).imp_right fun heq => by rw [heq]; exact List.mem_cons_self
    · exact .inr (List.mem_cons_of_mem m' h)

theorem mem_fromMembers {m : List UInt16 × α} (h : m ∈ fromMembers members) : m ∈ members :=
  (mem_foldl_setMember members (List.mem_mergeSort.mp h)).resolve_left List.not_mem_nil

theorem keys_fromMembers (members : List (List UInt16 × α)) : Keys ((fromMembers members).map Prod.fst) := by
  constructor
  · have hperm := List.mergeSort_perm (members.foldl setMember []) fun m m' => keyLe m.1 m'.1
    exact (hperm.map Prod.fst).nodup_iff.mpr (nodup_foldl_setMember members List.nodup_nil)
  · have htrans : ∀ m m' m'' : List UInt16 × α, keyLe m.1 m'.1 = true → keyLe m'.1 m''.1 = true → keyLe m.1 m''.1 = true :=
      fun _ _ _ => keyLe_trans
    have htotal : ∀ m m' : List UInt16 × α, (keyLe m.1 m'.1 || keyLe m'.1 m.1) = true := fun m m' => keyLe_total m.1 m'.1
    rw [List.pairwise_map]
    exact List.pairwise_mergeSort htrans htotal _

theorem foldl_setMember_of_nodup (ms : List (List UInt16 × α)) : ∀ {acc : List (List UInt16 × α)},
    ((acc ++ ms).map Prod.fst).Nodup → ms.foldl setMember acc = acc ++ ms := by
  induction ms with
  | nil => exact fun _ => (List.append_nil _).symm
  | cons m ms ih =>
    intro acc h
    have hm : m.1 ∉ acc.map Prod.fst := by
      rw [List.map_append, List.map_cons] at h
      exact fun hmem => (List.disjoint_of_nodup_append h) hmem List.mem_cons_self
    have hset : setMember acc m = acc ++ [m] := if_neg fun hany => hm (any_key.mp hany)
    rw [List.append_cons] at h
    rw [List.foldl_cons, hset, ih h, List.append_assoc]
    rfl

/-- An object that is built again from its members is the same. -/
theorem fromMembers_eq_self (h : Keys (members.map Prod.fst)) : fromMembers members = members := by
  have hset : members.foldl setMember [] = members := @foldl_setMember_of_nodup α members [] h.1
  rw [fromMembers, hset]
  exact List.mergeSort_of_pairwise (List.pairwise_map.mp h.2)

end Members

/-! ## Strings -/

theorem itemUnit_quoteUnit (u : UInt16) : itemUnit (quoteUnit u) = u := by
  unfold quoteUnit
  split
  · exact UInt16.ofNat_toNat
  · split <;> exact UInt16.ofNat_toNat

theorem stringOf_quoteString (s : List UInt16) : stringOf (quoteString s) = s := by
  unfold stringOf
  induction s using quoteString.induct with
  | case1 => rfl
  | case2 u => rw [quoteString, List.map_singleton, itemUnit_quoteUnit]
  | case3 u v s h ih =>
    rw [quoteString, if_pos h, List.map_cons, List.map_cons, ih, itemUnit, itemUnit, UInt16.ofNat_toNat, UInt16.ofNat_toNat]
  | case4 u v s h ih => rw [quoteString, if_neg h, List.map_cons, ih, itemUnit_quoteUnit]

theorem quoteUnit_printable (u : UInt16) : (quoteUnit u).Printable := by
  unfold quoteUnit
  split
  · next h => exact Or.inr h
  · split
    · exact u.toNat_lt
    · next h => exact Or.inl (Nat.le_of_not_lt fun hlt => h (.inl hlt))

/-- Half of a pair is no control character. -/
theorem char_printable {u : UInt16} (h : Utf16.isHigh u = true ∨ Utf16.isLow u = true) :
    (JsonText.Item.char u.toNat).Printable := by
  have hle : 32 ≤ u.toNat := by
    simp only [Utf16.isHigh, Utf16.isLow, decide_eq_true_eq] at h
    omega
  exact Or.inl hle

theorem quoteString_printable (s : List UInt16) : ∀ i ∈ quoteString s, i.Printable := by
  induction s using quoteString.induct with
  | case1 => exact List.forall_mem_nil _
  | case2 u =>
    rw [quoteString]
    exact List.forall_mem_singleton.mpr (quoteUnit_printable u)
  | case3 u v s h ih =>
    rw [quoteString, if_pos h]
    exact List.forall_mem_cons.mpr ⟨char_printable (.inl h.1), List.forall_mem_cons.mpr ⟨char_printable (.inr h.2), ih⟩⟩
  | case4 u v s h ih =>
    rw [quoteString, if_neg h]
    exact List.forall_mem_cons.mpr ⟨quoteUnit_printable u, ih⟩

/-! ## What is parsed -/

section Values

variable {N : Numbers}

theorem membersWF_iff {ms : List (List UInt16 × Value)} : MembersWF N ms ↔ ∀ m ∈ ms, m.2.WF N := by
  induction ms with
  | nil => exact ⟨fun _ => List.forall_mem_nil _, fun _ => trivial⟩
  | cons m ms ih => rw [List.forall_mem_cons, ← ih, MembersWF]

theorem valuesWF_iff {vs : List Value} : ValuesWF N vs ↔ ∀ v ∈ vs, v.WF N := by
  induction vs with
  | nil => exact ⟨fun _ => List.forall_mem_nil _, fun _ => trivial⟩
  | cons v vs ih => rw [List.forall_mem_cons, ← ih, ValuesWF]

mutual

theorem ofTree_wf : ∀ t : JsonText.Tree, (ofTree N t).WF N
  | .null | .bool _ | .str _ => trivial
  | .num w => by
    rw [ofTree]
    cases h : N.read w with
    | finite x => exact N.isNumber_read w x h
    | infinite negative => exact trivial
  | .arr vs => ofValues_wf vs
  | .obj ms => ⟨keys_fromMembers _, membersWF_iff.mpr fun m hm => membersWF_iff.mp (ofMembers_wf ms) m (mem_fromMembers hm)⟩

theorem ofValues_wf : ∀ vs : List JsonText.Tree, ValuesWF N (ofValues N vs)
  | [] => trivial
  | v :: vs => ⟨ofTree_wf v, ofValues_wf vs⟩

theorem ofMembers_wf : ∀ ms : List (List JsonText.Item × JsonText.Tree), MembersWF N (ofMembers N ms)
  | [] => trivial
  | (_, v) :: ms => ⟨ofTree_wf v, ofMembers_wf ms⟩

end

theorem parse_wf {s : List UInt16} {v : Value} (h : parse N s = some v) : v.WF N := by
  obtain ⟨t, -, rfl⟩ := Option.map_eq_some_iff.mp h
  exact ofTree_wf t

/-! ## What is written -/

mutual

theorem toTree_printable : ∀ {v : Value}, v.WF N → (toTree N v).Printable
  | .null, _ | .bool _, _ | .num (.infinite _), _ => trivial
  | .num (.finite x), h => N.write_literal x h
  | .str s, _ => quoteString_printable s
  | .arr _, h => toTrees_printable h
  | .obj _, h => treeMembers_printable h.2

theorem toTrees_printable : ∀ {vs : List Value}, ValuesWF N vs → JsonText.PrintableValues (toTrees N vs)
  | [], _ => trivial
  | _ :: _, h => ⟨toTree_printable h.1, toTrees_printable h.2⟩

theorem treeMembers_printable : ∀ {ms : List (List UInt16 × Value)}, MembersWF N ms →
    JsonText.PrintableMembers (treeMembers N ms)
  | [], _ => trivial
  | (k, _) :: _, h => ⟨quoteString_printable k, toTree_printable h.1, treeMembers_printable h.2⟩

end

theorem keys_rereadMembers (ms : List (List UInt16 × Value)) : (rereadMembers ms).map Prod.fst = ms.map Prod.fst := by
  induction ms with
  | nil => rfl
  | cons m ms ih => rw [rereadMembers, List.map_cons, List.map_cons, ih]

mutual

theorem ofTree_toTree : ∀ {v : Value}, v.WF N → ofTree N (toTree N v) = v.reread
  | .null, _ | .bool _, _ | .num (.infinite _), _ => rfl
  | .num (.finite x), h => congrArg Value.num (N.read_write x h)
  | .str s, _ => congrArg Value.str (stringOf_quoteString s)
  | .arr _, h => congrArg Value.arr (ofValues_toTrees h)
  | .obj ms, h => by
    have hkeys : Keys ((rereadMembers ms).map Prod.fst) := keys_rereadMembers ms ▸ h.1
    rw [toTree, ofTree, ofMembers_treeMembers h.2, fromMembers_eq_self hkeys, Value.reread]

theorem ofValues_toTrees : ∀ {vs : List Value}, ValuesWF N vs → ofValues N (toTrees N vs) = rereadValues vs
  | [], _ => rfl
  | _ :: _, h => congrArg₂ List.cons (ofTree_toTree h.1) (ofValues_toTrees h.2)

theorem ofMembers_treeMembers : ∀ {ms : List (List UInt16 × Value)}, MembersWF N ms →
    ofMembers N (treeMembers N ms) = rereadMembers ms
  | [], _ => rfl
  | (k, _) :: _, h => congrArg₂ List.cons (congrArg₂ Prod.mk (stringOf_quoteString k) (ofTree_toTree h.1))
      (ofMembers_treeMembers h.2)

end

/-! ### Code units -/

/-- The numbers of code units. -/
def AreUnits (ns : List ℕ) : Prop := ∀ n ∈ ns, n < 65536

theorem AreUnits.append {ns ms : List ℕ} (hn : AreUnits ns) (hm : AreUnits ms) : AreUnits (ns ++ ms) :=
  fun n h => (List.mem_append.mp h).elim (hn n) (hm n)

theorem AreUnits.cons {n : ℕ} {ns : List ℕ} (hn : n < 65536) (h : AreUnits ns) : AreUnits (n :: ns) :=
  List.forall_mem_cons.mpr ⟨hn, h⟩

theorem AreUnits.ascii {ns : List ℕ} (h : ∀ n ∈ ns, n < 128) : AreUnits ns :=
  fun n hn => Nat.lt_trans (h n hn) (by decide)

theorem quoteUnit_eq (u : UInt16) : quoteUnit u = .char u.toNat ∨ quoteUnit u = .unit u.toNat := by
  unfold quoteUnit
  split
  · exact .inl rfl
  · split
    · exact .inr rfl
    · exact .inl rfl

theorem areUnits_char (u : UInt16) : AreUnits (JsonText.Item.char u.toNat).print := by
  rw [JsonText.Item.print]
  cases he : JsonText.shortOf.lookup u.toNat with
  | some e => exact AreUnits.ascii (List.forall_mem_cons.mpr ⟨by decide, List.forall_mem_singleton.mpr (JsonText.short_lt he)⟩)
  | none => exact AreUnits.cons u.toNat_lt (List.forall_mem_nil _)

theorem areUnits_quoteUnit (u : UInt16) : AreUnits (quoteUnit u).print := by
  rcases quoteUnit_eq u with h | h
  · rw [h]
    exact areUnits_char u
  · rw [h]
    exact AreUnits.ascii fun n => JsonText.hex4_lt

theorem areUnits_items (s : List UInt16) : AreUnits ((quoteString s).flatMap JsonText.Item.print) := by
  induction s using quoteString.induct with
  | case1 => exact List.forall_mem_nil _
  | case2 u =>
    rw [quoteString, List.flatMap_singleton]
    exact areUnits_quoteUnit u
  | case3 u v s h ih =>
    rw [quoteString, if_pos h]
    exact (areUnits_char u).append ((areUnits_char v).append ih)
  | case4 u v s h ih =>
    rw [quoteString, if_neg h]
    exact (areUnits_quoteUnit u).append ih

theorem areUnits_quote (s : List UInt16) : AreUnits (JsonText.quote (quoteString s)) :=
  .cons (by decide) ((areUnits_items s).append (.cons (by decide) (List.forall_mem_nil _)))

theorem areUnits_number {x : ℚ} (h : N.IsNumber x) : AreUnits (N.write x) := by
  refine AreUnits.ascii fun n hn => ?_
  have hnumeric := (JsonText.isNumber_numeric (N.write_literal x h)).1 n hn
  simp only [JsonText.isNumeric, JsonText.isDigit, decide_eq_true_eq] at hnumeric
  omega

mutual

theorem areUnits_tree : ∀ {v : Value}, v.WF N → AreUnits (toTree N v).print
  | .null, _ | .num (.infinite _), _ => AreUnits.ascii (by decide : ∀ n ∈ JsonText.codes "null", n < 128)
  | .bool true, _ => AreUnits.ascii (by decide : ∀ n ∈ JsonText.codes "true", n < 128)
  | .bool false, _ => AreUnits.ascii (by decide : ∀ n ∈ JsonText.codes "false", n < 128)
  | .num (.finite _), h => areUnits_number h
  | .str s, _ => areUnits_quote s
  | .arr [], _ => AreUnits.ascii (by decide : ∀ n ∈ [91, 93], n < 128)
  | .arr (_ :: _), h => .cons (by decide) ((areUnits_tree h.1).append ((areUnits_trees h.2).append (.cons (by decide) (List.forall_mem_nil _))))
  | .obj [], _ => AreUnits.ascii (by decide : ∀ n ∈ [123, 125], n < 128)
  | .obj ((k, _) :: _), h => .cons (by decide) ((areUnits_quote k).append (.cons (by decide)
      ((areUnits_tree h.2.1).append ((areUnits_treeMembers h.2.2).append (.cons (by decide) (List.forall_mem_nil _))))))

theorem areUnits_trees : ∀ {vs : List Value}, ValuesWF N vs → AreUnits (JsonText.printValues (toTrees N vs))
  | [], _ => List.forall_mem_nil _
  | _ :: _, h => .cons (by decide) ((areUnits_tree h.1).append (areUnits_trees h.2))

theorem areUnits_treeMembers : ∀ {ms : List (List UInt16 × Value)}, MembersWF N ms →
    AreUnits (JsonText.printMembers (treeMembers N ms))
  | [], _ => List.forall_mem_nil _
  | (k, _) :: _, h => .cons (by decide) ((areUnits_quote k).append (.cons (by decide)
      ((areUnits_tree h.1).append (areUnits_treeMembers h.2))))

end

/-- What is written reads back, with `null` in the place of a number that is not finite. -/
theorem parse_stringify {v : Value} (h : v.WF N) : parse N (stringify N v) = some v.reread := by
  have hcodes : (stringify N v).map UInt16.toNat = (toTree N v).print := by
    rw [stringify, List.map_map]
    refine (List.map_congr_left fun n hn => ?_).trans (List.map_id _)
    rw [Function.comp_apply, UInt16.toNat_ofNat', Nat.mod_eq_of_lt (areUnits_tree h n hn)]
    rfl
  have hparse := JsonText.parse_print (toTree_printable h) (List.forall_mem_nil _)
  rw [List.append_nil] at hparse
  rw [parse, hcodes, hparse, Option.map_some, ofTree_toTree h]

end Values

/-! ## Finite values -/

mutual

theorem reread_eq_self_iff : ∀ {v : Value}, v.reread = v ↔ v.Finite
  | .null | .bool _ | .str _ | .num (.finite _) => ⟨fun _ => trivial, fun _ => rfl⟩
  | .num (.infinite _) => ⟨fun h => Value.noConfusion h, False.elim⟩
  | .arr vs => by rw [Value.reread, Value.arr.injEq, rereadValues_eq_self_iff, Value.Finite]
  | .obj ms => by rw [Value.reread, Value.obj.injEq, rereadMembers_eq_self_iff, Value.Finite]

theorem rereadValues_eq_self_iff : ∀ {vs : List Value}, rereadValues vs = vs ↔ ValuesFinite vs
  | [] => ⟨fun _ => trivial, fun _ => rfl⟩
  | v :: vs => by rw [rereadValues, List.cons.injEq, reread_eq_self_iff, rereadValues_eq_self_iff, ValuesFinite]

theorem rereadMembers_eq_self_iff : ∀ {ms : List (List UInt16 × Value)}, rereadMembers ms = ms ↔ MembersFinite ms
  | [] => ⟨fun _ => trivial, fun _ => rfl⟩
  | (k, v) :: ms => by
    rw [rereadMembers, List.cons.injEq, Prod.mk.injEq, reread_eq_self_iff, rereadMembers_eq_self_iff, MembersFinite,
      eq_self_iff_true, true_and]

end

theorem membersFinite_iff {ms : List (List UInt16 × Value)} : MembersFinite ms ↔ ∀ m ∈ ms, m.2.Finite := by
  induction ms with
  | nil => exact ⟨fun _ => List.forall_mem_nil _, fun _ => trivial⟩
  | cons m ms ih => rw [List.forall_mem_cons, ← ih, MembersFinite]

theorem valuesFinite_iff {vs : List Value} : ValuesFinite vs ↔ ∀ v ∈ vs, v.Finite := by
  induction vs with
  | nil => exact ⟨fun _ => List.forall_mem_nil _, fun _ => trivial⟩
  | cons v vs ih => rw [List.forall_mem_cons, ← ih, ValuesFinite]

theorem rereadValues_eq_map (vs : List Value) : rereadValues vs = vs.map Value.reread := by
  induction vs with
  | nil => rfl
  | cons v vs ih => rw [rereadValues, ih, List.map_cons]

end Js
