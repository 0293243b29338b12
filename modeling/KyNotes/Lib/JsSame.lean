import KyNotes.Lib.Json
import KyNotes.Lib.JsValue
import KyNotes.Lib.WellFormed

/-!
# Values but for the order of members

`Value.Same` is equality but for the order in which the members of an object are enumerated, and `Value.WellFormed` is that no
string or key has a lone surrogate, which the same values have in common (`wellFormed_of_same`). Of the members that an
object is made of the last with a key counts (`lookup_fromMembers`).
-/

namespace Js

open Json (lastValue lastValue_cons)

/-! ## Members -/

section Members

variable {α : Type} {members : List (List UInt16 × α)}

theorem lookup_eq_some_iff (h : (members.map Prod.fst).Nodup) {k : List UInt16} {v : α} :
    members.lookup k = some v ↔ (k, v) ∈ members := by
  induction members with
  | nil => simp
  | cons m members ih =>
    obtain ⟨k', v'⟩ := m
    obtain ⟨hk', hnodup⟩ := List.nodup_cons.mp h
    by_cases hk : k = k'
    · subst hk
      have hnot : (k, v) ∉ members := fun hmem => hk' (List.mem_map.mpr ⟨(k, v), hmem, rfl⟩)
      simp [List.lookup_cons_self, hnot, eq_comm]
    · have hne : (k == k') = false := beq_false_of_ne hk
      simp [List.lookup_cons, hne, ih hnodup, hk]

theorem mem_keys_iff {k : List UInt16} : k ∈ members.map Prod.fst ↔ ∃ v, members.lookup k = some v := by
  induction members with
  | nil => simp
  | cons m members ih =>
    obtain ⟨k', v'⟩ := m
    by_cases hk : k = k'
    · subst hk
      simp [List.lookup_cons_self]
    · have hne : (k == k') = false := beq_false_of_ne hk
      rw [List.map_cons, List.mem_cons, List.lookup_cons, hne, ← ih]
      exact or_iff_right hk

theorem lookup_setMember (h : (members.map Prod.fst).Nodup) (m : List UInt16 × α) (k : List UInt16) :
    (setMember members m).lookup k = if m.1 = k then some m.2 else members.lookup k := by
  refine Option.ext fun v => ?_
  rw [lookup_eq_some_iff (nodup_setMember h m), mem_setMember_iff]
  split
  · next hk =>
    subst hk
    simp [Prod.ext_iff, eq_comm]
  · next hk =>
    rw [lookup_eq_some_iff h]
    constructor
    · rintro (⟨hmem, -⟩ | rfl)
      · exact hmem
      · exact absurd rfl hk
    · exact fun hmem => .inl ⟨hmem, fun heq => hk heq.symm⟩

theorem lookup_foldl_setMember (k : List UInt16) (ms : List (List UInt16 × α)) : ∀ {acc : List (List UInt16 × α)},
    (acc.map Prod.fst).Nodup → (ms.foldl setMember acc).lookup k = (lastValue ms k).or (acc.lookup k) := by
  induction ms with
  | nil => exact fun _ => rfl
  | cons m ms ih =>
    intro acc h
    rw [List.foldl_cons, ih (nodup_setMember h m), lookup_setMember h, lastValue_cons, Option.or_assoc]
    congr 1
    split <;> rfl

/-- The last of the members with a key counts. -/
theorem lookup_fromMembers (k : List UInt16) : (fromMembers members).lookup k = lastValue members k := by
  have hnil : (([] : List (List UInt16 × α)).map Prod.fst).Nodup := List.nodup_nil
  have hfold : (members.foldl setMember []).lookup k = lastValue members k := by
    rw [lookup_foldl_setMember k members hnil]
    exact Option.or_none
  rw [← hfold]
  refine Option.ext fun v => ?_
  rw [lookup_eq_some_iff (keys_fromMembers members).1, lookup_eq_some_iff (nodup_foldl_setMember members hnil)]
  exact List.mem_mergeSort

end Members

/-! ## The same values -/

mutual

def Value.Same : Value → Value → Prop
  | .null, w => w = .null
  | .bool b, w => w = .bool b
  | .num n, w => w = .num n
  | .str s, w => w = .str s
  | .arr vs, w => ∃ ws, w = .arr ws ∧ SameValues vs ws
  | .obj ms, w => ∃ ns, w = .obj ns ∧ (∀ k ∈ ns.map Prod.fst, k ∈ ms.map Prod.fst) ∧ SameMembers ms ns

def SameValues : List Value → List Value → Prop
  | [], ws => ws = []
  | v :: vs, ws => ∃ w ws', ws = w :: ws' ∧ v.Same w ∧ SameValues vs ws'

/-- Each member is one of the other object, wherever it is. -/
def SameMembers : List (List UInt16 × Value) → List (List UInt16 × Value) → Prop
  | [], _ => True
  | (k, v) :: ms, ns => (∃ w, ns.lookup k = some w ∧ v.Same w) ∧ SameMembers ms ns

end

theorem sameMembers_iff {ms ns : List (List UInt16 × Value)} :
    SameMembers ms ns ↔ ∀ m ∈ ms, ∃ w, ns.lookup m.1 = some w ∧ m.2.Same w := by
  induction ms with
  | nil => simp [SameMembers]
  | cons m ms ih => simp [SameMembers, ih]

mutual

/-- No string and no key has a lone surrogate. -/
def Value.WellFormed : Value → Prop
  | .null | .bool _ | .num _ => True
  | .str s => Utf16.IsWellFormed s
  | .arr vs => ValuesWellFormed vs
  | .obj ms => MembersWellFormed ms

def ValuesWellFormed : List Value → Prop
  | [] => True
  | v :: vs => v.WellFormed ∧ ValuesWellFormed vs

def MembersWellFormed : List (List UInt16 × Value) → Prop
  | [] => True
  | (k, v) :: ms => Utf16.IsWellFormed k ∧ v.WellFormed ∧ MembersWellFormed ms

end

theorem valuesWellFormed_iff {vs : List Value} : ValuesWellFormed vs ↔ ∀ v ∈ vs, v.WellFormed := by
  induction vs with
  | nil => simp [ValuesWellFormed]
  | cons v vs ih => simp [ValuesWellFormed, ih]

theorem membersWellFormed_iff {ms : List (List UInt16 × Value)} :
    MembersWellFormed ms ↔ ∀ m ∈ ms, Utf16.IsWellFormed m.1 ∧ m.2.WellFormed := by
  induction ms with
  | nil => simp [MembersWellFormed]
  | cons m ms ih => simp [MembersWellFormed, ih, and_assoc]

mutual

theorem wellFormed_of_same : ∀ {v w : Value}, v.Same w → w.WellFormed → v.WellFormed
  | .null, _, _, _ | .bool _, _, _, _ | .num _, _, _, _ => trivial
  | .str s, _, h, hw => by
    rw [Value.Same] at h
    rw [h] at hw
    exact hw
  | .arr vs, _, h, hw => by
    obtain ⟨ws, rfl, hs⟩ := h
    exact valuesWellFormed_of_same hs hw
  | .obj ms, _, h, hw => by
    obtain ⟨ns, rfl, -, hs⟩ := h
    exact membersWellFormed_of_same hs (membersWellFormed_iff.mp hw)

theorem valuesWellFormed_of_same : ∀ {vs ws : List Value}, SameValues vs ws → ValuesWellFormed ws → ValuesWellFormed vs
  | [], _, _, _ => trivial
  | v :: vs, _, h, hw => by
    obtain ⟨w, ws', rfl, hv, hs⟩ := h
    exact ⟨wellFormed_of_same hv hw.1, valuesWellFormed_of_same hs hw.2⟩

theorem membersWellFormed_of_same : ∀ {ms ns : List (List UInt16 × Value)}, SameMembers ms ns →
    (∀ m ∈ ns, Utf16.IsWellFormed m.1 ∧ m.2.WellFormed) → MembersWellFormed ms
  | [], _, _, _ => trivial
  | (k, v) :: ms, ns, h, hw => by
    obtain ⟨⟨w, hlookup, hv⟩, hs⟩ := h
    obtain ⟨l, r, rfl, -⟩ := List.lookup_eq_some_iff.mp hlookup
    obtain ⟨hk, hwf⟩ := hw (k, w) (List.mem_append_right _ List.mem_cons_self)
    exact ⟨hk, wellFormed_of_same hv hwf, membersWellFormed_of_same hs hw⟩

end

mutual

theorem same_self (N : Numbers) : ∀ {v : Value}, v.WF N → v.Same v
  | .null, _ | .bool _, _ | .num _, _ | .str _, _ => rfl
  | .arr vs, h => ⟨vs, rfl, sameValues_self N h⟩
  | .obj ms, h => by
    refine ⟨ms, rfl, fun _ hk => hk, sameMembers_iff.mpr fun m hm => ⟨m.2, ?_, sameMembers_self N h.2 m hm⟩⟩
    exact (lookup_eq_some_iff h.1.1).mpr hm

theorem sameValues_self (N : Numbers) : ∀ {vs : List Value}, ValuesWF N vs → SameValues vs vs
  | [], _ => rfl
  | _ :: _, h => ⟨_, _, rfl, same_self N h.1, sameValues_self N h.2⟩

theorem sameMembers_self (N : Numbers) : ∀ {ms : List (List UInt16 × Value)}, MembersWF N ms → ∀ m ∈ ms, m.2.Same m.2
  | [], _ => nofun
  | _ :: _, h => List.forall_mem_cons.mpr ⟨same_self N h.1, sameMembers_self N h.2⟩

end

end Js
