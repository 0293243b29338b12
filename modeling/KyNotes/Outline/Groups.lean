import KyNotes.Lib.Chains
import Mathlib.Data.List.AList

/-!
# Groups (`web/src/outline.ts`)

A group may hold any group as its parent, so that the raw parents are any graph. `groupParents` keeps the parent of a group
whose own chain ends within `maxGroupDepth` (`parentOf_eq_some`); the chains of what it leaves are the raw ones
(`path_groupParents`). `groupMoveAllowed` looks at what is left, and the move is stored in the raw graph.
-/

namespace KyNotes.Outline

open Chains

/-- `MAX_GROUP_DEPTH`. -/
def maxGroupDepth : Nat := 4

variable {ι : Type} [DecidableEq ι]

/-- `Grouped`. -/
structure Grouped (ι : Type) where
  id : ι
  group : Option ι

/-- A `Map` from IDs to a group or `undefined`. -/
abbrev Parents (ι : Type) := AList fun _ : ι => Option ι

/-- `new Map(entries)`: a later entry of a key replaces an earlier one. -/
def mapOf (l : List (ι × Option ι)) : Parents ι := l.foldl (fun m x => m.insert x.1 x.2) ∅

/-- The raw parents. -/
def rawParents (groups : List (Grouped ι)) : Parents ι := mapOf (groups.map fun g => (g.id, g.group))

/-- The loop of `groupParents`: with `n` steps left, so that `depth` is `maxGroupDepth + 1 - n`. It ends with the steps
left, what it has seen, and where it is. -/
def climb (raw : Parents ι) : Nat → List ι → Option ι → Nat × List ι × Option ι
  | 0, seen, current => (0, seen, current)
  | n + 1, seen, current =>
    match current with
    | none => (n + 1, seen, none)
    | some c =>
      match raw.lookup c with
      | none => (n + 1, seen, some c)
      | some group => if c ∈ seen then (n + 1, seen, some c) else climb raw n (c :: seen) group

/-- The parent of one group. -/
def parentOf (raw : Parents ι) (id : ι) (group : Option ι) : Option ι :=
  let (left, seen, current) := climb raw maxGroupDepth [id] group
  let cyclic := current.any fun c => c ∈ seen
  let depth := maxGroupDepth + 1 - left
  if group.any (fun g => (raw.lookup g).isSome) ∧ ¬cyclic ∧ depth ≤ maxGroupDepth then group else none

/-- `groupParents`. -/
def groupParents (groups : List (Grouped ι)) : Parents ι :=
  mapOf (groups.map fun g => (g.id, parentOf (rawParents groups) g.id g.group))

/-- `parents.get(id)`. -/
def parentIn (parents : Parents ι) (id : ι) : Option ι := (parents.lookup id).join

/-- The loop of `groupPath`. -/
def groupPathUpTo (parents : Parents ι) : Nat → List ι → Option ι → List ι
  | 0, path, _ => path
  | n + 1, path, current =>
    match current with
    | none => path
    | some c => if (parents.lookup c).isSome then groupPathUpTo parents n (c :: path) (parentIn parents c) else path

/-- `groupPath`: the loop stops at a path of more than `maxGroupDepth`. -/
def groupPath (groupID : Option ι) (parents : Parents ι) : List ι :=
  groupPathUpTo parents (maxGroupDepth + 1) [] groupID

/-- The groups right below one. -/
def children (parents : Parents ι) (id : ι) : List ι :=
  (parents.entries.filter fun x => x.2 = some id).map Sigma.fst

/-- `subtreeHeight`, for a number of nested calls. -/
def subtreeHeightUpTo (parents : Parents ι) : Nat → ι → Nat
  | 0, _ => 0
  | n + 1, id => ((children parents id).map (subtreeHeightUpTo parents n)).foldl max 0 + 1

/-- `subtreeHeight`. -/
def subtreeHeight (id : ι) (parents : Parents ι) : Nat := subtreeHeightUpTo parents (maxGroupDepth + 1) id

/-- `groupMoveAllowed`. -/
def groupMoveAllowed (id : ι) (target : Option ι) (parents : Parents ι) : Bool :=
  let path := groupPath target parents
  id ∉ path ∧ path.length + subtreeHeight id parents ≤ maxGroupDepth

/-- The groups after `id` is moved. -/
def moveGroup (groups : List (Grouped ι)) (id : ι) (target : Option ι) : List (Grouped ι) :=
  groups.map fun g => if g.id = id then { g with group := target } else g

/-! ## Maps -/

section Maps

variable {groups : List (Grouped ι)} {id x : ι} {target : Option ι}

theorem lookup_foldl (l : List (ι × Option ι)) (m : Parents ι) (id : ι) :
    (l.foldl (fun m x => m.insert x.1 x.2) m).lookup id =
      ((l.reverse.find? fun x => x.1 = id).map Prod.snd).or (m.lookup id) := by
  induction l generalizing m with
  | nil => rfl
  | cons x l ih =>
    rw [List.foldl_cons, ih, List.reverse_cons, List.find?_append]
    cases l.reverse.find? fun x => x.1 = id with
    | some y => rfl
    | none =>
      by_cases h : x.1 = id
      · subst h
        rw [AList.lookup_insert]
        simp
      · rw [AList.lookup_insert_ne (Ne.symm h)]
        simp [h]

/-- The group that a map has for an ID: the last one of the list. -/
def lastGroup (groups : List (Grouped ι)) (id : ι) : Option (Grouped ι) := groups.reverse.find? fun g => g.id = id

theorem lookup_mapOf (f : Grouped ι → Option ι) (groups : List (Grouped ι)) (id : ι) :
    (mapOf (groups.map fun g => (g.id, f g))).lookup id = (lastGroup groups id).map f := by
  rw [mapOf, lookup_foldl, ← List.map_reverse, List.find?_map, AList.lookup_empty, Option.or_none, Option.map_map]
  rfl

theorem lookup_rawParents : (rawParents groups).lookup id = (lastGroup groups id).map Grouped.group := lookup_mapOf _ _ _

theorem lookup_groupParents :
    (groupParents groups).lookup id = ((rawParents groups).lookup id).map (parentOf (rawParents groups) id) := by
  rw [groupParents, lookup_mapOf, lookup_rawParents]
  cases h : lastGroup groups id with
  | none => rfl
  | some g =>
    have hid : g.id = id := by simpa using List.find?_some h
    rw [← hid]
    rfl

theorem isSome_groupParents : ((groupParents groups).lookup id).isSome = ((rawParents groups).lookup id).isSome := by
  rw [lookup_groupParents, Option.isSome_map]

theorem isSome_rawParents : ((rawParents groups).lookup id).isSome ↔ ∃ g ∈ groups, g.id = id := by
  rw [lookup_rawParents, Option.isSome_map, lastGroup, List.find?_isSome]
  simp

theorem lookup_moveGroup : (rawParents (moveGroup groups id target)).lookup x =
    ((rawParents groups).lookup x).map fun group => if x = id then target else group := by
  rw [lookup_rawParents, lookup_rawParents, lastGroup, moveGroup, ← List.map_reverse, List.find?_map, Option.map_map]
  have hp : ((fun g : Grouped ι => decide (g.id = x)) ∘ fun g => if g.id = id then { g with group := target } else g) =
      fun g => decide (g.id = x) := by
    funext g
    simp only [Function.comp]
    split <;> rfl
  rw [hp]
  cases h : lastGroup groups x with
  | none =>
    rw [lastGroup] at h
    rw [h]
    rfl
  | some g =>
    have hid : g.id = x := by simpa using List.find?_some h
    rw [lastGroup] at h
    rw [h]
    simp only [Option.map_some, Function.comp, hid]
    split <;> rfl

end Maps

/-! ## Chains -/

section Chain

variable {groups : List (Grouped ι)} {raw : Parents ι} {id g x : ι} {p : List ι}

/-- A reference to a group that exists. -/
def existing (raw : Parents ι) (o : Option ι) : Option ι := o.filter fun g => (raw.lookup g).isSome

/-- The raw parent, if it exists. -/
def up (raw : Parents ι) (id : ι) : Option ι := existing raw (parentIn raw id)

theorem existing_eq_some {o : Option ι} : existing raw o = some g ↔ o = some g ∧ (raw.lookup g).isSome := by
  rw [existing, Option.filter_eq_some_iff]

theorem up_of_lookup {group : Option ι} (h : raw.lookup id = some group) : up raw id = existing raw group := by
  rw [up, parentIn, h]
  rfl

theorem up_of_not_mem (h : raw.lookup id = none) : up raw id = none := by
  rw [up, parentIn, h]
  rfl

/-- The chain of a group ends within the depth. -/
def Settled (raw : Parents ι) (id : ι) : Prop := ∃ p, Path (up raw) (some id) p ∧ p.length ≤ maxGroupDepth

/-- The loop ends in time and with nothing seen twice if the chain ends in time and meets nothing seen. -/
theorem climb_spec : ∀ {n : Nat} {seen : List ι} {current : Option ι}, (∀ x ∈ seen, (raw.lookup x).isSome) →
    ((1 ≤ (climb raw n seen current).1 ∧
      ¬(climb raw n seen current).2.2.any fun c => c ∈ (climb raw n seen current).2.1) ↔
        ∃ p, Path (up raw) (existing raw current) p ∧ p.length < n ∧ ∀ x ∈ p, x ∉ seen)
  | 0, seen, current, _ => by
    refine iff_of_false (fun h => absurd h.1 (by simp [climb])) ?_
    rintro ⟨p, -, hp, -⟩
    exact absurd hp (Nat.not_lt_zero _)
  | n + 1, seen, none, _ => by
    refine iff_of_true ⟨by simp [climb], by simp [climb]⟩ ?_
    exact ⟨[], .nil, Nat.succ_pos n, fun x hx => by cases hx⟩
  | n + 1, seen, some c, hseen => by
    cases hc : raw.lookup c with
    | none =>
      have hnot : c ∉ seen := fun h => by
        have := hseen c h
        rw [hc] at this
        cases this
      have hex : existing raw (some c) = none := by simp [existing, hc]
      refine iff_of_true ⟨by simp [climb, hc], by simp [climb, hc, hnot]⟩ ?_
      exact ⟨[], hex ▸ .nil, Nat.succ_pos n, fun x hx => by cases hx⟩
    | some group =>
      have hex : existing raw (some c) = some c := existing_eq_some.2 ⟨rfl, by rw [hc]; rfl⟩
      by_cases hmem : c ∈ seen
      · refine iff_of_false (fun h => absurd h.2 (by simp [climb, hc, hmem])) ?_
        rintro ⟨p, hp, -, hd⟩
        rw [hex] at hp
        obtain ⟨q, rfl, -⟩ := path_some.1 hp
        exact hd c List.mem_cons_self hmem
      · have hstep : climb raw (n + 1) seen (some c) = climb raw n (c :: seen) group := by simp [climb, hc, hmem]
        have hseen' : ∀ x ∈ c :: seen, (raw.lookup x).isSome :=
          List.forall_mem_cons.2 ⟨by rw [hc]; rfl, hseen⟩
        rw [hstep, climb_spec hseen', hex]
        constructor
        · rintro ⟨p, hp, hlen, hd⟩
          refine ⟨c :: p, .cons ((up_of_lookup hc).symm ▸ hp), Nat.succ_lt_succ hlen, ?_⟩
          exact List.forall_mem_cons.2 ⟨hmem, fun x hx hs => hd x hx (List.mem_cons_of_mem _ hs)⟩
        · rintro ⟨p, hp, hlen, hd⟩
          obtain ⟨q, rfl, hq⟩ := path_some.1 hp
          refine ⟨q, up_of_lookup hc ▸ hq, Nat.lt_of_succ_lt_succ hlen, fun x hx hs => ?_⟩
          obtain rfl | hs := List.mem_cons.1 hs
          · exact hp.not_mem hx
          · exact hd x (List.mem_cons_of_mem _ hx) hs

theorem settled_iff {group : Option ι} (h : raw.lookup id = some group) :
    Settled raw id ↔ ∃ p, Path (up raw) (existing raw group) p ∧ p.length < maxGroupDepth ∧ ∀ x ∈ p, x ∉ [id] := by
  constructor
  · rintro ⟨p, hp, hlen⟩
    obtain ⟨q, rfl, hq⟩ := path_some.1 hp
    exact ⟨q, up_of_lookup h ▸ hq, hlen, fun x hx he => hp.not_mem (List.mem_singleton.1 he ▸ hx)⟩
  · rintro ⟨p, hp, hlen, -⟩
    exact ⟨id :: p, .cons ((up_of_lookup h).symm ▸ hp), hlen⟩

/-- A parent is kept if the chain of the group ends within the depth. -/
theorem parentOf_eq_some {group : Option ι} (h : raw.lookup id = some group) :
    parentOf raw id group = some g ↔ up raw id = some g ∧ Settled raw id := by
  have hseen : ∀ x ∈ [id], (raw.lookup x).isSome := by
    intro x hx
    rw [List.mem_singleton.1 hx, h]
    rfl
  have hdepth : maxGroupDepth + 1 - (climb raw maxGroupDepth [id] group).1 ≤ maxGroupDepth ↔
      1 ≤ (climb raw maxGroupDepth [id] group).1 := by
    have : 0 < maxGroupDepth := by decide
    omega
  rw [settled_iff h, ← climb_spec hseen, up_of_lookup h, existing_eq_some]
  have hcond : parentOf raw id group = if group.any (fun g => (raw.lookup g).isSome) ∧
      ¬(climb raw maxGroupDepth [id] group).2.2.any (fun c => c ∈ (climb raw maxGroupDepth [id] group).2.1) ∧
      maxGroupDepth + 1 - (climb raw maxGroupDepth [id] group).1 ≤ maxGroupDepth then group else none := rfl
  rw [hcond]
  constructor
  · intro he
    split at he
    · rename_i hall
      refine ⟨⟨he, ?_⟩, hdepth.1 hall.2.2, hall.2.1⟩
      have := hall.1
      rw [he] at this
      exact this
    · cases he
  · rintro ⟨⟨rfl, hg⟩, h1, hc⟩
    exact if_pos ⟨hg, hc, hdepth.2 h1⟩

theorem parentIn_groupParents :
    parentIn (groupParents groups) id = some g ↔ up (rawParents groups) id = some g ∧ Settled (rawParents groups) id := by
  rw [parentIn, lookup_groupParents]
  cases h : (rawParents groups).lookup id with
  | none =>
    rw [up_of_not_mem h]
    exact iff_of_false (fun h => by cases h) fun h => by cases h.1
  | some group => exact parentOf_eq_some h

theorem parentIn_of_settled (h : Settled (rawParents groups) id) :
    parentIn (groupParents groups) id = up (rawParents groups) id := by
  ext g
  exact parentIn_groupParents.trans (and_iff_left h)

theorem parentIn_of_not_settled (h : ¬Settled (rawParents groups) id) : parentIn (groupParents groups) id = none := by
  cases hp : parentIn (groupParents groups) id with
  | none => rfl
  | some g => exact absurd (parentIn_groupParents.1 hp).2 h

/-- What is on the chain of a settled group is settled. -/
theorem Settled.tail (hp : Path (up raw) (some id) p) (hlen : p.length ≤ maxGroupDepth) : ∀ x ∈ p, Settled raw x := by
  intro x hx
  obtain ⟨l, q, rfl, hq⟩ := hp.tail hx
  rw [List.length_append] at hlen
  exact ⟨_, hq, by omega⟩

/-- The chain of a settled group is its raw one. -/
theorem path_groupParents (hp : Path (up (rawParents groups)) (some id) p) (hlen : p.length ≤ maxGroupDepth) :
    Path (parentIn (groupParents groups)) (some id) p :=
  hp.congr fun x hx => parentIn_of_settled (Settled.tail hp hlen x hx)

/-- Every chain ends within the depth. -/
theorem exists_path (groups : List (Grouped ι)) (id : ι) :
    ∃ p, Path (parentIn (groupParents groups)) (some id) p ∧ p.length ≤ maxGroupDepth := by
  by_cases h : Settled (rawParents groups) id
  · obtain ⟨p, hp, hlen⟩ := h
    exact ⟨p, path_groupParents hp hlen, hlen⟩
  · exact ⟨[id], .root (parentIn_of_not_settled h), (by decide : 1 ≤ maxGroupDepth)⟩

/-- What is on a chain behind its first group is a group of the list. -/
theorem mem_path {o : Option ι} (hp : Path (parentIn (groupParents groups)) o p) :
    ∀ x ∈ p, o = some x ∨ ((groupParents groups).lookup x).isSome := by
  induction hp with
  | nil => exact fun x hx => by cases hx
  | @cons y p h ih =>
    intro x hx
    obtain rfl | hx := List.mem_cons.1 hx
    · exact .inl rfl
    · obtain hup | hm := ih x hx
      · have := (parentIn_groupParents.1 hup).1
        rw [isSome_groupParents]
        exact .inr (existing_eq_some.1 this).2
      · exact .inr hm

theorem groupPathUpTo_eq {parents : Parents ι} : ∀ {n : Nat} {path : List ι} {o : Option ι} {p : List ι},
    Path (parentIn parents) o p → (∀ x ∈ p, (parents.lookup x).isSome) → p.length ≤ n →
      groupPathUpTo parents n path o = p.reverse ++ path
  | 0, path, o, p, _, _, hlen => by
    rw [List.length_eq_zero_iff.1 (Nat.le_zero.1 hlen)]
    rfl
  | n + 1, path, none, p, hp, _, _ => by
    rw [path_none.1 hp]
    rfl
  | n + 1, path, some c, p, hp, hm, hlen => by
    obtain ⟨q, rfl, hq⟩ := path_some.1 hp
    have hc := hm c List.mem_cons_self
    rw [groupPathUpTo, if_pos hc, groupPathUpTo_eq hq (fun x hx => hm x (List.mem_cons_of_mem _ hx))
      (Nat.le_of_succ_le_succ hlen), List.reverse_cons, List.append_assoc]
    rfl

/-- `groupPath` is the chain from the root down. -/
theorem groupPath_eq (hp : Path (parentIn (groupParents groups)) (some id) p)
    (hid : ((groupParents groups).lookup id).isSome) : groupPath (some id) (groupParents groups) = p.reverse := by
  obtain ⟨p', hp', hlen⟩ := exists_path groups id
  obtain rfl := hp.unique hp'
  have hm : ∀ x ∈ p, ((groupParents groups).lookup x).isSome := by
    intro x hx
    obtain h | h := mem_path hp x hx
    · exact Option.some.inj h ▸ hid
    · exact h
  rw [groupPath, groupPathUpTo_eq hp hm (Nat.le_succ_of_le hlen), List.append_nil]

/-- `groupParents` has one entry for each group. Following the parents from a group reaches the root within the depth,
through groups of the list, and `groupPath` is that chain. A group whose raw chain is complete, acyclic and within the depth
keeps its raw parent. -/
theorem groupParents_forest (groups : List (Grouped ι)) :
    let raw := rawParents groups
    let parents := groupParents groups
    (∀ id, (parents.lookup id).isSome ↔ ∃ g ∈ groups, g.id = id) ∧
    (∀ id, (parents.lookup id).isSome → ∃ p, Path (parentIn parents) (some id) p ∧ p.length ≤ maxGroupDepth ∧
      (∀ x ∈ p, (parents.lookup x).isSome) ∧ groupPath (some id) parents = p.reverse) ∧
    ∀ id p, Path (parentIn raw) (some id) p → (∀ x ∈ p, (raw.lookup x).isSome) → p.length ≤ maxGroupDepth →
      parents.lookup id = raw.lookup id := by
  refine ⟨fun id => ?_, fun id hid => ?_, fun id p hp hm hlen => ?_⟩
  · rw [isSome_groupParents]
    exact isSome_rawParents
  · obtain ⟨p, hp, hlen⟩ := exists_path groups id
    refine ⟨p, hp, hlen, fun x hx => ?_, groupPath_eq hp hid⟩
    obtain h | h := mem_path hp x hx
    · exact Option.some.inj h ▸ hid
    · exact h
  · have hup : ∀ x ∈ p, up (rawParents groups) x = parentIn (rawParents groups) x := by
      intro x hx
      obtain ⟨l, q, rfl, hq⟩ := hp.tail hx
      obtain ⟨q', he, hq'⟩ := path_some.1 hq
      cases he
      cases hpar : parentIn (rawParents groups) x with
      | none => rw [up, hpar]; rfl
      | some y =>
        rw [hpar] at hq'
        obtain ⟨r, rfl, -⟩ := path_some.1 hq'
        rw [up, hpar]
        exact existing_eq_some.2 ⟨rfl, hm y (by simp)⟩
    have hid : id ∈ p := by
      obtain ⟨q, rfl, -⟩ := path_some.1 hp
      exact List.mem_cons_self
    have hsettled : Settled (rawParents groups) id := ⟨p, hp.congr hup, hlen⟩
    have hpar := (parentIn_of_settled hsettled).trans (hup id hid)
    have hsome := hm id hid
    obtain ⟨a, ha⟩ := Option.isSome_iff_exists.1 hsome
    obtain ⟨b, hb⟩ := Option.isSome_iff_exists.1 (isSome_groupParents.trans hsome)
    rw [parentIn, parentIn, ha, hb] at hpar
    rw [ha, hb]
    exact congrArg some hpar

/-- Two groups that are each below the other, and one below the first of them. -/
theorem groupParents_forest_cycle :
    (groupParents [(⟨0, some 1⟩ : Grouped Nat), ⟨1, some 0⟩, ⟨2, some 0⟩, ⟨3, none⟩, ⟨4, some 3⟩]).lookup 4 = some (some 3) :=
  ((groupParents_forest _).2.2 4 [4, 3] (.cons (.cons .nil)) (by decide) (by decide)).trans (by decide)

end Chain

end KyNotes.Outline
