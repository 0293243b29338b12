import KyNotes.Outline.Groups

/-!
# Moving a group (`web/src/outline.ts`)

`groupMoveAllowed` counts the levels above the target and those below the group in the effective parents; the move is stored
in the raw ones. A move that is allowed takes effect if the two agree on the target (`groupMoveAllowed_takesEffect_iff`).
-/

namespace KyNotes.Outline

open Chains

variable {ι : Type} [DecidableEq ι] {groups : List (Grouped ι)} {parents : Parents ι} {id t x : ι} {target : Option ι}
  {p q l : List ι} {n : Nat}

/-! ## Heights -/

theorem foldl_max_le {l : List Nat} {m a : Nat} (ha : a ∈ l) : a ≤ l.foldl max m := by
  induction l generalizing m with
  | nil => cases ha
  | cons b l ih =>
    obtain rfl | ha := List.mem_cons.1 ha
    · have hle : ∀ (l : List Nat) (m : Nat), m ≤ l.foldl max m := by
        intro l
        induction l with
        | nil => exact fun m => Nat.le_refl m
        | cons b l ih => exact fun m => Nat.le_trans (Nat.le_max_left m b) (ih _)
      exact Nat.le_trans (Nat.le_max_right m _) (hle l _)
    · exact ih ha

theorem mem_children : x ∈ children parents id ↔ parentIn parents x = some id := by
  have hmem : x ∈ children parents id ↔ (⟨x, some id⟩ : Sigma fun _ : ι => Option ι) ∈ parents.entries := by
    simp only [children, List.mem_map, List.mem_filter, decide_eq_true_eq]
    constructor
    · rintro ⟨⟨y, b⟩, ⟨h, rfl⟩, rfl⟩
      exact h
    · intro h
      exact ⟨_, ⟨h, rfl⟩, rfl⟩
  rw [hmem, ← AList.mem_lookup_iff, parentIn, Option.mem_def, Option.join_eq_some_iff]

/-- The nested calls of `subtreeHeight` end. -/
theorem subtreeHeightUpTo_succ : ∀ {n : Nat} {id : ι} {p : List ι}, Path (parentIn (groupParents groups)) (some id) p →
    maxGroupDepth < p.length + n →
      subtreeHeightUpTo (groupParents groups) (n + 1) id = subtreeHeightUpTo (groupParents groups) n id
  | 0, id, p, hp, hn => by
    obtain ⟨q, hq, hlen⟩ := exists_path groups id
    rw [hp.unique hq] at hn
    omega
  | n + 1, id, p, hp, hn => by
    rw [subtreeHeightUpTo, subtreeHeightUpTo]
    have hmap : (children (groupParents groups) id).map (subtreeHeightUpTo (groupParents groups) (n + 1)) =
        (children (groupParents groups) id).map (subtreeHeightUpTo (groupParents groups) n) := by
      refine List.map_congr_left fun y hy => subtreeHeightUpTo_succ (.cons ((mem_children.1 hy).symm ▸ hp)) ?_
      rw [List.length_cons]
      omega
    rw [hmap]

/-- `subtreeHeight` is what any greater number of nested calls gives. -/
theorem subtreeHeightUpTo_eq (groups : List (Grouped ι)) (id : ι) (n : Nat) :
    subtreeHeightUpTo (groupParents groups) (maxGroupDepth + 1 + n) id = subtreeHeight id (groupParents groups) := by
  induction n with
  | zero => rfl
  | succ n ih =>
    obtain ⟨p, hp, -⟩ := exists_path groups id
    rw [← Nat.add_assoc, subtreeHeightUpTo_succ hp (by omega), ih]

/-- A group is higher than what is right below it. -/
theorem subtreeHeight_lt {y z : ι} (h : parentIn (groupParents groups) y = some z) :
    subtreeHeight y (groupParents groups) < subtreeHeight z (groupParents groups) := by
  obtain ⟨p, hp, -⟩ := exists_path groups y
  obtain ⟨q, rfl, -⟩ := path_some.1 hp
  have hstable : subtreeHeight y (groupParents groups) = subtreeHeightUpTo (groupParents groups) maxGroupDepth y :=
    subtreeHeightUpTo_succ hp (by rw [List.length_cons]; omega)
  have hmax : subtreeHeightUpTo (groupParents groups) maxGroupDepth y ≤
      ((children (groupParents groups) z).map (subtreeHeightUpTo (groupParents groups) maxGroupDepth)).foldl max 0 :=
    foldl_max_le (List.mem_map_of_mem (mem_children.2 h))
  rw [hstable]
  exact Nat.lt_succ_of_le hmax

/-- A group has as many levels as the chain of any group below it. -/
theorem le_subtreeHeight (hp : Path (parentIn (groupParents groups)) (some x) (l ++ id :: q)) :
    l.length + 1 ≤ subtreeHeight id (groupParents groups) := by
  have hgrow : ∀ {l : List ι} {x : ι}, Path (parentIn (groupParents groups)) (some x) (l ++ id :: q) →
      subtreeHeight x (groupParents groups) + l.length ≤ subtreeHeight id (groupParents groups) := by
    intro l
    induction l with
    | nil =>
      intro x hp
      obtain ⟨r, he, -⟩ := path_some.1 hp
      cases he
      exact Nat.le_refl _
    | cons y l ih =>
      intro x hp
      obtain ⟨r, he, hr⟩ := path_some.1 hp
      cases he
      change Path (parentIn (groupParents groups)) (parentIn (groupParents groups) y) (l ++ id :: q) at hr
      cases hpar : parentIn (groupParents groups) y with
      | none =>
        rw [hpar] at hr
        exact absurd (path_none.1 hr) (by simp)
      | some z =>
        rw [hpar] at hr
        have hlt := subtreeHeight_lt hpar
        have hle := ih hr
        rw [List.length_cons]
        omega
  have hpos : 0 < subtreeHeight x (groupParents groups) := Nat.succ_pos _
  have hle := hgrow hp
  omega

/-! ## The move -/

theorem isSome_moveGroup :
    ((rawParents (moveGroup groups id target)).lookup x).isSome = ((rawParents groups).lookup x).isSome := by
  rw [lookup_moveGroup, Option.isSome_map]

theorem existing_moveGroup (o : Option ι) :
    existing (rawParents (moveGroup groups id target)) o = existing (rawParents groups) o := by
  simp only [existing, isSome_moveGroup]

/-- The raw parents of the other groups stay. -/
theorem up_moveGroup (h : x ≠ id) : up (rawParents (moveGroup groups id target)) x = up (rawParents groups) x := by
  rw [up, existing_moveGroup, up, parentIn, parentIn, lookup_moveGroup]
  cases (rawParents groups).lookup x with
  | none => rfl
  | some group => simp [h]

theorem up_moveGroup_self (h : ((rawParents groups).lookup id).isSome) :
    up (rawParents (moveGroup groups id target)) id = existing (rawParents groups) target := by
  obtain ⟨group, hg⟩ := Option.isSome_iff_exists.1 h
  rw [up, existing_moveGroup, parentIn, lookup_moveGroup, hg]
  simp

theorem path_moveGroup {o : Option ι} (h : id ∉ p) :
    Path (up (rawParents (moveGroup groups id target))) o p ↔ Path (up (rawParents groups)) o p :=
  have hne : ∀ x ∈ p, x ≠ id := fun _ hx he => h (he ▸ hx)
  ⟨fun hp => hp.congr fun x hx => (up_moveGroup (hne x hx)).symm, fun hp => hp.congr fun x hx => up_moveGroup (hne x hx)⟩

/-- A group is shown below its raw parent if and only if its chain ends within the depth. -/
theorem settled_iff_parentIn :
    Settled (rawParents groups) id ↔ parentIn (groupParents groups) id = up (rawParents groups) id := by
  refine ⟨parentIn_of_settled, fun h => ?_⟩
  by_contra hnot
  rw [parentIn_of_not_settled hnot] at h
  exact hnot ⟨[id], .root h.symm, (by decide : 1 ≤ maxGroupDepth)⟩

/-- `x` is `id` or a group below it. -/
def Below (parents : Parents ι) (id x : ι) : Prop := ∃ p, Path (parentIn parents) (some x) p ∧ id ∈ p

/-- The raw parent of the target is its effective one, and both groups are there. -/
def Shown (groups : List (Grouped ι)) (id t : ι) : Prop :=
  ((rawParents groups).lookup id).isSome ∧ ((rawParents groups).lookup t).isSome ∧
    parentIn (groupParents groups) t = up (rawParents groups) t

/-- `id` has the target as its parent, the groups below it keep theirs, and every chain ends within the depth. -/
def TakesEffect (groups : List (Grouped ι)) (id : ι) (target : Option ι) : Prop :=
  let parents := groupParents groups
  let moved := groupParents (moveGroup groups id target)
  parentIn moved id = target ∧ (∀ x, x ≠ id → Below parents id x → moved.lookup x = parents.lookup x) ∧
    ∀ x, ∃ p, Path (parentIn moved) (some x) p ∧ p.length ≤ maxGroupDepth

theorem lookup_eq_of_parentIn {parents' : Parents ι} (hs : (parents'.lookup x).isSome = (parents.lookup x).isSome)
    (h : parentIn parents' x = parentIn parents x) : parents'.lookup x = parents.lookup x := by
  rw [parentIn, parentIn] at h
  cases h' : parents'.lookup x with
  | none =>
    rw [h'] at hs
    cases hp : parents.lookup x with
    | none => rfl
    | some a =>
      rw [hp] at hs
      cases hs
  | some a =>
    rw [h'] at hs h
    obtain ⟨b, hb⟩ := Option.isSome_iff_exists.1 hs.symm
    rw [hb] at h ⊢
    exact congrArg some h

/-- A group below `id` keeps its parent if the new chain of `id` leaves room for it. -/
theorem lookup_below (hp : Path (parentIn (groupParents groups)) (some x) (l ++ id :: p)) (hx : x ≠ id)
    (hq : Path (up (rawParents (moveGroup groups id target))) (some id) (id :: q))
    (hlen : l.length + (id :: q).length ≤ maxGroupDepth) :
    (groupParents (moveGroup groups id target)).lookup x = (groupParents groups).lookup x := by
  have hsettled : Settled (rawParents groups) x := by
    by_contra hnot
    have hone := hp.unique (.root (parentIn_of_not_settled hnot))
    cases l with
    | nil => exact hx (List.cons.inj hone).1.symm
    | cons y l => exact absurd (List.cons.inj hone).2 (by simp)
  have hraw : Path (up (rawParents groups)) (some x) (l ++ id :: p) := by
    obtain ⟨r, hr, hle⟩ := hsettled
    rwa [hp.unique (path_groupParents hr hle)]
  have hne : ∀ y ∈ l, y ≠ id := by
    rintro y hy rfl
    exact (List.nodup_append.1 hp.nodup).2.2 y hy y List.mem_cons_self rfl
  have hmoved : Path (up (rawParents (moveGroup groups id target))) (some x) (l ++ id :: q) :=
    hraw.graft (fun y hy => up_moveGroup (hne y hy)) hq
  have hkept : Settled (rawParents (moveGroup groups id target)) x := ⟨_, hmoved, by rwa [List.length_append]⟩
  refine lookup_eq_of_parentIn (by rw [isSome_groupParents, isSome_groupParents, isSome_moveGroup]) ?_
  rw [parentIn_of_settled hkept, up_moveGroup hx, parentIn_of_settled hsettled]

/-- A move to the root takes effect. -/
theorem takesEffect_none (groups : List (Grouped ι)) (id : ι) : TakesEffect groups id none := by
  have hup : up (rawParents (moveGroup groups id none)) id = none := by
    cases h : (rawParents groups).lookup id with
    | none =>
      refine up_of_not_mem ?_
      rw [lookup_moveGroup, h]
      rfl
    | some group => exact up_moveGroup_self (h ▸ rfl)
  have hq : Path (up (rawParents (moveGroup groups id none))) (some id) [id] := .root hup
  refine ⟨?_, ?_, exists_path _⟩
  · rw [parentIn_of_settled ⟨_, hq, (by decide : 1 ≤ maxGroupDepth)⟩, hup]
  · rintro x hx ⟨p, hp, hid⟩
    obtain ⟨l, q, rfl, -⟩ := hp.tail hid
    obtain ⟨r, hr, hlen⟩ := exists_path groups x
    rw [← hp.unique hr, List.length_append, List.length_cons] at hlen
    exact lookup_below hp hx hq (by rw [List.length_singleton]; omega)

/-- A move that is allowed and whose target is shown below its raw parent takes effect. -/
theorem takesEffect_some (h : groupMoveAllowed id (some t) (groupParents groups)) (hs : Shown groups id t) :
    TakesEffect groups id (some t) := by
  obtain ⟨hid, ht, hsame⟩ := hs
  obtain ⟨q, hq, hlen⟩ := settled_iff_parentIn.2 hsame
  have hpath := groupPath_eq (path_groupParents hq hlen) (isSome_groupParents.trans ht)
  simp only [groupMoveAllowed, hpath, List.mem_reverse, List.length_reverse, decide_eq_true_eq] at h
  obtain ⟨hnot, hroom⟩ := h
  have hup : up (rawParents (moveGroup groups id (some t))) id = some t :=
    (up_moveGroup_self hid).trans (existing_eq_some.2 ⟨rfl, ht⟩)
  have hmoved : Path (up (rawParents (moveGroup groups id (some t)))) (some id) (id :: q) :=
    .step hup ((path_moveGroup hnot).2 hq)
  have hpos : 1 ≤ subtreeHeight id (groupParents groups) := Nat.succ_pos _
  refine ⟨?_, ?_, exists_path _⟩
  · rw [parentIn_of_settled ⟨_, hmoved, by rw [List.length_cons]; omega⟩, hup]
  · rintro x hx ⟨p, hp, hid⟩
    obtain ⟨l, r, rfl, -⟩ := hp.tail hid
    have hheight := le_subtreeHeight hp
    exact lookup_below hp hx hmoved (by rw [List.length_cons]; omega)

/-- A move that takes effect has a target that is shown below its raw parent. -/
theorem TakesEffect.shown (h : TakesEffect groups id (some t)) : Shown groups id t := by
  obtain ⟨hup, p, hp, hlen⟩ := parentIn_groupParents.1 h.1
  have hid : ((rawParents groups).lookup id).isSome := by
    cases hg : (rawParents groups).lookup id with
    | some group => rfl
    | none =>
      rw [up_of_not_mem (by rw [lookup_moveGroup, hg]; rfl)] at hup
      cases hup
  rw [up_moveGroup_self hid] at hup
  obtain ⟨q, rfl, hq⟩ := path_some.1 hp
  rw [up_moveGroup_self hid, hup] at hq
  have hraw := (path_moveGroup hp.not_mem).1 hq
  exact ⟨hid, (existing_eq_some.1 hup).2, settled_iff_parentIn.1 ⟨q, hraw, Nat.le_of_succ_le hlen⟩⟩

/-- A move that is allowed takes effect if and only if it is to the root, or the target's raw parent is its effective one and
both groups are in the list. -/
theorem groupMoveAllowed_takesEffect_iff (groups : List (Grouped ι)) (id : ι) (target : Option ι)
    (h : groupMoveAllowed id target (groupParents groups)) :
    TakesEffect groups id target ↔ target = none ∨ ∃ t, target = some t ∧ Shown groups id t := by
  cases target with
  | none => exact iff_of_true (takesEffect_none groups id) (.inl rfl)
  | some t =>
    constructor
    · exact fun he => .inr ⟨t, rfl, he.shown⟩
    · rintro (he | ⟨_, he, hs⟩)
      · cases he
      · cases he
        exact takesEffect_some h hs

/-- Two groups below the root; the second moves into the first. -/
theorem groupMoveAllowed_takesEffect_two :
    groupMoveAllowed 1 (some 0) (groupParents [⟨0, none⟩, ⟨1, none⟩]) ∧
      TakesEffect [(⟨0, none⟩ : Grouped Nat), ⟨1, none⟩] 1 (some 0) :=
  have h : groupMoveAllowed 1 (some 0) (groupParents [⟨0, none⟩, ⟨1, none⟩]) := by decide
  have hs : Shown [(⟨0, none⟩ : Grouped Nat), ⟨1, none⟩] 1 0 := by unfold Shown; decide
  ⟨h, (groupMoveAllowed_takesEffect_iff _ _ _ h).2 (.inr ⟨0, rfl, hs⟩)⟩

/-- Two groups that are each below the other are shown at the root, and a third may move into one of them. It stays at the
root. -/
theorem groupMoveAllowed_into_cycle :
    ¬∀ (groups : List (Grouped Nat)) (id : Nat) (target : Option Nat),
      groupMoveAllowed id target (groupParents groups) → TakesEffect groups id target := by
  intro h
  have := (h [⟨0, some 1⟩, ⟨1, some 0⟩, ⟨2, none⟩] 2 (some 0) (by decide)).1
  exact absurd this (by decide)

end KyNotes.Outline
