import KyNotes.Outline.Reorder

/-!
# Conflict copies (`conflictCopy` of `web/src/pages.ts`)

The copy is placed by `reorder` under an ID that no page has, and gets its own when it is stored; where it sorts does not
depend on either (`reorder_rename`). It comes after the block of the original, whose pages all have its section, so that
its level is the original's and the page behind it is indented as before (`levelsFrom_insert`).
-/

namespace KyNotes.Outline

open Content

/-- The `PagePayload` of a copy. -/
structure Copy where
  title : String
  body : String
  sectionId : Option String
  order : Option String
  level : Option Int
  legacy : Legacy

/-- The page of a copy, once it has an ID. -/
def Copy.placed (c : Copy) (id : String) : Placed := ⟨id, c.sectionId, c.order, c.level⟩

/-- `copyID`. -/
def copyID : String := ""

/-- `conflictCopy`: the copy, and the renumbered neighbours. -/
def conflictCopy (list : List Placed) (original : Placed) (title body : String) : Except Thrown (Copy × List Update) := do
  let levels := displayLevels list
  let index := list.findIdx? fun x => x.id = original.id
  let updates ← reorder list copyID (index.elim list.length fun i => blockEnd levels i)
  pure ({
    title := (if title = "" then "Untitled page" else title) ++ " (conflicting copy)"
    body := body
    sectionId := original.sectionId
    order := (updates.find? fun u => u.id = copyID).map Update.order
    level := index.bind fun i => levels[i]?
    legacy := ∅ }, updates.filter fun u => u.id ≠ copyID)

/-! ## Levels -/

section Levels

variable {prev : Option (Option String × Int)} {xs ys : List Placed} {sectionId : Option String} {level : Int}

/-- The section and the level of the last page. -/
def stateAfter : Option (Option String × Int) → List Placed → Option (Option String × Int)
  | prev, [] => prev
  | prev, x :: xs => stateAfter (some (x.sectionId, levelAfter prev x)) xs

theorem levelsFrom_append (prev : Option (Option String × Int)) (xs ys : List Placed) :
    levelsFrom prev (xs ++ ys) = levelsFrom prev xs ++ levelsFrom (stateAfter prev xs) ys := by
  induction xs generalizing prev with
  | nil => rfl
  | cons x xs ih =>
    rw [List.cons_append, levelsFrom, levelsFrom, ih, List.cons_append]
    rfl

theorem stateAfter_append (prev : Option (Option String × Int)) (xs ys : List Placed) :
    stateAfter prev (xs ++ ys) = stateAfter (stateAfter prev xs) ys := by
  induction xs generalizing prev with
  | nil => rfl
  | cons x xs ih => exact ih _

theorem length_levelsFrom : ∀ {prev : Option (Option String × Int)} {xs : List Placed},
    (levelsFrom prev xs).length = xs.length
  | _, [] => rfl
  | _, _ :: _ => congrArg Nat.succ length_levelsFrom

/-- The fields that levels depend on. -/
def outline (l : List Placed) : List (Option String × Option Int) := l.map fun x => (x.sectionId, x.level)

theorem levelsFrom_congr : ∀ {prev : Option (Option String × Int)} {xs ys : List Placed}, outline xs = outline ys →
    levelsFrom prev xs = levelsFrom prev ys
  | _, [], [], _ => rfl
  | _, [], _ :: _, h => by cases h
  | _, _ :: _, [], h => by cases h
  | prev, x :: xs, y :: ys, h => by
    obtain ⟨hxy, h⟩ := List.cons.inj h
    obtain ⟨hs, hl⟩ := Prod.mk.inj hxy
    have hlevel : levelAfter prev x = levelAfter prev y := by simp only [levelAfter, hs, hl]
    rw [levelsFrom, levelsFrom, hlevel, hs]
    exact congrArg _ (levelsFrom_congr h)

theorem clampLevel_range (level : Int) : 0 ≤ clampLevel level ∧ clampLevel level ≤ 2 := by
  unfold clampLevel maxLevel
  omega

/-- A level is one of the three. -/
theorem levelAfter_range {x : Placed} (h : ∀ p ∈ prev, 0 ≤ p.2) : 0 ≤ levelAfter prev x ∧ levelAfter prev x ≤ 2 := by
  unfold levelAfter
  split
  · rename_i sectionId level
    have h0 : 0 ≤ level := h (sectionId, level) rfl
    have hc := clampLevel_range (x.level.getD 0)
    split <;> omega
  · decide

theorem stateAfter_nonneg (h : ∀ p ∈ prev, 0 ≤ p.2) : ∀ p ∈ stateAfter prev xs, 0 ≤ p.2 := by
  induction xs generalizing prev with
  | nil => exact h
  | cons x xs ih =>
    refine ih fun p hp => ?_
    cases hp
    exact (levelAfter_range h).1

/-- Pages deeper than a level of at least zero are in one section. -/
theorem stateAfter_deeper {head : Int} (h0 : 0 ≤ head) (hl : head ≤ level)
    (hd : ∀ l ∈ levelsFrom (some (sectionId, level)) xs, head < l) :
    ∃ level', stateAfter (some (sectionId, level)) xs = some (sectionId, level') ∧ head ≤ level' := by
  induction xs generalizing level with
  | nil => exact ⟨level, rfl, hl⟩
  | cons x xs ih =>
    have hx : head < levelAfter (some (sectionId, level)) x := hd _ List.mem_cons_self
    have hs : x.sectionId = sectionId := by
      by_contra hne
      rw [levelAfter, if_neg hne] at hx
      omega
    have htail := ih (le_of_lt hx) fun l hl => by
      refine hd l (List.mem_cons_of_mem _ ?_)
      rw [hs]
      exact hl
    rw [stateAfter, hs]
    exact htail

/-- A page of the level `head` after pages of its section that are no higher: it has that level, and what comes after
pages no higher than it has the levels it had. -/
theorem levelsFrom_insert {head : Int} {c : Placed} (h0 : 0 ≤ head) (h2 : head ≤ 2) (hl : head ≤ level)
    (hs : c.sectionId = sectionId) (hc : c.level = some head)
    (hy : ∀ l ∈ (levelsFrom (some (sectionId, level)) ys).head?, l ≤ head) :
    levelsFrom (some (sectionId, level)) (c :: ys) = head :: levelsFrom (some (sectionId, level)) ys := by
  have hcl : levelAfter (some (sectionId, level)) c = head := by
    rw [levelAfter, if_pos hs, hc, Option.getD_some, clampLevel, maxLevel]
    omega
  rw [levelsFrom, hcl, hs]
  cases ys with
  | nil => rfl
  | cons y ys =>
    have hle : levelAfter (some (sectionId, level)) y ≤ head := hy _ rfl
    have heq : levelAfter (some (sectionId, head)) y = levelAfter (some (sectionId, level)) y := by
      unfold levelAfter at hle ⊢
      dsimp only at hle ⊢
      split at hle
      · rename_i h
        rw [if_pos h, if_pos h]
        omega
      · rename_i h
        rw [if_neg h, if_neg h]
    rw [levelsFrom, levelsFrom, heq]

/-! ## Blocks -/

variable {l : List Placed} {i : Nat} {original : Placed}

/-- The pages before an index, the one there and those after it. -/
theorem displayLevels_split (hi : l[i]? = some original) : l = l.take i ++ original :: l.drop (i + 1) ∧
    (displayLevels l)[i]? = some (levelAfter (stateAfter none (l.take i)) original) ∧
    (displayLevels l).drop (i + 1) =
      levelsFrom (some (original.sectionId, levelAfter (stateAfter none (l.take i)) original)) (l.drop (i + 1)) := by
  obtain ⟨hlt, rfl⟩ := List.getElem?_eq_some_iff.1 hi
  have hl : l = l.take i ++ l[i] :: l.drop (i + 1) := by rw [← List.drop_eq_getElem_cons, List.take_append_drop]
  have hlen : (levelsFrom none (l.take i)).length = i := by rw [length_levelsFrom, List.length_take]; omega
  have hlevels : displayLevels l = levelsFrom none (l.take i) ++
      levelAfter (stateAfter none (l.take i)) l[i] ::
        levelsFrom (some (l[i].sectionId, levelAfter (stateAfter none (l.take i)) l[i])) (l.drop (i + 1)) := by
    conv_lhs => rw [displayLevels, hl, levelsFrom_append]
    rfl
  refine ⟨hl, ?_, ?_⟩
  · rw [hlevels, List.getElem?_append_right (by omega), hlen, Nat.sub_self]
    rfl
  · rw [hlevels, List.drop_append, hlen, List.drop_of_length_le (by omega), List.nil_append,
      Nat.add_sub_cancel_left]
    rfl

/-- The pages deeper than a level, at the front of a list. -/
def deeper (head : Int) (prev : Option (Option String × Int)) (l : List Placed) : Nat :=
  ((levelsFrom prev l).takeWhile fun level => head < level).length

theorem blockEnd_eq (hi : l[i]? = some original) : blockEnd (displayLevels l) i =
    i + 1 + deeper (levelAfter (stateAfter none (l.take i)) original)
      (some (original.sectionId, levelAfter (stateAfter none (l.take i)) original)) (l.drop (i + 1)) := by
  obtain ⟨-, hlevel, hdrop⟩ := displayLevels_split hi
  rw [blockEnd, deeper, hlevel, hdrop]
  simp only [Option.any_some]

theorem deeper_le (head : Int) (prev : Option (Option String × Int)) (l : List Placed) : deeper head prev l ≤ l.length := by
  have hlen : (levelsFrom prev l).length = l.length := length_levelsFrom
  exact hlen ▸ (List.takeWhile_sublist _).length_le

theorem levelsFrom_take (prev : Option (Option String × Int)) (l : List Placed) (n : Nat) :
    levelsFrom prev (l.take n) = (levelsFrom prev l).take n ∧
      levelsFrom (stateAfter prev (l.take n)) (l.drop n) = (levelsFrom prev l).drop n := by
  have h := levelsFrom_append prev (l.take n) (l.drop n)
  rw [List.take_append_drop] at h
  have hlen : (levelsFrom prev (l.take n)).length = min n l.length := by rw [length_levelsFrom, List.length_take]
  rw [h]
  by_cases hn : n ≤ l.length
  · rw [List.take_left' (by omega), List.drop_left' (by omega)]
    exact ⟨rfl, rfl⟩
  · have hd : l.drop n = [] := List.drop_of_length_le (by omega)
    rw [hd]
    simp only [levelsFrom, List.append_nil]
    exact ⟨(List.take_of_length_le (by omega)).symm, (List.drop_of_length_le (by omega)).symm⟩

/-- The block of a page: its own pages are deeper than it, what comes next is not. -/
theorem deeper_spec (head : Int) (prev : Option (Option String × Int)) (l : List Placed) :
    (∀ level ∈ levelsFrom prev (l.take (deeper head prev l)), head < level) ∧
      ∀ level ∈ (levelsFrom (stateAfter prev (l.take (deeper head prev l))) (l.drop (deeper head prev l))).head?,
        level ≤ head := by
  obtain ⟨htake, hdrop⟩ := levelsFrom_take prev l (deeper head prev l)
  have hsplit := List.takeWhile_append_dropWhile (p := fun level => decide (head < level)) (l := levelsFrom prev l)
  rw [htake, hdrop]
  constructor
  · intro level hlevel
    rw [deeper, ← List.prefix_iff_eq_take.1 (List.takeWhile_prefix _)] at hlevel
    have hall := List.all_takeWhile (p := fun level => decide (head < level)) (l := levelsFrom prev l)
    exact of_decide_eq_true (List.all_eq_true.1 hall level hlevel)
  · intro level hlevel
    have hd : (levelsFrom prev l).drop (deeper head prev l) =
        (levelsFrom prev l).dropWhile fun level => decide (head < level) := by
      conv_lhs => rw [← hsplit]
      exact List.drop_left
    rw [hd] at hlevel
    have hnot := List.head?_dropWhile_not (fun level => decide (head < level)) (levelsFrom prev l)
    rw [hlevel] at hnot
    exact not_lt.1 (of_decide_eq_false hnot)

/-- A page put behind the block of another, with its section and its display level: it has that level, and every other
page keeps its own. -/
theorem displayLevels_insert {c : Placed} (hi : l[i]? = some original) (hs : c.sectionId = original.sectionId)
    (hc : c.level = (displayLevels l)[i]?) :
    displayLevels (l.take (blockEnd (displayLevels l) i) ++ c :: l.drop (blockEnd (displayLevels l) i)) =
      (displayLevels l).take (blockEnd (displayLevels l) i) ++
        c.level.toList ++ (displayLevels l).drop (blockEnd (displayLevels l) i) := by
  obtain ⟨hl, hlevel, hdrop⟩ := displayLevels_split hi
  have hrange : 0 ≤ levelAfter (stateAfter none (l.take i)) original ∧
      levelAfter (stateAfter none (l.take i)) original ≤ 2 :=
    levelAfter_range (stateAfter_nonneg fun p hp => by cases hp)
  have hend := blockEnd_eq hi
  rw [hlevel] at hc
  generalize hhead : levelAfter (stateAfter none (l.take i)) original = head at *
  have hspec := deeper_spec head (some (original.sectionId, head)) (l.drop (i + 1))
  generalize hn : deeper head (some (original.sectionId, head)) (l.drop (i + 1)) = n at *
  have htake : l.take (i + 1 + n) = l.take i ++ original :: (l.drop (i + 1)).take n := by
    have hlt := (List.getElem?_eq_some_iff.1 hi).1
    rw [List.take_add, List.take_add_one, hi]
    simp
  have hrest : l.drop (i + 1 + n) = (l.drop (i + 1)).drop n := (List.drop_drop ..).symm
  obtain ⟨level, hstate, hle⟩ := stateAfter_deeper hrange.1 (le_refl head) hspec.1
  have hend' : stateAfter none (l.take (i + 1 + n)) = some (original.sectionId, level) := by
    rw [htake, stateAfter_append, stateAfter, hhead, hstate]
  obtain ⟨h₁, h₂⟩ := levelsFrom_take none l (i + 1 + n)
  rw [hend', hrest] at h₂
  rw [hstate] at hspec
  rw [hend, displayLevels, levelsFrom_append, hend', hrest, levelsFrom_insert hrange.1 hrange.2 hle hs hc hspec.2, h₁, h₂, hc]
  simp [displayLevels]

end Levels

/-! ## The ID of the copy -/

section Rename

variable {list : List Placed} {id : String} {us : List Update} {x : Placed}

/-- The updates for an item that got another ID. -/
def rename (id : String) (u : Update) : Update := if u.id = copyID then { u with id := id } else u

theorem rename_apply (id : String) (u : Update) : (rename id u).apply x = u.apply x := by
  unfold rename
  split <;> rfl

theorem assign_rename {next low : Option String} (ids : List (String × Option Int)) :
    assign next low (ids.map fun x => (if x.1 = copyID then id else x.1, x.2)) =
      (assign next low ids).map (List.map (rename id)) := by
  unfold assign
  rw [List.length_map]
  cases keysFrom next low ids.length with
  | error e => rfl
  | ok keys =>
    refine congrArg Except.ok ?_
    dsimp only
    rw [List.zipWith_map_left, List.map_zipWith]
    congr 1
    funext x key
    unfold rename
    dsimp only
    split <;> rfl

theorem unleveled_rename {l : List Placed} (h : ∀ x ∈ l, x.id ≠ copyID) :
    (unleveled l).map (fun x => (if x.1 = copyID then id else x.1, x.2)) = unleveled l := by
  rw [unleveled, List.map_map]
  exact List.map_congr_left fun x hx => by simp [h x hx]

/-- Where an item goes does not depend on its ID. -/
theorem reorder_rename (hcopy : ∀ x ∈ list, x.id ≠ copyID) (hid : ∀ x ∈ list, x.id ≠ id) (index : Int) :
    reorder list id index = (reorder list copyID index).map (List.map (rename id)) := by
  have h₁ : list.filter (fun x => x.id ≠ id) = list := List.filter_eq_self.2 fun x hx => decide_eq_true (hid x hx)
  have h₂ : list.filter (fun x => x.id ≠ copyID) = list := List.filter_eq_self.2 fun x hx => decide_eq_true (hcopy x hx)
  have hren : ∀ place, assign none none (unleveled (list.take place) ++ (id, none) :: unleveled (list.drop place)) =
      (assign none none (unleveled (list.take place) ++ (copyID, none) :: unleveled (list.drop place))).map
        (List.map (rename id)) := by
    intro place
    rw [← assign_rename, List.map_append, List.map_cons, unleveled_rename fun x hx => hcopy x (List.mem_of_mem_take hx),
      unleveled_rename fun x hx => hcopy x (List.mem_of_mem_drop hx)]
    rfl
  unfold reorder
  rw [h₁, h₂]
  dsimp only
  split
  · split
    · rfl
    · exact hren _
  · exact hren _

theorem mem_zipWith_update {u : Update} : ∀ {ids : List (String × Option Int)} {keys : List String},
    u ∈ List.zipWith (fun x key => (⟨x.1, key, x.2⟩ : Update)) ids keys → (u.id, u.level) ∈ ids
  | [], _, h => by cases h
  | _ :: _, [], h => by cases h
  | x :: ids, key :: keys, h => by
    obtain rfl | h := List.mem_cons.1 h
    · exact List.mem_cons_self
    · exact List.mem_cons_of_mem _ (mem_zipWith_update h)

theorem assign_mem {next low : Option String} {ids : List (String × Option Int)} {u : Update}
    (h : assign next low ids = .ok us) (hu : u ∈ us) : (u.id, u.level) ∈ ids := by
  unfold assign at h
  cases hk : keysFrom next low ids.length with
  | error e =>
    rw [hk] at h
    cases h
  | ok keys =>
    rw [hk] at h
    cases h
    exact mem_zipWith_update hu

/-- `reorder` updates the moved item and items of the list, and no level. -/
theorem reorder_mem {index : Int} {u : Update} (h : reorder list id index = .ok us) (hu : u ∈ us) :
    u.level = none ∧ (u.id = id ∨ ∃ x ∈ list, x.id = u.id) := by
  have hren : ∀ {place}, assign none none (unleveled ((list.filter fun x => x.id ≠ id).take place) ++
      (id, none) :: unleveled ((list.filter fun x => x.id ≠ id).drop place)) = .ok us →
      u.level = none ∧ (u.id = id ∨ ∃ x ∈ list, x.id = u.id) := by
    intro place h
    have hmem : ∀ {l : List Placed}, (u.id, u.level) ∈ unleveled l → (∀ x ∈ l, x ∈ list) →
        u.level = none ∧ (u.id = id ∨ ∃ x ∈ list, x.id = u.id) := by
      intro l hl hsub
      obtain ⟨x, hx, he⟩ := List.mem_map.1 hl
      obtain ⟨hid, hlevel⟩ := Prod.mk.inj he
      exact ⟨hlevel.symm, .inr ⟨x, hsub x hx, hid⟩⟩
    obtain hu | hu := List.mem_append.1 (assign_mem h hu)
    · exact hmem hu fun x hx => List.mem_of_mem_filter (List.mem_of_mem_take hx)
    · obtain hu | hu := List.mem_cons.1 hu
      · obtain ⟨hid, hlevel⟩ := Prod.mk.inj hu
        exact ⟨hlevel, .inl hid⟩
      · exact hmem hu fun x hx => List.mem_of_mem_filter (List.mem_of_mem_drop hx)
  unfold reorder at h
  dsimp only at h
  split at h
  · split at h
    · cases h
      rw [List.mem_singleton.1 hu]
      exact ⟨rfl, .inl rfl⟩
    · exact hren h
  · exact hren h

/-- The items of the list take the updates of their own. -/
theorem updated_rename (hcopy : x.id ≠ copyID) (hid : x.id ≠ id) :
    updated (us.map (rename id)) x = updated (us.filter fun u => u.id ≠ copyID) x := by
  have hp : (fun u => decide ((rename id u).id = x.id)) = fun u : Update => decide (u.id = x.id) := by
    funext u
    unfold rename
    split
    · rename_i h
      simp [h, hid.symm, hcopy.symm]
    · rfl
  have hq : ∀ u : Update, decide ((decide (u.id ≠ copyID) = true) ∧ decide (u.id = x.id) = true) = decide (u.id = x.id) := by
    intro u
    by_cases h : u.id = x.id
    · simp [h, hcopy]
    · simp [h]
  have hfind : (us.map (rename id)).find? (fun u => u.id = x.id) =
      ((us.filter fun u => u.id ≠ copyID).find? fun u => u.id = x.id).map (rename id) := by
    rw [List.find?_map, List.find?_filter]
    simp only [hq]
    exact congrArg (fun p => (us.find? p).map (rename id)) hp
  unfold updated
  rw [hfind]
  cases (us.filter fun u => u.id ≠ copyID).find? fun u => u.id = x.id with
  | none => rfl
  | some u => exact rename_apply id u

end Rename

/-! ## The copy in its place -/

section Place

variable {list : List Placed} {original : Placed} {i : Nat}

theorem blockEnd_le (hi : list[i]? = some original) : blockEnd (displayLevels list) i ≤ list.length := by
  have hlt := (List.getElem?_eq_some_iff.1 hi).1
  have hle := deeper_le (levelAfter (stateAfter none (list.take i)) original)
    (some (original.sectionId, levelAfter (stateAfter none (list.take i)) original)) (list.drop (i + 1))
  rw [List.length_drop] at hle
  rw [blockEnd_eq hi]
  omega

theorem findIdx_of_getElem (hn : (list.map Placed.id).Nodup) (hi : list[i]? = some original) :
    list.findIdx? (fun x => x.id = original.id) = some i := by
  obtain ⟨hlt, rfl⟩ := List.getElem?_eq_some_iff.1 hi
  refine List.findIdx?_eq_some_iff_getElem.2 ⟨hlt, by simp, fun j hj h => ?_⟩
  have hj' : j < list.length := by omega
  have hid : list[j].id = list[i].id := of_decide_eq_true h
  exact List.pairwise_iff_getElem.1 (List.pairwise_map.1 hn) j i hj' hlt hj hid

theorem find_congr {α : Type} {p q : α → Bool} {l : List α} (h : ∀ x ∈ l, p x = q x) : l.find? p = l.find? q := by
  induction l with
  | nil => rfl
  | cons x l ih =>
    rw [List.find?_cons, List.find?_cons, h x List.mem_cons_self, ih fun y hy => h y (List.mem_cons_of_mem _ hy)]

/-- The page of the copy is what `reorder` makes of any page with its fields. -/
theorem updated_copy {us : List Update} {index : Int} {id : String} {c : Copy}
    (hus : reorder list copyID index = .ok us) (hid : ∀ x ∈ list, x.id ≠ id)
    (hc : c.order = (us.find? fun u => u.id = copyID).map Update.order) :
    updated (us.map (rename id)) (c.placed id) = c.placed id := by
  have hp : ∀ u ∈ us, ((rename id u).id = id ↔ u.id = copyID) := by
    intro u hu
    unfold rename
    split
    · rename_i h
      exact iff_of_true rfl h
    · rename_i h
      refine iff_of_false (fun he => ?_) h
      obtain ⟨-, hcopy | ⟨x, hx, hxu⟩⟩ := reorder_mem hus hu
      · exact h hcopy
      · exact hid x hx (hxu.trans he)
  have hfind : (us.map (rename id)).find? (fun u => u.id = (c.placed id).id) =
      (us.find? fun u => u.id = copyID).map (rename id) := by
    rw [List.find?_map]
    refine congrArg (Option.map (rename id)) (find_congr fun u hu => ?_)
    exact decide_eq_decide.2 (hp u hu)
  unfold updated
  rw [hfind]
  cases hu : us.find? fun u => u.id = copyID with
  | none => rfl
  | some u =>
    rw [hu] at hc
    have hlevel := (reorder_mem hus (List.mem_of_find?_eq_some hu)).1
    rw [Option.map_some]
    dsimp only
    rw [rename_apply, Update.apply, hlevel, Copy.placed, hc]
    rfl

theorem conflictCopy_ok {us : List Update} (hn : (list.map Placed.id).Nodup) (hi : list[i]? = some original)
    (title body : String) (h : reorder list copyID (blockEnd (displayLevels list) i) = .ok us) :
    ∃ c, conflictCopy list original title body = .ok (c, us.filter fun u => u.id ≠ copyID) ∧
      c.order = (us.find? fun u => u.id = copyID).map Update.order ∧ c.sectionId = original.sectionId ∧
      c.level = (displayLevels list)[i]? := by
  refine ⟨⟨(if title = "" then "Untitled page" else title) ++ " (conflicting copy)", body, original.sectionId,
    (us.find? fun u => u.id = copyID).map Update.order, (displayLevels list)[i]?, ∅⟩, ?_, rfl, rfl, rfl⟩
  rw [conflictCopy, findIdx_of_getElem hn hi]
  dsimp only [Option.elim_some]
  rw [h]
  rfl

theorem filter_fresh {id : String} (h : ∀ x ∈ list, x.id ≠ id) : list.filter (fun x => x.id ≠ id) = list :=
  List.filter_eq_self.2 fun x hx => decide_eq_true (h x hx)

/-- `reorder` places a page that is not in the list, unless renumbering reaches the limit. -/
theorem reorder_fresh (ha : Ascending list) (hn : (list.map Placed.id).Nodup) (hv : Valid list)
    (hi : list[i]? = some original) {m : Placed} (hm : ∀ x ∈ list, x.id ≠ m.id) :
    (∃ us, reorder list m.id (blockEnd (displayLevels list) i) = .ok us ∧
      Ascending ((inserted list [m] (blockEnd (displayLevels list) i)).map (updated us))) ∨
    RenumberingFails (list.length + 1) := by
  have hnm : ((m :: list).map Placed.id).Nodup :=
    List.nodup_cons.2 ⟨fun h => by obtain ⟨x, hx, he⟩ := List.mem_map.1 h; exact hm x hx he, hn⟩
  have hfix := filter_fresh hm
  have h := reorder_ascending list m (by rwa [hfix]) (by rwa [hfix]) (by rwa [hfix]) (blockEnd (displayLevels list) i)
  have hclamp : clampIndex (blockEnd (displayLevels list) i) list.length = blockEnd (displayLevels list) i := by
    have hend := blockEnd_le hi
    unfold clampIndex
    omega
  rwa [hfix, hclamp] at h

/-- The updates of `reorder` change no level. -/
theorem updated_level {us : List Update} {index : Int} {id : String} (hus : reorder list id index = .ok us)
    {moves : List Update} (hmoves : ∀ u ∈ moves, u ∈ us) (x : Placed) : (updated moves x).level = x.level := by
  unfold updated
  split
  · next u hu =>
    rw [Update.apply, (reorder_mem hus (hmoves u (List.mem_of_find?_eq_some hu))).1]
    rfl
  · rfl

theorem outline_updated {moves : List Update} (hlevel : ∀ x, (updated moves x).level = x.level) (l : List Placed) :
    outline (l.map (updated moves)) = outline l := by
  rw [outline, List.map_map]
  exact List.map_congr_left fun x _ => by simp [hlevel x]

/-- Once the page of `conflictCopy` is added, it sorts directly behind the block of the original, at the display level of
the original, and every other page keeps its place among the others and its display level; unless renumbering the pages
reaches the limit. -/
theorem conflictCopy_disturbs_nothing (list : List Placed) (hs : list.Pairwise fun a b => compareOrdered a b ≤ 0)
    (hn : (list.map Placed.id).Nodup) (hv : Valid list) (hcopy : ∀ x ∈ list, x.id ≠ copyID) (title body : String)
    (i : Nat) (original : Placed) (hi : list[i]? = some original) :
    (∃ c moves, conflictCopy list original title body = .ok (c, moves) ∧ ∀ id, (∀ x ∈ list, x.id ≠ id) →
      let levels := displayLevels list
      let shown := sorted (c.placed id :: list.map (updated moves))
      shown = (list.take (blockEnd levels i)).map (updated moves) ++
        c.placed id :: (list.drop (blockEnd levels i)).map (updated moves) ∧
      c.level = levels[i]? ∧
      displayLevels shown = levels.take (blockEnd levels i) ++ c.level.toList ++ levels.drop (blockEnd levels i)) ∨
    RenumberingFails (list.length + 1) := by
  have ha := ascending_of_sorted hs hn
  by_cases hfail : RenumberingFails (list.length + 1)
  · exact .inr hfail
  obtain ⟨us, hus, -⟩ := (reorder_fresh (m := ⟨copyID, none, none, none⟩) ha hn hv hi hcopy).resolve_right hfail
  obtain ⟨c, hok, horder, hsection, hlevel⟩ := conflictCopy_ok hn hi title body hus
  refine .inl ⟨c, _, hok, fun id hid => ?_⟩
  obtain ⟨us', hus', hasc⟩ := (reorder_fresh (m := c.placed id) ha hn hv hi hid).resolve_right hfail
  obtain rfl : us.map (rename id) = us' := by
    have h := reorder_rename hcopy hid (blockEnd (displayLevels list) i)
    rw [hus] at h
    exact Except.ok.inj (h.symm.trans hus')
  generalize hmoves : (us.filter fun u => u.id ≠ copyID) = moves
  have hkept : ∀ x ∈ list, updated (us.map (rename id)) x = updated moves x :=
    fun x hx => hmoves ▸ updated_rename (hcopy x hx) (hid x hx)
  have hmap : (inserted list [c.placed id] (blockEnd (displayLevels list) i)).map (updated (us.map (rename id))) =
      (list.take (blockEnd (displayLevels list) i)).map (updated moves) ++
        c.placed id :: (list.drop (blockEnd (displayLevels list) i)).map (updated moves) := by
    rw [inserted, List.map_append, List.map_append, List.map_singleton, updated_copy hus hid horder,
      List.map_congr_left fun x hx => hkept x (List.mem_of_mem_take hx),
      List.map_congr_left fun x hx => hkept x (List.mem_of_mem_drop hx), List.append_assoc]
    rfl
  have hperm : (c.placed id :: list.map (updated moves)).Perm
      ((list.take (blockEnd (displayLevels list) i)).map (updated moves) ++
        c.placed id :: (list.drop (blockEnd (displayLevels list) i)).map (updated moves)) := by
    refine .trans ?_ List.perm_middle.symm
    rw [← List.map_append, List.take_append_drop]
  have hshown := sorted_of_perm (hmap ▸ hasc) hperm
  refine ⟨hshown, hlevel, ?_⟩
  have hinsert := displayLevels_insert hi (c := c.placed id) hsection hlevel
  rw [hshown]
  refine Eq.trans ?_ hinsert
  have hlevels : ∀ x, (updated moves x).level = x.level :=
    updated_level hus fun u hu => List.mem_of_mem_filter (hmoves ▸ hu)
  have hupdated := outline_updated hlevels
  have happend : ∀ xs ys : List Placed, outline (xs ++ c.placed id :: ys) = outline xs ++ outline (c.placed id :: ys) :=
    fun xs ys => List.map_append
  refine levelsFrom_congr ?_
  rw [happend, happend, hupdated]
  exact congrArg (fun l => _ ++ (_ :: l)) (hupdated _)

/-- A page with a page below it, and one after it. -/
def outlined : List Placed := [⟨"a", none, some "i", none⟩, ⟨"b", none, some "j", some 1⟩, ⟨"c", none, none, some 0⟩]

/-- A copy of the first page comes after the second one, at level 0. -/
theorem conflictCopy_disturbs_nothing_outlined : ∃ c moves,
    conflictCopy outlined ⟨"a", none, some "i", none⟩ "" "" = .ok (c, moves) ∧
    sorted (c.placed "d" :: outlined.map (updated moves)) =
      (outlined.take 2).map (updated moves) ++ c.placed "d" :: (outlined.drop 2).map (updated moves) ∧
    displayLevels (sorted (c.placed "d" :: outlined.map (updated moves))) = [0, 1, 0, 0] := by
  have hv : Valid outlined := by
    intro x hx
    simp only [outlined, List.mem_cons, List.not_mem_nil, or_false] at hx
    obtain rfl | rfl | rfl := hx
    · rintro k ⟨⟩
      decide
    · rintro k ⟨⟩
      decide
    · rintro k ⟨⟩
  obtain ⟨c, moves, hok, h⟩ | h := conflictCopy_disturbs_nothing outlined (by decide) (by decide) hv (by decide) "" ""
    0 ⟨"a", none, some "i", none⟩ rfl
  · obtain ⟨hshown, hlevel, hlevels⟩ := h "d" (by decide)
    refine ⟨c, moves, hok, hshown, ?_⟩
    rw [hlevels, hlevel]
    decide
  · exact absurd h (by unfold RenumberingFails; decide +kernel)

end Place

end KyNotes.Outline
