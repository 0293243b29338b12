import KyNotes.Lib.Forest
import KyNotes.Outline.ConflictCopy

/-!
# The rows of a section (`visibleRows` and `ancestors` of `web/src/outline.ts`)

The levels of a page list are the depths of a forest; the block of a page is what is below it. A page has a row unless one
above it is collapsed, so that `revealPage` of `web/src/main.tsx` gives every page one (`rows_shown`).
-/

namespace KyNotes.Outline

open Forest

/-- `Row`. -/
structure Row where
  item : Placed
  level : Int
  hasChildren : Bool
  collapsed : Bool
deriving DecidableEq

/-- The loop of `visibleRows`; `none` is the `Infinity` of `hiddenDeeperThan`. -/
def rowsFrom (collapsed : List String) : Option Int → List (Placed × Int) → List Row
  | _, [] => []
  | hidden, x :: xs =>
    if hidden.any fun h => h < x.2 then rowsFrom collapsed hidden xs
    else
      let hasChildren := xs.head?.any fun y => x.2 < y.2
      let isCollapsed := hasChildren && collapsed.contains x.1.id
      ⟨x.1, x.2, hasChildren, isCollapsed⟩ :: rowsFrom collapsed (if isCollapsed then some x.2 else none) xs

/-- A page list with its display levels. -/
def leveled (list : List Placed) : List (Placed × Int) := list.zip (displayLevels list)

/-- `visibleRows`. -/
def visibleRows (list : List Placed) (collapsed : List String) : List Row := rowsFrom collapsed none (leveled list)

/-- The loop of `ancestors`, up the pages before one. -/
def ancestorsUp : List (Placed × Int) → Int → List String
  | [], _ => []
  | x :: xs, level =>
    if 0 < level then
      if x.2 < level then x.1.id :: ancestorsUp xs x.2 else ancestorsUp xs level
    else []

/-- `ancestors`. -/
def ancestors (list : List Placed) (id : String) : List String :=
  match list.findIdx? fun page => page.id = id with
  | some index => ancestorsUp ((leveled list).take index).reverse ((displayLevels list)[index]?.getD 0)
  | none => []

/-- The collapsed pages that `revealPage` leaves. -/
def revealed (list : List Placed) (id : String) (collapsed : List String) : List String :=
  let above := ancestors list id
  if above.any fun entry => collapsed.contains entry then collapsed.filter fun entry => !above.contains entry
  else collapsed

/-! ## The levels of a list -/

section Levels

variable {list : List Placed} {x : Placed} {i j : Nat} {level : Int} {xs : List (Placed × Int)}

theorem length_displayLevels (list : List Placed) : (displayLevels list).length = list.length := length_levelsFrom

theorem levelsFrom_nonneg {prev : Option (Option String × Int)} (h : ∀ p ∈ prev, 0 ≤ p.2) :
    ∀ l ∈ levelsFrom prev list, 0 ≤ l := by
  induction list generalizing prev with
  | nil => exact List.forall_mem_nil _
  | cons x list ih =>
    have hx := (levelAfter_range (x := x) h).1
    exact List.forall_mem_cons.2 ⟨hx, ih fun p hp => by cases hp; exact hx⟩

theorem leveled_nonneg (list : List Placed) : ∀ x ∈ leveled list, 0 ≤ x.2 :=
  fun x hx => levelsFrom_nonneg (fun p hp => by cases hp) x.2 (List.of_mem_zip hx).2

theorem length_leveled (list : List Placed) : (leveled list).length = list.length := by
  rw [leveled, List.length_zip, length_displayLevels, Nat.min_self]

theorem leveled_fst (list : List Placed) : (leveled list).map Prod.fst = list :=
  List.map_fst_zip (length_displayLevels list).ge

theorem getElem?_leveled : (leveled list)[i]? = some (x, level) ↔
    list[i]? = some x ∧ (displayLevels list)[i]? = some level := by
  rw [leveled, List.getElem?_zip_eq_some]

theorem lt_length_takeWhile {α : Type} {p : α → Bool} {l : List α} {n : Nat} (hn : n < l.length) :
    n < (l.takeWhile p).length ↔ ∀ k ≤ n, ∀ x ∈ l[k]?, p x = true := by
  induction l generalizing n with
  | nil => cases hn
  | cons y l ih =>
    rw [List.takeWhile_cons]
    split
    · rename_i hy
      cases n with
      | zero =>
        refine iff_of_true (by simp) fun k hk x hx => ?_
        obtain rfl := Nat.le_zero.1 hk
        cases hx
        exact hy
      | succ n =>
        rw [List.length_cons, Nat.succ_lt_succ_iff, ih (Nat.lt_of_succ_lt_succ hn)]
        constructor
        · intro h k hk x hx
          cases k with
          | zero =>
            cases hx
            exact hy
          | succ k => exact h k (Nat.le_of_succ_le_succ hk) x hx
        · exact fun h k hk x hx => h (k + 1) (Nat.succ_le_succ hk) x hx
    · rename_i hy
      exact iff_of_false (Nat.not_lt_zero n) fun h => hy (h 0 (Nat.zero_le n) y rfl)

/-- A page is in the block of an earlier one if everything from there on is deeper. -/
theorem lt_blockEnd {levels : List Int} {head : Int} (hi : i < levels.length) (hj : levels[j]? = some head) (hji : j < i) :
    i < blockEnd levels j ↔ ∀ k, j < k → k ≤ i → ∀ l ∈ levels[k]?, head < l := by
  have hlen : i - (j + 1) < (levels.drop (j + 1)).length := by
    rw [List.length_drop]
    omega
  have hend : i < blockEnd levels j ↔
      i - (j + 1) < ((levels.drop (j + 1)).takeWhile fun level => decide (head < level)).length := by
    rw [blockEnd, hj]
    simp only [Option.any_some]
    omega
  rw [hend, lt_length_takeWhile hlen]
  constructor
  · intro h k hjk hki l hl
    refine of_decide_eq_true (h (k - (j + 1)) (by omega) l ?_)
    rwa [List.getElem?_drop, Nat.add_sub_cancel' (by omega : j + 1 ≤ k)]
  · intro h k hk l hl
    rw [List.getElem?_drop] at hl
    exact decide_eq_true (h (j + 1 + k) (by omega) (by omega) l hl)

theorem next_lt_blockEnd {levels : List Int} {head : Int} (hi : levels[i]? = some head) :
    i + 1 < blockEnd levels i ↔ (levels[i + 1]?.any fun level => head < level) = true := by
  rw [blockEnd, hi, ← List.head?_drop]
  simp only [Option.any_some]
  cases levels.drop (i + 1) with
  | nil => simp
  | cons level levels =>
    rw [List.takeWhile_cons, List.head?_cons, Option.any_some]
    split
    · rename_i h
      exact iff_of_true (by simp) h
    · rename_i h
      exact iff_of_false (by simp) h

theorem above_nil (hx : ∀ x ∈ xs, level ≤ x.2) : above xs level = [] := by
  induction xs with
  | nil => rfl
  | cons x xs ih =>
    obtain ⟨hle, hxs⟩ := List.forall_mem_cons.1 hx
    rw [above_cons_le hle, ih hxs]

theorem ancestorsUp_eq (hx : ∀ x ∈ xs, 0 ≤ x.2) : ancestorsUp xs level = (above xs level).map fun x => x.1.id := by
  induction xs generalizing level with
  | nil => rfl
  | cons x xs ih =>
    obtain ⟨hx₀, hxs⟩ := List.forall_mem_cons.1 hx
    rw [ancestorsUp]
    split
    · rw [ih hxs, ih hxs, above]
      split <;> rfl
    · rename_i hpos
      -- Nothing is above a page of level zero.
      rw [above_nil fun y hy => le_trans (not_lt.1 hpos) (hx y hy)]
      rfl

theorem index_unique (hn : (list.map Placed.id).Nodup) (hi : list[i]? = some x) (hj : list[j]? = some y) (h : y.id = x.id) :
    j = i := by
  have hlen : j < (list.map Placed.id).length := by
    rw [List.length_map]
    exact (List.getElem?_eq_some_iff.1 hj).1
  refine (List.getElem?_inj hlen hn).1 ?_
  rw [List.getElem?_map, List.getElem?_map, hi, hj, Option.map_some, Option.map_some, h]

theorem findIdx?_id (hn : (list.map Placed.id).Nodup) (hi : list[i]? = some x) :
    (list.findIdx? fun page => page.id = x.id) = some i := by
  obtain ⟨hlt, rfl⟩ := List.getElem?_eq_some_iff.1 hi
  rw [List.findIdx?_eq_some_iff_getElem]
  refine ⟨hlt, decide_eq_true rfl, fun k hk he => ?_⟩
  have hik := index_unique hn hi (List.getElem?_eq_getElem (hk.trans hlt)) (of_decide_eq_true he)
  omega

theorem ancestors_eq (hn : (list.map Placed.id).Nodup) (hi : (leveled list)[i]? = some (x, level)) :
    ancestors list x.id = (above ((leveled list).take i).reverse level).map fun y => y.1.id := by
  obtain ⟨hx, hlevel⟩ := getElem?_leveled.1 hi
  rw [ancestors, findIdx?_id hn hx]
  dsimp only
  rw [hlevel]
  exact ancestorsUp_eq fun y hy => leveled_nonneg list y (List.mem_of_mem_take (List.mem_reverse.1 hy))

/-- The ancestors of a page are the pages whose blocks it is in. -/
theorem mem_ancestors (hn : (list.map Placed.id).Nodup) (hi : list[i]? = some x) (hj : list[j]? = some y) :
    y.id ∈ ancestors list x.id ↔ j < i ∧ i < blockEnd (displayLevels list) j := by
  have hlen := length_displayLevels list
  have hlt := (List.getElem?_eq_some_iff.1 hi).1
  have hlt' := (List.getElem?_eq_some_iff.1 hj).1
  obtain ⟨level, hlevel⟩ : ∃ level, (displayLevels list)[i]? = some level :=
    ⟨_, List.getElem?_eq_getElem (hlen.symm ▸ hlt)⟩
  obtain ⟨head, hhead⟩ : ∃ head, (displayLevels list)[j]? = some head :=
    ⟨_, List.getElem?_eq_getElem (hlen.symm ▸ hlt')⟩
  have hget : ∀ (k : Nat) (l : Int), (displayLevels list)[k]? = some l → ∃ z : Placed, (leveled list)[k]? = some (z, l) := by
    intro k l hl
    have hk : k < list.length := hlen ▸ (List.getElem?_eq_some_iff.1 hl).1
    exact ⟨list[k], getElem?_leveled.2 ⟨List.getElem?_eq_getElem hk, hl⟩⟩
  rw [ancestors_eq hn (getElem?_leveled.2 ⟨hi, hlevel⟩), List.mem_map]
  constructor
  · rintro ⟨⟨z, l⟩, hz, hid⟩
    obtain ⟨k, hki, hk, hdepth, hall⟩ := (mem_above_take (by rw [length_leveled]; exact hlt.le)).1 hz
    obtain ⟨hkz, hkl⟩ := getElem?_leveled.1 hk
    obtain rfl := index_unique hn hj hkz hid
    obtain rfl : l = head := Option.some.inj (hkl.symm.trans hhead)
    refine ⟨hki, (lt_blockEnd (hlen.symm ▸ hlt) hhead hki).2 fun m hjm hmi l' hl' => ?_⟩
    obtain hmi | rfl := Nat.lt_or_eq_of_le hmi
    · obtain ⟨z', hz'⟩ := hget m l' hl'
      exact hall m hjm hmi _ hz'
    · cases hl'.symm.trans hlevel
      exact hdepth
  · rintro ⟨hji, hend⟩
    have hall := (lt_blockEnd (hlen.symm ▸ hlt) hhead hji).1 hend
    have hbetween : ∀ k, j < k → k < i → ∀ z ∈ (leveled list)[k]?, head < z.2 := by
      rintro k hjk hki ⟨z, l⟩ hz
      exact hall k hjk (Nat.le_of_lt hki) l (getElem?_leveled.1 hz).2
    refine ⟨(y, head), (mem_above_take (by rw [length_leveled]; exact hlt.le)).2 ?_, rfl⟩
    exact ⟨j, hji, getElem?_leveled.2 ⟨hj, hhead⟩, hall i hji le_rfl level hlevel, hbetween⟩

end Levels

/-! ## Rows -/

section Rows

variable {list : List Placed} {collapsed : List String} {xs before : List (Placed × Int)} {hidden : Option Int} {r : Row}

theorem rowsFrom_eq : (rowsFrom collapsed hidden xs).map (fun r => (r.item, r.level)) =
    shown (fun x => collapsed.contains x.id) hidden xs := by
  induction xs generalizing hidden with
  | nil => rfl
  | cons x xs ih =>
    rw [rowsFrom, shown]
    split
    · exact ih
    · rw [List.map_cons, ih]
      simp only [Bool.and_eq_true]

theorem unhidden_eq (hn : (list.map Placed.id).Nodup) (hsplit : leveled list = before.reverse ++ xs) :
    (unhidden (fun x => collapsed.contains x.id) before xs).map Prod.fst =
      (xs.map Prod.fst).filter fun x => (ancestors list x.id).all fun entry => !collapsed.contains entry := by
  induction xs generalizing before with
  | nil => rfl
  | cons x xs ih =>
    have hi : (leveled list)[before.length]? = some x := by
      rw [hsplit, List.getElem?_append_right (by rw [List.length_reverse]), List.length_reverse, Nat.sub_self]
      rfl
    have htake : ((leveled list).take before.length).reverse = before := by
      rw [hsplit, List.take_left' List.length_reverse, List.reverse_reverse]
    have hall : ((ancestors list x.1.id).all fun entry => !collapsed.contains entry) =
        !(above before x.2).any fun y => collapsed.contains y.1.id := by
      rw [ancestors_eq hn hi, htake, List.all_map, List.not_any_eq_all_not]
      rfl
    have hrest := @ih (x :: before) (by rw [hsplit, List.reverse_cons, List.append_assoc, List.singleton_append])
    rw [unhidden, List.map_cons, List.filter_cons, hall]
    cases (above before x.2).any fun y => collapsed.contains y.1.id with
    | true => exact hrest
    | false => exact congrArg _ hrest

/-- The pages with a row are those with no collapsed ancestor. -/
theorem visibleRows_items (hn : (list.map Placed.id).Nodup) (collapsed : List String) :
    (visibleRows list collapsed).map Row.item =
      list.filter fun x => (ancestors list x.id).all fun entry => !collapsed.contains entry := by
  have hrows : (visibleRows list collapsed).map (fun r => (r.item, r.level)) =
      shown (fun x => collapsed.contains x.id) none (leveled list) := rowsFrom_eq
  have h := congrArg (List.map Prod.fst) hrows
  rw [shown_start, unhidden_eq hn rfl, leveled_fst, List.map_map] at h
  exact h

theorem mem_rowsFrom (h : r ∈ rowsFrom collapsed hidden xs) : ∃ i, xs[i]? = some (r.item, r.level) ∧
    r.hasChildren = (xs[i + 1]?.any fun y => r.level < y.2) ∧
    r.collapsed = (r.hasChildren && collapsed.contains r.item.id) := by
  induction xs generalizing hidden with
  | nil => cases h
  | cons x xs ih =>
    rw [rowsFrom] at h
    split at h
    · obtain ⟨i, h⟩ := ih h
      exact ⟨i + 1, h⟩
    · obtain rfl | h := List.mem_cons.1 h
      · exact ⟨0, rfl, by rw [List.head?_eq_getElem?]; rfl, rfl⟩
      · obtain ⟨i, h⟩ := ih h
        exact ⟨i + 1, h⟩

theorem mem_revealed {id entry : String} (h : entry ∈ revealed list id collapsed) :
    entry ∈ collapsed ∧ entry ∉ ancestors list id := by
  unfold revealed at h
  dsimp only at h
  split at h
  · obtain ⟨hentry, hnot⟩ := List.mem_filter.1 h
    exact ⟨hentry, by simpa using hnot⟩
  · rename_i hnone
    refine ⟨h, fun habove => hnone (List.any_eq_true.2 ⟨entry, habove, List.contains_iff_mem.2 h⟩)⟩

/-- The rows of a list of distinct pages are the pages with no collapsed ancestor, in order, each with its display level and with
whether its block has more than itself. The ancestors of a page are the pages whose blocks it is in, so that a page has a row once
they are taken out of the collapsed ones. -/
theorem rows_shown (list : List Placed) (hn : (list.map Placed.id).Nodup) (collapsed : List String) :
    (visibleRows list collapsed).map Row.item =
        list.filter (fun x => (ancestors list x.id).all fun entry => !collapsed.contains entry) ∧
      (∀ r ∈ visibleRows list collapsed, ∃ i, list[i]? = some r.item ∧ (displayLevels list)[i]? = some r.level ∧
        (r.hasChildren = true ↔ i + 1 < blockEnd (displayLevels list) i) ∧
        r.collapsed = (r.hasChildren && collapsed.contains r.item.id)) ∧
      (∀ i j x y, list[i]? = some x → list[j]? = some y →
        (y.id ∈ ancestors list x.id ↔ j < i ∧ i < blockEnd (displayLevels list) j)) ∧
      ∀ x ∈ list, x ∈ (visibleRows list (revealed list x.id collapsed)).map Row.item := by
  refine ⟨visibleRows_items hn collapsed, fun r hr => ?_, fun i j x y hi hj => mem_ancestors hn hi hj, fun x hx => ?_⟩
  · obtain ⟨i, hi, hchildren, hcollapsed⟩ := mem_rowsFrom hr
    obtain ⟨hitem, hlevel⟩ := getElem?_leveled.1 hi
    refine ⟨i, hitem, hlevel, ?_, hcollapsed⟩
    have hnext : (leveled list)[i + 1]?.map Prod.snd = (displayLevels list)[i + 1]? := by
      rw [← List.getElem?_map, leveled, List.map_snd_zip (length_displayLevels list).le]
    rw [next_lt_blockEnd hlevel, ← hnext, hchildren, Option.any_map]
  · rw [visibleRows_items hn, List.mem_filter]
    refine ⟨hx, List.all_eq_true.2 fun entry hentry => ?_⟩
    rw [Bool.not_eq_true', ← Bool.not_eq_true, List.contains_iff_mem]
    exact fun h => (mem_revealed h).2 hentry

/-- A page, one below it and one below that. -/
def nestedPages : List Placed := [⟨"a", none, none, none⟩, ⟨"b", none, none, some 1⟩, ⟨"c", none, none, some 2⟩]

/-- Both pages above the last one are opened. -/
theorem rows_shown_nested : ⟨"c", none, none, some 2⟩ ∈
    (visibleRows nestedPages (revealed nestedPages "c" ["a", "b"])).map Row.item :=
  (rows_shown nestedPages (by decide) ["a", "b"]).2.2.2 ⟨"c", none, none, some 2⟩ (by decide)

end Rows

end KyNotes.Outline
