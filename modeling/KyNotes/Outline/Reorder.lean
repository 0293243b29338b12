import KyNotes.Lib.Check
import KyNotes.Outline.OrderKeys
import Mathlib.Data.Prod.Lex

/-!
# Moving pages and groups (`web/src/pages.ts`, `web/src/outline.ts`)

`compareOrdered` is the order of a rank (`compareOrdered_le`), and a list of distinct IDs whose ranks ascend is what any
order of it sorts to (`sorted_of_perm`). `reorder` and `placeBlock` give fresh keys between two neighbours, or new keys to
the whole list; either way the ranks ascend along the list that was asked for.

An absent field and one that is `undefined` are one. IDs and keys are ASCII, so that the order of their code points is
that of their code units.
-/

namespace KyNotes.Outline

open Content

/-- `Placed`: what a page, a section or a group has for its place. -/
structure Placed where
  id : String
  sectionId : Option String
  order : Option String
  level : Option Int
deriving DecidableEq

/-- `order` where it is truthy. -/
def Placed.key (x : Placed) : Option String := x.order.filter fun k => k ≠ ""

/-- `compareOrdered`. -/
def compareOrdered (a b : Placed) : Int :=
  match a.key, b.key with
  | some x, some y =>
    if x ≠ y then if x < y then -1 else 1
    else if a.id < b.id then -1 else if b.id < a.id then 1 else 0
  | some _, none => -1
  | none, some _ => 1
  | none, none => if a.id < b.id then -1 else if b.id < a.id then 1 else 0

/-- `sort(compareOrdered)`. -/
def sorted (l : List Placed) : List Placed := l.mergeSort fun a b => compareOrdered a b ≤ 0

/-! ## Display levels -/

def maxLevel : Int := 2

/-- `clampLevel`. -/
def clampLevel (level : Int) : Int := min maxLevel (max 0 level)

/-- The display level of a page after one with a section and a level. -/
def levelAfter (prev : Option (Option String × Int)) (x : Placed) : Int :=
  match prev with
  | some (sectionId, level) => if x.sectionId = sectionId then min (clampLevel (x.level.getD 0)) (level + 1) else 0
  | none => 0

/-- `displayLevels`, from a page on. -/
def levelsFrom : Option (Option String × Int) → List Placed → List Int
  | _, [] => []
  | prev, x :: xs => levelAfter prev x :: levelsFrom (some (x.sectionId, levelAfter prev x)) xs

/-- `displayLevels`. -/
def displayLevels (l : List Placed) : List Int := levelsFrom none l

/-- The end of `blockRange`. -/
def blockEnd (levels : List Int) (index : Nat) : Nat :=
  index + 1 + ((levels.drop (index + 1)).takeWhile fun level => (levels[index]?).any fun head => head < level).length

/-! ## Updates -/

/-- `{ id, order, level? }`. -/
structure Update where
  id : String
  order : String
  level : Option Int
deriving DecidableEq

/-- An update of an item. -/
def Update.apply (u : Update) (x : Placed) : Placed :=
  { x with order := some u.order, level := u.level.or x.level }

/-- An item with its update, if it has one. -/
def updated (us : List Update) (x : Placed) : Placed :=
  match us.find? fun u => u.id = x.id with
  | some u => u.apply x
  | none => x

/-- Keys one after the other: `low = keyBetween(low, next)`. -/
def keysFrom (next : Option String) : Option String → Nat → Except Thrown (List String)
  | _, 0 => .ok []
  | low, n + 1 => do
    let key ← keyBetween low next
    let keys ← keysFrom next (some key) n
    pure (key :: keys)

/-- Fresh keys for a list of IDs with their levels. -/
def assign (next low : Option String) (ids : List (String × Option Int)) : Except Thrown (List Update) :=
  (keysFrom next low ids.length).map fun keys => List.zipWith (fun x key => ⟨x.1, key, x.2⟩) ids keys

/-- `Math.max(0, Math.min(index, length))`. -/
def clampIndex (index : Int) (length : Nat) : Nat := (max 0 (min index length)).toNat

/-- The order of the item before a place, and of the one there. -/
def orderBefore (l : List Placed) (place : Nat) : Option String := if place = 0 then none else (l[place - 1]?).bind Placed.order

def orderAt (l : List Placed) (place : Nat) : Option String := (l[place]?).bind Placed.order

def unleveled (l : List Placed) : List (String × Option Int) := l.map fun x => (x.id, none)

/-- `reorder`. -/
def reorder (list : List Placed) (movedID : String) (index : Int) : Except Thrown (List Update) :=
  let rest := list.filter fun x => x.id ≠ movedID
  let place := clampIndex index rest.length
  let renumbered := assign none none (unleveled (rest.take place) ++ (movedID, none) :: unleveled (rest.drop place))
  if rest.all fun x => x.key.isSome then
    match keyBetween (orderBefore rest place) (orderAt rest place) with
    | .ok key => .ok [⟨movedID, key, none⟩]
    | .error _ => renumbered
  else renumbered

/-- `placeBlock`. -/
def placeBlock (target block : List Placed) (blockLevels : List Int) (index : Int) : Except Thrown (List Update) :=
  let place := clampIndex index target.length
  let targetLevels := displayLevels target
  let first := blockLevels.headD 0
  let head := min first (if place = 0 then 0 else (targetLevels[place - 1]?).getD 0 + 1)
  let levels := blockLevels.map fun level => clampLevel (level - first + head)
  let prev := orderBefore target place
  let next := orderAt target place
  let ids := block.mapIdx fun i x => (x.id, levels[i]?)
  let renumbered := assign none none (unleveled (target.take place) ++ ids ++ unleveled (target.drop place))
  if target.all (fun x => x.key.isSome) ∧ (prev.all fun a => next.all fun b => a < b) then
    match assign next prev ids with
    | .ok us => .ok us
    | .error _ => renumbered
  else renumbered

/-! ## Ranks -/

section Ranks

variable {a b : Placed} {l l' : List Placed}

/-- What `compareOrdered` compares: items without a key come last, a tie is broken by the IDs. -/
def rank (x : Placed) : Bool ×ₗ String ×ₗ String := toLex (x.key.isNone, toLex (x.key.getD "", x.id))

theorem compareOrdered_le : compareOrdered a b ≤ 0 ↔ rank a ≤ rank b := by
  have hid : (if a.id < b.id then (-1 : Int) else if b.id < a.id then 1 else 0) ≤ 0 ↔ a.id ≤ b.id := by
    split
    · rename_i h
      exact iff_of_true (by decide) h.le
    · split
      · rename_i h
        exact iff_of_false (by decide) (not_le_of_gt h)
      · rename_i h
        exact iff_of_true (by decide) (not_lt.1 h)
  rw [compareOrdered, rank, rank, Prod.Lex.toLex_le_toLex, Prod.Lex.toLex_le_toLex]
  cases ha : a.key with
  | none =>
    cases hb : b.key with
    | none => simpa using hid
    | some y => simp
  | some x =>
    cases hb : b.key with
    | none => simp
    | some y =>
      by_cases hxy : x = y
      · subst hxy
        simpa using hid
      · by_cases hlt : x < y
        · simp [hxy, hlt]
        · simp [hxy, hlt]

/-- The ranks ascend. -/
def Ascending (l : List Placed) : Prop := l.Pairwise fun a b => rank a < rank b

/-- A list whose ranks ascend is what any order of it sorts to. -/
theorem sorted_of_perm (h : Ascending l) (hp : l'.Perm l) : sorted l' = l := by
  have hle : (sorted l').Pairwise fun a b => rank a ≤ rank b := by
    refine (List.pairwise_mergeSort (fun a b c hab hbc => ?_) (fun a b => ?_) l').imp fun hab => ?_
    · exact decide_eq_true (compareOrdered_le.2 (le_trans (compareOrdered_le.1 (of_decide_eq_true hab))
        (compareOrdered_le.1 (of_decide_eq_true hbc))))
    · rw [Bool.or_eq_true]
      exact (le_total (rank a) (rank b)).imp (fun h => decide_eq_true (compareOrdered_le.2 h))
        fun h => decide_eq_true (compareOrdered_le.2 h)
    · exact compareOrdered_le.1 (of_decide_eq_true hab)
  have hperm : (sorted l').Perm l := (List.mergeSort_perm _ _).trans hp
  have hnodup : (l.map rank).Nodup := (List.pairwise_map.2 (h.imp fun hab => hab.ne))
  refine List.Perm.eq_of_pairwise (fun a b ha hb hab hba => ?_) hle (h.imp le_of_lt) hperm
  exact List.inj_on_of_nodup_map hnodup (hperm.mem_iff.1 ha) hb (le_antisymm hab hba)

/-- A sorted list of distinct IDs ascends. -/
theorem ascending_of_sorted (hs : l.Pairwise fun a b => compareOrdered a b ≤ 0) (hn : (l.map Placed.id).Nodup) :
    Ascending l := by
  refine (hs.and (List.pairwise_map.1 hn)).imp fun {a b} h => ?_
  refine lt_of_le_of_ne (compareOrdered_le.1 h.1) fun he => h.2 ?_
  exact (congrArg Prod.snd (congrArg ofLex (congrArg Prod.snd (congrArg ofLex he))) : _)

/-- Every order key is valid. -/
def Valid (l : List Placed) : Prop := ∀ x ∈ l, ∀ k ∈ x.order, isOrderKey k = true

theorem ne_empty_of_isOrderKey {k : String} (h : isOrderKey k = true) : k ≠ "" := by
  rintro rfl
  exact absurd h (by decide)

theorem key_of_order {k : String} (h : a.order = some k) (hk : isOrderKey k = true) : a.key = some k := by
  rw [Placed.key, h, Option.filter_some, if_pos (decide_eq_true (ne_empty_of_isOrderKey hk))]

theorem rank_of_order {k : String} (h : a.order = some k) (hk : isOrderKey k = true) :
    rank a = toLex (false, toLex (k, a.id)) := by
  rw [rank, key_of_order h hk]
  rfl

theorem rank_lt_of_order {x y : String} (ha : a.order = some x) (hb : b.order = some y) (hx : isOrderKey x = true)
    (hy : isOrderKey y = true) (h : x < y) : rank a < rank b := by
  rw [rank_of_order ha hx, rank_of_order hb hy]
  exact Prod.Lex.toLex_lt_toLex.2 (.inr ⟨rfl, Prod.Lex.toLex_lt_toLex.2 (.inl h)⟩)

theorem order_le_of_rank {x y : String} (ha : a.order = some x) (hb : b.order = some y) (hx : isOrderKey x = true)
    (hy : isOrderKey y = true) (h : rank a ≤ rank b) : x ≤ y := by
  by_contra hlt
  exact absurd h (not_le_of_gt (rank_lt_of_order hb ha hy hx (not_le.1 hlt)))

end Ranks

/-! ## Fresh keys -/

section Keys

variable {low next : Option String} {ids : List (String × Option Int)} {us : List Update} {n : Nat} {keys : List String}

/-- Keys between two ends, one above the other. -/
structure FreshKeys (low next : Option String) (keys : List String) : Prop where
  ascend : keys.Pairwise (· < ·)
  valid : ∀ k ∈ keys, isOrderKey k = true
  above : ∀ k ∈ keys, ∀ l ∈ low, l < k
  below : ∀ k ∈ keys, ∀ b ∈ next, k < b

theorem keysFrom_ok (hl : ∀ l ∈ low, isOrderKey l = true) (hb : ∀ b ∈ next, isOrderKey b = true)
    (hlt : ∀ l ∈ low, ∀ b ∈ next, l < b) (h : keysFrom next low n = .ok keys) :
    keys.length = n ∧ FreshKeys low next keys := by
  induction n generalizing low keys with
  | zero =>
    cases h
    exact ⟨rfl, .nil, fun _ h => (by cases h), fun _ h => (by cases h), fun _ h => (by cases h)⟩
  | succ n ih =>
    simp only [keysFrom, Check.bind_ok, Check.pure_ok] at h
    obtain ⟨key, hkey, keys, hkeys, rfl⟩ := h
    obtain ⟨key', hk', hvalid, habove, hbelow⟩ | hk' := keyBetween_cases hl hb hlt
    · obtain rfl : key' = key := Except.ok.inj (hk'.symm.trans hkey)
      obtain ⟨hlen, hfresh⟩ := ih (fun l (hl : l ∈ some key') => by cases hl; exact hvalid)
        (fun l hl b hb => by cases hl; exact hbelow b hb) hkeys
      refine ⟨congrArg Nat.succ hlen, ?_, ?_, ?_, ?_⟩
      · exact List.pairwise_cons.2 ⟨fun k hk => hfresh.above k hk key' rfl, hfresh.ascend⟩
      · exact List.forall_mem_cons.2 ⟨hvalid, hfresh.valid⟩
      · exact List.forall_mem_cons.2 ⟨habove, fun k hk l hl => lt_trans (habove l hl) (hfresh.above k hk key' rfl)⟩
      · exact List.forall_mem_cons.2 ⟨hbelow, hfresh.below⟩
    · rw [hk'] at hkey
      cases hkey

/-- Renumbering throws only at the limit. -/
theorem keysFrom_error {e : Thrown} (hl : ∀ l ∈ low, isOrderKey l = true) (h : keysFrom none low n = .error e) :
    e = .limitReached := by
  induction n generalizing low with
  | zero => cases h
  | succ n ih =>
    obtain ⟨key, hk, hvalid, -⟩ | hk := keyBetween_cases hl (fun b (hb : b ∈ none) => by cases hb)
      fun l hl b hb => by cases hb
    · rw [keysFrom, hk, Check.ok_bind] at h
      obtain h | ⟨keys, -, h⟩ := Check.bind_error.1 h
      · exact ih (fun l (hl : l ∈ some key) => by cases hl; exact hvalid) h
      · cases h
    · rw [keysFrom, hk] at h
      cases h
      rfl

theorem keyBetween_ok_lt {before after : Option String} {key : String} (h : keyBetween before after = .ok key) :
    ∀ b ∈ after, before.getD "" < b := by
  rintro b rfl
  by_contra hlt
  rw [keyBetween, keyBetweenUpTo, Option.any_some, if_pos (decide_eq_true (not_lt.1 hlt))] at h
  cases h

theorem map_zipWith_update : ∀ {ids : List (String × Option Int)} {keys : List String}, keys.length = ids.length →
    (List.zipWith (fun x key => (⟨x.1, key, x.2⟩ : Update)) ids keys).map Update.id = ids.map Prod.fst ∧
      (List.zipWith (fun x key => (⟨x.1, key, x.2⟩ : Update)) ids keys).map Update.order = keys
  | [], [], _ => ⟨rfl, rfl⟩
  | x :: ids, key :: keys, h => by
    obtain ⟨hid, horder⟩ := map_zipWith_update (Nat.succ.inj h)
    exact ⟨congrArg (x.1 :: ·) hid, congrArg (key :: ·) horder⟩

/-- An assignment gives every item of its list a fresh key. -/
theorem assign_ok (hl : ∀ l ∈ low, isOrderKey l = true) (hb : ∀ b ∈ next, isOrderKey b = true)
    (hlt : ∀ l ∈ low, ∀ b ∈ next, l < b) (h : assign next low ids = .ok us) :
    us.map Update.id = ids.map Prod.fst ∧ FreshKeys low next (us.map Update.order) := by
  unfold assign at h
  cases hk : keysFrom next low ids.length with
  | error e =>
    rw [hk] at h
    cases h
  | ok keys =>
    rw [hk] at h
    cases h
    obtain ⟨hlen, hfresh⟩ := keysFrom_ok hl hb hlt hk
    obtain ⟨hid, horder⟩ := map_zipWith_update hlen
    rw [hid, horder]
    exact ⟨rfl, hfresh⟩

/-- Renumbering assigns keys, or reaches the limit. -/
theorem assign_renumber (ids : List (String × Option Int)) :
    (∃ us, assign none none ids = .ok us) ∨ assign none none ids = .error .limitReached := by
  unfold assign
  cases hk : keysFrom none none ids.length with
  | error e =>
    obtain rfl := keysFrom_error (fun l hl => by cases hl) hk
    exact .inr rfl
  | ok keys => exact .inl ⟨_, rfl⟩

end Keys

/-! ## Updated lists -/

section Updated

variable {us : List Update} {x : Placed} {l : List Placed}

@[simp] theorem updated_id (us : List Update) (x : Placed) : (updated us x).id = x.id := by
  unfold updated
  split <;> rfl

@[simp] theorem updated_sectionId (us : List Update) (x : Placed) : (updated us x).sectionId = x.sectionId := by
  unfold updated
  split <;> rfl

theorem updated_of_not_mem (h : x.id ∉ us.map Update.id) : updated us x = x := by
  have hf : us.find? (fun u => u.id = x.id) = none :=
    List.find?_eq_none.2 fun u hu he => h (List.mem_map.2 ⟨u, hu, of_decide_eq_true he⟩)
  rw [updated, hf]

theorem updated_of_mem {u : Update} (hn : (us.map Update.id).Nodup) (hu : u ∈ us) (hid : u.id = x.id) :
    updated us x = u.apply x := by
  have hf : us.find? (fun u => u.id = x.id) = some u := by
    obtain ⟨v, hv⟩ : ∃ v, us.find? (fun u => u.id = x.id) = some v := by
      rw [← Option.isSome_iff_exists, List.find?_isSome]
      exact ⟨u, hu, decide_eq_true hid⟩
    have hvid : v.id = x.id := by simpa using List.find?_some hv
    rw [hv, List.inj_on_of_nodup_map hn (List.mem_of_find?_eq_some hv) hu (hvid.trans hid.symm)]
  rw [updated, hf]

/-- The orders of a list whose items have one update each, in its own order. -/
theorem order_updated (hn : (us.map Update.id).Nodup) (hids : us.map Update.id = l.map Placed.id) :
    l.map (fun x => (updated us x).order) = us.map fun u => some u.order := by
  have hlen : us.length = l.length := by simpa using congrArg List.length hids
  refine List.ext_getElem (by simpa using hlen.symm) fun i h₁ h₂ => ?_
  rw [List.length_map] at h₁ h₂
  have hid : us[i].id = l[i].id := by
    have := List.getElem_of_eq hids (i := i) (by simpa using h₂)
    simpa using this
  rw [List.getElem_map, List.getElem_map, updated_of_mem hn (List.getElem_mem h₂) hid]
  rfl

/-- A list all of whose items have ascending fresh keys ascends. -/
theorem ascending_updated {low next : Option String} (hn : (us.map Update.id).Nodup)
    (hids : us.map Update.id = l.map Placed.id) (hk : FreshKeys low next (us.map Update.order)) :
    Ascending (l.map (updated us)) := by
  have horder := order_updated hn hids
  have hlen : us.length = l.length := by simpa using congrArg List.length hids
  have hget : ∀ i (h : i < l.length), (updated us l[i]).order = some us[i].order := by
    intro i h
    have := List.getElem_of_eq horder (i := i) (by simpa using h)
    simpa using this
  refine List.pairwise_map.2 (List.pairwise_iff_getElem.2 fun i j hi hj hij => ?_)
  have hlt := List.pairwise_iff_getElem.1 (List.pairwise_map.1 hk.ascend) i j (by omega) (by omega) hij
  have hvalid : ∀ i (h : i < us.length), isOrderKey us[i].order = true :=
    fun i h => hk.valid _ (List.mem_map_of_mem (List.getElem_mem h))
  exact rank_lt_of_order (hget i hi) (hget j hj) (hvalid i _) (hvalid j _) hlt

end Updated

/-! ## Neighbours -/

section Neighbours

variable {target block : List Placed} {place : Nat} {us : List Update} {ids : List (String × Option Int)}

theorem orderBefore_valid (hv : Valid target) : ∀ k ∈ orderBefore target place, isOrderKey k = true := by
  intro k hk
  unfold orderBefore at hk
  split at hk
  · cases hk
  · obtain ⟨x, hx, hk⟩ := Option.bind_eq_some_iff.1 hk
    exact hv x (List.mem_of_getElem? hx) k hk

theorem orderAt_valid (hv : Valid target) : ∀ k ∈ orderAt target place, isOrderKey k = true := by
  intro k hk
  obtain ⟨x, hx, hk⟩ := Option.bind_eq_some_iff.1 hk
  exact hv x (List.mem_of_getElem? hx) k hk

/-- Every item has a key. -/
def Keyed (l : List Placed) : Prop := ∀ x ∈ l, x.order.isSome

/-- The items before a place are below the neighbour there. -/
theorem le_orderBefore (ha : Ascending target) (hv : Valid target) (hk : Keyed target) (hp : place ≤ target.length)
    {x : Placed} (hx : x ∈ target.take place) :
    ∃ k p, x.order = some k ∧ orderBefore target place = some p ∧ k ≤ p := by
  obtain ⟨i, hi, rfl⟩ := List.mem_take_iff_getElem.1 hx
  have hlast : place - 1 < target.length := by omega
  obtain ⟨k, hk₁⟩ := Option.isSome_iff_exists.1 (hk _ (List.getElem_mem (by omega : i < target.length)))
  obtain ⟨p, hp₁⟩ := Option.isSome_iff_exists.1 (hk _ (List.getElem_mem hlast))
  have hrank : rank target[i] ≤ rank target[place - 1] := by
    obtain hlt | heq := Nat.lt_or_eq_of_le (by omega : i ≤ place - 1)
    · exact le_of_lt (List.pairwise_iff_getElem.1 ha i (place - 1) _ hlast hlt)
    · subst heq
      exact le_refl _
  refine ⟨k, p, hk₁, ?_, ?_⟩
  · rw [orderBefore, if_neg (by omega), List.getElem?_eq_getElem hlast]
    exact hp₁
  · exact order_le_of_rank hk₁ hp₁ (hv _ (List.getElem_mem _) k hk₁) (hv _ (List.getElem_mem _) p hp₁) hrank

/-- The items from a place on are above the neighbour there. -/
theorem orderAt_le (ha : Ascending target) (hv : Valid target) (hk : Keyed target) {x : Placed}
    (hx : x ∈ target.drop place) : ∃ k p, x.order = some k ∧ orderAt target place = some p ∧ p ≤ k := by
  obtain ⟨i, hi', rfl⟩ := List.mem_drop_iff_getElem.1 hx
  have hi : place + i < target.length := by omega
  have hfirst : place < target.length := by omega
  obtain ⟨k, hk₁⟩ := Option.isSome_iff_exists.1 (hk _ (List.getElem_mem hi))
  obtain ⟨p, hp₁⟩ := Option.isSome_iff_exists.1 (hk _ (List.getElem_mem hfirst))
  have hrank : rank target[place] ≤ rank target[place + i] := by
    obtain hlt | heq := Nat.lt_or_eq_of_le (by omega : place ≤ place + i)
    · exact le_of_lt (List.pairwise_iff_getElem.1 ha place (place + i) hfirst hi hlt)
    · simp only [← heq]
      exact le_refl _
  refine ⟨k, p, hk₁, ?_, ?_⟩
  · rw [orderAt, List.getElem?_eq_getElem hfirst]
    exact hp₁
  · exact order_le_of_rank hp₁ hk₁ (hv _ (List.getElem_mem _) p hp₁) (hv _ (List.getElem_mem _) k hk₁) hrank

/-- The list with a block inserted. -/
def inserted (target block : List Placed) (place : Nat) : List Placed := target.take place ++ block ++ target.drop place

theorem inserted_perm (target block : List Placed) (place : Nat) :
    (inserted target block place).Perm (block ++ target) := by
  have h : (target.take place ++ block).Perm (block ++ target.take place) := List.perm_append_comm
  have h' := h.append_right (target.drop place)
  rwa [List.append_assoc, List.append_assoc, List.take_append_drop, ← List.append_assoc] at h'

/-- Renumbered, the items ascend in their new order. -/
theorem ascending_renumbered (hids : ids.map Prod.fst = block.map Placed.id)
    (hn : ((block ++ target).map Placed.id).Nodup)
    (h : assign none none (unleveled (target.take place) ++ ids ++ unleveled (target.drop place)) = .ok us) :
    Ascending ((inserted target block place).map (updated us)) := by
  have hnone : ∀ {q : String → Prop}, ∀ k ∈ (none : Option String), q k := fun k hk => by cases hk
  obtain ⟨hus, hfresh⟩ := assign_ok hnone hnone (fun l hl => by cases hl) h
  have hfst : ∀ l : List Placed, (unleveled l).map Prod.fst = l.map Placed.id := by
    intro l
    rw [unleveled, List.map_map]
    rfl
  have hmap : us.map Update.id = (inserted target block place).map Placed.id := by
    rw [hus, inserted, List.map_append, List.map_append, List.map_append, List.map_append, hfst, hfst, hids]
  refine ascending_updated ?_ hmap hfresh
  rw [hmap]
  exact ((inserted_perm target block place).map _).nodup_iff.2 hn

/-- With fresh keys for the block, the others keep theirs. -/
theorem ascending_fresh (hids : ids.map Prod.fst = block.map Placed.id) (hn : ((block ++ target).map Placed.id).Nodup)
    (ha : Ascending target) (hv : Valid target) (hk : Keyed target) (hp : place ≤ target.length)
    (hlt : ∀ a ∈ orderBefore target place, ∀ b ∈ orderAt target place, a < b)
    (h : assign (orderAt target place) (orderBefore target place) ids = .ok us) :
    Ascending ((inserted target block place).map (updated us)) ∧ ∀ x ∈ target, updated us x = x := by
  obtain ⟨hus, hfresh⟩ := assign_ok (orderBefore_valid hv) (orderAt_valid hv) hlt h
  have hmap : us.map Update.id = block.map Placed.id := hus.trans hids
  rw [List.map_append] at hn
  have hnb : (us.map Update.id).Nodup := hmap ▸ (List.nodup_append.1 hn).1
  have hkept : ∀ x ∈ target, updated us x = x := by
    intro x hx
    refine updated_of_not_mem fun hu => ?_
    exact (List.nodup_append.1 hn).2.2 _ (hmap ▸ hu) _ (List.mem_map_of_mem hx) rfl
  have hfix : ∀ {l : List Placed}, (∀ x ∈ l, x ∈ target) → l.map (updated us) = l := by
    intro l hl
    exact (List.map_congr_left fun x hx => hkept x (hl x hx)).trans (List.map_id l)
  have hblock : ∀ x ∈ block.map (updated us), ∃ k ∈ us.map Update.order, x.order = some k := by
    intro x hx
    have horder := order_updated hnb hmap
    have hmem : x.order ∈ block.map fun x => (updated us x).order := by
      obtain ⟨y, hy, rfl⟩ := List.mem_map.1 hx
      exact List.mem_map_of_mem hy
    rw [horder] at hmem
    obtain ⟨u, hu, hux⟩ := List.mem_map.1 hmem
    exact ⟨u.order, List.mem_map_of_mem hu, hux.symm⟩
  have hsplit : Ascending (target.take place ++ target.drop place) := by
    rw [List.take_append_drop]
    exact ha
  obtain ⟨hat, had, hcross⟩ := List.pairwise_append.1 hsplit
  refine ⟨?_, hkept⟩
  rw [inserted, List.map_append, List.map_append, hfix fun x hx => List.mem_of_mem_take hx,
    hfix fun x hx => List.mem_of_mem_drop hx]
  refine List.pairwise_append.2 ⟨List.pairwise_append.2 ⟨hat, ascending_updated hnb hmap hfresh, ?_⟩, had, ?_⟩
  · intro x hx y hy
    obtain ⟨k, p, hxk, hbefore, hkp⟩ := le_orderBefore ha hv hk hp hx
    obtain ⟨key, hkey, hyk⟩ := hblock y hy
    exact rank_lt_of_order hxk hyk (hv x (List.mem_of_mem_take hx) k hxk) (hfresh.valid key hkey)
      (lt_of_le_of_lt hkp (hfresh.above key hkey p hbefore))
  · intro x hx y hy
    obtain hx | hx := List.mem_append.1 hx
    · exact hcross x hx y hy
    · obtain ⟨k, p, hyk, hat', hpk⟩ := orderAt_le ha hv hk hy
      obtain ⟨key, hkey, hxk⟩ := hblock x hx
      exact rank_lt_of_order hxk hyk (hfresh.valid key hkey) (hv y (List.mem_of_mem_drop hy) k hyk)
        (lt_of_lt_of_le (hfresh.below key hkey p hat') hpk)

end Neighbours

/-! ## Moves -/

section Moves

variable {list target block : List Placed} {m : Placed} {ids : List (String × Option Int)} {us : List Update}

theorem clampIndex_le (index : Int) (n : Nat) : clampIndex index n ≤ n := by
  unfold clampIndex
  omega

theorem keyed_of_all (h : list.all (fun x => x.key.isSome) = true) : Keyed list := by
  intro x hx
  obtain ⟨k, hk⟩ := Option.isSome_iff_exists.1 (List.all_eq_true.1 h x hx)
  obtain ⟨ho, -⟩ := Option.filter_eq_some_iff.1 hk
  rw [ho]
  rfl

theorem assign_singleton {next low : Option String} {id key : String} (h : keyBetween low next = .ok key) :
    assign next low [(id, none)] = .ok [⟨id, key, none⟩] := by
  simp only [assign, List.length_singleton, keysFrom, h, Check.ok_bind]
  rfl

/-- Renumbering `n` items reaches the limit. -/
def RenumberingFails (n : Nat) : Prop := keysFrom none none n = .error .limitReached

theorem renumberingFails_of_assign (h : assign none none ids = .error .limitReached) : RenumberingFails ids.length := by
  unfold assign at h
  unfold RenumberingFails
  cases hk : keysFrom none none ids.length with
  | error e =>
    rw [hk] at h
    cases h
    rfl
  | ok keys =>
    rw [hk] at h
    cases h

theorem length_unleveled (l : List Placed) : (unleveled l).length = l.length := List.length_map _

/-- The renumbering path, for any block. -/
theorem renumbered_cases (block : List Placed) (ids : List (String × Option Int)) (place : Nat) (hids : ids.map Prod.fst = block.map Placed.id)
    (hn : ((block ++ target).map Placed.id).Nodup) :
    (∃ us, assign none none (unleveled (target.take place) ++ ids ++ unleveled (target.drop place)) = .ok us ∧
      Ascending ((inserted target block place).map (updated us))) ∨ RenumberingFails (block ++ target).length := by
  obtain ⟨us, hus⟩ | hus := assign_renumber (unleveled (target.take place) ++ ids ++ unleveled (target.drop place))
  · exact .inl ⟨us, hus, ascending_renumbered hids hn hus⟩
  · have hlen : ids.length = block.length := by simpa using congrArg List.length hids
    have h := renumberingFails_of_assign hus
    have htotal : (unleveled (target.take place) ++ ids ++ unleveled (target.drop place)).length =
        (block ++ target).length := by
      rw [List.length_append, List.length_append, List.length_append, length_unleveled, length_unleveled, hlen,
        List.length_take, List.length_drop]
      omega
    exact .inr (htotal ▸ h)

/-- A reordered list ascends with the moved item where it was asked for; so it does for an item that is not in the list
yet. -/
theorem reorder_ascending (list : List Placed) (m : Placed) (hn : ((m :: list.filter fun x => x.id ≠ m.id).map Placed.id).Nodup)
    (ha : Ascending (list.filter fun x => x.id ≠ m.id)) (hv : Valid (list.filter fun x => x.id ≠ m.id)) (index : Int) :
    (∃ us, reorder list m.id index = .ok us ∧
      Ascending ((inserted (list.filter fun x => x.id ≠ m.id) [m]
        (clampIndex index (list.filter fun x => x.id ≠ m.id).length)).map (updated us))) ∨
      RenumberingFails (m :: list.filter fun x => x.id ≠ m.id).length := by
  unfold reorder
  generalize list.filter (fun x => x.id ≠ m.id) = rest at *
  dsimp only
  have hp := clampIndex_le index rest.length
  generalize clampIndex index rest.length = place at *
  have hren := renumbered_cases [m] [(m.id, none)] place rfl hn
  rw [List.append_assoc, List.singleton_append] at hren
  split
  · rename_i hall
    have hk := keyed_of_all hall
    split
    · rename_i key hkey
      have hlt : ∀ a ∈ orderBefore rest place, ∀ b ∈ orderAt rest place, a < b := by
        intro a ha' b hb
        have := keyBetween_ok_lt hkey b hb
        rwa [ha'] at this
      exact .inl ⟨_, rfl, (ascending_fresh rfl hn ha hv hk hp hlt (assign_singleton hkey)).1⟩
    · exact hren
  · exact hren

theorem placeBlock_ascending (hn : ((block ++ target).map Placed.id).Nodup) (ha : Ascending target) (hv : Valid target)
    (blockLevels : List Int) (index : Int) :
    (∃ us, placeBlock target block blockLevels index = .ok us ∧
      Ascending ((inserted target block (clampIndex index target.length)).map (updated us))) ∨
      RenumberingFails (block ++ target).length := by
  unfold placeBlock
  dsimp only
  have hp := clampIndex_le index target.length
  generalize clampIndex index target.length = place at *
  generalize blockLevels.map _ = levels
  have hids : (block.mapIdx fun i x => (x.id, levels[i]?)).map Prod.fst = block.map Placed.id := by
    refine List.ext_getElem (by simp) fun i h₁ h₂ => ?_
    simp
  have hren := renumbered_cases block _ place hids hn
  split
  · rename_i hall
    have hk := keyed_of_all hall.1
    have hlt : ∀ a ∈ orderBefore target place, ∀ b ∈ orderAt target place, a < b := by
      intro a ha' b hb
      have := hall.2
      rw [ha', hb] at this
      exact of_decide_eq_true this
    split
    · rename_i us hus
      exact .inl ⟨us, rfl, (ascending_fresh hids hn ha hv hk hp hlt hus).1⟩
    · exact hren
  · exact hren

theorem filter_perm (hm : m ∈ list) (hn : (list.map Placed.id).Nodup) :
    (m :: list.filter fun x => x.id ≠ m.id).Perm list := by
  obtain ⟨l₁, l₂, rfl⟩ := List.append_of_mem hm
  rw [List.map_append, List.map_cons] at hn
  obtain ⟨-, hn₂, hne⟩ := List.nodup_append.1 hn
  have h₁ : l₁.filter (fun x => x.id ≠ m.id) = l₁ :=
    List.filter_eq_self.2 fun x hx => decide_eq_true (hne _ (List.mem_map_of_mem hx) _ List.mem_cons_self)
  have h₂ : l₂.filter (fun x => x.id ≠ m.id) = l₂ := by
    refine List.filter_eq_self.2 fun x hx => decide_eq_true fun h => ?_
    exact (List.nodup_cons.1 hn₂).1 (h ▸ List.mem_map_of_mem hx)
  rw [List.filter_append, List.filter_cons_of_neg (by simp), h₁, h₂]
  exact List.perm_middle.symm

/-- Applying the updates of `reorder` or of `placeBlock` to a sorted list and sorting it again gives the remaining list
with the moved item, or the whole block, inserted at the index, unless renumbering so many items reaches the limit. -/
theorem reorder_lands (list : List Placed) (hs : list.Pairwise fun a b => compareOrdered a b ≤ 0)
    (hn : (list.map Placed.id).Nodup) (hv : Valid list) :
    (∀ m ∈ list, ∀ index : Int,
      let rest := list.filter fun x => x.id ≠ m.id
      (∃ us, reorder list m.id index = .ok us ∧ sorted (list.map (updated us)) =
        (inserted rest [m] (clampIndex index rest.length)).map (updated us)) ∨ RenumberingFails list.length) ∧
    ∀ (block : List Placed) (blockLevels : List Int) (index : Int), ((block ++ list).map Placed.id).Nodup →
      (∃ us, placeBlock list block blockLevels index = .ok us ∧ sorted ((block ++ list).map (updated us)) =
        (inserted list block (clampIndex index list.length)).map (updated us)) ∨
        RenumberingFails (block ++ list).length := by
  have ha := ascending_of_sorted hs hn
  constructor
  · intro m hm index rest
    have hperm : (m :: rest).Perm list := filter_perm hm hn
    have hsub : rest.Sublist list := List.filter_sublist
    have hcases := reorder_ascending list m ((hperm.map Placed.id).nodup_iff.2 hn) (ha.sublist hsub)
      (fun x hx => hv x (hsub.subset hx)) index
    rw [hperm.length_eq] at hcases
    refine hcases.imp_left fun ⟨us, hus, hasc⟩ => ⟨us, hus, ?_⟩
    exact sorted_of_perm hasc ((hperm.symm.trans (inserted_perm rest [m] _).symm).map _)
  · intro block blockLevels index hnb
    refine (placeBlock_ascending hnb ha hv blockLevels index).imp_left fun ⟨us, hus, hasc⟩ => ⟨us, hus, ?_⟩
    exact sorted_of_perm hasc ((inserted_perm list block _).symm.map _)

/-- Two pages of one key, and one without. -/
def tiedPages : List Placed := [⟨"a", none, some "i", none⟩, ⟨"b", none, some "i", none⟩, ⟨"c", none, none, none⟩]

/-- The page without a key goes between the tied ones. -/
theorem reorder_lands_tied : ∃ us, reorder tiedPages "c" 1 = .ok us ∧
    sorted (tiedPages.map (updated us)) =
      (inserted (tiedPages.filter fun x => x.id ≠ "c") [⟨"c", none, none, none⟩] 1).map (updated us) := by
  have hv : Valid tiedPages := by
    intro x hx
    simp only [tiedPages, List.mem_cons, List.not_mem_nil, or_false] at hx
    obtain rfl | rfl | rfl := hx
    · rintro k ⟨⟩
      decide
    · rintro k ⟨⟩
      decide
    · rintro k ⟨⟩
  obtain h | h := (reorder_lands tiedPages (by decide) (by decide) hv).1 ⟨"c", none, none, none⟩ (by decide) 1
  · exact h
  · exact absurd h (by unfold RenumberingFails; decide +kernel)

end Moves

end KyNotes.Outline
