import Mathlib.Data.List.Nodup
import Mathlib.Data.List.Perm.Lattice
import Mathlib.Algebra.BigOperators.Group.List.Basic
import Mathlib.Algebra.GroupWithZero.Nat

/-!
# Relational tables with a primary key

A table is a list of rows whose keys are pairwise distinct; the proof of this is a field, so no operation can build a
table with two rows of one key. The operations are those of SQL: `get` (a select by key), `insert` (refused when the
key is taken), `insertOrIgnore` and `insertAll` (`ON CONFLICT DO NOTHING`), `upsert` (`ON CONFLICT DO UPDATE`), `update`
and `delete` with a condition, `total` (a sum over the rows that meet a condition).

Every operation has a membership lemma (`mem_insert`, `mem_update`, `mem_delete`) and a lookup lemma (`get_insert`,
`get_update`, `get_delete`); a proof about a transaction needs no other fact about lists.
-/

namespace Relational

variable {ρ κ : Type}

/-- Rows with pairwise distinct keys. -/
structure Table (key : ρ → κ) where
  rows : List ρ
  nodup : (rows.map key).Nodup

namespace Table

variable {key : ρ → κ}

instance : Membership ρ (Table key) := ⟨fun t r => r ∈ t.rows⟩

theorem mem_def {t : Table key} {r : ρ} : r ∈ t ↔ r ∈ t.rows := Iff.rfl

theorem ext_rows {t t' : Table key} (h : t.rows = t'.rows) : t = t' := by
  cases t
  cases t'
  cases h
  rfl

/-- The table without rows. -/
def empty : Table key := ⟨[], List.nodup_nil⟩

instance : Inhabited (Table key) := ⟨empty⟩

instance decidableEq [DecidableEq ρ] : DecidableEq (Table key)
  | ⟨rows, _⟩, ⟨rows', _⟩ => decidable_of_iff (rows = rows') ⟨fun h => by subst h; rfl, fun h => congrArg Table.rows h⟩

@[simp] theorem not_mem_empty (r : ρ) : r ∉ (empty : Table key) := List.not_mem_nil

instance decidableMem [DecidableEq ρ] (t : Table key) (r : ρ) : Decidable (r ∈ t) :=
  inferInstanceAs (Decidable (r ∈ t.rows))

instance decidableBex (t : Table key) (p : ρ → Prop) [DecidablePred p] : Decidable (∃ r ∈ t, p r) :=
  inferInstanceAs (Decidable (∃ r ∈ t.rows, p r))

instance decidableBall (t : Table key) (p : ρ → Prop) [DecidablePred p] : Decidable (∀ r ∈ t, p r) :=
  inferInstanceAs (Decidable (∀ r ∈ t.rows, p r))

/-- Two rows of one key are one row. -/
theorem eq_of_key {t : Table key} {r s : ρ} (hr : r ∈ t) (hs : s ∈ t) (h : key r = key s) : r = s :=
  List.inj_on_of_nodup_map t.nodup hr hs h

/-! ## Lookup by key -/

section Get

variable [DecidableEq κ]

/-- The row with a key. -/
def get (t : Table key) (k : κ) : Option ρ := t.rows.find? fun r => key r = k

theorem get_eq_some {t : Table key} {k : κ} {r : ρ} : t.get k = some r ↔ r ∈ t ∧ key r = k := by
  constructor
  · intro h
    exact ⟨List.mem_of_find?_eq_some h, by simpa using List.find?_some h⟩
  · rintro ⟨hr, rfl⟩
    cases hg : t.get (key r) with
    | none =>
      have := List.find?_eq_none.mp hg r hr
      simp at this
    | some s =>
      have hs : s ∈ t := List.mem_of_find?_eq_some hg
      have hk : key s = key r := by simpa using List.find?_some hg
      rw [eq_of_key hs hr hk]

theorem get_mem {t : Table key} {k : κ} {r : ρ} (h : t.get k = some r) : r ∈ t := (get_eq_some.mp h).1

theorem get_key {t : Table key} {k : κ} {r : ρ} (h : t.get k = some r) : key r = k := (get_eq_some.mp h).2

theorem get_of_mem {t : Table key} {r : ρ} (h : r ∈ t) : t.get (key r) = some r := get_eq_some.mpr ⟨h, rfl⟩

theorem get_eq_none {t : Table key} {k : κ} : t.get k = none ↔ ∀ r ∈ t, key r ≠ k := by
  unfold get
  rw [List.find?_eq_none]
  simp [mem_def]

@[simp] theorem get_empty (k : κ) : (empty : Table key).get k = none := rfl

/-- A key is taken when some row has it. -/
theorem get_isSome {t : Table key} {k : κ} : (t.get k).isSome ↔ ∃ r ∈ t, key r = k := by
  rw [Option.isSome_iff_exists]
  constructor
  · rintro ⟨r, hr⟩; exact ⟨r, get_mem hr, get_key hr⟩
  · rintro ⟨r, hr, rfl⟩; exact ⟨r, get_of_mem hr⟩

/-! ## Insert -/

/-- `INSERT`: refused when the key is taken. -/
def insert (t : Table key) (r : ρ) : Option (Table key) :=
  if h : t.get (key r) = none then
    some ⟨t.rows ++ [r], by
      rw [List.map_append, List.map_singleton]
      refine List.nodup_append.mpr ⟨t.nodup, List.nodup_singleton _, ?_⟩
      intro a ha b hb hab
      obtain ⟨s, hs, rfl⟩ := List.mem_map.mp ha
      rw [List.mem_singleton] at hb
      exact get_eq_none.mp h s hs (hab.trans hb)⟩
  else none

theorem insert_rows {t t' : Table key} {r : ρ} (h : t.insert r = some t') : t'.rows = t.rows ++ [r] := by
  unfold insert at h
  split at h
  · cases h; rfl
  · cases h

theorem insert_fresh {t t' : Table key} {r : ρ} (h : t.insert r = some t') : t.get (key r) = none := by
  unfold insert at h
  split at h
  · assumption
  · cases h

theorem insert_isSome {t : Table key} {r : ρ} : (t.insert r).isSome ↔ t.get (key r) = none := by
  unfold insert
  split <;> simp_all

theorem insert_eq_none {t : Table key} {r : ρ} (h : t.insert r = none) : ∃ s ∈ t, key s = key r := by
  rw [← get_isSome]
  cases hg : t.get (key r) with
  | none => have := insert_isSome.mpr hg; rw [h] at this; cases this
  | some s => rfl

theorem mem_insert {t t' : Table key} {r s : ρ} (h : t.insert r = some t') : s ∈ t' ↔ s ∈ t ∨ s = r := by
  rw [mem_def, insert_rows h, List.mem_append, List.mem_singleton, ← mem_def]

theorem get_insert {t t' : Table key} {r : ρ} (h : t.insert r = some t') (k : κ) :
    t'.get k = if key r = k then some r else t.get k := by
  split
  · rename_i hk
    exact get_eq_some.mpr ⟨(mem_insert h).mpr (Or.inr rfl), hk⟩
  · rename_i hk
    cases hg : t.get k with
    | none =>
      rw [get_eq_none]
      intro s hs
      rcases (mem_insert h).mp hs with hs | rfl
      · exact get_eq_none.mp hg s hs
      · exact hk
    | some s => exact get_eq_some.mpr ⟨(mem_insert h).mpr (Or.inl (get_mem hg)), get_key hg⟩

/-- `INSERT ... ON CONFLICT DO NOTHING`. -/
def insertOrIgnore (t : Table key) (r : ρ) : Table key := (t.insert r).getD t

theorem mem_insertOrIgnore {t : Table key} {r s : ρ} :
    s ∈ t.insertOrIgnore r ↔ s ∈ t ∨ (s = r ∧ t.get (key r) = none) := by
  unfold insertOrIgnore
  cases h : t.insert r with
  | none =>
    obtain ⟨x, hx, hk⟩ := insert_eq_none h
    have hne : t.get (key r) ≠ none := by rw [← hk, get_of_mem hx]; simp
    simp [hne]
  | some t' =>
    rw [Option.getD_some, mem_insert h]
    simp [insert_fresh h]

theorem get_insertOrIgnore (t : Table key) (r : ρ) (k : κ) :
    (t.insertOrIgnore r).get k = (t.get k).or (if key r = k then some r else none) := by
  unfold insertOrIgnore
  cases h : t.insert r with
  | none =>
    obtain ⟨x, hx, hk⟩ := insert_eq_none h
    rw [Option.getD_none]
    split
    · rename_i hr
      rw [← hr, ← hk, get_of_mem hx]; rfl
    · simp
  | some t' =>
    rw [Option.getD_some, get_insert h]
    split
    · rename_i hr
      rw [← hr, insert_fresh h]; rfl
    · simp

/-- `INSERT ... SELECT`, row by row. -/
def insertAll (t : Table key) : List ρ → Table key
  | [] => t
  | r :: rs => (t.insertOrIgnore r).insertAll rs

theorem mem_of_mem_insertAll {s : ρ} : ∀ {l : List ρ} {t : Table key}, s ∈ t.insertAll l → s ∈ t ∨ s ∈ l
  | [], _, h => Or.inl h
  | r :: rs, t, h => by
    rcases mem_of_mem_insertAll (l := rs) h with h | h
    · rcases mem_insertOrIgnore.mp h with h | ⟨rfl, _⟩
      · exact Or.inl h
      · exact Or.inr (by simp)
    · exact Or.inr (List.mem_cons_of_mem _ h)

/-- Old rows stay. -/
theorem get_insertAll_of_some {k : κ} {s : ρ} :
    ∀ {l : List ρ} {t : Table key}, t.get k = some s → (t.insertAll l).get k = some s
  | [], _, h => h
  | r :: rs, t, h => get_insertAll_of_some (l := rs) (by rw [get_insertOrIgnore, h]; rfl)

/-- Every listed key is taken afterwards, by the listed row unless the key was taken before. -/
theorem get_insertAll_of_mem {r : ρ} : ∀ {l : List ρ} {t : Table key}, r ∈ l →
    (∀ s ∈ l, key s = key r → s = r) → t.get (key r) = none → (t.insertAll l).get (key r) = some r
  | [], _, h, _, _ => absurd h List.not_mem_nil
  | s :: rs, t, h, hu, hn => by
    by_cases hk : key s = key r
    · have hs : s = r := hu s (by simp) hk
      subst hs
      exact get_insertAll_of_some (l := rs) (by rw [get_insertOrIgnore, hn]; simp)
    · have hr : r ∈ rs := by
        rcases List.mem_cons.mp h with rfl | h
        · exact absurd rfl hk
        · exact h
      exact get_insertAll_of_mem (l := rs) hr (fun s' hs' => hu s' (List.mem_cons_of_mem _ hs'))
        (by rw [get_insertOrIgnore, hn]; simp [hk])

end Get

/-! ## Update -/

section Update

variable [DecidableEq κ] (t : Table key) (p : ρ → Prop) [DecidablePred p] (f : ρ → ρ)

/-- `UPDATE ... SET f WHERE p`. A row whose key `f` would change stays as it is; the lemmas ask that there is none. -/
def update : Table key where
  rows := t.rows.map fun r => if p r ∧ key (f r) = key r then f r else r
  nodup := by
    rw [List.map_map]
    have : (key ∘ fun r => if p r ∧ key (f r) = key r then f r else r) = key := by
      funext r
      simp only [Function.comp_apply]
      split
      · rename_i h; exact h.2
      · rfl
    rw [this]
    exact t.nodup

variable {t p f}

theorem mem_update {s : ρ} (hf : ∀ r, key (f r) = key r := by intro _; rfl) :
    s ∈ t.update p f ↔ ∃ r ∈ t, s = if p r then f r else r := by
  simp only [mem_def, update, List.mem_map, hf, and_true, eq_comm]

/-- A row of the updated table is a row that the condition missed, or the update of one that it hit. -/
theorem mem_update_cases {s : ρ} (h : s ∈ t.update p f) (hf : ∀ r, key (f r) = key r := by intro _; rfl) :
    (s ∈ t ∧ ¬p s) ∨ ∃ r ∈ t, p r ∧ s = f r := by
  obtain ⟨r, hr, rfl⟩ := (mem_update hf).mp h
  split
  · exact Or.inr ⟨r, hr, ‹_›, rfl⟩
  · exact Or.inl ⟨hr, ‹_›⟩

theorem mem_update_of_not {r : ρ} (hr : r ∈ t) (hp : ¬p r) : r ∈ t.update p f :=
  List.mem_map.mpr ⟨r, hr, if_neg fun h => hp h.1⟩

theorem mem_update_of {r : ρ} (hr : r ∈ t) (hp : p r) (hf : ∀ r, key (f r) = key r := by intro _; rfl) :
    f r ∈ t.update p f :=
  (mem_update hf).mpr ⟨r, hr, by rw [if_pos hp]⟩

theorem get_update (k : κ) (hf : ∀ r, key (f r) = key r := by intro _; rfl) :
    (t.update p f).get k = (t.get k).map fun r => if p r then f r else r := by
  have hkey : ∀ r, key (if p r then f r else r) = key r := by
    intro r; split
    · exact hf r
    · rfl
  cases hg : t.get k with
  | none =>
    rw [Option.map_none, get_eq_none]
    intro s hs
    obtain ⟨r, hr, rfl⟩ := (mem_update hf).mp hs
    rw [hkey]
    exact get_eq_none.mp hg r hr
  | some r =>
    rw [Option.map_some, get_eq_some]
    exact ⟨(mem_update hf).mpr ⟨r, get_mem hg, rfl⟩, by rw [hkey]; exact get_key hg⟩

/-- An update of one row, in its place. -/
theorem update_split {k : κ} {r : ρ} (h : t.get k = some r) (hf : ∀ r, key (f r) = key r := by intro _; rfl) :
    ∃ l₁ l₂, t.rows = l₁ ++ r :: l₂ ∧ (t.update (fun r => key r = k) f).rows = l₁ ++ f r :: l₂ := by
  obtain ⟨hr, hk⟩ := get_eq_some.1 h
  obtain ⟨l₁, l₂, hl⟩ := List.append_of_mem (mem_def.1 hr)
  have hn := t.nodup
  rw [hl, List.map_append, List.map_cons, List.nodup_append, List.nodup_cons] at hn
  -- no other row has the key
  have h₁ : ∀ x ∈ l₁, key x ≠ k := fun x hx => hk ▸ hn.2.2 _ (List.mem_map_of_mem hx) _ List.mem_cons_self
  have h₂ : ∀ x ∈ l₂, key x ≠ k := fun x hx he => hn.2.1.1 (by rw [hk, ← he]; exact List.mem_map_of_mem hx)
  have hid : ∀ l : List ρ, (∀ x ∈ l, key x ≠ k) → (l.map fun r => if key r = k ∧ key (f r) = key r then f r else r) = l := by
    intro l hl
    have hc : ∀ x ∈ l, (if key x = k ∧ key (f x) = key x then f x else x) = id x := fun x hx =>
      if_neg fun h => hl x hx h.1
    rw [List.map_congr_left hc, List.map_id]
  refine ⟨l₁, l₂, hl, ?_⟩
  show t.rows.map (fun r => if key r = k ∧ key (f r) = key r then f r else r) = l₁ ++ f r :: l₂
  rw [hl, List.map_append, List.map_cons, hid l₁ h₁, hid l₂ h₂, if_pos ⟨hk, hf r⟩]

end Update

/-! ## Upsert -/

section Upsert

variable [DecidableEq κ] (t : Table key) (r : ρ) (f : ρ → ρ)

/-- `INSERT ... ON CONFLICT(key) DO UPDATE SET f`. -/
def upsert : Table key :=
  match t.insert r with
  | some t' => t'
  | none => t.update (fun x => key x = key r) f

variable {t r f}

theorem get_upsert (k : κ) (hf : ∀ x, key (f x) = key x := by intro _; rfl) :
    (t.upsert r f).get k = if key r = k then some ((t.get k).elim r f) else t.get k := by
  unfold upsert
  cases h : t.insert r with
  | some t' =>
    simp only [get_insert h]
    split
    · rename_i hk
      rw [← hk, insert_fresh h]; rfl
    · rfl
  | none =>
    obtain ⟨x, hx, hk⟩ := insert_eq_none h
    simp only [get_update k hf]
    split
    · rename_i hr
      rw [← hr, ← hk, get_of_mem hx]
      simp
    · rename_i hr
      cases hg : t.get k with
      | none => rfl
      | some y =>
        have hy : key y ≠ key r := fun h => hr (h.symm.trans (get_key hg))
        simp [hy]

/-- A row of the result is the written row of the key or an old row of another one. -/
theorem mem_upsert {s : ρ} (hf : ∀ x, key (f x) = key x := by intro _; rfl) :
    s ∈ t.upsert r f ↔ (s ∈ t ∧ key s ≠ key r) ∨ (key s = key r ∧ s = (t.get (key r)).elim r f) := by
  rw [← show (t.upsert r f).get (key s) = some s ↔ s ∈ t.upsert r f from ⟨get_mem, get_of_mem⟩, get_upsert _ hf]
  by_cases hk : key r = key s
  · simp [hk, eq_comm]
  · have hk' : key s ≠ key r := fun h => hk h.symm
    simp [hk, hk', get_eq_some]

end Upsert

/-! ## Delete -/

section Delete

variable (t : Table key) (p : ρ → Prop) [DecidablePred p]

/-- `DELETE ... WHERE p`. -/
def delete : Table key where
  rows := t.rows.filter fun r => ¬p r
  nodup := t.nodup.sublist (List.filter_sublist.map key)

variable {t p}

@[simp] theorem mem_delete {r : ρ} : r ∈ t.delete p ↔ r ∈ t ∧ ¬p r := by
  simp [mem_def, delete, List.mem_filter]

theorem delete_of_forall_not (h : ∀ r ∈ t, ¬p r) : t.delete p = t :=
  ext_rows (List.filter_eq_self.2 fun r hr => by simpa using h r hr)

/-- A select that asks for none of the deleted rows answers as before. -/
theorem filter_delete {q : ρ → Bool} (h : ∀ r ∈ t, q r = true → ¬p r) :
    (t.delete p).rows.filter q = t.rows.filter q := by
  rw [delete, List.filter_filter]
  refine List.filter_congr fun r hr => ?_
  cases hq : q r with
  | false => simp
  | true => simpa using h r hr hq

theorem get_delete [DecidableEq κ] (k : κ) : (t.delete p).get k = (t.get k).filter fun r => ¬p r := by
  cases hg : t.get k with
  | none =>
    rw [Option.filter_none, get_eq_none]
    intro s hs
    exact get_eq_none.mp hg s (mem_delete.mp hs).1
  | some r =>
    by_cases hp : p r
    · rw [Option.filter_some_neg (by simpa using hp), get_eq_none]
      intro s hs hk
      have := eq_of_key (mem_delete.mp hs).1 (get_mem hg) (hk.trans (get_key hg).symm)
      subst this
      exact (mem_delete.mp hs).2 hp
    · rw [Option.filter_some_pos (by simpa using hp)]
      exact get_eq_some.mpr ⟨mem_delete.mpr ⟨get_mem hg, hp⟩, get_key hg⟩

/-- A row that stays is found as before. -/
theorem get_delete_of_not [DecidableEq κ] {k : κ} (h : ∀ r ∈ t, key r = k → ¬p r) : (t.delete p).get k = t.get k := by
  rw [get_delete]
  cases hg : t.get k with
  | none => rfl
  | some r => exact Option.filter_some_pos (by simpa using h r (get_mem hg) (get_key hg))

end Delete

/-! ## Sums -/

/-- `SELECT COALESCE(SUM(g),0) ... WHERE p`. -/
def total (t : Table key) (p : ρ → Prop) [DecidablePred p] (g : ρ → Nat) : Nat :=
  ((t.rows.filter fun r => p r).map g).sum

/-! ## Counts -/

/-- `SELECT COUNT(*) ... WHERE p`. -/
def count (t : Table key) (p : ρ → Prop) [DecidablePred p] : Nat := t.rows.countP fun r => p r

variable {t t' : Table key} {p q : ρ → Prop} [DecidablePred p] [DecidablePred q]

theorem count_insert [DecidableEq κ] {r : ρ} (h : t.insert r = some t') :
    t'.count p = t.count p + if p r then 1 else 0 := by
  unfold count
  rw [insert_rows h, List.countP_append, List.countP_singleton]
  simp only [decide_eq_true_eq]

theorem count_delete_le : (t.delete p).count q ≤ t.count q := List.filter_sublist.countP_le

theorem count_update [DecidableEq κ] {f : ρ → ρ} (hf : ∀ r, key (f r) = key r) (hq : ∀ r, q (f r) ↔ q r) :
    (t.update p f).count q = t.count q := by
  unfold count update
  rw [List.countP_map]
  refine List.countP_congr fun r _ => ?_
  simp only [Function.comp_apply, hf, and_true, decide_eq_true_eq]
  split
  · exact hq r
  · rfl

theorem count_mono (h : ∀ r ∈ t, p r → q r) : t.count p ≤ t.count q :=
  List.countP_mono_left fun r hr hp => decide_eq_true (h r hr (of_decide_eq_true hp))

end Table

end Relational
