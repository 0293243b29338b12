import KyNotes.Lib.Table

/-!
# Object stores with an in-line key

An object store of a browser is a table whose key is read off the row: `put` replaces the row of its key and `remove`
deletes by key. `get_put` and `get_remove` say what a key finds afterwards; with `get_empty` no proof about a store needs
its rows.
-/

namespace Relational.Table

variable {ρ κ : Type} [DecidableEq κ] {key : ρ → κ}

/-- `delete(key)`. -/
def remove (t : Table key) (k : κ) : Table key := t.delete fun r => key r = k

/-- `put(row)`: the row replaces the one of its key. -/
def put (t : Table key) (r : ρ) : Table key where
  rows := (t.remove (key r)).rows ++ [r]
  nodup := by
    rw [List.map_append, List.map_singleton]
    refine List.nodup_append.mpr ⟨(t.remove (key r)).nodup, List.nodup_singleton _, ?_⟩
    intro a ha b hb hab
    obtain ⟨s, hs, rfl⟩ := List.mem_map.mp ha
    rw [List.mem_singleton] at hb
    exact (mem_delete.mp hs).2 (hab.trans hb)

variable {t : Table key} {r : ρ}

theorem mem_remove {s : ρ} {k : κ} : s ∈ t.remove k ↔ s ∈ t ∧ key s ≠ k := mem_delete

theorem mem_put {s : ρ} : s ∈ t.put r ↔ s = r ∨ s ∈ t ∧ key s ≠ key r := by
  have h : s ∈ t.put r ↔ s ∈ (t.remove (key r)).rows ++ [r] := Iff.rfl
  rw [h, List.mem_append, List.mem_singleton, ← mem_def, mem_remove, or_comm]

theorem get_remove (k k' : κ) : (t.remove k).get k' = if k' = k then none else t.get k' := by
  unfold remove
  rw [get_delete]
  cases hg : t.get k' with
  | none => simp
  | some s =>
    rw [← get_key hg]
    by_cases h : key s = k
    · rw [if_pos h, Option.filter_some, if_neg (by simpa using h)]
    · rw [if_neg h, Option.filter_some, if_pos (by simpa using h)]

theorem get_put (k : κ) : (t.put r).get k = if k = key r then some r else t.get k := by
  by_cases h : k = key r
  · rw [if_pos h, get_eq_some]
    exact ⟨mem_put.mpr (Or.inl rfl), h.symm⟩
  · rw [if_neg h]
    cases hg : t.get k with
    | none =>
      refine get_eq_none.mpr fun s hs => ?_
      rcases mem_put.mp hs with rfl | ⟨hs, -⟩
      · exact Ne.symm h
      · exact get_eq_none.mp hg s hs
    | some s =>
      obtain ⟨hs, rfl⟩ := get_eq_some.mp hg
      exact get_eq_some.mpr ⟨mem_put.mpr (Or.inr ⟨hs, h⟩), rfl⟩

@[simp] theorem get_put_self : (t.put r).get (key r) = some r := by
  rw [get_put, if_pos rfl]

theorem get_put_of {k : κ} (h : key r = k) : (t.put r).get k = some r := by
  rw [get_put, if_pos h.symm]

theorem get_put_ne {k : κ} (h : k ≠ key r) : (t.put r).get k = t.get k := by
  rw [get_put, if_neg h]

@[simp] theorem get_remove_self (k : κ) : (t.remove k).get k = none := by
  rw [get_remove, if_pos rfl]

theorem get_remove_ne {k k' : κ} (h : k' ≠ k) : (t.remove k).get k' = t.get k' := by
  rw [get_remove, if_neg h]

end Relational.Table
