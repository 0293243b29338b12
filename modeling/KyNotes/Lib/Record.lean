import KyNotes.Lib.Table

/-!
# Records in insertion order

A record maps keys to values and remembers the order in which its keys were first set, as the objects and the maps of
JavaScript do. `set` writes one entry in place or at the end, `spread a b` is `{ ...a, ...b }`. The lookup lemmas
(`lookup_set`, `lookup_spread`) and `mem_iff` are its interface.
-/

namespace Relational

/-- Entries with pairwise distinct keys, in the order of insertion. -/
abbrev Record (κ ν : Type) := Table (Prod.fst : κ × ν → κ)

namespace Record

variable {κ ν : Type} [DecidableEq κ]

/-- `record[k]`. -/
def lookup (t : Record κ ν) (k : κ) : Option ν := (t.get k).map Prod.snd

theorem lookup_eq_some {t : Record κ ν} {k : κ} {v : ν} : t.lookup k = some v ↔ (k, v) ∈ t := by
  unfold lookup
  rw [Option.map_eq_some_iff]
  constructor
  · rintro ⟨⟨k', v'⟩, hg, rfl⟩
    obtain ⟨hm, rfl⟩ := Table.get_eq_some.mp hg
    exact hm
  · intro hm
    exact ⟨(k, v), Table.get_of_mem hm, rfl⟩

@[simp] theorem lookup_empty (k : κ) : lookup (Table.empty : Record κ ν) k = none := rfl

/-- `record[k] = v`: in place when the key is there, at the end otherwise. -/
def set (t : Record κ ν) (k : κ) (v : ν) : Record κ ν where
  rows := if (t.get k).isSome then t.rows.map (fun r => if r.1 = k then (k, v) else r) else t.rows ++ [(k, v)]
  nodup := by
    split
    · have h : (t.rows.map fun r => if r.1 = k then (k, v) else r).map Prod.fst = t.rows.map Prod.fst := by
        rw [List.map_map]
        refine List.map_congr_left fun r _ => ?_
        by_cases hr : r.1 = k
        · simp [hr]
        · simp [hr]
      rw [h]
      exact t.nodup
    · rename_i h
      rw [List.map_append, List.map_singleton]
      refine List.nodup_append.mpr ⟨t.nodup, List.nodup_singleton _, ?_⟩
      intro a ha b hb hab
      obtain ⟨s, hs, rfl⟩ := List.mem_map.mp ha
      rw [List.mem_singleton] at hb
      exact h (Table.get_isSome.mpr ⟨s, hs, hab.trans hb⟩)

theorem mem_set {t : Record κ ν} {k k' : κ} {v v' : ν} :
    (k', v') ∈ t.set k v ↔ k' = k ∧ v' = v ∨ k' ≠ k ∧ (k', v') ∈ t := by
  have hdef : (k', v') ∈ t.set k v ↔ (k', v') ∈ (if (t.get k).isSome then
      t.rows.map (fun r => if r.1 = k then (k, v) else r) else t.rows ++ [(k, v)]) := Iff.rfl
  rw [hdef]
  split
  · rename_i h
    obtain ⟨⟨k₀, v₀⟩, hm, rfl⟩ := Table.get_isSome.mp h
    rw [List.mem_map]
    constructor
    · rintro ⟨⟨k₁, v₁⟩, hr, heq⟩
      by_cases hk : k₁ = k₀
      · rw [if_pos hk] at heq
        cases heq
        exact Or.inl ⟨rfl, rfl⟩
      · rw [if_neg hk] at heq
        cases heq
        exact Or.inr ⟨hk, hr⟩
    · rintro (⟨rfl, rfl⟩ | ⟨hk, hr⟩)
      · exact ⟨_, hm, if_pos rfl⟩
      · exact ⟨_, hr, if_neg hk⟩
  · rename_i h
    rw [List.mem_append, List.mem_singleton, Prod.mk.injEq]
    constructor
    · rintro (hr | hkv)
      · refine Or.inr ⟨fun hk => h (Table.get_isSome.mpr ⟨_, hr, hk⟩), hr⟩
      · exact Or.inl hkv
    · rintro (hkv | ⟨-, hr⟩)
      · exact Or.inr hkv
      · exact Or.inl hr

theorem lookup_set {t : Record κ ν} {k k' : κ} {v : ν} :
    (t.set k v).lookup k' = if k' = k then some v else t.lookup k' := by
  by_cases h : k' = k
  · rw [if_pos h, lookup_eq_some]
    exact mem_set.mpr (Or.inl ⟨h, rfl⟩)
  · rw [if_neg h]
    refine Option.ext fun w => ?_
    rw [lookup_eq_some, lookup_eq_some, mem_set]
    exact ⟨fun hm => (hm.resolve_left fun hk => h hk.1).2, fun hm => Or.inr ⟨h, hm⟩⟩

@[simp] theorem lookup_set_self {t : Record κ ν} {k : κ} {v : ν} : (t.set k v).lookup k = some v := by
  rw [lookup_set, if_pos rfl]

theorem lookup_set_ne {t : Record κ ν} {k k' : κ} {v : ν} (h : k' ≠ k) : (t.set k v).lookup k' = t.lookup k' := by
  rw [lookup_set, if_neg h]

theorem length_set {t : Record κ ν} {k : κ} {v : ν} :
    (t.set k v).rows.length = if (t.lookup k).isSome then t.rows.length else t.rows.length + 1 := by
  simp only [set, lookup, Option.isSome_map]
  split <;> simp

/-- `{ ...a, ...b }`. -/
def spread (a b : Record κ ν) : Record κ ν := b.rows.foldl (fun t r => t.set r.1 r.2) a

theorem lookup_foldl_set (k : κ) : ∀ {rows : List (κ × ν)} {a : Record κ ν}, (rows.map Prod.fst).Nodup →
    (rows.foldl (fun t r => t.set r.1 r.2) a).lookup k =
      ((rows.find? fun r => r.1 = k).map Prod.snd).or (a.lookup k)
  | [], _, _ => rfl
  | (k₀, v₀) :: rows, a, h => by
    rw [List.map_cons, List.nodup_cons] at h
    rw [List.foldl_cons, lookup_foldl_set k h.2, lookup_set, List.find?_cons]
    by_cases hk : k = k₀
    · subst hk
      have hnone : rows.find? (fun r => decide (r.1 = k)) = none := by
        rw [List.find?_eq_none]
        intro r hr hrk
        exact h.1 (List.mem_map.mpr ⟨r, hr, of_decide_eq_true hrk⟩)
      rw [hnone, if_pos rfl]
      simp
    · have hk' : ¬k₀ = k := fun h => hk h.symm
      simp [hk, hk']

/-- The right entries win. -/
theorem lookup_spread {a b : Record κ ν} {k : κ} : (spread a b).lookup k = (b.lookup k).or (a.lookup k) :=
  lookup_foldl_set k b.nodup

end Record

end Relational
