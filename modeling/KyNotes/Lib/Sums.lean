import Mathlib.Algebra.Order.BigOperators.Group.Finset
import KyNotes.Lib.Table

/-!
# Comparing sums over tables

A sum over the rows of a table is a sum over keys (`total_eq_sum`): what a transaction does to it is read off row by row.
`total_le` is for tables whose rows only shrink, `total_le_add` lets one key grow by a given amount, and `total_insert_le` is for
one row more.
-/

namespace Relational

namespace Table

variable {ρ κ : Type} {key : ρ → κ} [DecidableEq κ] {t t' : Table key} {p p' : ρ → Prop} [DecidablePred p]
  [DecidablePred p'] {g g' : ρ → Nat}

/-- What the row of a key adds to a sum. -/
def charge (t : Table key) (p : ρ → Prop) [DecidablePred p] (g : ρ → Nat) (k : κ) : Nat :=
  (t.get k).elim 0 fun r => if p r then g r else 0

theorem charge_of_mem {r : ρ} (h : r ∈ t) : t.charge p g (key r) = if p r then g r else 0 := by
  rw [charge, get_of_mem h]
  rfl

theorem charge_of_not_mem {k : κ} (h : ∀ r ∈ t, key r ≠ k) : t.charge p g k = 0 := by
  rw [charge, get_eq_none.mpr h]
  rfl

theorem charge_of_not {k : κ} (h : ∀ r ∈ t, key r = k → ¬p r) : t.charge p g k = 0 := by
  by_cases hk : ∃ r ∈ t, key r = k
  · obtain ⟨r, hr, rfl⟩ := hk
    rw [charge_of_mem hr, if_neg (h r hr rfl)]
  · exact charge_of_not_mem fun r hr hrk => hk ⟨r, hr, hrk⟩

theorem sum_filter (p : ρ → Prop) [DecidablePred p] (g : ρ → Nat) (rows : List ρ) :
    ((rows.filter fun r => p r).map g).sum = (rows.map fun r => if p r then g r else 0).sum := by
  induction rows with
  | nil => rfl
  | cons r rows ih =>
    by_cases hp : p r
    · rw [List.filter_cons_of_pos (by simpa using hp), List.map_cons, List.sum_cons, ih, List.map_cons, List.sum_cons,
        if_pos hp]
    · rw [List.filter_cons_of_neg (by simpa using hp), ih, List.map_cons, List.sum_cons, if_neg hp, Nat.zero_add]

/-- A sum over rows is a sum over any keys that are all of theirs. -/
theorem total_eq_sum (p : ρ → Prop) [DecidablePred p] (g : ρ → Nat) {s : Finset κ} (hs : ∀ r ∈ t, key r ∈ s) :
    t.total p g = ∑ k ∈ s, t.charge p g k := by
  have hkeys : t.total p g = ∑ k ∈ (t.rows.map key).toFinset, t.charge p g k := by
    rw [List.sum_toFinset _ t.nodup, List.map_map, total, sum_filter]
    refine congrArg List.sum (List.map_congr_left ?_)
    intro r hr
    exact (charge_of_mem hr).symm
  rw [hkeys]
  refine Finset.sum_subset ?_ ?_
  · intro k hk
    obtain ⟨r, hr, rfl⟩ := List.mem_map.mp (List.mem_toFinset.mp hk)
    exact hs r hr
  · intro k _ hk
    refine charge_of_not_mem ?_
    rintro r hr rfl
    exact hk (List.mem_toFinset.mpr (List.mem_map.mpr ⟨r, hr, rfl⟩))

/-- The keys of a table. -/
def keys (t : Table key) : Finset κ := (t.rows.map key).toFinset

theorem mem_keys {r : ρ} (h : r ∈ t) : key r ∈ t.keys := List.mem_toFinset.mpr (List.mem_map.mpr ⟨r, h, rfl⟩)

/-- A sum is what one row adds and the sum over the others. -/
theorem total_split (p : ρ → Prop) [DecidablePred p] (g : ρ → Nat) (k : κ) :
    t.total p g = t.charge p g k + (t.delete fun r => key r = k).total p g := by
  have hrest : ∀ r ∈ t.delete fun r => key r = k, key r ∈ (Insert.insert k t.keys).erase k := by
    intro r hr
    obtain ⟨hr, hne⟩ := mem_delete.mp hr
    exact Finset.mem_erase.mpr ⟨hne, Finset.mem_insert_of_mem (mem_keys hr)⟩
  rw [total_eq_sum p g fun _ hr => Finset.mem_insert_of_mem (mem_keys hr), total_eq_sum p g hrest,
    ← Finset.add_sum_erase _ _ (Finset.mem_insert_self k t.keys)]
  refine congrArg (t.charge p g k + ·) (Finset.sum_congr rfl ?_)
  intro x hx
  have hne : x ≠ k := (Finset.mem_erase.mp hx).1
  rw [charge, charge, get_delete]
  cases hg : t.get x with
  | none => rfl
  | some r => rw [Option.filter_some_pos (by simpa [get_key hg] using hne)]

/-- A row of a key counts in the table, for at least as much. -/
def Counted (t : Table key) (p : ρ → Prop) (g : ρ → Nat) (k : κ) (n : Nat) : Prop := ∃ s ∈ t, key s = k ∧ p s ∧ n ≤ g s

theorem Counted.le_charge {k : κ} {n : Nat} (h : Counted t p g k n) : n ≤ t.charge p g k := by
  obtain ⟨s, hs, rfl, hp, hn⟩ := h
  rw [charge_of_mem hs, if_pos hp]
  exact hn

/-- Every row that counts did so before, for at least as much. -/
theorem total_le (h : ∀ r ∈ t', p' r → Counted t p g (key r) (g' r)) : t'.total p' g' ≤ t.total p g := by
  rw [total_eq_sum p' g' fun _ hr => Finset.mem_union_right t.keys (mem_keys hr),
    total_eq_sum p g fun _ hr => Finset.mem_union_left t'.keys (mem_keys hr)]
  refine Finset.sum_le_sum ?_
  intro k _
  by_cases hk : ∃ r ∈ t', key r = k ∧ p' r
  · obtain ⟨r, hr, rfl, hp⟩ := hk
    rw [charge_of_mem hr, if_pos hp]
    exact (h r hr hp).le_charge
  · rw [charge_of_not fun r hr hrk hp => hk ⟨r, hr, hrk, hp⟩]
    exact Nat.zero_le _

/-- The same but for one key, whose row counts for at most `n`. -/
theorem total_le_add (k : κ) (n : Nat)
    (h : ∀ r ∈ t', p' r → Counted t p g (key r) (g' r) ∨ key r = k ∧ g' r ≤ n) :
    t'.total p' g' ≤ t.total p g + n := by
  by_cases hk : Counted t p g k (t'.charge p' g' k)
  · refine Nat.le_add_right_of_le (total_le ?_)
    intro r hr hp
    rcases h r hr hp with hc | ⟨rfl, -⟩
    · exact hc
    · rw [charge_of_mem hr, if_pos hp] at hk
      exact hk
  · rw [total_split p' g' k, Nat.add_comm]
    refine Nat.add_le_add (total_le ?_) ?_
    · intro r hr hp
      obtain ⟨hr, hne⟩ := mem_delete.mp hr
      exact (h r hr hp).resolve_right fun hrk => hne hrk.1
    · by_cases hr : ∃ r ∈ t', key r = k ∧ p' r
      · obtain ⟨r, hr, rfl, hp⟩ := hr
        rw [charge_of_mem hr, if_pos hp] at hk ⊢
        exact ((h r hr hp).resolve_left hk).2
      · rw [charge_of_not fun r hr' hrk hp => hr ⟨r, hr', hrk, hp⟩]
        exact Nat.zero_le _

/-- One row more. -/
theorem total_insert_le {r : ρ} (hr : t.insert r = some t') (h : ∀ x ∈ t, p' x → p x) :
    t'.total p' g ≤ t.total p g + g r := by
  refine total_le_add (key r) (g r) fun x hx hpx => ?_
  rcases (mem_insert hr).mp hx with hx | rfl
  · exact .inl ⟨x, hx, rfl, h x hx hpx, Nat.le_refl _⟩
  · exact .inr ⟨rfl, Nat.le_refl _⟩

end Table

end Relational
