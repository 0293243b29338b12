import Mathlib.Data.Finmap
import Mathlib.Data.Rat.Defs

/-!
# JSON values

A value as a parser reads it: finite numbers, strings without lone surrogates, objects as the list of their members. Of
the members with one key the last one counts (`lastValue`), as in a map that is filled member by member;
`entries` are the members that count, and `fromEntries` is the map.
-/

inductive Json
  | null
  | bool (b : Bool)
  | num (x : ℚ)
  | str (s : String)
  | arr (values : List Json)
  | obj (members : List (String × Json))

namespace Json

/-! ## Members -/

section Members

variable {κ α : Type} [DecidableEq κ]

/-- The last value of a key. -/
def lastValue : List (κ × α) → κ → Option α
  | [], _ => none
  | (k', v) :: m, k => (lastValue m k).or (if k' = k then some v else none)

@[simp] theorem lastValue_nil (k : κ) : lastValue ([] : List (κ × α)) k = none := rfl

theorem lastValue_cons (k' : κ) (v : α) (m : List (κ × α)) (k : κ) :
    lastValue ((k', v) :: m) k = (lastValue m k).or (if k' = k then some v else none) := rfl

theorem lastValue_append (m n : List (κ × α)) (k : κ) : lastValue (m ++ n) k = (lastValue n k).or (lastValue m k) := by
  induction m with
  | nil => simp
  | cons x m ih =>
    obtain ⟨k', v⟩ := x
    rw [List.cons_append, lastValue_cons, ih, lastValue_cons, Option.or_assoc]

theorem lastValue_mem {m : List (κ × α)} {k : κ} {v : α} (h : lastValue m k = some v) : (k, v) ∈ m := by
  induction m with
  | nil => cases h
  | cons x m ih =>
    obtain ⟨k', v'⟩ := x
    rw [lastValue_cons] at h
    rcases Option.or_eq_some_iff.mp h with h | ⟨-, h⟩
    · exact List.mem_cons_of_mem _ (ih h)
    · split at h
      · rename_i hk
        cases h
        exact hk ▸ List.mem_cons_self
      · cases h

theorem lastValue_isSome {m : List (κ × α)} {k : κ} : (lastValue m k).isSome ↔ k ∈ m.map Prod.fst := by
  induction m with
  | nil => simp
  | cons x m ih =>
    obtain ⟨k', v'⟩ := x
    rw [lastValue_cons, Option.isSome_or, Bool.or_eq_true, ih, List.map_cons, List.mem_cons, or_comm]
    refine or_congr_left ?_
    by_cases hk : k' = k
    · simp [hk]
    · simp [hk, Ne.symm hk]

/-- The members that count. -/
def entries : List (κ × α) → List (κ × α)
  | [] => []
  | (k, v) :: m => if (lastValue m k).isSome then entries m else (k, v) :: entries m

theorem lastValue_entries (m : List (κ × α)) (k : κ) : lastValue (entries m) k = lastValue m k := by
  induction m with
  | nil => rfl
  | cons x m ih =>
    obtain ⟨k', v⟩ := x
    rw [entries, lastValue_cons]
    split
    · rename_i hsome
      rw [ih]
      by_cases hk : k' = k
      · subst hk
        obtain ⟨w, hw⟩ := Option.isSome_iff_exists.mp hsome
        rw [hw, Option.some_or]
      · rw [if_neg hk, Option.or_none]
    · rw [lastValue_cons, ih]

theorem entries_keys_subset {m : List (κ × α)} {k : κ} (h : k ∈ (entries m).map Prod.fst) : k ∈ m.map Prod.fst := by
  rw [← lastValue_isSome, lastValue_entries, lastValue_isSome] at h
  exact h

/-- Their keys are distinct. -/
theorem entries_nodup : ∀ m : List (κ × α), ((entries m).map Prod.fst).Nodup
  | [] => List.nodup_nil
  | (k, v) :: m => by
    rw [entries]
    split
    · exact entries_nodup m
    · rename_i hnone
      rw [List.map_cons, List.nodup_cons]
      exact ⟨fun hk => hnone (lastValue_isSome.mpr (entries_keys_subset hk)), entries_nodup m⟩

/-- Where the keys are distinct every member counts. -/
theorem lastValue_eq_some {m : List (κ × α)} (hm : (m.map Prod.fst).Nodup) {k : κ} {v : α} :
    lastValue m k = some v ↔ (k, v) ∈ m := by
  refine ⟨lastValue_mem, fun h => ?_⟩
  obtain ⟨w, hw⟩ := Option.isSome_iff_exists.mp (lastValue_isSome.mpr (List.mem_map_of_mem (f := Prod.fst) h))
  rw [hw, List.inj_on_of_nodup_map hm (lastValue_mem hw) h rfl |> Prod.mk.inj |>.2]

/-- The map that the members fill, one by one. -/
def fromEntries (m : List (κ × α)) : Finmap fun _ : κ => α := m.foldl (fun f x => f.insert x.1 x.2) ∅

theorem lookup_foldl_insert (m : List (κ × α)) : ∀ (f : Finmap fun _ : κ => α) (k : κ),
    (m.foldl (fun f x => f.insert x.1 x.2) f).lookup k = (lastValue m k).or (f.lookup k) := by
  induction m with
  | nil => simp
  | cons x m ih =>
    obtain ⟨k', v⟩ := x
    intro f k
    rw [List.foldl_cons, ih, lastValue_cons, Option.or_assoc]
    by_cases hk : k' = k
    · subst hk
      simp
    · rw [Finmap.lookup_insert_of_ne _ (Ne.symm hk), if_neg hk, Option.none_or]

theorem lookup_fromEntries (m : List (κ × α)) (k : κ) : (fromEntries m).lookup k = lastValue m k := by
  rw [fromEntries, lookup_foldl_insert, Finmap.lookup_empty, Option.or_none]

end Members

/-! ## Depth -/

mutual

/-- How deep arrays and objects are nested. -/
def depth : Json → Nat
  | .arr vs => depthOfValues vs + 1
  | .obj ms => depthOfMembers ms + 1
  | _ => 0

def depthOfValues : List Json → Nat
  | [] => 0
  | v :: vs => max (depth v) (depthOfValues vs)

def depthOfMembers : List (String × Json) → Nat
  | [] => 0
  | (_, v) :: ms => max (depth v) (depthOfMembers ms)

end

theorem depthOfMembers_le {n : Nat} : ∀ {ms : List (String × Json)}, (∀ x ∈ ms, depth x.2 ≤ n) → depthOfMembers ms ≤ n
  | [], _ => by simp [depthOfMembers]
  | (k, v) :: ms, h => by
    rw [depthOfMembers]
    have hms : depthOfMembers ms ≤ n := depthOfMembers_le fun x hx => h x (List.mem_cons_of_mem _ hx)
    exact Nat.max_le.mpr ⟨h (k, v) List.mem_cons_self, hms⟩

/-- `n` arrays around nothing. -/
def nest : Nat → Json
  | 0 => .null
  | n + 1 => .arr [nest n]

theorem depth_nest : ∀ n, depth (nest n) = n
  | 0 => by simp [nest, depth]
  | n + 1 => by simp [nest, depth, depthOfValues, depth_nest n]

end Json
