import Mathlib.Data.List.Nodup
import Mathlib.Data.Option.Basic

/-!
# Chains of a partial function

`Path up x p` says that the elements from `x` upwards along `up` are `p`, and that they come to an end. A path is
determined by its first element, so that no element is on it twice, and so are the paths of what is on it.
-/

namespace Chains

variable {α : Type*} {up up' : α → Option α}

/-- The elements from the first one to the last. -/
inductive Path (up : α → Option α) : Option α → List α → Prop
  | nil : Path up none []
  | cons {x : α} {p : List α} (h : Path up (up x) p) : Path up (some x) (x :: p)

theorem path_none {p : List α} : Path up none p ↔ p = [] := by
  constructor
  · rintro ⟨⟩
    rfl
  · rintro rfl
    exact .nil

theorem path_some {x : α} {p : List α} : Path up (some x) p ↔ ∃ q, p = x :: q ∧ Path up (up x) q := by
  constructor
  · rintro ⟨⟩
    exact ⟨_, rfl, by assumption⟩
  · rintro ⟨q, rfl, h⟩
    exact .cons h

/-- An element with nothing above it. -/
theorem Path.root {x : α} (h : up x = none) : Path up (some x) [x] := by
  refine .cons ?_
  rw [h]
  exact .nil

/-- One step to what is above. -/
theorem Path.step {x y : α} {p : List α} (h : up x = some y) (hp : Path up (some y) p) : Path up (some x) (x :: p) := by
  refine .cons ?_
  rwa [h]

theorem Path.unique {o : Option α} {p q : List α} (hp : Path up o p) (hq : Path up o q) : p = q := by
  induction hp generalizing q with
  | nil => exact (path_none.1 hq).symm
  | cons _ ih =>
    obtain ⟨q, rfl, h⟩ := path_some.1 hq
    rw [ih h]

/-- What is on a path has a path, which is an end of it. -/
theorem Path.tail {o : Option α} {p : List α} {y : α} (hp : Path up o p) (hy : y ∈ p) :
    ∃ l q, p = l ++ y :: q ∧ Path up (some y) (y :: q) := by
  induction hp with
  | nil => cases hy
  | @cons x p h ih =>
    obtain rfl | hy := List.mem_cons.1 hy
    · exact ⟨[], p, rfl, .cons h⟩
    · obtain ⟨l, q, rfl, hq⟩ := ih hy
      exact ⟨x :: l, q, rfl, hq⟩

theorem Path.not_mem {x : α} {p : List α} (h : Path up (some x) (x :: p)) : x ∉ p := by
  intro hx
  obtain ⟨q, hq, hp⟩ := path_some.1 h
  cases hq
  obtain ⟨l, q, rfl, hq⟩ := hp.tail hx
  have hlen := congrArg List.length (hq.unique h)
  simp only [List.length_cons, List.length_append] at hlen
  omega

theorem Path.nodup {o : Option α} {p : List α} (h : Path up o p) : p.Nodup := by
  induction h with
  | nil => exact List.nodup_nil
  | cons h ih => exact List.nodup_cons.2 ⟨(Path.cons h).not_mem, ih⟩

/-- A path depends on its own elements only. -/
theorem Path.congr {o : Option α} {p : List α} (h : Path up o p) (he : ∀ x ∈ p, up' x = up x) : Path up' o p := by
  induction h with
  | nil => exact .nil
  | @cons x p h ih =>
    refine .cons ?_
    rw [he x List.mem_cons_self]
    exact ih fun y hy => he y (List.mem_cons_of_mem _ hy)

/-- The end of a path replaced by another one. -/
theorem Path.graft {o : Option α} {l p q : List α} {y : α} (h : Path up o (l ++ y :: p)) (he : ∀ x ∈ l, up' x = up x)
    (hq : Path up' (some y) (y :: q)) : Path up' o (l ++ y :: q) := by
  induction l generalizing o with
  | nil =>
    cases h
    exact hq
  | cons x l ih =>
    cases h with
    | cons h =>
      refine .cons ?_
      rw [he x List.mem_cons_self]
      exact ih h fun z hz => he z (List.mem_cons_of_mem _ hz)

end Chains
