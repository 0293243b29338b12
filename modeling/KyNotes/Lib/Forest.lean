import Mathlib.Algebra.Order.Group.Int
import Mathlib.Data.List.Chain
import Mathlib.Order.Basic

/-!
# Forests in depth-first order

A list of items with depths is a forest: what follows an item and is deeper is below it. `above` climbs from a place to the
nearest item of a smaller depth, and from there on; these are the items of which everything up to the place is deeper
(`mem_above_take`). `shown` leaves out what is below the items that hide theirs, in one pass (`shown_start`).
`settle` lowers depths until they are those of a forest.
-/

namespace KyNotes.Forest

theorem take_succ_reverse {α : Type} {l : List α} {i : Nat} (hi : i < l.length) :
    (l.take (i + 1)).reverse = l[i] :: (l.take i).reverse := by
  rw [List.take_add_one, List.getElem?_eq_getElem hi, List.reverse_append]
  rfl

variable {α κ : Type} [LinearOrder κ]

/-- The items above one of a depth, nearest first. The list is what comes before it, last item first. -/
def above : List (α × κ) → κ → List (α × κ)
  | [], _ => []
  | x :: xs, depth => if x.2 < depth then x :: above xs x.2 else above xs depth

variable {x y : α × κ} {xs ys : List (α × κ)} {depth depth' : κ}

theorem above_cons_lt (h : y.2 < depth) : above (y :: xs) depth = y :: above xs y.2 := if_pos h

theorem above_cons_le (h : depth ≤ y.2) : above (y :: xs) depth = above xs depth := if_neg (not_lt.2 h)

/-- What is above a place comes before it, and everything between is deeper. -/
theorem mem_above_take {l : List (α × κ)} {i : Nat} (hi : i ≤ l.length) : x ∈ above (l.take i).reverse depth ↔
    ∃ j < i, l[j]? = some x ∧ x.2 < depth ∧ ∀ k, j < k → k < i → ∀ z ∈ l[k]?, x.2 < z.2 := by
  induction i generalizing depth with
  | zero => simp [above]
  | succ i ih =>
    have hi' : i < l.length := hi
    have hget : l[i]? = some l[i] := List.getElem?_eq_getElem hi'
    rw [take_succ_reverse hi']
    obtain hlt | hle := lt_or_ge l[i].2 depth
    · rw [above_cons_lt hlt, List.mem_cons, ih (Nat.le_of_lt hi')]
      constructor
      · rintro (rfl | ⟨j, hj, hx, hlt', hall⟩)
        · exact ⟨i, i.lt_succ_self, hget, hlt, fun k h₁ h₂ => absurd h₂ (by omega)⟩
        · refine ⟨j, by omega, hx, lt_trans hlt' hlt, fun k h₁ h₂ z hz => ?_⟩
          obtain h₂ | rfl := Nat.lt_succ_iff_lt_or_eq.1 h₂
          · exact hall k h₁ h₂ z hz
          · cases hget.symm.trans hz
            exact hlt'
      · rintro ⟨j, hj, hx, -, hall⟩
        obtain hj | rfl := Nat.lt_succ_iff_lt_or_eq.1 hj
        · exact .inr ⟨j, hj, hx, hall i hj i.lt_succ_self _ hget, fun k h₁ h₂ => hall k h₁ (by omega)⟩
        · exact .inl (Option.some.inj (hx.symm.trans hget))
    · rw [above_cons_le hle, ih (Nat.le_of_lt hi')]
      constructor
      · rintro ⟨j, hj, hx, hlt, hall⟩
        refine ⟨j, by omega, hx, hlt, fun k h₁ h₂ z hz => ?_⟩
        obtain h₂ | rfl := Nat.lt_succ_iff_lt_or_eq.1 h₂
        · exact hall k h₁ h₂ z hz
        · cases hget.symm.trans hz
          exact lt_of_lt_of_le hlt hle
      · rintro ⟨j, hj, hx, hlt, hall⟩
        obtain hj | rfl := Nat.lt_succ_iff_lt_or_eq.1 hj
        · exact ⟨j, hj, hx, hlt, fun k h₁ h₂ => hall k h₁ (by omega)⟩
        · cases hx.symm.trans hget
          exact absurd hlt (not_lt.2 hle)

/-! ## Hiding what is below some items -/

/-- The items that none of those above them hides: `before` is what comes before the list, last item first. -/
def unhidden (hides : α → Bool) : List (α × κ) → List (α × κ) → List (α × κ)
  | _, [] => []
  | before, x :: xs =>
    if (above before x.2).any fun y => hides y.1 then unhidden hides (x :: before) xs
    else x :: unhidden hides (x :: before) xs

/-- The same in one pass, which keeps the depth below which items are hidden. -/
def shown (hides : α → Bool) : Option κ → List (α × κ) → List (α × κ)
  | _, [] => []
  | hidden, x :: xs =>
    if hidden.any fun h => h < x.2 then shown hides hidden xs
    else x :: shown hides (if (xs.head?.any fun y => x.2 < y.2) ∧ hides x.1 then some x.2 else none) xs

variable {hides : α → Bool} {hidden : Option κ}

/-- Up to the depth of the next item, the depth that is kept tells whether something above hides. -/
def Tells (hides : α → Bool) (hidden : Option κ) (before rest : List (α × κ)) : Prop :=
  ∀ z ∈ rest.head?, ∀ depth ≤ z.2,
    (hidden.any fun h => h < depth) = (above before depth).any fun x => hides x.1

theorem Tells.skip (h : Tells hides hidden ys (y :: xs)) (hy : (hidden.any fun h => h < y.2) = true) :
    Tells hides hidden (y :: ys) xs := by
  intro z _ depth _
  obtain hlt | hle := lt_or_ge y.2 depth
  · have hdeep : (hidden.any fun h => h < depth) = true := by
      obtain ⟨d, hd, hlt'⟩ := (Option.any_eq_true _ _).1 hy
      exact (Option.any_eq_true _ _).2 ⟨d, hd, decide_eq_true (lt_trans (of_decide_eq_true hlt') hlt)⟩
    rw [above_cons_lt hlt, List.any_cons, ← h y rfl y.2 le_rfl, hy, hdeep, Bool.or_true]
  · rw [above_cons_le hle]
    exact h y rfl depth hle

theorem Tells.show (h : Tells hides hidden ys (y :: xs)) (hy : (hidden.any fun h => h < y.2) = false) :
    Tells hides (if (xs.head?.any fun z => y.2 < z.2) ∧ hides y.1 then some y.2 else none) (y :: ys) xs := by
  intro z hz depth hdepth
  obtain hlt | hle := lt_or_ge y.2 depth
  · have hchild : (xs.head?.any fun z => y.2 < z.2) = true :=
      (Option.any_eq_true _ _).2 ⟨z, hz, decide_eq_true (lt_of_lt_of_le hlt hdepth)⟩
    rw [above_cons_lt hlt, List.any_cons, ← h y rfl y.2 le_rfl, hy, Bool.or_false]
    cases hp : hides y.1 with
    | false => simp
    | true => simp [hchild, hlt]
  · have hopen : (hidden.any fun h => h < depth) = false := by
      rw [Bool.eq_false_iff] at hy ⊢
      intro hany
      obtain ⟨d, hd, hlt⟩ := (Option.any_eq_true _ _).1 hany
      exact hy ((Option.any_eq_true _ _).2 ⟨d, hd, decide_eq_true (lt_of_lt_of_le (of_decide_eq_true hlt) hle)⟩)
    rw [above_cons_le hle, ← h y rfl depth hle, hopen]
    split
    · simp [hle]
    · rfl

theorem shown_eq (h : Tells hides hidden ys xs) : shown hides hidden xs = unhidden hides ys xs := by
  induction xs generalizing hidden ys with
  | nil => rfl
  | cons x xs ih =>
    have hx := h x rfl x.2 le_rfl
    rw [shown, unhidden, ← hx]
    split
    · rename_i hhid
      exact ih (h.skip hhid)
    · rename_i hhid
      rw [ih (h.show (Bool.not_eq_true _ ▸ hhid))]

/-- One pass shows the items that nothing above them hides. -/
theorem shown_start (hides : α → Bool) (xs : List (α × κ)) : shown hides none xs = unhidden hides [] xs :=
  shown_eq fun _ _ _ _ => rfl

/-! ## Depths that fit -/

/-- Each depth lowered to one below the item before it; the first one to a bound. -/
def settle : ℤ → List ℤ → List ℤ
  | _, [] => []
  | bound, d :: ds => min d bound :: settle (min d bound + 1) ds

/-- The bound for what comes next. -/
def after : ℤ → List ℤ → ℤ
  | bound, [] => bound
  | bound, d :: ds => after (min d bound + 1) ds

section Settle

variable {bound bound' head : ℤ} {ds es : List ℤ}

/-- Each depth is at most one below the one before it. -/
def Fits (ds : List ℤ) : Prop := ds.IsChain fun d e => e ≤ d + 1

section Swap

variable {ts : List ℤ}

end Swap

end Settle

end KyNotes.Forest
