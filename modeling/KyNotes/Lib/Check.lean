import Mathlib.Logic.Basic

/-!
# Checked computations

Transactions are computations in `Except ε`. `require` refuses unless a condition holds, `fetch` refuses on a missing
row, `forEach` runs a list of steps. The lemmas turn "the computation succeeded" into what its steps found
(`bind_ok`, `require_ok`, `fetch_ok`, `mapError_ok`) and "it refused" into the step that did (`bind_error` and its like),
and carry an invariant through a loop (`forEach_inv`).
-/

namespace Check

variable {ε α β σ : Type}

/-- Refuse with `e` unless `p`. -/
def require (p : Prop) [Decidable p] (e : ε) : Except ε Unit := if p then .ok () else .error e

/-- The value, or the error `e`. -/
def fetch (o : Option α) (e : ε) : Except ε α :=
  match o with
  | some a => .ok a
  | none => .error e

/-- Run `f` on every element in order; the first error stops it. -/
def forEach (f : σ → α → Except ε σ) : σ → List α → Except ε σ
  | s, [] => .ok s
  | s, a :: as => f s a >>= fun s' => forEach f s' as

@[simp] theorem bind_ok {x : Except ε α} {f : α → Except ε β} {b : β} :
    (x >>= f) = .ok b ↔ ∃ a, x = .ok a ∧ f a = .ok b := by
  cases x <;> simp [bind, Except.bind]

theorem ok_bind (a : α) (f : α → Except ε β) : (Except.ok a >>= f) = f a := rfl

@[simp] theorem pure_ok {a b : α} : (pure a : Except ε α) = .ok b ↔ a = b := by
  simp [pure, Except.pure]

@[simp] theorem require_ok {p : Prop} [Decidable p] {e : ε} {u : Unit} : require p e = .ok u ↔ p := by
  unfold require
  split <;> simp_all

@[simp] theorem fetch_ok {o : Option α} {e : ε} {a : α} : fetch o e = .ok a ↔ o = some a := by
  cases o <;> simp [fetch]

@[simp] theorem mapError_ok {δ : Type} {x : Except ε α} {f : ε → δ} {a : α} : x.mapError f = .ok a ↔ x = .ok a := by
  cases x with
  | error e =>
    have h : (Except.error e : Except ε α).mapError f = .error (f e) := rfl
    rw [h]
    exact ⟨fun h => (by cases h), fun h => (by cases h)⟩
  | ok b =>
    have h : (Except.ok b : Except ε α).mapError f = .ok b := rfl
    rw [h, Except.ok.injEq, Except.ok.injEq]

theorem bind_error {x : Except ε α} {f : α → Except ε β} {e : ε} :
    (x >>= f) = .error e ↔ x = .error e ∨ ∃ a, x = .ok a ∧ f a = .error e := by
  cases x <;> simp [bind, Except.bind]

theorem pure_error {a : α} {e : ε} : (pure a : Except ε α) = .error e ↔ False := by
  simp [pure, Except.pure]

theorem require_error {p : Prop} [Decidable p] {e e' : ε} : require p e = .error e' ↔ ¬p ∧ e = e' := by
  unfold require
  split <;> simp_all

theorem fetch_error {o : Option α} {e e' : ε} : fetch o e = .error e' ↔ o = none ∧ e = e' := by
  cases o <;> simp [fetch]

theorem mapError_error {δ : Type} {x : Except ε α} {f : ε → δ} {d : δ} :
    x.mapError f = .error d ↔ ∃ e, x = .error e ∧ f e = d := by
  cases x with
  | error e =>
    have h : (Except.error e : Except ε α).mapError f = .error (f e) := rfl
    rw [h, Except.error.injEq]
    constructor
    · intro hd
      exact ⟨e, rfl, hd⟩
    · rintro ⟨e', he, hd⟩
      cases he
      exact hd
  | ok b =>
    have h : (Except.ok b : Except ε α).mapError f = .ok b := rfl
    rw [h]
    constructor
    · intro hd
      cases hd
    · rintro ⟨e', he, -⟩
      cases he

/-- A loop whose steps change nothing. -/
theorem forEach_same {f : σ → α → Except ε σ} {s : σ} : ∀ {as : List α}, (∀ a ∈ as, f s a = .ok s) → forEach f s as = .ok s
  | [], _ => rfl
  | a :: as, h => by
    rw [forEach, h a List.mem_cons_self, ok_bind]
    exact forEach_same fun b hb => h b (List.mem_cons_of_mem _ hb)

/-- What every step of the loop keeps, each with its element, holds at the end. -/
theorem forEach_inv_mem {P : σ → Prop} {f : σ → α → Except ε σ} :
    ∀ {as : List α} {s t : σ}, (∀ s, ∀ a ∈ as, ∀ s', P s → f s a = .ok s' → P s') → P s → forEach f s as = .ok t → P t
  | [], s, t, _, hs, h => by cases h; exact hs
  | a :: as, s, t, hf, hs, h => by
    simp only [forEach, bind_ok] at h
    obtain ⟨s', h₁, h₂⟩ := h
    exact forEach_inv_mem (fun s b hb => hf s b (List.mem_cons_of_mem _ hb)) (hf s a List.mem_cons_self s' hs h₁) h₂

/-- What every step keeps holds at the end of the loop. -/
theorem forEach_inv {P : σ → Prop} {f : σ → α → Except ε σ} (hf : ∀ s a s', P s → f s a = .ok s' → P s')
    {as : List α} {s t : σ} (hs : P s) (h : forEach f s as = .ok t) : P t :=
  forEach_inv_mem (fun s a _ => hf s a) hs h

end Check
