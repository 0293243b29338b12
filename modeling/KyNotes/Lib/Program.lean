import Mathlib.Logic.Basic

/-!
# Programs that ask, on a timeline

A program asks its environment and goes on with the answer (`Prog`). The environment is a relation
`Ans i r x j`: what is asked at time `i` is answered with `x`, and the program goes on from time `j`. Between two of its
steps any time may pass; what other programs do meanwhile is in the environment.

* `Trace` is what a program has asked so far, `Runs` what it has asked when it returns.
* `Wp Ok p Q t`: from time `t` on every request of `p` meets `Ok` and every value that it returns meets `Q`. The rules
  `wp_bind` and `wp_mono` are those of a program logic, `Wp.trace` and `Wp.runs` its soundness.
* `eval` runs a program on an oracle; `Follows.runs` makes a run of it.
* An `Action` is a program that has a state and may fail, as its requests may. A failure ends it, unless it is inside an
  `attempt`; the state survives. `Action.Wp` has a condition for the value and one for the failure.
* `Action.within` is an action as a part of one with more requests and a larger state, and `wp_within` its rule.
* `Action.Safe` is `Action.Wp` whatever the environment answers, without the times.
* `Action.On` is the same for one oracle, with the times.
-/

namespace Interaction

variable {Req : Type} {Res : Req → Type}

/-- A program: it returns, or it asks and goes on with the answer. -/
inductive Prog (Req : Type) (Res : Req → Type) (α : Type) : Type
  | ret (a : α)
  | ask (r : Req) (k : Res r → Prog Req Res α)

variable {α β : Type}

def Prog.bind : Prog Req Res α → (α → Prog Req Res β) → Prog Req Res β
  | .ret a, f => f a
  | .ask r k, f => .ask r fun x => (k x).bind f

variable (Ans : Nat → (r : Req) → Res r → Nat → Prop)

/-- The requests of a program so far, with their times. -/
inductive Trace : Nat → Prog Req Res α → List (Nat × Req) → Prop
  | stop {t p} : Trace t p []
  | asked {t i r k} : t ≤ i → Trace t (.ask r k) [(i, r)]
  | answered {t i j r k x es} : t ≤ i → Ans i r x j → Trace j (k x) es → Trace t (.ask r k) ((i, r) :: es)

/-- A whole run: the requests, and the time and the value of the return. -/
inductive Runs : Nat → Prog Req Res α → List (Nat × Req) → Nat → α → Prop
  | ret {t a} : Runs t (.ret a) [] t a
  | ask {t i j r k x es t' a} : t ≤ i → Ans i r x j → Runs j (k x) es t' a → Runs t (.ask r k) ((i, r) :: es) t' a

theorem Runs.trace {t t' : Nat} {p : Prog Req Res α} {es : List (Nat × Req)} {a : α} (h : Runs Ans t p es t' a) :
    Trace Ans t p es := by
  induction h with
  | ret => exact .stop
  | ask ht ha _ ih => exact .answered ht ha ih

/-- A run of a program that goes on with another is a run of each. -/
theorem Runs.of_bind {p : Prog Req Res α} {f : α → Prog Req Res β} {t t' : Nat} {es : List (Nat × Req)} {b : β}
    (h : Runs Ans t (p.bind f) es t' b) :
    ∃ es₁ es₂ i a, es = es₁ ++ es₂ ∧ Runs Ans t p es₁ i a ∧ Runs Ans i (f a) es₂ t' b := by
  induction p generalizing t es with
  | ret a => exact ⟨[], es, t, a, rfl, .ret, h⟩
  | ask r k ih =>
    obtain _ | ⟨hi, ha, h⟩ := h
    obtain ⟨es₁, es₂, i', a, rfl, h₁, h₂⟩ := ih _ h
    exact ⟨_ :: es₁, es₂, i', a, rfl, .ask hi ha h₁, h₂⟩

/-! ## Weakest preconditions -/

section Wp

variable (Ok : Nat → Req → Prop)

/-- From time `t` on, every request meets `Ok` and every returned value meets `Q`. -/
def Wp : Prog Req Res α → (Nat → α → Prop) → Nat → Prop
  | .ret a, Q, t => Q t a
  | .ask r k, Q, t => ∀ i, t ≤ i → Ok i r ∧ ∀ x j, Ans i r x j → Wp (k x) Q j

variable {Ans Ok}

theorem wp_bind {p : Prog Req Res α} {f : α → Prog Req Res β} {Q : Nat → β → Prop} {t : Nat}
    (h : Wp Ans Ok p (fun t a => Wp Ans Ok (f a) Q t) t) : Wp Ans Ok (p.bind f) Q t := by
  induction p generalizing t with
  | ret a => exact h
  | ask r k ih => exact fun i hi => ⟨(h i hi).1, fun x j ha => ih x ((h i hi).2 x j ha)⟩

theorem wp_mono {p : Prog Req Res α} {Q Q' : Nat → α → Prop} {t : Nat} (h : Wp Ans Ok p Q t)
    (hq : ∀ t a, Q t a → Q' t a) : Wp Ans Ok p Q' t := by
  induction p generalizing t with
  | ret a => exact hq t a h
  | ask r k ih => exact fun i hi => ⟨(h i hi).1, fun x j ha => ih x ((h i hi).2 x j ha)⟩

theorem Wp.trace {p : Prog Req Res α} {Q : Nat → α → Prop} {t : Nat} {es : List (Nat × Req)}
    (h : Wp Ans Ok p Q t) (ht : Trace Ans t p es) : ∀ e ∈ es, Ok e.1 e.2 := by
  induction ht with
  | stop => exact fun _ he => absurd he List.not_mem_nil
  | asked hi =>
    intro e he
    obtain rfl := List.mem_singleton.mp he
    exact (h _ hi).1
  | answered hi ha _ ih =>
    intro e he
    rcases List.mem_cons.mp he with rfl | he
    · exact (h _ hi).1
    · exact ih ((h _ hi).2 _ _ ha) e he

theorem Wp.runs {p : Prog Req Res α} {Q : Nat → α → Prop} {t t' : Nat} {es : List (Nat × Req)} {a : α}
    (h : Wp Ans Ok p Q t) (hr : Runs Ans t p es t' a) : Q t' a := by
  induction hr with
  | ret => exact h
  | ask hi ha _ ih => exact ih ((h _ hi).2 _ _ ha)

end Wp

/-! ## Oracles -/

/-- An oracle answers at once, and says when the program goes on. -/
abbrev Oracle (Req : Type) (Res : Req → Type) := Nat → (r : Req) → Res r × Nat

/-- The requests, the time of the return and the returned value of a program on an oracle. -/
def eval (f : Oracle Req Res) : Nat → Prog Req Res α → List (Nat × Req) × Nat × α
  | t, .ret a => ([], t, a)
  | t, .ask r k =>
    let x := f t r
    let out := eval f x.2 (k x.1)
    ((t, r) :: out.1, out.2)

/-- Along the program, the oracle answers as the environment does. -/
def Follows (f : Oracle Req Res) : Nat → Prog Req Res α → Prop
  | _, .ret _ => True
  | t, .ask r k => Ans t r (f t r).1 (f t r).2 ∧ Follows f (f t r).2 (k (f t r).1)

instance Follows.decidable [∀ i r x j, Decidable (Ans i r x j)] (f : Oracle Req Res) :
    ∀ (t : Nat) (p : Prog Req Res α), Decidable (Follows Ans f t p)
  | _, .ret _ => .isTrue trivial
  | t, .ask r k => @instDecidableAnd _ _ _ (Follows.decidable f (f t r).2 (k (f t r).1))

variable {Ans}

theorem Follows.runs {f : Oracle Req Res} : ∀ {t : Nat} {p : Prog Req Res α}, Follows Ans f t p →
    Runs Ans t p (eval f t p).1 (eval f t p).2.1 (eval f t p).2.2
  | _, .ret _, _ => .ret
  | _, .ask _ _, h => .ask (Nat.le_refl _) h.1 (Follows.runs h.2)

/-! ## Actions -/

/-- A program with a state, which may fail, and whose requests may fail. -/
def Action (σ ε Req : Type) (Val : Req → Type) (α : Type) : Type :=
  σ → Prog Req (fun r => Except ε (Val r)) (σ × Except ε α)

namespace Action

variable {σ ε : Type} {Val : Req → Type}

instance : Monad (Action σ ε Req Val) where
  pure a := fun s => .ret (s, .ok a)
  bind x f := fun s => (x s).bind fun out =>
    match out.2 with
    | .ok a => f a out.1
    | .error e => .ret (out.1, .error e)

/-- Asks; a failure of the request is one of the action. -/
def call (r : Req) : Action σ ε Req Val (Val r) := fun s => .ask r fun x => .ret (s, x)

def fail (e : ε) : Action σ ε Req Val α := fun s => .ret (s, .error e)

def modify (f : σ → σ) : Action σ ε Req Val Unit := fun s => .ret (f s, .ok ())

/-- Reads the state. -/
def read (f : σ → α) : Action σ ε Req Val α := fun s => .ret (s, .ok (f s))

/-- Goes on with a failure of the action. -/
def attempt (x : Action σ ε Req Val α) : Action σ ε Req Val (Except ε α) := fun s =>
  (x s).bind fun out => .ret (out.1, .ok out.2)

variable (Ans : Nat → (r : Req) → Except ε (Val r) → Nat → Prop) (Ok : Nat → Req → Prop)

/-- Every request meets `Ok`; a value meets `Q` and a failure `E`, with the state and the time. -/
def Wp (x : Action σ ε Req Val α) (Q : σ → Nat → α → Prop) (E : σ → Nat → ε → Prop) (s : σ) (t : Nat) : Prop :=
  Interaction.Wp Ans Ok (x s) (fun t out =>
    match out.2 with
    | .ok a => Q out.1 t a
    | .error e => E out.1 t e) t

variable {Ans Ok} {Q Q' : σ → Nat → α → Prop} {E E' : σ → Nat → ε → Prop} {s : σ} {t : Nat}

theorem wp_pure {a : α} (h : Q s t a) : Wp Ans Ok (pure a : Action σ ε Req Val α) Q E s t := h

theorem wp_fail {e : ε} (h : E s t e) : Wp Ans Ok (fail e : Action σ ε Req Val α) Q E s t := h

theorem wp_modify {f : σ → σ} {Q : σ → Nat → Unit → Prop} (h : Q (f s) t ()) :
    Wp Ans Ok (modify f : Action σ ε Req Val Unit) Q E s t := h

theorem wp_read {f : σ → α} (h : Q s t (f s)) : Wp Ans Ok (read f : Action σ ε Req Val α) Q E s t := h

theorem wp_bind {x : Action σ ε Req Val α} {f : α → Action σ ε Req Val β} {Q : σ → Nat → β → Prop}
    (h : Wp Ans Ok x (fun s t a => Wp Ans Ok (f a) Q E s t) E s t) : Wp Ans Ok (x >>= f) Q E s t := by
  refine Interaction.wp_bind (Interaction.wp_mono h fun t out hout => ?_)
  obtain ⟨s, a | a⟩ := out
  · exact hout
  · exact hout

theorem wp_mono {x : Action σ ε Req Val α} (h : Wp Ans Ok x Q E s t) (hq : ∀ s t a, Q s t a → Q' s t a)
    (he : ∀ s t e, E s t e → E' s t e) : Wp Ans Ok x Q' E' s t := by
  refine Interaction.wp_mono h fun t out hout => ?_
  obtain ⟨s, e | a⟩ := out
  · exact he _ _ _ hout
  · exact hq _ _ _ hout

theorem wp_call {r : Req} {Q : σ → Nat → Val r → Prop} (hok : ∀ i, t ≤ i → Ok i r)
    (hq : ∀ i v j, t ≤ i → Ans i r (.ok v) j → Q s j v) (he : ∀ i e j, t ≤ i → Ans i r (.error e) j → E s j e) :
    Wp Ans Ok (call r : Action σ ε Req Val (Val r)) Q E s t := by
  refine fun i hi => ⟨hok i hi, fun x j ha => ?_⟩
  cases x with
  | error e => exact he i e j hi ha
  | ok v => exact hq i v j hi ha

theorem wp_attempt {x : Action σ ε Req Val α} {Q : σ → Nat → Except ε α → Prop}
    (h : Wp Ans Ok x (fun s t a => Q s t (.ok a)) (fun s t e => Q s t (.error e)) s t) :
    Wp Ans Ok (attempt x) Q E s t := by
  refine Interaction.wp_bind (Interaction.wp_mono h fun t out hout => ?_)
  obtain ⟨s, e | a⟩ := out
  · exact hout
  · exact hout

section Within

variable {Req' : Type} {Val' : Req' → Type} {σ' : Type}

/-- A program among more requests. -/
def among : Prog Req (fun r => Except ε (Val r)) α → Prog (Req ⊕ Req') (fun r => Except ε (Sum.elim Val Val' r)) α
  | .ret a => .ret a
  | .ask r k => .ask (.inl r) fun x => among (k x)

/-- An action on a part of the state. -/
def within (view : σ' → σ) (update : σ → σ' → σ') (x : Action σ ε Req Val α) : Action σ' ε (Req ⊕ Req') (Sum.elim Val Val') α :=
  fun s => (among (x (view s))).bind fun out => .ret (update out.1 s, out.2)

variable {Ans' : Nat → (r : Req ⊕ Req') → Except ε (Sum.elim Val Val' r) → Nat → Prop} {Ok' : Nat → Req ⊕ Req' → Prop}

theorem wp_among {p : Prog Req (fun r => Except ε (Val r)) α} {Q : Nat → α → Prop} {t : Nat} (hok : ∀ i r, Ok i r → Ok' i (.inl r))
    (hans : ∀ i r x j, Ans' i (.inl r) x j → Ans i r x j) (h : Interaction.Wp Ans Ok p Q t) :
    Interaction.Wp Ans' Ok' (among p) Q t := by
  induction p generalizing t with
  | ret a => exact h
  | ask r k ih => exact fun i hi => ⟨hok i r (h i hi).1, fun x j ha => ih x ((h i hi).2 x j (hans i r x j ha))⟩

theorem wp_within {view : σ' → σ} {update : σ → σ' → σ'} {x : Action σ ε Req Val α} {s : σ'} {t : Nat} {Q : σ' → Nat → α → Prop}
    {E : σ' → Nat → ε → Prop} (hok : ∀ i r, Ok i r → Ok' i (.inl r)) (hans : ∀ i r x j, Ans' i (.inl r) x j → Ans i r x j)
    (h : Wp Ans Ok x (fun u t a => Q (update u s) t a) (fun u t e => E (update u s) t e) (view s) t) :
    Wp Ans' Ok' (within view update x) Q E s t := by
  refine Interaction.wp_bind (Interaction.wp_mono (wp_among hok hans h) fun t out hout => ?_)
  obtain ⟨u, e | a⟩ := out
  · exact hout
  · exact hout

end Within

/-! ### In every environment -/

/-- Whatever is answered, a value meets `Q` and a failure `E`. -/
def Safe (x : Action σ ε Req Val α) (Q : σ → α → Prop) (E : σ → ε → Prop) (s : σ) : Prop :=
  ∀ t, Wp (fun _ _ _ _ => True) (fun _ _ => True) x (fun s _ a => Q s a) (fun s _ e => E s e) s t

section Safe

variable {P P' : σ → α → Prop} {R : σ → β → Prop} {F F' : σ → ε → Prop}

theorem Safe.pure {a : α} (h : P s a) : Safe (pure a : Action σ ε Req Val α) P F s := fun _ => wp_pure h

theorem Safe.fail {e : ε} (h : F s e) : Safe (fail e : Action σ ε Req Val α) P F s := fun _ => wp_fail h

theorem Safe.modify {f : σ → σ} {P : σ → Unit → Prop} (h : P (f s) ()) : Safe (modify f : Action σ ε Req Val Unit) P F s :=
  fun _ => wp_modify h

theorem Safe.call {r : Req} {P : σ → Val r → Prop} (h : ∀ v, P s v) (he : ∀ e, F s e) :
    Safe (call r : Action σ ε Req Val (Val r)) P F s :=
  fun _ => wp_call (fun _ _ => trivial) (fun _ v _ _ _ => h v) fun _ e _ _ _ => he e

theorem Safe.mono {x : Action σ ε Req Val α} (h : Safe x P F s) (hp : ∀ s a, P s a → P' s a) (hf : ∀ s e, F s e → F' s e) :
    Safe x P' F' s :=
  fun t => wp_mono (h t) (fun s _ a => hp s a) fun s _ e => hf s e

theorem Safe.bind {x : Action σ ε Req Val α} {f : α → Action σ ε Req Val β} (h : Safe x P F s) (hf : ∀ s e, F s e → F' s e)
    (hr : ∀ s a, P s a → Safe (f a) R F' s) : Safe (x >>= f) R F' s :=
  fun t => wp_bind (wp_mono (h t) (fun s t a ha => hr s a ha t) fun s _ e => hf s e)

/-- Reads the state and goes on. -/
theorem Safe.look {f : σ → α} {g : α → Action σ ε Req Val β} (h : Safe (g (f s)) R F s) : Safe (read f >>= g) R F s :=
  fun t => wp_bind (wp_read (h t))

/-- Goes on with what another returned or failed with. -/
theorem Safe.try {x : Action σ ε Req Val α} {f : Except ε α → Action σ ε Req Val β} (P : σ → Except ε α → Prop)
    (h : Safe x (fun s a => P s (.ok a)) (fun s e => P s (.error e)) s) (hr : ∀ s out, P s out → Safe (f out) R F s) :
    Safe (attempt x >>= f) R F s :=
  fun t => wp_bind (wp_mono (wp_attempt (Q := fun s _ out => P s out) (E := fun _ _ _ => False) (h t))
    (fun s t out hout => hr s out hout t) fun _ _ _ => False.elim)

theorem Safe.runs {x : Action σ ε Req Val α} (h : Safe x P F s) {t t' : Nat} {es : List (Nat × Req)} {out : σ × Except ε α}
    (hr : Runs (fun _ _ _ _ => True) t (x s) es t' out) :
    match out.2 with
    | .ok a => P out.1 a
    | .error e => F out.1 e :=
  (h t).runs hr

end Safe

/-! ### On an oracle -/

theorem eval_bind {R : Type} {V : R → Type} (f : Oracle R V) (p : Prog R V α) (g : α → Prog R V β) : ∀ t : Nat,
    (eval f t (p.bind g)).2 = (eval f (eval f t p).2.1 (g (eval f t p).2.2)).2 := by
  induction p with
  | ret a => exact fun _ => rfl
  | ask r k ih => exact fun t => ih (f t r).1 (f t r).2

variable (f : Oracle Req fun r => Except ε (Val r))

/-- A value meets `Q` and a failure `E`. -/
def Meets (Q : σ → Nat → α → Prop) (E : σ → Nat → ε → Prop) (out : Nat × σ × Except ε α) : Prop :=
  match out.2.2 with
  | .ok a => Q out.2.1 out.1 a
  | .error e => E out.2.1 out.1 e

/-- On the oracle, a value meets `Q` and a failure `E`, with the state and the time. -/
def On (x : Action σ ε Req Val α) (Q : σ → Nat → α → Prop) (E : σ → Nat → ε → Prop) (s : σ) (t : Nat) : Prop :=
  Meets Q E (eval f t (x s)).2

variable {f} {R : σ → Nat → β → Prop}

theorem On.pure {a : α} (h : Q s t a) : On f (pure a : Action σ ε Req Val α) Q E s t := h

theorem On.fail {e : ε} (h : E s t e) : On f (fail e : Action σ ε Req Val α) Q E s t := h

theorem On.modify {g : σ → σ} {Q : σ → Nat → Unit → Prop} (h : Q (g s) t ()) :
    On f (modify g : Action σ ε Req Val Unit) Q E s t := h

theorem On.call {r : Req} {Q : σ → Nat → Val r → Prop} {v : Val r} {j : Nat} (hr : f t r = (.ok v, j)) (h : Q s j v) :
    On f (call r : Action σ ε Req Val (Val r)) Q E s t := by
  have heval : (eval f t ((Action.call r : Action σ ε Req Val (Val r)) s)).2 = ((f t r).2, s, (f t r).1) := rfl
  rw [On, heval, hr]
  exact h

theorem On.mono {x : Action σ ε Req Val α} (h : On f x Q E s t) (hq : ∀ s t a, Q s t a → Q' s t a)
    (he : ∀ s t e, E s t e → E' s t e) : On f x Q' E' s t := by
  rw [On] at h ⊢
  generalize (eval f t (x s)).2 = out at h ⊢
  obtain ⟨j, u, e | a⟩ := out
  · exact he _ _ _ h
  · exact hq _ _ _ h

theorem follows_true {R : Type} {V : R → Type} (f : Oracle R V) (p : Prog R V α) :
    ∀ t : Nat, Follows (fun _ _ _ _ => True) f t p := by
  induction p with
  | ret a => exact fun _ => trivial
  | ask r k ih => exact fun t => ⟨trivial, ih (f t r).1 (f t r).2⟩

/-- What holds whatever the environment answers, along with what holds on the oracle. -/
theorem On.safe {x : Action σ ε Req Val α} {P : σ → α → Prop} {F : σ → ε → Prop} (h : On f x Q E s t) (hs : Safe x P F s) :
    On f x (fun s t a => Q s t a ∧ P s a) (fun s t e => E s t e ∧ F s e) s t := by
  have hruns := (hs t).runs (follows_true f (x s) t).runs
  rw [On] at h ⊢
  generalize (eval f t (x s)).2 = out at h hruns ⊢
  obtain ⟨j, u, e | a⟩ := out
  · exact ⟨h, hruns⟩
  · exact ⟨h, hruns⟩

theorem On.bind {x : Action σ ε Req Val α} {g : α → Action σ ε Req Val β} (h : On f x Q E s t) (he : ∀ u j e, E u j e → E' u j e)
    (hg : ∀ u j a, Q u j a → On f (g a) R E' u j) : On f (x >>= g) R E' s t := by
  rw [On] at h ⊢
  rcases hout : (eval f t (x s)).2 with ⟨j, u, e | a⟩
  · rw [hout] at h
    have hbind : (eval f t ((x >>= g) s)).2 = (j, u, .error e) := (eval_bind f (x s) _ t).trans (by rw [hout]; rfl)
    rw [hbind]
    exact he _ _ _ h
  · rw [hout] at h
    have hbind : (eval f t ((x >>= g) s)).2 = (eval f j (g a u)).2 := (eval_bind f (x s) _ t).trans (by rw [hout])
    rw [hbind]
    exact hg _ _ _ h

theorem On.look {g : σ → α} {k : α → Action σ ε Req Val β} (h : On f (k (g s)) R E s t) : On f (read g >>= k) R E s t := h

/-- Goes on with what another returned or failed with. -/
theorem On.try {x : Action σ ε Req Val α} {k : Except ε α → Action σ ε Req Val β} (P : σ → Nat → Except ε α → Prop)
    (h : On f x (fun u j a => P u j (.ok a)) (fun u j e => P u j (.error e)) s t) (hk : ∀ u j out, P u j out → On f (k out) R E u j) :
    On f (attempt x >>= k) R E s t := by
  have hattempt : On f (attempt x) P (fun _ _ _ => False) s t := by
    have heval : (eval f t (attempt x s)).2 = ((eval f t (x s)).2.1, (eval f t (x s)).2.2.1, .ok (eval f t (x s)).2.2.2) :=
      eval_bind f (x s) _ t
    rw [On] at h ⊢
    rw [heval]
    generalize (eval f t (x s)).2 = out at h ⊢
    obtain ⟨j, u, e | a⟩ := out
    · exact h
    · exact h
  exact On.bind hattempt (fun _ _ _ => False.elim) hk

end Action

end Interaction
