import KyNotes.Lib.Program

/-!
# Programs and what they have been told

The history of a program is what it has asked, with the answers. `Reaches p h q`: with the history `h` the program has come
to `q`, whatever the answers were. `Told Ok p Q h`: from the history `h` on every request meets `Ok` of the history before
it, and every returned value meets `Q` of the whole history; `Told.reaches` is the soundness of that.
-/

namespace Interaction

variable {Req : Type} {Res : Req → Type} {α β : Type}

/-- A request with its answer. -/
abbrev Event (Req : Type) (Res : Req → Type) := Σ r : Req, Res r

/-- With the history, the program has come to another. -/
inductive Reaches : Prog Req Res α → List (Event Req Res) → Prog Req Res α → Prop
  | here {p} : Reaches p [] p
  | answered {r k x h q} : Reaches (k x) h q → Reaches (.ask r k) (⟨r, x⟩ :: h) q

/-- From the history on, every request meets `Ok` and every returned value meets `Q`. -/
def Told (Ok : List (Event Req Res) → Req → Prop) : Prog Req Res α → (List (Event Req Res) → α → Prop) →
    List (Event Req Res) → Prop
  | .ret a, Q, h => Q h a
  | .ask r k, Q, h => Ok h r ∧ ∀ x, Told Ok (k x) Q (h ++ [⟨r, x⟩])

variable {Ok : List (Event Req Res) → Req → Prop} {h : List (Event Req Res)}

theorem told_bind {p : Prog Req Res α} {f : α → Prog Req Res β} {Q : List (Event Req Res) → β → Prop}
    (hp : Told Ok p (fun h a => Told Ok (f a) Q h) h) : Told Ok (p.bind f) Q h := by
  induction p generalizing h with
  | ret a => exact hp
  | ask r k ih => exact ⟨hp.1, fun x => ih x (hp.2 x)⟩

theorem told_mono {p : Prog Req Res α} {Q Q' : List (Event Req Res) → α → Prop} (hp : Told Ok p Q h)
    (hq : ∀ h a, Q h a → Q' h a) : Told Ok p Q' h := by
  induction p generalizing h with
  | ret a => exact hq h a hp
  | ask r k ih => exact ⟨hp.1, fun x => ih x (hp.2 x)⟩

/-- What a program has come to has been told the rest. -/
theorem Told.reaches {p q : Prog Req Res α} {Q : List (Event Req Res) → α → Prop} {h' : List (Event Req Res)}
    (hp : Told Ok p Q h) (hr : Reaches p h' q) : Told Ok q Q (h ++ h') := by
  induction hr generalizing h with
  | here => rw [List.append_nil]; exact hp
  | answered _ ih =>
    have := ih (hp.2 _)
    rw [List.append_assoc] at this
    exact this

namespace Action

variable {σ ε : Type} {Val : Req → Type} {Ok : List (Event Req fun r => Except ε (Val r)) → Req → Prop}

/-- The same of an action: a value meets `Q` and a failure `E`. -/
def Told (Ok : List (Event Req fun r => Except ε (Val r)) → Req → Prop) (x : Action σ ε Req Val α)
    (Q : σ → List (Event Req fun r => Except ε (Val r)) → α → Prop)
    (E : σ → List (Event Req fun r => Except ε (Val r)) → ε → Prop) (s : σ)
    (h : List (Event Req fun r => Except ε (Val r))) : Prop :=
  Interaction.Told Ok (x s) (fun h out =>
    match out.2 with
    | .ok a => Q out.1 h a
    | .error e => E out.1 h e) h

variable {Q Q' : σ → List (Event Req fun r => Except ε (Val r)) → α → Prop}
  {E E' : σ → List (Event Req fun r => Except ε (Val r)) → ε → Prop} {s : σ}
  {h : List (Event Req fun r => Except ε (Val r))}

theorem told_pure {a : α} (hq : Q s h a) : Told Ok (pure a : Action σ ε Req Val α) Q E s h := hq

theorem told_bind {x : Action σ ε Req Val α} {f : α → Action σ ε Req Val β}
    {Q : σ → List (Event Req fun r => Except ε (Val r)) → β → Prop}
    (hx : Told Ok x (fun s h a => Told Ok (f a) Q E s h) E s h) : Told Ok (x >>= f) Q E s h := by
  refine Interaction.told_bind (Interaction.told_mono hx fun h out hout => ?_)
  obtain ⟨s, a | a⟩ := out
  · exact hout
  · exact hout

theorem told_mono {x : Action σ ε Req Val α} (hx : Told Ok x Q E s h) (hq : ∀ s h a, Q s h a → Q' s h a)
    (he : ∀ s h e, E s h e → E' s h e) : Told Ok x Q' E' s h := by
  refine Interaction.told_mono hx fun h out hout => ?_
  obtain ⟨s, e | a⟩ := out
  · exact he _ _ _ hout
  · exact hq _ _ _ hout

theorem told_call {r : Req} {Q : σ → List (Event Req fun r => Except ε (Val r)) → Val r → Prop} (hok : Ok h r)
    (hq : ∀ v, Q s (h ++ [⟨r, .ok v⟩]) v) (he : ∀ e, E s (h ++ [⟨r, .error e⟩]) e) :
    Told Ok (call r : Action σ ε Req Val (Val r)) Q E s h := by
  refine ⟨hok, fun x => ?_⟩
  cases x with
  | error e => exact he e
  | ok v => exact hq v

theorem told_attempt {x : Action σ ε Req Val α} {Q : σ → List (Event Req fun r => Except ε (Val r)) → Except ε α → Prop}
    (hx : Told Ok x (fun s h a => Q s h (.ok a)) (fun s h e => Q s h (.error e)) s h) :
    Told Ok (attempt x) Q E s h := by
  refine Interaction.told_bind (Interaction.told_mono hx fun h out hout => ?_)
  obtain ⟨s, e | a⟩ := out
  · exact hout
  · exact hout

end Action

end Interaction
