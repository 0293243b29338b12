import Mathlib.Data.List.Basic

/-!
# Runs of a deterministic labelled system

A system is a step function `step : σ → α → σ`; the labels `α` carry every choice of the environment. `run` folds a
list of labels. The rules here are the ones a proof about runs uses:

* `run_inv`: what the start has and every step keeps holds after every run;
* `run_inv_of`: the same when the steps of the run all meet a condition (`Along`);
* `always_iff_along`: the condition is exact when a step that misses it breaks the invariant;
* `run_rel`: a preorder that every step respects relates the two ends of every run;
* `forall_iff_along`: what a step does, step by step, against a condition on it;
* `logged`: the system together with all that its steps have given out;
* `Seen`: a fact about some state that the run has passed; `seen_concat` splits off the last one.
-/

namespace Transition

variable {σ α : Type} (step : σ → α → σ)

/-- The state after the labels. -/
def run (s : σ) (as : List α) : σ := as.foldl step s

@[simp] theorem run_nil (s : σ) : run step s [] = s := rfl

@[simp] theorem run_cons (s : σ) (a : α) (as : List α) : run step s (a :: as) = run step (step s a) as := rfl

theorem run_append (s : σ) (as bs : List α) : run step s (as ++ bs) = run step (run step s as) bs :=
  List.foldl_append

@[simp] theorem run_concat (s : σ) (as : List α) (a : α) : run step s (as ++ [a]) = step (run step s as) a := by
  rw [run_append]; rfl

variable {step}

/-- What the start has and every step keeps holds after every run. -/
theorem run_inv {P : σ → Prop} (hs : ∀ s a, P s → P (step s a)) : ∀ {s : σ} (as : List α), P s → P (run step s as)
  | _, [], h => h
  | s, a :: as, h => run_inv hs (s := step s a) as (hs s a h)

variable (step) in
/-- Every step of the run from `s` meets `C`. -/
def Along (C : σ → α → Prop) : σ → List α → Prop
  | _, [] => True
  | s, a :: as => C s a ∧ Along C (step s a) as

instance Along.decidable (C : σ → α → Prop) [∀ s a, Decidable (C s a)] :
    ∀ (s : σ) (as : List α), Decidable (Along step C s as)
  | _, [] => .isTrue trivial
  | s, a :: as => @instDecidableAnd _ _ _ (Along.decidable C (step s a) as)

theorem along_append {C : σ → α → Prop} : ∀ {s : σ} {as bs : List α},
    Along step C s (as ++ bs) ↔ Along step C s as ∧ Along step C (run step s as) bs
  | _, [], _ => by simp [Along]
  | s, a :: as, bs => by simp [Along, along_append (s := step s a), and_assoc]

/-- What the start has and every step that meets `C` keeps holds after every run whose steps meet `C`. -/
theorem run_inv_of {C : σ → α → Prop} {P : σ → Prop} (hs : ∀ s a, P s → C s a → P (step s a)) :
    ∀ {s : σ} {as : List α}, Along step C s as → P s → P (run step s as)
  | _, [], _, h => h
  | s, a :: _, hc, h => run_inv_of hs (s := step s a) hc.2 (hs s a h hc.1)

/-- Where a step keeps `P` exactly when it meets `C`, a run has `P` all along exactly when its steps meet `C`. -/
theorem always_iff_along {C : σ → α → Prop} {P : σ → Prop} (h : ∀ s a, P s → (P (step s a) ↔ C s a)) :
    ∀ {s : σ} {as : List α}, P s → ((∀ bs, bs <+: as → P (run step s bs)) ↔ Along step C s as)
  | _, [], hs => by
    refine ⟨fun _ => trivial, fun _ bs hb => ?_⟩
    rw [List.prefix_nil.mp hb]
    exact hs
  | s, a :: as, hs => by
    constructor
    · intro hall
      have ha : P (step s a) := hall [a] ⟨as, rfl⟩
      refine ⟨(h s a hs).mp ha, (always_iff_along h ha).mp fun bs hb => ?_⟩
      exact hall (a :: bs) (List.cons_prefix_cons.mpr ⟨rfl, hb⟩)
    · rintro ⟨hc, hal⟩ bs hb
      cases bs with
      | nil => exact hs
      | cons b bs =>
        obtain ⟨rfl, hbs⟩ := List.cons_prefix_cons.mp hb
        exact (always_iff_along h ((h s b hs).mpr hc)).mpr hal bs hbs

/-- Where, in the states of an invariant, a step has `P` exactly when it had it and meets `C`, a run ends in `P` exactly
when it starts in it and its steps meet `C`. -/
theorem run_iff_along {C : σ → α → Prop} {I P : σ → Prop} (hs : ∀ s a, I s → I (step s a))
    (h : ∀ s a, I s → (P (step s a) ↔ P s ∧ C s a)) : ∀ {s : σ} {as : List α}, I s →
      (P (run step s as) ↔ P s ∧ Along step C s as)
  | s, [], _ => ⟨fun hp => ⟨hp, trivial⟩, And.left⟩
  | s, a :: as, hi => by
    rw [run_cons, run_iff_along hs h (hs s a hi), h s a hi]
    exact and_assoc

theorem along_true : ∀ (s : σ) (as : List α), Along step (fun _ _ => True) s as
  | _, [] => trivial
  | s, a :: as => ⟨trivial, along_true (step s a) as⟩

/-- Where, in the states of an invariant that the steps under `H` keep, such a step does `D` exactly when it meets `C`, every
step of a run under `H` does `D` exactly when they all meet `C`. -/
theorem forall_iff_along_of {H C D : σ → α → Prop} {P : σ → Prop} (hs : ∀ s a, P s → H s a → P (step s a))
    (h : ∀ s a, P s → H s a → (D s a ↔ C s a)) : ∀ {s : σ} {as : List α}, Along step H s as → P s →
      ((∀ bs a, bs ++ [a] <+: as → D (run step s bs) a) ↔ Along step C s as)
  | s, [], _, _ => by
    refine ⟨fun _ => trivial, fun _ bs a hb => ?_⟩
    have := List.prefix_nil.mp hb
    simp at this
  | s, x :: as, hH, hp => by
    have ih : (∀ bs a, bs ++ [a] <+: as → D (run step (step s x) bs) a) ↔ Along step C (step s x) as :=
      forall_iff_along_of hs h hH.2 (hs s x hp hH.1)
    constructor
    · intro hall
      refine ⟨(h s x hp hH.1).mp (hall [] x ⟨as, rfl⟩), ih.mp fun bs a hb => ?_⟩
      exact hall (x :: bs) a (List.cons_prefix_cons.mpr ⟨rfl, hb⟩)
    · rintro ⟨hc, hal⟩ bs a hb
      cases bs with
      | nil =>
        obtain ⟨rfl, -⟩ := List.cons_prefix_cons.mp hb
        exact (h s a hp hH.1).mpr hc
      | cons b bs =>
        obtain ⟨rfl, hbs⟩ := List.cons_prefix_cons.mp hb
        exact ih.mpr hal bs a hbs

/-- The same where every step keeps the invariant. -/
theorem forall_iff_along {C D : σ → α → Prop} {P : σ → Prop} (hs : ∀ s a, P s → P (step s a))
    (h : ∀ s a, P s → (D s a ↔ C s a)) {s : σ} {as : List α} (hp : P s) :
    (∀ bs a, bs ++ [a] <+: as → D (run step s bs) a) ↔ Along step C s as :=
  forall_iff_along_of (fun s a hp _ => hs s a hp) (fun s a hp _ => h s a hp) (along_true s as) hp

section Logged

variable {β : Type}

/-- The state with a log of what its steps have given out. -/
def logged (step : σ → α → σ) (out : σ → α → List β) (x : σ × List β) (a : α) : σ × List β :=
  (step x.1 a, x.2 ++ out x.1 a)

theorem run_logged (out : σ → α → List β) : ∀ (x : σ × List β) (as : List α),
    (run (logged step out) x as).1 = run step x.1 as
  | _, [] => rfl
  | x, a :: as => run_logged out (logged step out x a) as

end Logged

/-- A preorder that every step respects, from the states of an invariant, relates the two ends of a run. -/
theorem run_rel {P : σ → Prop} {R : σ → σ → Prop} (hs : ∀ s a, P s → P (step s a)) (refl : ∀ s, R s s)
    (trans : ∀ s t u, R s t → R t u → R s u) (hR : ∀ s a, P s → R s (step s a)) :
    ∀ {s : σ} (as : List α), P s → R s (run step s as)
  | s, [], _ => refl s
  | s, a :: as, h => trans _ _ _ (hR s a h) (run_rel hs refl trans hR (s := step s a) as (hs s a h))

variable (step) in
/-- Some state that the run has passed, the first and the last one included, has `P`. -/
def Seen (P : σ → Prop) (s : σ) (as : List α) : Prop := ∃ bs, bs <+: as ∧ P (run step s bs)

theorem seen_now {P : σ → Prop} {s : σ} {as : List α} (h : P (run step s as)) : Seen step P s as :=
  ⟨as, List.prefix_refl as, h⟩

theorem seen_nil {P : σ → Prop} {s : σ} : Seen step P s [] ↔ P s := by
  constructor
  · rintro ⟨bs, hb, h⟩
    rw [List.prefix_nil.mp hb] at h
    exact h
  · intro h
    exact ⟨[], List.prefix_refl _, h⟩

/-- A passed state is the last one or one passed before the last step. -/
theorem seen_concat {P : σ → Prop} {s : σ} {as : List α} {a : α} :
    Seen step P s (as ++ [a]) ↔ Seen step P s as ∨ P (run step s (as ++ [a])) := by
  constructor
  · rintro ⟨bs, hb, h⟩
    rcases List.prefix_concat_iff.mp hb with rfl | hb
    · exact Or.inr (by simpa using h)
    · exact Or.inl ⟨bs, hb, h⟩
  · rintro (⟨bs, hb, h⟩ | h)
    · exact ⟨bs, hb.trans (List.prefix_append _ _), h⟩
    · exact seen_now h

theorem seen_cons {P : σ → Prop} {s : σ} {a : α} {as : List α} :
    Seen step P s (a :: as) ↔ P s ∨ Seen step P (step s a) as := by
  constructor
  · rintro ⟨bs, hb, h⟩
    cases bs with
    | nil => exact Or.inl h
    | cons b bs =>
      obtain ⟨rfl, hb'⟩ := List.cons_prefix_cons.mp hb
      exact Or.inr ⟨bs, hb', h⟩
  · rintro (h | ⟨bs, hb, h⟩)
    · exact ⟨[], List.nil_prefix, h⟩
    · exact ⟨a :: bs, List.cons_prefix_cons.mpr ⟨rfl, hb⟩, h⟩

instance Seen.decidable (P : σ → Prop) [DecidablePred P] : ∀ (s : σ) (as : List α), Decidable (Seen step P s as)
  | _, [] => decidable_of_iff _ seen_nil.symm
  | s, a :: as => @decidable_of_iff _ _ seen_cons.symm (@instDecidableOr _ _ _ (Seen.decidable P (step s a) as))

end Transition
