import Mathlib.Order.Basic
import KyNotes.Lib.Run

/-!
# Threads on an event loop

A thread changes a state that it shares with other threads, and asks. Until it asks it runs alone (`settle`); while it
waits for its answer any other thread may run. A `Loop` has the state and the threads; its inputs start a thread and
answer one.

The logic is one of rely and guarantee. The states are a preorder, which every change goes up in, and an invariant `I`
holds between the changes. `Wp I p Q s`: from `s` on `p` makes only such changes and returns as `Q` says, whatever the
others do while it waits. `Loop.run_safe` is the soundness: where every program is safe in every state of `I`, the
invariant holds in every run, and the state only goes up. `Thread.alone` is a thread that no other interrupts, and
`Loop.run_alone` that such a run is one of the loop.

An `Async` is a thread that may fail, as its requests may. A failure ends it, unless it is inside an `attempt`.
-/

namespace EventLoop

variable {σ Req : Type} {Res : Req → Type} {α β : Type}

/-- A thread: it returns, it changes the state and goes on with the state before, or it asks. -/
inductive Thread (σ Req : Type) (Res : Req → Type) (α : Type) : Type
  | ret (a : α)
  | act (f : σ → σ) (k : σ → Thread σ Req Res α)
  | ask (r : Req) (k : Res r → Thread σ Req Res α)

namespace Thread

def bind : Thread σ Req Res α → (α → Thread σ Req Res β) → Thread σ Req Res β
  | .ret a, g => g a
  | .act f k, g => .act f fun s => (k s).bind g
  | .ask r k, g => .ask r fun x => (k x).bind g

/-- Runs alone until it asks or returns. -/
def settle : Thread σ Req Res α → σ → σ × Thread σ Req Res α
  | .ret a, s => (s, .ret a)
  | .act f k, s => (k s).settle (f s)
  | .ask r k, s => (s, .ask r k)

/-- Goes on with the answer, when it is what the thread waits for. -/
def resume [DecidableEq Req] (r : Req) (x : Res r) : Thread σ Req Res α → Thread σ Req Res α
  | .ask r' k => if h : r = r' then k (h ▸ x) else .ask r' k
  | p => p

/-- It has asked or returned. -/
def Parked : Thread σ Req Res α → Prop
  | .act _ _ => False
  | _ => True

theorem parked_settle : ∀ (p : Thread σ Req Res α) (s : σ), (p.settle s).2.Parked
  | .ret _, _ => trivial
  | .act f k, s => parked_settle (k s) (f s)
  | .ask _ _, _ => trivial

end Thread

/-! ## Weakest preconditions -/

section Wp

variable [Preorder σ] (I : σ → Prop)

/-- From `s` on, the changes of the thread keep `I` and go up, and what it returns meets `Q`. -/
def Wp : Thread σ Req Res α → (σ → α → Prop) → σ → Prop
  | .ret a, Q, s => I s → Q s a
  | .act f k, Q, s => I s → I (f s) ∧ s ≤ f s ∧ Wp (k s) Q (f s)
  | .ask _ k, Q, s => ∀ s' x, s ≤ s' → I s' → Wp (k x) Q s'

variable {I} {p : Thread σ Req Res α} {Q Q' : σ → α → Prop} {s s' : σ}

theorem wp_bind {g : α → Thread σ Req Res β} {Q : σ → β → Prop} (h : Wp I p (fun s a => Wp I (g a) Q s) s)
    (hi : I s) : Wp I (p.bind g) Q s := by
  induction p generalizing s with
  | ret a => exact h hi
  | act f k ih =>
    intro _
    obtain ⟨hf, hle, hk⟩ := h hi
    exact ⟨hf, hle, ih s hk hf⟩
  | ask r k ih => exact fun s' x hle hi' => ih x (h s' x hle hi') hi'

/-- What is returned is returned above the start. -/
theorem wp_frame (h : Wp I p Q s) (hle : s' ≤ s) : Wp I p (fun t a => s' ≤ t ∧ Q t a) s := by
  induction p generalizing s with
  | ret a => exact fun hi => ⟨hle, h hi⟩
  | act f k ih =>
    intro hi
    obtain ⟨hf, hup, hk⟩ := h hi
    exact ⟨hf, hup, ih s hk (hle.trans hup)⟩
  | ask r k ih => exact fun t x hup hi => ih x (h t x hup hi) (hle.trans hup)

theorem wp_mono (h : Wp I p Q s) (hq : ∀ t a, I t → Q t a → Q' t a) : Wp I p Q' s := by
  induction p generalizing s with
  | ret a => exact fun hi => hq s a hi (h hi)
  | act f k ih =>
    intro hi
    obtain ⟨hf, hup, hk⟩ := h hi
    exact ⟨hf, hup, ih s hk⟩
  | ask r k ih => exact fun t x hup hi => ih x (h t x hup hi)

/-- A waiting thread stays safe while others run. -/
theorem Wp.stable {Q : σ → α → Prop} (h : Wp I p Q s) (hp : p.Parked) (hup : s ≤ s') (hq : ∀ s a, Q s a) :
    Wp I p Q s' := by
  cases p with
  | ret a => exact fun _ => hq s' a
  | act f k => exact hp.elim
  | ask r k => exact fun t x ht hi => h t x (hup.trans ht) hi

theorem Wp.settle (h : Wp I p Q s) (hi : I s) :
    I (p.settle s).1 ∧ s ≤ (p.settle s).1 ∧ Wp I (p.settle s).2 Q (p.settle s).1 := by
  induction p generalizing s with
  | ret a => exact ⟨hi, le_rfl, h⟩
  | act f k ih =>
    obtain ⟨hf, hup, hk⟩ := h hi
    obtain ⟨hi', hle, hw⟩ := ih s hk hf
    exact ⟨hi', hup.trans hle, hw⟩
  | ask r k ih => exact ⟨hi, le_rfl, h⟩

theorem Wp.resume [DecidableEq Req] (h : Wp I p Q s) (hi : I s) (r : Req) (x : Res r) : Wp I (p.resume r x) Q s := by
  cases p with
  | ret a => exact h
  | act f k => exact h
  | ask r' k =>
    simp only [Thread.resume]
    by_cases hr : r = r'
    · rw [dif_pos hr]
      exact h s _ le_rfl hi
    · rw [dif_neg hr]
      exact h

end Wp

/-! ## Loops -/

structure Loop (σ Req : Type) (Res : Req → Type) where
  state : σ
  threads : List (Thread σ Req Res Unit)

inductive Input (Call Req : Type) (Res : Req → Type)
  | start (c : Call)
  | answer (i : Nat) (r : Req) (x : Res r)

namespace Loop

def step {Call : Type} [DecidableEq Req] (program : Call → Thread σ Req Res Unit) (l : Loop σ Req Res) : Input Call Req Res → Loop σ Req Res
  | .start c => ⟨((program c).settle l.state).1, l.threads ++ [((program c).settle l.state).2]⟩
  | .answer i r x =>
    match l.threads[i]? with
    | none => l
    | some p => ⟨((p.resume r x).settle l.state).1, l.threads.set i ((p.resume r x).settle l.state).2⟩

section Safe

variable [Preorder σ]

/-- The invariant holds, and every thread waits and is safe. -/
structure Safe (I : σ → Prop) (l : Loop σ Req Res) : Prop where
  inv : I l.state
  threads : ∀ p ∈ l.threads, p.Parked ∧ Wp I p (fun _ _ => True) l.state

variable {I : σ → Prop} {l : Loop σ Req Res}

/-- What one thread does until it waits leaves the others safe. -/
theorem Safe.settled (h : Safe I l) {p : Thread σ Req Res Unit} (hp : Wp I p (fun _ _ => True) l.state)
    {ps : List (Thread σ Req Res Unit)} (hps : ∀ q ∈ ps, q ∈ l.threads ∨ q = (p.settle l.state).2) :
    Safe I ⟨(p.settle l.state).1, ps⟩ ∧ l.state ≤ (p.settle l.state).1 := by
  obtain ⟨hi, hup, hw⟩ := hp.settle h.inv
  refine ⟨⟨hi, fun q hq => ?_⟩, hup⟩
  rcases hps q hq with hq | rfl
  · obtain ⟨hpark, hsafe⟩ := h.threads q hq
    exact ⟨hpark, hsafe.stable hpark hup fun _ _ => trivial⟩
  · exact ⟨p.parked_settle l.state, hw⟩

variable {Call : Type} [DecidableEq Req] {program : Call → Thread σ Req Res Unit}

theorem Safe.step (hprog : ∀ c s, I s → Wp I (program c) (fun _ _ => True) s) (h : Safe I l)
    (input : Input Call Req Res) : Safe I (l.step program input) ∧ l.state ≤ (l.step program input).state := by
  cases input with
  | start c =>
    refine h.settled (hprog c l.state h.inv) fun q hq => ?_
    exact (List.mem_append.mp hq).imp_right List.mem_singleton.mp
  | answer i r x =>
    simp only [Loop.step]
    cases hp : l.threads[i]? with
    | none => exact ⟨h, le_rfl⟩
    | some p =>
      have hmem : p ∈ l.threads := List.mem_of_getElem? hp
      exact h.settled ((h.threads p hmem).2.resume h.inv r x) fun q hq => List.mem_or_eq_of_mem_set hq

/-- In every run the invariant holds, and the state goes up. -/
theorem run_safe (hprog : ∀ c s, I s → Wp I (program c) (fun _ _ => True) s) (h : Safe I l)
    (inputs : List (Input Call Req Res)) : Safe I (Transition.run (step program) l inputs) :=
  Transition.run_inv (fun _ input hl => (hl.step hprog input).1) inputs h

end Safe

end Loop

/-! ## A thread alone -/

section Alone

variable (answer : ∀ r, Res r)

/-- Runs to the end with these answers, and no other thread meanwhile. -/
def Thread.alone : Thread σ Req Res α → σ → σ × α
  | .ret a, s => (s, a)
  | .act f k, s => (k s).alone (f s)
  | .ask r k, s => (k (answer r)).alone s

theorem Thread.alone_bind (g : α → Thread σ Req Res β) : ∀ (p : Thread σ Req Res α) (s : σ),
    (p.bind g).alone answer s = (g (p.alone answer s).2).alone answer (p.alone answer s).1
  | .ret _, _ => rfl
  | .act f k, s => alone_bind g (k s) (f s)
  | .ask r k, s => alone_bind g (k (answer r)) s

/-- A thread that is answered until it returns, and no other meanwhile, changes the state as it does alone. -/
theorem Loop.run_alone {Call : Type} [DecidableEq Req] (program : Call → Thread σ Req Res Unit) (n : Nat)
    (p : Thread σ Req Res Unit) (s : σ) : ∃ rs : List Req, ∀ l : Loop σ Req Res, l.state = (p.settle s).1 →
      l.threads[n]? = some (p.settle s).2 →
      (Transition.run (Loop.step program) l (rs.map fun r => .answer n r (answer r))).state = (p.alone answer s).1 := by
  induction p generalizing s with
  | ret a => exact ⟨[], fun l hs _ => hs⟩
  | act f k ih => exact ih s (f s)
  | ask r k ih =>
    obtain ⟨rs, hrs⟩ := ih (answer r) s
    refine ⟨r :: rs, fun l hs hn => ?_⟩
    have hlt : n < l.threads.length := (List.getElem?_eq_some_iff.mp hn).1
    have hstep : l.step program (.answer n r (answer r)) =
        ⟨((k (answer r)).settle s).1, l.threads.set n ((k (answer r)).settle s).2⟩ := by
      have hr : (Thread.ask r k).resume r (answer r) = k (answer r) := dif_pos rfl
      simp only [Loop.step, hn, Thread.settle, hr, hs]
    rw [List.map_cons, Transition.run_cons, hstep]
    exact hrs _ rfl (List.getElem?_set_self hlt)

end Alone

/-! ## Several loops -/

/-- An input of one of several loops. -/
def stepAt {Call : Type} [DecidableEq Req] (program : Call → Thread σ Req Res Unit) (ls : List (Loop σ Req Res))
    (x : Nat × Input Call Req Res) : List (Loop σ Req Res) :=
  ls.modify x.1 fun l => l.step program x.2

/-- In every run of several loops the invariant holds in each. -/
theorem runAt_safe {Call : Type} [DecidableEq Req] [Preorder σ] {I : σ → Prop}
    {program : Call → Thread σ Req Res Unit} (hprog : ∀ c s, I s → Wp I (program c) (fun _ _ => True) s)
    {ls : List (Loop σ Req Res)} (h : ∀ l ∈ ls, l.Safe I) (xs : List (Nat × Input Call Req Res)) :
    ∀ l ∈ Transition.run (stepAt program) ls xs, l.Safe I := by
  refine Transition.run_inv (P := fun ls => ∀ l ∈ ls, Loop.Safe I l) (fun ls x hls l hl => ?_) xs h
  obtain ⟨i, hi⟩ := List.mem_iff_getElem?.mp hl
  rw [stepAt, List.getElem?_modify] at hi
  obtain ⟨l', hl', rfl⟩ := Option.map_eq_some_iff.mp hi
  have hsafe : l'.Safe I := hls l' (List.mem_of_getElem? hl')
  split
  · exact (hsafe.step hprog x.2).1
  · exact hsafe

/-! ## Threads that may fail -/

/-- A thread that may fail, and whose requests may fail. -/
def Async (σ ε Req : Type) (Val : Req → Type) (α : Type) : Type :=
  Thread σ Req (fun r => Except ε (Val r)) (Except ε α)

namespace Async

variable {ε : Type} {Val : Req → Type}

instance : Monad (Async σ ε Req Val) where
  pure a := .ret (.ok a)
  bind x f := Thread.bind x fun out =>
    match out with
    | .ok a => f a
    | .error e => .ret (.error e)

/-- Asks; a failure of the request is one of the thread. -/
def call (r : Req) : Async σ ε Req Val (Val r) := .ask r .ret

def fail (e : ε) : Async σ ε Req Val α := .ret (.error e)

/-- Reads the state. -/
def read (f : σ → α) : Async σ ε Req Val α := .act id fun s => .ret (.ok (f s))

/-- Changes the state, and reads it as it was before. -/
def exchange (f : σ → σ) (g : σ → α) : Async σ ε Req Val α := .act f fun s => .ret (.ok (g s))

def update (f : σ → σ) : Async σ ε Req Val Unit := exchange f fun _ => ()

/-- Goes on with a failure of the thread. -/
def attempt (x : Async σ ε Req Val α) : Async σ ε Req Val (Except ε α) := Thread.bind x fun out => .ret (.ok out)

/-- The value, or the failure when there is none. -/
def orFail (x : Option α) (e : ε) : Async σ ε Req Val α :=
  match x with
  | some a => pure a
  | none => fail e

def ofExcept : Except ε α → Async σ ε Req Val α := .ret

/-- Runs to the end, and keeps nothing of its outcome. -/
def detach (x : Async σ ε Req Val α) : Thread σ Req (fun r => Except ε (Val r)) Unit := Thread.bind x fun _ => .ret ()

/-- Runs to the end with these answers, and no other thread meanwhile. -/
def alone (answer : ∀ r, Except ε (Val r)) (x : Async σ ε Req Val α) : σ → σ × Except ε α := Thread.alone answer x

section Alone

variable {answer : ∀ r, Except ε (Val r)} {x : Async σ ε Req Val α} {s t : σ}

theorem alone_bind {f : α → Async σ ε Req Val β} {a : α} (h : x.alone answer s = (t, .ok a)) :
    (x >>= f).alone answer s = (f a).alone answer t := by
  refine (Thread.alone_bind answer _ x s).trans ?_
  rw [show Thread.alone answer x s = (t, .ok a) from h]
  rfl

theorem alone_attempt : x.attempt.alone answer s = ((x.alone answer s).1, .ok (x.alone answer s).2) :=
  Thread.alone_bind answer _ x s

theorem alone_detach : (Thread.alone answer x.detach s).1 = (x.alone answer s).1 :=
  congrArg Prod.fst (Thread.alone_bind answer (fun _ => .ret ()) x s)

end Alone

variable [Preorder σ] (I : σ → Prop)

/-- From `s` on, the changes keep `I` and go up; a value meets `Q` and a failure `E`. -/
def Wp (x : Async σ ε Req Val α) (Q : σ → α → Prop) (E : σ → ε → Prop) (s : σ) : Prop :=
  EventLoop.Wp I x (fun s out =>
    match out with
    | .ok a => Q s a
    | .error e => E s e) s

variable {I} {Q Q' : σ → α → Prop} {E E' : σ → ε → Prop} {s : σ} {x : Async σ ε Req Val α}

theorem wp_pure {a : α} (h : I s → Q s a) : Wp I (pure a : Async σ ε Req Val α) Q E s := h

theorem wp_fail {e : ε} (h : I s → E s e) : Wp I (fail e : Async σ ε Req Val α) Q E s := h

theorem wp_bind {f : α → Async σ ε Req Val β} {Q : σ → β → Prop} (hi : I s)
    (h : Wp I x (fun s a => Wp I (f a) Q E s) E s) : Wp I (x >>= f) Q E s := by
  refine EventLoop.wp_bind (EventLoop.wp_mono h fun t out hi' hout => ?_) hi
  cases out with
  | ok a => exact hout
  | error e => exact fun _ => hout

/-- What follows starts above, with what was returned. -/
theorem wp_seq {f : α → Async σ ε Req Val β} {Q' : σ → β → Prop} (hi : I s) (h : Wp I x Q E s)
    (hf : ∀ t a, I t → s ≤ t → Q t a → Wp I (f a) Q' E t) : Wp I (x >>= f) Q' E s := by
  refine EventLoop.wp_bind (EventLoop.wp_mono (EventLoop.wp_frame h le_rfl) fun t out hi' hout => ?_) hi
  obtain ⟨hup, hout⟩ := hout
  cases out with
  | ok a => exact hf t a hi' hup hout
  | error e => exact fun _ => hout

theorem wp_mono (h : Wp I x Q E s) (hq : ∀ t a, I t → s ≤ t → Q t a → Q' t a)
    (he : ∀ t e, I t → s ≤ t → E t e → E' t e) : Wp I x Q' E' s := by
  refine EventLoop.wp_mono (EventLoop.wp_frame h le_rfl) fun t out hi hout => ?_
  obtain ⟨hup, hout⟩ := hout
  cases out with
  | ok a => exact hq t a hi hup hout
  | error e => exact he t e hi hup hout

theorem wp_call {r : Req} {Q : σ → Val r → Prop} (hq : ∀ t v, s ≤ t → I t → Q t v) (he : ∀ t e, s ≤ t → I t → E t e) :
    Wp I (call r : Async σ ε Req Val (Val r)) Q E s := by
  intro t out hup hi _
  cases out with
  | ok v => exact hq t v hup hi
  | error e => exact he t e hup hi

theorem wp_read {f : σ → α} (h : I s → Q s (f s)) : Wp I (read f : Async σ ε Req Val α) Q E s :=
  fun hi => ⟨hi, le_rfl, fun _ => h hi⟩

theorem wp_exchange {f : σ → σ} {g : σ → α} (h : I s → I (f s) ∧ s ≤ f s ∧ Q (f s) (g s)) :
    Wp I (exchange f g : Async σ ε Req Val α) Q E s := by
  intro hi
  obtain ⟨hf, hup, hq⟩ := h hi
  exact ⟨hf, hup, fun _ => hq⟩

theorem wp_update {f : σ → σ} {Q : σ → Unit → Prop} (h : I s → I (f s) ∧ s ≤ f s ∧ Q (f s) ()) :
    Wp I (update f : Async σ ε Req Val Unit) Q E s :=
  wp_exchange h

theorem wp_attempt {Q : σ → Except ε α → Prop} (hi : I s)
    (h : Wp I x (fun s a => Q s (.ok a)) (fun s e => Q s (.error e)) s) : Wp I (attempt x) Q E s := by
  refine EventLoop.wp_bind (EventLoop.wp_mono h fun t out hi' hout => ?_) hi
  cases out with
  | ok a => exact fun _ => hout
  | error e => exact fun _ => hout

theorem wp_orFail {o : Option α} {e : ε} (hq : ∀ a, o = some a → I s → Q s a) (he : I s → E s e) :
    Wp I (orFail o e : Async σ ε Req Val α) Q E s := by
  cases o with
  | none => exact he
  | some a => exact hq a rfl

theorem wp_ofExcept {out : Except ε α} (hq : ∀ a, out = .ok a → Q s a) (he : ∀ e, out = .error e → E s e) :
    Wp I (ofExcept out : Async σ ε Req Val α) Q E s := by
  cases out with
  | ok a => exact fun _ => hq a rfl
  | error e => exact fun _ => he e rfl

theorem wp_detach (hi : I s) (h : Wp I x (fun _ _ => True) (fun _ _ => True) s) :
    EventLoop.Wp I x.detach (fun _ _ => True) s :=
  EventLoop.wp_bind (EventLoop.wp_mono h fun _ _ _ _ _ => trivial) hi

end Async

end EventLoop
