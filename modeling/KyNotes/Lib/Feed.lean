import Mathlib.Data.List.Sort
import KyNotes.Lib.Run

/-!
# Paging through a feed that grows

A feed is a list of entries, each with a sequence number; a page is the entries past a cursor in the order of their
numbers, cut at a limit, with the cursor after them. Between two pages a client asks for, the system steps.

* `covers`: where numbers are distinct, a page holds every entry from its cursor to its next cursor.
* `Caught`: the client has got every entry up to its cursor; a page keeps it (`Caught.ask`), and so does a step that
  gives a new number to every entry that it changes (`Caught.next`).
* `Caught.complete`: after the last page nothing is missing.
-/

namespace Feed

open Transition

variable {ε σ α : Type} (seq : ε → Nat)

/-- The entries past a cursor, in the order of their numbers. -/
def after (es : List ε) (since : Int) : List ε :=
  (es.filter fun e => since < seq e).mergeSort fun a b => seq a ≤ seq b

/-- The cursor after the entries that were sent. -/
def cursor (since : Int) (out : List ε) : Int := out.foldl (fun next e => if next < seq e then seq e else next) since

structure Page (ε : Type) where
  out : List ε
  next : Int
  more : Bool

/-- One page. -/
def page (es : List ε) (since : Int) (limit : Nat) : Page ε :=
  let rows := (after seq es since).take (limit + 1)
  let out := rows.take limit
  ⟨out, cursor seq since out, limit < rows.length⟩

variable {seq} {es : List ε} {since : Int} {limit : Nat}

theorem mem_after {e : ε} : e ∈ after seq es since ↔ e ∈ es ∧ since < seq e := by
  simp [after, List.mem_mergeSort, List.mem_filter]

theorem after_sorted (seq : ε → Nat) (es : List ε) (since : Int) :
    (after seq es since).Pairwise fun a b => seq a ≤ seq b := by
  have h : (after seq es since).Pairwise fun a b => decide (seq a ≤ seq b) = true := by
    refine List.pairwise_mergeSort ?_ ?_ _
    · intro a b c hab hbc
      exact decide_eq_true (Nat.le_trans (of_decide_eq_true hab) (of_decide_eq_true hbc))
    · intro a b
      simpa using Nat.le_total (seq a) (seq b)
  exact h.imp fun hab => of_decide_eq_true hab

theorem page_out (seq : ε → Nat) (es : List ε) (since : Int) (limit : Nat) :
    (page seq es since limit).out = (after seq es since).take limit := by
  simp [page, List.take_take]

theorem mem_out {e : ε} (h : e ∈ (page seq es since limit).out) : e ∈ es ∧ since < seq e := by
  rw [page_out] at h
  exact mem_after.mp (List.mem_of_mem_take h)

/-! ## The cursor -/

theorem cursor_cons (seq : ε → Nat) (a : ε) (out : List ε) (since : Int) :
    cursor seq since (a :: out) = cursor seq (max since (seq a)) out := by
  have h : (if since < seq a then (seq a : Int) else since) = max since (seq a) := by split <;> omega
  simp only [cursor, List.foldl_cons, h]

theorem le_cursor (seq : ε → Nat) : ∀ (out : List ε) (since : Int), since ≤ cursor seq since out
  | [], since => Int.le_refl since
  | a :: out, since => by
    have h := le_cursor seq out (max since (seq a))
    rw [cursor_cons]
    omega

/-- The cursor stays or is the number of an entry that was sent. -/
theorem cursor_eq (seq : ε → Nat) : ∀ (out : List ε) (since : Int), cursor seq since out = since ∨
    ∃ e ∈ out, cursor seq since out = seq e
  | [], _ => Or.inl rfl
  | a :: out, since => by
    rw [cursor_cons]
    rcases cursor_eq seq out (max since (seq a)) with h | ⟨e, he, h⟩
    · rw [h]
      rcases Int.le_total since (seq a) with hle | hle
      · exact Or.inr ⟨a, List.mem_cons_self, Int.max_eq_right hle⟩
      · exact Or.inl (Int.max_eq_left hle)
    · exact Or.inr ⟨e, List.mem_cons_of_mem _ he, h⟩

/-- Where numbers are distinct, a page holds every entry from its cursor to its next cursor. -/
theorem covers (hd : ∀ a ∈ es, ∀ b ∈ es, seq a = seq b → a = b) {e : ε} (he : e ∈ es) (hs : since < seq e)
    (hn : (seq e : Int) ≤ (page seq es since limit).next) : e ∈ (page seq es since limit).out := by
  have hout := page_out seq es since limit
  change (seq e : Int) ≤ cursor seq since (page seq es since limit).out at hn
  rcases cursor_eq seq (page seq es since limit).out since with h | ⟨x, hx, h⟩
  · omega
  · -- the last entry sent has a number at least that of `e`, which is not behind it then
    have hle : seq e ≤ seq x := by omega
    have hmem : e ∈ after seq es since := mem_after.mpr ⟨he, hs⟩
    have hsorted := after_sorted seq es since
    rw [← List.take_append_drop limit (after seq es since)] at hmem hsorted
    rw [hout] at hx ⊢
    rcases List.mem_append.mp hmem with hmem | hmem
    · exact hmem
    · have hge := (List.pairwise_append.mp hsorted).2.2 x hx e hmem
      have hxe := hd x (mem_after.mp (List.mem_of_mem_take hx)).1 e he (Nat.le_antisymm hge hle)
      rw [← hxe]
      exact hx

/-- The last page holds every entry past its cursor. -/
theorem covers_last {e : ε} (hm : (page seq es since limit).more = false) (he : e ∈ es) (hs : since < seq e) :
    e ∈ (page seq es since limit).out := by
  have hlen : (after seq es since).length ≤ limit := by
    simp only [page, List.length_take, decide_eq_false_iff_not, not_lt] at hm
    omega
  rw [page_out, List.take_of_length_le hlen]
  exact mem_after.mpr ⟨he, hs⟩

/-! ## A client -/

/-- A client that pages while the system steps. -/
structure Client (σ ε : Type) where
  state : σ
  cursor : Int
  got : List ε
  more : Bool

variable (seq) (feed : σ → List ε) (bound : σ → Nat) (step : σ → α → σ)

/-- The client asks for the next page. -/
def Client.ask (c : Client σ ε) (limit : Nat) : Client σ ε :=
  let pg := page seq (feed c.state) c.cursor limit
  { c with cursor := pg.next, got := c.got ++ pg.out, more := pg.more }

/-- The system steps. -/
def Client.wait (c : Client σ ε) (as : List α) : Client σ ε := { c with state := run step c.state as }

/-- Rounds: each some steps and a page. -/
def Client.rounds (c : Client σ ε) (rs : List (List α × Nat)) : Client σ ε :=
  rs.foldl (fun c r => (c.wait step r.1).ask seq feed r.2) c

/-- The client has got every entry past `since` up to its cursor, and its cursor is one of the feed's. -/
structure Caught (since : Int) (c : Client σ ε) : Prop where
  le : since ≤ c.cursor
  bounded : c.cursor = since ∨ c.cursor ≤ bound c.state
  got : ∀ e ∈ feed c.state, since < seq e → (seq e : Int) ≤ c.cursor → e ∈ c.got

/-- The numbers of the feed are distinct and bounded. -/
structure Numbered (s : σ) : Prop where
  distinct : ∀ a ∈ feed s, ∀ b ∈ feed s, seq a = seq b → a = b
  bounded : ∀ e ∈ feed s, seq e ≤ bound s

/-- A step gives a new number to every entry that it changes. -/
structure Stamps (s s' : σ) : Prop where
  mono : bound s ≤ bound s'
  fresh : ∀ e ∈ feed s', e ∈ feed s ∨ bound s < seq e

variable {seq feed bound step} {c : Client σ ε}

theorem Caught.ask (h : Caught seq feed bound since c) (hn : Numbered seq feed bound c.state) (limit : Nat) :
    Caught seq feed bound since (c.ask seq feed limit) where
  le := Int.le_trans h.le (le_cursor seq _ _)
  bounded := by
    rcases cursor_eq seq (page seq (feed c.state) c.cursor limit).out c.cursor with hc | ⟨e, he, hc⟩
    · rw [show (c.ask seq feed limit).cursor = c.cursor from hc]
      exact h.bounded
    · right
      rw [show (c.ask seq feed limit).cursor = seq e from hc]
      exact Int.ofNat_le.mpr (hn.bounded e (mem_out he).1)
  got := fun e he hs hle => by
    by_cases hc : (seq e : Int) ≤ c.cursor
    · exact List.mem_append_left _ (h.got e he hs hc)
    · exact List.mem_append_right _ (covers hn.distinct he (Int.not_le.mp hc) hle)

theorem Caught.next {s' : σ} (h : Caught seq feed bound since c) (hst : Stamps seq feed bound c.state s') :
    Caught seq feed bound since { c with state := s' } where
  le := h.le
  bounded := h.bounded.imp id fun hb => Int.le_trans hb (Int.ofNat_le.mpr hst.mono)
  got := fun e he hs hle => by
    rcases hst.fresh e he with he | hlt
    · exact h.got e he hs hle
    · -- a new number is past every cursor that the feed gave out
      have hb := h.bounded
      simp only at hle
      omega

/-- A client that has asked for the first page. -/
theorem caught_start {s : σ} : Caught seq feed bound since (⟨s, since, [], true⟩ : Client σ ε) :=
  ⟨Int.le_refl _, Or.inl rfl, fun _ _ hs hle => absurd hs (Int.not_lt.mpr hle)⟩

/-- After the last page nothing is missing. -/
theorem Caught.complete (h : Caught seq feed bound since c) {limit : Nat}
    (hm : (c.ask seq feed limit).more = false) {e : ε} (he : e ∈ feed c.state) (hs : since < seq e) :
    e ∈ (c.ask seq feed limit).got := by
  by_cases hc : (seq e : Int) ≤ c.cursor
  · exact List.mem_append_left _ (h.got e he hs hc)
  · exact List.mem_append_right _ (covers_last hm he (Int.not_le.mp hc))

/-- The steps of a run, from states of an invariant, keep a client caught. -/
theorem Caught.run {P : σ → Prop} {C : σ → α → Prop} (hP : ∀ s a, P s → P (step s a))
    (hC : ∀ s a, P s → C s a → Stamps seq feed bound s (step s a)) : ∀ {as : List α} {c : Client σ ε},
    P c.state → Along step C c.state as → Caught seq feed bound since c →
      P (c.wait step as).state ∧ Caught seq feed bound since (c.wait step as)
  | [], _, hp, _, h => ⟨hp, h⟩
  | a :: _, c, hp, hc, h =>
    Caught.run (c := { c with state := step c.state a }) hP hC (hP _ a hp) hc.2 (h.next (hC _ a hp hc.1))

/-- Every step between two pages meets the condition. -/
def Calm (seq : ε → Nat) (feed : σ → List ε) (step : σ → α → σ) (C : σ → α → Prop) :
    Client σ ε → List (List α × Nat) → Prop
  | _, [] => True
  | c, r :: rs => Along step C c.state r.1 ∧ Calm seq feed step C ((c.wait step r.1).ask seq feed r.2) rs

/-- **Nothing is lost.** A client that pages from a cursor to the last page, while the system makes steps that stamp
what they change, has got every entry of the feed past that cursor. -/
theorem rounds_complete {P : σ → Prop} {C : σ → α → Prop} (hP : ∀ s a, P s → P (step s a))
    (hn : ∀ s, P s → Numbered seq feed bound s) (hC : ∀ s a, P s → C s a → Stamps seq feed bound s (step s a)) :
    ∀ {l : List (List α × Nat)} {c : Client σ ε}, P c.state → Caught seq feed bound since c →
      (c.more = false → ∀ e ∈ feed c.state, since < seq e → e ∈ c.got) → Calm seq feed step C c l →
      (c.rounds seq feed step l).more = false →
      ∀ e ∈ feed (c.rounds seq feed step l).state, since < seq e → e ∈ (c.rounds seq feed step l).got
  | [], _, _, _, hdone, _, hm => hdone hm
  | r :: rs, c, hp, h, _, hcalm, hm => by
    obtain ⟨hp', h'⟩ := Caught.run hP hC hp hcalm.1 h
    exact rounds_complete hP hn hC (l := rs) (c := (c.wait step r.1).ask seq feed r.2) hp' (h'.ask (hn _ hp') r.2)
      (fun hlast _ he hs => h'.complete hlast he hs) hcalm.2 hm

end Feed
