import KyNotes.Lib.Run
import KyNotes.Web.Drafts

/-!
# Drafts survive

* `SameEdit`: what `sameDraft` compares.
* One lemma for each transaction: what it leaves in the cache and in the queue.
* `Mirrored`: what the queue holds of a page is what the cache holds; a draft that is put makes it so and every
  transaction keeps it. So an edit is in the union of the two stores exactly when it is in the cache.
* `draft_survives`: only a later put, or a settlement or a replacement of exactly this edit, takes an edit out of both
  stores, and a recovery leaves what the cache marks as unsent in the queue.
-/

namespace KyNotes.Web

open Relational Transition

variable {s : LocalStores} {k : JsString × JsString} {n : PendingSave} {op : DraftOp}

/-- One edit: the same timestamp, base version, generation and bytes. -/
structure SameEdit (a b : CachedNote) : Prop where
  updatedAt : a.updatedAt = b.updatedAt
  version : a.version = b.version
  keyGeneration : a.keyGeneration = b.keyGeneration
  payload : a.payload = b.payload

theorem SameEdit.refl (a : CachedNote) : SameEdit a a := ⟨rfl, rfl, rfl, rfl⟩

theorem SameEdit.symm {a b : CachedNote} (h : SameEdit a b) : SameEdit b a :=
  ⟨h.updatedAt.symm, h.version.symm, h.keyGeneration.symm, h.payload.symm⟩

theorem SameEdit.trans {a b c : CachedNote} (h : SameEdit a b) (h' : SameEdit b c) : SameEdit a c :=
  ⟨h.updatedAt.trans h'.updatedAt, h.version.trans h'.version, h.keyGeneration.trans h'.keyGeneration,
    h.payload.trans h'.payload⟩

theorem sameDraft_some {c : PendingSave} {e : CachedNote} :
    sameDraft (some c) e = true ↔ SameEdit c.toCachedNote e := by
  simp only [sameDraft, Bool.and_eq_true, beq_iff_eq, sameBytes_iff]
  constructor
  · rintro ⟨⟨⟨hu, hv⟩, hg⟩, hp⟩
    exact ⟨hu, hv, hg, hp⟩
  · intro h
    exact ⟨⟨⟨h.updatedAt, h.version⟩, h.keyGeneration⟩, h.payload⟩

theorem sameDraft_iff {o : Option PendingSave} {e : CachedNote} :
    sameDraft o e = true ↔ ∃ c, o = some c ∧ SameEdit c.toCachedNote e := by
  cases o with
  | none => exact ⟨Bool.noConfusion, by rintro ⟨_, h, -⟩; cases h⟩
  | some c => simp [sameDraft_some]

/-- The key of a transaction. -/
def DraftOp.key : DraftOp → JsString × JsString
  | .putDraft note => note.key
  | .recoverDraft owner id _ => (owner, id)
  | .settleDraft expected _ => expected.key
  | .clearQueuedSave owner id _ => (owner, id)
  | .replaceQueuedSave expected _ => expected.key

/-- The store holds the edit `n`. -/
def CacheHolds (s : LocalStores) (n : PendingSave) : Prop :=
  ∃ c, s.notes.get n.key = some c ∧ SameEdit c.toCachedNote n.toCachedNote

def QueueHolds (s : LocalStores) (n : PendingSave) : Prop :=
  ∃ q, s.pending.get n.key = some q ∧ SameEdit q.toCachedNote n.toCachedNote

/-- The transaction is a put of the same page, or a settlement or a replacement of exactly the edit `n`. -/
def DraftOp.Takes (n : PendingSave) : DraftOp → Prop
  | .putDraft note => note.key = n.key
  | .settleDraft expected _ | .replaceQueuedSave expected _ =>
    expected.key = n.key ∧ SameEdit expected.toCachedNote n.toCachedNote
  | .recoverDraft .. | .clearQueuedSave .. => False

/-- What the queue holds of the page is the edit that the cache holds. -/
def Mirrored (s : LocalStores) (k : JsString × JsString) : Prop :=
  ∀ q, s.pending.get k = some q → ∃ c, s.notes.get k = some c ∧ SameEdit c.toCachedNote q.toCachedNote

/-! ## Recovery -/

theorem owned_key {owner id : JsString} {draft : PendingSave} (h : draft.key = (owner, id)) :
    PendingSave.key { draft with owner } = (owner, id) := by
  have hid : draft.id = id := congrArg Prod.snd h
  exact Prod.ext rfl hid

theorem requeue_notes (owner : JsString) (draft : PendingSave) (result : Option PendingSave) :
    (requeue s owner draft result).1.notes = s.notes := by
  unfold requeue
  split_ifs <;> rfl

/-- The queue after a recovery of the draft: the draft, or what it held. -/
theorem requeue_pending (owner : JsString) (draft : PendingSave) (result : Option PendingSave) :
    (requeue s owner draft result).1.pending = s.pending.put { draft with owner } ∨
      (requeue s owner draft result).1.pending = s.pending ∧ (draft.unsent = true →
        ∃ q, result = some q ∧
          (q.gone = true ∨ q.previousKey = true ∨ draft.updatedAt < q.updatedAt ∨ q.payload = draft.payload)) := by
  unfold requeue
  split_ifs with h₁ h₂ h₃
  · refine Or.inr ⟨rfl, fun hu => ?_⟩
    simp only [hu, Bool.not_true, Bool.false_or, setAside, Option.any_eq_true, Bool.or_eq_true] at h₁
    obtain ⟨q, hq, hg | hg⟩ := h₁
    · exact ⟨q, hq, Or.inl hg⟩
    · exact ⟨q, hq, Or.inr (Or.inl hg)⟩
  · refine Or.inr ⟨rfl, fun _ => ?_⟩
    obtain ⟨q, hq, hlt⟩ := (Option.any_eq_true _ _).mp h₂
    exact ⟨q, hq, Or.inr (Or.inr (Or.inl (of_decide_eq_true hlt)))⟩
  · refine Or.inr ⟨rfl, fun _ => ?_⟩
    obtain ⟨q, hq, hb⟩ := (Option.any_eq_true _ _).mp h₃
    exact ⟨q, hq, Or.inr (Or.inr (Or.inr (sameBytes_iff.mp hb)))⟩
  · exact Or.inl rfl

/-- A recovery of a cached edit: the edit that it recovers, marked or not, and the stores. -/
theorem recoverDraft_cached (owner id : JsString) (e : Option CachedNote) {cached : PendingSave}
    (h : s.notes.get (owner, id) = some cached) :
    ∃ draft s₁, draft.key = (owner, id) ∧ SameEdit draft.toCachedNote cached.toCachedNote ∧
      s₁.pending = s.pending ∧ s₁.notes.get (owner, id) = some draft ∧
      (∀ k, k ≠ (owner, id) → s₁.notes.get k = s.notes.get k) ∧
      recoverDraft s owner id e = requeue s₁ owner draft (s.pending.get (owner, id)) := by
  have hkey : cached.key = (owner, id) := Table.get_key h
  unfold recoverDraft
  simp only [h]
  split_ifs with hl
  · refine ⟨{ cached with unsent := true }, { s with notes := s.notes.put { cached with unsent := true } }, hkey,
      ⟨rfl, rfl, rfl, rfl⟩, rfl, ?_, fun k hk => ?_, rfl⟩
    · exact Table.get_put_of hkey
    · exact Table.get_put_ne fun h => hk (h.trans hkey)
  · exact ⟨cached, s, hkey, SameEdit.refl _, rfl, h, fun _ _ => rfl, rfl⟩

/-! ## Every transaction -/

/-- A transaction leaves the other pages alone. -/
theorem next_other (hk : k ≠ op.key) :
    (s.next op).notes.get k = s.notes.get k ∧ (s.next op).pending.get k = s.pending.get k := by
  cases op with
  | putDraft note => exact ⟨Table.get_put_ne hk, Table.get_put_ne hk⟩
  | recoverDraft owner id e =>
    simp only [LocalStores.next]
    cases hc : s.notes.get (owner, id) with
    | none =>
      unfold recoverDraft
      simp only [hc, and_self]
    | some cached =>
      obtain ⟨draft, s₁, hkey, -, hp, -, hother, heq⟩ := recoverDraft_cached owner id e hc
      rw [heq, requeue_notes, hother k hk, ← hp]
      refine ⟨rfl, ?_⟩
      rcases requeue_pending owner draft (s₁.pending.get (owner, id)) with h | ⟨h, -⟩
      · rw [h]
        exact Table.get_put_ne fun h => hk (h.trans (owned_key hkey))
      · rw [h]
  | settleDraft expected version =>
    simp only [LocalStores.next, settleDraft]
    constructor
    · split
      · rfl
      · rename_i current hc
        split
        · have hkey : current.key = expected.key := Table.get_key hc
          cases version with
          | none => exact Table.get_remove_ne hk
          | some v => exact Table.get_put_ne fun h => hk (h.trans hkey)
        · rfl
    · split
      · exact Table.get_remove_ne hk
      · rfl
  | clearQueuedSave owner id updatedAt =>
    simp only [LocalStores.next, clearQueuedSave]
    split
    · exact ⟨rfl, Table.get_remove_ne hk⟩
    · exact ⟨rfl, rfl⟩
  | replaceQueuedSave expected next =>
    simp only [LocalStores.next, replaceQueuedSave]
    split
    · cases next with
      | none => exact ⟨rfl, Table.get_remove_ne hk⟩
      | some next =>
        refine ⟨?_, Table.get_put_ne hk⟩
        simp only
        split
        · rfl
        · split
          · exact Table.get_put_ne hk
          · rfl
    · exact ⟨rfl, rfl⟩

/-- A cached edit stays until a transaction takes exactly it. -/
theorem next_cacheHolds (hn : CacheHolds s n) (ht : ¬op.Takes n) : CacheHolds (s.next op) n := by
  obtain ⟨c, hc, hs⟩ := hn
  by_cases hk : n.key = op.key
  · cases op with
    | putDraft note => exact absurd hk.symm ht
    | recoverDraft owner id e =>
      have hk : n.key = (owner, id) := hk
      rw [hk] at hc
      obtain ⟨draft, s₁, -, hd, -, hget, -, heq⟩ := recoverDraft_cached owner id e hc
      refine ⟨draft, ?_, hd.trans hs⟩
      simp only [LocalStores.next]
      rw [heq, requeue_notes, hk, hget]
    | settleDraft expected version =>
      have hk : n.key = expected.key := hk
      have hno : ¬sameDraft (some c) expected.toCachedNote = true := fun h =>
        ht ⟨hk.symm, (sameDraft_some.mp h).symm.trans hs⟩
      refine ⟨c, ?_, hs⟩
      simp only [LocalStores.next, settleDraft]
      rw [← hk, hc]
      simp only
      rw [if_neg hno, hc]
    | clearQueuedSave owner id updatedAt =>
      refine ⟨c, ?_, hs⟩
      simp only [LocalStores.next, clearQueuedSave]
      split <;> exact hc
    | replaceQueuedSave expected next =>
      have hk : n.key = expected.key := hk
      have hno : ¬sameDraft (some c) expected.toCachedNote = true := fun h =>
        ht ⟨hk.symm, (sameDraft_some.mp h).symm.trans hs⟩
      refine ⟨c, ?_, hs⟩
      simp only [LocalStores.next, replaceQueuedSave]
      split
      · cases next with
        | none => exact hc
        | some next =>
          simp only
          rw [← show n.key = expected.key from hk, hc]
          simp only
          rw [if_neg hno, hc]
      · exact hc
  · exact ⟨c, (next_other hk).1.trans hc, hs⟩

/-- Every transaction keeps the queue a mirror of the cache. -/
theorem next_mirrored (h : Mirrored s k) : Mirrored (s.next op) k := by
  by_cases hk : k = op.key
  · subst hk
    intro q hq
    cases op with
    | putDraft note =>
      have hq' : (s.pending.put note).get note.key = some q := hq
      rw [Table.get_put_self] at hq'
      cases hq'
      exact ⟨_, Table.get_put_self, ⟨rfl, rfl, rfl, rfl⟩⟩
    | recoverDraft owner id e =>
      simp only [LocalStores.next, DraftOp.key] at hq h ⊢
      cases hc : s.notes.get (owner, id) with
      | none =>
        have heq : (recoverDraft s owner id e).1 = s := by
          unfold recoverDraft
          simp only [hc]
        rw [heq] at hq ⊢
        exact h q hq
      | some cached =>
        obtain ⟨draft, s₁, hkey, hd, hp, hget, -, heq⟩ := recoverDraft_cached owner id e hc
        rw [heq] at hq ⊢
        refine ⟨draft, by rw [requeue_notes, hget], ?_⟩
        rcases requeue_pending owner draft (s.pending.get (owner, id)) with hr | ⟨hr, -⟩
        · rw [hr] at hq
          rw [Table.get_put_of (owned_key hkey)] at hq
          cases hq
          exact ⟨rfl, rfl, rfl, rfl⟩
        · rw [hr, hp] at hq
          obtain ⟨c, hc', hs⟩ := h q hq
          rw [hc] at hc'
          cases hc'
          exact hd.trans hs
    | settleDraft expected version =>
      simp only [LocalStores.next, settleDraft, DraftOp.key] at hq h ⊢
      split at hq
      · rw [Table.get_remove_self] at hq
        cases hq
      · rename_i hno
        obtain ⟨c, hc, hs⟩ := h q hq
        refine ⟨c, ?_, hs⟩
        rw [hc]
        simp only
        rw [if_neg, hc]
        rw [hq] at hno
        exact fun hcs => hno (sameDraft_some.mpr (hs.symm.trans (sameDraft_some.mp hcs)))
    | clearQueuedSave owner id updatedAt =>
      simp only [LocalStores.next, clearQueuedSave, DraftOp.key] at hq h ⊢
      split at hq
      · rw [Table.get_remove_self] at hq
        cases hq
      · rename_i hno
        rw [if_neg hno]
        exact h q hq
    | replaceQueuedSave expected next =>
      simp only [LocalStores.next, replaceQueuedSave, DraftOp.key] at hq h ⊢
      split at hq
      · rename_i hsame
        obtain ⟨q₀, hq₀, hs₀⟩ := sameDraft_iff.mp hsame
        obtain ⟨c, hc, hs⟩ := h q₀ hq₀
        cases next with
        | none =>
          simp only [Table.get_remove_self] at hq
          cases hq
        | some next =>
          -- the cached edit is `expected` too, so it moves with the queue
          have hcs : sameDraft (some c) expected.toCachedNote = true := sameDraft_some.mpr (hs.trans hs₀)
          have hq' : some { next with owner := expected.owner, id := expected.id } = some q :=
            (Table.get_put_of rfl).symm.trans hq
          cases hq'
          refine ⟨{ next with owner := expected.owner, id := expected.id, unsent := c.unsent }, ?_,
            ⟨rfl, rfl, rfl, rfl⟩⟩
          rw [if_pos hsame, hc]
          simp only
          rw [if_pos hcs]
          exact Table.get_put_of rfl
      · rename_i hno
        rw [if_neg hno]
        exact h q hq
  · intro q hq
    rw [(next_other hk).2] at hq
    rw [(next_other hk).1]
    exact h q hq

/-! ## Runs -/

/-- The edit is in the union of the two stores. -/
def Held (s : LocalStores) (n : PendingSave) : Prop := CacheHolds s n ∨ QueueHolds s n

theorem Mirrored.held_iff (h : Mirrored s n.key) : Held s n ↔ CacheHolds s n := by
  refine ⟨?_, Or.inl⟩
  rintro (hc | ⟨q, hq, hs⟩)
  · exact hc
  · obtain ⟨c, hc, hcs⟩ := h q hq
    exact ⟨c, hc, hcs.trans hs⟩

theorem putDraft_mirrored (s : LocalStores) (n : PendingSave) : Mirrored (putDraft s n) n.key := by
  intro q hq
  have hq' : (s.pending.put n).get n.key = some q := hq
  rw [Table.get_put_self] at hq'
  cases hq'
  exact ⟨_, Table.get_put_of rfl, ⟨rfl, rfl, rfl, rfl⟩⟩

/-- What a recovery of a page leaves: an unsent cached draft is queued, or the queue holds its bytes or a newer save, or
what it holds is set aside. -/
def Recovered (s : LocalStores) (k : JsString × JsString) : Prop :=
  ∀ c, s.notes.get k = some c → c.unsent = true →
    (∀ q, s.pending.get k = some q → q.gone = false ∧ q.previousKey = false) →
    ∃ q, s.pending.get k = some q ∧ (q.payload = c.payload ∨ c.updatedAt < q.updatedAt)

theorem recoverDraft_recovered (s : LocalStores) (owner id : JsString) (e : Option CachedNote) :
    Recovered (recoverDraft s owner id e).1 (owner, id) := by
  intro c hc hu hq
  cases hn : s.notes.get (owner, id) with
  | none =>
    have heq : (recoverDraft s owner id e).1 = s := by
      unfold recoverDraft
      simp only [hn]
    rw [heq, hn] at hc
    cases hc
  | some cached =>
    obtain ⟨draft, s₁, hkey, -, hp, hget, -, heq⟩ := recoverDraft_cached owner id e hn
    rw [heq] at hc hq ⊢
    rw [requeue_notes, hget, Option.some_inj] at hc
    subst hc
    rcases requeue_pending owner draft (s.pending.get (owner, id)) with hr | ⟨hr, hkept⟩
    · rw [hr, Table.get_put_of (owned_key hkey)]
      exact ⟨_, rfl, Or.inl rfl⟩
    · rw [hr, hp] at hq ⊢
      obtain ⟨q, hq', hg⟩ := hkept hu
      obtain ⟨hgone, hprev⟩ := hq q hq'
      rw [hgone, hprev] at hg
      rcases hg with hg | hg | hg | hg
      · cases hg
      · cases hg
      · exact ⟨q, hq', Or.inr hg⟩
      · exact ⟨q, hq', Or.inl hg⟩

/-- **Local drafts survive any tab interleaving.** From any stores, after a put of an edit and any transactions, a
transaction that takes the edit out of the union of the stores is a put of the same page, or a settlement or a
replacement of exactly this edit. And whatever the stores are, a recovery leaves the unsent draft of the cache, or
something better, in the queue. -/
theorem draft_survives :
    (∀ (s : LocalStores) (n : PendingSave) (ops : List DraftOp) (op : DraftOp),
      Held (run LocalStores.next (putDraft s n) ops) n →
      ¬Held ((run LocalStores.next (putDraft s n) ops).next op) n → op.Takes n) ∧
    ∀ (s : LocalStores) (owner id : JsString) (expectedLegacy : Option CachedNote),
      Recovered (recoverDraft s owner id expectedLegacy).1 (owner, id) := by
  refine ⟨?_, recoverDraft_recovered⟩
  intro s n ops op hheld hno
  have hm : Mirrored (run LocalStores.next (putDraft s n) ops) n.key :=
    run_inv (P := fun t => Mirrored t n.key) (fun _ _ h => next_mirrored h) ops (putDraft_mirrored s n)
  by_contra ht
  exact hno (Or.inl (next_cacheHolds (hm.held_iff.mp hheld) ht))

/-- An edit of page 2 of user 1. -/
def sampleDraft : PendingSave where
  id := [2]
  containerId := [3]
  version := 1
  payload := [7]
  updatedAt := [50]
  keyGeneration := some 2
  unsent := false
  owner := [1]
  previousKey := false
  gone := false
  conflicted := false

/-- The edit leaves when it is settled after it has waited in the cache alone. -/
theorem draft_survives_settled :
    (DraftOp.settleDraft sampleDraft none).Takes sampleDraft ∧
      Recovered (recoverDraft ⟨Table.empty, Table.empty⟩ [1] [2] none).1 ([1], [2]) := by
  refine ⟨draft_survives.1 ⟨Table.empty, Table.empty⟩ sampleDraft [.clearQueuedSave [1] [2] [50]] _ ?_ ?_,
    draft_survives.2 _ _ _ _⟩
  · exact Or.inl ⟨{ sampleDraft with unsent := true }, rfl, ⟨rfl, rfl, rfl, rfl⟩⟩
  · rintro (⟨c, hc, -⟩ | ⟨c, hc, -⟩)
    · cases hc
    · cases hc

end KyNotes.Web
