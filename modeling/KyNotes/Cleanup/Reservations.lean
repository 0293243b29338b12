import KyNotes.Cleanup.System

/-!
# Cleanup slots track live sources

`Matched` says that the sources with a pending slot are the live ones. A transaction does one of four things to the live
sources: it drops rows, and the triggers follow; it adds one, and reserves; it retires one, and fills; it leaves them as
they are. `step_effect` says which, once, and every result below is a case analysis on it.
-/

namespace KyNotes.Cleanup

open Relational Check

variable {cfg : Config} {e : Encoding} {s : State} {c : Call} {source : Source} {actor : UserId} {old new : DB} {t t' : Slots}

/-! ## Rows -/

/-- No row is new, and the rows left are as they were. -/
def Shrunk (old new : DB) : Prop :=
  (∀ c ∈ new.pages.comments, c ∈ old.pages.comments) ∧ ∀ l ∈ new.sealedShareLinks, l ∈ old.sealedShareLinks

theorem Shrunk.refl (db : DB) : Shrunk db db := ⟨fun _ h => h, fun _ h => h⟩

theorem Shrunk.live (h : Shrunk old new) : Live new source ↔ Live old source ∧ HasRow new source := by
  obtain ⟨kind, id⟩ := source
  cases kind with
  | comment =>
    constructor
    · rintro ⟨c, hc, hid, hd⟩
      exact ⟨⟨c, h.1 c hc, hid, hd⟩, c, hc, hid⟩
    · rintro ⟨⟨c, hc, hid, hd⟩, c', hc', hid'⟩
      obtain rfl : c' = c := Table.eq_of_key (h.1 c' hc') hc (hid'.trans hid.symm)
      exact ⟨c', hc', hid', hd⟩
  | sealedShareLink =>
    constructor
    · rintro ⟨l, hl, hid, hd⟩
      exact ⟨⟨l, h.2 l hl, hid, hd⟩, l, hl, hid⟩
    · rintro ⟨⟨l, hl, hid, hd⟩, l', hl', hid'⟩
      obtain rfl : l' = l := Table.eq_of_key (h.2 l' hl') hl (hid'.trans hid.symm)
      exact ⟨l', hl', hid', hd⟩

theorem Shrunk.hasRow (h : Shrunk old new) (hr : HasRow new source) : HasRow old source := by
  obtain ⟨kind, id⟩ := source
  cases kind with
  | comment =>
    obtain ⟨c, hc, hid⟩ := hr
    exact ⟨c, h.1 c hc, hid⟩
  | sealedShareLink =>
    obtain ⟨l, hl, hid⟩ := hr
    exact ⟨l, h.2 l hl, hid⟩

/-- Every row has one of the same source, and all live sources but one are as they were. -/
structure Retired (source : Source) (old new : DB) : Prop where
  hasRow : ∀ x, HasRow old x → HasRow new x
  live : ∀ x, Live new x ↔ Live old x ∧ x ≠ source

/-- One source is new, and it is live. -/
structure Added (source : Source) (old new : DB) : Prop where
  hasRow : ∀ x, HasRow old x → HasRow new x
  live : ∀ x, Live new x ↔ Live old x ∨ x = source

theorem retired_comment {id : CommentId} {f : Comment → Comment} (hid : ∀ x, (f x).id = x.id)
    (hd : ∀ x, (f x).deletedAt ≠ none) (hp : new.pages.comments = old.pages.comments.update (fun x => x.id = id) f)
    (hl : new.sealedShareLinks = old.sealedShareLinks) : Retired ⟨.comment, id⟩ old new where
  hasRow := by
    rintro ⟨kind, i⟩ h
    cases kind with
    | comment =>
      obtain ⟨c, hc, hci⟩ := h
      by_cases hc' : c.id = id
      · refine ⟨f c, ?_, (hid c).trans hci⟩
        rw [hp]
        exact Table.mem_update_of hc hc' hid
      · refine ⟨c, ?_, hci⟩
        rw [hp]
        exact Table.mem_update_of_not hc hc'
    | sealedShareLink =>
      obtain ⟨l, hl', hli⟩ := h
      exact ⟨l, hl ▸ hl', hli⟩
  live := by
    rintro ⟨kind, i⟩
    cases kind with
    | comment =>
      constructor
      · rintro ⟨c, hc, hci, hcd⟩
        rw [hp] at hc
        obtain ⟨hc, hne⟩ | ⟨c, -, -, rfl⟩ := Table.mem_update_cases hc hid
        · exact ⟨⟨c, hc, hci, hcd⟩, fun h => hne (hci.trans (congrArg Source.id h))⟩
        · exact absurd hcd (hd c)
      · rintro ⟨⟨c, hc, hci, hcd⟩, hne⟩
        refine ⟨c, ?_, hci, hcd⟩
        rw [hp]
        exact Table.mem_update_of_not hc fun h => hne (by rw [← h]; exact congrArg _ hci.symm)
    | sealedShareLink =>
      have hne : (⟨.sealedShareLink, i⟩ : Source) ≠ ⟨.comment, id⟩ := by simp
      rw [Live, Live, hl]
      exact ⟨fun h => ⟨h, hne⟩, And.left⟩

theorem retired_link {id : LinkId} {f : SealedShareLink → SealedShareLink} (hid : ∀ x, (f x).id = x.id)
    (hd : ∀ x, (f x).revokedAt ≠ none) (hp : new.pages.comments = old.pages.comments)
    (hl : new.sealedShareLinks = old.sealedShareLinks.update (fun x => x.id = id) f) :
    Retired ⟨.sealedShareLink, id⟩ old new where
  hasRow := by
    rintro ⟨kind, i⟩ h
    cases kind with
    | comment =>
      obtain ⟨c, hc, hci⟩ := h
      exact ⟨c, hp ▸ hc, hci⟩
    | sealedShareLink =>
      obtain ⟨l, hl', hli⟩ := h
      by_cases hc : l.id = id
      · refine ⟨f l, ?_, (hid l).trans hli⟩
        rw [hl]
        exact Table.mem_update_of hl' hc hid
      · refine ⟨l, ?_, hli⟩
        rw [hl]
        exact Table.mem_update_of_not hl' hc
  live := by
    rintro ⟨kind, i⟩
    cases kind with
    | comment =>
      have hne : (⟨.comment, i⟩ : Source) ≠ ⟨.sealedShareLink, id⟩ := by simp
      rw [Live, Live, hp]
      exact ⟨fun h => ⟨h, hne⟩, And.left⟩
    | sealedShareLink =>
      constructor
      · rintro ⟨l, hl', hli, hld⟩
        rw [hl] at hl'
        obtain ⟨hl', hne⟩ | ⟨l, -, -, rfl⟩ := Table.mem_update_cases hl' hid
        · exact ⟨⟨l, hl', hli, hld⟩, fun h => hne (hli.trans (congrArg Source.id h))⟩
        · exact absurd hld (hd l)
      · rintro ⟨⟨l, hl', hli, hld⟩, hne⟩
        refine ⟨l, ?_, hli, hld⟩
        rw [hl]
        exact Table.mem_update_of_not hl' fun h => hne (by rw [← h]; exact congrArg _ hli.symm)

theorem added_comment {x : Comment} (hx : x.deletedAt = none) (hp : old.pages.comments.insert x = some new.pages.comments)
    (hl : new.sealedShareLinks = old.sealedShareLinks) : Added ⟨.comment, x.id⟩ old new where
  hasRow := by
    rintro ⟨kind, i⟩ h
    cases kind with
    | comment =>
      obtain ⟨c, hc, hci⟩ := h
      exact ⟨c, (Table.mem_insert hp).2 (.inl hc), hci⟩
    | sealedShareLink =>
      obtain ⟨l, hl', hli⟩ := h
      exact ⟨l, hl ▸ hl', hli⟩
  live := by
    rintro ⟨kind, i⟩
    cases kind with
    | comment =>
      constructor
      · rintro ⟨c, hc, hci, hcd⟩
        obtain hc | rfl := (Table.mem_insert hp).1 hc
        · exact .inl ⟨c, hc, hci, hcd⟩
        · exact .inr (congrArg _ hci.symm)
      · rintro (⟨c, hc, hci, hcd⟩ | h)
        · exact ⟨c, (Table.mem_insert hp).2 (.inl hc), hci, hcd⟩
        · exact ⟨x, (Table.mem_insert hp).2 (.inr rfl), (congrArg Source.id h).symm, hx⟩
    | sealedShareLink =>
      rw [Live, Live, hl]
      simp

theorem added_link {x : SealedShareLink} (hx : x.revokedAt = none) (hp : new.pages.comments = old.pages.comments)
    (hl : old.sealedShareLinks.insert x = some new.sealedShareLinks) : Added ⟨.sealedShareLink, x.id⟩ old new where
  hasRow := by
    rintro ⟨kind, i⟩ h
    cases kind with
    | comment =>
      obtain ⟨c, hc, hci⟩ := h
      exact ⟨c, hp ▸ hc, hci⟩
    | sealedShareLink =>
      obtain ⟨l, hl', hli⟩ := h
      exact ⟨l, (Table.mem_insert hl).2 (.inl hl'), hli⟩
  live := by
    rintro ⟨kind, i⟩
    cases kind with
    | comment =>
      rw [Live, Live, hp]
      simp
    | sealedShareLink =>
      constructor
      · rintro ⟨l, hl', hli, hld⟩
        obtain hl' | rfl := (Table.mem_insert hl).1 hl'
        · exact .inl ⟨l, hl', hli, hld⟩
        · exact .inr (congrArg _ hli.symm)
      · rintro (⟨l, hl', hli, hld⟩ | h)
        · exact ⟨l, (Table.mem_insert hl).2 (.inl hl'), hli, hld⟩
        · exact ⟨x, (Table.mem_insert hl).2 (.inr rfl), (congrArg Source.id h).symm, hx⟩

/-! ## What a call does -/

/-- A transaction that neither makes nor retires a source drops rows at most. -/
theorem change_shrunk {w : World} {op : Op} {st : Store} (h : Change cfg w op st)
    (hd : ∀ u id, op ≠ .deleteComment u id) (hc : ∀ u n x b, op ≠ .createShareLink u n x b)
    (hr : ∀ u id, op ≠ .revokeShareLink u id)
    (hj : ∀ rid r cid p, op = .resume rid → w.job rid = some (.comment r (.tx cid)) →
      commentTx cfg w.store.db w.store.now r cid w.store.next ≠ .ok p) : Shrunk w.store.db st.db := by
  cases h
  case deleteComment => exact absurd rfl (hd _ _)
  case createShareLink => exact absurd rfl (hc _ _ _ _)
  case revokeShareLink => exact absurd rfl (hr _ _)
  case comment hjob h => exact absurd h (hj _ _ _ _ rfl hjob)
  case deleteContainer h =>
    cases deleteContainer_ok h
    exact ⟨fun c hc => (Table.mem_delete.1 hc).1, fun _ h => h⟩
  case createObject h =>
    obtain ⟨-, t, -, rfl⟩ := createObject_ok h
    exact Shrunk.refl _
  case resolveConflict h =>
    obtain ⟨c, -, -, rfl⟩ := resolveConflict_ok h
    exact Shrunk.refl _
  case put h =>
    obtain ⟨o, blobs, pages, -, -, rfl, ⟨-, -, t, i, -, -, rfl⟩ | ⟨-, -, t, i, -, -, rfl⟩⟩ := putTx_ok h
    · exact Shrunk.refl _
    · exact Shrunk.refl _
  case deleteObject => exact ⟨fun c hc => (Table.mem_delete.1 hc).1, fun _ h => h⟩
  case link h =>
    obtain ⟨a, -, -, -, rfl⟩ := linkTx_ok h
    exact Shrunk.refl _
  case startUpload h =>
    obtain ⟨-, t, -, rfl⟩ := startTx_ok h
    exact Shrunk.refl _
  case finalize h =>
    obtain ⟨hf, ⟨-, hp, -⟩ | ⟨-, -, -, att, -, hp⟩⟩ := finalizeTx_ok h
    · exact ⟨fun c hc => by rwa [hp] at hc, fun l hl => by rwa [hf.links] at hl⟩
    · obtain ⟨a, -, -, hp⟩ | ⟨-, -, t, -, hp⟩ := placeAttachment_ok hp
      · exact ⟨fun c hc => by rw [hp] at hc; exact hc, fun l hl => by rwa [hf.links] at hl⟩
      · exact ⟨fun c hc => by rw [hp] at hc; exact hc, fun l hl => by rwa [hf.links] at hl⟩
  case gcLinks => exact ⟨fun _ h => h, fun l hl => (Table.mem_delete.1 hl).1⟩
  all_goals exact Shrunk.refl _

theorem change_next_le {w : World} {op : Op} {st : Store} (h : Change cfg w op st) : w.store.next ≤ st.next := by
  cases h <;> first | exact Nat.le_refl _ | exact Nat.le_succ _

/-- A deleted comment. -/
def tombstone (now : Stamp) (seq : Nat) (x : Comment) : Comment :=
  { x with deletedAt := some now, bodyBytes := 0, changeSeq := seq }

theorem deleteComment_cases {db : DB} {u : UserId} {id : CommentId} {now : Stamp} {p : PageTables}
    (h : deleteComment db u id now = .ok p) :
    (Live db ⟨.comment, id⟩ ∧ ∃ f : Comment → Comment, (∀ x, (f x).id = x.id) ∧ (∀ x, (f x).deletedAt ≠ none) ∧
      p.comments = db.pages.comments.update (fun x => x.id = id) f) ∨ ¬Live db ⟨.comment, id⟩ ∧ p = db.pages := by
  simp only [deleteComment, bind_ok, require_ok, fetch_ok] at h
  obtain ⟨c, hc, _, -, _, -, _, -, _, -, h⟩ := h
  split at h
  · rename_i hd
    cases h
    exact .inl ⟨⟨c, Table.get_mem hc, Table.get_key hc, hd⟩, tombstone now _, fun _ => rfl,
      fun _ => Option.some_ne_none _, rfl⟩
  · rename_i hd
    cases h
    refine .inr ⟨?_, rfl⟩
    rintro ⟨c', hc', hid, hd'⟩
    have hg := Table.get_of_mem hc'
    rw [show c'.id = id from hid, hc] at hg
    cases hg
    exact hd hd'

/-- A call that deletes a comment or revokes a link, and who makes it. -/
def Call.Retires (c : Call) (source : Source) (actor : UserId) : Prop :=
  c.op = .deleteComment actor source.id ∧ source.kind = .comment ∨
    c.op = .revokeShareLink actor source.id ∧ source.kind = .sealedShareLink

/-- A call that commits a comment or makes a link. -/
def Call.Creates (c : Call) (w : World) : Prop :=
  (∃ u n x b, c.op = .createShareLink u n x b) ∨
    ∃ rid r cid, c.op = .resume rid ∧ w.job rid = some (.comment r (.tx cid))

/-- What a call does to the sources and the slots. -/
inductive Effect (e : Encoding) (s : State) (c : Call) (s' : State) : Prop
  | refused (hdb : s'.db = s.db) (hn : s'.server.store.next = s.server.store.next) (ht : s'.slots = s.slots)
      (hv : s'.events = s.events)
  | shrunk (h : Shrunk s.db s'.db) (hdb : ∀ source actor, c.Retires source actor → s'.db = s.db)
      (hn : s.server.store.next ≤ s'.server.store.next)
      (ht : s'.slots = dropPending s.slots s.db s'.db) (hv : s'.events = s.events ++ c.records)
  | added (source : Source) (containerId : Option ContainerId) (hop : c.Creates s.server)
      (hid : source.id = s.server.store.next) (h : Added source s.db s'.db)
      (hn : s'.server.store.next = s.server.store.next + 1)
      (ht : s.slots.insert (newSlot e source containerId s.server.store.next) = some s'.slots)
      (hv : s'.events = s.events ++ c.records)
  | retired (source : Source) (actor : UserId) (x : Slot) (hop : c.Retires source actor) (hl : Live s.db source)
      (h : Retired source s.db s'.db) (hn : s'.server.store.next = s.server.store.next + 1)
      (hx : s.slots.get source = some x) (hr : x.record = none) (hnow : s.server.store.now < year10000)
      (ht : s'.slots = s.slots.update (fun y => y.source = source) fun y =>
        y.filled actor c.requestId s.server.store.now)
      (hv : s'.events = s.events)

/-- The triggers drop nothing where every row stays. -/
theorem dropPending_kept (h : ∀ x, HasRow old x → HasRow new x) (t : Slots) : dropPending t old new = t :=
  Table.delete_of_forall_not fun _ _ hs => hs.2.2 (h _ hs.2.1)

theorem rolledBack_store (w : World) (op : Op) : (rolledBack w op).store = w.store := by
  cases op <;> rfl

theorem step_refused {er : Err} (h : slotTx cfg e s c = .error er) : Effect e s c (s.step cfg e c) := by
  have hs : s.step cfg e c = { s with server := rolledBack s.server c.op } := by rw [State.step, h]
  rw [hs]
  have hst := rolledBack_store s.server c.op
  exact .refused (congrArg Store.db hst) (congrArg Store.next hst) rfl rfl

theorem step_ok (h : slotTx cfg e s c = .ok t) : s.step cfg e c =
    { server := s.server.next cfg c.op
      slots := dropPending t s.db (s.server.next cfg c.op).store.db
      events := s.events ++ c.records } := by
  rw [State.step, h]

/-- A transaction without a statement on the slots, where no row is new. -/
theorem step_shrunk (h : slotTx cfg e s c = .ok s.slots) (hs : Shrunk s.db (s.server.next cfg c.op).store.db)
    (hdb : ∀ source actor, c.Retires source actor → (s.server.next cfg c.op).store.db = s.db) :
    Effect e s c (s.step cfg e c) := by
  rw [step_ok h]
  exact .shrunk hs hdb (change_next_le (step_change cfg s.server c.op)) rfl rfl

/-- The same for a transaction that leaves the database as it is. -/
theorem step_same (h : slotTx cfg e s c = .ok s.slots) (hs : (s.server.next cfg c.op).store.db = s.db) :
    Effect e s c (s.step cfg e c) := step_shrunk h (hs ▸ Shrunk.refl _) fun _ _ _ => hs

theorem Call.Retires.op (h : c.Retires source actor) :
    (∃ id, c.op = .deleteComment actor id) ∨ ∃ id, c.op = .revokeShareLink actor id :=
  h.imp (fun h => ⟨_, h.1⟩) fun h => ⟨_, h.1⟩

/-- The database after a comment deletion: a refused one and a retry leave it as it is. -/
theorem next_deleteComment (cfg : Config) (w : World) (u : UserId) (id : CommentId) :
    (w.next cfg (.deleteComment u id)).store = commitDb w.store
      ((deleteComment w.store.db u id w.store.now).map fun p => { w.store.db with pages := p }) := rfl

theorem deleteComment_retired {w : World} {u : UserId} {id : CommentId} {p : PageTables}
    (h : deleteComment w.store.db u id w.store.now = .ok p) (hl : Live w.store.db ⟨.comment, id⟩) :
    Retired ⟨.comment, id⟩ w.store.db (w.next cfg (.deleteComment u id)).store.db := by
  obtain ⟨-, f, hfid, hfd, hp⟩ | ⟨hn, -⟩ := deleteComment_cases h
  · rw [next_deleteComment, h]
    exact retired_comment hfid hfd hp rfl
  · exact absurd hl hn

theorem effect_deleteComment {u : UserId} {id : CommentId} (hop : c.op = .deleteComment u id) :
    Effect e s c (s.step cfg e c) := by
  have hw := next_deleteComment cfg s.server u id
  cases hd : deleteComment s.db u id s.server.store.now with
  | error er =>
    rw [hd] at hw
    refine step_same (by simp only [slotTx, hop, hd]) ?_
    rw [hop, hw]
    rfl
  | ok p =>
    rw [hd] at hw
    by_cases hl : Live s.db ⟨.comment, id⟩
    · cases ht : slotTx cfg e s c with
      | error er => exact step_refused ht
      | ok t =>
        have hst := step_ok ht
        simp only [slotTx, hop, hd, if_pos hl] at ht
        obtain ⟨-, hnow, x, hx, hr, rfl⟩ := fill_ok ht
        have hret : Retired ⟨.comment, id⟩ s.db (s.server.next cfg c.op).store.db := by
          rw [hop]
          exact deleteComment_retired hd hl
        rw [dropPending_kept hret.hasRow] at hst
        rw [hst]
        refine .retired ⟨.comment, id⟩ u x (.inl ⟨hop, rfl⟩) hl hret ?_ hx hr hnow rfl ?_
        · simp only [hop, hw, commitDb, Except.map]
        · simp only [Call.records, hop, List.append_nil]
    · obtain ⟨hl', -⟩ | ⟨-, rfl⟩ := deleteComment_cases hd
      · exact absurd hl' hl
      · refine step_same (by simp only [slotTx, hop, hd, if_neg hl]) ?_
        rw [hop, hw]
        rfl

/-- A revoked link. -/
def revoked (now : Stamp) (l : SealedShareLink) : SealedShareLink := { l with revokedAt := some now }

theorem next_revokeShareLink (cfg : Config) (w : World) (u : UserId) (id : LinkId) :
    (w.next cfg (.revokeShareLink u id)).store = commitDb w.store
      ((revokeShareLink w.store.db u id w.store.now).map fun t => { w.store.db with sealedShareLinks := t }) := rfl

theorem revokeShareLink_retired {w : World} {u : UserId} {id : LinkId} {t : Table SealedShareLink.id}
    (h : revokeShareLink w.store.db u id w.store.now = .ok t) : Live w.store.db ⟨.sealedShareLink, id⟩ ∧
      Retired ⟨.sealedShareLink, id⟩ w.store.db (w.next cfg (.revokeShareLink u id)).store.db := by
  constructor
  · simp only [revokeShareLink, bind_ok, require_ok] at h
    obtain ⟨_, ⟨l, hl, hid, -, hlive⟩, -⟩ := h
    exact ⟨l, hl, hid, hlive⟩
  · rw [next_revokeShareLink, h]
    exact retired_link (f := revoked w.store.now) (fun _ => rfl) (fun _ => Option.some_ne_none _) rfl
      (revokeShareLink_ok h)

theorem effect_revokeShareLink {u : UserId} {id : LinkId} (hop : c.op = .revokeShareLink u id) :
    Effect e s c (s.step cfg e c) := by
  have hw := next_revokeShareLink cfg s.server u id
  cases hd : revokeShareLink s.db u id s.server.store.now with
  | error er =>
    rw [hd] at hw
    refine step_same (by simp only [slotTx, hop, hd]) ?_
    rw [hop, hw]
    rfl
  | ok links =>
    rw [hd] at hw
    obtain ⟨hl, hret⟩ := (revokeShareLink_retired hd : _ ∧ Retired _ _ (s.server.next cfg _).store.db)
    cases ht : slotTx cfg e s c with
    | error er => exact step_refused ht
    | ok t =>
      have hst := step_ok ht
      simp only [slotTx, hop, hd] at ht
      obtain ⟨-, hnow, x, hx, hr, rfl⟩ := fill_ok ht
      rw [← hop] at hret
      rw [dropPending_kept hret.hasRow] at hst
      rw [hst]
      refine .retired ⟨.sealedShareLink, id⟩ u x (.inr ⟨hop, rfl⟩) hl hret ?_ hx hr hnow rfl ?_
      · simp only [hop, hw, commitDb, Except.map]
      · simp only [Call.records, hop, List.append_nil]

theorem effect_createShareLink {u : UserId} {n : Nat} {x : Stamp} {b : Bool} (hop : c.op = .createShareLink u n x b) :
    Effect e s c (s.step cfg e c) := by
  have hw : (s.server.next cfg (.createShareLink u n x b)).store = commitDb s.server.store
      ((createShareLink cfg s.db s.server.store.now u s.server.store.next n x b).map fun t =>
        { s.db with sealedShareLinks := t }) := rfl
  cases hd : createShareLink cfg s.db s.server.store.now u s.server.store.next n x b with
  | error er =>
    rw [hd] at hw
    refine step_same (by simp only [slotTx, hop, hd]) ?_
    rw [hop, hw]
    rfl
  | ok links =>
    rw [hd] at hw
    cases ht : slotTx cfg e s c with
    | error er => exact step_refused ht
    | ok t =>
      have hst := step_ok ht
      simp only [slotTx, hop, hd] at ht
      obtain ⟨-, -, -, hi⟩ := createShareLink_ok hd
      have hadd : Added ⟨.sealedShareLink, s.server.store.next⟩ s.db (s.server.next cfg c.op).store.db := by
        rw [hop, hw]
        exact added_link (x := ⟨s.server.store.next, u, n, x, none⟩) rfl rfl hi
      rw [dropPending_kept hadd.hasRow] at hst
      rw [hst]
      refine .added ⟨.sealedShareLink, s.server.store.next⟩ none (.inl ⟨u, n, x, b, hop⟩) rfl hadd ?_
        (reserve_ok.1 ht) rfl
      simp only [hop, hw, commitDb, Except.map]

theorem effect_comment {rid : RequestId} {r : CommentReq} {cid : ContainerId} {p : PageTables} (hop : c.op = .resume rid)
    (hj : s.server.job rid = some (.comment r (.tx cid)))
    (hd : commentTx cfg s.db s.server.store.now r cid s.server.store.next = .ok p) : Effect e s c (s.step cfg e c) := by
  have hw := (step_resume cfg hj (by simp)).1
  simp only [act, actComment, hd, Except.map, finish, reply] at hw
  cases ht : slotTx cfg e s c with
  | error er => exact step_refused ht
  | ok t =>
    have hst := step_ok ht
    simp only [slotTx, hop, hj, hd] at ht
    obtain ⟨-, -, -, -, comments, hi, rfl⟩ := commentTx_ok hd
    have hadd : Added ⟨.comment, s.server.store.next⟩ s.db (s.server.next cfg c.op).store.db := by
      rw [hop, hw]
      exact added_comment (x := r.row s.db.pages cid s.server.store.next) rfl hi rfl
    rw [dropPending_kept hadd.hasRow] at hst
    rw [hst]
    refine .added ⟨.comment, s.server.store.next⟩ (some cid) (.inr ⟨rid, r, cid, hop, hj⟩) rfl hadd ?_
      (reserve_ok.1 ht) rfl
    simp only [hop, hw]

/-- What a call does, whatever its operation. -/
theorem step_effect (cfg : Config) (e : Encoding) (s : State) (c : Call) : Effect e s c (s.step cfg e c) := by
  have hshrunk := change_shrunk (step_change cfg s.server c.op)
  cases hop : c.op with
  | deleteComment u id => exact effect_deleteComment hop
  | createShareLink u n x b => exact effect_createShareLink hop
  | revokeShareLink u id => exact effect_revokeShareLink hop
  | resume rid =>
    by_cases hc : ∃ r cid p, s.server.job rid = some (.comment r (.tx cid)) ∧
        commentTx cfg s.db s.server.store.now r cid s.server.store.next = .ok p
    · obtain ⟨r, cid, p, hj, hd⟩ := hc
      exact effect_comment hop hj hd
    · refine step_shrunk ?_ (hshrunk (by simp [hop]) (by simp [hop]) (by simp [hop]) ?_) fun _ _ hr => ?_
      · simp only [slotTx, hop]
        split
        · rename_i r cid hj
          split
          · rfl
          · rename_i p hd
            exact absurd ⟨r, cid, p, hj, hd⟩ hc
        · rfl
      · intro rid' r cid p hr hj hd
        rw [hop] at hr
        cases hr
        exact hc ⟨r, cid, p, hj, hd⟩
      · simpa [hop] using hr.op
  | _ =>
    refine step_shrunk (by simp only [slotTx, hop]) (hshrunk ?_ ?_ ?_ ?_) fun _ _ hr => ?_
    on_goal 5 => simpa [hop] using hr.op
    all_goals simp [hop]

end KyNotes.Cleanup
