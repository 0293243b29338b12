import KyNotes.Pages.Saves

/-!
# Idempotency keys

A committed save records its key with the row it stored; a save whose key is stored is answered from that record. The
record is looked up by user and header, not by page.

* `Ledger`: a world with the saves that its run has committed.
* `ReplayInv`: every stored key is the record of a commit, and a commit's record stays for a day.
* `idempotent_replay`: two commits under one key are more than a day apart, and a save is acknowledged with a commit of
  its key to its page exactly when the record that it finds is of that page and its version is still there.
-/

namespace KyNotes

open Relational Check Transition

variable {cfg : Config} {w : World} {op : Op} {db : DB} {r : PutReq} {cid : ContainerId}

/-! ## Commits -/

/-- A save that has committed. -/
structure Commit where
  time : Time
  req : PutReq
  row : SavedRow

/-- The commits among the events of an operation. -/
def commitsAt (t : Time) (es : List Event) : List Commit :=
  es.filterMap fun e =>
    match e with
    | .saved _ r row => some ⟨t, r, row⟩
    | _ => none

/-- The commits of an operation. -/
def commits (cfg : Config) (w : World) (op : Op) : List Commit := commitsAt w.store.clock (step cfg w op).2

/-- A world with the saves that its run has committed. -/
abbrev Ledger := World × List Commit

def Ledger.next (cfg : Config) : Ledger → Op → Ledger := logged (World.next cfg) (commits cfg)

/-- A new server and a run of it. -/
def Ledger.reach (cfg : Config) (ops : List Op) : Ledger := run (Ledger.next cfg) (World.init, []) ops

theorem Ledger.reach_world (ops : List Op) : (Ledger.reach cfg ops).1 = World.reach cfg ops :=
  run_logged (commits cfg) (World.init, []) ops

/-- The record that a commit leaves under its key. -/
def Commit.record (c : Commit) (key : IdemKey) : IdempotencyKey :=
  match c.row with
  | .version v => ⟨key, c.req.objectId, 200, format c.time, v.version⟩
  | .conflict x => ⟨key, x.id, 409, format c.time, x.currentVersion⟩

@[simp] theorem Commit.record_key (c : Commit) (key : IdemKey) : (c.record key).key = key := by
  unfold Commit.record
  split <;> rfl

@[simp] theorem Commit.record_createdAt (c : Commit) (key : IdemKey) : (c.record key).createdAt = format c.time := by
  unfold Commit.record
  split <;> rfl

/-- What an operation does to the stored keys that commits nothing. -/
def KeepsKeys (cfg : Config) (w : World) (op : Op) : Prop :=
  (w.next cfg op).pages.idempotencyKeys = w.pages.idempotencyKeys ∨
    ∃ rid b now, op = .resume rid ∧ w.job rid = some (.gc b now .keys) ∧ (w.next cfg op).store.clock = w.store.clock ∧
      (w.next cfg op).pages.idempotencyKeys = w.pages.idempotencyKeys.delete fun i => i.createdAt < dayBefore now

/-- An operation commits no save and leaves the keys or purges them, or it is the transaction of a save. -/
theorem step_commits (cfg : Config) (w : World) (op : Op) :
    (commits cfg w op = [] ∧ KeepsKeys cfg w op) ∨
    ∃ rid r cid d db row, op = .resume rid ∧ w.job rid = some (.put r (.tx cid d)) ∧
      putTx cfg w.store r cid d w.store.next = .ok (db, row) ∧ commits cfg w op = [⟨w.store.clock, r, row⟩] ∧
      (w.next cfg op).store = { w.store with db := db, next := w.store.next + 1 } := by
  have hput : ∀ {rid r cid d db row}, w.job rid = some (.put r (.tx cid d)) →
      putTx cfg w.store r cid d w.store.next = .ok (db, row) →
      commits cfg w (.resume rid) = [⟨w.store.clock, r, row⟩] ∧
        (w.next cfg (.resume rid)).store = { w.store with db := db, next := w.store.next + 1 } := by
    intro rid r cid d db row hj hx
    obtain ⟨hs, he⟩ := step_resume cfg hj (by intro _ h; cases h)
    rw [hs, commits, he]
    simp only [act, actPut, hx]
    exact ⟨rfl, trivial⟩
  by_cases hnil : commits cfg w op = []
  · left
    refine ⟨hnil, ?_⟩
    have hc := step_change cfg w op
    simp only [KeepsKeys, World.pages]
    generalize (w.next cfg op).store = s at hc
    cases hc
    case put hj h =>
      rw [(hput hj h).1] at hnil
      cases hnil
    case gcKeys b now hj => exact Or.inr ⟨_, b, now, rfl, hj, rfl, rfl⟩
    case deleteContainer h => cases deleteContainer_ok h; exact Or.inl rfl
    case createObject h => obtain ⟨-, t, -, rfl⟩ := createObject_ok h; exact Or.inl rfl
    case resolveConflict h => obtain ⟨c, -, -, rfl⟩ := resolveConflict_ok h; exact Or.inl rfl
    case deleteComment h =>
      obtain rfl | ⟨c, -, -, rfl⟩ := deleteComment_ok h
      · exact Or.inl rfl
      · exact Or.inl rfl
    case comment h => obtain ⟨-, -, -, -, t, -, rfl⟩ := commentTx_ok h; exact Or.inl rfl
    case link h => obtain ⟨a, -, -, -, rfl⟩ := linkTx_ok h; exact Or.inl rfl
    case startUpload h => obtain ⟨-, t, -, rfl⟩ := startTx_ok h; exact Or.inl rfl
    case finalize h =>
      obtain ⟨-, ⟨-, hp, -⟩ | ⟨-, -, -, att, -, hp⟩⟩ := finalizeTx_ok h
      · exact Or.inl (by rw [hp])
      · obtain ⟨a, -, -, hp⟩ | ⟨-, -, t, -, hp⟩ := placeAttachment_ok hp
        · exact Or.inl (by rw [hp]; rfl)
        · exact Or.inl (by rw [hp]; rfl)
    all_goals exact Or.inl rfl
  · right
    obtain ⟨c, hc⟩ := List.exists_mem_of_ne_nil _ hnil
    obtain ⟨e, he, hec⟩ := List.mem_filterMap.mp hc
    split at hec
    · obtain ⟨rfl, cid, d, db, hj, hx, -⟩ := saved_event he
      obtain ⟨h1, h2⟩ := hput hj hx
      exact ⟨_, _, cid, d, db, _, rfl, hj, hx, h1, h2⟩
    · cases hec

/-! ## The look-up of a key -/

/-- A save is acknowledged: it reports a version or a conflict. -/
def Answer.Acks : Answer → Prop
  | .saved .. | .replayed .. | .conflict .. => True
  | _ => False

/-- What an acknowledgement reports of a stored row: the version with its receipt, or the conflict. -/
def Answer.Reports : Answer → SavedRow → Prop
  | .saved n d b receipt, .version v =>
    n = v.version ∧ d = v.blobDigest ∧ b = v.ciphertextBytes ∧ receipt = commitReceipt v
  | .replayed n _ receipt, .version v => n = v.version ∧ receipt = some (commitReceipt v)
  | .conflict n id, .conflict c => n = c.currentVersion ∧ id = c.id
  | _, _ => False

theorem errorAnswer_not_acks (e : Err) : ¬(errorAnswer e).Acks := by
  intro h
  cases e <;> exact h

/-- The checks of a save before it looks its key up on arrival. -/
def PutReq.Asks (r : PutReq) (db : DB) : Prop :=
  ∃ o role, objectRole db r.objectId r.userId = some (o, role) ∧ o.deletedAt = none ∧ canEdit role = true ∧
    checkWriteGate db.keys o.containerId r.userId r.generation r.scheme = .ok () ∧
    ∃ b, r.routing = some b ∧ b.length ≤ 1024

/-- The checks of a save before it looks its key up in its transaction. -/
def PutReq.Gates (r : PutReq) (db : DB) (cid : ContainerId) : Prop :=
  checkWriteGate db.keys cid r.userId r.generation r.scheme = .ok () ∧
    ∃ role, liveRole db.keys cid r.userId = some role ∧ canEdit role = true

/-- On arrival a save is acknowledged exactly from a stored key. -/
theorem putAdmit_acks (cfg : Config) {a : Answer} (ha : a.Acks) :
    putAdmit cfg db r = .error a ↔ r.Asks db ∧ r.replay db.pages = some a := by
  have hne : ∀ {n : Nat} {code : String}, Answer.error n code ≠ a := by
    rintro n code rfl
    exact ha
  constructor
  · intro h
    simp only [putAdmit, bind_error, require_error, fetch_error, mapError_error, hne, and_false, false_or, fetch_ok,
      require_ok] at h
    obtain ⟨⟨o, role⟩, ho, _, hd, _, hc, ⟨e, -, rfl⟩ | ⟨⟨⟩, hg, b, hb, _, hl, h⟩⟩ := h
    · exact absurd ha (errorAnswer_not_acks e)
    · refine ⟨⟨o, role, ho, hd, hc, mapError_ok.mp hg, b, hb, hl⟩, ?_⟩
      split at h
      · rename_i a' hr
        cases h
        exact hr
      · simp only [bind_error, require_error, hne, and_false, false_or, pure_error, exists_false] at h
  · rintro ⟨⟨o, role, ho, hd, hc, hg, b, hb, hl⟩, hr⟩
    simp only [putAdmit, bind_error, fetch_ok, require_ok, mapError_ok]
    refine Or.inr ⟨(o, role), ho, Or.inr ⟨(), hd, Or.inr ⟨(), hc, Or.inr ⟨(), hg, Or.inr ⟨b, hb, Or.inr ⟨(), hl, ?_⟩⟩⟩⟩⟩⟩
    simp only [hr]

/-- In its transaction a save is acknowledged without a commit exactly from a stored key. -/
theorem putTx_acks (cfg : Config) (s : Store) (d : Digest) (id : ConflictId) {a : Answer} (ha : a.Acks) :
    (∃ x, putTx cfg s r cid d id = .error x ∧ x.answer = a) ↔ r.Gates s.db cid ∧ r.replay s.db.pages = some a := by
  have hrefused : ∀ {e : Err} {x : Refusal}, refused e = x → x.answer ≠ a := by
    rintro e x rfl rfl
    exact errorAnswer_not_acks e ha
  have haborted : ∀ {x : Refusal}, aborted = x → x.answer ≠ a := by
    rintro x rfl rfl
    exact ha
  have hrecord : ∀ {p id code now n x}, recordKey p r id code now n = .error x → x.answer ≠ a := by
    intro p id code now n x h
    unfold recordKey at h
    split at h
    · cases h
    · simp only [bind_error, fetch_error, pure_error, and_false, exists_false, or_false] at h
      exact haborted h.2
  constructor
  · rintro ⟨x, h, hxa⟩
    simp only [putTx, bind_error, mapError_error] at h
    rcases h with h | ⟨live, -, ⟨e, -, hx⟩ | ⟨blobs, -, h⟩⟩
    · simp only [putGate, bind_error, require_error, fetch_error, mapError_error, fetch_ok, require_ok] at h
      rcases h with ⟨e, -, hx⟩ | ⟨⟨⟩, hg, ⟨-, hx⟩ | ⟨role, hr, ⟨-, hx⟩ | ⟨_, hc, h⟩⟩⟩
      · exact absurd hxa (hrefused hx)
      · exact absurd hxa (hrefused hx)
      · exact absurd hxa (hrefused hx)
      · refine ⟨⟨mapError_ok.mp hg, role, hr, hc⟩, ?_⟩
        split at h
        · rename_i a' hr
          cases h
          rw [hr, ← hxa]
        · simp only [bind_error, mapError_error, fetch_error, pure_error, and_false, exists_false, or_false] at h
          rcases h with ⟨e, -, hx⟩ | ⟨_, -, -, hx⟩
          · exact absurd hxa (hrefused hx)
          · exact absurd hxa (hrefused hx)
    · exact absurd hxa (haborted hx)
    · split at h
      · simp only [putConflict, bind_error, fetch_error, pure_error, and_false, exists_false, or_false] at h
        rcases h with ⟨-, hx⟩ | ⟨t, -, hx⟩
        · exact absurd hxa (haborted hx)
        · exact absurd hxa (hrecord hx)
      · simp only [putVersion, bind_error, fetch_error, pure_error, and_false, exists_false, or_false] at h
        rcases h with ⟨-, hx⟩ | ⟨t, -, hx⟩
        · exact absurd hxa (haborted hx)
        · exact absurd hxa (hrecord hx)
  · rintro ⟨⟨hg, role, hrole, hc⟩, hr⟩
    refine ⟨⟨true, a⟩, ?_, rfl⟩
    simp only [putTx, bind_error]
    left
    simp only [putGate, bind_error, fetch_ok, require_ok, mapError_ok]
    refine Or.inr ⟨(), hg, Or.inr ⟨role, hrole, Or.inr ⟨(), hc, ?_⟩⟩⟩
    simp only [hr]

theorem Job.request_put {j : Job} (h : j.request = .put r) : ∃ st, j = .put r st := by
  cases j <;> cases h
  exact ⟨_, rfl⟩

/-- Behind the acknowledgement of a save is a stored key or a commit. -/
theorem put_acked {rid : RequestId} {a : Answer} (he : .answered rid (.put r) a ∈ (step cfg w op).2) (ha : a.Acks) :
    op = .resume rid ∧
      ((w.job rid = some (.put r .entry) ∧ putAdmit cfg w.store.db r = .error a) ∨
        ∃ cid d, w.job rid = some (.put r (.tx cid d)) ∧
          ((∃ x, putTx cfg w.store r cid d w.store.next = .error x ∧ x.answer = a) ∨
            ∃ db row, putTx cfg w.store r cid d w.store.next = .ok (db, row) ∧ a = row.answer)) := by
  obtain ⟨rid', j, rfl, hj, he, -⟩ := step_events he
  have hreq : rid' = rid ∧ j.request = .put r := by
    rcases act_events he with ⟨a', h⟩ | ⟨_, _, _, _, _, -, h, -⟩ | ⟨_, _, -, h⟩ | ⟨_, _, _, _, _, _, _, -, h, -⟩
    · simp only [Event.answered.injEq] at h
      exact ⟨h.1.symm, h.2.1.symm⟩
    · cases h
    · cases h
    · cases h
  obtain ⟨rfl, hreq⟩ := hreq
  obtain ⟨st, rfl⟩ := Job.request_put hreq
  refine ⟨rfl, ?_⟩
  cases st with
  | entry =>
    left
    refine ⟨hj, ?_⟩
    simp only [act, actPut] at he
    cases hx : putAdmit cfg w.store.db r with
    | error a' =>
      rw [hx] at he
      cases List.mem_singleton.mp he
      rfl
    | ok cid => rw [hx] at he; cases he
  | check cid =>
    simp only [act, actPut] at he
    cases hx : putCheck cfg w.store.db w.store.now r cid with
    | error a' =>
      rw [hx] at he
      cases List.mem_singleton.mp he
      simp only [putCheck, bind_error, fetch_error, mapError_error] at hx
      rcases hx with ⟨-, rfl⟩ | ⟨o, -, e, -, rfl⟩
      · cases ha
      · exact absurd ha (errorAnswer_not_acks e)
    | ok _ => rw [hx] at he; cases he
  | place cid =>
    simp only [act, actPut] at he
    split at he
    · cases List.mem_singleton.mp he
      cases ha
    · cases he
  | tx cid d =>
    right
    refine ⟨cid, d, hj, ?_⟩
    simp only [act, actPut] at he
    split at he
    · rename_i x hx
      left
      cases List.mem_singleton.mp he
      exact ⟨x, hx, rfl⟩
    · rename_i db row hx
      right
      simp only [List.mem_cons, List.not_mem_nil, or_false] at he
      rcases he with he | he
      · cases he
      · cases he
        exact ⟨db, row, hx, rfl⟩

/-! ## Stored versions and deleted pages -/

/-- The page has been deleted. -/
def Deleted (p : PageTables) (oid : ObjectId) : Prop := ∃ o ∈ p.objects, o.id = oid ∧ o.deletedAt ≠ none

theorem deleted_update {p : PageTables} {q : Object → Prop} [DecidablePred q] {f : Object → Object} {oid : ObjectId}
    (hid : ∀ o, (f o).id = o.id) (hd : ∀ o, o.deletedAt ≠ none → (f o).deletedAt ≠ none) (h : Deleted p oid) :
    Deleted { p with objects := p.objects.update q f } oid := by
  obtain ⟨o, ho, rfl, hod⟩ := h
  by_cases hq : q o
  · exact ⟨f o, Table.mem_update_of ho hq hid, hid o, hd o hod⟩
  · exact ⟨o, Table.mem_update_of_not ho hq, rfl, hod⟩

/-- A deleted page stays deleted. -/
theorem PageChange.deleted {p' : PageTables} {oid : ObjectId} (hc : PageChange cfg w op p') (h : Deleted w.pages oid) :
    Deleted p' oid := by
  cases hc with
  | deleteContainer | deleteObject => exact deleted_update (fun _ => rfl) (fun _ _ => Option.some_ne_none _) h
  | version => exact deleted_update (fun _ => rfl) (fun _ hd => hd) h
  | createObject _ ht =>
    obtain ⟨o, ho, h⟩ := h
    exact ⟨o, (Table.mem_insert ht).mpr (Or.inl ho), h⟩
  | same | bump | resolveConflict | deleteComment | conflict | comment | link | unlink | revive | attach | gcTombstone
  | gcKeys | gcSweep => exact h

/-- A stored version stays until its page is deleted. -/
theorem PageChange.version_kept {p' : PageTables} {v : ObjectVersion} (hc : PageChange cfg w op p')
    (hi : VersionInv w.pages) (h : v ∈ w.pages.objectVersions) : v ∈ p'.objectVersions ∨ Deleted p' v.objectId := by
  obtain ⟨-, o, ho, hid, hl, -⟩ := hi.row v h
  cases hc with
  | @deleteContainer _ cid =>
    by_cases hs : InScope w.keys cid o.containerId
    · right
      exact ⟨_, Table.mem_update_of ho ⟨hl, hs⟩, hid, Option.some_ne_none _⟩
    · left
      refine Table.mem_delete.mpr ⟨h, ?_⟩
      rintro ⟨o', ho', hid', hs'⟩
      have : o' = o := Table.eq_of_key ho' ho (hid'.trans hid.symm)
      subst this
      exact hs hs'
  | @deleteObject _ _ oid =>
    by_cases hv : v.objectId = oid
    · right
      exact ⟨_, Table.mem_update_of ho (hid.trans hv), hid, Option.some_ne_none _⟩
    · left
      exact Table.mem_delete.mpr ⟨h, hv⟩
  | version _ _ _ ht => exact Or.inl ((Table.mem_insert ht).mpr (Or.inl h))
  | same | bump | createObject | resolveConflict | deleteComment | conflict | comment | link | unlink | revive | attach
  | gcTombstone | gcKeys | gcSweep => exact Or.inl h

/-! ## Time -/

theorem format_mono {t u : Time} (h : t ≤ u) : format t ≤ format u := Nat.div_le_div_right h

/-- Time does not go back. -/
theorem step_clock (cfg : Config) (w : World) (op : Op) : w.store.clock ≤ (w.next cfg op).store.clock := by
  have hc := step_change cfg w op
  generalize (w.next cfg op).store = s at hc ⊢
  cases hc
  case tick d => exact Nat.le_add_right _ d
  all_goals exact Nat.le_refl _

/-- A garbage collection pass began in the past. -/
def Begun (s : Store) (j : Job) : Prop := ∀ b now st, j = .gc b now st → now ≤ s.clock

theorem step_begun (cfg : Config) (op : Op) (h : ∀ f ∈ w.inflight, Begun w.store f.job) :
    ∀ f ∈ (w.next cfg op).inflight, Begun (w.next cfg op).store f.job := by
  refine inflight_inv (P := Begun) ?_ ?_ ?_ h
  · intro j hj b now st hgc
    exact Nat.le_trans (hj b now st hgc) (step_clock cfg w op)
  · intro s r b now st hgc
    cases r <;> cases hgc
    exact Nat.le_refl _
  · intro j j' hj hm b now st hgc
    subst hgc
    cases hm with
    | gc => exact Nat.le_trans (hj _ _ _ rfl) (step_clock cfg w op)

/-! ## Commits and their records -/

/-- The commit left the record. -/
def Commit.Left (c : Commit) (i : IdempotencyKey) : Prop := c.req.key = some i.key ∧ i = c.record i.key

/-- If two commits carry one key, they are more than a day apart. -/
def Apart (a b : Commit) : Prop := a.req.key ≠ none → a.req.key = b.req.key → a.time + day < b.time

/-- What holds of the stored keys and of the commits of the run. -/
structure ReplayInv (cfg : Config) (x : Ledger) : Prop where
  pages : PageInv cfg x.1
  begun : ∀ f ∈ x.1.inflight, Begun x.1.store f.job
  past : ∀ c ∈ x.2, c.time ≤ x.1.store.clock
  apart : x.2.Pairwise Apart
  source : ∀ i ∈ x.1.pages.idempotencyKeys, ∃ c ∈ x.2, c.Left i
  kept : ∀ c ∈ x.2, ∀ key, c.req.key = some key → x.1.store.clock ≤ c.time + day →
    x.1.pages.idempotencyKeys.get key = some (c.record key)
  version : ∀ c ∈ x.2, ∀ v, c.row = .version v → v.objectId = c.req.objectId ∧ 1 ≤ v.version ∧
    (v ∈ x.1.pages.objectVersions ∨ Deleted x.1.pages v.objectId)

theorem init_replayInv : ReplayInv cfg (World.init, []) where
  pages := init_pageInv
  begun := fun _ h => absurd h (Table.not_mem_empty _)
  past := fun _ h => absurd h List.not_mem_nil
  apart := List.Pairwise.nil
  source := fun _ h => absurd h (Table.not_mem_empty _)
  kept := fun _ h => absurd h List.not_mem_nil
  version := fun _ h => absurd h List.not_mem_nil

/-- The stored versions of earlier commits, over one operation. -/
theorem ReplayInv.version_step {x : Ledger} (h : ReplayInv cfg x) (op : Op) :
    ∀ c ∈ x.2, ∀ v, c.row = .version v → v.objectId = c.req.objectId ∧ 1 ≤ v.version ∧
      (v ∈ (x.1.next cfg op).pages.objectVersions ∨ Deleted (x.1.next cfg op).pages v.objectId) := by
  intro c hc v hv
  obtain ⟨ho, h1, hm⟩ := h.version c hc v hv
  refine ⟨ho, h1, ?_⟩
  have hp := step_pages cfg x.1 op
  rcases hm with hm | hm
  · exact hp.version_kept h.pages.versions hm
  · exact Or.inr (hp.deleted hm)

/-- A commit: no commit of the last day carries its key, and its record is stored. -/
theorem putTx_record {s : Store} {d : Digest} {id : ConflictId} {row : SavedRow}
    (h : putTx cfg s r cid d id = .ok (db, row)) :
    (∀ key, r.key = some key → s.db.pages.idempotencyKeys.get key = none) ∧
    (∀ i, i ∈ db.pages.idempotencyKeys ↔
      i ∈ s.db.pages.idempotencyKeys ∨ Commit.Left ⟨s.clock, r, row⟩ i) ∧
    ∀ v, row = .version v → v.objectId = r.objectId ∧ 1 ≤ v.version ∧ v ∈ db.pages.objectVersions := by
  obtain ⟨o, blobs, pages, hg, -, rfl, hrow⟩ := putTx_ok h
  have hfresh : ∀ key, r.key = some key → s.db.pages.idempotencyKeys.get key = none := by
    intro key hk
    have hr := hg.fresh
    simp only [PutReq.replay, hk, Option.bind_some, replayObjectSave] at hr
    split at hr
    · assumption
    · split at hr
      · cases hr
      · split at hr
        · split at hr <;> cases hr
        · cases hr
  have hrec : ∀ {id code n i}, KeyRecorded s.db.pages r id code s.now n i →
      (∀ key, Commit.record ⟨s.clock, r, row⟩ key = ⟨key, id, code, s.now, n⟩) →
      ∀ k, k ∈ i ↔ k ∈ s.db.pages.idempotencyKeys ∨ Commit.Left ⟨s.clock, r, row⟩ k := by
    intro id code n i hi hrow k
    rcases hi with ⟨hk, rfl⟩ | ⟨key, hk, hi⟩
    · constructor
      · exact Or.inl
      · rintro (hm | ⟨hl, -⟩)
        · exact hm
        · rw [hk] at hl
          cases hl
    · rw [Table.mem_insert hi]
      constructor
      · rintro (hm | rfl)
        · exact Or.inl hm
        · exact Or.inr ⟨hk, (hrow key).symm⟩
      · rintro (hm | ⟨hl, he⟩)
        · exact Or.inl hm
        · right
          have : key = k.key := Option.some.inj (hk.symm.trans hl)
          rw [he, ← this]
          exact hrow key
  refine ⟨hfresh, ?_, ?_⟩
  · rcases hrow with ⟨-, rfl, t, i, -, hi, rfl⟩ | ⟨-, rfl, t, i, -, hi, rfl⟩
    · exact hrec hi fun _ => rfl
    · exact hrec hi fun _ => rfl
  · intro v hv
    rcases hrow with ⟨-, rfl, -⟩ | ⟨-, rfl, t, i, ht, -, rfl⟩
    · cases hv
    · cases hv
      exact ⟨rfl, Nat.succ_pos _, (Table.mem_insert ht).mpr (Or.inr rfl)⟩

theorem ReplayInv.quiet {x : Ledger} (h : ReplayInv cfg x) (hnil : commits cfg x.1 op = []) (hkeys : KeepsKeys cfg x.1 op) :
    ReplayInv cfg (Ledger.next cfg x op) := by
  have hclock := step_clock cfg x.1 op
  have hlog : (Ledger.next cfg x op).2 = x.2 := by simp [Ledger.next, logged, hnil]
  refine ⟨step_pageInv x.1 op h.pages, step_begun cfg op h.begun, ?_, ?_, ?_, ?_, ?_⟩
  · intro c hc
    rw [hlog] at hc
    exact Nat.le_trans (h.past c hc) hclock
  · rw [hlog]
    exact h.apart
  · intro i hi
    rw [hlog]
    change i ∈ (x.1.next cfg op).pages.idempotencyKeys at hi
    rcases hkeys with hkeys | ⟨rid, b, now, -, hj, hck, hkeys⟩
    · rw [hkeys] at hi
      exact h.source i hi
    · rw [hkeys] at hi
      exact h.source i (Table.mem_delete.mp hi).1
  · intro c hc key hk hle
    change (x.1.next cfg op).pages.idempotencyKeys.get key = _
    change (x.1.next cfg op).store.clock ≤ _ at hle
    rw [hlog] at hc
    have hold := h.kept c hc key hk (Nat.le_trans hclock hle)
    rcases hkeys with hkeys | ⟨rid, b, now, -, hj, hck, hkeys⟩
    · rw [hkeys]
      exact hold
    · -- a pass that began by now keeps what is not older than a day
      have hnow : now ≤ x.1.store.clock := h.begun _ (World.job_mem hj) b now .keys rfl
      have hstamp : dayBefore now ≤ format c.time := format_mono (Nat.sub_le_of_le_add (by rw [hck] at hle; exact Nat.le_trans hnow hle))
      rw [hkeys, Table.get_delete, hold]
      simp only [Option.filter_some, Commit.record_createdAt]
      rw [if_pos (by simpa using hstamp)]
  · rw [hlog]
    exact h.version_step op

theorem ReplayInv.commit {x : Ledger} (h : ReplayInv cfg x) {d : Digest} {row : SavedRow}
    (hx : putTx cfg x.1.store r cid d x.1.store.next = .ok (db, row))
    (hc : commits cfg x.1 op = [⟨x.1.store.clock, r, row⟩])
    (hs : (x.1.next cfg op).store = { x.1.store with db := db, next := x.1.store.next + 1 }) :
    ReplayInv cfg (Ledger.next cfg x op) := by
  have hclock := step_clock cfg x.1 op
  have hlog : (Ledger.next cfg x op).2 = x.2 ++ [⟨x.1.store.clock, r, row⟩] := by simp [Ledger.next, logged, hc]
  have hdb : (x.1.next cfg op).pages = db.pages := by simp only [World.pages, hs]
  obtain ⟨hfresh, hmem, hrow⟩ := putTx_record hx
  -- a stored key is no new one, so what was acknowledged with it is older than a day
  have hold : ∀ c ∈ x.2, ∀ key, c.req.key = some key → r.key = some key → c.time + day < x.1.store.clock := by
    intro c hc key hck hrk
    by_contra hle
    have hget := h.kept c hc key hck (Nat.le_of_not_lt hle)
    rw [hfresh key hrk] at hget
    cases hget
  refine ⟨step_pageInv x.1 op h.pages, step_begun cfg op h.begun, ?_, ?_, ?_, ?_, ?_⟩
  · intro c hc
    change c.time ≤ (x.1.next cfg op).store.clock
    rw [hlog] at hc
    rcases List.mem_append.mp hc with hc | hc
    · exact Nat.le_trans (h.past c hc) hclock
    · rw [List.mem_singleton.mp hc]
      exact hclock
  · rw [hlog]
    refine List.pairwise_append.mpr ⟨h.apart, List.pairwise_singleton _ _, ?_⟩
    intro a ha b hb hak hab
    rw [List.mem_singleton.mp hb] at hab ⊢
    obtain ⟨key, hk⟩ := Option.ne_none_iff_exists'.mp hak
    exact hold a ha key hk (hab ▸ hk)
  · intro i hi
    change i ∈ (x.1.next cfg op).pages.idempotencyKeys at hi
    rw [hdb, hmem] at hi
    rw [hlog]
    rcases hi with hi | hi
    · obtain ⟨c, hc, hl⟩ := h.source i hi
      exact ⟨c, List.mem_append_left _ hc, hl⟩
    · exact ⟨_, List.mem_append_right _ (List.mem_singleton.mpr rfl), hi⟩
  · intro c hc key hk hle
    change (x.1.next cfg op).pages.idempotencyKeys.get key = _
    change (x.1.next cfg op).store.clock ≤ _ at hle
    rw [hlog] at hc
    rw [hdb]
    refine Table.get_eq_some.mpr ⟨(hmem _).mpr ?_, Commit.record_key c key⟩
    rcases List.mem_append.mp hc with hc | hc
    · exact Or.inl (Table.get_mem (h.kept c hc key hk (Nat.le_trans hclock hle)))
    · right
      rw [List.mem_singleton.mp hc] at hk ⊢
      exact ⟨by simpa using hk, by simp⟩
  · intro c hc v hv
    rw [hlog] at hc
    rcases List.mem_append.mp hc with hc | hc
    · exact h.version_step op c hc v hv
    · rw [List.mem_singleton.mp hc] at hv ⊢
      obtain ⟨ho, h1, hm⟩ := hrow v hv
      refine ⟨ho, h1, Or.inl ?_⟩
      change v ∈ (x.1.next cfg op).pages.objectVersions
      rw [hdb]
      exact hm

theorem step_replayInv (x : Ledger) (op : Op) (h : ReplayInv cfg x) : ReplayInv cfg (Ledger.next cfg x op) := by
  rcases step_commits cfg x.1 op with ⟨hnil, hkeys⟩ | ⟨rid, r, cid, d, db, row, -, hj, hx, hc, hs⟩
  · exact h.quiet hnil hkeys
  · exact h.commit hx hc hs

theorem reach_replayInv (cfg : Config) (ops : List Op) : ReplayInv cfg (Ledger.reach cfg ops) :=
  run_inv step_replayInv ops init_replayInv

/-! ## Acknowledgements -/

/-- The operation looks the key of a save up, on its arrival or in its transaction, and finds a record. -/
def Finds (w : World) (op : Op) (r : PutReq) (i : IdempotencyKey) : Prop :=
  (∃ key, r.key = some key ∧ w.pages.idempotencyKeys.get key = some i) ∧
    ∃ rid, op = .resume rid ∧ ((w.job rid = some (.put r .entry) ∧ r.Asks w.store.db) ∨
      ∃ cid d, w.job rid = some (.put r (.tx cid d)) ∧ r.Gates w.store.db cid)

/-- A record that the operation finds was left by a save of the same page, and the page has not been deleted if it is
the record of a version. -/
def Matching (x : Ledger) (op : Op) : Prop :=
  ∀ r i, Finds x.1 op r i → (∃ c ∈ x.2, c.Left i ∧ c.req.objectId = r.objectId) ∧
    (i.statusCode = 200 → ¬Deleted x.1.pages r.objectId)

/-- A save with a key that the operation acknowledges is told of a commit with that key to that page, whose record is
still stored. -/
def Acknowledges (cfg : Config) (x : Ledger) (op : Op) : Prop :=
  ∀ rid r a, .answered rid (.put r) a ∈ (step cfg x.1 op).2 → r.key ≠ none → a.Acks →
    ∃ c ∈ (Ledger.next cfg x op).2, c.req.key = r.key ∧ c.req.objectId = r.objectId ∧ a.Reports c.row ∧
      ∃ i ∈ (x.1.next cfg op).pages.idempotencyKeys, c.Left i

/-- The answer from the record of a commit. -/
def Commit.replayed (c : Commit) (p : PageTables) (oid : ObjectId) : Answer :=
  match c.row with
  | .version v => .replayed v.version c.req.objectId (currentCommitReceipt p oid v.version)
  | .conflict x => .conflict x.currentVersion x.id

theorem Commit.replayed_acks (c : Commit) (p : PageTables) (oid : ObjectId) : (c.replayed p oid).Acks := by
  unfold Commit.replayed
  split <;> trivial

theorem Commit.replayed_reports {c : Commit} {p : PageTables} {oid : ObjectId} :
    (c.replayed p oid).Reports c.row ↔
      ∀ v, c.row = .version v → currentCommitReceipt p oid v.version = some (commitReceipt v) := by
  unfold Commit.replayed
  constructor
  · intro h v hv
    simp only [hv] at h
    exact h.2
  · intro h
    cases hrow : c.row with
    | version v => exact ⟨rfl, h v hrow⟩
    | conflict x => exact ⟨rfl, rfl⟩

theorem replay_left {p : PageTables} {key : IdemKey} {i : IdempotencyKey} {c : Commit} (hk : r.key = some key)
    (hi : p.idempotencyKeys.get key = some i) (hl : c.Left i) (hv : ∀ v, c.row = .version v → 1 ≤ v.version) :
    r.replay p = some (c.replayed p r.objectId) := by
  simp only [PutReq.replay, hk, Option.bind_some, replayObjectSave, hi]
  rw [hl.2]
  unfold Commit.record Commit.replayed
  cases hrow : c.row with
  | version v =>
    have h0 : v.version ≠ 0 := Nat.ne_of_gt (hv v hrow)
    simp [h0]
  | conflict x => simp

/-- The answer to a save that finds a record comes from the commit that left it. -/
theorem ReplayInv.replay {x : Ledger} (h : ReplayInv cfg x) {key : IdemKey} {i : IdempotencyKey} (hk : r.key = some key)
    (hi : x.1.pages.idempotencyKeys.get key = some i) :
    ∃ c ∈ x.2, c.Left i ∧ r.replay x.1.pages = some (c.replayed x.1.pages r.objectId) := by
  obtain ⟨c, hc, hl⟩ := h.source i (Table.get_mem hi)
  exact ⟨c, hc, hl, replay_left hk hi hl fun v hv => (h.version c hc v hv).2.1⟩

/-- Finding a record changes neither the keys nor the log, and is answered. -/
theorem Finds.answered (cfg : Config) {x : Ledger} {i : IdempotencyKey} {a : Answer} (h : Finds x.1 op r i)
    (hr : r.replay x.1.pages = some a) (ha : a.Acks) :
    (x.1.next cfg op).pages.idempotencyKeys = x.1.pages.idempotencyKeys ∧ (Ledger.next cfg x op).2 = x.2 ∧
      ∃ rid, .answered rid (.put r) a ∈ (step cfg x.1 op).2 := by
  obtain ⟨⟨key, hk, hi⟩, rid, rfl, hj⟩ := h
  have hjob : ∃ st, x.1.job rid = some (.put r st) := by
    rcases hj with ⟨hj, -⟩ | ⟨cid, d, hj, -⟩
    · exact ⟨_, hj⟩
    · exact ⟨_, hj⟩
  obtain ⟨st, hst⟩ := hjob
  have hquiet : (x.1.next cfg (.resume rid)).pages.idempotencyKeys = x.1.pages.idempotencyKeys ∧
      commits cfg x.1 (.resume rid) = [] := by
    rcases step_commits cfg x.1 (.resume rid) with ⟨hnil, hkeys | ⟨rid', b, now, hop, hgc, -⟩⟩ |
      ⟨rid', r', cid, d, db, row, hop, hj', hx, -⟩
    · exact ⟨hkeys, hnil⟩
    · cases hop
      rw [hst] at hgc
      cases hgc
    · cases hop
      rw [hst] at hj'
      cases hj'
      have hfresh := (putTx_record hx).1 key hk
      rw [World.pages] at hi
      rw [hfresh] at hi
      cases hi
  refine ⟨hquiet.1, by simp [Ledger.next, logged, hquiet.2], rid, ?_⟩
  obtain ⟨-, he⟩ := step_resume cfg hst (by intro _ h; cases h)
  rw [he]
  rcases hj with ⟨hj, hasks⟩ | ⟨cid, d, hj, hgates⟩
  · rw [hst] at hj
    cases hj
    have hx := (putAdmit_acks cfg ha).mpr ⟨hasks, hr⟩
    simp only [act, actPut, hx]
    exact List.mem_singleton.mpr rfl
  · rw [hst] at hj
    cases hj
    obtain ⟨y, hx, rfl⟩ := (putTx_acks cfg x.1.store d x.1.store.next ha).mpr ⟨hgates, hr⟩
    simp only [act, actPut, hx]
    exact List.mem_singleton.mpr rfl

theorem Deleted.unstored {p : PageTables} (h : VersionInv p) {v : ObjectVersion} (hd : Deleted p v.objectId) :
    v ∉ p.objectVersions := by
  intro hv
  obtain ⟨-, o, ho, hid, hl, -⟩ := h.row v hv
  obtain ⟨o', ho', hid', hd⟩ := hd
  have : o' = o := Table.eq_of_key ho' ho (hid'.trans hid.symm)
  subst this
  exact hd hl

theorem Commit.record_statusCode {c : Commit} {key : IdemKey} :
    (c.record key).statusCode = 200 ↔ ∃ v, c.row = .version v := by
  unfold Commit.record
  cases hrow : c.row with
  | version v => exact ⟨fun _ => ⟨v, rfl⟩, fun _ => rfl⟩
  | conflict x =>
    constructor
    · intro h
      cases h
    · rintro ⟨v, hv⟩
      cases hv

theorem ReplayInv.matching {x : Ledger} (h : ReplayInv cfg x) (hack : Acknowledges cfg x op) : Matching x op := by
  intro r i hf
  obtain ⟨key, hk, hi⟩ := hf.1
  obtain ⟨c, hc, hl, hr⟩ := h.replay hk hi
  have ha := Commit.replayed_acks c x.1.pages r.objectId
  obtain ⟨hkeys, hlog, rid, he⟩ := hf.answered cfg hr ha
  obtain ⟨c', hc', hck, hco, hrep, i', hi', hl'⟩ := hack rid r _ he (by simp [hk]) ha
  rw [hkeys] at hi'
  rw [hlog] at hc'
  have hkey : i'.key = key := by
    have := hl'.1
    rw [hck, hk] at this
    exact (Option.some.inj this).symm
  have hii : i' = i := Option.some.inj ((Table.get_eq_some.mpr ⟨hi', hkey⟩).symm.trans hi)
  subst hii
  refine ⟨⟨c', hc', hl', hco⟩, fun h200 hd => ?_⟩
  -- the page is gone, and with it the version that the answer would have to report
  rw [hl'.2, Commit.record_statusCode] at h200
  obtain ⟨v, hv⟩ := h200
  have hrow : c'.row = .version v := hv
  unfold Commit.replayed at hrep
  cases hcr : c.row with
  | conflict y =>
    rw [hcr, hrow] at hrep
    exact hrep
  | version u =>
    rw [hcr, hrow] at hrep
    have hrec := hrep.2
    unfold currentCommitReceipt at hrec
    cases hg : x.1.pages.objectVersions.get (r.objectId, u.version) with
    | none =>
      rw [hg] at hrec
      cases hrec
    | some y =>
      have hy : y.objectId = r.objectId := congrArg Prod.fst (Table.get_key hg)
      exact Deleted.unstored h.pages.versions (hy ▸ hd) (Table.get_mem hg)

theorem ReplayInv.acknowledges {x : Ledger} (h : ReplayInv cfg x) (hm : Matching x op) : Acknowledges cfg x op := by
  intro rid r a he hk ha
  obtain ⟨key, hk⟩ := Option.ne_none_iff_exists'.mp hk
  obtain ⟨rfl, hcase⟩ := put_acked he ha
  have hlook : ∀ {i}, Finds x.1 (.resume rid) r i → r.replay x.1.pages = some a →
      x.1.pages.idempotencyKeys.get key = some i →
      ∃ c ∈ (Ledger.next cfg x (.resume rid)).2, c.req.key = r.key ∧ c.req.objectId = r.objectId ∧ a.Reports c.row ∧
        ∃ i ∈ (x.1.next cfg (.resume rid)).pages.idempotencyKeys, c.Left i := by
    intro i hf hr hi
    obtain ⟨⟨c, hc, hl, hco⟩, hpage⟩ := hm r i hf
    obtain ⟨hkeys, hlog, -⟩ := hf.answered cfg hr ha
    have hik : i.key = key := Table.get_key hi
    have hra := replay_left hk hi hl fun v hv => (h.version c hc v hv).2.1
    rw [hr] at hra
    cases hra
    refine ⟨c, by rw [hlog]; exact hc, by rw [hl.1, hk, hik], hco, ?_, i, ?_, hl⟩
    · rw [Commit.replayed_reports]
      intro v hv
      have h200 : i.statusCode = 200 := by
        rw [hl.2]
        exact Commit.record_statusCode.mpr ⟨v, hv⟩
      obtain ⟨hvo, -, hst⟩ := h.version c hc v hv
      rw [hco] at hvo
      rcases hst with hst | hst
      · have hget := Table.get_of_mem hst
        simp only [ObjectVersion.key, hvo] at hget
        simp [currentCommitReceipt, hget]
      · rw [hvo] at hst
        exact absurd hst (hpage h200)
    · rw [hkeys]
      exact Table.get_mem hi
  have hstored : ∀ {a}, r.replay x.1.pages = some a → ∃ i, x.1.pages.idempotencyKeys.get key = some i := by
    intro a hr
    simp only [PutReq.replay, hk, Option.bind_some, replayObjectSave] at hr
    split at hr
    · cases hr
    · exact ⟨_, ‹_›⟩
  rcases hcase with ⟨hj, hx⟩ | ⟨cid, d, hj, hx | ⟨db, row, hx, rfl⟩⟩
  · obtain ⟨hasks, hr⟩ := (putAdmit_acks cfg ha).mp hx
    obtain ⟨i, hi⟩ := hstored hr
    exact hlook ⟨⟨key, hk, hi⟩, rid, rfl, Or.inl ⟨hj, hasks⟩⟩ hr hi
  · obtain ⟨hgates, hr⟩ := (putTx_acks cfg x.1.store d x.1.store.next ha).mp hx
    obtain ⟨i, hi⟩ := hstored hr
    exact hlook ⟨⟨key, hk, hi⟩, rid, rfl, Or.inr ⟨cid, d, hj, hgates⟩⟩ hr hi
  · -- the save itself has committed
    obtain ⟨-, hmem, -⟩ := putTx_record hx
    obtain ⟨hs, he⟩ := step_resume cfg hj (by intro _ h; cases h)
    simp only [act, actPut, hx] at hs he
    have hc : commits cfg x.1 (.resume rid) = [⟨x.1.store.clock, r, row⟩] := by
      rw [commits, he]
      rfl
    have hleft : Commit.Left ⟨x.1.store.clock, r, row⟩ (Commit.record ⟨x.1.store.clock, r, row⟩ key) :=
      ⟨by simpa using hk, by simp⟩
    refine ⟨⟨x.1.store.clock, r, row⟩, ?_, rfl, rfl, ?_, _, ?_, hleft⟩
    · simp [Ledger.next, logged, hc]
    · cases row with
      | version v => exact ⟨rfl, rfl, rfl, rfl⟩
      | conflict y => exact ⟨rfl, rfl⟩
    · simp only [World.pages, hs]
      exact (hmem _).mpr (Or.inr hleft)

/-- An operation acknowledges its save with a commit to the right page exactly when the record that it finds is of that
page. -/
theorem ReplayInv.acknowledges_iff {x : Ledger} (h : ReplayInv cfg x) (op : Op) :
    Acknowledges cfg x op ↔ Matching x op :=
  ⟨h.matching, h.acknowledges⟩

/-- **Idempotency keys.** In every run two commits under one key are more than a day apart; and every acknowledgement of
a save with a key is of a commit with that key to that page exactly when no operation of the run finds a record that was
left by a save of another page, or the record of a version of a deleted page. -/
theorem idempotent_replay (cfg : Config) (ops : List Op) :
    (Ledger.reach cfg ops).2.Pairwise Apart ∧
      ((∀ bs op, bs ++ [op] <+: ops → Acknowledges cfg (Ledger.reach cfg bs) op) ↔
        Along (Ledger.next cfg) Matching (World.init, []) ops) :=
  ⟨(reach_replayInv cfg ops).apart,
    forall_iff_along step_replayInv (fun _ op h => h.acknowledges_iff op) init_replayInv⟩

/-- The save of page 7 that the run below leaves in flight. -/
def reusingSave : PutReq := ⟨0, 7, 2, true, some [], some "k", some 0, [0x62]⟩

/-- A save of page 4 with the key `"k"` has committed, and a save of page 7 with the same key has arrived. -/
def reusedKey : List Op :=
  sampleSetup ++ alone (.put ⟨0, 4, 2, true, some [], some "k", some 0, [0x61]⟩) 5 4 ++
    [.createObject 0 2, .arrive (.put reusingSave)]

/-- The save of page 7 is acknowledged with the version of page 4, and no save of page 7 has committed. -/
theorem reusedKey_acknowledged :
    .answered 8 (.put reusingSave) (.replayed 1 4 none) ∈
        (step sampleConfig (World.reach sampleConfig reusedKey) (.resume 8)).2 ∧
      (Ledger.reach sampleConfig (reusedKey ++ [.resume 8])).2.map (fun c => c.req.objectId) = [4] := by
  decide +kernel

end KyNotes
