import KyNotes.Server.System

/-!
# What one operation can do to the store

`Change cfg w op s'` lists, once, every way in which an operation takes the store of `w` to `s'`, with the request in
flight that does it and the checks it passed. `step_change` says that there is no other way; every invariant of the
store is a case analysis on it, and no later proof unfolds `step`.

The requests in flight have their own lemma, `mem_inflight_next`: a request is as it was, has just arrived, or has
taken its next action.
-/

namespace KyNotes

open Relational Check

/-- The job of a request in flight. -/
def World.job (w : World) (rid : RequestId) : Option Job := (w.inflight.get rid).map InFlight.job

/-- The ways an operation changes the store. -/
inductive Change (cfg : Config) (w : World) : Op → Store → Prop
  /-- Reads, answers and refused transactions. -/
  | idle {op} : Change cfg w op w.store
  | mint {op} : Change cfg w op { w.store with next := w.store.next + 1 }
  | tick {d} : Change cfg w (.tick d) { w.store with clock := w.store.clock + d }
  | key {kop k} (h : keyTx kop w.store.db.keys w.store.next w.store.clock = .ok k) :
      Change cfg w (.key kop) { w.store with
        db := { w.store.db with
          keys := k, pages := bumpSeqs w.store.db.pages (keySeq kop w.store.db.keys w.store.next) }
        next := w.store.next + 1 }
  | deleteContainer {u cid recent db} (h : deleteContainer w.store.db u cid recent w.store.now = .ok db) :
      Change cfg w (.deleteContainer u cid recent) { w.store with db := db, next := w.store.next + 1 }
  | createObject {u cid p} (h : createObject w.store.db.keys w.store.db.pages u cid w.store.next = .ok p) :
      Change cfg w (.createObject u cid) { w.store with
        db := { w.store.db with pages := p }, next := w.store.next + 1 }
  | resolveConflict {u id p} (h : resolveConflict w.store.db u id w.store.now = .ok p) :
      Change cfg w (.resolveConflict u id) { w.store with
        db := { w.store.db with pages := p }, next := w.store.next + 1 }
  | deleteComment {u id p} (h : deleteComment w.store.db u id w.store.now = .ok p) :
      Change cfg w (.deleteComment u id) { w.store with
        db := { w.store.db with pages := p }, next := w.store.next + 1 }
  | createShareLink {u n expiresAt budget t}
      (h : createShareLink cfg w.store.db w.store.now u w.store.next n expiresAt budget = .ok t) :
      Change cfg w (.createShareLink u n expiresAt budget) { w.store with
        db := { w.store.db with sealedShareLinks := t }, next := w.store.next + 1 }
  | revokeShareLink {u id t} (h : revokeShareLink w.store.db u id w.store.now = .ok t) :
      Change cfg w (.revokeShareLink u id) { w.store with
        db := { w.store.db with sealedShareLinks := t }, next := w.store.next + 1 }
  | putPlace {rid r cid files d} (hj : w.job rid = some (.put r (.place cid)))
      (h : tempFinalize cfg w.store.files r.body (some r.body) none = .ok (files, d)) :
      Change cfg w (.resume rid) { w.store with files := files }
  | put {rid r cid d db row} (hj : w.job rid = some (.put r (.tx cid d)))
      (h : putTx cfg w.store r cid d w.store.next = .ok (db, row)) :
      Change cfg w (.resume rid) { w.store with db := db, next := w.store.next + 1 }
  | dropped {op d} : Change cfg w op { w.store with files := dropUnclaimed w.store.db.blobs w.store.files d }
  | deleteObject {rid u oid cid} (hj : w.job rid = some (.deleteObject u oid (.tx cid))) :
      Change cfg w (.resume rid) { w.store with
        db := { w.store.db with pages := deleteObjectTx w.store.db.pages cid oid w.store.now } }
  | comment {rid r cid p} (hj : w.job rid = some (.comment r (.tx cid)))
      (h : commentTx cfg w.store.db w.store.now r cid w.store.next = .ok p) :
      Change cfg w (.resume rid) { w.store with db := { w.store.db with pages := p }, next := w.store.next + 1 }
  | link {rid u oid att version cid p} (hj : w.job rid = some (.link u oid att version (.tx cid)))
      (h : linkTx w.store.db.pages cid oid att version = .ok p) :
      Change cfg w (.resume rid) { w.store with db := { w.store.db with pages := p } }
  | unlink {rid u oid att cid} (hj : w.job rid = some (.unlink u oid att (.tx cid))) :
      Change cfg w (.resume rid) { w.store with
        db := { w.store.db with pages := unlinkTx w.store.db.pages oid att } }
  | startUpload {rid r db} (hj : w.job rid = some (.startUpload r .tx))
      (h : startTx cfg w.store r w.store.next = .ok db) :
      Change cfg w (.resume rid) { w.store with db := db, next := w.store.next + 1 }
  | newTemp {rid r id expiresAt} (hj : w.job rid = some (.startUpload r (.temp id expiresAt))) :
      Change cfg w (.resume rid) { w.store with parts := assign w.store.parts id (some []) }
  | append {rid r received b} (hj : w.job rid = some (.patchUpload r (.append received)))
      (h : patchAppend (w.store.parts r.id) received r.body = some b) :
      Change cfg w (.resume rid) { w.store with parts := assign w.store.parts r.id (some b) }
  | count {rid r received} (hj : w.job rid = some (.patchUpload r (.count received))) :
      Change cfg w (.resume rid) { w.store with db := patchCount cfg w.store r.id r.body.length }
  | fail {op id} : Change cfg w op { w.store with db := failSession w.store.db id }
  | abort {op id} : Change cfg w op { w.store with parts := assign w.store.parts id none }
  | failAbort {op id} : Change cfg w op { w.store with
      db := failSession w.store.db id, parts := assign w.store.parts id none }
  | cancel {op id} : Change cfg w op { w.store with db := cancelSession w.store.db id w.store.now }
  | finalizePlace {rid r u hashed files d} (hj : w.job rid = some (.finalizeUpload r (.place u hashed)))
      (h : tempFinalize cfg w.store.files hashed (w.store.parts r.id) u.expectedDigest = .ok (files, d)) :
      Change cfg w (.resume rid) { w.store with files := files, parts := assign w.store.parts r.id none }
  | finalize {rid r u d size preview db a} (hj : w.job rid = some (.finalizeUpload r (.tx u d size preview)))
      (h : finalizeTx w.store r u d size preview w.store.next = .ok (db, a)) :
      Change cfg w (.resume rid) { w.store with db := db, next := w.store.next + 1 }
  | gcTombstone {rid b now} (hj : w.job rid = some (.gc b now .tombstone)) :
      Change cfg w (.resume rid) { w.store with db := tombstoneAttachments w.store.db }
  | gcExpire {op id now} : Change cfg w op { w.store with db := expireSession w.store.db id now }
  | gcUploads {op now} : Change cfg w op { w.store with db := purgeUploads w.store.db now }
  | gcKeys {rid b now} (hj : w.job rid = some (.gc b now .keys)) :
      Change cfg w (.resume rid) { w.store with db := purgeKeys w.store.db now }
  | gcEnvelopes {op now} : Change cfg w op { w.store with
      db := { w.store.db with keys := purgeEnvelopes w.store.db.keys now } }
  | gcLinks {op now} : Change cfg w op { w.store with db := purgeLinks w.store.db now }
  | gcSweep {op cut d} (h : CanSweep w.store.db cut d) :
      Change cfg w op { w.store with db := sweepRows w.store.db d, files := assign w.store.files d none }
  | gcUnmark {op} : Change cfg w op { w.store with db := unmarkBlobs w.store.db }
  | gcMark {op now} : Change cfg w op { w.store with db := markBlobs w.store.db now }
  /-- A crash leaves some bytes of a chunk. -/
  | tornAppend {rid r received n b} (hj : w.job rid = some (.patchUpload r (.append received)))
      (h : patchAppend (w.store.parts r.id) received (r.body.take n) = some b) :
      Change cfg w (.crash rid n) { w.store with parts := assign w.store.parts r.id (some b) }
  /-- A crash leaves a swept file's row. -/
  | tornSweep {rid n cut d} (h : CanSweep w.store.db cut d) :
      Change cfg w (.crash rid n) { w.store with files := assign w.store.files d none }

variable {cfg : Config} {w : World} {op : Op}

/-! ## One action -/

section Act

variable {rid : RequestId}

theorem ask_store (s : Store) (rid : RequestId) (req : Request) (x : Except Answer Job) :
    (ask s rid req x).store = s := by
  cases x <;> rfl

theorem rollback_change (rid : RequestId) (req : Request) (d : Digest) (x : Refusal) :
    Change cfg w op (rollback w.store rid req d x).store := by
  unfold rollback reply
  cases x.drop
  · exact .idle
  · exact .dropped

theorem finish_change {s : Store} {req : Request} {x : Except Err (Store × Answer)} (h₀ : Change cfg w op s)
    (h : ∀ s' a, x = .ok (s', a) → Change cfg w op s') : Change cfg w op (finish s rid req x).store := by
  cases x with
  | error e => exact h₀
  | ok v => exact h v.1 v.2 rfl

theorem actPut_change {r : PutReq} {st : PutStage} (hj : w.job rid = some (.put r st)) :
    Change cfg w (.resume rid) (actPut cfg w.store rid r st).store := by
  cases st with
  | entry => simp only [actPut, ask_store]; exact .idle
  | check cid => simp only [actPut, ask_store]; exact .idle
  | place cid =>
    simp only [actPut]
    split
    · exact .idle
    · rename_i h; exact .putPlace hj h
  | tx cid d =>
    simp only [actPut]
    split
    · exact rollback_change ..
    · rename_i h; exact .put hj h

theorem actComment_change {r : CommentReq} {st : TxStage} (hj : w.job rid = some (.comment r st)) :
    Change cfg w (.resume rid) (actComment cfg w.store rid r st).store := by
  cases st with
  | entry => simp only [actComment, ask_store]; exact .idle
  | tx cid =>
    refine finish_change .idle ?_
    intro s' a h
    cases hx : commentTx cfg w.store.db w.store.now r cid w.store.next with
    | error e => rw [hx] at h; cases h
    | ok p => rw [hx] at h; cases h; exact .comment hj hx

theorem actLink_change {u : UserId} {oid : ObjectId} {att : AttachmentId} {version : Int} {st : TxStage}
    (hj : w.job rid = some (.link u oid att version st)) :
    Change cfg w (.resume rid) (actLink w.store rid u oid att version st).store := by
  cases st with
  | entry => simp only [actLink, ask_store]; exact .idle
  | tx cid =>
    refine finish_change .idle ?_
    intro s' a h
    cases hx : linkTx w.store.db.pages cid oid att version with
    | error e => rw [hx] at h; cases h
    | ok p => rw [hx] at h; cases h; exact .link hj hx

theorem actStart_change {r : StartReq} {st : StartStage} (hj : w.job rid = some (.startUpload r st)) :
    Change cfg w (.resume rid) (actStart cfg w.store rid r st).store := by
  cases st with
  | entry => simp only [actStart, ask_store]; exact .idle
  | tx =>
    simp only [actStart]
    split
    · exact .idle
    · rename_i h; exact .startUpload hj h
  | temp id expiresAt => exact .newTemp hj

theorem actPatch_change {r : PatchReq} {st : PatchStage} (hj : w.job rid = some (.patchUpload r st)) :
    Change cfg w (.resume rid) (actPatch cfg w.store rid r st).store := by
  cases st with
  | entry => simp only [actPatch, ask_store]; exact .idle
  | lock => exact .idle
  | read =>
    simp only [actPatch]
    split
    · exact .idle
    · exact .fail
    · exact .idle
  | append received =>
    simp only [actPatch]
    split
    · exact .idle
    · rename_i h; exact .append hj h
  | count received => exact .count hj
  | doom => exact .abort

theorem actCancel_change {u : UserId} {id : UploadId} {st : CancelStage} :
    Change cfg w (.resume rid) (actCancel w.store rid u id st).store := by
  cases st with
  | entry =>
    simp only [actCancel]
    split <;> exact .idle
  | abort => exact .abort
  | tx => exact .cancel

theorem actFinalize_change {r : FinalizeReq} {st : FinalizeStage} (hj : w.job rid = some (.finalizeUpload r st)) :
    Change cfg w (.resume rid) (actFinalize cfg w.store rid r st).store := by
  cases st with
  | read => simp only [actFinalize, ask_store]; exact .idle
  | charge u =>
    simp only [actFinalize]
    split
    · exact .idle
    · exact .fail
    · exact .idle
  | entry u => simp only [actFinalize, ask_store]; exact .idle
  | hash u =>
    simp only [actFinalize]
    split
    · exact .idle
    · split
      · exact .idle
      · exact .fail
  | place u hashed =>
    simp only [actFinalize]
    split
    · rename_i h; exact .finalizePlace hj h
    · rename_i e h
      by_cases he : e = .mismatch
      · subst he; exact .failAbort
      · simp only [he, if_false]; exact .fail
  | cite u d size => exact .idle
  | tx u d size preview =>
    simp only [actFinalize]
    split
    · exact rollback_change ..
    · rename_i h; exact .finalize hj h
  | doom => exact .abort

theorem actGc_change {b : Bool} {now : Time} {st : GcStage} (hj : w.job rid = some (.gc b now st)) :
    Change cfg w (.resume rid) (actGc cfg w.store b now st).store := by
  cases st with
  | tombstone => exact .gcTombstone hj
  | select => exact .idle
  | abort ids =>
    cases ids with
    | nil => exact .idle
    | cons id ids => exact .abort
  | expire id ids => exact .gcExpire
  | uploads => exact .gcUploads
  | keys => exact .gcKeys hj
  | envelopes => exact .gcEnvelopes
  | links => exact .gcLinks
  | digests => exact .idle
  | sweep ds =>
    cases ds with
    | nil => exact .idle
    | cons d ds =>
      simp only [actGc]
      split
      · rename_i h; exact .gcSweep h
      · exact .idle
  | unmark => exact .gcUnmark
  | mark => exact .gcMark

/-- An action of a request in flight. -/
theorem act_change {j : Job} (hj : w.job rid = some j) : Change cfg w (.resume rid) (act cfg w.store rid j).store := by
  cases j with
  | put r st => exact actPut_change hj
  | deleteObject u oid st =>
    cases st with
    | entry => simp only [act, actDelete, ask_store]; exact .idle
    | tx cid => exact .deleteObject hj
  | comment r st => exact actComment_change hj
  | link u oid att version st => exact actLink_change hj
  | unlink u oid att st =>
    cases st with
    | entry => simp only [act, actUnlink, ask_store]; exact .idle
    | tx cid => exact .unlink hj
  | startUpload r st => exact actStart_change hj
  | patchUpload r st => exact actPatch_change hj
  | cancelUpload u id st => exact actCancel_change
  | finalizeUpload r st => exact actFinalize_change hj
  | gc b now st => exact actGc_change hj

end Act

/-! ## One operation -/

@[simp] theorem World.drop_store (w : World) (rid : RequestId) : (w.drop rid).store = w.store := rfl

@[simp] theorem World.goto_store (w : World) (rid : RequestId) (j : Job) : (w.goto rid j).store = w.store := rfl

@[simp] theorem World.after_store (w : World) (rid : RequestId) (o : Outcome) : (w.after rid o).store = o.store := by
  unfold World.after
  split <;> rfl

/-- Outside the lock, a request in flight takes the action of its job. -/
theorem World.act_store (cfg : Config) (w : World) (f : InFlight) :
    (w.act cfg f).1.store = w.store ∨ (w.act cfg f).1.store = (KyNotes.act cfg w.store f.id f.job).store := by
  unfold World.act
  split
  · left; split <;> rfl
  · right; simp

theorem World.job_of_get {rid : RequestId} {f : InFlight} (h : w.inflight.get rid = some f) :
    f.id = rid ∧ w.job rid = some f.job := ⟨Table.get_key h, by unfold World.job; rw [h]; rfl⟩

theorem torn_change {rid : RequestId} {f : InFlight} (h : w.inflight.get rid = some f) (n : Nat) :
    Change cfg w (.crash rid n) (tornFiles cfg w.store f n) := by
  obtain ⟨-, hj⟩ := World.job_of_get h
  unfold tornFiles
  split
  · rename_i hf
    rw [hf] at hj
    split
    · exact .idle
    · rename_i hb; exact .tornAppend hj hb
  · split
    · rename_i hs; exact .tornSweep hs
    · exact .idle
  · exact .idle

theorem commitDb_change {x : Except Err DB}
    (h : ∀ db, x = .ok db → Change cfg w op { w.store with db := db, next := w.store.next + 1 }) :
    Change cfg w op (commitDb w.store x) := by
  cases x with
  | error e => exact .idle
  | ok db => exact h db rfl

theorem map_ok {ε α β : Type} {x : Except ε α} {f : α → β} {b : β} (h : x.map f = .ok b) :
    ∃ a, x = .ok a ∧ f a = b := by
  cases x with
  | error e => cases h
  | ok a => cases h; exact ⟨a, rfl, rfl⟩

theorem txDb_change {x : Except Err DB} (h : txDb cfg w.store op = some x) :
    Change cfg w op (commitDb w.store x) := by
  refine commitDb_change ?_
  intro db hx
  subst hx
  cases op <;> simp only [txDb, Option.some.injEq, reduceCtorEq] at h
  case key kop =>
    obtain ⟨k, hk, rfl⟩ := map_ok h
    exact .key hk
  case deleteContainer => exact .deleteContainer h
  case createObject =>
    obtain ⟨p, hp, rfl⟩ := map_ok h
    exact .createObject hp
  case resolveConflict =>
    obtain ⟨p, hp, rfl⟩ := map_ok h
    exact .resolveConflict hp
  case deleteComment =>
    obtain ⟨p, hp, rfl⟩ := map_ok h
    exact .deleteComment hp
  case createShareLink =>
    obtain ⟨t, ht, rfl⟩ := map_ok h
    exact .createShareLink ht
  case revokeShareLink =>
    obtain ⟨t, ht, rfl⟩ := map_ok h
    exact .revokeShareLink ht

/-- Every operation changes the store in one of the listed ways. -/
theorem step_change (cfg : Config) (w : World) (op : Op) : Change cfg w op (w.next cfg op).store := by
  unfold World.next
  cases op with
  | arrive r => exact .mint
  | resume rid =>
    simp only [step]
    split
    · exact .idle
    · rename_i f hf
      obtain ⟨rfl, hj⟩ := World.job_of_get hf
      rcases World.act_store cfg w f with h | h
      · rw [h]; exact .idle
      · rw [h]; exact act_change hj
  | abandon rid => exact .idle
  | crash rid n =>
    simp only [step]
    split
    · exact .idle
    · rename_i f hf; exact torn_change hf n
  | tick d => exact .tick
  | key kop => exact txDb_change rfl
  | deleteContainer u cid recent => exact txDb_change rfl
  | createObject u cid => exact txDb_change rfl
  | resolveConflict u id => exact txDb_change rfl
  | deleteComment u id => exact txDb_change rfl
  | createShareLink u n e b => exact txDb_change rfl
  | revokeShareLink u id => exact txDb_change rfl

/-! ## Requests in flight -/

theorem World.mem_goto {rid : RequestId} {j : Job} {f : InFlight} (h : f ∈ (w.goto rid j).inflight) :
    (f ∈ w.inflight ∧ f.id ≠ rid) ∨ (f.id = rid ∧ f.job = j) := by
  simp only [World.goto] at h
  rcases Table.mem_update_cases h with h | ⟨g, -, hid, rfl⟩
  · exact Or.inl h
  · exact Or.inr ⟨hid, rfl⟩

/-- A request in flight after an operation is as it was, has just arrived, has taken the lock of its upload session,
or has taken its next action. -/
theorem mem_inflight_next {f : InFlight} (hf : f ∈ (w.next cfg op).inflight) :
    (f ∈ w.inflight ∧ op ≠ .resume f.id) ∨
    (∃ r, op = .arrive r ∧ f = ⟨w.store.next, r.start w.store.clock⟩) ∨
    (f ∈ w.inflight ∧ op = .resume f.id ∧ (w.next cfg op).store = w.store ∧ ∃ r, f.job = .patchUpload r .lock) ∨
    (∃ r, op = .resume f.id ∧ w.job f.id = some (.patchUpload r .lock) ∧ f.job = .patchUpload r .read ∧
      w.locks r.id = none ∧ (w.next cfg op).store = w.store) ∨
    ∃ j, op = .resume f.id ∧ w.job f.id = some j ∧ (∀ r, j ≠ .patchUpload r .lock) ∧
      (act cfg w.store f.id j).next = some f.job ∧ (w.next cfg op).store = (act cfg w.store f.id j).store := by
  unfold World.next at hf ⊢
  cases op with
  | arrive r =>
    simp only [step] at hf
    rcases Table.mem_insertOrIgnore.mp hf with hf | ⟨rfl, -⟩
    · exact Or.inl ⟨hf, by simp⟩
    · exact Or.inr (Or.inl ⟨r, rfl, rfl⟩)
  | resume rid =>
    simp only [step] at hf ⊢
    split at hf
    · rename_i hg
      have hne : f.id ≠ rid := Table.get_eq_none.mp hg f hf
      exact Or.inl ⟨hf, by simp [hne.symm]⟩
    · rename_i g hg
      obtain ⟨rfl, hj⟩ := World.job_of_get hg
      unfold World.act at hf ⊢
      split at hf
      · rename_i r hr
        rw [hr] at hj
        split at hf
        · rename_i hl
          simp only [hl, if_true]
          rcases World.mem_goto hf with ⟨hf, hne⟩ | ⟨hid, hjob⟩
          · exact Or.inl ⟨hf, by simpa using fun h : g.id = f.id => hne h.symm⟩
          · refine Or.inr (Or.inr (Or.inr (Or.inl ⟨r, ?_, ?_, hjob, hl, ?_⟩)))
            · simp [hid]
            · simpa [hid] using hj
            · rfl
        · rename_i hl
          simp only [hl, if_false]
          by_cases hid : f.id = g.id
          · have hfg : f = g := Table.eq_of_key hf (Table.get_mem hg) hid
            exact Or.inr (Or.inr (Or.inl ⟨hf, by simp [hid], trivial, r, hfg ▸ hr⟩))
          · exact Or.inl ⟨hf, by simpa using fun h : g.id = f.id => hid h.symm⟩
      · rename_i hlock
        simp only [World.after_store] at hf ⊢
        unfold World.after at hf
        cases hn : (KyNotes.act cfg w.store g.id g.job).next with
        | none =>
          simp only [hn] at hf
          have := Table.mem_delete.mp hf
          exact Or.inl ⟨this.1, by simpa using fun h : g.id = f.id => this.2 h.symm⟩
        | some j =>
          simp only [hn] at hf
          rcases World.mem_goto hf with ⟨hf, hne⟩ | ⟨hid, hjob⟩
          · exact Or.inl ⟨hf, by simpa using fun h : g.id = f.id => hne h.symm⟩
          · refine Or.inr (Or.inr (Or.inr (Or.inr ⟨g.job, ?_, ?_, fun r hr => hlock r hr, ?_, ?_⟩)))
            · simp [hid]
            · simpa [hid] using hj
            · simp [hid, hjob, hn]
            · simp [hid]
  | abandon rid =>
    simp only [step, World.drop] at hf
    have := Table.mem_delete.mp hf
    exact Or.inl ⟨this.1, by simp⟩
  | crash rid n =>
    simp only [step] at hf
    split at hf <;> exact absurd hf (Table.not_mem_empty _)
  | tick d => exact Or.inl ⟨hf, by simp⟩
  | key kop => exact Or.inl ⟨hf, by simp⟩
  | deleteContainer u cid recent => exact Or.inl ⟨hf, by simp⟩
  | createObject u cid => exact Or.inl ⟨hf, by simp⟩
  | resolveConflict u id => exact Or.inl ⟨hf, by simp⟩
  | deleteComment u id => exact Or.inl ⟨hf, by simp⟩
  | createShareLink u n e b => exact Or.inl ⟨hf, by simp⟩
  | revokeShareLink u id => exact Or.inl ⟨hf, by simp⟩

end KyNotes
