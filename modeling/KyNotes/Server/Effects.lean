import KyNotes.Server.Specs

/-!
# What one operation can do to the key tables and to the page tables

Two projections of `Change`, with the transactions already inverted. `KeyChange` and `PageChange` have one case for each
statement that writes to their tables, and `step_keys` and `step_pages` say that there is no other. `saved_event`,
`chunk_event` and `finalized_event` find the action behind an event. `Moves` lists how a request in flight goes on, and
`inflight_inv` is the rule for facts about all of them.
-/

namespace KyNotes

open Relational Check

/-! ## The key tables -/

/-- The ways an operation changes the key tables. -/
inductive KeyChange (w : World) : Op → KeyTables → Prop
  | same {op} : KeyChange w op w.keys
  | tx {kop k} (h : keyTx kop w.keys w.store.next w.store.clock = .ok k) : KeyChange w (.key kop) k
  | delete {u cid recent} : KeyChange w (.deleteContainer u cid recent) (tombstoneContainers w.keys cid w.store.now)
  | purge {op now} : KeyChange w op (purgeEnvelopes w.keys now)

theorem Change.keys {cfg : Config} {w : World} {op : Op} {s : Store} (h : Change cfg w op s) :
    KeyChange w op s.db.keys := by
  cases h
  case key h => exact .tx h
  case deleteContainer h => cases deleteContainer_ok h; exact .delete
  case put h => obtain ⟨_, _, _, -, -, rfl, -⟩ := putTx_ok h; exact .same
  case startUpload h => obtain ⟨-, _, -, rfl⟩ := startTx_ok h; exact .same
  case finalize h => rw [(finalizeTx_ok h).1.keys]; exact .same
  case gcEnvelopes => exact .purge
  all_goals exact .same

theorem step_keys (cfg : Config) (w : World) (op : Op) : KeyChange w op (w.next cfg op).keys :=
  (step_change cfg w op).keys

/-! ## The page tables -/

/-- The ways an operation changes the page tables. -/
inductive PageChange (cfg : Config) (w : World) : Op → PageTables → Prop
  | same {op} : PageChange cfg w op w.pages
  | bump {kop} : PageChange cfg w (.key kop) (bumpSeqs w.pages (keySeq kop w.keys w.store.next))
  | deleteContainer {u cid recent db} (h : deleteContainer w.store.db u cid recent w.store.now = .ok db) :
      PageChange cfg w (.deleteContainer u cid recent)
        (bumpSeqs (clearPages w.pages w.keys cid w.store.now) (InLiveScope w.keys cid))
  | createObject {u cid t} (hc : ∃ c, w.keys.containers.get cid = some c ∧ c.deletedAt = none)
      (ht : w.pages.objects.insert ⟨w.store.next, cid, 0, w.pages.changeSeq cid + 1, [], none⟩ = some t) :
      PageChange cfg w (.createObject u cid) { bumpSeq w.pages cid with objects := t }
  | resolveConflict {u id} {c : Conflict} (hc : c ∈ w.pages.conflicts) (hid : c.id = id) :
      PageChange cfg w (.resolveConflict u id) { bumpSeq w.pages c.containerId with
        conflicts := w.pages.conflicts.update (fun x => x.id = id) fun x =>
          { x with resolvedAt := some w.store.now, changeSeq := w.pages.changeSeq c.containerId + 1 } }
  | deleteComment {u id} {c : Comment} (hc : c ∈ w.pages.comments) (hid : c.id = id) :
      PageChange cfg w (.deleteComment u id) { bumpSeq w.pages c.containerId with
        comments := w.pages.comments.update (fun x => x.id = id) fun x =>
          { x with
            deletedAt := some w.store.now, bodyBytes := 0, changeSeq := w.pages.changeSeq c.containerId + 1 } }
  | conflict {rid r cid d o t i} (hj : w.job rid = some (.put r (.tx cid d))) (hg : PutGate cfg w.store r cid o)
      (hb : r.base.getD 0 ≠ o.currentVersion)
      (ht : w.pages.conflicts.insert (r.conflictRow w.pages cid d o.currentVersion w.store.next) = some t)
      (hi : KeyRecorded w.pages r w.store.next 409 w.store.now o.currentVersion i) :
      PageChange cfg w (.resume rid) (PutReq.afterConflict w.pages cid t i)
  | version {rid r cid d o t i} (hj : w.job rid = some (.put r (.tx cid d))) (hg : PutGate cfg w.store r cid o)
      (hb : r.base.getD 0 = o.currentVersion)
      (ht : w.pages.objectVersions.insert (r.versionRow w.pages cid d o.currentVersion) = some t)
      (hi : KeyRecorded w.pages r r.objectId 200 w.store.now (o.currentVersion + 1) i) :
      PageChange cfg w (.resume rid) (r.afterVersion w.pages cid o.currentVersion t i)
  | deleteObject {rid u oid cid} (hj : w.job rid = some (.deleteObject u oid (.tx cid))) :
      PageChange cfg w (.resume rid) (deleteObjectTx w.pages cid oid w.store.now)
  | comment {rid r cid t} (hj : w.job rid = some (.comment r (.tx cid)))
      (hk : Keyed w.keys cid r.userId r.generation) (he : OwnIdentityEnvelope w.keys r.userId cid r.generation)
      (hq : checkQuota cfg w.store.db w.store.now cid none r.bodyBytes = .ok ())
      (ht : w.pages.comments.insert (r.row w.pages cid w.store.next) = some t) :
      PageChange cfg w (.resume rid) { bumpSeq w.pages cid with comments := t }
  | link {rid a oid version} (ha : a ∈ w.pages.attachments) (hl : a.deletedAt = none) :
      PageChange cfg w (.resume rid) { w.pages with
        attachmentRefs := w.pages.attachmentRefs.insertOrIgnore ⟨a.id, oid, version⟩ }
  | unlink {rid oid att} : PageChange cfg w (.resume rid) (unlinkTx w.pages oid att)
  | revive {rid r u d size preview db ans} {a : Attachment}
      (hj : w.job rid = some (.finalizeUpload r (.tx u d size preview)))
      (hx : finalizeTx w.store r u d size preview w.store.next = .ok (db, ans)) (hk : u.kind = .attachment)
      (ha : attachmentOf w.pages u.containerId d = some a) :
      PageChange cfg w (.resume rid) { bumpSeq w.pages u.containerId with
        attachments := w.pages.attachments.update (fun x => x.id = a.id) fun x => { x with deletedAt := none } }
  | attach {rid r u d size preview t} (hj : w.job rid = some (.finalizeUpload r (.tx u d size preview)))
      (hk : u.kind = .attachment) (hg : Keyed w.keys u.containerId r.userId r.generation)
      (he : OwnIdentityEnvelope w.keys r.userId u.containerId r.generation)
      (hn : attachmentOf w.pages u.containerId d = none)
      (ht : w.pages.attachments.insert (r.row w.pages u.containerId d size preview w.store.next) = some t) :
      PageChange cfg w (.resume rid) { bumpSeq w.pages u.containerId with attachments := t }
  | gcTombstone {rid b now} (hj : w.job rid = some (.gc b now .tombstone)) :
      PageChange cfg w (.resume rid) (tombstoneAttachments w.store.db).pages
  | gcKeys {rid b now} (hj : w.job rid = some (.gc b now .keys)) :
      PageChange cfg w (.resume rid) (purgeKeys w.store.db now).pages
  | gcSweep {op cut d} (h : CanSweep w.store.db cut d) : PageChange cfg w op (sweepRows w.store.db d).pages

theorem Change.pages {cfg : Config} {w : World} {op : Op} {s : Store} (h : Change cfg w op s) :
    PageChange cfg w op s.db.pages := by
  cases h
  case key h => exact .bump
  case deleteContainer h => cases deleteContainer_ok h; exact .deleteContainer h
  case createObject h => obtain ⟨hc, t, ht, rfl⟩ := createObject_ok h; exact .createObject hc ht
  case resolveConflict h => obtain ⟨c, hc, hid, rfl⟩ := resolveConflict_ok h; exact .resolveConflict hc hid
  case deleteComment h =>
    obtain rfl | ⟨c, hc, hid, rfl⟩ := deleteComment_ok h
    · exact .same
    · exact .deleteComment hc hid
  case put hj h =>
    obtain ⟨o, blobs, pages, hg, -, rfl, ⟨hb, -, t, i, ht, hi, rfl⟩ | ⟨hb, -, t, i, ht, hi, rfl⟩⟩ := putTx_ok h
    · exact .conflict hj hg hb ht hi
    · exact .version hj hg hb ht hi
  case deleteObject hj => exact .deleteObject hj
  case comment hj h => obtain ⟨hk, he, -, hq, t, ht, rfl⟩ := commentTx_ok h; exact .comment hj hk he hq ht
  case link hj h => obtain ⟨a, ha, rfl, hl, rfl⟩ := linkTx_ok h; exact .link ha hl
  case unlink => exact .unlink
  case startUpload h => obtain ⟨-, t, -, rfl⟩ := startTx_ok h; exact .same
  case finalize hj h =>
    obtain ⟨-, ⟨-, hp, -⟩ | ⟨hk, hg, he, att, -, hp⟩⟩ := finalizeTx_ok h
    · rw [hp]; exact .same
    · obtain ⟨a, ha, -, hp⟩ | ⟨hn, -, t, ht, hp⟩ := placeAttachment_ok hp
      · rw [hp]; exact .revive hj h hk ha
      · rw [hp]; exact .attach hj hk hg he hn ht
  case gcTombstone hj => exact .gcTombstone hj
  case gcKeys hj => exact .gcKeys hj
  case gcSweep h => exact .gcSweep h
  all_goals exact .same

theorem step_pages (cfg : Config) (w : World) (op : Op) : PageChange cfg w op (w.next cfg op).pages :=
  (step_change cfg w op).pages

/-! ## Events -/

section Events

variable {cfg : Config} {w : World} {op : Op} {s : Store} {rid : RequestId}

/-- Behind an event is the action of a request in flight. -/
theorem step_events {e : Event} (h : e ∈ (step cfg w op).2) :
    ∃ rid j, op = .resume rid ∧ w.job rid = some j ∧ e ∈ (act cfg w.store rid j).events ∧
      (w.next cfg op).store = (act cfg w.store rid j).store := by
  unfold World.next
  cases op with
  | resume rid =>
    simp only [step] at h ⊢
    split at h
    · cases h
    · rename_i f hf
      obtain ⟨rfl, hj⟩ := World.job_of_get hf
      unfold World.act at h ⊢
      split at h
      · split at h <;> cases h
      · exact ⟨f.id, f.job, rfl, hj, h, by simp⟩
  | crash rid n =>
    simp only [step] at h
    split at h <;> cases h
  | arrive | abandon | tick | key | deleteContainer | createObject | resolveConflict | deleteComment
  | createShareLink | revokeShareLink => cases h

/-- A request that does not wait for a lock takes the action of its job. -/
theorem step_resume (cfg : Config) {j : Job} (hj : w.job rid = some j) (hl : ∀ r, j ≠ .patchUpload r .lock) :
    (w.next cfg (.resume rid)).store = (act cfg w.store rid j).store ∧
      (step cfg w (.resume rid)).2 = (act cfg w.store rid j).events := by
  unfold World.job at hj
  obtain ⟨f, hf, rfl⟩ := Option.map_eq_some_iff.mp hj
  have hid : f.id = rid := Table.get_key hf
  subst hid
  unfold World.next
  simp only [step, hf, World.act]
  exact ⟨World.after_store .., trivial⟩

/-- The request that a job serves. -/
def Job.request : Job → Request
  | .put r _ => .put r
  | .deleteObject u oid _ => .deleteObject u oid
  | .comment r _ => .comment r
  | .link u oid att version _ => .link u oid att version
  | .unlink u oid att _ => .unlink u oid att
  | .startUpload r _ => .startUpload r
  | .patchUpload r _ => .patchUpload r
  | .cancelUpload u id _ => .cancelUpload u id
  | .finalizeUpload r _ => .finalizeUpload r
  | .gc b _ _ => .gc b

/-- The events of an action that only answers its request. -/
def Answers (rid : RequestId) (req : Request) (es : List Event) : Prop := ∀ e ∈ es, ∃ a, e = .answered rid req a

theorem answers_nil (req : Request) : Answers rid req [] := fun _ h => by cases h

theorem answers_one (req : Request) (a : Answer) : Answers rid req [.answered rid req a] :=
  fun _ h => ⟨a, List.mem_singleton.mp h⟩

theorem ask_answers (req : Request) (x : Except Answer Job) : Answers rid req (ask s rid req x).events := by
  cases x with
  | error a => exact answers_one req a
  | ok j => exact answers_nil req

theorem finish_answers (req : Request) (x : Except Err (Store × Answer)) :
    Answers rid req (finish s rid req x).events := by
  cases x with
  | error e => exact answers_one req _
  | ok v => exact answers_one req _

/-- Only a committed save, a counted chunk and a committed finalize are events besides the answers. -/
theorem act_events {j : Job} {e : Event} (h : e ∈ (act cfg s rid j).events) :
    (∃ a, e = .answered rid j.request a) ∨
    (∃ r cid d db row, j = .put r (.tx cid d) ∧ e = .saved rid r row ∧ putTx cfg s r cid d s.next = .ok (db, row)) ∨
    (∃ r received, j = .patchUpload r (.count received) ∧ e = .chunk r.id r.index r.body) ∨
    ∃ r u d size preview db a, j = .finalizeUpload r (.tx u d size preview) ∧ e = .finalized rid r d ∧
      finalizeTx s r u d size preview s.next = .ok (db, a) := by
  have quiet : ∀ {req : Request} {es : List Event}, Answers rid req es → e ∈ es → ∃ a, e = .answered rid req a :=
    fun ha he => ha e he
  cases j with
  | put r st =>
    cases st with
    | entry | check => exact Or.inl (quiet (ask_answers _ _) h)
    | place cid =>
      simp only [act, actPut] at h
      split at h
      · exact Or.inl (quiet (answers_one _ _) h)
      · cases h
    | tx cid d =>
      simp only [act, actPut] at h
      split at h
      · exact Or.inl (quiet (answers_one _ _) h)
      · rename_i db row hx
        simp only [List.mem_cons, List.not_mem_nil, or_false] at h
        rcases h with rfl | rfl
        · exact Or.inr (Or.inl ⟨r, cid, d, db, row, rfl, rfl, hx⟩)
        · exact Or.inl ⟨_, rfl⟩
  | deleteObject u oid st =>
    cases st with
    | entry => exact Or.inl (quiet (ask_answers _ _) h)
    | tx cid => exact Or.inl (quiet (answers_one _ _) h)
  | comment r st =>
    cases st with
    | entry => exact Or.inl (quiet (ask_answers _ _) h)
    | tx cid => exact Or.inl (quiet (finish_answers _ _) h)
  | link u oid att version st =>
    cases st with
    | entry => exact Or.inl (quiet (ask_answers _ _) h)
    | tx cid => exact Or.inl (quiet (finish_answers _ _) h)
  | unlink u oid att st =>
    cases st with
    | entry => exact Or.inl (quiet (ask_answers _ _) h)
    | tx cid => exact Or.inl (quiet (answers_one _ _) h)
  | startUpload r st =>
    cases st with
    | entry => exact Or.inl (quiet (ask_answers _ _) h)
    | tx =>
      simp only [act, actStart] at h
      split at h
      · exact Or.inl (quiet (answers_one _ _) h)
      · cases h
    | temp id expiresAt => exact Or.inl (quiet (answers_one _ _) h)
  | patchUpload r st =>
    cases st with
    | entry => exact Or.inl (quiet (ask_answers _ _) h)
    | lock => cases h
    | read =>
      simp only [act, actPatch] at h
      split at h
      · exact Or.inl (quiet (answers_one _ _) h)
      · cases h
      · cases h
    | append received =>
      simp only [act, actPatch] at h
      split at h
      · exact Or.inl (quiet (answers_one _ _) h)
      · cases h
    | count received =>
      simp only [act, actPatch, List.mem_cons, List.not_mem_nil, or_false] at h
      rcases h with rfl | rfl
      · exact Or.inr (Or.inr (Or.inl ⟨r, received, rfl, rfl⟩))
      · exact Or.inl ⟨_, rfl⟩
    | doom => exact Or.inl (quiet (answers_one _ _) h)
  | cancelUpload u id st =>
    cases st with
    | entry =>
      simp only [act, actCancel] at h
      split at h
      · exact Or.inl (quiet (answers_one _ _) h)
      · cases h
    | abort => cases h
    | tx => exact Or.inl (quiet (answers_one _ _) h)
  | finalizeUpload r st =>
    cases st with
    | read | entry => exact Or.inl (quiet (ask_answers _ _) h)
    | charge u =>
      simp only [act, actFinalize] at h
      split at h
      · cases h
      · cases h
      · exact Or.inl (quiet (answers_one _ _) h)
    | hash u =>
      simp only [act, actFinalize] at h
      split at h
      · exact Or.inl (quiet (answers_one _ _) h)
      · split at h
        · cases h
        · exact Or.inl (quiet (answers_one _ _) h)
    | place u hashed =>
      simp only [act, actFinalize] at h
      split at h
      · cases h
      · exact Or.inl (quiet (answers_one _ _) h)
    | cite u d size => cases h
    | tx u d size preview =>
      simp only [act, actFinalize] at h
      split at h
      · exact Or.inl (quiet (answers_one _ _) h)
      · rename_i db a hx
        simp only [List.mem_cons, List.not_mem_nil, or_false] at h
        rcases h with rfl | rfl
        · exact Or.inr (Or.inr (Or.inr ⟨r, u, d, size, preview, db, a, rfl, rfl, hx⟩))
        · exact Or.inl ⟨_, rfl⟩
    | doom => exact Or.inl (quiet (answers_one _ _) h)
  | gc b now st =>
    cases st with
    | abort ids => cases ids <;> cases h
    | sweep ds =>
      cases ds with
      | nil => cases h
      | cons d ds =>
        simp only [act, actGc] at h
        split at h <;> cases h
    | tombstone | select | expire | uploads | keys | envelopes | links | digests | unmark | mark => cases h

/-- A save stored a row: its transaction committed. -/
theorem saved_event {r : PutReq} {row : SavedRow} (h : .saved rid r row ∈ (step cfg w op).2) :
    op = .resume rid ∧ ∃ cid d db, w.job rid = some (.put r (.tx cid d)) ∧
      putTx cfg w.store r cid d w.store.next = .ok (db, row) ∧ (w.next cfg op).store.db = db := by
  obtain ⟨rid', j, rfl, hj, he, hs⟩ := step_events h
  obtain ⟨_, h⟩ | ⟨r', cid, d, db, row', rfl, h, hx⟩ | ⟨_, _, -, h⟩ | ⟨_, _, _, _, _, _, _, -, h, -⟩ := act_events he
  · cases h
  · cases h
    refine ⟨rfl, cid, d, db, hj, hx, ?_⟩
    rw [hs]
    simp only [act, actPut, hx]
  · cases h
  · cases h

/-- A chunk was counted. -/
theorem chunk_event {id : UploadId} {index : Nat} {body : Bytes} (h : .chunk id index body ∈ (step cfg w op).2) :
    ∃ rid r received, op = .resume rid ∧ w.job rid = some (.patchUpload r (.count received)) ∧ r.id = id ∧
      r.index = index ∧ r.body = body := by
  obtain ⟨rid, j, rfl, hj, he, -⟩ := step_events h
  obtain ⟨_, h⟩ | ⟨_, _, _, _, _, -, h, -⟩ | ⟨r, received, rfl, h⟩ | ⟨_, _, _, _, _, _, _, -, h, -⟩ := act_events he
  · cases h
  · cases h
  · cases h
    exact ⟨rid, r, received, rfl, hj, rfl, rfl, rfl⟩
  · cases h

/-- A finalize committed. -/
theorem finalized_event {r : FinalizeReq} {d : Digest} (h : .finalized rid r d ∈ (step cfg w op).2) :
    op = .resume rid ∧ ∃ u size preview db a, w.job rid = some (.finalizeUpload r (.tx u d size preview)) ∧
      finalizeTx w.store r u d size preview w.store.next = .ok (db, a) ∧ (w.next cfg op).store.db = db := by
  obtain ⟨rid', j, rfl, hj, he, hs⟩ := step_events h
  obtain ⟨_, h⟩ | ⟨_, _, _, _, _, -, h, -⟩ | ⟨_, _, -, h⟩ | ⟨r', u, d', size, preview, db, a, rfl, h, hx⟩ :=
    act_events he
  · cases h
  · cases h
  · cases h
  · cases h
    refine ⟨rfl, u, size, preview, db, a, hj, hx, ?_⟩
    rw [hs]
    simp only [act, actFinalize, hx]

end Events

/-! ## Requests in flight -/

/-- The ways a request in flight goes on, with the store that its action leaves. -/
inductive Moves (cfg : Config) (s : Store) : Job → Job → Store → Prop
  | putAdmit {r cid} (h : putAdmit cfg s.db r = .ok cid) : Moves cfg s (.put r .entry) (.put r (.check cid)) s
  | putCheck {r cid x} (h : putCheck cfg s.db s.now r cid = .ok x) :
      Moves cfg s (.put r (.check cid)) (.put r (.place cid)) s
  | putPlace {r cid files d} (h : tempFinalize cfg s.files r.body (some r.body) none = .ok (files, d)) :
      Moves cfg s (.put r (.place cid)) (.put r (.tx cid d)) { s with files := files }
  | delete {u oid o} (h : editableObject s.db oid u = .ok o) :
      Moves cfg s (.deleteObject u oid .entry) (.deleteObject u oid (.tx o.containerId)) s
  | comment {r cid} (h : commentAdmit s.db r = .ok cid) : Moves cfg s (.comment r .entry) (.comment r (.tx cid)) s
  | link {u oid att version o} (h : editableObject s.db oid u = .ok o) :
      Moves cfg s (.link u oid att version .entry) (.link u oid att version (.tx o.containerId)) s
  | unlink {u oid att o} (h : editableObject s.db oid u = .ok o) :
      Moves cfg s (.unlink u oid att .entry) (.unlink u oid att (.tx o.containerId)) s
  | startAdmit {r x} (h : startAdmit cfg s.db s.now r = .ok x) :
      Moves cfg s (.startUpload r .entry) (.startUpload r .tx) s
  | startTx {r db} (h : startTx cfg s r s.next = .ok db) :
      Moves cfg s (.startUpload r .tx) (.startUpload r (.temp s.next (format (s.clock + cfg.uploadTTL))))
        { s with db := db, next := s.next + 1 }
  | patchAdmit {r x} (h : patchAdmit s.db r = .ok x) : Moves cfg s (.patchUpload r .entry) (.patchUpload r .lock) s
  | patchLock {r} : Moves cfg s (.patchUpload r .lock) (.patchUpload r .read) s
  | patchDoom {r} (h : patchRead s r = .doom) :
      Moves cfg s (.patchUpload r .read) (.patchUpload r .doom) { s with db := failSession s.db r.id }
  | patchRead {r n} (h : patchRead s r = .append n) :
      Moves cfg s (.patchUpload r .read) (.patchUpload r (.append n)) s
  | patchAppend {r n b} (h : patchAppend (s.parts r.id) n r.body = some b) :
      Moves cfg s (.patchUpload r (.append n)) (.patchUpload r (.count n))
        { s with parts := assign s.parts r.id (some b) }
  | cancelAdmit {u id x} (h : ownSession s.db u id = some x) :
      Moves cfg s (.cancelUpload u id .entry) (.cancelUpload u id .abort) s
  | cancelAbort {u id} :
      Moves cfg s (.cancelUpload u id .abort) (.cancelUpload u id .tx) { s with parts := assign s.parts id none }
  | finalizeRead {r u} (h : finalizeRead s r = .ok u) :
      Moves cfg s (.finalizeUpload r .read) (.finalizeUpload r (.charge u)) s
  | finalizeCharge {r u x} (h : checkQuota cfg s.db s.now u.containerId (some r.id) u.receivedBytes = .ok x) :
      Moves cfg s (.finalizeUpload r (.charge u)) (.finalizeUpload r (.entry u)) s
  | finalizeDoom {r u} :
      Moves cfg s (.finalizeUpload r (.charge u)) (.finalizeUpload r .doom) { s with db := failSession s.db r.id }
  | finalizeAdmit {r u x} (h : finalizeAdmit s.db r u = .ok x) :
      Moves cfg s (.finalizeUpload r (.entry u)) (.finalizeUpload r (.hash u)) s
  | finalizeHash {r u b} (hb : s.parts r.id = some b) (hl : b.length = u.declaredBytes) :
      Moves cfg s (.finalizeUpload r (.hash u)) (.finalizeUpload r (.place u b)) s
  | finalizePlace {r u hashed files d}
      (h : tempFinalize cfg s.files hashed (s.parts r.id) u.expectedDigest = .ok (files, d)) :
      Moves cfg s (.finalizeUpload r (.place u hashed)) (.finalizeUpload r (.cite u d hashed.length))
        { s with files := files, parts := assign s.parts r.id none }
  | finalizeCite {r u d size} :
      Moves cfg s (.finalizeUpload r (.cite u d size)) (.finalizeUpload r (.tx u d size (previewOf s.db r u))) s
  | gc {b now st st' s'} : Moves cfg s (.gc b now st) (.gc b now st') s'

theorem ask_next {s : Store} {rid : RequestId} {req : Request} {x : Except Answer Job} {j : Job}
    (h : (ask s rid req x).next = some j) : x = .ok j := by
  cases x with
  | error a => cases h
  | ok j' => cases h; rfl

/-- A request goes on in one of the listed ways. -/
theorem act_moves {cfg : Config} {s : Store} {rid : RequestId} {j j' : Job} (h : (act cfg s rid j).next = some j') :
    Moves cfg s j j' (act cfg s rid j).store := by
  cases j with
  | put r st =>
    cases st with
    | entry =>
      obtain ⟨cid, hx, rfl⟩ := map_ok (ask_next h)
      simp only [act, actPut, ask_store]
      exact .putAdmit hx
    | check cid =>
      obtain ⟨_, hx, rfl⟩ := map_ok (ask_next h)
      simp only [act, actPut, ask_store]
      exact .putCheck hx
    | place cid =>
      simp only [act, actPut] at h ⊢
      split at h <;> cases h
      exact .putPlace ‹_›
    | tx cid d =>
      simp only [act, actPut] at h
      split at h <;> cases h
  | deleteObject u oid st =>
    cases st with
    | entry =>
      obtain ⟨o, hx, rfl⟩ := map_ok (ask_next h)
      simp only [act, actDelete, ask_store]
      exact .delete hx
    | tx cid => cases h
  | comment r st =>
    cases st with
    | entry =>
      obtain ⟨cid, hx, rfl⟩ := map_ok (ask_next h)
      simp only [act, actComment, ask_store]
      exact .comment hx
    | tx cid =>
      simp only [act, actComment, finish] at h
      split at h <;> cases h
  | link u oid att version st =>
    cases st with
    | entry =>
      obtain ⟨o, hx, rfl⟩ := map_ok (ask_next h)
      simp only [act, actLink, ask_store]
      exact .link hx
    | tx cid =>
      simp only [act, actLink, finish] at h
      split at h <;> cases h
  | unlink u oid att st =>
    cases st with
    | entry =>
      obtain ⟨o, hx, rfl⟩ := map_ok (ask_next h)
      simp only [act, actUnlink, ask_store]
      exact .unlink hx
    | tx cid => cases h
  | startUpload r st =>
    cases st with
    | entry =>
      obtain ⟨_, hx, rfl⟩ := map_ok (ask_next h)
      simp only [act, actStart, ask_store]
      exact .startAdmit hx
    | tx =>
      simp only [act, actStart] at h ⊢
      split at h <;> cases h
      exact .startTx ‹_›
    | temp id expiresAt => cases h
  | patchUpload r st =>
    cases st with
    | entry =>
      obtain ⟨_, hx, rfl⟩ := map_ok (ask_next h)
      simp only [act, actPatch, ask_store]
      exact .patchAdmit hx
    | lock => cases h; exact .patchLock
    | read =>
      simp only [act, actPatch] at h ⊢
      split at h <;> cases h
      · exact .patchDoom ‹_›
      · exact .patchRead ‹_›
    | append n =>
      simp only [act, actPatch] at h ⊢
      split at h <;> cases h
      exact .patchAppend ‹_›
    | count n => cases h
    | doom => cases h
  | cancelUpload u id st =>
    cases st with
    | entry =>
      simp only [act, actCancel] at h ⊢
      split at h <;> cases h
      exact .cancelAdmit ‹_›
    | abort => cases h; exact .cancelAbort
    | tx => cases h
  | finalizeUpload r st =>
    cases st with
    | read =>
      obtain ⟨u, hx, rfl⟩ := map_ok (ask_next h)
      simp only [act, actFinalize, ask_store]
      exact .finalizeRead hx
    | charge u =>
      simp only [act, actFinalize] at h ⊢
      split at h <;> cases h
      · exact .finalizeCharge ‹_›
      · exact .finalizeDoom
    | entry u =>
      obtain ⟨_, hx, rfl⟩ := map_ok (ask_next h)
      simp only [act, actFinalize, ask_store]
      exact .finalizeAdmit hx
    | hash u =>
      simp only [act, actFinalize] at h ⊢
      split at h
      · cases h
      · split at h <;> cases h
        rename_i hb hl
        simp only [hl, if_true]
        exact .finalizeHash hb hl
    | place u hashed =>
      simp only [act, actFinalize] at h ⊢
      split at h <;> cases h
      exact .finalizePlace ‹_›
    | cite u d size => cases h; exact .finalizeCite
    | tx u d size preview =>
      simp only [act, actFinalize] at h
      split at h <;> cases h
    | doom => cases h
  | gc b now st =>
    cases st with
    | abort ids => cases ids <;> cases h <;> exact .gc
    | links =>
      simp only [act, actGc] at h
      split at h <;> cases h
      exact .gc
    | sweep ds =>
      cases ds with
      | nil => cases h; exact .gc
      | cons d ds =>
        simp only [act, actGc] at h ⊢
        split at h <;> cases h <;> exact .gc
    | mark => cases h
    | tombstone | select | expire | uploads | keys | envelopes | digests | unmark => cases h; exact .gc

theorem World.job_mem {w : World} {rid : RequestId} {j : Job} (h : w.job rid = some j) : ⟨rid, j⟩ ∈ w.inflight := by
  unfold World.job at h
  obtain ⟨f, hf, rfl⟩ := Option.map_eq_some_iff.mp h
  have hid : f.id = rid := Table.get_key hf
  subst hid
  exact Table.get_mem hf

/-- A request in flight after an operation was in flight before it, has just arrived, or has gone on. -/
theorem mem_inflight_moves {cfg : Config} {w : World} {op : Op} {f : InFlight} (hf : f ∈ (w.next cfg op).inflight) :
    (f ∈ w.inflight ∧ (op = .resume f.id → ∃ r, f.job = .patchUpload r .lock)) ∨
      (∃ r, f.job = Request.start r w.store.clock ∧ (w.next cfg op).store.clock = w.store.clock) ∨
      ∃ j, op = .resume f.id ∧ w.job f.id = some j ∧ Moves cfg w.store j f.job (w.next cfg op).store := by
  rcases mem_inflight_next hf with ⟨hf, hne⟩ | ⟨r, rfl, rfl⟩ | ⟨hf, -, -, hr⟩ | ⟨r, hop, hj, hr, -, hs⟩ |
    ⟨j, hop, hj, -, hn, hs⟩
  · exact Or.inl ⟨hf, fun h => absurd h hne⟩
  · exact Or.inr (Or.inl ⟨r, rfl, rfl⟩)
  · exact Or.inl ⟨hf, fun _ => hr⟩
  · refine Or.inr (Or.inr ⟨_, hop, hj, ?_⟩)
    rw [hr, hs]
    exact .patchLock
  · refine Or.inr (Or.inr ⟨j, hop, hj, ?_⟩)
    rw [hs]
    exact act_moves hn

/-- A fact about every request in flight, kept by an operation: it survives what the operation does to the store, a new
request has it, and a request that has it goes on to an action that has it. -/
theorem inflight_inv {cfg : Config} {w : World} {op : Op} {P : Store → Job → Prop}
    (hstay : ∀ j, P w.store j → P (w.next cfg op).store j)
    (hstart : ∀ s r, P s (Request.start r s.clock))
    (hmove : ∀ j j', P w.store j → Moves cfg w.store j j' (w.next cfg op).store → P (w.next cfg op).store j')
    (h : ∀ f ∈ w.inflight, P w.store f.job) : ∀ f ∈ (w.next cfg op).inflight, P (w.next cfg op).store f.job := by
  intro f hf
  rcases mem_inflight_moves hf with ⟨hf, -⟩ | ⟨r, hr, hclock⟩ | ⟨j, -, hj, hm⟩
  · exact hstay _ (h f hf)
  · rw [hr, ← hclock]
    exact hstart _ r
  · exact hmove j f.job (h _ (World.job_mem hj)) hm

end KyNotes
