import KyNotes.Lib.Sums
import KyNotes.Quota.Charges
import KyNotes.Uploads.Assembly

/-!
# Content writes and quotas

A save and a comment look for room in their transactions. A finalize looks before it hashes, and what commits until its
own transaction may take the room. `Admits`: a finalize still has room at its transaction, and no write brings back the
blob of a finalized preview that was swept, which would be charged besides the write. On a run whose content writes are
all so, none that adds to what is stored leaves anyone who is charged for it above the quota
(`content_writes_within_quota`).
-/

namespace KyNotes

open Relational Check Transition

variable {cfg : Config} {w : World} {op : Op} {db db' : DB} {p p' : PageTables} {cid : ContainerId} {d : Digest}
  {n : Nat}

/-! ## The bytes that are stored -/

section Pages

variable (p) (scope : ContainerId → Prop) [DecidablePred scope]

/-- The versions of a scope. -/
def versionBytes : Nat :=
  p.objectVersions.total (fun v => ∃ o ∈ p.objects, o.id = v.objectId ∧ scope o.containerId)
    ObjectVersion.ciphertextBytes

/-- The conflicts of a scope. -/
def conflictBytes : Nat := p.conflicts.total (fun c => scope c.containerId) Conflict.ciphertextBytes

/-- The comments of a scope. -/
def commentBytes : Nat := p.comments.total (fun c => c.deletedAt = none ∧ scope c.containerId) Comment.bodyBytes

/-- The attachments of a scope. -/
def attachmentBytes : Nat :=
  p.attachments.total (fun a => a.deletedAt = none ∧ scope a.containerId) Attachment.ciphertextBytes

/-- The finalized previews of a scope. -/
def previewBytes (db : DB) : Nat := db.blobs.total (fun b => PreviewIn db scope b.digest) Blob.sizeBytes

theorem storedBytes_eq (db : DB) : storedBytes db scope =
    versionBytes db.pages scope + conflictBytes db.pages scope + commentBytes db.pages scope +
      attachmentBytes db.pages scope + previewBytes scope db := rfl

end Pages

section Sums

variable (scope : ContainerId → Prop) [DecidablePred scope]

/-- A new version, on pages that stay in their containers. -/
theorem versionBytes_insert (p' : PageTables) {v : ObjectVersion}
    (hv : p.objectVersions.insert v = some p'.objectVersions)
    (ho : ∀ o' ∈ p'.objects, ∃ o ∈ p.objects, o.id = o'.id ∧ o.containerId = o'.containerId) :
    versionBytes p' scope ≤ versionBytes p scope + v.ciphertextBytes := by
  refine Table.total_insert_le hv ?_
  rintro x - ⟨o', ho', hid, hs⟩
  obtain ⟨o, hom, hoid, hoc⟩ := ho o' ho'
  exact ⟨o, hom, hoid.trans hid, hoc ▸ hs⟩

theorem conflictBytes_insert (p' : PageTables) {c : Conflict} (hc : p.conflicts.insert c = some p'.conflicts) :
    conflictBytes p' scope ≤ conflictBytes p scope + c.ciphertextBytes := Table.total_insert_le hc fun _ _ hs => hs

theorem commentBytes_insert (p' : PageTables) {c : Comment} (hc : p.comments.insert c = some p'.comments) :
    commentBytes p' scope ≤ commentBytes p scope + c.bodyBytes := Table.total_insert_le hc fun _ _ hs => hs

/-- A new attachment, or one that is live again. -/
theorem attachmentBytes_place {r : FinalizeReq} {preview : Option Digest} {size : Nat} {id att : AttachmentId}
    (hsize : ∀ a ∈ p.attachments, a.containerId = cid → a.blobDigest = d → a.ciphertextBytes ≤ size)
    (h : placeAttachment p cid d preview size r.generation id = .ok (p', att)) :
    attachmentBytes p' scope ≤ attachmentBytes p scope + size := by
  rcases placeAttachment_ok h with ⟨a, ha, -, rfl⟩ | ⟨-, -, t, ht, rfl⟩
  · obtain ⟨hmem, hcid, hd⟩ := attachmentOf_some ha
    refine Table.total_le_add a.id size ?_
    rintro x hx ⟨hl, hs⟩
    rcases Table.mem_update_cases hx with ⟨hx, -⟩ | ⟨y, hy, hid, rfl⟩
    · exact .inl ⟨x, hx, rfl, ⟨hl, hs⟩, Nat.le_refl _⟩
    · rw [Table.eq_of_key hy hmem hid]
      exact .inr ⟨rfl, hsize a hmem hcid hd⟩
  · exact Table.total_insert_le ht fun _ _ hs => hs

/-! ### Previews -/

/-- The blob of a finalized preview was swept, and would be charged again if a write brought it back. -/
def Revives (db : DB) (d : Digest) : Prop := db.blobs.get d = none ∧ PreviewIn db scope d

instance (db : DB) (d : Digest) : Decidable (Revives scope db d) := inferInstanceAs (Decidable (_ ∧ _))

/-- A row after a claim. -/
theorem claimBlob_mem {blobs t : Table Blob.digest} {files : Files} {size : Nat}
    (h : claimBlob blobs files d size = .ok t) {b : Blob} (hb : b ∈ t) :
    (∃ a ∈ blobs, a.digest = b.digest ∧ a.sizeBytes = b.sizeBytes) ∨
      (b.digest = d ∧ b.sizeBytes = size ∧ blobs.get d = none) := by
  obtain ⟨-, rfl⟩ := claimBlob_ok h
  have hold : ∀ a ∈ blobs.insertOrIgnore ⟨d, size, none⟩,
      a ∈ blobs ∨ (a = ⟨d, size, none⟩ ∧ blobs.get d = none) := by
    intro a ha
    rcases Table.mem_insertOrIgnore.mp ha with ha | ⟨rfl, hfresh⟩
    · exact .inl ha
    · exact .inr ⟨rfl, hfresh⟩
  rcases Table.mem_update_cases hb with ⟨hb, -⟩ | ⟨a, ha, -, rfl⟩
  · rcases hold b hb with hb | ⟨rfl, hfresh⟩
    · exact .inl ⟨b, hb, rfl, rfl⟩
    · exact .inr ⟨rfl, rfl, hfresh⟩
  · rcases hold a ha with ha | ⟨rfl, hfresh⟩
    · exact .inl ⟨a, ha, rfl, rfl⟩
    · exact .inr ⟨rfl, rfl, hfresh⟩

/-- A claim by a write that finalizes no preview. -/
theorem previewBytes_claim {files : Files} {size : Nat} (hb : claimBlob db.blobs files d size = .ok db'.blobs)
    (hp : ∀ x, PreviewIn db' scope x → PreviewIn db scope x) (hnot : ¬Revives scope db d) :
    previewBytes scope db' ≤ previewBytes scope db := by
  refine Table.total_le ?_
  intro b hmem hs
  rcases claimBlob_mem hb hmem with ⟨a, ha, hd, hn⟩ | ⟨rfl, -, hfresh⟩
  · have hin : PreviewIn db scope a.digest := hd ▸ hp _ hs
    exact ⟨a, ha, hd, hin, Nat.le_of_eq hn.symm⟩
  · exact absurd ⟨hfresh, hp _ hs⟩ hnot

/-- The claim of a preview that is finalized. -/
theorem previewBytes_finish {files : Files} {size : Nat} (hb : claimBlob db.blobs files d size = .ok db'.blobs)
    (hp : ∀ x, PreviewIn db' scope x → PreviewIn db scope x ∨ x = d)
    (hsize : ∀ b ∈ db.blobs, b.digest = d → b.sizeBytes ≤ size) :
    previewBytes scope db' ≤ previewBytes scope db + size := by
  refine Table.total_le_add d size ?_
  intro b hmem hs
  rcases claimBlob_mem hb hmem with ⟨a, ha, hd, hn⟩ | ⟨hd, hn, -⟩
  · rcases hp _ hs with hs | hx
    · have hin : PreviewIn db scope a.digest := hd ▸ hs
      exact .inl ⟨a, ha, hd, hin, Nat.le_of_eq hn.symm⟩
    · exact .inr ⟨hx, hn ▸ hsize a ha (hd.trans hx)⟩
  · exact .inr ⟨hd, Nat.le_of_eq hn⟩

end Sums

/-! ## The session of a finalize -/

/-- The session that a finalize has read. -/
def FinalizeStage.session : FinalizeStage → Option UploadSession
  | .charge u | .entry u | .hash u | .place u _ | .cite u _ _ | .tx u _ _ _ => some u
  | .read | .doom => none

/-- A finalize in flight knows what kind of upload it finalizes. -/
def KindInv (w : World) : Prop :=
  ∀ f ∈ w.inflight, ∀ r st u, f.job = .finalizeUpload r st → st.session = some u →
    ∀ v ∈ w.sessions, v.id = r.id → v.kind = u.kind

/-- A session after an operation is an old one of the same kind or a new one. -/
theorem SessionChange.kind {t : Table UploadSession.id} (h : SessionChange cfg w op t) {v : UploadSession}
    (hv : v ∈ t) :
    (∃ u ∈ w.sessions, u.id = v.id ∧ u.kind = v.kind) ∨ v.id = w.store.next := by
  cases h with
  | same => exact .inl ⟨v, hv, rfl, rfl⟩
  | start hj ht =>
    rcases (Table.mem_insert ht).mp hv with hv | rfl
    · exact .inl ⟨v, hv, rfl, rfl⟩
    · exact .inr rfl
  | count | close | finish =>
    rcases Table.mem_update_cases hv with ⟨hv, -⟩ | ⟨u, hu, -, rfl⟩
    · exact .inl ⟨v, hv, rfl, rfl⟩
    · exact .inl ⟨u, hu, rfl, rfl⟩
  | purge => exact .inl ⟨v, (Table.mem_delete.mp hv).1, rfl, rfl⟩

/-- The session of a finalize has been started. -/
theorem AssemblyInv.session_lt {x : Intake} (h : AssemblyInv cfg x) {f : InFlight} (hf : f ∈ x.1.inflight)
    {r : FinalizeReq} {st : FinalizeStage} {u : UploadSession} (hj : f.job = .finalizeUpload r st)
    (hu : st.session = some u) : r.id < x.1.store.next := by
  have hi := h.jobs f hf
  rw [hj] at hi
  cases st with
  | read | doom => cases hu
  | charge | entry | hash => exact hi.2.fresh
  | place | cite | tx => exact hi.2.1.fresh

theorem step_kindInv {x : Intake} (ha : AssemblyInv cfg x) (h : KindInv x.1) : KindInv (x.1.next cfg op) := by
  have hold : ∀ f ∈ x.1.inflight, ∀ r st u, f.job = .finalizeUpload r st → st.session = some u →
      ∀ v ∈ (x.1.next cfg op).sessions, v.id = r.id → v.kind = u.kind := by
    intro f hf r st u hj hu v hv hid
    rcases (step_sessions cfg x.1 op).kind hv with ⟨v', hv', hvid, hkind⟩ | hnew
    · exact hkind ▸ h f hf r st u hj hu v' hv' (hvid.trans hid)
    · exact absurd (hid.symm.trans hnew) (Nat.ne_of_lt (ha.session_lt hf hj hu))
  intro f hf r st u hj hu v hv hid
  rcases mem_inflight_moves hf with ⟨hf, -⟩ | ⟨r', hr', -⟩ | ⟨j, -, hj', hm⟩
  · exact hold f hf r st u hj hu v hv hid
  · rw [hr'] at hj
    cases r' <;> cases hj
    cases hu
  · rw [hj] at hm
    have hmem := World.job_mem hj'
    generalize hs : (x.1.next cfg op).store = s at hm
    cases hm with
    | finalizeRead hread =>
      -- the session was read just now
      cases hu
      obtain ⟨hu, hur, -⟩ := finalizeRead_ok hread
      simp only [World.sessions, hs] at hv
      rw [Table.eq_of_key hv hu (hid.trans hur.symm)]
    | finalizeCharge | finalizeAdmit | finalizeHash | finalizePlace | finalizeCite =>
      exact hold _ hmem r _ u rfl hu v hv hid
    | finalizeDoom => cases hu

/-! ## What a write adds -/

/-- The transaction of a content write. -/
inductive ContentWrite
  | save (r : PutReq) (cid : ContainerId) (d : Digest)
  | comment (r : CommentReq) (cid : ContainerId)
  | finalize (r : FinalizeReq) (u : UploadSession) (d : Digest) (size : Nat) (preview : Option Digest)

/-- The container that is written to. -/
def ContentWrite.container : ContentWrite → ContainerId
  | .save _ cid _ | .comment _ cid => cid
  | .finalize _ u _ _ _ => u.containerId

/-- The content write that an operation is. -/
def World.write (w : World) : Op → Option ContentWrite
  | .resume rid =>
    match w.job rid with
    | some (.put r (.tx cid d)) => some (.save r cid d)
    | some (.comment r (.tx cid)) => some (.comment r cid)
    | some (.finalizeUpload r (.tx u d size preview)) => some (.finalize r u d size preview)
    | _ => none
  | _ => none

/-- The job of a write. -/
def ContentWrite.job : ContentWrite → Job
  | .save r cid d => .put r (.tx cid d)
  | .comment r cid => .comment r (.tx cid)
  | .finalize r u d size preview => .finalizeUpload r (.tx u d size preview)

theorem write_some {x : ContentWrite} (h : w.write op = some x) :
    ∃ rid, op = .resume rid ∧ w.job rid = some x.job := by
  unfold World.write at h
  split at h
  · rename_i rid
    refine ⟨rid, rfl, ?_⟩
    split at h <;> cases h <;> assumption
  · cases h

/-- The rows of a digest have the size of the bytes that are written: without a collision of SHA-256 they do. -/
def SizesAgree (db : DB) (cid : ContainerId) (d : Digest) (size : Nat) : Prop :=
  (∀ b ∈ db.blobs, b.digest = d → b.sizeBytes ≤ size) ∧
    ∀ a ∈ db.pages.attachments, a.containerId = cid → a.blobDigest = d → a.ciphertextBytes ≤ size

instance (db : DB) (cid : ContainerId) (d : Digest) (size : Nat) : Decidable (SizesAgree db cid d size) :=
  inferInstanceAs (Decidable (_ ∧ _))

/-- No payer of the container is charged again for a preview that the write brings back. -/
def Unrevived (db : DB) (cid : ContainerId) (d : Digest) : Prop :=
  ∀ c ∈ db.keys.containers, c.id = cid → ∀ p ∈ c.payers, ¬Revives (p.scope db.keys) db d

instance (db : DB) (cid : ContainerId) (d : Digest) : Decidable (Unrevived db cid d) :=
  inferInstanceAs (Decidable (∀ c ∈ db.keys.containers, c.id = cid → ∀ p ∈ c.payers, ¬Revives (p.scope db.keys) db d))

section Added

variable {s : Store} (scope : ContainerId → Prop) [DecidablePred scope]

/-- The parts of a sum and what each adds. -/
theorem storedBytes_le {v c m a b : Nat} (hversions : versionBytes db'.pages scope ≤ versionBytes db.pages scope + v)
    (hconflicts : conflictBytes db'.pages scope ≤ conflictBytes db.pages scope + c)
    (hcomments : commentBytes db'.pages scope ≤ commentBytes db.pages scope + m)
    (hattachments : attachmentBytes db'.pages scope ≤ attachmentBytes db.pages scope + a)
    (hpreviews : previewBytes scope db' ≤ previewBytes scope db + b) (hn : v + c + m + a + b ≤ n) :
    storedBytes db' scope ≤ storedBytes db scope + n := by
  rw [storedBytes_eq, storedBytes_eq]
  omega

theorem putTx_stored {r : PutReq} {id : ConflictId} {row : SavedRow} (h : putTx cfg s r cid d id = .ok (db, row))
    (hnot : ¬Revives scope s.db d) : storedBytes db scope ≤ storedBytes s.db scope + r.body.length := by
  obtain ⟨o, blobs, pages, -, hb, rfl, hrow⟩ := putTx_ok h
  have hpreviews : previewBytes scope { s.db with pages := pages, blobs := blobs } ≤ previewBytes scope s.db + 0 :=
    previewBytes_claim scope hb (fun _ hx => hx) hnot
  rcases hrow with ⟨-, -, t, i, ht, -, rfl⟩ | ⟨-, -, t, i, ht, -, rfl⟩
  · have hconflicts : conflictBytes (PutReq.afterConflict s.db.pages cid t i) scope ≤
        conflictBytes s.db.pages scope + r.body.length :=
      conflictBytes_insert scope (PutReq.afterConflict s.db.pages cid t i) ht
    refine storedBytes_le (v := 0) (m := 0) (a := 0) scope ?_ hconflicts ?_ ?_ hpreviews (by omega)
    all_goals exact Nat.le_refl _
  · have hobjects : ∀ o' ∈ (r.afterVersion s.db.pages cid o.currentVersion t i).objects,
        ∃ o ∈ s.db.pages.objects, o.id = o'.id ∧ o.containerId = o'.containerId := by
      intro o' ho'
      rcases Table.mem_update_cases ho' with ⟨ho', -⟩ | ⟨x, hx, -, rfl⟩
      · exact ⟨o', ho', rfl, rfl⟩
      · exact ⟨x, hx, rfl, rfl⟩
    have hversions : versionBytes (r.afterVersion s.db.pages cid o.currentVersion t i) scope ≤
        versionBytes s.db.pages scope + r.body.length :=
      versionBytes_insert scope (r.afterVersion s.db.pages cid o.currentVersion t i) ht hobjects
    refine storedBytes_le (c := 0) (m := 0) (a := 0) scope hversions ?_ ?_ ?_ hpreviews (by omega)
    all_goals exact Nat.le_refl _

theorem commentTx_stored {r : CommentReq} {id : CommentId} {now : Stamp} (h : commentTx cfg db now r cid id = .ok p') :
    storedBytes { db with pages := p' } scope ≤ storedBytes db scope + r.bodyBytes := by
  obtain ⟨-, -, -, -, t, ht, rfl⟩ := commentTx_ok h
  have hcomments : commentBytes { bumpSeq db.pages cid with comments := t } scope ≤
      commentBytes db.pages scope + r.bodyBytes :=
    commentBytes_insert scope { bumpSeq db.pages cid with comments := t } ht
  refine storedBytes_le (v := 0) (c := 0) (a := 0) (b := 0) scope ?_ ?_ hcomments ?_ ?_ (by omega)
  all_goals exact Nat.le_refl _

omit [DecidablePred scope] in
/-- A finalized preview after a finalize. -/
theorem previewIn_finish {r : FinalizeReq} {u : UploadSession} {size : Nat} (hf : Finalized s r u d size db)
    {x : Digest} (hx : PreviewIn db scope x) :
    PreviewIn s.db scope x ∨ (x = d ∧ ∃ v ∈ s.db.uploadSessions, v.id = r.id ∧ v.kind = .preview) := by
  obtain ⟨v, hv, hkind, hfinal, hlive, hs⟩ := hx
  rw [hf.keys] at hlive
  rw [hf.sessions] at hv
  rcases Table.mem_update_cases hv with ⟨hv, -⟩ | ⟨y, hy, hid, rfl⟩
  · exact .inl ⟨v, hv, hkind, hfinal, hlive, hs⟩
  · exact .inr ⟨(Option.some.inj hfinal).symm, y, hy, hid, hkind⟩

theorem finalizeTx_stored {r : FinalizeReq} {u : UploadSession} {size : Nat} {preview : Option Digest}
    {id : AttachmentId} {a : Answer} (h : finalizeTx s r u d size preview id = .ok (db, a))
    (hsize : SizesAgree s.db u.containerId d size)
    (hkind : ∀ v ∈ s.db.uploadSessions, v.id = r.id → v.kind = u.kind)
    (hnot : u.kind = .attachment → ¬Revives scope s.db d) :
    storedBytes db scope ≤ storedBytes s.db scope + size := by
  obtain ⟨hf, ⟨-, hpages, -⟩ | ⟨hk, -, -, att, -, hplace⟩⟩ := finalizeTx_ok h
  · have hpreviews : previewBytes scope db ≤ previewBytes scope s.db + size := by
      refine previewBytes_finish scope hf.blobs ?_ hsize.1
      intro x hx
      exact (previewIn_finish scope hf hx).imp_right And.left
    refine storedBytes_le (v := 0) (c := 0) (m := 0) (a := 0) scope ?_ ?_ ?_ ?_ hpreviews (by omega)
    all_goals exact Nat.le_of_eq (by rw [hpages]; rfl)
  · have hpreviews : previewBytes scope db ≤ previewBytes scope s.db + 0 := by
      refine previewBytes_claim scope hf.blobs ?_ (hnot hk)
      intro x hx
      rcases previewIn_finish scope hf hx with hx | ⟨-, v, hv, hid, hvk⟩
      · exact hx
      · rw [hkind v hv hid, hk] at hvk
        cases hvk
    have hattachments := attachmentBytes_place scope hsize.2 hplace
    have hrest : db.pages.objectVersions = s.db.pages.objectVersions ∧ db.pages.objects = s.db.pages.objects ∧
        db.pages.conflicts = s.db.pages.conflicts ∧ db.pages.comments = s.db.pages.comments := by
      rcases placeAttachment_ok hplace with ⟨_, -, -, hp⟩ | ⟨-, -, t, -, hp⟩
      · rw [hp]
        exact ⟨rfl, rfl, rfl, rfl⟩
      · rw [hp]
        exact ⟨rfl, rfl, rfl, rfl⟩
    obtain ⟨hversions, hobjects, hconflicts, hcomments⟩ := hrest
    refine storedBytes_le (v := 0) (c := 0) (m := 0) scope ?_ ?_ ?_ hattachments hpreviews (by omega)
    · exact Nat.le_of_eq (by unfold versionBytes; rw [hversions, hobjects]; rfl)
    · exact Nat.le_of_eq (by unfold conflictBytes; rw [hconflicts]; rfl)
    · exact Nat.le_of_eq (by unfold commentBytes; rw [hcomments]; rfl)

end Added

/-! ## Runs -/

/-- The state in which a write keeps the quota. Saves and comments look for room in their transactions. -/
def ContentWrite.Admitted (cfg : Config) (s : Store) : ContentWrite → Prop
  | .save _ cid d => Unrevived s.db cid d
  | .comment _ _ => True
  | .finalize _ u d size _ => Room cfg s.db s.now u.containerId size ∧ SizesAgree s.db u.containerId d size ∧
      (u.kind = .attachment → Unrevived s.db u.containerId d)

instance (cfg : Config) (s : Store) : (x : ContentWrite) → Decidable (x.Admitted cfg s)
  | .save _ cid d => inferInstanceAs (Decidable (Unrevived s.db cid d))
  | .comment _ _ => .isTrue trivial
  | .finalize _ _ _ _ _ => inferInstanceAs (Decidable (_ ∧ _ ∧ (_ → _)))

/-- Every content write is admitted where it commits. -/
def Admits (cfg : Config) (w : World) (op : Op) : Prop := ∀ x ∈ w.write op, x.Admitted cfg w.store

instance (cfg : Config) (w : World) (op : Op) : Decidable (Admits cfg w op) :=
  inferInstanceAs (Decidable (∀ x ∈ w.write op, x.Admitted cfg w.store))

/-- A content write leaves everyone who is charged for its container within the quota, or stores nothing more. -/
def WithinQuota (cfg : Config) (w : World) (op : Op) : Prop :=
  ∀ x ∈ w.write op, ∀ c ∈ (w.next cfg op).keys.containers, c.id = x.container → ∀ p ∈ c.payers,
    p.limit cfg (w.next cfg op).keys ≠ 0 →
    p.stored w.store.db w.store.now < p.stored (w.next cfg op).store.db (w.next cfg op).store.now →
    p.stored (w.next cfg op).store.db (w.next cfg op).store.now ≤ p.limit cfg (w.next cfg op).keys

instance (cfg : Config) (w : World) (op : Op) : Decidable (WithinQuota cfg w op) :=
  inferInstanceAs (Decidable (∀ x ∈ w.write op, ∀ c ∈ (w.next cfg op).keys.containers, c.id = x.container →
    ∀ p ∈ c.payers, p.limit cfg (w.next cfg op).keys ≠ 0 →
    p.stored w.store.db w.store.now < p.stored (w.next cfg op).store.db (w.next cfg op).store.now →
    p.stored (w.next cfg op).store.db (w.next cfg op).store.now ≤ p.limit cfg (w.next cfg op).keys))

/-- What a write does: it stores bytes that there is room for. -/
structure Wrote (cfg : Config) (s : Store) (cid : ContainerId) (s' : Store) : Prop where
  now : s'.now = s.now
  keys : s'.db.keys = s.db.keys
  links : s'.db.sealedShareLinks = s.db.sealedShareLinks
  room : ∃ n, Room cfg s.db s.now cid n ∧ ∀ c ∈ s.db.keys.containers, c.id = cid → ∀ p ∈ c.payers,
    storedBytes s'.db (p.scope s.db.keys) ≤ storedBytes s.db (p.scope s.db.keys) + n

theorem Wrote.stored_le {s s' : Store} (h : Wrote cfg s cid s') {c : Container} (hc : c ∈ s'.db.keys.containers)
    (hid : c.id = cid) {p : Payer} (hp : p ∈ c.payers) (hl : p.limit cfg s'.db.keys ≠ 0) :
    p.stored s'.db s'.now ≤ p.limit cfg s'.db.keys := by
  obtain ⟨n, hroom, hadds⟩ := h.room
  rw [h.keys] at hc hl ⊢
  have hstored := hadds c hc hid p hp
  have hlinks : p.links s'.db s'.now = p.links s.db s.now := by
    cases p with
    | user u => simp only [Payer.links, linkBytes, h.links, h.now]
    | team t => rfl
  have hfits := hroom c hc hid p hp hl
  simp only [Payer.stored, h.keys, hlinks] at hfits ⊢
  omega

/-- A content write is refused or stores what there is room for. -/
theorem step_wrote (hkind : KindInv w) (ha : Admits cfg w op) {x : ContentWrite} (hx : w.write op = some x) :
    ((w.next cfg op).store.db = w.store.db ∧ (w.next cfg op).store.now = w.store.now) ∨
      Wrote cfg w.store x.container (w.next cfg op).store := by
  have hadm := ha x hx
  obtain ⟨rid, rfl, hj⟩ := write_some hx
  rw [(step_resume cfg hj (by intro _ h; cases x <;> cases h)).1]
  cases x with
  | save r cid d =>
    simp only [ContentWrite.job, act, actPut]
    split
    · rename_i e _
      unfold rollback reply
      cases e.drop <;> exact .inl ⟨rfl, rfl⟩
    · rename_i hput
      obtain ⟨o, blobs, pages, hg, -, rfl, -⟩ := putTx_ok hput
      refine .inr ⟨rfl, rfl, rfl, r.body.length, checkQuota_ok hg.quota, ?_⟩
      intro c hc hid p hp
      exact putTx_stored _ hput (hadm c hc hid p hp)
  | comment r cid =>
    simp only [ContentWrite.job, act, actComment]
    cases hcomment : commentTx cfg w.store.db w.store.now r cid w.store.next with
    | error e => exact .inl ⟨rfl, rfl⟩
    | ok pages =>
      obtain ⟨-, -, -, hq, -⟩ := commentTx_ok hcomment
      refine .inr ⟨rfl, rfl, rfl, r.bodyBytes, checkQuota_ok hq, ?_⟩
      intro c _ _ p _
      exact commentTx_stored _ hcomment
  | finalize r u d size preview =>
    simp only [ContentWrite.job, act, actFinalize]
    split
    · rename_i e _
      unfold rollback reply
      cases e.drop <;> exact .inl ⟨rfl, rfl⟩
    · rename_i hfinalize
      obtain ⟨hroom, hsize, hnot⟩ := hadm
      have hf := (finalizeTx_ok hfinalize).1
      refine .inr ⟨rfl, hf.keys, hf.links, size, hroom, ?_⟩
      intro c hc hid p hp
      have hsession := hkind _ (World.job_mem hj) r _ u rfl rfl
      exact finalizeTx_stored _ hfinalize hsize hsession fun hk => hnot hk c hc hid p hp

theorem step_withinQuota (hkind : KindInv w) (ha : Admits cfg w op) : WithinQuota cfg w op := by
  intro x hx c hc hid p hp hl hmore
  rcases step_wrote hkind ha hx with ⟨hdb, hnow⟩ | hwrote
  · rw [hdb, hnow] at hmore
    exact absurd hmore (Nat.lt_irrefl _)
  · exact hwrote.stored_le hc hid hp hl

theorem reach_kindInv (cfg : Config) (ops : List Op) : KindInv (World.reach cfg ops) := by
  have h : AssemblyInv cfg (Intake.reach cfg ops) ∧ KindInv (Intake.reach cfg ops).1 := by
    refine run_inv (P := fun x => AssemblyInv cfg x ∧ KindInv x.1) ?_ ops ⟨init_assemblyInv, ?_⟩
    · rintro x op ⟨ha, hk⟩
      exact ⟨step_assemblyInv x op ha, step_kindInv ha hk⟩
    · intro f hf
      cases hf
  rw [← Intake.reach_world]
  exact h.2

/-- **Writes within the quota.** On a run whose content writes are admitted where they commit, none that adds to what is
stored leaves anyone who is charged for its container above the quota. -/
theorem content_writes_within_quota (cfg : Config) (ops : List Op) (h : Along (World.next cfg) (Admits cfg) .init ops) :
    ∀ bs op, bs ++ [op] <+: ops → WithinQuota cfg (World.reach cfg bs) op := by
  rintro bs op ⟨rest, rfl⟩
  rw [List.append_assoc, along_append] at h
  exact step_withinQuota (reach_kindInv cfg bs) h.2.1

/-- Accounts of one byte. -/
def quotaOne : Config := { sampleConfig with userQuotaBytes := 1 }

theorem upload_of_quota :
    ((World.reach quotaOne beforeFinalize).write (.resume 8)).isSome ∧
      WithinQuota quotaOne (World.reach quotaOne beforeFinalize) (.resume 8) :=
  ⟨by decide +kernel, content_writes_within_quota quotaOne (beforeFinalize ++ [.resume 8]) (by decide +kernel)
    beforeFinalize (.resume 8) List.prefix_rfl⟩

/-- While a finalize has hashed, its upload is cancelled and page 4 takes the room of its byte. -/
def cancelledFinalize : List Op :=
  beforeFinalize ++ alone (.cancelUpload 0 6) 9 3 ++ alone (.put ⟨0, 4, 2, true, some [], none, some 0, [0x63]⟩) 10 4

/-- Both bytes are stored. -/
theorem cancelledFinalize_exceeds : ¬WithinQuota quotaOne (World.reach quotaOne cancelledFinalize) (.resume 8) := by
  decide +kernel

end KyNotes
