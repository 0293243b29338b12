import KyNotes.Server.Effects

/-!
# Blobs against garbage collection

A digest is stored when it has its row and its file. Three things can unmake that: `dropUnclaimed`, which stops at a
row, and the sweep and a crash in the middle of it, which stop at a reference (`Change.stored`). A digest becomes
referenced in the transaction that claims it, with one exception: the preview that an attachment cites was claimed by
the transaction of its own upload, and nothing claims it again.

* `blob_safety`: the bytes of versions, open conflicts and live attachments are always stored.
* `preview_safety`: the previews of live attachments are stored on exactly those runs on which every attachment that
  commits names a preview that is stored then.
-/

namespace KyNotes

open Relational Check Transition

variable {cfg : Config} {w : World} {op : Op} {p p' : PageTables} {s' : Store} {d x : Digest}

/-- The digest has its row and its file. -/
def Stored (s : Store) (d : Digest) : Prop := (s.db.blobs.get d).isSome ∧ (s.files d).isSome

instance (s : Store) (d : Digest) : Decidable (Stored s d) :=
  inferInstanceAs (Decidable ((s.db.blobs.get d).isSome ∧ (s.files d).isSome))

/-! ## What stays stored -/

theorem tempFinalize_isSome {files files' : Files} {hashed : Bytes} {held : Option Bytes} {expected : Option Digest}
    (h : tempFinalize cfg files hashed held expected = .ok (files', d)) (hx : (files x).isSome) : (files' x).isSome := by
  obtain ⟨-, -, ⟨_, -, -, -, rfl⟩ | ⟨b, -, -, rfl⟩⟩ := tempFinalize_ok h
  · exact hx
  · by_cases hd : x = d
    · subst hd; simp
    · simpa [hd] using hx

/-- A claim keeps what is stored, and stores its digest. -/
theorem claimBlob_stored {t : Table Blob.digest} {size : Nat} {db : DB} {s : Store}
    (h : claimBlob s.db.blobs s.files d size = .ok t) (ht : db.blobs = t) (next : Nat) :
    Stored { s with db := db, next := next } x ↔ Stored s x ∨ x = d := by
  have hf := (claimBlob_ok h).1
  unfold Stored
  rw [ht, claimBlob_get h]
  constructor
  · rintro ⟨hr | rfl, hfx⟩
    · exact Or.inl ⟨hr, hfx⟩
    · exact Or.inr rfl
  · rintro (⟨hr, hfx⟩ | rfl)
    · exact ⟨Or.inl hr, hfx⟩
    · exact ⟨Or.inr rfl, hf⟩

theorem dropUnclaimed_isSome {blobs : Table Blob.digest} {files : Files} (hr : (blobs.get x).isSome)
    (hx : (files x).isSome) : (dropUnclaimed blobs files d x).isSome := by
  unfold dropUnclaimed
  split
  · exact hx
  · by_cases hd : x = d
    · subst hd; contradiction
    · simpa [hd] using hx

theorem CanSweep.not_referenced {db : DB} {cut : Stamp} (h : CanSweep db cut d) : ¬Referenced db.pages d := by
  obtain ⟨b, -, rfl, -, hr⟩ := h
  exact hr

/-- What is stored and referenced stays stored. -/
theorem Change.stored (h : Change cfg w op s') (hs : Stored w.store x) (hr : Referenced w.pages x) : Stored s' x := by
  cases h
  case deleteContainer hx => cases deleteContainer_ok hx; exact hs
  case putPlace hx => exact ⟨hs.1, tempFinalize_isSome hx hs.2⟩
  case finalizePlace hx => exact ⟨hs.1, tempFinalize_isSome hx hs.2⟩
  case put hx =>
    obtain ⟨_, _, _, -, hb, rfl, -⟩ := putTx_ok hx
    exact (claimBlob_stored hb rfl _).mpr (Or.inl hs)
  case finalize hx => exact (claimBlob_stored (finalizeTx_ok hx).1.blobs rfl _).mpr (Or.inl hs)
  case startUpload hx => obtain ⟨-, _, -, rfl⟩ := startTx_ok hx; exact hs
  case dropped => exact ⟨hs.1, dropUnclaimed_isSome hs.1 hs.2⟩
  case gcSweep d hx =>
    have hne : x ≠ d := fun he => hx.not_referenced (he ▸ hr)
    refine ⟨?_, by simpa [hne] using hs.2⟩
    obtain ⟨b, hb, hbx⟩ := Table.get_isSome.mp hs.1
    exact Table.get_isSome.mpr ⟨b, Table.mem_delete.mpr ⟨hb, by rw [hbx]; exact hne⟩, hbx⟩
  case tornSweep d hx =>
    have hne : x ≠ d := fun he => hx.not_referenced (he ▸ hr)
    exact ⟨hs.1, by simpa [hne] using hs.2⟩
  case gcUnmark | gcMark =>
    refine ⟨?_, hs.2⟩
    simp only [unmarkBlobs, markBlobs]
    rw [Table.get_update, Option.isSome_map]
    exact hs.1
  all_goals exact hs

/-! ## What becomes referenced -/

/-- The references of `p'` are references of `p`. -/
structure Fewer (p p' : PageTables) : Prop where
  versions : ∀ v ∈ p'.objectVersions, v ∈ p.objectVersions
  conflicts : ∀ c ∈ p'.conflicts, c.resolvedAt = none → c ∈ p.conflicts
  attachments : ∀ a ∈ p'.attachments, a.deletedAt = none → a ∈ p.attachments

theorem Fewer.of_eq (hv : p'.objectVersions = p.objectVersions) (hc : p'.conflicts = p.conflicts)
    (ha : p'.attachments = p.attachments) : Fewer p p' :=
  ⟨fun _ h => hv ▸ h, fun _ h _ => hc ▸ h, fun _ h _ => ha ▸ h⟩

/-- A live row of an update that tombstones is an old row. -/
theorem live_of_tombstoned {t : Table Attachment.id} {q : Attachment → Prop} [DecidablePred q]
    {f : Attachment → Attachment} {a : Attachment} (h : a ∈ t.update q f) (hl : a.deletedAt = none)
    (hf : ∀ a, (f a).id = a.id) (hd : ∀ a, q a → (f a).deletedAt ≠ none) : a ∈ t := by
  rcases Table.mem_update_cases h hf with ⟨h, -⟩ | ⟨b, -, hq, rfl⟩
  · exact h
  · exact absurd hl (hd b hq)

/-- Only a save and a finalize add references. -/
theorem Change.content (h : Change cfg w op s') :
    Fewer w.pages s'.db.pages ∨
    (∃ rid r cid d db row, op = .resume rid ∧ w.job rid = some (.put r (.tx cid d)) ∧
      putTx cfg w.store r cid d w.store.next = .ok (db, row) ∧
      s' = { w.store with db := db, next := w.store.next + 1 }) ∨
    ∃ rid r u d size preview db a, op = .resume rid ∧
      w.job rid = some (.finalizeUpload r (.tx u d size preview)) ∧
      finalizeTx w.store r u d size preview w.store.next = .ok (db, a) ∧
      s' = { w.store with db := db, next := w.store.next + 1 } := by
  cases h
  case put hj hx => exact Or.inr (Or.inl ⟨_, _, _, _, _, _, rfl, hj, hx, rfl⟩)
  case finalize hj hx => exact Or.inr (Or.inr ⟨_, _, _, _, _, _, _, _, rfl, hj, hx, rfl⟩)
  case deleteContainer hx =>
    cases deleteContainer_ok hx
    refine Or.inl ⟨fun v hv => (Table.mem_delete.mp hv).1, fun c hc _ => (Table.mem_delete.mp hc).1, ?_⟩
    exact fun a ha hl => live_of_tombstoned ha hl (fun _ => rfl) fun _ _ => Option.some_ne_none _
  case deleteObject =>
    refine Or.inl ⟨fun v hv => (Table.mem_delete.mp hv).1, fun c hc _ => (Table.mem_delete.mp hc).1, ?_⟩
    exact fun a ha hl => live_of_tombstoned ha hl (fun _ => rfl) fun _ _ => Option.some_ne_none _
  case gcTombstone =>
    refine Or.inl ⟨fun v hv => hv, fun c hc _ => hc, fun a ha hl => ?_⟩
    exact live_of_tombstoned ha hl (fun _ => rfl) fun _ hq => hq.2
  case gcSweep =>
    exact Or.inl ⟨fun v hv => hv, fun c hc _ => (Table.mem_delete.mp hc).1, fun a ha _ => (Table.mem_delete.mp ha).1⟩
  case resolveConflict hx =>
    obtain ⟨c, -, -, rfl⟩ := resolveConflict_ok hx
    refine Or.inl ⟨fun v hv => hv, fun c hc hr => ?_, fun a ha _ => ha⟩
    rcases Table.mem_update_cases hc with ⟨hc, -⟩ | ⟨y, -, -, rfl⟩
    · exact hc
    · cases hr
  case createObject hx => obtain ⟨-, t, -, rfl⟩ := createObject_ok hx; exact Or.inl (.of_eq rfl rfl rfl)
  case deleteComment hx =>
    obtain rfl | ⟨c, -, -, rfl⟩ := deleteComment_ok hx <;> exact Or.inl (.of_eq rfl rfl rfl)
  case comment hx => obtain ⟨-, -, -, -, t, -, rfl⟩ := commentTx_ok hx; exact Or.inl (.of_eq rfl rfl rfl)
  case link hx => obtain ⟨a, -, -, -, rfl⟩ := linkTx_ok hx; exact Or.inl (.of_eq rfl rfl rfl)
  case startUpload hx => obtain ⟨-, t, -, rfl⟩ := startTx_ok hx; exact Or.inl (.of_eq rfl rfl rfl)
  all_goals exact Or.inl (.of_eq rfl rfl rfl)

/-! ## The bytes of content -/

/-- A version, an open conflict or a live attachment has these bytes. -/
def Owned (p : PageTables) (d : Digest) : Prop :=
  (∃ v ∈ p.objectVersions, v.blobDigest = d) ∨ (∃ c ∈ p.conflicts, c.resolvedAt = none ∧ c.blobDigest = d) ∨
    ∃ a ∈ p.attachments, a.deletedAt = none ∧ a.blobDigest = d

theorem Owned.referenced (h : Owned p d) : Referenced p d := by
  rcases h with h | ⟨c, hc, hr, hd⟩ | ⟨a, ha, hl, hd⟩
  · exact Or.inl h
  · exact Or.inr (Or.inl ⟨c, hc, hd, hr⟩)
  · exact Or.inr (Or.inr ⟨a, ha, Or.inl hd, Or.inl hl⟩)

theorem Fewer.owned (hf : Fewer p p') (h : Owned p' d) : Owned p d := by
  rcases h with ⟨v, hv, hd⟩ | ⟨c, hc, hr, hd⟩ | ⟨a, ha, hl, hd⟩
  · exact Or.inl ⟨v, hf.versions v hv, hd⟩
  · exact Or.inr (Or.inl ⟨c, hf.conflicts c hc hr, hr, hd⟩)
  · exact Or.inr (Or.inr ⟨a, hf.attachments a ha hl, hl, hd⟩)

/-- A save's row has the claimed digest. -/
theorem putTx_owned {r : PutReq} {cid : ContainerId} {db : DB} {row : SavedRow}
    (hx : putTx cfg w.store r cid d w.store.next = .ok (db, row)) (h : Owned db.pages x) : Owned w.pages x ∨ x = d := by
  obtain ⟨o, blobs, pages, -, -, rfl, ⟨-, -, t, i, ht, -, rfl⟩ | ⟨-, -, t, i, ht, -, rfl⟩⟩ := putTx_ok hx
  · rcases h with h | ⟨c, hc, hr, hd⟩ | h
    · exact Or.inl (Or.inl h)
    · rcases (Table.mem_insert ht).mp hc with hc | rfl
      · exact Or.inl (Or.inr (Or.inl ⟨c, hc, hr, hd⟩))
      · exact Or.inr hd.symm
    · exact Or.inl (Or.inr (Or.inr h))
  · rcases h with ⟨v, hv, hd⟩ | h
    · rcases (Table.mem_insert ht).mp hv with hv | rfl
      · exact Or.inl (Or.inl ⟨v, hv, hd⟩)
      · exact Or.inr hd.symm
    · exact Or.inl (Or.inr h)

/-- The live attachments after a finalize: the old ones and the one that it places. -/
theorem finalizeTx_attachments {r : FinalizeReq} {u : UploadSession} {size : Nat} {preview : Option Digest} {db : DB}
    {ans : Answer} (hx : finalizeTx w.store r u d size preview w.store.next = .ok (db, ans)) {a : Attachment}
    (ha : a ∈ db.pages.attachments) (hl : a.deletedAt = none) :
    a ∈ w.pages.attachments ∨ (u.kind = .attachment ∧ a.blobDigest = d ∧
      a.previewDigest = ((attachmentOf w.pages u.containerId d).map Attachment.previewDigest).getD preview) := by
  obtain ⟨-, ⟨-, hp, -⟩ | ⟨hk, -, -, att, -, hp⟩⟩ := finalizeTx_ok hx
  · rw [hp] at ha; exact Or.inl ha
  · obtain ⟨b, hb, -, hp⟩ | ⟨hb, -, t, ht, hp⟩ := placeAttachment_ok hp
    · rw [hp] at ha
      rcases Table.mem_update_cases ha with ⟨ha, -⟩ | ⟨y, hy, hyb, rfl⟩
      · exact Or.inl ha
      · have hyb : y = b := Table.eq_of_key hy (attachmentOf_some hb).1 hyb
        subst hyb
        exact Or.inr ⟨hk, (attachmentOf_some hb).2.2, by rw [hb]; rfl⟩
    · rw [hp] at ha
      rcases (Table.mem_insert ht).mp ha with ha | rfl
      · exact Or.inl ha
      · exact Or.inr ⟨hk, rfl, by rw [hb]; rfl⟩

/-- The rest of the pages after a finalize. -/
theorem finalizeTx_pages {r : FinalizeReq} {u : UploadSession} {size : Nat} {preview : Option Digest} {db : DB}
    {ans : Answer} (hx : finalizeTx w.store r u d size preview w.store.next = .ok (db, ans)) :
    db.pages.objectVersions = w.pages.objectVersions ∧ db.pages.conflicts = w.pages.conflicts := by
  obtain ⟨-, ⟨-, hp, -⟩ | ⟨-, -, -, att, -, hp⟩⟩ := finalizeTx_ok hx
  · rw [hp]; exact ⟨rfl, rfl⟩
  · obtain ⟨b, -, -, hp⟩ | ⟨-, -, t, -, hp⟩ := placeAttachment_ok hp <;> rw [hp] <;> exact ⟨rfl, rfl⟩

theorem finalizeTx_owned {r : FinalizeReq} {u : UploadSession} {size : Nat} {preview : Option Digest} {db : DB}
    {ans : Answer} (hx : finalizeTx w.store r u d size preview w.store.next = .ok (db, ans)) (h : Owned db.pages x) :
    Owned w.pages x ∨ x = d := by
  obtain ⟨hv, hc⟩ := finalizeTx_pages hx
  rcases h with h | h | ⟨a, ha, hl, hd⟩
  · exact Or.inl (Or.inl (hv ▸ h))
  · exact Or.inl (Or.inr (Or.inl (hc ▸ h)))
  · rcases finalizeTx_attachments hx ha hl with ha | ⟨-, hda, -⟩
    · exact Or.inl (Or.inr (Or.inr ⟨a, ha, hl, hd⟩))
    · exact Or.inr (hd.symm.trans hda)

/-- The invariant: what content has for bytes is stored. -/
def BlobInv (w : World) : Prop := ∀ d, Owned w.pages d → Stored w.store d

theorem step_blobInv (w : World) (op : Op) (h : BlobInv w) : BlobInv (w.next cfg op) := by
  intro x ho
  have hc := step_change cfg w op
  have old : Owned w.pages x → Stored (w.next cfg op).store x := fun ho => hc.stored (h x ho) ho.referenced
  rcases hc.content with hf | ⟨_, r, cid, d, db, row, -, -, hx, hs⟩ | ⟨_, r, u, d, size, preview, db, a, -, -, hx, hs⟩
  · exact old (hf.owned ho)
  · have hb : ∃ t, claimBlob w.store.db.blobs w.store.files d r.body.length = .ok t ∧ db.blobs = t := by
      obtain ⟨o, blobs, pages, -, hb, rfl, -⟩ := putTx_ok hx
      exact ⟨blobs, hb, rfl⟩
    obtain ⟨t, hb, ht⟩ := hb
    simp only [World.pages, hs] at ho
    rcases putTx_owned hx ho with ho | rfl
    · exact old ho
    · rw [hs]; exact (claimBlob_stored hb ht _).mpr (Or.inr rfl)
  · simp only [World.pages, hs] at ho
    rcases finalizeTx_owned hx ho with ho | rfl
    · exact old ho
    · rw [hs]; exact (claimBlob_stored (finalizeTx_ok hx).1.blobs rfl _).mpr (Or.inr rfl)

theorem init_blobInv : BlobInv .init := by
  rintro d (⟨v, hv, -⟩ | ⟨c, hc, -⟩ | ⟨a, ha, -⟩)
  · exact absurd hv (Table.not_mem_empty _)
  · exact absurd hc (Table.not_mem_empty _)
  · exact absurd ha (Table.not_mem_empty _)

/-- **Blob safety.** After every interleaving of requests, garbage collection passes and crashes, every digest of a
version, of an unresolved conflict or of a live attachment's own bytes has its file. -/
theorem blob_safety (cfg : Config) (ops : List Op) :
    (∀ v ∈ (World.reach cfg ops).pages.objectVersions, ((World.reach cfg ops).store.files v.blobDigest).isSome) ∧
    (∀ c ∈ (World.reach cfg ops).pages.conflicts, c.resolvedAt = none →
      ((World.reach cfg ops).store.files c.blobDigest).isSome) ∧
    ∀ a ∈ (World.reach cfg ops).pages.attachments, a.deletedAt = none →
      ((World.reach cfg ops).store.files a.blobDigest).isSome := by
  have h : BlobInv (World.reach cfg ops) := run_inv step_blobInv ops init_blobInv
  refine ⟨fun v hv => (h _ (Or.inl ⟨v, hv, rfl⟩)).2, fun c hc hr => (h _ (Or.inr (Or.inl ⟨c, hc, hr, rfl⟩))).2, ?_⟩
  exact fun a ha hl => (h _ (Or.inr (Or.inr ⟨a, ha, hl, rfl⟩))).2

/-! ## Previews -/

/-- Every preview that a live attachment names has its row and its file. -/
def PreviewsStored (s : Store) : Prop :=
  ∀ a ∈ s.db.pages.attachments, a.deletedAt = none → ∀ x, a.previewDigest = some x → Stored s x

/-- The preview that the attachment of a finalize will name: the one that was read from the cited upload, unless there
is an attachment of the same bytes, which keeps its own. -/
def namedPreview (p : PageTables) (u : UploadSession) (d : Digest) (preview : Option Digest) : Option Digest :=
  ((attachmentOf p u.containerId d).map Attachment.previewDigest).getD preview

/-- If the operation commits the finalize of an attachment, the preview that the attachment will name is stored, or is
the digest that the finalize claims. -/
def CitesStored (w : World) (op : Op) : Prop :=
  ∀ rid r u d size preview db a, op = .resume rid → w.job rid = some (.finalizeUpload r (.tx u d size preview)) →
    finalizeTx w.store r u d size preview w.store.next = .ok (db, a) → u.kind = .attachment →
    ∀ x, namedPreview w.pages u d preview = some x → x = d ∨ Stored w.store x

/-- A committed attachment is live and names its preview. -/
theorem finalizeTx_named {r : FinalizeReq} {u : UploadSession} {size : Nat} {preview : Option Digest} {db : DB}
    {ans : Answer} (hx : finalizeTx w.store r u d size preview w.store.next = .ok (db, ans)) (hk : u.kind = .attachment) :
    ∃ a ∈ db.pages.attachments, a.deletedAt = none ∧ a.previewDigest = namedPreview w.pages u d preview := by
  obtain ⟨-, ⟨hk', -, -⟩ | ⟨-, -, -, att, -, hp⟩⟩ := finalizeTx_ok hx
  · rw [hk] at hk'; cases hk'
  · obtain ⟨b, hb, -, hp⟩ | ⟨hb, -, t, ht, hp⟩ := placeAttachment_ok hp
    · refine ⟨{ b with deletedAt := none }, ?_, rfl, by unfold namedPreview; rw [hb]; rfl⟩
      rw [hp]
      exact Table.mem_update_of (p := fun x => x.id = b.id) (f := fun x => { x with deletedAt := none })
        (attachmentOf_some hb).1 rfl
    · refine ⟨r.row w.pages u.containerId d size preview w.store.next, ?_, rfl, by unfold namedPreview; rw [hb]; rfl⟩
      rw [hp]
      exact (Table.mem_insert ht).mpr (Or.inr rfl)

/-- An operation keeps the previews stored exactly when it cites a stored one. -/
theorem step_previews (w : World) (op : Op) (h : PreviewsStored w.store) :
    PreviewsStored (w.next cfg op).store ↔ CitesStored w op := by
  have hc := step_change cfg w op
  constructor
  · rintro hn rid r u d size preview db ans rfl hj hx hk x hxn
    obtain ⟨hs, -⟩ := step_resume cfg hj (by intro _ h; cases h)
    simp only [act, actFinalize, hx] at hs
    obtain ⟨a, ha, hl, hp⟩ := finalizeTx_named hx hk
    rw [hs] at hn
    have hst := hn a ha hl x (hp.trans hxn)
    exact ((claimBlob_stored (finalizeTx_ok hx).1.blobs rfl _).mp hst).symm
  · intro hcite a ha hl x hp
    have old : a ∈ w.pages.attachments → Stored (w.next cfg op).store x := fun ha =>
      hc.stored (h a ha hl x hp) (Or.inr (Or.inr ⟨a, ha, Or.inr hp, Or.inl hl⟩))
    rcases hc.content with hf | ⟨_, r, cid, d, db, row, -, -, hx, hs⟩ |
      ⟨rid, r, u, d, size, preview, db, ans, hop, hj, hx, hs⟩
    · exact old (hf.attachments a ha hl)
    · have hat : db.pages.attachments = w.pages.attachments := by
        obtain ⟨o, blobs, pages, -, -, rfl, ⟨-, -, t, i, -, -, rfl⟩ | ⟨-, -, t, i, -, -, rfl⟩⟩ := putTx_ok hx <;> rfl
      rw [hs] at ha
      exact old (hat ▸ ha)
    · rw [hs] at ha
      rcases finalizeTx_attachments hx ha hl with ha | ⟨hk, -, hn⟩
      · exact old ha
      · rw [hs]
        exact (claimBlob_stored (finalizeTx_ok hx).1.blobs rfl _).mpr
          (hcite rid r u d size preview db ans hop hj hx hk x (hn.symm.trans hp)).symm

/-- **Previews.** On a run, the preview of every live attachment has its row and its file in every state passed exactly
when every committed attachment names a preview that is stored at its commit. -/
theorem preview_safety (cfg : Config) (ops : List Op) :
    (∀ bs, bs <+: ops → PreviewsStored (World.reach cfg bs).store) ↔
      Along (World.next cfg) CitesStored .init ops :=
  always_iff_along (P := fun w : World => PreviewsStored w.store) step_previews
    fun _ ha => absurd ha (Table.not_mem_empty _)

/-- The body `"a"` is uploaded as a preview (upload 6) and finalized; one pass of the garbage collection marks it, and a
day later another one sweeps it; then the body `"b"` is uploaded (upload 13) and finalized with upload 6 as its preview. -/
def sweptPreview : List Op :=
  sampleSetup ++ alone (.startUpload ⟨0, 2, true, .preview, 1, none⟩) 5 3 ++
    alone (.patchUpload ⟨0, 6, true, 0, [0x61]⟩) 7 5 ++ alone (.finalizeUpload ⟨0, 6, true, 2, none, none⟩) 8 7 ++
    alone (.gc true) 10 11 ++ [.tick (day + second)] ++ alone (.gc true) 11 12 ++
    alone (.startUpload ⟨0, 2, true, .attachment, 1, none⟩) 12 3 ++ alone (.patchUpload ⟨0, 13, true, 0, [0x62]⟩) 14 5 ++
    alone (.finalizeUpload ⟨0, 13, true, 2, some 0, some 6⟩) 15 7

/-- The attachment is live and its preview has neither row nor file. -/
theorem sweptPreview_lost : ¬PreviewsStored (World.reach sampleConfig sweptPreview).store := by
  intro h
  have := h ⟨16, 2, sampleSha256 [0x62], some (sampleSha256 [0x61]), 1, 2, 4, none⟩ (by decide +kernel) rfl _ rfl
  exact absurd this (by decide +kernel)

end KyNotes
