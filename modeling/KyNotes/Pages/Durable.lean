import KyNotes.Blobs.Safety
import KyNotes.Keys.Owners
import KyNotes.Server.Isolation

/-!
# A saved page can be read back

* `version_stays`: a version's row stays as it is while its page lives.
* `Replaced`: a finalize put a part file in place that had changed since it was hashed; `files_checked`: on every run, a
  file without such a finalize has the bytes of its digest.
* `saved_reads_back`: what a save stored is what every later reader of the page gets.
-/

namespace KyNotes.Reads

open Relational Check Transition

variable {cfg : Config} {w : World} {op : Op} {p p' : PageTables} {s' : Store}

/-! ## Versions stay -/

/-- A page that lives after an operation keeps its versions. -/
theorem version_stays (h : PageChange cfg w op p') {v : ObjectVersion} (hv : v ∈ w.pages.objectVersions) {o : Object}
    (ho : o ∈ p'.objects) (hid : o.id = v.objectId) (hl : o.deletedAt = none) : v ∈ p'.objectVersions := by
  cases h with
  | deleteContainer =>
    refine Table.mem_delete.2 ⟨hv, ?_⟩
    rintro ⟨x, hx, hxid, hs⟩
    obtain ⟨ho, hq⟩ | ⟨y, -, -, rfl⟩ := Table.mem_update_cases ho
    · have : x = o := Table.eq_of_key hx ho (hxid.trans hid.symm)
      subst this
      exact hq ⟨hl, hs⟩
    · cases hl
  | deleteObject =>
    refine Table.mem_delete.2 ⟨hv, fun hgone => ?_⟩
    obtain ⟨-, hq⟩ | ⟨y, -, -, rfl⟩ := Table.mem_update_cases ho
    · exact hq (hid.trans hgone)
    · cases hl
  | version _ _ _ ht => exact (Table.mem_insert ht).2 (.inl hv)
  | same | bump | createObject | resolveConflict | deleteComment | conflict | comment | link | unlink | revive | attach
  | gcTombstone | gcKeys | gcSweep => exact hv

/-- A page that lives after an operation was not deleted before it. -/
theorem live_before (h : PageChange cfg w op p') {o : Object} (ho : o ∈ p'.objects) (hl : o.deletedAt = none) {x : Object}
    (hx : x ∈ w.pages.objects) (hid : x.id = o.id) : x.deletedAt = none := by
  have same : o ∈ w.pages.objects → x.deletedAt = none := fun ho => by
    rw [Table.eq_of_key hx ho hid]
    exact hl
  cases h with
  | deleteContainer | deleteObject =>
    obtain ⟨ho, -⟩ | ⟨y, -, -, rfl⟩ := Table.mem_update_cases ho
    · exact same ho
    · cases hl
  | version =>
    obtain ⟨ho, -⟩ | ⟨y, hy, -, rfl⟩ := Table.mem_update_cases ho
    · exact same ho
    · rw [Table.eq_of_key hx hy hid]
      exact hl
  | createObject _ ht =>
    obtain ho | rfl := (Table.mem_insert ht).1 ho
    · exact same ho
    · exact absurd hid (Table.get_eq_none.1 (Table.insert_fresh ht) x hx)
  | same | bump | resolveConflict | deleteComment | conflict | comment | link | unlink | revive | attach | gcTombstone
  | gcKeys | gcSweep => exact same ho

/-- On a run, a version's row is there for as long as its page lives. -/
theorem version_kept (cfg : Config) (bs : List Op) {v : ObjectVersion} (hv : v ∈ (World.reach cfg bs).pages.objectVersions)
    (ops : List Op) : ∀ o ∈ (World.reach cfg (bs ++ ops)).pages.objects, o.id = v.objectId → o.deletedAt = none →
      v ∈ (World.reach cfg (bs ++ ops)).pages.objectVersions := by
  obtain ⟨-, x, hx, hxid, -⟩ := (reach_pageInv cfg bs).versions.row v hv
  have hpage : ∃ cid, PageIn (World.reach cfg (bs ++ ops)).pages v.objectId cid ∧
      ∀ o ∈ (World.reach cfg (bs ++ ops)).pages.objects, o.id = v.objectId → o.deletedAt = none →
        v ∈ (World.reach cfg (bs ++ ops)).pages.objectVersions := by
    induction ops using List.reverseRecOn with
    | nil => exact ⟨x.containerId, by simpa using ⟨x, hx, hxid, rfl⟩, fun _ _ _ _ => by simpa using hv⟩
    | append_singleton ops op ih =>
      obtain ⟨cid, hin, ih⟩ := ih
      have hstep := step_pages cfg (World.reach cfg (bs ++ ops)) op
      have hnext : World.reach cfg (bs ++ (ops ++ [op])) = (World.reach cfg (bs ++ ops)).next cfg op := by
        rw [← List.append_assoc]
        exact run_concat ..
      rw [hnext]
      refine ⟨cid, hstep.pageIn hin, fun o ho hid hl => ?_⟩
      obtain ⟨y, hy, hyid, -⟩ := hin
      exact version_stays hstep (ih y hy hyid (live_before hstep ho hl hy (hyid.trans hid.symm))) ho hid hl
  obtain ⟨-, -, h⟩ := hpage
  exact h

/-! ## Files -/

/-- Some finalize of the run hashed its part file to the digest, and then put other bytes in place. -/
def Replaced (cfg : Config) (ops : List Op) (d : Digest) : Prop :=
  ∃ bs rid r u hashed b, bs ++ [.resume rid] <+: ops ∧
    (World.reach cfg bs).job rid = some (.finalizeUpload r (.place u hashed)) ∧
    (World.reach cfg bs).store.parts r.id = some b ∧ cfg.sha256 hashed = d ∧ cfg.sha256 b ≠ d

theorem assign_some {files : Files} {x d : Digest} {a b : Bytes} (h : assign files x (some a) d = some b) :
    (d = x ∧ a = b) ∨ files d = some b := by
  by_cases hd : d = x
  · rw [hd, assign_same] at h
    exact .inl ⟨hd, Option.some.inj h⟩
  · rw [assign_ne _ _ hd] at h
    exact .inr h

theorem assign_none {files : Files} {x d : Digest} {b : Bytes} (h : assign files x none d = some b) :
    files d = some b := by
  by_cases hd : d = x
  · rw [hd, assign_same] at h
    cases h
  · rwa [assign_ne _ _ hd] at h

/-- A file after an operation was there before it, has the bytes of its digest, or is a part file that a finalize moved. -/
theorem change_files (h : Change cfg w op s') {d : Digest} {b : Bytes} (hb : s'.files d = some b) :
    w.store.files d = some b ∨ cfg.sha256 b = d ∨
      ∃ rid r u hashed, op = .resume rid ∧ w.job rid = some (.finalizeUpload r (.place u hashed)) ∧
        w.store.parts r.id = some b ∧ cfg.sha256 hashed = d := by
  cases h
  case putPlace rid r cid files d' hj hfin =>
    obtain ⟨rfl, -, ⟨-, -, -, -, rfl⟩ | ⟨x, hx, -, rfl⟩⟩ := tempFinalize_ok hfin
    · exact .inl hb
    · obtain rfl := Option.some.inj hx
      obtain ⟨rfl, rfl⟩ | hb := assign_some hb
      · exact .inr (.inl rfl)
      · exact .inl hb
  case finalizePlace rid r u hashed files d' hj hfin =>
    obtain ⟨rfl, -, ⟨-, -, -, -, rfl⟩ | ⟨x, hx, -, rfl⟩⟩ := tempFinalize_ok hfin
    · exact .inl hb
    · obtain ⟨rfl, rfl⟩ | hb := assign_some hb
      · exact .inr (.inr ⟨rid, r, u, hashed, rfl, hj, hx, rfl⟩)
      · exact .inl hb
  case dropped d' =>
    refine .inl ?_
    have hb : dropUnclaimed w.store.db.blobs w.store.files d' d = some b := hb
    unfold dropUnclaimed at hb
    split at hb
    · exact hb
    · exact assign_none hb
  case gcSweep d' _ | tornSweep d' _ => exact .inl (assign_none hb)
  case deleteContainer hx => cases deleteContainer_ok hx; exact .inl hb
  case put hx => obtain ⟨_, _, _, -, -, rfl, -⟩ := putTx_ok hx; exact .inl hb
  case startUpload hx => obtain ⟨-, _, -, rfl⟩ := startTx_ok hx; exact .inl hb
  all_goals exact .inl hb

/-- On every run, a file has the bytes of its digest, unless a finalize put other bytes there. -/
theorem files_checked (cfg : Config) (ops : List Op) {d : Digest} {b : Bytes}
    (hb : (World.reach cfg ops).store.files d = some b) : cfg.sha256 b = d ∨ Replaced cfg ops d := by
  induction ops using List.reverseRecOn generalizing b with
  | nil => cases hb
  | append_singleton ops op ih =>
    have hlater : Replaced cfg ops d → Replaced cfg (ops ++ [op]) d := fun ⟨bs, rid, r, u, hashed, x, hpre, h⟩ =>
      ⟨bs, rid, r, u, hashed, x, hpre.trans (List.prefix_append _ _), h⟩
    rw [show World.reach cfg (ops ++ [op]) = (World.reach cfg ops).next cfg op from run_concat ..] at hb
    obtain hb | hb | ⟨rid, r, u, hashed, rfl, hj, hparts, hd⟩ := change_files (step_change cfg _ op) hb
    · exact (ih hb).imp id hlater
    · exact .inl hb
    · by_cases h : cfg.sha256 b = d
      · exact .inl h
      · exact .inr ⟨ops, rid, r, u, hashed, b, List.prefix_refl _, hj, hparts, hd, h⟩

/-! ## Reads -/

section Reads

variable {s : Store} {c : Caller} {o : Object}

/-- A member's notebook has its row. -/
theorem container_some (hi : MemberInv s.db.keys) {u : UserId} {cid : ContainerId} (h : MemberOf s.db.keys u cid) :
    ∃ x, s.db.keys.containers.get cid = some x := by
  obtain ⟨m, hm⟩ := Option.isSome_iff_exists.1 h
  obtain ⟨hmem, rfl, -⟩ := liveMember_iff.1 hm
  obtain ⟨x, hx, hid⟩ := hi.container m hmem
  exact ⟨x, by rw [← hid]; exact Table.get_of_mem hx⟩

/-- A member reads the version that is asked for, with the bytes of its file. -/
theorem getObject_version (hi : MemberInv s.db.keys) (ho : o ∈ s.db.pages.objects)
    (hm : MemberOf s.db.keys c.userId o.containerId) (hsel : c.selects o.containerId = true) {v : ObjectVersion}
    (hv : v ∈ s.db.pages.objectVersions) (hid : v.objectId = o.id) {arg : VersionArg}
    (harg : arg.version o.currentVersion = some v.version) {b : Bytes} (hb : s.files v.blobDigest = some b)
    (hsum : cfg.sha256 b = v.blobDigest) : getObject cfg s c o.id arg =
      .object b v.version v.keyGeneration v.blobDigest (s.db.pages.changeSeq o.containerId) := by
  obtain ⟨x, hx⟩ := container_some hi hm
  obtain ⟨m, hmem⟩ := Option.isSome_iff_exists.1 hm
  have hrow : s.db.pages.objectVersions.get (o.id, v.version) = some v := by
    rw [← hid]
    exact Table.get_of_mem hv
  have hsome : selectVersion s c.userId o.id arg = some (o, v) := by
    simp only [selectVersion, Table.get_of_mem ho, hx, hmem, harg, hrow, Option.bind_eq_bind, Option.bind_some,
      Option.pure_def]
  have hopen : Shares.openBlob cfg s.files v.blobDigest = some b := by
    rw [Shares.openBlob, hb]
    exact Option.filter_some_pos (by simpa using hsum)
  simp only [getObject, hsome, hsel, if_true, hopen]

end Reads

/-- **A save can be read back.** After every run in which a save has stored a version of a page that still lives, every
live member of the page's container, by a session or a device that the container is selected for, reads that version
with bytes of the saved body's digest; the one exception is a digest whose file a finalize has replaced. -/
theorem saved_reads_back (cfg : Config) (bs : List Op) (op : Op) (cs : List Op) {rid : RequestId} {r : PutReq}
    {v : ObjectVersion} (hsaved : .saved rid r (.version v) ∈ (step cfg (World.reach cfg bs) op).2) {o : Object}
    (ho : o ∈ (World.reach cfg (bs ++ [op] ++ cs)).pages.objects) (hid : o.id = r.objectId) (hl : o.deletedAt = none)
    {c : Caller} (hm : MemberOf (World.reach cfg (bs ++ [op] ++ cs)).keys c.userId o.containerId)
    (hsel : c.selects o.containerId = true) :
    (∃ b, cfg.sha256 b = cfg.sha256 r.body ∧
      serve cfg (World.reach cfg (bs ++ [op] ++ cs)).store c (.object r.objectId (.number v.version)) =
        .object b v.version v.keyGeneration (cfg.sha256 r.body)
          ((World.reach cfg (bs ++ [op] ++ cs)).pages.changeSeq o.containerId)) ∨
    Replaced cfg (bs ++ [op] ++ cs) (cfg.sha256 r.body) := by
  have hnew : v ∈ (World.reach cfg (bs ++ [op])).pages.objectVersions ∧ v.objectId = r.objectId ∧
      v.blobDigest = cfg.sha256 r.body := by
    obtain ⟨x, -, hadds⟩ := saved_addsOne (reach_pageInv cfg bs) hsaved
    rw [show World.reach cfg (bs ++ [op]) = (World.reach cfg bs).next cfg op from run_concat ..]
    split at hadds
    · obtain ⟨y, hy, hobj, -, hdigest, hrows, -⟩ := hadds
      obtain rfl := SavedRow.version.inj hy
      refine ⟨?_, hobj, hdigest⟩
      rw [Table.mem_def, hrows]
      exact List.mem_append_right _ (List.mem_singleton.2 rfl)
    · obtain ⟨y, hy, -⟩ := hadds
      cases hy
  obtain ⟨hv, hobj, hdigest⟩ := hnew
  have hkept := version_kept cfg (bs ++ [op]) hv cs o ho (hid.trans hobj.symm) hl
  have hblobs : BlobInv (World.reach cfg (bs ++ [op] ++ cs)) := run_inv step_blobInv _ init_blobInv
  obtain ⟨b, hb⟩ := Option.isSome_iff_exists.1 (hblobs v.blobDigest (.inl ⟨v, hkept, rfl⟩)).2
  obtain hsum | hreplaced := files_checked cfg _ hb
  · refine .inl ⟨b, hsum.trans hdigest, ?_⟩
    have harg : (VersionArg.number v.version).version o.currentVersion = some v.version := by
      simp [VersionArg.version]
    rw [← hid, ← hdigest]
    exact getObject_version (reach_memberInv cfg _) ho hm hsel hkept (hobj.trans hid.symm) harg hb hsum
  · exact .inr (hdigest ▸ hreplaced)

end KyNotes.Reads
