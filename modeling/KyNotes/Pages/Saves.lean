import KyNotes.Server.Effects

/-!
# Saves of pages

* `Located`: a request in flight that has found its page's container still has the right one; pages never move.
* `PutReady`: a save past its admission has a base version, and the digest it goes on with is that of its body.
* `VersionInv`: the stored versions of a page are `1` to its current version, each over the one before.
* `no_lost_update`: on every run, a save that commits adds one version over the current one, or one conflict.
-/

namespace KyNotes

open Relational Check Transition

variable {cfg : Config} {w : World} {op : Op} {p p' : PageTables}

/-! ## The container of a request -/

/-- The page of a request in flight and the container it was found in. -/
def Job.page : Job → Option (ObjectId × ContainerId)
  | .put r (.check cid) | .put r (.place cid) | .put r (.tx cid _) | .comment r (.tx cid) => some (r.objectId, cid)
  | .deleteObject _ oid (.tx cid) | .link _ oid _ _ (.tx cid) | .unlink _ oid _ (.tx cid) => some (oid, cid)
  | _ => none

/-- The page is in the container. -/
def PageIn (p : PageTables) (oid : ObjectId) (cid : ContainerId) : Prop :=
  ∃ o ∈ p.objects, o.id = oid ∧ o.containerId = cid

/-- The request's page is in the container it was found in. -/
def Located (p : PageTables) (j : Job) : Prop := ∀ oid cid, j.page = some (oid, cid) → PageIn p oid cid

theorem pageIn_update {q : Object → Prop} [DecidablePred q] {f : Object → Object} {oid : ObjectId} {cid : ContainerId}
    (hid : ∀ o, (f o).id = o.id) (hc : ∀ o, (f o).containerId = o.containerId) (h : PageIn p oid cid) :
    PageIn { p with objects := p.objects.update q f } oid cid := by
  obtain ⟨o, ho, rfl, rfl⟩ := h
  by_cases hq : q o
  · exact ⟨f o, Table.mem_update_of ho hq hid, hid o, hc o⟩
  · exact ⟨o, Table.mem_update_of_not ho hq, rfl, rfl⟩

/-- Pages stay in their containers. -/
theorem PageChange.pageIn {oid : ObjectId} {cid : ContainerId} (h : PageChange cfg w op p') (hp : PageIn w.pages oid cid) :
    PageIn p' oid cid := by
  cases h with
  | deleteContainer | version | deleteObject => exact pageIn_update (fun _ => rfl) (fun _ => rfl) hp
  | createObject _ ht =>
    obtain ⟨o, ho, h⟩ := hp
    exact ⟨o, (Table.mem_insert ht).mpr (Or.inl ho), h⟩
  | same | bump | resolveConflict | deleteComment | conflict | comment | link | unlink | revive | attach | gcTombstone
  | gcKeys | gcSweep => exact hp

theorem objectRole_some {db : DB} {oid : ObjectId} {u : UserId} {o : Object} {role : Role}
    (h : objectRole db oid u = some (o, role)) : PageIn db.pages oid o.containerId := by
  obtain ⟨o', ho, h⟩ := Option.bind_eq_some_iff.mp h
  obtain ⟨r, -, h⟩ := Option.map_eq_some_iff.mp h
  cases h
  exact ⟨o, Table.get_mem ho, Table.get_key ho, rfl⟩

theorem editableObject_ok {db : DB} {oid : ObjectId} {u : UserId} {o : Object} (h : editableObject db oid u = .ok o) :
    PageIn db.pages oid o.containerId := by
  simp only [editableObject, bind_ok, fetch_ok, require_ok, pure_ok] at h
  obtain ⟨⟨o', role⟩, ho, _, -, rfl⟩ := h
  exact objectRole_some ho

theorem putAdmit_ok {db : DB} {r : PutReq} {cid : ContainerId} (h : putAdmit cfg db r = .ok cid) :
    PageIn db.pages r.objectId cid ∧ r.base ≠ none := by
  simp only [putAdmit, bind_ok, fetch_ok, require_ok] at h
  obtain ⟨⟨o, role⟩, ho, _, -, _, -, _, -, _, -, _, -, h⟩ := h
  split at h
  · cases h
  · simp only [bind_ok, require_ok, pure_ok] at h
    obtain ⟨_, hb, _, -, rfl⟩ := h
    exact ⟨objectRole_some ho, hb⟩

theorem commentAdmit_ok {db : DB} {r : CommentReq} {cid : ContainerId} (h : commentAdmit db r = .ok cid) :
    PageIn db.pages r.objectId cid := by
  simp only [commentAdmit, bind_ok, fetch_ok, require_ok, pure_ok] at h
  obtain ⟨⟨o, role⟩, ho, _, -, _, -, _, -, _, -, _, -, rfl⟩ := h
  exact objectRole_some ho

/-- A located request goes on to a located one. -/
theorem Moves.located {s s' : Store} {j j' : Job} (hm : Moves cfg s j j' s') (h : Located s.db.pages j) :
    Located s.db.pages j' := by
  intro oid cid hp
  cases hm with
  | putAdmit hx => cases hp; exact (putAdmit_ok hx).1
  | putCheck | putPlace => cases hp; exact h _ _ rfl
  | delete hx | link hx | unlink hx => cases hp; exact editableObject_ok hx
  | comment hx => cases hp; exact commentAdmit_ok hx
  | startAdmit | startTx | patchAdmit | patchLock | patchDoom | patchRead | patchAppend | cancelAdmit | cancelAbort
  | finalizeRead | finalizeCharge | finalizeDoom | finalizeAdmit | finalizeHash | finalizePlace | finalizeCite | gc =>
    cases hp

/-- What a save past its admission knows. -/
def PutReady (cfg : Config) : Job → Prop
  | .put r (.check _) | .put r (.place _) => r.base ≠ none
  | .put r (.tx _ d) => r.base ≠ none ∧ d = cfg.sha256 r.body
  | _ => True

theorem Moves.putReady {s s' : Store} {j j' : Job} (hm : Moves cfg s j j' s') (h : PutReady cfg j) :
    PutReady cfg j' := by
  cases hm with
  | putAdmit hx => exact (putAdmit_ok hx).2
  | putCheck => exact h
  | putPlace hx => exact ⟨h, (tempFinalize_ok hx).1⟩
  | delete | comment | link | unlink | startAdmit | startTx | patchAdmit | patchLock | patchDoom | patchRead
  | patchAppend | cancelAdmit | cancelAbort | finalizeRead | finalizeCharge | finalizeDoom | finalizeAdmit
  | finalizeHash | finalizePlace | finalizeCite | gc => exact trivial

theorem start_located (p : PageTables) (r : Request) (t : Time) : Located p (r.start t) := by
  intro oid cid hp
  cases r <;> cases hp

theorem start_putReady (r : Request) (t : Time) : PutReady cfg (r.start t) := by
  cases r <;> exact trivial

/-- The store after a move has the pages of the step. -/
theorem Located.step {j : Job} (h : Located w.pages j) : Located (w.next cfg op).pages j :=
  fun oid cid hp => (step_pages cfg w op).pageIn (h oid cid hp)

/-! ## Versions -/

/-- A stored version belongs to a live page, and the versions of a live page are `1` to its current one, each over the
one before. -/
structure VersionInv (p : PageTables) : Prop where
  row : ∀ v ∈ p.objectVersions, v.baseVersion = v.version - 1 ∧
    ∃ o ∈ p.objects, o.id = v.objectId ∧ o.deletedAt = none ∧ 1 ≤ v.version ∧ v.version ≤ o.currentVersion
  filled : ∀ o ∈ p.objects, o.deletedAt = none → ∀ n, 1 ≤ n → n ≤ o.currentVersion →
    ∃ v ∈ p.objectVersions, v.objectId = o.id ∧ v.version = n

theorem VersionInv.of_eq (h : VersionInv p) (ho : p'.objects = p.objects) (hv : p'.objectVersions = p.objectVersions) :
    VersionInv p' := by
  constructor
  · rw [ho, hv]; exact h.row
  · rw [ho, hv]; exact h.filled

/-- Some pages are tombstoned and lose their versions. -/
theorem VersionInv.tombstone (h : VersionInv p) (gone : ObjectId → Prop) [DecidablePred gone]
    {q : Object → Prop} [DecidablePred q] {f : Object → Object} (ho : p'.objects = p.objects.update q f)
    (hv : p'.objectVersions = p.objectVersions.delete fun v => gone v.objectId) (hf : ∀ o, (f o).id = o.id)
    (hd : ∀ o, (f o).deletedAt ≠ none) (hgone : ∀ o ∈ p.objects, q o → gone o.id)
    (hlive : ∀ o ∈ p.objects, o.deletedAt = none → gone o.id → q o) : VersionInv p' where
  row := fun v hm => by
    rw [hv] at hm
    obtain ⟨hm, hng⟩ := Table.mem_delete.mp hm
    obtain ⟨hb, o, hom, hid, hr⟩ := h.row v hm
    refine ⟨hb, o, ?_, hid, hr⟩
    rw [ho]
    exact Table.mem_update_of_not hom fun hq => hng (by rw [← hid]; exact hgone o hom hq)
  filled := fun o hom hl n h1 h2 => by
    rw [ho] at hom
    rcases Table.mem_update_cases hom hf with ⟨hom, hq⟩ | ⟨o', hom', -, rfl⟩
    · obtain ⟨v, hm, hid, hn⟩ := h.filled o hom hl n h1 h2
      refine ⟨v, ?_, hid, hn⟩
      rw [hv]
      exact Table.mem_delete.mpr ⟨hm, fun hg => hq (hlive o hom hl (by rw [← hid]; exact hg))⟩
    · exact absurd hl (hd o')

/-- A new page has no versions. -/
theorem VersionInv.create (h : VersionInv p) {o : Object} {t : Table Object.id} (ht : p.objects.insert o = some t)
    (h0 : o.currentVersion = 0) (ho : p'.objects = t) (hv : p'.objectVersions = p.objectVersions) : VersionInv p' where
  row := fun v hm => by
    rw [hv] at hm
    obtain ⟨hb, x, hx, hr⟩ := h.row v hm
    exact ⟨hb, x, by rw [ho]; exact (Table.mem_insert ht).mpr (Or.inl hx), hr⟩
  filled := fun x hx hl n h1 h2 => by
    rw [ho] at hx
    rw [hv]
    rcases (Table.mem_insert ht).mp hx with hx | rfl
    · exact h.filled x hx hl n h1 h2
    · omega

/-- A save over the current version. -/
theorem VersionInv.save (h : VersionInv p) {r : PutReq} {cid : ContainerId} {d : Digest} {o : Object}
    {t : Table ObjectVersion.key} {i : Table IdempotencyKey.key} (hl : liveObject p r.objectId = some o)
    (hb : r.base.getD 0 = o.currentVersion)
    (ht : p.objectVersions.insert (r.versionRow p cid d o.currentVersion) = some t) :
    VersionInv (r.afterVersion p cid o.currentVersion t i) := by
  obtain ⟨hom, hid, hlive⟩ := liveObject_some hl
  constructor
  · intro v hm
    rcases (Table.mem_insert ht).mp hm with hm | rfl
    · obtain ⟨hbase, x, hx, hxid, hxl, h1, h2⟩ := h.row v hm
      refine ⟨hbase, ?_⟩
      by_cases hr : x.id = r.objectId
      · have : x = o := Table.eq_of_key hx hom (hr.trans hid.symm)
        subst this
        exact ⟨_, Table.mem_update_of hx hr, hxid, hxl, h1, Nat.le_succ_of_le h2⟩
      · exact ⟨x, Table.mem_update_of_not hx hr, hxid, hxl, h1, h2⟩
    · refine ⟨?_, _, Table.mem_update_of hom hid, hid, hlive, Nat.succ_pos _, Nat.le_refl _⟩
      simp only [PutReq.versionRow, hb]
      omega
  · intro x hx hxl n h1 h2
    rcases Table.mem_update_cases hx with ⟨hx, hr⟩ | ⟨y, hy, hr, rfl⟩
    · obtain ⟨v, hm, hv⟩ := h.filled x hx hxl n h1 h2
      exact ⟨v, (Table.mem_insert ht).mpr (Or.inl hm), hv⟩
    · have : y = o := Table.eq_of_key hy hom (hr.trans hid.symm)
      subst this
      by_cases hn : n ≤ y.currentVersion
      · obtain ⟨v, hm, hv⟩ := h.filled y hy hxl n h1 hn
        exact ⟨v, (Table.mem_insert ht).mpr (Or.inl hm), hv⟩
      · refine ⟨_, (Table.mem_insert ht).mpr (Or.inr rfl), hr.symm, ?_⟩
        simp only [PutReq.versionRow] at h2 ⊢
        omega

theorem PageChange.versionInv (hc : PageChange cfg w op p') (h : VersionInv w.pages) : VersionInv p' := by
  cases hc with
  | deleteContainer =>
    refine h.tombstone (fun oid => ∃ o ∈ w.pages.objects, o.id = oid ∧ InScope w.keys _ o.containerId)
      rfl rfl (fun _ => rfl) (fun _ => Option.some_ne_none _) ?_ ?_
    · rintro o ho ⟨-, hs⟩
      exact ⟨o, ho, rfl, hs⟩
    · rintro o ho hl ⟨x, hx, hxo, hs⟩
      have : x = o := Table.eq_of_key hx ho hxo
      subst this
      exact ⟨hl, hs⟩
  | deleteObject =>
    exact h.tombstone (fun x => x = _) rfl rfl (fun _ => rfl) (fun _ => Option.some_ne_none _)
      (fun _ _ hq => hq) (fun _ _ _ hg => hg)
  | createObject _ ht => exact h.create ht rfl rfl rfl
  | version _ hg hb ht => exact h.save hg.object hb ht
  | same | bump | resolveConflict | deleteComment | conflict | comment | link | unlink | revive | attach | gcTombstone
  | gcKeys | gcSweep => exact h.of_eq rfl rfl

/-! ## Runs -/

/-- What holds of the pages and of the saves in flight. -/
structure PageInv (cfg : Config) (w : World) : Prop where
  versions : VersionInv w.pages
  located : ∀ f ∈ w.inflight, Located w.pages f.job
  ready : ∀ f ∈ w.inflight, PutReady cfg f.job

theorem init_pageInv : PageInv cfg .init where
  versions := ⟨fun _ h => absurd h (Table.not_mem_empty _), fun _ h => absurd h (Table.not_mem_empty _)⟩
  located := fun _ h => absurd h (Table.not_mem_empty _)
  ready := fun _ h => absurd h (Table.not_mem_empty _)

theorem step_pageInv (w : World) (op : Op) (h : PageInv cfg w) : PageInv cfg (w.next cfg op) where
  versions := (step_pages cfg w op).versionInv h.versions
  located := inflight_inv (P := fun s j => Located s.db.pages j) (fun _ hl => hl.step)
    (fun s r => start_located s.db.pages r s.clock) (fun _ _ hl hm => (hm.located hl).step) h.located
  ready := inflight_inv (P := fun _ j => PutReady cfg j) (fun _ hr => hr) (fun s r => start_putReady r s.clock)
    (fun _ _ hr hm => hm.putReady hr) h.ready

theorem reach_pageInv (cfg : Config) (ops : List Op) : PageInv cfg (World.reach cfg ops) :=
  run_inv step_pageInv ops init_pageInv

theorem PageInv.job_located (h : PageInv cfg w) {rid : RequestId} {j : Job} {oid : ObjectId} {cid : ContainerId}
    (hj : w.job rid = some j) (hp : j.page = some (oid, cid)) : PageIn w.pages oid cid :=
  h.located _ (World.job_mem hj) oid cid hp

/-! ## No lost update -/

/-- The page's stored versions are `1` to its current one, each over the one before. -/
def Contiguous (p : PageTables) (o : Object) : Prop :=
  (∀ n, (∃ v ∈ p.objectVersions, v.objectId = o.id ∧ v.version = n) ↔ 1 ≤ n ∧ n ≤ o.currentVersion) ∧
    ∀ v ∈ p.objectVersions, v.objectId = o.id → v.baseVersion = v.version - 1

theorem VersionInv.contiguous (h : VersionInv p) {o : Object} (ho : o ∈ p.objects) (hl : o.deletedAt = none) :
    Contiguous p o := by
  refine ⟨fun n => ⟨?_, fun hn => h.filled o ho hl n hn.1 hn.2⟩, fun v hv _ => (h.row v hv).1⟩
  rintro ⟨v, hv, hvo, rfl⟩
  obtain ⟨-, x, hx, hxv, -, h1, h2⟩ := h.row v hv
  have : x = o := Table.eq_of_key hx ho (hxv.trans hvo)
  subst this
  exact ⟨h1, h2⟩

/-- The save over page `o` stored one version, on its current one. -/
def AddsVersion (p p' : PageTables) (r : PutReq) (d : Digest) (o : Object) (v : ObjectVersion) : Prop :=
  v.objectId = r.objectId ∧ v.version = o.currentVersion + 1 ∧ v.blobDigest = d ∧
    p'.objectVersions.rows = p.objectVersions.rows ++ [v] ∧ p'.conflicts = p.conflicts

/-- The save over page `o` stored one conflict, with the bytes that it could not store as a version. -/
def AddsConflict (p p' : PageTables) (r : PutReq) (d : Digest) (c : Conflict) : Prop :=
  c.objectId = r.objectId ∧ c.blobDigest = d ∧
    p'.conflicts.rows = p.conflicts.rows ++ [c] ∧ p'.objectVersions = p.objectVersions

/-- What a committed save adds, by its base version. -/
def AddsOne (cfg : Config) (p p' : PageTables) (r : PutReq) (row : SavedRow) : Prop :=
  ∃ o, liveObject p r.objectId = some o ∧
    if r.base = some (o.currentVersion : Int) then
      ∃ v, row = .version v ∧ AddsVersion p p' r (cfg.sha256 r.body) o v
    else ∃ c, row = .conflict c ∧ AddsConflict p p' r (cfg.sha256 r.body) c

theorem saved_addsOne (h : PageInv cfg w) {rid : RequestId} {r : PutReq} {row : SavedRow}
    (he : .saved rid r row ∈ (step cfg w op).2) : AddsOne cfg w.pages (w.next cfg op).pages r row := by
  obtain ⟨rfl, cid, d, db, hj, hx, hdb⟩ := saved_event he
  obtain ⟨hbase, rfl⟩ := h.ready _ (World.job_mem hj)
  obtain ⟨b, hb⟩ := Option.ne_none_iff_exists'.mp hbase
  simp only [World.pages] at hdb ⊢
  obtain ⟨o, blobs, pages, hg, -, hdb', hrow⟩ := putTx_ok hx
  rw [hdb, hdb']
  refine ⟨o, hg.object, ?_⟩
  simp only [hb, Option.getD_some] at hrow
  rcases hrow with ⟨hne, rfl, t, i, ht, -, rfl⟩ | ⟨heq, rfl, t, i, ht, -, rfl⟩
  · rw [if_neg (by simpa [hb] using hne)]
    exact ⟨_, rfl, rfl, rfl, Table.insert_rows ht, rfl⟩
  · rw [if_pos (by simpa [hb] using heq)]
    exact ⟨_, rfl, rfl, rfl, rfl, Table.insert_rows ht, rfl⟩

/-- An action of a save stores nothing, or is its commit. -/
theorem put_stores (cfg : Config) {rid : RequestId} {r : PutReq} {st : PutStage} (hj : w.job rid = some (.put r st)) :
    ((w.next cfg (.resume rid)).pages = w.pages) ∨ ∃ row, .saved rid r row ∈ (step cfg w (.resume rid)).2 := by
  obtain ⟨hs, he⟩ := step_resume cfg hj (by intro _ h; cases h)
  simp only [World.pages]
  rw [hs, he]
  simp only [act]
  cases st with
  | entry => left; simp only [actPut, ask_store]
  | check cid => left; simp only [actPut, ask_store]
  | place cid =>
    left
    simp only [actPut]
    split <;> rfl
  | tx cid d =>
    simp only [actPut]
    split
    · left
      simp only [rollback, reply]
      split <;> rfl
    · right
      exact ⟨_, List.mem_cons_self⟩

/-- The rows of the save tables only grow. -/
theorem AddsOne.keeps {p p' : PageTables} {r : PutReq} {row : SavedRow} (h : AddsOne cfg p p' r row) :
    (∀ v ∈ p.objectVersions, v ∈ p'.objectVersions) ∧ ∀ c ∈ p.conflicts, c ∈ p'.conflicts := by
  obtain ⟨o, -, h⟩ := h
  split at h
  · obtain ⟨v, -, -, -, -, hv, hc⟩ := h
    refine ⟨fun x hx => ?_, fun c hcm => by rw [hc]; exact hcm⟩
    rw [Table.mem_def, hv]
    exact List.mem_append_left _ hx
  · obtain ⟨c, -, -, -, hc, hv⟩ := h
    refine ⟨fun x hx => by rw [hv]; exact hx, fun x hx => ?_⟩
    rw [Table.mem_def, hc]
    exact List.mem_append_left _ hx

/-- **No lost update.** On every run, a live page's versions are exactly `1` to its current one, each over the one
before; a save that commits a row adds exactly one, a version if its base is the current version and a conflict with
its bytes otherwise; and no action of a save changes or drops an older version or conflict. -/
theorem no_lost_update (cfg : Config) (ops : List Op) :
    (∀ o ∈ (World.reach cfg ops).pages.objects, o.deletedAt = none → Contiguous (World.reach cfg ops).pages o) ∧
    (∀ op rid r row, .saved rid r row ∈ (step cfg (World.reach cfg ops) op).2 →
      AddsOne cfg (World.reach cfg ops).pages ((World.reach cfg ops).next cfg op).pages r row) ∧
    ∀ rid r st, (World.reach cfg ops).job rid = some (.put r st) →
      ((∀ row, .saved rid r row ∉ (step cfg (World.reach cfg ops) (.resume rid)).2) →
        ((World.reach cfg ops).next cfg (.resume rid)).pages = (World.reach cfg ops).pages) ∧
      (∀ v ∈ (World.reach cfg ops).pages.objectVersions,
        v ∈ ((World.reach cfg ops).next cfg (.resume rid)).pages.objectVersions) ∧
      ∀ c ∈ (World.reach cfg ops).pages.conflicts,
        c ∈ ((World.reach cfg ops).next cfg (.resume rid)).pages.conflicts := by
  have h := reach_pageInv cfg ops
  refine ⟨fun o ho hl => h.versions.contiguous ho hl, fun op rid r row he => saved_addsOne h he, ?_⟩
  intro rid r st hj
  rcases put_stores cfg hj with heq | ⟨row, he⟩
  · rw [heq]
    exact ⟨fun _ => rfl, fun v hv => hv, fun c hc => hc⟩
  · exact ⟨fun hno => absurd he (hno row), (saved_addsOne h he).keeps⟩

end KyNotes
