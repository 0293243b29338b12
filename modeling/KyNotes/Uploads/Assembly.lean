import KyNotes.Server.Sessions

/-!
# Assembly of chunked uploads

* `Intake`: a world with the chunks that its run has counted.
* `AssemblyInv`: a part file starts with the counted chunks of its session in their order, and a session's counters say
  how many they are; what a request in flight has found about its session stays true (`JobInv`).
* `chunked_upload`: the counters of every session, and the file, the digest and the length of every finalize.
-/

namespace KyNotes

open Relational Check Transition

variable {cfg : Config} {w : World} {op : Op} {id : UploadId}

/-! ## Counted chunks -/

/-- A counted chunk. -/
structure Chunk where
  id : UploadId
  index : Nat
  body : Bytes

def Event.counted : Event → Option Chunk
  | .chunk id index body => some ⟨id, index, body⟩
  | _ => none

/-- The chunks that an operation counts. -/
def counted (cfg : Config) (w : World) (op : Op) : List Chunk := (step cfg w op).2.filterMap Event.counted

/-- A world with the chunks that its run has counted. -/
abbrev Intake := World × List Chunk

def Intake.next (cfg : Config) : Intake → Op → Intake := logged (World.next cfg) (counted cfg)

/-- A new server and a run of it. -/
def Intake.reach (cfg : Config) (ops : List Op) : Intake := run (Intake.next cfg) (World.init, []) ops

theorem Intake.reach_world (ops : List Op) : (Intake.reach cfg ops).1 = World.reach cfg ops :=
  run_logged (counted cfg) (World.init, []) ops

/-- The counted chunks of a session. -/
def chunksOf (l : List Chunk) (id : UploadId) : List Chunk := l.filter fun c => c.id = id

/-- The bytes of the counted chunks of a session. -/
def assembled (l : List Chunk) (id : UploadId) : Bytes := ((chunksOf l id).map Chunk.body).flatten

/-- The operation counts a chunk of the session. -/
def Counts (w : World) (op : Op) (id : UploadId) : Prop :=
  ∃ rid r n, op = .resume rid ∧ w.job rid = some (.patchUpload r (.count n)) ∧ r.id = id

theorem counted_of_job {rid : RequestId} {r : PatchReq} {n : Nat} (hj : w.job rid = some (.patchUpload r (.count n))) :
    counted cfg w (.resume rid) = [⟨r.id, r.index, r.body⟩] := by
  obtain ⟨-, he⟩ := step_resume cfg hj (by intro _ h; cases h)
  rw [counted, he]
  rfl

theorem counts_of_mem {c : Chunk} (h : c ∈ counted cfg w op) : Counts w op c.id := by
  obtain ⟨e, he, hc⟩ := List.mem_filterMap.mp h
  unfold Event.counted at hc
  split at hc
  · cases hc
    obtain ⟨rid, r, n, hop, hj, hid, -⟩ := chunk_event he
    exact ⟨rid, r, n, hop, hj, hid⟩
  · cases hc

theorem chunks_kept {x : Intake} (h : ¬Counts x.1 op id) : chunksOf (Intake.next cfg x op).2 id = chunksOf x.2 id := by
  have hnil : chunksOf (counted cfg x.1 op) id = [] := by
    refine List.filter_eq_nil_iff.mpr ?_
    intro c hc hid
    have hid : c.id = id := by simpa using hid
    exact h (hid ▸ counts_of_mem hc)
  change chunksOf (x.2 ++ counted cfg x.1 op) id = _
  rw [chunksOf, List.filter_append]
  change chunksOf x.2 id ++ chunksOf (counted cfg x.1 op) id = _
  rw [hnil, List.append_nil]

theorem assembled_kept {x : Intake} (h : ¬Counts x.1 op id) :
    assembled (Intake.next cfg x op).2 id = assembled x.2 id := by
  rw [assembled, chunks_kept h, assembled]

theorem chunks_counted {x : Intake} {rid : RequestId} {r : PatchReq} {n : Nat}
    (hj : x.1.job rid = some (.patchUpload r (.count n))) :
    chunksOf (Intake.next cfg x (.resume rid)).2 r.id = chunksOf x.2 r.id ++ [⟨r.id, r.index, r.body⟩] := by
  change chunksOf (x.2 ++ counted cfg x.1 (.resume rid)) r.id = _
  rw [counted_of_job hj, chunksOf, List.filter_append]
  simp [chunksOf]

theorem assembled_counted {x : Intake} {rid : RequestId} {r : PatchReq} {n : Nat}
    (hj : x.1.job rid = some (.patchUpload r (.count n))) :
    assembled (Intake.next cfg x (.resume rid)).2 r.id = assembled x.2 r.id ++ r.body := by
  rw [assembled, chunks_counted hj, assembled]
  simp

/-! ## One operation on one session -/

/-- A session after an operation: the same counts if no chunk of it was counted, a new session, or a counted chunk. -/
theorem session_origin {v : UploadSession} (hv : v ∈ (w.next cfg op).sessions) :
    (∃ u ∈ w.sessions, SameCount u v ∧ ¬Counts w op u.id ∧ (v.finalizedDigest = u.finalizedDigest ∨
      ∃ rid r x d size preview, op = .resume rid ∧ w.job rid = some (.finalizeUpload r (.tx x d size preview)) ∧
        u.id = r.id ∧ v.finalizedDigest = some d)) ∨
    (∃ r, (∀ i, ¬Counts w op i) ∧ w.store.next < (w.next cfg op).store.next ∧
      v = newSession cfg w.store.clock r w.store.next) ∨
    ∃ rid r n, ∃ u ∈ w.sessions, op = .resume rid ∧ w.job rid = some (.patchUpload r (.count n)) ∧
      u.id = r.id ∧ v.id = u.id ∧ v.declaredBytes = u.declaredBytes ∧ v.chunkBytes = u.chunkBytes ∧
      v.receivedBytes = u.receivedBytes + r.body.length ∧ v.nextChunk = u.nextChunk + 1 ∧
      v.finalizedDigest = u.finalizedDigest := by
  by_cases hc : ∃ i, Counts w op i
  · obtain ⟨i, rid, r, n, rfl, hj, rfl⟩ := hc
    obtain ⟨hs, -⟩ := step_resume cfg hj (by intro _ h; cases h)
    have hsessions : (w.next cfg (.resume rid)).sessions = (patchCount cfg w.store r.id r.body.length).uploadSessions := by
      simp only [World.sessions, hs]
      rfl
    rw [hsessions] at hv
    rcases Table.mem_update_cases hv with ⟨hv, hne⟩ | ⟨u, hu, hid, rfl⟩
    · left
      refine ⟨v, hv, ⟨rfl, rfl, rfl, rfl, rfl⟩, ?_, Or.inl rfl⟩
      rintro ⟨rid', r', n', hop, hj', hid⟩
      cases hop
      rw [hj] at hj'
      cases hj'
      exact hne hid.symm
    · exact Or.inr (Or.inr ⟨rid, r, n, u, hu, rfl, hj, hid, rfl, rfl, rfl, rfl, rfl, rfl⟩)
  · have hno : ∀ i, ¬Counts w op i := fun i hi => hc ⟨i, hi⟩
    rcases (step_sessions cfg w op).origin hv with ⟨u, hu, hs, hd⟩ | ⟨rid, r, rfl, hj, hvr⟩ |
      ⟨rid, r, n, u, -, hop, hj, -⟩
    · exact Or.inl ⟨u, hu, hs, hno _, hd⟩
    · obtain ⟨hs, -⟩ := step_resume cfg hj (by intro _ h; cases h)
      simp only [act, actStart] at hs
      split at hs
      · simp only [World.sessions, hs, reply] at hv
        exact Or.inl ⟨v, hv, ⟨rfl, rfl, rfl, rfl, rfl⟩, hno _, Or.inl rfl⟩
      · refine Or.inr (Or.inl ⟨r, hno, ?_, hvr⟩)
        rw [hs]
        exact Nat.lt_succ_self _
    · exact absurd ⟨rid, r, n, hop, hj, rfl⟩ (hno r.id)

/-- An old session after an operation that counts no chunk of it. -/
theorem session_kept {v : UploadSession} (hv : v ∈ (w.next cfg op).sessions) (hold : v.id < w.store.next)
    (hc : ¬Counts w op v.id) : ∃ u ∈ w.sessions, SameCount u v := by
  rcases session_origin hv with ⟨u, hu, hs, -⟩ | ⟨r, -, -, rfl⟩ | ⟨rid, r, n, u, -, hop, hj, hur, hvu, -⟩
  · exact ⟨u, hu, hs⟩
  · exact absurd hold (Nat.lt_irrefl _)
  · exact absurd ⟨rid, r, n, hop, hj, (hvu.trans hur).symm⟩ hc

/-- The chunk size of an old session stays. -/
theorem session_chunk {v : UploadSession} (hv : v ∈ (w.next cfg op).sessions) (hold : v.id < w.store.next) :
    ∃ u ∈ w.sessions, u.id = v.id ∧ v.chunkBytes = u.chunkBytes := by
  rcases session_origin hv with ⟨u, hu, hs, -⟩ | ⟨r, -, -, rfl⟩ | ⟨rid, r, n, u, hu, -, -, -, hvu, -, hvc, -⟩
  · exact ⟨u, hu, hs.1.symm, hs.2.2.1⟩
  · exact absurd hold (Nat.lt_irrefl _)
  · exact ⟨u, hu, hvu.symm, hvc⟩

/-- A part file after an operation: it was there, is new, or has been appended to, maybe torn by a crash. -/
theorem part_origin {b : Bytes} (hb : (w.next cfg op).parts id = some b) :
    w.parts id = some b ∨
    (∃ rid r expiresAt, op = .resume rid ∧ w.job rid = some (.startUpload r (.temp id expiresAt)) ∧ b = []) ∨
    ∃ rid r n old, w.job rid = some (.patchUpload r (.append n)) ∧ r.id = id ∧ w.parts id = some old ∧
      n ≤ old.length ∧ ((op = .resume rid ∧ b = old.take n ++ r.body) ∨
        ∃ k, op = .crash rid k ∧ b = old.take n ++ r.body.take k) := by
  have hp := step_parts cfg w op
  generalize (w.next cfg op).parts = parts at hb hp
  cases hp with
  | same => exact Or.inl hb
  | @temp rid r id' expiresAt hj =>
    by_cases hid : id = id'
    · subst hid
      rw [assign_same] at hb
      exact Or.inr (Or.inl ⟨rid, r, expiresAt, rfl, hj, (Option.some.inj hb).symm⟩)
    · rw [assign_ne _ _ hid] at hb
      exact Or.inl hb
  | @append rid r n b' hj h =>
    by_cases hid : id = r.id
    · rw [hid, assign_same] at hb
      cases hb
      obtain ⟨old, hold, hn, rfl⟩ := patchAppend_some h
      exact Or.inr (Or.inr ⟨rid, r, n, old, hj, hid.symm, hid ▸ hold, hn, Or.inl ⟨rfl, rfl⟩⟩)
    · rw [assign_ne _ _ hid] at hb
      exact Or.inl hb
  | @drop _ id' =>
    by_cases hid : id = id'
    · rw [hid, assign_same] at hb
      cases hb
    · rw [assign_ne _ _ hid] at hb
      exact Or.inl hb
  | @torn rid r n k b' hj h =>
    by_cases hid : id = r.id
    · rw [hid, assign_same] at hb
      cases hb
      obtain ⟨old, hold, hn, rfl⟩ := patchAppend_some h
      exact Or.inr (Or.inr ⟨rid, r, n, old, hj, hid.symm, hid ▸ hold, hn, Or.inr ⟨k, rfl, rfl⟩⟩)
    · rw [assign_ne _ _ hid] at hb
      exact Or.inl hb

/-! ## What requests in flight know -/

/-- The request writes to the session's part file, or is about to count what it wrote. -/
def Job.Writes (j : Job) (id : UploadId) : Prop :=
  ∃ r n, (j = .patchUpload r (.append n) ∨ j = .patchUpload r (.count n)) ∧ r.id = id

/-- The request is about to create the session's part file. -/
def Job.Creates (j : Job) (id : UploadId) : Prop := ∃ r expiresAt, j = .startUpload r (.temp id expiresAt)

theorem Job.Writes.holds {j : Job} (h : j.Writes id) : j.Holds id := by
  obtain ⟨r, n, rfl | rfl, hid⟩ := h
  · exact ⟨r, _, rfl, hid, by simp, by simp⟩
  · exact ⟨r, _, rfl, hid, by simp, by simp⟩

/-- The part file of the session has been created. -/
def Made (w : World) (id : UploadId) : Prop := id < w.store.next ∧ ∀ g ∈ w.inflight, ¬g.job.Creates id

/-- Every declared byte of the session is counted, `n` of them, and no more will be. -/
structure Full (x : Intake) (id : UploadId) (n : Nat) : Prop where
  fresh : id < x.1.store.next
  quiet : ∀ g ∈ x.1.inflight, ¬g.job.Writes id
  rows : ∀ u ∈ x.1.sessions, u.id = id → u.receivedBytes = n ∧ u.declaredBytes = n
  length : (assembled x.2 id).length = n
  indices : (chunksOf x.2 id).map Chunk.index = List.range (chunksOf x.2 id).length

/-- The chunk is the next one of its session, behind `n` counted bytes. -/
structure IsNext (x : Intake) (r : PatchReq) (n : Nat) : Prop where
  fresh : r.id < x.1.store.next
  length : (assembled x.2 r.id).length = n
  row : ∀ u ∈ x.1.sessions, u.id = r.id →
    r.index = u.nextChunk ∧ fits u r.body.length = true ∧ r.body.length ≤ u.chunkBytes

/-- What a request in flight has found about its session. -/
def JobInv (cfg : Config) (x : Intake) (rid : RequestId) : Job → Prop
  | .startUpload _ (.temp id _) =>
    id < x.1.store.next ∧ x.1.parts id = none ∧ chunksOf x.2 id = [] ∧
      ∀ g ∈ x.1.inflight, g.job.Creates id → g.id = rid
  | .patchUpload r .lock | .patchUpload r .read =>
    r.id < x.1.store.next ∧ ∀ u ∈ x.1.sessions, u.id = r.id → r.body.length ≤ u.chunkBytes
  | .patchUpload r (.append n) => IsNext x r n
  | .patchUpload r (.count n) =>
    IsNext x r n ∧ Made x.1 r.id ∧ ∀ b, x.1.parts r.id = some b → assembled x.2 r.id ++ r.body <+: b
  | .finalizeUpload r (.charge u) | .finalizeUpload r (.entry u) | .finalizeUpload r (.hash u) =>
    u.id = r.id ∧ Full x r.id u.declaredBytes
  | .finalizeUpload r (.place u hashed) =>
    u.id = r.id ∧ Full x r.id u.declaredBytes ∧ hashed = assembled x.2 r.id ∧ Made x.1 r.id ∧
      ∀ b, x.1.parts r.id = some b → b = hashed
  | .finalizeUpload r (.cite u d size) | .finalizeUpload r (.tx u d size _) =>
    u.id = r.id ∧ Full x r.id u.declaredBytes ∧ d = cfg.sha256 (assembled x.2 r.id) ∧ size = u.declaredBytes
  | _ => True

/-- A session's row counts its chunks; the recorded digest is that of all of them. -/
structure RowInv (cfg : Config) (x : Intake) (u : UploadSession) : Prop where
  fresh : u.id < x.1.store.next
  received : u.receivedBytes = min (u.nextChunk * u.chunkBytes) u.declaredBytes
  indices : (chunksOf x.2 u.id).map Chunk.index = List.range u.nextChunk
  bytes : (assembled x.2 u.id).length = u.receivedBytes
  digest : ∀ d, u.finalizedDigest = some d →
    d = cfg.sha256 (assembled x.2 u.id) ∧ u.receivedBytes = u.declaredBytes

structure AssemblyInv (cfg : Config) (x : Intake) : Prop where
  locks : LockInv x.1
  rows : ∀ u ∈ x.1.sessions, RowInv cfg x u
  parts : ∀ id b, x.1.parts id = some b → id < x.1.store.next ∧ assembled x.2 id <+: b
  log : ∀ c ∈ x.2, c.id < x.1.store.next
  files : ∀ d b, x.1.store.files d = some b → cfg.sha256 b = d
  jobs : ∀ f ∈ x.1.inflight, JobInv cfg x f.id f.job

/-! ## What stays true -/

section Stable

variable {x : Intake}

/-- A chunk that is written or counted is the next one. -/
theorem AssemblyInv.isNext (h : AssemblyInv cfg x) {g : InFlight} (hg : g ∈ x.1.inflight) {r : PatchReq} {n : Nat}
    (hj : g.job = .patchUpload r (.append n) ∨ g.job = .patchUpload r (.count n)) : IsNext x r n := by
  have hi := h.jobs g hg
  rcases hj with hj | hj
  · rw [hj] at hi
    exact hi
  · rw [hj] at hi
    exact hi.1

/-- No chunk of a session with all its bytes is written. -/
theorem AssemblyInv.not_writes (h : AssemblyInv cfg x) {u : UploadSession} (hu : u ∈ x.1.sessions)
    (hfull : u.receivedBytes = u.declaredBytes) {g : InFlight} (hg : g ∈ x.1.inflight) : ¬g.job.Writes u.id := by
  rintro ⟨r, n, hj, hid⟩
  obtain ⟨-, hfits, -⟩ := (h.isNext hg hj).row u hu hid.symm
  simp only [fits, decide_eq_true_eq] at hfits
  omega

/-- A chunk fits into a session that waits for bytes. -/
theorem patchRead_append {s : Store} {r : PatchReq} {n : Nat} (h : patchRead s r = .append n) :
    ∃ u, s.db.uploadSessions.get r.id = some u ∧ n = u.receivedBytes ∧ r.index = u.nextChunk ∧
      fits u r.body.length = true := by
  unfold patchRead at h
  split at h
  · cases h
  · rename_i u hu
    split at h
    · cases h
    · split at h
      · cases h
      · split at h
        · split at h
          · cases h
          · split at h
            · cases h
            · split at h <;> cases h
        · split at h
          · cases h
          · rename_i hidx
            split at h
            · rename_i hfits
              cases h
              exact ⟨u, hu, rfl, by simpa using hidx, hfits⟩
            · cases h

theorem Made.step (h : Made x.1 id) (op : Op) : Made (Intake.next cfg x op).1 id := by
  refine ⟨Nat.lt_of_lt_of_le h.1 (step_next cfg x.1 op), ?_⟩
  intro g hg ⟨r, expiresAt, hjob⟩
  rcases mem_inflight_moves hg with ⟨hg, -⟩ | ⟨r', hr, -⟩ | ⟨j, -, hj, hm⟩
  · exact h.2 g hg ⟨r, expiresAt, hjob⟩
  · rw [hjob] at hr
    cases r' <;> cases hr
  · rw [hjob] at hm
    generalize (x.1.next cfg op).store = s at hm
    cases hm
    exact absurd h.1 (Nat.lt_irrefl _)

theorem Full.not_counts {n : Nat} (h : Full x id n) : ¬Counts x.1 op id := by
  rintro ⟨rid, r, m, -, hj, hid⟩
  exact h.quiet _ (World.job_mem hj) ⟨r, m, Or.inr rfl, hid⟩

theorem Full.step {n : Nat} (h : Full x id n) (op : Op) : Full (Intake.next cfg x op) id n where
  fresh := Nat.lt_of_lt_of_le h.fresh (step_next cfg x.1 op)
  quiet := by
    intro g hg ⟨r, m, hjob, hid⟩
    rcases mem_inflight_moves hg with ⟨hg, -⟩ | ⟨r', hr, -⟩ | ⟨j, -, hj, hm⟩
    · exact h.quiet g hg ⟨r, m, hjob, hid⟩
    · rcases hjob with hjob | hjob
      · rw [hjob] at hr
        cases r' <;> cases hr
      · rw [hjob] at hr
        cases r' <;> cases hr
    · generalize (x.1.next cfg op).store = s at hm
      rcases hjob with hjob | hjob
      · -- the session has all its bytes: no chunk fits
        rw [hjob] at hm
        cases hm with
        | patchRead hr =>
          obtain ⟨u, hu, -, -, hfits⟩ := patchRead_append hr
          obtain ⟨h1, h2⟩ := h.rows u (Table.get_mem hu) ((Table.get_key hu).trans hid)
          simp only [fits, decide_eq_true_eq] at hfits
          omega
      · rw [hjob] at hm
        cases hm with
        | patchAppend => exact h.quiet _ (World.job_mem hj) ⟨r, m, Or.inl rfl, hid⟩
  rows := by
    intro v hv hvi
    obtain ⟨u, hu, hid, hdecl, -, hrec, -⟩ := session_kept hv (hvi ▸ h.fresh) (hvi ▸ h.not_counts)
    have hold := h.rows u hu (hid.symm.trans hvi)
    exact ⟨hrec.trans hold.1, hdecl.trans hold.2⟩
  length := by
    rw [assembled_kept h.not_counts]
    exact h.length
  indices := by
    rw [chunks_kept h.not_counts]
    exact h.indices

theorem IsNext.step {r : PatchReq} {n : Nat} (h : IsNext x r n) (hc : ¬Counts x.1 op r.id) :
    IsNext (Intake.next cfg x op) r n where
  fresh := Nat.lt_of_lt_of_le h.fresh (step_next cfg x.1 op)
  length := by
    rw [assembled_kept hc]
    exact h.length
  row := by
    intro v hv hvi
    obtain ⟨u, hu, hid, hdecl, hchunk, hrec, hnext⟩ := session_kept hv (hvi ▸ h.fresh) (hvi ▸ hc)
    obtain ⟨h1, h2, h3⟩ := h.row u hu (hid.symm.trans hvi)
    refine ⟨h1.trans hnext.symm, ?_, ?_⟩
    · simp only [fits, hdecl, hchunk, hrec] at h2 ⊢
      exact h2
    · rw [hchunk]
      exact h3

/-- Where the part file is there, it has been created. -/
theorem AssemblyInv.made (h : AssemblyInv cfg x) {b : Bytes} (hb : x.1.parts id = some b) : Made x.1 id := by
  refine ⟨(h.parts id b hb).1, ?_⟩
  intro g hg ⟨r, expiresAt, hjob⟩
  have hi := h.jobs g hg
  rw [hjob] at hi
  rw [hi.2.1] at hb
  cases hb

/-- A created part file that nobody appends to stays or goes. -/
theorem part_kept {b : Bytes} (hmade : Made x.1 id)
    (hw : ∀ rid r n, op = .resume rid → x.1.job rid = some (.patchUpload r (.append n)) → r.id ≠ id)
    (halive : ∃ f, f ∈ (x.1.next cfg op).inflight) (hb : (x.1.next cfg op).parts id = some b) :
    x.1.parts id = some b := by
  rcases part_origin hb with hb | ⟨rid, r, expiresAt, -, hj, -⟩ | ⟨rid, r, n, old, hj, hid, -, -, ⟨rfl, -⟩ | ⟨k, rfl, -⟩⟩
  · exact hb
  · exact absurd ⟨r, expiresAt, rfl⟩ (hmade.2 _ (World.job_mem hj))
  · exact absurd hid (hw rid r n rfl hj)
  · obtain ⟨f, hf⟩ := halive
    simp only [World.next, KyNotes.step] at hf
    split at hf <;> exact absurd hf (Table.not_mem_empty _)

/-! ## Requests in flight -/

theorem ownSession_some {db : DB} {u : UserId} {s : UploadSession} (h : ownSession db u id = some s) :
    s ∈ db.uploadSessions ∧ s.id = id := by
  unfold ownSession at h
  obtain ⟨hs, -⟩ := Option.filter_eq_some_iff.mp h
  exact ⟨Table.get_mem hs, Table.get_key hs⟩

theorem patchAdmit_ok {db : DB} {r : PatchReq} {y : Unit} (h : patchAdmit db r = .ok y) :
    ∃ u ∈ db.uploadSessions, u.id = r.id ∧ r.body.length ≤ u.chunkBytes := by
  simp only [patchAdmit, bind_ok, fetch_ok, require_ok] at h
  obtain ⟨u, hu, _, -, hl⟩ := h
  obtain ⟨hm, hid⟩ := ownSession_some hu
  exact ⟨u, hm, hid, hl⟩

theorem finalizeRead_ok {s : Store} {r : FinalizeReq} {u : UploadSession} (h : finalizeRead s r = .ok u) :
    u ∈ s.db.uploadSessions ∧ u.id = r.id ∧ u.receivedBytes = u.declaredBytes := by
  simp only [finalizeRead, bind_ok, fetch_ok] at h
  obtain ⟨v, hv, _, -, h⟩ := h
  split at h
  · cases h
  · simp only [bind_ok, require_ok, pure_ok] at h
    obtain ⟨_, -, _, hd, rfl⟩ := h
    obtain ⟨hm, hid⟩ := ownSession_some hv
    exact ⟨hm, hid, hd⟩

/-- A body stays within the chunk size of its session. -/
theorem body_fits {r : PatchReq} (hfresh : r.id < x.1.store.next)
    (hrow : ∀ u ∈ x.1.sessions, u.id = r.id → r.body.length ≤ u.chunkBytes) :
    r.id < (x.1.next cfg op).store.next ∧
      ∀ v ∈ (x.1.next cfg op).sessions, v.id = r.id → r.body.length ≤ v.chunkBytes := by
  refine ⟨Nat.lt_of_lt_of_le hfresh (step_next cfg x.1 op), ?_⟩
  intro v hv hvi
  obtain ⟨u, hu, hid, hchunk⟩ := session_chunk hv (hvi ▸ hfresh)
  rw [hchunk]
  exact hrow u hu (hid.trans hvi)

/-- A request that stays as it is. -/
theorem AssemblyInv.stay (h : AssemblyInv cfg x) {f : InFlight} (hf : f ∈ x.1.inflight)
    (hf' : f ∈ (x.1.next cfg op).inflight) (hstay : op = .resume f.id → ∃ r, f.job = .patchUpload r .lock) :
    JobInv cfg (Intake.next cfg x op) f.id f.job := by
  have hi := h.jobs f hf
  -- another request that writes to the same part file would hold the same lock
  have halone : ∀ {i rid r st}, f.job.Writes i → op = .resume rid → x.1.job rid = some (.patchUpload r st) →
      st ≠ .entry → st ≠ .lock → r.id ≠ i := by
    intro i rid r st hw hop hj hne hnl hid
    have hfg := h.locks.unique hf (World.job_mem hj) hw.holds ⟨r, st, rfl, hid, hne, hnl⟩
    obtain ⟨r', n, hjob, -⟩ := hw
    obtain ⟨r'', hlock⟩ := hstay (by rw [hop, hfg])
    rw [hlock] at hjob
    rcases hjob with hjob | hjob <;> cases hjob
  have hcounts : ∀ {i}, f.job.Writes i → ¬Counts x.1 op i := by
    rintro i hw ⟨rid, r, n, hop, hj, hid⟩
    exact halone hw hop hj (by simp) (by simp) hid
  obtain ⟨rid, j⟩ := f
  cases j with
  | startUpload r st =>
    cases st with
    | entry | tx => trivial
    | temp id expiresAt =>
      obtain ⟨hfresh, hnone, hnil, huniq⟩ := hi
      have hno : ¬Counts x.1 op id := by
        rintro ⟨rid', r', n, -, hj, hid⟩
        have hmade := (h.jobs _ (World.job_mem hj)).2.1
        exact hmade.2 _ hf ⟨r, expiresAt, by rw [hid]⟩
      refine ⟨Nat.lt_of_lt_of_le hfresh (step_next cfg x.1 op), ?_, ?_, ?_⟩
      · cases hp : (Intake.next cfg x op).1.parts id with
        | none => rfl
        | some b =>
          rcases part_origin hp with hb | ⟨rid', r', e', hop, hj, -⟩ | ⟨_, _, _, old, -, -, hold, -⟩
          · rw [hnone] at hb
            cases hb
          · have : rid' = rid := huniq _ (World.job_mem hj) ⟨r', e', rfl⟩
            obtain ⟨_, hlock⟩ := hstay (by rw [hop, this])
            cases hlock
          · rw [hnone] at hold
            cases hold
      · rw [chunks_kept hno]
        exact hnil
      · intro g hg ⟨r', e', hjob⟩
        rcases mem_inflight_moves hg with ⟨hg, -⟩ | ⟨q, hr, -⟩ | ⟨j, -, hj, hm⟩
        · exact huniq g hg ⟨r', e', hjob⟩
        · rw [hjob] at hr
          cases q <;> cases hr
        · rw [hjob] at hm
          generalize (x.1.next cfg op).store = s at hm
          cases hm
          exact absurd hfresh (Nat.lt_irrefl _)
  | patchUpload r st =>
    cases st with
    | entry | doom => trivial
    | lock | read => exact body_fits hi.1 hi.2
    | append n => exact IsNext.step hi (hcounts ⟨r, n, Or.inl rfl, rfl⟩)
    | count n =>
      have hw : Job.Writes (.patchUpload r (.count n)) r.id := ⟨r, n, Or.inr rfl, rfl⟩
      refine ⟨hi.1.step (hcounts hw), hi.2.1.step op, ?_⟩
      intro b hb
      rw [assembled_kept (hcounts hw)]
      refine hi.2.2 b (part_kept hi.2.1 ?_ ⟨_, hf'⟩ hb)
      intro rid' r' n' hop hj
      exact halone hw hop hj (by simp) (by simp)
  | finalizeUpload r st =>
    cases st with
    | read | doom => trivial
    | charge u | entry u | hash u => exact ⟨hi.1, hi.2.step op⟩
    | place u hashed =>
      obtain ⟨hid, hfull, hbytes, hmade, hpart⟩ := hi
      refine ⟨hid, hfull.step op, ?_, hmade.step op, ?_⟩
      · rw [assembled_kept hfull.not_counts]
        exact hbytes
      · intro b hb
        refine hpart b (part_kept hmade ?_ ⟨_, hf'⟩ hb)
        intro rid' r' n' hop hj hid'
        exact hfull.quiet _ (World.job_mem hj) ⟨r', n', Or.inl rfl, hid'⟩
    | cite u d size | tx u d size preview =>
      obtain ⟨hid, hfull, hd, hsz⟩ := hi
      refine ⟨hid, hfull.step op, ?_, hsz⟩
      rw [assembled_kept hfull.not_counts]
      exact hd
  | put | deleteObject | comment | link | unlink | cancelUpload | gc => trivial

/-- A request that goes on. -/
theorem AssemblyInv.moved (h : AssemblyInv cfg x) {f : InFlight} {j : Job} (hop : op = .resume f.id)
    (hj : x.1.job f.id = some j) (hm : Moves cfg x.1.store j f.job (x.1.next cfg op).store) :
    JobInv cfg (Intake.next cfg x op) f.id f.job := by
  have hi := h.jobs _ (World.job_mem hj)
  have hno : ∀ i, ¬Counts x.1 op i := by
    rintro i ⟨rid, r, n, hop', hj', -⟩
    rw [hop] at hop'
    cases hop'
    rw [hj] at hj'
    cases hj'
    generalize f.job = j' at hm
    cases hm
  have hrow : ∀ {u v : UploadSession}, u ∈ x.1.sessions → v ∈ x.1.sessions → v.id = u.id → v = u :=
    fun hu hv hid => Table.eq_of_key hv hu hid
  generalize hs : (x.1.next cfg op).store = s at hm
  generalize hjob : f.job = j' at hm
  cases hm with
  | @startTx r db htx =>
    have hdb : (x.1.next cfg op).parts = x.1.parts := by simp only [World.parts, hs]
    refine ⟨?_, ?_, ?_, ?_⟩
    · change x.1.store.next < (x.1.next cfg op).store.next
      rw [hs]
      exact Nat.lt_succ_self _
    · change (x.1.next cfg op).parts x.1.store.next = none
      rw [hdb]
      cases hp : x.1.parts x.1.store.next with
      | none => rfl
      | some b => exact absurd (h.parts _ b hp).1 (Nat.lt_irrefl _)
    · rw [chunks_kept (hno _)]
      refine List.filter_eq_nil_iff.mpr ?_
      intro c hc hid
      have hid : c.id = x.1.store.next := by simpa using hid
      exact absurd (h.log c hc) (by rw [hid]; exact Nat.lt_irrefl _)
    · intro g hg ⟨r', e', hgjob⟩
      rcases mem_inflight_moves hg with ⟨hg, -⟩ | ⟨q, hr, -⟩ | ⟨j, hop', -⟩
      · have hgi := h.jobs g hg
        rw [hgjob] at hgi
        exact absurd hgi.1 (Nat.lt_irrefl _)
      · rw [hgjob] at hr
        cases q <;> cases hr
      · rw [hop] at hop'
        exact (Op.resume.inj hop').symm
  | patchAdmit hx =>
    obtain ⟨u, hu, hid, hl⟩ := patchAdmit_ok hx
    refine body_fits (hid ▸ (h.rows u hu).fresh) ?_
    intro v hv hvi
    rw [hrow hu hv (hvi.trans hid.symm)]
    exact hl
  | patchLock => exact body_fits hi.1 hi.2
  | patchRead hx =>
    obtain ⟨u, hu, rfl, hidx, hfits⟩ := patchRead_append hx
    have hum := Table.get_mem hu
    have hid := Table.get_key hu
    refine IsNext.step ⟨hi.1, ?_, ?_⟩ (hno _)
    · rw [← hid]
      exact (h.rows u hum).bytes
    · intro v hv hvi
      rw [hrow hum hv (hvi.trans hid.symm)]
      exact ⟨hidx, hfits, hi.2 u hum hid⟩
  | @patchAppend r n b hx =>
    obtain ⟨old, hold, hn, rfl⟩ := patchAppend_some hx
    have hpart : (x.1.next cfg op).parts r.id = some (old.take n ++ r.body) := by
      simp only [World.parts, hs, assign_same]
    refine ⟨IsNext.step hi (hno _), (h.made hold).step op, ?_⟩
    intro b hb
    change (x.1.next cfg op).parts r.id = some b at hb
    rw [hpart] at hb
    cases hb
    -- what stands before the new bytes is what is counted
    have hpre := List.prefix_iff_eq_take.mp (h.parts r.id old hold).2
    rw [hi.length] at hpre
    exact ⟨[], by rw [List.append_nil, assembled_kept (hno _), hpre]⟩
  | finalizeRead hx =>
    obtain ⟨hu, hid, hd⟩ := finalizeRead_ok hx
    have hri := h.rows _ hu
    refine ⟨hid, Full.step ⟨hid ▸ hri.fresh, ?_, ?_, ?_, ?_⟩ op⟩
    · intro g hg
      rw [← hid]
      exact h.not_writes hu hd hg
    · intro v hv hvi
      rw [hrow hu hv (hvi.trans hid.symm)]
      exact ⟨hd, rfl⟩
    · rw [← hid, hri.bytes]
      exact hd
    · have hlen := congrArg List.length hri.indices
      rw [List.length_map, List.length_range] at hlen
      rw [← hid, hri.indices, hlen]
  | finalizeCharge => exact ⟨hi.1, hi.2.step op⟩
  | finalizeAdmit => exact ⟨hi.1, hi.2.step op⟩
  | @finalizeHash r u b hb hl =>
    have hmade := h.made hb
    have heq : assembled x.2 r.id = b := by
      refine (h.parts r.id b hb).2.eq_of_length ?_
      rw [hi.2.length, hl]
    refine ⟨hi.1, hi.2.step op, ?_, hmade.step op, ?_⟩
    · rw [assembled_kept (hno _)]
      exact heq.symm
    · intro b' hb'
      change (x.1.next cfg op).parts r.id = some b' at hb'
      simp only [World.parts, hs] at hb'
      rw [hb] at hb'
      exact (Option.some.inj hb').symm
  | finalizePlace hx =>
    obtain ⟨hid, hfull, hbytes, -, -⟩ := hi
    refine ⟨hid, hfull.step op, ?_, ?_⟩
    · rw [assembled_kept (hno _), (tempFinalize_ok hx).1, hbytes]
    · rw [hbytes]
      exact hfull.length
  | finalizeCite =>
    obtain ⟨hid, hfull, hd, hsz⟩ := hi
    refine ⟨hid, hfull.step op, ?_, hsz⟩
    rw [assembled_kept (hno _)]
    exact hd
  | putAdmit | putCheck | putPlace | delete | comment | link | unlink | startAdmit | patchDoom | cancelAdmit
  | cancelAbort | finalizeDoom | gc => trivial

/-! ## The invariant -/

theorem AssemblyInv.step_row (h : AssemblyInv cfg x) (op : Op) {v : UploadSession}
    (hv : v ∈ (x.1.next cfg op).sessions) : RowInv cfg (Intake.next cfg x op) v := by
  have hnext := step_next cfg x.1 op
  rcases session_origin hv with ⟨u, hu, ⟨hid, hdecl, hchunk, hrec, hcount⟩, hno, hd⟩ | ⟨r, hno, hlt, rfl⟩ |
    ⟨rid, r, n, u, hu, rfl, hj, hur, hid, hdecl, hchunk, hrec, hcount, hd⟩
  · have hi := h.rows u hu
    refine ⟨?_, ?_, ?_, ?_, ?_⟩
    · rw [hid]
      exact Nat.lt_of_lt_of_le hi.fresh hnext
    · rw [hrec, hcount, hchunk, hdecl]
      exact hi.received
    · rw [hid, chunks_kept hno, hcount]
      exact hi.indices
    · rw [hid, assembled_kept hno, hrec]
      exact hi.bytes
    · intro d hvd
      rw [hid, assembled_kept hno, hrec, hdecl]
      rcases hd with hd | ⟨rid, r, y, d', size, preview, -, hj, hur, hd⟩
      · exact hi.digest d (hd ▸ hvd)
      · obtain ⟨-, hfull, hdd, -⟩ := h.jobs _ (World.job_mem hj)
        have hrow := hfull.rows u hu hur
        rw [hd] at hvd
        cases hvd
        rw [hur]
        exact ⟨hdd, hrow.1.trans hrow.2.symm⟩
  · have hnil : chunksOf x.2 x.1.store.next = [] := by
      refine List.filter_eq_nil_iff.mpr ?_
      intro c hc hid
      have hid : c.id = x.1.store.next := by simpa using hid
      exact absurd (h.log c hc) (by rw [hid]; exact Nat.lt_irrefl _)
    have hnil' : chunksOf (Intake.next cfg x op).2 x.1.store.next = [] := (chunks_kept (hno _)).trans hnil
    refine ⟨?_, ?_, ?_, ?_, ?_⟩
    · exact hlt
    · simp [newSession]
    · simp only [newSession]
      rw [hnil']
      rfl
    · simp only [newSession, assembled]
      rw [hnil']
      rfl
    · intro d hd
      cases hd
  · obtain ⟨hn, -, -⟩ := h.jobs _ (World.job_mem hj)
    obtain ⟨hidx, hfits, hle⟩ := hn.row u hu hur
    have hi := h.rows u hu
    have hvr : v.id = r.id := hid.trans hur
    simp only [fits, decide_eq_true_eq] at hfits
    refine ⟨?_, ?_, ?_, ?_, ?_⟩
    · rw [hid]
      exact Nat.lt_of_lt_of_le hi.fresh hnext
    · have hprod : (u.nextChunk + 1) * u.chunkBytes = u.nextChunk * u.chunkBytes + u.chunkBytes := Nat.succ_mul _ _
      have hold := hi.received
      rw [hrec, hcount, hchunk, hdecl, hprod]
      omega
    · rw [hvr, chunks_counted hj, List.map_append, hcount, List.range_succ, ← hur, hi.indices]
      simp [hidx]
    · rw [hvr, assembled_counted hj, List.length_append, hrec, ← hur, hi.bytes]
    · intro d hvd
      rw [hd] at hvd
      have := (hi.digest d hvd).2
      omega

theorem AssemblyInv.step_part (h : AssemblyInv cfg x) (op : Op) {b : Bytes}
    (hb : (x.1.next cfg op).parts id = some b) :
    id < (x.1.next cfg op).store.next ∧ assembled (Intake.next cfg x op).2 id <+: b := by
  have hnext := step_next cfg x.1 op
  by_cases hc : Counts x.1 op id
  · obtain ⟨rid, r, n, rfl, hj, rfl⟩ := hc
    obtain ⟨hs, -⟩ := step_resume cfg hj (by intro _ h; cases h)
    obtain ⟨hn, -, hpart⟩ := h.jobs _ (World.job_mem hj)
    simp only [World.parts, hs] at hb
    refine ⟨Nat.lt_of_lt_of_le hn.fresh hnext, ?_⟩
    rw [assembled_counted hj]
    exact hpart b hb
  · rw [assembled_kept hc]
    rcases part_origin hb with hb | ⟨rid, r, expiresAt, -, hj, rfl⟩ | ⟨rid, r, n, old, hj, rfl, hold, hn, htorn⟩
    · exact ⟨Nat.lt_of_lt_of_le (h.parts id b hb).1 hnext, (h.parts id b hb).2⟩
    · obtain ⟨hfresh, -, hnil, -⟩ := h.jobs _ (World.job_mem hj)
      refine ⟨Nat.lt_of_lt_of_le hfresh hnext, ?_⟩
      rw [assembled, hnil]
      exact List.prefix_rfl
    · have hi := h.isNext (World.job_mem hj) (Or.inl rfl)
      have hpre := List.prefix_iff_eq_take.mp (h.parts r.id old hold).2
      rw [hi.length] at hpre
      refine ⟨Nat.lt_of_lt_of_le hi.fresh hnext, ?_⟩
      rw [hpre]
      rcases htorn with ⟨-, rfl⟩ | ⟨k, -, rfl⟩
      · exact List.prefix_append _ _
      · exact List.prefix_append _ _

/-- A stored file has the digest that it is stored under. -/
theorem AssemblyInv.step_file (h : AssemblyInv cfg x) (op : Op) {d : Digest} {b : Bytes}
    (hb : (x.1.next cfg op).store.files d = some b) : cfg.sha256 b = d := by
  have hremoved : ∀ {e : Digest}, assign x.1.store.files e none d = some b → cfg.sha256 b = d := by
    intro e he
    by_cases hde : d = e
    · rw [hde, assign_same] at he
      cases he
    · rw [assign_ne _ _ hde] at he
      exact h.files d b he
  have hplaced : ∀ {files hashed held expected e}, tempFinalize cfg x.1.store.files hashed held expected = .ok (files, e) →
      (∀ c, held = some c → c = hashed) → files d = some b → cfg.sha256 b = d := by
    intro files hashed held expected e hx hheld hfd
    obtain ⟨he, -, ⟨old, -, -, -, rfl⟩ | ⟨c, hc, -, rfl⟩⟩ := tempFinalize_ok hx
    · exact h.files d b hfd
    · by_cases hde : d = e
      · rw [hde, assign_same] at hfd
        rw [hde, ← Option.some.inj hfd, hheld c hc, he]
      · rw [assign_ne _ _ hde] at hfd
        exact h.files d b hfd
  have hc := step_change cfg x.1 op
  generalize (x.1.next cfg op).store = s at hb hc
  cases hc
  case putPlace hj hx => exact hplaced hx (fun c hc => (Option.some.inj hc).symm) hb
  case finalizePlace hj hx =>
    obtain ⟨-, -, -, -, hpart⟩ := h.jobs _ (World.job_mem hj)
    exact hplaced hx hpart hb
  case dropped e =>
    simp only [dropUnclaimed] at hb
    split at hb
    · exact h.files d b hb
    · exact hremoved hb
  case gcSweep => exact hremoved hb
  case tornSweep => exact hremoved hb
  all_goals exact h.files d b hb

theorem step_assemblyInv (x : Intake) (op : Op) (h : AssemblyInv cfg x) : AssemblyInv cfg (Intake.next cfg x op) where
  locks := step_lockInv h.locks
  rows := fun v hv => h.step_row op hv
  parts := fun id b hb => h.step_part op hb
  log := by
    intro c hc
    refine Nat.lt_of_lt_of_le ?_ (step_next cfg x.1 op)
    rcases List.mem_append.mp hc with hc | hc
    · exact h.log c hc
    · obtain ⟨rid, r, n, -, hj, hid⟩ := counts_of_mem hc
      rw [← hid]
      exact (h.isNext (World.job_mem hj) (Or.inr rfl)).fresh
  files := fun d b hb => h.step_file op hb
  jobs := by
    intro f hf
    rcases mem_inflight_moves hf with ⟨hfw, hstay⟩ | ⟨r, hr, -⟩ | ⟨j, hop, hj, hm⟩
    · exact h.stay hfw hf hstay
    · rw [hr]
      cases r <;> trivial
    · exact h.moved hop hj hm

end Stable

theorem init_assemblyInv : AssemblyInv cfg (World.init, []) where
  locks := fun _ h => absurd h (Table.not_mem_empty _)
  rows := fun _ h => absurd h (Table.not_mem_empty _)
  parts := fun _ _ h => by cases h
  log := fun _ h => absurd h List.not_mem_nil
  files := fun _ _ h => by cases h
  jobs := fun _ h => absurd h (Table.not_mem_empty _)

theorem reach_assemblyInv (cfg : Config) (ops : List Op) : AssemblyInv cfg (Intake.reach cfg ops) :=
  run_inv step_assemblyInv ops init_assemblyInv

/-! ## Finalize -/

/-- The bytes of a stored file, or of the counted chunks of a session. -/
def HeldBytes (x : Intake) (b : Bytes) : Prop := (∃ d, x.1.store.files d = some b) ∨ ∃ id, assembled x.2 id = b

/-- No two of the byte strings that the server holds have one SHA-256. -/
def NoCollision (cfg : Config) (x : Intake) : Prop :=
  ∀ a b, HeldBytes x a → HeldBytes x b → cfg.sha256 a = cfg.sha256 b → a = b

/-- The finalize of `u`, a session of `r`, with digest `d`: its chunks are numbered in the order in which they were
counted, their bytes are as many as were declared, `d` is their SHA-256 and is recorded, and the blob of `d` holds
them. -/
structure StoresUpload (cfg : Config) (x : Intake) (op : Op) (r : FinalizeReq) (d : Digest) (u : UploadSession) :
    Prop where
  session : u.id = r.id
  chunks : (chunksOf x.2 r.id).map Chunk.index = List.range (chunksOf x.2 r.id).length
  length : (assembled x.2 r.id).length = u.declaredBytes
  digest : d = cfg.sha256 (assembled x.2 r.id)
  recorded : ∀ v ∈ (x.1.next cfg op).sessions, v.id = r.id →
    v.finalizedDigest = some d ∧ v.declaredBytes = u.declaredBytes
  row : ((x.1.next cfg op).store.db.blobs.get d).isSome
  file : ∃ b, (x.1.next cfg op).store.files d = some b ∧ cfg.sha256 b = d ∧ (NoCollision cfg x → b = assembled x.2 r.id)

theorem AssemblyInv.finalized {x : Intake} (h : AssemblyInv cfg x) {rid : RequestId} {r : FinalizeReq} {d : Digest}
    (he : .finalized rid r d ∈ (step cfg x.1 op).2) :
    ∃ u size preview, x.1.job rid = some (.finalizeUpload r (.tx u d size preview)) ∧ size = u.declaredBytes ∧
      StoresUpload cfg x op r d u := by
  obtain ⟨rfl, u, size, preview, db, a, hj, hx, hdb⟩ := finalized_event he
  obtain ⟨hid, hfull, hd, hsize⟩ := h.jobs _ (World.job_mem hj)
  have hf := (finalizeTx_ok hx).1
  have hfiles : (x.1.next cfg (.resume rid)).store.files = x.1.store.files := by
    obtain ⟨hs, -⟩ := step_resume cfg hj (by intro _ h; cases h)
    rw [hs]
    simp only [act, actFinalize, hx]
  refine ⟨u, size, preview, hj, hsize, hid, hfull.indices, hfull.length, hd, ?_, ?_, ?_⟩
  · intro v hv hvi
    simp only [World.sessions, hdb, hf.sessions] at hv
    rcases Table.mem_update_cases hv with ⟨-, hne⟩ | ⟨y, hy, hyi, rfl⟩
    · exact absurd hvi hne
    · exact ⟨rfl, (hfull.rows y hy hyi).2⟩
  · rw [hdb]
    exact (claimBlob_get hf.blobs d).mpr (Or.inr rfl)
  · obtain ⟨b, hb⟩ := Option.isSome_iff_exists.mp (claimBlob_ok hf.blobs).1
    have hbd := h.files d b hb
    refine ⟨b, by rw [hfiles]; exact hb, hbd, ?_⟩
    intro hno
    exact hno b _ (Or.inl ⟨d, hb⟩) (Or.inr ⟨r.id, rfl⟩) (hbd.trans hd)

/-- **Chunked uploads.** In every reachable state a session has received the bytes of its chunks, of which only the last
may be short, and the digest it records is that of all its bytes; and every finalize stores the bytes of the counted
chunks in their order, all that were declared, under their SHA-256. -/
theorem chunked_upload (cfg : Config) (ops : List Op) :
    (∀ u ∈ (World.reach cfg ops).sessions,
      u.receivedBytes = min (u.nextChunk * u.chunkBytes) u.declaredBytes ∧
      ∀ d, u.finalizedDigest = some d → d = cfg.sha256 (assembled (Intake.reach cfg ops).2 u.id) ∧
        (assembled (Intake.reach cfg ops).2 u.id).length = u.declaredBytes) ∧
    ∀ op rid r d, .finalized rid r d ∈ (step cfg (World.reach cfg ops) op).2 →
      ∃ u size preview, (World.reach cfg ops).job rid = some (.finalizeUpload r (.tx u d size preview)) ∧
        size = u.declaredBytes ∧ StoresUpload cfg (Intake.reach cfg ops) op r d u := by
  have h := reach_assemblyInv cfg ops
  have hw : (Intake.reach cfg ops).1 = World.reach cfg ops := Intake.reach_world ops
  refine ⟨?_, ?_⟩
  · intro u hu
    rw [← hw] at hu
    have hi := h.rows u hu
    refine ⟨hi.received, fun d hd => ?_⟩
    obtain ⟨hdd, hfull⟩ := hi.digest d hd
    exact ⟨hdd, hi.bytes.trans hfull⟩
  · intro op rid r d he
    rw [← hw] at he ⊢
    exact h.finalized he

/-- The upload of one chunk `"b"`, up to the transaction of its finalize. -/
def beforeFinalize : List Op :=
  sampleSetup ++ alone (.startUpload ⟨0, 2, true, .attachment, 1, none⟩) 5 3 ++
    alone (.patchUpload ⟨0, 6, true, 0, [0x62]⟩) 7 5 ++ alone (.finalizeUpload ⟨0, 6, true, 2, some 0, none⟩) 8 6

theorem chunked_upload_b :
    ∃ u size preview, (World.reach sampleConfig beforeFinalize).job 8 =
        some (.finalizeUpload ⟨0, 6, true, 2, some 0, none⟩ (.tx u (sampleSha256 [0x62]) size preview)) ∧
      size = u.declaredBytes ∧
      StoresUpload sampleConfig (Intake.reach sampleConfig beforeFinalize) (.resume 8)
        ⟨0, 6, true, 2, some 0, none⟩ (sampleSha256 [0x62]) u :=
  (chunked_upload sampleConfig beforeFinalize).2 (.resume 8) 8 _ _ (by decide +kernel)

end KyNotes
