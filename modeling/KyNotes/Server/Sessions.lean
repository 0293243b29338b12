import KyNotes.Server.Effects

/-!
# What one operation can do to upload sessions, part files and locks

`SessionChange` and `PartChange` are two more projections of `Change`. `LockInv`: a chunk that is past `lockUpload` holds
the lock of its session, so that there is one at a time (`LockInv.unique`).
-/

namespace KyNotes

open Relational Check

/-- The upload sessions of a world. -/
abbrev World.sessions (w : World) : Table UploadSession.id := w.store.db.uploadSessions

/-- The part files of a world. -/
abbrev World.parts (w : World) : UploadId → Option Bytes := w.store.parts

/-! ## Sessions and part files -/

/-- The ways an operation changes the upload sessions. -/
inductive SessionChange (cfg : Config) (w : World) : Op → Table UploadSession.id → Prop
  | same {op} : SessionChange cfg w op w.sessions
  | start {rid r t} (hj : w.job rid = some (.startUpload r .tx))
      (ht : w.sessions.insert (newSession cfg w.store.clock r w.store.next) = some t) :
      SessionChange cfg w (.resume rid) t
  | count {rid r received} (hj : w.job rid = some (.patchUpload r (.count received))) :
      SessionChange cfg w (.resume rid) (patchCount cfg w.store r.id r.body.length).uploadSessions
  /-- Sessions fail or expire. -/
  | close {op} {q : UploadSession → Prop} [DecidablePred q] {st : UploadStatus} {t : UploadSession → Stamp}
      (hp : st ≠ .pending) :
      SessionChange cfg w op (w.sessions.update q fun u => { u with status := st, updatedAt := t u })
  | finish {rid r u d size preview db a} (hj : w.job rid = some (.finalizeUpload r (.tx u d size preview)))
      (hx : finalizeTx w.store r u d size preview w.store.next = .ok (db, a)) :
      SessionChange cfg w (.resume rid) (finishSession w.sessions r.id d w.store.now)
  | purge {op} {q : UploadSession → Prop} [DecidablePred q] : SessionChange cfg w op (w.sessions.delete q)

/-- The ways an operation changes the part files. -/
inductive PartChange (w : World) : Op → (UploadId → Option Bytes) → Prop
  | same {op} : PartChange w op w.parts
  | temp {rid r id expiresAt} (hj : w.job rid = some (.startUpload r (.temp id expiresAt))) :
      PartChange w (.resume rid) (assign w.parts id (some []))
  | append {rid r received b} (hj : w.job rid = some (.patchUpload r (.append received)))
      (h : patchAppend (w.parts r.id) received r.body = some b) :
      PartChange w (.resume rid) (assign w.parts r.id (some b))
  | drop {op id} : PartChange w op (assign w.parts id none)
  | torn {rid r received n b} (hj : w.job rid = some (.patchUpload r (.append received)))
      (h : patchAppend (w.parts r.id) received (r.body.take n) = some b) :
      PartChange w (.crash rid n) (assign w.parts r.id (some b))

variable {cfg : Config} {w : World} {op : Op}

theorem Change.sessions {s : Store} (h : Change cfg w op s) : SessionChange cfg w op s.db.uploadSessions := by
  cases h
  case deleteContainer h => cases deleteContainer_ok h; exact .close (by decide)
  case put h => obtain ⟨_, _, _, -, -, rfl, -⟩ := putTx_ok h; exact .same
  case startUpload hj h => obtain ⟨-, t, ht, rfl⟩ := startTx_ok h; exact .start hj ht
  case count hj => exact .count hj
  case fail => exact .close (t := UploadSession.updatedAt) (by decide)
  case failAbort => exact .close (t := UploadSession.updatedAt) (by decide)
  case cancel => exact .close (by decide)
  case finalize hj h =>
    rw [(finalizeTx_ok h).1.sessions]
    exact .finish hj h
  case gcExpire => exact .close (by decide)
  case gcUploads => exact .purge
  all_goals exact .same

theorem step_sessions (cfg : Config) (w : World) (op : Op) : SessionChange cfg w op (w.next cfg op).sessions :=
  (step_change cfg w op).sessions

/-- What no operation but a counted chunk changes in a session. -/
def SameCount (u v : UploadSession) : Prop :=
  v.id = u.id ∧ v.declaredBytes = u.declaredBytes ∧ v.chunkBytes = u.chunkBytes ∧ v.receivedBytes = u.receivedBytes ∧
    v.nextChunk = u.nextChunk

/-- A session after an operation was there before it with the same counts and the same or this finalize's digest, has
just been started, or has counted a chunk. -/
theorem SessionChange.origin {t : Table UploadSession.id} {v : UploadSession} (h : SessionChange cfg w op t)
    (hv : v ∈ t) :
    (∃ u ∈ w.sessions, SameCount u v ∧ (v.finalizedDigest = u.finalizedDigest ∨
      ∃ rid r x d size preview, op = .resume rid ∧ w.job rid = some (.finalizeUpload r (.tx x d size preview)) ∧
        u.id = r.id ∧ v.finalizedDigest = some d)) ∨
    (∃ rid r, op = .resume rid ∧ w.job rid = some (.startUpload r .tx) ∧
      v = newSession cfg w.store.clock r w.store.next) ∨
    ∃ rid r received, ∃ u ∈ w.sessions, op = .resume rid ∧ w.job rid = some (.patchUpload r (.count received)) ∧
      u.id = r.id ∧ v.id = u.id ∧ v.declaredBytes = u.declaredBytes ∧ v.chunkBytes = u.chunkBytes ∧
      v.receivedBytes = u.receivedBytes + r.body.length ∧ v.nextChunk = u.nextChunk + 1 ∧
      v.finalizedDigest = u.finalizedDigest := by
  have same : ∀ u : UploadSession, SameCount u u := fun u => ⟨rfl, rfl, rfl, rfl, rfl⟩
  cases h with
  | same => exact Or.inl ⟨v, hv, same v, Or.inl rfl⟩
  | start hj ht =>
    rcases (Table.mem_insert ht).mp hv with hv | rfl
    · exact Or.inl ⟨v, hv, same v, Or.inl rfl⟩
    · exact Or.inr (Or.inl ⟨_, _, rfl, hj, rfl⟩)
  | count hj =>
    rcases Table.mem_update_cases hv with ⟨hv, -⟩ | ⟨u, hu, hid, rfl⟩
    · exact Or.inl ⟨v, hv, same v, Or.inl rfl⟩
    · exact Or.inr (Or.inr ⟨_, _, _, u, hu, rfl, hj, hid, rfl, rfl, rfl, rfl, rfl, rfl⟩)
  | close =>
    rcases Table.mem_update_cases hv with ⟨hv, -⟩ | ⟨u, hu, -, rfl⟩
    · exact Or.inl ⟨v, hv, same v, Or.inl rfl⟩
    · exact Or.inl ⟨u, hu, same u, Or.inl rfl⟩
  | finish hj hx =>
    rcases Table.mem_update_cases hv with ⟨hv, -⟩ | ⟨u, hu, hid, rfl⟩
    · exact Or.inl ⟨v, hv, same v, Or.inl rfl⟩
    · exact Or.inl ⟨u, hu, same u, Or.inr ⟨_, _, _, _, _, _, rfl, hj, hid, rfl⟩⟩
  | purge => exact Or.inl ⟨v, (Table.mem_delete.mp hv).1, same v, Or.inl rfl⟩

theorem Change.parts {s : Store} (h : Change cfg w op s) : PartChange w op s.parts := by
  cases h
  case newTemp hj => exact .temp hj
  case append hj h => exact .append hj h
  case abort => exact .drop
  case failAbort => exact .drop
  case finalizePlace => exact .drop
  case tornAppend hj h => exact .torn hj h
  all_goals exact .same

theorem step_parts (cfg : Config) (w : World) (op : Op) : PartChange w op (w.next cfg op).parts :=
  (step_change cfg w op).parts

theorem patchAppend_some {part : Option Bytes} {n : Nat} {body b : Bytes} (h : patchAppend part n body = some b) :
    ∃ old, part = some old ∧ n ≤ old.length ∧ b = old.take n ++ body := by
  unfold patchAppend at h
  split at h
  · cases h
  · rename_i old
    split at h
    · cases h
    · rename_i hlen
      cases h
      exact ⟨old, rfl, Nat.le_of_not_lt hlen, rfl⟩

/-! ## Identifiers -/

/-- The supply of identifiers does not go back. -/
theorem step_next (cfg : Config) (w : World) (op : Op) : w.store.next ≤ (w.next cfg op).store.next := by
  have hc := step_change cfg w op
  generalize (w.next cfg op).store = s at hc ⊢
  cases hc
  all_goals first | exact Nat.le_refl _ | exact Nat.le_succ _

/-! ## Locks -/

/-- The job is past `lockUpload` of the session. -/
def Job.Holds (j : Job) (id : UploadId) : Prop :=
  ∃ r st, j = .patchUpload r st ∧ r.id = id ∧ st ≠ .entry ∧ st ≠ .lock

/-- A chunk past `lockUpload` holds the lock. -/
def LockInv (w : World) : Prop := ∀ f ∈ w.inflight, ∀ id, f.job.Holds id → w.locks id = some f.id

theorem LockInv.unique (h : LockInv w) {f g : InFlight} (hf : f ∈ w.inflight) (hg : g ∈ w.inflight) {id : UploadId}
    (hfi : f.job.Holds id) (hgi : g.job.Holds id) : f = g := by
  have h1 := h f hf id hfi
  have h2 := h g hg id hgi
  exact Table.eq_of_key hf hg (Option.some.inj (h1.symm.trans h2))

theorem unlock_kept {locks : UploadId → Option RequestId} {rid rid' : RequestId} {id : UploadId}
    (h : locks id = some rid) (hne : rid ≠ rid') : unlock locks rid' id = some rid := by
  unfold unlock
  rw [if_neg]
  · exact h
  · rw [h]
    exact fun he => hne (Option.some.inj he)

/-- A request that stays in flight keeps its locks. -/
theorem locks_kept {f : InFlight} (hf : f ∈ (w.next cfg op).inflight) {id : UploadId} (hl : w.locks id = some f.id) :
    (w.next cfg op).locks id = some f.id := by
  unfold World.next at hf ⊢
  cases op with
  | resume rid =>
    simp only [step] at hf ⊢
    split
    · exact hl
    · rename_i g hg
      rw [hg] at hf
      unfold World.act at hf ⊢
      split
      · rename_i r hr
        split
        · rename_i hfree
          have hne : id ≠ r.id := by
            rintro rfl
            rw [hfree] at hl
            cases hl
          simp only [World.goto, assign_ne _ _ hne]
          exact hl
        · exact hl
      · rename_i hr
        simp only at hf ⊢
        unfold World.after at hf ⊢
        split
        · exact hl
        · rename_i hn
          simp only [hn, World.drop] at hf ⊢
          exact unlock_kept hl (Table.mem_delete.mp hf).2
  | abandon rid =>
    simp only [step, World.drop] at hf ⊢
    exact unlock_kept hl (Table.mem_delete.mp hf).2
  | crash rid n =>
    simp only [step] at hf
    split at hf <;> exact absurd hf (Table.not_mem_empty _)
  | arrive | tick | key | deleteContainer | createObject | resolveConflict | deleteComment | createShareLink
  | revokeShareLink => exact hl

/-- A chunk that goes on to its reads has taken the lock. -/
theorem lock_taken {rid : RequestId} {r : PatchReq} (hj : w.job rid = some (.patchUpload r .lock))
    (hfree : w.locks r.id = none) : (w.next cfg (.resume rid)).locks r.id = some rid := by
  unfold World.job at hj
  obtain ⟨f, hf, hjob⟩ := Option.map_eq_some_iff.mp hj
  have hid : f.id = rid := Table.get_key hf
  unfold World.next
  simp only [step, hf, World.act, hjob, hfree, if_true, World.goto, assign_same, hid]

theorem step_lockInv (h : LockInv w) : LockInv (w.next cfg op) := by
  intro f hf id hh
  rcases mem_inflight_next hf with ⟨hfw, -⟩ | ⟨r, -, rfl⟩ | ⟨hfw, -⟩ | ⟨r, rfl, hj, hr, hfree, -⟩ | ⟨j, rfl, hj, hlock, hn, -⟩
  · exact locks_kept hf (h f hfw id hh)
  · obtain ⟨r', st, hjob, -, hne, -⟩ := hh
    cases r <;> cases hjob
    exact absurd rfl hne
  · exact locks_kept hf (h f hfw id hh)
  · obtain ⟨r', st, hjob, hid, -, -⟩ := hh
    have hrr : r = r' := (Job.patchUpload.inj (hr.symm.trans hjob)).1
    rw [← hid, ← hrr]
    exact lock_taken hj hfree
  · -- what goes on past the lock was past it
    have hm := act_moves hn
    have hold : j.Holds id := by
      obtain ⟨r', st, hjob, rfl, hne, hnl⟩ := hh
      rw [hjob] at hm
      generalize (act cfg w.store f.id j).store = s at hm
      cases hm
      case patchAdmit => exact absurd rfl hnl
      case patchLock => exact absurd rfl (hlock _)
      all_goals exact ⟨_, _, rfl, rfl, by simp, by simp⟩
    exact locks_kept hf (h _ (World.job_mem hj) id hold)

end KyNotes
