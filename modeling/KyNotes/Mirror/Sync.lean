import KyNotes.Mirror.Recovery
import KyNotes.Lib.Run

/-!
# Mirroring (`internal/mirror`, `Sync`)

`Sync` uploads the blobs of an inventory to a target and acknowledges each in `blob_replicas`; what is acknowledged is not looked at
again. The database may be restored to an earlier state, rows and files come and go, and there may be several targets, each of
which never replaces an object (`WriteOnce`).

Once a run of `Sync` returned without an error, its target has an object for each row of the inventory, with the digest and the
size of the row, whatever happens later (`synced_stays`).
-/

namespace KyNotes.Mirror

open Interaction Transition

/-! ## The target -/

/-- What `Put` fails with: `offsite.ErrObjectExists`, or another error. -/
inductive PutErr
  | exists
  | other (e : Err)
deriving DecidableEq

/-- A target: what `Put` and `Get`, read to its end, do to it and return. -/
structure Target (τ : Type) where
  put : τ → String → Bytes → τ × Except PutErr Unit
  get : τ → String → τ × Except Err Bytes

/-- The objects that a target has: one that was put is there, none is replaced, and what is read is there. -/
structure WriteOnce {τ : Type} (T : Target τ) (objects : τ → String → Option Bytes) : Prop where
  put_ok : ∀ t name content, (T.put t name content).2 = .ok () → objects (T.put t name content).1 name = some content
  put_keeps : ∀ t name content name' old, objects t name' = some old → objects (T.put t name content).1 name' = some old
  get_ok : ∀ t name content, (T.get t name).2 = .ok content → objects t name = some content
  get_keeps : ∀ t name name' old, objects t name' = some old → objects (T.get t name).1 name' = some old

/-! ## `Sync` -/

/-- `Stats`, with the uploads. -/
structure SyncStats extends Stats where
  uploaded : ℕ := 0
deriving DecidableEq

/-- The statements on `blob_replicas`. -/
inductive ReplicaReq
  | count (d key : String)
  | record (d key : String)
deriving DecidableEq

/-- What `Sync` works on: the local files, the target of each acknowledged digest, and the target. -/
structure Site (τ : Type) where
  store : Store
  replicas : String → Option String
  target : τ

section Sync

variable {τ : Type}

abbrev SyncReq := Req ⊕ ReplicaReq

abbrev SyncVal : SyncReq → Type := Sum.elim Val fun _ => Unit

abbrev SyncRun (τ : Type) := Action (Site τ) Err SyncReq SyncVal

/-- A function of the blob store. -/
def onStore {α : Type} (x : Run α) : SyncRun τ α := Action.within Site.store (fun store site => { site with store }) x

/-- An operation on the database. -/
def statement (op : ReplicaReq) : SyncRun τ Unit :=
  (Action.call (Sum.inr op : SyncReq) : Action (Site τ) Err SyncReq SyncVal (SyncVal (Sum.inr op)))

/-- `ctx.Err`. -/
def checkContext : SyncRun τ Unit :=
  (Action.call (Sum.inl .context : SyncReq) : Action (Site τ) Err SyncReq SyncVal (SyncVal (Sum.inl .context)))

variable (T : Target τ)

def putObject (name : String) (content : Bytes) : SyncRun τ (Except PutErr Unit) := fun s =>
  .ret ({ s with target := (T.put s.target name content).1 }, .ok (T.put s.target name content).2)

def getObject (name : String) : SyncRun τ Bytes := fun s =>
  .ret ({ s with target := (T.get s.target name).1 }, (T.get s.target name).2)

variable (sha256 : Bytes → String)

/-- `verifyExisting`, which reads at most one byte more than the size. -/
def verifyExisting (b : Blob) : SyncRun τ Unit := do
  let content ← getObject T ("blobs/" ++ b.digest)
  let bytes := content.take (b.size.toNat + 1)
  if (bytes.length : ℤ) ≠ b.size ∨ sha256 bytes ≠ b.digest then Action.fail .mismatch else pure ()

/-- `put`, of the file that was opened. -/
def put (b : Blob) : SyncRun τ Unit := do
  let size ← onStore (openBlob sha256 b.digest)
  let source ← Action.read fun s => (s.store.files b.digest).getD []
  if (size : ℤ) ≠ b.size then Action.fail .corrupt
  else do
    match ← putObject T ("blobs/" ++ b.digest) source with
    | .ok _ => pure ()
    | .error .exists => verifyExisting T sha256 b
    | .error (.other e) => Action.fail e

/-- The upsert of the acknowledgement. -/
def record (b : Blob) (key : String) : SyncRun τ Unit := do
  statement (.record b.digest key)
  Action.modify fun s => { s with replicas := fun d => if d = b.digest then some key else s.replicas d }

def SyncStats.failure (s : SyncStats) (code : String) (missing : Bool) : SyncStats :=
  { s with toStats := s.toStats.failure code missing }

/-- A row that is not acknowledged. -/
def upload (key : String) (b : Blob) (stats : SyncStats) : SyncRun τ SyncStats := do
  match ← Action.attempt (put T sha256 b) with
  | .error e => pure (stats.failure "upload_or_verification_failed" (e = .notExist))
  | .ok _ => do
    match ← Action.attempt (record b key) with
    | .error _ => pure (stats.failure "replica_record_failed" false)
    | .ok _ => pure { stats with uploaded := stats.uploaded + 1 }

/-- One row of the inventory; an error ends the run. -/
def syncRow (key : String) (b : Blob) (stats : SyncStats) : SyncRun τ (SyncStats × Option Err) :=
  if !valid b then pure (stats.failure "invalid_inventory" false, none)
  else do
    match ← Action.attempt (statement (.count b.digest key)) with
    | .error e => pure (stats, some e)
    | .ok _ => do
      let done ← Action.read fun s => decide (s.replicas b.digest = some key)
      if done then pure ({ stats with skipped := stats.skipped + 1 }, none)
      else do
        let stats ← upload T sha256 key b stats
        pure (stats, none)

def syncRows (key : String) : List Blob → SyncStats → SyncRun τ (SyncStats × Option Err)
  | [], stats => pure (stats, stats.err)
  | b :: rows, stats => do
    match ← Action.attempt checkContext with
    | .error e => pure (stats, some e)
    | .ok _ => do
      match ← syncRow T sha256 key b stats with
      | (stats, some e) => pure (stats, some e)
      | (stats, none) => syncRows key rows stats

/-- `Sync`; a target without a key is refused. -/
def Sync (key : String) (inventory : List Blob) : SyncRun τ (SyncStats × Option Err) :=
  if key = "" then pure ({}, some .other) else syncRows T sha256 key inventory {}

end Sync

/-- `Pending`, of the rows of `blobs`. -/
def pending (rows : List Blob) (replicas : String → Option String) (key : String) : ℕ :=
  (rows.filter fun b => replicas b.digest ≠ some key).length

/-! ## The system -/

/-- The files, the acknowledgements, those of the backups that were taken, and the targets by their keys. -/
structure World (τ : Type) where
  store : Store
  replicas : String → Option String
  backups : List (String → Option String) := []
  targets : String → τ

/-- How every operation of `Sync` on the files and the database turns out. -/
abbrev Answers := Oracle SyncReq fun r => Except Err (SyncVal r)

inductive Op
  /-- A run of `Sync` on the target with this key. -/
  | sync (key : String) (inventory : List Blob) (answers : Answers)
  /-- Files are written, removed, damaged or repaired. -/
  | files (store : Store)
  /-- Rows of `blobs` are deleted, with their acknowledgements. -/
  | delete (kept : String → Bool)
  | backup
  /-- The database is restored from one of the backups. -/
  | restore (n : ℕ)

section System

variable {τ : Type} (T : Target τ) (sha256 : Bytes → String)

def World.site (w : World τ) (key : String) : Site τ := ⟨w.store, w.replicas, w.targets key⟩

/-- The site after `Sync`, and what it returned. -/
def World.synced (w : World τ) (key : String) (inventory : List Blob) (answers : Answers) :
    Site τ × Except Err (SyncStats × Option Err) :=
  (eval answers 0 (Sync T sha256 key inventory (w.site key))).2.2

def World.step (w : World τ) : Op → World τ
  | .sync key inventory answers =>
    let site := (w.synced T sha256 key inventory answers).1
    { w with
      store := site.store
      replicas := site.replicas
      targets := fun k => if k = key then site.target else w.targets k }
  | .files store => { w with store }
  | .delete kept => { w with replicas := fun d => if kept d then w.replicas d else none }
  | .backup => { w with backups := w.backups ++ [w.replicas] }
  | .restore n => { w with replicas := w.backups.getD n w.replicas }

end System

/-! ## What is acknowledged is there -/

section Held

variable {τ : Type} {T : Target τ} {objects : τ → String → Option Bytes} {sha256 : Bytes → String}

variable (objects sha256) in
/-- The target has an object with the digest and the size of the row. -/
def Held (b : Blob) (t : τ) : Prop :=
  ∃ content, objects t ("blobs/" ++ b.digest) = some content ∧ sha256 content = b.digest ∧ (content.length : ℤ) = b.size

variable (objects) in
/-- Every object stays. -/
def Keeps (t t' : τ) : Prop := ∀ name old, objects t name = some old → objects t' name = some old

theorem Keeps.refl (t : τ) : Keeps objects t t := fun _ _ => id

theorem Keeps.trans {t t' t'' : τ} (h : Keeps objects t t') (h' : Keeps objects t' t'') : Keeps objects t t'' :=
  fun name old hold => h' name old (h name old hold)

theorem Held.keeps {b : Blob} {t t' : τ} (h : Held objects sha256 b t) (hk : Keeps objects t t') : Held objects sha256 b t' := by
  obtain ⟨content, hcontent, hgood⟩ := h
  exact ⟨content, hk _ _ hcontent, hgood⟩

variable (objects sha256) in
/-- What is acknowledged for a target is held there, in the size of its digest. -/
def Acked (size : String → ℤ) (replicas : String → Option String) (key : String) (t : τ) : Prop :=
  ∀ d, replicas d = some key → Held objects sha256 ⟨d, size d⟩ t

variable {s s' : Site τ} {b : Blob}

/-- The same replicas, and a target that kept its objects. -/
def Stood (objects : τ → String → Option Bytes) (s s' : Site τ) : Prop :=
  s'.store = s.store ∧ s'.replicas = s.replicas ∧ Keeps objects s.target s'.target

theorem Stood.refl (s : Site τ) : Stood objects s s := ⟨rfl, rfl, .refl _⟩

theorem safe_getObject (hT : WriteOnce T objects) (name : String) : Action.Safe (getObject T name)
    (fun u content => Stood objects s u ∧ objects u.target name = some content) (fun u _ => Stood objects s u) s := by
  have hkeeps : Keeps objects s.target (T.get s.target name).1 := hT.get_keeps _ _
  intro t
  cases hget : (T.get s.target name).2 with
  | error e =>
    unfold getObject Action.Wp Interaction.Wp
    rw [hget]
    exact ⟨rfl, rfl, hkeeps⟩
  | ok content =>
    unfold getObject Action.Wp Interaction.Wp
    rw [hget]
    exact ⟨⟨rfl, rfl, hkeeps⟩, hkeeps _ _ (hT.get_ok _ _ _ hget)⟩

theorem safe_putObject (hT : WriteOnce T objects) (name : String) (content : Bytes) : Action.Safe (putObject T name content)
    (fun u out => Stood objects s u ∧ (out = .ok () → objects u.target name = some content)) (fun _ _ => False) s :=
  fun _ => ⟨⟨rfl, rfl, hT.put_keeps _ _ _⟩, hT.put_ok _ _ _⟩

theorem safe_onStore {α : Type} {x : Run α} {Q : α → Prop} {E : Err → Prop} (h : Safe x (fun u a => u = s.store ∧ Q a)
    (fun u e => u = s.store ∧ E e) s.store) : Action.Safe (onStore x) (fun u a => u = s ∧ Q a) (fun u e => u = s ∧ E e) s := by
  refine fun t => Action.wp_within (fun _ _ _ => trivial) (fun _ _ _ _ _ => trivial) (Action.wp_mono (h t) ?_ ?_)
  · rintro u t a ⟨rfl, ha⟩
    exact ⟨rfl, ha⟩
  · rintro u t e ⟨rfl, he⟩
    exact ⟨rfl, he⟩

theorem Stood.trans {s s' s'' : Site τ} (h : Stood objects s s') (h' : Stood objects s' s'') : Stood objects s s'' :=
  ⟨h'.1.trans h.1, h'.2.1.trans h.2.1, h.2.2.trans h'.2.2⟩

/-- An object is accepted only with the size and the digest of the row. -/
theorem safe_verifyExisting (hT : WriteOnce T objects) (hsize : 0 ≤ b.size) : Action.Safe (verifyExisting T sha256 b)
    (fun u _ => Stood objects s u ∧ Held objects sha256 b u.target) (fun u _ => Stood objects s u) s := by
  refine Action.Safe.bind (safe_getObject hT _) (fun _ _ h => h) fun u content ⟨hu, hcontent⟩ => ?_
  dsimp only
  split
  · exact .fail hu
  · next hgood =>
    obtain ⟨hlength, hsha⟩ := not_or.mp hgood
    rw [not_not] at hlength hsha
    have hlen : (content.take (b.size.toNat + 1)).length = min (b.size.toNat + 1) content.length := List.length_take
    -- as many bytes as were asked for would be one more than the size
    have hall : content.take (b.size.toNat + 1) = content := List.take_of_length_le (by omega)
    rw [hall] at hlength hsha
    exact .pure ⟨hu, content, hcontent, hsha, hlength⟩

theorem safe_put (hT : WriteOnce T objects) (hsize : 0 ≤ b.size) : Action.Safe (put T sha256 b)
    (fun u _ => Stood objects s u ∧ Held objects sha256 b u.target) (fun u _ => Stood objects s u) s := by
  have hopen : Action.Safe (onStore (openBlob sha256 b.digest)) (fun u n => u = s ∧
      ∃ content, s.store.files b.digest = some content ∧ sha256 content = b.digest ∧ content.length = n)
      (fun u e => u = s ∧ True) s :=
    safe_onStore (fun t => Action.wp_mono (safe_openBlob b.digest t) (fun _ _ _ h => h) fun _ _ _ h => ⟨h.1, trivial⟩)
  refine Action.Safe.bind hopen (fun u e h => h.1 ▸ Stood.refl u) fun u n ⟨hu, content, hfile, hsha, hn⟩ => ?_
  subst hu
  refine Action.Safe.look ?_
  rw [hfile, Option.getD_some]
  split
  · exact .fail (Stood.refl u)
  · next hlength =>
    rw [not_not] at hlength
    refine Action.Safe.bind (safe_putObject hT _ content) (fun _ _ => False.elim) fun v out ⟨hv, hput⟩ => ?_
    cases out with
    | ok _ => exact .pure ⟨hv, content, hput rfl, hsha, by rw [hn]; exact hlength⟩
    | error e =>
      cases e with
      | «exists» => exact (safe_verifyExisting hT hsize).mono (fun w _ h => ⟨hv.trans h.1, h.2⟩) fun w _ h => hv.trans h
      | other e => exact .fail hv

variable (objects sha256) in
/-- A run leaves the files and the objects there were, and acknowledges what is held. -/
structure Went (size : String → ℤ) (key : String) (s s' : Site τ) : Prop where
  store : s'.store = s.store
  keeps : Keeps objects s.target s'.target
  acks : ∀ d, s'.replicas d = s.replicas d ∨ s'.replicas d = some key ∧ Held objects sha256 ⟨d, size d⟩ s'.target

variable {size : String → ℤ} {key : String}

theorem Stood.went (h : Stood objects s s') : Went objects sha256 size key s s' :=
  ⟨h.1, h.2.2, fun d => .inl (congrFun h.2.1 d)⟩

theorem Went.refl (s : Site τ) : Went objects sha256 size key s s := (Stood.refl s).went

theorem Went.trans {s'' : Site τ} (h : Went objects sha256 size key s s') (h' : Went objects sha256 size key s' s'') :
    Went objects sha256 size key s s'' := by
  refine ⟨h'.store.trans h.store, h.keeps.trans h'.keeps, fun d => ?_⟩
  rcases h'.acks d with hd' | hd'
  · rcases h.acks d with hd | ⟨hd, hheld⟩
    · exact .inl (hd'.trans hd)
    · exact .inr ⟨hd'.trans hd, hheld.keeps h'.keeps⟩
  · exact .inr hd'

theorem Went.acked (h : Went objects sha256 size key s s') (ha : Acked objects sha256 size s.replicas key s.target) :
    Acked objects sha256 size s'.replicas key s'.target := by
  intro d hd
  rcases h.acks d with hold | ⟨-, hheld⟩
  · exact (ha d (hold ▸ hd)).keeps h.keeps
  · exact hheld

/-- An acknowledgement for the key of the run stays. -/
theorem Went.still (h : Went objects sha256 size key s s') {d : String} (hd : s.replicas d = some key) : s'.replicas d = some key := by
  rcases h.acks d with hold | ⟨hnew, -⟩
  · exact hold.trans hd
  · exact hnew

/-- The rows that were counted. -/
def SyncStats.total (stats : SyncStats) : ℕ := stats.uploaded + stats.skipped + stats.failed

theorem total_failure (stats : SyncStats) (code : String) (missing : Bool) :
    (stats.failure code missing).total = stats.total + 1 ∧ (stats.failure code missing).failed = stats.failed + 1 := ⟨rfl, rfl⟩

/-- A row was counted, and acknowledged unless it failed. -/
def RowCounted (key : String) (b : Blob) (stats stats' : SyncStats) (u : Site τ) : Prop :=
  stats'.total = stats.total + 1 ∧ (stats'.failed = stats.failed ∧ valid b = true ∧ u.replicas b.digest = some key ∨
    stats'.failed = stats.failed + 1)

theorem valid_size (h : valid b = true) : 0 ≤ b.size := (of_decide_eq_true h).2.2.1

theorem safe_upload (hT : WriteOnce T objects) (hvalid : valid b = true) (hsized : b.size = size b.digest) (stats : SyncStats) :
    Action.Safe (upload T sha256 key b stats) (fun u stats' => Went objects sha256 size key s u ∧ RowCounted key b stats stats' u)
      (fun _ _ => False) s := by
  refine Action.Safe.try (fun u out => Stood objects s u ∧ (out = .ok () → Held objects sha256 b u.target))
    ((safe_put hT (valid_size hvalid)).mono (fun u _ h => ⟨h.1, fun _ => h.2⟩) fun u e h => ⟨h, nofun⟩) fun u out ⟨hu, hheld⟩ => ?_
  cases out with
  | error e => exact .pure ⟨hu.went, rfl, .inr rfl⟩
  | ok _ =>
    refine Action.Safe.try (fun v out => Went objects sha256 size key s v ∧ (out = .ok () → v.replicas b.digest = some key)) ?_
      fun v out ⟨hv, hacked⟩ => ?_
    · refine Action.Safe.bind (P := fun v _ => v = u) (F := fun v _ => v = u) (.call (fun _ => rfl) fun _ => rfl)
        (fun v e hv => ⟨hv ▸ hu.went, nofun⟩) fun v _ hv => .modify ⟨?_, fun _ => if_pos rfl⟩
      subst hv
      refine ⟨hu.1, hu.2.2, fun d => ?_⟩
      by_cases hd : d = b.digest
      · refine .inr ⟨if_pos hd, ?_⟩
        rw [hd, ← hsized]
        exact hheld rfl
      · exact .inl ((if_neg hd).trans (congrFun hu.2.1 d))
    · cases out with
      | error e => exact .pure ⟨hv, rfl, .inr rfl⟩
      | ok _ =>
        have htotal : ({ stats with uploaded := stats.uploaded + 1 } : SyncStats).total = stats.total + 1 := by
          simp only [SyncStats.total]
          omega
        exact .pure ⟨hv, htotal, .inl ⟨rfl, hvalid, hacked rfl⟩⟩

theorem safe_syncRow (hT : WriteOnce T objects) (hsized : b.size = size b.digest) (stats : SyncStats) :
    Action.Safe (syncRow T sha256 key b stats) (fun u out => Went objects sha256 size key s u ∧
      (out.2 = none → RowCounted key b stats out.1 u)) (fun _ _ => False) s := by
  unfold syncRow
  split
  · exact .pure ⟨.refl s, fun _ => ⟨rfl, .inr rfl⟩⟩
  · next hnot =>
    have hvalid : valid b = true := by simpa using hnot
    refine Action.Safe.try (fun u _ => u = s) (.call (fun _ => rfl) fun _ => rfl) fun u out hu => ?_
    subst hu
    cases out with
    | error e => exact .pure ⟨.refl u, nofun⟩
    | ok _ =>
      refine Action.Safe.look ?_
      split
      · next hdone =>
        have htotal : ({ stats with skipped := stats.skipped + 1 } : SyncStats).total = stats.total + 1 := by
          simp only [SyncStats.total]
          omega
        exact .pure ⟨.refl u, fun _ => ⟨htotal, .inl ⟨rfl, hvalid, of_decide_eq_true hdone⟩⟩⟩
      · refine Action.Safe.bind (safe_upload hT hvalid hsized stats) (fun _ _ => id) fun v stats' ⟨hv, hcounted⟩ => ?_
        exact .pure ⟨hv, fun _ => hcounted⟩

theorem err_none {stats : Stats} (h : stats.err = none) : stats.failed = 0 := by
  unfold Stats.err at h
  split at h
  · cases h
  · next hnot => omega

theorem safe_syncRows (hT : WriteOnce T objects) (rows : List Blob) : ∀ {s : Site τ} (stats : SyncStats),
    (∀ b ∈ rows, b.size = size b.digest) → Action.Safe (syncRows T sha256 key rows stats) (fun u out =>
      Went objects sha256 size key s u ∧ (out.2 = none → stats.failed = 0 ∧ out.1.failed = 0 ∧
        out.1.total = stats.total + rows.length ∧ ∀ b ∈ rows, valid b = true ∧ u.replicas b.digest = some key)) (fun _ _ => False) s := by
  induction rows with
  | nil =>
    intro s stats _
    exact .pure ⟨.refl s, fun herr => ⟨err_none herr, err_none herr, rfl, List.forall_mem_nil _⟩⟩
  | cons b rows ih =>
    intro s stats hsized
    rw [List.forall_mem_cons] at hsized
    refine Action.Safe.try (fun u _ => u = s) (.call (fun _ => rfl) fun _ => rfl) fun u out hu => ?_
    subst hu
    cases out with
    | error e => exact .pure ⟨.refl u, nofun⟩
    | ok _ =>
      refine Action.Safe.bind (safe_syncRow hT hsized.1 stats) (fun _ _ => id) fun v out ⟨hv, hcounted⟩ => ?_
      obtain ⟨stats', err⟩ := out
      cases err with
      | some e => exact .pure ⟨hv, nofun⟩
      | none =>
        refine (ih stats' hsized.2).mono (fun w out ⟨hw, hdone⟩ => ⟨hv.trans hw, fun herr => ?_⟩) fun _ _ => id
        obtain ⟨hfailed, hfinal, htotal, hrows⟩ := hdone herr
        obtain ⟨hone, hrow⟩ := hcounted rfl
        have hzero : stats.failed = 0 ∧ valid b = true ∧ v.replicas b.digest = some key := by
          rcases hrow with ⟨hsame, hacked⟩ | hmore
          · exact ⟨hsame.symm.trans hfailed, hacked⟩
          · exact absurd (hmore.symm.trans hfailed) (Nat.succ_ne_zero _)
        refine ⟨hzero.1, hfinal, ?_, List.forall_mem_cons.mpr ⟨⟨hzero.2.1, hw.still hzero.2.2⟩, hrows⟩⟩
        rw [htotal, hone, List.length_cons]
        omega

theorem safe_Sync (hT : WriteOnce T objects) {inventory : List Blob} (hsized : ∀ b ∈ inventory, b.size = size b.digest) :
    Action.Safe (Sync T sha256 key inventory) (fun u out => Went objects sha256 size key s u ∧ (out.2 = none →
      out.1.uploaded + out.1.skipped = inventory.length ∧ ∀ b ∈ inventory, valid b = true ∧ u.replicas b.digest = some key))
      (fun _ _ => False) s := by
  unfold Sync
  split
  · exact .pure ⟨.refl s, nofun⟩
  · refine (safe_syncRows hT inventory {} hsized).mono (fun u out ⟨hu, hdone⟩ => ⟨hu, fun herr => ?_⟩) fun _ _ => id
    obtain ⟨-, hfailed, htotal, hrows⟩ := hdone herr
    refine ⟨?_, hrows⟩
    have hsum : out.1.uploaded + out.1.skipped + out.1.failed = 0 + inventory.length := htotal
    omega

end Held

/-! ## Runs of the system -/

section Runs

variable {τ : Type} {T : Target τ} {objects : τ → String → Option Bytes} {sha256 : Bytes → String} {size : String → ℤ}

theorem runs_all {α : Type} {R : Type} {V : R → Type} (f : Oracle R V) : ∀ (t : ℕ) (p : Prog R V α),
    Runs (fun _ _ _ _ => True) t p (eval f t p).1 (eval f t p).2.1 (eval f t p).2.2
  | _, .ret _ => .ret
  | t, .ask r k => .ask (Nat.le_refl _) trivial (runs_all f _ (k (f t r).1))

/-- The size of a row is that of its digest. -/
def Sized (size : String → ℤ) (_ : World τ) : Op → Prop
  | .sync _ inventory _ => ∀ b ∈ inventory, b.size = size b.digest
  | _ => True

variable (objects sha256 size) in
/-- Whatever is acknowledged in the database or in a backup of it is held. -/
def World.Kept (w : World τ) : Prop :=
  ∀ replicas ∈ w.replicas :: w.backups, ∀ key, Acked objects sha256 size replicas key (w.targets key)

variable (sha256 size) in
theorem synced_spec (hT : WriteOnce T objects) (w : World τ) (key : String) {inventory : List Blob} (answers : Answers)
    (hsized : ∀ b ∈ inventory, b.size = size b.digest) :
    Went objects sha256 size key (w.site key) (w.synced T sha256 key inventory answers).1 ∧
      ∀ stats, (w.synced T sha256 key inventory answers).2 = .ok (stats, none) →
        stats.uploaded + stats.skipped = inventory.length ∧
          ∀ b ∈ inventory, valid b = true ∧ (w.synced T sha256 key inventory answers).1.replicas b.digest = some key := by
  have hruns := (safe_Sync hT hsized).runs (runs_all answers 0 (Sync T sha256 key inventory (w.site key)))
  rw [show (eval answers 0 (Sync T sha256 key inventory (w.site key))).2.2 = w.synced T sha256 key inventory answers from rfl] at hruns
  cases hout : (w.synced T sha256 key inventory answers).2 with
  | error e =>
    rw [hout] at hruns
    exact hruns.elim
  | ok out =>
    rw [hout] at hruns
    refine ⟨hruns.1, fun stats hstats => ?_⟩
    cases hstats
    exact hruns.2 rfl

/-- No step loses an object. -/
theorem keeps_step (hT : WriteOnce T objects) {w : World τ} {op : Op} (hsized : Sized size w op) (key : String) :
    Keeps objects (w.targets key) ((w.step T sha256 op).targets key) := by
  cases op with
  | sync key' inventory answers =>
    have hwent := (synced_spec sha256 size hT w key' answers hsized).1
    rw [World.step]
    dsimp only
    split
    · next hkey =>
      subst hkey
      exact hwent.keeps
    · exact .refl _
  | files store | delete kept | backup | restore n => exact .refl _

theorem kept_step (hT : WriteOnce T objects) {w : World τ} {op : Op} (hk : w.Kept objects sha256 size) (hsized : Sized size w op) :
    (w.step T sha256 op).Kept objects sha256 size := by
  have hcurrent : ∀ key, Acked objects sha256 size w.replicas key (w.targets key) := hk _ List.mem_cons_self
  have hkeeps : ∀ key, Keeps objects (w.targets key) ((w.step T sha256 op).targets key) := keeps_step hT hsized
  cases op with
  | sync key' inventory answers =>
    have hwent := (synced_spec sha256 size hT w key' answers hsized).1
    refine List.forall_mem_cons.mpr ⟨fun key d hd => ?_, fun replicas hr key d hd => ?_⟩
    · rcases hwent.acks d with hold | ⟨hnew, hheld⟩
      · exact (hcurrent key d (hold.symm.trans hd)).keeps (hkeeps key)
      · have hkey : key = key' := Option.some.inj (hd.symm.trans hnew)
        subst hkey
        have htarget : (w.step T sha256 (.sync key inventory answers)).targets key =
            (w.synced T sha256 key inventory answers).1.target := if_pos rfl
        rw [htarget]
        exact hheld
    · exact (hk replicas (List.mem_cons_of_mem _ hr) key d hd).keeps (hkeeps key)
  | files store => exact hk
  | delete kept =>
    refine List.forall_mem_cons.mpr ⟨fun key d hd => ?_, fun replicas hr => hk replicas (List.mem_cons_of_mem _ hr)⟩
    dsimp only [World.step] at hd
    split at hd
    · exact hcurrent key d hd
    · cases hd
  | backup =>
    refine List.forall_mem_cons.mpr ⟨hcurrent, fun replicas hr => ?_⟩
    rcases List.mem_append.mp hr with hr | hr
    · exact hk replicas (List.mem_cons_of_mem _ hr)
    · exact List.mem_singleton.mp hr ▸ hcurrent
  | restore n =>
    refine List.forall_mem_cons.mpr ⟨?_, fun replicas hr => hk replicas (List.mem_cons_of_mem _ hr)⟩
    dsimp only [World.step]
    rw [List.getD_eq_getElem?_getD]
    cases hn : w.backups[n]? with
    | none => exact hcurrent
    | some replicas => exact hk replicas (List.mem_cons_of_mem _ (List.mem_of_getElem? hn))

/-- Once a `Sync` returned without an error it has counted every row as uploaded or skipped, each is valid and none is pending, and
its target has an object with the digest and the size of each row from then on. -/
theorem synced_stays (hT : WriteOnce T objects) {w : World τ} (hnone : ∀ replicas ∈ w.replicas :: w.backups, ∀ d, replicas d = none)
    {as bs : List Op} {key : String} {inventory : List Blob} {answers : Answers}
    (h : Along (World.step T sha256) (Sized size) w (as ++ .sync key inventory answers :: bs)) {stats : SyncStats}
    (hok : ((run (World.step T sha256) w as).synced T sha256 key inventory answers).2 = .ok (stats, none)) :
    stats.uploaded + stats.skipped = inventory.length ∧
      pending inventory (run (World.step T sha256) w (as ++ [.sync key inventory answers])).replicas key = 0 ∧
      ∀ b ∈ inventory, valid b = true ∧
        Held objects sha256 b ((run (World.step T sha256) w (as ++ .sync key inventory answers :: bs)).targets key) := by
  have hstart : w.Kept objects sha256 size := by
    intro replicas hr key d hd
    rw [hnone replicas hr d] at hd
    cases hd
  rw [along_append] at h
  obtain ⟨has, hsync, hbs⟩ := h
  have hbefore : (run (World.step T sha256) w as).Kept objects sha256 size :=
    run_inv_of (fun _ _ hk hsized => kept_step hT hk hsized) has hstart
  have hafter := kept_step hT hbefore hsync
  obtain ⟨-, hcounts⟩ := synced_spec sha256 size hT (run (World.step T sha256) w as) key answers hsync
  obtain ⟨hlength, hacked⟩ := hcounts stats hok
  refine ⟨hlength, ?_, fun b hb => ⟨(hacked b hb).1, ?_⟩⟩
  · rw [run_concat, pending, List.length_eq_zero_iff, List.filter_eq_nil_iff]
    intro b hb
    rw [decide_eq_true_eq, not_not]
    exact (hacked b hb).2
  · have hheld : Held objects sha256 ⟨b.digest, size b.digest⟩
        (((run (World.step T sha256) w as).step T sha256 (.sync key inventory answers)).targets key) :=
      hafter _ List.mem_cons_self key b.digest (hacked b hb).2
    rw [← hsync b hb] at hheld
    rw [run_append, run_cons]
    exact run_inv_of (P := fun w => Held objects sha256 b (w.targets key)) (fun _ _ hk hsized => hk.keeps (keeps_step hT hsized key))
      hbs hheld

end Runs

end KyNotes.Mirror
