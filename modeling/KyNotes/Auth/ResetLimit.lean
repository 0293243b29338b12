import KyNotes.Auth.Effects
import KyNotes.Server.Accounts
import KyNotes.Lib.Run

/-!
# The limit of identity resets (`httpapi/identity_routes.go`)

`PUT /me/identity` statement by statement. A transaction begins with the writer lock, so it is alone with the rows, and the clock
goes on while it runs; each statement, and the commit, may fail.
-/

namespace KyNotes.Auth.Resets

open Relational Check Transition

/-- The rows of an account in both views of the database. -/
structure Tables where
  db : Db
  keys : KeyTables

inductive Fault
  | refused (e : Err)
  | keys (e : KyNotes.Err)
  /-- A statement or the commit fails. -/
  | failed

/-- A transaction, with the rows as far as it has come. -/
abbrev Tx := EStateM Fault Tables

def store (ok : Bool) (f : Tables → Except Fault Tables) : Tx Unit := fun t =>
  match ok, f t with
  | true, .ok t' => .ok () t'
  | true, .error e => .error e t
  | false, _ => .error .failed t

def exec (ok : Bool) (f : Tables → Tables) : Tx Unit := store ok fun t => .ok (f t)

def check (ok : Bool) (f : Tables → Except Err Unit) : Tx Unit :=
  store ok fun t => ((f t).mapError Fault.refused).map fun _ => t

/-- `dbTx`: a transaction that does not end well, or whose commit fails, is rolled back. -/
def dbTx (commit : Bool) (tx : Tx Unit) (t : Tables) : Tables × Except Fault Unit :=
  match tx t with
  | .ok () t' => if commit then (t', .ok ()) else (t, .error .failed)
  | .error e _ => (t, .error e)

/-! ## The request -/

/-- A request with what the server draws for it. -/
structure Request where
  session : Session
  put : IdentityPut
  deviceId : DeviceId
  recoveryId : RecoveryId
  unusable : String
  /-- The time of the rows that it writes, read before its transaction. -/
  prepared : Time
  /-- How long it is to the start of the transaction, from there to the count, and from there to the audit row. -/
  begins : Time
  counts : Time
  records : Time
  /-- Which of its statements succeed. -/
  ok : Nat → Bool

namespace Request

variable (r : Request) (clock : Time)

def sso : Bool := r.session.ssoIssuer ≠ ""

def beganAt : Time := clock + r.begins

def countedAt : Time := r.beganAt clock + r.counts

def recordedAt : Time := r.countedAt clock + r.records

end Request

/-- The rows that `checkResetLimitTx` counts: `now.Add(-24*time.Hour)` is before 1970 in the first day. -/
def resetsSince (db : Db) (userId : UserId) (now : Time) : Nat :=
  db.resets.countP fun a => a.userId = userId ∧ ((now : ℤ) - day) / second < a.createdAt

def checkResetLimitTx (db : Db) (userId : UserId) (now : Time) : Except Err Unit :=
  require (resetsSince db userId now < identityResetsPerDay) .resetLimit

section
variable (cfg : Config) (mark : Digest → Nat) (r : Request) (clock : Time)

/-- A local session sends a password copy exactly when the account is not linked. -/
def checkWrap : Tx Unit :=
  if r.sso = false then check (r.ok 1) fun t => do
    let u ← fetch (t.db.users.get r.session.userId) .noRows
    require ((u.ssoSubject ≠ "") ↔ r.put.wrapAlg = deviceOnlyWrapAlg) (.resetWrap (u.ssoSubject ≠ ""))
  else pure ()

/-- What goes when the identity is replaced. -/
def resetTx : Tx Unit := do
  checkWrap r
  check (r.ok 2) fun t => checkResetLimitTx t.db r.session.userId (r.countedAt clock)
  check (r.ok 3) fun t =>
    require (r.put.expectedDeviceId = some ((t.db.identities.get r.session.userId).map Identity.deviceId)) .recoveryMoved
  exec (r.ok 4) fun t =>
    { t with
      db := revokeSessions t.db (fun x => x.userId = r.session.userId ∧ x.id ≠ r.session.id ∧ x.revokedAt = none) r.prepared }
  exec (r.ok 5) fun t =>
    { db := revokeDevices t.db
        (fun d => d.userId = r.session.userId ∧ d.platform ≠ identityPlatform ∧ d.revokedAt = none) r.prepared
      keys := KyNotes.revokeDevices t.keys (fun d => d.userId = r.session.userId) (format r.prepared) }
  exec (r.ok 6) fun t => { t with keys := deleteDeviceEnvelopes t.keys r.session.userId }
  exec (r.ok 7) fun t => { t with keys := retireKeysTx t.keys r.session.userId }
  store (r.ok 8) fun t =>
    if ∃ d ∈ t.db.devices, d.userId = r.session.userId ∧ d.platform = identityPlatform ∧ d.fingerprint = cfg.sha256 r.put.publicKey
    then .error (.refused .identityExists)
    else .ok ⟨deleteIdentity t.db r.session.userId, KyNotes.deleteIdentityTx t.keys r.session.userId⟩

/-- The rows of the new identity. -/
def createTx : Tx Unit :=
  store (r.ok 9) fun t => do
    let fp := cfg.sha256 r.put.publicKey
    let db ← (insertIdentity t.db r.session r.put fp r.deviceId r.recoveryId r.unusable).mapError Fault.refused
    let keys ← (KyNotes.insertIdentity t.keys r.session.userId r.deviceId (mark fp)).mapError Fault.keys
    pure ⟨db, keys⟩

/-- The audit row; that of a reset is one that is counted. -/
def recordTx : Tx Unit :=
  exec (r.ok 10) fun t =>
    if r.put.replace = true then
      { t with db := { t.db with resets := t.db.resets ++ [⟨r.session.userId, format (r.recordedAt clock)⟩] } }
    else t

def replaceTx : Tx Unit := if r.put.replace = true then resetTx cfg r clock else pure ()

def identityTx : Tx Unit := do
  check (r.ok 0) fun t => recheckUserActionTx t.db r.session (r.beganAt clock)
  replaceTx cfg r clock
  createTx cfg mark r
  recordTx r clock

/-- `PUT /me/identity`. -/
def answer (t : Tables) : Tables × Except Fault Unit :=
  if r.put.wellFormed r.sso then dbTx (r.ok 11) (identityTx cfg mark r clock) t else (t, .error (.refused .invalidRequest))

end

/-! ## Runs -/

structure Server where
  tables : Tables
  clock : Time

inductive Event
  | put (r : Request)
  /-- Another transaction, some time later. It writes no audit row of a reset, and none is ever removed. -/
  | other (wait : Time) (f : Tables → Tables) (keeps : ∀ t, (f t).db.resets = t.db.resets)

section
variable (cfg : Config) (mark : Digest → Nat)

def serve (w : Server) : Event → Server
  | .put r => ⟨(answer cfg mark r w.clock w.tables).1, r.recordedAt w.clock⟩
  | .other wait f _ => ⟨f w.tables, w.clock + wait⟩

/-- The reset that an event commits, with the second of its audit row. -/
def resetOf (w : Server) : Event → List ResetAudit
  | .put r =>
    match (answer cfg mark r w.clock w.tables).2 with
    | .ok () => if r.put.replace = true then [⟨r.session.userId, format (r.recordedAt w.clock)⟩] else []
    | .error _ => []
  | .other .. => []

/-- The resets that the run has committed. -/
def resets (w : Server) (events : List Event) : List ResetAudit :=
  (run (logged (serve cfg mark) (resetOf cfg mark)) (w, []) events).2

end

/-! ## Statements -/

section
variable {cfg : Config} {mark : Digest → Nat} {r : Request} {clock : Time} {t t' : Tables}

theorem tx_bind {x : Tx Unit} {f : Unit → Tx Unit} (h : (x >>= f) t = .ok () t') :
    ∃ t₁, x t = .ok () t₁ ∧ f () t₁ = .ok () t' := by
  change EStateM.bind x f t = _ at h
  unfold EStateM.bind at h
  split at h
  · rename_i u t₁ hx
    exact ⟨t₁, hx, h⟩
  · cases h

theorem store_ok {ok : Bool} {f : Tables → Except Fault Tables} (h : store ok f t = .ok () t') : f t = .ok t' := by
  unfold store at h
  split at h
  · rename_i hf
    injection h with _ h
    exact h ▸ hf
  · cases h
  · cases h

theorem exec_ok {ok : Bool} {f : Tables → Tables} (h : exec ok f t = .ok () t') : t' = f t := by
  have hf : (Except.ok (f t) : Except Fault Tables) = .ok t' := store_ok (f := fun t => .ok (f t)) h
  exact (Except.ok.inj hf).symm

theorem check_ok {ok : Bool} {f : Tables → Except Err Unit} (h : check ok f t = .ok () t') : f t = .ok () ∧ t' = t := by
  have hf := store_ok h
  cases hx : f t with
  | ok _ =>
    rw [hx] at hf
    exact ⟨rfl, (Except.ok.inj hf).symm⟩
  | error e =>
    rw [hx] at hf
    cases hf

theorem checkWrap_ok (h : checkWrap r t = .ok () t') : t' = t ∧ (r.sso = false → ∃ u, t.db.users.get r.session.userId = some u ∧
    ((u.ssoSubject ≠ "") ↔ r.put.wrapAlg = deviceOnlyWrapAlg)) := by
  unfold checkWrap at h
  split at h
  · obtain ⟨hwrap, rfl⟩ := check_ok h
    obtain ⟨u, hu, hkind⟩ := bind_ok.mp hwrap
    exact ⟨rfl, fun _ => ⟨u, fetch_ok.mp hu, require_ok.mp hkind⟩⟩
  · rename_i hsso
    injection h with _ h
    exact ⟨h.symm, fun h => absurd h hsso⟩

/-- What a replacement that goes through has checked, and what it leaves of the account. -/
structure Replaced (cfg : Config) (r : Request) (clock : Time) (db db' : Db) : Prop where
  wrap : r.sso = false → ∃ u, db.users.get r.session.userId = some u ∧
    ((u.ssoSubject ≠ "") ↔ r.put.wrapAlg = deviceOnlyWrapAlg)
  limit : resetsSince db r.session.userId (r.countedAt clock) < identityResetsPerDay
  expected : r.put.expectedDeviceId = some ((db.identities.get r.session.userId).map Identity.deviceId)
  fresh : ∀ d ∈ (revokeDevices db
      (fun d => d.userId = r.session.userId ∧ d.platform ≠ identityPlatform ∧ d.revokedAt = none) r.prepared).devices,
    d.userId = r.session.userId → d.platform = identityPlatform → d.fingerprint ≠ cfg.sha256 r.put.publicKey
  left : db' = { afterReset db r.session r.prepared with resets := db.resets }

theorem resetTx_ok (h : resetTx cfg r clock t = .ok () t') : Replaced cfg r clock t.db t'.db := by
  obtain ⟨t₁, hwrap, h₁⟩ := tx_bind h
  obtain ⟨rfl, hwrap⟩ := checkWrap_ok hwrap
  obtain ⟨t₂, hlimit, h₂⟩ := tx_bind h₁
  obtain ⟨hlimit, rfl⟩ := check_ok hlimit
  obtain ⟨t₃, hexpected, h₃⟩ := tx_bind h₂
  obtain ⟨hexpected, rfl⟩ := check_ok hexpected
  obtain ⟨t₄, hsessions, h₄⟩ := tx_bind h₃
  obtain rfl := exec_ok hsessions
  obtain ⟨t₅, hdevices, h₅⟩ := tx_bind h₄
  obtain rfl := exec_ok hdevices
  obtain ⟨t₆, henvelopes, h₆⟩ := tx_bind h₅
  obtain rfl := exec_ok henvelopes
  obtain ⟨t₇, hretired, h₇⟩ := tx_bind h₆
  obtain rfl := exec_ok hretired
  have hdeleted := store_ok h₇
  dsimp only at hdeleted
  split at hdeleted
  · cases hdeleted
  · rename_i hfresh
    obtain rfl := Except.ok.inj hdeleted
    exact {
      wrap := hwrap
      limit := require_ok.mp hlimit
      expected := require_ok.mp hexpected
      fresh := fun d hd hmine hplatform hfp => hfresh ⟨d, hd, hmine, hplatform, hfp⟩
      left := rfl }

theorem createTx_ok (h : createTx cfg mark r t = .ok () t') :
    insertIdentity t.db r.session r.put (cfg.sha256 r.put.publicKey) r.deviceId r.recoveryId r.unusable = .ok t'.db := by
  obtain ⟨db, hdb, hrest⟩ := bind_ok.mp (store_ok h)
  obtain ⟨keys, -, hpure⟩ := bind_ok.mp hrest
  obtain rfl := pure_ok.mp hpure
  exact mapError_ok.mp hdb

/-- The counted rows have no part in the new identity. -/
theorem insertIdentity_resets {db db' : Db} {s : Session} {p : IdentityPut} {fp : Digest} {deviceId : DeviceId}
    {recoveryId : RecoveryId} {unusable : String} (h : insertIdentity db s p fp deviceId recoveryId unusable = .ok db')
    (resets : List ResetAudit) : db'.resets = db.resets ∧
      insertIdentity { db with resets := resets } s p fp deviceId recoveryId unusable = .ok { db' with resets := resets } := by
  obtain ⟨htaken, huser, devices, identities, hdevices, hidentities, rfl⟩ := insertIdentity_ok h
  refine ⟨rfl, ?_⟩
  simp only [insertIdentity, bind_ok, fetch_ok, require_ok, pure_ok]
  exact ⟨(), htaken, (), huser, devices, hdevices, identities, hidentities, rfl⟩

/-- The counted row that a request adds. -/
def Request.row (r : Request) (clock : Time) : List ResetAudit :=
  if r.put.replace = true then [⟨r.session.userId, format (r.recordedAt clock)⟩] else []

/-- A committed request added its row, and its count was below the limit. -/
theorem identityTx_ok (h : identityTx cfg mark r clock t = .ok () t') :
    t'.db.resets = t.db.resets ++ r.row clock ∧
      (r.put.replace = true → resetsSince t.db r.session.userId (r.countedAt clock) < identityResetsPerDay) := by
  obtain ⟨t₁, hrecheck, h₁⟩ := tx_bind h
  obtain ⟨-, rfl⟩ := check_ok hrecheck
  obtain ⟨t₂, hreset, h₂⟩ := tx_bind h₁
  obtain ⟨t₃, hcreate, h₃⟩ := tx_bind h₂
  have hcreated := (insertIdentity_resets (createTx_ok hcreate) []).1
  obtain rfl := exec_ok h₃
  by_cases hreplace : r.put.replace = true
  · rw [replaceTx, if_pos hreplace] at hreset
    have hreplaced := resetTx_ok hreset
    rw [hreplaced.left] at hcreated
    rw [if_pos hreplace, Request.row, if_pos hreplace]
    exact ⟨by rw [hcreated], fun _ => hreplaced.limit⟩
  · rw [replaceTx, if_neg hreplace] at hreset
    injection hreset with _ hreset
    rw [if_neg hreplace, Request.row, if_neg hreplace, List.append_nil, hcreated, ← hreset]
    exact ⟨rfl, fun h => absurd h hreplace⟩

theorem answer_error {e : Fault} (h : (answer cfg mark r clock t).2 = .error e) : (answer cfg mark r clock t).1 = t := by
  unfold answer dbTx at h ⊢
  split
  · rename_i hform
    rw [if_pos hform] at h
    split
    · rename_i hcommit
      rw [hcommit] at h
      dsimp only at h
      split
      · rename_i hok
        rw [if_pos hok] at h
        cases h
      · rfl
    · rfl
  · rfl

theorem answer_ok (h : (answer cfg mark r clock t).2 = .ok ()) :
    identityTx cfg mark r clock t = .ok () (answer cfg mark r clock t).1 := by
  unfold answer dbTx at h ⊢
  split
  · rename_i hform
    rw [if_pos hform] at h
    split
    · rename_i t' hcommit
      rw [hcommit] at h
      dsimp only at h
      split
      · exact hcommit
      · rename_i hok
        rw [if_neg hok] at h
        cases h
    · rename_i e t' hfail
      rw [hfail] at h
      cases h
  · rename_i hform
    rw [if_neg hform] at h
    cases h

theorem resetsSince_eq {db : Db} {userId : UserId} {now : Time} (h : day ≤ now) :
    resetsSince db userId now = resetsToday db userId now := by
  have hformat : ((now : ℤ) - day) / second = (format (now - day) : ℕ) := by
    rw [format, Int.natCast_ediv, Int.ofNat_sub h]
  simp only [resetsSince, resetsToday, hformat, Int.ofNat_lt]

/-- At one time, a request that is answered has changed the account as the transaction of the sign-in system does. -/
theorem answer_refines (hprepared : r.prepared = clock) (hbegins : r.begins = 0) (hcounts : r.counts = 0)
    (hrecords : r.records = 0) (hday : day ≤ clock) (h : (answer cfg mark r clock t).2 = .ok ()) :
    putIdentity cfg t.db r.session r.put r.deviceId r.recoveryId r.unusable clock =
      .ok (answer cfg mark r clock t).1.db := by
  have hform : r.put.wellFormed r.sso := by
    by_contra hform
    rw [answer, if_neg hform] at h
    cases h
  have hbegan : r.beganAt clock = clock := by rw [Request.beganAt, hbegins, Nat.add_zero]
  have hcounted : r.countedAt clock = clock := by rw [Request.countedAt, hbegan, hcounts, Nat.add_zero]
  have hrecorded : r.recordedAt clock = clock := by rw [Request.recordedAt, hcounted, hrecords, Nat.add_zero]
  obtain ⟨t₁, hrecheck, h₁⟩ := tx_bind (answer_ok h)
  obtain ⟨hrecheck, rfl⟩ := check_ok hrecheck
  obtain ⟨t₂, hreset, h₂⟩ := tx_bind h₁
  obtain ⟨t₃, hcreate, h₃⟩ := tx_bind h₂
  have hcreate := createTx_ok hcreate
  rw [exec_ok h₃, hrecorded]
  rw [hbegan] at hrecheck
  simp only [putIdentity, bind_ok, require_ok]
  refine ⟨(), hform, (), hrecheck, ?_⟩
  by_cases hreplace : r.put.replace = true
  · rw [replaceTx, if_pos hreplace] at hreset
    rw [if_pos hreplace, if_pos hreplace]
    obtain ⟨hwrap, hlimit, hexpected, hfresh, hleft⟩ := resetTx_ok hreset
    rw [hcounted, resetsSince_eq hday] at hlimit
    rw [hprepared] at hfresh hleft
    have hreset : resetIdentity t₁.db r.session r.put (cfg.sha256 r.put.publicKey) clock =
        .ok (afterReset t₁.db r.session clock) := by
      simp only [resetIdentity, bind_ok, require_ok, pure_ok]
      exact ⟨(), hlimit, (), hexpected, (), hfresh, rfl⟩
    have hinsert : insertIdentity (afterReset t₁.db r.session clock) r.session r.put (cfg.sha256 r.put.publicKey) r.deviceId
        r.recoveryId r.unusable =
          .ok { t₃.db with resets := t₃.db.resets ++ [⟨r.session.userId, format clock⟩] } := by
      have hrows : t₃.db.resets = t₁.db.resets := by rw [(insertIdentity_resets hcreate []).1, hleft]
      have hi := (insertIdentity_resets hcreate (t₁.db.resets ++ [⟨r.session.userId, format clock⟩])).2
      rw [hleft] at hi
      rw [hrows]
      exact hi
    by_cases hsso : decide (r.session.ssoIssuer ≠ "") = false
    · obtain ⟨u, hu, hkind⟩ := hwrap hsso
      rw [if_pos hsso]
      simp only [bind_ok, fetch_ok, require_ok]
      exact ⟨u, hu, (), hkind, _, hreset, hinsert⟩
    · rw [if_neg hsso]
      exact bind_ok.mpr ⟨_, hreset, hinsert⟩
  · rw [replaceTx, if_neg hreplace] at hreset
    injection hreset with _ hreset
    rw [if_neg hreplace, if_neg hreplace, hreset]
    exact hcreate

end

/-! ## The limit -/

/-- A committed reset of the account in the day that starts at a second. -/
def InDay (userId : UserId) (start : Stamp) (a : ResetAudit) : Prop :=
  a.userId = userId ∧ start ≤ a.createdAt ∧ a.createdAt < start + format day

instance (userId : UserId) (start : Stamp) : DecidablePred (InDay userId start) := fun _ =>
  inferInstanceAs (Decidable (_ ∧ _ ∧ _))

theorem since_of_inDay_nanos {counted recorded start created : ℕ} (hle : counted ≤ recorded)
    (hrecorded : recorded / 1000000000 < start + 86400) (hcreated : start ≤ created) :
    ((counted : ℤ) - 86400 * 1000000000) / 1000000000 < created := by
  omega

/-- A day that the new row is in starts after what the count leaves out. -/
theorem since_of_inDay {counted recorded : Time} {start created : Stamp} (hle : counted ≤ recorded)
    (hrecorded : format recorded < start + format day) (hcreated : start ≤ created) :
    ((counted : ℤ) - day) / second < created := by
  have hday : format day = 86400 := rfl
  rw [hday] at hrecorded
  exact since_of_inDay_nanos hle hrecorded hcreated

variable {cfg : Config} {mark : Digest → Nat}

/-- The committed resets are rows that the next request counts, and no day has more than three. -/
structure Limited (w : Server) (log : List ResetAudit) : Prop where
  stored : log.Sublist w.tables.db.resets
  few : ∀ userId start, log.countP (InDay userId start) ≤ identityResetsPerDay

theorem Limited.put {w : Server} {log : List ResetAudit} (h : Limited w log) (r : Request) :
    Limited (serve cfg mark w (.put r)) (log ++ resetOf cfg mark w (.put r)) := by
  cases hanswer : (answer cfg mark r w.clock w.tables).2 with
  | error e =>
    have hsame := answer_error hanswer
    simp only [resetOf, hanswer, List.append_nil, serve]
    exact ⟨by rw [hsame]; exact h.stored, h.few⟩
  | ok _ =>
    obtain ⟨hresets, hcount⟩ := identityTx_ok (answer_ok hanswer)
    have hlog : resetOf cfg mark w (.put r) = r.row w.clock := by
      simp only [resetOf, hanswer]
      rfl
    rw [hlog]
    refine ⟨?_, fun userId start => ?_⟩
    · have hstored := h.stored.append (List.Sublist.refl (r.row w.clock))
      rw [← hresets] at hstored
      exact hstored
    · rw [List.countP_append]
      by_cases hreplace : r.put.replace = true
      · rw [Request.row, if_pos hreplace, List.countP_singleton]
        split
        · rename_i hin
          obtain ⟨huser, -, hbefore⟩ := of_decide_eq_true hin
          -- the transaction counted every reset of that day
          have hcounted : log.countP (InDay userId start) ≤ resetsSince w.tables.db r.session.userId (r.countedAt w.clock) := by
            calc log.countP (InDay userId start)
                ≤ w.tables.db.resets.countP (InDay userId start) := h.stored.countP_le
              _ ≤ resetsSince w.tables.db r.session.userId (r.countedAt w.clock) := by
                refine List.countP_mono_left fun a _ ha => ?_
                obtain ⟨hmine, hstart, -⟩ := of_decide_eq_true ha
                exact decide_eq_true ⟨hmine.trans huser.symm, since_of_inDay (Nat.le_add_right _ _) hbefore hstart⟩
          exact Nat.succ_le_of_lt (Nat.lt_of_le_of_lt hcounted (hcount hreplace))
        · exact h.few userId start
      · rw [Request.row, if_neg hreplace]
        exact h.few userId start

theorem Limited.step {w : Server} {log : List ResetAudit} (h : Limited w log) :
    ∀ e, Limited (serve cfg mark w e) (log ++ resetOf cfg mark w e)
  | .put r => h.put r
  | .other wait f keeps => by
    rw [resetOf, List.append_nil]
    refine ⟨?_, h.few⟩
    rw [serve, keeps]
    exact h.stored

/-- In every run, from any rows, an account commits at most three resets in any 24 hours, and a reset that is refused or fails
leaves all rows as they were. -/
theorem resets_limited (cfg : Config) (mark : Digest → Nat) (w : Server) (events : List Event) :
    (∀ userId start, (resets cfg mark w events).countP (InDay userId start) ≤ identityResetsPerDay) ∧
      ∀ before r e, before ++ [Event.put r] <+: events →
        (answer cfg mark r (run (serve cfg mark) w before).clock (run (serve cfg mark) w before).tables).2 = .error e →
          (run (serve cfg mark) w (before ++ [.put r])).tables = (run (serve cfg mark) w before).tables := by
  refine ⟨fun userId start => ?_, fun before r e _ he => ?_⟩
  · have hrun : Limited (run (logged (serve cfg mark) (resetOf cfg mark)) (w, []) events).1
        (run (logged (serve cfg mark) (resetOf cfg mark)) (w, []) events).2 :=
      run_inv (P := fun x : Server × List ResetAudit => Limited x.1 x.2) (fun x e hx => hx.step e) events
        ⟨List.nil_sublist _, fun _ _ => Nat.zero_le _⟩
    exact hrun.few userId start
  · rw [run_concat]
    exact answer_error he

end KyNotes.Auth.Resets
