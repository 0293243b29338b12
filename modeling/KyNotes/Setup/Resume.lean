import KyNotes.Setup.OneTransfer
import KyNotes.Setup.Receipts

/-!
# A later call completes the transfer

What a call does whose operations succeed and that no other call interrupts: with the receipt of its frame on disk it
publishes the credentials that are missing, and nothing else (`call_alone`). `import_one_transfer` says what calls do in
every run.
-/

namespace KyNotes.Setup

open EventLoop Check

/-- Every operation succeeds. -/
def success : ∀ op : Op, Except String op.Val
  | .readBundle | .stage | .lstat _ | .read _ => .ok ()
  | .store _ _ => .ok true

section Alone

variable {P : Prepared} {c : Call} {d : Disk} {path : String} {expected : Bytes}

theorem io_alone (op : Op) : (io c op).alone success d = (d, success op) := by
  cases op <;> rfl

theorem lstatMissing_alone : (lstatMissing c path).alone success d = (d, .ok (d.files path).isNone) := rfl

theorem readCapped_alone {raw : Bytes} (h : d.files path = some raw) (hlen : raw.length ≤ maxBundleBytes) :
    (readCapped c path).alone success d = (d, .ok raw) := by
  have hread : (Async.read (fun d : Disk => d.files path) : Io (Option Bytes)).alone success d = (d, .ok (some raw)) :=
    congrArg (fun content => (d, Except.ok content)) h
  refine (Async.alone_bind (io_alone (.read path))).trans ((Async.alone_bind hread).trans ?_)
  dsimp only
  rw [if_neg (Nat.not_lt.mpr hlen)]
  rfl

theorem importFilePresent_none (h : d.files path = none) :
    (importFilePresent c path expected).alone success d = (d, .ok false) := by
  refine (Async.alone_bind lstatMissing_alone).trans ?_
  rw [h]
  rfl

theorem importFilePresent_some (h : d.files path = some expected) (hlen : expected.length ≤ maxBundleBytes) :
    (importFilePresent c path expected).alone success d = (d, .ok true) := by
  refine (Async.alone_bind lstatMissing_alone).trans ?_
  have hread : (readCapped c path).attempt.alone success d = (d, .ok (.ok expected)) := by
    rw [Async.alone_attempt, readCapped_alone h hlen]
  rw [h]
  refine (Async.alone_bind hread).trans ?_
  dsimp only
  rw [if_pos rfl]
  rfl

theorem publishImportFile_none (h : d.files path = none) :
    (publishImportFile c path expected).alone success d = (d.publish c path expected, .ok ()) := by
  have hio : (io c (.store path expected)).attempt.alone success d = (d, .ok (.ok true)) := by
    rw [Async.alone_attempt, io_alone]
    rfl
  have hpublish : (Async.exchange (fun d => d.publish c path expected) fun d => (d.files path).isSome : Io Bool).alone success d =
      (d.publish c path expected, .ok false) := by
    have hnone : (d.files path).isSome = false := by rw [h]; rfl
    exact congrArg (fun present => (d.publish c path expected, Except.ok present)) hnone
  have hstore : (keyfileStore c path expected).alone success d = (d.publish c path expected, .ok .stored) :=
    (Async.alone_bind hio).trans (Async.alone_bind hpublish)
  exact Async.alone_bind hstore

/-- With the receipt on disk, the files that are not there are missing. -/
theorem missingFiles_alone : ∀ (files : List (String × Bytes)),
    (∀ f ∈ files, (d.files f.1 = none ∨ d.files f.1 = some f.2) ∧ f.2.length ≤ maxBundleBytes) →
    (missingFiles c true files).alone success d = (d, .ok (files.filter fun f => (d.files f.1).isNone))
  | [], _ => rfl
  | f :: files, h => by
    rw [List.forall_mem_cons] at h
    have hrest := missingFiles_alone files h.2
    have hpresent : (importFilePresent c f.1 f.2).attempt.alone success d = (d, .ok (.ok (d.files f.1).isSome)) := by
      rw [Async.alone_attempt]
      rcases h.1.1 with hf | hf
      · rw [importFilePresent_none hf, hf]
        rfl
      · rw [importFilePresent_some hf h.1.2, hf]
        rfl
    refine (Async.alone_bind hpresent).trans ?_
    dsimp only
    rw [if_neg (by simp)]
    refine (Async.alone_bind hrest).trans ?_
    cases hf : d.files f.1 with
    | none =>
      rw [List.filter_cons_of_pos (by rw [hf]; rfl)]
      rfl
    | some v =>
      rw [List.filter_cons_of_neg (by rw [hf]; exact Bool.false_ne_true)]
      rfl

/-- The missing files are published, each with its value. -/
theorem publishFiles_alone : ∀ {d : Disk} (missing : List (String × Bytes)), (missing.map Prod.fst).Nodup →
    (∀ f ∈ missing, d.files f.1 = none) → (publishFiles c missing).alone success d =
      (⟨fun p => (d.files p).or (missing.lookup p), d.log ++ missing.map fun f => .published c f.1 f.2⟩, .ok ())
  | d, [], _, _ => by
    have hfiles : (fun p => (d.files p).or (([] : List (String × Bytes)).lookup p)) = d.files :=
      funext fun p => Option.or_none
    rw [hfiles, List.map_nil, List.append_nil]
    rfl
  | d, f :: missing, hnodup, h => by
    rw [List.forall_mem_cons] at h
    rw [List.map_cons, List.nodup_cons] at hnodup
    have hnone : ∀ g ∈ missing, (d.publish c f.1 f.2).files g.1 = none := by
      intro g hg
      have hne : g.1 ≠ f.1 := fun heq => hnodup.1 (heq ▸ List.mem_map_of_mem hg)
      rw [publish_none h.1]
      exact (if_neg hne).trans (h.2 g hg)
    refine (Async.alone_bind (publishImportFile_none h.1)).trans ((publishFiles_alone missing hnodup.2 hnone).trans ?_)
    have hfiles : (fun p => ((d.publish c f.1 f.2).files p).or (missing.lookup p)) =
        fun p => (d.files p).or ((f :: missing).lookup p) := by
      funext p
      rw [publish_none h.1, List.lookup_cons]
      by_cases hp : p = f.1
      · subst hp
        simp [h.1]
      · dsimp only
        rw [if_neg hp, beq_eq_false_iff_ne.mpr hp]
    have hlog : (d.publish c f.1 f.2).log = d.log ++ [.published c f.1 f.2] := by rw [publish_none h.1]
    rw [hfiles, hlog, List.map_cons, List.append_assoc]
    rfl

namespace Prepared

/-- The disk after a call that finds the receipt of its frame: the missing files are there, and nothing else changes. -/
def completed (d : Disk) (c : Call) (files : List (String × Bytes)) : Disk :=
  let missing := files.filter fun f => (d.files f.1).isNone
  ⟨fun p => (d.files p).or (missing.lookup p),
    d.log ++ missing.map (fun f => .published c f.1 f.2) ++
      [.answered c (.ok (if missing = [] then "present" else "created"))]⟩

theorem importFiles_alone {frame : ClientCredentials} {files : List (String × Bytes)} (hmatch : P.matchFrame frame = .ok files)
    (hc : c.check = false) (hr : d.files P.receiptFile = some (P.receipt frame))
    (hfiles : ∀ f ∈ files, d.files f.1 = none ∨ d.files f.1 = some f.2) :
    let missing := files.filter fun f => (d.files f.1).isNone
    (importFiles c P frame files).alone success d =
      (⟨fun p => (d.files p).or (missing.lookup p), d.log ++ missing.map fun f => .published c f.1 f.2⟩,
        .ok (if missing = [] then "present" else "created")) := by
  intro missing
  obtain ⟨hnodup, -, hlen⟩ := matchFrame_ok hmatch
  have hmissing := missingFiles_alone (c := c) files fun f hf => ⟨hfiles f hf, hlen f hf⟩
  have hnone : ∀ f ∈ missing, d.files f.1 = none := fun f hf => Option.isNone_iff_eq_none.mp (List.mem_filter.mp hf).2
  have hpublish := publishFiles_alone (c := c) missing (hnodup.sublist (List.filter_sublist.map _)) hnone
  refine (Async.alone_bind (importFilePresent_some hr (length_receipt_le P frame))).trans ?_
  refine (Async.alone_bind hmissing).trans ?_
  rw [if_neg (by rw [hc]; exact Bool.false_ne_true)]
  have hdone : (unlessDone true (publishImportFile c P.receiptFile (P.receipt frame))).alone success d = (d, .ok ()) := rfl
  refine (Async.alone_bind hdone).trans ((Async.alone_bind hpublish).trans ?_)
  have hanswer : (if (!true) = true ∨ missing ≠ [] then "created" else "present") =
      if missing = [] then "present" else "created" := by
    by_cases hnil : missing = [] <;> simp [hnil]
  exact congrArg (fun a => (_, Except.ok a)) hanswer

/-- A call that no other interrupts and whose operations succeed completes the transfer that the receipt pins. -/
theorem call_alone {frame : ClientCredentials} {files : List (String × Bytes)} (ha : P.Accepts c frame files)
    (hc : c.check = false) (hr : d.files P.receiptFile = some (P.receipt frame))
    (hfiles : ∀ f ∈ files, d.files f.1 = none ∨ d.files f.1 = some f.2) :
    ((P.call c).alone success d).1 = completed d c files := by
  obtain ⟨hframe, hmatch⟩ := ha
  have hread : (Async.ofExcept (P.readFrame c.raw) : Io ClientCredentials).alone success d = (d, .ok frame) := by
    rw [hframe]
    rfl
  have hbundle : (io c .readBundle).attempt.alone success d = (d, .ok (.ok ())) := by
    rw [Async.alone_attempt, io_alone]
    rfl
  have hfiles' : (Async.ofExcept (P.matchFrame frame) : Io (List (String × Bytes))).alone success d = (d, .ok files) := by
    rw [hmatch]
    rfl
  let missing := files.filter fun f => (d.files f.1).isNone
  have himport : (importClient c P).alone success d =
      (⟨fun p => (d.files p).or (missing.lookup p), d.log ++ missing.map fun f => .published c f.1 f.2⟩,
        .ok (if missing = [] then "present" else "created")) := by
    refine (Async.alone_bind hread).trans ?_
    refine (Async.alone_bind hbundle).trans ?_
    refine (Async.alone_bind (io_alone .stage)).trans ?_
    refine (Async.alone_bind hfiles').trans ?_
    exact importFiles_alone hmatch hc hr hfiles
  have hresult : (importClient c P).attempt.alone success d =
      (⟨fun p => (d.files p).or (missing.lookup p), d.log ++ missing.map fun f => .published c f.1 f.2⟩,
        .ok (.ok (if missing = [] then "present" else "created"))) := by
    rw [Async.alone_attempt, himport]
  exact congrArg Prod.fst (Async.alone_bind hresult)

end Prepared

end Alone

/-! ## Every run -/

def Event.call : Event → Call
  | .published c _ _ | .failed c | .answered c _ => c

namespace Prepared

variable (P : Prepared)

/-- No two frames of the calls in the log have one digest. -/
def NoCollision (d : Disk) : Prop :=
  ∀ e ∈ d.log, ∀ e' ∈ d.log, ∀ frame frame', P.decodeFrame e.call.raw = some frame → P.decodeFrame e'.call.raw = some frame' →
    P.sha256 (canonical frame) = P.sha256 (canonical frame') → canonical frame = canonical frame'

/-- What the calls have written is of this frame, which the receipt pins; a call with another frame has written nothing, and
has only failed. -/
structure OneTransfer (start : String → Option Bytes) (d : Disk) (frame : ClientCredentials) : Prop where
  receipt : d.files P.receiptFile = some (P.receipt frame)
  written : ∀ c path value, .published c path value ∈ d.log → start path = none ∧ d.files path = some value ∧
    P.decodeFrame c.raw = some frame ∧ ∃ files, P.matchFrame frame = .ok files ∧
      ((path, value) = (P.receiptFile, P.receipt frame) ∨ (path, value) ∈ files)
  others : ∀ c, P.decodeFrame c.raw ≠ some frame →
    (∀ path value, .published c path value ∉ d.log) ∧ ∀ a, .answered c (.ok a) ∉ d.log

variable {P} {start : String → Option Bytes} {d : Disk} {c c' : Call} {frame frame' : ClientCredentials}
  {files files' : List (String × Bytes)}

theorem Accepts.decode (h : P.Accepts c frame files) : P.decodeFrame c.raw = some frame := by
  have hread := h.1
  simp only [readFrame, bind_ok, require_ok, fetch_ok, pure_ok] at hread
  obtain ⟨-, -, _, hdecode, -, -, rfl⟩ := hread
  exact hdecode

/-- One receipt on disk is one frame. -/
theorem Accepts.unique (hsha : P.NoCollision d) {e e' : Event} (he : e ∈ d.log) (he' : e' ∈ d.log)
    (ha : P.Accepts e.call frame files) (ha' : P.Accepts e'.call frame' files')
    (hr : d.files P.receiptFile = some (P.receipt frame)) (hr' : d.files P.receiptFile = some (P.receipt frame')) :
    frame = frame' := by
  have hreceipt : P.receipt frame = P.receipt frame' := Option.some.inj (hr.symm.trans hr')
  exact canonical_injective (hsha e he e' he' frame frame' ha.decode ha'.decode (receipt_inj hreceipt))

theorem Inv.oneTransfer (h : P.Inv start d) (hsha : P.NoCollision d) {path : String} {value : Bytes}
    (hpub : .published c path value ∈ d.log) : ∃ frame, P.decodeFrame c.raw = some frame ∧ P.OneTransfer start d frame := by
  obtain ⟨-, hp⟩ := h.published c path value hpub
  obtain ⟨frame, files, ha, hr, -⟩ := hp.pinned
  refine ⟨frame, ha.decode, hr, fun c' path' value' he => ?_, fun c' hne => ⟨fun path' value' he => ?_, fun a he => ?_⟩⟩
  · obtain ⟨hs, hp'⟩ := h.published c' path' value' he
    obtain ⟨frame', files', ha', hr', hv⟩ := hp'.pinned
    obtain rfl := Accepts.unique hsha hpub he ha ha' hr hr'
    exact ⟨hs, hp'.there, ha'.decode, files', ha'.2, hv⟩
  · obtain ⟨-, hp'⟩ := h.published c' path' value' he
    obtain ⟨frame', files', ha', hr', -⟩ := hp'.pinned
    obtain rfl := Accepts.unique hsha hpub he ha ha' hr hr'
    exact hne ha'.decode
  · obtain ⟨frame', files', ha', ⟨hr', -⟩, -⟩ := h.answered c' a he
    obtain rfl := Accepts.unique hsha hpub he ha ha' hr hr'
    exact hne ha'.decode

/-- A credential that the calls have written has the value of their frame. -/
theorem OneTransfer.credential (ht : P.OneTransfer start d frame) (h : P.Inv start d) (hmatch : P.matchFrame frame = .ok files)
    (hstart : ∀ f ∈ files, start f.1 = none) {f : String × Bytes} (hf : f ∈ files) :
    d.files f.1 = none ∨ d.files f.1 = some f.2 := by
  cases hfile : d.files f.1 with
  | none => exact .inl rfl
  | some v =>
    obtain ⟨hnodup, hreceipt, -⟩ := matchFrame_ok hmatch
    rcases h.logged f.1 v hfile with hs | ⟨c, hc⟩
    · rw [hstart f hf] at hs
      cases hs
    · obtain ⟨-, -, -, files', hmatch', hv⟩ := ht.written c f.1 v hc
      obtain rfl := Except.ok.inj (hmatch.symm.trans hmatch')
      rcases hv with hv | hv
      · exact absurd (List.mem_map_of_mem hf) ((Prod.mk.inj hv).1 ▸ hreceipt)
      · exact .inr (congrArg some (List.inj_on_of_nodup_map hnodup hv hf rfl ▸ rfl))

/-- In every run of calls, interrupted and stopped anywhere: what they have written is of one frame, which the receipt pins,
and calls with other frames have written nothing and have only failed; nothing else is written, and nothing by a check; a call
that answers has all of its frame in place, and a check that answers says so; and a later call with that frame, where the
files were not there before the calls, publishes those that are missing, and nothing else. -/
theorem import_one_transfer (P : Prepared) (start : String → Option Bytes)
    (inputs : List (Input Call Op fun op => Except String op.Val)) (hsha : P.NoCollision (P.run start inputs).state) :
    let w := P.run start inputs
    (∀ c path value, .published c path value ∈ w.state.log →
      c.check = false ∧ ∃ frame, P.decodeFrame c.raw = some frame ∧ P.OneTransfer start w.state frame) ∧
    (∀ path, w.state.files path = start path ∨ ∃ c value, .published c path value ∈ w.state.log) ∧
    (∀ c a, .answered c (.ok a) ∈ w.state.log → ∃ frame files, P.Accepts c frame files ∧ P.InPlace w.state frame files ∧
      (c.check = true → a = "present")) ∧
    ∀ c₀ path value frame, .published c₀ path value ∈ w.state.log → P.decodeFrame c₀.raw = some frame →
      ∀ c files, P.Accepts c frame files → c.check = false → (∀ f ∈ files, start f.1 = none) → ∃ ops : List Op,
        (P.run start (inputs ++ .start c :: ops.map fun op => .answer w.threads.length op (success op))).state =
          completed w.state c files := by
  intro w
  have hinv : P.Inv start w.state := run_inv P start inputs
  refine ⟨fun c path value he => ?_, fun path => ?_, hinv.answered, fun c₀ path value frame he hframe c files ha hc hstart => ?_⟩
  · exact ⟨(hinv.published c path value he).2.imports, hinv.oneTransfer hsha he⟩
  · cases hfile : w.state.files path with
    | none =>
      cases hs : start path with
      | none => exact .inl rfl
      | some v => exact absurd (hinv.kept path v hs) (by rw [hfile]; exact nofun)
    | some v =>
      exact (hinv.logged path v hfile).imp Eq.symm fun ⟨c, hc⟩ => ⟨c, v, hc⟩
  · obtain ⟨frame', hframe', ht⟩ := hinv.oneTransfer hsha he
    obtain rfl := Option.some.inj (hframe.symm.trans hframe')
    have hcall := call_alone ha hc ht.receipt fun f hf => ht.credential hinv ha.2 hstart hf
    obtain ⟨ops, hops⟩ := Loop.run_alone success (fun c => (P.call c).detach) w.threads.length (P.call c).detach w.state
    refine ⟨ops, ?_⟩
    have hlast : (w.threads ++ [((P.call c).detach.settle w.state).2])[w.threads.length]? =
        some ((P.call c).detach.settle w.state).2 := List.getElem?_concat_length
    have hrun := hops ⟨((P.call c).detach.settle w.state).1, w.threads ++ [((P.call c).detach.settle w.state).2]⟩ rfl hlast
    rw [Prepared.run, Transition.run_append, Transition.run_cons]
    exact hrun.trans (Async.alone_detach.trans hcall)

end Prepared

/-! ## Two transfers at once -/

/-- The frame of a transfer. -/
def sampleFrame (setupID clientSecret directorySecret : String) : ClientCredentials :=
  { schema := "kyidentity.client-credentials/1", setupID, issuerURL := "https://identity.example.test", clientID := "notes"
    redirectURIs := ["https://notes.example.test/api/v1/auth/oidc/callback"]
    directoryURL := "https://notes.example.test/api/v1/sync/events", clientSecret, directorySecret
    administrator := ⟨"owner-subject", "owner-admin", "kynotes.admin"⟩ }

def firstFrame : ClientCredentials := sampleFrame "271333e2-c221-4601-b249-563b3d828530"
  "Y2NjY2NjY2NjY2NjY2NjY2NjY2NjY2NjY2NjY2NjY2M" "ZGRkZGRkZGRkZGRkZGRkZGRkZGRkZGRkZGRkZGRkZGQ"

def secondFrame : ClientCredentials := sampleFrame "371333e2-c221-4601-b249-563b3d828530"
  "ZWVlZWVlZWVlZWVlZWVlZWVlZWVlZWVlZWVlZWVlZWU" "ZmZmZmZmZmZmZmZmZmZmZmZmZmZmZmZmZmZmZmZmZmY"

def sampleBundle : Bundle where
  sso := some ⟨"https://identity.example.test", "notes", "/data/installer/client.secret",
    "https://notes.example.test/api/v1/auth/oidc/callback", "/data/installer/directory.secret"⟩
  admins := [⟨"https://identity.example.test", "owner-subject", "owner-admin"⟩]

def sampleMetadata : Bytes := Cleanup.Stored.ascii ("\x7b\"version\":1,\"sso\":\x7b\"issuerUrl\":\"https://identity.example.test\"," ++
  "\"clientId\":\"notes\",\"clientSecretFile\":\"/data/installer/client.secret\"," ++
  "\"redirectUri\":\"https://notes.example.test/api/v1/auth/oidc/callback\"," ++
  "\"directoryHmacSecretFile\":\"/data/installer/directory.secret\"\x7d,\"admins\":[\x7b\"issuer\":\"https://identity.example.test\"," ++
  "\"subject\":\"owner-subject\",\"username\":\"owner-admin\"\x7d],\"backup\":null\x7d")

/-- The SHA-256 of the two frames and of the bundle. -/
def sampleSha256 (b : Bytes) : Sum256 :=
  if b = Prepared.canonical firstFrame then
    ⟨[214, 52, 175, 147, 235, 157, 186, 216, 192, 159, 219, 109, 156, 28, 103, 109, 156, 219, 243, 151, 219, 229, 59, 95, 136,
      114, 174, 124, 249, 92, 140, 86], rfl⟩
  else if b = Prepared.canonical secondFrame then
    ⟨[221, 181, 57, 78, 227, 244, 175, 139, 253, 208, 111, 112, 113, 121, 208, 60, 5, 42, 170, 84, 59, 99, 80, 89, 143, 134,
      185, 131, 204, 84, 176, 207], rfl⟩
  else
    ⟨[162, 193, 59, 148, 62, 81, 163, 149, 3, 13, 61, 95, 105, 217, 24, 165, 251, 159, 163, 59, 250, 196, 13, 186, 17, 171,
      199, 63, 162, 204, 187, 33], rfl⟩

def samplePrepared : Prepared where
  dir := "/data/installer"
  metadata := sampleMetadata
  decodeFrame raw :=
    if raw = Prepared.canonical firstFrame then some firstFrame
    else if raw = Prepared.canonical secondFrame then some secondFrame
    else none
  decodeBundle raw := if raw = sampleMetadata then some sampleBundle else none
  parseURL uri :=
    if uri = "https://notes.example.test/api/v1/auth/oidc/callback" then
      some ⟨"https", "notes.example.test", "notes.example.test", false, ""⟩
    else none
  sha256 := sampleSha256

theorem sample_noCollision (d : Disk) : samplePrepared.NoCollision d := by
  have hne : Prepared.canonical secondFrame ≠ Prepared.canonical firstFrame := canonical_injective.ne (by decide)
  have hframes : ∀ {raw frame}, samplePrepared.decodeFrame raw = some frame → frame = firstFrame ∨ frame = secondFrame := by
    intro raw frame h
    simp only [samplePrepared] at h
    split at h
    · exact .inl (Option.some.inj h).symm
    · split at h
      · exact .inr (Option.some.inj h).symm
      · cases h
  have hfirst : samplePrepared.sha256 (Prepared.canonical firstFrame) ≠ samplePrepared.sha256 (Prepared.canonical secondFrame) := by
    rw [show samplePrepared.sha256 = sampleSha256 from rfl, sampleSha256, if_pos rfl, sampleSha256, if_neg hne, if_pos rfl]
    exact fun h => absurd (congrArg Sum256.bytes h) (by decide)
  intro e _ e' _ frame frame' hframe hframe' hsha
  rcases hframes hframe with rfl | rfl <;> rcases hframes hframe' with rfl | rfl
  · rfl
  · exact absurd hsha hfirst
  · exact absurd hsha.symm hfirst
  · rfl

/-- The first call is stopped after its receipt; the second runs meanwhile. -/
def sampleInputs : List (Input Call Op fun op => Except String op.Val) :=
  let first : Call := ⟨Prepared.canonical firstFrame, false⟩
  let second : Call := ⟨Prepared.canonical secondFrame, false⟩
  let receipt := samplePrepared.receiptFile
  let reads := [Op.readBundle, .stage, .lstat receipt, .lstat "/data/installer/client.secret", .lstat "/data/installer/directory.secret"]
  [.start first, .start second] ++ reads.flatMap (fun op => [.answer 0 op (success op), .answer 1 op (success op)]) ++
    [.answer 0 (.store receipt (samplePrepared.receipt firstFrame)) (.ok true),
      .answer 1 (.store receipt (samplePrepared.receipt secondFrame)) (.ok true),
      .answer 1 (.lstat receipt) (.ok ()), .answer 1 (.read receipt) (.ok ())]

theorem import_one_transfer_two :
    (∀ path, (samplePrepared.run (fun _ => none) sampleInputs).state.files path = none ∨
      ∃ c value, .published c path value ∈ (samplePrepared.run (fun _ => none) sampleInputs).state.log) ∧
    ∀ c path value, .published c path value ∈ (samplePrepared.run (fun _ => none) sampleInputs).state.log →
      c.check = false ∧ ∃ frame, samplePrepared.decodeFrame c.raw = some frame ∧
        samplePrepared.OneTransfer (fun _ => none) (samplePrepared.run (fun _ => none) sampleInputs).state frame :=
  have h := Prepared.import_one_transfer samplePrepared (fun _ => none) sampleInputs (sample_noCollision _)
  ⟨h.2.1, h.1⟩

end KyNotes.Setup
