import KyNotes.Lib.EventLoop
import KyNotes.Web.Linking
import KyNotes.Web.Keyring
import KyNotes.Web.Pins

/-!
# The link flow

`linkFlow.ts` and its two gates in `outbound.ts`: the browser to be linked (the newcomer) and the one that holds the
identity (the approver), each as the functions that its screen calls. Every function runs on the event loop of its tab:
between two requests it runs alone. A request is answered by the relay, the user, this browser's store or its random
number generator, with any answer and in any order.

The functions of a tab share the one-time keys, what is pinned to them and the confirmations. An object of the source is
its place in the list of such objects that the tab has made, so a caller can only use what it was given. The log is not in
the source: it keeps what the theorems speak of, the newest event first.
-/

namespace KyNotes.Web.LinkFlow

open EventLoop

/-- What the functions throw. -/
inductive LinkError
  /-- `APIRequestError`. -/
  | api (status : Nat) (code : String)
  /-- `TypeError`: the server cannot be reached. -/
  | unreachable
  /-- `LinkStorageError`. -/
  | storage
  /-- `LinkTamperedError`. -/
  | tampered
  /-- `LinkEndedError`. -/
  | ended
  /-- `LinkNoIdentityError`. -/
  | noIdentity
  /-- What another module throws about text, bytes or keys that it cannot use. -/
  | malformed
  | refused (reason : LinkRefusal)
  | error (message : String)
deriving DecidableEq, Repr

/-! ## Attempts -/

/-- The approver key that a one-time key was revealed against, and the check code. -/
structure Pin where
  approverKey : Bytes
  code : JsString
deriving DecidableEq

/-- A one-time key of this tab. -/
structure OneTimeKey where
  /-- The key pair as it was made. -/
  made : Identity
  /-- It is in `liveKeys`. -/
  live : Bool
  /-- What `pins` has for it. -/
  pin : Option Pin
deriving DecidableEq

/-- `privateKey.fill(0)`. -/
def zeroed (key : Identity) : Identity := { key with privateKey := List.replicate key.privateKey.length 0 }

/-- The key pair as it is now. -/
def OneTimeKey.identity (key : OneTimeKey) : Identity := if key.live then key.made else zeroed key.made

structure Attempt where
  id : JsString
  userID : JsString
  /-- The place of its one-time key. -/
  key : Nat
deriving DecidableEq

/-- A view of an attempt on the browser being linked. -/
structure NewcomerLink extends Attempt where
  expiresAt : JsString
  approverKey : Option Bytes
  code : Option JsString
deriving DecidableEq

/-- A view of an attempt on the trusted browser. `commitment` is the one listed before this browser's key was sent. -/
structure ApproverLink extends Attempt where
  commitment : Bytes
  newcomerKey : Option Bytes
  code : Option JsString
deriving DecidableEq

inductive Event
  | pinned (key : Nat) (pin : Pin)
  | revealed (key : Nat) (id newcomerKey : JsString)
  | confirmed (confirmation : CheckCodeConfirmation)
  | approved (requestID : JsString) (confirmation : CheckCodeConfirmation) (bundle : Bytes)
  | accepted (link : NewcomerLink) (bundle : Bytes) (identity : HeldIdentity)
deriving DecidableEq

structure Tab where
  keys : List OneTimeKey
  confirmations : List CheckCodeConfirmation
  /-- The views that the functions have returned or shown. -/
  newcomers : List NewcomerLink
  approvers : List ApproverLink
  log : List Event

def Tab.empty : Tab := ⟨[], [], [], [], []⟩

/-! ## Requests -/

/-- What the newcomer reads of its request. -/
structure LinkState where
  approverKey : Option JsString
  bundle : Option JsString
deriving DecidableEq

/-- A request as the relay lists it for the approver. -/
structure LinkRequestRow where
  id : JsString
  commitment : JsString
  newcomerKey : JsString
deriving DecidableEq

inductive Ask
  | canKeep
  /-- The random bytes of a new key. -/
  | keygen
  | create (commitment : JsString)
  | collect (id : JsString)
  | reveal (id newcomerKey : JsString)
  | myIdentity
  | load
  | save (identity : HeldIdentity) (expected : Option HeldIdentity)
  | claim (id approverKey : JsString)
  /-- The randomness of a sealing. -/
  | ephemeral
  | stepUp
  | approve (id bundle : JsString)
  | wait (delay : Nat)
  /-- Does the screen still want this attempt? -/
  | wanted
  | now
  /-- No answer comes any more. -/
  | never
deriving DecidableEq

@[reducible] def Ask.Val : Ask → Type
  | .canKeep | .wanted | .save _ _ => Bool
  | .keygen | .ephemeral => Bytes
  | .create _ => JsString × JsString
  | .collect _ => LinkState
  | .myIdentity => Option PublicIdentity
  | .load => Option HeldIdentity
  | .now => Int
  | .reveal _ _ | .claim _ _ | .stepUp | .approve _ _ | .wait _ => Unit
  | .never => Empty

/-- A function of the flow. -/
abbrev Flow (α : Type) := Async Tab LinkError Ask Ask.Val α

def ask (r : Ask) : Flow r.Val := Async.call r

/-- A text that the source takes as absent when it is empty. -/
def truthy (text : Option JsString) : Option JsString := text.filter fun t => t ≠ []

/-! ## One-time keys -/

def newKey (made : Identity) (t : Tab) : Tab := { t with keys := t.keys ++ [⟨made, true, none⟩] }

def endKey (key : Nat) (t : Tab) : Tab := { t with keys := t.keys.modify key fun k => { k with live := false } }

/-- `pins.set`. -/
def setPin (key : Nat) (pin : Pin) (t : Tab) : Tab :=
  { t with keys := t.keys.modify key fun k => { k with pin := some pin }, log := .pinned key pin :: t.log }

def record (e : Event) (t : Tab) : Tab := { t with log := e :: t.log }

def mint (confirmation : CheckCodeConfirmation) (t : Tab) : Tab :=
  { t with confirmations := t.confirmations ++ [confirmation], log := .confirmed confirmation :: t.log }

def showNewcomer (link : NewcomerLink) (t : Tab) : Tab := { t with newcomers := t.newcomers ++ [link] }

def showApprover (link : ApproverLink) (t : Tab) : Tab := { t with approvers := t.approvers ++ [link] }

variable (S : Suite)

def newLinkKey : Flow Nat := do
  let secret ← ask .keygen
  Async.exchange (newKey ⟨secret, S.getPublicKey secret⟩) fun t => t.keys.length

/-- Zeroes the private key; nothing can open a bundle sealed to it after this. -/
def discardLinkKey (key : Nat) : Flow Unit := Async.update (endKey key)

def isLiveLinkKey (key : Nat) : Flow Bool := Async.read fun t => (t.keys[key]?).any OneTimeKey.live

def identityOf (key : Nat) : Flow Identity := do
  let own ← Async.read fun t => t.keys[key]?
  Async.orFail (own.map OneTimeKey.identity) .malformed

def pinOf (key : Nat) : Flow (Option Pin) := Async.read fun t => (t.keys[key]?).bind OneTimeKey.pin

def endLink (link : Attempt) : Flow Unit := discardLinkKey link.key

/-- Throws unless the attempt is still live and for the account it started with; another account ends it. -/
def live (link : Attempt) (userID : JsString) : Flow Unit := do
  if (← isLiveLinkKey link.key) = false then
    Async.fail .ended
  else if userID ≠ link.userID then
    endLink link
    Async.fail (.error "The signed-in account changed while linking. Nothing was linked; start again on both browsers.")
  else pure ()

/-- Runs `step`, and ends the attempt when it throws. -/
def orEnd {α : Type} (link : Attempt) (step : Flow α) : Flow α := do
  match ← Async.attempt step with
  | .ok a => pure a
  | .error e =>
    endLink link
    Async.fail e

/-! ## The newcomer -/

/-- Does this browser hold a key other than the one that the server lists for the account? -/
def otherCopyHeld : Flow Bool := do
  match ← ask .load with
  | none => pure false
  | some here =>
    match ← ask .myIdentity with
    | none => pure true
    | some listed =>
      let key ← Async.orFail (publicKeyBytes listed.publicKey) .malformed
      pure (!sameBytes here.publicKey key)

/-- Refuses before any request when this browser could not keep the identity. -/
def startNewcomerLink (userID : JsString) : Flow NewcomerLink := do
  if (← ask .canKeep) = false then Async.fail .storage
  else
    let key ← newLinkKey S
    let created ← Async.attempt (orEnd ⟨[], userID, key⟩ do
      let own ← identityOf key
      let commitment ← Async.orFail (linkCommitment S own.publicKey) .malformed
      ask (.create (base64 commitment)))
    match created with
    | .ok (id, expiresAt) => pure ⟨⟨id, userID, key⟩, expiresAt, none, none⟩
    | .error (.api status code) =>
      Async.fail (if code = "not_found" then .noIdentity else .api status code)
    | .error e => Async.fail e

/-- Only an attempt that still holds its one-time key may collect. -/
def collectLinkBundle (key : Nat) (requestID : JsString) : Flow LinkState := do
  if (← isLiveLinkKey key) = false then
    Async.fail (.error "This link attempt ended. Start again on both browsers.")
  else ask (.collect requestID)

/-- The key is pinned to the one-time key, then this browser reveals its own. -/
def pinAndReveal (link : NewcomerLink) (text : JsString) : Flow Pin := do
  let approverKey ← Async.orFail (publicKeyBytes text) .malformed
  let own ← identityOf link.key
  let code ← Async.orFail (checkCode S link.userID link.id approverKey own.publicKey) .malformed
  Async.update (setPin link.key ⟨approverKey, code⟩)
  Async.update (record (.revealed link.key link.id (base64 own.publicKey)))
  ask (.reveal link.id (base64 own.publicKey))
  pure ⟨approverKey, code⟩

/-- Ends the attempt when an approver key other than the pinned one arrives. -/
def comparePinned (link : NewcomerLink) (pinned : Pin) : Option JsString → Flow Unit
  | none => pure ()
  | some text => do
    let approverKey ← Async.orFail (publicKeyBytes text) .malformed
    if sameBytes approverKey pinned.approverKey = false then
      endLink link.toAttempt
      Async.fail .tampered
    else pure ()

/-- The view of an attempt with what is pinned to its key. -/
def NewcomerLink.view (link : NewcomerLink) (pin : Pin) : NewcomerLink :=
  { link with approverKey := some pin.approverKey, code := some pin.code }

/-- One poll; with the bundle, once the approver has sent it. -/
def pollNewcomerLink (link : NewcomerLink) (userID : JsString) : Flow (NewcomerLink × Option Bytes) := do
  live link.toAttempt userID
  let state ← collectLinkBundle link.key link.id
  match ← pinOf link.key with
  | some pinned =>
    comparePinned link pinned (truthy state.approverKey)
    match truthy state.bundle with
    | none => pure (link.view pinned, none)
    | some text =>
      let bundle ← Async.orFail (fromBase64 text) .malformed
      pure (link.view pinned, some bundle)
  | none =>
    match truthy state.approverKey with
    | none => pure (link, none)
    | some text =>
      let pin ← orEnd link.toAttempt (pinAndReveal S link text)
      pure (link.view pin, none)

def NEWCOMER_POLL_MS : Nat := 4000
def POLL_BACKOFF_MAX_MS : Nat := 30000
def LINK_TTL_MS : Nat := 600000

/-- Rate limited or unreachable: the request may still be live. -/
def transient : LinkError → Bool
  | .api status _ => status = 429
  | .unreachable => true
  | _ => false

/-- `failingSince ??= now()`. -/
def sinceOrNow : Option Int → Flow Int
  | some since => pure since
  | none => ask .now

/-- Shows every view of the attempt until the bundle arrives; at most so many rounds. -/
def awaitRounds (link : NewcomerLink) (userID : JsString) : Nat → (delay : Nat) → (failingSince : Option Int) →
    Flow (Option Bytes)
  | 0, _, _ => do
    let answer ← ask .never
    nomatch answer
  | rounds + 1, delay, failingSince => do
    ask (.wait delay)
    if (← ask .wanted) = false then pure none
    else
      match ← Async.attempt (pollNewcomerLink S link userID) with
      | .ok (view, bundle) =>
        if (← ask .wanted) = false then pure none
        else
          Async.update (showNewcomer view)
          match bundle with
          | some bundle => pure (some bundle)
          | none => awaitRounds link userID rounds NEWCOMER_POLL_MS none
      | .error e =>
        -- a failed reveal discarded the key: that attempt is over whatever the cause
        if transient e = false ∨ (← isLiveLinkKey link.key) = false then Async.fail e
        else
          let since ← sinceOrNow failingSince
          if (← ask .now) - since ≥ LINK_TTL_MS then
            endLink link.toAttempt
            Async.fail .ended
          else awaitRounds link userID rounds (min (delay * 2) POLL_BACKOFF_MAX_MS) (some since)

/-- `awaitLinkBundle`, up to a number of rounds after which the tab is left alone. -/
def awaitLinkBundle (link : NewcomerLink) (userID : JsString) (rounds : Nat) : Flow (Option Bytes) :=
  awaitRounds S link userID rounds NEWCOMER_POLL_MS none

def OTHER_COPY : String := "This browser holds another copy of your key. Use Forget this device first."

/-- Past the confirmation check: opens the bundle and keeps the identity. -/
def openAndKeep (link : NewcomerLink) (bundle : Bytes) (pin : Pin) : Flow HeldIdentity := do
  match ← ask .myIdentity with
  | none => Async.fail (.error "Your account has no encryption key to link.")
  | some listed =>
    let own ← identityOf link.key
    match openLinkBundle S bundle own ⟨link.userID, link.id, listed.deviceId, pin.approverKey, own.publicKey⟩ with
    | .error reason => Async.fail (.refused reason)
    | .ok privateKey =>
      let publicKey := S.getPublicKey privateKey
      let key ← Async.orFail (publicKeyBytes listed.publicKey) .malformed
      if sameBytes publicKey key = false then
        Async.fail (.error "The key sent is not your account's encryption key. Nothing was linked.")
      else
        let identity : HeldIdentity := ⟨listed.deviceId, publicKey, privateKey⟩
        -- what is kept from here on is this identity
        Async.update (record (.accepted link bundle identity))
        let current ← ask .load
        if current.any fun here => !sameBytes here.publicKey publicKey then Async.fail (.error OTHER_COPY)
        else
          match current.filter fun here => here.deviceId = identity.deviceId with
          | some here => pure here
          | none =>
            if (← ask (.save identity current)) = false then Async.fail .storage
            else pure identity

/-- Opens the bundle only after this browser's own user confirmed the code that it shows. -/
def finishNewcomerLink (link : NewcomerLink) (bundle : Bytes) (confirmation : Nat) (userID : JsString) :
    Flow HeldIdentity := do
  live link.toAttempt userID
  let pin ← pinOf link.key
  let confirmed ← Async.read fun t => t.confirmations[confirmation]?
  match pin, confirmed with
  | some pin, some confirmed =>
    if confirmed.requestID ≠ link.id ∨ confirmed.code ≠ pin.code then
      Async.fail (.error "Compare the check codes on both screens first.")
    else
      let out ← Async.attempt (openAndKeep S link bundle pin)
      endLink link.toAttempt
      Async.ofExcept out
  | _, _ => Async.fail (.error "Compare the check codes on both screens first.")

/-! ## The approver -/

def claimLink (row : LinkRequestRow) (userID : JsString) : Flow ApproverLink := do
  let commitment ← Async.orFail (fromBase64 row.commitment) .malformed
  if commitment.length ≠ 32 then Async.fail .tampered
  else
    let key ← newLinkKey S
    orEnd ⟨row.id, userID, key⟩ do
      let own ← identityOf key
      ask (.claim row.id (base64 own.publicKey))
    pure ⟨⟨row.id, userID, key⟩, commitment, none, none⟩

/-- Takes the newcomer's revealed key, only if it matches the commitment seen before claiming. -/
def revealedLink (link : ApproverLink) (row : Option LinkRequestRow) (userID : JsString) : Flow ApproverLink := do
  live link.toAttempt userID
  match row with
  | none => pure link
  | some row =>
    if link.newcomerKey.isSome ∨ row.id ≠ link.id ∨ row.newcomerKey = [] then pure link
    else
      let newcomerKey := (publicKeyBytes row.newcomerKey).getD []
      if newcomerKey.length ≠ 32 ∨ linkCommitment S newcomerKey ≠ some link.commitment then
        endLink link.toAttempt
        Async.fail .tampered
      else
        let own ← identityOf link.key
        let code ← Async.orFail (checkCode S link.userID link.id own.publicKey newcomerKey) .malformed
        pure { link with newcomerKey := some newcomerKey, code := some code }

variable (nfkc : JsString → JsString)

/-- The code typed from the other browser. -/
def confirmTypedCode (link : ApproverLink) (entered : JsString) : Flow Unit := do
  let confirmation ← Async.orFail (confirmTypedCheckCode nfkc link.id (link.code.getD []) entered)
    (.error "That is not the code the other browser shows. Type it again; if the codes differ, cancel.")
  Async.update (mint confirmation)

/-- The confirmation, when the user typed it for this request. -/
def typedFor (confirmation : Nat) (requestID : JsString) (t : Tab) : Option CheckCodeConfirmation :=
  (t.confirmations[confirmation]?).filter fun c => c.requestID = requestID ∧ c.typed.isSome

/-- A bundle leaves only after the user typed the newcomer's check code for that request. -/
def sendLinkBundle (confirmation : Nat) (requestID : JsString) (bundle : Bytes) : Flow Unit := do
  match ← Async.read (typedFor confirmation requestID) with
  | none => Async.fail (.error "Compare the check codes on both screens first.")
  | some confirmed =>
    Async.update (record (.approved requestID confirmed bundle))
    ask (.approve requestID (base64 bundle))

/-- Seals the identity to the newcomer and sends it, after the user typed the matching code and a fresh step-up. -/
def approveLink (link : ApproverLink) (confirmation : Nat) (identity : HeldIdentity) (userID : JsString) : Flow Unit := do
  live link.toAttempt userID
  match link.newcomerKey, truthy link.code with
  | some newcomerKey, some code =>
    let confirmed ← Async.read (typedFor confirmation link.id)
    if confirmed.map CheckCodeConfirmation.code ≠ some code then
      Async.fail (.error "Type the code the other browser shows first.")
    else
      let ephemeral ← ask .ephemeral
      let own ← identityOf link.key
      let bundle ← Async.orFail
        (sealLinkBundle S identity.privateKey own
          ⟨link.userID, link.id, identity.deviceId, own.publicKey, newcomerKey⟩ ephemeral) .malformed
      -- a failed step-up or send keeps the attempt
      ask .stepUp
      sendLinkBundle confirmation link.id bundle
      endLink link.toAttempt
  | _, _ => Async.fail (.error "The other browser has not answered yet.")

/-! ## Tabs -/

/-- What the screens of a tab call, with the views and the confirmations that the tab has given out. -/
inductive Call
  | otherCopyHeld
  | start (userID : JsString)
  | poll (link : Nat) (userID : JsString)
  | await (link : Nat) (userID : JsString) (rounds : Nat)
  /-- `confirmCheckCode`: the newcomer's user says that the codes match. -/
  | confirm (requestID code : JsString)
  | finish (link : Nat) (bundle : Bytes) (confirmation : Nat) (userID : JsString)
  | endNewcomer (link : Nat)
  | claim (row : LinkRequestRow) (userID : JsString)
  | revealed (link : Nat) (row : Option LinkRequestRow) (userID : JsString)
  | confirmTyped (link : Nat) (entered : JsString)
  | approve (link confirmation : Nat) (identity : HeldIdentity) (userID : JsString)
  | endApprover (link : Nat)

/-- Goes on with a view that the tab has given out. -/
def withNewcomer (link : Nat) (f : NewcomerLink → Flow Unit) : Flow Unit := do
  match ← Async.read fun t => t.newcomers[link]? with
  | none => pure ()
  | some link => f link

def withApprover (link : Nat) (f : ApproverLink → Flow Unit) : Flow Unit := do
  match ← Async.read fun t => t.approvers[link]? with
  | none => pure ()
  | some link => f link

def flow : Call → Flow Unit
  | .otherCopyHeld => do
    let _ ← otherCopyHeld
  | .start userID => do
    let link ← startNewcomerLink S userID
    Async.update (showNewcomer link)
  | .poll link userID => withNewcomer link fun link => do
    let out ← pollNewcomerLink S link userID
    Async.update (showNewcomer out.1)
  | .await link userID rounds => withNewcomer link fun link => do
    let _ ← awaitLinkBundle S link userID rounds
  | .confirm requestID code => Async.update (mint ⟨requestID, code, none⟩)
  | .finish link bundle confirmation userID => withNewcomer link fun link => do
    let _ ← finishNewcomerLink S link bundle confirmation userID
  | .endNewcomer link => withNewcomer link fun link => endLink link.toAttempt
  | .claim row userID => do
    let link ← claimLink S row userID
    Async.update (showApprover link)
  | .revealed link row userID => withApprover link fun link => do
    let link ← revealedLink S link row userID
    Async.update (showApprover link)
  | .confirmTyped link entered => withApprover link fun link => confirmTypedCode nfkc link entered
  | .approve link confirmation identity userID => withApprover link fun link =>
    approveLink S link confirmation identity userID
  | .endApprover link => withApprover link fun link => endLink link.toAttempt

def program (c : Call) : Thread Tab Ask (fun r => Except LinkError r.Val) Unit := (flow S nfkc c).detach

/-- The tabs of the browsers. What passes between them passes through the relay, which gives every answer. -/
abbrev Tabs := List (Loop Tab Ask fun r => Except LinkError r.Val)

def Tabs.start (n : Nat) : Tabs := List.replicate n ⟨Tab.empty, []⟩

abbrev Tabs.Step := Nat × Input Call Ask fun r => Except LinkError r.Val

def Tabs.run (n : Nat) (steps : List Tabs.Step) : Tabs := Transition.run (stepAt (program S nfkc)) (Tabs.start n) steps

end KyNotes.Web.LinkFlow
