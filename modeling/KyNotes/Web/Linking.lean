import KyNotes.Web.Envelopes

/-!
# Linking a browser

`linking.ts`: the commitment to a one-time key, the check code over both one-time keys, and the bundle that carries the
identity's private key from one to the other.
-/

namespace KyNotes.Web

/-- A key pair. -/
structure Identity where
  privateKey : Bytes
  publicKey : Bytes
deriving DecidableEq

/-- `0x02 | enc(32) | ciphertext(48)`. -/
def LINK_BUNDLE_BYTES : Nat := 81

/-- What both sides bind. -/
structure LinkContext where
  userID : JsString
  requestID : JsString
  identityDeviceID : JsString
  approverKey : Bytes
  newcomerKey : Bytes

/-- Nothing where it throws. -/
def key32 (key : Bytes) : Option Bytes := if key.length ≠ 32 then none else some key

variable (S : Suite)

def linkCommitment (newcomerKey : Bytes) : Option Digest := do
  let key ← key32 newcomerKey
  pure (S.sha256 (concat [utf8 "kynotes/link-commit/v1", key]))

/-- `DataView.getUint32(0)`. -/
def getUint32 : Bytes → Option Nat
  | a :: b :: c :: d :: _ => some (((a.toNat * 256 + b.toNat) * 256 + c.toNat) * 256 + d.toNat)
  | _ => none

/-- `String(n)`. -/
def decimal (n : Nat) : JsString := (Nat.toDigits 10 n).map fun c => UInt16.ofNat c.toNat

/-- `padStart`, with zeros. -/
def padStart (text : JsString) (size : Nat) : JsString := List.replicate (size - text.length) 48 ++ text

/-- `"123456"` as `"123 456"`. -/
def spaced (digits : JsString) : JsString := digits.take 3 ++ 32 :: digits.drop 3

/-- Six digits over the account, the request and both one-time keys. -/
def checkCode (userID requestID : JsString) (approverKey newcomerKey : Bytes) : Option JsString := do
  let user ← idBytes .usr userID
  let request ← idBytes .lnk requestID
  let approver ← key32 approverKey
  let newcomer ← key32 newcomerKey
  let number ← getUint32 (S.sha256 (concat [utf8 "kynotes/link-check/v1", user, request, approver, newcomer]))
  pure (spaced (padStart (decimal (number % 1000000)) 6))

def linkInfo (c : LinkContext) : Option Bytes := do
  let user ← idBytes .usr c.userID
  let request ← idBytes .lnk c.requestID
  let device ← idBytes .dev c.identityDeviceID
  let approver ← key32 c.approverKey
  let newcomer ← key32 c.newcomerKey
  pure (concat [utf8 "kynotes/link/v2", user, request, device, approver, newcomer])

/-- Seals to the newcomer's one-time key as the approver; `ephemeral` is the randomness of the sealing. -/
def sealLinkBundle (identityPrivateKey : Bytes) (approver : Identity) (context : LinkContext) (ephemeral : Bytes) :
    Option Bytes :=
  if identityPrivateKey.length ≠ 32 ∨ sameBytes approver.publicKey context.approverKey = false then none
  else do
    let recipient ← key32 context.newcomerKey
    let info ← linkInfo context
    let (enc, ct) ← S.hpkeSeal recipient approver.privateKey info identityPrivateKey ephemeral
    pure (concat [[2], enc, ct])

inductive LinkRefusal | format | newcomerKey | lowOrder | aead
deriving DecidableEq, Repr

/-- The identity's private key, or the check that refused. -/
def openLinkBundle (bundle : Bytes) (newcomer : Identity) (context : LinkContext) : Except LinkRefusal Bytes :=
  if bundle.length ≠ LINK_BUNDLE_BYTES ∨ bundle.head? ≠ some 2 ∨ context.approverKey.length ≠ 32 then .error .format
  else if sameBytes newcomer.publicKey context.newcomerKey = false then .error .newcomerKey
  else if S.getSharedSecret newcomer.privateKey context.approverKey = none then .error .lowOrder
  else
    match (do
      let info ← linkInfo context
      S.hpkeOpen newcomer.privateKey context.approverKey ((bundle.drop 1).take 32) info (bundle.drop 33)) with
    | some privateKey => .ok privateKey
    | none => .error .aead

/-! ## Confirmations -/

/-- `\s`. -/
def isSpace (c : UInt16) : Bool :=
  (9 ≤ c ∧ c ≤ 13) ∨ c = 32 ∨ c = 160 ∨ c = 5760 ∨ (8192 ≤ c ∧ c ≤ 8202) ∨ c = 8232 ∨ c = 8233 ∨ c = 8239 ∨
    c = 8287 ∨ c = 12288 ∨ c = 65279

/-- `CheckCodeConfirmation`. One that `confirmTypedCheckCode` has made is in `typed`, with what was typed. -/
structure CheckCodeConfirmation where
  requestID : JsString
  code : JsString
  typed : Option JsString
deriving DecidableEq

variable (nfkc : JsString → JsString)

/-- A code without its spaces, after `String.normalize("NFKC")`. -/
def digits (code : JsString) : JsString := (nfkc code).filter fun c => !isSpace c

/-- The approver's only confirmation; nothing where it throws. -/
def confirmTypedCheckCode (requestID shown entered : JsString) : Option CheckCodeConfirmation :=
  if shown = [] ∨ digits nfkc entered ≠ digits nfkc shown then none else some ⟨requestID, shown, some entered⟩

/-! ## What a code determines -/

/-- A normalization that leaves ASCII as it is. -/
def AsciiFixed : Prop := ∀ text : JsString, (∀ c ∈ text, c < 128) → nfkc text = text

theorem decimal_digit {n : Nat} {c : UInt16} (h : c ∈ decimal n) : 48 ≤ c ∧ c ≤ 57 := by
  obtain ⟨d, hd, rfl⟩ := List.mem_map.mp h
  have hdigit : d.isDigit = true := Nat.isDigit_of_mem_toDigits (by decide) (by decide) hd
  have hlow : 48 ≤ d.toNat ∧ d.toNat ≤ 57 := by
    simpa [Char.isDigit, UInt32.le_iff_toNat_le] using hdigit
  have hmod : d.toNat % 65536 = d.toNat := Nat.mod_eq_of_lt (by omega)
  rw [UInt16.le_iff_toNat_le, UInt16.le_iff_toNat_le, UInt16.toNat_ofNat', hmod]
  exact hlow

theorem padStart_digit {n size : Nat} {c : UInt16} (h : c ∈ padStart (decimal n) size) : 48 ≤ c ∧ c ≤ 57 := by
  rcases List.mem_append.mp h with h | h
  · obtain rfl := List.eq_of_mem_replicate h
    decide
  · exact decimal_digit h

/-- A digit is no space. -/
theorem isSpace_digit {c : UInt16} (h : 48 ≤ c ∧ c ≤ 57) : isSpace c = false := by
  have hlow : 48 ≤ c.toNat ∧ c.toNat ≤ 57 := by simpa [UInt16.le_iff_toNat_le] using h
  simp only [isSpace, decide_eq_false_iff_not, ← UInt16.toNat_inj, UInt16.le_iff_toNat_le]
  simp
  omega

theorem digits_spaced {nfkc : JsString → JsString} (hn : AsciiFixed nfkc) {text : JsString}
    (h : ∀ c ∈ text, 48 ≤ c ∧ c ≤ 57) : digits nfkc (spaced text) = text := by
  have hascii : nfkc (spaced text) = spaced text := by
    refine hn _ fun c hc => ?_
    rcases List.mem_append.mp hc with hc | hc
    · exact UInt16.lt_of_le_of_lt (h c (List.mem_of_mem_take hc)).2 (by decide)
    · rcases List.mem_cons.mp hc with rfl | hc
      · decide
      · exact UInt16.lt_of_le_of_lt (h c (List.mem_of_mem_drop hc)).2 (by decide)
  have hall : ∀ part : JsString, (∀ c ∈ part, c ∈ text) → part.filter (fun c => !isSpace c) = part := by
    intro part hpart
    refine List.filter_eq_self.mpr fun c hc => ?_
    rw [isSpace_digit (h c (hpart c hc))]
    rfl
  rw [digits, hascii, spaced, List.filter_append, hall _ fun c hc => List.mem_of_mem_take hc,
    List.filter_cons_of_neg (by decide), hall _ fun c hc => List.mem_of_mem_drop hc, List.take_append_drop]

/-- What the user reads is the code, spaces or not. -/
theorem spaced_digits {nfkc : JsString → JsString} (hn : AsciiFixed nfkc) {userID requestID code : JsString}
    {approverKey newcomerKey : Bytes} (h : checkCode S userID requestID approverKey newcomerKey = some code) :
    spaced (digits nfkc code) = code := by
  simp only [checkCode, Option.bind_eq_bind, Option.bind_eq_some_iff, Option.pure_def, Option.some.injEq] at h
  obtain ⟨_, -, _, -, _, -, _, -, number, -, rfl⟩ := h
  rw [digits_spaced hn fun c hc => padStart_digit hc]

end KyNotes.Web
