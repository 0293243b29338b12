import KyNotes.Web.LinkInvariant

/-!
# Agreement of a link

What a relay cannot do that gives every answer to the browsers. Where the check codes of a run tell its keys apart, an
approver who sends a bundle after the code of the newcomer's screen was typed has sealed it to the newcomer's one-time
key, and the newcomer has pinned the approver's. The order of the newcomer's log does the rest: it pins, then reveals, once;
and it keeps an identity only after the code of its pin was confirmed, from a bundle that opens under the pinned key.
-/

namespace KyNotes.Web.LinkFlow

open EventLoop

variable (S : Suite) (nfkc : JsString → JsString)

/-! ## The keys of a run -/

/-- The one-time keys of a tab, what is pinned to them, and the keys revealed to it. -/
def Tab.knownKeys (t : Tab) : List Bytes :=
  t.keys.map (fun key => key.made.publicKey) ++ t.keys.filterMap (fun key => key.pin.map Pin.approverKey) ++
    t.approvers.filterMap ApproverLink.newcomerKey

def Tab.attempts (t : Tab) : List Attempt :=
  t.newcomers.map NewcomerLink.toAttempt ++ t.approvers.map ApproverLink.toAttempt

def Tabs.knownKeys (tabs : Tabs) : List Bytes := tabs.flatMap fun l => l.state.knownKeys

def Tabs.attempts (tabs : Tabs) : List Attempt := tabs.flatMap fun l => l.state.attempts

/-- The check codes of the attempts tell the keys of the run apart. -/
def CodesInjective (tabs : Tabs) : Prop :=
  ∀ x ∈ tabs.attempts, ∀ y ∈ tabs.attempts, ∀ a ∈ tabs.knownKeys, ∀ n ∈ tabs.knownKeys, ∀ a' ∈ tabs.knownKeys,
    ∀ n' ∈ tabs.knownKeys, ∀ code, checkCode S x.userID x.id a n = some code →
      checkCode S y.userID y.id a' n' = some code → a = a' ∧ n = n'

section Members

variable {tabs : Tabs} {l : Loop Tab Ask fun r => Except LinkError r.Val} {k : Nat}

theorem own_known (hl : l ∈ tabs) {own : Identity} (h : l.state.Owns k own) : own.publicKey ∈ tabs.knownKeys := by
  obtain ⟨key, hk, rfl⟩ := Option.map_eq_some_iff.mp h
  have hmem : key ∈ l.state.keys := List.mem_of_getElem? hk
  exact List.mem_flatMap.mpr ⟨l, hl, List.mem_append_left _ (List.mem_append_left _ (List.mem_map.mpr ⟨key, hmem, rfl⟩))⟩

theorem pinned_known (hl : l ∈ tabs) {pin : Pin} (h : l.state.Pinned k pin) : pin.approverKey ∈ tabs.knownKeys := by
  obtain ⟨key, hk, hpin⟩ := Option.bind_eq_some_iff.mp h
  have hmem : key ∈ l.state.keys := List.mem_of_getElem? hk
  refine List.mem_flatMap.mpr ⟨l, hl, List.mem_append_left _ (List.mem_append_right _ ?_)⟩
  exact List.mem_filterMap.mpr ⟨key, hmem, by rw [hpin]; rfl⟩

theorem revealed_known (hl : l ∈ tabs) {ℓ : ApproverLink} (hℓ : ℓ ∈ l.state.approvers) {newcomerKey : Bytes}
    (h : ℓ.newcomerKey = some newcomerKey) : newcomerKey ∈ tabs.knownKeys :=
  List.mem_flatMap.mpr ⟨l, hl, List.mem_append_right _ (List.mem_filterMap.mpr ⟨ℓ, hℓ, h⟩)⟩

theorem newcomer_attempt (hl : l ∈ tabs) {ℓ : NewcomerLink} (hℓ : ℓ ∈ l.state.newcomers) :
    ℓ.toAttempt ∈ tabs.attempts :=
  List.mem_flatMap.mpr ⟨l, hl, List.mem_append_left _ (List.mem_map.mpr ⟨ℓ, hℓ, rfl⟩)⟩

theorem approver_attempt (hl : l ∈ tabs) {ℓ : ApproverLink} (hℓ : ℓ ∈ l.state.approvers) :
    ℓ.toAttempt ∈ tabs.attempts :=
  List.mem_flatMap.mpr ⟨l, hl, List.mem_append_right _ (List.mem_map.mpr ⟨ℓ, hℓ, rfl⟩)⟩

end Members

/-! ## The three promises -/

/-- What `approver` sends after the code was typed that `newcomer` shows is sealed to the newcomer's one-time key, which
has the approver's own key pinned. -/
def Agrees (approver newcomer : Tab) : Prop :=
  ∀ requestID c bundle entered, .approved requestID c bundle ∈ approver.log → c.typed = some entered →
    ∀ ℓ ∈ newcomer.newcomers, ∀ code, ℓ.code = some code → digits nfkc entered = digits nfkc code →
      ∃ own pin, newcomer.Owns ℓ.key own ∧ newcomer.Pinned ℓ.key pin ∧
        ∃ m ∈ approver.approvers, m.id = requestID ∧ approver.SealedBy S m own.publicKey bundle ∧
          ∃ sender, approver.Owns m.key sender ∧ pin.approverKey = sender.publicKey

/-- A one-time key is revealed at most once, and only once an approver key is pinned to it. -/
def RevealsOnce (t : Tab) : Prop :=
  ∀ later past k id text, t.log = later ++ .revealed k id text :: past →
    (∃ pin, t.Pinned k pin ∧ .pinned k pin ∈ past) ∧ (∃ own, t.Owns k own ∧ text = base64 own.publicKey) ∧
      ∀ id' text', .revealed k id' text' ∉ later ++ past

/-- An identity is accepted only from a bundle that opens under the pinned key, and after its code was confirmed. -/
def AcceptsConfirmed (t : Tab) : Prop :=
  ∀ later past ℓ bundle identity, t.log = later ++ .accepted ℓ bundle identity :: past →
    ∃ pin, t.Pinned ℓ.key pin ∧ .pinned ℓ.key pin ∈ past ∧ t.Opens S ℓ pin.approverKey bundle identity ∧
      ∃ c, .confirmed c ∈ past ∧ c.requestID = ℓ.id ∧ c.code = pin.code

variable {S nfkc}

/-- The typed code is the one of the view: without its spaces a code is what it was. -/
theorem typed_code (hn : AsciiFixed nfkc) {u r u' r' c c' : JsString} {a n a' n' : Bytes}
    (h : checkCode S u r a n = some c) (h' : checkCode S u' r' a' n' = some c') (hd : digits nfkc c = digits nfkc c') :
    c = c' :=
  calc c = spaced (digits nfkc c) := (spaced_digits S hn h).symm
    _ = spaced (digits nfkc c') := by rw [hd]
    _ = c' := spaced_digits S hn h'

theorem agrees (hn : AsciiFixed nfkc) {tabs : Tabs} (hcodes : CodesInjective S tabs)
    (hok : ∀ l ∈ tabs, l.state.Ok S nfkc) {a b : Loop Tab Ask fun r => Except LinkError r.Val} (ha : a ∈ tabs)
    (hb : b ∈ tabs) : Agrees S nfkc a.state b.state := by
  intro requestID c bundle entered hsent htyped ℓ hℓ code hcode hsame
  obtain ⟨later, past, hlog, hconf, hreq, -, m, hm, hid, hmcode, newcomerKey, hseal⟩ := (hok a ha).history.mem hsent
  have hconf' : Event.confirmed c ∈ a.state.log := by
    rw [hlog]
    exact List.mem_append_right _ (List.mem_cons_of_mem _ hconf)
  obtain ⟨_, _, _, hdigits⟩ := (hok a ha).history.mem hconf'
  -- the code of the approver's view is over its own key and the key that it has sealed to
  obtain ⟨-, sender, mcode, hsender, hmcode', hcheck⟩ := (hok a ha).approvers m hm newcomerKey hseal.1
  obtain rfl : mcode = c.code := Option.some.inj (hmcode'.symm.trans hmcode)
  -- the code that the newcomer shows is over the pinned key and its own
  obtain ⟨pin, hpin, rfl⟩ := (hok b hb).newcomers ℓ hℓ code hcode
  obtain ⟨own, hown⟩ := hpin.owned
  obtain ⟨ℓ', hℓ', -, hcheck'⟩ := (hok b hb).pins ℓ.key pin hpin own hown
  have heq : c.code = pin.code := typed_code hn hcheck hcheck' ((hdigits entered htyped).symm.trans hsame)
  obtain ⟨hkeys, rfl⟩ := hcodes _ (approver_attempt ha hm) _ (newcomer_attempt hb hℓ') _ (own_known ha hsender) _
    (revealed_known ha hm hseal.1) _ (pinned_known hb hpin) _ (own_known hb hown) _ hcheck (heq ▸ hcheck')
  exact ⟨own, pin, hown, hpin, m, hm, hid, hseal, sender, hsender, hkeys.symm⟩

/-- A key that the newest part of the log reveals is not revealed in the rest. -/
theorem not_revealed_later {t : Tab} {k : Nat} {past : List Event} {e : Event} (he : e ∈ past) :
    ∀ {later : List Event}, t.History S nfkc (later ++ past) → (∀ id text, e = .revealed k id text →
      ∀ id' text', .revealed k id' text' ∉ later)
  | [], _, _, _, _, _, _ => List.not_mem_nil
  | x :: later, h, id, text, hek, id', text' => by
    intro hmem
    rcases List.mem_cons.mp hmem with rfl | hmem
    · exact h.1.2.1 id text (hek ▸ List.mem_append_right _ he)
    · exact not_revealed_later he h.2 id text hek id' text' hmem

theorem revealsOnce {t : Tab} (h : t.Ok S nfkc) : RevealsOnce t := by
  intro later past k id text hlog
  have hhist : t.History S nfkc (later ++ .revealed k id text :: past) := hlog ▸ h.history
  obtain ⟨⟨pin, hpin⟩, honce, hown⟩ := hhist.split
  have hmem : Event.pinned k pin ∈ t.log := by
    rw [hlog]
    exact List.mem_append_right _ (List.mem_cons_of_mem _ hpin)
  obtain ⟨_, _, _, hpinned⟩ := h.history.mem hmem
  refine ⟨⟨pin, hpinned, hpin⟩, hown, fun id' text' hin => ?_⟩
  rcases List.mem_append.mp hin with hin | hin
  · exact not_revealed_later List.mem_cons_self hhist id text rfl id' text' hin
  · exact honce id' text' hin

theorem acceptsConfirmed {t : Tab} (h : t.Ok S nfkc) : AcceptsConfirmed S t := by
  intro later past ℓ bundle identity hlog
  have hhist : t.History S nfkc (later ++ .accepted ℓ bundle identity :: past) := hlog ▸ h.history
  obtain ⟨pin, c, hpin, hbefore, hconf, hreq, hcode, hopen⟩ := hhist.split
  exact ⟨pin, hpin, hbefore, hopen, c, hconf, hreq, hcode⟩

variable (S nfkc)

/-- Whatever the relay answers, and in whatever order: two browsers whose users have compared the code agree on both
one-time keys; a newcomer reveals once, after it has pinned; and it accepts what opens under the pin, once confirmed. -/
theorem link_agreement (hn : AsciiFixed nfkc) (n : Nat) (steps : List Tabs.Step)
    (hcodes : CodesInjective S (Tabs.run S nfkc n steps)) :
    ∀ a ∈ Tabs.run S nfkc n steps, RevealsOnce a.state ∧ AcceptsConfirmed S a.state ∧
      ∀ b ∈ Tabs.run S nfkc n steps, Agrees S nfkc a.state b.state := by
  intro a ha
  have hok : a.state.Ok S nfkc := run_ok S nfkc n steps a ha
  exact ⟨revealsOnce hok, acceptsConfirmed hok, fun b hb => agrees hn hcodes (run_ok S nfkc n steps) ha hb⟩

/-! ## The first link of `link_vectors.json` -/

/-- So many bytes, the first one the highest. -/
def bytesOf : Nat → Nat → Bytes
  | 0, _ => []
  | size + 1, n => bytesOf size (n / 256) ++ [UInt8.ofNat (n % 256)]

def ascii (text : String) : JsString := (utf8 text).map UInt8.toUInt16

namespace LinkVector

def user : JsString := ascii "usr_0123456789abcdefghjkmnpqrs"
def request : JsString := ascii "lnk_00000000000000000000000000"
def device : JsString := ascii "dev_00000000000000000000000000"

def identity : HeldIdentity where
  deviceId := device
  publicKey := bytesOf 32 0x1c9fd88f45606d932a80c71824ae151d15d73e77de38e8e000852e614fae7019
  privateKey := bytesOf 32 0xa546e36bf0527c9d3b16154b82465edd62144c0ac1fc5a18506a2244ba449ac4

def approver : Identity where
  privateKey := bytesOf 32 0x77076d0a7318a57d3c16c17251b26645df4c2f87ebc0992ab177fba51db92c2a
  publicKey := bytesOf 32 0x8520f0098930a754748b7ddcb43ef75a0dbf3a0d26381af4eba4a98eaa9b4e6a

def newcomer : Identity where
  privateKey := bytesOf 32 0x5dab087e624a8a4b79e17f8b83800ee66f3bb1292618b6fd1c2f8b27ff88e0eb
  publicKey := bytesOf 32 0xde9edb7d7b7dc1b4d35b61c2ece435373f8343c85b78674dadfc7e146f882b4f

def ephemeral : Bytes := bytesOf 32 0x000102030405060708090a0b0c0d0e0f101112131415161718191a1b1c1d1e1f

def commitment : Digest := bytesOf 32 0x80bd4d0021fb9d5235f2bdb6acf13bd4b09e8d232f08318b5d544583b8f65b6a

def bundle : Bytes := bytesOf 81 0x02b1f1b840de7a3241b02748cf9b05b74dc8c5e8451298738817bd76aa8ebe8c2b89fe12899015dd6c5c3525236f1839c4394477543944415a014aaa5671305506f8fbb8bb6607dd134e9f521b3351a8be

def checkInput (a n : Identity) : Bytes :=
  concat [utf8 "kynotes/link-check/v1", user.map UInt16.toUInt8, request.map UInt16.toUInt8, a.publicKey, n.publicKey]

/-- SHA-256 of the commitment and of the code, for each order of the two keys. -/
def digests : List (Bytes × Digest) :=
  [(concat [utf8 "kynotes/link-commit/v1", newcomer.publicKey], commitment),
    (checkInput approver newcomer, bytesOf 32 0x82dbe55eafd7f544ec3532a969c6830b5f82090dd8a4019f151b01963137b88d),
    (checkInput newcomer approver, bytesOf 32 0x96e51d04d4994c79264dd2a9099bf853e92c7aac1f012c3012b4fd62180ae784),
    (checkInput approver approver, bytesOf 32 0x163fde6099485b2573c63532981771abc045cf7d94fa425484a70a58aa22d9e3),
    (checkInput newcomer newcomer, bytesOf 32 0x7b34ab36685ab0b039b0ab45af652ed1878d44fc5e2e9c12018bd5a623e398eb)]

def info : Bytes := (linkInfo ⟨user, request, device, approver.publicKey, newcomer.publicKey⟩).getD []

/-- The suite on what this link computes. -/
def suite : Suite where
  sha256 := fun bytes => (digests.lookup bytes).getD []
  getPublicKey := fun privateKey =>
    (([approver, newcomer, ⟨identity.privateKey, identity.publicKey⟩].find? fun key => key.privateKey = privateKey).map
      Identity.publicKey).getD []
  getSharedSecret := fun privateKey publicKey =>
    if privateKey = newcomer.privateKey ∧ publicKey = approver.publicKey then
      some (bytesOf 32 0x4a5d9d5ba4ce2de1728e3bf480350f25e07e21c947d19e3376f09b3c1e161742)
    else none
  hkdfSha256 := fun _ _ _ _ => []
  decrypt := fun _ _ _ _ => none
  hpkeOpen := fun recipientKey senderPublicKey enc context ciphertext =>
    if recipientKey = newcomer.privateKey ∧ senderPublicKey = approver.publicKey ∧ context = info ∧
        enc = (bundle.drop 1).take 32 ∧ ciphertext = bundle.drop 33 then some identity.privateKey
    else none
  hpkeSeal := fun recipientPublicKey senderKey context plaintext seed =>
    if recipientPublicKey = newcomer.publicKey ∧ senderKey = approver.privateKey ∧ context = info ∧
        plaintext = identity.privateKey ∧ seed = ephemeral then some ((bundle.drop 1).take 32, bundle.drop 33)
    else none

/-- Tab 0 is linked by tab 1; the relay passes on what it gets. -/
def steps : List Tabs.Step :=
  [(0, .start (.start user)), (0, .answer 0 .canKeep (.ok true)), (0, .answer 0 .keygen (.ok newcomer.privateKey)),
    (0, .answer 0 (.create (base64 commitment)) (.ok (request, []))),
    (1, .start (.claim ⟨request, base64 commitment, []⟩ user)), (1, .answer 0 .keygen (.ok approver.privateKey)),
    (1, .answer 0 (.claim request (base64 approver.publicKey)) (.ok ())),
    (0, .start (.await 0 user 2)), (0, .answer 1 (.wait 4000) (.ok ())), (0, .answer 1 .wanted (.ok true)),
    (0, .answer 1 (.collect request) (.ok ⟨some (base64 approver.publicKey), none⟩)),
    (0, .answer 1 (.reveal request (base64 newcomer.publicKey)) (.ok ())), (0, .answer 1 .wanted (.ok true)),
    (1, .start (.revealed 0 (some ⟨request, base64 commitment, base64 newcomer.publicKey⟩) user)),
    (1, .start (.confirmTyped 1 (ascii "449182"))), (1, .start (.approve 1 0 identity user)),
    (1, .answer 3 .ephemeral (.ok ephemeral)), (1, .answer 3 .stepUp (.ok ())),
    (1, .answer 3 (.approve request (base64 bundle)) (.ok ())),
    (0, .answer 1 (.wait 4000) (.ok ())), (0, .answer 1 .wanted (.ok true)),
    (0, .answer 1 (.collect request) (.ok ⟨some (base64 approver.publicKey), some (base64 bundle)⟩)),
    (0, .answer 1 .wanted (.ok true)), (0, .start (.confirm request (ascii "449 182"))),
    (0, .start (.finish 1 bundle 0 user)), (0, .answer 3 .myIdentity (.ok (some ⟨device, base64 identity.publicKey⟩))),
    (0, .answer 3 .load (.ok none)), (0, .answer 3 (.save identity none) (.ok true))]

def tabs : Tabs := Tabs.run suite id 2 steps

theorem codesInjective : CodesInjective suite tabs := by
  have hattempts : ∀ x ∈ tabs.attempts, x.userID = user ∧ x.id = request := by decide +kernel
  have hkeys : ∀ key ∈ tabs.knownKeys, key ∈ [approver.publicKey, newcomer.publicKey] := by decide +kernel
  have hcodes : ∀ a ∈ [approver.publicKey, newcomer.publicKey], ∀ n ∈ [approver.publicKey, newcomer.publicKey],
      ∀ a' ∈ [approver.publicKey, newcomer.publicKey], ∀ n' ∈ [approver.publicKey, newcomer.publicKey],
        checkCode suite user request a n = checkCode suite user request a' n' → a = a' ∧ n = n' := by decide +kernel
  intro x hx y hy a ha n hn a' ha' n' hn' code hcode hcode'
  rw [(hattempts x hx).1, (hattempts x hx).2] at hcode
  rw [(hattempts y hy).1, (hattempts y hy).2] at hcode'
  exact hcodes a (hkeys a ha) n (hkeys n hn) a' (hkeys a' ha') n' (hkeys n' hn') (hcode.trans hcode'.symm)

end LinkVector

/-- The link of the test vector: the bundle is sent, and its identity is accepted. -/
theorem link_agreement_vector :
    (LinkVector.tabs.any fun l => l.state.log.any fun e => e matches .approved _ _ _) ∧
      (LinkVector.tabs.any fun l => l.state.log.any fun e => e matches .accepted _ _ _) ∧
      ∀ a ∈ LinkVector.tabs, RevealsOnce a.state ∧ AcceptsConfirmed LinkVector.suite a.state ∧
        ∀ b ∈ LinkVector.tabs, Agrees LinkVector.suite id a.state b.state :=
  ⟨by decide +kernel, by decide +kernel, link_agreement LinkVector.suite id (fun _ _ => rfl) 2 LinkVector.steps LinkVector.codesInjective⟩

end KyNotes.Web.LinkFlow
