import KyNotes.Bridge.Trust
import KyNotes.Web.Trust
import Mathlib.Data.List.Pairwise

/-!
# The two keyring openers (`cmd/kynotes-mcp/trust.go`, `web/src/keyring.ts`)

The bridge's `openKeyring` and the browser's take the same step at every row (`openRow_agrees`) and at every envelope left for
the second pass (`openDeferred_agrees`). The bridge opens an envelope as the browser does (`openKey_eq`), so that only what
surrounds the cryptography is compared.
-/

namespace KyNotes.Bridge

open Relational Web

variable {S : Suite}

/-! ## Envelopes -/

/-- An opened text is 16 bytes shorter than what it was opened from. -/
structure SealsKeys (S : Suite) : Prop where
  decrypt : ∀ key nonce aad ciphertext text, S.decrypt key nonce aad ciphertext = some text →
    ciphertext.length = text.length + 16
  hpkeOpen : ∀ key sender enc info ciphertext text, S.hpkeOpen key sender enc info ciphertext = some text →
    ciphertext.length = text.length + 16

theorem ascii_of_isId {p : IdPrefix} {v : JsString} (h : isId p v = true) : ∀ c ∈ v, c < 128 := by
  have hall : v.take 4 = p.text ∧ v.length = 30 ∧ (v.drop 4).all isIdChar = true := by simpa [isId] using h
  intro c hc
  rw [← List.take_append_drop 4 v, List.mem_append] at hc
  obtain hc | hc := hc
  · rw [hall.1] at hc
    cases p <;> simp only [IdPrefix.text, List.mem_cons, List.not_mem_nil, or_false] at hc <;>
      obtain rfl | rfl | rfl | rfl := hc <;> decide
  · have := List.all_eq_true.1 hall.2.2 c hc
    simp only [isIdChar, decide_eq_true_eq] at this
    grind

theorem decodeText_of_ascii {b : Bytes} (h : ∀ c ∈ b, c < 128) : decodeText b = b.map UInt8.toUInt16 :=
  List.map_congr_left fun c hc => if_pos (h c hc)

/-- The identifier that bytes are, in the browser and in the bridge. -/
theorem isId_decodeText {p : IdPrefix} (b : Bytes) : isId p (decodeText b) = isId p (b.map UInt8.toUInt16) ∧
    (isId p (decodeText b) = true → decodeText b = b.map UInt8.toUInt16) := by
  by_cases hb : ∀ c ∈ b, c < 128
  · rw [decodeText_of_ascii hb]
    exact ⟨rfl, fun _ => rfl⟩
  · have hnot : ∀ v : JsString, (∃ c ∈ v, ¬c < 128) → isId p v = false := by
      rintro v ⟨c, hc, hlt⟩
      by_contra hid
      exact hlt (ascii_of_isId (Bool.not_eq_false _ |>.mp hid) c hc)
    simp only [not_forall] at hb
    obtain ⟨c, hc, hlt⟩ := hb
    have h1 : isId p (decodeText b) = false :=
      hnot _ ⟨65533, List.mem_map.2 ⟨c, hc, if_neg hlt⟩, by decide⟩
    have h2 : isId p (b.map UInt8.toUInt16) = false := by
      refine hnot _ ⟨c.toUInt16, List.mem_map_of_mem hc, fun h => hlt ?_⟩
      rw [UInt16.lt_iff_toNat_lt, UInt8.toNat_toUInt16] at h
      exact UInt8.lt_iff_toNat_lt.2 h
    rw [h1, h2]
    exact ⟨rfl, fun h => by cases h⟩

theorem senderWith_eq (version : UInt8) (size : Nat) (envelope : Bytes) :
    (if envelope.length ≠ size ∨ envelope.head? ≠ some version ∨
        isId .dev (((envelope.drop 1).take ID_BYTES).map UInt8.toUInt16) = false then none
      else some (((envelope.drop 1).take ID_BYTES).map UInt8.toUInt16)) =
    if envelope.length = size ∧ envelope.head? = some version then
      if isId .dev (decodeText ((envelope.drop 1).take ID_BYTES)) then some (decodeText ((envelope.drop 1).take ID_BYTES))
      else none
    else none := by
  generalize (envelope.drop 1).take ID_BYTES = b
  obtain ⟨hid, htext⟩ := isId_decodeText (p := .dev) b
  by_cases hlen : envelope.length = size
  · by_cases hhead : envelope.head? = some version
    · rw [← hid, if_pos (And.intro hlen hhead)]
      cases hsender : isId .dev (decodeText b) with
      | false => simp
      | true => simp [hlen, hhead, ← htext hsender]
    · simp [hhead]
  · simp [hlen]

theorem envelopeSender_eq (alg : Alg) (envelope : Bytes) : envelopeSender alg envelope = Web.envelopeSender alg envelope := by
  cases alg with
  | other => rfl
  | hpkeAuth => exact senderWith_eq 3 ENVELOPE_BYTES envelope
  | legacy => exact senderWith_eq 2 LEGACY_ENVELOPE_BYTES envelope

theorem envelopeContext_eq (label : String) (containerID recipientDeviceID senderDeviceID : JsString) {g : Int} (h1 : 1 ≤ g)
    (h2 : g ≤ 4294967295) : envelopeContext label containerID g.toNat recipientDeviceID senderDeviceID =
      Web.envelopeContext label containerID (g : Web.Num) recipientDeviceID senderDeviceID := by
  have hgen : generationBytes (g : Web.Num) = some [UInt8.ofNat (g.toNat / 16777216), UInt8.ofNat (g.toNat / 65536),
      UInt8.ofNat (g.toNat / 256), UInt8.ofNat g.toNat] := by
    have hint : isInteger (g : Web.Num) = true := by simp [isInteger]
    have hlow : (1 : Web.Num) ≤ (g : Web.Num) := by exact_mod_cast h1
    have hhigh : (g : Web.Num) ≤ 4294967295 := by exact_mod_cast h2
    unfold generationBytes
    rw [if_pos ⟨hint, hlow, hhigh⟩]
    simp
  have hpos : g.toNat ≠ 0 := by omega
  unfold envelopeContext Web.envelopeContext
  rw [hgen]
  cases hc : isId .cnt containerID with
  | false => simp [idBytes, hc]
  | true =>
    cases hr : isId .dev recipientDeviceID with
    | false => simp [idBytes, hc, hr]
    | true =>
      cases hs : isId .dev senderDeviceID with
      | false => simp [idBytes, hc, hr, hs]
      | true => simp [idBytes, hc, hr, hs, hpos, concat]

theorem generationBytes_none {g : Int} (h : g < 1 ∨ g > 4294967295) : generationBytes (g : Web.Num) = none := by
  unfold generationBytes
  refine if_neg fun hg => ?_
  have hlow : 1 ≤ g := by exact_mod_cast hg.2.1
  have hhigh : g ≤ 4294967295 := by exact_mod_cast hg.2.2
  omega

/-- Both open an envelope to the same bytes. -/
theorem openEnvelope_eq (alg : Alg) (envelope recipient : Bytes) (containerID recipientDeviceID : JsString) {g : Int}
    (h1 : 1 ≤ g) (h2 : g ≤ 4294967295) (sender : Bytes) :
    openEnvelope S alg envelope recipient containerID g.toNat recipientDeviceID sender =
      unwrapEnvelope S alg envelope recipient containerID (g : Web.Num) recipientDeviceID sender := by
  unfold openEnvelope unwrapEnvelope
  rw [envelopeSender_eq]
  cases hs : Web.envelopeSender alg envelope with
  | none => rfl
  | some senderDeviceID =>
    simp only [Option.bind_eq_bind, Option.bind_some]
    by_cases hlen : sender.length = 32
    · rw [if_neg (not_not.2 hlen)]
      cases alg with
      | legacy =>
        simp only [if_true]
        unfold openLegacyEnvelope unwrapLegacyEnvelope
        rw [envelopeContext_eq _ _ _ _ h1 h2]
        simp [hlen, concat, List.drop_take, ID_BYTES]
      | hpkeAuth | other =>
        simp only [reduceCtorEq, if_false]
        rw [envelopeContext_eq _ _ _ _ h1 h2]
        simp [hlen, envelopeInfo, List.drop_take, ID_BYTES]
    · rw [if_pos hlen]
      cases alg with
      | legacy =>
        simp only [if_true]
        unfold openLegacyEnvelope
        simp [hlen]
      | hpkeAuth | other => simp [hlen]

theorem envelopeSender_length {alg : Alg} {envelope : Bytes} {sender : JsString}
    (h : Web.envelopeSender alg envelope = some sender) :
    envelope.length = if alg = .legacy then LEGACY_ENVELOPE_BYTES else ENVELOPE_BYTES := by
  unfold Web.envelopeSender at h
  cases alg with
  | other => cases h
  | hpkeAuth | legacy =>
    simp only at h
    split at h
    · rename_i hform
      exact hform.1
    · cases h

/-- An envelope that opens has a key of 32 bytes. -/
theorem unwrapEnvelope_length (hS : SealsKeys S) {alg : Alg} {envelope recipient key sender : Bytes} {g : Web.Num}
    {containerID recipientDeviceID : JsString}
    (h : unwrapEnvelope S alg envelope recipient containerID g recipientDeviceID sender = some key) : key.length = 32 := by
  unfold unwrapEnvelope at h
  simp only [Option.bind_eq_bind, Option.bind_eq_some_iff] at h
  obtain ⟨device, hdevice, h⟩ := h
  have hlen := envelopeSender_length hdevice
  split at h
  · cases h
  split at h
  · rename_i halg
    rw [if_pos halg] at hlen
    unfold unwrapLegacyEnvelope at h
    simp only [Option.bind_eq_bind, Option.bind_eq_some_iff] at h
    obtain ⟨_, -, _, -, _, -, h⟩ := h
    have := hS.decrypt _ _ _ _ _ h
    rw [List.length_drop, hlen, LEGACY_ENVELOPE_BYTES] at this
    omega
  · rename_i halg
    rw [if_neg halg] at hlen
    simp only [Option.bind_eq_some_iff] at h
    obtain ⟨_, -, h⟩ := h
    have := hS.hpkeOpen _ _ _ _ _ _ h
    rw [List.length_drop, hlen, ENVELOPE_BYTES] at this
    omega

/-- The same identity in the bridge. -/
def bridgeSelf (me : Me) : Self := ⟨me.userId, me.deviceId, me.privateKey⟩

/-- Both take the same key from an envelope. -/
theorem openKey_eq (hS : SealsKeys S) (containerID : JsString) (me : Me) (alg : Alg) (envelope : Bytes) (g : Int)
    (sender : Bytes) : (Web.openEnvelope S containerID me alg envelope (g : Web.Num) sender).map KeyRef.bytes =
      openKey S containerID (bridgeSelf me) alg envelope g sender := by
  unfold openKey Web.openEnvelope
  by_cases hrange : g < 1 ∨ g > 4294967295
  · rw [if_pos hrange]
    cases hu : unwrapEnvelope S alg envelope me.privateKey containerID g me.deviceId sender with
    | none => rfl
    | some key =>
      exfalso
      unfold unwrapEnvelope at hu
      simp only [Option.bind_eq_bind, Option.bind_eq_some_iff] at hu
      obtain ⟨device, -, hu⟩ := hu
      simp [unwrapLegacyEnvelope, envelopeInfo, Web.envelopeContext, generationBytes_none hrange] at hu
  · rw [if_neg hrange, openEnvelope_eq _ _ _ _ _ (by omega) (by omega)]
    simp only [bridgeSelf]
    cases hu : unwrapEnvelope S alg envelope me.privateKey containerID g me.deviceId sender with
    | none => rfl
    | some key =>
      simp only [Option.bind_some, asContentKey, dif_pos (unwrapEnvelope_length hS hu)]
      rfl

/-! ## The first pass -/

/-- A public key in base64. -/
def WellFormedKey (k : JsString) : Prop := ∃ raw : Bytes, raw.length = 32 ∧ k = base64 raw

theorem WellFormedKey.bridge {k : JsString} (h : WellFormedKey k) : publicKey k = publicKeyBytes k := by
  obtain ⟨raw, hlen, rfl⟩ := h
  have hstd : Base64.decodeStd (base64 raw) = some raw := Base64.decodeStd_encode raw
  rw [publicKeyBytes_base64 hlen, publicKey, hstd, Option.filter_some, if_pos (decide_eq_true hlen)]

/-- Two entries show different devices. -/
def Apart (a b : Member) : Prop := ∀ i ∈ a.identity, ∀ j ∈ b.identity, i.deviceId ≠ j.deviceId

/-- A member list with pairwise distinct identity devices and well-formed user IDs and keys, in which the caller's own entry
shows no other device. -/
structure Listed (me : Me) (members : List Member) : Prop where
  apart : members.Pairwise Apart
  userId : ∀ m ∈ members, isId .usr m.userId = true
  key : ∀ m ∈ members, ∀ i ∈ m.identity, WellFormedKey i.publicKey
  own : ∀ m ∈ members, m.userId = me.userId → ∀ i ∈ m.identity, i.deviceId = me.deviceId

/-- The entries of one user show one key. -/
def OneKey (members : List Member) : Prop :=
  ∀ a ∈ members, ∀ b ∈ members, a.userId = b.userId → ∀ i ∈ a.identity, ∀ j ∈ b.identity, i.publicKey = j.publicKey

/-- No listed steward shows another key than its pin. -/
def Uncontradicted (members : List Member) (pins : Pins) : Prop :=
  ∀ m ∈ members, isSteward m.role = true → ∀ i ∈ m.identity, ∀ p, pins.lookup m.userId = some p →
    Web.sameKey p i.publicKey = true

section Members

variable {me : Me} {members : List Member} {m m' : Member} {device : JsString}

def ShowsDevice (device : JsString) (m : Member) : Bool := m.identity.any fun i => i.deviceId = device

theorem showsDevice_iff : ShowsDevice device m = true ↔ ∃ i ∈ m.identity, i.deviceId = device := by
  simp [ShowsDevice, Option.any_eq_true]

instance : Std.Symm Apart := ⟨fun _ _ hab i hi j hj he => hab j hj i hi he.symm⟩

theorem Listed.unique (h : Listed me members) (hm : m ∈ members) (hm' : m' ∈ members) (hd : ShowsDevice device m = true)
    (hd' : ShowsDevice device m' = true) : m = m' := by
  by_contra hne
  obtain ⟨i, hi, hid⟩ := showsDevice_iff.1 hd
  obtain ⟨j, hj, hjd⟩ := showsDevice_iff.1 hd'
  exact h.apart.forall hm hm' hne i hi j hj (hid.trans hjd.symm)

theorem find?_eq_of_unique {l : List Member} {p : Member → Bool} (hm : m ∈ l) (hp : p m = true)
    (hu : ∀ x ∈ l, p x = true → x = m) : l.find? p = some m := by
  cases hf : l.find? p with
  | none => exact absurd hp (by simpa using List.find?_eq_none.1 hf m hm)
  | some x => rw [hu x (List.mem_of_find?_eq_some hf) (List.find?_some hf)]

end Members

/-- Both have opened the same keys, with the same digests, mark and first contacts. -/
structure SameOut (out : OpenedRing) (ts : OpenedKeyring) : Prop where
  ring : ∀ g : Int, (ts.ring.lookup (g : Web.Num)).map KeyRef.bytes = out.ring.lookup g
  digests : ∀ g : Int, ts.known.digests.lookup (g : Web.Num) = out.known.digests.lookup g
  noted : ∀ g, (out.ring.lookup g).isSome → (out.known.digests.lookup g).isSome
  mark : ts.known.mark = out.known.mark
  fresh : ts.fresh = out.fresh

section Accept

variable {out : OpenedRing} {ts : OpenedKeyring}

theorem lookup_set_cast {ν : Type} (t : Record Web.Num ν) (g g' : Int) (v : ν) :
    (t.set (g : Web.Num) v).lookup (g' : Web.Num) = if g' = g then some v else t.lookup (g' : Web.Num) := by
  rw [Record.lookup_set]
  simp only [Rat.intCast_inj]

theorem SameOut.conflict (h : SameOut out ts) (g : Web.Num) : SameOut out (addConflict ts g) :=
  ⟨h.ring, h.digests, h.noted, h.mark, h.fresh⟩

/-- A key of a generation that has none yet, and whose stored digest is that of the key. -/
theorem SameOut.set (h : SameOut out ts) {g : Int} {key : KeyRef} (hnone : ts.ring.lookup (g : Web.Num) = none)
    (hmatch : ∀ d, ts.known.digests.lookup (g : Web.Num) = some d → d = S.sha256 key.bytes) :
    SameOut { out with
      ring := out.ring.set g key.bytes
      known := { out.known with digests := out.known.digests.set g (S.sha256 key.bytes) } } (remember S ts (g : Web.Num) key) where
  ring := by
    intro g'
    simp only [remember, hnone, Option.getD_none]
    rw [lookup_set_cast, Record.lookup_set]
    split
    · rfl
    · exact h.ring g'
  digests := by
    intro g'
    simp only [remember, Record.lookup_set]
    split
    · rename_i hsome
      split
      · rename_i he
        obtain ⟨d, hd⟩ := Option.isSome_iff_exists.1 hsome
        rw [he, hd, hmatch d hd]
      · exact h.digests g'
    · rw [lookup_set_cast]
      split
      · rfl
      · exact h.digests g'
  noted := by
    intro g' hg
    simp only [Record.lookup_set] at hg ⊢
    split
    · rfl
    · rename_i hne
      rw [if_neg hne] at hg
      exact h.noted g' hg
  mark := h.mark
  fresh := h.fresh

/-- Both accept a key or both do not. -/
theorem SameOut.accept (hc : CollisionFree S) (h : SameOut out ts) (g : Int) (key : KeyRef) :
    (accept S out g key.bytes).2 = (Web.accept S ts (g : Web.Num) key).2 ∧
      SameOut (accept S out g key.bytes).1 (Web.accept S ts (g : Web.Num) key).1 := by
  have hring := h.ring g
  have hdig := h.digests g
  unfold Bridge.accept Web.accept matchesKnown
  cases hprior : ts.ring.lookup (g : Web.Num) with
  | some prior =>
    rw [hprior] at hring
    simp only [← hring, Option.map_some, decide_eq_true_eq]
    by_cases heq : prior = key
    · subst heq
      simp only [if_true, decide_true, true_and]
      have hnoted := h.noted g (by rw [← hring]; rfl)
      rw [← hdig] at hnoted
      unfold remember
      refine ⟨fun g' => ?_, fun g' => ?_, h.noted, h.mark, h.fresh⟩
      · simp only [lookup_set_cast, hprior, Option.getD_some]
        split
        · rename_i he
          rw [he, ← hring]
        · exact h.ring g'
      · simp only [if_pos hnoted]
        exact h.digests g'
    · have hbytes : prior.bytes ≠ key.bytes := by
        intro he
        exact heq (hc _ _ (congrArg S.sha256 he))
      have hsha : S.sha256 prior.bytes ≠ S.sha256 key.bytes := fun he => heq (hc _ _ he)
      simp only [if_neg hsha, decide_eq_false hbytes, true_and]
      exact h.conflict _
  | none =>
    rw [hprior] at hring
    simp only [← hring, Option.map_none]
    cases hstored : ts.known.digests.lookup (g : Web.Num) with
    | none =>
      rw [hstored] at hdig
      simp only [← hdig, Option.any_none, Bool.false_eq_true, if_false, Option.getD_none, decide_true, if_true, true_and]
      exact h.set hprior fun d hd => by rw [hstored] at hd; cases hd
    | some d =>
      rw [hstored] at hdig
      simp only [← hdig, Option.any_some, Option.getD_some, decide_eq_true_eq]
      by_cases hd : d = S.sha256 key.bytes
      · simp only [if_neg (not_not.2 hd), if_pos hd, true_and]
        exact h.set hprior fun d' hd' => by rw [hstored] at hd'; cases hd'; exact hd
      · simp only [if_pos hd, if_neg hd, true_and]
        exact h.conflict _

end Accept

/-- The passes of both stand at the same rows. -/
structure Agrees (members : List Member) (pins : Pins) (p : Pass) (ts : OpenedKeyring × List Deferred) : Prop where
  out : SameOut p.out ts.1
  pins : ∀ u, ts.1.pins.lookup u = (pins.lookup u).or (p.newPins.lookup u)
  seen : ∀ u k, p.newPins.lookup u = some k → ∃ m ∈ members, m.userId = u ∧ ∃ i ∈ m.identity, i.publicKey = k
  deferred : ts.2 = p.deferred.map fun d => ⟨d.alg, d.envelope, d.generation⟩

section Rows

variable {me : Me} {members : List Member} {pins : Pins} {p : Pass} {ts : OpenedKeyring × List Deferred} {m : Member}
  {sender : JsString}

theorem stewardOf_none (h : ∀ m ∈ members, ShowsDevice sender m = true → isSteward m.role = false) :
    stewardOf (bridgeSelf me) members sender = none := by
  refine List.find?_eq_none.2 fun m hm hp => ?_
  simp only [Bool.and_eq_true] at hp
  have hfalse := h m (List.mem_reverse.1 hm) hp.1.1.1
  rw [hfalse] at hp
  exact absurd hp.1.2 Bool.false_ne_true

theorem stewardOf_some (L : Listed me members) (hm : m ∈ members) (hd : ShowsDevice sender m = true)
    (hs : isSteward m.role = true) (hne : m.userId ≠ me.userId) :
    stewardOf (bridgeSelf me) members sender = some m := by
  refine find?_eq_of_unique (List.mem_reverse.2 hm) ?_ fun x hx hp => ?_
  · have hid := L.userId m hm
    simp only [Bool.and_eq_true]
    exact ⟨⟨⟨hd, decide_eq_true hne⟩, hs⟩, hid⟩
  · simp only [Bool.and_eq_true] at hp
    exact L.unique (List.mem_reverse.1 hx) hm hp.1.1.1 hd

/-- What both take the sender of an envelope for. -/
theorem sender_agrees (hkey : me.publicKey = S.getPublicKey me.privateKey) (L : Listed me members) (hone : OneKey members)
    (hunc : Uncontradicted members pins) (hpins : ∀ u k, pins.lookup u = some k → WellFormedKey k)
    (h : Agrees members pins p ts) (sender : JsString) :
    match senderOf me members ts.1.pins sender with
    | .self => senderKey S (bridgeSelf me) members pins p.newPins sender = .ok (some (some me.publicKey, none))
    | .stranger => senderKey S (bridgeSelf me) members pins p.newPins sender = .ok (some (none, none))
    | .steward m i first => m ∈ members ∧ m.identity = some i ∧ (first = true ↔ ts.1.pins.lookup m.userId = none) ∧
        ∃ pub, publicKeyBytes i.publicKey = some pub ∧
          senderKey S (bridgeSelf me) members pins p.newPins sender = .ok (some (some pub, some m))
    | .own | .changed _ _ => False := by
  unfold senderOf senderKey
  by_cases hself : sender = me.deviceId
  · have hself' : sender = (bridgeSelf me).deviceID := hself
    simp only [if_pos hself, if_pos hself', hkey]
    rfl
  have hself' : ¬sender = (bridgeSelf me).deviceID := hself
  simp only [if_neg hself, if_neg hself']
  cases hf : members.find? fun entry => entry.identity.any fun i => i.deviceId = sender with
  | none =>
    have hnone : stewardOf (bridgeSelf me) members sender = none :=
      stewardOf_none fun m hm hd => absurd hd (List.find?_eq_none.1 hf m hm)
    simp only [hnone]
  | some m =>
    have hm := List.mem_of_find?_eq_some hf
    have hd : ShowsDevice sender m = true := List.find?_some hf
    obtain ⟨i, hi, hdev⟩ := showsDevice_iff.1 hd
    have hne : m.userId ≠ me.userId := fun he => hself (hdev.symm.trans (L.own m hm he i hi))
    simp only [if_neg hne]
    cases hs : isSteward m.role with
    | false =>
      have hnone : stewardOf (bridgeSelf me) members sender = none := by
        refine stewardOf_none fun x hx hdx => ?_
        rw [L.unique hx hm hdx hd]
        exact hs
      simp only [hnone, Bool.false_eq_true, if_false]
    | true =>
      have hi' : m.identity = some i := hi
      have hwell := L.key m hm i hi
      obtain ⟨raw, hlen, hraw⟩ := hwell
      have hpub : publicKeyBytes i.publicKey = some raw := by rw [hraw, publicKeyBytes_base64 hlen]
      have hpub' : publicKey i.publicKey = some raw := by rw [(L.key m hm i hi).bridge, hpub]
      have hpin := h.pins m.userId
      simp only [stewardOf_some L hm hd hs hne, if_true, hi', Option.map_some, Option.getD_some, hpub']
      rw [← hpin]
      cases hp : ts.1.pins.lookup m.userId with
      | none => exact ⟨hm, hi', iff_of_true rfl hp, raw, hpub, rfl⟩
      | some pinned =>
        have hsame : publicKeyBytes pinned = some raw ∧ publicKey pinned = some raw := by
          rw [hp] at hpin
          obtain hold | ⟨-, hnew⟩ := Option.or_eq_some_iff.1 hpin.symm
          · obtain ⟨x, hx, hx'⟩ := sameKey_iff.1 (hunc m hm hs i hi pinned hold)
            rw [hpub] at hx'
            rw [(hpins _ _ hold).bridge, hx]
            exact ⟨hx'.symm, hx'.symm⟩
          · obtain ⟨a, ha, hu, j, hj, hkj⟩ := h.seen _ _ hnew
            rw [← hkj, hone a ha m hm hu j hj i hi]
            exact ⟨hpub, hpub'⟩
        have hweb : Web.sameKey pinned i.publicKey = true := sameKey_iff.2 ⟨raw, hsame.1, hpub⟩
        have hbridge : sameKey pinned i.publicKey = true := by simp [sameKey, hsame.2, hpub']
        simp only [hweb, hbridge, if_true, Bool.true_eq_false, if_false]
        exact ⟨hm, hi', iff_of_false Bool.false_ne_true (by rw [hp]; exact Option.some_ne_none _), raw, hpub, rfl⟩

/-- A row of the bridge, as the browser reads it. -/
abbrev toEnvelope (r : EnvelopeRow) : Envelope := ⟨r.deviceId, r.keyGeneration, r.alg, r.envelope⟩

theorem Agrees.defer (h : Agrees members pins p ts) (alg : Alg) (envelope : Bytes) (g : Int) :
    Agrees members pins { p with deferred := p.deferred ++ [⟨alg, envelope, g⟩] } (ts.1, ts.2 ++ [⟨alg, envelope, g⟩]) where
  out := h.out
  pins := h.pins
  seen := h.seen
  deferred := by simp [h.deferred]

theorem accept_refused {out : OpenedRing} {g : Int} {key : Bytes} (h : (accept S out g key).2 = false) :
    (accept S out g key).1 = out := by
  unfold accept at h ⊢
  simp only at h ⊢
  split
  · rfl
  · rename_i hnone
    rw [hnone] at h
    simp only at h
    split
    · rfl
    · rename_i hany
      rw [if_neg hany] at h
      cases h

theorem cast_max (a b : Int) : ((max a b : Int) : Web.Num) = max (a : Web.Num) (b : Web.Num) := by
  obtain h | h := le_total a b
  · rw [max_eq_right h, max_eq_right (by exact_mod_cast h)]
  · rw [max_eq_left h, max_eq_left (by exact_mod_cast h)]

/-- The mark of both rises to a generation. -/
theorem SameOut.raise {out : OpenedRing} {o : OpenedKeyring} (h : SameOut out o) (g : Int) :
    SameOut { out with known := { out.known with mark := max out.known.mark g } }
      { o with known := { o.known with mark := max o.known.mark (g : Web.Num) } } :=
  ⟨h.ring, h.digests, h.noted, by simp only [h.mark, cast_max], h.fresh⟩

/-- Both pin a steward that has no pin. -/
theorem Agrees.pinned (h : Agrees members pins p ts) {i : PublicIdentity} (hm : m ∈ members) (hi : m.identity = some i)
    (hnew : ts.1.pins.lookup m.userId = none) :
    Agrees members pins (pin pins p (some m))
      ({ ts.1 with pins := ts.1.pins.set m.userId i.publicKey, fresh := ts.1.fresh ++ [m] }, ts.2) := by
  have hboth := (h.pins m.userId).symm.trans hnew
  obtain ⟨hold, hnew'⟩ := Option.or_eq_none_iff.1 hboth
  have hcond : ¬((pins.lookup m.userId).isSome = true ∨ (p.newPins.lookup m.userId).isSome = true) := by simp [hold, hnew']
  unfold pin
  simp only [if_neg hcond, hi, Option.map_some, Option.getD_some]
  refine ⟨⟨h.out.ring, h.out.digests, h.out.noted, h.out.mark, by simp only [h.out.fresh]⟩, fun u => ?_, fun u k hk => ?_,
    h.deferred⟩
  · simp only [Record.lookup_set]
    split
    · rename_i he
      rw [he, hold]
      rfl
    · exact h.pins u
  · simp only [Record.lookup_set] at hk
    split at hk
    · rename_i he
      cases hk
      exact ⟨m, hm, he.symm, i, hi, rfl⟩
    · exact h.seen u k hk

theorem pin_pinned (h : Agrees members pins p ts) (hold : ts.1.pins.lookup m.userId ≠ none) : pin pins p (some m) = p := by
  have hboth : (pins.lookup m.userId).isSome = true ∨ (p.newPins.lookup m.userId).isSome = true := by
    rwa [h.pins, Option.ne_none_iff_isSome, Option.isSome_or, Bool.or_eq_true] at hold
  unfold pin
  simp only [if_pos hboth]

theorem adopt_eq (o : OpenedKeyring) (g : Web.Num) (key : KeyRef) (first : Option (MemberKey × PublicIdentity)) :
    Web.adopt S o g key first = if (Web.accept S o g key).2 = true then
      match first with
      | none => { (Web.accept S o g key).1 with known := { (Web.accept S o g key).1.known with
          mark := max (Web.accept S o g key).1.known.mark g } }
      | some (member, identity) => { (Web.accept S o g key).1 with
          known := { (Web.accept S o g key).1.known with mark := max (Web.accept S o g key).1.known.mark g }
          pins := (Web.accept S o g key).1.pins.set member.userId identity.publicKey
          fresh := (Web.accept S o g key).1.fresh ++ [member] }
    else (Web.accept S o g key).1 := rfl

/-- Both adopt a key that they open, or refuse it. -/
theorem Agrees.adopt (hc : CollisionFree S) (h : Agrees members pins p ts) (g : Int) (key : KeyRef) (steward : Option Member)
    (first : Option (MemberKey × PublicIdentity))
    (hfirst : ∀ m, steward = some m → m ∈ members ∧ ∃ i, m.identity = some i ∧
      first = if ts.1.pins.lookup m.userId = none then some (m, i) else none)
    (hnone : steward = none → first = none) :
    Agrees members pins
      (if (accept S p.out g key.bytes).2 then
        pin pins { p with out := { (accept S p.out g key.bytes).1 with
          known := { (accept S p.out g key.bytes).1.known with
            mark := max (accept S p.out g key.bytes).1.known.mark g } } } steward
      else p)
      (Web.adopt S ts.1 (g : Web.Num) key first, ts.2) := by
  obtain ⟨hacc, hout⟩ := h.out.accept hc g key
  have hpins : (Web.accept S ts.1 (g : Web.Num) key).1.pins = ts.1.pins := accept_pins ts.1 (g : Web.Num) key
  rw [adopt_eq, hacc]
  cases hb : (Web.accept S ts.1 (g : Web.Num) key).2 with
  | false =>
    simp only [Bool.false_eq_true, if_false]
    rw [accept_refused (hacc.trans hb)] at hout
    exact ⟨hout, fun u => hpins ▸ h.pins u, h.seen, h.deferred⟩
  | true =>
    simp only [if_true]
    have hraised := hout.raise g
    cases steward with
    | none =>
      rw [hnone rfl]
      exact ⟨hraised, fun u => hpins ▸ h.pins u, h.seen, h.deferred⟩
    | some m =>
      obtain ⟨hm, i, hi, hf⟩ := hfirst m rfl
      have hA : Agrees members pins { p with out := { (accept S p.out g key.bytes).1 with
          known := { (accept S p.out g key.bytes).1.known with
            mark := max (accept S p.out g key.bytes).1.known.mark g } } }
          ({ (Web.accept S ts.1 (g : Web.Num) key).1 with
            known := { (Web.accept S ts.1 (g : Web.Num) key).1.known with
              mark := max (Web.accept S ts.1 (g : Web.Num) key).1.known.mark (g : Web.Num) } }, ts.2) :=
        ⟨hraised, fun u => hpins ▸ h.pins u, h.seen, h.deferred⟩
      by_cases hnew : ts.1.pins.lookup m.userId = none
      · rw [hf, if_pos hnew]
        exact hA.pinned hm hi (hpins ▸ hnew)
      · rw [hf, if_neg hnew, pin_pinned hA (hpins ▸ hnew)]
        exact hA

/-- Both open a row with the key of its sender, and adopt what they open. -/
theorem openWith_agrees (hS : SealsKeys S) (hc : CollisionFree S) (h : Agrees members pins p ts) {containerID : JsString}
    {alg : Alg} {envelope : Bytes} {g : Int} {pub : Bytes} {steward : Option Member}
    {first : Option (MemberKey × PublicIdentity)}
    (hfirst : ∀ m, steward = some m → m ∈ members ∧ ∃ i, m.identity = some i ∧
      first = if ts.1.pins.lookup m.userId = none then some (m, i) else none)
    (hnone : steward = none → first = none) :
    Agrees members pins (openWith S containerID (bridgeSelf me) pins p alg envelope g (some pub) steward)
      (match Web.openEnvelope S containerID me alg envelope g pub with
      | none => (ts.1, ts.2 ++ [⟨alg, envelope, g⟩])
      | some key => (Web.adopt S ts.1 g key first, ts.2)) := by
  have hopen := openKey_eq hS containerID me alg envelope g pub
  unfold openWith
  rw [Option.bind_some, ← hopen]
  cases Web.openEnvelope S containerID me alg envelope g pub with
  | none => exact h.defer alg envelope g
  | some key => exact h.adopt hc g key steward first hfirst hnone

/-- Both take the same step at a row. -/
theorem openRow_agrees (hS : SealsKeys S) (hc : CollisionFree S) (hkey : me.publicKey = S.getPublicKey me.privateKey)
    (L : Listed me members) (hone : OneKey members) (hunc : Uncontradicted members pins)
    (hpins : ∀ u k, pins.lookup u = some k → WellFormedKey k) {input : OpenKeyringInput} (hmembers : input.members = members)
    (h : Agrees members pins p ts) (r : EnvelopeRow) (hr : ∃ raw : Bytes, r.envelope = base64 raw) :
    ∃ p', openRow S input.containerID (bridgeSelf me) members pins p r = .ok p' ∧
      Agrees members pins p' (Web.openRow S input me ts (toEnvelope r)) := by
  obtain ⟨raw, hraw⟩ := hr
  have hstd : Base64.decodeStd r.envelope = some raw := by
    rw [hraw]
    exact Base64.decodeStd_encode raw
  have hweb : fromBase64 r.envelope = some raw := by rw [hraw, fromBase64_base64]
  obtain ⟨o, ds⟩ := ts
  unfold openRow Web.openRow
  by_cases hskip : r.deviceId ≠ (bridgeSelf me).deviceID ∨ r.alg = .other
  · have hskip' : (toEnvelope r).deviceId ≠ me.deviceId ∨ (toEnvelope r).alg = .other := hskip
    simp only [if_pos hskip, if_pos hskip']
    exact ⟨p, rfl, h⟩
  have hskip' : ¬((toEnvelope r).deviceId ≠ me.deviceId ∨ (toEnvelope r).alg = .other) := hskip
  simp only [if_neg hskip, if_neg hskip', hstd, hweb, envelopeSender_eq]
  cases hs : Web.envelopeSender r.alg raw with
  | none => exact ⟨p, rfl, h⟩
  | some sender =>
    have hsender := sender_agrees (S := S) hkey L hone hunc hpins h sender
    simp only [Option.map_some, hmembers]
    cases hof : senderOf me members o.pins sender with
    | self =>
      simp only [hof] at hsender
      simp only [hsender]
      exact ⟨_, rfl, openWith_agrees hS hc h (fun m hm => by cases hm) fun _ => rfl⟩
    | stranger =>
      simp only [hof] at hsender
      simp only [hsender]
      exact ⟨_, rfl, h.defer _ _ _⟩
    | steward m i first =>
      simp only [hof] at hsender
      obtain ⟨hm, hi, hfirst, pub, hpub, hsend⟩ := hsender
      simp only [hsend, hpub]
      refine ⟨_, rfl, openWith_agrees hS hc h (fun m' hm' => ?_) fun hn => by cases hn⟩
      cases hm'
      refine ⟨hm, i, hi, ?_⟩
      by_cases hnew : o.pins.lookup m.userId = none
      · rw [if_pos hnew, if_pos (hfirst.2 hnew)]
      · rw [if_neg hnew, if_neg (fun hf => hnew (hfirst.1 hf))]
    | own => simp only [hof] at hsender
    | changed m k => simp only [hof] at hsender

theorem openRows_agrees (hS : SealsKeys S) (hc : CollisionFree S) (hkey : me.publicKey = S.getPublicKey me.privateKey)
    (L : Listed me members) (hone : OneKey members) (hunc : Uncontradicted members pins)
    (hpins : ∀ u k, pins.lookup u = some k → WellFormedKey k) {input : OpenKeyringInput} (hmembers : input.members = members)
    {rows : List EnvelopeRow} (hrows : ∀ r ∈ rows, ∃ raw : Bytes, r.envelope = base64 raw) (h : Agrees members pins p ts) :
    ∃ p', openRows S input.containerID (bridgeSelf me) members pins p rows = .ok p' ∧
      Agrees members pins p' ((rows.map toEnvelope).foldl (Web.openRow S input me) ts) := by
  induction rows generalizing p ts with
  | nil => exact ⟨p, rfl, h⟩
  | cons r rows ih =>
    obtain ⟨p₁, hp₁, h₁⟩ := openRow_agrees hS hc hkey L hone hunc hpins hmembers h r (hrows r List.mem_cons_self)
    obtain ⟨p', hp', h'⟩ := ih (fun r hr => hrows r (List.mem_cons_of_mem _ hr)) h₁
    refine ⟨p', ?_, h'⟩
    simp only [openRows, hp₁, hp']

end Rows

/-! ## The second pass -/

/-- An envelope opens under at most one sender key. -/
def OneSender (S : Suite) (containerID : JsString) (me : Me) : Prop :=
  ∀ alg envelope (g : Web.Num) sender sender' key key', Web.openEnvelope S containerID me alg envelope g sender = some key →
    Web.openEnvelope S containerID me alg envelope g sender' = some key' → sender = sender'

/-- What opens does not depend on the order in which senders are tried, if one of them opens at most. -/
theorem findSome_agrees {α β γ : Type} {b : β → γ} {f : α → Option γ} {f' : α → Option β} {l l' : List α}
    (hmem : ∀ x, x ∈ l ↔ x ∈ l') (hf : ∀ x, (f' x).map b = f x)
    (hone : ∀ x y k k', f' x = some k → f' y = some k' → x = y) : (l'.findSome? f').map b = l.findSome? f := by
  cases hf' : l'.findSome? f' with
  | none =>
    refine (List.findSome?_eq_none_iff.2 fun x hx => ?_).symm
    rw [← hf, List.findSome?_eq_none_iff.1 hf' x ((hmem x).1 hx)]
    rfl
  | some k =>
    obtain ⟨x, hx, hk⟩ := List.exists_of_findSome?_eq_some hf'
    cases hg : l.findSome? f with
    | none =>
      have hnone := List.findSome?_eq_none_iff.1 hg x ((hmem x).2 hx)
      rw [← hf, hk] at hnone
      cases hnone
    | some c =>
      obtain ⟨y, hy, hc⟩ := List.exists_of_findSome?_eq_some hg
      rw [← hf, Option.map_eq_some_iff] at hc
      obtain ⟨k', hk', rfl⟩ := hc
      obtain rfl := hone x y k k' hk hk'
      rw [hk] at hk'
      cases hk'
      rfl

section Second

variable {me : Me} {pins goPins : Pins} {out : OpenedRing} {o : OpenedKeyring}

theorem mem_pinnedKeys (hsame : ∀ u, goPins.lookup u = pins.lookup u) (hpins : ∀ u k, pins.lookup u = some k → WellFormedKey k)
    (x : Bytes) : x ∈ goPins.rows.filterMap (fun pin => publicKey pin.2) ↔
      x ∈ pins.rows.filterMap fun pin => publicKeyBytes pin.2 := by
  have hmem : ∀ pin, pin ∈ goPins.rows ↔ pin ∈ pins.rows := fun pin =>
    (Record.lookup_eq_some (t := goPins)).symm.trans ((hsame pin.1).symm ▸ Record.lookup_eq_some (t := pins))
  rw [List.mem_filterMap, List.mem_filterMap]
  refine exists_congr fun pin => ?_
  rw [hmem]
  refine and_congr_right fun hpin => ?_
  rw [(hpins pin.1 pin.2 (Record.lookup_eq_some.2 hpin)).bridge]

/-- Both do the same with an envelope that was left. -/
theorem openDeferred_agrees (hS : SealsKeys S) (hc : CollisionFree S) {input : OpenKeyringInput}
    (hsender : OneSender S input.containerID me) (hsame : ∀ u, goPins.lookup u = input.pins.lookup u)
    (hpins : ∀ u k, input.pins.lookup u = some k → WellFormedKey k) (h : SameOut out o) (d : Row) :
    SameOut (openDeferred S input.containerID (bridgeSelf me) goPins out d)
      (Web.openDeferred S input me o ⟨d.alg, d.envelope, d.generation⟩) := by
  have hfind := findSome_agrees (mem_pinnedKeys hsame hpins)
    (openKey_eq hS input.containerID me d.alg d.envelope d.generation)
    (fun s s' k k' hk hk' => hsender d.alg d.envelope d.generation s s' k k' hk hk')
  have hlow : o.known.mark ≤ (d.generation : Web.Num) ↔ d.generation ≥ out.known.mark := by
    rw [h.mark]
    exact Rat.intCast_le_intCast
  unfold openDeferred Web.openDeferred
  by_cases hd : d.generation ≥ out.known.mark
  · rw [if_pos hd, if_pos (hlow.2 hd)]
    exact h
  · rw [if_neg hd, if_neg (fun hle => hd (hlow.1 hle))]
    simp only [← hfind]
    cases (input.pins.rows.filterMap fun pin => publicKeyBytes pin.2).findSome?
        (Web.openEnvelope S input.containerID me d.alg d.envelope (d.generation : Web.Num)) with
    | none => exact h
    | some key => exact (h.accept hc d.generation key).2

theorem openDeferreds_agree (hS : SealsKeys S) (hc : CollisionFree S) (input : OpenKeyringInput)
    (hsender : OneSender S input.containerID me) (hsame : ∀ u, goPins.lookup u = input.pins.lookup u)
    (hpins : ∀ u k, input.pins.lookup u = some k → WellFormedKey k) (ds : List Row) (h : SameOut out o) :
    SameOut (ds.foldl (openDeferred S input.containerID (bridgeSelf me) goPins) out)
      ((ds.map fun d => (⟨d.alg, d.envelope, d.generation⟩ : Deferred)).foldl (Web.openDeferred S input me) o) := by
  induction ds generalizing out o with
  | nil => exact h
  | cons d ds ih => exact ih (openDeferred_agrees hS hc hsender hsame hpins h d)

end Second

/-! ## Agreement -/

/-- One stored state: a mark is 0 or a generation. -/
structure SameKnown (go : KeyState) (ts : Web.KeyState) : Prop where
  mark : ts.mark = go.mark
  nonneg : 0 ≤ go.mark
  digests : ∀ g : Int, ts.digests.lookup (g : Web.Num) = go.digests.lookup g

/-- Both open the same key at every generation, with the same digests and mark, and pin the same stewards in one order. -/
def OpenersAgree (S : Suite) (containerID : JsString) (rows : List EnvelopeRow) (me : Me) (members : List Member)
    (goPins pins : Pins) (goKnown : KeyState) (known : Web.KeyState) : Prop :=
  let ts := Web.openKeyring S ⟨containerID, rows.map toEnvelope, some me, members, pins, known, Table.empty⟩
  ∃ out, openKeyring S containerID (bridgeSelf me) members goPins rows goKnown = .ok out ∧
    (∀ g : Int, (ts.ring.lookup (g : Web.Num)).map KeyRef.bytes = out.ring.lookup g) ∧
    (∀ g : Int, ts.known.digests.lookup (g : Web.Num) = out.known.digests.lookup g) ∧
    ts.known.mark = out.known.mark ∧ ts.fresh = out.fresh

/-- The two openers agree, if the entries of one user show one key and the pins are public keys in base64. -/
theorem openers_agree (hS : SealsKeys S) (hc : CollisionFree S) {containerID : JsString} {me : Me}
    (hsender : OneSender S containerID me) (hkey : me.publicKey = S.getPublicKey me.privateKey) {rows : List EnvelopeRow}
    (hrows : ∀ r ∈ rows, ∃ raw : Bytes, r.envelope = base64 raw) {members : List Member} (L : Listed me members)
    (hone : OneKey members) {goPins pins : Pins} (hsame : ∀ u, goPins.lookup u = pins.lookup u)
    (hpins : ∀ u k, pins.lookup u = some k → WellFormedKey k) (hunc : Uncontradicted members pins)
    {goKnown : KeyState} {known : Web.KeyState} (hknown : SameKnown goKnown known) :
    OpenersAgree S containerID rows me members goPins pins goKnown known := by
  let input : OpenKeyringInput := ⟨containerID, rows.map toEnvelope, some me, members, pins, known, Table.empty⟩
  have hstart : Agrees members goPins ⟨⟨Table.empty, [], goKnown⟩, Table.empty, []⟩
      (⟨Table.empty, pins, [], [], [], { known with mark := max 0 known.mark }⟩, []) := by
    refine ⟨⟨fun _ => rfl, hknown.digests, fun g hg => (by cases hg), ?_, rfl⟩, fun u => ?_, fun u k hk => (by cases hk), rfl⟩
    · have hle : (0 : Web.Num) ≤ known.mark := by
        rw [hknown.mark]
        exact_mod_cast hknown.nonneg
      exact (max_eq_right hle).trans hknown.mark
    · rw [Record.lookup_empty, Option.or_none, hsame]
  have hgo : ∀ u k, goPins.lookup u = some k → WellFormedKey k := fun u k hk => hpins u k (hsame u ▸ hk)
  have hgo' : Uncontradicted members goPins := fun m hm hs i hi k hk => hunc m hm hs i hi k (hsame m.userId ▸ hk)
  have hmembers : input.members = members := rfl
  obtain ⟨p, hp, hA⟩ := openRows_agrees hS hc hkey L hone hgo' hgo hmembers hrows hstart
  have hlate := openDeferreds_agree hS hc input hsender hsame hpins p.deferred hA.out
  refine ⟨p.deferred.foldl (openDeferred S containerID (bridgeSelf me) goPins) p.out, ?_, ?_⟩
  · unfold openKeyring
    rw [hp]
  · have hfold : Web.openKeyring S input = (p.deferred.map fun d => (⟨d.alg, d.envelope, d.generation⟩ : Deferred)).foldl
        (Web.openDeferred S input me) ((rows.map toEnvelope).foldl (Web.openRow S input me)
          (⟨Table.empty, pins, [], [], [], { known with mark := max 0 known.mark }⟩, [])).1 := by
      rw [← hA.deferred]
      rfl
    rw [show Web.openKeyring S ⟨containerID, rows.map toEnvelope, some me, members, pins, known, Table.empty⟩ =
      Web.openKeyring S input from rfl, hfold]
    exact ⟨hlate.ring, hlate.digests, hlate.mark, hlate.fresh⟩

/-- HPKE that shows who sealed and for whom; nothing opens an envelope of the old form. -/
def bridgeSuite : Suite where
  sha256 := id
  getPublicKey := id
  getSharedSecret := fun _ _ => none
  hkdfSha256 := fun ikm length _ _ => ikm.take length
  decrypt := fun _ _ _ _ => none
  hpkeOpen := fun recipientKey senderPublicKey enc _ ciphertext =>
    if enc = senderPublicKey ∧ 16 ≤ ciphertext.length ∧ ciphertext.drop (ciphertext.length - 16) = recipientKey.take 16 then
      some (ciphertext.take (ciphertext.length - 16))
    else none
  hpkeSeal := fun recipientPublicKey senderKey _ plaintext _ => some (senderKey, plaintext ++ recipientPublicKey.take 16)

theorem bridgeSuite_sealsKeys : SealsKeys bridgeSuite where
  decrypt := fun _ _ _ _ _ h => by cases h
  hpkeOpen := by
    intro key sender enc info ciphertext text h
    simp only [bridgeSuite] at h
    split at h
    · rename_i hc
      cases h
      rw [List.length_take]
      have := hc.2.1
      omega
    · cases h

theorem bridgeSuite_collisionFree : CollisionFree bridgeSuite := by
  rintro ⟨a, ha⟩ ⟨b, hb⟩ h
  cases (show a = b from h)
  rfl

theorem bridgeSuite_oneSender (containerID : JsString) (me : Me) : OneSender bridgeSuite containerID me := by
  intro alg envelope g sender sender' key key' h h'
  have henc : ∀ {s : Bytes} {k : KeyRef}, Web.openEnvelope bridgeSuite containerID me alg envelope g s = some k →
      (envelope.drop 31).take 32 = s := by
    intro s k h
    unfold Web.openEnvelope unwrapEnvelope at h
    simp only [Option.bind_eq_bind, Option.bind_eq_some_iff] at h
    obtain ⟨raw, ⟨device, -, h⟩, -⟩ := h
    split at h
    · cases h
    split at h
    · simp [unwrapLegacyEnvelope, bridgeSuite] at h
    · simp only [Option.bind_eq_some_iff, bridgeSuite] at h
      obtain ⟨_, -, h⟩ := h
      split at h
      · rename_i hc
        exact hc.1
      · cases h
  exact (henc h).symm.trans (henc h')

/-- A row for `sampleMe` of the key of one byte, sealed from a device with a key of one byte. -/
def rowFrom (device : UInt16) (sender content : UInt8) (generation : Int) : EnvelopeRow where
  deviceId := sampleMe.deviceId
  keyGeneration := generation
  alg := .hpkeAuth
  envelope := base64 ((wrapEnvelope bridgeSuite (List.replicate 32 content) sampleMe.publicKey (sampleId .cnt 97)
    (generation : Web.Num) sampleMe.deviceId (sampleId .dev device) (List.replicate 32 sender) []).getD [])

/-- An owner with a device and a key of one byte. -/
def ownerOf (user device : UInt16) (key : UInt8) : Member where
  userId := sampleId .usr user
  username := []
  role := .owner
  approved := true
  identity := some ⟨sampleId .dev device, base64 (List.replicate 32 key)⟩

/-- An owner's key, opened and pinned by both. -/
theorem openers_agree_owner : OpenersAgree bridgeSuite (sampleId .cnt 97) [rowFrom 98 2 7 1] sampleMe [ownerOf 98 98 2]
    Table.empty Table.empty .zero .unknown := by
  refine openers_agree bridgeSuite_sealsKeys bridgeSuite_collisionFree (bridgeSuite_oneSender _ _) rfl
    (List.forall_mem_singleton.2 ⟨_, rfl⟩) ?_ ?_ (fun _ => rfl) (fun _ _ h => by cases h) (fun _ _ _ _ _ _ h => by cases h)
    ⟨rfl, Int.le_refl 0, fun _ => rfl⟩
  · refine ⟨List.pairwise_singleton _ _, by decide +kernel, List.forall_mem_singleton.2 ?_, List.forall_mem_singleton.2 ?_⟩
    · rintro _ ⟨⟩
      exact ⟨List.replicate 32 2, rfl, rfl⟩
    · exact fun h => absurd h (by decide +kernel)
  · refine List.forall_mem_singleton.2 (List.forall_mem_singleton.2 fun _ i hi j hj => ?_)
    cases hi
    cases hj
    rfl

/-- Two entries of one user with two keys: the second key differs from the pin of the first, which the bridge refuses as a
whole and the browser for that entry. A pin without its padding: the browser reads it, and opens history with it. -/
theorem openers_differ :
    (¬∀ (rows : List EnvelopeRow) (members : List Member), (∀ r ∈ rows, ∃ raw : Bytes, r.envelope = base64 raw) →
      Listed sampleMe members → Uncontradicted members Table.empty →
      OpenersAgree bridgeSuite (sampleId .cnt 97) rows sampleMe members Table.empty Table.empty .zero .unknown) ∧
    ¬∀ (rows : List EnvelopeRow) (pins : Pins) (goKnown : KeyState) (known : Web.KeyState),
      (∀ r ∈ rows, ∃ raw : Bytes, r.envelope = base64 raw) → SameKnown goKnown known →
      OpenersAgree bridgeSuite (sampleId .cnt 97) rows sampleMe [] pins pins goKnown known := by
  constructor
  · intro h
    have hlisted : Listed sampleMe [ownerOf 98 98 2, ownerOf 98 99 3] := by
      refine ⟨List.pairwise_cons.2 ⟨List.forall_mem_singleton.2 ?_, List.pairwise_singleton _ _⟩, by decide +kernel,
        List.forall_mem_cons.2 ⟨?_, List.forall_mem_singleton.2 ?_⟩, List.forall_mem_cons.2 ⟨?_, List.forall_mem_singleton.2 ?_⟩⟩
      · rintro _ ⟨⟩ _ ⟨⟩
        decide +kernel
      · rintro _ ⟨⟩
        exact ⟨List.replicate 32 2, rfl, rfl⟩
      · rintro _ ⟨⟩
        exact ⟨List.replicate 32 3, rfl, rfl⟩
      · exact fun h => absurd h (by decide +kernel)
      · exact fun h => absurd h (by decide +kernel)
    obtain ⟨out, hout, -⟩ := h [rowFrom 98 2 7 1, rowFrom 99 3 8 2] [ownerOf 98 98 2, ownerOf 98 99 3]
      (List.forall_mem_cons.2 ⟨⟨_, rfl⟩, List.forall_mem_singleton.2 ⟨_, rfl⟩⟩) hlisted
      (fun _ _ _ _ _ _ hp => by cases hp)
    have hnone : (openKeyring bridgeSuite (sampleId .cnt 97) (bridgeSelf sampleMe) [ownerOf 98 98 2, ownerOf 98 99 3]
      Table.empty [rowFrom 98 2 7 1, rowFrom 99 3 8 2] .zero).toOption.isSome = false := by decide +kernel
    rw [hout] at hnone
    cases hnone
  · intro h
    let pins : Pins := Record.set Table.empty (sampleId .usr 98) (base64 (List.replicate 32 2)).dropLast
    obtain ⟨out, hout, hring, -⟩ := h [rowFrom 98 2 7 1] pins { KeyState.zero with mark := 5 }
      { Web.KeyState.unknown with mark := 5 } (List.forall_mem_singleton.2 ⟨_, rfl⟩) ⟨rfl, by decide, fun _ => rfl⟩
    have hgo : ((openKeyring bridgeSuite (sampleId .cnt 97) (bridgeSelf sampleMe) [] pins [rowFrom 98 2 7 1]
      { KeyState.zero with mark := 5 }).toOption.bind fun out => out.ring.lookup 1) = none := by decide +kernel
    rw [hout] at hgo
    have hts : ((Web.openKeyring bridgeSuite ⟨sampleId .cnt 97, [rowFrom 98 2 7 1].map toEnvelope, some sampleMe, [], pins,
      { Web.KeyState.unknown with mark := 5 }, Table.empty⟩).ring.lookup ((1 : Int) : Web.Num)).isSome = true := by decide +kernel
    have hone := hring 1
    rw [show out.ring.lookup 1 = none from hgo, Option.map_eq_none_iff] at hone
    rw [hone] at hts
    cases hts

end KyNotes.Bridge
