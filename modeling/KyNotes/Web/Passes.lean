import KyNotes.Web.KeyService
import KyNotes.Web.Trust

/-!
# What a pass asks and what it leaves

One derivation over the code of the key service, with two results.

* Every row that is uploaded is sealed for the caller itself, or for a key that has been stored as the pin of the user
  whose device it is (`UploadOk`). Pins in hand are `Vouched` when all of them have been stored; a sealing that adds to
  them is followed by `keepFresh`.
* A pass that returns a ring has set the memory to save, and the ring's keys have their digests in it (`Saves`), except
  for keys that the caller held and whose generation the memory does not know (`persistedOnly`).
-/

namespace KyNotes.Web

open Relational Interaction

variable {S : Suite} {w : Env} {caller : Caller} {me : Me} {t : Nat} {s : Option Saved}

/-! ## Recipients -/

/-- The row is a sealing of this identity for the recipient's key. -/
def SealedRow (S : Suite) (me : Me) (containerID : JsString) (row : Envelope) (recipient : Bytes) : Prop :=
  ∃ key envelope ephemeral, row.envelope = base64 envelope ∧
    wrapEnvelope S key recipient containerID row.keyGeneration row.deviceId me.deviceId me.privateKey ephemeral =
      some envelope

/-- The row is for this identity, or for a device that the server shows as the user's, with a key that is `Pinned`. -/
def GoesTo (S : Suite) (w : Env) (me : Me) (containerID : JsString) (row : Envelope) (user : JsString)
    (Pinned : JsString → Bytes → Prop) : Prop :=
  ∃ recipient, SealedRow S me containerID row recipient ∧
    (user = me.userId ∧ row.deviceId = me.deviceId ∧ recipient = me.publicKey ∨
      ∃ key, w.Shown user ⟨row.deviceId, key⟩ ∧ publicKeyBytes key = some recipient ∧ Pinned user recipient)

/-- The user's pin is this key. -/
def InPins (pins : Pins) (user : JsString) (recipient : Bytes) : Prop :=
  ∃ pin, pins.lookup user = some pin ∧ publicKeyBytes pin = some recipient

/-- At time `t` or before, the key was stored as the user's pin. -/
def Env.Pinned (w : Env) (t : Nat) (user : JsString) (recipient : Bytes) : Prop :=
  ∃ j ≤ t, InPins (getPins (w.vault j) w.username w.userID) user recipient

/-- What every call must meet: an upload carries rows for the caller itself and for pinned keys only. -/
def UploadOk (S : Suite) (w : Env) (caller : Caller) (t : Nat) : Call → Prop
  | .putEnvelopes containerID rows | .rotate containerID _ rows =>
    ∀ row ∈ rows, ∃ me user, caller.me = some me ∧ GoesTo S w me containerID row user (w.Pinned t)
  | .invite containerID invitee _ rows =>
    ∀ row ∈ rows, row.containerId = containerID ∧ ∃ me, caller.me = some me ∧
      GoesTo S w me containerID row.toEnvelope invitee (w.Pinned t)
  | _ => True

theorem GoesTo.mono {containerID user : JsString} {row : Envelope} {P P' : JsString → Bytes → Prop}
    (h : GoesTo S w me containerID row user P) (hp : ∀ x, P user x → P' user x) :
    GoesTo S w me containerID row user P' := by
  obtain ⟨recipient, hrow, h | ⟨key, hs, hk, h⟩⟩ := h
  · exact ⟨recipient, hrow, Or.inl h⟩
  · exact ⟨recipient, hrow, Or.inr ⟨key, hs, hk, hp _ h⟩⟩

theorem Env.Pinned.mono {u : JsString} {x : Bytes} {t' : Nat} (h : w.Pinned t u x) (ht : t ≤ t') : w.Pinned t' u x := by
  obtain ⟨j, hj, h⟩ := h
  exact ⟨j, hj.trans ht, h⟩

/-- All the pins have been stored. -/
def Env.Vouched (w : Env) (t : Nat) (pins : Pins) : Prop := ∀ u x, InPins pins u x → w.Pinned t u x

theorem Env.Vouched.mono {pins : Pins} {t' : Nat} (h : w.Vouched t pins) (ht : t ≤ t') : w.Vouched t' pins :=
  fun u x hx => (h u x hx).mono ht

/-- Pins that only add to others. -/
def Extends (pins pins' : Pins) : Prop := ∀ u p, pins.lookup u = some p → pins'.lookup u = some p

theorem Extends.inPins {pins pins' : Pins} (h : Extends pins pins') {u : JsString} {x : Bytes} (hx : InPins pins u x) :
    InPins pins' u x := by
  obtain ⟨p, hp, hk⟩ := hx
  exact ⟨p, h u p hp, hk⟩

theorem sameKey_bytes {a b : JsString} {x : Bytes} (h : sameKey a b = true) (hb : publicKeyBytes b = some x) :
    publicKeyBytes a = some x := by
  obtain ⟨y, ha, hb'⟩ := sameKey_iff.mp h
  rw [hb] at hb'
  rw [ha, hb']

/-- A member as the members' list of a pass shows it. -/
def Listed (w : Env) (caller : Caller) (member : MemberKey) : Prop :=
  ∀ identity, member.identity = some identity →
    member.userId = caller.userId ∧ caller.own = some identity ∨ w.Shown member.userId identity

theorem Caller.me_userId (h : caller.me = some me) : me.userId = caller.userId := by
  obtain ⟨i, -, rfl⟩ := Option.map_eq_some_iff.mp h
  rfl

theorem publicKeyBytes_own {key x : Bytes} (h : publicKeyBytes (base64 key) = some x) : x = key := by
  unfold publicKeyBytes at h
  rw [fromBase64_base64] at h
  simp only [Option.bind_eq_bind, Option.bind_some] at h
  split at h
  · exact (Option.some_inj.mp h).symm
  · cases h

/-- The pins with which a sealing goes on, and its recipient. -/
theorem sealFor_ok {member : MemberKey} {containerID : JsString} {g : Num} {key : KeyRef} {pins : Pins} {ephemeral : Bytes}
    {out : SealedFor} (h : sealFor S member containerID g key me pins ephemeral = .ok out) (hme : caller.me = some me)
    (hl : Listed w caller member) :
    GoesTo S w me containerID out.envelope member.userId (InPins out.pins) ∧ Extends pins out.pins ∧
      (out.fresh = [] → out.pins = pins) ∧
      ∀ identity, member.identity = some identity → out.fresh ≠ [] →
        out.pins = pins.set member.userId identity.publicKey := by
  unfold sealFor at h
  split at h
  · cases h
  · rename_i identity hid
    split at h
    · cases h
    · rename_i recipient hrec
      simp only at h
      split at h
      · cases h
      · rename_i next fresh hnext
        split at h
        · cases h
        · rename_i envelope henv
          cases h
          have hrow : SealedRow S me containerID ⟨identity.deviceId, g, .hpkeAuth, base64 envelope⟩ recipient :=
            ⟨key.bytes, envelope, ephemeral, rfl, henv⟩
          split at hnext
          · -- the caller itself
            rename_i hu
            split at hnext
            · cases hnext
            · rename_i hown
              cases hnext
              rw [not_or, not_not, Bool.not_eq_false] at hown
              obtain ⟨x, hx, hx'⟩ := sameKey_iff.mp hown.2
              rw [hrec] at hx
              cases hx
              exact ⟨⟨recipient, hrow, Or.inl ⟨hu, hown.1, publicKeyBytes_own hx'⟩⟩, fun _ _ hp => hp, fun _ => rfl,
                fun _ _ hf => absurd rfl hf⟩
          · rename_i hu
            have hshown : w.Shown member.userId ⟨identity.deviceId, identity.publicKey⟩ := by
              rcases hl identity hid with ⟨hc, -⟩ | hs
              · exact absurd (hc.trans (Caller.me_userId hme).symm) hu
              · exact hs
            split at hnext
            · -- first contact
              rename_i hnone
              cases hnext
              refine ⟨⟨recipient, hrow, Or.inr ⟨_, hshown, hrec, _, Record.lookup_set_self, hrec⟩⟩, fun u p hp => ?_, ?_, ?_⟩
              · refine (Record.lookup_set_ne ?_).trans hp
                rintro rfl
                rw [hnone] at hp
                cases hp
              · exact fun hf => absurd hf (List.cons_ne_nil _ _)
              · intro i hi _
                rw [hid] at hi
                cases hi
                rfl
            · rename_i pinned hpin
              split at hnext
              · rename_i hsame
                cases hnext
                exact ⟨⟨recipient, hrow, Or.inr ⟨_, hshown, hrec, pinned, hpin, sameKey_bytes hsame hrec⟩⟩,
                  fun _ _ hp => hp, fun _ => rfl, fun _ _ hf => absurd rfl hf⟩
              · cases hnext

/-! ## Opening without first contacts -/

/-- The pins are those of the input, unless a first contact is in hand. -/
def Settled (input : OpenKeyringInput) (out : OpenedKeyring) : Prop := out.fresh = [] → out.pins = input.pins

theorem accept_fresh (out : OpenedKeyring) (g : Num) (key : KeyRef) : (accept S out g key).1.fresh = out.fresh := by
  unfold accept
  split <;> rfl

theorem Settled.accept {input : OpenKeyringInput} {out : OpenedKeyring} {g : Num} {key : KeyRef} (h : Settled input out) :
    Settled input (accept S out g key).1 := by
  intro hf
  rw [accept_fresh] at hf
  exact (accept_pins out g key).trans (h hf)

theorem Settled.adopt {input : OpenKeyringInput} {out : OpenedKeyring} {g : Num} {key : KeyRef}
    {first : Option (MemberKey × PublicIdentity)} (h : Settled input out) : Settled input (adopt S out g key first) := by
  have ha : Settled input (Web.accept S out g key).1 := h.accept
  unfold Web.adopt
  generalize Web.accept S out g key = r at ha
  obtain ⟨out', accepted⟩ := r
  cases accepted with
  | false => exact ha
  | true =>
    simp only [if_true]
    split
    · exact ha
    · exact fun hf => absurd hf (List.append_ne_nil_of_right_ne_nil _ (List.cons_ne_nil _ _))

theorem Settled.row {input : OpenKeyringInput} {out : OpenedKeyring} {ds : List Deferred} {row : Envelope}
    (h : Settled input out) : Settled input (openRow S input me (out, ds) row).1 := by
  unfold openRow
  simp only
  split
  · exact h
  · split
    · exact h
    · split
      · exact h
      · exact h
      · exact h
      · exact h
      · split
        · exact h
        · exact h.adopt
      · split
        · exact h
        · split
          · exact h
          · exact h.adopt

theorem Settled.late {input : OpenKeyringInput} {out : OpenedKeyring} {d : Deferred} (h : Settled input out) :
    Settled input (openDeferred S input me out d) := by
  unfold openDeferred
  split
  · exact h
  · simp only
    split
    · exact h
    · exact h.accept

theorem openKeyring_settled (S : Suite) (input : OpenKeyringInput) : Settled input (openKeyring S input) := by
  unfold openKeyring
  simp only
  have hheld : Settled input (input.held.rows.foldl (fun out entry => (accept S out entry.1 entry.2).1)
      ⟨Table.empty, input.pins, [], [], [], { input.known with mark := max 0 input.known.mark }⟩) :=
    List.foldlRecOn _ _ (fun _ => rfl) fun _ h _ _ => h.accept
  split
  · exact hheld
  · rename_i me _
    have hrows : Settled input (input.envelopes.foldl (openRow S input me) (_, [])).1 :=
      List.foldlRecOn (motive := fun st => Settled input st.1) input.envelopes (openRow S input me) hheld
        fun _ h _ _ => h.row
    exact List.foldlRecOn _ _ hrows fun _ h _ _ => h.late

/-! ## Calls -/

/-- What follows a value of the program, from state `s` and time `t` on; whatever follows a failure. -/
def Env.Ends (S : Suite) (w : Env) (caller : Caller) {α : Type} (x : Service α) (Q : Option Saved → Nat → α → Prop)
    (s : Option Saved) (t : Nat) : Prop :=
  Action.Wp w.Answers (UploadOk S w caller) x Q (fun _ _ _ => True) s t

section Calls

variable {α β : Type} {E : Option Saved → Nat → Failure → Prop}

theorem wp_ask {c : Call} {Q : Option Saved → Nat → c.Value → Prop} (hok : ∀ i, t ≤ i → UploadOk S w caller i c)
    (hq : ∀ i v j, t ≤ i → i ≤ j → w.Answers i c (.ok v) j → Q s j v) (he : ∀ j e, t ≤ j → E s j e) :
    Action.Wp w.Answers (UploadOk S w caller) (ask c) Q E s t :=
  Action.wp_call hok (fun i v j hi ha => hq i v j hi ha.le ha) fun _ e j hi ha => he j e (hi.trans ha.le)

theorem Env.Ends.pure {a : α} {Q : Option Saved → Nat → α → Prop} (h : Q s t a) :
    w.Ends S caller (pure a) Q s t := h

theorem Env.Ends.bind {x : Service α} {f : α → Service β} {Q : Option Saved → Nat → β → Prop}
    (h : w.Ends S caller x (fun s t a => w.Ends S caller (f a) Q s t) s t) : w.Ends S caller (x >>= f) Q s t :=
  Action.wp_bind h

/-- A call that uploads nothing. -/
theorem Env.Ends.ask {c : Call} {Q : Option Saved → Nat → c.Value → Prop} (hok : ∀ i, UploadOk S w caller i c)
    (hq : ∀ i v j, t ≤ i → i ≤ j → w.Answers i c (.ok v) j → Q s j v) : w.Ends S caller (Web.ask c) Q s t :=
  wp_ask (fun i _ => hok i) hq fun _ _ _ => trivial

theorem Env.Ends.orThrow {o : Option α} {Q : Option Saved → Nat → α → Prop} (h : ∀ a, o = some a → Q s t a) :
    w.Ends S caller (Web.orThrow o) Q s t := by
  cases o with
  | none => exact trivial
  | some a => exact h a rfl

theorem Env.Ends.fail {e : Failure} {Q : Option Saved → Nat → α → Prop} : w.Ends S caller (Action.fail e) Q s t := trivial

end Calls

/-! ## Reading -/

theorem identityOf_spec {member : Member} {Q : Option Saved → Nat → Option PublicIdentity → Prop}
    (hq : ∀ t' identity, t ≤ t' → Listed w caller ⟨member, identity⟩ → Q s t' identity) :
    w.Ends S caller (identityOf caller member) Q s t := by
  have hask : w.Ends S caller (ask (.userIdentity member.userId)) Q s t := by
    refine .ask (fun _ => trivial) fun i v j hi hj ha => ?_
    refine hq j v (hi.trans hj) fun identity hid => Or.inr ?_
    cases hid
    exact ha.1
  unfold identityOf
  split
  · exact hask
  · rename_i own hown
    by_cases hu : member.userId = caller.userId
    · rw [if_pos hu]
      refine .pure (hq t _ (Nat.le_refl t) fun identity hid => ?_)
      cases hid
      exact Or.inl ⟨hu, hown⟩
    · rwa [if_neg hu]

theorem identities_spec {listed : List Member} {Q : Option Saved → Nat → List MemberKey → Prop} :
    ∀ {t}, (∀ t' members, t ≤ t' → (∀ m ∈ members, Listed w caller m) → Q s t' members) →
    w.Ends S caller (identities caller listed) Q s t := by
  induction listed generalizing Q with
  | nil => exact fun hq => .pure (hq _ [] (Nat.le_refl _) fun _ hm => absurd hm List.not_mem_nil)
  | cons member rest ih =>
    intro t hq
    refine .bind (identityOf_spec fun t₁ identity h₁ hid => .bind (ih fun t₂ members h₂ hm => .pure ?_))
    refine hq t₂ _ (h₁.trans h₂) fun m hmem => ?_
    rcases List.mem_cons.mp hmem with rfl | hmem
    · exact hid
    · exact hm m hmem

theorem persistFloor_spec {containerID : JsString} {prior known : KeyState} {Q : Option Saved → Nat → Unit → Prop}
    (hq : ∀ t', t ≤ t' → Q s t' ()) : w.Ends S caller (persistFloor containerID prior known) Q s t := by
  unfold persistFloor
  split
  · exact .pure (hq t (Nat.le_refl t))
  · refine .bind (Action.wp_attempt ?_)
    exact wp_ask (fun _ _ => trivial) (fun i _ j hi hj _ => hq j (hi.trans hj)) fun j _ hj => hq j hj

/-- What a pass has read is of its caller, and its members are listed. -/
theorem reading_spec {containerID : JsString} {held : Keyring} {Q : Option Saved → Nat → Reading × Bool → Prop}
    (hq : ∀ t' r rollback, t ≤ t' → r.caller = caller → r.held = held → (∀ m ∈ r.members, Listed w caller m) →
      Q s t' (r, rollback)) : w.Ends S caller (reading containerID caller held) Q s t := by
  unfold reading
  refine .bind (.ask (fun _ => trivial) fun _ container t₁ h₁ h₁' _ => ?_)
  refine .bind (.ask (fun _ => trivial) fun _ prior t₂ h₂ h₂' _ => ?_)
  refine .bind (.ask (fun _ => trivial) fun _ _ t₃ h₃ h₃' _ => ?_)
  refine .bind (persistFloor_spec fun t₄ h₄ => ?_)
  refine .bind (.ask (fun _ => trivial) fun _ envelopes t₅ h₅ h₅' _ => ?_)
  refine .bind (.ask (fun _ => trivial) fun _ listed t₆ h₆ h₆' _ => ?_)
  refine .bind (identities_spec fun t₇ members h₇ hm => .pure ?_)
  exact hq t₇ _ _ (by omega) rfl rfl hm

/-! ## Memory to save -/

/-- The ring's keys have their digests in the memory, unless the caller held them and the memory does not know them. -/
def MemoryOf (S : Suite) (held : Keyring) (known : KeyState) (ring : Keyring) : Prop :=
  ∀ g key, ring.lookup g = some key →
    known.digests.lookup g = some (S.sha256 key.bytes) ∨ held.lookup g = some key ∧ known.digests.lookup g = none

/-- The memory to save is one of the ring. -/
def Saves (S : Suite) (held : Keyring) (s : Option Saved) (containerID : JsString) (ring : Keyring) : Prop :=
  ∃ known, s = some ⟨containerID, known⟩ ∧ MemoryOf S held known ring

/-- A pass that returns a ring has its memory to save. -/
def PassOk (S : Suite) (held : Keyring) (s : Option Saved) : Outcome → Prop
  | .done p => Saves S held s p.container.id p.ring
  | .retry _ => True

variable {r : Reading} {held : Keyring}

theorem opened_memory (pins : Pins) (rows : List Envelope) (ring : Keyring) (container : KeyedContainer) :
    MemoryOf S held (raiseFloor (r.opened S pins rows ring).known container) (r.opened S pins rows ring).ring :=
  fun g key h => Or.inl ((openKeyring_inv S _).digest g key h)

/-- Without envelopes, only held keys are opened, and those of a known generation match its digest. -/
theorem opened_held (pins : Pins) : MemoryOf S r.held r.known (r.opened S pins [] r.held).ring := by
  intro g key h
  have hheld : IsHeld S ⟨r.container.id, [], r.caller.me, r.members, pins, r.known, r.held⟩ g key := by
    rcases (openKeyring_inv S _).trusted g key h with h | ⟨_, _, _, h, _⟩ | ⟨_, _, _, _, _, _, _, h, _⟩ |
      ⟨_, _, _, _, _, _, _, _, h, _⟩
    · exact h
    · exact absurd h.1 List.not_mem_nil
    · exact absurd h.1 List.not_mem_nil
    · exact absurd h.1 List.not_mem_nil
  cases hd : r.known.digests.lookup g with
  | none => exact Or.inr ⟨hheld.1, rfl⟩
  | some d => exact Or.inl (congrArg some (hheld.2 d hd))

theorem trusted_spec {opened : OpenedKeyring} {Q : Option Saved → Nat → OpenedKeyring → Prop}
    (hq : Q (some ⟨r.container.id, raiseFloor opened.known r.container⟩) t opened) :
    w.Ends S caller (r.trusted opened) Q s t := hq

theorem persistedOnly_spec {Q : Option Saved → Nat → OpenedKeyring → Prop}
    (hq : ∀ s' t' safe, Saves S r.held s' r.container.id safe.ring → Q s' t' safe) :
    w.Ends S caller (r.persistedOnly S) Q s t := by
  unfold Reading.persistedOnly
  refine .bind (.ask (fun _ => trivial) fun _ stored t₁ _ _ _ => ?_)
  simp only
  split
  · exact trusted_spec (hq _ _ _ ⟨_, rfl, opened_memory _ _ _ _⟩)
  · exact hq _ _ _ ⟨_, rfl, opened_held stored⟩

theorem stopped_spec {carried fresh : List MemberKey} {p : Progress} {plan : KeyPlan} :
    w.Ends S caller (r.stopped S carried p plan fresh) (fun s _ o => PassOk S r.held s o) s t := by
  unfold Reading.stopped
  exact .bind (persistedOnly_spec fun s' t' safe h => .pure h)

theorem rolledBack_spec {pins : Pins} {rows : List Envelope} {ring : Keyring} :
    w.Ends S caller (r.rolledBack S (r.opened S pins rows ring)) (fun s _ o => PassOk S r.held s o) s t := by
  unfold Reading.rolledBack Reading.safe
  refine .bind ?_
  split
  · exact trusted_spec (.pure ⟨_, rfl, opened_memory _ _ _ _⟩)
  · exact persistedOnly_spec fun s' t' safe h => .pure h

/-! ## Pins -/

theorem loadPins_vouched {pins : Pins} {i j : Nat} (h : w.Answers i .loadPins (.ok pins) j) : w.Vouched j pins := by
  obtain ⟨rfl, rfl⟩ := h
  exact fun u x hx => ⟨j, Nat.le_refl j, hx⟩

/-- Pins that were added without a conflict are all stored. -/
theorem addFresh_vouched {pins : Pins} {i j : Nat} (h : w.Answers i (.addFresh pins) (.ok .ok) j) : w.Vouched j pins := by
  obtain ⟨hv, ho, rfl⟩ | ⟨ho, -⟩ := h
  · rintro u x ⟨p, hp, hx⟩
    have hstore : storePins (w.vault i) w.username w.userID pins = (w.vault (i + 1), .ok) := Prod.ext hv.symm ho.symm
    obtain ⟨pin, hpin, rfl | hsame⟩ := storePins_stored hstore hp
    · exact ⟨i + 1, Nat.le_refl _, pin, hpin, hx⟩
    · exact ⟨i + 1, Nat.le_refl _, pin, hpin, sameKey_bytes hsame hx⟩
  · cases ho

/-- A confirmed pin is stored. -/
theorem confirm_vouched {pins : Pins} {member : MemberKey} {confirmation : PinConfirmation} {expected : JsString} {i j : Nat}
    (hv : w.Vouched i pins) (hc : confirmFingerprintChange pins member = some confirmation)
    (h : w.Answers i (.confirm confirmation expected) (.ok true) j) : w.Vouched j confirmation.pins := by
  obtain ⟨hw, ho, rfl⟩ | ⟨ho, -⟩ := h
  · unfold confirmFingerprintChange at hc
    cases hid : member.identity with
    | none => simp [hid] at hc
    | some identity =>
      simp only [hid, Option.bind_eq_bind, Option.bind_some] at hc
      split at hc
      · cases hc
        have hstored := storeConfirmedPin_ok (Prod.ext hw.symm ho.symm)
        rintro u x ⟨p, hp, hx⟩
        by_cases hu : u = member.userId
        · subst hu
          simp only [Record.lookup_set_self, Option.some_inj] at hp
          subst hp
          exact ⟨i + 1, Nat.le_refl _, _, hstored, hx⟩
        · exact (hv u x ⟨p, (Record.lookup_set_ne hu).symm.trans hp, hx⟩).mono (Nat.le_succ i)
      · cases hc
  · cases ho

theorem confirmPins_spec {Q : Option Saved → Nat → Option Pins → Prop} : ∀ {changes : List PinChange} {pins : Pins} {t},
    w.Vouched t pins →
    (∀ t' out, t ≤ t' → (∀ pins', out = some pins' → w.Vouched t' pins') → Q s t' out) →
    w.Ends S caller (confirmPins changes pins) Q s t
  | [], pins, t, hv, hq => by
    refine .pure (hq t _ (Nat.le_refl t) fun pins' h => ?_)
    cases h
    exact hv
  | change :: rest, pins, t, hv, hq => by
    unfold confirmPins
    refine .bind (.orThrow fun confirmation hc => .bind (.ask (fun _ => trivial) fun i kept t₁ hi hj ha => ?_))
    cases kept with
    | false => exact .pure (hq t₁ none (hi.trans hj) fun _ h => by cases h)
    | true =>
      exact confirmPins_spec (confirm_vouched (hv.mono hi) hc ha) fun t' out ht hout =>
        hq t' out ((hi.trans hj).trans ht) hout

/-- The loop keeps: the keyring is opened with the pins in hand, and those are vouched for. -/
def Progress.Ready (S : Suite) (w : Env) (r : Reading) (t : Nat) (p : Progress) : Prop :=
  w.Vouched t p.pins ∧ p.opened = r.opened S p.pins r.envelopes r.held ∧ p.sweep = (r.plan p.opened r.envelopes).1

theorem reopened_ready {pins : Pins} {changed : List PinChange} (hv : w.Vouched t pins) :
    (r.reopened S pins changed).Ready S w r t := ⟨hv, rfl, rfl⟩

theorem confirmed_spec {Q : Option Saved → Nat → Progress × Option KeyPlan → Prop} : ∀ {rounds : Nat} {p : Progress} {t},
    p.Ready S w r t → (∀ t' p stop, t ≤ t' → p.Ready S w r t' → Q s t' (p, stop)) →
    w.Ends S caller (r.confirmed S rounds p) Q s t
  | 0, _, _, _, _ => .fail
  | rounds + 1, p, t, hp, hq => by
    unfold Reading.confirmed
    simp only
    split
    · exact .pure (hq t p none (Nat.le_refl t) hp)
    · refine .bind (.ask (fun _ => trivial) fun i trusts t₁ hi hj _ => ?_)
      have ht := hi.trans hj
      have hp' : ({ p with changed := p.changed ++ r.pending p } : Progress).Ready S w r t₁ := ⟨hp.1.mono ht, hp.2⟩
      cases trusts with
      | false => exact .pure (hq t₁ _ _ ht hp')
      | true =>
        refine .bind (confirmPins_spec hp'.1 fun t₂ out h₂ hout => ?_)
        cases out with
        | none => exact .pure (hq t₂ _ _ (ht.trans h₂) ⟨hp'.1.mono h₂, hp.2⟩)
        | some pins =>
          exact confirmed_spec (reopened_ready (hout pins rfl)) fun t' p stop h => hq t' p stop ((ht.trans h₂).trans h)

/-! ## Sealing -/

theorem keepFresh_spec {fresh : List MemberKey} {pins : Pins} {Q : Option Saved → Nat → Option KeyPlan → Prop}
    (hv : fresh = [] → w.Vouched t pins) (hq : ∀ t' out, t ≤ t' → (out = none → w.Vouched t' pins) → Q s t' out) :
    w.Ends S caller (r.keepFresh fresh pins) Q s t := by
  unfold Reading.keepFresh
  split
  · rename_i hf
    exact .pure (hq t none (Nat.le_refl t) fun _ => hv hf)
  · refine .bind (.ask (fun _ => trivial) fun i stored t₁ hi hj ha => ?_)
    refine .pure (hq t₁ _ (hi.trans hj) fun hnone => ?_)
    cases stored with
    | ok => exact addFresh_vouched ha
    | refused conflicts =>
      unfold Reading.pinFailure at hnone
      simp only at hnone
      split at hnone <;> cases hnone

theorem toOption_some {ε α : Type} {x : Except ε α} {a : α} (h : x.toOption = some a) : x = .ok a := by
  cases x with
  | error e => cases h
  | ok b =>
    cases h
    rfl

/-- The sealed rows go to the pins at the end, which only add to those at the start. -/
theorem sealAll_spec (hme : caller.me = some me) {Q : Option Saved → Nat → List Envelope × Pins × List MemberKey → Prop} :
    ∀ {sealings : List Sealing} {pins : Pins} {t}, (∀ x ∈ sealings, Listed w caller x.member) →
    (∀ t' rows out fresh, t ≤ t' → (∀ row ∈ rows, ∃ user, GoesTo S w me r.container.id row user (InPins out)) →
      Extends pins out → (fresh = [] → out = pins) → Q s t' (rows, out, fresh)) →
    w.Ends S caller (r.sealAll S me sealings pins) Q s t := by
  intro sealings
  induction sealings generalizing Q with
  | nil =>
    exact fun _ hq => .pure (hq _ [] _ [] (Nat.le_refl _) (fun _ h => absurd h List.not_mem_nil) (fun _ _ h => h) fun _ => rfl)
  | cons x rest ih =>
    obtain ⟨member, generation, key⟩ := x
    intro pins t hl hq
    unfold Reading.sealAll
    refine .bind (.orThrow fun key _ => .bind (.ask (fun _ => trivial) fun i ephemeral t₁ hi hj _ => ?_))
    refine .bind (.orThrow fun first hfirst => .bind (ih (fun y hy => hl y (List.mem_cons_of_mem _ hy)) ?_))
    intro t₂ rows out fresh h₂ hrows hext hsame
    obtain ⟨hto, hext', hsame', -⟩ := sealFor_ok (toOption_some hfirst) hme (hl _ List.mem_cons_self)
    refine .pure (hq t₂ _ _ _ ((hi.trans hj).trans h₂) ?_ (fun u p hp => hext u p (hext' u p hp)) fun hf => ?_)
    · intro row hrow
      rcases List.mem_cons.mp hrow with rfl | hrow
      · exact ⟨_, hto.mono fun x => hext.inPins⟩
      · exact hrows row hrow
    · obtain ⟨hf', hf⟩ := List.append_eq_nil_iff.mp hf
      exact (hsame hf).trans (hsame' hf')

/-- The rows are for the caller or for pinned keys, and the pins in hand are stored. -/
def Delivers (S : Suite) (w : Env) (me : Me) (containerID : JsString) (t : Nat) (rows : List Envelope) (pins : Pins) :
    Prop :=
  w.Vouched t pins ∧ ∀ row ∈ rows, ∃ user, GoesTo S w me containerID row user (w.Pinned t)

theorem Delivers.rows_ok {containerID : JsString} {rows : List Envelope} {pins : Pins} {i : Nat}
    (h : Delivers S w me containerID t rows pins) (hme : caller.me = some me) (hi : t ≤ i) :
    ∀ row ∈ rows, ∃ me user, caller.me = some me ∧ GoesTo S w me containerID row user (w.Pinned i) := by
  intro row hrow
  obtain ⟨user, hto⟩ := h.2 row hrow
  exact ⟨me, user, hme, hto.mono fun x hx => hx.mono hi⟩

/-- Sealing, and then storing the first contacts. -/
theorem deliver_spec (hme : caller.me = some me) {sealings : List Sealing} {pins : Pins} (hv : w.Vouched t pins)
    (hl : ∀ x ∈ sealings, Listed w caller x.member) {β : Type}
    {f : List Envelope × Pins × List MemberKey → Option KeyPlan → Service β} {Q : Option Saved → Nat → β → Prop}
    (hq : ∀ t' rows out fresh plan, t ≤ t' → (plan = none → Delivers S w me r.container.id t' rows out) →
      w.Ends S caller (f (rows, out, fresh) plan) Q s t') :
    w.Ends S caller (r.sealAll S me sealings pins >>= fun x => r.keepFresh x.2.2 x.2.1 >>= f x) Q s t := by
  refine .bind (sealAll_spec hme hl fun t₁ rows out fresh h₁ hrows hext hsame => ?_)
  refine .bind (keepFresh_spec (fun hf => ?_) fun t₂ plan h₂ hplan => ?_)
  · rw [hsame hf]
    exact hv.mono h₁
  · refine hq t₂ rows out fresh plan (h₁.trans h₂) fun hnone => ⟨hplan hnone, fun row hrow => ?_⟩
    obtain ⟨user, hto⟩ := hrows row hrow
    exact ⟨user, hto.mono (hplan hnone user)⟩

theorem sealed_spec (hme : caller.me = some me) {sealings : List Sealing} {pins : Pins} (hv : w.Vouched t pins)
    (hl : ∀ x ∈ sealings, Listed w caller x.member)
    {Q : Option Saved → Nat → Except KeyPlan (List Envelope × Pins × List MemberKey) → Prop}
    (hq : ∀ t' out, t ≤ t' →
      (∀ rows pins fresh, out = .ok (rows, pins, fresh) → Delivers S w me r.container.id t' rows pins) → Q s t' out) :
    w.Ends S caller (r.sealed S me sealings pins) Q s t := by
  refine deliver_spec hme hv hl fun t' rows out fresh plan ht hplan => ?_
  cases plan with
  | some plan => exact .pure (hq t' _ ht fun _ _ _ h => by cases h)
  | none =>
    refine .pure (hq t' _ ht fun _ _ _ h => ?_)
    cases h
    exact hplan rfl

/-! ## Sharing -/

/-- A plan that names members of the list only. -/
def SweepPlan.Within (members : List MemberKey) : SweepPlan → Prop
  | .mint recipients => ∀ m ∈ recipients, m ∈ members
  | .wrap grants => ∀ grant ∈ grants, grant.member ∈ members
  | .idle | .unrecoverable => True

theorem planSweep_within {container : KeyedContainer} {user : JsString} {members : List MemberKey}
    {envelopes : List Envelope} {ring : Keyring} {recoverable : Bool} :
    (planSweep container user members envelopes ring recoverable).Within members := by
  unfold planSweep
  split
  · exact trivial
  · split
    · exact trivial
    · have hkeyed : ∀ m ∈ members.filter fun member => member.identity.isSome && member.approved, m ∈ members :=
        fun m hm => List.mem_of_mem_filter hm
      simp only
      split
      · split
        · exact hkeyed
        · exact trivial
      · split
        · exact hkeyed
        · split
          · exact trivial
          · intro grant hg
            obtain ⟨member, hm, hg⟩ := List.mem_flatMap.mp hg
            obtain ⟨_, _, rfl⟩ := List.mem_map.mp hg
            exact hkeyed member hm

theorem plan_within {opened : OpenedKeyring} {rows : List Envelope} : (r.plan opened rows).1.Within r.members := by
  have hplan : (planSweep r.container r.caller.userId r.members rows opened.ring r.caller.recoverable).Within r.members :=
    planSweep_within
  unfold Reading.plan
  generalize planSweep r.container r.caller.userId r.members rows opened.ring r.caller.recoverable = next at hplan
  by_cases hi : r.caller.identity.isNone
  · rw [if_pos hi]
    exact trivial
  · rw [if_neg hi]
    cases next with
    | idle => exact trivial
    | unrecoverable => exact trivial
    | mint recipients =>
      simp only
      split
      · exact hplan
      · exact trivial
    | wrap grants =>
      simp only
      by_cases hg : grants.filter (fun grant => grant.generation ∉ opened.conflicts) = []
      · rw [if_pos hg]
        exact trivial
      · rw [if_neg hg]
        simp only
        split
        · exact fun grant hm => hplan grant (List.mem_of_mem_filter hm)
        · exact trivial

theorem wrapSealings_listed {ring : Keyring} {grants : List Grant} (hm : ∀ m ∈ r.members, Listed w caller m)
    (hg : ∀ grant ∈ grants, grant.member ∈ r.members) : ∀ x ∈ wrapSealings ring grants, Listed w caller x.member := by
  intro x hx
  obtain ⟨grant, hgrant, rfl⟩ := List.mem_map.mp hx
  exact hm _ (hg grant hgrant)

/-- An upload, and whether it fails. -/
theorem upload_spec (hme : caller.me = some me) {rows : List Envelope} {pins : Pins}
    (hd : Delivers S w me r.container.id t rows pins) {Q : Option Saved → Nat → Except Failure Unit → Prop}
    (hq : ∀ t' x, t ≤ t' → Q s t' x) : w.Ends S caller (Action.attempt (upload r.container.id rows)) Q s t := by
  refine Action.wp_attempt (Action.wp_bind ?_)
  refine wp_ask (fun _ _ => trivial) (fun i _ t₁ hi hj _ => ?_) fun j e hj => hq j _ hj
  refine wp_ask (fun i hi' => hd.rows_ok hme ((hi.trans hj).trans hi')) (fun i' _ t₂ hi' hj' _ => ?_) fun j e hj' => ?_
  · exact hq t₂ _ (((hi.trans hj).trans hi').trans hj')
  · exact hq j _ ((hi.trans hj).trans hj')

theorem lostRace_spec {attempts : Nat} {carried fresh : List MemberKey} {e : Failure} :
    w.Ends S caller (lostRace attempts carried fresh e) (fun s _ o => PassOk S held s o) s t := by
  unfold lostRace
  split
  · exact trivial
  · exact trivial

theorem wrap_spec (hme : caller.me = some me) {attempts : Nat} {carried : List MemberKey} {p : Progress}
    {grants : List Grant} (hv : w.Vouched t p.opened.pins) (hm : ∀ m ∈ r.members, Listed w caller m)
    (hg : ∀ grant ∈ grants, grant.member ∈ r.members) (hs : Saves S r.held s r.container.id p.opened.ring) :
    w.Ends S caller (r.wrap S attempts carried p me grants) (fun s _ o => PassOk S r.held s o) s t := by
  unfold Reading.wrap
  refine .bind (sealed_spec hme hv (wrapSealings_listed hm hg) fun t₁ out h₁ hout => ?_)
  rcases out with plan | ⟨rows, pins, fresh⟩
  · exact stopped_spec
  · refine .bind (upload_spec hme (hout _ _ _ rfl) fun t₂ x h₂ => ?_)
    rcases x with e | ⟨⟩
    · exact lostRace_spec
    · exact hs

/-- A rotation, and whether it fails. -/
theorem rotated_spec (hme : caller.me = some me) {rows : List Envelope} {pins : Pins}
    (hd : Delivers S w me r.container.id t rows pins) {Q : Option Saved → Nat → Except Failure KeyedContainer → Prop}
    (hq : ∀ s' t' container, t ≤ t' → Q s' t' (.ok container))
    (he : ∀ s' t' e, t ≤ t' → Q s' t' (.error e)) : w.Ends S caller (Action.attempt (r.rotated rows)) Q s t := by
  refine Action.wp_attempt ?_
  unfold Reading.rotated
  refine Action.wp_bind (wp_ask (fun _ _ => trivial) (fun i _ t₁ hi hj _ => ?_) fun j e hj => he _ j e hj)
  have h₁ := hi.trans hj
  refine Action.wp_bind (wp_ask (fun i hi' => hd.rows_ok hme (h₁.trans hi')) (fun i' _ t₂ hi' hj' _ => ?_)
    fun j e hj' => he _ j e (h₁.trans hj'))
  have h₂ := (h₁.trans hi').trans hj'
  refine Action.wp_bind (Action.wp_modify (Action.wp_bind (wp_ask (fun _ _ => trivial) (fun i'' _ t₃ hi'' hj'' _ => ?_)
    fun j e hj'' => he _ j e (h₂.trans hj''))))
  exact hq _ t₃ _ ((h₂.trans hi'').trans hj'')

/-- Wrapping the older generations leaves the memory to save as it is. -/
theorem history_spec (hme : caller.me = some me) {after : OpenedKeyring} {seen : List Envelope} {pins : Pins}
    {sweep : SweepPlan} (hv : w.Vouched t pins) (hm : ∀ m ∈ r.members, Listed w caller m)
    (hg : sweep.Within r.members) {Q : Option Saved → Nat → List Envelope × List MemberKey → Prop}
    (hq : ∀ t' out, Q s t' out) : w.Ends S caller (r.history S me after seen pins sweep) Q s t := by
  unfold Reading.history
  cases sweep with
  | wrap grants =>
    simp only
    split
    · exact .pure (hq t _)
    · refine deliver_spec hme hv (wrapSealings_listed hm hg) fun t₁ rows out fresh plan h₁ hplan => ?_
      cases plan with
      | some plan => exact .pure (hq t₁ _)
      | none =>
        refine .bind (upload_spec hme (hplan rfl) fun t₂ x h₂ => ?_)
        rcases x with e | ⟨⟩
        · exact .pure (hq t₂ _)
        · exact .pure (hq t₂ _)
  | idle => exact .pure (hq t _)
  | unrecoverable => exact .pure (hq t _)
  | mint recipients => exact .pure (hq t _)

theorem newContainerKey_spec {Q : Option Saved → Nat → KeyRef → Prop} (hq : ∀ t' key, t ≤ t' → Q s t' key) :
    w.Ends S caller newContainerKey Q s t := by
  unfold newContainerKey
  exact .bind (.ask (fun _ => trivial) fun i bytes t₁ hi hj _ => .pure (hq t₁ _ (hi.trans hj)))

theorem mint_spec (hme : caller.me = some me) {attempts : Nat} {carried : List MemberKey} {p : Progress}
    {recipients : List MemberKey} (hv : w.Vouched t p.opened.pins) (hm : ∀ m ∈ r.members, Listed w caller m)
    (hg : ∀ m ∈ recipients, m ∈ r.members) :
    w.Ends S caller (r.mint S attempts carried p me recipients) (fun s _ o => PassOk S r.held s o) s t := by
  unfold Reading.mint
  refine .bind (newContainerKey_spec fun t₁ key h₁ => ?_)
  refine .bind (sealed_spec hme (hv.mono h₁) (fun x hx => ?_) fun t₂ out h₂ hout => ?_)
  · obtain ⟨member, hmem, rfl⟩ := List.mem_map.mp hx
    exact hm _ (hg member hmem)
  · rcases out with plan | ⟨rows, pins, fresh⟩
    · exact stopped_spec
    · have hd := hout _ _ _ rfl
      refine .bind (rotated_spec hme hd (fun s₃ t₃ container h₃ => ?_) fun s₃ t₃ e h₃ => lostRace_spec)
      refine .bind (trusted_spec (.bind ?_))
      refine history_spec (r := { r with container }) hme (hd.1.mono h₃) hm plan_within fun t₄ ⟨_, _⟩ => ?_
      exact .pure ⟨_, rfl, opened_memory _ _ _ _⟩

theorem share_spec (hr : r.caller = caller) {attempts : Nat} {carried : List MemberKey} {p : Progress}
    (hp : p.Ready S w r t) (hm : ∀ m ∈ r.members, Listed w caller m) :
    w.Ends S caller (r.share S attempts carried p) (fun s _ o => PassOk S r.held s o) s t := by
  obtain ⟨hv, hopened, hsweep⟩ := hp
  unfold Reading.share
  refine .bind (keepFresh_spec (fun hf => ?_) fun t₁ plan h₁ hplan => ?_)
  · rw [hopened] at hf ⊢
    rw [Reading.opened, openKeyring_settled S _ hf]
    exact hv
  · cases plan with
    | some plan => exact stopped_spec
    | none =>
      have hv₁ := hplan rfl
      have hwithin : p.sweep.Within r.members := by
        rw [hsweep]
        exact plan_within
      refine .bind (trusted_spec ?_)
      have hs : Saves S r.held (some ⟨r.container.id, raiseFloor p.opened.known r.container⟩) r.container.id
          p.opened.ring := by
        rw [hopened]
        exact ⟨_, rfl, opened_memory _ _ _ _⟩
      split
      · rename_i me recipients hme hmint
        rw [hmint] at hwithin
        exact mint_spec (hr ▸ hme) hv₁ hm hwithin
      · rename_i me grants hme hwrap
        rw [hwrap] at hwithin
        exact wrap_spec (hr ▸ hme) hv₁ hm hwithin hs
      · exact .pure hs

/-- A pass uploads rows for the caller and for pinned keys only, and a ring that it returns has its memory to save. -/
theorem pass_spec (S : Suite) (w : Env) (rounds attempts : Nat) (containerID : JsString) (caller : Caller) (held : Keyring)
    (carried : List MemberKey) (s : Option Saved) (t : Nat) :
    w.Ends S caller (pass S rounds attempts containerID caller held carried) (fun s _ o => PassOk S held s o) s t := by
  unfold pass
  refine .bind (reading_spec fun t₁ r rollback h₁ hc hh hm => ?_)
  subst hh
  refine .bind (.ask (fun _ => trivial) fun i pins t₂ hi hj ha => ?_)
  cases rollback with
  | true => exact rolledBack_spec
  | false =>
    refine .bind (confirmed_spec (reopened_ready (loadPins_vouched ha)) fun t₃ p stop h₃ hp => ?_)
    cases stop with
    | some plan => exact stopped_spec
    | none => exact share_spec hc hp hm

end KyNotes.Web
