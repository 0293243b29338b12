import KyNotes.Web.Passes

/-!
# Pinned before keys leave the device

`syncContainerKeys` and `inviteWithKeys` upload envelopes for the caller's own identity and for keys that have been stored
as the pin of the user whose device the server shows, whatever the server answers and whatever other tabs write in the
meantime (`uploads_pinned`). Pins that are stored as first contacts never replace a pin.
-/

namespace KyNotes.Web

open Relational Interaction

variable {S : Suite} {w : Env} {caller : Caller} {me : Me} {t : Nat} {s : Option Saved}

/-! ## Passes -/

theorem attemptOnce_uploads {rounds attempts : Nat} {containerID : JsString} {held : Keyring} {carried : List MemberKey} :
    Wp w.Answers (UploadOk S w caller) (attemptOnce S rounds attempts containerID caller held carried) (fun _ _ => True) t := by
  refine wp_bind (wp_mono (pass_spec S w rounds attempts containerID caller held carried none t) fun t₁ out _ => ?_)
  refine wp_bind ?_
  unfold saveLatest
  split
  · exact trivial
  · refine fun i hi => ⟨trivial, fun x j ha => ?_⟩
    cases x with
    | ok kept => exact trivial
    | error e => exact trivial

theorem syncContainerKeys_uploads {rounds : Nat} {containerID : JsString} {held : Keyring} :
    Wp w.Answers (UploadOk S w caller) (syncContainerKeys S rounds containerID caller held) (fun _ _ => True) t := by
  refine wp_bind (wp_mono attemptOnce_uploads fun t₁ out _ => ?_)
  split
  · exact trivial
  · exact trivial
  · refine wp_bind (wp_mono attemptOnce_uploads fun t₂ out _ => ?_)
    split
    · exact trivial
    · exact trivial
    · exact trivial

/-! ## Invitations -/

theorem plainInvite_spec {target : InviteTarget} {invitee : Member} {keys : InviteKeys} :
    w.Ends S caller (plainInvite target invitee keys) (fun _ _ _ => True) s t :=
  .bind (.ask (fun _ _ hrow => absurd hrow List.not_mem_nil) fun _ _ _ _ _ _ => .pure trivial)

/-- The pins for the sealing are stored. -/
theorem invitePins_spec {member : MemberKey} {Q : Option Saved → Nat → Except InviteKeys Pins → Prop}
    (hq : ∀ t' out, t ≤ t' → (∀ pins, out = .ok pins → w.Vouched t' pins) → Q s t' out) :
    w.Ends S caller (invitePins member) Q s t := by
  unfold invitePins
  refine .bind (.ask (fun _ => trivial) fun i pins t₁ hi hj ha => ?_)
  have hv := loadPins_vouched ha
  split
  · refine .pure (hq t₁ _ (hi.trans hj) fun pins' h => ?_)
    cases h
    exact hv
  · refine .bind (.ask (fun _ => trivial) fun i' trusts t₂ hi' hj' _ => ?_)
    have h₂ : t ≤ t₂ := ((hi.trans hj).trans hi').trans hj'
    cases trusts with
    | false => exact .pure (hq t₂ _ h₂ fun _ h => by cases h)
    | true =>
      refine .bind (.orThrow fun confirmation hc => .bind (.ask (fun _ => trivial) fun i'' kept t₃ hi'' hj'' ha'' => ?_))
      have h₃ : t ≤ t₃ := (h₂.trans hi'').trans hj''
      cases kept with
      | false => exact .pure (hq t₃ _ h₃ fun _ h => by cases h)
      | true =>
        refine .pure (hq t₃ _ h₃ fun pins' h => ?_)
        cases h
        exact confirm_vouched (hv.mono ((hi'.trans hj').trans hi'')) hc ha''

/-- A first contact of the sealing is stored alone. -/
theorem keepInvited_spec {member : MemberKey} {publicKey : JsString} {fresh : List MemberKey}
    {Q : Option Saved → Nat → Option InviteKeys → Prop}
    (hq : ∀ t' out, t ≤ t' → (out = none → fresh ≠ [] →
      ∀ x, publicKeyBytes publicKey = some x → w.Pinned t' member.userId x) → Q s t' out) :
    w.Ends S caller (keepInvited member publicKey fresh) Q s t := by
  unfold keepInvited
  split
  · rename_i hf
    exact .pure (hq t none (Nat.le_refl t) fun _ hne => absurd hf hne)
  · refine .bind (.ask (fun _ => trivial) fun i stored t₁ hi hj ha => ?_)
    cases stored with
    | refused conflicts => exact .pure (hq t₁ _ (hi.trans hj) fun h => by cases h)
    | ok =>
      refine .pure (hq t₁ none (hi.trans hj) fun _ _ x hx => ?_)
      exact addFresh_vouched ha _ _ ⟨publicKey, Record.lookup_set_self, hx⟩

theorem sendInvite_spec (hme : caller.me = some me) {target : InviteTarget} {invitee : Member} {envelope : Envelope}
    (hto : GoesTo S w me target.container.id envelope invitee.userId (w.Pinned t)) :
    w.Ends S caller (sendInvite target invitee envelope) (fun _ _ _ => True) s t := by
  unfold sendInvite
  refine .bind (.ask (fun _ => trivial) fun i _ t₁ hi hj _ => ?_)
  have hok : ∀ i', t₁ ≤ i' → UploadOk S w caller i'
      (.invite target.container.id invitee.userId invitee.role [⟨envelope, target.container.id⟩]) := by
    intro i' hi' row hrow
    obtain rfl := List.mem_singleton.mp hrow
    exact ⟨rfl, me, hme, hto.mono fun x hx => hx.mono ((hi.trans hj).trans hi')⟩
  refine .bind (Action.wp_attempt (wp_ask hok (fun _ _ _ _ _ _ => trivial) fun j e hj' => ?_))
  cases e with
  | alreadyExists => exact plainInvite_spec
  | invalidRequest => exact plainInvite_spec
  | other => exact .fail
  | spent => exact .fail

theorem sealInvite_spec (hme : caller.me = some me) {target : InviteTarget} {invitee : Member} {key : KeyRef}
    {identity : PublicIdentity} (hs : w.Shown invitee.userId identity) :
    w.Ends S caller (sealInvite S target invitee me key identity) (fun _ _ _ => True) s t := by
  unfold sealInvite
  refine .bind (invitePins_spec fun t₁ out h₁ hv => ?_)
  cases out with
  | error keys => exact plainInvite_spec
  | ok pins =>
    have hpins := hv pins rfl
    refine .bind (.ask (fun _ => trivial) fun i ephemeral t₂ hi hj _ => .bind (.orThrow fun out hout => ?_))
    have hlisted : Listed w caller ⟨invitee, some identity⟩ := by
      rintro _ ⟨⟩
      exact Or.inr hs
    obtain ⟨hto, -, hsame, hadd⟩ := sealFor_ok (toOption_some hout) hme hlisted
    refine .bind (keepInvited_spec fun t₃ keys h₃ hkept => ?_)
    cases keys with
    | some keys => exact plainInvite_spec
    | none =>
      refine sendInvite_spec hme (hto.mono fun x hx => ?_)
      by_cases hf : out.fresh = []
      · rw [hsame hf] at hx
        exact (hpins _ _ hx).mono ((hi.trans hj).trans h₃)
      · rw [hadd identity rfl hf] at hx
        obtain ⟨pin, hpin, hx⟩ := hx
        rw [Record.lookup_set_self, Option.some_inj] at hpin
        subst hpin
        exact hkept rfl hf x hx

theorem inviteWithKeys_spec {target : InviteTarget} {invitee : Member} :
    w.Ends S caller (inviteWithKeys S target invitee caller) (fun _ _ _ => True) s t := by
  unfold inviteWithKeys
  split
  · exact plainInvite_spec
  · rename_i me floor hme
    split
    · exact plainInvite_spec
    · split
      · exact plainInvite_spec
      · refine .bind (.ask (fun _ => trivial) fun i state t₁ hi hj _ => ?_)
        split
        · exact plainInvite_spec
        · split
          · exact plainInvite_spec
          · refine .bind (.ask (fun _ => trivial) fun i' identity t₂ hi' hj' ha => ?_)
            split
            · exact plainInvite_spec
            · rename_i identity
              split
              · exact plainInvite_spec
              · exact sealInvite_spec hme ha.1

/-! ## First contacts -/

/-- Another account has its pins, or none. -/
theorem getPins_storePins_other {v : Vault} {username userID username' userID' : JsString} {keys : Pins}
    (h : username' ≠ username ∨ userID' ≠ userID) :
    getPins (storePins v username userID keys).1 username' userID' = getPins v username' userID' ∨
      getPins (storePins v username userID keys).1 username' userID' = Table.empty := by
  unfold storePins
  split
  · exact Or.inl rfl
  · rename_i record hr
    simp only
    split
    · exact Or.inl rfl
    · have hname : record.username = username := Table.get_key hr
      by_cases hn : username' = username
      · have hu : userID ≠ userID' := fun hu => (h.resolve_left fun hne => hne hn) hu.symm
        refine Or.inr ((getPins_of (Table.get_put_of ?_)).trans ?_)
        · show record.username = username'
          exact hname.trans hn.symm
        · simp only [pinsOf, if_neg hu]
      · refine Or.inl ?_
        unfold getPins
        rw [Table.get_put_ne]
        rwa [hname]

/-- A pin that is there after first contacts are stored is the one that was there before, if there was one. -/
theorem storePins_replaces_nothing (v : Vault) (username userID : JsString) (keys : Pins)
    {username' userID' user pin pin' : JsString} (h : (getPins v username' userID').lookup user = some pin)
    (h' : (getPins (storePins v username userID keys).1 username' userID').lookup user = some pin') : pin' = pin := by
  by_cases ha : username' = username ∧ userID' = userID
  · obtain ⟨rfl, rfl⟩ := ha
    rw [storePins_keeps v username' userID' keys h] at h'
    exact (Option.some_inj.mp h').symm
  · rw [not_and_or] at ha
    rcases getPins_storePins_other ha with hp | hp
    · rw [hp, h] at h'
      exact (Option.some_inj.mp h').symm
    · rw [hp] at h'
      cases h'

/-- **Pinned before keys leave the device.** Whatever the server and the user answer and whatever happens to the vault in
the meantime, every row that `syncContainerKeys` or `inviteWithKeys` uploads is sealed for the caller's own identity or for
a key that was stored as the user's pin; and storing first contacts replaces no pin. -/
theorem uploads_pinned (S : Suite) (w : Env) (caller : Caller) :
    (∀ rounds containerID held t es, Trace w.Answers t (syncContainerKeys S rounds containerID caller held) es →
      ∀ e ∈ es, UploadOk S w caller e.1 e.2) ∧
    (∀ target invitee t es, Trace w.Answers t (inviteWithKeys S target invitee caller none) es →
      ∀ e ∈ es, UploadOk S w caller e.1 e.2) ∧
    ∀ (v : Vault) username userID keys user,
      (∀ pin, (getPins v username userID).lookup user = some pin →
        (getPins (storePins v username userID keys).1 username userID).lookup user = some pin) ∧
      ∀ username' userID' pin pin', (getPins v username' userID').lookup user = some pin →
        (getPins (storePins v username userID keys).1 username' userID').lookup user = some pin' → pin' = pin := by
  refine ⟨fun rounds containerID held t es h => ?_, fun target invitee t es h => ?_, fun v username userID keys user => ⟨?_, ?_⟩⟩
  · exact syncContainerKeys_uploads.trace h
  · have hspec : w.Ends S caller (inviteWithKeys S target invitee caller) (fun _ _ _ => True) none t := inviteWithKeys_spec
    exact Wp.trace hspec h
  · exact fun pin h => storePins_keeps v username userID keys h
  · exact fun username' userID' pin pin' h h' => storePins_replaces_nothing v username userID keys h h'

/-! ## A first contact -/

/-- A device that remembers the key of generation 1, and a colleague without a pin. -/
def inviterVault : Vault :=
  (storeKeyState sampleVault [97] sampleMe.userId (sampleId .cnt 97)
    ⟨⟨some 1, some 1⟩, 1, Record.set Table.empty 1 sampleKey.bytes, false⟩).1

def colleagueKey : JsString := base64 (List.replicate 32 2)

def inviterEnv : Env where
  vault := fun
    | 0 => inviterVault
    | _ => (storePins inviterVault [97] sampleMe.userId (Record.set Table.empty (sampleId .usr 98) colleagueKey)).1
  username := [97]
  userID := sampleMe.userId
  Shown := fun user identity => user = sampleId .usr 98 ∧ identity = ⟨sampleId .dev 98, colleagueKey⟩

def inviter : Caller := ⟨sampleMe.userId, some sampleMe.toHeldIdentity, true, true⟩

/-- The server shows the colleague's identity and takes the invitation. -/
def inviterOracle : Oracle Call fun c => Except Failure c.Value :=
  inviterEnv.oracle fun t c =>
    match c with
    | .userIdentity _ => some (some ⟨sampleId .dev 98, colleagueKey⟩, t)
    | .stepUp | .invite _ _ _ _ => some ((), t)
    | _ => none

def invitation : ServiceProg (Option Saved × Except Failure InviteKeys) :=
  inviteWithKeys sampleSuite ⟨⟨sampleId .cnt 97, 1, 1⟩, Record.set Table.empty 1 sampleKey, some ⟨some 1, some 1⟩⟩
    ⟨sampleId .usr 98, [98], .viewer, true⟩ inviter none

instance (user : JsString) (identity : PublicIdentity) : Decidable (inviterEnv.Shown user identity) :=
  inferInstanceAs (Decidable (_ ∧ _))

/-- The colleague is pinned and the key leaves. -/
theorem uploads_pinned_invitation : (eval inviterOracle 0 invitation).2.2.2.toOption = some .sealed ∧
    ∀ e ∈ (eval inviterOracle 0 invitation).1, UploadOk sampleSuite inviterEnv inviter e.1 e.2 := by
  refine ⟨by decide +kernel, ?_⟩
  have hfollows : Follows inviterEnv.Answers inviterOracle 0 invitation := by decide +kernel
  exact (uploads_pinned sampleSuite inviterEnv inviter).2.1 _ _ _ _ hfollows.runs.trace

end KyNotes.Web
