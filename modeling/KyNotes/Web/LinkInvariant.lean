import KyNotes.Web.LinkFlow

/-!
# The invariant of the link flow

A tab never takes back a one-time key, what is pinned to it, a confirmation, a view or an event (`Tab.Later`). With that
order, every function keeps the invariant `Tab.Ok`, whatever is answered to it and whatever runs meanwhile:

* what is pinned to a one-time key is an approver key with its check code, and it never changes;
* a view shows the code that is pinned to its key, and an approver's view has a key that opens the commitment;
* every event of the log was allowed by what came before it (`Tab.Allows`).
-/

namespace KyNotes.Web.LinkFlow

open EventLoop

/-! ## What a tab never takes back -/

/-- The key pair that the one-time key was made with. -/
def Tab.Owns (t : Tab) (k : Nat) (own : Identity) : Prop := (t.keys[k]?).map OneTimeKey.made = some own

def Tab.Pinned (t : Tab) (k : Nat) (pin : Pin) : Prop := (t.keys[k]?).bind OneTimeKey.pin = some pin

/-- The second tab has all that the first one has. -/
structure Tab.Later (s t : Tab) : Prop where
  owns : ∀ k own, s.Owns k own → t.Owns k own
  pinned : ∀ k pin, s.Pinned k pin → t.Pinned k pin
  confirmations : ∀ (i : Nat) c, s.confirmations[i]? = some c → t.confirmations[i]? = some c
  newcomers : ∀ ℓ ∈ s.newcomers, ℓ ∈ t.newcomers
  approvers : ∀ ℓ ∈ s.approvers, ℓ ∈ t.approvers
  log : ∀ e ∈ s.log, e ∈ t.log

instance : Preorder Tab where
  le := Tab.Later
  le_refl _ := ⟨fun _ _ h => h, fun _ _ h => h, fun _ _ h => h, fun _ h => h, fun _ h => h, fun _ h => h⟩
  le_trans _ _ _ h h' :=
    ⟨fun k own hk => h'.owns k own (h.owns k own hk), fun k pin hk => h'.pinned k pin (h.pinned k pin hk),
      fun i c hc => h'.confirmations i c (h.confirmations i c hc), fun ℓ hℓ => h'.newcomers ℓ (h.newcomers ℓ hℓ),
      fun ℓ hℓ => h'.approvers ℓ (h.approvers ℓ hℓ), fun e he => h'.log e (h.log e he)⟩

variable {s t : Tab} {k : Nat} {own own' : Identity} {pin pin' : Pin}

theorem Tab.Owns.unique (h : t.Owns k own) (h' : t.Owns k own') : own = own' := Option.some.inj (h.symm.trans h')

theorem Tab.Pinned.unique (h : t.Pinned k pin) (h' : t.Pinned k pin') : pin = pin' := Option.some.inj (h.symm.trans h')

/-- Something is pinned only to a key that there is. -/
theorem Tab.Pinned.owned (h : t.Pinned k pin) : ∃ own, t.Owns k own := by
  obtain ⟨key, hk, -⟩ := Option.bind_eq_some_iff.mp h
  exact ⟨key.made, by rw [Tab.Owns, hk]; rfl⟩

/-- Zeroing leaves the public key. -/
theorem publicKey_eq {p : Identity} (h : p = own ∨ p = zeroed own) : p.publicKey = own.publicKey := by
  obtain rfl | rfl := h
  · rfl
  · rfl

/-! ## The invariant -/

variable (S : Suite) (nfkc : JsString → JsString)

/-- The pin has the check code of its approver key, for an attempt of this one-time key. -/
def Tab.PinOk (t : Tab) (k : Nat) (pin : Pin) : Prop :=
  ∀ own, t.Owns k own → ∃ ℓ ∈ t.newcomers, ℓ.key = k ∧
    checkCode S ℓ.userID ℓ.id pin.approverKey own.publicKey = some pin.code

/-- A view shows the pinned code. -/
def Tab.NewcomerOk (t : Tab) (ℓ : NewcomerLink) : Prop :=
  ∀ code, ℓ.code = some code → ∃ pin, t.Pinned ℓ.key pin ∧ pin.code = code

/-- A revealed key opens the commitment, and the code is the one of both keys. -/
def Tab.ApproverOk (t : Tab) (ℓ : ApproverLink) : Prop :=
  ∀ newcomerKey, ℓ.newcomerKey = some newcomerKey → linkCommitment S newcomerKey = some ℓ.commitment ∧
    ∃ own code, t.Owns ℓ.key own ∧ ℓ.code = some code ∧
      checkCode S ℓ.userID ℓ.id own.publicKey newcomerKey = some code

/-- The bundle is sealed to the newcomer's key of the view, by the view's own key. -/
def Tab.SealedBy (t : Tab) (ℓ : ApproverLink) (newcomerKey bundle : Bytes) : Prop :=
  ℓ.newcomerKey = some newcomerKey ∧ ∃ own sender identityPrivateKey device ephemeral, t.Owns ℓ.key own ∧
    (sender = own ∨ sender = zeroed own) ∧
    sealLinkBundle S identityPrivateKey sender ⟨ℓ.userID, ℓ.id, device, own.publicKey, newcomerKey⟩ ephemeral =
      some bundle

/-- The bundle opens under the approver key, for the attempt and its own key. -/
def Tab.Opens (t : Tab) (ℓ : NewcomerLink) (approverKey bundle : Bytes) (identity : HeldIdentity) : Prop :=
  ∃ own recipient, t.Owns ℓ.key own ∧ (recipient = own ∨ recipient = zeroed own) ∧
    openLinkBundle S bundle recipient ⟨ℓ.userID, ℓ.id, identity.deviceId, approverKey, own.publicKey⟩ =
      .ok identity.privateKey

/-- What must have come before an event. -/
def Tab.Allows (t : Tab) (past : List Event) : Event → Prop
  | .pinned k pin => t.Pinned k pin
  | .revealed k _ text =>
    (∃ pin, .pinned k pin ∈ past) ∧ (∀ id' text', .revealed k id' text' ∉ past) ∧
      ∃ own, t.Owns k own ∧ text = base64 own.publicKey
  | .confirmed c => ∀ entered, c.typed = some entered → digits nfkc entered = digits nfkc c.code
  | .approved requestID c bundle =>
    .confirmed c ∈ past ∧ c.requestID = requestID ∧ c.typed.isSome ∧
      ∃ ℓ ∈ t.approvers, ℓ.id = requestID ∧ ℓ.code = some c.code ∧ ∃ newcomerKey, t.SealedBy S ℓ newcomerKey bundle
  | .accepted ℓ bundle identity =>
    ∃ pin c, t.Pinned ℓ.key pin ∧ .pinned ℓ.key pin ∈ past ∧ .confirmed c ∈ past ∧ c.requestID = ℓ.id ∧
      c.code = pin.code ∧ t.Opens S ℓ pin.approverKey bundle identity

/-- Every event was allowed by those before it. -/
def Tab.History (t : Tab) : List Event → Prop
  | [] => True
  | e :: past => t.Allows S nfkc past e ∧ t.History past

structure Tab.Ok (t : Tab) : Prop where
  pins : ∀ k pin, t.Pinned k pin → t.PinOk S k pin
  logged : ∀ k pin, t.Pinned k pin → .pinned k pin ∈ t.log
  newcomers : ∀ ℓ ∈ t.newcomers, t.NewcomerOk ℓ
  approvers : ∀ ℓ ∈ t.approvers, t.ApproverOk S ℓ
  confirmations : ∀ c ∈ t.confirmations, .confirmed c ∈ t.log
  history : t.History S nfkc t.log

variable {S nfkc}

theorem Tab.Later.pinOk (h : s ≤ t) (hp : s.PinOk S k pin) (hk : s.Pinned k pin) : t.PinOk S k pin := by
  intro own hown
  obtain ⟨own', hown'⟩ := hk.owned
  obtain rfl := (h.owns k own' hown').unique hown
  obtain ⟨ℓ, hℓ, hcode⟩ := hp own' hown'
  exact ⟨ℓ, h.newcomers ℓ hℓ, hcode⟩

theorem Tab.Later.newcomerOk (h : s ≤ t) {ℓ : NewcomerLink} (hℓ : s.NewcomerOk ℓ) : t.NewcomerOk ℓ := by
  intro code hcode
  obtain ⟨pin, hpin, heq⟩ := hℓ code hcode
  exact ⟨pin, h.pinned _ pin hpin, heq⟩

theorem Tab.Later.approverOk (h : s ≤ t) {ℓ : ApproverLink} (hℓ : s.ApproverOk S ℓ) : t.ApproverOk S ℓ := by
  intro newcomerKey hkey
  obtain ⟨hcommit, own, code, hown, hcode⟩ := hℓ newcomerKey hkey
  exact ⟨hcommit, own, code, h.owns _ own hown, hcode⟩

theorem Tab.Later.sealedBy (h : s ≤ t) {ℓ : ApproverLink} {newcomerKey bundle : Bytes}
    (hs : s.SealedBy S ℓ newcomerKey bundle) : t.SealedBy S ℓ newcomerKey bundle := by
  obtain ⟨hkey, own, sender, identityKey, device, ephemeral, hown, hseal⟩ := hs
  exact ⟨hkey, own, sender, identityKey, device, ephemeral, h.owns _ own hown, hseal⟩

theorem Tab.Later.allows (h : s ≤ t) {past : List Event} {e : Event} (he : s.Allows S nfkc past e) :
    t.Allows S nfkc past e := by
  cases e with
  | pinned k pin => exact h.pinned k pin he
  | revealed k id text =>
    obtain ⟨hpin, honce, own, hown, htext⟩ := he
    exact ⟨hpin, honce, own, h.owns k own hown, htext⟩
  | confirmed c => exact he
  | approved requestID c bundle =>
    obtain ⟨hconf, hreq, htyped, ℓ, hℓ, hid, hcode, newcomerKey, hseal⟩ := he
    exact ⟨hconf, hreq, htyped, ℓ, h.approvers ℓ hℓ, hid, hcode, newcomerKey, Tab.Later.sealedBy h hseal⟩
  | accepted ℓ bundle identity =>
    obtain ⟨pin, c, hpin, hlog, hconf, hreq, hcode, own, recipient, hown, hopen⟩ := he
    exact ⟨pin, c, h.pinned _ pin hpin, hlog, hconf, hreq, hcode, own, recipient, h.owns _ own hown, hopen⟩

theorem Tab.Later.history (h : s ≤ t) : ∀ {log : List Event}, s.History S nfkc log → t.History S nfkc log
  | [], _ => trivial
  | _ :: _, ⟨he, hpast⟩ => ⟨h.allows he, h.history hpast⟩

/-- An event of the log, with what came before it. -/
theorem Tab.History.split {e : Event} {past : List Event} : ∀ {later : List Event},
    t.History S nfkc (later ++ e :: past) → t.Allows S nfkc past e
  | [], h => h.1
  | _ :: _, ⟨_, hpast⟩ => Tab.History.split hpast

theorem Tab.History.mem {log : List Event} (h : t.History S nfkc log) {e : Event} (he : e ∈ log) :
    ∃ later past, log = later ++ e :: past ∧ t.Allows S nfkc past e := by
  obtain ⟨later, past, rfl⟩ := List.append_of_mem he
  exact ⟨later, past, rfl, h.split⟩

/-- A key is revealed only once something is pinned to it. -/
theorem Tab.Ok.revealed_pinned (h : t.Ok S nfkc) {id text : JsString} (he : .revealed k id text ∈ t.log) :
    ∃ pin, t.Pinned k pin := by
  obtain ⟨later, past, hlog, ⟨pin, hpin⟩, -⟩ := h.history.mem he
  have hmem : Event.pinned k pin ∈ t.log := by
    rw [hlog]
    exact List.mem_append_right _ (List.mem_cons_of_mem _ hpin)
  obtain ⟨_, _, _, hp⟩ := h.history.mem hmem
  exact ⟨pin, hp⟩

/-- A change keeps the invariant when what it adds is as it must be. -/
theorem Tab.Ok.extend (h : s.Ok S nfkc) (hle : s ≤ t)
    (hpins : ∀ k pin, t.Pinned k pin → s.Pinned k pin ∨ t.PinOk S k pin ∧ .pinned k pin ∈ t.log)
    (hnew : ∀ ℓ ∈ t.newcomers, ℓ ∈ s.newcomers ∨ t.NewcomerOk ℓ)
    (happ : ∀ ℓ ∈ t.approvers, ℓ ∈ s.approvers ∨ t.ApproverOk S ℓ)
    (hconf : ∀ c ∈ t.confirmations, c ∈ s.confirmations ∨ .confirmed c ∈ t.log)
    (hlog : t.log = s.log ∨ ∃ e, t.log = e :: s.log ∧ t.Allows S nfkc s.log e) : t.Ok S nfkc where
  pins k pin hk := (hpins k pin hk).elim (fun hs => hle.pinOk (h.pins k pin hs) hs) And.left
  logged k pin hk := (hpins k pin hk).elim (fun hs => hle.log _ (h.logged k pin hs)) And.right
  newcomers ℓ hℓ := (hnew ℓ hℓ).elim (fun hs => hle.newcomerOk (h.newcomers ℓ hs)) id
  approvers ℓ hℓ := (happ ℓ hℓ).elim (fun hs => hle.approverOk (h.approvers ℓ hs)) id
  confirmations c hc := (hconf c hc).elim (fun hs => hle.log _ (h.confirmations c hs)) id
  history := by
    have hpast : t.History S nfkc s.log := hle.history h.history
    obtain hlog | ⟨e, hlog, he⟩ := hlog
    · rw [hlog]; exact hpast
    · rw [hlog]; exact ⟨he, hpast⟩

theorem ok_empty : Tab.empty.Ok S nfkc where
  pins k pin h := by simp [Tab.Pinned, Tab.empty] at h
  logged k pin h := by simp [Tab.Pinned, Tab.empty] at h
  newcomers ℓ h := absurd h List.not_mem_nil
  approvers ℓ h := absurd h List.not_mem_nil
  confirmations c h := absurd h List.not_mem_nil
  history := trivial

/-! ## One change -/

theorem owns_endKey {j : Nat} : (endKey j t).Owns k own ↔ t.Owns k own := by
  unfold Tab.Owns endKey
  rw [List.getElem?_modify]
  cases t.keys[k]? with
  | none => rfl
  | some key => by_cases hj : j = k <;> simp [hj]

theorem pinned_endKey {j : Nat} : (endKey j t).Pinned k pin ↔ t.Pinned k pin := by
  unfold Tab.Pinned endKey
  rw [List.getElem?_modify]
  cases t.keys[k]? with
  | none => rfl
  | some key => by_cases hj : j = k <;> simp [hj]

theorem owns_setPin {j : Nat} {p : Pin} : (setPin j p t).Owns k own ↔ t.Owns k own := by
  unfold Tab.Owns setPin
  rw [List.getElem?_modify]
  cases t.keys[k]? with
  | none => rfl
  | some key => by_cases hj : j = k <;> simp [hj]

theorem pinned_setPin {j : Nat} {p : Pin} :
    (setPin j p t).Pinned k pin ↔ if j = k then (∃ own, t.Owns k own) ∧ p = pin else t.Pinned k pin := by
  unfold Tab.Pinned Tab.Owns setPin
  rw [List.getElem?_modify]
  cases t.keys[k]? with
  | none => by_cases hj : j = k <;> simp [hj]
  | some key => by_cases hj : j = k <;> simp [hj]

theorem owns_newKey {made : Identity} (h : t.Owns k own) : (newKey made t).Owns k own := by
  obtain ⟨key, hk, rfl⟩ := Option.map_eq_some_iff.mp h
  have hlt : k < t.keys.length := (List.getElem?_eq_some_iff.mp hk).1
  rw [Tab.Owns, newKey, List.getElem?_append_left hlt, hk]
  rfl

theorem pinned_newKey {made : Identity} : (newKey made t).Pinned k pin ↔ t.Pinned k pin := by
  unfold Tab.Pinned newKey
  by_cases h : k < t.keys.length
  · rw [List.getElem?_append_left h]
  · rw [List.getElem?_append_right (Nat.not_lt.mp h), List.getElem?_eq_none (Nat.not_lt.mp h)]
    cases k - t.keys.length with
    | zero => simp
    | succ n => simp

theorem ok_endKey (h : t.Ok S nfkc) (j : Nat) : (endKey j t).Ok S nfkc ∧ t ≤ endKey j t := by
  have hle : t ≤ endKey j t := ⟨fun _ _ => owns_endKey.mpr, fun _ _ => pinned_endKey.mpr, fun _ _ hc => hc,
    fun _ hℓ => hℓ, fun _ hℓ => hℓ, fun _ he => he⟩
  exact ⟨h.extend hle (fun _ _ hk => .inl (pinned_endKey.mp hk)) (fun _ => .inl) (fun _ => .inl) (fun _ => .inl)
    (.inl rfl), hle⟩

theorem ok_newKey (h : t.Ok S nfkc) (made : Identity) : (newKey made t).Ok S nfkc ∧ t ≤ newKey made t := by
  have hle : t ≤ newKey made t := ⟨fun _ _ => owns_newKey, fun _ _ => pinned_newKey.mpr, fun _ _ hc => hc,
    fun _ hℓ => hℓ, fun _ hℓ => hℓ, fun _ he => he⟩
  exact ⟨h.extend hle (fun _ _ hk => .inl (pinned_newKey.mp hk)) (fun _ => .inl) (fun _ => .inl) (fun _ => .inl)
    (.inl rfl), hle⟩

/-- A key is pinned to once. -/
theorem ok_setPin (h : t.Ok S nfkc) (hown : t.Owns k own) (hfree : ∀ pin, ¬ t.Pinned k pin)
    (hpin : t.PinOk S k pin) : (setPin k pin t).Ok S nfkc ∧ t ≤ setPin k pin t ∧ (setPin k pin t).Pinned k pin := by
  have hself : (setPin k pin t).Pinned k pin := pinned_setPin.mpr (by rw [if_pos rfl]; exact ⟨⟨own, hown⟩, rfl⟩)
  have hle : t ≤ setPin k pin t := by
    refine ⟨fun _ _ => owns_setPin.mpr, fun j p hj => pinned_setPin.mpr ?_, fun _ _ hc => hc, fun _ hℓ => hℓ,
      fun _ hℓ => hℓ, fun _ he => List.mem_cons_of_mem _ he⟩
    by_cases hkj : k = j
    · exact absurd (hkj ▸ hj) (hfree p)
    · rw [if_neg hkj]
      exact hj
  refine ⟨h.extend hle (fun j p hj => ?_) (fun _ => .inl) (fun _ => .inl) (fun _ => .inl)
    (.inr ⟨.pinned k pin, rfl, hself⟩), hle, hself⟩
  by_cases hkj : k = j
  · subst hkj
    obtain rfl := hj.unique hself
    exact .inr ⟨fun own hown => hpin own (owns_setPin.mp hown), List.mem_cons_self⟩
  · rw [pinned_setPin, if_neg hkj] at hj
    exact .inl hj

theorem ok_record {e : Event} (h : t.Ok S nfkc) (he : t.Allows S nfkc t.log e) :
    (record e t).Ok S nfkc ∧ t ≤ record e t := by
  have hle : t ≤ record e t := ⟨fun _ _ hk => hk, fun _ _ hk => hk, fun _ _ hc => hc, fun _ hℓ => hℓ, fun _ hℓ => hℓ,
    fun _ he => List.mem_cons_of_mem _ he⟩
  exact ⟨h.extend hle (fun _ _ => .inl) (fun _ => .inl) (fun _ => .inl) (fun _ => .inl)
    (.inr ⟨e, rfl, Tab.Later.allows hle he⟩), hle⟩

theorem ok_mint {c : CheckCodeConfirmation} (h : t.Ok S nfkc)
    (hc : ∀ entered, c.typed = some entered → digits nfkc entered = digits nfkc c.code) :
    (mint c t).Ok S nfkc ∧ t ≤ mint c t := by
  have hle : t ≤ mint c t := by
    refine ⟨fun _ _ hk => hk, fun _ _ hk => hk, fun i d hd => ?_, fun _ hℓ => hℓ, fun _ hℓ => hℓ,
      fun _ he => List.mem_cons_of_mem _ he⟩
    exact (List.getElem?_append_left (List.getElem?_eq_some_iff.mp hd).1).trans hd
  refine ⟨h.extend hle (fun _ _ => .inl) (fun _ => .inl) (fun _ => .inl) (fun d hd => ?_)
    (.inr ⟨.confirmed c, rfl, hc⟩), hle⟩
  rcases List.mem_append.mp hd with hd | hd
  · exact .inl hd
  · obtain rfl := List.mem_singleton.mp hd
    exact .inr List.mem_cons_self

theorem ok_showNewcomer {ℓ : NewcomerLink} (h : t.Ok S nfkc) (hℓ : t.NewcomerOk ℓ) :
    (showNewcomer ℓ t).Ok S nfkc ∧ t ≤ showNewcomer ℓ t := by
  have hle : t ≤ showNewcomer ℓ t := ⟨fun _ _ hk => hk, fun _ _ hk => hk, fun _ _ hc => hc,
    fun _ hm => List.mem_append_left _ hm, fun _ hm => hm, fun _ he => he⟩
  refine ⟨h.extend hle (fun _ _ => .inl) (fun m hm => ?_) (fun _ => .inl) (fun _ => .inl) (.inl rfl), hle⟩
  rcases List.mem_append.mp hm with hm | hm
  · exact .inl hm
  · obtain rfl := List.mem_singleton.mp hm
    exact .inr (Tab.Later.newcomerOk hle hℓ)

theorem ok_showApprover {ℓ : ApproverLink} (h : t.Ok S nfkc) (hℓ : t.ApproverOk S ℓ) :
    (showApprover ℓ t).Ok S nfkc ∧ t ≤ showApprover ℓ t := by
  have hle : t ≤ showApprover ℓ t := ⟨fun _ _ hk => hk, fun _ _ hk => hk, fun _ _ hc => hc, fun _ hm => hm,
    fun _ hm => List.mem_append_left _ hm, fun _ he => he⟩
  refine ⟨h.extend hle (fun _ _ => .inl) (fun _ => .inl) (fun m hm => ?_) (fun _ => .inl) (.inl rfl), hle⟩
  rcases List.mem_append.mp hm with hm | hm
  · exact .inl hm
  · obtain rfl := List.mem_singleton.mp hm
    exact .inr (Tab.Later.approverOk hle hℓ)

/-! ## Every function -/

section Safe

variable {α β : Type}

variable (S nfkc) in
/-- From `s` on the function keeps the invariant and takes nothing back, and what it returns meets `Q`. -/
abbrev Safe (x : Flow α) (Q : Tab → α → Prop) (s : Tab) : Prop :=
  Async.Wp (Tab.Ok S nfkc) x Q (fun _ _ => True) s

theorem safe_fail {e : LinkError} {Q : Tab → α → Prop} : Safe S nfkc (Async.fail e) Q s := Async.wp_fail fun _ => trivial

theorem safe_ask {r : Ask} {Q : Tab → r.Val → Prop} (hq : ∀ t v, s ≤ t → t.Ok S nfkc → Q t v) :
    Safe S nfkc (ask r) Q s :=
  Async.wp_call hq fun _ _ _ _ => trivial

/-- What follows a request starts with any answer, in any later state. -/
theorem safe_ask_bind (hi : s.Ok S nfkc) {r : Ask} {f : r.Val → Flow β} {Q : Tab → β → Prop}
    (h : ∀ t v, t.Ok S nfkc → s ≤ t → Safe S nfkc (f v) Q t) : Safe S nfkc (ask r >>= f) Q s :=
  Async.wp_bind hi (safe_ask fun t v hle ht => h t v ht hle)

theorem safe_orFail {o : Option α} {e : LinkError} {Q : Tab → α → Prop} (h : ∀ a, o = some a → Q s a) :
    Safe S nfkc (Async.orFail o e) Q s :=
  Async.wp_orFail (fun a ha _ => h a ha) fun _ => trivial

theorem safe_identityOf (hi : s.Ok S nfkc) {Q : Tab → Identity → Prop}
    (h : ∀ p own, s.Owns k own → p = own ∨ p = zeroed own → Q s p) : Safe S nfkc (identityOf k) Q s := by
  refine Async.wp_bind hi (Async.wp_read fun _ => safe_orFail fun p hp => ?_)
  obtain ⟨key, hk, rfl⟩ := Option.map_eq_some_iff.mp hp
  refine h _ key.made (by rw [Tab.Owns, hk]; rfl) ?_
  by_cases hl : key.live
  · exact .inl (if_pos hl)
  · exact .inr (if_neg hl)

theorem safe_endLink (hi : s.Ok S nfkc) (ℓ : Attempt) : Safe S nfkc (endLink ℓ) (fun _ _ => True) s :=
  Async.wp_update fun _ => ⟨(ok_endKey hi ℓ.key).1, (ok_endKey hi ℓ.key).2, trivial⟩

theorem safe_live (hi : s.Ok S nfkc) (ℓ : Attempt) (userID : JsString) :
    Safe S nfkc (live ℓ userID) (fun _ _ => True) s := by
  refine Async.wp_bind hi (Async.wp_read fun _ => ?_)
  split
  · exact safe_fail
  · split
    · exact Async.wp_seq hi (safe_endLink hi ℓ) fun _ _ _ _ _ => safe_fail
    · exact Async.wp_pure fun _ => trivial

theorem safe_orEnd (hi : s.Ok S nfkc) {ℓ : Attempt} {x : Flow α} {Q : Tab → α → Prop} (h : Safe S nfkc x Q s) :
    Safe S nfkc (orEnd ℓ x) Q s := by
  refine Async.wp_seq (Q := fun t out => ∀ a, out = .ok a → Q t a) hi (Async.wp_attempt hi ?_) fun t out hi' _ hout => ?_
  · exact Async.wp_mono h (fun _ _ _ _ hq _ ha => Except.ok.inj ha ▸ hq) fun _ _ _ _ _ _ ha => nomatch ha
  · cases out with
    | ok a => exact Async.wp_pure fun _ => hout a rfl
    | error e => exact Async.wp_seq hi' (safe_endLink hi' ℓ) fun _ _ _ _ _ => safe_fail

theorem safe_newLinkKey (hi : s.Ok S nfkc) : Safe S nfkc (newLinkKey S) (fun _ _ => True) s := by
  refine safe_ask_bind hi fun t secret hi' _ => ?_
  exact Async.wp_exchange fun _ => ⟨(ok_newKey hi' _).1, (ok_newKey hi' _).2, trivial⟩

/-! ### The newcomer -/

theorem safe_otherCopyHeld (hi : s.Ok S nfkc) : Safe S nfkc otherCopyHeld (fun _ _ => True) s := by
  refine safe_ask_bind hi fun t here hi' _ => ?_
  split
  · exact Async.wp_pure fun _ => trivial
  · refine safe_ask_bind hi' fun u listed hi'' _ => ?_
    split
    · exact Async.wp_pure fun _ => trivial
    · exact Async.wp_bind hi'' (safe_orFail fun _ _ => Async.wp_pure fun _ => trivial)

/-- A new attempt shows no code. -/
theorem safe_startNewcomerLink (hi : s.Ok S nfkc) (userID : JsString) :
    Safe S nfkc (startNewcomerLink S userID) (fun _ ℓ => ℓ.code = none) s := by
  refine safe_ask_bind hi fun t keeps hi' _ => ?_
  split
  · exact safe_fail
  · refine Async.wp_seq hi' (safe_newLinkKey hi') fun u key hi'' _ _ => ?_
    have hcreate : Safe S nfkc (orEnd ⟨[], userID, key⟩ do
        let own ← identityOf key
        let commitment ← Async.orFail (linkCommitment S own.publicKey) .malformed
        ask (.create (base64 commitment))) (fun _ _ => True) u := by
      refine safe_orEnd hi'' (Async.wp_bind hi'' (safe_identityOf hi'' fun p own _ _ => ?_))
      exact Async.wp_bind hi'' (safe_orFail fun _ _ => safe_ask fun _ _ _ _ => trivial)
    refine Async.wp_seq (Q := fun _ _ => True) hi'' ?_ fun v created hv _ _ => ?_
    · exact Async.wp_attempt hi'' (Async.wp_mono hcreate (fun _ _ _ _ _ => trivial) fun _ _ _ _ _ => trivial)
    · split
      · exact Async.wp_pure fun _ => rfl
      · exact safe_fail
      · exact safe_fail

theorem safe_collectLinkBundle (hi : s.Ok S nfkc) (key : Nat) (requestID : JsString) :
    Safe S nfkc (collectLinkBundle key requestID) (fun _ _ => True) s := by
  refine Async.wp_bind hi (Async.wp_read fun _ => ?_)
  split
  · exact safe_fail
  · exact safe_ask fun _ _ _ _ => trivial

/-- The key is pinned before this browser reveals its own, and nothing was pinned before. -/
theorem safe_pinAndReveal (hi : s.Ok S nfkc) {ℓ : NewcomerLink} (hℓ : ℓ ∈ s.newcomers)
    (hfree : ∀ pin, ¬ s.Pinned ℓ.key pin) (text : JsString) :
    Safe S nfkc (pinAndReveal S ℓ text) (fun t pin => t.Pinned ℓ.key pin) s := by
  refine Async.wp_bind hi (safe_orFail fun approverKey _ => ?_)
  refine Async.wp_bind hi (safe_identityOf hi fun p own hown hp => ?_)
  have hpub : p.publicKey = own.publicKey := publicKey_eq hp
  refine Async.wp_bind hi (safe_orFail fun code hcode => ?_)
  -- from here to the request nothing else runs
  have hpin : s.PinOk S ℓ.key ⟨approverKey, code⟩ := fun own' hown' =>
    ⟨ℓ, hℓ, rfl, by rw [← hown.unique hown', ← hpub]; exact hcode⟩
  obtain ⟨hi₁, hle₁, hself⟩ := ok_setPin hi hown hfree hpin
  refine Async.wp_bind hi (Async.wp_update fun _ => ⟨hi₁, hle₁, ?_⟩)
  have hallow : (setPin ℓ.key ⟨approverKey, code⟩ s).Allows S nfkc (setPin ℓ.key ⟨approverKey, code⟩ s).log
      (.revealed ℓ.key ℓ.id (base64 p.publicKey)) := by
    refine ⟨⟨_, List.mem_cons_self⟩, fun id' text' hmem => ?_, own, owns_setPin.mpr hown, by rw [hpub]⟩
    rcases List.mem_cons.mp hmem with hmem | hmem
    · exact nomatch hmem
    · obtain ⟨pin, hpinned⟩ := hi.revealed_pinned hmem
      exact hfree pin hpinned
  obtain ⟨hi₂, hle₂⟩ := ok_record hi₁ hallow
  refine Async.wp_bind hi₁ (Async.wp_update fun _ => ⟨hi₂, hle₂, ?_⟩)
  refine safe_ask_bind hi₂ fun t _ _ hle => ?_
  exact Async.wp_pure fun _ => hle.pinned _ _ hself

theorem safe_comparePinned (hi : s.Ok S nfkc) (ℓ : NewcomerLink) (pin : Pin) (text : Option JsString) :
    Safe S nfkc (comparePinned ℓ pin text) (fun _ _ => True) s := by
  cases text with
  | none => exact Async.wp_pure fun _ => trivial
  | some text =>
    refine Async.wp_bind hi (safe_orFail fun approverKey _ => ?_)
    split
    · exact Async.wp_seq hi (safe_endLink hi _) fun _ _ _ _ _ => safe_fail
    · exact Async.wp_pure fun _ => trivial

theorem newcomerOk_view {ℓ : NewcomerLink} (h : t.Pinned ℓ.key pin) : t.NewcomerOk (ℓ.view pin) := by
  intro code hcode
  exact ⟨pin, h, Option.some.inj hcode⟩

/-- A poll shows what is pinned. -/
theorem safe_pollNewcomerLink (hi : s.Ok S nfkc) {ℓ : NewcomerLink} (hℓ : ℓ ∈ s.newcomers) (userID : JsString) :
    Safe S nfkc (pollNewcomerLink S ℓ userID) (fun t out => t.NewcomerOk out.1) s := by
  refine Async.wp_seq hi (safe_live hi _ userID) fun t _ ht hst _ => ?_
  refine Async.wp_seq ht (safe_collectLinkBundle ht ℓ.key ℓ.id) fun u state hu htu _ => ?_
  have hmem : ℓ ∈ u.newcomers := htu.newcomers ℓ (hst.newcomers ℓ hℓ)
  refine Async.wp_bind hu (Async.wp_read fun _ => ?_)
  cases hpin : (u.keys[ℓ.key]?).bind OneTimeKey.pin with
  | some pinned =>
    refine Async.wp_seq hu (safe_comparePinned hu ℓ pinned _) fun v _ hv huv _ => ?_
    have hview : v.NewcomerOk (ℓ.view pinned) := newcomerOk_view (huv.pinned _ _ hpin)
    split
    · exact Async.wp_pure fun _ => hview
    · exact Async.wp_bind hv (safe_orFail fun bundle _ => Async.wp_pure fun _ => hview)
  | none =>
    dsimp only
    split
    · exact Async.wp_pure fun hu => hu.newcomers ℓ hmem
    · have hfree : ∀ pin, ¬ u.Pinned ℓ.key pin := fun pin hp => nomatch hpin.symm.trans hp
      refine Async.wp_seq hu (safe_orEnd hu (safe_pinAndReveal hu hmem hfree _)) fun v pin _ _ hp => ?_
      exact Async.wp_pure fun _ => newcomerOk_view hp

theorem safe_awaitRounds {ℓ : NewcomerLink} (userID : JsString) : ∀ (rounds delay : Nat) (failingSince : Option Int)
    {s : Tab}, s.Ok S nfkc → ℓ ∈ s.newcomers →
      Safe S nfkc (awaitRounds S ℓ userID rounds delay failingSince) (fun _ _ => True) s
  | 0, _, _, _, hi, _ => safe_ask_bind hi fun _ v _ _ => v.elim
  | rounds + 1, delay, failingSince, s, hi, hℓ => by
    unfold awaitRounds
    refine safe_ask_bind hi fun t _ ht hst => safe_ask_bind ht fun u wanted hu htu => ?_
    have hmem : ℓ ∈ u.newcomers := htu.newcomers ℓ (hst.newcomers ℓ hℓ)
    split
    · exact Async.wp_pure fun _ => trivial
    · refine Async.wp_seq (Q := fun v out => ∀ next, out = .ok next → v.NewcomerOk next.1) hu
        (Async.wp_attempt hu ?_) fun v out hv huv hout => ?_
      · exact Async.wp_mono (safe_pollNewcomerLink hu hmem userID) (fun _ _ _ _ hq _ h => Except.ok.inj h ▸ hq)
          fun _ _ _ _ _ _ h => nomatch h
      · have hmem' : ℓ ∈ v.newcomers := huv.newcomers ℓ hmem
        split
        · rename_i view bundle
          refine safe_ask_bind hv fun w wanted' hw hvw => ?_
          split
          · exact Async.wp_pure fun _ => trivial
          · have hview : w.NewcomerOk view := Tab.Later.newcomerOk hvw (hout _ rfl)
            obtain ⟨hshow, hle⟩ := ok_showNewcomer hw hview
            refine Async.wp_bind hw (Async.wp_update fun _ => ⟨hshow, hle, ?_⟩)
            split
            · exact Async.wp_pure fun _ => trivial
            · exact safe_awaitRounds userID rounds _ _ hshow (hle.newcomers ℓ (hvw.newcomers ℓ hmem'))
        · refine Async.wp_bind hv (Async.wp_read fun _ => ?_)
          split
          · exact safe_fail
          · have hsince : Safe S nfkc (sinceOrNow failingSince) (fun _ _ => True) v := by
              cases failingSince with
              | some since => exact Async.wp_pure fun _ => trivial
              | none => exact safe_ask fun _ _ _ _ => trivial
            refine Async.wp_seq hv hsince fun w since hw hvw _ => safe_ask_bind hw fun x now hx hwx => ?_
            split
            · exact Async.wp_seq hx (safe_endLink hx _) fun _ _ _ _ _ => safe_fail
            · exact safe_awaitRounds userID rounds _ _ hx (hwx.newcomers ℓ (hvw.newcomers ℓ hmem'))

/-- What is kept was opened under the pinned key, once its code was confirmed. -/
theorem safe_openAndKeep (hi : s.Ok S nfkc) {ℓ : NewcomerLink} (hpin : s.Pinned ℓ.key pin) {c : CheckCodeConfirmation}
    (hconf : .confirmed c ∈ s.log) (hreq : c.requestID = ℓ.id) (hcode : c.code = pin.code) (bundle : Bytes) :
    Safe S nfkc (openAndKeep S ℓ bundle pin) (fun _ _ => True) s := by
  refine safe_ask_bind hi fun t listed ht hst => ?_
  split
  · exact safe_fail
  · rename_i listed
    refine Async.wp_bind ht (safe_identityOf ht fun p own hown hp => ?_)
    have hpub : p.publicKey = own.publicKey := publicKey_eq hp
    split
    · exact safe_fail
    · rename_i privateKey hopen
      refine Async.wp_bind ht (safe_orFail fun key _ => ?_)
      split
      · exact safe_fail
      · have hpinned : t.Pinned ℓ.key pin := hst.pinned _ _ hpin
        have hallow : t.Allows S nfkc t.log (.accepted ℓ bundle ⟨listed.deviceId, S.getPublicKey privateKey, privateKey⟩) :=
          ⟨pin, c, hpinned, ht.logged _ _ hpinned, hst.log _ hconf, hreq, hcode, own, p, hown, hp, hpub ▸ hopen⟩
        obtain ⟨hrec, hle⟩ := ok_record ht hallow
        refine Async.wp_bind ht (Async.wp_update fun _ => ⟨hrec, hle, ?_⟩)
        refine safe_ask_bind hrec fun u current hu _ => ?_
        split
        · exact safe_fail
        · split
          · exact Async.wp_pure fun _ => trivial
          · refine safe_ask_bind hu fun v saved _ _ => ?_
            split
            · exact safe_fail
            · exact Async.wp_pure fun _ => trivial

theorem safe_finishNewcomerLink (hi : s.Ok S nfkc) (ℓ : NewcomerLink) (bundle : Bytes) (confirmation : Nat)
    (userID : JsString) : Safe S nfkc (finishNewcomerLink S ℓ bundle confirmation userID) (fun _ _ => True) s := by
  refine Async.wp_seq hi (safe_live hi _ userID) fun t _ ht _ _ => ?_
  refine Async.wp_bind ht (Async.wp_read fun _ => Async.wp_bind ht (Async.wp_read fun _ => ?_))
  split
  · rename_i pin c hpin hc
    split
    · exact safe_fail
    · rename_i hcode
      obtain ⟨hreq, hcode⟩ := not_or.mp hcode
      have hconf : Event.confirmed c ∈ t.log := ht.confirmations c (List.mem_of_getElem? hc)
      have hkeep : Safe S nfkc (openAndKeep S ℓ bundle pin) (fun _ _ => True) t :=
        safe_openAndKeep ht hpin hconf (not_not.mp hreq) (not_not.mp hcode) bundle
      refine Async.wp_seq (Q := fun _ _ => True) ht
        (Async.wp_attempt ht (Async.wp_mono hkeep (fun _ _ _ _ _ => trivial) fun _ _ _ _ _ => trivial))
        fun u out hu _ _ => Async.wp_seq hu (safe_endLink hu _) fun v _ _ _ _ => ?_
      exact Async.wp_ofExcept (fun _ _ => trivial) fun _ _ => trivial
  · exact safe_fail

/-! ### The approver -/

theorem safe_claimLink (hi : s.Ok S nfkc) (row : LinkRequestRow) (userID : JsString) :
    Safe S nfkc (claimLink S row userID) (fun _ ℓ => ℓ.newcomerKey = none) s := by
  refine Async.wp_bind hi (safe_orFail fun commitment _ => ?_)
  split
  · exact safe_fail
  · refine Async.wp_seq hi (safe_newLinkKey hi) fun t key ht _ _ => ?_
    refine Async.wp_seq (Q := fun _ _ => True) ht (safe_orEnd ht ?_) fun _ _ _ _ _ => Async.wp_pure fun _ => rfl
    exact Async.wp_bind ht (safe_identityOf ht fun _ _ _ _ => safe_ask fun _ _ _ _ => trivial)

/-- The key that is taken opens the commitment of the claim. -/
theorem safe_revealedLink (hi : s.Ok S nfkc) {ℓ : ApproverLink} (hℓ : ℓ ∈ s.approvers) (row : Option LinkRequestRow)
    (userID : JsString) : Safe S nfkc (revealedLink S ℓ row userID) (fun t ℓ => t.ApproverOk S ℓ) s := by
  refine Async.wp_seq hi (safe_live hi _ userID) fun t _ ht hst _ => ?_
  have hold : t.ApproverOk S ℓ := ht.approvers ℓ (hst.approvers ℓ hℓ)
  split
  · exact Async.wp_pure fun _ => hold
  · split
    · exact Async.wp_pure fun _ => hold
    · dsimp only
      split
      · exact Async.wp_seq ht (safe_endLink ht _) fun _ _ _ _ _ => safe_fail
      · rename_i hmatch
        refine Async.wp_bind ht (safe_identityOf ht fun p own hown hp => ?_)
        have hpub : p.publicKey = own.publicKey := publicKey_eq hp
        refine Async.wp_bind ht (safe_orFail fun code hcode => Async.wp_pure fun _ newcomerKey hkey => ?_)
        obtain rfl := Option.some.inj hkey
        exact ⟨not_not.mp (not_or.mp hmatch).2, own, code, hown, rfl, hpub ▸ hcode⟩

theorem safe_confirmTypedCode (hi : s.Ok S nfkc) (ℓ : ApproverLink) (entered : JsString) :
    Safe S nfkc (confirmTypedCode nfkc ℓ entered) (fun _ _ => True) s := by
  refine Async.wp_bind hi (safe_orFail fun c hc => ?_)
  unfold confirmTypedCheckCode at hc
  split at hc
  · cases hc
  · rename_i hsame
    cases hc
    have htyped : ∀ text, some entered = some text → digits nfkc text = digits nfkc (ℓ.code.getD []) :=
      fun text htext => Option.some.inj htext ▸ not_not.mp (not_or.mp hsame).2
    obtain ⟨hmint, hle⟩ := ok_mint (c := ⟨ℓ.id, ℓ.code.getD [], some entered⟩) hi htyped
    exact Async.wp_update fun _ => ⟨hmint, hle, trivial⟩

theorem typedFor_spec {i : Nat} {requestID : JsString} {c : CheckCodeConfirmation}
    (h : typedFor i requestID t = some c) :
    t.confirmations[i]? = some c ∧ c.requestID = requestID ∧ c.typed.isSome := by
  obtain ⟨hc, hok⟩ := Option.filter_eq_some_iff.mp h
  exact ⟨hc, of_decide_eq_true hok⟩

/-- What is sent was sealed by a view whose code is the confirmed one. -/
theorem safe_sendLinkBundle (hi : s.Ok S nfkc) {i : Nat} {c : CheckCodeConfirmation} (hc : s.confirmations[i]? = some c)
    {ℓ : ApproverLink} (hℓ : ℓ ∈ s.approvers) (hcode : ℓ.code = some c.code) {newcomerKey bundle : Bytes}
    (hseal : s.SealedBy S ℓ newcomerKey bundle) : Safe S nfkc (sendLinkBundle i ℓ.id bundle) (fun _ _ => True) s := by
  refine Async.wp_bind hi (Async.wp_read fun _ => ?_)
  split
  · exact safe_fail
  · rename_i confirmed htyped
    obtain ⟨hget, hreq, hisTyped⟩ := typedFor_spec htyped
    obtain rfl : c = confirmed := Option.some.inj (hc.symm.trans hget)
    have hallow : s.Allows S nfkc s.log (.approved ℓ.id c bundle) :=
      ⟨hi.confirmations c (List.mem_of_getElem? hc), hreq, hisTyped, ℓ, hℓ, rfl, hcode, newcomerKey, hseal⟩
    obtain ⟨hrec, hle⟩ := ok_record hi hallow
    refine Async.wp_bind hi (Async.wp_update fun _ => ⟨hrec, hle, ?_⟩)
    exact safe_ask fun _ _ _ _ => trivial

theorem safe_approveLink (hi : s.Ok S nfkc) {ℓ : ApproverLink} (hℓ : ℓ ∈ s.approvers) (i : Nat)
    (identity : HeldIdentity) (userID : JsString) :
    Safe S nfkc (approveLink S ℓ i identity userID) (fun _ _ => True) s := by
  refine Async.wp_seq hi (safe_live hi _ userID) fun t _ ht hst _ => ?_
  split
  · rename_i newcomerKey code hkey hcode
    have hshown : ℓ.code = some code := (Option.filter_eq_some_iff.mp hcode).1
    refine Async.wp_bind ht (Async.wp_read fun _ => ?_)
    split
    · exact safe_fail
    · rename_i hconf
      obtain ⟨c, hc, hsame⟩ := Option.map_eq_some_iff.mp (not_not.mp hconf)
      obtain ⟨hget, -, -⟩ := typedFor_spec hc
      refine safe_ask_bind ht fun u ephemeral hu htu => ?_
      refine Async.wp_bind hu (safe_identityOf hu fun p own hown hp => ?_)
      refine Async.wp_bind hu (safe_orFail fun bundle hseal => ?_)
      have hpub : p.publicKey = own.publicKey := publicKey_eq hp
      have hsealed : u.SealedBy S ℓ newcomerKey bundle :=
        ⟨hkey, own, p, identity.privateKey, identity.deviceId, ephemeral, hown, hp, hpub ▸ hseal⟩
      refine safe_ask_bind hu fun v _ hv huv => ?_
      have hsend : Safe S nfkc (sendLinkBundle i ℓ.id bundle) (fun _ _ => True) v :=
        safe_sendLinkBundle hv (huv.confirmations i c (htu.confirmations i c hget))
          (huv.approvers ℓ (htu.approvers ℓ (hst.approvers ℓ hℓ))) (hsame ▸ hshown) (Tab.Later.sealedBy huv hsealed)
      exact Async.wp_seq hv hsend fun w _ hw _ _ => safe_endLink hw _
  · exact safe_fail

/-! ### The screens -/

theorem safe_withNewcomer (hi : s.Ok S nfkc) {link : Nat} {f : NewcomerLink → Flow Unit}
    (h : ∀ ℓ ∈ s.newcomers, Safe S nfkc (f ℓ) (fun _ _ => True) s) :
    Safe S nfkc (withNewcomer link f) (fun _ _ => True) s := by
  refine Async.wp_bind hi (Async.wp_read fun _ => ?_)
  split
  · exact Async.wp_pure fun _ => trivial
  · rename_i ℓ hℓ
    exact h ℓ (List.mem_of_getElem? hℓ)

theorem safe_withApprover (hi : s.Ok S nfkc) {link : Nat} {f : ApproverLink → Flow Unit}
    (h : ∀ ℓ ∈ s.approvers, Safe S nfkc (f ℓ) (fun _ _ => True) s) :
    Safe S nfkc (withApprover link f) (fun _ _ => True) s := by
  refine Async.wp_bind hi (Async.wp_read fun _ => ?_)
  split
  · exact Async.wp_pure fun _ => trivial
  · rename_i ℓ hℓ
    exact h ℓ (List.mem_of_getElem? hℓ)

theorem safe_showNewcomer {ℓ : NewcomerLink} (hℓ : s.NewcomerOk ℓ) :
    Safe S nfkc (Async.update (showNewcomer ℓ)) (fun _ _ => True) s :=
  Async.wp_update fun hi => ⟨(ok_showNewcomer hi hℓ).1, (ok_showNewcomer hi hℓ).2, trivial⟩

theorem safe_showApprover {ℓ : ApproverLink} (hℓ : s.ApproverOk S ℓ) :
    Safe S nfkc (Async.update (showApprover ℓ)) (fun _ _ => True) s :=
  Async.wp_update fun hi => ⟨(ok_showApprover hi hℓ).1, (ok_showApprover hi hℓ).2, trivial⟩

theorem safe_flow (hi : s.Ok S nfkc) (c : Call) : Safe S nfkc (flow S nfkc c) (fun _ _ => True) s := by
  cases c with
  | otherCopyHeld => exact Async.wp_seq hi (safe_otherCopyHeld hi) fun _ _ _ _ _ => Async.wp_pure fun _ => trivial
  | start userID =>
    refine Async.wp_seq hi (safe_startNewcomerLink hi userID) fun t ℓ _ _ hnone => safe_showNewcomer fun code hcode => ?_
    exact nomatch hnone.symm.trans hcode
  | poll link userID =>
    refine safe_withNewcomer hi fun ℓ hℓ => ?_
    exact Async.wp_seq hi (safe_pollNewcomerLink hi hℓ userID) fun _ _ _ _ hview => safe_showNewcomer hview
  | await link userID rounds =>
    refine safe_withNewcomer hi fun ℓ hℓ => ?_
    exact Async.wp_seq hi (safe_awaitRounds userID rounds _ _ hi hℓ) fun _ _ _ _ _ => Async.wp_pure fun _ => trivial
  | confirm requestID code =>
    obtain ⟨hmint, hle⟩ := ok_mint (c := ⟨requestID, code, none⟩) hi fun _ h => nomatch h
    exact Async.wp_update fun _ => ⟨hmint, hle, trivial⟩
  | finish link bundle confirmation userID =>
    refine safe_withNewcomer hi fun ℓ _ => ?_
    exact Async.wp_seq hi (safe_finishNewcomerLink hi ℓ bundle confirmation userID)
      fun _ _ _ _ _ => Async.wp_pure fun _ => trivial
  | endNewcomer link => exact safe_withNewcomer hi fun ℓ _ => safe_endLink hi _
  | claim row userID =>
    refine Async.wp_seq hi (safe_claimLink hi row userID) fun t ℓ _ _ hnone => safe_showApprover fun key hkey => ?_
    exact nomatch hnone.symm.trans hkey
  | revealed link row userID =>
    refine safe_withApprover hi fun ℓ hℓ => ?_
    exact Async.wp_seq hi (safe_revealedLink hi hℓ row userID) fun _ _ _ _ hok => safe_showApprover hok
  | confirmTyped link entered => exact safe_withApprover hi fun ℓ _ => safe_confirmTypedCode hi ℓ entered
  | approve link confirmation identity userID =>
    exact safe_withApprover hi fun ℓ hℓ => safe_approveLink hi hℓ confirmation identity userID
  | endApprover link => exact safe_withApprover hi fun ℓ _ => safe_endLink hi _

end Safe

variable (S nfkc) in
/-- In every run of the tabs, whatever the relay answers, the invariant holds in each. -/
theorem run_ok (n : Nat) (steps : List Tabs.Step) : ∀ l ∈ Tabs.run S nfkc n steps, l.state.Ok S nfkc := by
  have hstart : ∀ l ∈ Tabs.start n, l.Safe (Tab.Ok S nfkc) := by
    intro l hl
    obtain rfl := List.eq_of_mem_replicate hl
    exact ⟨ok_empty, fun p hp => absurd hp List.not_mem_nil⟩
  intro l hl
  exact (runAt_safe (fun c s hi => Async.wp_detach hi (safe_flow hi c)) hstart steps l hl).inv

end KyNotes.Web.LinkFlow
