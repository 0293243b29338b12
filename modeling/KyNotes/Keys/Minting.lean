import KyNotes.Keys.Members

/-!
# Who mints a generation

An upload of envelopes asks for a generation that holds one already, a rotation makes the generation it fills, and an
invitation may carry envelopes of any current generation of a keyed container, minted or not (`keyTx_envelopes`,
`keyTx_parked`). `minted_by_rotation`: where invitations carry envelopes only for generations that hold one, the first
envelope of every generation comes from the rotation that made it, together with one for every active, approved
identity.
-/

namespace KyNotes

open Relational Check Transition

variable {cfg : Config} {w : World} {k k' : KeyTables} {op : KeyOp} {id : Nat} {clock : Time}

/-! ## Envelopes after an operation -/

/-- The container holds an envelope of the generation. -/
def HasEnvelope (k : KeyTables) (cid : ContainerId) (g : Nat) : Prop :=
  ∃ e ∈ k.keyEnvelopes, e.containerId = cid ∧ e.keyGeneration = g

instance (k : KeyTables) (cid : ContainerId) (g : Nat) : Decidable (HasEnvelope k cid g) :=
  inferInstanceAs (Decidable (∃ e ∈ k.keyEnvelopes, e.containerId = cid ∧ e.keyGeneration = g))

/-- The ways a key operation adds to the envelopes and to the parked ones. -/
inductive EnvelopeChange (k : KeyTables) (id : Nat) (clock : Time) : KeyOp → KeyTables → Prop
  | fewer {kop k₁} (he : ∀ e ∈ k₁.keyEnvelopes, e ∈ k.keyEnvelopes)
      (hp : ∀ p ∈ k₁.invitationEnvelopes, p ∈ k.invitationEnvelopes) : EnvelopeChange k id clock kop k₁
  | put {u stepUp cid vs k₁} (h : putEnvelopes k u stepUp cid vs = .ok k₁) :
      EnvelopeChange k id clock (.putEnvelopes u stepUp cid vs) k₁
  | rotate {u stepUp cid expected vs k₁ next} (h : rotateKeys k u stepUp cid expected vs = .ok (k₁, next)) :
      EnvelopeChange k id clock (.rotate u stepUp cid expected vs) k₁
  | invite {u stepUp cid invitee role token vs k₁} (h : invite k u stepUp id cid invitee role token vs clock = .ok k₁) :
      EnvelopeChange k id clock (.invite u stepUp cid invitee role token vs) k₁
  | accept {u i token k₁} (h : accept k u i token (format clock) = .ok k₁) :
      EnvelopeChange k id clock (.accept u i token) k₁

/-- There is no other way. -/
theorem keyTx_envelopeChange (h : keyTx op k id clock = .ok k') : EnvelopeChange k id clock op k' := by
  cases op with
  | createUser a s =>
    simp only [keyTx, createUser, bind_ok, fetch_ok, pure_ok] at h
    obtain ⟨t, -, rfl⟩ := h
    exact .fewer (fun _ h => h) fun _ h => h
  | patchUser u s q =>
    simp only [keyTx, patchUser, bind_ok, fetch_ok, pure_ok] at h
    obtain ⟨_, -, rfl⟩ := h
    split
    · exact .fewer (fun _ h => (Table.mem_delete.mp h).1) fun _ h => h
    · exact .fewer (fun _ h => h) fun _ h => h
  | resetPassword u => cases h; exact .fewer (fun _ h => (Table.mem_delete.mp h).1) fun _ h => h
  | endCredentials ids => cases h; exact .fewer (fun _ h => h) fun _ h => h
  | setStatus u s => cases h; exact .fewer (fun _ h => h) fun _ h => h
  | registerDevice u fp =>
    simp only [keyTx, registerDevice, bind_ok, require_ok] at h
    obtain ⟨_, -, h⟩ := h
    split at h
    · simp only [pure_ok] at h
      subst h
      exact .fewer (fun _ h => h) fun _ h => h
    · simp only [bind_ok, require_ok, fetch_ok, pure_ok] at h
      obtain ⟨_, -, t, -, rfl⟩ := h
      exact .fewer (fun _ h => h) fun _ h => h
  | revokeDevice u d =>
    simp only [keyTx, revokeDevice, bind_ok, require_ok, pure_ok] at h
    obtain ⟨_, -, rfl⟩ := h
    exact .fewer (fun _ h => (Table.mem_delete.mp h).1) fun _ h => h
  | createIdentity u stepUp fp =>
    simp only [keyTx, createIdentity, insertIdentity, bind_ok, require_ok, fetch_ok, pure_ok] at h
    obtain ⟨_, -, _, -, t, -, i, -, rfl⟩ := h
    exact .fewer (fun _ h => h) fun _ h => h
  | resetIdentity u a b expected fp =>
    simp only [keyTx, resetIdentity, insertIdentity, bind_ok, require_ok, fetch_ok, pure_ok] at h
    obtain ⟨_, -, _, -, _, -, _, -, _, -, t, -, i, -, rfl⟩ := h
    exact .fewer (fun _ h => (Table.mem_delete.mp (Table.mem_delete.mp h).1).1)
      fun _ h => (Table.mem_delete.mp (Table.mem_delete.mp h).1).1
  | createContainer u kind team =>
    cases team with
    | none =>
      simp only [keyTx, createContainer, createRoot, bind_ok, fetch_ok, pure_ok] at h
      obtain ⟨_, -, t, -, m, -, rfl⟩ := h
      exact .fewer (fun _ h => h) fun _ h => h
    | some t =>
      simp only [keyTx, createContainer, createChild, bind_ok, require_ok, fetch_ok, pure_ok] at h
      obtain ⟨_, -, _, -, _, -, _, -, _, -, t, -, rfl⟩ := h
      exact .fewer (fun _ h => h) fun _ h => h
  | adminCreateTeam owner =>
    simp only [keyTx, adminCreateTeam, createRoot, bind_ok, require_ok, fetch_ok, pure_ok] at h
    obtain ⟨_, -, _, -, t, -, m, -, rfl⟩ := h
    exact .fewer (fun _ h => h) fun _ h => h
  | rename u cid scheme g base =>
    simp only [keyTx, renameContainer, bind_ok, require_ok, fetch_ok, pure_ok] at h
    obtain ⟨_, -, _, -, _, -, _, -, _, -, _, -, rfl⟩ := h
    exact .fewer (fun _ h => h) fun _ h => h
  | rotate u stepUp cid expected vs =>
    obtain ⟨⟨k₁, next⟩, hr, rfl⟩ := map_ok h
    exact .rotate hr
  | putEnvelopes u stepUp cid vs => exact .put h
  | invite u stepUp cid invitee role token vs => exact .invite h
  | accept u i token => exact .accept h
  | approve u cid target =>
    simp only [keyTx, approveMember, bind_ok, require_ok, fetch_ok, pure_ok] at h
    obtain ⟨_, -, _, -, _, -, _, -, rfl⟩ := h
    exact .fewer (fun _ h => h) fun _ h => h
  | removeMember u cid target =>
    obtain ⟨-, rfl⟩ := removeMemberTx_ok (removeMember_ok h)
    exact .fewer (fun _ h => (Table.mem_delete.mp h).1) fun _ h => (Table.mem_delete.mp (Table.mem_delete.mp h).1).1
  | adminRemoveMember cid target =>
    obtain ⟨-, rfl⟩ := removeMemberTx_ok h
    exact .fewer (fun _ h => (Table.mem_delete.mp h).1) fun _ h => (Table.mem_delete.mp (Table.mem_delete.mp h).1).1
  | adminAddMember cid u role =>
    simp only [keyTx, adminAddMember, bind_ok, require_ok] at h
    obtain ⟨_, -, _, -, h⟩ := h
    obtain ⟨m, rfl, -⟩ := admitMemberTx_spec h
    exact .fewer (fun _ h => h) fun _ h => h

/-- An upload asks for a generation that holds an envelope. -/
theorem putEnvelopes_held {u : UserId} {stepUp : Bool} {cid : ContainerId} {vs : List EnvelopeIn}
    (h : putEnvelopes k u stepUp cid vs = .ok k') :
    (∀ e ∈ k'.keyEnvelopes, HasEnvelope k e.containerId e.keyGeneration) ∧
      k'.invitationEnvelopes = k.invitationEnvelopes := by
  simp only [putEnvelopes, bind_ok, require_ok] at h
  obtain ⟨_, -, ⟨role, g⟩, -, h⟩ := h
  refine forEach_inv (P := fun k₁ => (∀ e ∈ k₁.keyEnvelopes, HasEnvelope k e.containerId e.keyGeneration) ∧
    k₁.invitationEnvelopes = k.invitationEnvelopes) ?_ ⟨fun e he => ⟨e, he, rfl, rfl⟩, rfl⟩ h
  rintro k₁ v k₂ ⟨h₁, hp⟩ hv
  simp only [putEnvelopeTx, putGenerationTx, bind_ok, require_ok, fetch_ok, pure_ok] at hv
  obtain ⟨_, ⟨_, -, _, -, _, -, _, ⟨e₀, he₀, hec, heg⟩, rfl⟩, hv⟩ := hv
  have hheld : HasEnvelope k cid v.keyGeneration := by
    rw [← hec, ← heg]
    exact h₁ e₀ he₀
  obtain ⟨t, rfl, ht⟩ := insertEnvelopeTx_spec hv
  refine ⟨fun e he => ?_, hp⟩
  rcases ht e he with ⟨e₁, he₁, hk⟩ | ⟨hc, hg, -⟩
  · simp only [KeyEnvelope.key, Prod.mk.injEq] at hk
    rw [← hk.1, ← hk.2.2]
    exact h₁ e₁ he₁
  · rw [hc, hg]
    exact hheld

/-- A rotation adds envelopes of the generation it makes. -/
theorem rotateKeys_held {u : UserId} {stepUp : Bool} {cid : ContainerId} {expected : Nat} {vs : List EnvelopeIn}
    {next : Nat} (h : rotateKeys k u stepUp cid expected vs = .ok (k', next)) :
    (∀ e ∈ k'.keyEnvelopes, HasEnvelope k e.containerId e.keyGeneration ∨ (e.containerId = cid ∧ e.keyGeneration = next)) ∧
      ∀ p ∈ k'.invitationEnvelopes, p ∈ k.invitationEnvelopes := by
  obtain ⟨role, c, k₁, -, -, -, hl, -, he, -, -, hp⟩ := rotateKeys_ok h
  have hloop := forEach_inv (P := fun k₁ => (∀ e ∈ k₁.keyEnvelopes, HasEnvelope k e.containerId e.keyGeneration ∨
    (e.containerId = cid ∧ e.keyGeneration = next)) ∧ k₁.invitationEnvelopes = k.invitationEnvelopes) ?_
    ⟨fun e he => Or.inl ⟨e, he, rfl, rfl⟩, rfl⟩ hl
  · rw [he, hp]
    refine ⟨hloop.1, fun p hp => ?_⟩
    rw [← hloop.2]
    exact (Table.mem_delete.mp hp).1
  · rintro k₂ v k₃ ⟨h₂, hp₂⟩ hv
    obtain ⟨t, rfl, ht⟩ := insertEnvelopeTx_spec (rotationEnvelopeTx_ok hv)
    refine ⟨fun e he => ?_, hp₂⟩
    rcases ht e he with ⟨e₁, he₁, hk⟩ | ⟨hc, hg, -⟩
    · simp only [KeyEnvelope.key, Prod.mk.injEq] at hk
      rw [← hk.1, ← hk.2.2]
      exact h₂ e₁ he₁
    · exact Or.inr ⟨hc, hg⟩

/-- What a parked envelope asks for: the current generation of a keyed container. -/
def InvitationEnvelopeIn.Current (k : KeyTables) (v : InvitationEnvelopeIn) : Prop :=
  ∃ c ∈ k.containers, c.id = v.containerId ∧ c.sharedGeneration ≠ 0 ∧ v.envelope.keyGeneration = c.keyGeneration

/-- An invitation parks its envelopes. -/
theorem invite_parked {u : UserId} {stepUp : Bool} {cid : ContainerId} {invitee : UserId} {role : Role} {token : Nat}
    {vs : List InvitationEnvelopeIn} (h : invite k u stepUp id cid invitee role token vs clock = .ok k') :
    ∀ p ∈ k'.invitationEnvelopes, p ∈ k.invitationEnvelopes ∨ ∃ v ∈ vs, v.Current k ∧ v.containerId = p.containerId ∧
      v.envelope.keyGeneration = p.keyGeneration := by
  simp only [invite, bind_ok, require_ok, fetch_ok] at h
  obtain ⟨_, -, _, -, _, -, _, -, t, -, h⟩ := h
  have hloop := forEach_inv_mem (P := fun k₁ => k₁.containers = k.containers ∧ ∀ p ∈ k₁.invitationEnvelopes,
    p ∈ k.invitationEnvelopes ∨ ∃ v ∈ vs, v.Current k ∧ v.containerId = p.containerId ∧
      v.envelope.keyGeneration = p.keyGeneration) ?_ ⟨rfl, fun p hp => Or.inl hp⟩ h
  · exact hloop.2
  · rintro k₁ v hv k₂ ⟨hc₁, h₁⟩ hx
    simp only [insertInvitationEnvelopeTx, bind_ok, require_ok, fetch_ok, pure_ok] at hx
    obtain ⟨_, -, _, -, c, hc, _, -, _, hs, _, hg, _, -, t, ht, rfl⟩ := hx
    obtain ⟨hc, -⟩ := Option.filter_eq_some_iff.mp hc
    obtain ⟨hc, -⟩ := liveContainer_some hc
    rw [hc₁] at hc
    refine ⟨hc₁, fun p hp => ?_⟩
    rcases (Table.mem_insert ht).mp hp with hp | rfl
    · exact h₁ p hp
    · exact Or.inr ⟨v, hv, ⟨c, Table.get_mem hc, Table.get_key hc, hs, hg⟩, rfl, rfl⟩

/-- An acceptance installs what was parked. -/
theorem accept_held {u : UserId} {i : InvitationId} {token : Nat} {now : Stamp} (h : accept k u i token now = .ok k') :
    (∀ e ∈ k'.keyEnvelopes, e ∈ k.keyEnvelopes ∨
      ∃ p ∈ k.invitationEnvelopes, p.containerId = e.containerId ∧ p.keyGeneration = e.keyGeneration) ∧
      ∀ p ∈ k'.invitationEnvelopes, p ∈ k.invitationEnvelopes := by
  obtain ⟨x, -, -, t, k₂, hk₂, rfl⟩ := accept_ok h
  obtain ⟨m, rfl, -⟩ := admitMemberTx_spec hk₂
  refine ⟨fun e he => ?_, fun p hp => (Table.mem_delete.mp hp).1⟩
  rcases Table.mem_of_mem_insertAll he with he | he
  · exact Or.inl he
  · obtain ⟨p, hp, rfl⟩ := List.mem_map.mp he
    exact Or.inr ⟨p, (List.mem_filter.mp hp).1, rfl, rfl⟩

/-- An envelope after an operation is of a generation that held one, or of the one this rotation made, or was parked. -/
theorem keyTx_envelopes (h : keyTx op k id clock = .ok k') {e : KeyEnvelope} (he : e ∈ k'.keyEnvelopes) :
    HasEnvelope k e.containerId e.keyGeneration ∨
    (∃ u stepUp expected vs, op = .rotate u stepUp e.containerId expected vs ∧ e.keyGeneration = expected + 1) ∨
    ∃ p ∈ k.invitationEnvelopes, p.containerId = e.containerId ∧ p.keyGeneration = e.keyGeneration := by
  cases keyTx_envelopeChange h with
  | fewer hfew _ => exact Or.inl ⟨e, hfew e he, rfl, rfl⟩
  | put h => exact Or.inl ((putEnvelopes_held h).1 e he)
  | @rotate u stepUp cid expected vs _ next h =>
    rcases (rotateKeys_held h).1 e he with hh | ⟨rfl, hg⟩
    · exact Or.inl hh
    · obtain ⟨-, -, -, -, -, hn, -⟩ := rotateKeys_ok h
      exact Or.inr (Or.inl ⟨u, stepUp, expected, vs, rfl, hg.trans hn⟩)
  | invite h => exact Or.inl ⟨e, by rw [← (invite_same h).2]; exact he, rfl, rfl⟩
  | accept h =>
    rcases (accept_held h).1 e he with he | hp
    · exact Or.inl ⟨e, he, rfl, rfl⟩
    · exact Or.inr (Or.inr hp)

/-- A parked envelope was parked, or comes with this invitation. -/
theorem keyTx_parked (h : keyTx op k id clock = .ok k') {p : InvitationEnvelope} (hp : p ∈ k'.invitationEnvelopes) :
    p ∈ k.invitationEnvelopes ∨ ∃ u stepUp cid invitee role token vs, op = .invite u stepUp cid invitee role token vs ∧
      ∃ v ∈ vs, v.Current k ∧ v.containerId = p.containerId ∧ v.envelope.keyGeneration = p.keyGeneration := by
  cases keyTx_envelopeChange h with
  | fewer _ hfew => exact Or.inl (hfew p hp)
  | put h => exact Or.inl (by rw [← (putEnvelopes_held h).2]; exact hp)
  | rotate h => exact Or.inl ((rotateKeys_held h).2 p hp)
  | invite h => exact (invite_parked h p hp).imp_right fun hv => ⟨_, _, _, _, _, _, _, rfl, hv⟩
  | accept h => exact Or.inl ((accept_held h).2 p hp)

/-! ## Runs -/

/-- The invitation of the operation carries envelopes only for generations that hold one. -/
def InvitesHeld (w : World) : Op → Prop
  | .key (.invite _ _ _ _ _ _ vs) =>
    ∀ v ∈ vs, v.Current w.keys → HasEnvelope w.keys v.containerId v.envelope.keyGeneration
  | _ => True

/-- An envelope after any operation. -/
theorem step_envelopes {op : Op} {e : KeyEnvelope} (he : e ∈ (w.next cfg op).keys.keyEnvelopes) :
    HasEnvelope w.keys e.containerId e.keyGeneration ∨
    (∃ u stepUp expected vs, op = .key (.rotate u stepUp e.containerId expected vs) ∧ e.keyGeneration = expected + 1) ∨
    ∃ p ∈ w.keys.invitationEnvelopes, p.containerId = e.containerId ∧ p.keyGeneration = e.keyGeneration := by
  have hc := step_keys cfg w op
  generalize (w.next cfg op).keys = k' at hc he
  cases hc with
  | same | delete | purge => exact Or.inl ⟨e, he, rfl, rfl⟩
  | tx h =>
    rcases keyTx_envelopes h he with hh | ⟨u, stepUp, expected, vs, rfl, hg⟩ | hp
    · exact Or.inl hh
    · exact Or.inr (Or.inl ⟨u, stepUp, expected, vs, rfl, hg⟩)
    · exact Or.inr (Or.inr hp)

/-- What is parked is of a generation that has held an envelope. -/
theorem parked_minted (cfg : Config) (ops : List Op) (h : Along (World.next cfg) InvitesHeld .init ops)
    {p : InvitationEnvelope} (hp : p ∈ (World.reach cfg ops).keys.invitationEnvelopes) :
    Seen (World.next cfg) (fun w => HasEnvelope w.keys p.containerId p.keyGeneration) .init ops := by
  induction ops using List.reverseRecOn with
  | nil => exact absurd hp (Table.not_mem_empty _)
  | append_singleton ops op ih =>
    obtain ⟨hal, hop, -⟩ := along_append.mp h
    have hold : p ∈ (World.reach cfg ops).keys.invitationEnvelopes →
        Seen (World.next cfg) (fun w => HasEnvelope w.keys p.containerId p.keyGeneration) .init (ops ++ [op]) :=
      fun hp => seen_concat.mpr (Or.inl (ih hal hp))
    have hpast : HasEnvelope (World.reach cfg ops).keys p.containerId p.keyGeneration →
        Seen (World.next cfg) (fun w => HasEnvelope w.keys p.containerId p.keyGeneration) .init (ops ++ [op]) :=
      fun hh => seen_concat.mpr (Or.inl (seen_now hh))
    have hnext : World.reach cfg (ops ++ [op]) = (World.reach cfg ops).next cfg op := by
      simp only [World.reach, World.run, run_concat]
    rw [hnext] at hp
    have hc := step_keys cfg (World.reach cfg ops) op
    generalize ((World.reach cfg ops).next cfg op).keys = k' at hc hp
    cases hc with
    | same | delete => exact hold hp
    | purge => exact hold (Table.mem_delete.mp hp).1
    | tx hx =>
      rcases keyTx_parked hx hp with hp | ⟨u, stepUp, cid, invitee, role, token, vs, rfl, v, hv, hcur, hvc, hvg⟩
      · exact hold hp
      · have hheld := hop v hv hcur
        rw [hvc, hvg] at hheld
        exact hpast hheld

/-- **Generations are minted only by rotation.** In every run whose invitations carry envelopes only for generations that
hold one, the operation that brings the first envelope which a container ever has of a generation is a rotation. It takes
the container from the generation before to this one, and leaves every active, approved identity with an envelope of
it. -/
theorem minted_by_rotation (cfg : Config) (ops : List Op) (h : Along (World.next cfg) InvitesHeld .init ops)
    (bs : List Op) (op : Op) (hb : bs ++ [op] <+: ops) (cid : ContainerId) (g : Nat)
    (hfirst : ¬Seen (World.next cfg) (fun w => HasEnvelope w.keys cid g) .init bs)
    (hnow : HasEnvelope ((World.reach cfg bs).next cfg op).keys cid g) :
    ∃ u stepUp expected vs, op = .key (.rotate u stepUp cid expected vs) ∧ g = expected + 1 ∧
      (∃ c ∈ (World.reach cfg bs).keys.containers, c.id = cid ∧ c.keyGeneration = expected) ∧
      (∃ c ∈ ((World.reach cfg bs).next cfg op).keys.containers, c.id = cid ∧ c.keyGeneration = g) ∧
      ∀ d ∈ (World.reach cfg bs).keys.devices, d.identity = true → d.revokedAt = none →
        ApprovedIn (World.reach cfg bs).keys d.userId cid → ActiveUser (World.reach cfg bs).keys d.userId →
        ∃ e ∈ ((World.reach cfg bs).next cfg op).keys.keyEnvelopes, e.containerId = cid ∧ e.deviceId = d.id ∧
          e.keyGeneration = g := by
  obtain ⟨cs, rfl⟩ := hb
  rw [List.append_assoc] at h
  have hbs := (along_append.mp h).1
  obtain ⟨e, he, rfl, rfl⟩ := hnow
  rcases step_envelopes he with hh | ⟨u, stepUp, expected, vs, rfl, hg⟩ | ⟨p, hp, hpc, hpg⟩
  · exact absurd (seen_now hh) hfirst
  · refine ⟨u, stepUp, expected, vs, rfl, hg, ?_⟩
    have hc := step_keys cfg (World.reach cfg bs) (.key (.rotate u stepUp e.containerId expected vs))
    generalize ((World.reach cfg bs).next cfg (.key (.rotate u stepUp e.containerId expected vs))).keys = k' at hc he
    cases hc with
    | same | purge => exact absurd (seen_now ⟨e, he, rfl, rfl⟩) hfirst
    | tx hx =>
      obtain ⟨⟨k₁, next⟩, hr, rfl⟩ := map_ok hx
      obtain ⟨role, c, k₂, hget, hgen, rfl, -, h₂, -, h₁, hcov, -⟩ := rotateKeys_ok hr
      have hsame := h₂.trans h₁
      have hcid : c.id = e.containerId := Table.get_key hget
      refine ⟨⟨c, Table.get_mem hget, hcid, hgen⟩, ?_, ?_⟩
      · rw [hsame.containers]
        refine ⟨_, Table.mem_update_of (Table.get_mem hget) hcid, hcid, ?_⟩
        simp only [hgen, hg]
      · -- nobody is left uncovered
        intro d hd hid hlive hap hact
        refine by_contra fun hno => hcov ⟨d, ?_, hid, hlive, ?_, ?_, ?_⟩
        · rw [hsame.devices]
          exact hd
        · unfold ApprovedIn
          rw [hsame.memberships]
          exact hap
        · unfold ActiveUser
          rw [hsame.users]
          exact hact
        · rintro ⟨e', he', hc', hd', hg'⟩
          exact hno ⟨e', he', hc', hd', hg'.trans hg.symm⟩
  · have hseen := parked_minted cfg bs hbs hp
    rw [hpc, hpg] at hseen
    exact absurd hseen hfirst

/-- The first rotation of a notebook. -/
theorem minted_by_rotation_first : ∃ u stepUp expected vs,
    (.key (.rotate 0 true 2 1 [⟨1, 2, .hpkeAuth, some [0]⟩]) : Op) = .key (.rotate u stepUp 2 expected vs) ∧
      2 = expected + 1 := by
  obtain ⟨u, stepUp, expected, vs, hop, hg, -⟩ := minted_by_rotation sampleConfig sampleSetup
    (by simp [sampleSetup, Along, InvitesHeld]) (sampleSetup.take 3)
    (.key (.rotate 0 true 2 1 [⟨1, 2, .hpkeAuth, some [0]⟩])) ⟨sampleSetup.drop 4, rfl⟩ 2 2 (by decide +kernel)
    (by decide +kernel)
  exact ⟨u, stepUp, expected, vs, hop, hg⟩

/-- User 5 joins notebook 2 and is removed, which moves the notebook to generation 3; user 0 then invites user 6 with an
envelope of generation 3. -/
def inviteUnminted : List Op :=
  sampleSetup ++ [.key (.createUser .user .active), .key (.createUser .user .active), .key (.createIdentity 6 true 8),
    .key (.invite 0 true 2 5 .editor 9 []), .key (.accept 5 8 9), .key (.removeMember 0 2 5),
    .key (.invite 0 true 2 6 .editor 9 [⟨2, 7, 3, .hpkeAuth, some [1]⟩])]

/-- The acceptance installs the first envelope of generation 3. -/
theorem inviteUnminted_accepted :
    ¬Seen (World.next sampleConfig) (fun w => HasEnvelope w.keys 2 3) .init inviteUnminted ∧
      HasEnvelope ((World.reach sampleConfig inviteUnminted).next sampleConfig (.key (.accept 6 11 9))).keys 2 3 ∧
      ∀ u stepUp expected vs, (.key (.accept 6 11 9) : Op) ≠ .key (.rotate u stepUp 2 expected vs) :=
  ⟨by decide +kernel, by decide +kernel, fun _ _ _ _ h => by cases h⟩

end KyNotes
