import KyNotes.Lib.Run
import KyNotes.Web.Vault

/-!
# Keyring trust

* `FromSelf`, `FromSteward`, `FromPinned`: an envelope of the input that opened to a key under the identity key of the
  caller, of a current steward who has the pinned key or no pin yet, of somebody pinned before the call.
* `OpeningInv`: every key in the ring is held or comes from one of them, the digest of every key in the ring is the one
  remembered, no remembered digest is replaced, and the mark has been raised by the first two only. `accept` keeps it and
  so does every row of both passes.
* `keyring_trust`, and over calls that persist their memory: one key for each generation.
-/

namespace KyNotes.Web

open Relational Transition

variable {S : Suite} {input : OpenKeyringInput} {out : OpenedKeyring} {g : Num} {key : KeyRef} {me : Me}

/-- The row is an envelope for this identity that opens to the key as one of the sender's. -/
def OpenedFrom (S : Suite) (input : OpenKeyringInput) (me : Me) (row : Envelope) (key : KeyRef) (sender : Bytes) : Prop :=
  row ∈ input.envelopes ∧ row.deviceId = me.deviceId ∧ ∃ envelope, fromBase64 row.envelope = some envelope ∧
    openEnvelope S input.containerID me row.alg envelope row.keyGeneration sender = some key

/-- Sealed by the caller's own identity. -/
def FromSelf (S : Suite) (input : OpenKeyringInput) (g : Num) (key : KeyRef) : Prop :=
  ∃ me row, input.me = some me ∧ OpenedFrom S input me row key me.publicKey ∧ row.keyGeneration = g

/-- Sealed by a current steward, another user, whose key is the pinned one or who is not pinned. -/
def FromSteward (S : Suite) (input : OpenKeyringInput) (g : Num) (key : KeyRef) : Prop :=
  ∃ me row, ∃ member ∈ input.members, ∃ identity sender, input.me = some me ∧ OpenedFrom S input me row key sender ∧
    row.keyGeneration = g ∧ member.userId ≠ me.userId ∧ isSteward member.role = true ∧ member.identity = some identity ∧
    publicKeyBytes identity.publicKey = some sender ∧
    ∀ pinned, input.pins.lookup member.userId = some pinned → sameKey pinned identity.publicKey = true

/-- Sealed by an identity that was pinned before the call. -/
def FromPinned (S : Suite) (input : OpenKeyringInput) (g : Num) (key : KeyRef) : Prop :=
  ∃ me row sender, ∃ pin ∈ input.pins, publicKeyBytes pin.2 = some sender ∧ input.me = some me ∧
    OpenedFrom S input me row key sender ∧ row.keyGeneration = g

/-- Held by the caller, with the remembered digest if there is one. -/
def IsHeld (S : Suite) (input : OpenKeyringInput) (g : Num) (key : KeyRef) : Prop :=
  input.held.lookup g = some key ∧
    ∀ d, input.known.digests.lookup g = some d → d = S.sha256 key.bytes

/-- Why a key is in the ring, when the mark is `mark`. -/
def Trusted (S : Suite) (input : OpenKeyringInput) (mark : Num) (g : Num) (key : KeyRef) : Prop :=
  IsHeld S input g key ∨ FromSelf S input g key ∨ FromSteward S input g key ∨ g < mark ∧ FromPinned S input g key

theorem Trusted.mono {mark mark' : Num} (h : Trusted S input mark g key) (hm : mark ≤ mark') :
    Trusted S input mark' g key := by
  rcases h with h | h | h | ⟨hg, h⟩
  · exact Or.inl h
  · exact Or.inr (Or.inl h)
  · exact Or.inr (Or.inr (Or.inl h))
  · exact Or.inr (Or.inr (Or.inr ⟨hg.trans_le hm, h⟩))

/-- The mark is the one the device had, or the generation of a key from this identity or a steward. -/
def MarkedBy (S : Suite) (input : OpenKeyringInput) (mark : Num) : Prop :=
  mark = max 0 input.known.mark ∨ ∃ key, FromSelf S input mark key ∨ FromSteward S input mark key

/-- What holds of a keyring while it is being opened. -/
structure OpeningInv (S : Suite) (input : OpenKeyringInput) (out : OpenedKeyring) : Prop where
  trusted : ∀ g key, out.ring.lookup g = some key → Trusted S input out.known.mark g key
  digest : ∀ g key, out.ring.lookup g = some key → out.known.digests.lookup g = some (S.sha256 key.bytes)
  stored : ∀ g d, input.known.digests.lookup g = some d → out.known.digests.lookup g = some d
  mark : MarkedBy S input out.known.mark
  pins : ∀ u p, input.pins.lookup u = some p → out.pins.lookup u = some p

/-! ## Accepting a key -/

theorem accept_mark (out : OpenedKeyring) (g : Num) (key : KeyRef) :
    (accept S out g key).1.known.mark = out.known.mark := by
  unfold accept
  split <;> rfl

theorem accept_pins (out : OpenedKeyring) (g : Num) (key : KeyRef) : (accept S out g key).1.pins = out.pins := by
  unfold accept
  split <;> rfl

/-- A remembered digest is never replaced. -/
theorem remember_stored {g' : Num} {d : Digest} (h : out.known.digests.lookup g' = some d) :
    (remember S out g key).known.digests.lookup g' = some d := by
  simp only [remember]
  split
  · exact h
  · rename_i hn
    refine (Record.lookup_set_ne ?_).trans h
    rintro rfl
    rw [h] at hn
    exact hn rfl

theorem accept_stored {g' : Num} {d : Digest} (h : out.known.digests.lookup g' = some d) :
    (accept S out g key).1.known.digests.lookup g' = some d := by
  unfold accept
  split
  · exact remember_stored h
  · exact h

/-- Where the ring has no key of the generation, a matching key leaves its digest. -/
theorem remember_digest (hp : out.ring.lookup g = none) (hok : matchesKnown S out g (S.sha256 key.bytes) = true) :
    (remember S out g key).known.digests.lookup g = some (S.sha256 key.bytes) := by
  simp only [matchesKnown, hp, decide_eq_true_eq] at hok
  simp only [remember]
  cases hd : out.known.digests.lookup g with
  | none => exact Record.lookup_set_self
  | some d =>
    rw [hd] at hok
    exact hd.trans (congrArg some hok)

/-- A key in the ring after `accept` was there, or is the new one, whose digest is remembered. -/
theorem accept_ring {g' : Num} {key' : KeyRef} (h : (accept S out g key).1.ring.lookup g' = some key') :
    out.ring.lookup g' = some key' ∨ g' = g ∧ key' = key ∧
      (accept S out g key).1.known.digests.lookup g = some (S.sha256 key.bytes) := by
  unfold accept at h ⊢
  split at h
  · rename_i hok
    rw [if_pos hok]
    by_cases hg : g' = g
    · subst hg
      simp only [remember, Record.lookup_set_self, Option.some_inj] at h
      cases hp : out.ring.lookup g' with
      | some prior =>
        rw [hp] at h
        exact Or.inl (congrArg some h)
      | none =>
        rw [hp] at h
        exact Or.inr ⟨rfl, h.symm, remember_digest hp hok⟩
    · simp only [remember, Record.lookup_set_ne hg] at h
      exact Or.inl h
  · exact Or.inl h

/-- Accepting a key with a good source keeps the invariant. -/
theorem OpeningInv.accept (hi : OpeningInv S input out)
    (hk : (∀ d, input.known.digests.lookup g = some d → d = S.sha256 key.bytes) → Trusted S input out.known.mark g key) :
    OpeningInv S input (accept S out g key).1 := by
  constructor
  · intro g' key' h
    rw [accept_mark]
    rcases accept_ring h with h | ⟨rfl, rfl, hd⟩
    · exact hi.trusted g' key' h
    · refine hk fun d hd' => ?_
      have hs : (Web.accept S out g' key').1.known.digests.lookup g' = some d := accept_stored (hi.stored g' d hd')
      rw [hd] at hs
      cases hs
      rfl
  · intro g' key' h
    rcases accept_ring h with h | ⟨rfl, rfl, hd⟩
    · exact accept_stored (hi.digest g' key' h)
    · exact hd
  · exact fun g' d h => accept_stored (hi.stored g' d h)
  · rw [accept_mark]
    exact hi.mark
  · rw [accept_pins]
    exact hi.pins

/-- Adopting a key of this identity or of a steward keeps the invariant. -/
theorem OpeningInv.adopt (hi : OpeningInv S input out) (hk : FromSelf S input g key ∨ FromSteward S input g key)
    {first : Option (MemberKey × PublicIdentity)}
    (hf : ∀ m i, first = some (m, i) → out.pins.lookup m.userId = none) :
    OpeningInv S input (adopt S out g key first) := by
  have ha : OpeningInv S input (Web.accept S out g key).1 := by
    refine hi.accept fun _ => ?_
    rcases hk with hk | hk
    · exact Or.inr (Or.inl hk)
    · exact Or.inr (Or.inr (Or.inl hk))
  have hpins := accept_pins (S := S) out g key
  unfold Web.adopt
  generalize Web.accept S out g key = r at ha hpins
  obtain ⟨out', accepted⟩ := r
  simp only at ha hpins ⊢
  cases accepted with
  | false => exact ha
  | true =>
    have hmark : MarkedBy S input (max out'.known.mark g) := by
      rcases le_total out'.known.mark g with hle | hle
      · rw [max_eq_right hle]
        exact Or.inr ⟨key, hk⟩
      · rw [max_eq_left hle]
        exact ha.mark
    have htrusted : ∀ g' key', out'.ring.lookup g' = some key' → Trusted S input (max out'.known.mark g) g' key' :=
      fun g' key' h => (ha.trusted g' key' h).mono (le_max_left _ _)
    simp only [if_true]
    split
    · exact ⟨htrusted, ha.digest, ha.stored, hmark, ha.pins⟩
    · rename_i m i
      refine ⟨htrusted, ha.digest, ha.stored, hmark, fun u p hp => ?_⟩
      refine (Record.lookup_set_ne ?_).trans (ha.pins u p hp)
      rintro rfl
      have := hf m i rfl
      rw [← hpins, ha.pins _ _ hp] at this
      cases this

/-! ## Rows -/

/-- A steward's identity is that of a listed member, with the pinned key or none pinned. -/
theorem senderOf_steward {members : List MemberKey} {pins : Pins} {sender : JsString} {m : MemberKey}
    {i : PublicIdentity} {first : Bool} (h : senderOf me members pins sender = .steward m i first) :
    m ∈ members ∧ m.identity = some i ∧ m.userId ≠ me.userId ∧ isSteward m.role = true ∧
      (first = true → pins.lookup m.userId = none) ∧
      (∀ pinned, pins.lookup m.userId = some pinned → sameKey pinned i.publicKey = true) := by
  unfold senderOf at h
  split at h
  · cases h
  · split at h
    · cases h
    · rename_i member hf
      split at h
      · cases h
      · rename_i hu
        split at h
        · rename_i hr
          split at h
          · cases h
          · rename_i hi hp
            cases h
            refine ⟨List.mem_of_find?_eq_some hf, hi, hu, hr, fun _ => hp, fun pinned hp' => ?_⟩
            rw [hp] at hp'
            cases hp'
          · rename_i hi hp
            split at h
            · rename_i hs
              cases h
              refine ⟨List.mem_of_find?_eq_some hf, hi, hu, hr, Bool.noConfusion, fun pinned hp' => ?_⟩
              rw [hp] at hp'
              cases hp'
              exact hs
            · cases h
        · cases h

/-- What waits for the second pass are envelopes of the input for this identity. -/
def DeferredFrom (input : OpenKeyringInput) (me : Me) (ds : List Deferred) : Prop :=
  ∀ d ∈ ds, ∃ row ∈ input.envelopes, row.deviceId = me.deviceId ∧ fromBase64 row.envelope = some d.envelope ∧
    row.alg = d.alg ∧ row.keyGeneration = d.generation

theorem openRow_inv {ds : List Deferred} {row : Envelope} (hme : input.me = some me) (hrow : row ∈ input.envelopes)
    (h : OpeningInv S input out ∧ DeferredFrom input me ds) :
    OpeningInv S input (openRow S input me (out, ds) row).1 ∧
      DeferredFrom input me (openRow S input me (out, ds) row).2 := by
  obtain ⟨hi, hd⟩ := h
  unfold openRow
  simp only
  split
  · exact ⟨hi, hd⟩
  · rename_i hfor
    rw [not_or, not_not] at hfor
    split
    · exact ⟨hi, hd⟩
    · rename_i envelope henv
      have later : DeferredFrom input me (ds ++ [⟨row.alg, envelope, row.keyGeneration⟩]) := by
        intro d hm
        rcases List.mem_append.mp hm with hm | hm
        · exact hd d hm
        · obtain rfl := List.mem_singleton.mp hm
          exact ⟨row, hrow, hfor.1, henv, rfl, rfl⟩
      split
      · exact ⟨hi, hd⟩
      · exact ⟨hi, hd⟩
      · exact ⟨hi, later⟩
      · exact ⟨⟨hi.trusted, hi.digest, hi.stored, hi.mark, hi.pins⟩, later⟩
      · -- sealed by this identity
        split
        · exact ⟨hi, later⟩
        · rename_i key hkey
          have hnone : ∀ m i, (none : Option (MemberKey × PublicIdentity)) = some (m, i) →
              out.pins.lookup m.userId = none := fun _ _ h => by cases h
          exact ⟨hi.adopt (Or.inl ⟨me, row, hme, ⟨hrow, hfor.1, envelope, henv, hkey⟩, rfl⟩) hnone, hd⟩
      · -- sealed by a steward
        rename_i m i first hs
        obtain ⟨sender, -, hs⟩ := Option.map_eq_some_iff.mp hs
        obtain ⟨hm, hid, hu, hr, hfirst, hpin⟩ := senderOf_steward hs
        split
        · exact ⟨hi, hd⟩
        · rename_i senderKey hsk
          split
          · exact ⟨hi, later⟩
          · rename_i key hkey
            refine ⟨?_, hd⟩
            refine hi.adopt (Or.inr ?_) ?_
            · exact ⟨me, row, m, hm, i, senderKey, hme, ⟨hrow, hfor.1, envelope, henv, hkey⟩, rfl, hu, hr, hid, hsk,
                fun pinned hp => hpin pinned (hi.pins _ _ hp)⟩
            · intro m' i' heq
              split at heq
              · rename_i hf
                cases heq
                exact hfirst hf
              · cases heq

theorem openRows_inv (hme : input.me = some me) (hi : OpeningInv S input out) :
    OpeningInv S input (input.envelopes.foldl (openRow S input me) (out, [])).1 ∧
      DeferredFrom input me (input.envelopes.foldl (openRow S input me) (out, [])).2 :=
  List.foldlRecOn (motive := fun st => OpeningInv S input st.1 ∧ DeferredFrom input me st.2) input.envelopes
    (openRow S input me) ⟨hi, fun _ hm => absurd hm List.not_mem_nil⟩ fun _ h _ hrow => openRow_inv hme hrow h

theorem openDeferred_inv {d : Deferred} {ds : List Deferred} (hme : input.me = some me) (hd : DeferredFrom input me ds)
    (hm : d ∈ ds) (hi : OpeningInv S input out) : OpeningInv S input (openDeferred S input me out d) := by
  unfold openDeferred
  split
  · exact hi
  · rename_i hlow
    simp only
    split
    · exact hi
    · rename_i key hkey
      obtain ⟨sender, hsender, hopen⟩ := List.exists_of_findSome?_eq_some hkey
      obtain ⟨pin, hpin, hpk⟩ := List.mem_filterMap.mp hsender
      obtain ⟨row, hrow, hdev, henv, halg, hgen⟩ := hd d hm
      refine hi.accept fun _ => Or.inr (Or.inr (Or.inr ⟨not_le.mp hlow, me, row, sender, pin, hpin, hpk, hme, ?_, hgen⟩))
      exact ⟨hrow, hdev, d.envelope, henv, by rw [halg, hgen]; exact hopen⟩

/-! ## The whole keyring -/

/-- The memory of the input, with its mark from 0 up. -/
theorem opening_start : OpeningInv S input
    ⟨Table.empty, input.pins, [], [], [], { input.known with mark := max 0 input.known.mark }⟩ where
  trusted := fun _ _ h => by cases h
  digest := fun _ _ h => by cases h
  stored := fun _ _ h => h
  mark := Or.inl rfl
  pins := fun _ _ h => h

theorem openKeyring_inv (S : Suite) (input : OpenKeyringInput) : OpeningInv S input (openKeyring S input) := by
  unfold openKeyring
  simp only
  have hheld : OpeningInv S input (input.held.rows.foldl (fun out entry => (accept S out entry.1 entry.2).1)
      ⟨Table.empty, input.pins, [], [], [], { input.known with mark := max 0 input.known.mark }⟩) := by
    refine List.foldlRecOn _ _ opening_start fun out hi entry hm => hi.accept fun hd => Or.inl ⟨?_, hd⟩
    exact Record.lookup_eq_some.mpr hm
  split
  · exact hheld
  · rename_i me hme
    have hrows := openRows_inv hme hheld
    exact List.foldlRecOn _ _ hrows.1 fun out hi d hm => openDeferred_inv hme hrows.2 hm hi

/-! ## Calls one after the other -/

variable {username userID : JsString}

/-- A call with the key memory of the device. -/
def callWith (v : Vault) (username userID : JsString) (input : OpenKeyringInput) : OpenKeyringInput :=
  { input with known := getKeyState v username userID input.containerID }

/-- A call that persists its key memory. -/
def persist (S : Suite) (username userID : JsString) (v : Vault) (input : OpenKeyringInput) : Vault :=
  (storeKeyState v username userID input.containerID (openKeyring S (callWith v username userID input)).known).1

/-- No two keys have one SHA-256. -/
def CollisionFree (S : Suite) : Prop := ∀ k k' : KeyRef, S.sha256 k.bytes = S.sha256 k'.bytes → k = k'

/-- The device remembers the digest. -/
def Remembers (v : Vault) (username userID containerID : JsString) (g : Num) (d : Digest) : Prop :=
  (getKeyState v username userID containerID).digests.lookup g = some d

/-- After a call, the device remembers the keys of its ring. -/
theorem persist_remembers {v : Vault} (hr : (v.get username).isSome)
    (h : (openKeyring S (callWith v username userID input)).ring.lookup g = some key) :
    Remembers (persist S username userID v input) username userID input.containerID g (S.sha256 key.bytes) := by
  have hi := openKeyring_inv S (callWith v username userID input)
  unfold Remembers persist
  rw [getKeyState_store (Prod.ext rfl (storeKeyState_kept hr _).1), merge_digest]
  cases hd : (getKeyState v username userID input.containerID).digests.lookup g with
  | none => exact hi.digest g key h
  | some d =>
    have hs := hi.stored g d hd
    rw [hi.digest g key h] at hs
    exact hs.symm

/-- A call opens the remembered keys only. -/
theorem Remembers.opened {v : Vault} {d : Digest} (hd : Remembers v username userID input.containerID g d)
    (h : (openKeyring S (callWith v username userID input)).ring.lookup g = some key) : S.sha256 key.bytes = d := by
  have hi := openKeyring_inv S (callWith v username userID input)
  have hs := hi.stored g d hd
  rw [hi.digest g key h] at hs
  exact Option.some_inj.mp hs

/-- **Keyring trust.** Every key of an opened ring is held by the caller with the remembered digest, or was opened as one
of the caller's own identity, of a current steward with the pinned key or none pinned, or, below the mark, of somebody
pinned before; its digest is the one remembered afterwards, no remembered digest is replaced, and keys of this identity
and of stewards alone raise the mark. Over calls that persist their memory, a generation has one key. -/
theorem keyring_trust (S : Suite) :
    (∀ input, let out := openKeyring S input
      (∀ g key, out.ring.lookup g = some key →
        IsHeld S input g key ∨ FromSelf S input g key ∨ FromSteward S input g key ∨
          g < out.known.mark ∧ FromPinned S input g key) ∧
      (∀ g key, out.ring.lookup g = some key → out.known.digests.lookup g = some (S.sha256 key.bytes)) ∧
      (∀ g d, input.known.digests.lookup g = some d → out.known.digests.lookup g = some d) ∧
      MarkedBy S input out.known.mark) ∧
    ∀ (username userID : JsString) (v : Vault), (v.get username).isSome →
      ∀ (before between : List OpenKeyringInput) (a b : OpenKeyringInput), a.containerID = b.containerID →
      ∀ g k k', (openKeyring S (callWith (run (persist S username userID) v before) username userID a)).ring.lookup g =
          some k →
        (openKeyring S (callWith (run (persist S username userID) v (before ++ a :: between)) username userID b)).ring.lookup
          g = some k' →
        S.sha256 k.bytes = S.sha256 k'.bytes ∧ (CollisionFree S → k = k') := by
  constructor
  · intro input
    have hi := openKeyring_inv S input
    exact ⟨hi.trusted, hi.digest, hi.stored, hi.mark⟩
  · intro username userID v hr before between a b hab g k k' hk hk'
    have hkept : ∀ v input, (v.get username).isSome → ((persist S username userID v input).get username).isSome :=
      fun v input h => (storeKeyState_kept h _).2
    have hr₁ : ((run (persist S username userID) v before).get username).isSome :=
      run_inv (P := fun v : Vault => (v.get username).isSome) hkept before hr
    have hafter := persist_remembers hr₁ hk
    -- what is remembered once stays remembered
    have hstay : Remembers (run (persist S username userID) v (before ++ a :: between)) username userID a.containerID g
        (S.sha256 k.bytes) := by
      rw [run_append, run_cons]
      exact run_inv (P := fun v => Remembers v username userID a.containerID g (S.sha256 k.bytes))
        (fun v input h => storeKeyState_digest _ h) between hafter
    rw [hab] at hstay
    have heq := (hstay.opened hk').symm
    exact ⟨heq, fun hS => hS k k' heq⟩

/-- A suite without secrets: a private key is its public key, and an envelope names its sender and its recipient. -/
def sampleSuite : Suite where
  sha256 := id
  getPublicKey := id
  getSharedSecret := fun privateKey publicKey => some (privateKey ++ publicKey)
  hkdfSha256 := fun ikm length _ _ => ikm.take length
  decrypt := fun _ _ _ ciphertext => some ciphertext
  hpkeOpen := fun recipientKey senderPublicKey enc _ ciphertext =>
    if enc = senderPublicKey ∧ ciphertext.drop 32 = recipientKey.take 16 then some (ciphertext.take 32) else none
  hpkeSeal := fun recipientPublicKey senderKey _ plaintext _ => some (senderKey, plaintext ++ recipientPublicKey.take 16)

/-- An identifier with 26 times one character. -/
def sampleId (p : IdPrefix) (c : UInt16) : JsString := p.text ++ List.replicate 26 c

def sampleMe : Me where
  deviceId := sampleId .dev 97
  publicKey := List.replicate 32 1
  privateKey := List.replicate 32 1
  userId := sampleId .usr 97

def sampleKey : KeyRef := ⟨List.replicate 32 7, rfl⟩

/-- The key as this identity sealed it for itself at generation 1. -/
def sampleRow : Envelope where
  deviceId := sampleMe.deviceId
  keyGeneration := 1
  alg := .hpkeAuth
  envelope := base64 ((wrapEnvelope sampleSuite sampleKey.bytes sampleMe.publicKey (sampleId .cnt 97) 1 sampleMe.deviceId
    sampleMe.deviceId sampleMe.privateKey []).getD [])

def sampleInput : OpenKeyringInput where
  containerID := sampleId .cnt 97
  envelopes := [sampleRow]
  me := some sampleMe
  members := []
  pins := Table.empty
  known := .unknown
  held := Table.empty

def sampleVault : Vault := Table.empty.put ⟨[97], none, none⟩

/-- Two calls on one envelope. -/
theorem keyring_trust_twice : sampleSuite.sha256 sampleKey.bytes = sampleSuite.sha256 sampleKey.bytes ∧
    (CollisionFree sampleSuite → sampleKey = sampleKey) :=
  (keyring_trust sampleSuite).2 [97] [98] sampleVault rfl [] [] sampleInput sampleInput rfl 1 sampleKey sampleKey
    (by decide +kernel) (by decide +kernel)

end KyNotes.Web
