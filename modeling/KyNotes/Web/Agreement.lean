import KyNotes.Web.Passes

/-!
# Key memory across tabs

Two passes share one vault, whose digests are add-only (`Env.Remembers.later`). A pass that reports its memory as kept has
a ring whose digests the vault then has, if its last write found no other digest in the vault (`LastWrite`):
`storeKeyState` keeps the stored digest on a clash, and answers that the memory is kept all the same. Two such passes have
one key for a generation (`key_memory_agreement`).
-/

namespace KyNotes.Web

open Relational Interaction

variable {S : Suite} {w : Env} {caller : Caller} {held : Keyring}

/-! ## The vault over time -/

/-- A write of a pass, of any tab. -/
inductive VaultStep (username userID : JsString) (v : Vault) : Vault → Prop
  | none : VaultStep username userID v v
  | saveKeyState (containerID : JsString) (state : KeyState) :
    VaultStep username userID v (storeKeyState v username userID containerID state).1
  | addFresh (keys : Pins) : VaultStep username userID v (storePins v username userID keys).1
  | confirm (confirmation : PinConfirmation) (expected : Option JsString) :
    VaultStep username userID v (storeConfirmedPin v username userID confirmation expected).1

/-- The vault changes by the writes of passes. -/
def Env.Evolves (w : Env) : Prop := ∀ i, VaultStep w.username w.userID (w.vault i) (w.vault (i + 1))

/-- At a time, the device remembers the digest. -/
def Env.Remembers (w : Env) (i : Nat) (containerID : JsString) (g : Num) (d : Digest) : Prop :=
  Web.Remembers (w.vault i) w.username w.userID containerID g d

theorem getKeyState_storePins {v : Vault} {username userID containerID : JsString} {keys : Pins} :
    getKeyState (storePins v username userID keys).1 username userID containerID =
      getKeyState v username userID containerID := by
  unfold storePins
  split
  · rfl
  · rename_i record hr
    simp only
    split
    · rfl
    · unfold getKeyState
      rw [hr, Table.get_put_of]
      · rfl
      · show record.username = username
        exact Table.get_key hr

theorem getKeyState_storeConfirmedPin {v : Vault} {username userID containerID : JsString} {confirmation : PinConfirmation}
    {expected : Option JsString} :
    getKeyState (storeConfirmedPin v username userID confirmation expected).1 username userID containerID =
      getKeyState v username userID containerID := by
  unfold storeConfirmedPin updateRecord
  split
  · rfl
  · rename_i next hn
    obtain ⟨record, hr, hn⟩ := Option.bind_eq_some_iff.mp hn
    simp only at hn
    split at hn
    · cases hn
    · cases hn
      unfold getKeyState
      rw [hr, Table.get_put_of]
      · rfl
      · show record.username = username
        exact Table.get_key hr

theorem VaultStep.remembers {v v' : Vault} {username userID containerID : JsString} {g : Num} {d : Digest}
    (h : VaultStep username userID v v') (hd : Web.Remembers v username userID containerID g d) :
    Web.Remembers v' username userID containerID g d := by
  cases h with
  | none => exact hd
  | saveKeyState c state => exact storeKeyState_digest state hd
  | addFresh keys =>
    unfold Web.Remembers
    rwa [getKeyState_storePins]
  | confirm confirmation expected =>
    unfold Web.Remembers
    rwa [getKeyState_storeConfirmedPin]

/-- What is remembered once stays remembered. -/
theorem Env.Remembers.later (hw : w.Evolves) {i j : Nat} {containerID : JsString} {g : Num} {d : Digest}
    (h : w.Remembers i containerID g d) (hij : i ≤ j) : w.Remembers j containerID g d := by
  induction hij with
  | refl => exact h
  | step _ ih => exact (hw _).remembers ih

/-! ## The last write of a pass -/

/-- The write finds no other digest of a generation for which it has one, and where it has none for a held key, the vault
has that key's. -/
def LastWrite (S : Suite) (w : Env) (held : Keyring) : Nat × Call → Prop
  | (i, .saveKeyState containerID state) =>
    (∀ g d d', w.Remembers i containerID g d → state.digests.lookup g = some d' → d = d') ∧
      ∀ g key, held.lookup g = some key → state.digests.lookup g = none → w.Remembers i containerID g (S.sha256 key.bytes)
  | _ => True

/-- A kept write leaves the digests that it has, where it finds no other. -/
theorem kept_remembers {i j : Nat} {containerID : JsString} {state : KeyState}
    (h : w.Answers i (.saveKeyState containerID state) (.ok true) j) {g : Num} {d : Digest}
    (hd : state.digests.lookup g = some d) (hc : ∀ d', w.Remembers i containerID g d' → d' = d) :
    w.Remembers j containerID g d := by
  obtain ⟨hv, ho, rfl⟩ | ⟨ho, -⟩ := h
  · unfold Env.Remembers Web.Remembers
    rw [getKeyState_store (Prod.ext hv.symm ho.symm), merge_digest]
    cases hs : (getKeyState (w.vault i) w.username w.userID containerID).digests.lookup g with
    | none => exact hd
    | some d' => exact congrArg some (hc d' hs)
  · cases ho

/-- The digests of a ring are in the vault after the last write. -/
def Kept (S : Suite) (w : Env) (t : Nat) (p : Pass) : Prop :=
  ∀ g key, p.ring.lookup g = some key → w.Remembers t p.container.id g (S.sha256 key.bytes)

theorem attemptOnce_kept (hw : w.Evolves) {rounds attempts t t' : Nat} {containerID : JsString}
    {carried : List MemberKey} {es : List (Nat × Call)} {p : Pass}
    (h : Runs w.Answers t (attemptOnce S rounds attempts containerID caller held carried) es t' (.ok (.done p), true))
    (hl : ∀ e ∈ es.getLast?, LastWrite S w held e) : Kept S w t' p := by
  obtain ⟨es₁, es₂, i, ⟨saved, outcome⟩, rfl, hpass, hrest⟩ := h.of_bind
  obtain ⟨es₃, es₄, i', kept, rfl, hsave, hret⟩ := hrest.of_bind
  have hspec := (pass_spec S w rounds attempts containerID caller held carried none t).runs hpass
  cases hret
  obtain ⟨known, rfl, hmem⟩ := hspec
  obtain _ | @⟨_, a, b, _, _, x, _, _, _, hta, hans, hend⟩ := hsave
  cases x with
  | error e => cases hend
  | ok x =>
    cases hend
    rw [List.append_nil, List.getLast?_append] at hl
    obtain ⟨hclash, hheld⟩ := hl _ rfl
    intro g key hg
    rcases hmem g key hg with hd | ⟨hh, hn⟩
    · exact kept_remembers hans hd fun d' hd' => hclash g d' _ hd' hd
    · exact (hheld g key hh hn).later hw hans.le

/-- A pass that keeps its memory, over its one or two attempts. -/
theorem syncContainerKeys_kept (hw : w.Evolves) {rounds t t' : Nat} {containerID : JsString} {es : List (Nat × Call)}
    {x : KeySync} (h : Runs w.Answers t (syncContainerKeys S rounds containerID caller held) es t' (.ok x))
    (hx : x.keyStateSaved = true) (hl : ∀ e ∈ es.getLast?, LastWrite S w held e) : Kept S w t' x.toPass := by
  obtain ⟨es₁, es₂, i, ⟨outcome, kept⟩, rfl, hfirst, hrest⟩ := h.of_bind
  rcases outcome with e | p | carried
  · cases hrest
  · cases hrest
    rw [List.append_nil] at hl
    cases hx
    exact attemptOnce_kept hw hfirst hl
  · obtain ⟨es₃, es₄, i', ⟨outcome, kept⟩, rfl, hsecond, hend⟩ := hrest.of_bind
    rcases outcome with e | p | carried
    · cases hend
    · cases hend
      cases hx
      refine attemptOnce_kept hw hsecond fun e he => hl e ?_
      rw [List.append_nil, List.getLast?_append, Option.mem_def.mp he]
      rfl
    · cases hend

/-- **Agreement.** When the last write of each of two passes meets `LastWrite` and both report that their memory is kept,
the digest of every key of both rings is the stored one from then on, so that the rings have one key for a generation. -/
theorem key_memory_agreement (S : Suite) (w : Env) (hw : w.Evolves) (a b : Caller) (heldA heldB : Keyring)
    (roundsA roundsB : Nat) (containerA containerB : JsString) (tA tB endA endB : Nat) (esA esB : List (Nat × Call))
    (x y : KeySync) (hA : Runs w.Answers tA (syncContainerKeys S roundsA containerA a heldA) esA endA (.ok x))
    (hB : Runs w.Answers tB (syncContainerKeys S roundsB containerB b heldB) esB endB (.ok y))
    (hx : x.keyStateSaved = true) (hy : y.keyStateSaved = true) (hid : x.container.id = y.container.id)
    (hlA : ∀ e ∈ esA.getLast?, LastWrite S w heldA e) (hlB : ∀ e ∈ esB.getLast?, LastWrite S w heldB e) :
    ∀ g k k', x.ring.lookup g = some k → y.ring.lookup g = some k' →
      (∀ t, endA ≤ t → endB ≤ t → w.Remembers t x.container.id g (S.sha256 k.bytes)) ∧
        S.sha256 k.bytes = S.sha256 k'.bytes ∧ (CollisionFree S → k = k') := by
  intro g k k' hk hk'
  have hkA := syncContainerKeys_kept hw hA hx hlA g k hk
  have hkB := syncContainerKeys_kept hw hB hy hlB g k' hk'
  rw [← hid] at hkB
  have heq : S.sha256 k.bytes = S.sha256 k'.bytes := by
    have h₁ := hkA.later hw (Nat.le_max_left endA endB)
    have h₂ := hkB.later hw (Nat.le_max_right endA endB)
    exact Option.some_inj.mp (h₁.symm.trans h₂)
  exact ⟨fun t ht _ => hkA.later hw ht, heq, fun hS => hS k k' heq⟩

/-! ## Two tabs -/

/-- Two stewards, pinned on this device. -/
def stewardKey (c : UInt8) : Bytes := List.replicate 32 c

def steward (c : UInt8) : Member := ⟨sampleId .usr c.toUInt16, [c.toUInt16], .owner, true⟩

def stewardIdentity (c : UInt8) : PublicIdentity := ⟨sampleId .dev c.toUInt16, base64 (stewardKey c)⟩

/-- The key that a steward mints. -/
def stewardMint (c : UInt8) : KeyRef := ⟨List.replicate 32 c, List.length_replicate⟩

/-- It is sealed for this device as the key of generation 1. -/
def stewardRow (c : UInt8) : Envelope where
  deviceId := sampleMe.deviceId
  keyGeneration := 1
  alg := .hpkeAuth
  envelope := base64 ((wrapEnvelope sampleSuite (stewardMint c).bytes sampleMe.publicKey (sampleId .cnt 97) 1
    sampleMe.deviceId (stewardIdentity c).deviceId (stewardKey c) []).getD [])

def memoryOf (c : UInt8) : KeyState := ⟨⟨some 1, some 1⟩, 1, Record.set Table.empty 1 (stewardMint c).bytes, false⟩

/-- The device has seen generation 1 of the container, and knows both stewards. -/
def tabsVault : Vault :=
  let pins := Record.set (Record.set Table.empty (steward 98).userId (stewardIdentity 98).publicKey) (steward 99).userId
    (stewardIdentity 99).publicKey
  let v := (storeKeyState sampleVault [97] sampleMe.userId (sampleId .cnt 97)
    ⟨⟨some 1, some 1⟩, 0, Table.empty, false⟩).1
  (storePins v [97] sampleMe.userId pins).1

/-- The writes of two tabs, one after the other. -/
def tabsEnv (first second : UInt8) : Env where
  vault := fun
    | 0 => tabsVault
    | 1 => (storeKeyState tabsVault [97] sampleMe.userId (sampleId .cnt 97) (memoryOf first)).1
    | _ => (storeKeyState (storeKeyState tabsVault [97] sampleMe.userId (sampleId .cnt 97) (memoryOf first)).1 [97]
      sampleMe.userId (sampleId .cnt 97) (memoryOf second)).1
  username := [97]
  userID := sampleMe.userId
  Shown := fun _ _ => True

instance (first second : UInt8) (user : JsString) (identity : PublicIdentity) :
    Decidable ((tabsEnv first second).Shown user identity) := inferInstanceAs (Decidable True)

theorem tabsEnv_evolves (first second : UInt8) : (tabsEnv first second).Evolves
  | 0 => .saveKeyState _ _
  | 1 => .saveKeyState _ _
  | _ + 2 => .none

/-- A server that shows a pass one steward and its key; it answers for the members at time `later`, after the pass has
read the key memory. -/
def tabOracle (w : Env) (c : UInt8) (later : Nat) : Oracle Call fun c => Except Failure c.Value :=
  w.oracle fun t call =>
    match call with
    | .container id => some (⟨id, 1, 1⟩, t)
    | .envelopes _ => some ([stewardRow c], t)
    | .members _ => some ([⟨sampleMe.userId, [97], .viewer, true⟩, steward c], later)
    | .userIdentity _ => some (some (stewardIdentity c), t)
    | .onFloor _ _ => some ((), t)
    | _ => none

/-- A pass of a tab. -/
def tabSync : ServiceProg (Except Failure KeySync) :=
  syncContainerKeys sampleSuite 1 (sampleId .cnt 97) ⟨sampleMe.userId, some sampleMe.toHeldIdentity, false, true⟩ Table.empty

def tabRun (w : Env) (c : UInt8) (later : Nat) : List (Nat × Call) × Nat × Except Failure KeySync :=
  eval (tabOracle w c later) 0 tabSync

/-- Both passes read the empty key memory; then each writes its own. -/
def tabsDiffer (x y : Except Failure KeySync) : Bool :=
  match x, y with
  | .ok x, .ok y => x.keyStateSaved && y.keyStateSaved && x.container.id = y.container.id &&
      (x.ring.lookup 1).isSome && (y.ring.lookup 1).isSome && x.ring.lookup 1 ≠ y.ring.lookup 1
  | _, _ => false

theorem tabs_differ : let w := tabsEnv 98 99
    w.Evolves ∧ Runs w.Answers 0 tabSync (tabRun w 98 0).1 (tabRun w 98 0).2.1 (tabRun w 98 0).2.2 ∧
      Runs w.Answers 0 tabSync (tabRun w 99 1).1 (tabRun w 99 1).2.1 (tabRun w 99 1).2.2 ∧
      tabsDiffer (tabRun w 98 0).2.2 (tabRun w 99 1).2.2 = true := by
  have hA : Follows (tabsEnv 98 99).Answers (tabOracle (tabsEnv 98 99) 98 0) 0 tabSync := by decide +kernel
  have hB : Follows (tabsEnv 98 99).Answers (tabOracle (tabsEnv 98 99) 99 1) 0 tabSync := by decide +kernel
  exact ⟨tabsEnv_evolves 98 99, hA.runs, hB.runs, by decide +kernel⟩

/-- What the passes of the tabs return when the server shows both the same steward. -/
def tabResult (later : Nat) : Option KeySync := (tabRun (tabsEnv 98 98) 98 later).2.2.toOption

/-- The last write finds no digest, or the one that it has. -/
theorem tabRun_lastWrite {later : Nat} (i : Nat) (hlast : (tabRun (tabsEnv 98 98) 98 later).1.getLast? =
      some (i, .saveKeyState (sampleId .cnt 97) (memoryOf 98)))
    (hstored : ((getKeyState ((tabsEnv 98 98).vault i) [97] sampleMe.userId (sampleId .cnt 97)).digests.lookup 1).getD
      (stewardMint 98).bytes = (stewardMint 98).bytes) :
    ∀ e ∈ (tabRun (tabsEnv 98 98) 98 later).1.getLast?, LastWrite sampleSuite (tabsEnv 98 98) Table.empty e := by
  intro e he
  rw [hlast] at he
  cases he
  refine ⟨fun g d d' hd hd' => ?_, fun _ _ h => by cases h⟩
  by_cases hg : g = 1
  · subst hg
    simp only [memoryOf, Record.lookup_set_self, Option.some_inj] at hd'
    have hd₁ : (getKeyState ((tabsEnv 98 98).vault i) [97] sampleMe.userId (sampleId .cnt 97)).digests.lookup 1 = some d := hd
    rw [hd₁, Option.getD_some] at hstored
    exact hstored.trans hd'
  · rw [memoryOf, Record.lookup_set_ne hg] at hd'
    cases hd'

/-- Two passes on the same steward's key. -/
theorem tabs_agree : ∃ x y, tabResult 0 = some x ∧ tabResult 1 = some y ∧
    ∀ g k k', x.ring.lookup g = some k → y.ring.lookup g = some k' →
      (∀ t, (tabRun (tabsEnv 98 98) 98 0).2.1 ≤ t → (tabRun (tabsEnv 98 98) 98 1).2.1 ≤ t →
        (tabsEnv 98 98).Remembers t x.container.id g (sampleSuite.sha256 k.bytes)) ∧
      sampleSuite.sha256 k.bytes = sampleSuite.sha256 k'.bytes ∧ (CollisionFree sampleSuite → k = k') := by
  have hA : Follows (tabsEnv 98 98).Answers (tabOracle (tabsEnv 98 98) 98 0) 0 tabSync := by decide +kernel
  have hB : Follows (tabsEnv 98 98).Answers (tabOracle (tabsEnv 98 98) 98 1) 0 tabSync := by decide +kernel
  obtain ⟨x, hx⟩ : ∃ x, tabResult 0 = some x := Option.isSome_iff_exists.mp (by decide +kernel)
  obtain ⟨y, hy⟩ : ∃ y, tabResult 1 = some y := Option.isSome_iff_exists.mp (by decide +kernel)
  have hkept : ∀ later, later < 2 → (tabResult later).all fun x => x.keyStateSaved && x.container.id = sampleId .cnt 97 := by
    decide +kernel
  have hx' := hkept 0 (by decide)
  have hy' := hkept 1 (by decide)
  rw [hx, Option.all_some, Bool.and_eq_true, decide_eq_true_eq] at hx'
  rw [hy, Option.all_some, Bool.and_eq_true, decide_eq_true_eq] at hy'
  have hA' := hA.runs
  have hB' := hB.runs
  rw [show (eval (tabOracle (tabsEnv 98 98) 98 0) 0 tabSync).2.2 = .ok x from toOption_some hx] at hA'
  rw [show (eval (tabOracle (tabsEnv 98 98) 98 1) 0 tabSync).2.2 = .ok y from toOption_some hy] at hB'
  refine ⟨x, y, hx, hy, ?_⟩
  exact key_memory_agreement sampleSuite (tabsEnv 98 98) (tabsEnv_evolves 98 98) _ _ _ _ _ _ _ _ _ _ _ _ _ _ x y hA' hB' hx'.1
    hy'.1 (hx'.2.trans hy'.2.symm) (tabRun_lastWrite 0 (by decide +kernel) (by decide +kernel))
    (tabRun_lastWrite 1 (by decide +kernel) (by decide +kernel))

end KyNotes.Web
