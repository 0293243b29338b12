import KyNotes.Lib.ObjectStore
import KyNotes.Web.Keyring

/-!
# The vault

The object store `keys` of `storage.ts`, one record for each account that signed in on this device. Of a record, the pins
and the key memory are modelled; each belongs to one user. Every write is one transaction of IndexedDB that reads the
record and puts it back; with no record, nothing is kept.
-/

namespace KyNotes.Web

open Relational

structure VaultRecord where
  username : JsString
  /-- `pins: { userID, keys }`. -/
  pins : Option (JsString × Pins)
  /-- `keyStates: { userID, byContainer }`. -/
  keyStates : Option (JsString × Record JsString KeyState)
deriving DecidableEq

abbrev Vault := Table VaultRecord.username

/-- Read-modify-write of an existing record. -/
def updateRecord (v : Vault) (username : JsString) (change : VaultRecord → Option VaultRecord) : Vault × Bool :=
  match (v.get username).bind change with
  | none => (v, false)
  | some next => (v.put next, true)

/-! ## Pins -/

def pinsOf (record : VaultRecord) (userID : JsString) : Pins :=
  match record.pins with
  | none => Table.empty
  | some (user, keys) => if user = userID then keys else Table.empty

def getPins (v : Vault) (username userID : JsString) : Pins :=
  match v.get username with
  | none => Table.empty
  | some record => pinsOf record userID

/-- Whether every proposed pin is now stored; otherwise nothing was written, and the members pinned to another key. -/
inductive PinsStored
  | ok
  | refused (conflicts : List JsString)
deriving DecidableEq

/-- The proposed members that `stored` has another key of. -/
def pinConflicts (stored keys : Pins) : List JsString :=
  (keys.rows.map Prod.fst).filter fun member =>
    match stored.lookup member, keys.lookup member with
    | some pinned, some key => pinned ≠ key && !sameKey pinned key
    | _, _ => false

/-- Adds first-contact pins; never overwrites. -/
def storePins (v : Vault) (username userID : JsString) (keys : Pins) : Vault × PinsStored :=
  match v.get username with
  | none => (v, .refused [])
  | some record =>
    let stored := pinsOf record userID
    let conflicts := pinConflicts stored keys
    if conflicts ≠ [] then (v, .refused conflicts)
    else (v.put { record with pins := some (userID, Record.spread keys stored) }, .ok)

/-- Replaces one pin after the user confirmed it, while the stored pin is still the one that the user saw. -/
def storeConfirmedPin (v : Vault) (username userID : JsString) (confirmation : PinConfirmation)
    (expected : Option JsString) : Vault × Bool :=
  updateRecord v username fun record =>
    let keys := pinsOf record userID
    let stored := keys.lookup confirmation.userId
    let unexpected := expected.any fun expected => !stored.any fun stored => sameKey stored expected
    if unexpected then none
    else some { record with pins := some (userID, keys.set confirmation.userId confirmation.key) }

/-! ## Key memory -/

def statesOf (record : VaultRecord) (userID : JsString) : Record JsString KeyState :=
  match record.keyStates with
  | none => Table.empty
  | some (user, byContainer) => if user = userID then byContainer else Table.empty

/-- Unknown when there is none. -/
def getKeyState (v : Vault) (username userID containerID : JsString) : KeyState :=
  (((v.get username).bind fun record => (statesOf record userID).lookup containerID)).getD .unknown

/-- The merge of `storeKeyState`: the mark only rises, and a stored digest is never replaced. -/
def KeyState.merge (prior state : KeyState) : KeyState where
  mark := max prior.mark state.mark
  digests := Record.spread state.digests prior.digests
  shared := some (max (prior.shared.getD 0) (state.shared.getD 0))
  generation := some (max (prior.generation.getD 0) (state.generation.getD 0))
  objects := prior.objects || state.objects

/-- Merges key memory; false when nothing is kept. -/
def storeKeyState (v : Vault) (username userID containerID : JsString) (state : KeyState) : Vault × Bool :=
  updateRecord v username fun record =>
    let byContainer := statesOf record userID
    let prior := (byContainer.lookup containerID).getD .unknown
    some { record with keyStates := some (userID, byContainer.set containerID (prior.merge state)) }

/-! ## What a transaction leaves -/

variable {v v' : Vault} {username userID containerID : JsString}

theorem updateRecord_true {change : VaultRecord → Option VaultRecord}
    (hc : ∀ r r', change r = some r' → r'.username = r.username) (h : updateRecord v username change = (v', true)) :
    ∃ record next, v.get username = some record ∧ change record = some next ∧ v'.get username = some next := by
  unfold updateRecord at h
  cases hb : (v.get username).bind change with
  | none =>
    rw [hb] at h
    cases h
  | some next =>
    rw [hb] at h
    cases h
    obtain ⟨record, hr, hn⟩ := Option.bind_eq_some_iff.mp hb
    refine ⟨record, next, hr, hn, ?_⟩
    exact Table.get_put_of ((hc _ _ hn).trans (Table.get_key hr))

theorem updateRecord_false {change : VaultRecord → Option VaultRecord} (h : updateRecord v username change = (v', false)) :
    v' = v := by
  unfold updateRecord at h
  split at h
  · cases h
    rfl
  · cases h

theorem getKeyState_store {state : KeyState} (h : storeKeyState v username userID containerID state = (v', true)) :
    getKeyState v' username userID containerID = (getKeyState v username userID containerID).merge state := by
  obtain ⟨record, next, hr, hn, hr'⟩ := updateRecord_true (by rintro r r' ⟨⟩; rfl) h
  cases hn
  unfold getKeyState
  rw [hr, hr']
  simp only [Option.bind_some, statesOf, if_true, Record.lookup_set_self, Option.getD_some]

theorem getKeyState_store_other {c : JsString} {state : KeyState} (hc : c ≠ containerID) :
    getKeyState (storeKeyState v username userID containerID state).1 username userID c = getKeyState v username userID c := by
  cases h : storeKeyState v username userID containerID state with
  | mk v' kept =>
    cases kept with
    | false => rw [updateRecord_false h]
    | true =>
      obtain ⟨record, next, hr, hn, hr'⟩ := updateRecord_true (by rintro r r' ⟨⟩; rfl) h
      cases hn
      unfold getKeyState
      rw [hr, hr']
      simp only [Option.bind_some, statesOf, if_true, Record.lookup_set_ne hc]

/-- Where there is a record, key memory is kept, and the record stays. -/
theorem storeKeyState_kept (h : (v.get username).isSome) (state : KeyState) :
    (storeKeyState v username userID containerID state).2 = true ∧
      ((storeKeyState v username userID containerID state).1.get username).isSome := by
  obtain ⟨record, hr⟩ := Option.isSome_iff_exists.mp h
  have hk : (storeKeyState v username userID containerID state).2 = true := by
    unfold storeKeyState updateRecord
    rw [hr]
    rfl
  refine ⟨hk, ?_⟩
  obtain ⟨-, next, -, -, hr'⟩ := updateRecord_true (v := v) (by rintro r r' ⟨⟩; rfl) (Prod.ext rfl hk)
  exact Option.isSome_iff_exists.mpr ⟨next, hr'⟩

theorem merge_digest (prior state : KeyState) (g : Num) :
    (prior.merge state).digests.lookup g = (prior.digests.lookup g).or (state.digests.lookup g) := Record.lookup_spread

/-- A stored digest is never replaced. -/
theorem storeKeyState_digest {c : JsString} {g : Num} {d : Digest} (state : KeyState)
    (h : (getKeyState v username userID c).digests.lookup g = some d) :
    (getKeyState (storeKeyState v username userID containerID state).1 username userID c).digests.lookup g = some d := by
  by_cases hc : c = containerID
  · subst hc
    cases hs : storeKeyState v username userID c state with
    | mk v' kept =>
      cases kept with
      | false => rwa [updateRecord_false hs]
      | true => rw [getKeyState_store hs, merge_digest, h, Option.some_or]
  · rw [getKeyState_store_other hc, h]

/-! ## What is left of the pins -/

theorem getPins_of {record : VaultRecord} (h : v.get username = some record) :
    getPins v username userID = pinsOf record userID := by
  unfold getPins
  rw [h]

/-- Without a conflict, every proposed pin is the stored one or new. -/
theorem pinConflicts_nil {stored keys : Pins} (h : pinConflicts stored keys = []) {u : JsString} {pin key : JsString}
    (hs : stored.lookup u = some pin) (hk : keys.lookup u = some key) : pin = key ∨ sameKey pin key = true := by
  by_contra hne
  have hm : u ∈ pinConflicts stored keys := by
    refine List.mem_filter.mpr ⟨List.mem_map.mpr ⟨(u, key), Record.lookup_eq_some.mp hk, rfl⟩, ?_⟩
    rw [hs, hk]
    simpa [not_or] using hne
  rw [h] at hm
  exact List.not_mem_nil hm

theorem storePins_ok {keys : Pins} (h : storePins v username userID keys = (v', .ok)) :
    pinConflicts (getPins v username userID) keys = [] ∧
      getPins v' username userID = Record.spread keys (getPins v username userID) := by
  unfold storePins at h
  cases hr : v.get username with
  | none =>
    rw [hr] at h
    cases h
  | some record =>
    rw [hr] at h
    simp only at h
    split at h
    · cases h
    · rename_i hc
      cases h
      rw [getPins_of hr]
      refine ⟨not_not.mp hc, (getPins_of (Table.get_put_of ?_)).trans ?_⟩
      · show record.username = username
        exact Table.get_key hr
      · simp only [pinsOf, if_true]

theorem storePins_refused {keys : Pins} {conflicts : List JsString}
    (h : storePins v username userID keys = (v', .refused conflicts)) : v' = v := by
  unfold storePins at h
  split at h
  · cases h
    rfl
  · simp only at h
    split at h
    · cases h
      rfl
    · cases h

/-- After a write, every proposed pin is stored. -/
theorem storePins_stored {keys : Pins} (h : storePins v username userID keys = (v', .ok)) {u key : JsString}
    (hk : keys.lookup u = some key) :
    ∃ pin, (getPins v' username userID).lookup u = some pin ∧ (pin = key ∨ sameKey pin key = true) := by
  obtain ⟨hc, hp⟩ := storePins_ok h
  rw [hp, Record.lookup_spread]
  cases hs : (getPins v username userID).lookup u with
  | none => exact ⟨key, by rw [hk]; rfl, Or.inl rfl⟩
  | some pin => exact ⟨pin, rfl, pinConflicts_nil hc hs hk⟩

/-- A stored pin stays as it is. -/
theorem storePins_keeps (v : Vault) (username userID : JsString) (keys : Pins) {u pin : JsString}
    (hs : (getPins v username userID).lookup u = some pin) :
    (getPins (storePins v username userID keys).1 username userID).lookup u = some pin := by
  cases h : storePins v username userID keys with
  | mk v' out =>
    cases out with
    | refused conflicts => rwa [storePins_refused h]
    | ok => rw [(storePins_ok h).2, Record.lookup_spread, hs, Option.some_or]

theorem storeConfirmedPin_ok {confirmation : PinConfirmation} {expected : Option JsString}
    (h : storeConfirmedPin v username userID confirmation expected = (v', true)) :
    (getPins v' username userID).lookup confirmation.userId = some confirmation.key := by
  unfold storeConfirmedPin at h
  obtain ⟨record, next, hr, hn, hr'⟩ := updateRecord_true (by
    intro r r' hr
    simp only at hr
    split at hr
    · cases hr
    · cases hr
      rfl) h
  simp only at hn
  split at hn
  · cases hn
  · cases hn
    rw [getPins_of hr']
    simp only [pinsOf, if_true, Record.lookup_set_self]

end KyNotes.Web
