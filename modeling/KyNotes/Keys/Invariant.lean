import KyNotes.Server.Specs

/-!
# The invariant of the key tables

`KeyInv`: envelopes lie between the first shared and the current generation of their container, are addressed to a
device of a live approved member of it, and an envelope parked on an invitation belongs to the invitation's container
or to one of its children.

`Later k k'`: what every transaction respects. A container keeps its row, its generation does not fall, its first
shared generation is set once, a deleted container stays deleted; and who is a live approved member of a live
container stays one or the container's generation rises.

Each statement on a table has one lemma for each of the two; `keyTx_inv` assembles them.
-/

namespace KyNotes

open Relational Check

/-- The invariant. -/
structure KeyInv (k : KeyTables) : Prop where
  shared_le : ∀ c ∈ k.containers, c.sharedGeneration ≤ c.keyGeneration
  range : ∀ e ∈ k.keyEnvelopes, ∃ c ∈ k.containers, c.id = e.containerId ∧ 0 < c.sharedGeneration ∧
    c.sharedGeneration ≤ e.keyGeneration ∧ e.keyGeneration ≤ c.keyGeneration
  recipient : ∀ e ∈ k.keyEnvelopes, ∃ d ∈ k.devices, d.id = e.deviceId ∧
    ∀ c ∈ k.containers, c.id = e.containerId → c.deletedAt = none → ApprovedIn k d.userId c.id
  parked : ∀ e ∈ k.invitationEnvelopes, ∃ i ∈ k.invitations, i.id = e.invitationId ∧
    InScope k i.containerId e.containerId

/-- How a container's row may change. -/
structure Advance (c c' : Container) : Prop where
  id : c'.id = c.id
  team : c'.teamId = c.teamId
  gen : c.keyGeneration ≤ c'.keyGeneration
  shared : c.sharedGeneration ≠ 0 → c'.sharedGeneration = c.sharedGeneration
  shared_le : c.sharedGeneration ≤ c.keyGeneration → c'.sharedGeneration ≤ c'.keyGeneration
  live : c'.deletedAt = none → c.deletedAt = none

/-- What a transaction respects. -/
structure Later (k k' : KeyTables) : Prop where
  row : ∀ c ∈ k.containers, ∃ c' ∈ k'.containers, Advance c c'
  member : ∀ u, ∀ c ∈ k.containers, ∀ c' ∈ k'.containers, c'.id = c.id → c'.deletedAt = none →
    ApprovedIn k u c.id → ApprovedIn k' u c.id ∨ c.keyGeneration < c'.keyGeneration

variable {k k' k'' : KeyTables}

theorem Advance.refl (c : Container) : Advance c c := ⟨rfl, rfl, Nat.le_refl _, fun _ => rfl, fun h => h, fun h => h⟩

theorem Advance.trans {a b c : Container} (h : Advance a b) (h' : Advance b c) : Advance a c where
  id := h'.id.trans h.id
  team := h'.team.trans h.team
  gen := Nat.le_trans h.gen h'.gen
  shared := fun ha => by
    have hb := h.shared ha
    rw [h'.shared (by rw [hb]; exact ha), hb]
  shared_le := fun ha => h'.shared_le (h.shared_le ha)
  live := fun hc => h.live (h'.live hc)

theorem Later.refl (k : KeyTables) : Later k k where
  row := fun c hc => ⟨c, hc, .refl c⟩
  member := fun _ _ _ _ _ _ _ ha => Or.inl ha

theorem Later.trans (h : Later k k') (h' : Later k' k'') : Later k k'' where
  row := fun c hc => by
    obtain ⟨c', hc', ha⟩ := h.row c hc
    obtain ⟨c'', hc'', ha'⟩ := h'.row c' hc'
    exact ⟨c'', hc'', ha.trans ha'⟩
  member := fun u c hc c'' hc'' hid hl ha => by
    obtain ⟨c', hc', hcc'⟩ := h.row c hc
    obtain ⟨d, hd, hc'd⟩ := h'.row c' hc'
    have hd'' : d = c'' := Table.eq_of_key hd hc'' (by rw [hc'd.id, hcc'.id, hid])
    subst hd''
    rcases h.member u c hc c' hc' hcc'.id (hc'd.live hl) ha with hm | hg
    · rw [← hcc'.id] at hm ⊢
      rcases h'.member u c' hc' d hd hc'd.id hl hm with hm | hg
      · exact Or.inl hm
      · exact Or.inr (Nat.lt_of_le_of_lt hcc'.gen hg)
    · exact Or.inr (Nat.lt_of_lt_of_le hg hc'd.gen)

/-- The same containers and memberships. -/
theorem Later.of_eq (hc : k'.containers = k.containers) (hm : k'.memberships = k.memberships) : Later k k' where
  row := fun c h => ⟨c, by rw [hc]; exact h, .refl c⟩
  member := fun u c _ c' _ _ _ ha => by
    left
    unfold ApprovedIn at ha ⊢
    rw [hm]
    exact ha

/-! ## Containers -/

section Containers

variable {p : Container → Prop} [DecidablePred p] {f : Container → Container}

theorem mem_update_advance (hf : ∀ c, Advance c (f c)) {c' : Container}
    (h : c' ∈ k.containers.update p f) : ∃ c ∈ k.containers, Advance c c' := by
  rcases Table.mem_update_cases h (fun c => (hf c).id) with ⟨h, -⟩ | ⟨c, hc, -, rfl⟩
  · exact ⟨c', h, .refl c'⟩
  · exact ⟨c, hc, hf c⟩

theorem update_advance_mem (hf : ∀ c, Advance c (f c)) {c : Container} (h : c ∈ k.containers) :
    ∃ c' ∈ k.containers.update p f, Advance c c' := by
  by_cases hp : p c
  · exact ⟨f c, Table.mem_update_of h hp (fun c => (hf c).id), hf c⟩
  · exact ⟨c, Table.mem_update_of_not h hp, .refl c⟩

theorem inScope_update (hf : ∀ c, Advance c (f c)) {cid x : ContainerId}
    (h : InScope k cid x) : InScope { k with containers := k.containers.update p f } cid x := by
  obtain ⟨c, hc, rfl, hs⟩ := h
  obtain ⟨c', hc', ha⟩ := update_advance_mem (p := p) hf hc
  exact ⟨c', hc', ha.id, by rw [ha.id, ha.team]; exact hs⟩

theorem KeyInv.updateContainers (h : KeyInv k) (hf : ∀ c, Advance c (f c)) :
    KeyInv { k with containers := k.containers.update p f } where
  shared_le := fun c' hc' => by
    obtain ⟨c, hc, ha⟩ := mem_update_advance hf hc'
    exact ha.shared_le (h.shared_le c hc)
  range := fun e he => by
    obtain ⟨c, hc, hid', h0, h1, h2⟩ := h.range e he
    obtain ⟨c', hc', ha⟩ := update_advance_mem (p := p) hf hc
    have hs := ha.shared (by omega)
    exact ⟨c', hc', by rw [ha.id, hid'], by omega, by omega, Nat.le_trans h2 ha.gen⟩
  recipient := fun e he => by
    obtain ⟨d, hd, hdid, hr⟩ := h.recipient e he
    refine ⟨d, hd, hdid, fun c' hc' hce hl => ?_⟩
    obtain ⟨c, hc, ha⟩ := mem_update_advance hf hc'
    rw [ha.id] at hce ⊢
    exact hr c hc hce (ha.live hl)
  parked := fun e he => by
    obtain ⟨i, hi, hie, hs⟩ := h.parked e he
    exact ⟨i, hi, hie, inScope_update hf hs⟩

theorem Later.updateContainers (hf : ∀ c, Advance c (f c)) :
    Later k { k with containers := k.containers.update p f } where
  row := fun _ hc => update_advance_mem hf hc
  member := fun _ _ _ _ _ _ _ ha => Or.inl ha

end Containers

/-- A new container has no envelopes. -/
theorem KeyInv.insertContainer (h : KeyInv k) {c : Container} {t : Table Container.id}
    (ht : k.containers.insert c = some t) (hs : c.sharedGeneration ≤ c.keyGeneration) :
    KeyInv { k with containers := t } where
  shared_le := fun x hx => by
    rcases (Table.mem_insert ht).mp hx with hx | rfl
    · exact h.shared_le x hx
    · exact hs
  range := fun e he => by
    obtain ⟨x, hx, hr⟩ := h.range e he
    exact ⟨x, (Table.mem_insert ht).mpr (Or.inl hx), hr⟩
  recipient := fun e he => by
    obtain ⟨d, hd, hde, hr⟩ := h.recipient e he
    refine ⟨d, hd, hde, fun x hx hxe hl => ?_⟩
    rcases (Table.mem_insert ht).mp hx with hx | rfl
    · exact hr x hx hxe hl
    · obtain ⟨y, hy, hye, -⟩ := h.range e he
      exact absurd (hye.trans hxe.symm) (Table.get_eq_none.mp (Table.insert_fresh ht) y hy)
  parked := fun e he => by
    obtain ⟨i, hi, hie, x, hx, hs⟩ := h.parked e he
    exact ⟨i, hi, hie, x, (Table.mem_insert ht).mpr (Or.inl hx), hs⟩

theorem Later.insertContainer {c : Container} {t : Table Container.id} (ht : k.containers.insert c = some t) :
    Later k { k with containers := t } where
  row := fun x hx => ⟨x, (Table.mem_insert ht).mpr (Or.inl hx), .refl x⟩
  member := fun _ _ _ _ _ _ _ ha => Or.inl ha

/-! ## Memberships -/

/-- Memberships may only be lost where no envelope needs them. -/
theorem KeyInv.setMemberships (h : KeyInv k) {t : Table Membership.key}
    (ht : ∀ e ∈ k.keyEnvelopes, ∀ d ∈ k.devices, d.id = e.deviceId → ∀ c ∈ k.containers, c.id = e.containerId →
      c.deletedAt = none → ApprovedIn k d.userId c.id → ApprovedIn { k with memberships := t } d.userId c.id) :
    KeyInv { k with memberships := t } where
  shared_le := h.shared_le
  range := h.range
  recipient := fun e he => by
    obtain ⟨d, hd, hde, hr⟩ := h.recipient e he
    exact ⟨d, hd, hde, fun c hc hce hl => ht e he d hd hde c hc hce hl (hr c hc hce hl)⟩
  parked := h.parked

theorem Later.setMemberships {t : Table Membership.key}
    (ht : ∀ u, ∀ c ∈ k.containers, c.deletedAt = none → ApprovedIn k u c.id →
      ApprovedIn { k with memberships := t } u c.id) : Later k { k with memberships := t } where
  row := fun c hc => ⟨c, hc, .refl c⟩
  member := fun u c hc c' hc' hid hl ha => by
    have : c' = c := Table.eq_of_key hc' hc hid
    subst this
    exact Or.inl (ht u c' hc' hl ha)

theorem approvedIn_insertAll {u : UserId} {c : ContainerId} {rs : List Membership} (h : ApprovedIn k u c) :
    ApprovedIn { k with memberships := k.memberships.insertAll rs } u c := by
  obtain ⟨m, hm, h⟩ := h
  exact ⟨m, Table.get_mem (Table.get_insertAll_of_some (Table.get_of_mem hm)), h⟩

theorem approvedIn_insert {u : UserId} {c : ContainerId} {r : Membership} {t : Table Membership.key}
    (ht : k.memberships.insert r = some t) (h : ApprovedIn k u c) : ApprovedIn { k with memberships := t } u c := by
  obtain ⟨m, hm, h⟩ := h
  exact ⟨m, (Table.mem_insert ht).mpr (Or.inl hm), h⟩

/-! ## Envelopes -/

theorem KeyInv.deleteEnvelopes (h : KeyInv k) (p : KeyEnvelope → Prop) [DecidablePred p] :
    KeyInv { k with keyEnvelopes := k.keyEnvelopes.delete p } where
  shared_le := h.shared_le
  range := fun e he => h.range e (Table.mem_delete.mp he).1
  recipient := fun e he => h.recipient e (Table.mem_delete.mp he).1
  parked := h.parked

/-- An envelope that may be stored. -/
structure Storable (k : KeyTables) (e : KeyEnvelope) : Prop where
  range : ∃ c ∈ k.containers, c.id = e.containerId ∧ 0 < c.sharedGeneration ∧
    c.sharedGeneration ≤ e.keyGeneration ∧ e.keyGeneration ≤ c.keyGeneration
  recipient : ∃ d ∈ k.devices, d.id = e.deviceId ∧
    ∀ c ∈ k.containers, c.id = e.containerId → c.deletedAt = none → ApprovedIn k d.userId c.id

theorem KeyInv.storable (h : KeyInv k) {e : KeyEnvelope} (he : e ∈ k.keyEnvelopes) : Storable k e :=
  ⟨h.range e he, h.recipient e he⟩

/-- Every envelope of the new table may be stored. -/
theorem KeyInv.setEnvelopes (h : KeyInv k) {t : Table KeyEnvelope.key} (ht : ∀ e ∈ t, Storable k e) :
    KeyInv { k with keyEnvelopes := t } where
  shared_le := h.shared_le
  range := fun e he => (ht e he).range
  recipient := fun e he => (ht e he).recipient
  parked := h.parked

/-- What is parked may shrink. -/
theorem KeyInv.setParked (h : KeyInv k) {t : Table InvitationEnvelope.key} {i : Table Invitation.id}
    (ht : ∀ e ∈ t, ∃ x ∈ i, x.id = e.invitationId ∧ InScope k x.containerId e.containerId) :
    KeyInv { k with invitations := i, invitationEnvelopes := t } where
  shared_le := h.shared_le
  range := h.range
  recipient := h.recipient
  parked := ht

theorem KeyInv.deleteParked (h : KeyInv k) (p : InvitationEnvelope → Prop) [DecidablePred p] :
    KeyInv { k with invitationEnvelopes := k.invitationEnvelopes.delete p } :=
  h.setParked fun e he => h.parked e (Table.mem_delete.mp he).1

/-! ## Devices -/

/-- A device may go with its envelopes; its owner never changes. -/
theorem KeyInv.setDevices (h : KeyInv k) {t : Table Device.id}
    (ht : ∀ e ∈ k.keyEnvelopes, ∀ d ∈ k.devices, d.id = e.deviceId → ∃ d' ∈ t, d'.id = d.id ∧ d'.userId = d.userId) :
    KeyInv { k with devices := t } where
  shared_le := h.shared_le
  range := h.range
  recipient := fun e he => by
    obtain ⟨d, hd, hde, hr⟩ := h.recipient e he
    obtain ⟨d', hd', hid, hu⟩ := ht e he d hd hde
    exact ⟨d', hd', hid.trans hde, fun c hc hce hl => by rw [hu]; exact hr c hc hce hl⟩
  parked := h.parked

theorem KeyInv.updateDevices (h : KeyInv k) {p : Device → Prop} [DecidablePred p] {f : Device → Device}
    (hid : ∀ d, (f d).id = d.id) (hu : ∀ d, (f d).userId = d.userId) :
    KeyInv { k with devices := k.devices.update p f } := by
  refine h.setDevices fun e _ d hd _ => ?_
  by_cases hp : p d
  · exact ⟨f d, Table.mem_update_of hd hp hid, hid d, hu d⟩
  · exact ⟨d, Table.mem_update_of_not hd hp, rfl, rfl⟩

theorem KeyInv.insertDevice (h : KeyInv k) {d : Device} {t : Table Device.id} (ht : k.devices.insert d = some t) :
    KeyInv { k with devices := t } :=
  h.setDevices fun _ _ d hd _ => ⟨d, (Table.mem_insert ht).mpr (Or.inl hd), rfl, rfl⟩

end KyNotes
