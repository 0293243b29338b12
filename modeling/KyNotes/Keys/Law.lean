import Mathlib.Data.List.Induction
import KyNotes.Keys.Transactions
import KyNotes.Pages.Saves

/-!
# The laws of the key tables on every run

* `envelope_recipients`: an envelope of a live container is addressed to a live approved member of it.
* `content_sealed`: a content row is inserted at the current generation of a keyed container, by someone whose identity
  holds that generation.
* `held_below`: what a user's devices have ever held of a container is at most its generation, and equal to it only
  while the user is an approved member.
* `write_generation_law`: the two together. What is written after a removal or an identity reset has a later generation
  than anything that the cut-off devices ever held.
-/

namespace KyNotes

open Relational Check Transition

variable {cfg : Config} {w : World} {op : Op} {p' : PageTables} {k k' : KeyTables}

/-! ## The invariant on runs -/

theorem KeyChange.inv (hc : KeyChange w op k') (h : KeyInv w.keys) : KeyInv k' ∧ Later w.keys k' := by
  cases hc with
  | same => exact ⟨h, .refl _⟩
  | tx hx => exact keyTx_inv h hx
  | delete => exact tombstoneContainers_inv h _ _
  | purge => exact ⟨h.deleteParked _, .of_eq rfl rfl⟩

theorem init_keyInv : KeyInv World.init.keys where
  shared_le := fun _ h => absurd h (Table.not_mem_empty _)
  range := fun _ h => absurd h (Table.not_mem_empty _)
  recipient := fun _ h => absurd h (Table.not_mem_empty _)
  parked := fun _ h => absurd h (Table.not_mem_empty _)

theorem step_keyInv (cfg : Config) (w : World) (op : Op) (h : KeyInv w.keys) : KeyInv (w.next cfg op).keys :=
  ((step_keys cfg w op).inv h).1

theorem reach_keyInv (cfg : Config) (ops : List Op) : KeyInv (World.reach cfg ops).keys :=
  run_inv (P := fun w : World => KeyInv w.keys) (step_keyInv cfg) ops init_keyInv

/-- The key tables of a later world of a run. -/
theorem run_later (cfg : Config) (h : KeyInv w.keys) (ops : List Op) : Later w.keys (w.run cfg ops).keys :=
  run_rel (P := fun w : World => KeyInv w.keys) (R := fun w w' => Later w.keys w'.keys) (step_keyInv cfg) (fun w => .refl w.keys)
    (fun _ _ _ => Later.trans) (fun w op h => ((step_keys cfg w op).inv h).2) ops h

/-- **Envelope recipients.** In every reachable state, every envelope of a live container is addressed to a device of a
user with a live and approved membership of that container. -/
theorem envelope_recipients (cfg : Config) (ops : List Op) (e : KeyEnvelope)
    (he : e ∈ (World.reach cfg ops).keys.keyEnvelopes) (c : Container)
    (hc : c ∈ (World.reach cfg ops).keys.containers) (hid : c.id = e.containerId) (hl : c.deletedAt = none) :
    ∃ d ∈ (World.reach cfg ops).keys.devices, d.id = e.deviceId ∧
      ApprovedIn (World.reach cfg ops).keys d.userId e.containerId := by
  obtain ⟨d, hd, hde, ha⟩ := (reach_keyInv cfg ops).recipient e he
  exact ⟨d, hd, hde, by rw [← hid]; exact ha c hc hid hl⟩

/-- The envelope that the first rotation of a notebook stores. -/
theorem envelope_recipients_rotation :
    ∃ d ∈ (World.reach sampleConfig sampleSetup).keys.devices, d.id = 1 ∧
      ApprovedIn (World.reach sampleConfig sampleSetup).keys d.userId 2 :=
  envelope_recipients sampleConfig sampleSetup ⟨2, 1, 2, .hpkeAuth, [0]⟩ (by decide +kernel)
    ⟨2, .workbook, 0, none, 2, 2, 0, none⟩ (by decide +kernel) rfl rfl

/-! ## Content rows -/

inductive RowId
  | version (oid : ObjectId) (version : Nat) | conflict (id : ConflictId) | comment (id : CommentId)
  | attachment (id : AttachmentId)

/-- What is sealed about a content row; two of the tables have an author column. -/
structure Content where
  containerId : ContainerId
  keyGeneration : Nat
  author : Option UserId

/-- The content rows of the page tables. -/
inductive HasRow (p : PageTables) : RowId → Content → Prop
  | version {v o} (hv : v ∈ p.objectVersions) (ho : o ∈ p.objects) (h : o.id = v.objectId) :
      HasRow p (.version v.objectId v.version) ⟨o.containerId, v.keyGeneration, some v.authorUserId⟩
  | conflict {c} (h : c ∈ p.conflicts) : HasRow p (.conflict c.id) ⟨c.containerId, c.keyGeneration, none⟩
  | comment {c} (h : c ∈ p.comments) : HasRow p (.comment c.id) ⟨c.containerId, c.keyGeneration, some c.authorUserId⟩
  | attachment {a} (h : a ∈ p.attachments) : HasRow p (.attachment a.id) ⟨a.containerId, a.keyGeneration, none⟩

/-- The user whose request an operation carries on, if it is one that writes content. -/
def World.author (w : World) : Op → Option UserId
  | .resume rid =>
    match w.job rid with
    | some (.put r _) => some r.userId
    | some (.comment r _) => some r.userId
    | some (.finalizeUpload r _) => some r.userId
    | _ => none
  | _ => none

/-- The row has the current generation of a live, keyed container, and the author's live identity holds it. -/
structure Sealed (k : KeyTables) (u : UserId) (row : Content) : Prop where
  container : ∃ c, k.containers.get row.containerId = some c ∧ c.deletedAt = none ∧
    c.keyGeneration = row.keyGeneration ∧ 0 < c.sharedGeneration
  envelope : OwnIdentityEnvelope k u row.containerId row.keyGeneration
  author : ∀ a, row.author = some a → a = u

/-- The operation carries on a request whose author may seal the row. -/
def Written (w : World) (op : Op) (row : Content) : Prop := ∃ u, w.author op = some u ∧ Sealed w.keys u row

theorem Keyed.sealed {u : UserId} {row : Content} (hk : Keyed k row.containerId u row.keyGeneration)
    (he : OwnIdentityEnvelope k u row.containerId row.keyGeneration) (ha : ∀ a, row.author = some a → a = u) :
    Sealed k u row :=
  ⟨hk.container, he, ha⟩

/-- A version is old or is the one of a save that commits. -/
theorem PageChange.version_origin (hc : PageChange cfg w op p') {v : ObjectVersion} (hv : v ∈ p'.objectVersions) :
    v ∈ w.pages.objectVersions ∨ ∃ rid r cid d o, op = .resume rid ∧ w.job rid = some (.put r (.tx cid d)) ∧
      PutGate cfg w.store r cid o ∧ v = r.versionRow w.pages cid d o.currentVersion := by
  cases hc with
  | deleteContainer | deleteObject => exact Or.inl (Table.mem_delete.mp hv).1
  | version hj hg _ ht =>
    rcases (Table.mem_insert ht).mp hv with hv | rfl
    · exact Or.inl hv
    · exact Or.inr ⟨_, _, _, _, _, rfl, hj, hg, rfl⟩
  | same | bump | createObject | resolveConflict | deleteComment | conflict | comment | link | unlink | revive | attach
  | gcTombstone | gcKeys | gcSweep => exact Or.inl hv

theorem PageChange.conflict_origin (hc : PageChange cfg w op p') {c : Conflict} (hm : c ∈ p'.conflicts) :
    (∃ x ∈ w.pages.conflicts, x.id = c.id) ∨ ∃ rid r cid d o, op = .resume rid ∧
      w.job rid = some (.put r (.tx cid d)) ∧ PutGate cfg w.store r cid o ∧
      c = r.conflictRow w.pages cid d o.currentVersion w.store.next := by
  cases hc with
  | deleteContainer | deleteObject | gcSweep => exact Or.inl ⟨c, (Table.mem_delete.mp hm).1, rfl⟩
  | resolveConflict =>
    rcases Table.mem_update_cases hm with ⟨hm, -⟩ | ⟨x, hx, -, rfl⟩
    · exact Or.inl ⟨c, hm, rfl⟩
    · exact Or.inl ⟨x, hx, rfl⟩
  | conflict hj hg _ ht =>
    rcases (Table.mem_insert ht).mp hm with hm | rfl
    · exact Or.inl ⟨c, hm, rfl⟩
    · exact Or.inr ⟨_, _, _, _, _, rfl, hj, hg, rfl⟩
  | same | bump | createObject | deleteComment | version | comment | link | unlink | revive | attach | gcTombstone
  | gcKeys => exact Or.inl ⟨c, hm, rfl⟩

theorem PageChange.comment_origin (hc : PageChange cfg w op p') {c : Comment} (hm : c ∈ p'.comments) :
    (∃ x ∈ w.pages.comments, x.id = c.id) ∨ ∃ rid r cid, op = .resume rid ∧ w.job rid = some (.comment r (.tx cid)) ∧
      Keyed w.keys cid r.userId r.generation ∧ OwnIdentityEnvelope w.keys r.userId cid r.generation ∧
      c = r.row w.pages cid w.store.next := by
  cases hc with
  | deleteContainer | deleteObject => exact Or.inl ⟨c, (Table.mem_delete.mp hm).1, rfl⟩
  | deleteComment =>
    rcases Table.mem_update_cases hm with ⟨hm, -⟩ | ⟨x, hx, -, rfl⟩
    · exact Or.inl ⟨c, hm, rfl⟩
    · exact Or.inl ⟨x, hx, rfl⟩
  | comment hj hk he _ ht =>
    rcases (Table.mem_insert ht).mp hm with hm | rfl
    · exact Or.inl ⟨c, hm, rfl⟩
    · exact Or.inr ⟨_, _, _, rfl, hj, hk, he, rfl⟩
  | same | bump | createObject | resolveConflict | conflict | version | link | unlink | revive | attach | gcTombstone
  | gcKeys | gcSweep => exact Or.inl ⟨c, hm, rfl⟩

/-- An attachment is old, revived or not, or is the one of a finalize that commits. -/
theorem PageChange.attachment_origin (hc : PageChange cfg w op p') {a : Attachment} (hm : a ∈ p'.attachments) :
    (∃ x ∈ w.pages.attachments, x.id = a.id) ∨ ∃ rid r u d size preview, op = .resume rid ∧
      w.job rid = some (.finalizeUpload r (.tx u d size preview)) ∧
      Keyed w.keys u.containerId r.userId r.generation ∧
      OwnIdentityEnvelope w.keys r.userId u.containerId r.generation ∧
      a = r.row w.pages u.containerId d size preview w.store.next := by
  have updated : ∀ {q : Attachment → Prop} [DecidablePred q] {f : Attachment → Attachment},
      a ∈ w.pages.attachments.update q f → (∀ x, (f x).id = x.id) → ∃ x ∈ w.pages.attachments, x.id = a.id := by
    intro q _ f hm hf
    rcases Table.mem_update_cases hm hf with ⟨hm, -⟩ | ⟨x, hx, -, rfl⟩
    · exact ⟨a, hm, rfl⟩
    · exact ⟨x, hx, (hf x).symm⟩
  cases hc with
  | gcSweep => exact Or.inl ⟨a, (Table.mem_delete.mp hm).1, rfl⟩
  | deleteContainer | deleteObject | revive | gcTombstone => exact Or.inl (updated hm fun _ => rfl)
  | attach hj _ hk he _ ht =>
    rcases (Table.mem_insert ht).mp hm with hm | rfl
    · exact Or.inl ⟨a, hm, rfl⟩
    · exact Or.inr ⟨_, _, _, _, _, _, rfl, hj, hk, he, rfl⟩
  | same | bump | createObject | resolveConflict | deleteComment | conflict | version | comment | link | unlink | gcKeys =>
    exact Or.inl ⟨a, hm, rfl⟩

/-- A content row has an older row of its name, or is written by a request that may seal it. -/
theorem PageChange.row_origin (hc : PageChange cfg w op p') (h : PageInv cfg w) {i : RowId} {row : Content}
    (hr : HasRow p' i row) : (∃ row', HasRow w.pages i row') ∨ Written w op row := by
  cases hr with
  | version hv ho hid =>
    rcases hc.version_origin hv with hv | ⟨rid, r, cid, d, o', rfl, hj, hg, rfl⟩
    · obtain ⟨-, x, hx, hxv, -⟩ := h.versions.row _ hv
      exact Or.inl ⟨_, .version hv hx hxv⟩
    · right
      obtain ⟨x, hx, hxid, hxc⟩ := hc.pageIn (h.job_located hj rfl)
      have hxo := Table.eq_of_key hx ho (hxid.trans hid.symm)
      subst hxo
      refine ⟨r.userId, by simp only [World.author, hj], Keyed.sealed ?_ ?_ ?_⟩
      · simp only [hxc]; exact hg.gate
      · simp only [hxc]; exact hg.envelope
      · intro a ha; cases ha; rfl
  | conflict hm =>
    rcases hc.conflict_origin hm with ⟨x, hx, hxid⟩ | ⟨rid, r, cid, d, o', rfl, hj, hg, rfl⟩
    · exact Or.inl ⟨_, by rw [← hxid]; exact .conflict hx⟩
    · exact Or.inr ⟨r.userId, by simp only [World.author, hj], hg.gate.container, hg.envelope, by simp⟩
  | comment hm =>
    rcases hc.comment_origin hm with ⟨x, hx, hxid⟩ | ⟨rid, r, cid, rfl, hj, hk, he, rfl⟩
    · exact Or.inl ⟨_, by rw [← hxid]; exact .comment hx⟩
    · exact Or.inr ⟨r.userId, by simp only [World.author, hj], hk.container, he, fun a ha => by cases ha; rfl⟩
  | attachment hm =>
    rcases hc.attachment_origin hm with ⟨x, hx, hxid⟩ | ⟨rid, r, u, d, size, preview, rfl, hj, hk, he, rfl⟩
    · exact Or.inl ⟨_, by rw [← hxid]; exact .attachment hx⟩
    · exact Or.inr ⟨r.userId, by simp only [World.author, hj], hk.container, he, by simp⟩

/-- The operation inserts a content row. -/
def Inserts (cfg : Config) (w : World) (op : Op) (i : RowId) (row : Content) : Prop :=
  (∀ row', ¬HasRow w.pages i row') ∧ HasRow (w.next cfg op).pages i row

/-- Who writes content does not touch the containers, the devices and the envelopes in the same operation. -/
theorem KeyChange.frame (hc : KeyChange w op k') {u : UserId} (ha : w.author op = some u) :
    k'.containers = w.keys.containers ∧ k'.devices = w.keys.devices ∧ k'.keyEnvelopes = w.keys.keyEnvelopes := by
  cases hc with
  | tx | delete => cases ha
  | same | purge => exact ⟨rfl, rfl, rfl⟩

/-- An inserted row is sealed at its commit. -/
theorem content_sealed (h : PageInv cfg w) {i : RowId} {row : Content} (hi : Inserts cfg w op i row) :
    ∃ u, w.author op = some u ∧ Sealed (w.next cfg op).keys u row := by
  obtain ⟨hnew, hrow⟩ := hi
  rcases (step_pages cfg w op).row_origin h hrow with ⟨row', hr⟩ | ⟨u, ha, hs⟩
  · exact absurd hr (hnew row')
  · obtain ⟨hc, hd, he⟩ := (step_keys cfg w op).frame ha
    refine ⟨u, ha, ?_, ?_, hs.author⟩
    · rw [hc]; exact hs.container
    · unfold OwnIdentityEnvelope; rw [hd, he]; exact hs.envelope

/-! ## What was ever held -/

/-- A device of the user holds an envelope of the container at the generation. -/
def Held (u : UserId) (cid : ContainerId) (g : Nat) (w : World) : Prop :=
  ∃ e ∈ w.keys.keyEnvelopes, e.containerId = cid ∧ e.keyGeneration = g ∧ OwnsDevice w.keys u e.deviceId

/-- The generation is at most the container's, and less unless the user is an approved member of it. -/
def Below (k : KeyTables) (u : UserId) (cid : ContainerId) (g : Nat) : Prop :=
  ∃ c ∈ k.containers, c.id = cid ∧ 0 < c.sharedGeneration ∧ g ≤ c.keyGeneration ∧
    (c.deletedAt = none → g = c.keyGeneration → ApprovedIn k u cid)

/-- What is held now is below. -/
theorem KeyInv.below {u : UserId} {cid : ContainerId} {g : Nat} (h : KeyInv w.keys) (hh : Held u cid g w) :
    Below w.keys u cid g := by
  obtain ⟨e, he, rfl, rfl, d, hd, hde, rfl⟩ := hh
  obtain ⟨c, hc, hce, h0, -, hle⟩ := h.range e he
  obtain ⟨d', hd', hde', ha⟩ := h.recipient e he
  have hdd : d' = d := Table.eq_of_key hd' hd (hde'.trans hde.symm)
  subst hdd
  exact ⟨c, hc, hce, h0, hle, fun hl _ => by rw [← hce]; exact ha c hc hce hl⟩

/-- What was below stays below. -/
theorem Later.below {u : UserId} {cid : ContainerId} {g : Nat} (hl : Later k k') (h : Below k u cid g) :
    Below k' u cid g := by
  obtain ⟨c, hc, rfl, h0, hle, ha⟩ := h
  obtain ⟨c', hc', hadv⟩ := hl.row c hc
  have hs := hadv.shared (Nat.pos_iff_ne_zero.mp h0)
  refine ⟨c', hc', hadv.id, by rw [hs]; exact h0, Nat.le_trans hle hadv.gen, fun hlive hg => ?_⟩
  have hgc : g = c.keyGeneration := Nat.le_antisymm hle (by rw [hg]; exact hadv.gen)
  rcases hl.member u c hc c' hc' hadv.id hlive (ha (hadv.live hlive) hgc) with hm | hlt
  · exact hm
  · omega

/-- What a user's devices have ever held of a container is below its generation. -/
theorem held_below (cfg : Config) (ops : List Op) {u : UserId} {cid : ContainerId} {g : Nat}
    (h : Seen (World.next cfg) (Held u cid g) .init ops) : Below (World.reach cfg ops).keys u cid g := by
  induction ops using List.reverseRecOn with
  | nil =>
    obtain ⟨e, he, -⟩ := seen_nil.mp h
    exact absurd he (Table.not_mem_empty _)
  | append_singleton ops op ih =>
    have hk := reach_keyInv cfg (ops ++ [op])
    rcases seen_concat.mp h with h | h
    · have hl : Later (World.reach cfg ops).keys (World.reach cfg (ops ++ [op])).keys := by
        simp only [World.reach, World.run, run_concat]
        exact ((step_keys cfg _ op).inv (reach_keyInv cfg ops)).2
      exact hl.below (ih h)
    · exact hk.below h

/-! ## Removals and identity resets -/

/-- The operation ends the user's membership of the container. -/
def Removes (cfg : Config) (w : World) (op : Op) (u : UserId) (cid : ContainerId) : Prop :=
  (liveMember w.keys cid u).isSome ∧ liveMember (w.next cfg op).keys cid u = none

/-- The operation is an identity reset of the user that commits. -/
def Resets (w : World) (op : Op) (u : UserId) : Prop :=
  ∃ stepUp resetOk expected fp, op = .key (.resetIdentity u stepUp resetOk expected fp) ∧
    ∃ k, resetIdentity w.keys u stepUp resetOk expected w.store.next fp w.store.now = .ok k

/-- The generation is less than that of the container, unless the container is deleted. -/
def CutOff (k : KeyTables) (cid : ContainerId) (g : Nat) : Prop :=
  ∃ c ∈ k.containers, c.id = cid ∧ (c.deletedAt = none → g < c.keyGeneration)

theorem Later.cutOff {cid : ContainerId} {g : Nat} (hl : Later k k') (h : CutOff k cid g) : CutOff k' cid g := by
  obtain ⟨c, hc, rfl, hlt⟩ := h
  obtain ⟨c', hc', hadv⟩ := hl.row c hc
  exact ⟨c', hc', hadv.id, fun hlive => Nat.lt_of_lt_of_le (hlt (hadv.live hlive)) hadv.gen⟩

/-- Who is no member is cut off from what was held. -/
theorem Below.cutOff {u : UserId} {cid : ContainerId} {g : Nat} (h : Below k u cid g) (hn : liveMember k cid u = none) :
    CutOff k cid g := by
  obtain ⟨c, hc, hid, -, hle, ha⟩ := h
  refine ⟨c, hc, hid, fun hlive => Nat.lt_of_le_of_ne hle fun hg => ?_⟩
  obtain ⟨m, hm, hmc, hmu, hr, -⟩ := ha hlive hg
  have hget : k.memberships.get (cid, u) = some m := Table.get_eq_some.mpr ⟨hm, by simp [Membership.key, hmc, hmu]⟩
  simp [liveMember, hget, hr] at hn

/-- A reset moves the keyed notebooks of the user to the next generation. -/
theorem resetIdentity_retires {u : UserId} {a b : Bool} {expected : Option DeviceId} {id : DeviceId} {fp : Nat}
    {now : Stamp} (hx : resetIdentity k u a b expected id fp now = .ok k') {c : Container} (hc : c ∈ k.containers)
    (hr : RetiredBy k u c) : { c with keyGeneration := c.keyGeneration + 1 } ∈ k'.containers := by
  simp only [resetIdentity, insertIdentity, bind_ok, require_ok, fetch_ok, pure_ok] at hx
  obtain ⟨_, -, _, -, _, -, _, -, _, -, t, -, i, -, rfl⟩ := hx
  exact Table.mem_update_of (f := fun c => { c with keyGeneration := c.keyGeneration + 1 }) hc hr

theorem Resets.cutOff {u : UserId} {cid : ContainerId} {g : Nat} (hk : KeyInv w.keys) (hr : Resets w op u)
    (h : Below w.keys u cid g) : CutOff (w.next cfg op).keys cid g := by
  obtain ⟨stepUp, resetOk, expected, fp, rfl, k, hx⟩ := hr
  have hstep : keyTx (.resetIdentity u stepUp resetOk expected fp) w.keys w.store.next w.store.clock = .ok k := hx
  have hnext : (w.next cfg (.key (.resetIdentity u stepUp resetOk expected fp))).keys = k := by
    simp [World.next, step, txDb, keyDb, hstep, Except.map, commitDb]
  rw [hnext]
  obtain ⟨c, hc, rfl, h0, hle, ha⟩ := h
  by_cases hr : RetiredBy w.keys u c
  · exact ⟨_, resetIdentity_retires hx hc hr, rfl, fun _ => Nat.lt_succ_of_le hle⟩
  · obtain ⟨c', hc', hadv⟩ := (keyTx_inv hk hstep).2.row c hc
    refine ⟨c', hc', hadv.id, fun hlive => ?_⟩
    have hlt : g < c.keyGeneration :=
      Nat.lt_of_le_of_ne hle fun hg => hr ⟨h0, hadv.live hlive, ha (hadv.live hlive) hg⟩
    exact Nat.lt_of_lt_of_le hlt hadv.gen

/-- After a removal or a reset, what was ever held before it is cut off. -/
theorem cutOff_of_revoked {ops : List Op} {op : Op} {u : UserId} {cid : ContainerId} {g : Nat}
    (hr : Removes cfg (World.reach cfg ops) op u cid ∨ Resets (World.reach cfg ops) op u)
    (hh : Seen (World.next cfg) (Held u cid g) .init ops) : CutOff ((World.reach cfg ops).next cfg op).keys cid g := by
  have hk := reach_keyInv cfg ops
  have hb := held_below cfg ops hh
  rcases hr with ⟨-, hn⟩ | hr
  · exact (((step_keys cfg _ op).inv hk).2.below hb).cutOff hn
  · exact hr.cutOff hk hb

/-- A row that is inserted where a generation is cut off has a later one. -/
theorem CutOff.lt_inserted (h : PageInv cfg w) (hk : KeyInv w.keys) {i : RowId} {row : Content} {g : Nat}
    (hc : CutOff w.keys row.containerId g) (hi : Inserts cfg w op i row) : g < row.keyGeneration := by
  obtain ⟨u, -, hs⟩ := content_sealed h hi
  obtain ⟨c, hc, hl, hg, -⟩ := hs.container
  obtain ⟨c', hc', hid, hlt⟩ := ((step_keys cfg w op).inv hk).2.cutOff ‹CutOff w.keys row.containerId g›
  have hcc : c' = c := Table.eq_of_key hc' (Table.get_mem hc) (hid.trans (Table.get_key hc).symm)
  subst hcc
  rw [← hg]
  exact hlt hl

/-- **The write-generation and revocation law.** From every reachable state: a container keeps its row, its generation
never falls and its first shared generation never changes once set; every envelope lies between the two; every content
row is inserted with the current generation of a live, keyed container, by an author whose live identity holds that
generation; and after a member removal or an identity reset, every content row inserted into the container has a
generation above every one that the member's devices had held there at any time before. -/
theorem write_generation_law (cfg : Config) (ops : List Op) :
    (∀ ops', ∀ c ∈ (World.reach cfg ops).keys.containers, ∃ c' ∈ ((World.reach cfg ops).run cfg ops').keys.containers,
      c'.id = c.id ∧ c.keyGeneration ≤ c'.keyGeneration ∧
        (c.sharedGeneration ≠ 0 → c'.sharedGeneration = c.sharedGeneration)) ∧
    (∀ e ∈ (World.reach cfg ops).keys.keyEnvelopes, ∃ c ∈ (World.reach cfg ops).keys.containers,
      c.id = e.containerId ∧ c.sharedGeneration ≤ e.keyGeneration ∧ e.keyGeneration ≤ c.keyGeneration) ∧
    (∀ op i row, Inserts cfg (World.reach cfg ops) op i row →
      ∃ u, (World.reach cfg ops).author op = some u ∧ Sealed ((World.reach cfg ops).next cfg op).keys u row) ∧
    ∀ op u cid, Removes cfg (World.reach cfg ops) op u cid ∨ Resets (World.reach cfg ops) op u →
      ∀ g, Seen (World.next cfg) (Held u cid g) .init ops →
      ∀ ops' op' i row, row.containerId = cid →
        Inserts cfg (((World.reach cfg ops).next cfg op).run cfg ops') op' i row → g < row.keyGeneration := by
  have hk := reach_keyInv cfg ops
  refine ⟨fun ops' c hc => ?_, fun e he => ?_, fun op i row hi => content_sealed (reach_pageInv cfg ops) hi, ?_⟩
  · obtain ⟨c', hc', ha⟩ := (run_later cfg hk ops').row c hc
    exact ⟨c', hc', ha.id, ha.gen, ha.shared⟩
  · obtain ⟨c, hc, hid, -, h1, h2⟩ := hk.range e he
    exact ⟨c, hc, hid, h1, h2⟩
  · rintro op u cid hr g hh ops' op' i row rfl hi
    have hk' := step_keyInv cfg _ op hk
    have hcut := (run_later cfg hk' ops').cutOff (cutOff_of_revoked hr hh)
    have hw : ((World.reach cfg ops).next cfg op).run cfg ops' = World.reach cfg (ops ++ op :: ops') := by
      simp [World.reach, World.run, run_append]
    rw [hw] at hi hcut
    exact hcut.lt_inserted (reach_pageInv cfg _) (reach_keyInv cfg _) hi

end KyNotes
