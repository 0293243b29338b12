import Mathlib.Data.List.Find
import KyNotes.Server.Reads
import KyNotes.Pages.Saves

/-!
# What a member can read

* `seenBy`: the store without the rows and the files of the containers that a user is not a live member of.
* `RefInv`: a linked attachment is in its page's container.
* `reads_isolated`: after every run, every read answers its caller as if nothing else were stored.
-/

namespace KyNotes.Reads

open Relational Check Transition

/-! ## A user's part of the store -/

/-- The user is a live member of the container. -/
def MemberOf (k : KeyTables) (u : UserId) (cid : ContainerId) : Prop := (liveMember k cid u).isSome

instance (k : KeyTables) (u : UserId) : DecidablePred (MemberOf k u) := fun cid =>
  inferInstanceAs (Decidable ((liveMember k cid u).isSome = true))

/-- The user, the live members of the user's containers, and whom the user has invited. -/
def Known (k : KeyTables) (u v : UserId) : Prop :=
  v = u ∨ (∃ m ∈ k.memberships, m.userId = v ∧ m.revokedAt = none ∧ MemberOf k u m.containerId) ∨
    ∃ i ∈ k.invitations, i.inviterId = u ∧ i.inviteeId = v

instance (k : KeyTables) (u : UserId) : DecidablePred (Known k u) := fun v =>
  inferInstanceAs (Decidable (v = u ∨
    (∃ m ∈ k.memberships, m.userId = v ∧ m.revokedAt = none ∧ MemberOf k u m.containerId) ∨
    ∃ i ∈ k.invitations, i.inviterId = u ∧ i.inviteeId = v))

/-- The key tables of a user's containers, with the devices of the people known to the user. -/
def keysSeenBy (k : KeyTables) (u : UserId) : KeyTables where
  users := k.users
  devices := k.devices.delete fun d => ¬Known k u d.userId
  userIdentities := k.userIdentities.delete fun i => ¬Known k u i.userId
  containers := k.containers.delete fun c => ¬MemberOf k u c.id
  memberships := k.memberships.delete fun m => ¬MemberOf k u m.containerId
  keyEnvelopes := k.keyEnvelopes.delete fun e => ¬MemberOf k u e.containerId
  invitations := k.invitations.delete fun i => i.inviterId ≠ u
  invitationEnvelopes := .empty

/-- The page is in a container of the user. -/
def PageOf (k : KeyTables) (p : PageTables) (u : UserId) (oid : ObjectId) : Prop :=
  ∃ o ∈ p.objects, o.id = oid ∧ MemberOf k u o.containerId

instance (k : KeyTables) (p : PageTables) (u : UserId) : DecidablePred (PageOf k p u) := fun oid =>
  inferInstanceAs (Decidable (∃ o ∈ p.objects, o.id = oid ∧ MemberOf k u o.containerId))

/-- The pages of a user's containers, with their change sequences. -/
def pagesSeenBy (k : KeyTables) (p : PageTables) (u : UserId) : PageTables where
  changeSeq := fun cid => if MemberOf k u cid then p.changeSeq cid else 0
  objects := p.objects.delete fun o => ¬MemberOf k u o.containerId
  objectVersions := p.objectVersions.delete fun v => ¬PageOf k p u v.objectId
  conflicts := p.conflicts.delete fun c => ¬MemberOf k u c.containerId
  comments := p.comments.delete fun c => ¬MemberOf k u c.containerId
  attachments := p.attachments.delete fun a => ¬MemberOf k u a.containerId
  attachmentRefs := p.attachmentRefs.delete fun r => ¬PageOf k p u r.objectId
  idempotencyKeys := p.idempotencyKeys.delete fun i => i.key.userId ≠ u

/-- A version, a conflict or an attachment has these bytes, or an attachment's preview has. -/
def Named (p : PageTables) (d : Digest) : Prop :=
  (∃ v ∈ p.objectVersions, v.blobDigest = d) ∨ (∃ c ∈ p.conflicts, c.blobDigest = d) ∨
    ∃ a ∈ p.attachments, a.blobDigest = d ∨ a.previewDigest = some d

instance (p : PageTables) : DecidablePred (Named p) := fun d =>
  inferInstanceAs (Decidable ((∃ v ∈ p.objectVersions, v.blobDigest = d) ∨ (∃ c ∈ p.conflicts, c.blobDigest = d) ∨
    ∃ a ∈ p.attachments, a.blobDigest = d ∨ a.previewDigest = some d))

/-- The store without what is of no concern to a user: the other containers' rows, the files that only those name, the
uploads and the links of others. -/
def seenBy (s : Store) (u : UserId) : Store where
  db :=
    { keys := keysSeenBy s.db.keys u
      pages := pagesSeenBy s.db.keys s.db.pages u
      uploadSessions := s.db.uploadSessions.delete fun x => x.userId ≠ u
      blobs := .empty
      sealedShareLinks := s.db.sealedShareLinks.delete fun l => l.ownerUserId ≠ u }
  files := fun d => if Named (pagesSeenBy s.db.keys s.db.pages u) d then s.files d else none
  parts := fun _ => none
  clock := s.clock
  next := s.next

/-! ## Lookups in it -/

section Lookups

variable {cfg : Config} {s : Store} {k : KeyTables} {p : PageTables} {u v : UserId} {cid : ContainerId}

theorem liveMember_iff {m : Membership} : liveMember k cid u = some m ↔
    m ∈ k.memberships ∧ m.containerId = cid ∧ m.userId = u ∧ m.revokedAt = none := by
  simp only [liveMember, Option.filter_eq_some_iff, Table.get_eq_some, Membership.key, Prod.mk.injEq,
    decide_eq_true_eq, and_assoc]

/-- A container of the user's has all its members. -/
theorem liveMember_seen (h : MemberOf k u cid) : liveMember (keysSeenBy k u) cid v = liveMember k cid v := by
  refine Option.ext fun m => ?_
  simp only [liveMember_iff, keysSeenBy, Table.mem_delete, not_not]
  constructor
  · rintro ⟨⟨hm, -⟩, h⟩
    exact ⟨hm, h⟩
  · rintro ⟨hm, rfl, h⟩
    exact ⟨⟨hm, h⟩, rfl, ‹_›⟩

/-- The user keeps every membership. -/
@[simp] theorem liveMember_own : liveMember (keysSeenBy k u) cid u = liveMember k cid u := by
  by_cases h : MemberOf k u cid
  · exact liveMember_seen h
  · have hnone : liveMember k cid u = none := by simpa [MemberOf] using h
    rw [hnone, Option.eq_none_iff_forall_ne_some]
    intro m hm
    obtain ⟨hm, hc, hu, hr⟩ := liveMember_iff.1 hm
    rw [keysSeenBy, Table.mem_delete] at hm
    rw [liveMember_iff.2 ⟨hm.1, hc, hu, hr⟩] at hnone
    cases hnone

/-- A user is a member of the same containers there. -/
@[simp] theorem memberOf_seen : MemberOf (keysSeenBy k u) u cid ↔ MemberOf k u cid := by
  simp only [MemberOf, liveMember_own]

@[simp] theorem liveRole_own : liveRole (keysSeenBy k u) cid u = liveRole k cid u := by
  simp only [liveRole, liveMember_own]

theorem container_seen (h : MemberOf k u cid) : (keysSeenBy k u).containers.get cid = k.containers.get cid := by
  refine Table.get_delete_of_not fun c _ hid => ?_
  rw [hid]
  exact not_not.2 h

theorem liveContainer_seen (h : MemberOf k u cid) : liveContainer (keysSeenBy k u) cid = liveContainer k cid := by
  rw [liveContainer, liveContainer, container_seen h]

theorem object_seen (oid : ObjectId) : (pagesSeenBy k p u).objects.get oid =
    (p.objects.get oid).filter fun o => MemberOf k u o.containerId := by
  simp only [pagesSeenBy, Table.get_delete, not_not]

theorem version_seen {oid : ObjectId} (h : PageOf k p u oid) (n : Nat) :
    (pagesSeenBy k p u).objectVersions.get (oid, n) = p.objectVersions.get (oid, n) := by
  refine Table.get_delete_of_not fun v _ hkey => ?_
  rw [ObjectVersion.key, Prod.mk.injEq] at hkey
  rw [hkey.1]
  exact not_not.2 h

theorem attachment_seen (id : AttachmentId) : (pagesSeenBy k p u).attachments.get id =
    (p.attachments.get id).filter fun a => MemberOf k u a.containerId := by
  simp only [pagesSeenBy, Table.get_delete, not_not]

/-- A file that the user's part of the pages names is in the user's part of the store. -/
theorem openBlob_seen {d : Digest} (h : Named (pagesSeenBy s.db.keys s.db.pages u) d) :
    Shares.openBlob cfg (seenBy s u).files d = Shares.openBlob cfg s.files d := by
  simp only [Shares.openBlob, seenBy, if_pos h]

theorem serveBlob_seen {d : Digest} (h : Named (pagesSeenBy s.db.keys s.db.pages u) d) :
    serveBlob cfg (seenBy s u) d = serveBlob cfg s d := by
  rw [serveBlob, serveBlob, openBlob_seen h]

/-! ## Routes -/

theorem containers_seen (c : Caller) : getContainers (seenBy s c.userId) c = getContainers s c := by
  simp only [getContainers, seenBy, liveMember_own]
  rw [keysSeenBy, Table.filter_delete]
  · refine congrArg _ (List.map_congr_left fun x hx => ?_)
    have hm : MemberOf s.db.keys c.userId x.id := by
      have := (List.mem_filter.1 hx).2
      simp only [decide_eq_true_eq] at this
      exact this.1
    simp only [pagesSeenBy, if_pos hm]
  · intro x _ hx
    simp only [decide_eq_true_eq] at hx
    exact not_not.2 hx.1

theorem members_seen : getMembers (seenBy s u) cid u = getMembers s cid u := by
  simp only [getMembers, seenBy, liveRole_own]
  cases hr : liveRole s.db.keys cid u with
  | none => rfl
  | some role =>
    have hm : MemberOf s.db.keys u cid := by
      rw [liveRole, Option.map_eq_some_iff] at hr
      obtain ⟨m, hm, -⟩ := hr
      simp [MemberOf, hm]
    have hrows : ((keysSeenBy s.db.keys u).memberships.rows.filter fun m =>
        m.containerId = cid ∧ m.revokedAt = none ∧ (s.db.keys.users.get m.userId).isSome) =
          s.db.keys.memberships.rows.filter fun m =>
            m.containerId = cid ∧ m.revokedAt = none ∧ (s.db.keys.users.get m.userId).isSome := by
      refine Table.filter_delete fun m _ hmem => ?_
      rw [(of_decide_eq_true hmem).1]
      exact not_not.2 hm
    have husers : (keysSeenBy s.db.keys u).users = s.db.keys.users := rfl
    simp only [husers, hrows]

theorem envelopes_seen (c : Caller) : getEnvelopes (seenBy s c.userId) c cid = getEnvelopes s c cid := by
  simp only [getEnvelopes, seenBy, liveMember_own]
  cases hm : liveMember s.db.keys cid c.userId with
  | none => rfl
  | some m =>
    dsimp only
    rw [keysSeenBy, Table.filter_delete]
    intro e _ he
    simp only [decide_eq_true_eq] at he
    rw [he.1]
    exact not_not.2 (by simp [MemberOf, hm])

theorem feedEntries_seen (h : MemberOf k u cid) : feedEntries (pagesSeenBy k p u) cid = feedEntries p cid := by
  simp only [feedEntries, pagesSeenBy]
  rw [Table.filter_delete, Table.filter_delete, Table.filter_delete, Table.filter_delete]
  all_goals
    intro r _ hr
    rw [of_decide_eq_true hr]
    exact not_not.2 h

theorem changes_seen (c : Caller) (since limit : Int) :
    getChanges (seenBy s c.userId) c cid since limit = getChanges s c cid since limit := by
  simp only [getChanges, seenBy, liveMember_own]
  cases hm : liveMember s.db.keys cid c.userId with
  | none => rfl
  | some m =>
    have h : MemberOf s.db.keys c.userId cid := by simp [MemberOf, hm]
    have hpage : changes (pagesSeenBy s.db.keys s.db.pages c.userId) cid since limit =
        changes s.db.pages cid since limit := by
      unfold changes entriesAfter
      rw [feedEntries_seen h]
    dsimp only
    rw [hpage]

/-- A page of the user's is joined with the same rows; another page is joined with none. -/
theorem selectVersion_seen (oid : ObjectId) (arg : VersionArg) :
    selectVersion (seenBy s u) u oid arg = selectVersion s u oid arg := by
  simp only [selectVersion, seenBy, object_seen, liveMember_own]
  cases ho : s.db.pages.objects.get oid with
  | none => rfl
  | some o =>
    by_cases hm : MemberOf s.db.keys u o.containerId
    · have hpage : PageOf s.db.keys s.db.pages u o.id := ⟨o, Table.get_mem ho, rfl, hm⟩
      rw [Option.filter_some_pos (by simpa using hm)]
      simp only [Option.bind_eq_bind, Option.bind_some, container_seen hm, version_seen hpage]
    · have hnone : liveMember s.db.keys o.containerId u = none := by simpa [MemberOf] using hm
      rw [Option.filter_some_neg (by simpa using hm)]
      simp [hnone]

theorem selectVersion_some {oid : ObjectId} {arg : VersionArg} {o : Object} {x : ObjectVersion}
    (h : selectVersion s u oid arg = some (o, x)) :
    o ∈ s.db.pages.objects ∧ o.id = oid ∧ MemberOf s.db.keys u o.containerId ∧ x ∈ s.db.pages.objectVersions ∧
      x.objectId = o.id ∧ arg.version o.currentVersion = some x.version := by
  simp only [selectVersion, Option.bind_eq_bind, Option.bind_eq_some_iff, Option.pure_def, Option.some.injEq,
    Prod.mk.injEq] at h
  obtain ⟨o', ho, c, -, m, hm, n, hn, x', hx, rfl, rfl⟩ := h
  have hkey := Table.get_key hx
  rw [ObjectVersion.key, Prod.mk.injEq] at hkey
  exact ⟨Table.get_mem ho, Table.get_key ho, by simp [MemberOf, hm], Table.get_mem hx, hkey.1, by rw [hn, hkey.2]⟩

theorem version_named {x : ObjectVersion} (hx : x ∈ p.objectVersions) (h : PageOf k p u x.objectId) :
    Named (pagesSeenBy k p u) x.blobDigest :=
  Or.inl ⟨x, Table.mem_delete.2 ⟨hx, not_not.2 h⟩, rfl⟩

theorem getObject_seen (c : Caller) (oid : ObjectId) (arg : VersionArg) :
    getObject cfg (seenBy s c.userId) c oid arg = getObject cfg s c oid arg := by
  simp only [getObject, selectVersion_seen]
  cases hv : selectVersion s c.userId oid arg with
  | none => rfl
  | some ox =>
    obtain ⟨o, x⟩ := ox
    obtain ⟨ho, -, hm, hx, hid, -⟩ := selectVersion_some hv
    have hnamed := version_named hx (k := s.db.keys) (u := c.userId) ⟨o, ho, hid.symm, hm⟩
    have hseq : (seenBy s c.userId).db.pages.changeSeq o.containerId = s.db.pages.changeSeq o.containerId := by
      simp only [seenBy, pagesSeenBy, if_pos hm]
    simp only [openBlob_seen hnamed, hseq]

theorem conflicts_seen (oid : ObjectId) : getConflicts (seenBy s u) u oid = getConflicts s u oid := by
  simp only [getConflicts, seenBy, liveMember_own]
  rw [pagesSeenBy, Table.filter_delete]
  intro c _ hc
  simp only [decide_eq_true_eq] at hc
  exact not_not.2 hc.1

theorem conflict_seen (id : ConflictId) : getConflict cfg (seenBy s u) u id = getConflict cfg s u id := by
  have hrow : ((seenBy s u).db.pages.conflicts.get id).filter
      (fun c => (liveMember (seenBy s u).db.keys c.containerId u).isSome) =
      (s.db.pages.conflicts.get id).filter fun c => (liveMember s.db.keys c.containerId u).isSome := by
    simp only [seenBy, liveMember_own, pagesSeenBy, Table.get_delete, not_not, Option.filter_filter]
    refine congrArg (fun f => Option.filter f _) (funext fun c => ?_)
    cases h : (liveMember s.db.keys c.containerId u).isSome <;> simp [MemberOf, h]
  rw [getConflict, getConflict, hrow]
  cases hc : (s.db.pages.conflicts.get id).filter fun c => (liveMember s.db.keys c.containerId u).isSome with
  | none => rfl
  | some c =>
    obtain ⟨hget, hm⟩ := Option.filter_eq_some_iff.1 hc
    exact serveBlob_seen (.inr (.inl ⟨c, Table.mem_delete.2 ⟨Table.get_mem hget, not_not.2 hm⟩, rfl⟩))

theorem comments_seen (oid : ObjectId) : getComments (seenBy s u) u oid = getComments s u oid := by
  simp only [getComments, seenBy, liveMember_own]
  rw [pagesSeenBy, Table.filter_delete]
  · rfl
  · intro c _ hc
    simp only [decide_eq_true_eq] at hc
    exact not_not.2 hc.1

theorem memberAttachment_seen (id : AttachmentId) : memberAttachment (seenBy s u) u id = memberAttachment s u id := by
  simp only [memberAttachment, seenBy, attachment_seen, liveMember_own, Option.filter_filter]
  refine congrArg (fun f => Option.filter f _) (funext fun a => ?_)
  cases h : (liveMember s.db.keys a.containerId u).isSome <;> simp [MemberOf, h]

theorem memberAttachment_named {id : AttachmentId} {a : Attachment} (h : memberAttachment s u id = some a) {d : Digest}
    (hd : a.blobDigest = d ∨ a.previewDigest = some d) : Named (pagesSeenBy s.db.keys s.db.pages u) d := by
  obtain ⟨hget, hm⟩ := Option.filter_eq_some_iff.1 h
  exact .inr (.inr ⟨a, Table.mem_delete.2 ⟨Table.get_mem hget, not_not.2 hm⟩, hd⟩)

theorem getAttachment_seen (id : AttachmentId) : getAttachment cfg (seenBy s u) u id = getAttachment cfg s u id := by
  rw [getAttachment, getAttachment, memberAttachment_seen]
  cases ha : memberAttachment s u id with
  | none => rfl
  | some a => exact serveBlob_seen (memberAttachment_named ha (.inl rfl))

theorem getPreview_seen (id : AttachmentId) : getPreview cfg (seenBy s u) u id = getPreview cfg s u id := by
  rw [getPreview, getPreview, memberAttachment_seen]
  cases hd : (memberAttachment s u id).bind Attachment.previewDigest with
  | none => rfl
  | some d =>
    obtain ⟨a, ha, hp⟩ := Option.bind_eq_some_iff.1 hd
    exact serveBlob_seen (memberAttachment_named ha (.inr hp))

theorem getUpload_seen (id : UploadId) : getUpload (seenBy s u) u id = getUpload s u id := by
  have hrow : ((seenBy s u).db.uploadSessions.get id).filter (fun x => x.userId = u) =
      (s.db.uploadSessions.get id).filter fun x => x.userId = u := by
    simp only [seenBy, Table.get_delete, ne_eq, not_not, Option.filter_filter, Bool.and_self]
  rw [getUpload, getUpload, hrow]

/-! ### People -/

theorem acquainted_seen : Acquainted (keysSeenBy k u) u v ↔ Acquainted k u v := by
  constructor
  · rintro ⟨a, ha, hu, hr, hc, b, hb, hbc⟩
    have hm := (Table.mem_delete.1 ha).2
    rw [not_not] at hm
    rw [liveContainer_seen hm] at hc
    exact ⟨a, (Table.mem_delete.1 ha).1, hu, hr, hc, b, (Table.mem_delete.1 hb).1, hbc⟩
  · rintro ⟨a, ha, rfl, hr, hc, b, hb, hbc, hv⟩
    have hm : MemberOf k a.userId a.containerId := by
      have := liveMember_iff.2 ⟨ha, rfl, rfl, hr⟩
      simp [MemberOf, this]
    refine ⟨a, Table.mem_delete.2 ⟨ha, not_not.2 hm⟩, rfl, hr, by rwa [liveContainer_seen hm], b,
      Table.mem_delete.2 ⟨hb, ?_⟩, hbc, hv⟩
    rw [hbc]
    exact not_not.2 hm

theorem invitedBy_seen {now : Stamp} : InvitedBy (keysSeenBy k u) now u v ↔ InvitedBy k now u v := by
  have hmember : ∀ {i : Invitation} {role : Role}, role ∈ liveRole k i.containerId u → MemberOf k u i.containerId := by
    intro i role hr
    rw [liveRole, Option.mem_def, Option.map_eq_some_iff] at hr
    obtain ⟨m, hm, -⟩ := hr
    simp [MemberOf, hm]
  constructor
  · rintro ⟨i, hi, h1, h2, h3, h4, ⟨c, hc, hck⟩, role, hr, hs⟩
    rw [liveRole_own] at hr
    exact ⟨i, (Table.mem_delete.1 hi).1, h1, h2, h3, h4, ⟨c, (Table.mem_delete.1 hc).1, hck⟩, role, hr, hs⟩
  · rintro ⟨i, hi, h1, h2, h3, h4, ⟨c, hc, hid, hck⟩, role, hr, hs⟩
    refine ⟨i, Table.mem_delete.2 ⟨hi, not_not.2 h2⟩, h1, h2, h3, h4, ⟨c, Table.mem_delete.2 ⟨hc, ?_⟩, hid, hck⟩, role,
      by rwa [liveRole_own], hs⟩
    rw [hid]
    exact not_not.2 (hmember hr)

/-- Whoever's identity is shown is known. -/
theorem known_of_shown {now : Stamp} (h : v = u ∨ Acquainted k u v ∨ InvitedBy k now u v) : Known k u v := by
  obtain h | ⟨a, ha, hu, hr, -, b, hb, hbc, hv, hbr⟩ | ⟨i, hi, hv, hu, -⟩ := h
  · exact .inl h
  · refine .inr (.inl ⟨b, hb, hv, hbr, ?_⟩)
    rw [hbc]
    have := liveMember_iff.2 ⟨ha, rfl, hu, hr⟩
    simp [MemberOf, this]
  · exact .inr (.inr ⟨i, hi, hu, hv⟩)

theorem getIdentity_seen : getIdentity (seenBy s u) u v = getIdentity s u v := by
  have hkeys : (seenBy s u).db.keys = keysSeenBy s.db.keys u := rfl
  have hdevices : (keysSeenBy s.db.keys u).devices.rows = s.db.keys.devices.rows.filter fun d =>
    ¬¬Known s.db.keys u d.userId := rfl
  have husers : (keysSeenBy s.db.keys u).users = s.db.keys.users := rfl
  have hnow : (seenBy s u).now = s.now := rfl
  unfold getIdentity
  simp only [hkeys, hdevices, husers, hnow, acquainted_seen, invitedBy_seen, List.find?_filter]
  rw [List.find?_congr]
  intro d _
  refine decide_eq_decide.2 ⟨fun ⟨_, h⟩ => of_decide_eq_true h, fun h => ⟨?_, decide_eq_true h⟩⟩
  obtain ⟨⟨rfl, -⟩, -, hshown⟩ := h
  exact decide_eq_true (not_not.2 (known_of_shown hshown))

end Lookups

/-! ## Linked attachments -/

/-- The attachment is in the container. -/
def AttachmentIn (p : PageTables) (id : AttachmentId) (cid : ContainerId) : Prop :=
  ∃ a ∈ p.attachments, a.id = id ∧ a.containerId = cid

/-- A linked attachment is in its page's container. -/
def RefInv (p : PageTables) : Prop :=
  ∀ r ∈ p.attachmentRefs, ∃ cid, AttachmentIn p r.attachmentId cid ∧ PageIn p r.objectId cid

section Links

variable {cfg : Config} {w : World} {op : Op} {s' : Store} {p p' : PageTables}

theorem attachmentIn_update {q : Attachment → Prop} [DecidablePred q] {f : Attachment → Attachment} {id : AttachmentId}
    {cid : ContainerId} (ht : p'.attachments = p.attachments.update q f) (hid : ∀ a, (f a).id = a.id)
    (hc : ∀ a, (f a).containerId = a.containerId) (h : AttachmentIn p id cid) : AttachmentIn p' id cid := by
  obtain ⟨a, ha, rfl, rfl⟩ := h
  by_cases hq : q a
  · exact ⟨f a, ht ▸ Table.mem_update_of ha hq hid, hid a, hc a⟩
  · exact ⟨a, ht ▸ Table.mem_update_of_not ha hq, rfl, rfl⟩

/-- Links that were there, to attachments and pages that stay where they are. -/
theorem RefInv.mono (h : RefInv p)
    (hr : ∀ r ∈ p'.attachmentRefs, r ∈ p.attachmentRefs ∧ ∀ cid, AttachmentIn p r.attachmentId cid →
      AttachmentIn p' r.attachmentId cid) (hp : ∀ oid cid, PageIn p oid cid → PageIn p' oid cid) : RefInv p' := by
  intro r hmem
  obtain ⟨hold, ha⟩ := hr r hmem
  obtain ⟨cid, hat, hpage⟩ := h r hold
  exact ⟨cid, ha cid hat, hp _ cid hpage⟩

/-- A link is made between a page and an attachment of one container. -/
theorem linkTx_together {cid : ContainerId} {oid : ObjectId} {att : AttachmentId} {version : Int}
    (h : linkTx p cid oid att version = .ok p') :
    (∃ x, AttachmentIn p att x ∧ PageIn p oid x) ∧
      p' = { p with attachmentRefs := p.attachmentRefs.insertOrIgnore ⟨att, oid, version⟩ } := by
  simp only [linkTx, bind_ok, fetch_ok, pure_ok] at h
  obtain ⟨a, ha, o, ho, rfl⟩ := h
  obtain ⟨hget, -⟩ := Option.filter_eq_some_iff.1 ha
  obtain ⟨hlive, hc⟩ := Option.filter_eq_some_iff.1 ho
  obtain ⟨hobj, -⟩ := Option.filter_eq_some_iff.1 hlive
  exact ⟨⟨a.containerId, ⟨a, Table.get_mem hget, Table.get_key hget, rfl⟩, o, Table.get_mem hobj, Table.get_key hobj,
    of_decide_eq_true hc⟩, rfl⟩

theorem change_refInv (h : Change cfg w op s') (hi : RefInv w.pages) : RefInv s'.db.pages := by
  have hpage : ∀ oid cid, PageIn w.pages oid cid → PageIn s'.db.pages oid cid := fun _ _ => h.pages.pageIn
  cases h
  case deleteContainer hx =>
    cases deleteContainer_ok hx
    exact hi.mono (fun r hr => ⟨(Table.mem_delete.1 hr).1, fun _ => attachmentIn_update rfl (fun _ => rfl) fun _ => rfl⟩)
      hpage
  case deleteObject =>
    exact hi.mono (fun r hr => ⟨(Table.mem_delete.1 hr).1, fun _ => attachmentIn_update rfl (fun _ => rfl) fun _ => rfl⟩)
      hpage
  case gcTombstone =>
    exact hi.mono (fun r hr => ⟨(Table.mem_delete.1 hr).1, fun _ => attachmentIn_update rfl (fun _ => rfl) fun _ => rfl⟩)
      hpage
  case gcSweep =>
    -- an attachment that goes takes its links along
    refine hi.mono (fun r hr => ?_) hpage
    obtain ⟨hr, hkept⟩ := Table.mem_delete.1 hr
    refine ⟨hr, ?_⟩
    rintro _ ⟨a, ha, hid, rfl⟩
    exact ⟨a, Table.mem_delete.2 ⟨ha, fun hgone => hkept ⟨a, ha, hid, hgone⟩⟩, hid, rfl⟩
  case unlink => exact hi.mono (fun r hr => ⟨(Table.mem_delete.1 hr).1, fun _ ha => ha⟩) hpage
  case link hx =>
    obtain ⟨⟨cid, ha, ho⟩, rfl⟩ := linkTx_together hx
    intro r hr
    obtain hr | ⟨rfl, -⟩ := Table.mem_insertOrIgnore.1 hr
    · exact hi r hr
    · exact ⟨cid, ha, ho⟩
  case finalize hx =>
    obtain ⟨-, ⟨-, hp, -⟩ | ⟨-, -, -, att, -, hp⟩⟩ := finalizeTx_ok hx
    · rw [hp]; exact hi
    · obtain ⟨a, -, -, hp⟩ | ⟨-, -, t, ht, hp⟩ := placeAttachment_ok hp
      · rw [hp] at hpage ⊢
        exact hi.mono (fun r hr => ⟨hr, fun _ => attachmentIn_update rfl (fun _ => rfl) fun _ => rfl⟩) hpage
      · rw [hp] at hpage ⊢
        refine hi.mono (fun r hr => ⟨hr, ?_⟩) hpage
        rintro _ ⟨a, ha, hid, rfl⟩
        exact ⟨a, (Table.mem_insert ht).2 (.inl ha), hid, rfl⟩
  case createObject hx =>
    obtain ⟨-, t, -, rfl⟩ := createObject_ok hx
    exact hi.mono (fun r hr => ⟨hr, fun _ ha => ha⟩) hpage
  case put hx =>
    obtain ⟨o, blobs, pages, -, -, rfl, ⟨-, -, t, i, -, -, rfl⟩ | ⟨-, -, t, i, -, -, rfl⟩⟩ := putTx_ok hx
    · exact hi.mono (fun r hr => ⟨hr, fun _ ha => ha⟩) hpage
    · exact hi.mono (fun r hr => ⟨hr, fun _ ha => ha⟩) hpage
  case comment hx => obtain ⟨-, -, -, -, t, -, rfl⟩ := commentTx_ok hx; exact hi
  case resolveConflict hx => obtain ⟨c, -, -, rfl⟩ := resolveConflict_ok hx; exact hi
  case deleteComment hx => obtain rfl | ⟨c, -, -, rfl⟩ := deleteComment_ok hx <;> exact hi
  case startUpload hx => obtain ⟨-, t, -, rfl⟩ := startTx_ok hx; exact hi
  all_goals exact hi

theorem reach_refInv (cfg : Config) (ops : List Op) : RefInv (World.reach cfg ops).pages :=
  run_inv (P := fun w => RefInv w.pages) (fun w op hi => change_refInv (step_change cfg w op) hi) ops
    fun _ h => absurd h (Table.not_mem_empty _)

end Links

/-! ## Every read -/

section Reads

variable {cfg : Config} {s : Store}

/-- The attachments of a page, which are in the page's container. -/
theorem attachments_seen (hi : RefInv s.db.pages) {u : UserId} (oid : ObjectId) :
    getAttachments (seenBy s u) u oid = getAttachments s u oid := by
  simp only [getAttachments, seenBy, object_seen, attachment_seen, liveMember_own]
  cases ho : s.db.pages.objects.get oid with
  | none => rfl
  | some o =>
    by_cases hm : MemberOf s.db.keys u o.containerId
    · have hpage : PageOf s.db.keys s.db.pages u oid := ⟨o, Table.get_mem ho, Table.get_key ho, hm⟩
      have hrefs : (pagesSeenBy s.db.keys s.db.pages u).attachmentRefs.rows.filter (fun r => r.objectId = oid) =
          s.db.pages.attachmentRefs.rows.filter fun r => r.objectId = oid := by
        refine Table.filter_delete fun r _ hr => ?_
        rw [of_decide_eq_true hr]
        exact not_not.2 hpage
      rw [Option.filter_some_pos (by simpa using hm), Option.filter_some_pos (by simpa [MemberOf] using hm)]
      simp only [hrefs]
      refine congrArg _ (List.filterMap_congr fun r hr => ?_)
      obtain ⟨hr, hid⟩ := List.mem_filter.1 hr
      have ha : (s.db.pages.attachments.get r.attachmentId).filter (fun a => MemberOf s.db.keys u a.containerId) =
          s.db.pages.attachments.get r.attachmentId := by
        obtain ⟨cid, ⟨a, ha, hatt, hac⟩, o', ho', hoid, hoc⟩ := hi r hr
        have hsame : o' = o :=
          Table.eq_of_key ho' (Table.get_mem ho) (hoid.trans ((of_decide_eq_true hid).trans (Table.get_key ho).symm))
        have hcid : a.containerId = o.containerId := by rw [hac, ← hoc, hsame]
        rw [← hatt, Table.get_of_mem ha]
        exact Option.filter_some_pos (by simpa [hcid] using hm)
      rw [ha]
    · have hnone : liveMember s.db.keys o.containerId u = none := by simpa [MemberOf] using hm
      rw [Option.filter_some_neg (by simpa using hm), Option.filter_some_neg (by simp [hnone])]
      rfl

theorem serve_seen (hi : RefInv s.db.pages) (c : Caller) (q : Question) :
    serve cfg (seenBy s c.userId) c q = serve cfg s c q := by
  have hsession : ∀ f g : UserId → Reading, f c.userId = g c.userId → requireSession c f = requireSession c g := by
    intro f g h
    cases c with
    | session u => exact h
    | device => rfl
  cases q with
  | containers => exact containers_seen c
  | members cid => exact hsession _ _ members_seen
  | envelopes cid => exact envelopes_seen c
  | changes cid since limit => exact changes_seen c since limit
  | object oid arg => exact getObject_seen c oid arg
  | conflicts oid => exact conflicts_seen oid
  | conflict id => exact conflict_seen id
  | comments oid => exact hsession _ _ (comments_seen oid)
  | attachments oid => exact hsession _ _ (attachments_seen hi oid)
  | attachment id => exact hsession _ _ (getAttachment_seen id)
  | preview id => exact hsession _ _ (getPreview_seen id)
  | upload id => exact hsession _ _ (getUpload_seen id)
  | identity target => exact hsession _ _ getIdentity_seen

/-- **Reads stay within membership.** After every interleaving of requests, key operations, garbage collection passes
and crashes, every read of every route, by a session or a device, is answered as if the store held nothing but the
containers that the caller is a live member of. -/
theorem reads_isolated (cfg : Config) (ops : List Op) (c : Caller) (q : Question) :
    serve cfg (World.reach cfg ops).store c q = serve cfg (seenBy (World.reach cfg ops).store c.userId) c q :=
  (serve_seen (reach_refInv cfg ops) c q).symm

end Reads

end KyNotes.Reads
