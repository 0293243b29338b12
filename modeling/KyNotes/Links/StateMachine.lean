import KyNotes.Links.Relay

/-!
# What the relay does to a link request

* `Effect`: everything that a step can do to the rows of `link_requests`, with what it commits. `serve_effect` is the one
  place where the steps are opened.
* `RowOk`, `LogOk`: what holds of every row, and of the rows together with everything that has been committed.
* `relay_state_machine`: over every run, a row is claimed, then revealed, then approved, each once and by its own party; it
  ends with its collection, with a key that does not match, or with one of its sessions; and a user has at most three.
-/

namespace KyNotes.Links

open Relational Check Transition

variable {sha256 : Bytes → Bytes} {r r' : Relay} {s : Session} {id : RequestId}

/-! ## Accepted transactions -/

theorem liveSessionTx_ok {out : Option Stamp × Bytes} (h : liveSessionTx r s = .ok out) :
    ∃ x ∈ r.sessions, x.id = s.id ∧ x.userId = s.userId := by
  unfold liveSessionTx at h
  simp only [bind_ok, fetch_ok, require_ok] at h
  obtain ⟨x, hx, user, -, -, ⟨hu, -⟩, -⟩ := h
  exact ⟨x, Table.get_mem hx, Table.get_key hx, hu⟩

theorem sessionLive_ok (h : sessionLive r s = .ok ()) : ∃ x ∈ r.sessions, x.id = s.id ∧ x.userId = s.userId := by
  unfold sessionLive at h
  obtain ⟨out, ho, -⟩ := bind_ok.mp h
  exact liveSessionTx_ok ho

theorem partyLive_ok (h : partyLive r s = .ok ()) : ∃ x ∈ r.sessions, x.id = s.id ∧ x.userId = s.userId := by
  unfold partyLive at h
  obtain ⟨_, ho, -⟩ := bind_ok.mp h
  exact sessionLive_ok ho

theorem createTx_ok {commitment : Bytes} {links : Table LinkRow.id} (h : createTx r s commitment = .ok links) :
    (∃ x ∈ r.sessions, x.id = s.id ∧ x.userId = s.userId) ∧
      ((r.links.delete fun l => l.newcomerSessionId = s.id).count fun l => l.userId = s.userId ∧ r.now < l.expiresAt) <
        linkMaxPending ∧
      (r.links.delete fun l => l.newcomerSessionId = s.id).insert ⟨r.nextId, s.userId, s.id, commitment, none, none, none,
        none, r.now, format (r.clock + linkTTL)⟩ = some links := by
  unfold createTx at h
  simp only [bind_ok, fetch_ok, require_ok] at h
  obtain ⟨⟨⟩, hp, -, -, -, hc, hi⟩ := h
  exact ⟨partyLive_ok hp, hc, hi⟩

theorem claimTx_ok {key : Bytes} {links : Table LinkRow.id} (h : claimTx r s id key = .ok links) :
    (∃ x ∈ r.sessions, x.id = s.id ∧ x.userId = s.userId) ∧ (∃ l ∈ r.links, r.Claimable s id l) ∧
      links = r.links.update (r.Claimable s id) fun l =>
        { l with approverSessionId := some s.id, approverKey := some key } := by
  unfold claimTx at h
  simp only [bind_ok, require_ok, pure_ok] at h
  obtain ⟨⟨⟩, hp, -, hl, rfl⟩ := h
  exact ⟨partyLive_ok hp, hl, rfl⟩

/-- The row that a `WHERE` with an identifier finds. -/
theorem get_filter {p : LinkRow → Prop} [DecidablePred p] {l : LinkRow}
    (h : (r.links.get id).filter (fun l => p l) = some l) : l ∈ r.links ∧ l.id = id ∧ p l := by
  obtain ⟨hg, hp⟩ := Option.filter_eq_some_iff.mp h
  exact ⟨Table.get_mem hg, Table.get_key hg, of_decide_eq_true hp⟩

theorem revealTx_ok {key : Bytes} {links : Table LinkRow.id} {matching : Bool}
    (h : revealTx sha256 r s id key = .ok (links, matching)) :
    ∃ l ∈ r.links, r.Revealable s id l ∧
      (matching = false ∧ sha256 (linkCommitLabel ++ key) ≠ l.commitment ∧ links = r.links.delete (fun l => l.id = id) ∨
        matching = true ∧ sha256 (linkCommitLabel ++ key) = l.commitment ∧
          links = r.links.update (fun l => l.id = id ∧ l.newcomerKey = none) fun l => { l with newcomerKey := some key }) := by
  unfold revealTx at h
  simp only [bind_ok, fetch_ok] at h
  obtain ⟨⟨⟩, hp, l, hl, h⟩ := h
  obtain ⟨hm, -, hr⟩ := get_filter hl
  refine ⟨l, hm, hr, ?_⟩
  split at h
  · rename_i hne
    simp only [pure_ok, Prod.mk.injEq] at h
    exact Or.inl ⟨h.2.symm, hne, h.1.symm⟩
  · rename_i heq
    simp only [bind_ok, require_ok, pure_ok, Prod.mk.injEq] at h
    obtain ⟨-, -, hlinks, htrue⟩ := h
    exact Or.inr ⟨htrue.symm, not_not.mp heq, hlinks.symm⟩

theorem cancelTx_ok {links : Table LinkRow.id} (h : cancelTx r s id = .ok links) :
    (∃ l ∈ r.links, l.id = id ∧ l.userId = s.userId) ∧
      links = r.links.delete fun l => l.id = id ∧ l.userId = s.userId := by
  unfold cancelTx at h
  simp only [bind_ok, require_ok, pure_ok] at h
  obtain ⟨-, -, -, hl, rfl⟩ := h
  exact ⟨hl, rfl⟩

theorem approveTx_ok {bundle : Bytes} {links : Table LinkRow.id} (h : approveTx r s id bundle = .ok links) :
    (∃ l ∈ r.links, r.Approvable s id l) ∧
      links = r.links.update (r.Approvable s id) fun l => { l with bundle := some bundle } := by
  unfold approveTx at h
  simp only [bind_ok, require_ok, pure_ok] at h
  obtain ⟨-, -, -, hl, rfl⟩ := h
  exact ⟨hl, rfl⟩

theorem collectTx_ok {links : Table LinkRow.id} {bundle : Bytes} (h : collectTx r s id = .ok (links, bundle)) :
    ∃ l ∈ r.links, r.Collectable s id l ∧ l.bundle = some bundle ∧
      links = r.links.delete fun l => r.Collectable s id l ∧ l.bundle ≠ none := by
  unfold collectTx at h
  simp only [bind_ok, fetch_ok, pure_ok, Prod.mk.injEq] at h
  obtain ⟨⟨⟩, -, l, hl, b, hb, hlinks, rfl⟩ := h
  obtain ⟨hm, -, hc⟩ := get_filter hl
  exact ⟨l, hm, hc, hb, hlinks.symm⟩

/-! ## What a step does -/

/-- The three writes to a row. -/
inductive Write (sha256 : Bytes → Bytes) (r : Relay) (s : Session) (l : LinkRow) : LinkEvent → LinkRow → Prop
  | claim (key : Bytes) (hw : r.Claimable s l.id l) (hs : ∃ x ∈ r.sessions, x.id = s.id ∧ x.userId = s.userId) :
    Write sha256 r s l .claim { l with approverSessionId := some s.id, approverKey := some key }
  | reveal (key : Bytes) (hw : r.Revealable s l.id l) (hc : sha256 (linkCommitLabel ++ key) = l.commitment) :
    Write sha256 r s l .reveal { l with newcomerKey := some key }
  | approve (bundle : Bytes) (hw : r.Approvable s l.id l) : Write sha256 r s l .approve { l with bundle := some bundle }

/-- What a step does to the rows, and what it commits. -/
inductive Effect (sha256 : Bytes → Bytes) (r r' : Relay) : List Done → Prop
  /-- Rows may go. -/
  | quiet (rows : ∀ l ∈ r'.links, l ∈ r.links) : Effect sha256 r r' []
  | request (s : Session) (commitment : Bytes) (hs : ∃ x ∈ r.sessions, x.id = s.id ∧ x.userId = s.userId)
    (hn : r.nextId < r'.nextId) (rows : ∀ l ∈ r'.links, l ∈ r.links ∨ l = ⟨r.nextId, s.userId, s.id, commitment, none, none, none, none, r.now,
      format (r.clock + linkTTL)⟩) : Effect sha256 r r' [⟨.request, s.id, r.nextId, none⟩]
  | write (s : Session) (event : LinkEvent) (l l' : LinkRow) (hl : l ∈ r.links) (hw : Write sha256 r s l event l')
    (rows : ∀ x ∈ r'.links, x ∈ r.links ∧ x.id ≠ l.id ∨ x = l') : Effect sha256 r r' [⟨event, s.id, l.id, none⟩]
  /-- A request ends, by a key that does not match or by a cancel. -/
  | ends (s : Session) (event : LinkEvent) (id : RequestId) (he : event = .refuse ∨ event = .cancel)
    (hid : ∃ l ∈ r.links, l.id = id) (rows : ∀ l ∈ r'.links, l ∈ r.links ∧ l.id ≠ id) :
    Effect sha256 r r' [⟨event, s.id, id, none⟩]
  | collect (s : Session) (l : LinkRow) (bundle : Bytes) (hl : l ∈ r.links) (hw : r.Collectable s l.id l)
    (hb : l.bundle = some bundle) (rows : ∀ x ∈ r'.links, x ∈ r.links ∧ x.id ≠ l.id) :
    Effect sha256 r r' [⟨.collect, s.id, l.id, some bundle⟩]

/-- The rows after an update that hits the row of one identifier. -/
theorem rows_of_update {links : Table LinkRow.id} {p : LinkRow → Prop} [DecidablePred p] {f : LinkRow → LinkRow} {l : LinkRow}
    (hl : l ∈ links) (hp : p l) (hid : ∀ x, p x → x.id = l.id) (hf : ∀ x, (f x).id = x.id := by intro _; rfl) :
    ∀ x ∈ links.update p f, x ∈ links ∧ x.id ≠ l.id ∨ x = f l := by
  intro x hx
  rcases Table.mem_update_cases hx hf with ⟨hx, hn⟩ | ⟨y, hy, hpy, rfl⟩
  · refine Or.inl ⟨hx, fun he => hn ?_⟩
    rwa [Table.eq_of_key hx hl he]
  · rw [Table.eq_of_key hy hl (hid y hpy)]
    exact Or.inr rfl

/-- The rows after a deletion that hits a row. -/
theorem rows_of_delete {links : Table LinkRow.id} {p : LinkRow → Prop} [DecidablePred p] {l : LinkRow} (hl : l ∈ links)
    (hp : p l) : ∀ x ∈ links.delete p, x ∈ links ∧ x.id ≠ l.id := by
  intro x hx
  obtain ⟨hx, hn⟩ := Table.mem_delete.mp hx
  refine ⟨hx, fun he => hn ?_⟩
  rwa [Table.eq_of_key hx hl he]

/-- The effect of every step. -/
theorem serve_effect (sha256 : Bytes → Bytes) (r : Relay) (op : RelayOp) :
    Effect sha256 r (r.next sha256 op) (r.done sha256 op) := by
  have same : ∀ {q : Relay}, q.links = r.links → Effect sha256 r q [] := fun h => .quiet fun l hl => by rwa [h] at hl
  have fewer : ∀ {q : Relay} {p : LinkRow → Prop} [DecidablePred p], q.links = r.links.delete p → Effect sha256 r q [] :=
    fun h => .quiet fun l hl => (Table.mem_delete.mp (by rwa [h] at hl)).1
  unfold Relay.next Relay.done
  cases op with
  | create s commitment =>
    simp only [Relay.serve]
    split
    · exact same rfl
    · cases h : createTx r s commitment with
      | error e => exact same rfl
      | ok links =>
        obtain ⟨hs, -, hi⟩ := createTx_ok h
        refine .request s commitment hs (Nat.lt_succ_self _) fun l hl => ?_
        rcases (Table.mem_insert hi).mp hl with hl | rfl
        · exact Or.inl (Table.mem_delete.mp hl).1
        · exact Or.inr rfl
  | claim s id key =>
    simp only [Relay.serve]
    split
    · exact same rfl
    · cases h : claimTx r s id key with
      | error e => exact same rfl
      | ok links =>
        obtain ⟨hs, ⟨l, hl, hw⟩, rfl⟩ := claimTx_ok h
        have hid := hw.1
        subst hid
        exact .write s .claim l _ hl (.claim key hw hs) (rows_of_update hl hw fun x hx => hx.1)
  | reveal s id key =>
    simp only [Relay.serve]
    split
    · exact same rfl
    · cases h : revealTx sha256 r s id key with
      | error e => exact same rfl
      | ok out =>
        obtain ⟨links, matching⟩ := out
        obtain ⟨l, hl, hw, ⟨rfl, -, rfl⟩ | ⟨rfl, hc, rfl⟩⟩ := revealTx_ok h
        · exact .ends s .refuse id (Or.inl rfl) ⟨l, hl, hw.1⟩ fun x hx => Table.mem_delete.mp hx
        · have hid := hw.1
          subst hid
          exact .write s .reveal l _ hl (.reveal key hw hc)
            (rows_of_update hl ⟨rfl, hw.2.2.2.2.2.1⟩ fun x hx => hx.1)
  | approve s id bundle =>
    simp only [Relay.serve]
    split
    · exact same rfl
    · cases h : approveTx r s id bundle with
      | error e => exact same rfl
      | ok links =>
        obtain ⟨⟨l, hl, hw⟩, rfl⟩ := approveTx_ok h
        have hid := hw.1
        subst hid
        exact .write s .approve l _ hl (.approve bundle hw) (rows_of_update hl hw fun x hx => hx.1)
  | cancel s id =>
    simp only [Relay.serve]
    cases h : cancelTx r s id with
    | error e => exact same rfl
    | ok links =>
      obtain ⟨⟨l, hl, rfl, hu⟩, rfl⟩ := cancelTx_ok h
      exact .ends s .cancel l.id (Or.inr rfl) ⟨l, hl, rfl⟩ (rows_of_delete hl ⟨rfl, hu⟩)
  | collect s id =>
    simp only [Relay.serve]
    split
    · exact same rfl
    · exact same rfl
    · exact same rfl
  | deliver n =>
    simp only [Relay.serve]
    split
    · exact same rfl
    · rename_i s id out _
      split
      · exact same rfl
      · rename_i links bundle h
        obtain ⟨l, hl, hw, hb, rfl⟩ := collectTx_ok h
        have hid := hw.1
        subst hid
        exact .collect s l bundle hl hw hb (rows_of_delete hl ⟨hw, by rw [hb]; exact Option.some_ne_none _⟩)
  | signIn userId expiresAt hardExpiresAt => exact same rfl
  | slide id expiresAt => exact same rfl
  | revoke id => exact same rfl
  | stepUp id stepUpAt => exact same rfl
  | setUser user => exact same rfl
  | setIdentities identities => exact same rfl
  | clear userId => exact fewer rfl
  | collectSessions => exact fewer rfl
  | collectLinks => exact fewer rfl
  | tick d => exact same rfl

/-- What a step keeps besides: time and the supply of identifiers do not fall, and a session that a row refers to stays
one of its user. -/
structure Frame (r r' : Relay) : Prop where
  clock : r.clock ≤ r'.clock
  nextId : r.nextId ≤ r'.nextId
  sessions : ∀ x ∈ r.sessions, (∃ x' ∈ r'.sessions, x'.id = x.id ∧ x'.userId = x.userId) ∨
    ∀ l ∈ r'.links, l.newcomerSessionId ≠ x.id ∧ l.approverSessionId ≠ some x.id

theorem Frame.of_eq (hc : r.clock ≤ r'.clock) (hn : r.nextId ≤ r'.nextId) (hs : r'.sessions = r.sessions) : Frame r r' :=
  ⟨hc, hn, fun x hx => Or.inl ⟨x, by rwa [hs], rfl, rfl⟩⟩

/-- Sessions are updated without a change of their users. -/
theorem Frame.of_update {p : SessionRow → Prop} [DecidablePred p] {f : SessionRow → SessionRow}
    (hf : ∀ x, (f x).id = x.id ∧ (f x).userId = x.userId) : Frame r { r with sessions := r.sessions.update p f } := by
  refine ⟨Nat.le_refl _, Nat.le_refl _, fun x hx => Or.inl ?_⟩
  by_cases hp : p x
  · exact ⟨f x, Table.mem_update_of hx hp fun y => (hf y).1, hf x⟩
  · exact ⟨x, Table.mem_update_of_not hx hp, rfl, rfl⟩

theorem commit_frame {event : LinkEvent} {session : SessionId} {reply : Reply} {out : Except LinkError (Table LinkRow.id)} :
    (r.commit event session id reply out).1.clock = r.clock ∧ (r.commit event session id reply out).1.nextId = r.nextId ∧
      (r.commit event session id reply out).1.sessions = r.sessions := by
  cases out <;> exact ⟨rfl, rfl, rfl⟩

theorem serve_frame (sha256 : Bytes → Bytes) (r : Relay) (op : RelayOp) : Frame r (r.next sha256 op) := by
  have same : Frame r r := .of_eq (Nat.le_refl _) (Nat.le_refl _) rfl
  have committed : ∀ {event session id reply out}, Frame r (r.commit event session id reply out).1 := fun {_ _ _ _ _} =>
    .of_eq (Nat.le_of_eq commit_frame.1.symm) (Nat.le_of_eq commit_frame.2.1.symm) commit_frame.2.2
  unfold Relay.next
  cases op with
  | create s commitment =>
    simp only [Relay.serve]
    split
    · exact same
    · exact .of_eq (Nat.le_of_eq commit_frame.1.symm) (Nat.le_succ _) commit_frame.2.2
  | claim s id key =>
    simp only [Relay.serve]
    split
    · exact same
    · exact committed
  | reveal s id key =>
    simp only [Relay.serve]
    split
    · exact same
    · split
      · exact same
      · exact .of_eq (Nat.le_refl _) (Nat.le_refl _) rfl
      · exact .of_eq (Nat.le_refl _) (Nat.le_refl _) rfl
  | approve s id bundle =>
    simp only [Relay.serve]
    split
    · exact same
    · exact committed
  | cancel s id => exact committed
  | collect s id =>
    simp only [Relay.serve]
    split
    · exact same
    · exact same
    · exact .of_eq (Nat.le_refl _) (Nat.le_refl _) rfl
  | deliver n =>
    simp only [Relay.serve]
    split
    · exact same
    · split
      · exact .of_eq (Nat.le_refl _) (Nat.le_refl _) rfl
      · exact .of_eq (Nat.le_refl _) (Nat.le_refl _) rfl
  | signIn userId expiresAt hardExpiresAt =>
    refine ⟨Nat.le_refl _, Nat.le_succ _, fun x hx => Or.inl ⟨x, ?_, rfl, rfl⟩⟩
    simp only [Relay.serve]
    split
    · exact Table.mem_insertOrIgnore.mpr (Or.inl hx)
    · exact hx
  | slide id expiresAt => exact .of_update fun _ => ⟨rfl, rfl⟩
  | revoke id => exact .of_update fun _ => ⟨rfl, rfl⟩
  | stepUp id stepUpAt => exact .of_update fun _ => ⟨rfl, rfl⟩
  | setUser user => exact .of_eq (Nat.le_refl _) (Nat.le_refl _) rfl
  | setIdentities identities => exact .of_eq (Nat.le_refl _) (Nat.le_refl _) rfl
  | clear userId => exact .of_eq (Nat.le_refl _) (Nat.le_refl _) rfl
  | collectSessions =>
    refine ⟨Nat.le_refl _, Nat.le_refl _, fun x hx => ?_⟩
    by_cases hs : r.Stale x
    · -- the rows that refer to it go with it
      refine Or.inr fun l hl => ?_
      have hgone : (r.sessions.delete r.Stale).get x.id = none := by
        refine Table.get_eq_none.mpr fun y hy he => ?_
        obtain ⟨hy, hny⟩ := Table.mem_delete.mp hy
        rw [Table.eq_of_key hy hx he] at hny
        exact hny hs
      have hkept := (Table.mem_delete.mp hl).2
      constructor
      · intro he
        exact hkept (Or.inl (by rw [he]; exact hgone))
      · intro he
        exact hkept (Or.inr ⟨x.id, he, hgone⟩)
    · exact Or.inl ⟨x, Table.mem_delete.mpr ⟨hx, hs⟩, rfl, rfl⟩
  | collectLinks => exact .of_eq (Nat.le_refl _) (Nat.le_refl _) rfl
  | tick d => exact .of_eq (Nat.le_add_right _ _) (Nat.le_refl _) rfl

/-! ## Rows -/

/-- What holds of every row. -/
structure RowOk (sha256 : Bytes → Bytes) (r : Relay) (l : LinkRow) : Prop where
  bundle : l.bundle ≠ none → l.newcomerKey ≠ none
  newcomerKey : l.newcomerKey ≠ none → l.approverKey ≠ none
  unclaimed : l.approverSessionId = none → l.approverKey = none
  commitment : ∀ key, l.newcomerKey = some key → sha256 (linkCommitLabel ++ key) = l.commitment
  newcomer : ∃ x ∈ r.sessions, x.id = l.newcomerSessionId ∧ x.userId = l.userId
  approver : ∀ a, l.approverSessionId = some a →
    a ≠ l.newcomerSessionId ∧ ∃ x ∈ r.sessions, x.id = a ∧ x.userId = l.userId
  fresh : l.id < r.nextId

/-- A row that a step leaves alone. -/
theorem RowOk.frame {l : LinkRow} (h : RowOk sha256 r l) (hf : Frame r r') (hl : l ∈ r'.links) : RowOk sha256 r' l := by
  refine { h with newcomer := ?_, approver := fun a ha => ⟨(h.approver a ha).1, ?_⟩, fresh := Nat.lt_of_lt_of_le h.fresh hf.nextId }
  · obtain ⟨x, hx, hid, hu⟩ := h.newcomer
    rcases hf.sessions x hx with ⟨x', hx', hid', hu'⟩ | hno
    · exact ⟨x', hx', hid'.trans hid, hu'.trans hu⟩
    · exact absurd hid.symm (hno l hl).1
  · obtain ⟨-, x, hx, hid, hu⟩ := h.approver a ha
    rcases hf.sessions x hx with ⟨x', hx', hid', hu'⟩ | hno
    · exact ⟨x', hx', hid'.trans hid, hu'.trans hu⟩
    · rw [← hid] at ha
      exact absurd ha (hno l hl).2

/-- A write to a row keeps what holds of it. -/
theorem Write.rowOk {s : Session} {event : LinkEvent} {l l' : LinkRow} (hw : Write sha256 r s l event l')
    (h : RowOk sha256 r l) : RowOk sha256 r l' := by
  cases hw with
  | claim key hw hs =>
    obtain ⟨-, hu, -, hne, hnone, -⟩ := hw
    have hkey := h.unclaimed hnone
    refine { h with newcomerKey := fun _ => Option.some_ne_none _, unclaimed := fun he => (by cases he), approver := ?_ }
    rintro a ⟨⟩
    obtain ⟨x, hx, hid, hxu⟩ := hs
    exact ⟨hne.symm, x, hx, hid, hxu.trans hu.symm⟩
  | reveal key hw hc =>
    obtain ⟨-, -, -, -, hclaimed, -⟩ := hw
    refine { h with bundle := fun _ => Option.some_ne_none _, newcomerKey := fun _ => hclaimed, commitment := ?_ }
    rintro k ⟨⟩
    exact hc
  | approve bundle hw =>
    obtain ⟨-, -, -, -, hrevealed, -⟩ := hw
    exact { h with bundle := fun _ => hrevealed }

theorem next_rowOk (h : ∀ l ∈ r.links, RowOk sha256 r l) (op : RelayOp) :
    ∀ l ∈ (r.next sha256 op).links, RowOk sha256 (r.next sha256 op) l := by
  have hf := serve_frame sha256 r op
  have he := serve_effect sha256 r op
  generalize r.done sha256 op = ds at he
  intro l hl
  cases he with
  | quiet rows => exact (h l (rows l hl)).frame hf hl
  | request s commitment hs hn rows =>
    rcases rows l hl with hold | rfl
    · exact (h l hold).frame hf hl
    · obtain ⟨x, hx, hid, hu⟩ := hs
      refine ⟨fun hb => absurd rfl hb, fun hk => absurd rfl hk, fun _ => rfl, fun _ hk => (by cases hk), ?_,
        fun _ ha => (by cases ha), hn⟩
      rcases hf.sessions x hx with ⟨x', hx', hid', hu'⟩ | hno
      · exact ⟨x', hx', hid'.trans hid, hu'.trans hu⟩
      · exact absurd hid.symm (hno _ hl).1
  | write s event l₀ l' hl₀ hw rows =>
    rcases rows l hl with ⟨hold, -⟩ | rfl
    · exact (h l hold).frame hf hl
    · exact (hw.rowOk (h l₀ hl₀)).frame hf hl
  | ends s event id he hid rows => exact (h l (rows l hl).1).frame hf hl
  | collect s l₀ bundle hl₀ hw hb rows => exact (h l (rows l hl).1).frame hf hl

/-! ## Commitments, once each -/

/-- What a row shows of a step that has been committed for it; a row that has ended is not there to show anything. -/
def Bears : LinkEvent → LinkRow → Prop
  | .request, _ => True
  | .claim, l => l.approverSessionId ≠ none
  | .reveal, l => l.newcomerKey ≠ none
  | .approve, l => l.bundle ≠ none
  | .refuse, _ | .cancel, _ | .collect, _ => False

/-- What holds of the rows together with everything that has been committed. -/
structure LogOk (r : Relay) (log : List Done) : Prop where
  fresh : ∀ d ∈ log, d.id < r.nextId
  made : ∀ l ∈ r.links, ⟨.request, l.newcomerSessionId, l.id, none⟩ ∈ log
  bears : ∀ d ∈ log, ∀ l ∈ r.links, l.id = d.id → Bears d.event l
  once : log.Pairwise fun d d' => d.event = d'.event → d.id ≠ d'.id
  collected : ∀ d ∈ log, d.event = .collect → ⟨.request, d.session, d.id, none⟩ ∈ log

/-- A row after a step: the step was not borne before and is borne now, and nothing that was borne is lost. -/
structure Advances (event : LinkEvent) (l l' : LinkRow) : Prop where
  id : l'.id = l.id
  newcomer : l'.newcomerSessionId = l.newcomerSessionId
  now : Bears event l'
  keeps : ∀ e, Bears e l → Bears e l'

theorem Write.advances {l l' : LinkRow} {event : LinkEvent} (h : Write sha256 r s l event l') :
    ¬Bears event l ∧ Advances event l l' := by
  cases h with
  | claim key hw hs =>
    refine ⟨fun hb => hb hw.2.2.2.2.1, rfl, rfl, Option.some_ne_none _, fun e he => ?_⟩
    cases e with
    | claim => exact Option.some_ne_none _
    | _ => exact he
  | reveal key hw hc =>
    refine ⟨fun hb => hb hw.2.2.2.2.2.1, rfl, rfl, Option.some_ne_none _, fun e he => ?_⟩
    cases e with
    | reveal => exact Option.some_ne_none _
    | _ => exact he
  | approve bundle hw =>
    refine ⟨fun hb => hb hw.2.2.2.2.2.1, rfl, rfl, Option.some_ne_none _, fun e he => ?_⟩
    cases e with
    | approve => exact Option.some_ne_none _
    | _ => exact he

variable {log : List Done}

/-- Rows may go. -/
theorem LogOk.quiet (h : LogOk r log) (hn : r.nextId ≤ r'.nextId) (rows : ∀ l ∈ r'.links, l ∈ r.links) : LogOk r' log where
  fresh := fun d hd => Nat.lt_of_lt_of_le (h.fresh d hd) hn
  made := fun l hl => h.made l (rows l hl)
  bears := fun d hd l hl => h.bears d hd l (rows l hl)
  once := h.once
  collected := h.collected

/-- One more entry. -/
theorem LogOk.concat (h : LogOk r log) {d : Done} (hn : r.nextId ≤ r'.nextId) (hd : d.id < r'.nextId)
    (made : ∀ l ∈ r'.links, ⟨.request, l.newcomerSessionId, l.id, none⟩ ∈ log ++ [d])
    (old : ∀ d' ∈ log, ∀ l ∈ r'.links, l.id = d'.id → Bears d'.event l)
    (new : ∀ l ∈ r'.links, l.id = d.id → Bears d.event l)
    (once : ∀ d' ∈ log, d'.event = d.event → d'.id ≠ d.id)
    (collected : d.event = .collect → ⟨.request, d.session, d.id, none⟩ ∈ log) : LogOk r' (log ++ [d]) := by
  have hcase : ∀ x ∈ log ++ [d], x ∈ log ∨ x = d := fun x hx =>
    (List.mem_append.mp hx).imp_right List.mem_singleton.mp
  refine ⟨fun x hx => ?_, made, fun x hx l hl hid => ?_, ?_, fun x hx he => ?_⟩
  · rcases hcase x hx with hx | rfl
    · exact Nat.lt_of_lt_of_le (h.fresh x hx) hn
    · exact hd
  · rcases hcase x hx with hx | rfl
    · exact old x hx l hl hid
    · exact new l hl hid
  · refine List.pairwise_append.mpr ⟨h.once, List.pairwise_singleton _ _, fun x hx y hy => ?_⟩
    obtain rfl := List.mem_singleton.mp hy
    exact once x hx
  · refine List.mem_append_left _ ?_
    rcases hcase x hx with hx | rfl
    · exact h.collected x hx he
    · exact collected he

/-- A new row: nothing that is in the log is about it. -/
theorem LogOk.request (h : LogOk r log) {row : LinkRow} (hn : r.nextId < r'.nextId) (hrow : row.id = r.nextId)
    (rows : ∀ l ∈ r'.links, l ∈ r.links ∨ l = row) :
    LogOk r' (log ++ [⟨.request, row.newcomerSessionId, row.id, none⟩]) := by
  have hne : ∀ d ∈ log, d.id ≠ row.id := fun d hd he => Nat.ne_of_lt (h.fresh d hd) (he.trans hrow)
  refine h.concat (Nat.le_of_lt hn) (Nat.lt_of_le_of_lt (Nat.le_of_eq hrow) hn) (fun l hl => ?_) (fun d hd l hl hid => ?_)
    (fun _ _ _ => trivial) (fun d hd _ => hne d hd) (fun he => by cases he)
  · rcases rows l hl with hl | rfl
    · exact List.mem_append_left _ (h.made l hl)
    · exact List.mem_append_right _ (List.mem_singleton.mpr rfl)
  · rcases rows l hl with hl | rfl
    · exact h.bears d hd l hl hid
    · exact absurd hid.symm (hne d hd)

/-- A step for a row that has not been taken for it: the row bears it afterwards, or has ended. -/
theorem LogOk.step (h : LogOk r log) (hn : r.nextId ≤ r'.nextId) {d : Done} {l : LinkRow} (hl : l ∈ r.links)
    (hid : d.id = l.id) (hb : ¬Bears d.event l)
    (rows : ∀ x ∈ r'.links, x ∈ r.links ∧ x.id ≠ l.id ∨ Advances d.event l x)
    (hc : d.event = .collect → d.session = l.newcomerSessionId) : LogOk r' (log ++ [d]) := by
  have hmade := h.made l hl
  refine h.concat hn ?_ (fun x hx => List.mem_append_left _ ?_) (fun d' hd' x hx he => ?_) (fun x hx he => ?_)
    (fun d' hd' he hid' => ?_) fun he => ?_
  · rw [hid]
    exact Nat.lt_of_lt_of_le (h.fresh _ hmade) hn
  · rcases rows x hx with ⟨hx, -⟩ | ha
    · exact h.made x hx
    · rw [ha.id, ha.newcomer]
      exact hmade
  · rcases rows x hx with ⟨hx, -⟩ | ha
    · exact h.bears d' hd' x hx he
    · exact ha.keeps _ (h.bears d' hd' l hl (ha.id.symm.trans he))
  · rcases rows x hx with ⟨-, hne⟩ | ha
    · exact absurd (he.trans hid) hne
    · exact ha.now
  · refine hb ?_
    rw [← he]
    exact h.bears d' hd' l hl (hid'.trans hid).symm
  · rw [hid, hc he]
    exact hmade

theorem next_logOk (h : LogOk r log) (op : RelayOp) : LogOk (r.next sha256 op) (log ++ r.done sha256 op) := by
  have hn := (serve_frame sha256 r op).nextId
  have he := serve_effect sha256 r op
  generalize r.done sha256 op = ds at he
  cases he with
  | quiet rows =>
    rw [List.append_nil]
    exact h.quiet hn rows
  | request s commitment hs hlt rows => exact h.request hlt rfl rows
  | write s event l l' hl hw rows =>
    obtain ⟨hb, ha⟩ := hw.advances
    refine h.step hn hl rfl hb (fun x hx => (rows x hx).imp_right ?_) fun he => ?_
    · rintro rfl
      exact ha
    · subst he
      cases hw
  | ends s event id he hid rows =>
    obtain ⟨l, hl, rfl⟩ := hid
    refine h.step hn hl rfl ?_ (fun x hx => Or.inl (rows x hx)) fun hc => ?_
    · rcases he with rfl | rfl <;> exact fun hb => hb
    · rcases he with rfl | rfl <;> cases hc
  | collect s l bundle hl hw hb rows =>
    exact h.step hn hl rfl (fun hb => hb) (fun x hx => Or.inl (rows x hx)) fun _ => hw.2.2.1.symm

/-! ## Live requests -/

/-- The number of live requests of a user. -/
def Relay.pending (r : Relay) (user : UserId) : Nat := r.links.count fun l => l.userId = user ∧ r.now < l.expiresAt

/-- Without a new row, no more requests become live. -/
theorem pending_le {user : UserId} (hc : r.clock ≤ r'.clock)
    (h : (r'.links.count fun l => l.userId = user ∧ r.now < l.expiresAt) ≤ r.pending user) :
    r'.pending user ≤ r.pending user := by
  refine Nat.le_trans (Table.count_mono fun l _ hl => ⟨hl.1, Nat.lt_of_le_of_lt ?_ hl.2⟩) h
  exact Nat.div_le_div_right hc

/-- A new request is one of at most three. -/
theorem create_pending {commitment : Bytes} {links : Table LinkRow.id} (h : createTx r s commitment = .ok links)
    {user : UserId} (hp : r.pending user ≤ linkMaxPending) :
    (links.count fun l => l.userId = user ∧ r.now < l.expiresAt) ≤ linkMaxPending := by
  obtain ⟨-, hlt, hi⟩ := createTx_ok h
  rw [Table.count_insert hi]
  by_cases hu : s.userId = user
  · subst hu
    refine Nat.le_trans (Nat.add_le_add_left (m := 1) ?_ _) hlt
    split
    · exact Nat.le_refl _
    · exact Nat.zero_le _
  · rw [if_neg fun h => hu h.1, Nat.add_zero]
    exact Nat.le_trans Table.count_delete_le hp

theorem next_pending {user : UserId} (hp : r.pending user ≤ linkMaxPending) (op : RelayOp) :
    (r.next sha256 op).pending user ≤ linkMaxPending := by
  have same : ∀ {q : Relay}, r.clock ≤ q.clock → q.links = r.links → q.pending user ≤ linkMaxPending := fun hc hl =>
    Nat.le_trans (pending_le hc (by rw [hl]; exact Nat.le_refl _)) hp
  have fewer : ∀ {q : Relay} {p : LinkRow → Prop} [DecidablePred p], r.clock ≤ q.clock → q.links = r.links.delete p →
      q.pending user ≤ linkMaxPending := fun hc hl =>
    Nat.le_trans (pending_le hc (by rw [hl]; exact Table.count_delete_le)) hp
  have updated : ∀ {q : Relay} {p : LinkRow → Prop} [DecidablePred p] {f : LinkRow → LinkRow}, r.clock ≤ q.clock →
      q.links = r.links.update p f → (∀ l, (f l).id = l.id ∧ (f l).userId = l.userId ∧ (f l).expiresAt = l.expiresAt) →
      q.pending user ≤ linkMaxPending := by
    intro q p _ f hc hl hf
    refine Nat.le_trans (pending_le hc (Nat.le_of_eq ?_)) hp
    rw [hl]
    exact Table.count_update (fun l => (hf l).1) fun l => by rw [(hf l).2.1, (hf l).2.2]
  have le := Nat.le_refl r.clock
  unfold Relay.next
  cases op with
  | create s commitment =>
    simp only [Relay.serve]
    split
    · exact hp
    · cases h : createTx r s commitment with
      | error e => exact same le rfl
      | ok links => exact create_pending h hp
  | claim s id key =>
    simp only [Relay.serve]
    split
    · exact hp
    · cases h : claimTx r s id key with
      | error e => exact hp
      | ok links => exact updated le (claimTx_ok h).2.2 fun _ => ⟨rfl, rfl, rfl⟩
  | reveal s id key =>
    simp only [Relay.serve]
    split
    · exact hp
    · cases h : revealTx sha256 r s id key with
      | error e => exact hp
      | ok out =>
        obtain ⟨links, matching⟩ := out
        obtain ⟨l, -, -, ⟨rfl, -, hl⟩ | ⟨rfl, -, hl⟩⟩ := revealTx_ok h
        · exact fewer le hl
        · exact updated le hl fun _ => ⟨rfl, rfl, rfl⟩
  | approve s id bundle =>
    simp only [Relay.serve]
    split
    · exact hp
    · cases h : approveTx r s id bundle with
      | error e => exact hp
      | ok links => exact updated le (approveTx_ok h).2 fun _ => ⟨rfl, rfl, rfl⟩
  | cancel s id =>
    simp only [Relay.serve]
    cases h : cancelTx r s id with
    | error e => exact hp
    | ok links => exact fewer le (cancelTx_ok h).2
  | collect s id =>
    simp only [Relay.serve]
    split <;> exact hp
  | deliver n =>
    simp only [Relay.serve]
    split
    · exact hp
    · split
      · exact hp
      · rename_i links bundle h
        obtain ⟨-, -, -, -, hl⟩ := collectTx_ok h
        exact fewer le hl
  | signIn userId expiresAt hardExpiresAt => exact hp
  | slide id expiresAt => exact hp
  | revoke id => exact hp
  | stepUp id stepUpAt => exact hp
  | setUser user => exact hp
  | setIdentities identities => exact hp
  | clear userId => exact fewer le rfl
  | collectSessions => exact fewer le rfl
  | collectLinks => exact fewer le rfl
  | tick d => exact same (Nat.le_add_right _ _) rfl

/-! ## Later rows -/

/-- A row as it may go on: what has been written stays. -/
structure Later (l l' : LinkRow) : Prop where
  id : l'.id = l.id
  commitment : l'.commitment = l.commitment
  newcomer : l'.newcomerSessionId = l.newcomerSessionId
  approverKey : ∀ key, l.approverKey = some key → l'.approverKey = some key ∧ l'.approverSessionId = l.approverSessionId
  newcomerKey : ∀ key, l.newcomerKey = some key → l'.newcomerKey = some key
  bundle : ∀ b, l.bundle = some b → l'.bundle = some b

theorem Later.refl (l : LinkRow) : Later l l := ⟨rfl, rfl, rfl, fun _ h => ⟨h, rfl⟩, fun _ h => h, fun _ h => h⟩

theorem Later.trans {l l' l'' : LinkRow} (h : Later l l') (h' : Later l' l'') : Later l l'' where
  id := h'.id.trans h.id
  commitment := h'.commitment.trans h.commitment
  newcomer := h'.newcomer.trans h.newcomer
  approverKey := fun key hk => ⟨(h'.approverKey key (h.approverKey key hk).1).1,
    (h'.approverKey key (h.approverKey key hk).1).2.trans (h.approverKey key hk).2⟩
  newcomerKey := fun key hk => h'.newcomerKey key (h.newcomerKey key hk)
  bundle := fun b hb => h'.bundle b (h.bundle b hb)

theorem Write.later {l l' : LinkRow} {event : LinkEvent} (h : Write sha256 r s l event l') (hl : RowOk sha256 r l) :
    Later l l' := by
  cases h with
  | claim key hw hs =>
    refine ⟨rfl, rfl, rfl, fun k hk => ?_, fun _ h => h, fun _ h => h⟩
    rw [hl.unclaimed hw.2.2.2.2.1] at hk
    cases hk
  | reveal key hw hc =>
    refine ⟨rfl, rfl, rfl, fun _ h => ⟨h, rfl⟩, fun k hk => ?_, fun _ h => h⟩
    rw [hw.2.2.2.2.2.1] at hk
    cases hk
  | approve bundle hw =>
    refine ⟨rfl, rfl, rfl, fun _ h => ⟨h, rfl⟩, fun _ h => h, fun b hb => ?_⟩
    rw [hw.2.2.2.2.2.1] at hb
    cases hb

/-- Every row of `q` is one of `r` as it has gone on, or was made later. -/
structure GoesOn (sha256 : Bytes → Bytes) (r q : Relay) : Prop where
  rowsOk : ∀ l ∈ q.links, RowOk sha256 q l
  nextId : r.nextId ≤ q.nextId
  rows : ∀ x ∈ q.links, (∃ l ∈ r.links, Later l x) ∨ r.nextId ≤ x.id

theorem GoesOn.next {q : Relay} (h : GoesOn sha256 r q) (op : RelayOp) : GoesOn sha256 r (q.next sha256 op) := by
  refine ⟨next_rowOk h.rowsOk op, Nat.le_trans h.nextId (serve_frame sha256 q op).nextId, fun x hx => ?_⟩
  have he := serve_effect sha256 q op
  generalize q.done sha256 op = ds at he
  cases he with
  | quiet rows => exact h.rows x (rows x hx)
  | request s commitment hs hn rows =>
    rcases rows x hx with hx | rfl
    · exact h.rows x hx
    · exact Or.inr h.nextId
  | write s event l l' hl hw rows =>
    rcases rows x hx with ⟨hx, -⟩ | rfl
    · exact h.rows x hx
    · have hlater := hw.later (h.rowsOk l hl)
      rcases h.rows l hl with ⟨l₀, hl₀, h₀⟩ | hn
      · exact Or.inl ⟨l₀, hl₀, h₀.trans hlater⟩
      · rw [hlater.id]
        exact Or.inr hn
  | ends s event id he hid rows => exact h.rows x (rows x hx).1
  | collect s l bundle hl hw hb rows => exact h.rows x (rows x hx).1

theorem run_goesOn (h : ∀ l ∈ r.links, RowOk sha256 r l) (ops : List RelayOp) :
    GoesOn sha256 r (run (Relay.next sha256) r ops) :=
  run_inv (P := GoesOn sha256 r) (fun _ op h => h.next op) ops
    ⟨h, Nat.le_refl _, fun x hx => Or.inl ⟨x, hx, .refl x⟩⟩

/-- A request that has ended does not come back. -/
theorem run_gone (h : ∀ l ∈ r.links, RowOk sha256 r l) (hid : id < r.nextId) (hno : ∀ l ∈ r.links, l.id ≠ id)
    (ops : List RelayOp) : ∀ x ∈ (run (Relay.next sha256) r ops).links, x.id ≠ id := by
  intro x hx he
  rcases (run_goesOn h ops).rows x hx with ⟨l, hl, hlater⟩ | hn
  · exact hno l hl (hlater.id.symm.trans he)
  · exact Nat.not_le_of_lt hid (he ▸ hn)

/-! ## Keys that do not match, and bundles -/

theorem revealTx_mismatch {key : Bytes} {l : LinkRow} (hp : partyLive r s = .ok ()) (hl : l ∈ r.links)
    (hw : r.Revealable s id l) (hne : sha256 (linkCommitLabel ++ key) ≠ l.commitment) :
    revealTx sha256 r s id key = .ok (r.links.delete fun l => l.id = id, false) := by
  have hid := hw.1
  subst hid
  have hget : (r.links.get l.id).filter (fun x => r.Revealable s l.id x) = some l := by
    rw [Table.get_of_mem hl, Option.filter_some, if_pos (decide_eq_true hw)]
  unfold revealTx
  rw [hp]
  simp only [bind, Except.bind, fetch, hget, if_pos hne, pure, Except.pure]

/-- A reveal with the key of no such request leaves the rows as they are, or ends the request. -/
theorem reveal_mismatch {key : Bytes} (hne : ∀ l ∈ r.links, l.id = id → sha256 (linkCommitLabel ++ key) ≠ l.commitment) :
    (r.next sha256 (.reveal s id key)).links = r.links ∨
      (∃ l ∈ r.links, l.id = id) ∧ ∀ l ∈ (r.next sha256 (.reveal s id key)).links, l.id ≠ id := by
  unfold Relay.next
  simp only [Relay.serve]
  split
  · exact Or.inl rfl
  · cases h : revealTx sha256 r s id key with
    | error e => exact Or.inl rfl
    | ok out =>
      obtain ⟨links, matching⟩ := out
      obtain ⟨l, hl, hw, ⟨rfl, -, rfl⟩ | ⟨rfl, hc, rfl⟩⟩ := revealTx_ok h
      · exact Or.inr ⟨⟨l, hl, hw.1⟩, fun x hx => (Table.mem_delete.mp hx).2⟩
      · exact absurd hc (hne l hl hw.1)

theorem readCollect_bundle {out : Collected} {ready : Bool} (h : readCollect r s id = .ok (out, ready)) :
    out.bundle = none := by
  unfold readCollect at h
  simp only [bind_ok, fetch_ok, require_ok, pure_ok, Prod.mk.injEq] at h
  obtain ⟨-, -, -, -, -, -, rfl, -⟩ := h
  rfl

/-- A bundle is handed out by a collection only: the one that the row had, to the session that made the request. -/
theorem reply_bundle {op : RelayOp} {out : Collected} {bundle : Bytes} (h : r.reply sha256 op = .collected out)
    (hb : out.bundle = some bundle) :
    ∃ l ∈ r.links, l.bundle = some bundle ∧ r.done sha256 op = [⟨.collect, l.newcomerSessionId, l.id, some bundle⟩] := by
  unfold Relay.reply at h
  unfold Relay.done
  cases op with
  | create s commitment =>
    simp only [Relay.serve] at h
    split at h
    · cases h
    · cases hx : createTx r s commitment <;> rw [hx] at h <;> cases h
  | claim s id key =>
    simp only [Relay.serve] at h
    split at h
    · cases h
    · cases hx : claimTx r s id key <;> rw [hx] at h <;> cases h
  | reveal s id key =>
    simp only [Relay.serve] at h
    split at h
    · cases h
    · split at h <;> cases h
  | approve s id bundle =>
    simp only [Relay.serve] at h
    split at h
    · cases h
    · cases hx : approveTx r s id bundle <;> rw [hx] at h <;> cases h
  | cancel s id =>
    simp only [Relay.serve] at h
    cases hx : cancelTx r s id <;> rw [hx] at h <;> cases h
  | collect s id =>
    simp only [Relay.serve] at h
    split at h
    · cases h
    · rename_i hr
      cases h
      rw [readCollect_bundle hr] at hb
      cases hb
    · cases h
  | deliver n =>
    simp only [Relay.serve] at h ⊢
    split at h
    · cases h
    · split at h
      · cases h
      · rename_i links b hx
        cases h
        cases hb
        obtain ⟨l, hl, hw, hb, -⟩ := collectTx_ok hx
        refine ⟨l, hl, hb, ?_⟩
        show [_] = _
        rw [hw.1, hw.2.2.1]
  | signIn userId expiresAt hardExpiresAt => cases h
  | slide id expiresAt => cases h
  | revoke id => cases h
  | stepUp id stepUpAt => cases h
  | setUser user => cases h
  | setIdentities identities => cases h
  | clear userId => cases h
  | collectSessions => cases h
  | collectLinks => cases h
  | tick d => cases h

/-! ## Runs -/

/-- The relay with the log of its committed steps. -/
def Relay.logged (sha256 : Bytes → Bytes) (ops : List RelayOp) : Relay × List Done :=
  run (Transition.logged (Relay.next sha256) (Relay.done sha256)) (Relay.init, []) ops

/-- What holds after every run. -/
structure RelayInv (sha256 : Bytes → Bytes) (x : Relay × List Done) : Prop where
  rows : ∀ l ∈ x.1.links, RowOk sha256 x.1 l
  log : LogOk x.1 x.2
  pending : ∀ user, x.1.pending user ≤ linkMaxPending

theorem logged_inv (ops : List RelayOp) : RelayInv sha256 (Relay.logged sha256 ops) := by
  refine run_inv (P := RelayInv sha256) (fun x op h => ?_) ops ⟨fun _ h => ?_, ?_, fun _ => Nat.zero_le _⟩
  · exact ⟨next_rowOk h.rows op, next_logOk h.log op, fun user => next_pending (h.pending user) op⟩
  · exact absurd h List.not_mem_nil
  · exact ⟨fun _ h => absurd h List.not_mem_nil, fun _ h => absurd h List.not_mem_nil,
      fun _ h => absurd h List.not_mem_nil, .nil, fun _ h => absurd h List.not_mem_nil⟩

/-- No event is committed twice for a request. -/
theorem LogOk.count_le {log : List Done} (h : LogOk r log) (event : LinkEvent) (id : RequestId) :
    log.countP (fun d => d.event = event ∧ d.id = id) ≤ 1 := by
  have honce := h.once
  clear h
  induction log with
  | nil => exact Nat.zero_le _
  | cons d log ih =>
    obtain ⟨hd, hlog⟩ := List.pairwise_cons.mp honce
    by_cases hp : d.event = event ∧ d.id = id
    · have hnone : log.countP (fun d => d.event = event ∧ d.id = id) = 0 := by
        refine List.countP_eq_zero.mpr fun d' hd' hp' => ?_
        obtain ⟨he, hid⟩ := of_decide_eq_true hp'
        exact hd d' hd' (hp.1.trans he.symm) (hp.2.trans hid.symm)
      have hone : (d :: log).countP (fun d => d.event = event ∧ d.id = id) = 0 + 1 := by
        rw [List.countP_cons, hnone, if_pos (decide_eq_true hp)]
      exact Nat.le_of_eq hone
    · rw [List.countP_cons, if_neg (by simpa using hp), Nat.add_zero]
      exact ih hlog

/-- **The relay's state machine.** After every run: the columns of a row are set in their order, its key is the committed
one, and its two sessions are two sessions of its user; each column is written at most once and keeps its value; a bundle is
handed out at most once, to the session that made the request; a reveal with another key than the committed one ends the
request, for good, or changes nothing because it is not this session's to make now; and no user has more than three live
requests. -/
theorem relay_state_machine (sha256 : Bytes → Bytes) (ops : List RelayOp) :
    let r := (Relay.logged sha256 ops).1
    let log := (Relay.logged sha256 ops).2
    (∀ l ∈ r.links, (l.bundle ≠ none → l.newcomerKey ≠ none) ∧ (l.newcomerKey ≠ none → l.approverKey ≠ none) ∧
      (∀ key, l.newcomerKey = some key → sha256 (linkCommitLabel ++ key) = l.commitment) ∧
      (∃ x ∈ r.sessions, x.id = l.newcomerSessionId ∧ x.userId = l.userId) ∧
      ∀ a, l.approverSessionId = some a → a ≠ l.newcomerSessionId ∧ ∃ x ∈ r.sessions, x.id = a ∧ x.userId = l.userId) ∧
    (∀ event id, log.countP (fun d => d.event = event ∧ d.id = id) ≤ 1) ∧
    (∀ later, ∀ x ∈ (run (Relay.next sha256) r later).links, ∀ l ∈ r.links, l.id = x.id → Later l x) ∧
    ((∀ op out bundle, r.reply sha256 op = .collected out → out.bundle = some bundle →
        ∃ l ∈ r.links, l.bundle = some bundle ∧
          r.done sha256 op = [⟨.collect, l.newcomerSessionId, l.id, some bundle⟩]) ∧
      ∀ d ∈ log, d.event = .collect → ⟨.request, d.session, d.id, none⟩ ∈ log) ∧
    (∀ s id key, (∀ l ∈ r.links, l.id = id → sha256 (linkCommitLabel ++ key) ≠ l.commitment) →
      ((r.next sha256 (.reveal s id key)).links = r.links ∨
        ∀ later, ∀ x ∈ (run (Relay.next sha256) (r.next sha256 (.reveal s id key)) later).links, x.id ≠ id) ∧
      ∀ l ∈ r.links, r.Revealable s id l → partyLive r s = .ok () → key.length = 32 →
        r.reply sha256 (.reveal s id key) = .mismatch ∧
          ∀ later, ∀ x ∈ (run (Relay.next sha256) (r.next sha256 (.reveal s id key)) later).links, x.id ≠ id) ∧
    ∀ user, r.links.count (fun l => l.userId = user ∧ r.now < l.expiresAt) ≤ linkMaxPending := by
  have hi : RelayInv sha256 (Relay.logged sha256 ops) := logged_inv ops
  generalize Relay.logged sha256 ops = x at hi
  obtain ⟨r, log⟩ := x
  obtain ⟨hrows, hlog, hpending⟩ := hi
  -- a request that a step ends is gone for good
  have ended : ∀ op id, (∃ l ∈ r.links, l.id = id) → (∀ x ∈ (r.next sha256 op).links, x.id ≠ id) →
      ∀ later, ∀ x ∈ (run (Relay.next sha256) (r.next sha256 op) later).links, x.id ≠ id := by
    rintro op id ⟨l, hl, rfl⟩ hno later
    exact run_gone (next_rowOk hrows op)
      (Nat.lt_of_lt_of_le (hrows l hl).fresh (serve_frame sha256 r op).nextId) hno later
  refine ⟨fun l hl => ?_, fun event id => hlog.count_le event id, fun later x hx l hl hid => ?_, ⟨?_, hlog.collected⟩,
    fun s id key hne => ⟨?_, fun l hl hw hp hkey => ?_⟩, hpending⟩
  · have h := hrows l hl
    exact ⟨h.bundle, h.newcomerKey, h.commitment, h.newcomer, h.approver⟩
  · rcases (run_goesOn hrows later).rows x hx with ⟨l', hl', hlater⟩ | hn
    · rwa [Table.eq_of_key hl hl' (hid.trans hlater.id)]
    · exact absurd hid (Nat.ne_of_lt (Nat.lt_of_lt_of_le (hrows l hl).fresh hn))
  · exact fun op out bundle h hb => reply_bundle h hb
  · rcases reveal_mismatch hne with h | ⟨hl, hno⟩
    · exact Or.inl h
    · exact Or.inr (ended _ id hl hno)
  · have htx := revealTx_mismatch hp hl hw (hne l hl hw.1)
    have hserve : r.serve sha256 (.reveal s id key) = ({ r with links := r.links.delete fun l => l.id = id }, .mismatch,
        [⟨.refuse, s.id, id, none⟩]) := by
      simp only [Relay.serve, if_neg (not_not.mpr hkey), htx]
    refine ⟨by rw [Relay.reply, hserve], ended _ id ⟨l, hl, hw.1⟩ ?_⟩
    rw [Relay.next, hserve]
    exact fun x hx => (Table.mem_delete.mp hx).2

end KyNotes.Links
