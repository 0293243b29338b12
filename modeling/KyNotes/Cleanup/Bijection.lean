import KyNotes.Cleanup.Reservations

/-!
# Cleanup slots track live sources

`Matched` says that the sources with a pending slot are the live ones; every call keeps it (`Effect.matched`). The table
has one slot for a source, so that the two are in one-to-one correspondence. A filled slot stays as it is, since a fill
asks for a pending one and the triggers drop pending ones only.
-/

namespace KyNotes.Cleanup

open Relational Check

variable {cfg : Config} {e : Encoding} {s s' : State} {c : Call} {source : Source} {actor : UserId} {x y : Slot}

/-- The live sources are those with a pending slot; identifiers are below the next one, and slots have their size. -/
structure Matched (e : Encoding) (s : State) : Prop where
  live : ∀ source, Live s.db source ↔ Pending s.slots source
  fresh : ∀ x ∈ s.slots, x.source.id < s.server.store.next
  size : ∀ x ∈ s.slots, x.bytes = cleanupSlotBytes e

theorem matched_init (e : Encoding) : Matched e State.init where
  live := by
    rintro ⟨kind, id⟩
    have hp : ¬Pending State.init.slots ⟨kind, id⟩ := by
      rintro ⟨x, hx, -⟩
      exact Table.not_mem_empty _ hx
    cases kind with
    | comment => exact ⟨fun ⟨c, hc, _⟩ => absurd hc (Table.not_mem_empty _), fun h => absurd h hp⟩
    | sealedShareLink => exact ⟨fun ⟨l, hl, _⟩ => absurd hl (Table.not_mem_empty _), fun h => absurd h hp⟩
  fresh _ hx := absurd hx (Table.not_mem_empty _)
  size _ hx := absurd hx (Table.not_mem_empty _)

/-- What a fill leaves of the table. -/
theorem mem_filled {t : Slots} {request : Bytes} {now : Stamp} (hx : t.get source = some x) :
    y ∈ t.update (fun y => y.source = source) (fun y => y.filled actor request now) ↔
      y ∈ t ∧ y ≠ x ∨ y = x.filled actor request now := by
  obtain ⟨hm, hs⟩ := Table.get_eq_some.1 hx
  constructor
  · intro hy
    obtain ⟨hy, hne⟩ | ⟨z, hz, hzs, rfl⟩ := Table.mem_update_cases hy
    · exact .inl ⟨hy, fun h => hne (h ▸ hs)⟩
    · exact .inr (by rw [Table.eq_of_key hz hm (hzs.trans hs.symm)])
  · rintro (⟨hy, hne⟩ | rfl)
    · exact Table.mem_update_of_not hy fun h => hne (Table.eq_of_key hy hm (h.trans hs.symm))
    · exact Table.mem_update_of hm hs

/-! ## Pending slots after the statements of a transaction -/

/-- The triggers leave the pending slots of the sources that have a row. -/
theorem pending_dropPending {t : Slots} {old new : DB} (hrow : Pending t source → HasRow old source) :
    Pending (dropPending t old new) source ↔ Pending t source ∧ HasRow new source := by
  constructor
  · rintro ⟨x, hx, hs, hr⟩
    obtain ⟨hm, hn⟩ := mem_dropPending.1 hx
    refine ⟨⟨x, hm, hs, hr⟩, not_not.1 fun hno => hn ⟨hr, ?_, ?_⟩⟩
    · exact hs ▸ hrow ⟨x, hm, hs, hr⟩
    · exact hs ▸ hno
  · rintro ⟨⟨x, hx, hs, hr⟩, hrow⟩
    exact ⟨x, mem_dropPending.2 ⟨hx, fun h => h.2.2 (hs ▸ hrow)⟩, hs, hr⟩

theorem pending_insert {t t' : Slots} (h : t.insert x = some t') (hr : x.record = none) :
    Pending t' source ↔ Pending t source ∨ source = x.source := by
  constructor
  · rintro ⟨y, hy, hs, hyr⟩
    obtain hy | rfl := (Table.mem_insert h).1 hy
    · exact .inl ⟨y, hy, hs, hyr⟩
    · exact .inr hs.symm
  · rintro (⟨y, hy, hs, hyr⟩ | rfl)
    · exact ⟨y, (Table.mem_insert h).2 (.inl hy), hs, hyr⟩
    · exact ⟨x, (Table.mem_insert h).2 (.inr rfl), rfl, hr⟩

theorem pending_filled {t : Slots} {request : Bytes} {now : Stamp} {source' : Source} (hx : t.get source = some x) :
    Pending (t.update (fun y => y.source = source) fun y => y.filled actor request now) source' ↔
      Pending t source' ∧ source' ≠ source := by
  obtain ⟨hm, hs⟩ := Table.get_eq_some.1 hx
  constructor
  · rintro ⟨y, hy, hys, hyr⟩
    obtain ⟨hy, hne⟩ | rfl := (mem_filled hx).1 hy
    · exact ⟨⟨y, hy, hys, hyr⟩, fun h => hne (Table.eq_of_key hy hm (hys.trans (h.trans hs.symm)))⟩
    · cases hyr
  · rintro ⟨⟨y, hy, hys, hyr⟩, hne⟩
    exact ⟨y, (mem_filled hx).2 (.inl ⟨hy, fun h => hne (hys.symm.trans (h ▸ hs))⟩), hys, hyr⟩

theorem Effect.matched (h : Effect e s c s') (hs : Matched e s) : Matched e s' := by
  cases h with
  | refused hdb hn ht hv =>
    refine ⟨?_, ?_, ?_⟩
    · rw [hdb, ht]
      exact hs.live
    · rw [hn, ht]
      exact hs.fresh
    · rw [ht]
      exact hs.size
  | shrunk h hdb hn ht hv =>
    refine ⟨fun source => ?_, fun x hx => ?_, fun x hx => ?_⟩
    · rw [ht, h.live, hs.live, pending_dropPending fun hp => ((hs.live source).2 hp).hasRow]
    · rw [ht] at hx
      exact Nat.lt_of_lt_of_le (hs.fresh x (mem_dropPending.1 hx).1) hn
    · rw [ht] at hx
      exact hs.size x (mem_dropPending.1 hx).1
  | added source containerId hop hid h hn ht hv =>
    refine ⟨fun source' => ?_, fun x hx => ?_, fun x hx => ?_⟩
    · rw [h.live, hs.live, pending_insert ht rfl]
      rfl
    · rw [hn]
      obtain hx | rfl := (Table.mem_insert ht).1 hx
      · exact Nat.lt_succ_of_lt (hs.fresh x hx)
      · exact Nat.lt_succ_of_le (Nat.le_of_eq hid)
    · obtain hx | rfl := (Table.mem_insert ht).1 hx
      · exact hs.size x hx
      · rfl
  | retired source actor x hop hl h hn hx hr hnow ht hv =>
    have hm := (Table.get_eq_some.1 hx).1
    refine ⟨fun source' => ?_, fun y hy => ?_, fun y hy => ?_⟩
    · rw [ht, h.live, hs.live, pending_filled hx]
    · rw [hn]
      rw [ht, mem_filled hx] at hy
      obtain ⟨hy, -⟩ | rfl := hy
      · exact Nat.lt_succ_of_lt (hs.fresh y hy)
      · exact Nat.lt_succ_of_lt (hs.fresh x hm)
    · rw [ht, mem_filled hx] at hy
      obtain ⟨hy, -⟩ | rfl := hy
      · exact hs.size y hy
      · exact hs.size x hm

theorem step_matched (h : Matched e s) : Matched e (s.step cfg e c) := (step_effect cfg e s c).matched h

theorem reach_matched (cfg : Config) (e : Encoding) (cs : List Call) : Matched e (State.reach cfg e cs) :=
  Transition.run_inv (fun _ _ h => step_matched h) cs (matched_init e)

/-! ## Filled slots -/

/-- A filled slot is neither changed nor removed. -/
theorem Effect.filled_kept (h : Effect e s c s') (hx : x ∈ s.slots) (hr : x.record ≠ none) : x ∈ s'.slots := by
  cases h with
  | refused hdb hn ht hv => exact ht ▸ hx
  | shrunk h hdb hn ht hv => exact ht ▸ mem_dropPending.2 ⟨hx, fun h => hr h.1⟩
  | added source containerId hop hid h hn ht hv => exact (Table.mem_insert ht).2 (.inl hx)
  | retired source actor y hop hl h hn hy hyr hnow ht hv =>
    rw [ht, mem_filled hy]
    exact .inl ⟨hx, fun h => hr (h ▸ hyr)⟩

/-- A call that retires no source fills no slot. -/
theorem Effect.none_filled (h : Effect e s c s')
    (hn : ¬∃ source actor, c.Retires source actor ∧ Live s.db source ∧ ¬Live s'.db source) (hx : x ∈ s'.slots)
    (hr : x.record ≠ none) : x ∈ s.slots := by
  cases h with
  | refused hdb hn' ht hv => exact ht ▸ hx
  | shrunk h hdb hn' ht hv => exact (mem_dropPending.1 (ht ▸ hx)).1
  | added source containerId hop hid h hn' ht hv =>
    obtain hx | rfl := (Table.mem_insert ht).1 hx
    · exact hx
    · exact absurd rfl hr
  | retired source actor y hop hl h hn' hy hyr hnow ht hv =>
    exact absurd ⟨source, actor, hop, hl, fun hl' => ((h.live source).1 hl').2 rfl⟩ hn

theorem Call.Retires.unique {source' : Source} {actor' : UserId} (h : c.Retires source actor)
    (h' : c.Retires source' actor') : source = source' ∧ actor = actor' := by
  obtain ⟨kind, id⟩ := source
  obtain ⟨kind', id'⟩ := source'
  obtain ⟨ho, hk⟩ | ⟨ho, hk⟩ := h <;> obtain ⟨ho', hk'⟩ | ⟨ho', hk'⟩ := h' <;> simp_all

/-- A source is retired by the fill of its slot alone. -/
theorem Effect.fills (h : Effect e s c s') (hop : c.Retires source actor) (hl : Live s.db source)
    (hd : ¬Live s'.db source) : s.server.store.now < year10000 ∧ ∃ x, s.slots.get source = some x ∧ x.record = none ∧
      s'.events = s.events ∧ s'.slots = s.slots.update (fun y => y.source = source) fun y =>
        y.filled actor c.requestId s.server.store.now := by
  cases h with
  | refused hdb hn ht hv => exact absurd (hdb ▸ hl) hd
  | shrunk h hdb hn ht hv => exact absurd (hdb _ _ hop ▸ hl) hd
  | added source containerId hc hid h hn ht hv =>
    exact absurd ((h.live _).2 (.inl hl)) hd
  | retired source' actor' x hop' hl' h hn hx hr hnow ht hv =>
    obtain ⟨rfl, rfl⟩ := hop.unique hop'
    exact ⟨hnow, x, hx, hr, hv, ht⟩

/-! ## Calls that delete pages, notebooks and garbage -/

/-- A notebook deletion, or an action of a page deletion or of garbage collection. -/
def Call.Drops (c : Call) (w : World) : Prop :=
  (∃ u cid recent, c.op = .deleteContainer u cid recent) ∨
    ∃ rid j, c.op = .resume rid ∧ w.job rid = some j ∧
      ((∃ u oid st, j = .deleteObject u oid st) ∨ ∃ b now st, j = .gc b now st)

theorem Call.Drops.not_creates {w : World} (h : c.Drops w) : ¬c.Creates w := by
  rintro (⟨u, n, x, b, hc⟩ | ⟨rid, r, cid, hc, hj⟩)
  · obtain ⟨u, cid, recent, hop⟩ | ⟨rid, j, hop, -⟩ := h
    · rw [hop] at hc
      cases hc
    · rw [hop] at hc
      cases hc
  · obtain ⟨u, cid, recent, hop⟩ | ⟨rid', j, hop, hj', hk⟩ := h
    · rw [hop] at hc
      cases hc
    · rw [hop] at hc
      cases hc
      rw [hj] at hj'
      cases hj'
      obtain ⟨u, oid, st, hk⟩ | ⟨b, now, st, hk⟩ := hk <;> cases hk

theorem Call.Drops.not_retires {w : World} (h : c.Drops w) : ¬c.Retires source actor := by
  intro hr
  obtain ⟨u, cid, recent, hop⟩ | ⟨rid, j, hop, -⟩ := h
  · obtain ⟨id, hr⟩ | ⟨id, hr⟩ := hr.op <;> rw [hop] at hr <;> cases hr
  · obtain ⟨id, hr⟩ | ⟨id, hr⟩ := hr.op <;> rw [hop] at hr <;> cases hr

/-- The triggers add no slot, and drop a pending one whose row is gone. -/
theorem Effect.drops (h : Effect e s c s') (hc : c.Drops s.server) :
    (∀ x ∈ s'.slots, x ∈ s.slots) ∧ ∀ x ∈ s.slots, x ∉ s'.slots → x.record = none ∧ ¬HasRow s'.db x.source := by
  cases h with
  | refused hdb hn ht hv =>
    rw [ht]
    exact ⟨fun x hx => hx, fun x hx hno => absurd hx hno⟩
  | shrunk h hdb hn ht hv =>
    rw [ht]
    refine ⟨fun x hx => (mem_dropPending.1 hx).1, fun x hx hno => ?_⟩
    obtain ⟨hr, -, hrow⟩ := not_not.1 fun hn => hno (mem_dropPending.2 ⟨hx, hn⟩)
    exact ⟨hr, hrow⟩
  | added source containerId hop hid h hn ht hv => exact absurd hop hc.not_creates
  | retired source actor x hop hl h hn hx hr hnow ht hv => exact absurd hop hc.not_retires

/-! ## Deletions go through -/

/-- Before the year 10000 no statement on the slots refuses a deletion that the handler admits. -/
theorem deleteComment_goes {u : UserId} {id : CommentId} {p : PageTables} (hm : Matched e s)
    (hop : c.op = .deleteComment u id) (hnow : s.server.store.now < year10000)
    (hd : deleteComment s.db u id s.server.store.now = .ok p) : ¬Live (s.step cfg e c).db ⟨.comment, id⟩ := by
  by_cases hl : Live s.db ⟨.comment, id⟩
  · obtain ⟨x, hx, hr⟩ := pending_iff.1 ((hm.live _).1 hl)
    obtain ⟨t, hf⟩ : ∃ t, fill e s.slots ⟨.comment, id⟩ u c.requestId s.server.store.now = .ok t :=
      ⟨_, fill_total u c.requestId_length hnow hx hr (hm.size x (Table.get_mem hx))⟩
    have ht : slotTx cfg e s c = .ok t := by
      simp only [slotTx, hop, hd, if_pos hl]
      exact hf
    rw [step_ok ht, hop, State.db, (deleteComment_retired hd hl).live]
    exact fun h => h.2 rfl
  · have ht : slotTx cfg e s c = .ok s.slots := by simp only [slotTx, hop, hd, if_neg hl]
    obtain ⟨hl', -⟩ | ⟨-, rfl⟩ := deleteComment_cases hd
    · exact absurd hl' hl
    · rw [step_ok ht, hop, State.db, next_deleteComment, hd]
      exact hl

theorem revokeShareLink_goes {u : UserId} {id : LinkId} {t : Table SealedShareLink.id} (hm : Matched e s)
    (hop : c.op = .revokeShareLink u id) (hnow : s.server.store.now < year10000)
    (hd : revokeShareLink s.db u id s.server.store.now = .ok t) :
    ¬Live (s.step cfg e c).db ⟨.sealedShareLink, id⟩ := by
  obtain ⟨hl, hret⟩ : _ ∧ Retired _ _ (s.server.next cfg _).store.db := revokeShareLink_retired hd
  obtain ⟨x, hx, hr⟩ := pending_iff.1 ((hm.live _).1 hl)
  obtain ⟨t, hf⟩ : ∃ t, fill e s.slots ⟨.sealedShareLink, id⟩ u c.requestId s.server.store.now = .ok t :=
    ⟨_, fill_total u c.requestId_length hnow hx hr (hm.size x (Table.get_mem hx))⟩
  have ht : slotTx cfg e s c = .ok t := by
    simp only [slotTx, hop, hd]
    exact hf
  rw [step_ok ht, hop, State.db, hret.live]
  exact fun h => h.2 rfl

/-! ## The history -/

/-- The audit record of a deletion or a revocation. -/
def Slot.entry (x : Slot) (actor : UserId) (request : Bytes) (now : Stamp) : AuditEvent :=
  { id := x.auditId, userId := some actor, event := x.source.kind.event, containerId := x.containerId,
    objectId := some x.source.id, time := now, outcome := "success", actorUserId := some actor, actorDeviceId := none,
    requestId := Utf8.text request, reasonCode := "" }

/-- A fill adds one entry to the history. -/
theorem history_filled {t : Slots} {request : Bytes} {now : Stamp} (events : List AuditEvent)
    (hx : t.get source = some x) (hr : x.record = none) :
    (auditHistory events (t.update (fun y => y.source = source) fun y => y.filled actor request now)).Perm
      (x.entry actor request now :: auditHistory events t) := by
  obtain ⟨l₁, l₂, hl, hl'⟩ := Table.update_split (f := fun y => y.filled actor request now) hx
  have hn : x.history = none := by rw [Slot.history, hr]; rfl
  have hs : (x.filled actor request now).history = some (x.entry actor request now) := rfl
  rw [auditHistory, auditHistory, hl, hl']
  simp only [List.filterMap_append, List.filterMap_cons, hn, hs]
  rw [← List.append_assoc, ← List.append_assoc]
  exact List.perm_middle

/-! ## Over every run -/

/-- In every state that a server reaches, the pending slots are in one-to-one correspondence with the live comments and
the unrevoked links. A filled slot stays as it is over every further run. A call that deletes a comment or revokes a link
fills the slot of that source and no other, which adds one entry to the history: its actor, the text of its request ID,
its time; every other call fills none. Deletions of pages and notebooks and garbage collection drop pending slots only,
and before the year 10000 every deletion and revocation that its handler admits goes through. -/
theorem slots_track_live (cfg : Config) (e : Encoding) (cs : List Call) :
    let s := State.reach cfg e cs
    (∀ x ∈ s.slots, x.record = none → Live s.db x.source) ∧
    (∀ source, Live s.db source → ∃! x, x ∈ s.slots ∧ x.record = none ∧ x.source = source) ∧
    (∀ cs', ∀ x ∈ s.slots, x.record ≠ none → x ∈ (State.reach cfg e (cs ++ cs')).slots) ∧
    ∀ c : Call,
      let s' := s.step cfg e c
      let now := s.server.store.now
      (∀ source actor, c.Retires source actor → Live s.db source → ¬Live s'.db source →
        ∃ x ∈ s.slots, x.source = source ∧ x.record = none ∧
          (∀ y, y ∈ s'.slots ↔ y ∈ s.slots ∧ y ≠ x ∨ y = x.filled actor c.requestId now) ∧
          s'.history.Perm (x.entry actor c.requestId now :: s.history)) ∧
      ((¬∃ source actor, c.Retires source actor ∧ Live s.db source ∧ ¬Live s'.db source) →
        ∀ x ∈ s'.slots, x.record ≠ none → x ∈ s.slots) ∧
      (c.Drops s.server → (∀ x ∈ s'.slots, x ∈ s.slots) ∧ ∀ x ∈ s.slots, x ∉ s'.slots → x.record = none) ∧
      (now < year10000 → ∀ actor id,
        (c.op = .deleteComment actor id → ∀ p, deleteComment s.db actor id now = .ok p → ¬Live s'.db ⟨.comment, id⟩) ∧
        (c.op = .revokeShareLink actor id → ∀ t, revokeShareLink s.db actor id now = .ok t →
          ¬Live s'.db ⟨.sealedShareLink, id⟩)) := by
  intro s
  have hm : Matched e s := reach_matched cfg e cs
  refine ⟨fun x hx hr => (hm.live _).2 ⟨x, hx, rfl, hr⟩, fun source hl => ?_, fun cs' x hx hr => ?_, fun c => ?_⟩
  · obtain ⟨x, hx, hs, hr⟩ := (hm.live _).1 hl
    exact ⟨x, ⟨hx, hr, hs⟩, fun y hy => Table.eq_of_key hy.1 hx (hy.2.2.trans hs.symm)⟩
  · rw [State.reach, State.run, Transition.run_append]
    exact Transition.run_inv (fun s c hs => (step_effect cfg e s c).filled_kept hs hr) cs' hx
  · have heff := step_effect cfg e s c
    refine ⟨fun source actor hop hl hd => ?_, fun hn x hx hr => heff.none_filled hn hx hr, fun hc => ?_,
      fun hnow actor id => ⟨fun hop p hd => ?_, fun hop t hd => ?_⟩⟩
    · obtain ⟨-, x, hx, hr, hv, ht⟩ := heff.fills hop hl hd
      refine ⟨x, Table.get_mem hx, Table.get_key hx, hr, fun y => ?_, ?_⟩
      · rw [ht]
        exact mem_filled hx
      · rw [State.history, hv, ht]
        exact history_filled _ hx hr
    · exact ⟨(heff.drops hc).1, fun x hx hno => ((heff.drops hc).2 x hx hno).1⟩
    · exact deleteComment_goes hm hop hnow hd
    · exact revokeShareLink_goes hm hop hnow hd

/-! ## A comment deleted under an ID that is no UTF-8 -/

/-- A call through a trusted proxy. -/
def trustedCall (header : Bytes) (op : Op) : Call := ⟨op, true, header, ⟨List.replicate idBytes 0x30, rfl⟩, []⟩

/-- User 0 comments on page 4. -/
def firstComment : CommentReq := ⟨0, 4, 2, true, 1, [], true⟩

/-- Request 5 stores comment 6. -/
def commentCalls : List Call := (sampleSetup ++ alone (.comment firstComment) 5 2).map (trustedCall [0x41])

/-- The deletion of comment 6, under the one byte `0xff`. -/
def deletion : Call := trustedCall [0xff] (.deleteComment 0 6)

theorem deletion_live : Live (State.reach sampleConfig .utf8 commentCalls).db ⟨.comment, 6⟩ := by decide +kernel

theorem deletion_deletes :
    ¬Live ((State.reach sampleConfig .utf8 commentCalls).step sampleConfig .utf8 deletion).db ⟨.comment, 6⟩ := by
  decide +kernel

/-- The deletion fills the slot of the comment, and adds its entry. -/
theorem slots_track_live_deletion : ∃ x ∈ (State.reach sampleConfig .utf8 commentCalls).slots,
    x.source = ⟨.comment, 6⟩ ∧
    ((State.reach sampleConfig .utf8 commentCalls).step sampleConfig .utf8 deletion).history.Perm
      (x.entry 0 deletion.requestId 0 :: (State.reach sampleConfig .utf8 commentCalls).history) := by
  obtain ⟨x, hx, hs, -, -, hp⟩ := ((slots_track_live sampleConfig .utf8 commentCalls).2.2.2 deletion).1 ⟨.comment, 6⟩ 0
    (.inl ⟨rfl, rfl⟩) deletion_live deletion_deletes
  exact ⟨x, hx, hs, hp⟩

/-- Its request ID is one byte that no entry of the history has for its request. -/
theorem deletion_replaced : deletion.requestId = [0xff] ∧ Live (State.reach sampleConfig .utf8 commentCalls).db ⟨.comment, 6⟩ ∧
    ¬Live ((State.reach sampleConfig .utf8 commentCalls).step sampleConfig .utf8 deletion).db ⟨.comment, 6⟩ ∧
    ∀ a ∈ ((State.reach sampleConfig .utf8 commentCalls).step sampleConfig .utf8 deletion).history,
      Utf16.utf8 (String.ofList a.requestId) ≠ [0xff] :=
  ⟨by decide, deletion_live, deletion_deletes, by decide +kernel⟩

end KyNotes.Cleanup
