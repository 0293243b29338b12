import KyNotes.Pages.Saves

/-!
# What an operation does to the change feed

An operation stamps at most one row of a container with its new `change_seq` (`PageChange.feed`). Every other entry of
the feed is as it was, or is deleted or revived in silence: it keeps its old number. `Unstamped` and `Closes` list the
operations that do so.

* `SeqInv`: the numbers of a container's rows are distinct and at most its `change_seq`.
* `liveness_reaches_feed`: an operation reports every change of a row's liveness exactly when it is not `Unstamped`.
-/

namespace KyNotes

open Relational Check Transition

variable {cfg : Config} {w : World} {op : Op} {p p' : PageTables} {c : ContainerId} {e : Entry}

/-! ## Entries -/

theorem mem_feedEntries : e ∈ feedEntries p c ↔
    (∃ o ∈ p.objects, o.containerId = c ∧ o.entry = e) ∨ (∃ a ∈ p.attachments, a.containerId = c ∧ a.entry = e) ∨
      (∃ x ∈ p.comments, x.containerId = c ∧ x.entry = e) ∨ ∃ x ∈ p.conflicts, x.containerId = c ∧ x.entry = e := by
  simp [feedEntries, Table.mem_def, and_assoc]

section Rows

variable (c)

theorem object_mem_feed {o : Object} (ho : o ∈ p.objects) (hc : o.containerId = c) : o.entry ∈ feedEntries p c :=
  mem_feedEntries.mpr (Or.inl ⟨o, ho, hc, rfl⟩)

theorem attachment_mem_feed {a : Attachment} (ha : a ∈ p.attachments) (hc : a.containerId = c) :
    a.entry ∈ feedEntries p c :=
  mem_feedEntries.mpr (Or.inr (Or.inl ⟨a, ha, hc, rfl⟩))

theorem comment_mem_feed {x : Comment} (hx : x ∈ p.comments) (hc : x.containerId = c) : x.entry ∈ feedEntries p c :=
  mem_feedEntries.mpr (Or.inr (Or.inr (Or.inl ⟨x, hx, hc, rfl⟩)))

theorem conflict_mem_feed {x : Conflict} (hx : x ∈ p.conflicts) (hc : x.containerId = c) : x.entry ∈ feedEntries p c :=
  mem_feedEntries.mpr (Or.inr (Or.inr (Or.inr ⟨x, hx, hc, rfl⟩)))

end Rows

/-- A fact about the entries of a feed, table by table. -/
theorem forall_feed {G : Entry → Prop} (ho : ∀ o ∈ p.objects, o.containerId = c → G o.entry)
    (ha : ∀ a ∈ p.attachments, a.containerId = c → G a.entry) (hm : ∀ x ∈ p.comments, x.containerId = c → G x.entry)
    (hx : ∀ x ∈ p.conflicts, x.containerId = c → G x.entry) : ∀ e ∈ feedEntries p c, G e := by
  intro e he
  rcases mem_feedEntries.mp he with ⟨o, h, hc, rfl⟩ | ⟨a, h, hc, rfl⟩ | ⟨x, h, hc, rfl⟩ | ⟨x, h, hc, rfl⟩
  · exact ho o h hc
  · exact ha a h hc
  · exact hm x h hc
  · exact hx x h hc

/-- A container has one entry of a kind and an identifier. -/
theorem entry_unique {e' : Entry} (he : e ∈ feedEntries p c) (he' : e' ∈ feedEntries p c) (hk : e'.kind = e.kind)
    (hid : e'.id = e.id) : e' = e := by
  rcases mem_feedEntries.mp he with ⟨o, h, -, rfl⟩ | ⟨a, h, -, rfl⟩ | ⟨x, h, -, rfl⟩ | ⟨x, h, -, rfl⟩ <;>
    rcases mem_feedEntries.mp he' with ⟨o', h', -, rfl⟩ | ⟨a', h', -, rfl⟩ | ⟨x', h', -, rfl⟩ | ⟨x', h', -, rfl⟩ <;>
      first | exact congrArg _ (Table.eq_of_key h' h hid) | cases hk

/-- The same row with the same number. -/
structure SameStamp (e e' : Entry) : Prop where
  id : e'.id = e.id
  kind : e'.kind = e.kind
  seq : e'.changeSeq = e.changeSeq

/-- The entry has the number that the operation gave out. -/
structure Stamped (p p' : PageTables) (kind : EntryKind) (id : Nat) (c : ContainerId) (e : Entry) : Prop where
  kind : e.kind = kind
  id : e.id = id
  seq : e.changeSeq = p.changeSeq c + 1
  le : e.changeSeq ≤ p'.changeSeq c

/-! ## Silent changes -/

/-- The operations that delete or revive an attachment of a container that stays, without a new number for it: a page
deletion that takes an attachment along, and a finalize that revives one. -/
inductive Unstamped (w : World) : Op → ContainerId → Prop
  | cascade {rid u oid cid} {a : Attachment} (hj : w.job rid = some (.deleteObject u oid (.tx cid)))
      (ha : a ∈ w.pages.attachments) (ho : OnlyOn w.pages oid a) : Unstamped w (.resume rid) a.containerId
  | revive {rid r u d size preview db ans} {a : Attachment}
      (hj : w.job rid = some (.finalizeUpload r (.tx u d size preview)))
      (hx : finalizeTx w.store r u d size preview w.store.next = .ok (db, ans)) (hk : u.kind = .attachment)
      (ha : attachmentOf w.pages u.containerId d = some a) (hd : a.deletedAt ≠ none) :
      Unstamped w (.resume rid) u.containerId

/-- The operations that tombstone what a deleted container holds. -/
inductive Closes (w : World) : Op → ContainerId → Prop
  | deleteContainer {u cid recent db c} (hx : deleteContainer w.store.db u cid recent w.store.now = .ok db)
      (hs : InScope w.keys cid c)
      (hl : (∃ o ∈ w.pages.objects, o.containerId = c ∧ o.deletedAt = none) ∨
        ∃ a ∈ w.pages.attachments, a.containerId = c ∧ a.deletedAt = none) :
      Closes w (.deleteContainer u cid recent) c
  | gcTombstone {rid b now} {a : Attachment} (hj : w.job rid = some (.gc b now .tombstone))
      (ha : a ∈ w.pages.attachments) (hl : a.deletedAt = none)
      (hd : (w.keys.containers.get a.containerId).bind Container.deletedAt ≠ none) :
      Closes w (.resume rid) a.containerId

/-- The operation changes an entry of the container's feed and leaves its number. -/
def Silent (w : World) (op : Op) (c : ContainerId) : Prop := Unstamped w op c ∨ Closes w op c

/-! ## One operation -/

theorem bumpSeq_le (p : PageTables) (c : ContainerId) : p.changeSeq c + 1 ≤ (bumpSeq p c).changeSeq c :=
  Nat.le_of_eq (bumpSeq_same c).symm

theorem le_bumpSeq (p : PageTables) (cid c : ContainerId) : p.changeSeq c ≤ (bumpSeq p cid).changeSeq c :=
  le_bumpSeqs _ c

theorem PageChange.seq_le (hc : PageChange cfg w op p') (c : ContainerId) : w.pages.changeSeq c ≤ p'.changeSeq c := by
  cases hc with
  | same | link | unlink | gcTombstone | gcKeys | gcSweep => exact Nat.le_refl _
  | bump | deleteContainer => exact le_bumpSeqs _ c
  | createObject | resolveConflict | deleteComment | conflict | version | deleteObject | comment | revive | attach =>
    exact le_bumpSeq w.pages _ c

/-- Every entry after an operation is an entry before it, the one row that it stamped, or one that it changed in
silence. -/
theorem PageChange.feed (hc : PageChange cfg w op p') (hp : PageInv cfg w) : ∃ kind id, ∀ c, ∀ e ∈ feedEntries p' c,
    e ∈ feedEntries w.pages c ∨ Stamped w.pages p' kind id c e ∨
      (Silent w op c ∧ ∃ e₀ ∈ feedEntries w.pages c, SameStamp e₀ e) := by
  have obj : ∀ {c} {o : Object}, o ∈ w.pages.objects → o.containerId = c → o.entry ∈ feedEntries w.pages c :=
    fun ho hc => object_mem_feed _ ho hc
  have att : ∀ {c} {a : Attachment}, a ∈ w.pages.attachments → a.containerId = c → a.entry ∈ feedEntries w.pages c :=
    fun ha hc => attachment_mem_feed _ ha hc
  have com : ∀ {c} {x : Comment}, x ∈ w.pages.comments → x.containerId = c → x.entry ∈ feedEntries w.pages c :=
    fun hx hc => comment_mem_feed _ hx hc
  have con : ∀ {c} {x : Conflict}, x ∈ w.pages.conflicts → x.containerId = c → x.entry ∈ feedEntries w.pages c :=
    fun hx hc => conflict_mem_feed _ hx hc
  cases hc with
  | same | bump | link | unlink | gcKeys => exact ⟨.object, 0, fun c e he => Or.inl he⟩
  | deleteContainer hx =>
    refine ⟨.object, 0, fun c => forall_feed ?_ ?_ ?_ ?_⟩
    · intro o ho hc
      rcases Table.mem_update_cases ho with ⟨ho, -⟩ | ⟨b, hb, ⟨hl, hs⟩, rfl⟩
      · exact Or.inl (obj ho hc)
      · subst hc
        exact Or.inr (Or.inr ⟨Or.inr (.deleteContainer hx hs (Or.inl ⟨b, hb, rfl, hl⟩)), _, obj hb rfl, rfl, rfl, rfl⟩)
    · intro a ha hc
      rcases Table.mem_update_cases ha with ⟨ha, -⟩ | ⟨b, hb, ⟨hl, hs⟩, rfl⟩
      · exact Or.inl (att ha hc)
      · subst hc
        exact Or.inr (Or.inr ⟨Or.inr (.deleteContainer hx hs (Or.inr ⟨b, hb, rfl, hl⟩)), _, att hb rfl, rfl, rfl, rfl⟩)
    · exact fun x hx hc => Or.inl (com (Table.mem_delete.mp hx).1 hc)
    · exact fun x hx hc => Or.inl (con (Table.mem_delete.mp hx).1 hc)
  | createObject _ ht =>
    refine ⟨.object, w.store.next, fun c => forall_feed ?_ (fun a ha hc => Or.inl (att ha hc))
      (fun x hx hc => Or.inl (com hx hc)) fun x hx hc => Or.inl (con hx hc)⟩
    intro o ho hc
    rcases (Table.mem_insert ht).mp ho with ho | rfl
    · exact Or.inl (obj ho hc)
    · subst hc
      exact Or.inr (Or.inl ⟨rfl, rfl, rfl, bumpSeq_le _ _⟩)
  | @resolveConflict _ id _ hx hid =>
    refine ⟨.conflict, id, fun c => forall_feed (fun o ho hc => Or.inl (obj ho hc)) (fun a ha hc => Or.inl (att ha hc))
      (fun x hx hc => Or.inl (com hx hc)) ?_⟩
    intro y hy hc
    rcases Table.mem_update_cases hy with ⟨hy, -⟩ | ⟨z, hz, hyid, rfl⟩
    · exact Or.inl (con hy hc)
    · have hyx := Table.eq_of_key hz hx (hyid.trans hid.symm)
      subst hyx
      subst hc
      exact Or.inr (Or.inl ⟨rfl, hyid, rfl, bumpSeq_le _ _⟩)
  | @deleteComment _ id _ hx hid =>
    refine ⟨.comment, id, fun c => forall_feed (fun o ho hc => Or.inl (obj ho hc)) (fun a ha hc => Or.inl (att ha hc))
      ?_ fun x hx hc => Or.inl (con hx hc)⟩
    intro y hy hc
    rcases Table.mem_update_cases hy with ⟨hy, -⟩ | ⟨z, hz, hyid, rfl⟩
    · exact Or.inl (com hy hc)
    · have hyx := Table.eq_of_key hz hx (hyid.trans hid.symm)
      subst hyx
      subst hc
      exact Or.inr (Or.inl ⟨rfl, hyid, rfl, bumpSeq_le _ _⟩)
  | conflict _ _ _ ht =>
    refine ⟨.conflict, w.store.next, fun c => forall_feed (fun o ho hc => Or.inl (obj ho hc))
      (fun a ha hc => Or.inl (att ha hc)) (fun x hx hc => Or.inl (com hx hc)) ?_⟩
    intro y hy hc
    rcases (Table.mem_insert ht).mp hy with hy | rfl
    · exact Or.inl (con hy hc)
    · subst hc
      exact Or.inr (Or.inl ⟨rfl, rfl, rfl, bumpSeq_le _ _⟩)
  | @version _ r _ _ _ _ _ hj _ _ _ _ =>
    refine ⟨.object, r.objectId, fun c => forall_feed ?_ (fun a ha hc => Or.inl (att ha hc))
      (fun x hx hc => Or.inl (com hx hc)) fun x hx hc => Or.inl (con hx hc)⟩
    intro o ho hc
    rcases Table.mem_update_cases ho with ⟨ho, -⟩ | ⟨y, hy, hoid, rfl⟩
    · exact Or.inl (obj ho hc)
    · obtain ⟨x, hx, hxid, hxc⟩ := hp.job_located hj rfl
      have hox := Table.eq_of_key hy hx (hoid.trans hxid.symm)
      subst hox
      have hcid := hxc.symm.trans hc
      subst hcid
      exact Or.inr (Or.inl ⟨rfl, hoid, rfl, bumpSeq_le _ _⟩)
  | @deleteObject _ _ oid _ hj =>
    refine ⟨.object, oid, fun c => forall_feed ?_ ?_ (fun x hx hc => Or.inl (com (Table.mem_delete.mp hx).1 hc))
      fun x hx hc => Or.inl (con (Table.mem_delete.mp hx).1 hc)⟩
    · intro o ho hc
      rcases Table.mem_update_cases ho with ⟨ho, -⟩ | ⟨y, hy, hoid, rfl⟩
      · exact Or.inl (obj ho hc)
      · obtain ⟨x, hx, hxid, hxc⟩ := hp.job_located hj rfl
        have hox := Table.eq_of_key hy hx (hoid.trans hxid.symm)
        subst hox
        have hcid := hxc.symm.trans hc
        subst hcid
        exact Or.inr (Or.inl ⟨rfl, hoid, bumpSeq_same _, Nat.le_refl _⟩)
    · intro a ha hc
      rcases Table.mem_update_cases ha with ⟨ha, -⟩ | ⟨b, hb, hon, rfl⟩
      · exact Or.inl (att ha hc)
      · subst hc
        exact Or.inr (Or.inr ⟨Or.inl (.cascade (a := b) hj hb hon), _, att hb rfl, rfl, rfl, rfl⟩)
  | comment _ _ _ _ ht =>
    refine ⟨.comment, w.store.next, fun c => forall_feed (fun o ho hc => Or.inl (obj ho hc))
      (fun a ha hc => Or.inl (att ha hc)) ?_ fun x hx hc => Or.inl (con hx hc)⟩
    intro y hy hc
    rcases (Table.mem_insert ht).mp hy with hy | rfl
    · exact Or.inl (com hy hc)
    · subst hc
      exact Or.inr (Or.inl ⟨rfl, rfl, rfl, bumpSeq_le _ _⟩)
  | revive hj hx hk hat =>
    refine ⟨.attachment, 0, fun c => forall_feed (fun o ho hc => Or.inl (obj ho hc)) ?_
      (fun x hx hc => Or.inl (com hx hc)) fun x hx hc => Or.inl (con hx hc)⟩
    intro x hx' hc
    obtain ⟨ha, hac, -⟩ := attachmentOf_some hat
    rcases Table.mem_update_cases hx' with ⟨hx', -⟩ | ⟨b, hb, hba, rfl⟩
    · exact Or.inl (att hx' hc)
    · have hab := Table.eq_of_key hb ha hba
      subst hab
      have hcid := hac.symm.trans hc
      subst hcid
      by_cases hd : b.deletedAt = none
      · left
        have : ({ b with deletedAt := none } : Attachment) = b := by rw [← hd]
        rw [this]
        exact att hb hac
      · exact Or.inr (Or.inr ⟨Or.inl (.revive hj hx hk hat hd), _, att hb hac, rfl, rfl, rfl⟩)
  | attach _ _ _ _ _ ht =>
    refine ⟨.attachment, w.store.next, fun c => forall_feed (fun o ho hc => Or.inl (obj ho hc)) ?_
      (fun x hx hc => Or.inl (com hx hc)) fun x hx hc => Or.inl (con hx hc)⟩
    intro b hb hc
    rcases (Table.mem_insert ht).mp hb with hb | rfl
    · exact Or.inl (att hb hc)
    · subst hc
      exact Or.inr (Or.inl ⟨rfl, rfl, rfl, bumpSeq_le _ _⟩)
  | gcTombstone hj =>
    refine ⟨.object, 0, fun c => forall_feed (fun o ho hc => Or.inl (obj ho hc)) ?_
      (fun x hx hc => Or.inl (com hx hc)) fun x hx hc => Or.inl (con hx hc)⟩
    intro a ha hc
    rcases Table.mem_update_cases ha with ⟨ha, -⟩ | ⟨b, hb, ⟨hl, hd⟩, rfl⟩
    · exact Or.inl (att ha hc)
    · subst hc
      exact Or.inr (Or.inr ⟨Or.inr (.gcTombstone (a := b) hj hb hl hd), _, att hb rfl, rfl, rfl, rfl⟩)
  | gcSweep =>
    exact ⟨.object, 0, fun c => forall_feed (fun o ho hc => Or.inl (obj ho hc))
      (fun a ha hc => Or.inl (att (Table.mem_delete.mp ha).1 hc)) (fun x hx hc => Or.inl (com hx hc))
      fun x hx hc => Or.inl (con (Table.mem_delete.mp hx).1 hc)⟩

/-! ## Numbers -/

/-- The rows of a container have distinct numbers, at most its `change_seq`. -/
structure SeqInv (p : PageTables) : Prop where
  distinct : ∀ c, ∀ e ∈ feedEntries p c, ∀ e' ∈ feedEntries p c, e.changeSeq = e'.changeSeq → e = e'
  bounded : ∀ c, ∀ e ∈ feedEntries p c, e.changeSeq ≤ p.changeSeq c

theorem init_seqInv : SeqInv World.init.pages :=
  ⟨fun _ _ h => absurd h List.not_mem_nil, fun _ _ h => absurd h List.not_mem_nil⟩

/-- An entry after an operation has the number of an entry before it, or the new number of the stamped row. -/
theorem PageChange.stamp (hc : PageChange cfg w op p') (hp : PageInv cfg w) : ∃ kind id, ∀ c, ∀ e ∈ feedEntries p' c,
    (∃ e₀ ∈ feedEntries w.pages c, SameStamp e₀ e) ∨ Stamped w.pages p' kind id c e := by
  obtain ⟨kind, id, h⟩ := hc.feed hp
  refine ⟨kind, id, fun c e he => ?_⟩
  rcases h c e he with h | h | ⟨-, h⟩
  · exact Or.inl ⟨e, h, rfl, rfl, rfl⟩
  · exact Or.inr h
  · exact Or.inl h

theorem PageChange.seqInv (hc : PageChange cfg w op p') (hp : PageInv cfg w) (h : SeqInv w.pages) : SeqInv p' := by
  obtain ⟨kind, id, hf⟩ := hc.stamp hp
  constructor
  · intro c e he e' he' hseq
    have same : e'.kind = e.kind ∧ e'.id = e.id := by
      rcases hf c e he with ⟨x, hx, hs⟩ | hs <;> rcases hf c e' he' with ⟨x', hx', hs'⟩ | hs'
      · have hxx := h.distinct c x hx x' hx' (by rw [← hs.seq, ← hs'.seq, hseq])
        subst hxx
        exact ⟨hs'.kind.trans hs.kind.symm, hs'.id.trans hs.id.symm⟩
      · -- an old number and the new one
        have hb := h.bounded c x hx
        have h1 := hs.seq
        have h2 := hs'.seq
        omega
      · have hb := h.bounded c x' hx'
        have h1 := hs.seq
        have h2 := hs'.seq
        omega
      · exact ⟨hs'.kind.trans hs.kind.symm, hs'.id.trans hs.id.symm⟩
    exact (entry_unique he he' same.1 same.2).symm
  · intro c e he
    rcases hf c e he with ⟨x, hx, hs⟩ | hs
    · rw [hs.seq]
      exact Nat.le_trans (h.bounded c x hx) (hc.seq_le c)
    · exact hs.le

/-- The invariants that the feed needs. -/
structure FeedInv (cfg : Config) (w : World) : Prop where
  pages : PageInv cfg w
  seqs : SeqInv w.pages

theorem step_feedInv (w : World) (op : Op) (h : FeedInv cfg w) : FeedInv cfg (w.next cfg op) :=
  ⟨step_pageInv w op h.pages, (step_pages cfg w op).seqInv h.pages h.seqs⟩

theorem reach_feedInv (cfg : Config) (ops : List Op) : FeedInv cfg (World.reach cfg ops) :=
  run_inv step_feedInv ops ⟨init_pageInv, init_seqInv⟩

/-! ## Every liveness change reaches the feed -/

/-- From `p` to `p'`, every page and attachment of the container that was deleted or revived has a number past the old
`change_seq`, and a client with a cursor up to that is shown it. -/
def Reported (p p' : PageTables) (c : ContainerId) : Prop :=
  ∀ e ∈ feedEntries p c, ∀ e' ∈ feedEntries p' c, (e.kind = .object ∨ e.kind = .attachment) →
    e'.kind = e.kind → e'.id = e.id → e'.deleted ≠ e.deleted →
      p.changeSeq c < p'.changeSeq c ∧ p.changeSeq c < e'.changeSeq ∧
        ∀ since : Int, since ≤ p.changeSeq c → e' ∈ entriesAfter p' c since

theorem mem_entriesAfter {since : Int} : e ∈ entriesAfter p c since ↔ e ∈ feedEntries p c ∧ since < e.changeSeq := by
  simp [entriesAfter, List.mem_mergeSort]

/-- A container that an operation closes is deleted after it. -/
theorem Closes.not_live (h : Closes w op c) : liveContainer (w.next cfg op).keys c = none := by
  cases h with
  | @deleteContainer u cid recent db _ hx hs =>
    have hk : (w.next cfg (.deleteContainer u cid recent)).keys = tombstoneContainers w.keys cid w.store.now := by
      simp only [World.next, step, txDb, hx, commitDb, deleteContainer_ok hx]
      rfl
    obtain ⟨x, hx, rfl, hs⟩ := hs
    rw [hk]
    simp only [liveContainer, tombstoneContainers]
    rw [Table.get_update, Table.get_of_mem hx]
    by_cases hd : x.deletedAt = none
    · simp [hd, hs]
    · simp [hd]
  | @gcTombstone rid b now a hj _ _ hd =>
    obtain ⟨hs, -⟩ := step_resume cfg hj (by intro _ h; cases h)
    have hk : (w.next cfg (.resume rid)).keys = w.keys := by
      simp only [World.keys, hs, act, actGc, goOn]
      rfl
    rw [hk]
    unfold liveContainer
    cases hg : w.keys.containers.get a.containerId with
    | none => rfl
    | some x =>
      rw [hg] at hd
      simpa using hd

/-- An unstamped operation leaves an attachment with an old number and a new flag. -/
theorem Unstamped.not_reported (h : Unstamped w op c) (hi : SeqInv w.pages) :
    ¬Reported w.pages (w.next cfg op).pages c := by
  intro hr
  have stale : ∀ {a a' : Attachment}, a ∈ w.pages.attachments → a.containerId = c → a' ∈ (w.next cfg op).pages.attachments →
      a'.id = a.id → a'.containerId = c → a'.changeSeq = a.changeSeq → a'.entry.deleted ≠ a.entry.deleted → False := by
    intro a a' ha hac ha' hid hac' hseq hd
    have hb := hi.bounded c _ (attachment_mem_feed c ha hac)
    have hlt := (hr _ (attachment_mem_feed c ha hac) _ (attachment_mem_feed c ha' hac') (Or.inr rfl) rfl hid hd).2.1
    simp only [Attachment.entry] at hb hlt
    omega
  cases h with
  | @cascade rid u oid cid a hj ha ho =>
    obtain ⟨hs, -⟩ := step_resume cfg hj (by intro _ h; cases h)
    have hn : { a with deletedAt := some w.store.now } ∈ (w.next cfg (.resume rid)).pages.attachments := by
      simp only [World.pages, hs]
      exact Table.mem_update_of (p := OnlyOn w.pages oid) (f := fun a => { a with deletedAt := some w.store.now }) ha ho
    refine stale ha rfl hn rfl rfl rfl ?_
    simp [Attachment.entry, ho.1]
  | @revive rid r u d size preview db ans a hj hx hk hat hd =>
    obtain ⟨hs, -⟩ := step_resume cfg hj (by intro _ h; cases h)
    obtain ⟨ha, hac, -⟩ := attachmentOf_some hat
    have hn : { a with deletedAt := none } ∈ (w.next cfg (.resume rid)).pages.attachments := by
      simp only [World.pages, hs, act, actFinalize, hx]
      obtain ⟨-, ⟨hk', -, -⟩ | ⟨-, -, -, att, -, hp⟩⟩ := finalizeTx_ok hx
      · rw [hk] at hk'; cases hk'
      · obtain ⟨b, hb, -, hp⟩ | ⟨hb, -⟩ := placeAttachment_ok hp
        · rw [hat] at hb
          cases hb
          rw [hp]
          exact Table.mem_update_of (p := fun x => x.id = a.id) (f := fun x => { x with deletedAt := none }) ha rfl
        · rw [hat] at hb; cases hb
    refine stale ha hac hn rfl hac rfl ?_
    simpa [Attachment.entry] using hd

/-- **Liveness and the feed.** In every reachable state, an operation after which a container is live reports every
page and attachment of it that it deletes or revives exactly when it is not a page deletion that takes an attachment of
that container along and not a finalize that revives one. -/
theorem liveness_reaches_feed (cfg : Config) (ops : List Op) (op : Op) (c : ContainerId)
    (hl : (liveContainer ((World.reach cfg ops).next cfg op).keys c).isSome) :
    Reported (World.reach cfg ops).pages ((World.reach cfg ops).next cfg op).pages c ↔
      ¬Unstamped (World.reach cfg ops) op c := by
  have hi := reach_feedInv cfg ops
  refine ⟨fun hr hu => hu.not_reported hi.seqs hr, fun hu e he e' he' _ hk hid hd => ?_⟩
  obtain ⟨kind, id, hf⟩ := (step_pages cfg (World.reach cfg ops) op).feed hi.pages
  rcases hf c e' he' with hold | hs | ⟨hu' | hc, -⟩
  · have hee := entry_unique he hold hk hid
    subst hee
    exact absurd rfl hd
  · have h1 := hs.seq
    have h2 := hs.le
    refine ⟨by omega, by omega, fun since hle => mem_entriesAfter.mpr ⟨he', ?_⟩⟩
    omega
  · exact absurd hu' hu
  · rw [hc.not_live] at hl
    cases hl

/-- The body `"b"` is uploaded, finalized as attachment 9 and linked to page 4, and a deletion of page 4 has passed its
checks. -/
def beforeCascade : List Op :=
  sampleSetup ++ alone (.startUpload ⟨0, 2, true, .attachment, 1, none⟩) 5 3 ++
    alone (.patchUpload ⟨0, 6, true, 0, [0x62]⟩) 7 5 ++ alone (.finalizeUpload ⟨0, 6, true, 2, some 0, none⟩) 8 7 ++
    alone (.link 0 4 9 0) 10 2 ++ alone (.deleteObject 0 4) 11 1

theorem liveness_reaches_feed_cascade :
    Reported (World.reach sampleConfig beforeCascade).pages
      ((World.reach sampleConfig beforeCascade).next sampleConfig (.resume 11)).pages 2 ↔
      ¬Unstamped (World.reach sampleConfig beforeCascade) (.resume 11) 2 :=
  liveness_reaches_feed sampleConfig beforeCascade (.resume 11) 2 (by decide +kernel)

/-- The deletion of the page takes the attachment along, which keeps its number 4. -/
theorem cascade_unreported :
    ¬Reported (World.reach sampleConfig beforeCascade).pages
      ((World.reach sampleConfig beforeCascade).next sampleConfig (.resume 11)).pages 2 := by
  intro h
  have hlt := (h ⟨9, .attachment, 4, false, []⟩ (by decide +kernel) ⟨9, .attachment, 4, true, []⟩ (by decide +kernel)
    (Or.inr rfl) rfl rfl (by decide)).2.1
  exact absurd hlt (by decide +kernel)

end KyNotes
