import KyNotes.Lib.Feed
import KyNotes.Feed.Stamps

/-!
# Paging through the change feed

`changes` is a page of the general feed, with the clamped limit (`changes_page`). An operation that changes nothing in
silence stamps what it changes (`step_stamps`), so that the paging rule applies.

* `SeqInv.nodup`: the numbers of a container's rows are pairwise distinct.
* `paging_complete`: a reader who pages to the end has the latest entry of every row past its first cursor, if nothing
  changed in silence between its pages.
-/

namespace KyNotes

open Relational Check Transition

variable {cfg : Config} {w : World} {op : Op} {p : PageTables} {c : ContainerId}

/-! ## Distinct numbers -/

theorem nodup_entries {ρ : Type} {key : ρ → Nat} (t : Table key) (q : ρ → Prop) [DecidablePred q] {f : ρ → Entry}
    (hf : ∀ r, (f r).id = key r) : ((t.rows.filter fun r => q r).map f).Nodup := by
  refine List.Nodup.of_map Entry.id ?_
  rw [List.map_map, show Entry.id ∘ f = key from funext hf]
  exact t.nodup.sublist (List.filter_sublist.map key)

theorem kind_of_mem {ρ : Type} {l : List ρ} {f : ρ → Entry} {kind : EntryKind} (hf : ∀ r, (f r).kind = kind) {e : Entry}
    (h : e ∈ l.map f) : e.kind = kind := by
  obtain ⟨r, -, rfl⟩ := List.mem_map.mp h
  exact hf r

theorem feedEntries_nodup (p : PageTables) (c : ContainerId) : (feedEntries p c).Nodup := by
  unfold feedEntries
  have apart : ∀ {l l' : List Entry} {k : EntryKind}, (∀ e ∈ l, e.kind ≠ k) → (∀ e ∈ l', e.kind = k) →
      ∀ a ∈ l, ∀ b ∈ l', a ≠ b := by
    intro l l' k hl hl' a ha b hb hab
    subst hab
    exact hl a ha (hl' a hb)
  have obj : ∀ e ∈ (p.objects.rows.filter fun o => o.containerId = c).map Object.entry, e.kind = .object :=
    fun e he => kind_of_mem (f := Object.entry) (fun _ => rfl) he
  have att : ∀ e ∈ (p.attachments.rows.filter fun a => a.containerId = c).map Attachment.entry, e.kind = .attachment :=
    fun e he => kind_of_mem (f := Attachment.entry) (fun _ => rfl) he
  have com : ∀ e ∈ (p.comments.rows.filter fun x => x.containerId = c).map Comment.entry, e.kind = .comment :=
    fun e he => kind_of_mem (f := Comment.entry) (fun _ => rfl) he
  have con : ∀ e ∈ (p.conflicts.rows.filter fun x => x.containerId = c).map Conflict.entry, e.kind = .conflict :=
    fun e he => kind_of_mem (f := Conflict.entry) (fun _ => rfl) he
  refine List.nodup_append.mpr ⟨List.nodup_append.mpr ⟨List.nodup_append.mpr ⟨nodup_entries _ _ fun _ => rfl,
    nodup_entries _ _ fun _ => rfl, ?_⟩, nodup_entries _ _ fun _ => rfl, ?_⟩, nodup_entries _ _ fun _ => rfl, ?_⟩
  · exact apart (fun e he => by rw [obj e he]; decide) att
  · refine apart (fun e he => ?_) com
    rcases List.mem_append.mp he with he | he
    · rw [obj e he]; decide
    · rw [att e he]; decide
  · refine apart (fun e he => ?_) con
    rcases List.mem_append.mp he with he | he
    · rcases List.mem_append.mp he with he | he
      · rw [obj e he]; decide
      · rw [att e he]; decide
    · rw [com e he]; decide

/-- The numbers of a container's rows. -/
theorem SeqInv.nodup (h : SeqInv p) (c : ContainerId) : ((feedEntries p c).map Entry.changeSeq).Nodup :=
  (feedEntries_nodup p c).map_on fun e he e' he' heq => h.distinct c e he e' he' heq

/-! ## The client -/

/-- The feed of a container. -/
def feedOf (c : ContainerId) (w : World) : List Entry := feedEntries w.pages c

/-- The last number that the container gave out. -/
def seqOf (c : ContainerId) (w : World) : Nat := w.pages.changeSeq c

/-- A page of `changes`. -/
theorem changes_page (p : PageTables) (c : ContainerId) (since limit : Int) :
    changes p c since limit =
      let pg := Feed.page Entry.changeSeq (feedEntries p c) since (clampLimit limit)
      ⟨pg.out, pg.next, pg.more⟩ := rfl

/-- A member pages through the changes of a container. -/
abbrev Reader := Feed.Client World Entry

/-- Some operations, and then the reader asks with its cursor and a limit. -/
def Reader.round (cfg : Config) (c : ContainerId) (x : Reader) (r : List Op × Int) : Reader :=
  let w := x.state.run cfg r.1
  let pg := changes w.pages c x.cursor r.2
  ⟨w, pg.nextCursor, x.got ++ pg.changes, pg.hasMore⟩

/-- The reader asks for its first page with `since`. -/
def Reader.first (w : World) (c : ContainerId) (since limit : Int) : Reader :=
  let pg := changes w.pages c since limit
  ⟨w, pg.nextCursor, pg.changes, pg.hasMore⟩

/-- The reader after more rounds. -/
def Reader.rounds (cfg : Config) (c : ContainerId) (x : Reader) (rs : List (List Op × Int)) : Reader :=
  rs.foldl (Reader.round cfg c) x

/-- No operation between two pages changes an entry of the container's feed in silence. -/
def Reader.Calm (cfg : Config) (c : ContainerId) : Reader → List (List Op × Int) → Prop
  | _, [] => True
  | x, r :: rs => Along (World.next cfg) (fun w op => ¬Silent w op c) x.state r.1 ∧
      Reader.Calm cfg c (Reader.round cfg c x r) rs

/-- The rounds with the clamped limits. -/
def clamped (rs : List (List Op × Int)) : List (List Op × Nat) := rs.map fun r => (r.1, clampLimit r.2)

theorem rounds_clamped (c : ContainerId) : ∀ (rs : List (List Op × Int)) (x : Reader),
    Reader.rounds cfg c x rs = Feed.Client.rounds Entry.changeSeq (feedOf c) (World.next cfg) x (clamped rs)
  | [], _ => rfl
  | r :: rs, x => rounds_clamped c rs (Reader.round cfg c x r)

theorem calm_clamped (c : ContainerId) : ∀ (rs : List (List Op × Int)) (x : Reader), Reader.Calm cfg c x rs →
    Feed.Calm Entry.changeSeq (feedOf c) (World.next cfg) (fun w op => ¬Silent w op c) x (clamped rs)
  | [], _, _ => trivial
  | r :: rs, x, h => ⟨h.1, calm_clamped c rs (Reader.round cfg c x r) h.2⟩

/-- An operation that changes nothing in silence stamps what it changes. -/
theorem step_stamps (h : FeedInv cfg w) (hs : ¬Silent w op c) :
    Feed.Stamps Entry.changeSeq (feedOf c) (seqOf c) w (w.next cfg op) where
  mono := (step_pages cfg w op).seq_le c
  fresh := fun e he => by
    obtain ⟨kind, id, hf⟩ := (step_pages cfg w op).feed h.pages
    rcases hf c e he with hold | hst | ⟨hsil, -⟩
    · exact Or.inl hold
    · right
      have := hst.seq
      simp only [seqOf]
      omega
    · exact absurd hsil hs

theorem FeedInv.numbered (h : FeedInv cfg w) (c : ContainerId) :
    Feed.Numbered Entry.changeSeq (feedOf c) (seqOf c) w where
  distinct := h.seqs.distinct c
  bounded := h.seqs.bounded c

/-- After the last page a reader has the latest entry of every row past its first cursor, if nothing changed in silence
between its pages. -/
theorem reader_complete (cfg : Config) (ops : List Op) (c : ContainerId) (since limit : Int) (rs : List (List Op × Int))
    (hcalm : Reader.Calm cfg c (Reader.first (World.reach cfg ops) c since limit) rs)
    (hlast : (Reader.rounds cfg c (Reader.first (World.reach cfg ops) c since limit) rs).more = false) :
    ∀ e ∈ feedEntries (Reader.rounds cfg c (Reader.first (World.reach cfg ops) c since limit) rs).state.pages c,
      since < e.changeSeq → e ∈ (Reader.rounds cfg c (Reader.first (World.reach cfg ops) c since limit) rs).got := by
  have hi := reach_feedInv cfg ops
  let start : Reader := ⟨World.reach cfg ops, since, [], true⟩
  have hfirst : Reader.first (World.reach cfg ops) c since limit =
      start.ask Entry.changeSeq (feedOf c) (clampLimit limit) := by
    simp [Reader.first, Feed.Client.ask, changes_page, start, feedOf]
  have hcaught : Feed.Caught Entry.changeSeq (feedOf c) (seqOf c) since start := Feed.caught_start
  rw [hfirst] at hcalm hlast ⊢
  rw [rounds_clamped] at hlast ⊢
  exact Feed.rounds_complete (P := FeedInv cfg) (C := fun w op => ¬Silent w op c) step_feedInv
    (fun _ h => h.numbered c) (fun _ _ h hs => step_stamps h hs) hi (hcaught.ask (hi.numbered c) (clampLimit limit))
    (fun hm _ he hs => hcaught.complete hm he hs) (calm_clamped c rs _ hcalm) hlast

/-- **The change feed.** In every reachable state the numbers of a container's rows are pairwise distinct and at most
its `change_seq`. A reader who pages from any cursor with any limits, any operations between the pages, has after the
last page the latest entry of every row past that cursor, if no operation between two pages changes an entry in
silence. -/
theorem paging_complete (cfg : Config) (ops : List Op) (c : ContainerId) :
    ((feedEntries (World.reach cfg ops).pages c).map Entry.changeSeq).Nodup ∧
    (∀ e ∈ feedEntries (World.reach cfg ops).pages c, e.changeSeq ≤ (World.reach cfg ops).pages.changeSeq c) ∧
    ∀ (since limit : Int) (rs : List (List Op × Int)),
      Reader.Calm cfg c (Reader.first (World.reach cfg ops) c since limit) rs →
      (Reader.rounds cfg c (Reader.first (World.reach cfg ops) c since limit) rs).more = false →
      ∀ e ∈ feedEntries (Reader.rounds cfg c (Reader.first (World.reach cfg ops) c since limit) rs).state.pages c,
        since < e.changeSeq → e ∈ (Reader.rounds cfg c (Reader.first (World.reach cfg ops) c since limit) rs).got :=
  ⟨(reach_feedInv cfg ops).seqs.nodup c, (reach_feedInv cfg ops).seqs.bounded c, reader_complete cfg ops c⟩

/-- Attachment 9 is linked to page 4, and there is another page. -/
def beforePaging : List Op := beforeCascade ++ [.createObject 0 2]

/-- The reader of `beforePaging` asks from the start with limit 2; then page 4 is deleted, and the reader asks to the
end. -/
def cascadeReader : Reader :=
  Reader.rounds sampleConfig 2 (Reader.first (World.reach sampleConfig beforePaging) 2 0 2) [([.resume 11], 2)]

theorem cascadeReader_first : changes (World.reach sampleConfig beforePaging).pages 2 0 2 =
    ⟨[⟨4, .object, 3, false, []⟩, ⟨9, .attachment, 4, false, []⟩], 4, true⟩ := by
  have h : ((feedEntries (World.reach sampleConfig beforePaging).pages 2).filter fun e => (0 : Int) < e.changeSeq) =
      [⟨4, .object, 3, false, []⟩, ⟨12, .object, 5, false, []⟩, ⟨9, .attachment, 4, false, []⟩] := by
    decide +kernel
  rw [changes, entriesAfter, h]
  simp [List.mergeSort, List.MergeSort.Internal.splitInTwo, clampLimit, advanceCursor]

theorem cascadeReader_second :
    changes ((World.reach sampleConfig beforePaging).run sampleConfig [.resume 11]).pages 2 4 2 =
      ⟨[⟨12, .object, 5, false, []⟩, ⟨4, .object, 6, true, []⟩], 6, false⟩ := by
  have h : ((feedEntries ((World.reach sampleConfig beforePaging).run sampleConfig [.resume 11]).pages 2).filter
      fun e => (4 : Int) < e.changeSeq) = [⟨4, .object, 6, true, []⟩, ⟨12, .object, 5, false, []⟩] := by
    decide +kernel
  rw [changes, entriesAfter, h]
  simp [List.mergeSort, List.MergeSort.Internal.splitInTwo, clampLimit, advanceCursor]

/-- The reader has reached the end and was told that attachment 9 is live; it is deleted, with the number 4. -/
theorem cascade_missed : cascadeReader.more = false ∧
    ⟨9, .attachment, 4, true, []⟩ ∈ feedEntries cascadeReader.state.pages 2 ∧
    ⟨9, .attachment, 4, false, []⟩ ∈ cascadeReader.got ∧ ⟨9, .attachment, 4, true, []⟩ ∉ cascadeReader.got := by
  have hmem : ⟨9, .attachment, 4, true, []⟩ ∈
      feedEntries ((World.reach sampleConfig beforePaging).run sampleConfig [.resume 11]).pages 2 := by
    decide +kernel
  simp only [cascadeReader, Reader.rounds, Reader.first, List.foldl_cons, List.foldl_nil, Reader.round,
    cascadeReader_first, cascadeReader_second]
  exact ⟨trivial, hmem, by decide, by decide⟩

end KyNotes
