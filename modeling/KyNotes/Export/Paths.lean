import KyNotes.Export.Notebook

/-!
# The paths of an export

Directories and files are told apart by the keys of the namer: two directories that are one in lower case are one
(`Laid.dirs_inj`), so that a fresh key in a directory is a new path. An attachment stands in a directory of its ID, under one
that no title gets.

* `Laid.makeDir`, `Laid.exportFiles`: what a call of the namer adds;
* `attach_attached`: what an attachment adds;
* `export_paths`: so the paths of the entries are segments under the root, and distinct in lower case.
-/

namespace KyNotes.Export

open Casing (Tables toLowerCase)
open Web (text decimal padStart)

/-! ## Paths -/

/-- What is after the last slash has none. -/
theorem child_inj {p p' s s' : Text} (hs : 47 ∉ s) (hs' : 47 ∉ s') (h : p ++ 47 :: s = p' ++ 47 :: s') : p = p' ∧ s = s' := by
  rcases List.append_eq_append_iff.mp h with ⟨c, rfl, hc⟩ | ⟨c, rfl, hc⟩
  · cases c with
    | nil => exact ⟨(List.append_nil p).symm, (List.cons.inj hc).2⟩
    | cons x c => exact absurd ((List.cons.inj hc).2 ▸ List.mem_append_right c List.mem_cons_self) hs
  · cases c with
    | nil => exact ⟨List.append_nil p', (List.cons.inj hc).2.symm⟩
    | cons x c => exact absurd ((List.cons.inj hc).2 ▸ List.mem_append_right c List.mem_cons_self) hs'

variable {T : Tables}

theorem lower_child (p s : Text) : toLowerCase T (p ++ 47 :: s) = toLowerCase T p ++ 47 :: toLowerCase T s :=
  Casing.toLowerCase_mark (by decide) p s

theorem lower_child_inj {p p' s s' : Text} (hs : Safe s) (hs' : Safe s')
    (h : toLowerCase T (p ++ 47 :: s) = toLowerCase T (p' ++ 47 :: s')) :
    toLowerCase T p = toLowerCase T p' ∧ toLowerCase T s = toLowerCase T s' := by
  rw [lower_child, lower_child] at h
  exact child_inj (Casing.slash_not_mem (slash_not_mem hs.1)) (Casing.slash_not_mem (slash_not_mem hs'.1)) h

theorem lower_child_ne {p s r : Text} (hr : Safe r) : toLowerCase T (p ++ 47 :: s) ≠ toLowerCase T r := by
  intro h
  refine Casing.slash_not_mem (T := T) (slash_not_mem hr.1) ?_
  rw [← h, lower_child]
  exact List.mem_append_right _ List.mem_cons_self

theorem join_two {p s : Text} (hp : p ≠ []) (hs : s ≠ []) : join [p, s] = p ++ 47 :: s := by
  simp [join, hp, hs, List.intercalate]

/-- A path of segments under the root. -/
inductive Under (root : Text) : Text → Prop
  | child {s : Text} (hs : Segment s) : Under root (root ++ 47 :: s)
  | deeper {p s : Text} (hp : Under root p) (hs : Segment s) : Under root (p ++ 47 :: s)

theorem intercalate_concat (s : Text) : ∀ (r : Text) (segments : List Text),
    [47].intercalate (r :: (segments ++ [s])) = [47].intercalate (r :: segments) ++ 47 :: s
  | r, [] => by simp [List.intercalate]
  | r, t :: segments => by
    rw [List.cons_append, List.intercalate_cons_cons, intercalate_concat s t segments, List.intercalate_cons_cons,
      List.append_assoc (r ++ [47])]

theorem Under.segments {root path : Text} (h : Under root path) :
    ∃ segments, segments ≠ [] ∧ path = [47].intercalate (root :: segments) ∧ ∀ s ∈ segments, Segment s := by
  induction h with
  | @child s hs => exact ⟨[s], List.cons_ne_nil _ _, by simp [List.intercalate], List.forall_mem_singleton.mpr hs⟩
  | @deeper p s _ hs ih =>
    obtain ⟨segments, hne, rfl, hall⟩ := ih
    refine ⟨segments ++ [s], List.append_ne_nil_of_right_ne_nil _ (List.cons_ne_nil _ _), ?_, ?_⟩
    · exact (intercalate_concat s root segments).symm
    · exact List.forall_mem_append.mpr ⟨hall, List.forall_mem_singleton.mpr hs⟩

/-! ## What is laid out -/

/-- The directories and the files that the namer has made names for. -/
structure Laid (T : Tables) (root : Text) (used : Used) (dirs files : List Text) : Prop where
  root_mem : root ∈ dirs
  attachments : (root, ATTACHMENTS) ∈ used
  dirs_child : ∀ d ∈ dirs, d = root ∨ ∃ p ∈ dirs, ∃ s, Safe s ∧ d = p ++ 47 :: s ∧ (p, toLowerCase T s) ∈ used ∧
    ¬(p = root ∧ toLowerCase T s = ATTACHMENTS)
  dirs_inj : ∀ d ∈ dirs, ∀ d' ∈ dirs, toLowerCase T d = toLowerCase T d' → d = d'
  under : ∀ d ∈ dirs, d = root ∨ Under root d
  files_child : ∀ f ∈ files, ∃ p ∈ dirs, ∃ s, Safe s ∧ f = p ++ 47 :: s ∧ (p, toLowerCase T s) ∈ used
  files_distinct : (files.map (toLowerCase T)).Nodup

section Laid

variable {root : Text} {used used' : Used} {dirs files : List Text}

theorem Under.of_dir {d s : Text} (hd : d = root ∨ Under root d) (hs : Segment s) : Under root (d ++ 47 :: s) := by
  rcases hd with rfl | hd
  · exact .child hs
  · exact .deeper hd hs

/-- More keys. -/
theorem Laid.mono (h : Laid T root used dirs files) (hsub : used ⊆ used') : Laid T root used' dirs files where
  root_mem := h.root_mem
  attachments := hsub h.attachments
  dirs_child d hd := (h.dirs_child d hd).imp id fun ⟨p, hp, s, hs, heq, hkey, hne⟩ => ⟨p, hp, s, hs, heq, hsub hkey, hne⟩
  dirs_inj := h.dirs_inj
  under := h.under
  files_child f hf :=
    let ⟨p, hp, s, hs, heq, hkey⟩ := h.files_child f hf
    ⟨p, hp, s, hs, heq, hsub hkey⟩
  files_distinct := h.files_distinct

/-- A fresh key gives a path that no directory has. -/
theorem Laid.dir_fresh (h : Laid T root used dirs files) (hroot : Safe root) {p s : Text} (hp : p ∈ dirs) (hs : Safe s)
    (hfresh : (p, toLowerCase T s) ∉ used) : ∀ d ∈ dirs, toLowerCase T d ≠ toLowerCase T (p ++ 47 :: s) := by
  intro d hd heq
  rcases h.dirs_child d hd with rfl | ⟨p', hp', s', hs', rfl, hkey, -⟩
  · exact lower_child_ne hroot heq.symm
  · obtain ⟨hdir, hseg⟩ := lower_child_inj hs' hs heq
    rw [h.dirs_inj p' hp' p hp hdir, hseg] at hkey
    exact hfresh hkey

/-- And none that a file has. -/
theorem Laid.file_fresh (h : Laid T root used dirs files) {p s : Text} (hp : p ∈ dirs) (hs : Safe s)
    (hfresh : (p, toLowerCase T s) ∉ used) : ∀ f ∈ files, toLowerCase T f ≠ toLowerCase T (p ++ 47 :: s) := by
  intro f hf heq
  obtain ⟨p', hp', s', hs', rfl, hkey⟩ := h.files_child f hf
  obtain ⟨hdir, hseg⟩ := lower_child_inj hs' hs heq
  rw [h.dirs_inj p' hp' p hp hdir, hseg] at hkey
  exact hfresh hkey

/-- A directory with a fresh key. -/
theorem Laid.add_dir (h : Laid T root used dirs files) (hroot : Safe root) {p s : Text} (hp : p ∈ dirs) (hs : Safe s)
    (hfresh : (p, toLowerCase T s) ∉ used) :
    Laid T root ((p, toLowerCase T s) :: used) ((p ++ 47 :: s) :: dirs) files := by
  have hsub : used ⊆ (p, toLowerCase T s) :: used := List.subset_cons_self _ _
  have hdir := h.dir_fresh hroot hp hs hfresh
  have hmono := h.mono hsub
  refine ⟨List.mem_cons_of_mem _ h.root_mem, hmono.attachments, ?_, ?_, ?_, ?_, h.files_distinct⟩
  · refine List.forall_mem_cons.mpr ⟨.inr ⟨p, List.mem_cons_of_mem _ hp, s, hs, rfl, List.mem_cons_self, ?_⟩, fun d hd => ?_⟩
    · rintro ⟨rfl, hkey⟩
      exact hfresh (hkey ▸ h.attachments)
    · exact (hmono.dirs_child d hd).imp id fun ⟨p', hp', hrest⟩ => ⟨p', List.mem_cons_of_mem _ hp', hrest⟩
  · intro d hd d' hd' heq
    rcases List.mem_cons.mp hd with rfl | hd <;> rcases List.mem_cons.mp hd' with rfl | hd'
    · rfl
    · exact absurd heq.symm (hdir d' hd')
    · exact absurd heq (hdir d hd)
    · exact h.dirs_inj d hd d' hd' heq
  · exact List.forall_mem_cons.mpr ⟨.inr (Under.of_dir (h.under p hp) hs.segment), h.under⟩
  · intro f hf
    obtain ⟨p', hp', hrest⟩ := hmono.files_child f hf
    exact ⟨p', List.mem_cons_of_mem _ hp', hrest⟩

/-- A file under a key. -/
theorem Laid.add_file (h : Laid T root used dirs files) {p s : Text} (hp : p ∈ dirs) (hs : Safe s)
    (hkey : (p, toLowerCase T s) ∈ used) (hfresh : ∀ f ∈ files, toLowerCase T f ≠ toLowerCase T (p ++ 47 :: s)) :
    Laid T root used dirs ((p ++ 47 :: s) :: files) := by
  refine ⟨h.root_mem, h.attachments, h.dirs_child, h.dirs_inj, h.under, ?_, ?_⟩
  · exact List.forall_mem_cons.mpr ⟨⟨p, hp, s, hs, rfl, hkey⟩, h.files_child⟩
  · refine List.nodup_cons.mpr ⟨fun hmem => ?_, h.files_distinct⟩
    obtain ⟨f, hf, heq⟩ := List.mem_map.mp hmem
    exact hfresh f hf heq

theorem Laid.dir_ne_nil (h : Laid T root used dirs files) (hroot : Safe root) : ∀ d ∈ dirs, d ≠ [] := by
  intro d hd
  rcases h.dirs_child d hd with rfl | ⟨p, -, s, -, rfl, -⟩
  · exact hroot.segment.1
  · exact List.append_ne_nil_of_right_ne_nil p (List.cons_ne_nil 47 s)

theorem keys_nil (candidate : Text) : keys T candidate [] = [toLowerCase T candidate] := by
  have hne : ([] : Text) ≠ text ".md" := by decide
  simp [keys, endings, hne]

/-- The namer makes a directory. -/
theorem Laid.name_dir (h : Laid T root used dirs files) (hroot : Safe root) {p : Text} (hp : p ∈ dirs) (base : Text)
    (hbase : Safe base) :
    Laid T root (name T used p base []).1 (join [p, (name T used p base []).2] :: dirs) files := by
  obtain ⟨⟨n, hn⟩, hused⟩ := name_eq (T := T) used p base []
  have hs : Safe (name T used p base []).2 := hn ▸ candidate_safe hbase n
  have hfresh := name_fresh (T := T) used p base [] (by decide)
  rw [keys_nil] at hfresh hused
  rw [hused, join_two (h.dir_ne_nil hroot p hp) hs.segment.1]
  exact h.add_dir hroot hp hs (hfresh _ List.mem_cons_self)

/-- What ends differently differs in lower case. -/
theorem lower_md_ne (a b : Text) : toLowerCase T (a ++ text ".md") ≠ toLowerCase T (b ++ text ".json") := by
  intro h
  have hmd : a ++ text ".md" = (a ++ text ".m") ++ [100] := by
    rw [List.append_assoc]
    rfl
  have hjson : b ++ text ".json" = (b ++ text ".jso") ++ [110] := by
    rw [List.append_assoc]
    rfl
  obtain ⟨c, hc⟩ := Casing.toLowerCase_concat (T := T) (c := 100) (by decide) (by decide) (a ++ text ".m")
  obtain ⟨d, hd⟩ := Casing.toLowerCase_concat (T := T) (c := 110) (by decide) (by decide) (b ++ text ".jso")
  rw [hmd, hjson, hc, hd] at h
  have := List.append_inj_right' h rfl
  exact absurd this (by decide)

/-- The namer makes the files of a page. -/
theorem Laid.name_page (h : Laid T root used dirs files) {dir base : Text} (hdir : dir ∈ dirs) (hbase : Safe base)
    (canvas : Bool) :
    let r := name T used dir base (text ".md")
    Laid T root r.1 dirs ((dir ++ 47 :: (r.2 ++ text ".md")) :: files) ∧
    Laid T root r.1 dirs ((dir ++ 47 :: (r.2 ++ text (if canvas then ".canvas" else "") ++ text ".json")) ::
      (dir ++ 47 :: (r.2 ++ text ".md")) :: files) ∧ Safe r.2 := by
  intro r
  obtain ⟨⟨n, hn⟩, hused⟩ := name_eq (T := T) used dir base (text ".md")
  have hs : Safe r.2 := hn ▸ candidate_safe hbase n
  have hfresh := name_fresh (T := T) used dir base (text ".md") (by decide)
  have hkeys : ∀ ending ∈ [text ".md", text ".canvas.json", text ".json"],
      (dir, toLowerCase T (r.2 ++ ending)) ∈ r.1 ∧ (dir, toLowerCase T (r.2 ++ ending)) ∉ used := by
    intro ending hending
    have hkey : toLowerCase T (r.2 ++ ending) ∈ keys T r.2 (text ".md") := List.mem_map_of_mem hending
    refine ⟨?_, hfresh _ hkey⟩
    rw [show r.1 = _ from hused]
    exact List.mem_append_left _ (List.mem_map_of_mem hkey)
  have hmono : Laid T root r.1 dirs files := h.mono (by rw [show r.1 = _ from hused]; exact List.subset_append_right _ _)
  obtain ⟨hmd, hmdFresh⟩ := hkeys (text ".md") (by decide)
  have hsafe : ∀ ending : Text, AllSafe ending → Safe (r.2 ++ ending) := fun _ => hs.append
  have hpage := hmono.add_file hdir (hsafe _ (by decide)) hmd (h.file_fresh hdir (hsafe _ (by decide)) hmdFresh)
  refine ⟨hpage, ?_, hs⟩
  have hraw : ∃ ending ∈ [text ".canvas.json", text ".json"], text (if canvas then ".canvas" else "") ++ text ".json" = ending := by
    cases canvas <;> decide
  obtain ⟨ending, hending, hraw⟩ := hraw
  obtain ⟨hkey, hkeyFresh⟩ := hkeys ending (List.mem_cons_of_mem _ hending)
  have hplain : ∀ e ∈ [text ".canvas.json", text ".json"], AllSafe e := by decide
  have hends := hsafe ending (hplain ending hending)
  rw [List.append_assoc, hraw]
  refine hpage.add_file hdir hends hkey (List.forall_mem_cons.mpr ⟨fun heq => ?_, h.file_fresh hdir hends hkeyFresh⟩)
  have hseg := (lower_child_inj (hsafe _ (by decide)) hends heq).2
  rw [← hraw, ← List.append_assoc] at hseg
  exact lower_md_ne _ _ hseg

end Laid

/-! ## Directories -/

section Build

variable {ρ : Type} (U : Unicode) (input : NotebookInput ρ)

theorem root_safe : Safe (root U input) := safeName_safe U.normalize input.name _ (by decide)

variable {U input} {dirs files : List Text}

/-- The keys and the directories of the groups. -/
def Dirs.Good (U : Unicode) (input : NotebookInput ρ) (s : Dirs) (dirs files : List Text) : Prop :=
  Laid U.tables (root U input) s.used dirs files ∧ ∀ g ∈ s.groupDirs, g.2 ∈ dirs

/-- A directory is made under one there is. -/
theorem Laid.makeDir {used : Used} (h : Laid U.tables (root U input) used dirs files) {parentDir : Text}
    (hp : parentDir ∈ dirs) (title fallback : Text) (hfallback : Safe fallback) :
    Laid U.tables (root U input) (makeDir U used parentDir title fallback).1
      ((makeDir U used parentDir title fallback).2 :: dirs) files :=
  h.name_dir (root_safe U input) hp _ (safeName_safe U.normalize title fallback hfallback)

/-- The directory of a group is there, and what was there stays. -/
theorem groupDirUpTo_good : ∀ (n : ℕ) {s : Dirs} (o : Option Text) {dirs : List Text}, s.Good U input dirs files →
    ∃ dirs', dirs ⊆ dirs' ∧ (groupDirUpTo U input n s o).1.Good U input dirs' files ∧
      (groupDirUpTo U input n s o).2 ∈ dirs'
  | 0, s, o, dirs, h => ⟨dirs, List.Subset.refl dirs, h, h.1.root_mem⟩
  | n + 1, s, none, dirs, h => ⟨dirs, List.Subset.refl dirs, h, h.1.root_mem⟩
  | n + 1, s, some id, dirs, h => by
    rw [groupDirUpTo]
    cases hknown : s.groupDirs.find? (·.1 == id) with
    | some known => exact ⟨dirs, List.Subset.refl dirs, h, h.2 known (List.mem_of_find?_eq_some hknown)⟩
    | none =>
      obtain ⟨dirs', hsub, hgood, hmem⟩ := groupDirUpTo_good n (Outline.parentIn (parents input) id) h
      cases hgroup : input.groups.find? (·.id == id) with
      | none => exact ⟨dirs', hsub, hgood, hmem⟩
      | some group =>
        refine ⟨_ :: dirs', fun d hd => List.mem_cons_of_mem _ (hsub hd),
          ⟨hgood.1.makeDir hmem group.title (text "Untitled group") (by decide), ?_⟩, List.mem_cons_self⟩
        exact List.forall_mem_cons.mpr ⟨List.mem_cons_self, fun g hg => List.mem_cons_of_mem _ (hgood.2 g hg)⟩

/-- The nested calls are as many as the forest is deep: more of them change nothing. -/
theorem groupDirUpTo_eq {p : List Text} {o : Option Text} (hp : Chains.Path (Outline.parentIn (parents input)) o p) :
    ∀ {n m : ℕ} (s : Dirs), p.length < n → p.length < m → groupDirUpTo U input n s o = groupDirUpTo U input m s o := by
  induction hp with
  | nil =>
    intro n m s hn hm
    cases n <;> cases m <;> rfl
  | @cons id p hp ih =>
    intro n m s hn hm
    cases n with
    | zero => exact absurd hn (Nat.not_lt_zero _)
    | succ n =>
      cases m with
      | zero => exact absurd hm (Nat.not_lt_zero _)
      | succ m =>
        rw [groupDirUpTo, groupDirUpTo, ih s (Nat.lt_of_succ_lt_succ hn) (Nat.lt_of_succ_lt_succ hm)]

/-- So `groupDir` is the same for every number of calls that is large enough. -/
theorem groupDirUpTo_of_lt {n : ℕ} (hn : Outline.maxGroupDepth < n) (s : Dirs) (o : Option Text) :
    groupDirUpTo U input n s o = groupDir U input s o := by
  cases o with
  | none => exact groupDirUpTo_eq .nil s (Nat.zero_lt_of_lt hn) (Nat.succ_pos _)
  | some id =>
    obtain ⟨p, hp, hlen⟩ := Outline.exists_path (input.groups.map fun g => (⟨g.id, g.group⟩ : Outline.Grouped Text)) id
    exact groupDirUpTo_eq hp s (Nat.lt_of_le_of_lt hlen hn) (Nat.lt_succ_of_le hlen)

/-- The groups. -/
theorem groups_good : ∀ (groups : List Group) {s : Dirs} {dirs : List Text}, s.Good U input dirs files →
    ∃ dirs', dirs ⊆ dirs' ∧ (groups.foldl (fun s g => (groupDir U input s (some g.id)).1) s).Good U input dirs' files
  | [], s, dirs, h => ⟨dirs, List.Subset.refl dirs, h⟩
  | g :: groups, s, dirs, h => by
    obtain ⟨dirs₁, hsub₁, hgood₁, -⟩ := groupDirUpTo_good _ (some g.id) h
    obtain ⟨dirs₂, hsub₂, hgood₂⟩ := groups_good groups hgood₁
    exact ⟨dirs₂, List.Subset.trans hsub₁ hsub₂, hgood₂⟩

theorem sectionDir_good {s : Dirs} (item : Section) (h : s.Good U input dirs files) :
    ∃ dirs', dirs ⊆ dirs' ∧ (sectionDir U input s item).1.Good U input dirs' files ∧ (sectionDir U input s item).2 ∈ dirs' := by
  obtain ⟨dirs', hsub, hgood, hmem⟩ :=
    groupDirUpTo_good (Outline.maxGroupDepth + 1) (sectionGroup item (parents input)) h
  refine ⟨_ :: dirs', fun d hd => List.mem_cons_of_mem _ (hsub hd),
    ⟨hgood.1.makeDir hmem item.title (text "Untitled section") (by decide), ?_⟩, List.mem_cons_self⟩
  exact fun g hg => List.mem_cons_of_mem _ (hgood.2 g hg)

/-- The sections. -/
theorem sectionDirs_good : ∀ (items : List Section) {s : Dirs} {dirs : List Text}, s.Good U input dirs files →
    ∃ dirs', dirs ⊆ dirs' ∧ (sectionDirs U input s items).1.Good U input dirs' files ∧
      ∀ d ∈ (sectionDirs U input s items).2, d.2 ∈ dirs'
  | [], s, dirs, h => ⟨dirs, List.Subset.refl dirs, h, nofun⟩
  | item :: items, s, dirs, h => by
    obtain ⟨dirs₁, hsub₁, hgood₁, hmem₁⟩ := sectionDir_good item h
    obtain ⟨dirs₂, hsub₂, hgood₂, hmem₂⟩ := sectionDirs_good items hgood₁
    exact ⟨dirs₂, List.Subset.trans hsub₁ hsub₂, hgood₂, List.forall_mem_cons.mpr ⟨hsub₂ hmem₁, hmem₂⟩⟩

/-- The lists of pages, each with a directory that is there. -/
theorem lists_mem {sections : List (Text × Text)} (h : ∀ d ∈ sections, d.2 ∈ dirs) {quickNotes : Text}
    (hquick : quickNotes ∈ dirs) : ∀ l ∈ lists sections quickNotes, l.2 ∈ dirs := by
  intro l hl
  rcases List.mem_append.mp hl with hl | hl
  · obtain ⟨d, hd, rfl⟩ := List.mem_map.mp hl
    cases hfind : sections.reverse.find? (·.1 == d.1) with
    | none => exact h d hd
    | some e => exact h e (List.mem_reverse.mp (List.mem_of_find?_eq_some hfind))
  · obtain rfl := List.mem_singleton.mp hl
    exact hquick

/-! ## Attachments -/

/-- The ID of an attachment: `att_` and 26 characters. -/
def WellFormed (id : Text) : Prop :=
  id.take 4 = text "att_" ∧ id.length = 30 ∧ ∀ c ∈ id.drop 4, (text "0123456789abcdefghjkmnpqrstvwxyz").contains c

instance : DecidablePred WellFormed := fun id =>
  decidable_of_iff (id.take 4 = text "att_" ∧ id.length = 30 ∧
    ((id.drop 4).all fun c => (text "0123456789abcdefghjkmnpqrstvwxyz").contains c) = true) (by simp [WellFormed])

/-- Those of every attachment that is listed. -/
def WellFormedIds (input : NotebookInput ρ) : Prop :=
  ∀ pageID, ∀ refs ∈ input.attachments.list pageID, ∀ ref ∈ refs, WellFormed (input.attachments.id ref)

/-- Lower-case ASCII of no special meaning. -/
theorem WellFormed.char {id : Text} (h : WellFormed id) : ∀ c ∈ id,
    c.toNat < 128 ∧ ¬(65 ≤ c.toNat ∧ c.toNat ≤ 90) ∧ UNSAFE c = false ∧ isEdge c = false := by
  have hall : ∀ c ∈ text "att_0123456789abcdefghjkmnpqrstvwxyz",
      c.toNat < 128 ∧ ¬(65 ≤ c.toNat ∧ c.toNat ≤ 90) ∧ UNSAFE c = false ∧ isEdge c = false := by
    have hcheck : ((text "att_0123456789abcdefghjkmnpqrstvwxyz").all fun c =>
        c.toNat < 128 ∧ ¬(65 ≤ c.toNat ∧ c.toNat ≤ 90) ∧ UNSAFE c = false ∧ isEdge c = false) = true := by decide +kernel
    exact fun c hc => of_decide_eq_true (List.all_eq_true.mp hcheck c hc)
  have hsplit : text "att_0123456789abcdefghjkmnpqrstvwxyz" = text "att_" ++ text "0123456789abcdefghjkmnpqrstvwxyz" := by
    decide
  intro c hc
  rw [hsplit] at hall
  rw [← List.take_append_drop 4 id, h.1] at hc
  rcases List.mem_append.mp hc with hc | hc
  · exact hall c (List.mem_append_left _ hc)
  · exact hall c (List.mem_append_right _ (List.contains_iff_mem.mp (h.2.2 c hc)))

theorem takePoints_ascii : ∀ {n : ℕ} {s : Text}, (∀ c ∈ s, c.toNat < 128) → s.length ≤ n → takePoints n s = s := by
  intro n s
  induction n, s using takePoints.induct with
  | case1 s =>
    intro _ hlen
    rw [List.length_eq_zero_iff.mp (Nat.le_zero.mp hlen)]
    rfl
  | case2 n => exact fun _ _ => rfl
  | case3 n u => exact fun _ _ => rfl
  | case4 n u v s h _ =>
    intro hs _
    rw [(Casing.not_surrogate (hs u List.mem_cons_self)).1] at h
    exact absurd h.1 Bool.false_ne_true
  | case5 n u v s h ih =>
    intro hs hlen
    rw [takePoints, if_neg h, ih (fun c hc => hs c (List.mem_cons_of_mem u hc)) (Nat.le_of_succ_le_succ hlen)]

theorem trimEdges_eq_self {s : Text} (h : ∀ c ∈ s, isEdge c = false) : trimEdges s = s := by
  have hdrop : s.dropWhile isEdge = s := by
    cases s with
    | nil => rfl
    | cons c s => rw [List.dropWhile_cons_of_neg (by rw [h c List.mem_cons_self]; exact Bool.false_ne_true)]
  rw [trimEdges, hdrop, List.rdropWhile_eq_self_iff]
  exact fun hne hedge => absurd (h _ (List.getLast_mem hne)) (by rw [hedge]; exact Bool.noConfusion)

/-- The directory of an attachment is its ID. -/
theorem WellFormed.safeName {id : Text} (h : WellFormed id) (fallback : Text) : safeName U.normalize id fallback = id := by
  have hchar := h.char
  have hnormal : U.normalize id = id := U.normalize_ascii id fun c hc => by
    rw [UInt16.lt_iff_toNat_lt]
    exact (hchar c hc).1
  have hmap : (id.map fun c => if UNSAFE c then 95 else c) = id := by
    refine (List.map_congr_left fun c hc => ?_).trans (List.map_id id)
    rw [(hchar c hc).2.2.1]
    rfl
  have htrim := trimEdges_eq_self fun c hc => (hchar c hc).2.2.2
  have hpoints := takePoints_ascii (n := MAX_NAME) (fun c hc => (hchar c hc).1) (by rw [h.2.1]; decide)
  have hne : id ≠ [] := by
    rintro rfl
    exact absurd h.2.1 (by decide)
  have hreserved : RESERVED id = false := by
    have hhead : (id.map asciiLower).take 3 = text "att" := by
      have hsplit : id = text "att_" ++ id.drop 4 := by rw [← h.1, List.take_append_drop]
      rw [hsplit, List.map_append]
      rfl
    unfold RESERVED
    simp only [hhead]
    have hnone : ([text "con", text "prn", text "aux", text "nul"].contains (text "att")) = false ∧
        ([text "com", text "lpt"].contains (text "att")) = false := by decide
    rw [hnone.1, hnone.2]
    rfl
  unfold Export.safeName
  simp only [hnormal, hmap, htrim, hpoints, if_neg hne, hreserved]
  rfl

theorem WellFormed.safe {id : Text} (h : WellFormed id) : Safe id := by
  cases id with
  | nil => exact absurd h.2.1 (by decide)
  | cons c s =>
    refine ⟨fun d hd => (h.char d hd).2.2.1, c, List.mem_cons_self, ?_⟩
    rintro rfl
    exact absurd (h.char 46 List.mem_cons_self).2.2.2 (by decide)

theorem WellFormed.lower {id : Text} (h : WellFormed id) : toLowerCase T id = id :=
  Casing.toLowerCase_lower fun c hc => ⟨(h.char c hc).1, (h.char c hc).2.1⟩

/-- The attachments that are written, each once, in a directory of its ID. -/
structure Attached (root : Text) (metas : List Attachment) : Prop where
  ids : (metas.map Attachment.id).Nodup
  paths : ∀ m ∈ metas, WellFormed m.id ∧
    ∃ s, Safe s ∧ m.path = ((root ++ 47 :: ATTACHMENTS) ++ 47 :: m.id) ++ 47 :: s

/-- Their paths differ. -/
theorem Attached.distinct {root : Text} {metas : List Attachment} (h : Attached root metas) :
    ((metas.map Attachment.path).map (toLowerCase T)).Nodup := by
  rw [List.map_map]
  refine List.Nodup.map_on (fun m hm m' hm' heq => ?_) (List.Nodup.of_map _ h.ids)
  obtain ⟨hid, s, hs, hpath⟩ := h.paths m hm
  obtain ⟨hid', s', hs', hpath'⟩ := h.paths m' hm'
  rw [Function.comp_apply, Function.comp_apply, hpath, hpath'] at heq
  have hsame := (lower_child_inj hid.safe hid'.safe (lower_child_inj hs hs' heq).1).2
  rw [hid.lower, hid'.lower] at hsame
  exact List.inj_on_of_nodup_map h.ids hm hm' hsame

/-- No file of a title is there. -/
theorem Attached.ne_file {root : Text} {used : Used} {metas : List Attachment} (h : Attached root metas)
    (hroot : Safe root) (hlaid : Laid T root used dirs files) :
    ∀ m ∈ metas, ∀ f ∈ files, toLowerCase T m.path ≠ toLowerCase T f := by
  intro m hm f hf heq
  obtain ⟨hid, s, hs, hpath⟩ := h.paths m hm
  obtain ⟨p, hp, s', hs', rfl, -⟩ := hlaid.files_child f hf
  rw [hpath] at heq
  have hdir := (lower_child_inj hs hs' heq).1
  -- the file's directory would be one under the directory of the attachments
  rcases hlaid.dirs_child p hp with rfl | ⟨q, hq, t, ht, rfl, -, -⟩
  · exact lower_child_ne hroot hdir
  · have hupper := (lower_child_inj hid.safe ht hdir).1
    rcases hlaid.dirs_child q hq with rfl | ⟨r, hr, u, hu, rfl, -, hne⟩
    · exact lower_child_ne hroot hupper
    · obtain ⟨hr', hu'⟩ := lower_child_inj (s := ATTACHMENTS) (by decide) hu hupper
      refine hne ⟨(hlaid.dirs_inj root hlaid.root_mem r hr hr').symm, ?_⟩
      rw [← hu', Plain.lower (by decide)]

/-! ## Pages -/

/-- What is written so far: the files of the namer, with the manifest, and the attachments. -/
structure Progress.Good (U : Unicode) (input : NotebookInput ρ) (dirs : List Text) (s : Progress) (files : List Text) : Prop where
  laid : Laid U.tables (root U input) s.used dirs files
  attached : Attached (root U input) s.metas
  paths : ((root U input ++ 47 :: text "manifest.json") :: s.entries.map ZipEntry.path).Perm
    (files ++ s.metas.map Attachment.path)

variable {s s' : Progress}

/-- An attachment that is opened is written, once. -/
theorem attach_good {ref : ρ} (hid : WellFormed (input.attachments.id ref)) (h : s.Good U input dirs files)
    (found : List Attachment) : (attach U input (s, found) ref).1.Good U input dirs files ∧
      (attach U input (s, found) ref).1.used = s.used := by
  unfold attach
  simp only
  split
  · exact ⟨h, rfl⟩
  · split
    · exact ⟨h, rfl⟩
    · next hnone =>
      split
      · exact ⟨⟨h.laid, h.attached, h.paths⟩, rfl⟩
      · next opened _ =>
        have hfile : Safe (safeName U.normalize opened.name (text "file")) := safeName_safe _ _ _ (by decide)
        have hdir : join [root U input, ATTACHMENTS, safeName U.normalize (input.attachments.id ref) (text "attachment")] =
            (root U input ++ 47 :: ATTACHMENTS) ++ 47 :: input.attachments.id ref := by
          have hatt : ATTACHMENTS ≠ [] := by decide
          rw [hid.safeName]
          simp [join, (root_safe U input).segment.1, hid.safe.segment.1, hatt, List.intercalate]
        rw [hdir, join_two (List.append_ne_nil_of_right_ne_nil _ (List.cons_ne_nil _ _)) hfile.segment.1]
        refine ⟨⟨h.laid, ⟨?_, ?_⟩, ?_⟩, rfl⟩
        · have hnew : input.attachments.id ref ∉ s.metas.map Attachment.id := by
            intro hmem
            obtain ⟨m, hm, heq⟩ := List.mem_map.mp hmem
            exact List.find?_eq_none.mp hnone m hm (by simpa using heq)
          rw [List.map_append, List.nodup_append_comm]
          exact List.nodup_cons.mpr ⟨hnew, h.attached.ids⟩
        · intro m hm
          rcases List.mem_append.mp hm with hm | hm
          · exact h.attached.paths m hm
          · obtain rfl := List.mem_singleton.mp hm
            exact ⟨hid, _, hfile, rfl⟩
        · simp only [List.map_append, List.map_cons, List.map_nil]
          rw [← List.cons_append, ← List.append_assoc]
          exact h.paths.append_right _

theorem pageAttachments_good (hids : WellFormedIds input) (h : s.Good U input dirs files)
    (pageID : Text) : (pageAttachments U input s pageID).1.Good U input dirs files ∧
      (pageAttachments U input s pageID).1.used = s.used := by
  unfold pageAttachments
  split
  · exact ⟨⟨h.laid, h.attached, h.paths⟩, rfl⟩
  · next refs hrefs =>
    suffices ∀ (refs : List ρ) (s : Progress) (found : List Attachment), (∀ ref ∈ refs, WellFormed (input.attachments.id ref)) →
        s.Good U input dirs files → (refs.foldl (attach U input) (s, found)).1.Good U input dirs files ∧
        (refs.foldl (attach U input) (s, found)).1.used = s.used from this refs s [] (hids pageID refs hrefs) h
    intro refs
    induction refs with
    | nil => exact fun s found _ h => ⟨h, rfl⟩
    | cons ref refs ih =>
      intro s found hids h
      obtain ⟨hid, hids⟩ := List.forall_mem_cons.mp hids
      obtain ⟨hgood, hused⟩ := attach_good hid h found
      obtain ⟨hgood', hused'⟩ := ih (attach U input (s, found) ref).1 (attach U input (s, found) ref).2 hids hgood
      exact ⟨hgood', hused'.trans hused⟩

theorem numbered_safe (index : ℕ) (title : Text) :
    Safe (padStart (decimal index) 3 ++ 32 :: safeName U.normalize title (text "Untitled page")) := by
  have hdigits : AllSafe (padStart (decimal index) 3) := fun c hc => digit_safe (Web.padStart_digit hc)
  have hname : Safe ([32] ++ safeName U.normalize title (text "Untitled page")) :=
    Safe.prepend (s := [32]) (by decide) (safeName_safe U.normalize title _ (by decide))
  exact Safe.prepend hdigits hname

/-- New entries under new files. -/
theorem Progress.Good.write (h : s.Good U input dirs files) (new : List Text) {es : List ZipEntry}
    (hes : es.map ZipEntry.path = new) (hlaid : Laid U.tables (root U input) s.used dirs (new.reverse ++ files))
    (unreadable : ℕ) (manifestPages : List ManifestPage) :
    ({ s with unreadable, entries := s.entries ++ es, manifestPages } : Progress).Good U input dirs (new.reverse ++ files) := by
  refine ⟨hlaid, h.attached, ?_⟩
  simp only [List.map_append, hes]
  calc ((root U input ++ 47 :: text "manifest.json") :: (s.entries.map ZipEntry.path ++ new)).Perm
        (new ++ (root U input ++ 47 :: text "manifest.json") :: s.entries.map ZipEntry.path) := by
          rw [← List.cons_append]
          exact List.perm_append_comm
    List.Perm _ (new.reverse ++ (files ++ s.metas.map Attachment.path)) := (List.reverse_perm new).symm.append h.paths
    List.Perm _ _ := by rw [List.append_assoc]

/-- The Markdown of a page, and its body on a condition. -/
theorem Progress.Good.writePage (h : s.Good U input dirs files) {path raw : Text} {markdown body : Binary.Bytes} (c : Prop)
    [Decidable c] (hpage : Laid U.tables (root U input) s.used dirs (path :: files))
    (hraw : Laid U.tables (root U input) s.used dirs (raw :: path :: files)) (unreadable : ℕ)
    (manifestPages : List ManifestPage) :
    ∃ files', ({ s with
      unreadable, entries := s.entries ++ ⟨path, markdown⟩ :: (if c then [⟨raw, body⟩] else []), manifestPages } :
        Progress).Good U input dirs files' := by
  split
  · exact ⟨_, h.write [path, raw] rfl hraw unreadable manifestPages⟩
  · exact ⟨_, h.write [path] rfl hpage unreadable manifestPages⟩

/-- A page adds its Markdown, and its body where that is kept, under a name of its own. -/
theorem exportPage_good (hids : WellFormedIds input) {sectionID : Option Text} {dir : Text}
    (hdir : dir ∈ dirs) (h : s.Good U input dirs files) {page : Note × ℕ}
    (hs : exportPage U input sectionID dir s page = some s') : ∃ files', s'.Good U input dirs files' := by
  unfold exportPage at hs
  simp only [Option.bind_eq_bind, Option.bind_eq_some_iff, Option.pure_def, Option.some.injEq] at hs
  obtain ⟨markdown, -, rfl⟩ := hs
  obtain ⟨hpage, hraw, hsafe⟩ := h.laid.name_page hdir
    (numbered_safe (U := U) (page.2 + 1) (if trim page.1.title = [] then text "Untitled page" else trim page.1.title))
    (input.isCanvas page.1.body)
  have hne := h.laid.dir_ne_nil (root_safe U input) dir hdir
  have hmd : ∀ base ending : Text, Safe base → base ++ ending ≠ [] := fun base ending hb =>
    List.append_ne_nil_of_left_ne_nil hb.segment.1 ending
  rw [join_two hne (hmd _ _ hsafe), join_two hne (by rw [List.append_assoc]; exact hmd _ _ hsafe)]
  set r := name U.tables s.used dir _ (text ".md")
  obtain ⟨hgood, hused⟩ := pageAttachments_good hids
    (s := { s with used := r.1 }) ⟨h.laid.mono (name_subset ..), h.attached, h.paths⟩ page.1.id
  have hused : _ = r.1 := hused
  rw [← hused] at hpage hraw
  exact hgood.writePage _ hpage hraw _ _

/-- An invariant along a list, until it throws. -/
theorem foldlM_good {σ α : Type} {P : σ → Prop} {f : σ → α → Option σ} : ∀ {l : List α} {s s' : σ},
    (∀ a ∈ l, ∀ s s', P s → f s a = some s' → P s') → P s → l.foldlM f s = some s' → P s'
  | [], s, s', _, hs, h => Option.some.inj h ▸ hs
  | a :: l, s, s', hstep, hs, h => by
    rw [List.foldlM_cons, Option.bind_eq_bind, Option.bind_eq_some_iff] at h
    obtain ⟨s₁, h₁, h⟩ := h
    exact foldlM_good (fun b hb => hstep b (List.mem_cons_of_mem a hb)) (hstep a List.mem_cons_self s s₁ hs h₁) h

theorem exportList_good (hids : WellFormedIds input) {list : Option Text × Text}
    (hdir : list.2 ∈ dirs) (h : ∃ files, s.Good U input dirs files) (hs : exportList U input s list = some s') :
    ∃ files, s'.Good U input dirs files :=
  foldlM_good (P := fun s => ∃ files, s.Good U input dirs files)
    (fun _ _ _ _ hgood hstep => let ⟨_, hgood⟩ := hgood; exportPage_good hids hdir hgood hstep) h hs

/-- The keys at the start: the manifest's and the attachments'. -/
theorem reserved_eq :
    reserved U input = [(root U input, ATTACHMENTS), (root U input, text "manifest.json")] := by
  have hmanifest : keys U.tables (text "manifest") (text ".json") = [text "manifest.json"] := by
    have hplain : toLowerCase U.tables (text "manifest.json") = text "manifest.json" := Plain.lower (by decide)
    have hendings : endings (text ".json") = [text ".json"] := by decide
    rw [keys, hendings]
    exact congrArg (fun s => [s]) hplain
  have hattachments : keys U.tables ATTACHMENTS [] = [ATTACHMENTS] := by
    rw [keys_nil, Plain.lower (by decide)]
  have hdiffer : ATTACHMENTS ≠ text "manifest.json" := by decide
  unfold reserved
  simp only
  have hfirst := name_eq_base (T := U.tables) [] (root U input) (text "manifest") (text ".json") (fun _ _ => List.not_mem_nil)
  rw [hfirst, hmanifest]
  have hsecond := name_eq_base (T := U.tables) [(root U input, text "manifest.json")] (root U input) ATTACHMENTS [] (by
    rw [hattachments]
    simpa using hdiffer)
  simp only [List.map_cons, List.map_nil, List.append_nil, hsecond, hattachments]
  rfl

theorem reserved_good : Laid U.tables (root U input) (reserved U input) [root U input]
    [root U input ++ 47 :: text "manifest.json"] := by
  have hkey : toLowerCase U.tables (text "manifest.json") = text "manifest.json" := Plain.lower (by decide)
  rw [reserved_eq]
  refine ⟨List.mem_singleton_self _, List.mem_cons_self, ?_, ?_, ?_, ?_, List.nodup_singleton _⟩
  · exact fun d hd => .inl (List.mem_singleton.mp hd)
  · intro d hd d' hd' _
    rw [List.mem_singleton.mp hd, List.mem_singleton.mp hd']
  · exact fun d hd => .inl (List.mem_singleton.mp hd)
  · intro f hf
    refine ⟨_, List.mem_singleton_self _, text "manifest.json", by decide, List.mem_singleton.mp hf, ?_⟩
    rw [hkey]
    exact List.mem_cons_of_mem _ List.mem_cons_self

/-- Before the first page. -/
theorem Progress.Good.start {used : Used} (h : Laid U.tables (root U input) used dirs [root U input ++ 47 :: text "manifest.json"])
    (unreadable : ℕ) :
    ({ used, unreadable } : Progress).Good U input dirs [root U input ++ 47 :: text "manifest.json"] :=
  ⟨h, ⟨List.nodup_nil, nofun⟩, List.Perm.refl _⟩

/-- The layout when the export is done. -/
theorem buildNotebookExport_good (hids : WellFormedIds input) {entries : List ZipEntry}
    (h : buildNotebookExport U input = some entries) : ∃ s : Progress, ∃ dirs files, s.Good U input dirs files ∧
      entries.map ZipEntry.path = (root U input ++ 47 :: text "manifest.json") :: s.entries.map ZipEntry.path := by
  unfold buildNotebookExport at h
  simp only [Option.bind_eq_bind, Option.bind_eq_some_iff, Option.pure_def, Option.some.injEq] at h
  obtain ⟨s, hs, rfl⟩ := h
  obtain ⟨dirs₁, -, hgroups⟩ := groups_good (namedGroups input) (s := ⟨reserved U input, []⟩)
    ⟨reserved_good, nofun⟩
  obtain ⟨dirs₂, -, hsections, hdirs⟩ := sectionDirs_good (sortedSections input.sections) hgroups
  have hquick := hsections.1.name_dir (root_safe U input) hsections.1.root_mem (text "Quick Notes") (by decide)
  obtain ⟨files, hgood⟩ := foldlM_good (P := fun s => ∃ files, Progress.Good U input _ s files)
    (fun list hl _ _ hgood hstep => exportList_good hids
      (lists_mem (fun d hd => List.mem_cons_of_mem _ (hdirs d hd)) List.mem_cons_self list hl) hgood hstep)
    ⟨_, Progress.Good.start hquick input.unreadable⟩ hs
  refine ⟨s, _, files, hgood, ?_⟩
  rw [List.map_cons, join_two (root_safe U input).segment.1 (by decide)]

/-- The paths of an export are segments under the root, and no two are the same in lower case. -/
theorem export_paths (U : Unicode) (input : NotebookInput ρ) (hids : WellFormedIds input)
    (entries : List ZipEntry) (h : buildNotebookExport U input = some entries) :
    (entries.map fun e => toLowerCase U.tables e.path).Nodup ∧
    ∀ e ∈ entries, ∃ segments, segments ≠ [] ∧ e.path = [47].intercalate (root U input :: segments) ∧
      ∀ s ∈ root U input :: segments, Segment s := by
  obtain ⟨s, dirs, files, hgood, hpaths⟩ := buildNotebookExport_good hids h
  have hroot := root_safe U input
  have hperm := hgood.paths
  rw [← hpaths] at hperm
  constructor
  · have hlower := hperm.map (toLowerCase U.tables)
    rw [List.map_map] at hlower
    refine (List.Perm.nodup_iff hlower).mpr ?_
    rw [List.map_append, List.nodup_append']
    refine ⟨hgood.laid.files_distinct, hgood.attached.distinct, fun p hp hp' => ?_⟩
    obtain ⟨f, hf, rfl⟩ := List.mem_map.mp hp
    obtain ⟨a, ha, heq⟩ := List.mem_map.mp hp'
    obtain ⟨m, hm, rfl⟩ := List.mem_map.mp ha
    exact hgood.attached.ne_file hroot hgood.laid m hm f hf heq
  · intro e he
    have hunder : Under (root U input) e.path := by
      rcases List.mem_append.mp (hperm.subset (List.mem_map_of_mem (f := ZipEntry.path) he)) with hfile | hmeta
      · obtain ⟨p, hp, s, hs, hpath, -⟩ := hgood.laid.files_child _ hfile
        rw [hpath]
        exact Under.of_dir (hgood.laid.under p hp) hs.segment
      · obtain ⟨m, hm, hpath⟩ := List.mem_map.mp hmeta
        obtain ⟨hid, s, hs, hm⟩ := hgood.attached.paths m hm
        rw [← hpath, hm]
        exact .deeper (.deeper (.child (by decide)) hid.safe.segment) hs.segment
    obtain ⟨segments, hne, hpath, hsegments⟩ := hunder.segments
    exact ⟨segments, hne, hpath, List.forall_mem_cons.mpr ⟨hroot.segment, hsegments⟩⟩

end Build

/-- Two sections whose titles differ in their case, in a group, with a page each and an attachment on one of them. -/
def sample : NotebookInput Text where
  name := text "Trip: 2026"
  notes := [⟨text "p1", text "Map", [], some (text "s1"), none⟩, ⟨text "p2", [], [], some (text "s2"), none⟩]
  sections := [⟨text "s1", text "Plan", none, some (text "g")⟩, ⟨text "s2", text "PLAN", none, some (text "g")⟩]
  groups := [⟨text "g", text "attachments", none, none⟩]
  unreadable := 0
  attachments :=
    { id := id
      list := fun page => some (if page = text "p1" then [text "att_00000000000000000000000000"] else [])
      read := fun _ => some ⟨text "a/b.png", text "image/png", [1]⟩ }
  isCanvas := fun _ => true
  markdown := fun _ _ _ => some []
  manifest := fun _ _ => []

/-- Tables with no case beyond ASCII. -/
def asciiCase : Tables where
  lower c := if 128 ≤ c ∧ c < 0x10000 then [c] else []
  cased _ := false
  ignorable _ := false
  no_slash := by
    intro c h
    split at h
    · next hc =>
      obtain ⟨n, hn, hmem⟩ := List.mem_flatMap.mp h
      obtain rfl := List.mem_singleton.mp hn
      rw [Casing.unitsOf, if_pos hc.2, List.mem_singleton] at hmem
      have heq := congrArg UInt16.toNat hmem
      rw [UInt16.toNat_ofNat', Nat.mod_eq_of_lt hc.2] at heq
      exact absurd heq.symm (Nat.ne_of_gt (Nat.lt_of_lt_of_le (by decide) hc.1))
    · exact List.not_mem_nil h

def asciiUnicode : Unicode where
  tables := asciiCase
  normalize := id
  normalize_ascii := fun _ _ => rfl

theorem export_paths_sample :
    (((buildNotebookExport asciiUnicode sample).getD []).map fun e => toLowerCase asciiUnicode.tables e.path).Nodup := by
  have hids : WellFormedIds sample := by
    intro pageID refs hrefs ref href
    obtain rfl := Option.some.inj hrefs
    have hid : WellFormed (text "att_00000000000000000000000000") := by decide
    split at href
    · exact List.mem_singleton.mp href ▸ hid
    · cases href
  have hsome : (buildNotebookExport asciiUnicode sample).isSome = true := by decide +kernel
  obtain ⟨entries, hentries⟩ := Option.isSome_iff_exists.mp hsome
  rw [hentries]
  exact (export_paths asciiUnicode sample hids entries hentries).1

end KyNotes.Export
