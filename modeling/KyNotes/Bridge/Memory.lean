import KyNotes.Bridge.Notebook
import KyNotes.Lib.Run

/-!
# The bridge's memory

What is remembered of a notebook is ordered (`KeyState.Le`, `TrustState.Rises`), every stage of `refresh` only raises it,
and the file is never ahead of the process (`Notebook.Sound`). A key that a tool uses is one of the ring, whose digests are in
the file by then.
-/

namespace KyNotes.Bridge

open Relational Web Check Transition
open Content (Payload)
open Content.Notecrypto (openObject openSealed)

/-! ## Memory is ordered -/

/-- Generations, mark and marker are no lower, and the digests are kept. -/
structure KeyState.Le (k k' : KeyState) : Prop where
  shared : k.shared ≤ k'.shared
  generation : k.generation ≤ k'.generation
  mark : k.mark ≤ k'.mark
  objects : k.objects ≤ k'.objects
  digests : ∀ g d, k.digests.lookup g = some d → k'.digests.lookup g = some d

theorem KeyState.Le.refl (k : KeyState) : k.Le k :=
  ⟨Int.le_refl _, Int.le_refl _, Int.le_refl _, Int.le_refl _, fun _ _ h => h⟩

theorem KeyState.Le.trans {k k' k'' : KeyState} (h : k.Le k') (h' : k'.Le k'') : k.Le k'' where
  shared := Int.le_trans h.shared h'.shared
  generation := Int.le_trans h.generation h'.generation
  mark := Int.le_trans h.mark h'.mark
  objects := Int.le_trans h.objects h'.objects
  digests g d hd := h'.digests g d (h.digests g d hd)

theorem KeyState.raise_le {k k' : KeyState} {c : Container} (h : k.raise c = some k') : k.Le k' ∧ k'.objects = k.objects := by
  unfold KeyState.raise at h
  split at h
  · cases h
  · rename_i hc
    cases h
    rw [not_or, Int.not_lt, Int.not_lt] at hc
    exact ⟨⟨hc.1, hc.2, Int.le_refl _, Int.le_refl _, fun _ _ h => h⟩, rfl⟩

/-- Pins are kept, and what is remembered of any notebook only rises. -/
structure TrustState.Rises (t t' : TrustState) : Prop where
  pins : ∀ u k, t.pins.lookup u = some k → t'.pins.lookup u = some k
  known : ∀ id, (t.known id).Le (t'.known id)

theorem TrustState.Rises.refl (t : TrustState) : t.Rises t := ⟨fun _ _ h => h, fun _ => .refl _⟩

theorem TrustState.Rises.trans {t t' t'' : TrustState} (h : t.Rises t') (h' : t'.Rises t'') : t.Rises t'' :=
  ⟨fun u k hk => h'.pins u k (h.pins u k hk), fun id => (h.known id).trans (h'.known id)⟩

/-- A marker is there or not. -/
def TrustState.Marked (t : TrustState) : Prop := ∀ id, (t.known id).objects = 0 ∨ (t.known id).objects = 2

theorem TrustState.Rises.marker {t t' : TrustState} (h : t.Rises t') (hm : t'.Marked) {id : JsString}
    (h2 : (t.known id).objects = 2) : (t'.known id).objects = 2 := by
  have := (h.known id).objects
  have := hm id
  omega

/-! ## What a keyring remembers -/

section Keyring

variable {S : Suite} {containerID : JsString} {me : Self} {members : List Member} {pins : Pins} {rows : List EnvelopeRow}
  {known : KeyState}

variable (S containerID me rows) in
/-- A row of the generation opens to the key, with some sender. -/
def Opens (g : Int) (key : Bytes) : Prop :=
  ∃ r ∈ rows, r.keyGeneration = g ∧ ∃ envelope sender, Base64.decodeStd r.envelope = some envelope ∧
    openKey S containerID me r.alg envelope g sender = some key

variable (S containerID me pins rows known) in
/-- The key memory has grown by the digests of the ring, the rows open to the keys of it, and who is pinned now was not
pinned before. -/
structure OpenedRing.Grown (out : OpenedRing) : Prop where
  le : known.Le out.known
  objects : out.known.objects = known.objects
  shared : out.known.shared = known.shared
  generation : out.known.generation = known.generation
  ring : ∀ g key, out.ring.lookup g = some key → out.known.digests.lookup g = some (S.sha256 key)
  opened : ∀ g key, out.ring.lookup g = some key → Opens S containerID me rows g key
  fresh : ∀ m ∈ out.fresh, pins.lookup m.userId = none

variable (S containerID me pins rows known) in
/-- So has that of a pass, and what is left for later is of the rows. -/
structure Pass.Grown (p : Pass) : Prop where
  out : p.out.Grown S containerID me pins rows known
  deferred : ∀ d ∈ p.deferred, ∃ r ∈ rows, r.keyGeneration = d.generation ∧ r.alg = d.alg ∧
    Base64.decodeStd r.envelope = some d.envelope

theorem accept_grown {out : OpenedRing} (h : out.Grown S containerID me pins rows known) {g : Int} {key : Bytes}
    (hopens : Opens S containerID me rows g key) : (accept S out g key).1.Grown S containerID me pins rows known := by
  unfold accept
  dsimp only
  split
  · exact h
  · rename_i hfree
    split
    · exact h
    · rename_i hany
      have hstored : ∀ d, out.known.digests.lookup g = some d → d = S.sha256 key := by
        intro d hd
        simpa [hd] using hany
      refine ⟨h.le.trans ⟨Int.le_refl _, Int.le_refl _, Int.le_refl _, Int.le_refl _, ?_⟩, h.objects, h.shared, h.generation, ?_,
        ?_, h.fresh⟩
      · intro g' d hd
        show (out.known.digests.set g (S.sha256 key)).lookup g' = some d
        rw [Record.lookup_set]
        split
        · rename_i hg
          rw [hg] at hd
          rw [hstored d hd]
        · exact hd
      · intro g' key' hk
        show (out.known.digests.set g (S.sha256 key)).lookup g' = some (S.sha256 key')
        simp only at hk
        rw [Record.lookup_set] at hk ⊢
        split at hk
        · rename_i hg
          cases hk
          rw [if_pos hg]
        · rename_i hg
          rw [if_neg hg]
          exact h.ring g' key' hk
      · intro g' key' hk
        simp only at hk
        rw [Record.lookup_set] at hk
        split at hk
        · rename_i hg
          cases hk
          rw [hg]
          exact hopens
        · exact h.opened g' key' hk

theorem pin_grown {p : Pass} (h : p.Grown S containerID me pins rows known) (steward : Option Member) :
    (pin pins p steward).Grown S containerID me pins rows known := by
  cases steward with
  | none => exact h
  | some m =>
    unfold pin
    dsimp only
    split
    · exact h
    · rename_i hnew
      refine ⟨⟨h.out.le, h.out.objects, h.out.shared, h.out.generation, h.out.ring, h.out.opened, fun f hf => ?_⟩, h.deferred⟩
      obtain hf | hf := List.mem_append.1 hf
      · exact h.out.fresh f hf
      · cases List.mem_singleton.1 hf
        rw [not_or, Bool.not_eq_true, Option.isSome_eq_false_iff, Option.isNone_iff_eq_none] at hnew
        exact hnew.1

theorem openWith_grown {p : Pass} (h : p.Grown S containerID me pins rows known) {r : EnvelopeRow} (hr : r ∈ rows)
    {envelope : Bytes} (he : Base64.decodeStd r.envelope = some envelope) (pub : Option Bytes) (steward : Option Member) :
    (openWith S containerID me pins p r.alg envelope r.keyGeneration pub steward).Grown S containerID me pins rows known := by
  unfold openWith
  split
  · refine ⟨h.out, fun d hd => ?_⟩
    obtain hd | hd := List.mem_append.1 hd
    · exact h.deferred d hd
    · cases List.mem_singleton.1 hd
      exact ⟨r, hr, rfl, rfl, he⟩
  · rename_i key hkey
    obtain ⟨sender, -, hopen⟩ := Option.bind_eq_some_iff.1 hkey
    have hacc := accept_grown h.out ⟨r, hr, rfl, envelope, sender, he, hopen⟩
    dsimp only
    split
    · refine pin_grown ?_ steward
      refine ⟨?_, h.deferred⟩
      exact ⟨hacc.le.trans ⟨Int.le_refl _, Int.le_refl _, Int.le_max_left _ _, Int.le_refl _, fun _ _ h => h⟩,
        hacc.objects, hacc.shared, hacc.generation, hacc.ring, hacc.opened, hacc.fresh⟩
    · exact h

theorem openRow_grown {p p' : Pass} (h : p.Grown S containerID me pins rows known) {r : EnvelopeRow} (hr : r ∈ rows)
    (ho : openRow S containerID me members pins p r = .ok p') : p'.Grown S containerID me pins rows known := by
  unfold openRow at ho
  split at ho
  · cases ho
    exact h
  · split at ho
    · cases ho
      exact h
    · rename_i envelope he
      split at ho
      · cases ho
        exact h
      · split at ho
        · cases ho
        · cases ho
          exact h
        · cases ho
          exact openWith_grown h hr he ..

theorem openRows_grown : ∀ {rs : List EnvelopeRow} {p p' : Pass}, p.Grown S containerID me pins rows known → rs ⊆ rows →
    openRows S containerID me members pins p rs = .ok p' → p'.Grown S containerID me pins rows known
  | [], p, p', h, _, ho => by
    cases ho
    exact h
  | r :: rs, p, p', h, hsub, ho => by
    rw [openRows] at ho
    cases hrow : openRow S containerID me members pins p r with
    | error e =>
      rw [hrow] at ho
      cases ho
    | ok q =>
      rw [hrow] at ho
      obtain ⟨hr, hrs⟩ := List.cons_subset.1 hsub
      exact openRows_grown (openRow_grown h hr hrow) hrs ho

theorem openDeferred_grown {out : OpenedRing} (h : out.Grown S containerID me pins rows known) {d : Row}
    (hd : ∃ r ∈ rows, r.keyGeneration = d.generation ∧ r.alg = d.alg ∧ Base64.decodeStd r.envelope = some d.envelope) :
    (openDeferred S containerID me pins out d).Grown S containerID me pins rows known := by
  unfold openDeferred
  split
  · exact h
  · dsimp only
    split
    · exact h
    · rename_i key hkey
      obtain ⟨sender, -, hopen⟩ := List.exists_of_findSome?_eq_some hkey
      obtain ⟨r, hr, hg, halg, he⟩ := hd
      exact accept_grown h ⟨r, hr, hg, d.envelope, sender, he, halg ▸ hopen⟩

theorem openKeyring_grown {out : OpenedRing} (h : openKeyring S containerID me members pins rows known = .ok out) :
    out.Grown S containerID me pins rows known := by
  unfold openKeyring at h
  split at h
  · cases h
  · rename_i p hp
    cases h
    have hstart : (⟨Table.empty, [], known⟩ : OpenedRing).Grown S containerID me pins rows known :=
      ⟨.refl _, rfl, rfl, rfl, fun g key hk => (by cases hk), fun g key hk => (by cases hk), fun m hm => (by cases hm)⟩
    have hrows := openRows_grown ⟨hstart, fun d hd => (by cases hd)⟩ (List.Subset.refl rows) hp
    have hall : ∀ (ds : List Row) {o : OpenedRing}, ds ⊆ p.deferred → o.Grown S containerID me pins rows known →
        (ds.foldl (openDeferred S containerID me pins) o).Grown S containerID me pins rows known := by
      intro ds
      induction ds with
      | nil => exact fun _ h => h
      | cons d ds ih =>
        intro o hsub h
        obtain ⟨hd, hds⟩ := List.cons_subset.1 hsub
        exact ih hds (openDeferred_grown h (hrows.deferred d hd))
    exact hall p.deferred (List.Subset.refl _) hrows.out

end Keyring

/-! ## What a stage of `refresh` keeps -/

section Machine

variable (I : Imports)

/-- The object opens in the v2 form with some key. -/
def OpenedV2 (containerID id : JsString) (p : Payload) : Prop :=
  ∃ key body plaintext, openSealed I.content key ⟨Utf16.encode containerID, Utf16.encode id, Content.Notecrypto.kindObject⟩
    Content.Notecrypto.objectLabel body false = .ok (plaintext, false) ∧ (I.json plaintext).bind Content.parsePayload = some p

/-- The digests of the ring are in the file, and so is the marker that the process has seen; from then on the cache holds
v2 objects only. -/
structure Notebook.Kept (file : TrustState) (n : Notebook) : Prop where
  ring : ∀ g key, n.ring.lookup g = some key → (file.known n.id).digests.lookup g = some (I.suite.sha256 key)
  marker : n.migrated = true → (file.known n.id).objects = 2
  cache : n.migrated = true → ∀ id c p, n.cache.lookup id = some c → c.payload = some p → OpenedV2 I n.id id p

variable {I}

theorem Notebook.Kept.rises {file file' : TrustState} {n : Notebook} (h : n.Kept I file) (hr : file.Rises file')
    (hm : file'.Marked) : n.Kept I file' :=
  ⟨fun g key hk => (hr.known n.id).digests g _ (h.ring g key hk), fun hmig => hr.marker hm (h.marker hmig), h.cache⟩

variable (I) in
/-- A process whose file is behind its memory. -/
structure Machine.Sound (m : Machine) : Prop where
  behind : m.file.Rises m.nb.trust
  fileMarked : m.file.Marked
  marked : m.nb.trust.Marked
  kept : m.nb.Kept I m.file

variable (I) in
/-- From one state to a later one of the same notebook, the file only rises. -/
structure Machine.Later (m m' : Machine) : Prop where
  id : m'.nb.id = m.nb.id
  file : m.file.Rises m'.file
  sound : m'.Sound I

theorem Machine.Later.trans {m m' m'' : Machine} (h : m.Later I m') (h' : m'.Later I m'') : m.Later I m'' :=
  ⟨h'.id.trans h.id, h.file.trans h'.file, h'.sound⟩

theorem Machine.Sound.later {m : Machine} (h : m.Sound I) : m.Later I m := ⟨rfl, .refl _, h⟩

variable {m : Machine}

theorem known_setKnown (m : Machine) (k : KeyState) (id : JsString) :
    (m.setKnown k).nb.trust.known id = if id = m.nb.id then k else m.nb.trust.known id := by
  show ((m.nb.trust.containers.set m.nb.id k).lookup id).getD .zero = _
  rw [Record.lookup_set]
  split
  · rfl
  · rfl

theorem Machine.known_set (m : Machine) (k : KeyState) : (m.setKnown k).known = k :=
  (known_setKnown m k m.nb.id).trans (if_pos rfl)

theorem Machine.known_adopt (m : Machine) (opened : OpenedRing) : (m.adopt opened).known = opened.known :=
  Machine.known_set _ _

/-- What is remembered of the notebook is raised in memory. -/
theorem Machine.Sound.setKnown (h : m.Sound I) {k : KeyState} (hle : m.known.Le k) (hk : k.objects = 0 ∨ k.objects = 2) :
    m.Later I (m.setKnown k) := by
  refine ⟨rfl, .refl _, ?_, h.fileMarked, fun id => ?_, ⟨h.kept.ring, h.kept.marker, h.kept.cache⟩⟩
  · refine h.behind.trans ⟨fun _ _ hp => hp, fun id => ?_⟩
    rw [known_setKnown]
    split
    · rename_i hid
      rw [hid]
      exact hle
    · exact .refl _
  · rw [known_setKnown]
    split
    · exact hk
    · exact h.marked id

/-- The memory is saved. -/
theorem Machine.Sound.save (h : m.Sound I) : m.Later I m.save :=
  ⟨rfl, h.behind, .refl _, h.marked, h.marked, h.kept.rises h.behind h.marked⟩

/-- What no field of the memory depends on is set. -/
theorem Machine.Sound.with {n : Notebook} (h : m.Sound I) (hid : n.id = m.nb.id) (ht : n.trust = m.nb.trust)
    (hn : n.Kept I m.file) : m.Later I { m with nb := n } :=
  ⟨hid, .refl _, ht ▸ h.behind, h.fileMarked, ht ▸ h.marked, hn⟩

theorem Machine.Sound.raise (h : m.Sound I) (c : Container) (save : Bool) : m.Later I (m.raise c save).1 := by
  have h₀ : m.Later I (m.setKnown m.known) := h.setKnown (.refl _) (h.marked _)
  unfold Machine.raise
  dsimp only
  split
  · exact h₀
  · rename_i known hr
    obtain ⟨hle, hobj⟩ := KeyState.raise_le hr
    have h₁ : m.Later I ((m.setKnown m.known).setKnown known) :=
      h₀.trans (h₀.sound.setKnown hle (hobj ▸ h₀.sound.marked _))
    split
    · have h₂ := h₁.trans h₁.sound.save
      exact h₂.trans (h₂.sound.with rfl rfl ⟨h₂.sound.kept.ring, h₂.sound.kept.marker, h₂.sound.kept.cache⟩)
    · exact h₁

/-- Who is pinned on first contact had no pin. -/
theorem lookup_fresh (pins : Pins) (key : Member → JsString) {u k : JsString} : ∀ (fresh : List Member) {acc : Pins},
    (∀ f ∈ fresh, pins.lookup f.userId = none) → pins.lookup u = some k → acc.lookup u = some k →
      (fresh.foldl (fun acc f => acc.set f.userId (key f)) acc).lookup u = some k
  | [], _, _, _, h => h
  | f :: fresh, acc, hf, hu, h => by
    refine lookup_fresh pins key fresh (fun g hg => hf g (List.mem_cons_of_mem _ hg)) hu ?_
    rw [Record.lookup_set, if_neg]
    · exact h
    · rintro rfl
      rw [hf f List.mem_cons_self] at hu
      cases hu

theorem Machine.Sound.adopt (h : m.Sound I) {opened : OpenedRing}
    {me : Self} {rows : List EnvelopeRow} (hg : opened.Grown I.suite m.nb.id me m.nb.trust.pins rows m.known) :
    m.Later I (m.adopt opened) := by
  let pins := opened.fresh.foldl
    (fun (pins : Pins) f => pins.set f.userId ((f.identity.map PublicIdentity.publicKey).getD [])) m.nb.trust.pins
  let m₁ : Machine := { m with nb := { m.nb with trust := { m.nb.trust with pins := pins } } }
  have h₁ : m.Later I m₁ := by
    refine ⟨rfl, .refl _, h.behind.trans ⟨fun u k hk => ?_, fun _ => .refl _⟩, h.fileMarked, h.marked, h.kept.ring,
      h.kept.marker, h.kept.cache⟩
    exact lookup_fresh m.nb.trust.pins _ opened.fresh hg.fresh hk hk
  exact h₁.trans (h₁.sound.setKnown hg.le (hg.objects ▸ h.marked _))

theorem Machine.marker_ge {c : Container} {ring : Record Int Bytes} {objects : Int} (h : m.marker I c ring = some objects)
    (hm : m.known.objects = 0 ∨ m.known.objects = 2) :
    m.known.objects ≤ objects ∧ (objects = 0 ∨ objects = 2) := by
  unfold Machine.marker at h
  split at h
  · cases h
    exact ⟨Int.le_refl _, hm⟩
  · split at h
    · cases h
      omega
    · split at h
      · cases h
      · cases h
        exact ⟨Int.le_refl _, hm⟩

/-- After `finish` without an error, the ring and the marker are those of the saved memory. -/
theorem Machine.Sound.finish (h : m.Sound I) (c : Container) {ring : Record Int Bytes}
    (hring : ∀ g key, ring.lookup g = some key → m.known.digests.lookup g = some (I.suite.sha256 key)) (save : Bool) :
    m.Later I (m.finish I c ring save).machine := by
  unfold Machine.finish
  dsimp only
  split
  · exact h.later
  · rename_i objects hmark
    obtain ⟨hge, h02⟩ := m.marker_ge hmark (h.marked _)
    let known : KeyState := { m.known with objects }
    have h₁ : m.Later I (m.setKnown known) :=
      h.setKnown ⟨Int.le_refl _, Int.le_refl _, Int.le_refl _, hge, fun _ _ hd => hd⟩ h02
    split
    · have h₂ := h₁.trans h₁.sound.save
      have hknown : (m.setKnown known).save.file.known m.nb.id = known := by
        show (m.setKnown known).nb.trust.known m.nb.id = known
        rw [known_setKnown, if_pos rfl]
      refine h₂.trans (h₂.sound.with rfl rfl ⟨fun g key hk => ?_, fun hmig => ?_, fun hmig => ?_⟩)
      · show (TrustState.known _ m.nb.id).digests.lookup g = _
        rw [hknown]
        exact hring g key hk
      · show (TrustState.known _ m.nb.id).objects = 2
        rw [hknown]
        exact of_decide_eq_true hmig
      · intro id cached p hl hp
        have h2 : objects = 2 := of_decide_eq_true hmig
        simp only [h2, true_and] at hl
        split at hl
        · cases hl
        · rename_i hold
          exact h₂.sound.kept.cache (Bool.not_eq_false _ ▸ hold) id cached p hl hp
    · exact h₁

/-- The marker that the process goes on with is the one in the file. -/
theorem Machine.finish_marker {c : Container} {ring : Record Int Bytes} {save : Bool}
    (hok : (m.finish I c ring save).error = none) :
    (m.finish I c ring save).machine.nb.migrated = true ↔
      ((m.finish I c ring save).machine.file.known (m.finish I c ring save).machine.nb.id).objects = 2 := by
  cases hmark : m.marker I c ring with
  | none => simp [Machine.finish, hmark] at hok
  | some objects =>
    cases save with
    | false => simp [Machine.finish, hmark] at hok
    | true =>
      simp only [Machine.finish, hmark, if_true]
      show decide (objects = 2) = true ↔ ((m.setKnown { m.known with objects }).nb.trust.known m.nb.id).objects = 2
      rw [known_setKnown, if_pos rfl]
      exact decide_eq_true_iff

end Machine

/-! ## `refresh` and `index` -/

section Refresh

variable {I : Imports} {m : Machine}

theorem Machine.Sound.known_file (h : m.Sound I) {id : JsString} (h2 : (m.file.known id).objects = 2) :
    (m.nb.trust.known id).objects = 2 := h.behind.marker h.marked h2

variable (I) in
/-- What a use opens is in the v1 form. -/
def Use.Legacy (containerID : JsString) : Use → Prop
  | .opening object _ key body v1 => ∃ p, openSealed I.content key
      ⟨Utf16.encode containerID, Utf16.encode object, Content.Notecrypto.kindObject⟩ Content.Notecrypto.objectLabel body v1 =
        .ok (p, true)
  | .naming _ key body v1 => ∃ p, openSealed I.content key
      ⟨Utf16.encode containerID, Utf16.encode containerID, Content.Notecrypto.kindContainerMeta⟩
        Content.Notecrypto.metaLabel body v1 = .ok (p, true)
  | .sealing _ _ _ => False

/-- Where the older form is refused, it does not open. -/
theorem Use.not_legacy {containerID : JsString} {u : Use} (h : (∀ o g k b v, u = .opening o g k b v → v = false) ∧
    ∀ g k b v, u = .naming g k b v → v = false) : ¬u.Legacy I containerID := by
  cases u with
  | sealing => exact id
  | opening o g k b v =>
    rintro ⟨p, hp⟩
    rw [h.1 o g k b v rfl] at hp
    cases Content.Notecrypto.openSealed_v2_only hp
  | naming g k b v =>
    rintro ⟨p, hp⟩
    rw [h.2 g k b v rfl] at hp
    cases Content.Notecrypto.openSealed_v2_only hp

theorem readKey_ring {ring : Record Int Bytes} {shared g : Int} {key : Bytes} (h : readKey ring shared g = some key) :
    ring.lookup g = some key := by
  unfold readKey at h
  split at h
  · cases h
  · exact h

/-- A name is tried with a key of the ring. -/
theorem Machine.finish_named {c : Container} {ring : Record Int Bytes} {save : Bool} {u : Use}
    (hu : u ∈ (m.finish I c ring save).named) : ∃ key sealed,
      u = .naming m.nb.keyGeneration key sealed (decide (m.known.objects < 2)) ∧
        ring.lookup m.nb.keyGeneration = some key := by
  have hnamed : (m.finish I c ring save).named = m.named c ring := by
    unfold Machine.finish
    dsimp only
    split
    · rfl
    · split
      · rfl
      · rfl
  rw [hnamed, Machine.named, List.mem_map] at hu
  obtain ⟨⟨key, sealed⟩, hk, rfl⟩ := hu
  refine ⟨key, sealed, rfl, ?_⟩
  rw [Option.mem_toList, Machine.nameKey] at hk
  split at hk
  · cases hk
  · obtain ⟨k, hr, he⟩ := Option.map_eq_some_iff.1 hk
    cases he
    exact readKey_ring hr

/-- Without an error, the ring is taken over. -/
theorem Machine.finish_ring {c : Container} {ring : Record Int Bytes} {save : Bool}
    (hok : (m.finish I c ring save).error = none) : (m.finish I c ring save).machine.nb.ring = ring := by
  unfold Machine.finish at hok ⊢
  dsimp only at hok ⊢
  split at hok
  · cases hok
  · split at hok
    · rename_i hs
      rw [if_pos hs]
    · cases hok

/-- `refresh` only raises; without an error, its marker is the one in the file, and the key of the name is stored; a name is
opened in the older form only where no marker is stored. -/
structure Refreshed.Good (I : Imports) (m : Machine) (r : Refreshed) : Prop where
  later : m.Later I r.machine
  marker : r.error = none → (r.machine.nb.migrated = true ↔ (r.machine.file.known r.machine.nb.id).objects = 2)
  stored : r.error = none → ∀ u ∈ r.named, r.machine.nb.ring.lookup u.generation = some u.key
  named : (m.file.known m.nb.id).objects = 2 → ∀ u ∈ r.named, ¬u.Legacy I m.nb.id

/-- Up to the name, memory and file only rise, and the digests of the ring are in memory. -/
theorem Machine.Sound.look (h : m.Sound I) (a : Answers) :
    match m.look I a with
    | .error (m', _) => m.Later I m'
    | .ok (m', _, opened) => m.Later I m' ∧
      ∀ g key, opened.ring.lookup g = some key → m'.known.digests.lookup g = some (I.suite.sha256 key) := by
  unfold Machine.look
  cases hrep : reported a m.nb.id with
  | error e => exact h.later
  | ok c =>
    dsimp only
    have hraise := h.raise c a.firstSave
    cases hr : m.raise c a.firstSave with
    | mk m₁ e =>
      rw [hr] at hraise
      cases e with
      | some e => exact hraise
      | none =>
        dsimp only
        cases a.members with
        | none => exact hraise
        | some answers =>
          dsimp only
          generalize readMembers none answers = found
          obtain ⟨role, members⟩ := found
          have hrole : m.Later I { m₁ with nb := { m₁.nb with role } } := hraise.trans
            (hraise.sound.with rfl rfl ⟨hraise.sound.kept.ring, hraise.sound.kept.marker, hraise.sound.kept.cache⟩)
          cases members with
          | none => exact hrole
          | some members =>
            cases a.rows with
            | none => exact hrole
            | some rows =>
              dsimp only
              cases hopen : openKeyring I.suite m₁.nb.id a.me members m₁.nb.trust.pins rows
                  (Machine.known { m₁ with nb := { m₁.nb with role } }) with
              | error e => exact hrole
              | ok opened =>
                have hg := openKeyring_grown hopen
                refine ⟨hrole.trans (hrole.sound.adopt hg), fun g key hk => ?_⟩
                rw [Machine.known_adopt]
                exact hg.ring g key hk

theorem Machine.Sound.refresh (h : m.Sound I) (a : Answers) : (m.refresh I a).Good I m := by
  have hlook := h.look a
  unfold Machine.refresh
  cases hl : m.look I a with
  | error x =>
    obtain ⟨m', e⟩ := x
    rw [hl] at hlook
    exact ⟨hlook, fun he => (by cases he), fun _ u hu => (by cases hu), fun _ u hu => (by cases hu)⟩
  | ok x =>
    obtain ⟨m', c, opened⟩ := x
    rw [hl] at hlook
    obtain ⟨hlater, hring⟩ := hlook
    refine ⟨hlater.trans (hlater.sound.finish c hring a.secondSave), Machine.finish_marker, fun hok u hu => ?_,
      fun h2 u hu => ?_⟩
    · obtain ⟨key, sealed, rfl, hk⟩ := Machine.finish_named hu
      dsimp only
      rw [Machine.finish_ring hok]
      exact hk
    · obtain ⟨key, sealed, rfl, -⟩ := Machine.finish_named hu
      have hlow := hlater.sound.known_file (hlater.file.marker hlater.sound.fileMarked h2)
      rw [← hlater.id] at hlow
      have hv1 : decide (m'.known.objects < 2) = false := decide_eq_false (Int.not_lt.2 (Int.le_of_eq hlow.symm))
      refine Use.not_legacy ⟨fun o g k b v he => (by cases he), fun g k b v he => ?_⟩
      cases he
      exact hv1

variable {n : Notebook} {file : TrustState}

/-- A key of the notebook, with the older form allowed only before the marker. -/
structure Use.Of (n : Notebook) (u : Use) : Prop where
  key : n.ring.lookup u.generation = some u.key
  opening : n.migrated = true → ∀ o g k b v, u = .opening o g k b v → v = false
  naming : ∀ g k b v, u ≠ .naming g k b v

theorem Notebook.openUses_of {id : JsString} {answer : Reply Served} {u : Use} (hu : u ∈ n.openUses id answer) : u.Of n := by
  unfold Notebook.openUses at hu
  split at hu
  · rename_i r
    obtain ⟨key, hk, rfl⟩ := List.mem_map.1 hu
    refine ⟨readKey_ring (Option.mem_toList.1 hk), fun hm o g k b v he => ?_, fun _ _ _ _ he => (by cases he)⟩
    cases he
    rw [hm]
    rfl
  · cases hu

/-- What opens once the marker is seen is in the v2 form. -/
theorem Notebook.openAnswer_v2 (hm : n.migrated = true) {id : JsString} {answer : Reply Served} {p : Payload} {version : Int}
    (h : n.openAnswer I id answer = .ok (p, version)) : OpenedV2 I n.id id p := by
  unfold Notebook.openAnswer at h
  split at h
  · cases h
  · cases h
  · rename_i r
    split at h
    · cases h
    · rename_i key _
      split at h
      · rename_i q ho
        cases h
        rw [hm] at ho
        unfold openObject at ho
        obtain ⟨⟨plaintext, legacy⟩, hs, hf⟩ := bind_ok.1 ho
        cases Content.Notecrypto.openSealed_v2_only hs
        exact ⟨key, r.body, plaintext, hs, fetch_ok.1 hf⟩
      · cases h

/-- What a walk has: entries in the v2 form once the marker is seen, and keys of the notebook. -/
structure Walk.Fine (I : Imports) (n : Notebook) (w : Walk) : Prop where
  cache : n.migrated = true → ∀ id c p, w.cache.lookup id = some c → c.payload = some p → OpenedV2 I n.id id p
  uses : ∀ u ∈ w.uses, u.Of n

theorem Walk.Fine.set {w : Walk} (h : w.Fine I n) {id : JsString} {c : Cached} {us : List Use} {live : List JsString}
    (hc : n.migrated = true → ∀ p, c.payload = some p → OpenedV2 I n.id id p) (hu : ∀ u ∈ us, u.Of n) :
    Walk.Fine I n ⟨w.cache.set id c, live, w.uses ++ us⟩ := by
  refine ⟨fun hm id' c' p hl hp => ?_, fun u hu' => ?_⟩
  · rw [Record.lookup_set] at hl
    split at hl
    · rename_i hid
      cases hl
      rw [hid]
      exact hc hm p hp
    · exact h.cache hm id' c' p hl hp
  · obtain hu' | hu' := List.mem_append.1 hu'
    · exact h.uses u hu'
    · exact hu u hu'

/-- Whether it goes on or stops. -/
def Walk.FineEnd (I : Imports) (n : Notebook) : Except Walk Walk → Prop
  | .ok w | .error w => w.Fine I n

theorem Notebook.visit_fine {w : Walk} (h : w.Fine I n) (l : Listing) : Walk.FineEnd I n (n.visit I w l) := by
  unfold Notebook.visit
  dsimp only
  split
  · exact h
  · split
    · exact ⟨h.cache, h.uses⟩
    · have huses : ∀ u ∈ n.openUses l.change.id l.read, u.Of n := fun u hu => n.openUses_of hu
      split
      · refine ⟨h.cache, fun u hu => ?_⟩
        obtain hu | hu := List.mem_append.1 hu
        · exact h.uses u hu
        · exact huses u hu
      · exact h.set (fun _ p hp => by cases hp) huses
      · rename_i p _ ho
        exact h.set (fun hm q hq => by cases hq; exact n.openAnswer_v2 hm ho) huses

theorem Notebook.forEach_fine : ∀ (ls : List Listing) {w : Walk}, w.Fine I n →
    Walk.FineEnd I n (forEach (n.visit I) w ls)
  | [], _, h => h
  | l :: ls, w, h => by
    have hv := n.visit_fine h l
    rw [forEach]
    cases hw : n.visit I w l with
    | error w' =>
      rw [hw] at hv
      exact hv
    | ok w' =>
      rw [hw] at hv
      exact Notebook.forEach_fine ls hv

theorem Notebook.walk_fine : ∀ (pages : List ChangesPage) (cursor : JsString) {w : Walk}, w.Fine I n →
    Walk.FineEnd I n (n.walk I cursor w pages)
  | [], _, _, h => h
  | page :: pages, cursor, w, h => by
    have hv := Notebook.forEach_fine page.changes h
    rw [Notebook.walk]
    cases hw : forEach (n.visit I) w page.changes with
    | error w' =>
      rw [hw] at hv
      exact hv
    | ok w' =>
      rw [hw] at hv
      rw [ok_bind]
      split
      · exact hv
      · exact Notebook.walk_fine pages page.nextCursor hv

/-- `index` keeps the notebook but its cache, its sections and its pages. -/
theorem Notebook.index_same (pages : List ChangesPage) : (n.index I pages).1.id = n.id ∧ (n.index I pages).1.trust = n.trust ∧
    (n.index I pages).1.ring = n.ring ∧ (n.index I pages).1.migrated = n.migrated ∧
    (n.index I pages).1.shared = n.shared ∧ (n.index I pages).1.keyGeneration = n.keyGeneration := by
  unfold Notebook.index
  split
  · exact ⟨rfl, rfl, rfl, rfl, rfl, rfl⟩
  · exact ⟨rfl, rfl, rfl, rfl, rfl, rfl⟩

theorem lookup_delete {cache : Record JsString Cached} {p : JsString × Cached → Prop} [DecidablePred p] {id : JsString}
    {c : Cached} (h : Record.lookup (Table.delete cache p) id = some c) : cache.lookup id = some c :=
  Record.lookup_eq_some.2 (Table.mem_delete.1 (Record.lookup_eq_some.1 h)).1

theorem mem_entries {cache : Record JsString Cached} {type : Content.PayloadType} {e : Entry} :
    e ∈ entries cache type ↔ e.payload.type = type ∧ ∃ c, cache.lookup e.id = some c ∧ c.payload = some e.payload := by
  unfold entries
  rw [List.mem_filterMap]
  constructor
  · rintro ⟨⟨id, c⟩, hm, he⟩
    obtain ⟨p, hp, rfl⟩ := Option.map_eq_some_iff.1 he
    obtain ⟨hp, ht⟩ := Option.filter_eq_some_iff.1 hp
    exact ⟨of_decide_eq_true ht, c, Record.lookup_eq_some.2 hm, hp⟩
  · rintro ⟨ht, c, hl, hp⟩
    exact ⟨(e.id, c), Record.lookup_eq_some.1 hl, by simp [hp, ht]⟩

/-- After `index`, the notebook is kept, its keys were used, and what it serves is in the v2 form once the marker is seen. -/
theorem Notebook.index_kept (h : n.Kept I file) (pages : List ChangesPage) : (n.index I pages).1.Kept I file ∧
    (∀ u ∈ (n.index I pages).2.1, u.Of n) ∧ ((n.index I pages).2.2 = true → n.migrated = true →
      ∀ e ∈ (n.index I pages).1.sections ++ (n.index I pages).1.pages, OpenedV2 I n.id e.id e.payload) := by
  have hw := Notebook.walk_fine pages (Utf16.ofText "0") (w := ⟨n.cache, [], []⟩)
    ⟨h.cache, fun u hu => by cases hu⟩
  unfold Notebook.index
  split
  · rename_i w he
    rw [he] at hw
    exact ⟨⟨h.ring, h.marker, hw.cache⟩, hw.uses, fun hf => by cases hf⟩
  · rename_i w he
    rw [he] at hw
    refine ⟨⟨h.ring, h.marker, fun hm id c p hl hp => hw.cache hm id c p (lookup_delete (p := fun r => w.live.contains r.1 = false) hl) hp⟩, hw.uses,
      fun _ hm e hmem => ?_⟩
    have hfound : ∃ c, Record.lookup (Table.delete w.cache fun r => w.live.contains r.1 = false) e.id = some c ∧
        c.payload = some e.payload := by
      obtain hmem | hmem := List.mem_append.1 hmem
      · exact (mem_entries.1 (List.mem_mergeSort.1 hmem)).2
      · exact (mem_entries.1 hmem).2
    obtain ⟨c, hl, hp⟩ := hfound
    exact hw.cache hm e.id c e.payload (lookup_delete hl) hp

theorem Notebook.writeKey_ring {key : Bytes} {g : Int} (h : n.writeKey = some (key, g)) : n.ring.lookup g = some key := by
  unfold Notebook.writeKey at h
  split at h
  · obtain ⟨k, hk, he⟩ := Option.map_eq_some_iff.1 h
    cases he
    exact hk
  · cases h

theorem Use.sealing_of {object : JsString} {key : Bytes} {g : Int} (h : n.ring.lookup g = some key) :
    (Use.sealing object g key).Of n :=
  ⟨h, fun _ _ _ _ _ _ he => (by cases he), fun _ _ _ _ he => (by cases he)⟩

theorem Notebook.appendTo_of (id : JsString) (blocks : String → Option String) {key : Bytes} {g : Int}
    (hk : n.ring.lookup g = some key) : ∀ (reads : List (Reply Served × Bool)), ∀ u ∈ n.appendTo I id blocks key g reads, u.Of n
  | [], u, hu => by cases hu
  | (answer, conflict) :: rest, u, hu => by
    have hrest := Notebook.appendTo_of id blocks hk rest
    rw [Notebook.appendTo] at hu
    dsimp only at hu
    split at hu
    · exact n.openUses_of hu
    · split at hu
      · split at hu
        · rw [List.mem_append, List.mem_append, List.mem_singleton] at hu
          obtain (hu | rfl) | hu := hu
          · exact n.openUses_of hu
          · exact Use.sealing_of hk
          · exact hrest u hu
        · rw [List.mem_append, List.mem_singleton] at hu
          obtain hu | rfl := hu
          · exact n.openUses_of hu
          · exact Use.sealing_of hk
      · exact n.openUses_of hu

theorem Notebook.toolUses_of (t : Tool) {u : Use} (hu : u ∈ n.toolUses I t) : u.Of n := by
  unfold Notebook.toolUses at hu
  split at hu
  · rename_i hw
    split at hu
    · cases List.mem_singleton.1 hu
      exact Use.sealing_of (n.writeKey_ring hw)
    · cases hu
  · rename_i hw
    split at hu
    · exact n.appendTo_of _ _ (n.writeKey_ring hw) _ u hu
    · cases hu
  · cases hu

end Refresh

/-! ## Runs -/

section Runs

variable {I : Imports} {w : World} {e : Event}

variable (I w) in
/-- The process is sound with the file as it is. -/
structure World.Sound : Prop where
  marked : w.file.Marked
  process : ∀ nb, w.process = some nb → Machine.Sound I ⟨w.file, nb⟩

/-- An event with a `refresh` has a process with the file, or starts one. -/
theorem World.Sound.refreshed (h : w.Sound I) {r : Refreshed} (hr : w.refreshed I e = some r) :
    ∃ nb : Notebook, w.notebook e = some nb.id ∧ r.Good I ⟨w.file, nb⟩ := by
  cases e with
  | stop => cases hr
  | start id a =>
    cases hp : w.process with
    | some nb => simp [World.refreshed, hp] at hr
    | none =>
      simp only [World.refreshed, hp, Option.some.injEq] at hr
      have hstart : Machine.Sound I ⟨w.file, .start id w.file⟩ :=
        ⟨.refl _, h.marked, h.marked, fun _ _ hk => (by cases hk), fun hm => (by cases hm), fun hm => (by cases hm)⟩
      exact ⟨.start id w.file, by simp [World.notebook, hp, Notebook.start], hr ▸ hstart.refresh a⟩
  | call a changes t =>
    cases hp : w.process with
    | none => simp [World.refreshed, hp] at hr
    | some nb =>
      simp only [World.refreshed, hp, Option.some.injEq] at hr
      exact ⟨nb, by simp [World.notebook, hp], hr ▸ (h.process nb hp).refresh a⟩

theorem World.ran_eq {x : Notebook × List Use × Bool} (h : w.ran I e = some x) :
    ∃ m named changes, w.refreshed I e = some ⟨m, named, none⟩ ∧ x = m.nb.index I changes := by
  unfold World.ran at h
  split at h
  · cases h
  · rename_i changes _ m named _ hr
    cases h
    exact ⟨m, named, changes, hr, rfl⟩
  · cases h

/-- A step leaves the file of its `refresh`, and a process of it. -/
theorem World.step_cases (w : World) (e : Event) :
    (∃ r, w.refreshed I e = some r ∧ (w.step I e).file = r.machine.file ∧ ∀ nb, (w.step I e).process = some nb →
      nb = r.machine.nb ∨ ∃ changes, nb = (r.machine.nb.index I changes).1) ∨
    w.refreshed I e = none ∧ (w.step I e).file = w.file ∧ ∀ nb, (w.step I e).process = some nb → w.process = some nb := by
  cases hr : w.refreshed I e with
  | none =>
    refine .inr ⟨rfl, ?_⟩
    cases e with
    | stop => exact ⟨rfl, fun nb h => by cases h⟩
    | start id a => simp [World.step, hr]
    | call a changes t => simp [World.step, hr]
  | some r =>
    refine .inl ⟨r, rfl, ?_⟩
    obtain ⟨m, named, error⟩ := r
    cases e with
    | stop => cases hr
    | start id a =>
      simp only [World.step, hr]
      refine ⟨trivial, fun nb hnb => .inl ?_⟩
      split at hnb
      · cases hnb
        rfl
      · cases hnb
    | call a changes t =>
      cases error with
      | none =>
        simp only [World.step, hr]
        refine ⟨trivial, fun nb hnb => ?_⟩
        cases hnb
        cases hran : w.ran I (.call a changes t) with
        | none => exact .inl rfl
        | some x =>
          obtain ⟨m', named', changes', hr', rfl⟩ := World.ran_eq hran
          rw [hr] at hr'
          cases hr'
          exact .inr ⟨changes', rfl⟩
      | some error =>
        cases error with
        | pinChanged p =>
          simp only [World.step, hr]
          exact ⟨trivial, fun nb hnb => by cases hnb⟩
        | _ =>
          simp only [World.step, hr]
          refine ⟨trivial, fun nb hnb => .inl ?_⟩
          cases hnb
          rfl

theorem World.Sound.step (h : w.Sound I) (e : Event) : (w.step I e).Sound I ∧ w.file.Rises (w.step I e).file := by
  obtain ⟨r, hr, hfile, hproc⟩ | ⟨-, hfile, hproc⟩ := w.step_cases (I := I) e
  · obtain ⟨nb, -, hgood⟩ := h.refreshed hr
    have hsound := hgood.later.sound
    refine ⟨⟨hfile ▸ hsound.fileMarked, fun n hn => ?_⟩, hfile ▸ hgood.later.file⟩
    obtain rfl | ⟨changes, rfl⟩ := hproc n hn
    · exact hfile ▸ hsound
    · have hsame := r.machine.nb.index_same (I := I) changes
      rw [hfile]
      exact ⟨hsame.2.1 ▸ hsound.behind, hsound.fileMarked, hsame.2.1 ▸ hsound.marked,
        (Notebook.index_kept hsound.kept changes).1⟩
  · exact ⟨⟨hfile ▸ h.marked, fun n hn => hfile ▸ h.process n (hproc n hn)⟩, hfile ▸ .refl _⟩

theorem World.Sound.run (h : w.Sound I) (es : List Event) : (run (World.step I) w es).Sound I :=
  run_inv (P := World.Sound I) (fun _ e hs => (World.Sound.step hs e).1) es h

/-- Over a run, the file only rises. -/
theorem World.Sound.rises (h : w.Sound I) (es : List Event) : w.file.Rises (Transition.run (World.step I) w es).file :=
  run_rel (P := World.Sound I) (R := fun a b : World => a.file.Rises b.file) (fun _ e hs => (World.Sound.step hs e).1) (fun _ => .refl _)
    (fun _ _ _ hab hbc => hab.trans hbc) (fun _ e hs => (World.Sound.step hs e).2) es h

theorem Use.Of.congr {n n' : Notebook} {u : Use} (h : u.Of n) (hring : n.ring = n'.ring) (hm : n.migrated = n'.migrated) :
    u.Of n' :=
  ⟨hring ▸ h.key, fun hn => h.opening (hm.trans hn), h.naming⟩

/-- A tool's keys are of the notebook as `refresh` has left it. -/
theorem World.Sound.uses (h : w.Sound I) {u : Use} (hu : u ∈ w.uses I e) :
    ∃ m named, w.refreshed I e = some ⟨m, named, none⟩ ∧ u.Of m.nb := by
  unfold World.uses at hu
  split at hu
  · rename_i a changes t n us ok hran
    obtain ⟨m, named, changes', hr, hx⟩ := World.ran_eq hran
    obtain ⟨nb, -, hgood⟩ := h.refreshed hr
    obtain ⟨hk, hindex, -⟩ := Notebook.index_kept hgood.later.sound.kept changes'
    have hsame := m.nb.index_same (I := I) changes'
    rw [← hx] at hindex hsame
    refine ⟨m, named, hr, ?_⟩
    obtain hu | hu := List.mem_append.1 hu
    · exact hindex u hu
    · split at hu
      · exact (n.toolUses_of t hu).congr hsame.2.2.1 hsame.2.2.2.1
      · cases hu
  · cases hu

/-- The key that a tool uses has its digest in the file that its `refresh` has left. -/
theorem World.Sound.digest {w : World} (h : w.Sound I) {e : Event} {u : Use} (hu : u ∈ w.uses I e) :
    ∃ m named, w.refreshed I e = some ⟨m, named, none⟩ ∧ w.notebook e = some m.nb.id ∧
      (m.file.known m.nb.id).digests.lookup u.generation = some (I.suite.sha256 u.key) := by
  obtain ⟨m, named, hr, hof⟩ := h.uses hu
  obtain ⟨nb, hnb, hgood⟩ := h.refreshed hr
  exact ⟨m, named, hr, hnb.trans (congrArg some hgood.later.id.symm), hgood.later.sound.kept.ring _ _ hof.key⟩

/-- The marker is in memory once the file is read, and a `refresh` without an error goes on with it. -/
theorem World.Sound.migrated {w : World} (h : w.Sound I) {e : Event} {id : JsString} (hid : w.notebook e = some id)
    (h2 : (w.file.known id).objects = 2) {m : Machine} {named : List Use} (hr : w.refreshed I e = some ⟨m, named, none⟩) :
    m.nb.id = id ∧ m.nb.migrated = true := by
  obtain ⟨nb, hnb, hgood⟩ := h.refreshed hr
  have hnbid : nb.id = id := Option.some_inj.1 (hnb.symm.trans hid)
  have hmid : m.nb.id = id := hgood.later.id.trans hnbid
  refine ⟨hmid, (hgood.marker rfl).2 ?_⟩
  show (m.file.known m.nb.id).objects = 2
  rw [hmid]
  exact hgood.later.file.marker hgood.later.sound.fileMarked h2

end Runs

end KyNotes.Bridge
