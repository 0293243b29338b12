import KyNotes.Setup.ImportClient

/-!
# A client import is all of one transfer

`Inv` is what holds while calls run: every publication is of a file that was absent, by a call that imports, and carries
the value of a frame that the receipt on disk pins. `importClient_safe` is that a call keeps it, whatever the others do
between its operations; `importClient_alone` is what a call does that no other interrupts.
-/

namespace KyNotes.Setup

open EventLoop Cleanup.Stored

/-! ## The order of disks -/

/-- A file stays as it is, and the log grows. -/
instance : Preorder Disk where
  le d d' := (∀ p v, d.files p = some v → d'.files p = some v) ∧ d.log <+: d'.log
  le_refl d := ⟨fun _ _ h => h, List.prefix_refl _⟩
  le_trans _ _ _ h h' := ⟨fun p v hp => h'.1 p v (h.1 p v hp), h.2.trans h'.2⟩

theorem le_record (d : Disk) (e : Event) : d ≤ d.record e := ⟨fun _ _ h => h, List.prefix_append _ _⟩

theorem publish_some {d : Disk} {path : String} {v : Bytes} (h : d.files path = some v) (c : Call) (value : Bytes) :
    d.publish c path value = d := by
  simp only [Disk.publish, h]

theorem publish_none {d : Disk} {path : String} (h : d.files path = none) (c : Call) (value : Bytes) :
    d.publish c path value =
      ⟨fun p => if p = path then some value else d.files p, d.log ++ [.published c path value]⟩ := by
  simp only [Disk.publish, h]

theorem le_publish (d : Disk) (c : Call) (path : String) (value : Bytes) : d ≤ d.publish c path value := by
  cases h : d.files path with
  | some v => exact (publish_some h c value).symm ▸ le_refl d
  | none =>
    rw [publish_none h]
    refine ⟨fun p v hp => ?_, List.prefix_append _ _⟩
    have hne : p ≠ path := fun heq => by rw [heq, h] at hp; cases hp
    exact (if_neg hne).trans hp

/-! ## The invariant -/

namespace Prepared

variable (P : Prepared)

/-- The frame of a call and its credential files, where the call passes all that is checked without the files. -/
def Accepts (c : Call) (frame : ClientCredentials) (files : List (String × Bytes)) : Prop :=
  P.readFrame c.raw = .ok frame ∧ P.matchFrame frame = .ok files

/-- The receipt and every credential file are there. -/
def InPlace (d : Disk) (frame : ClientCredentials) (files : List (String × Bytes)) : Prop :=
  d.files P.receiptFile = some (P.receipt frame) ∧ ∀ f ∈ files, d.files f.1 = some f.2

/-- A publication: by a call that imports, the receipt of its frame or a credential that the receipt on disk pins. -/
structure Publication (d : Disk) (c : Call) (path : String) (value : Bytes) : Prop where
  imports : c.check = false
  there : d.files path = some value
  pinned : ∃ frame files, P.Accepts c frame files ∧ d.files P.receiptFile = some (P.receipt frame) ∧
    ((path, value) = (P.receiptFile, P.receipt frame) ∨ (path, value) ∈ files)

structure Inv (start : String → Option Bytes) (d : Disk) : Prop where
  kept : ∀ p v, start p = some v → d.files p = some v
  logged : ∀ p v, d.files p = some v → start p = some v ∨ ∃ c, .published c p v ∈ d.log
  published : ∀ c p v, .published c p v ∈ d.log → start p = none ∧ P.Publication d c p v
  answered : ∀ c a, .answered c (.ok a) ∈ d.log →
    ∃ frame files, P.Accepts c frame files ∧ P.InPlace d frame files ∧ (c.check = true → a = "present")

variable {P} {start : String → Option Bytes} {d d' : Disk} {c : Call}

theorem InPlace.mono {frame : ClientCredentials} {files : List (String × Bytes)} (h : P.InPlace d frame files) (hle : d ≤ d') :
    P.InPlace d' frame files :=
  ⟨hle.1 _ _ h.1, fun f hf => hle.1 _ _ (h.2 f hf)⟩

theorem Publication.mono {path : String} {value : Bytes} (h : P.Publication d c path value) (hle : d ≤ d') :
    P.Publication d' c path value := by
  obtain ⟨frame, files, ha, hr, hv⟩ := h.pinned
  exact ⟨h.imports, hle.1 _ _ h.there, frame, files, ha, hle.1 _ _ hr, hv⟩

/-- An entry that is no publication, and that answers only where all is in place. -/
theorem Inv.record {e : Event} (h : P.Inv start d) (hp : ∀ c p v, e ≠ .published c p v)
    (ha : ∀ c a, e = .answered c (.ok a) →
      ∃ frame files, P.Accepts c frame files ∧ P.InPlace d frame files ∧ (c.check = true → a = "present")) :
    P.Inv start (d.record e) := by
  have hmem : ∀ {e'}, e' ∈ (d.record e).log → e' ∈ d.log ∨ e' = e := fun he =>
    (List.mem_append.mp he).imp_right List.mem_singleton.mp
  refine ⟨h.kept, fun p v hv => ?_, fun c p v he => ?_, fun c a he => ?_⟩
  · exact (h.logged p v hv).imp_right fun ⟨c, hc⟩ => ⟨c, List.mem_append_left _ hc⟩
  · rcases hmem he with he | he
    · obtain ⟨hs, hpub⟩ := h.published c p v he
      exact ⟨hs, hpub.mono (le_record d e)⟩
    · exact absurd he.symm (hp c p v)
  · rcases hmem he with he | he
    · exact h.answered c a he
    · exact ha c a he.symm

theorem Inv.publish {path : String} {value : Bytes} (h : P.Inv start d)
    (hpub : d.files path = none → P.Publication (d.publish c path value) c path value) :
    P.Inv start (d.publish c path value) := by
  have hle := le_publish d c path value
  cases hf : d.files path with
  | some v => exact (publish_some hf c value).symm ▸ h
  | none =>
    have hnew := hpub hf
    have hlog : (d.publish c path value).log = d.log ++ [.published c path value] := by rw [publish_none hf]
    have hmem : ∀ {e'}, e' ∈ (d.publish c path value).log → e' ∈ d.log ∨ e' = .published c path value := by
      intro e' he
      rw [hlog] at he
      exact (List.mem_append.mp he).imp_right List.mem_singleton.mp
    refine ⟨fun p v hv => hle.1 p v (h.kept p v hv), fun p v hv => ?_, fun c' p v he => ?_, fun c' a he => ?_⟩
    · by_cases hp : p = path
      · subst hp
        have hv' := hnew.there
        rw [hv] at hv'
        cases hv'
        exact .inr ⟨c, hlog ▸ List.mem_append_right _ List.mem_cons_self⟩
      · have hold : d.files p = some v := by
          rw [publish_none hf] at hv
          exact (if_neg hp).symm.trans hv
        exact (h.logged p v hold).imp_right fun ⟨c', hc'⟩ => ⟨c', hlog ▸ List.mem_append_left _ hc'⟩
    · rcases hmem he with he | he
      · obtain ⟨hs, hp⟩ := h.published c' p v he
        exact ⟨hs, hp.mono hle⟩
      · cases he
        refine ⟨?_, hnew⟩
        cases hs : start path with
        | none => rfl
        | some v => exact absurd (h.kept path v hs) (by rw [hf]; exact fun h => nomatch h)
    · rcases hmem he with he | he
      · obtain ⟨frame, files, ha, hin, hc⟩ := h.answered c' a he
        exact ⟨frame, files, ha, hin.mono hle, hc⟩
      · cases he

/-! ## Each operation -/

section Safe

variable {α β : Type}

/-- From `d` on the thread keeps the invariant, and what it returns meets `Q`. -/
def Safe (P : Prepared) (start : String → Option Bytes) (x : Io α) (Q : Disk → α → Prop) (d : Disk) : Prop :=
  Async.Wp (P.Inv start) x Q (fun _ _ => True) d

theorem safe_bind {x : Io α} {f : α → Io β} {Q : Disk → α → Prop} {R : Disk → β → Prop} (hi : P.Inv start d)
    (h : P.Safe start x Q d) (hf : ∀ t a, P.Inv start t → d ≤ t → Q t a → P.Safe start (f a) R t) :
    P.Safe start (x >>= f) R d :=
  Async.wp_seq hi h hf

theorem safe_pure {a : α} {Q : Disk → α → Prop} (h : Q d a) : P.Safe start (pure a : Io α) Q d := Async.wp_pure fun _ => h

theorem safe_fail {e : String} {Q : Disk → α → Prop} : P.Safe start (Async.fail e : Io α) Q d := Async.wp_fail fun _ => trivial

theorem safe_mono {x : Io α} {Q Q' : Disk → α → Prop} (h : P.Safe start x Q d) (hq : ∀ t a, P.Inv start t → d ≤ t → Q t a → Q' t a) :
    P.Safe start x Q' d :=
  Async.wp_mono h hq fun _ _ _ _ _ => trivial

theorem safe_read {g : Disk → α} {Q : Disk → α → Prop} (h : Q d (g d)) : P.Safe start (Async.read g : Io α) Q d :=
  Async.wp_read fun _ => h

/-- What is known of a success. -/
theorem safe_attempt {x : Io α} {Q : Disk → α → Prop} (hi : P.Inv start d) (h : P.Safe start x Q d) :
    P.Safe start (Async.attempt x) (fun t out => ∀ a, out = .ok a → Q t a) d := by
  refine Async.wp_attempt hi (Async.wp_mono h (fun t a _ _ hq a' heq => ?_) fun t e _ _ _ a' heq => nomatch heq)
  cases heq
  exact hq

theorem safe_ofExcept {out : Except String α} {Q : Disk → α → Prop} (h : ∀ a, out = .ok a → Q d a) :
    P.Safe start (Async.ofExcept out : Io α) Q d :=
  Async.wp_ofExcept h fun _ _ => trivial

theorem safe_failed (c : Call) : P.Safe start (record (.failed c)) (fun _ _ => True) d :=
  Async.wp_update fun h => ⟨h.record (fun _ _ _ => nofun) fun _ _ => nofun, le_record _ _, trivial⟩

variable (c)

theorem safe_io (hi : P.Inv start d) (op : Op) : P.Safe start (io c op) (fun _ _ => True) d := by
  refine safe_bind hi (safe_attempt (Q := fun _ _ => True) hi (Async.wp_call (fun _ _ _ _ => trivial) fun _ _ _ _ => trivial))
    fun t out ht _ _ => ?_
  cases out with
  | ok v => exact safe_pure trivial
  | error e => exact safe_bind ht (safe_failed c) fun _ _ _ _ _ => safe_fail

theorem safe_lstatMissing (hi : P.Inv start d) (path : String) : P.Safe start (lstatMissing c path) (fun _ _ => True) d := by
  refine safe_bind hi (safe_attempt hi (safe_io c hi _)) fun t out ht _ _ => ?_
  cases out with
  | ok v => exact safe_read trivial
  | error e => exact safe_pure trivial

theorem safe_readCapped (hi : P.Inv start d) (path : String) :
    P.Safe start (readCapped c path) (fun t raw => t.files path = some raw) d := by
  refine safe_bind hi (safe_io c hi _) fun t _ ht _ _ => ?_
  refine safe_bind ht (safe_read (Q := fun t content => t.files path = content) rfl) fun t content ht _ hcontent => ?_
  cases content with
  | none => exact safe_fail
  | some raw =>
    dsimp only
    split
    · exact safe_fail
    · exact safe_pure hcontent

/-- What is found present is there, with this content. -/
theorem safe_importFilePresent (hi : P.Inv start d) (file : String) (expected : Bytes) :
    P.Safe start (importFilePresent c file expected) (fun t present => present = true → t.files file = some expected) d := by
  refine safe_bind hi (safe_lstatMissing c hi file) fun t missing ht _ _ => ?_
  split
  · exact safe_pure nofun
  · refine safe_bind ht (safe_attempt ht (safe_readCapped c ht file)) fun t out ht _ hout => ?_
    cases out with
    | error e => exact safe_fail
    | ok retained =>
      dsimp only
      split
      · next heq => exact safe_pure fun _ => heq ▸ hout retained rfl
      · exact safe_fail

theorem safe_keyfileStore (hi : P.Inv start d) {file : String} {value : Bytes}
    (hpub : ∀ t, d ≤ t → t.files file = none → P.Publication (t.publish c file value) c file value) :
    P.Safe start (keyfileStore c file value) (fun t out => out = .stored → t.files file = some value) d := by
  refine safe_bind hi (safe_attempt hi (safe_io c hi _)) fun t out ht hle _ => ?_
  cases out with
  | error e => exact safe_pure nofun
  | ok whole =>
    have hstore : P.Safe start (Async.exchange (fun d => d.publish c file value) fun d => (d.files file).isSome)
        (fun t present => present = false → t.files file = some value) t := by
      refine Async.wp_exchange fun ht => ⟨ht.publish (hpub t hle), le_publish _ _ _ _, fun hnone => ?_⟩
      have hnone := Option.isSome_eq_false_iff.mp hnone
      exact (hpub t hle (Option.isNone_iff_eq_none.mp hnone)).there
    refine safe_bind ht hstore fun t present ht _ hpresent => ?_
    split
    · exact safe_pure nofun
    · next hfalse =>
      split
      · exact safe_pure fun _ => hpresent (Bool.eq_false_iff.mpr hfalse)
      · exact safe_bind ht (safe_failed c) fun _ _ _ _ _ => safe_pure nofun

/-- A publication that does not fail is retained. -/
theorem safe_publishImportFile (hi : P.Inv start d) {file : String} {value : Bytes}
    (hpub : ∀ t, d ≤ t → t.files file = none → P.Publication (t.publish c file value) c file value) :
    P.Safe start (publishImportFile c file value) (fun t _ => t.files file = some value) d := by
  refine safe_bind hi (safe_keyfileStore c hi hpub) fun t out ht _ hout => ?_
  cases out with
  | stored => exact safe_pure (hout rfl)
  | failed => exact safe_fail
  | «exists» =>
    refine safe_bind ht (safe_attempt ht (safe_importFilePresent c ht file value)) fun t out ht _ hout => ?_
    split
    · exact safe_pure (hout true rfl rfl)
    · exact safe_fail

theorem safe_missingFiles (retained : Bool) : ∀ {d : Disk} (files : List (String × Bytes)), P.Inv start d →
    P.Safe start (missingFiles c retained files)
      (fun t missing => (∀ f ∈ missing, f ∈ files) ∧ ∀ f ∈ files, f ∈ missing ∨ t.files f.1 = some f.2) d
  | _, [], _ => safe_pure ⟨fun _ => id, fun _ h => absurd h List.not_mem_nil⟩
  | _, f :: files, hi => by
    refine safe_bind hi (safe_attempt hi (safe_importFilePresent c hi f.1 f.2)) fun t out ht _ hout => ?_
    cases out with
    | error e => exact safe_fail
    | ok present =>
      dsimp only
      split
      · exact safe_fail
      · refine safe_bind ht (safe_missingFiles retained files ht) fun u missing _ hle hmissing => safe_pure ?_
        cases present with
        | true =>
          have hthere : u.files f.1 = some f.2 := hle.1 _ _ (hout true rfl rfl)
          exact ⟨fun g hg => List.mem_cons_of_mem _ (hmissing.1 g hg), List.forall_mem_cons.mpr ⟨.inr hthere, hmissing.2⟩⟩
        | false =>
          refine ⟨fun g hg => ?_, List.forall_mem_cons.mpr ⟨.inl List.mem_cons_self, fun g hg => ?_⟩⟩
          · rcases List.mem_cons.mp hg with rfl | hg
            · exact List.mem_cons_self
            · exact List.mem_cons_of_mem _ (hmissing.1 g hg)
          · exact (hmissing.2 g hg).imp_left (List.mem_cons_of_mem _)

/-- The credentials of a frame whose receipt is on disk may be published. -/
theorem Accepts.publication {frame : ClientCredentials} {files : List (String × Bytes)} (ha : P.Accepts c frame files)
    (hc : c.check = false) {t : Disk} {file : String} {value : Bytes} (hnone : t.files file = none)
    (hr : (t.publish c file value).files P.receiptFile = some (P.receipt frame))
    (hv : (file, value) = (P.receiptFile, P.receipt frame) ∨ (file, value) ∈ files) :
    P.Publication (t.publish c file value) c file value := by
  refine ⟨hc, ?_, frame, files, ha, hr, hv⟩
  rw [publish_none hnone]
  exact if_pos rfl

theorem safe_publishFiles {frame : ClientCredentials} {files : List (String × Bytes)} (ha : P.Accepts c frame files)
    (hc : c.check = false) : ∀ {d : Disk} (missing : List (String × Bytes)), (∀ f ∈ missing, f ∈ files) → P.Inv start d →
      d.files P.receiptFile = some (P.receipt frame) →
      P.Safe start (publishFiles c missing) (fun t _ => ∀ f ∈ missing, t.files f.1 = some f.2) d
  | _, [], _, _, _ => safe_pure fun _ h => absurd h List.not_mem_nil
  | d, f :: missing, hsub, hi, hr => by
    rw [List.forall_mem_cons] at hsub
    have hpub : ∀ t, d ≤ t → t.files f.1 = none → P.Publication (t.publish c f.1 f.2) c f.1 f.2 := fun t hle hnone =>
      ha.publication c hc hnone ((le_publish t c f.1 f.2).1 _ _ (hle.1 _ _ hr)) (.inr hsub.1)
    refine safe_bind hi (safe_publishImportFile c hi hpub) fun t _ ht hle hf => ?_
    refine safe_mono (safe_publishFiles ha hc missing hsub.2 ht (hle.1 _ _ hr)) fun u _ _ hle' hu => ?_
    exact List.forall_mem_cons.mpr ⟨hle'.1 _ _ hf, hu⟩

theorem safe_importFiles {frame : ClientCredentials} {files : List (String × Bytes)} (ha : P.Accepts c frame files)
    (hi : P.Inv start d) : P.Safe start (importFiles c P frame files)
      (fun t a => P.InPlace t frame files ∧ (c.check = true → a = "present")) d := by
  refine safe_bind hi (safe_importFilePresent c hi _ _) fun t retained ht _ hretained => ?_
  refine safe_bind ht (safe_missingFiles c retained files ht) fun u missing hu hle hmissing => ?_
  have hretained : retained = true → u.files P.receiptFile = some (P.receipt frame) := fun h => hle.1 _ _ (hretained h)
  split
  · split
    · exact safe_fail
    · next hall =>
      obtain ⟨hr, hnil⟩ : retained = true ∧ missing = [] := by simpa using hall
      refine safe_pure ⟨⟨hretained hr, fun f hf => ?_⟩, fun _ => rfl⟩
      exact (hmissing.2 f hf).resolve_left (hnil ▸ List.not_mem_nil)
  · next hcheck =>
    have hc : c.check = false := Bool.eq_false_iff.mpr hcheck
    have hreceipt : P.Safe start (unlessDone retained (publishImportFile c P.receiptFile (P.receipt frame)))
        (fun t _ => t.files P.receiptFile = some (P.receipt frame)) u := by
      unfold unlessDone
      split
      · next hr => exact safe_pure (hretained hr)
      · refine safe_publishImportFile c hu fun t _ hnone => ha.publication c hc hnone ?_ (.inl rfl)
        rw [publish_none hnone]
        exact if_pos rfl
    refine safe_bind hu hreceipt fun w _ hw hle' hr => ?_
    refine safe_bind hw (safe_publishFiles c ha hc missing hmissing.1 hw hr) fun x _ _ hle'' hall => ?_
    refine safe_pure ⟨⟨hle''.1 _ _ hr, fun f hf => ?_⟩, fun h => absurd h hcheck⟩
    rcases hmissing.2 f hf with hm | hthere
    · exact hall f hm
    · exact hle''.1 _ _ (hle'.1 _ _ hthere)

/-- A call that does not fail has a frame that passes, with all of it in place. -/
theorem safe_importClient (hi : P.Inv start d) : P.Safe start (importClient c P) (fun t a =>
    ∃ frame files, P.Accepts c frame files ∧ P.InPlace t frame files ∧ (c.check = true → a = "present")) d := by
  refine safe_bind hi (safe_ofExcept (Q := fun _ frame => P.readFrame c.raw = .ok frame) fun _ h => h)
    fun t frame ht _ hframe => ?_
  refine safe_bind ht (safe_attempt ht (safe_io c ht .readBundle)) fun t out ht _ _ => ?_
  cases out with
  | error e => exact safe_fail
  | ok _ =>
    refine safe_bind ht (safe_io c ht .stage) fun t _ ht _ _ => ?_
    refine safe_bind ht (safe_ofExcept (Q := fun _ files => P.matchFrame frame = .ok files) fun _ h => h)
      fun t files ht _ hfiles => ?_
    exact safe_mono (safe_importFiles c ⟨hframe, hfiles⟩ ht) fun _ _ _ _ h => ⟨frame, files, ⟨hframe, hfiles⟩, h⟩

theorem safe_call (hi : P.Inv start d) : P.Safe start (P.call c) (fun _ _ => True) d := by
  refine safe_bind hi (safe_attempt hi (safe_importClient c hi)) fun t out ht _ hout => ?_
  refine Async.wp_update fun h => ⟨h.record (fun _ _ _ => nofun) fun c' a heq => ?_, le_record _ _, trivial⟩
  cases heq
  exact hout a rfl

end Safe

/-- The invariant holds in every run. -/
theorem run_inv (P : Prepared) (start : String → Option Bytes) (inputs : List (Input Call Op fun op => Except String op.Val)) :
    P.Inv start (P.run start inputs).state := by
  have hstart : Loop.Safe (P.Inv start) (⟨⟨start, []⟩, []⟩ : World) := by
    refine ⟨⟨fun _ _ h => h, fun _ _ h => .inl h, ?_, ?_⟩, fun _ h => absurd h List.not_mem_nil⟩
    · exact fun _ _ _ h => absurd h List.not_mem_nil
    · exact fun _ _ h => absurd h List.not_mem_nil
  exact (Loop.run_safe (fun c d hd => Async.wp_detach hd (safe_call c hd)) hstart inputs).inv

end Prepared

end KyNotes.Setup
