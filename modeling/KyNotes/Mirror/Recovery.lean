import KyNotes.Mirror.Fetch

/-!
# Blob recovery is exact

`fetch_exact`: where `Fetch` succeeds every row has its file, and each change of the files, whatever comes of the run, removes
a file that is corrupt or installs one that was verified.
-/

namespace KyNotes.Mirror

open Interaction

variable {sha256 : Bytes → String} {α β : Type} {b : Blob} {s s' s'' : Store}

/-! ## Changes -/

def Change.apply (files : String → Option Bytes) : Change → String → Option Bytes
  | .removed d _ => fun d' => if d' = d then none else files d'
  | .installed d content => fun d' => if d' = d then some content else files d'

variable (sha256) in
/-- A change for a row: it removes what is corrupt, or installs what was verified. -/
def Change.Harmless (b : Blob) : Change → Prop
  | .removed d content => d = b.digest ∧ sha256 content ≠ d
  | .installed d content => d = b.digest ∧ sha256 content = d ∧ (content.length : ℤ) = b.size

/-- A change of what was there. -/
def Change.Of (files : String → Option Bytes) : Change → Prop
  | .removed d content => files d = some content
  | .installed _ _ => True

/-- Changes of the files, one after the other. -/
def Replays : (String → Option Bytes) → List Change → Prop
  | _, [] => True
  | files, c :: cs => c.Of files ∧ Replays (c.apply files) cs

def replay (files : String → Option Bytes) (cs : List Change) : String → Option Bytes := cs.foldl Change.apply files

theorem replays_append {cs cs' : List Change} : ∀ {files : String → Option Bytes},
    Replays files (cs ++ cs') ↔ Replays files cs ∧ Replays (replay files cs) cs' := by
  induction cs with
  | nil => exact fun {files} => ⟨fun h => ⟨trivial, h⟩, And.right⟩
  | cons c cs ih =>
    intro files
    rw [List.cons_append, Replays, ih, Replays, and_assoc]
    rfl

variable (sha256) in
/-- Between the two states the files change as the log says, harmlessly for these rows. -/
def Ran (rows : List Blob) (s s' : Store) : Prop :=
  ∃ cs, s'.changes = s.changes ++ cs ∧ s'.files = replay s.files cs ∧ Replays s.files cs ∧
    ∀ c ∈ cs, ∃ b ∈ rows, c.Harmless sha256 b

theorem Ran.refl (rows : List Blob) (s : Store) : Ran sha256 rows s s :=
  ⟨[], (List.append_nil _).symm, rfl, trivial, fun _ h => absurd h List.not_mem_nil⟩

theorem Ran.trans {rows rows' rows'' : List Blob} (h : Ran sha256 rows s s') (h' : Ran sha256 rows' s' s'')
    (hsub : ∀ b ∈ rows, b ∈ rows'') (hsub' : ∀ b ∈ rows', b ∈ rows'') : Ran sha256 rows'' s s'' := by
  obtain ⟨cs, hlog, hfiles, hreplays, hharmless⟩ := h
  obtain ⟨cs', hlog', hfiles', hreplays', hharmless'⟩ := h'
  refine ⟨cs ++ cs', by rw [hlog', hlog, List.append_assoc], ?_, replays_append.mpr ⟨hreplays, hfiles ▸ hreplays'⟩, fun c hc => ?_⟩
  · rw [hfiles', hfiles, replay, replay, replay, List.foldl_append]
  · rcases List.mem_append.mp hc with hc | hc
    · obtain ⟨b, hb, hh⟩ := hharmless c hc
      exact ⟨b, hsub b hb, hh⟩
    · obtain ⟨b, hb, hh⟩ := hharmless' c hc
      exact ⟨b, hsub' b hb, hh⟩

theorem Ran.one {rows : List Blob} (h : Ran sha256 rows s s') (h' : Ran sha256 rows s' s'') : Ran sha256 rows s s'' :=
  h.trans h' (fun _ => id) fun _ => id

/-- A file of another name stays. -/
theorem replay_frame {rows : List Blob} {d : String} (hd : ∀ b ∈ rows, b.digest ≠ d) : ∀ {files : String → Option Bytes}
    {cs : List Change}, (∀ c ∈ cs, ∃ b ∈ rows, c.Harmless sha256 b) → replay files cs d = files d
  | _, [], _ => rfl
  | files, c :: cs, h => by
    rw [List.forall_mem_cons] at h
    obtain ⟨⟨b, hb, hh⟩, h⟩ := h
    have hrest : replay (c.apply files) cs d = c.apply files d := replay_frame hd h
    refine hrest.trans ?_
    cases c with
    | removed d' content => exact if_neg fun heq => hd b hb (hh.1.symm.trans heq.symm)
    | installed d' content => exact if_neg fun heq => hd b hb (hh.1.symm.trans heq.symm)

/-- A file whose bytes hash to its name stays, or is replaced by one with the same hash. -/
theorem replay_intact {rows : List Blob} {d : String} : ∀ {files : String → Option Bytes} {cs : List Change} {content : Bytes},
    Replays files cs → (∀ c ∈ cs, ∃ b ∈ rows, c.Harmless sha256 b) → files d = some content → sha256 content = d →
    ∃ content', replay files cs d = some content' ∧ sha256 content' = d
  | _, [], content, _, _, hfile, hsha => ⟨content, hfile, hsha⟩
  | files, c :: cs, content, hreplays, h, hfile, hsha => by
    rw [List.forall_mem_cons] at h
    obtain ⟨⟨b, hb, hh⟩, h⟩ := h
    have hnext : ∃ content', c.apply files d = some content' ∧ sha256 content' = d := by
      cases c with
      | removed d' old =>
        refine ⟨content, (if_neg fun heq => ?_).trans hfile, hsha⟩
        subst heq
        have hold : old = content := Option.some.inj (hreplays.1.symm.trans hfile)
        exact hh.2 (hold ▸ hsha)
      | installed d' new =>
        by_cases heq : d = d'
        · exact ⟨new, if_pos heq, hh.2.1.trans heq.symm⟩
        · exact ⟨content, (if_neg heq).trans hfile, hsha⟩
    obtain ⟨content', hfile', hsha'⟩ := hnext
    have hrest := replay_intact hreplays.2 h hfile' hsha'
    exact hrest

variable (sha256) in
/-- The row has a file with its digest and its size. -/
def Good (b : Blob) (s : Store) : Prop :=
  ∃ content, s.files b.digest = some content ∧ sha256 content = b.digest ∧ (content.length : ℤ) = b.size

theorem Good.frame {rows : List Blob} (h : Good sha256 b s) (hran : Ran sha256 rows s s') (hd : ∀ b' ∈ rows, b'.digest ≠ b.digest) :
    Good sha256 b s' := by
  obtain ⟨content, hfile, hgood⟩ := h
  obtain ⟨cs, -, hfiles, -, hharmless⟩ := hran
  exact ⟨content, by rw [hfiles, replay_frame hd hharmless, hfile], hgood⟩

/-! ## Each function -/

/-- Any answer. -/
abbrev Any : ℕ → (r : Req) → Except Err (Val r) → ℕ → Prop := fun _ _ _ _ => True

/-- In every environment a value meets `Q` and a failure `E`. -/
def Safe (x : Run α) (Q : Store → α → Prop) (E : Store → Err → Prop) (s : Store) : Prop :=
  ∀ t, Action.Wp Any (fun _ _ => True) x (fun s _ a => Q s a) (fun s _ e => E s e) s t

section Rules

variable {Q : Store → α → Prop} {R : Store → β → Prop} {E : Store → Err → Prop}

theorem safe_pure {a : α} (h : Q s a) : Safe (pure a : Run α) Q E s := fun _ => Action.wp_pure h

theorem safe_fail {e : Err} (h : E s e) : Safe (Action.fail e : Run α) Q E s := fun _ => Action.wp_fail h

theorem safe_read {f : Store → α} (h : Q s (f s)) : Safe (Action.read f : Run α) Q E s := fun _ => Action.wp_read h

theorem safe_modify {f : Store → Store} {Q : Store → Unit → Prop} (h : Q (f s) ()) : Safe (Action.modify f : Run Unit) Q E s :=
  fun _ => Action.wp_modify h

theorem safe_bind {x : Run α} {f : α → Run β} {F : Store → Err → Prop} (h : Safe x Q F s) (he : ∀ t e, F t e → E t e)
    (hf : ∀ t a, Q t a → Safe (f a) R E t) : Safe (x >>= f) R E s :=
  fun t => Action.wp_bind (Action.wp_mono (h t) (fun t' _ a ha => hf t' a ha _) fun t' _ e h => he t' e h)

theorem safe_mono {x : Run α} {Q' : Store → α → Prop} {E' : Store → Err → Prop} (h : Safe x Q E s) (hq : ∀ t a, Q t a → Q' t a)
    (he : ∀ t e, E t e → E' t e) : Safe x Q' E' s :=
  fun t => Action.wp_mono (h t) (fun t' _ a => hq t' a) fun t' _ e => he t' e

theorem safe_attempt {x : Run α} {Q : Store → Except Err α → Prop}
    (h : Safe x (fun t a => Q t (.ok a)) (fun t e => Q t (.error e)) s) : Safe (Action.attempt x) Q E s :=
  fun t => Action.wp_attempt (h t)

/-- A program goes on with what another returned or failed with. -/
theorem safe_try {x : Run α} {f : Except Err α → Run β} (Q : Store → Except Err α → Prop)
    (h : Safe x (fun t a => Q t (.ok a)) (fun t e => Q t (.error e)) s) (hf : ∀ t out, Q t out → Safe (f out) R E t) :
    Safe (Action.attempt x >>= f) R E s :=
  safe_bind (F := fun _ _ => False) (safe_attempt h) (fun _ _ => False.elim) hf

theorem safe_look {f : Store → α} {g : α → Run β} (h : Safe (g (f s)) R E s) : Safe (Action.read f >>= g) R E s :=
  safe_bind (Q := fun t a => t = s ∧ a = f s) (F := fun _ _ => False) (safe_read ⟨rfl, rfl⟩) (fun _ _ => False.elim)
    fun t a ⟨ht, ha⟩ => by rw [ht, ha]; exact h

/-- A request leaves the files as they are. -/
theorem safe_request (op : Req) : Safe (request op) (fun t _ => t = s) (fun t _ => t = s) s :=
  fun _ => Action.wp_call (fun _ _ => trivial) (fun _ _ _ _ _ => rfl) fun _ _ _ _ _ => rfl

theorem safe_localOp (op : Req) : Safe (localOp op) (fun t _ => t = s) (fun t e => t = s ∧ e = .other) s := by
  refine safe_try (fun t _ => t = s) (safe_request op) fun t out ht => ?_
  subst ht
  cases out with
  | ok v => exact safe_pure rfl
  | error e => exact safe_fail ⟨rfl, rfl⟩

end Rules

/-- A blob that is opened hashes to its name; one that is found corrupt does not. -/
theorem safe_openBlob (d : String) : Safe (openBlob sha256 d)
    (fun t n => t = s ∧ ∃ content, s.files d = some content ∧ sha256 content = d ∧ content.length = n)
    (fun t e => t = s ∧ (e = .corrupt → ∀ content, s.files d = some content → sha256 content ≠ d)) s := by
  unfold openBlob
  split
  · exact safe_fail ⟨rfl, nofun⟩
  · refine safe_bind (safe_localOp _) (fun t e ⟨ht, he⟩ => ⟨ht, fun h => by rw [he] at h; cases h⟩) fun t _ ht => ?_
    subst ht
    refine safe_look ?_
    cases t.files d with
    | none => exact safe_fail ⟨rfl, nofun⟩
    | some content =>
      refine safe_bind (safe_localOp _) (fun u e ⟨hu, he⟩ => ⟨hu, fun h => by rw [he] at h; cases h⟩) fun u _ hu => ?_
      subst hu
      split
      · next hne => exact safe_fail ⟨rfl, fun _ old hold => Option.some.inj hold ▸ hne⟩
      · next heq => exact safe_pure ⟨rfl, content, rfl, not_not.mp heq, rfl⟩

theorem safe_statBlob (d : String) : Safe (statBlob d) (fun t _ => t = s) (fun t _ => t = s) s := by
  unfold statBlob
  split
  · exact safe_pure rfl
  · refine safe_bind (safe_localOp _) (fun t e h => h.1) fun t _ ht => ?_
    subst ht
    exact safe_read rfl

theorem ran_remove (h : ∀ content, s.files b.digest = some content → sha256 content ≠ b.digest) :
    Ran sha256 [b] s (s.remove b.digest) := by
  unfold Store.remove
  split
  · exact Ran.refl _ _
  · next content hfile =>
    refine ⟨[.removed b.digest content], rfl, rfl, ⟨hfile, trivial⟩, List.forall_mem_singleton.mpr ?_⟩
    exact ⟨b, List.mem_cons_self, rfl, h content hfile⟩

theorem safe_deleteBlob (h : ∀ content, s.files b.digest = some content → sha256 content ≠ b.digest) :
    Safe (deleteBlob b.digest) (fun t _ => Ran sha256 [b] s t) (fun t _ => Ran sha256 [b] s t) s := by
  unfold deleteBlob
  split
  · exact safe_fail (Ran.refl _ _)
  · refine safe_bind (safe_localOp _) (fun t e ht => ht.1 ▸ Ran.refl _ _) fun t _ ht => ?_
    subst ht
    exact safe_modify (ran_remove h)

/-- What is installed was verified. -/
theorem safe_install {data : Bytes} (hsha : sha256 data = b.digest) (hsize : (data.length : ℤ) = b.size) :
    Safe (install b.digest data) (fun t _ => Ran sha256 [b] s t ∧ Good sha256 b t) (fun t _ => Ran sha256 [b] s t) s := by
  refine safe_bind (safe_localOp _) (fun t e ht => ht.1 ▸ Ran.refl _ _) fun t _ ht => ?_
  subst ht
  have hran : Ran sha256 [b] t (t.install b.digest data) := by
    refine ⟨[.installed b.digest data], rfl, rfl, ⟨trivial, trivial⟩, List.forall_mem_singleton.mpr ?_⟩
    exact ⟨b, List.mem_cons_self, rfl, hsha, hsize⟩
  have hgood : Good sha256 b (t.install b.digest data) := ⟨data, if_pos rfl, hsha, hsize⟩
  refine safe_bind (Q := fun u _ => u = t.install b.digest data) (F := fun _ _ => False) (safe_modify rfl)
    (fun _ _ => False.elim) fun u _ hu => ?_
  subst hu
  refine safe_try (fun u _ => u = t.install b.digest data) (safe_mono (safe_localOp _) (fun _ _ h => h) fun _ _ h => h.1)
    fun u out hu => ?_
  subst hu
  cases out with
  | error e => exact safe_pure ⟨hran, hgood⟩
  | ok _ =>
    refine safe_bind (safe_localOp _) (fun u e hu => hu.1 ▸ hran) fun u _ hu => ?_
    subst hu
    exact safe_pure ⟨hran, hgood⟩

theorem safe_finalize {data : Bytes} (hsha : sha256 data = b.digest) (hsize : (data.length : ℤ) = b.size) :
    Safe (finalize sha256 data b.digest) (fun t _ => Ran sha256 [b] s t ∧ Good sha256 b t) (fun t _ => Ran sha256 [b] s t) s := by
  unfold finalize
  refine safe_bind (safe_localOp _) (fun t e ht => ht.1 ▸ Ran.refl _ _) fun t _ ht => ?_
  subst ht
  dsimp only
  rw [hsha]
  split
  · exact safe_fail (Ran.refl _ _)
  · refine safe_bind (safe_localOp _) (fun u e hu => hu.1 ▸ Ran.refl _ _) fun u _ hu => ?_
    subst hu
    refine safe_try (fun v _ => v = u) (safe_mono (safe_localOp _) (fun _ _ h => h) fun _ _ h => h.1) fun v out hv => ?_
    subst hv
    cases out with
    | error e => exact safe_install hsha hsize
    | ok _ =>
      refine safe_look ?_
      cases hfile : v.files b.digest with
      | none => exact safe_install hsha hsize
      | some content =>
        dsimp only
        split
        · exact safe_fail (Ran.refl _ _)
        · next hlength =>
          refine safe_try (fun w out => w = v ∧
              ∀ n, out = .ok n → ∃ content, v.files b.digest = some content ∧ sha256 content = b.digest)
            (safe_mono (safe_openBlob _) (fun w n hw => ⟨hw.1, fun _ _ => ?_⟩) fun w e hw => ⟨hw.1, nofun⟩) fun w out hw => ?_
          · obtain ⟨content, hfile, hgood, -⟩ := hw.2
            exact ⟨content, hfile, hgood⟩
          · obtain ⟨rfl, hopen⟩ := hw
            cases out with
            | error e => exact safe_fail (Ran.refl _ _)
            | ok n =>
              obtain ⟨content', hfile', hgood⟩ := hopen n rfl
              obtain rfl := Option.some.inj (hfile.symm.trans hfile')
              exact safe_pure ⟨Ran.refl _ _, content, hfile, hgood, by rw [not_not.mp hlength, hsize]⟩

theorem safe_receive : Safe (receive b) (fun t _ => t = s) (fun t _ => t = s) s := by
  refine safe_bind (safe_request _) (fun _ _ h => h) fun t _ ht => ?_
  subst ht
  refine safe_bind (safe_request _) (fun _ _ h => h) fun t _ ht => ?_
  subst ht
  refine safe_try (fun u _ => u = t) (safe_request _) fun u copied hu => ?_
  subst hu
  refine safe_try (fun v _ => v = u) (safe_request _) fun v closed hv => ?_
  subst hv
  cases copied with
  | error e => exact safe_fail rfl
  | ok bytes =>
    cases closed with
    | error e => exact safe_fail rfl
    | ok _ => exact safe_pure rfl

theorem safe_clear : Safe (clear sha256 b) (fun t _ => Ran sha256 [b] s t) (fun t _ => Ran sha256 [b] s t) s := by
  refine safe_bind (safe_statBlob _) (fun t e ht => ht ▸ Ran.refl _ _) fun t size ht => ?_
  subst ht
  cases size with
  | none => exact safe_pure (Ran.refl _ _)
  | some _ =>
    refine safe_try (fun u out => u = t ∧
        (out = .error .corrupt → ∀ content, t.files b.digest = some content → sha256 content ≠ b.digest))
      (safe_mono (safe_openBlob _) (fun u n hu => ⟨hu.1, nofun⟩) fun u e hu => ⟨hu.1, fun h => hu.2 (Except.error.inj h)⟩)
      fun u out hu => ?_
    obtain ⟨rfl, hcorrupt⟩ := hu
    cases out with
    | ok _ => exact safe_pure (Ran.refl _ _)
    | error e =>
      dsimp only
      split
      · next he => exact safe_deleteBlob (hcorrupt (he ▸ rfl))
      · exact safe_fail (Ran.refl _ _)

/-- A fetch that succeeds leaves the row its file. -/
theorem safe_fetch : Safe (fetch sha256 b) (fun t _ => Ran sha256 [b] s t ∧ Good sha256 b t) (fun t _ => Ran sha256 [b] s t) s := by
  refine safe_bind safe_receive (fun t e ht => ht ▸ Ran.refl _ _) fun t data ht => ?_
  subst ht
  split
  · exact safe_fail (Ran.refl _ _)
  · next hverified =>
    obtain ⟨hsize, hsha⟩ := not_or.mp hverified
    refine safe_bind safe_clear (fun _ _ h => h) fun u _ hu => ?_
    refine safe_bind (safe_finalize (not_not.mp hsha) (not_not.mp hsize)) (fun v e hv => hu.one hv) fun v _ hv => ?_
    exact safe_pure ⟨hu.one hv.1, hv.2⟩

/-! ## The rows -/

/-- A row is counted as failed unless it has its file. -/
def Counted (sha256 : Bytes → String) (b : Blob) (stats : Stats) (t : Store) (stats' : Stats) : Prop :=
  stats'.failed = stats.failed ∧ Good sha256 b t ∨ stats.failed < stats'.failed

theorem safe_repair (stats : Stats) : Safe (repair sha256 b stats)
    (fun t stats' => Ran sha256 [b] s t ∧ Counted sha256 b stats t stats') (fun _ _ => False) s := by
  refine safe_try (fun t out => Ran sha256 [b] s t ∧ ∀ a, out = .ok a → Good sha256 b t)
    (safe_mono safe_fetch (fun t _ ht => ⟨ht.1, fun _ _ => ht.2⟩) fun t e ht => ⟨ht, nofun⟩) fun t out ht => ?_
  cases out with
  | error e => exact safe_pure ⟨ht.1, .inr (Nat.lt_succ_self _)⟩
  | ok a => exact safe_pure ⟨ht.1, .inl ⟨rfl, ht.2 a rfl⟩⟩

theorem safe_fetchRow (stats : Stats) : Safe (fetchRow sha256 b stats)
    (fun t stats' => Ran sha256 [b] s t ∧ Counted sha256 b stats t stats') (fun _ _ => False) s := by
  unfold fetchRow
  split
  · exact safe_pure ⟨Ran.refl _ _, .inr (Nat.lt_succ_self _)⟩
  · refine safe_try (fun t out => t = s ∧ ∀ n, out = .ok n →
        ∃ content, s.files b.digest = some content ∧ sha256 content = b.digest ∧ content.length = n)
      (safe_mono (safe_openBlob _) (fun t n ht => ⟨ht.1, fun n' h => Except.ok.inj h ▸ ht.2⟩) fun t e ht => ⟨ht.1, nofun⟩)
      fun t out ht => ?_
    obtain ⟨rfl, hopen⟩ := ht
    cases out with
    | error e =>
      dsimp only
      split
      · exact safe_pure ⟨Ran.refl _ _, .inr (Nat.lt_succ_self _)⟩
      · exact safe_repair stats
    | ok size =>
      dsimp only
      split
      · next hsize =>
        obtain ⟨content, hfile, hsha, hlength⟩ := hopen size rfl
        exact safe_pure ⟨Ran.refl _ _, .inl ⟨rfl, content, hfile, hsha, by rw [hlength, hsize]⟩⟩
      · exact safe_repair stats

/-- Without an error, and with no more failures than before, every row has its file. -/
theorem safe_fetchRows : ∀ {s : Store} (rows : List Blob) (stats : Stats), (rows.map Blob.digest).Nodup →
    Safe (fetchRows sha256 rows stats) (fun t out => Ran sha256 rows s t ∧
      (out.2 = none → stats.failed = 0 ∧ ∀ b ∈ rows, Good sha256 b t)) (fun _ _ => False) s
  | s, [], stats, _ => by
    refine safe_pure ⟨Ran.refl _ _, fun h => ⟨?_, fun _ hb => absurd hb List.not_mem_nil⟩⟩
    unfold Stats.err at h
    split at h
    · cases h
    · next hzero => exact Nat.eq_zero_of_not_pos (not_or.mp hzero).1
  | s, b :: rows, stats, hkey => by
    rw [List.map_cons, List.nodup_cons] at hkey
    refine safe_try (fun t _ => t = s) (safe_request _) fun t out ht => ?_
    subst ht
    cases out with
    | error e => exact safe_pure ⟨Ran.refl _ _, nofun⟩
    | ok _ =>
      refine safe_bind (safe_fetchRow stats) (fun _ _ => False.elim) fun u stats' ⟨hran, hcounted⟩ => ?_
      refine safe_mono (safe_fetchRows rows stats' hkey.2) (fun v out ⟨hrest, hout⟩ => ⟨?_, fun hnone => ?_⟩) fun _ _ => False.elim
      · exact hran.trans hrest (fun b' hb' => List.mem_singleton.mp hb' ▸ List.mem_cons_self) fun _ => List.mem_cons_of_mem _
      · obtain ⟨hzero, hgood⟩ := hout hnone
        rcases hcounted with ⟨hsame, hb⟩ | hmore
        · refine ⟨hsame ▸ hzero, List.forall_mem_cons.mpr ⟨?_, hgood⟩⟩
          exact hb.frame hrest fun b' hb' heq => hkey.1 (heq ▸ List.mem_map_of_mem hb')
        · exact absurd (hzero ▸ hmore) (Nat.not_lt_zero _)

theorem safe_Fetch (inventory : Inventory) : Safe (Fetch sha256 inventory.rows) (fun t out => Ran sha256 inventory.rows s t ∧
    (out.2 = none → ∀ b ∈ inventory.rows, Good sha256 b t)) (fun _ _ => False) s := by
  refine safe_try (fun t _ => t = s) (safe_request _) fun t out ht => ?_
  subst ht
  cases out with
  | error e => exact safe_pure ⟨Ran.refl _ _, nofun⟩
  | ok _ =>
    exact safe_mono (safe_fetchRows inventory.rows {} inventory.key) (fun t out h => ⟨h.1, fun hnone => (h.2 hnone).2⟩)
      fun _ _ => False.elim

/-- In every run of `Fetch` the files change one after the other, each time by the removal of a file whose bytes do not hash to
its name or by the installation of one whose bytes hash to it and have the size of a row; so whenever it is looked at, a file
whose bytes hash to its name is as it was, or SHA-256 has a collision there. Where `Fetch` returns without an error, every row
has a file whose bytes hash to its digest and have its size. -/
theorem fetch_exact (sha256 : Bytes → String) (inventory : Inventory) (s s' : Store) (t t' : ℕ) (es : List (ℕ × Req))
    (out : Except Err (Stats × Option Err)) (hrun : Runs Any t (Fetch sha256 inventory.rows s) es t' (s', out)) :
    ∃ stats err, out = .ok (stats, err) ∧
      (err = none → ∀ b ∈ inventory.rows, ∃ content, s'.files b.digest = some content ∧ sha256 content = b.digest ∧
        (content.length : ℤ) = b.size) ∧
      ∃ changes, s'.changes = s.changes ++ changes ∧ s'.files = replay s.files changes ∧ Replays s.files changes ∧
        (∀ c ∈ changes, ∃ b ∈ inventory.rows, c.Harmless sha256 b) ∧
        ∀ seen, seen <+: changes → ∀ d content, s.files d = some content → sha256 content = d →
          replay s.files seen d = some content ∨
            ∃ content', content' ≠ content ∧ sha256 content' = sha256 content ∧ replay s.files seen d = some content' := by
  have hFetch : Safe (Fetch sha256 inventory.rows) (fun t out => Ran sha256 inventory.rows s t ∧
      (out.2 = none → ∀ b ∈ inventory.rows, Good sha256 b t)) (fun _ _ => False) s := safe_Fetch inventory
  have hsafe := (hFetch t).runs hrun
  cases out with
  | error e => exact hsafe.elim
  | ok out =>
    obtain ⟨⟨changes, hlog, hfiles, hreplays, hharmless⟩, hgood⟩ := hsafe
    refine ⟨out.1, out.2, rfl, hgood, changes, hlog, hfiles, hreplays, hharmless, fun seen hseen d content hfile hsha => ?_⟩
    obtain ⟨rest, rfl⟩ := hseen
    obtain ⟨content', hfile', hsha'⟩ :=
      replay_intact (replays_append.mp hreplays).1 (fun c hc => hharmless c (List.mem_append_left _ hc)) hfile hsha
    by_cases heq : content' = content
    · exact .inl (heq ▸ hfile')
    · exact .inr ⟨content', heq, hsha'.trans hsha.symm, hfile'⟩

/-! ## A truncated file -/

theorem follows_any (f : Oracle Req fun r => Except Err (Val r)) : ∀ (t : ℕ) (p : Prog Req (fun r => Except Err (Val r)) α),
    Follows Any f t p
  | _, .ret _ => trivial
  | t, .ask r k => ⟨trivial, follows_any f _ (k (f t r).1)⟩

theorem runs_any {σ : Type} (f : Oracle Req fun r => Except Err (Val r)) (t : ℕ) (p : Prog Req (fun r => Except Err (Val r)) (σ × α)) :
    Runs Any t p (eval f t p).1 (eval f t p).2.1 ((eval f t p).2.2.1, (eval f t p).2.2.2) :=
  (follows_any f t p).runs

def sampleDigest : String := "8f434346648f6b96df89dda901c5176b10a6d83961dd3c1ac88b59b2dc327aa4"

/-- The SHA-256 of two bytes and of none. -/
def sampleSha256 (content : Bytes) : String :=
  if content = [104, 105] then sampleDigest else "e3b0c44298fc1c149afbf4c8996fb92427ae41e4649b934ca495991b7852b855"

def sampleInventory : Inventory := ⟨[⟨sampleDigest, 2⟩], List.nodup_singleton _⟩

/-- The file of the row is cut short. -/
def sampleStore : Store := ⟨fun d => if d = sampleDigest then some [] else none, []⟩

/-- Every operation succeeds, and the target has the two bytes. -/
def sampleTarget : Oracle Req fun r => Except Err (Val r) := fun t r =>
  (match r with
    | .copy _ => .ok [104, 105]
    | .list | .context | .openFile _ | .readFile _ | .stat _ | .remove _ | .get _ | .newTemp | .close | .sync | .mkdir _ | .rename _
    | .openDir _ | .syncDir _ => .ok (), t)

def sampleRun := eval sampleTarget 0 (Fetch sampleSha256 sampleInventory.rows sampleStore)

/-- The file is removed, and the one of the target is installed. -/
theorem fetch_exact_truncated : ∃ content, sampleRun.2.2.1.files sampleDigest = some content ∧
    sampleSha256 content = sampleDigest ∧ (content.length : ℤ) = 2 := by
  have hrepaired : ∀ es t' s' out, Runs Any 0 (Fetch sampleSha256 sampleInventory.rows sampleStore) es t' (s', out) →
      out = .ok ({ fetched := 1 }, none) → ∃ content, s'.files sampleDigest = some content ∧
        sampleSha256 content = sampleDigest ∧ (content.length : ℤ) = 2 := by
    rintro es t' s' _ hruns rfl
    obtain ⟨stats, err, hout, hgood, -⟩ := fetch_exact sampleSha256 sampleInventory sampleStore s' 0 t' es _ hruns
    obtain ⟨rfl, rfl⟩ := Prod.mk.inj (Except.ok.inj hout)
    exact hgood rfl ⟨sampleDigest, 2⟩ List.mem_cons_self
  have hruns : Runs Any 0 (Fetch sampleSha256 sampleInventory.rows sampleStore) sampleRun.1 sampleRun.2.1
      (sampleRun.2.2.1, sampleRun.2.2.2) := by
    unfold sampleRun
    exact runs_any _ _ _
  have hrun : sampleRun.2.2.2 = .ok ({ fetched := 1 }, none) := by decide +kernel
  exact hrepaired _ _ _ _ hruns hrun

end KyNotes.Mirror
