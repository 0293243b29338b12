import KyNotes.Bridge.Openers
import KyNotes.Bridge.Site

/-!
# The bridge's alarms

No floor is undercut by an honest answer. The name is another matter: it is sealed by a request of its own, and `refresh`
tries it with the key of the listed generation only. Once the marker is stored, a name that this key does not open, or that
has no marker, is taken for a rollback (`alarm_iff`); so it is after each rotation, until a browser has sealed the name again.
-/

namespace KyNotes.Bridge

open Relational Check Transition
open Content.Notecrypto (openContainerName openSealed unmarshalMeta)
open Web (JsString)

/-! ## Reading a name -/

section Names

variable {A : Aead UInt8} {json : Bytes → Option Json} {key key' : Bytes} {id : JsString} {n : Name} {sealed : Bytes}

theorem Name.unmarshal (n : Name) :
    unmarshalMeta n.value = some ⟨some n.text, if n.marked then some (.num 2) else none⟩ := by
  have hname : ∀ (m : Content.Notecrypto.Meta), Content.Notecrypto.setMember m "name" (.str n.text) =
      some { m with name := some n.text } := fun _ => rfl
  have hobjects : ∀ (m : Content.Notecrypto.Meta), Content.Notecrypto.setMember m "objects" (.num 2) =
      some { m with objects := some (.num 2) } := fun _ => rfl
  have hdepth : n.value.depth ≤ Content.maxNestingDepth := by
    unfold Name.value
    split <;> simp [Json.depth, Json.depthOfMembers, Content.maxNestingDepth]
  unfold unmarshalMeta
  unfold Name.value at hdepth ⊢
  dsimp only
  rw [if_pos hdepth, List.foldlM_cons, hname]
  split
  · simp [hobjects]
  · rfl

/-- Sealed by a browser for a well-formed notebook, a name opens with its key alone, to what it was. -/
theorem openContainerName_ok (hA : A.Ideal 16) (hid : Content.Notecrypto.containerID (Utf16.encode id) = true)
    (hs : encryptContainerMeta A key id n = .ok sealed) (hj : json n.plaintext = some n.value) {v1 : Bool}
    {x : String × Bool} :
    openContainerName A json key' (Utf16.encode id) sealed v1 = .ok x ↔ key' = key ∧ x = (n.text, n.marked) := by
  obtain ⟨⟨hsize, -, hshort⟩, rfl⟩ := Content.Crypto.sealContent_ok.1 hs
  have hplace : Content.Place.encode ⟨id, id, Utf16.ofText "container-meta"⟩ =
      ⟨Utf16.encode id, Utf16.encode id, Content.Notecrypto.kindContainerMeta⟩ := by
    simp only [Content.Place.encode, Content.Place.map, Utf16.encode_ofText]
    rfl
  rw [hplace] at hshort ⊢
  have hopen : openContainerName A json key (Utf16.encode id) (Content.v2Form A key
      ⟨Utf16.encode id, Utf16.encode id, Content.Notecrypto.kindContainerMeta⟩ n.iv n.plaintext) v1 =
        .ok (n.text, n.marked) := by
    have haccepts : Content.Notecrypto.Accepts key
        ⟨Utf16.encode id, Utf16.encode id, Content.Notecrypto.kindContainerMeta⟩ :=
      ⟨hsize, hid, require_ok.2 (.inl ⟨rfl, rfl⟩)⟩
    unfold openContainerName
    rw [Content.Notecrypto.openSealed_v2 haccepts (Content.opensV2_v2Form hA), ok_bind]
    dsimp only
    rw [hj, Option.bind_some, Name.unmarshal]
    cases n.marked <;> rfl
  constructor
  · intro h
    obtain rfl : key' = key := by
      unfold openContainerName at h
      obtain ⟨⟨p, legacy⟩, ho, -⟩ := bind_ok.1 h
      obtain ⟨-, h2 | ⟨-, h1⟩⟩ := Content.Notecrypto.openSealed_ok ho
      · exact (Content.v2Form_bound hA hshort hshort h2).1
      · exact absurd h1 (Content.v2Form_not_opensV1 hA)
    exact ⟨rfl, Except.ok.inj (h.symm.trans hopen)⟩
  · rintro ⟨rfl, rfl⟩
    exact hopen

end Names

/-! ## Alarms -/

section Alarms

variable (I : Imports) (rowOf : JsString → ContainerId) (s : Site)

/-- A `refresh` of the bridge ends in an error. -/
def Ends (err : RefreshError) : SiteEvent → Prop
  | .server _ _ => False
  | .bridge e => ∃ r, s.bridge.refreshed I e = some r ∧ r.error = some err

/-- `errRollback` or `errOlderMeta`. -/
def Alarm (e : SiteEvent) : Prop := Ends I s .rollback e ∨ Ends I s .olderMeta e

/-- The name of a container is sealed under its current generation, with the marker. -/
def Site.Current (cid : ContainerId) : Prop :=
  ∃ c n, s.server.keys.containers.get cid = some c ∧ s.names cid = some (c.keyGeneration, n) ∧ n.marked = true

/-- `refresh` comes to the name, with a key for it. -/
def Machine.TriesName (m : Machine) (a : Answers) : Prop :=
  ∃ m' c opened, m.look I a = .ok (m', c, opened) ∧ (m'.nameKey c opened.ring).isSome = true

/-- Where the bridge has stored the marker and its `refresh` has a key for the name, the name is current. -/
def NameCurrent : SiteEvent → Prop
  | .server _ _ => True
  | .bridge e => ∀ m a, s.bridge.refreshing e = some (m, a) → m.known.objects = 2 → m.TriesName I a →
    s.Current (rowOf m.nb.id)

end Alarms

section Steps

variable {I : Imports} {rowOf : JsString → ContainerId} {key : ContainerId → Nat → Bytes} {s : Site} {m m' : Machine}
  {c : Container} {ring : Record Int Bytes} {a : Answers} {opened : OpenedRing}

/-- `errOlderMeta` takes the marker, a name, its key and a reading without the marker. -/
theorem Machine.marker_none : m.marker I c ring = none ↔ m.known.objects = 2 ∧ ∃ k sealed,
    m.nameKey c ring = some (k, sealed) ∧ ∀ text,
      openContainerName I.content I.json k (Utf16.encode m.nb.id) sealed (m.known.objects < 2) ≠ .ok (text, true) := by
  unfold Machine.marker
  cases hk : m.nameKey c ring with
  | none => simp
  | some x =>
    obtain ⟨k, sealed⟩ := x
    dsimp only
    split
    · rename_i text ho
      refine ⟨fun h => (by cases h), fun ⟨_, k', sealed', he, hno⟩ => ?_⟩
      cases he
      exact absurd ho (hno text)
    · rename_i hno
      have hunread : ∀ text, openContainerName I.content I.json k (Utf16.encode m.nb.id) sealed (m.known.objects < 2) ≠
          .ok (text, true) := fun text ho => hno text ho
      split
      · rename_i h2
        exact ⟨fun _ => ⟨h2, k, sealed, rfl, hunread⟩, fun _ => rfl⟩
      · rename_i h2
        exact ⟨fun h => (by cases h), fun h => absurd h.1 h2⟩

theorem Machine.finish_error {save : Bool} :
    ((m.finish I c ring save).error = some .olderMeta ↔ m.marker I c ring = none) ∧
      (m.finish I c ring save).error ≠ some .rollback := by
  unfold Machine.finish
  dsimp only
  cases m.marker I c ring with
  | none => simp
  | some objects =>
    dsimp only
    split
    · simp
    · simp

/-- The generations of an envelope that opens. -/
theorem Opens.range {S : Web.Suite} {id : JsString} {me : Self} {rows : List EnvelopeRow} {g : Int} {k : Bytes}
    (h : Opens S id me rows g k) : g ≤ 4294967295 := by
  obtain ⟨r, -, -, envelope, sender, -, ho⟩ := h
  unfold openKey at ho
  split at ho
  · cases ho
  · omega

/-- The bridge reads the marker just where the name is current. -/
theorem Looked.reads {P : JsString → Int → Int → Prop} (h : Looked P I m a m' c opened) (hs : s.Inv I rowOf)
    (ha : HonestAnswers I rowOf key s m.nb.id a) (hkey : FreshKeys key) (hA : I.content.Ideal 16) {k sealed : Bytes}
    (hk : m'.nameKey c opened.ring = some (k, sealed)) (v1 : Bool) :
    (∃ text, openContainerName I.content I.json k (Utf16.encode m'.nb.id) sealed v1 = .ok (text, true)) ↔
      s.Current (rowOf m.nb.id) := by
  obtain ⟨list, hlist, hmem⟩ := h.listed
  have hc := ha.containers list hlist c hmem
  obtain ⟨row, hrow, hgen, -⟩ := hc.generations
  -- The key is the one of the listed generation.
  unfold Machine.nameKey at hk
  dsimp only at hk
  split at hk
  · cases hk
  rename_i hne
  obtain ⟨k', hread, he⟩ := Option.map_eq_some_iff.1 hk
  cases he
  rw [h.generation] at hread
  obtain ⟨rows, hrows, hopens⟩ := h.ring
  have hopen := hopens _ _ (readKey_ring hread)
  obtain ⟨N, hN, hkN⟩ := ha.rows rows hrows _ _ hopen
  have hrange := hopen.range
  -- What is listed is the name of the container.
  have hname := hc.name
  split at hname
  · rename_i hnone
    rw [hname] at hne
    exact absurd rfl hne
  rename_i g n hsome
  obtain ⟨bytes, hseal, hlisted⟩ := hname
  obtain ⟨hjson, row', hrow', hle⟩ := hs.names _ g n hsome
  cases hrow.symm.trans hrow'
  rw [hlisted, Base64.decodePrefix_encode, h.same, ← h.id]
  simp only [openContainerName_ok hA hc.id hseal hjson, Prod.mk.injEq]
  rw [hkN, ← h.id]
  have hrowN : row.keyGeneration = N := by omega
  constructor
  · rintro ⟨text, hkeys, -, hmarked⟩
    obtain hlt | rfl := Nat.lt_or_eq_of_le (hrowN ▸ hle)
    · exact absurd hkeys.symm (hkey.fresh _ N g hlt (by omega))
    · exact ⟨row, n, hrow, by rw [hsome, hrowN], hmarked.symm⟩
  · rintro ⟨row', n', hrow', hn', hmarked⟩
    cases hrow.symm.trans hrow'
    rw [hsome, hrowN] at hn'
    cases hn'
    exact ⟨n.text, rfl, rfl, hmarked.symm⟩

/-- **One step.** An honest `refresh` never ends in `errRollback`, and in `errOlderMeta` exactly where the name is not
current. -/
theorem alarm_iff (hA : I.content.Ideal 16) (hkey : FreshKeys key) (hs : s.Inv I rowOf) {e : SiteEvent}
    (he : Honest I rowOf key s e) : ¬Ends I s .rollback e ∧ (¬Ends I s .olderMeta e ↔ NameCurrent I rowOf s e) := by
  cases e with
  | server op name => exact ⟨id, fun _ => trivial, fun _ => id⟩
  | bridge e =>
    cases hr : s.bridge.refreshing e with
    | none => simp [Ends, NameCurrent, World.refreshed_eq, hr]
    | some x =>
      obtain ⟨m, a⟩ := x
      have ha := he m a hr
      have hlook := hs.look hr ha
      simp only [Ends, NameCurrent, World.refreshed_eq, hr, Option.map_some, Option.some.injEq, exists_eq_left']
      cases hl : m.look I a with
      | error x =>
        obtain ⟨m', e'⟩ := x
        rw [hl] at hlook
        have hrefresh : m.refresh I a = ⟨m', [], some e'⟩ := by
          unfold Machine.refresh
          rw [hl]
        rw [hrefresh]
        refine ⟨fun h => hlook.2.1 (Option.some.inj h), fun _ => ?_, fun _ h => hlook.2.2 (Option.some.inj h)⟩
        rintro _ _ ⟨⟩ - ⟨_, _, _, hok, -⟩
        rw [hl] at hok
        cases hok
      | ok x =>
        obtain ⟨m', c, opened⟩ := x
        rw [hl] at hlook
        have hrefresh : m.refresh I a = m'.finish I c opened.ring a.secondSave := by
          unfold Machine.refresh
          rw [hl]
        rw [hrefresh, Machine.finish_error.1, Machine.marker_none, hlook.objects]
        refine ⟨Machine.finish_error.2, ?_, ?_⟩
        · rintro hquiet _ _ ⟨⟩ h2 ⟨_, _, _, hok, hsome⟩
          rw [hl] at hok
          cases hok
          obtain ⟨⟨k, sealed⟩, hk⟩ := Option.isSome_iff_exists.1 hsome
          refine (hlook.reads hs ha hkey hA hk (m.known.objects < 2)).1 ?_
          by_contra hno
          exact hquiet ⟨h2, k, sealed, hk, fun text ho => hno ⟨text, ho⟩⟩
        · rintro hcurrent ⟨h2, k, sealed, hk, hno⟩
          have hsome : (m'.nameKey c opened.ring).isSome = true := by rw [hk]; rfl
          obtain ⟨text, ho⟩ := (hlook.reads hs ha hkey hA hk (m.known.objects < 2)).2
            (hcurrent m a rfl h2 ⟨m', c, opened, hl, hsome⟩)
          exact hno text ho

end Steps

/-- **The bridge's alarms.** In every run of honest steps no `refresh` ends in `errRollback`, and none raises an alarm
exactly where the name is current at each `refresh` that has the marker stored and a key for the name. -/
theorem alarms_iff (I : Imports) (cfg : Config) (rowOf : JsString → ContainerId) (key : ContainerId → Nat → Bytes)
    (hA : I.content.Ideal 16) (hkey : FreshKeys key) (es : List SiteEvent)
    (he : Along (Site.step I cfg) (Honest I rowOf key) .init es) :
    (∀ bs e, bs ++ [e] <+: es → ¬Ends I (run (Site.step I cfg) .init bs) .rollback e) ∧
    ((∀ bs e, bs ++ [e] <+: es → ¬Alarm I (run (Site.step I cfg) .init bs) e) ↔
      Along (Site.step I cfg) (NameCurrent I rowOf) .init es) := by
  have hstep : ∀ (s : Site) (e : SiteEvent), s.Inv I rowOf → Honest I rowOf key s e → (s.step I cfg e).Inv I rowOf :=
    fun _ _ hs he => hs.step he
  constructor
  · exact (forall_iff_along_of hstep (fun s e hs he => iff_true_intro (alarm_iff hA hkey hs he).1) he Site.init_inv).2
      (along_true _ _)
  · have hname : ∀ (s : Site) (e : SiteEvent), s.Inv I rowOf → Honest I rowOf key s e →
        (¬Alarm I s e ↔ NameCurrent I rowOf s e) := by
      intro s e hs he
      obtain ⟨hfloor, hname⟩ := alarm_iff hA hkey hs he
      rw [← hname, Alarm, not_or]
      exact and_iff_right hfloor
    exact forall_iff_along_of (D := fun s e => ¬Alarm I s e) hstep hname he Site.init_inv

/-! ## A rotation -/

section Rotation

/-- A JSON text of a name with the marker. -/
def sampleName : Name where
  text := "Notes"
  marked := true
  plaintext := Utf16.utf8 "\x7b\"name\":\"Notes\",\"objects\":2\x7d"
  iv := Content.firstNonce

/-- Ideal cryptography, and a parser that reads this text. -/
def nameImports : Imports :=
  ⟨bridgeSuite, Aead.transparent 0 1 16, fun text => if text = sampleName.plaintext then some sampleName.value else none⟩

/-- A key with its generation in it. -/
def sampleKeys (_ : ContainerId) (g : Nat) : Bytes :=
  [UInt8.ofNat (g / 16777216), UInt8.ofNat (g / 65536), UInt8.ofNat (g / 256), UInt8.ofNat g] ++ List.replicate 28 0

theorem sampleKeys_fresh : FreshKeys sampleKeys where
  size := fun _ _ => rfl
  fresh := by
    intro cid g g' hlt hle h
    simp only [sampleKeys, List.cons_append, List.cons.injEq] at h
    obtain ⟨h₃, h₂, h₁, h₀, -⟩ := h
    have e₃ := congrArg UInt8.toNat h₃
    have e₂ := congrArg UInt8.toNat h₂
    have e₁ := congrArg UInt8.toNat h₁
    have e₀ := congrArg UInt8.toNat h₀
    simp only [UInt8.toNat_ofNat'] at e₃ e₂ e₁ e₀
    omega

/-- The key of a generation, as the owner's browser has sealed it for the bridge. -/
def sampleRow (g : Nat) : EnvelopeRow where
  deviceId := Web.sampleMe.deviceId
  keyGeneration := g
  alg := .hpkeAuth
  envelope := Base64.encode ((Web.wrapEnvelope bridgeSuite (sampleKeys 2 g) Web.sampleMe.publicKey (Web.sampleId .cnt 97)
    (g : Web.Num) Web.sampleMe.deviceId (Web.sampleId .dev 98) (List.replicate 32 2) []).getD [])

/-- Notebook 2 at a generation, its name sealed under generation 2. -/
def rotationAnswers (g : Nat) : Answers where
  containers := some [⟨Web.sampleId .cnt 97, g, 2, Base64.encode
    ((encryptContainerMeta nameImports.content (sampleKeys 2 2) (Web.sampleId .cnt 97) sampleName).toOption.getD [])⟩]
  firstSave := true
  members := some [⟨ownerOf 98 98 2, Web.sampleMe.userId, .ok ⟨Web.sampleId .dev 98, Base64.encode (List.replicate 32 2)⟩⟩]
  rows := some ((List.range' 2 (g - 1)).map sampleRow)
  me := bridgeSelf Web.sampleMe
  secondSave := true

/-- Notebook 2 is keyed and named, the bridge starts, and the next rotation comes; the browser stops before it seals the name
again. -/
def rotation : List SiteEvent :=
  sampleSetup.map (.server · sampleName) ++
    [.server (.key (.rename 0 2 true (some 2) 0)) sampleName,
      .bridge (.start (Web.sampleId .cnt 97) (rotationAnswers 2)),
      .server (.key (.rotate 0 true 2 2 [⟨1, 3, .hpkeAuth, some [0]⟩])) sampleName]

def rotatedCall : SiteEvent := .bridge (.call (rotationAnswers 3) [] .read)

/-- What opens is at a fixed place of the envelope. -/
theorem bridgeSuite_openKey {id : JsString} {me : Self} {alg : Alg} {envelope sender k : Bytes} {g : Int}
    (h : openKey bridgeSuite id me alg envelope g sender = some k) :
    k = (envelope.drop 63).take ((envelope.drop 63).length - 16) := by
  unfold openKey at h
  split at h
  · cases h
  · simp only [openEnvelope, Option.bind_eq_bind, Option.bind_eq_some_iff] at h
    obtain ⟨device, -, h⟩ := h
    split at h
    · simp [openLegacyEnvelope, bridgeSuite] at h
    · simp only [Option.bind_eq_some_iff] at h
      obtain ⟨info, -, h⟩ := h
      split at h
      · cases h
      · simp only [bridgeSuite] at h
        split at h
        · cases h
          rfl
        · cases h

theorem rotationAnswers_honest {s : Site} {g : Nat} (hg : g = 2 ∨ g = 3)
    (hrow : (s.server.keys.containers.get 2).map (fun c => (c.keyGeneration, c.sharedGeneration)) = some (g, 2))
    (hname : s.names 2 = some (2, sampleName)) (id : JsString) :
    HonestAnswers nameImports (fun _ => 2) sampleKeys s id (rotationAnswers g) where
  containers := by
    rintro _ ⟨⟩ c hc
    cases List.mem_singleton.1 hc
    obtain ⟨r, hr, he⟩ := Option.map_eq_some_iff.1 hrow
    obtain ⟨rfl, h2⟩ := Prod.mk.inj he
    have hid : Content.Notecrypto.containerID (Utf16.encode (Web.sampleId .cnt 97)) = true := by decide +kernel
    have hplace : Content.Crypto.Accepts (sampleKeys 2 2) ⟨Web.sampleId .cnt 97, Web.sampleId .cnt 97,
        Utf16.ofText "container-meta"⟩ := ⟨rfl, by decide +kernel, by decide +kernel⟩
    obtain ⟨bytes, hsealed⟩ : ∃ bytes, encryptContainerMeta nameImports.content (sampleKeys 2 2) (Web.sampleId .cnt 97)
        sampleName = .ok bytes := ⟨_, Content.Crypto.sealContent_ok.2 ⟨hplace, rfl⟩⟩
    refine ⟨hid, ⟨r, hr, rfl, congrArg Nat.cast h2.symm⟩, ?_⟩
    rw [hname]
    refine ⟨bytes, hsealed, ?_⟩
    rw [hsealed]
    rfl
  rows := by
    rintro _ ⟨⟩ g' k ⟨r, hr, rfl, envelope, sender, he, ho⟩
    obtain ⟨n, hn, rfl⟩ := List.mem_map.1 hr
    rw [sampleRow, Base64.decodeStd_encode] at he
    cases he
    refine ⟨n, rfl, (bridgeSuite_openKey ho).trans ?_⟩
    have hn : n = 2 ∨ n = 3 := by
      rw [List.mem_range'_1] at hn
      omega
    obtain rfl | rfl := hn
    · decide +kernel
    · decide +kernel

theorem World.refreshing_start {w : World} {id : JsString} {a a' : Answers} {m : Machine}
    (h : w.refreshing (.start id a) = some (m, a')) : a = a' := by
  unfold World.refreshing at h
  split at h
  · rename_i he _
    cases he
    cases h
    rfl
  · rename_i he _
    cases he
  · cases h

theorem World.refreshing_call {w : World} {changes : List ChangesPage} {t : Tool} {a a' : Answers} {m : Machine}
    (h : w.refreshing (.call a changes t) = some (m, a')) : a = a' := by
  unfold World.refreshing at h
  split at h
  · rename_i he _
    cases he
  · rename_i he _
    cases he
    cases h
    rfl
  · cases h

/-- Every step of the run is honest. -/
theorem rotation_honest : Along (Site.step nameImports sampleConfig) (Honest nameImports (fun _ => 2) sampleKeys) .init
    (rotation ++ [rotatedCall]) := by
  have hname : nameImports.json sampleName.plaintext = some sampleName.value := by
    show (if sampleName.plaintext = sampleName.plaintext then some sampleName.value else none) = _
    rw [if_pos rfl]
  refine ⟨hname, hname, hname, hname, hname, hname, fun m a hr => ?_, hname, fun m a hr => ?_, trivial⟩
  · cases World.refreshing_start hr
    exact rotationAnswers_honest (.inl rfl) (by decide +kernel) (by decide +kernel) m.nb.id
  · cases World.refreshing_call hr
    exact rotationAnswers_honest (.inr rfl) (by decide +kernel) (by decide +kernel) m.nb.id

def RefreshError.isOlderMeta : RefreshError → Bool
  | .olderMeta => true
  | _ => false

/-- The rotation raises an alarm: the marker is stored, and the new key does not open the name under the old one. -/
theorem rotation_alarms : ¬∀ (I : Imports) (cfg : Config) (rowOf : JsString → ContainerId) (key : ContainerId → Nat → Bytes),
    I.content.Ideal 16 → FreshKeys key → ∀ es : List SiteEvent,
      Along (Site.step I cfg) (Honest I rowOf key) .init es →
        ∀ bs e, bs ++ [e] <+: es → ¬Alarm I (run (Site.step I cfg) .init bs) e := by
  intro h
  have hquiet := h nameImports sampleConfig (fun _ => 2) sampleKeys (Aead.ideal_transparent 16 (by decide)) sampleKeys_fresh
    (rotation ++ [rotatedCall]) rotation_honest rotation rotatedCall (List.prefix_refl _)
  have halarm : (((run (Site.step nameImports sampleConfig) .init rotation).bridge.refreshed nameImports
      (.call (rotationAnswers 3) [] .read)).bind Refreshed.error).any RefreshError.isOlderMeta = true := by
    decide +kernel
  obtain ⟨err, herr, holder⟩ := (Option.any_eq_true _ _).1 halarm
  obtain ⟨r, hr, he⟩ := Option.bind_eq_some_iff.1 herr
  refine hquiet (.inr ⟨r, hr, ?_⟩)
  rw [he]
  cases err with
  | olderMeta => rfl
  | _ => cases holder

/-- So the name is not current at the last call of this run. -/
theorem alarms_iff_rotation :
    (∀ bs e, bs ++ [e] <+: rotation ++ [rotatedCall] →
      ¬Ends nameImports (run (Site.step nameImports sampleConfig) .init bs) .rollback e) ∧
    ((∀ bs e, bs ++ [e] <+: rotation ++ [rotatedCall] → ¬Alarm nameImports (run (Site.step nameImports sampleConfig) .init bs) e) ↔
      Along (Site.step nameImports sampleConfig) (NameCurrent nameImports fun _ => 2) .init (rotation ++ [rotatedCall])) :=
  alarms_iff nameImports sampleConfig (fun _ => 2) sampleKeys (Aead.ideal_transparent 16 (by decide)) sampleKeys_fresh
    (rotation ++ [rotatedCall]) rotation_honest

end Rotation

end KyNotes.Bridge
