import KyNotes.Bridge.Memory
import KyNotes.Content.Bound
import KyNotes.Keys.Law

/-!
# The bridge between an honest server and honest browsers

The operations of the server and the events of the bridge, in any order: each operation is one request, and a browser that
stops sends no more of them. The tables of the server have no names, so the name of a container is here what the last rename
has stored. An answer to the bridge is honest where it shows the containers as they are, and envelopes that open to the key
of their generation.

No step of them lets the bridge remember more than the server has (`Site.Inv`), which is why no floor is ever undercut.
-/

namespace KyNotes.Bridge

open Relational Check Transition
open Web (JsString)

/-! ## Names -/

/-- A name as a browser writes it: with the migration marker or without, as a JSON text, under a nonce. -/
structure Name where
  text : String
  marked : Bool
  plaintext : Bytes
  iv : Content.Nonce
deriving DecidableEq

/-- `migrated ? { name, objects: 2 } : { name }`. -/
def Name.value (n : Name) : Json := .obj (("name", .str n.text) :: if n.marked then [("objects", .num 2)] else [])

/-- `encryptContainerMeta`. -/
def encryptContainerMeta (A : Aead UInt8) (key : Bytes) (containerID : JsString) (n : Name) : Except String Bytes :=
  Content.Crypto.sealContent A key ⟨containerID, containerID, Utf16.ofText "container-meta"⟩ n.iv n.plaintext

/-! ## The site -/

/-- The server, the names of its containers with the generation that each is sealed under, and the bridge. -/
structure Site where
  server : KyNotes.World
  names : ContainerId → Option (Nat × Name)
  bridge : World

def Site.init : Site := ⟨.init, fun _ => none, .init⟩

inductive SiteEvent
  /-- The operation of a request; a rename has the name with it. -/
  | server (op : Op) (name : Name)
  | bridge (e : Event)

/-- The names after an operation. -/
def Site.named (s : Site) (op : Op) (name : Name) : ContainerId → Option (Nat × Name) :=
  match op with
  | .key (.rename u cid scheme (some g) base) =>
    match renameContainer s.server.keys u cid scheme (some g) base with
    | .ok _ => fun c => if c = cid then some (g, name) else s.names c
    | .error _ => s.names
  | _ => s.names

def Site.step (I : Imports) (cfg : Config) (s : Site) (e : SiteEvent) : Site :=
  match e with
  | .server op name => ⟨s.server.next cfg op, s.named op name, s.bridge⟩
  | .bridge e => { s with bridge := s.bridge.step I e }

/-- The process and the answers of the `refresh` of an event. -/
def World.refreshing (w : World) (e : Event) : Option (Machine × Answers) :=
  match e, w.process with
  | .start id a, none => some (⟨w.file, .start id w.file⟩, a)
  | .call a _ _, some nb => some (⟨w.file, nb⟩, a)
  | _, _ => none

theorem World.refreshed_eq (I : Imports) (w : World) (e : Event) :
    w.refreshed I e = (w.refreshing e).map fun x => x.1.refresh I x.2 := by
  cases e with
  | stop => rfl
  | start id a => cases hp : w.process <;> simp [World.refreshed, World.refreshing, hp]
  | call a changes t => cases hp : w.process <;> simp [World.refreshed, World.refreshing, hp]

/-! ## Honesty -/

section Honesty

variable (I : Imports) (rowOf : JsString → ContainerId) (key : ContainerId → Nat → Bytes)

/-- The container as it is; `rowOf` is the row of an ID. -/
structure Reported (s : Site) (c : Container) : Prop where
  id : Content.Notecrypto.containerID (Utf16.encode c.id) = true
  generations : ∃ r, s.server.keys.containers.get (rowOf c.id) = some r ∧ c.keyGeneration = r.keyGeneration ∧
    c.sharedGeneration = r.sharedGeneration
  name : match s.names (rowOf c.id) with
    | none => c.metaCiphertext = []
    | some (g, n) => ∃ sealed, encryptContainerMeta I.content (key (rowOf c.id) g) c.id n = .ok sealed ∧
      c.metaCiphertext = Base64.encode sealed

/-- The containers are as they are, and an envelope opens to the key of its generation. The members may be any. -/
structure HonestAnswers (s : Site) (id : JsString) (a : Answers) : Prop where
  containers : ∀ list, a.containers = some list → ∀ c ∈ list, Reported I rowOf key s c
  rows : ∀ rows, a.rows = some rows → ∀ g k, Opens I.suite id a.me rows g k → ∃ n : Nat, g = n ∧ k = key (rowOf id) n

/-- A browser's name is a JSON text of it, and what the bridge is answered is honest. -/
def Honest (s : Site) : SiteEvent → Prop
  | .server _ name => I.json name.plaintext = some name.value
  | .bridge e => ∀ m a, s.bridge.refreshing e = some (m, a) → HonestAnswers I rowOf key s m.nb.id a

/-- Keys of 32 bytes, drawn anew for every generation that an envelope can have. -/
structure FreshKeys : Prop where
  size : ∀ cid g, (key cid g).length = 32
  fresh : ∀ cid g g', g' < g → g ≤ 4294967295 → key cid g' ≠ key cid g

end Honesty

/-! ## What the bridge remembers is what the server has been -/

section Floors

variable {k k' : KeyTables} {P : JsString → Int → Int → Prop}

/-- First and current generation are no higher than those of the row; without a row they are zero. -/
def Within (k : KeyTables) (cid : ContainerId) (shared generation : Int) : Prop :=
  shared ≤ 0 ∧ generation ≤ 0 ∨
    ∃ c, k.containers.get cid = some c ∧ shared ≤ c.sharedGeneration ∧ generation ≤ c.keyGeneration

/-- A row stays, and its generations rise. -/
theorem get_later (h : Later k k') {cid : ContainerId} {c : KyNotes.Container} (hc : k.containers.get cid = some c) :
    ∃ c', k'.containers.get cid = some c' ∧ Advance c c' := by
  obtain ⟨c', hc', ha⟩ := h.row c (Table.get_mem hc)
  refine ⟨c', ?_, ha⟩
  rw [← Table.get_key hc, ← ha.id]
  exact Table.get_of_mem hc'

theorem Within.later (h : Later k k') {cid : ContainerId} {shared generation : Int} (hw : Within k cid shared generation) :
    Within k' cid shared generation := by
  obtain h0 | ⟨c, hc, hs, hg⟩ := hw
  · exact .inl h0
  · obtain ⟨c', hc', ha⟩ := get_later h hc
    have hgen := ha.gen
    refine .inr ⟨c', hc', ?_, by omega⟩
    by_cases h0 : c.sharedGeneration = 0
    · omega
    · rw [ha.shared h0]
      exact hs

/-! ### One `refresh` -/

/-- `P` holds of what is remembered of every notebook. -/
def TrustState.Floors (P : JsString → Int → Int → Prop) (t : TrustState) : Prop :=
  ∀ id, P id (t.known id).shared (t.known id).generation

/-- In the file and in memory. -/
structure Machine.Floors (P : JsString → Int → Int → Prop) (m : Machine) : Prop where
  file : m.file.Floors P
  memory : m.nb.trust.Floors P

variable {I : Imports} {m : Machine}

theorem Machine.Floors.setKnown (h : m.Floors P) {known : KeyState} (hk : P m.nb.id known.shared known.generation) :
    (m.setKnown known).Floors P := by
  refine ⟨h.file, fun id => ?_⟩
  rw [known_setKnown]
  split
  · rename_i hid
    rw [hid]
    exact hk
  · exact h.memory id

theorem Machine.Floors.save (h : m.Floors P) : m.save.Floors P := ⟨h.memory, h.memory⟩

/-- What is not remembered is set. -/
theorem Machine.Floors.with {n : Notebook} (h : m.Floors P) (ht : n.trust = m.nb.trust) :
    Machine.Floors P { m with nb := n } :=
  ⟨h.file, ht ▸ h.memory⟩

/-- The generations of a container that is no lower are taken over. -/
theorem Machine.Floors.raise (h : m.Floors P) {c : Container} (hP : P m.nb.id c.sharedGeneration c.keyGeneration)
    (hshared : m.known.shared ≤ c.sharedGeneration) (hgen : m.known.generation ≤ c.keyGeneration) (save : Bool) :
    ∃ m' e, m.raise c save = (m', e) ∧ m'.Floors P ∧ m'.nb.id = m.nb.id ∧ m'.known.objects = m.known.objects ∧
      (e = none ∧ m'.nb.shared = c.sharedGeneration ∧ m'.nb.keyGeneration = c.keyGeneration ∨ e = some .save) := by
  have hraise : m.known.raise c = some { m.known with shared := c.sharedGeneration, generation := c.keyGeneration } :=
    if_neg (not_or.2 ⟨Int.not_lt.2 hshared, Int.not_lt.2 hgen⟩)
  let known : KeyState := { m.known with shared := c.sharedGeneration, generation := c.keyGeneration }
  have h₀ : (m.setKnown m.known).Floors P := h.setKnown (h.memory _)
  have h₁ : ((m.setKnown m.known).setKnown known).Floors P := h₀.setKnown hP
  have hobj : ((m.setKnown m.known).setKnown known).known.objects = m.known.objects := by rw [Machine.known_set]
  unfold Machine.raise
  dsimp only
  rw [Machine.known_set, hraise]
  dsimp only
  split
  · exact ⟨_, _, rfl, h₁.save.with rfl, rfl, hobj, .inl ⟨rfl, rfl, rfl⟩⟩
  · exact ⟨_, _, rfl, h₁, rfl, hobj, .inr rfl⟩

theorem Machine.Floors.adopt (h : m.Floors P) {me : Self} {rows : List EnvelopeRow} {opened : OpenedRing}
    (hg : opened.Grown I.suite m.nb.id me m.nb.trust.pins rows m.known) : (m.adopt opened).Floors P := by
  let pins := opened.fresh.foldl
    (fun (pins : Web.Pins) f => pins.set f.userId ((f.identity.map Web.PublicIdentity.publicKey).getD [])) m.nb.trust.pins
  have h₁ : Machine.Floors P { m with nb := { m.nb with trust := { m.nb.trust with pins := pins } } } := ⟨h.file, h.memory⟩
  refine h₁.setKnown ?_
  rw [hg.shared, hg.generation]
  exact h.memory m.nb.id

theorem Machine.Floors.finish (h : m.Floors P) (c : Container) (ring : Record Int Bytes) (save : Bool) :
    (m.finish I c ring save).machine.Floors P := by
  unfold Machine.finish
  dsimp only
  split
  · exact h
  · rename_i objects _
    have h₁ : (m.setKnown { m.known with objects }).Floors P := h.setKnown (h.memory _)
    split
    · exact h₁.save.with rfl
    · exact h₁

theorem reported_cases (a : Answers) (id : JsString) :
    (reported a id = .error .request ∨ reported a id = .error .notMember) ∨
      ∃ list c, a.containers = some list ∧ c ∈ list ∧ c.id = id ∧ reported a id = .ok c := by
  unfold reported
  cases hlist : a.containers with
  | none => exact .inl (.inl rfl)
  | some list =>
    cases hfind : list.find? fun c => c.id = id with
    | none =>
      refine .inl (.inr ?_)
      show fetch (list.find? fun c => decide (c.id = id)) RefreshError.notMember = _
      rw [hfind]
      rfl
    | some c =>
      refine .inr ⟨list, c, rfl, List.mem_of_find?_eq_some hfind, by simpa using List.find?_some hfind, ?_⟩
      show fetch (list.find? fun c => decide (c.id = id)) RefreshError.notMember = _
      rw [hfind]
      rfl

variable (P I m) in
/-- Where `refresh` comes to the name, it has a listed container with its generations, and keys that the rows open to. -/
structure Looked (a : Answers) (m' : Machine) (c : Container) (opened : OpenedRing) : Prop where
  floors : m'.Floors P
  listed : ∃ list, a.containers = some list ∧ c ∈ list
  id : c.id = m.nb.id
  same : m'.nb.id = m.nb.id
  shared : m'.nb.shared = c.sharedGeneration
  generation : m'.nb.keyGeneration = c.keyGeneration
  objects : m'.known.objects = m.known.objects
  ring : ∃ rows, a.rows = some rows ∧ ∀ g k, opened.ring.lookup g = some k → Opens I.suite m.nb.id a.me rows g k

/-- Up to the name no floor is undercut, where the listed container is no lower than what is remembered. -/
theorem Machine.Floors.look (h : m.Floors P) {a : Answers} (hlist : ∀ list, a.containers = some list → ∀ c ∈ list,
    c.id = m.nb.id → P m.nb.id c.sharedGeneration c.keyGeneration ∧ m.known.shared ≤ c.sharedGeneration ∧
      m.known.generation ≤ c.keyGeneration) :
    match m.look I a with
    | .error (m', e) => m'.Floors P ∧ e ≠ .rollback ∧ e ≠ .olderMeta
    | .ok (m', c, opened) => Looked P I m a m' c opened := by
  unfold Machine.look
  obtain (hrep | hrep) | ⟨list, c, hcs, hmem, hid, hrep⟩ := reported_cases a m.nb.id
  · rw [hrep]
    exact ⟨h, nofun, nofun⟩
  · rw [hrep]
    exact ⟨h, nofun, nofun⟩
  · rw [hrep]
    dsimp only
    obtain ⟨hP, hshared, hgen⟩ := hlist list hcs c hmem hid
    obtain ⟨m₁, e, hraise, h₁, hid₁, hobj₁, ⟨rfl, hs₁, hg₁⟩ | rfl⟩ := h.raise hP hshared hgen a.firstSave
    · rw [hraise]
      dsimp only
      cases a.members with
      | none => exact ⟨h₁, nofun, nofun⟩
      | some answers =>
        dsimp only
        generalize readMembers none answers = found
        obtain ⟨role, members⟩ := found
        have hrole : Machine.Floors P { m₁ with nb := { m₁.nb with role } } := h₁.with rfl
        cases members with
        | none => exact ⟨hrole, nofun, nofun⟩
        | some members =>
          cases hrows : a.rows with
          | none => exact ⟨hrole, nofun, nofun⟩
          | some rows =>
            dsimp only
            cases hopen : openKeyring I.suite m₁.nb.id a.me members m₁.nb.trust.pins rows
                (Machine.known { m₁ with nb := { m₁.nb with role } }) with
            | error e => exact ⟨hrole, nofun, nofun⟩
            | ok opened =>
              have hg := openKeyring_grown hopen
              refine ⟨hrole.adopt hg, ⟨list, hcs, hmem⟩, hid, hid₁, hs₁, hg₁, ?_, rows, hrows, hid₁ ▸ hg.opened⟩
              rw [Machine.known_adopt, hg.objects]
              exact hobj₁
    · rw [hraise]
      exact ⟨h₁, nofun, nofun⟩

/-- What `refresh` leaves. -/
theorem Looked.refresh {a : Answers} {m' : Machine} {c : Container} {opened : OpenedRing} (h : Looked P I m a m' c opened) :
    (m'.finish I c opened.ring a.secondSave).machine.Floors P := h.floors.finish c opened.ring a.secondSave

end Floors

/-! ## Runs of honest steps -/

section Runs

variable {I : Imports} {cfg : Config} {rowOf : JsString → ContainerId} {key : ContainerId → Nat → Bytes} {s : Site}

variable (I rowOf s) in
/-- The bridge remembers nothing that the server has not had, and every name has been sealed under a generation that its
container has had. -/
structure Site.Inv : Prop where
  keys : KeyInv s.server.keys
  file : s.bridge.file.Floors fun id => Within s.server.keys (rowOf id)
  process : ∀ nb, s.bridge.process = some nb → nb.trust.Floors fun id => Within s.server.keys (rowOf id)
  names : ∀ cid g n, s.names cid = some (g, n) → I.json n.plaintext = some n.value ∧
    ∃ c, s.server.keys.containers.get cid = some c ∧ g ≤ c.keyGeneration

theorem Site.init_inv : Site.init.Inv I rowOf where
  keys := init_keyInv
  file := fun _ => .inl ⟨Int.le_refl 0, Int.le_refl 0⟩
  process := fun _ h => by cases h
  names := fun _ _ _ h => by cases h

theorem Site.Inv.refreshing (h : s.Inv I rowOf) {e : Event} {m : Machine} {a : Answers}
    (hr : s.bridge.refreshing e = some (m, a)) : m.Floors fun id => Within s.server.keys (rowOf id) := by
  unfold World.refreshing at hr
  split at hr
  · cases hr
    exact ⟨h.file, h.file⟩
  · rename_i nb hp
    cases hr
    exact ⟨h.file, h.process nb hp⟩
  · cases hr

theorem Reported.within {c : Container} (h : Reported I rowOf key s c) :
    Within s.server.keys (rowOf c.id) c.sharedGeneration c.keyGeneration := by
  obtain ⟨r, hr, hg, hs⟩ := h.generations
  exact .inr ⟨r, hr, Int.le_of_eq hs, Int.le_of_eq hg⟩

/-- A listed container is no lower than what is remembered of it. -/
theorem Reported.above {c : Container} (h : Reported I rowOf key s c) {shared generation : Int}
    (hw : Within s.server.keys (rowOf c.id) shared generation) : shared ≤ c.sharedGeneration ∧ generation ≤ c.keyGeneration := by
  obtain ⟨r, hr, hg, hs⟩ := h.generations
  rw [hg, hs]
  obtain h0 | ⟨r', hr', hs', hg'⟩ := hw
  · omega
  · cases hr.symm.trans hr'
    exact ⟨hs', hg'⟩

/-- A `refresh` with honest answers undercuts no floor before the name. -/
theorem Site.Inv.look (h : s.Inv I rowOf) {e : Event} {m : Machine} {a : Answers}
    (hr : s.bridge.refreshing e = some (m, a)) (ha : HonestAnswers I rowOf key s m.nb.id a) :
    match m.look I a with
    | .error (m', e) => (m'.Floors fun id => Within s.server.keys (rowOf id)) ∧ e ≠ .rollback ∧ e ≠ .olderMeta
    | .ok (m', c, opened) => Looked (fun id => Within s.server.keys (rowOf id)) I m a m' c opened := by
  have hm := h.refreshing hr
  refine hm.look fun list hlist c hc hid => ?_
  have hlisted := ha.containers list hlist c hc
  refine ⟨hid ▸ hlisted.within, hlisted.above ?_⟩
  rw [hid]
  exact hm.memory m.nb.id

theorem Site.Inv.refresh (h : s.Inv I rowOf) {e : Event} {m : Machine} {a : Answers}
    (hr : s.bridge.refreshing e = some (m, a)) (ha : HonestAnswers I rowOf key s m.nb.id a) :
    (m.refresh I a).machine.Floors fun id => Within s.server.keys (rowOf id) := by
  have hlook := h.look hr ha
  unfold Machine.refresh
  cases hl : m.look I a with
  | error x =>
    rw [hl] at hlook
    exact hlook.1
  | ok x =>
    rw [hl] at hlook
    exact hlook.refresh

/-- A name is the one that a rename stores, under the current generation, or an old one. -/
theorem Site.named_cases {op : Op} {name n : Name} {cid : ContainerId} {g : Nat}
    (h : s.named op name cid = some (g, n)) : s.names cid = some (g, n) ∨
      n = name ∧ ∃ c, s.server.keys.containers.get cid = some c ∧ c.keyGeneration = g := by
  unfold Site.named at h
  split at h
  · rename_i u cid' scheme g' base
    cases hk : renameContainer s.server.keys u cid' scheme (some g') base with
    | error e =>
      rw [hk] at h
      exact .inl h
    | ok k =>
      rw [hk] at h
      dsimp only at h
      split at h
      · rename_i hcid
        cases h
        simp only [renameContainer, bind_ok, require_ok, fetch_ok, pure_ok] at hk
        obtain ⟨_, -, c, hc, _, -, _, -, _, ⟨-, hg⟩, -⟩ := hk
        exact .inr ⟨rfl, c, hcid ▸ (liveContainer_some hc).1, (Option.some.inj hg).symm⟩
      · exact .inl h
  · exact .inl h

theorem Site.Inv.step (h : s.Inv I rowOf) {e : SiteEvent} (he : Honest I rowOf key s e) : (s.step I cfg e).Inv I rowOf := by
  cases e with
  | server op name =>
    have hlater : Later s.server.keys (s.server.next cfg op).keys := ((step_keys cfg s.server op).inv h.keys).2
    refine ⟨step_keyInv cfg s.server op h.keys, fun id => (h.file id).later hlater,
      fun nb hnb id => (h.process nb hnb id).later hlater, fun cid g n hn => ?_⟩
    obtain hn | ⟨rfl, c, hc, hg⟩ := Site.named_cases hn
    · obtain ⟨hjson, c, hc, hg⟩ := h.names cid g n hn
      obtain ⟨c', hc', ha⟩ := get_later hlater hc
      exact ⟨hjson, c', hc', Nat.le_trans hg ha.gen⟩
    · obtain ⟨c', hc', ha⟩ := get_later hlater hc
      exact ⟨he, c', hc', hg ▸ ha.gen⟩
  | bridge e =>
    obtain ⟨r, hr, hfile, hproc⟩ | ⟨-, hfile, hproc⟩ := s.bridge.step_cases (I := I) e
    · rw [World.refreshed_eq] at hr
      obtain ⟨⟨m, a⟩, hrefresh, rfl⟩ := Option.map_eq_some_iff.1 hr
      have hfloors := h.refresh hrefresh (he m a hrefresh)
      refine ⟨h.keys, ?_, fun nb hnb => ?_, h.names⟩
      · show (s.bridge.step I e).file.Floors _
        rw [hfile]
        exact hfloors.file
      · obtain rfl | ⟨changes, rfl⟩ := hproc nb hnb
        · exact hfloors.memory
        · rw [(Notebook.index_same changes).2.1]
          exact hfloors.memory
    · refine ⟨h.keys, ?_, fun nb hnb => h.process nb (hproc nb hnb), h.names⟩
      show (s.bridge.step I e).file.Floors _
      rw [hfile]
      exact h.file

end Runs

end KyNotes.Bridge
