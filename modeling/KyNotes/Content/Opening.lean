import KyNotes.Content.Sealing

/-!
# Opening objects and names (`internal/notecrypto/notecrypto.go`)

What the Go client reads of a plaintext once it has opened it. How `encoding/json` parses bytes is a parameter, its reading
of a value is not.
-/

namespace KyNotes.Content.Notecrypto

open Check Json

def objectLabel : Bytes := Utf16.utf8 "kynotes/object/v1"

def metaLabel : Bytes := Utf16.utf8 "kynotes/container-meta/v1"

def kindObject : Bytes := Utf16.utf8 "object"

variable (A : Aead UInt8) (json : Bytes → Option Json)

/-- `OpenObject`. -/
def openObject (key container id sealed : Bytes) (v1 : Bool) : Except String Payload := do
  let (plaintext, _) ← openSealed A key ⟨container, id, kindObject⟩ objectLabel sealed v1
  fetch ((json plaintext).bind parsePayload) "notecrypto: invalid object payload"

/-- A letter under which `encoding/json` finds a field: capitals, the long s and the Kelvin sign are folded. -/
def foldRune (c : Char) : Char :=
  if 'A' ≤ c ∧ c ≤ 'Z' then c.toLower else if c = '\u017f' then 's' else if c = '\u212a' then 'k' else c

/-- The members of a name: nothing is nil. -/
structure Meta where
  name : Option String
  objects : Option Json

/-- One member of a name; nothing where its value has another type. -/
def setMember (m : Meta) (k : String) (v : Json) : Option Meta :=
  let field := k.toList.map foldRune
  if field = "name".toList then
    match v with
    | .str s => some { m with name := some s }
    | .null => some { m with name := none }
    | _ => none
  else if field = "objects".toList then
    match v with
    | .null => some { m with objects := none }
    | v => some { m with objects := some v }
  else some m

/-- `json.Unmarshal` into the members of a name. -/
def unmarshalMeta (v : Json) : Option Meta :=
  match v with
  | .obj members =>
    if v.depth ≤ maxNestingDepth then members.foldlM (fun m x => setMember m x.1 x.2) ⟨none, none⟩ else none
  | .null => some ⟨none, none⟩
  | _ => none

/-- `meta.Objects == float64(2)`. -/
def Meta.marked (m : Meta) : Bool :=
  match m.objects with
  | some (.num x) => x = 2
  | _ => false

/-- `OpenContainerName`: the name, and whether it is a v2 one with the marker. -/
def openContainerName (key container sealed : Bytes) (v1 : Bool) : Except String (String × Bool) := do
  let (plaintext, legacy) ← openSealed A key ⟨container, container, kindContainerMeta⟩ metaLabel sealed v1
  match (json plaintext).bind unmarshalMeta with
  | some ⟨some name, objects⟩ => .ok (name, !legacy && Meta.marked ⟨some name, objects⟩)
  | _ => .error "notecrypto: invalid workspace metadata"

variable {A} in
/-- Where the older form is refused, only the v2 form opens. -/
theorem openSealed_v2_only {key label sealed p : Bytes} {T : Place Bytes} {legacy : Bool}
    (h : openSealed A key T label sealed false = .ok (p, legacy)) : legacy = false := by
  unfold openSealed at h
  simp only [bind_ok] at h
  obtain ⟨-, -, h⟩ := h
  split at h
  · split at h
    · cases h
      rfl
    · cases h
  · cases h

end KyNotes.Content.Notecrypto
