import KyNotes.Lib.Run
import KyNotes.Web.Keyring

/-!
# Sharing floors of a tab

`floors.ts` and `observe.ts`: the one floor that a tab keeps in memory for each container, raised by what the server
reports, by what storage holds and by what other tabs say. Every key choice of the tab goes through it (`writeKeyFor`,
`readKeysFor`, `sendCiphertext`).
-/

namespace KyNotes.Web

/-- `floors` and `pending`: a pending floor is only a minimum for when the stored one loads. -/
structure Floors where
  floors : JsString → Option KeyFloor
  pending : JsString → Option KeyFloor

/-- A new tab, and a tab after `clearFloors`. -/
def Floors.empty : Floors := ⟨fun _ => none, fun _ => none⟩

def NO_FLOOR : KeyFloor := ⟨none, none⟩

/-- `floorOf`: nothing while it is not loaded. -/
def floorOf (w : Floors) (containerID : JsString) : Option KeyFloor := w.floors containerID

/-- `merge`: the pending minimum is applied and dropped. -/
def Floors.merge (w : Floors) (containerID : JsString) (floor : KeyFloor) : Floors where
  floors := Function.update w.floors containerID
    (some (mergeFloor (some (mergeFloor (w.floors containerID) floor)) ((w.pending containerID).getD NO_FLOOR)))
  pending := Function.update w.pending containerID none

/-- `raiseFloorIn`, less the message to the other tabs. -/
def raiseFloorIn (w : Floors) (containerID : JsString) (floor : KeyFloor) : Floors := w.merge containerID floor

/-- The message to the other tabs after a raise. -/
structure FloorMessage where
  /-- Nothing when it is not a string. -/
  containerID : Option JsString
  /-- Nothing when it is not a number. -/
  shared : Option Num
  generation : Option Num

/-- `count`. -/
def count (value : Option Num) : Bool := value.any fun x => isSafeInteger x && 0 ≤ x

/-- `channel.onmessage`, for any data. -/
def onmessage (w : Floors) (data : FloorMessage) : Floors :=
  match data.containerID with
  | none => w
  | some containerID =>
    if !isId .cnt containerID || !count data.shared || !count data.generation then w
    else if (w.floors containerID).isSome then w.merge containerID ⟨data.shared, data.generation⟩
    else { w with
      pending := Function.update w.pending containerID
        (some (mergeFloor (w.pending containerID) ⟨data.shared, data.generation⟩)) }

def publishFloor (w : Floors) (containerID : JsString) (floor : KeyFloor) (loaded : Bool) : Floors :=
  if loaded || (w.floors containerID).isSome then raiseFloorIn w containerID floor else w

/-- A container as the server reports it. -/
structure Reported where
  id : JsString
  keyGeneration : Option Num
  sharedGeneration : Option Num

/-- `observeContainer` from the end of its load on; `stored` is nothing when storage could not be read. -/
def observeContainer (w : Floors) (container : Reported) (stored : Option KeyFloor) : Floors :=
  let seen : KeyFloor := ⟨some (container.sharedGeneration.getD 0), some (container.keyGeneration.getD 0)⟩
  publishFloor w container.id (mergeFloor stored seen) stored.isSome

/-! ## Key choices -/

/-- `writeKeyFor` of `main.tsx`. -/
def writeKeyFor (w : Floors) (ring : Keyring) (container : KeyedContainer) : Option WriteKey :=
  match floorOf w container.id with
  | none => none
  | some floor => if keysAllowed container floor then writeKey container ring floor else none

/-- `readKeysFor` of `main.tsx`. -/
def readKeysFor (w : Floors) (ring : Keyring) (container : KeyedContainer) (generation : Option Num) : List KeyRef :=
  match floorOf w container.id with
  | none => []
  | some floor => readKeys container.sharedGeneration ring generation floor

inductive SaveStep | send | reseal | wait
deriving DecidableEq

def queuedSaveStep (floor : Option KeyFloor) (generation : Option Num) (write : Option WriteKey) : SaveStep :=
  match write, floor with
  | some write, some _ => if generation = some write.generation then .send else .reseal
  | _, _ => .wait

/-- `sendCiphertext`: whether what was sealed for the container at the generation may leave. -/
def sendCiphertext (w : Floors) (ring : Keyring) (container : KeyedContainer) (generation : Num) : Bool :=
  queuedSaveStep (floorOf w container.id) (some generation) (writeKeyFor w ring container) = .send

/-- What reaches a tab. -/
inductive FloorEvent
  /-- The server reports a container, and what was loaded for it. -/
  | observe (container : Reported) (stored : Option KeyFloor)
  /-- A floor read from storage, or raised by a key pass. -/
  | raise (containerID : JsString) (floor : KeyFloor)
  /-- A message of another tab. -/
  | message (data : FloorMessage)
  | clearFloors

def Floors.next (w : Floors) : FloorEvent → Floors
  | .observe container stored => observeContainer w container stored
  | .raise containerID floor => raiseFloorIn w containerID floor
  | .message data => onmessage w data
  | .clearFloors => .empty

end KyNotes.Web
