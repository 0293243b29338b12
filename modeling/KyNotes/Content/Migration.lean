import KyNotes.Content.Payload
import KyNotes.Lib.History

/-!
# The background migration of a notebook

`migrateNotebook` of `web/src/migrate.ts`: it re-saves what is not v2 yet and writes the marker last. The operations of
its environment are requests, and any of them may be refused or throw.

* `told_saveAll`: the first loop answers that all is done only where every object is settled;
* `told_anyConflict`: the second one only where every page was found without a conflict of the old form;
* `migration_requests`: so every request of every run, the marker above all, is one of those that are allowed then.
-/

namespace KyNotes.Content

open Interaction

inductive ObjectType where
  | page
  | sect
  | group
  deriving DecidableEq, Repr

/-- One object as the notebook load read it. -/
structure LoadedObject where
  id : String
  type : ObjectType
  v1 : Bool
  legacy : Option Legacy := none

/-- The operations of the environment. -/
inductive MigrationReq where
  | pins (pageID : String)
  | savePage (id : String) (legacy : Legacy)
  | saveStructure (kind : ObjectType) (id : String)
  | legacyConflict (pageID : String)
  | mark

abbrev MigrationVal : MigrationReq → Type
  | .pins _ => Legacy
  | .savePage _ _ | .saveStructure _ _ | .legacyConflict _ | .mark => Bool

inductive MigrationResult where
  | migrated
  | incomplete
  | conflicts
  deriving DecidableEq, Repr

variable {ε : Type}

/-- What throws, throws an `ε`. -/
abbrev Migration (ε α : Type) := Action Unit ε MigrationReq MigrationVal α

namespace Migration

def pins (pageID : String) : Migration ε Legacy := Action.call (MigrationReq.pins pageID)

def savePage (id : String) (legacy : Legacy) : Migration ε Bool := Action.call (MigrationReq.savePage id legacy)

def saveStructure (kind : ObjectType) (id : String) : Migration ε Bool := Action.call (MigrationReq.saveStructure kind id)

def legacyConflict (pageID : String) : Migration ε Bool := Action.call (MigrationReq.legacyConflict pageID)

def mark : Migration ε Bool := Action.call MigrationReq.mark

end Migration

open Migration

/-- v2 already, and pinned when it is a page. -/
def LoadedObject.done (o : LoadedObject) : Bool := if o.type ≠ .page then !o.v1 else !o.v1 && o.legacy.isSome

def saveObject (o : LoadedObject) : Migration ε Bool :=
  if o.type = .page then do
    let legacy ← pins o.id
    savePage o.id legacy
  else saveStructure o.type o.id

/-- The loop that re-saves. -/
def saveAll : List LoadedObject → Bool → Migration ε Bool
  | [], complete => pure complete
  | o :: objects, complete =>
    if o.done then saveAll objects complete
    else do
      match ← Action.attempt (saveObject o) with
      | .ok saved => saveAll objects (complete && saved)
      | .error _ => saveAll objects false

/-- The loop over the conflicts; nothing where they cannot be listed. -/
def anyConflict : List LoadedObject → Bool → Migration ε (Option Bool)
  | [], conflicts => pure (some conflicts)
  | o :: objects, conflicts =>
    if o.type ≠ .page then anyConflict objects conflicts
    else do
      match ← Action.attempt (legacyConflict o.id) with
      | .ok found => anyConflict objects (found || conflicts)
      | .error _ => pure none

def migrateNotebook (objects : List LoadedObject) (unreadable : Nat) (migrated : Bool) : Migration ε MigrationResult :=
  if migrated then pure .migrated
  else do
    let complete ← saveAll objects (unreadable == 0)
    if !complete then pure .incomplete
    else
      match ← anyConflict objects false with
      | none => pure .incomplete
      | some true => pure .conflicts
      | some false => do
        let marked ← mark
        pure (if marked then .migrated else .incomplete)

/-! ## What a run may ask -/

/-- What has been asked and answered. -/
abbrev MigrationLog (ε : Type) := List (Event MigrationReq fun r => Except ε (MigrationVal r))

/-- The object was saved v2 in this pass, a page with the pins that were found. -/
def Resaved (h : MigrationLog ε) (o : LoadedObject) : Prop :=
  if o.type = .page then
    ∃ legacy : Legacy, ⟨.pins o.id, .ok legacy⟩ ∈ h ∧ ⟨.savePage o.id legacy, .ok true⟩ ∈ h
  else ⟨.saveStructure o.type o.id, .ok true⟩ ∈ h

/-- What the marker needs: everything was readable, every object is v2, and no page has a conflict of the old form. -/
structure Complete (objects : List LoadedObject) (unreadable : Nat) (h : MigrationLog ε) : Prop where
  readable : unreadable = 0
  settled : ∀ o ∈ objects, o.done = true ∨ Resaved h o
  clear : ∀ o ∈ objects, o.type = .page → ⟨.legacyConflict o.id, .ok false⟩ ∈ h

/-- The requests that are allowed: reads, re-saves of the objects, and the marker when it is due. -/
def Allowed (objects : List LoadedObject) (unreadable : Nat) (h : MigrationLog ε) : MigrationReq → Prop
  | .pins _ | .legacyConflict _ => True
  | .savePage id legacy => (∃ o ∈ objects, o.type = .page ∧ o.id = id) ∧ ⟨.pins id, .ok legacy⟩ ∈ h
  | .saveStructure kind id => kind ≠ .page ∧ ∃ o ∈ objects, o.type = kind ∧ o.id = id
  | .mark => Complete objects unreadable h

variable {objects : List LoadedObject} {unreadable : Nat} {h h' : MigrationLog ε} {u : Unit}

theorem Resaved.mono {o : LoadedObject} (hr : Resaved h o) (hh : h <+: h') : Resaved h' o := by
  unfold Resaved at hr ⊢
  split at hr
  · obtain ⟨legacy, hp, hs⟩ := hr
    rw [if_pos ‹_›]
    exact ⟨legacy, hh.subset hp, hh.subset hs⟩
  · rw [if_neg ‹_›]
    exact hh.subset hr

/-- A save that answers `true` has saved the object. -/
theorem told_saveObject {o : LoadedObject} (ho : o ∈ objects) :
    Action.Told (Allowed objects unreadable) (saveObject o)
      (fun _ h' saved => h <+: h' ∧ (saved = true → Resaved h' o)) (fun _ h' (_ : ε) => h <+: h') u h := by
  unfold saveObject pins savePage saveStructure
  by_cases hp : o.type = .page
  · rw [if_pos hp]
    refine Action.told_bind (Action.told_call trivial (fun legacy => ?_) fun e => List.prefix_append _ _)
    have hpins : (⟨.pins o.id, .ok legacy⟩ : Event MigrationReq fun r => Except ε (MigrationVal r)) ∈
        h ++ [⟨.pins o.id, .ok legacy⟩] := List.mem_append_right _ List.mem_cons_self
    refine Action.told_call ⟨⟨o, ho, hp, rfl⟩, hpins⟩ (fun saved => ⟨?_, ?_⟩) fun e => ?_
    · rw [List.append_assoc]
      exact List.prefix_append _ _
    · rintro rfl
      unfold Resaved
      rw [if_pos hp]
      exact ⟨legacy, List.mem_append_left _ hpins, List.mem_append_right _ List.mem_cons_self⟩
    · rw [List.append_assoc]
      exact List.prefix_append _ _
  · rw [if_neg hp]
    refine Action.told_call ⟨hp, o, ho, rfl, rfl⟩ (fun saved => ⟨List.prefix_append _ _, ?_⟩) fun e => List.prefix_append _ _
    rintro rfl
    unfold Resaved
    rw [if_neg hp]
    exact List.mem_append_right _ List.mem_cons_self

/-- The first loop answers `true` only where every object is settled; it never throws. -/
theorem told_saveAll {rest : List LoadedObject} (hrest : ∀ o ∈ rest, o ∈ objects) (complete : Bool) :
    Action.Told (Allowed objects unreadable) (saveAll rest complete)
      (fun _ h' answer => h <+: h' ∧ (answer = true → complete = true ∧ ∀ o ∈ rest, o.done = true ∨ Resaved h' o))
      (fun _ _ (_ : ε) => False) u h := by
  induction rest generalizing complete h u with
  | nil => exact Action.told_pure ⟨List.prefix_refl h, fun hc => ⟨hc, nofun⟩⟩
  | cons o rest ih =>
    have hmem : ∀ o ∈ rest, o ∈ objects := fun o ho => hrest o (List.mem_cons_of_mem _ ho)
    rw [saveAll]
    split
    · rename_i hdone
      refine Action.told_mono (ih hmem complete) (fun _ h' answer hq => ⟨hq.1, fun ha => ?_⟩) fun _ _ _ => False.elim
      exact ⟨(hq.2 ha).1, List.forall_mem_cons.mpr ⟨Or.inl hdone, (hq.2 ha).2⟩⟩
    · refine Action.told_bind (Action.told_attempt (Action.told_mono (told_saveObject (hrest o List.mem_cons_self))
        (fun _ h₁ saved h₁s => ?_) fun _ h₁ e h₁e => ?_))
      · refine Action.told_mono (ih hmem (complete && saved)) (fun _ h' answer hq => ⟨h₁s.1.trans hq.1, fun ha => ?_⟩)
          fun _ _ _ => False.elim
        obtain ⟨hcs, hall⟩ := hq.2 ha
        rw [Bool.and_eq_true] at hcs
        exact ⟨hcs.1, List.forall_mem_cons.mpr ⟨Or.inr ((h₁s.2 hcs.2).mono hq.1), hall⟩⟩
      · refine Action.told_mono (ih hmem false) (fun _ h' answer hq => ⟨h₁e.trans hq.1, fun ha => ?_⟩) fun _ _ _ => False.elim
        exact absurd (hq.2 ha).1 Bool.false_ne_true

/-- The second loop answers `some false` only where every page was found clear; it never throws. -/
theorem told_anyConflict {rest : List LoadedObject} (conflicts : Bool) :
    Action.Told (Allowed objects unreadable) (anyConflict rest conflicts)
      (fun _ h' answer => h <+: h' ∧ (answer = some false →
        conflicts = false ∧ ∀ o ∈ rest, o.type = .page → ⟨.legacyConflict o.id, .ok false⟩ ∈ h'))
      (fun _ _ (_ : ε) => False) u h := by
  induction rest generalizing conflicts h u with
  | nil => exact Action.told_pure ⟨List.prefix_refl h, fun hc => ⟨Option.some.inj hc, nofun⟩⟩
  | cons o rest ih =>
    rw [anyConflict]
    split
    · rename_i hpage
      refine Action.told_mono (ih conflicts) (fun _ h' answer hq => ⟨hq.1, fun ha => ?_⟩) fun _ _ _ => False.elim
      exact ⟨(hq.2 ha).1, List.forall_mem_cons.mpr ⟨fun hp => absurd hp hpage, (hq.2 ha).2⟩⟩
    · unfold legacyConflict
      refine Action.told_bind (Action.told_attempt (Action.told_call trivial (fun found => ?_) fun e => ?_))
      · refine Action.told_mono (ih (found || conflicts))
          (fun _ h' answer hq => ⟨(List.prefix_append _ _).trans hq.1, fun ha => ?_⟩) fun _ _ _ => False.elim
        obtain ⟨hfc, hall⟩ := hq.2 ha
        obtain ⟨rfl, hc⟩ := Bool.or_eq_false_iff.mp hfc
        refine ⟨hc, List.forall_mem_cons.mpr ⟨fun _ => hq.1.subset ?_, hall⟩⟩
        exact List.mem_append_right _ List.mem_cons_self
      · exact Action.told_pure ⟨List.prefix_append _ _, nofun⟩

/-- The whole pass. -/
theorem told_migrateNotebook (objects : List LoadedObject) (unreadable : Nat) :
    Action.Told (Allowed objects unreadable) (migrateNotebook objects unreadable false)
      (fun _ _ _ => True) (fun _ _ (_ : ε) => True) () [] := by
  unfold migrateNotebook
  rw [if_neg Bool.false_ne_true]
  refine Action.told_bind (Action.told_mono (told_saveAll (fun _ ho => ho) _) (fun _ h₁ complete hc => ?_) fun _ _ _ =>
    False.elim)
  cases complete with
  | false => exact Action.told_pure trivial
  | true =>
    obtain ⟨hreadable, hsettled⟩ := hc.2 rfl
    refine Action.told_bind (Action.told_mono (told_anyConflict false) (fun _ h₂ answer ha => ?_) fun _ _ _ => False.elim)
    obtain _ | _ | _ := answer
    · exact Action.told_pure trivial
    · -- the marker, after both loops
      have hdue : Complete objects unreadable h₂ :=
        { readable := eq_of_beq hreadable
          settled := fun o ho => (hsettled o ho).imp_right fun hr => hr.mono ha.1
          clear := (ha.2 rfl).2 }
      exact Action.told_bind (Action.told_call hdue (fun _ => Action.told_pure trivial) fun _ => trivial)
    · exact Action.told_pure trivial

/-- Whatever is answered, every request of a pass is a read, a re-save of an object that was loaded, or the marker of a
notebook that is complete; a migrated notebook gets no request at all. -/
theorem migration_requests (objects : List LoadedObject) (unreadable : Nat) (migrated : Bool) {h : MigrationLog ε}
    {r : MigrationReq} {k : Except ε (MigrationVal r) → Prog MigrationReq _ (Unit × Except ε MigrationResult)}
    (hr : Reaches (migrateNotebook objects unreadable migrated ()) h (.ask r k)) :
    migrated = false ∧ Allowed objects unreadable h r := by
  cases migrated with
  | true => cases hr
  | false => exact ⟨rfl, ((told_migrateNotebook objects unreadable).reaches hr).1⟩

/-- One page that is re-saved and has no conflict: the marker is asked for, and it is due. -/
theorem migration_requests_page :
    false = false ∧ Allowed (ε := Unit) [⟨"obj", .page, true, none⟩] 0
      [⟨.pins "obj", .ok ∅⟩, ⟨.savePage "obj" ∅, .ok true⟩, ⟨.legacyConflict "obj", .ok false⟩] .mark :=
  migration_requests [⟨"obj", .page, true, none⟩] 0 false (.answered (.answered (.answered .here)))

end KyNotes.Content
