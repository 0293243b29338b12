import KyNotes.Web.Floors

/-!
# Rollback

* `KeyFloor.Below`: neither generation falls. `mergeFloor` is above both of its floors.
* `heardFloor`: the loaded floor of a container, or the minimum that other tabs have told of it. No event but
  `clearFloors` lowers it (`next_heard`), or unloads a floor (`next_floor`).
* `rollback_floor`: what the tab writes and reads with stays at or above a floor that it has had.
-/

namespace KyNotes.Web

open Relational Transition

variable {w : Floors} {ev : FloorEvent} {containerID : JsString} {f f' f'' : KeyFloor} {ring : Keyring}
  {container : KeyedContainer}

/-- `shared ?? 0` and `generation ?? 0`. -/
def KeyFloor.sharedSeen (f : KeyFloor) : Num := f.shared.getD 0

def KeyFloor.generationSeen (f : KeyFloor) : Num := f.generation.getD 0

/-- Neither generation is lower in the second floor. -/
structure KeyFloor.Below (f f' : KeyFloor) : Prop where
  shared : f.sharedSeen ≤ f'.sharedSeen
  generation : f.generationSeen ≤ f'.generationSeen

theorem KeyFloor.Below.refl (f : KeyFloor) : f.Below f := ⟨le_refl _, le_refl _⟩

theorem KeyFloor.Below.trans (h : f.Below f') (h' : f'.Below f'') : f.Below f'' :=
  ⟨h.shared.trans h'.shared, h.generation.trans h'.generation⟩

theorem mergeFloor_left (f next : KeyFloor) : f.Below (mergeFloor (some f) next) :=
  ⟨le_max_left _ _, le_max_left _ _⟩

theorem mergeFloor_right (floor : Option KeyFloor) (next : KeyFloor) : next.Below (mergeFloor floor next) :=
  ⟨le_max_right _ _, le_max_right _ _⟩

/-! ## Events -/

/-- The floor of a container that the tab has loaded, or the minimum that it applies when it loads one. -/
def heardFloor (w : Floors) (containerID : JsString) : Option KeyFloor :=
  (floorOf w containerID).or (w.pending containerID)

theorem merge_self (w : Floors) (id : JsString) (floor : KeyFloor) : floorOf (w.merge id floor) id =
    some (mergeFloor (some (mergeFloor (w.floors id) floor)) ((w.pending id).getD NO_FLOOR)) :=
  Function.update_self ..

theorem merge_other {id : JsString} (h : containerID ≠ id) (floor : KeyFloor) :
    floorOf (w.merge id floor) containerID = floorOf w containerID ∧
      (w.merge id floor).pending containerID = w.pending containerID :=
  ⟨Function.update_of_ne h .., Function.update_of_ne h ..⟩

theorem merge_floor (h : floorOf w containerID = some f) (id : JsString) (floor : KeyFloor) :
    ∃ f', floorOf (w.merge id floor) containerID = some f' ∧ f.Below f' := by
  by_cases hid : containerID = id
  · subst hid
    refine ⟨_, merge_self .., ?_⟩
    have hf : w.floors containerID = some f := h
    rw [hf]
    exact (mergeFloor_left f floor).trans (mergeFloor_left _ _)
  · exact ⟨f, (merge_other hid floor).1.trans h, .refl f⟩

theorem merge_heard (h : heardFloor w containerID = some f) (id : JsString) (floor : KeyFloor) :
    ∃ f', heardFloor (w.merge id floor) containerID = some f' ∧ f.Below f' := by
  rcases Option.or_eq_some_iff.mp h with hf | ⟨hf, hp⟩
  · obtain ⟨f', hf', hb⟩ := merge_floor hf id floor
    exact ⟨f', Option.or_eq_some_iff.mpr (Or.inl hf'), hb⟩
  · by_cases hid : containerID = id
    · -- the floor loads, and the minimum is applied
      subst hid
      refine ⟨_, Option.or_eq_some_iff.mpr (Or.inl (merge_self ..)), ?_⟩
      rw [hp]
      exact mergeFloor_right _ _
    · obtain ⟨hf', hp'⟩ := merge_other hid floor
      exact ⟨f, Option.or_eq_some_iff.mpr (Or.inr ⟨hf'.trans hf, hp'.trans hp⟩), .refl f⟩

theorem onmessage_floor (h : floorOf w containerID = some f) (data : FloorMessage) :
    ∃ f', floorOf (onmessage w data) containerID = some f' ∧ f.Below f' := by
  unfold onmessage
  split
  · exact ⟨f, h, .refl f⟩
  · split_ifs
    · exact ⟨f, h, .refl f⟩
    · exact merge_floor h _ _
    · exact ⟨f, h, .refl f⟩

theorem onmessage_heard (h : heardFloor w containerID = some f) (data : FloorMessage) :
    ∃ f', heardFloor (onmessage w data) containerID = some f' ∧ f.Below f' := by
  unfold onmessage
  split
  · exact ⟨f, h, .refl f⟩
  · rename_i id _
    split_ifs with _ hl
    · exact ⟨f, h, .refl f⟩
    · exact merge_heard h _ _
    · rcases Option.or_eq_some_iff.mp h with hf | ⟨hf, hp⟩
      · exact ⟨f, Option.or_eq_some_iff.mpr (Or.inl hf), .refl f⟩
      · by_cases hid : containerID = id
        · subst hid
          refine ⟨_, Option.or_eq_some_iff.mpr (Or.inr ⟨hf, Function.update_self ..⟩), ?_⟩
          rw [hp]
          exact mergeFloor_left f _
        · refine ⟨f, Option.or_eq_some_iff.mpr (Or.inr ⟨hf, ?_⟩), .refl f⟩
          exact (Function.update_of_ne hid ..).trans hp

/-- No event but `clearFloors` lowers or unloads a floor. -/
theorem next_floor (hc : ev ≠ .clearFloors) (h : floorOf w containerID = some f) :
    ∃ f', floorOf (w.next ev) containerID = some f' ∧ f.Below f' := by
  cases ev with
  | observe container stored =>
    simp only [Floors.next, observeContainer, publishFloor]
    split_ifs
    · exact merge_floor h _ _
    · exact ⟨f, h, .refl f⟩
  | raise id floor => exact merge_floor h id floor
  | message data => exact onmessage_floor h data
  | clearFloors => exact absurd rfl hc

/-- No event but `clearFloors` lowers what a tab has heard. -/
theorem next_heard (hc : ev ≠ .clearFloors) (h : heardFloor w containerID = some f) :
    ∃ f', heardFloor (w.next ev) containerID = some f' ∧ f.Below f' := by
  cases ev with
  | observe container stored =>
    simp only [Floors.next, observeContainer, publishFloor]
    split_ifs
    · exact merge_heard h _ _
    · exact ⟨f, h, .refl f⟩
  | raise id floor => exact merge_heard h id floor
  | message data => exact onmessage_heard h data
  | clearFloors => exact absurd rfl hc

/-- What every event but `clearFloors` keeps up, a run without it keeps up. -/
theorem run_rises (look : Floors → Option KeyFloor)
    (hs : ∀ w ev f, ev ≠ .clearFloors → look w = some f → ∃ f', look (w.next ev) = some f' ∧ f.Below f') :
    ∀ {evs : List FloorEvent} {w : Floors} {f : KeyFloor}, .clearFloors ∉ evs → look w = some f →
      ∃ f', look (run Floors.next w evs) = some f' ∧ f.Below f'
  | [], _, f, _, h => ⟨f, h, .refl f⟩
  | ev :: evs, w, f, hc, h => by
    obtain ⟨f₁, h₁, hb₁⟩ := hs w ev f (fun he => hc (he ▸ List.mem_cons_self)) h
    obtain ⟨f₂, h₂, hb₂⟩ := run_rises look hs (fun hm => hc (List.mem_cons_of_mem _ hm)) h₁
    exact ⟨f₂, h₂, hb₁.trans hb₂⟩

/-! ## Key choices -/

/-- The write key is that of the current generation, and the server reports nothing lower than the floor. -/
theorem writeKey_some {write : WriteKey} (h : writeKey container ring f = some write) :
    f.sharedSeen ≤ container.sharedGeneration ∧ f.generationSeen ≤ container.keyGeneration ∧
      write.generation = container.keyGeneration ∧ ring.lookup write.generation = some write.key := by
  unfold writeKey guardContainer at h
  simp only at h
  split_ifs at h with hr
  obtain ⟨key, hk, rfl⟩ := Option.map_eq_some_iff.mp h
  simp only [Bool.or_eq_true, decide_eq_true_eq, not_or, not_lt] at hr
  obtain ⟨⟨hs, hg⟩, -⟩ := hr
  exact ⟨hs, hg, max_eq_left hg, hk⟩

theorem writeKeyFor_some {write : WriteKey} (h : writeKeyFor w ring container = some write) :
    ∃ f, floorOf w container.id = some f ∧ writeKey container ring f = some write := by
  unfold writeKeyFor at h
  split at h
  · cases h
  · rename_i f hf
    split at h
    · exact ⟨f, hf, h⟩
    · cases h

theorem readKeys_low {shared generation : Num} (h : generation < f.sharedSeen) :
    readKeys shared ring (some generation) f = [] := by
  unfold readKeys
  simp only
  rw [if_pos]
  exact Or.inr (Or.inr (lt_of_lt_of_le h (le_max_right _ _)))

/-- **Rollback floor.** Whatever reaches a tab short of `clearFloors`, the floor of a container only rises, loaded or
pending; from a floor on, the tab writes at no lower generation, with no key while the server reports a lower state, and
reads no row below the first keyed generation. While the floor is not loaded, it sends nothing. -/
theorem rollback_floor :
    (∀ (w : Floors) (evs : List FloorEvent), .clearFloors ∉ evs → ∀ (containerID : JsString) (floor : KeyFloor),
      (floorOf w containerID = some floor →
        ∃ floor', floorOf (run Floors.next w evs) containerID = some floor' ∧ floor.Below floor') ∧
      (heardFloor w containerID = some floor →
        (∃ floor', heardFloor (run Floors.next w evs) containerID = some floor' ∧ floor.Below floor') ∧
        ∀ (ring : Keyring) (container : KeyedContainer), container.id = containerID →
          (∀ write, writeKeyFor (run Floors.next w evs) ring container = some write →
            floor.generationSeen ≤ write.generation ∧ ring.lookup write.generation = some write.key) ∧
          (container.sharedGeneration < floor.sharedSeen ∨ container.keyGeneration < floor.generationSeen →
            writeKeyFor (run Floors.next w evs) ring container = none) ∧
          ∀ generation, generation < floor.sharedSeen →
            readKeysFor (run Floors.next w evs) ring container (some generation) = [])) ∧
    ∀ (w : Floors) (ring : Keyring) (container : KeyedContainer), floorOf w container.id = none →
      writeKeyFor w ring container = none ∧ ∀ generation, sendCiphertext w ring container generation = false := by
  constructor
  · intro w evs hc containerID floor
    refine ⟨run_rises (floorOf · containerID) (fun _ _ _ => next_floor) hc, fun hheard => ?_⟩
    obtain ⟨f', hf', hb⟩ := run_rises (heardFloor · containerID) (fun _ _ _ => next_heard) hc hheard
    refine ⟨⟨f', hf', hb⟩, ?_⟩
    rintro ring container rfl
    generalize run Floors.next w evs = w' at *
    -- a loaded floor is what has been heard
    have hloaded : ∀ g, floorOf w' container.id = some g → floor.Below g := by
      intro g hg
      have : heardFloor w' container.id = some g := Option.or_eq_some_iff.mpr (Or.inl hg)
      rw [hf'] at this
      cases this
      exact hb
    refine ⟨fun write hw => ?_, fun hlow => ?_, fun generation hlow => ?_⟩
    · obtain ⟨g, hg, hw⟩ := writeKeyFor_some hw
      obtain ⟨-, hgen, heq, hring⟩ := writeKey_some hw
      exact ⟨heq ▸ (hloaded g hg).generation.trans hgen, hring⟩
    · cases hw : writeKeyFor w' ring container with
      | none => rfl
      | some write =>
        obtain ⟨g, hg, hw⟩ := writeKeyFor_some hw
        obtain ⟨hs, hgen, -, -⟩ := writeKey_some hw
        rcases hlow with hlow | hlow
        · exact absurd ((hloaded g hg).shared.trans hs) (not_le.mpr hlow)
        · exact absurd ((hloaded g hg).generation.trans hgen) (not_le.mpr hlow)
    · unfold readKeysFor
      split
      · rfl
      · rename_i g hg
        exact readKeys_low (hlow.trans_le (hloaded g hg).shared)
  · intro w ring container hnone
    have hwrite : writeKeyFor w ring container = none := by
      unfold writeKeyFor
      rw [hnone]
    refine ⟨hwrite, fun generation => ?_⟩
    unfold sendCiphertext
    rw [hwrite]
    rfl

/-- A tab that has seen shared generation 2 keeps its pen down when the server reports 1, whatever storage holds. -/
theorem rollback_floor_lower : writeKeyFor (run Floors.next (raiseFloorIn .empty [99] ⟨some 2, some 3⟩)
    [.raise [99] ⟨some 1, some 1⟩]) Table.empty ⟨[99], 3, 1⟩ = none := by
  have hseen : (1 : Num) < KeyFloor.sharedSeen (mergeFloor (some (mergeFloor none ⟨some 2, some 3⟩)) NO_FLOOR) := by
    decide +kernel
  exact ((rollback_floor.1 (raiseFloorIn .empty [99] ⟨some 2, some 3⟩) [.raise [99] ⟨some 1, some 1⟩] (by simp) [99] _).2
    (Option.or_eq_some_iff.mpr (Or.inl (merge_self ..)))).2 Table.empty ⟨[99], 3, 1⟩ rfl |>.2.1 (Or.inl hseen)

end KyNotes.Web
