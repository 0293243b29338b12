import KyNotes.Push.Reminders

/-!
# What a pass of `Fire` deletes

`Service.May` is what a pass may delete. `fire_deletes`: in every run in which no PUT request of an account whose pushes have
begun sets a reminder to a time up to the cutoff, a pass deletes nothing else. `put_is_dropped`: such a request is dropped
unpushed.
-/

namespace KyNotes.Push

/-! ## What is to hold -/

/-- The pushes of a turn decide that its reminders go. -/
def Turn.Decided (t : Turn) (now : Time) : Prop :=
  (∃ o ∈ t.outcomes, o ≠ .transient) ∨ t.subscriptions = [] ∨ t.account.active = false ∨
    parseTime t.account.oldest + retryFor ≤ now

/-- The turn that the server is in, with its pass. -/
def Service.InTurn (s : Service) (p : Pass) (t : Turn) : Prop := s.pass = some p ∧ p.turn = some t

/-- A reminder that the pass may delete: it had its time before the pushes of its account began, and they decide that it
goes. -/
def Service.May (s : Service) (r : Reminder) : Prop :=
  ∃ p t, s.InTurn p t ∧ (∃ h ∈ t.held, h.id = r.id ∧ h.due = r.due) ∧ t.Decided p.now

def Label.isFire : Label → Bool
  | .fire _ | .advance _ _ => true
  | _ => false

/-- A PUT request of the account whose pushes have begun changes nothing, or sets the time after the cutoff. -/
def Late (s : Service) : Label → Prop
  | .put user id body now => ∀ p t, s.InTurn p t → t.account.user = user →
      (put s user id body now).reminders = s.reminders ∨ ∀ due, body = some due → p.cutoff < due
  | _ => True

/-! ## The invariant -/

/-- The due rows of the account were there, with these times, when its pushes began. -/
def Held (rows : List Reminder) (p : Pass) (t : Turn) : Prop :=
  ∀ r ∈ rows, r.user = t.account.user → r.due ≤ p.cutoff → ∃ h ∈ t.held, h.id = r.id ∧ h.due = r.due

/-- What `retry` and `keep` say of the pushes so far. -/
def Turn.Tracks (t : Turn) : Prop :=
  match t.stage with
  | .asking => t.account.active = true ∧ t.outcomes = []
  | .pushing _ retry => t.account.active = true ∧ (retry = false → t.subscriptions = [] ∨ ∃ o ∈ t.outcomes, o ≠ .transient)
  | .deciding keep => keep = false → t.account.active = false ∨ t.subscriptions = [] ∨ ∃ o ∈ t.outcomes, o ≠ .transient

structure Inv (s : Service) : Prop where
  ids : (s.reminders.map Reminder.id).Nodup
  turn : ∀ p t, s.InTurn p t → Held s.reminders p t ∧ t.Tracks

theorem Held.subset {rows rows' : List Reminder} {p : Pass} {t : Turn} (h : Held rows p t) (hsub : ∀ r ∈ rows', r ∈ rows) :
    Held rows' p t :=
  fun r hr => h r (hsub r hr)

/-- The turn goes on with fewer rows. -/
theorem Inv.fewer {s s' : Service} (h : Inv s) (hrows : s'.reminders.Sublist s.reminders) (hpass : s'.pass = s.pass) :
    Inv s' := by
  refine ⟨h.ids.sublist (hrows.map _), fun p t ht => ?_⟩
  obtain ⟨hheld, htracks⟩ := h.turn p t (by rwa [Service.InTurn, ← hpass])
  exact ⟨hheld.subset fun r hr => hrows.subset hr, htracks⟩

/-- A pass that is in no turn. -/
theorem Inv.noTurn {s s' : Service} (h : Inv s) (hrows : s'.reminders.Sublist s.reminders)
    (hpass : ∀ p, s'.pass = some p → p.turn = none) : Inv s' := by
  refine ⟨h.ids.sublist (hrows.map _), fun p t ⟨hp, ht⟩ => ?_⟩
  rw [hpass p hp] at ht
  cases ht

/-! ## The requests -/

/-- What the transaction of a PUT request does. -/
theorem putTx_ok {rows rows' : List Reminder} {user id : String} {due : Stamp} {now : Time} (hids : (rows.map Reminder.id).Nodup)
    (h : putTx rows user id due now = .ok rows') : (rows'.map Reminder.id).Nodup ∧
      ∀ r ∈ rows', r ∈ rows ∨ r.user = user ∧ r.due = due := by
  unfold putTx at h
  split at h
  · next old hold =>
    split at h
    · cases h
    · next huser =>
      have huser : old.user = user := not_not.mp huser
      have hid : old.id = id := by simpa using List.find?_some hold
      have hold : old ∈ rows := List.mem_of_find?_eq_some hold
      cases h
      constructor
      · have hmap : (rows.map fun r => if r.id = id then { r with due } else r).map Reminder.id = rows.map Reminder.id := by
          rw [List.map_map]
          refine List.map_congr_left fun r _ => ?_
          simp only [Function.comp_apply]
          split <;> rfl
        rw [hmap]
        exact hids
      · intro r hr
        obtain ⟨r', hr', rfl⟩ := List.mem_map.mp hr
        split
        · next hr'id =>
          obtain rfl := List.inj_on_of_nodup_map hids hr' hold (hr'id.trans hid.symm)
          exact .inr ⟨huser, rfl⟩
        · exact .inl hr'
  · next hnone =>
    split at h
    · cases h
    · cases h
      constructor
      · rw [List.map_append, List.map_singleton, ← List.concat_eq_append]
        refine hids.concat fun hmem => ?_
        obtain ⟨r, hr, hrid⟩ := List.mem_map.mp hmem
        exact absurd (decide_eq_true hrid) (List.find?_eq_none.mp hnone r hr)
      · intro r hr
        rcases List.mem_append.mp hr with hr | hr
        · exact .inl hr
        · obtain rfl := List.mem_singleton.mp hr
          exact .inr ⟨rfl, rfl⟩

theorem put_cases (s : Service) (user id : String) (body : Option Stamp) (now : Time) : put s user id body now = s ∨
    ∃ due rows, body = some due ∧ putTx s.reminders user id due now = .ok rows ∧
      put s user id body now = { s with reminders := rows } := by
  unfold put
  cases body with
  | none => exact .inl rfl
  | some due =>
    dsimp only
    split
    · split
      · next rows hrows => exact .inr ⟨due, rows, rfl, hrows, rfl⟩
      · exact .inl rfl
    · exact .inl rfl

theorem put_inv {s : Service} (h : Inv s) {user id : String} {body : Option Stamp} {now : Time}
    (hc : Late s (.put user id body now)) : Inv (put s user id body now) := by
  rcases put_cases s user id body now with heq | ⟨due, rows, rfl, hrows, heq⟩
  · rw [heq]
    exact h
  · obtain ⟨hids, hnew⟩ := putTx_ok h.ids hrows
    have hreminders : (put s user id (some due) now).reminders = rows := by rw [heq]
    rw [heq]
    refine ⟨hids, fun p t ht => ?_⟩
    have ht : s.InTurn p t := ht
    obtain ⟨hheld, htracks⟩ := h.turn p t ht
    refine ⟨fun r hr huser hdue => ?_, htracks⟩
    rcases hnew r hr with hr' | ⟨hruser, hrdue⟩
    · exact hheld r hr' huser hdue
    · rcases hc p t ht (huser.symm.trans hruser) with hsame | hlate
      · exact hheld r (hsame ▸ hreminders ▸ hr) huser hdue
      · exact absurd hdue (Nat.not_le.mpr (hrdue ▸ hlate due rfl))

/-! ## The steps of a pass -/

/-- The turn goes on, in a stage that it tracks. -/
theorem Inv.goOn {s s' : Service} (h : Inv s) {p : Pass} {t t' : Turn} (ht : s.InTurn p t)
    (hpass : s'.pass = some { p with turn := some t' }) (htracks : t'.Tracks) (haccount : t'.account = t.account)
    (hheld : t'.held = t.held) (hrows : s'.reminders = s.reminders) : Inv s' := by
  refine ⟨hrows ▸ h.ids, fun p' t'' ⟨hp, ht'⟩ => ?_⟩
  rw [hpass] at hp
  cases hp
  cases ht'
  refine ⟨fun r hr huser hdue => ?_, htracks⟩
  rw [hheld]
  exact (h.turn p t ht).1 r (hrows ▸ hr) (haccount ▸ huser) hdue

theorem next_inv {s : Service} (h : Inv s) (p : Pass) : Inv (s.next p) := by
  unfold Service.next
  split
  · exact h
  · exact h.noTurn (List.Sublist.refl _) fun _ h => nomatch h
  · next d users _ =>
    refine ⟨h.ids, fun p' t ⟨hp', ht'⟩ => ?_⟩
    cases hp'
    cases ht'
    refine ⟨fun r hr huser _ => ⟨r, List.mem_filter.mpr ⟨hr, decide_eq_true huser⟩, rfl, rfl⟩, ?_⟩
    cases hactive : d.active with
    | true => exact ⟨hactive, rfl⟩
    | false => exact fun _ => .inl hactive

theorem decide_inv {s : Service} (h : Inv s) (p : Pass) (t : Turn) (keep : Bool) : Inv (s.decide p t keep) := by
  unfold Service.decide
  split
  · exact h.noTurn (List.Sublist.refl _) fun p' hp' => by cases hp'; rfl
  · exact h.noTurn List.filter_sublist fun p' hp' => by cases hp'; rfl

theorem advance_inv {s : Service} (h : Inv s) (outcome : Outcome) (fails : Bool) : Inv (s.advance outcome fails) := by
  unfold Service.advance
  split
  · exact h
  · next p hp =>
    split
    · exact h.noTurn (List.Sublist.refl _) fun _ h => nomatch h
    · split
      · next hnone =>
        split
        · exact h.noTurn (List.Sublist.refl _) fun p' hp' => by cases hp'; exact hnone
        · exact next_inv h p
      · next t ht =>
        have hturn : s.InTurn p t := ⟨hp, ht⟩
        obtain ⟨-, htracks⟩ := h.turn p t hturn
        rw [Turn.Tracks] at htracks
        split
        · next hstage =>
          rw [hstage] at htracks
          refine h.goOn hturn rfl ?_ rfl rfl rfl
          exact ⟨htracks.1, fun hretry => .inl (not_not.mp (of_decide_eq_false hretry))⟩
        · next retry hstage =>
          rw [hstage] at htracks
          refine h.goOn hturn rfl ?_ rfl rfl rfl
          exact fun hkeep => .inr (htracks.2 hkeep)
        · next sub subs retry hstage =>
          rw [hstage] at htracks
          refine h.goOn hturn rfl ?_ rfl rfl rfl
          refine ⟨htracks.1, fun hretry => ?_⟩
          by_cases hout : outcome = .transient
          · have hfalse : retry = false := by simpa [hout] using hretry
            refine (htracks.2 hfalse).imp_right fun ⟨o, ho, hne⟩ => ⟨o, List.mem_append_left _ ho, hne⟩
          · exact .inr ⟨outcome, List.mem_append_right _ List.mem_cons_self, hout⟩
        · next keep _ => exact decide_inv h p t keep

/-! ## Every run -/

theorem step_inv {s : Service} (h : Inv s) (l : Label) (hc : Late s l) : Inv (step s l) := by
  cases l with
  | tick d => exact h.fewer (List.Sublist.refl _) rfl
  | account user status =>
    cases status with
    | some active => exact h.fewer (List.Sublist.refl _) rfl
    | none => exact h.fewer List.filter_sublist rfl
  | subscriptions rows => exact h.fewer (List.Sublist.refl _) rfl
  | put user id body now =>
    simp only [step]
    split
    · exact put_inv h hc
    · exact h
  | remove user id =>
    simp only [step, remove]
    split
    · exact h.fewer List.filter_sublist rfl
    · exact h
  | fire now =>
    simp only [step, Service.fire]
    split
    · exact h
    · split
      · exact h.noTurn (List.Sublist.refl _) fun p hp => by cases hp; rfl
      · exact h
  | advance outcome fails => exact advance_inv h outcome fails

theorem start_inv (clock : Time) : Inv { clock } := by
  refine ⟨List.nodup_nil, fun p t ⟨hp, _⟩ => ?_⟩
  cases hp

/-- Only the end of a turn deletes, and only what is due. -/
theorem advance_takes {s : Service} {outcome : Outcome} {fails : Bool} {r : Reminder} (hr : r ∈ s.reminders)
    (hgone : r ∉ (s.advance outcome fails).reminders) : ∃ p t keep, s.InTurn p t ∧ t.stage = .deciding keep ∧
      ¬(keep = true ∧ p.now < parseTime t.account.oldest + retryFor) ∧ r.user = t.account.user ∧ r.due ≤ p.cutoff := by
  unfold Service.advance at hgone
  split at hgone
  · exact absurd hr hgone
  · next p hp =>
    split at hgone
    · exact absurd hr hgone
    · split at hgone
      · split at hgone
        · exact absurd hr hgone
        · unfold Service.next at hgone
          split at hgone <;> exact absurd hr hgone
      · next t ht =>
        split at hgone
        · exact absurd hr hgone
        · exact absurd hr hgone
        · exact absurd hr hgone
        · next keep hstage =>
          refine ⟨p, t, keep, ⟨hp, ht⟩, hstage, ?_⟩
          unfold Service.decide at hgone
          split at hgone
          · exact absurd hr hgone
          · next hkeep =>
            by_cases hdue : r.user = t.account.user ∧ r.due ≤ p.cutoff
            · exact ⟨hkeep, hdue⟩
            · exact absurd (List.mem_filter.mpr ⟨hr, by rw [decide_eq_false hdue]; rfl⟩) hgone

theorem Inv.may {s : Service} (h : Inv s) {l : Label} (hl : l.isFire = true) {r : Reminder} (hr : r ∈ s.reminders)
    (hgone : r ∉ (step s l).reminders) : s.May r := by
  cases l with
  | fire now =>
    simp only [step, Service.fire] at hgone
    split at hgone
    · exact absurd hr hgone
    · split at hgone <;> exact absurd hr hgone
  | advance outcome fails =>
    obtain ⟨p, t, keep, hturn, hstage, hkeep, huser, hdue⟩ := advance_takes hr hgone
    obtain ⟨hheld, htracks⟩ := h.turn p t hturn
    rw [Turn.Tracks, hstage] at htracks
    refine ⟨p, t, hturn, hheld r hr huser hdue, ?_⟩
    cases hk : keep with
    | false =>
      rcases htracks hk with hactive | hnone | hpushed
      · exact .inr (.inr (.inl hactive))
      · exact .inr (.inl hnone)
      · exact .inl hpushed
    | true => exact .inr (.inr (.inr (Nat.not_lt.mp fun hlt => hkeep ⟨hk, hlt⟩)))
  | tick | account | subscriptions | put | remove => cases hl

/-- In every run in which no PUT request of an account whose pushes have begun sets a reminder to a time up to the cutoff, a
step of `Fire` deletes only what had its time before the pushes of its account began, and only where they decide that it goes. -/
theorem fire_deletes (clock : Time) (labels : List Label) (h : Transition.Along step Late { clock } labels) (l : Label)
    (hl : l.isFire = true) (r : Reminder) (hr : r ∈ (Transition.run step { clock } labels).reminders)
    (hgone : r ∉ (step (Transition.run step { clock } labels) l).reminders) :
    (Transition.run step { clock } labels).May r :=
  (Transition.run_inv_of (fun _ l hs hc => step_inv hs l hc) h (start_inv clock)).may hl hr hgone

/-! ## A request while the pushes are under way -/

/-- Thirty seconds after a minute. -/
def sampleClock : Time := parseTime 1800000030

/-- An account with one reminder, whose pushes have begun; a request for a second one lands before the push is delivered. -/
def sampleLabels (due : Stamp) : List Label :=
  [.account "usr_1" (some true), .subscriptions [{ id := "wps_1", user := "usr_1", endpoint := "https://push.example.test/1" }],
    .put "usr_1" "00000000000000000000000001" (some 1800000000) sampleClock, .fire sampleClock,
    .advance .delivered false, .advance .delivered false, .advance .delivered false,
    .put "usr_1" "00000000000000000000000002" (some due) sampleClock, .advance .delivered false, .advance .delivered false]

/-- A request for the minute that has just passed, while the pushes are under way, is dropped unpushed. -/
theorem put_is_dropped : ∃ labels l r, Label.isFire l = true ∧
    r ∈ (Transition.run step { clock := sampleClock } labels).reminders ∧
    r ∉ (step (Transition.run step { clock := sampleClock } labels) l).reminders ∧
    ¬(Transition.run step { clock := sampleClock } labels).May r := by
  refine ⟨sampleLabels 1800000000, .advance .delivered false, ⟨"00000000000000000000000002", "usr_1", 1800000000, 1800000030⟩, rfl,
    by decide, by decide, ?_⟩
  have hheld : ∀ p t, (Transition.run step { clock := sampleClock } (sampleLabels 1800000000)).InTurn p t →
      ∀ h ∈ t.held, h.id ≠ "00000000000000000000000002" := by
    rintro p t ⟨hp, ht⟩
    cases hp
    cases ht
    decide
  rintro ⟨p, t, hturn, ⟨h, hh, hid, -⟩, -⟩
  exact hheld p t hturn h hh hid

/-- A request for the next minute stays, and the reminder that was pushed goes. -/
theorem fire_deletes_pushed : (Transition.run step { clock := sampleClock } (sampleLabels 1800000060)).May
    ⟨"00000000000000000000000001", "usr_1", 1800000000, 1800000030⟩ := by
  refine fire_deletes sampleClock (sampleLabels 1800000060) ?_ (.advance .delivered false) rfl _ (by decide) (by decide)
  simp only [sampleLabels, Transition.Along, Late, true_and, and_true]
  constructor
  · rintro p t ⟨hp, -⟩
    cases hp
  · rintro p t ⟨hp, -⟩ -
    cases hp
    refine .inr fun due hdue => ?_
    cases hdue
    decide

end KyNotes.Push
