import KyNotes.Lib.Record
import KyNotes.Lib.Run

/-!
# Lockout of a key after failed logins

`Lockout` of `internal/auth/lockout.go`: the failures of each key in a bounded table, and the time up to which a key is
locked. A caller chooses its keys, so the table can be filled with other keys on purpose.

* `Lockout.step_size`: no call takes the table over its maximum;
* `Held`: the entry of a key stands and is locked up to a time. Every call before that time keeps it (`step_held`), a
  `Success` for the key apart;
* `lockout_holds`: so a lock is never flushed, whatever the calls for other keys.
-/

namespace KyNotes.Auth

open Relational Transition

/-- A point of time in nanoseconds from Go's zero time. -/
abbrev Instant := Int

structure LockEntry where
  failures : Int := 0
  lockedUntil : Instant := 0
  deriving DecidableEq, Repr

structure Lockout where
  items : Record String LockEntry
  max : Int
  limit : Int
  cooldown : Int

namespace Lockout

def newLockout (limit cooldown max : Int) : Lockout := { items := Table.empty, limit, cooldown, max }

/-- `l.items[key]`, the zero entry for a key that is not there. -/
def entry (l : Lockout) (key : String) : LockEntry := (l.items.lookup key).getD {}

def size (l : Lockout) : Nat := l.items.rows.length

/-- The table without the entries that are no live lock. -/
def sweep (l : Lockout) (now : Instant) : Lockout := { l with items := l.items.delete fun r => ¬now < r.2.lockedUntil }

/-- Whether the key fits; a full table is swept for it. -/
def room (l : Lockout) (key : String) (now : Instant) : Lockout × Bool :=
  if (l.items.lookup key).isSome ∨ (l.size : Int) < l.max then (l, true)
  else (l.sweep now, decide (((l.sweep now).size : Int) < l.max))

def tryKey (l : Lockout) (key : String) (now : Instant) : Lockout × Bool :=
  let e := l.entry key
  if now < e.lockedUntil then (l, false)
  else if e.lockedUntil = 0 ∧ l.limit ≤ e.failures then
    ({ l with items := l.items.set key { e with lockedUntil := now + l.cooldown } }, false)
  else if l.limit ≤ e.failures then ({ l with items := l.items.delete (·.1 = key) }, true)
  else l.room key now

/-- The entry after one more failure, locked when it reaches the limit. -/
def failed (l : Lockout) (e : LockEntry) (now : Instant) : LockEntry :=
  let e := { e with failures := e.failures + 1 }
  if l.limit ≤ e.failures then { e with lockedUntil := now + l.cooldown } else e

def fail (l : Lockout) (key : String) (now : Instant) : Lockout :=
  let r := l.room key now
  if !r.2 then r.1 else { r.1 with items := r.1.items.set key (r.1.failed (r.1.entry key) now) }

def success (l : Lockout) (key : String) : Lockout := { l with items := l.items.delete (·.1 = key) }

/-- The three calls. -/
inductive Call where
  | tryKey (key : String) (now : Instant)
  | fail (key : String) (now : Instant)
  | success (key : String)
  deriving DecidableEq, Repr

/-- `Success` takes no time. -/
def Call.now : Call → Option Instant
  | .tryKey _ now | .fail _ now => some now
  | .success _ => none

def step (l : Lockout) : Call → Lockout
  | .tryKey key now => (l.tryKey key now).1
  | .fail key now => l.fail key now
  | .success key => l.success key

/-- The call leaves the key with failures up to the limit. -/
def Locks (l : Lockout) (key : String) (now : Instant) : Prop := l.limit ≤ ((l.fail key now).entry key).failures

/-! ## The size of the table -/

variable {l : Lockout} {key k : String} {now : Instant}

theorem size_sweep : (l.sweep now).size ≤ l.size := List.length_filter_le _ _

theorem room_max (l : Lockout) (key : String) (now : Instant) : (l.room key now).1.max = l.max ∧
    (l.room key now).1.limit = l.limit ∧ (l.room key now).1.cooldown = l.cooldown := by
  unfold room
  split <;> exact ⟨rfl, rfl, rfl⟩

theorem size_room : (l.room key now).1.size ≤ l.size := by
  unfold room
  split
  · exact Nat.le_refl _
  · exact size_sweep

/-- A key that fits is there or has a free place. -/
theorem room_fits (l : Lockout) (key : String) (now : Instant) (h : (l.room key now).2 = true) :
    ((l.room key now).1.items.lookup key).isSome ∨ ((l.room key now).1.size : Int) < l.max := by
  unfold room at h ⊢
  split
  · rename_i hc
    exact hc
  · rename_i hc
    rw [if_neg hc] at h
    exact Or.inr (of_decide_eq_true h)

/-- A write of a key that fits stays within the maximum. -/
theorem size_set {e : LockEntry} (hl : l.size ≤ l.max.toNat)
    (h : (l.items.lookup key).isSome ∨ (l.size : Int) < l.max) : (l.items.set key e).rows.length ≤ l.max.toNat := by
  rw [Record.length_set]
  split
  · exact hl
  · rename_i hn
    have hlt : (l.size : Int) < l.max := h.resolve_left hn
    unfold size at hlt
    omega

/-- What the constructor fixed is never written. -/
theorem step_fixed (l : Lockout) (c : Call) :
    (l.step c).max = l.max ∧ (l.step c).limit = l.limit ∧ (l.step c).cooldown = l.cooldown := by
  cases c with
  | success key => exact ⟨rfl, rfl, rfl⟩
  | fail key now =>
    simp only [step, fail]
    split <;> exact room_max l key now
  | tryKey key now =>
    simp only [step, tryKey]
    split
    · exact ⟨rfl, rfl, rfl⟩
    · split
      · exact ⟨rfl, rfl, rfl⟩
      · split
        · exact ⟨rfl, rfl, rfl⟩
        · exact room_max l key now

/-- No call takes the table over its maximum. -/
theorem step_size (hlimit : 1 ≤ l.limit) (hl : l.size ≤ l.max.toNat) (c : Call) :
    (l.step c).size ≤ (l.step c).max.toNat := by
  rw [(step_fixed l c).1]
  cases c with
  | success key => exact Nat.le_trans (List.length_filter_le _ _) hl
  | fail key now =>
    have hsize : (l.room key now).1.size ≤ l.max.toNat := Nat.le_trans size_room hl
    have hmax := (room_max l key now).1
    simp only [step, fail]
    split
    · exact hsize
    · rename_i h
      have hfits := room_fits l key now (by simpa using h)
      rw [← hmax] at hsize hfits ⊢
      exact size_set hsize hfits
  | tryKey key now =>
    simp only [step, tryKey]
    split
    · exact hl
    · split
      · rename_i h
        -- an entry with failures up to the limit is no zero entry
        have hsome : (l.items.lookup key).isSome := by
          unfold entry at h
          cases hk : l.items.lookup key with
          | some e => rfl
          | none =>
            rw [hk] at h
            have hz : l.limit ≤ 0 := h.2
            omega
        exact size_set hl (Or.inl hsome)
      · split
        · exact Nat.le_trans (List.length_filter_le _ _) hl
        · exact Nat.le_trans size_room hl

/-! ## A lock is kept -/

/-- The key has an entry that is locked up to `u` at least. -/
def Held (k : String) (u : Instant) (l : Lockout) : Prop := ∃ e, l.items.lookup k = some e ∧ u ≤ e.lockedUntil

variable {u : Instant}

theorem Held.entry (h : Held k u l) : u ≤ (l.entry k).lockedUntil := by
  obtain ⟨e, he, hu⟩ := h
  unfold Lockout.entry
  rw [he]
  exact hu

/-- A sweep before `u` leaves the entry. -/
theorem Held.sweep (h : Held k u l) (hnow : now < u) : Held k u (l.sweep now) := by
  obtain ⟨e, he, hu⟩ := h
  refine ⟨e, ?_, hu⟩
  rw [Record.lookup_eq_some] at he ⊢
  exact Table.mem_delete.mpr ⟨he, fun hn => hn (Int.lt_of_lt_of_le hnow hu)⟩

theorem Held.room (h : Held k u l) (hnow : now < u) : Held k u (l.room key now).1 := by
  unfold Lockout.room
  split
  · exact h
  · exact h.sweep hnow

/-- A write of another key leaves the entry. -/
theorem Held.set (h : Held k u l) {e : LockEntry} (he : key = k → u ≤ e.lockedUntil) :
    Held k u { l with items := l.items.set key e } := by
  obtain ⟨e', he', hu⟩ := h
  by_cases hk : k = key
  · subst hk
    exact ⟨e, Record.lookup_set_self, he rfl⟩
  · exact ⟨e', (Record.lookup_set_ne hk).trans he', hu⟩

theorem Held.delete (h : Held k u l) (hk : key ≠ k) : Held k u { l with items := l.items.delete (·.1 = key) } := by
  obtain ⟨e, he, hu⟩ := h
  refine ⟨e, ?_, hu⟩
  rw [Record.lookup_eq_some] at he ⊢
  exact Table.mem_delete.mpr ⟨he, fun h => hk h.symm⟩

/-- One more failure locks from now on or leaves the lock as it was. -/
theorem lockedUntil_failed {e : LockEntry} (h : u ≤ e.lockedUntil) (hnow : u ≤ now + l.cooldown) :
    u ≤ (l.failed e now).lockedUntil := by
  simp only [failed]
  split
  · exact hnow
  · exact h

/-- No call before `u` takes a lock up to `u` away, a success of the key itself apart. -/
theorem step_held (h : Held k u l) {c : Call} (hc : c ≠ .success k)
    (hnow : ∀ now, c.now = some now → now < u ∧ u ≤ now + l.cooldown) : Held k u (l.step c) := by
  cases c with
  | success key => exact h.delete fun hk => hc (by rw [hk])
  | fail key now =>
    obtain ⟨hlt, hle⟩ := hnow now rfl
    have hroom : Held k u (l.room key now).1 := h.room hlt
    simp only [step, fail]
    split
    · exact hroom
    · refine hroom.set fun hk => ?_
      rw [← (room_max l key now).2.2] at hle
      exact lockedUntil_failed (hk ▸ hroom.entry) hle
  | tryKey key now =>
    obtain ⟨hlt, hle⟩ := hnow now rfl
    simp only [step, tryKey]
    split
    · exact h
    · rename_i hlive
      -- the key that is tried is another one, or its lock would be live
      have hne : key ≠ k := by
        rintro rfl
        exact hlive (Int.lt_of_lt_of_le hlt h.entry)
      split
      · exact h.set fun hk => absurd hk hne
      · split
        · exact h.delete hne
        · exact h.room hlt

/-- A key that is shed has no entry. -/
theorem lookup_shed (h : (l.room k now).2 = false) : (l.room k now).1.items.lookup k = none := by
  cases hk : (l.room k now).1.items.lookup k with
  | none => rfl
  | some e =>
    have hold : l.items.lookup k = some e := by
      unfold room at hk
      split at hk
      · exact hk
      · rw [Record.lookup_eq_some] at hk ⊢
        exact (Table.mem_delete.mp hk).1
    unfold room at h
    rw [if_pos (Or.inl (by rw [hold]; rfl))] at h
    cases h

/-- A failure that locks holds the key for the cooldown. -/
theorem held_of_locks (hlimit : 1 ≤ l.limit) (h : l.Locks k now) : Held k (now + l.cooldown) (l.fail k now) := by
  unfold Locks fail at h
  unfold fail
  simp only at h ⊢
  split
  · rename_i hok
    rw [if_pos hok] at h
    have hzero : (l.room k now).1.entry k = {} := by
      unfold entry
      rw [lookup_shed (by simpa using hok)]
      rfl
    rw [hzero] at h
    exact absurd h (by show ¬l.limit ≤ 0; omega)
  · rename_i hok
    rw [if_neg hok] at h
    refine ⟨_, Record.lookup_set_self, ?_⟩
    simp only [entry, Record.lookup_set_self, Option.getD_some, failed, (room_max l k now).2.1,
      (room_max l k now).2.2] at h ⊢
    split
    · exact Int.le_refl _
    · rename_i hn
      rw [if_neg hn] at h
      exact absurd h hn

theorem held_answer (h : Held k u l) (hnow : now < u) : (l.tryKey k now).2 = false := by
  unfold tryKey
  rw [if_pos (Int.lt_of_lt_of_le hnow h.entry)]

/-! ## Whole runs -/

theorem run_fixed (l : Lockout) (cs : List Call) : (run step l cs).limit = l.limit ∧
    (run step l cs).cooldown = l.cooldown ∧
    (run step l cs).max = l.max :=
  run_inv (P := fun l' : Lockout => l'.limit = l.limit ∧ l'.cooldown = l.cooldown ∧ l'.max = l.max)
    (fun l' c h => by
      obtain ⟨hm, hl, hc⟩ := step_fixed l' c
      exact ⟨hl.trans h.1, hc.trans h.2.1, hm.trans h.2.2⟩) cs ⟨rfl, rfl, rfl⟩

/-- The table stays within its maximum. -/
theorem run_size {l : Lockout} (hlimit : 1 ≤ l.limit) (hl : l.size ≤ l.max.toNat) (cs : List Call) :
    (run step l cs).size ≤ l.max.toNat := by
  have h : 1 ≤ (run step l cs).limit ∧ (run step l cs).size ≤ (run step l cs).max.toNat :=
    run_inv (P := fun l : Lockout => 1 ≤ l.limit ∧ l.size ≤ l.max.toNat)
      (fun l c h => ⟨by rw [(step_fixed l c).2.1]; exact h.1, step_size h.1 h.2 c⟩) cs ⟨hlimit, hl⟩
  rw [← (run_fixed l cs).2.2]
  exact h.2

/-- A lock outlives every list of calls before its end without a success of its key. -/
theorem run_held : ∀ {cs : List Call} {l : Lockout}, Held k u l → .success k ∉ cs →
    (∀ now ∈ cs.filterMap Call.now, now < u ∧ u ≤ now + l.cooldown) → Held k u (run step l cs)
  | [], _, h, _, _ => h
  | c :: cs, l, h, hs, hnow => by
    rw [List.mem_cons, not_or] at hs
    rw [run_cons]
    refine run_held (step_held h (fun hc => hs.1 hc.symm) fun now hc => ?_) hs.2 fun now hm => ?_
    · exact hnow now (List.mem_filterMap.mpr ⟨c, List.mem_cons_self, hc⟩)
    · rw [(step_fixed l c).2.2]
      obtain ⟨d, hd, hdn⟩ := List.mem_filterMap.mp hm
      exact hnow now (List.mem_filterMap.mpr ⟨d, List.mem_cons_of_mem c hd, hdn⟩)

/-- The table stays within its maximum, and a key that a failure locks is refused for the cooldown, whatever is called
for other keys, unless a success of the key comes between. -/
theorem lockout_holds (limit cooldown max : Int) (cs : List Call) (hlimit : 1 ≤ limit)
    (htime : (cs.filterMap Call.now).Pairwise (· ≤ ·)) :
    (∀ bs, bs <+: cs → (run step (newLockout limit cooldown max) bs).size ≤ max.toNat) ∧
    ∀ as k t bs t', as ++ [.fail k t] ++ bs ++ [.tryKey k t'] <+: cs →
      (run step (newLockout limit cooldown max) as).Locks k t → t' < t + cooldown → .success k ∉ bs →
        ((run step (newLockout limit cooldown max) (as ++ [.fail k t] ++ bs)).tryKey k t').2 = false := by
  constructor
  · intro bs _
    exact run_size (l := newLockout limit cooldown max) hlimit (Nat.zero_le _) bs
  · intro as k t bs t' hcs hlocks ht' hs
    obtain ⟨hlim, hcool, -⟩ := run_fixed (newLockout limit cooldown max) as
    have hheld : Held k (t + cooldown) (run step (newLockout limit cooldown max) (as ++ [.fail k t])) := by
      rw [run_concat]
      have h := held_of_locks (by rw [hlim]; exact hlimit) hlocks
      rw [hcool] at h
      exact h
    -- the calls between are not before `t` and not after `t'`
    have hbetween : ∀ now ∈ bs.filterMap Call.now, t ≤ now ∧ now ≤ t' := by
      have hpre := htime.sublist (hcs.sublist.filterMap Call.now)
      intro now hnow
      simp only [List.filterMap_append, List.pairwise_append, List.mem_append] at hpre
      obtain ⟨⟨-, -, hfail⟩, -, htry⟩ := hpre
      exact ⟨hfail t (Or.inr (by simp [Call.now])) now hnow, htry now (Or.inr hnow) t' (by simp [Call.now])⟩
    rw [run_append]
    refine held_answer (run_held hheld hs fun now hnow => ?_) ht'
    obtain ⟨h₁, h₂⟩ := hbetween now hnow
    have hc := (run_fixed (newLockout limit cooldown max) (as ++ [.fail k t])).2.1
    rw [hc]
    exact ⟨Int.lt_of_le_of_lt h₂ ht', Int.add_le_add_right h₁ cooldown⟩

/-- Key `a` is locked at 1 for 10 in a table of one entry; a failure of key `b` is shed and `a` stays locked at 5. -/
theorem lockout_holds_full_table :
    ((run step (newLockout 2 10 1) [.fail "a" 0, .fail "a" 1, .fail "b" 2, .tryKey "b" 3]).tryKey "a" 5).2 = false :=
  (lockout_holds 2 10 1 [.fail "a" 0, .fail "a" 1, .fail "b" 2, .tryKey "b" 3, .tryKey "a" 5] (by decide)
    (by decide)).2 [.fail "a" 0] "a" 1 [.fail "b" 2, .tryKey "b" 3] 5 (List.prefix_refl _)
    (by unfold Locks; decide) (by decide) (by decide)

end Lockout

end KyNotes.Auth
