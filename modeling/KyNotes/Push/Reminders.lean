import KyNotes.Server.Schema
import KyNotes.Lib.Run
import Mathlib.Data.List.Dedup

/-!
# Reminder push (`internal/webpush`, `internal/httpapi/reminder_routes.go`)

The server with the pass of `Fire` that runs, if any, between two of its statements. Each statement and each send of `Fire`
is a step; the requests of the clients are steps of their own, in any order. A statement that fails ends the pass.

Of the turn of an account the state also keeps what the source does not: the reminders of the account when its pushes began,
its subscriptions as they were read, and the outcomes of the pushes.
-/

namespace KyNotes.Push

def maxReminders : ℕ := 500

def hour : Time := 3600 * second

def reminderHorizon : Time := 400 * day

def reminderGrace : Time := hour

def retryFor : Time := hour

structure Reminder where
  id : String
  user : String
  /-- `at`. -/
  due : Stamp
  createdAt : Stamp
deriving DecidableEq

structure Subscription where
  id : String
  user : String
  endpoint : String
  lastOkAt : Option Stamp := none
deriving DecidableEq

/-- What became of a push. -/
inductive Outcome
  | delivered
  | gone
  | refused
  | transient
deriving DecidableEq

/-- An account with due reminders, as `Fire` has read it. -/
structure Due where
  user : String
  oldest : Stamp
  active : Bool
deriving DecidableEq

inductive Stage
  /-- Before the subscriptions are read. -/
  | asking
  | pushing (subs : List Subscription) (retry : Bool)
  /-- After the pushes, with `keep`. -/
  | deciding (keep : Bool)
deriving DecidableEq

/-- The turn of an account. -/
structure Turn where
  account : Due
  stage : Stage
  held : List Reminder
  subscriptions : List Subscription := []
  outcomes : List Outcome := []
deriving DecidableEq

/-- A pass of `Fire`; before the query it has no accounts. -/
structure Pass where
  now : Time
  users : Option (List Due) := none
  turn : Option Turn := none
deriving DecidableEq

def Pass.cutoff (p : Pass) : Stamp := format p.now

structure Service where
  clock : Time
  /-- The accounts, and whether each is active. -/
  users : List (String × Bool) := []
  reminders : List Reminder := []
  subscriptions : List Subscription := []
  pass : Option Pass := none
deriving DecidableEq

/-! ## Requests -/

def idAlphabet : List Char := "0123456789abcdefghjkmnpqrstvwxyz".toList

def validReminderID (id : String) : Bool := id.toList.length = 26 ∧ id.toList.all idAlphabet.contains

/-- What the PUT request admits: a UTC minute, recent or ahead, within the horizon. -/
def admits (now : Time) (id : String) (due : Stamp) : Bool :=
  validReminderID id ∧ due % 60 = 0 ∧ now ≤ parseTime due + reminderGrace ∧ parseTime due ≤ now + reminderHorizon

inductive Refusal
  | notFound
  | tooMany
deriving DecidableEq

/-- The transaction of the PUT request. -/
def putTx (rows : List Reminder) (user id : String) (due : Stamp) (now : Time) : Except Refusal (List Reminder) :=
  match rows.find? fun r => r.id = id with
  | some r =>
    if r.user ≠ user then .error .notFound
    else .ok (rows.map fun r => if r.id = id then { r with due } else r)
  | none =>
    if maxReminders ≤ (rows.filter fun r => r.user = user).length then .error .tooMany
    else .ok (rows ++ [⟨id, user, due, format now⟩])

/-- The PUT request, checked at `now`; `none` is a body that has no UTC minute. -/
def put (s : Service) (user id : String) (body : Option Stamp) (now : Time) : Service :=
  match body with
  | none => s
  | some due =>
    if admits now id due then
      match putTx s.reminders user id due now with
      | .ok rows => { s with reminders := rows }
      | .error _ => s
    else s

/-- The DELETE request. -/
def remove (s : Service) (user id : String) : Service :=
  if validReminderID id then { s with reminders := s.reminders.filter fun r => !(r.id = id ∧ r.user = user) } else s

/-- What is done to an account; without it its rows are gone. -/
def setAccount (s : Service) (user : String) (status : Option Bool) : Service :=
  match status with
  | some active => { s with users := (user, active) :: s.users.filter fun u => u.1 ≠ user }
  | none =>
    { s with
      users := s.users.filter fun u => u.1 ≠ user
      reminders := s.reminders.filter fun r => r.user ≠ user
      subscriptions := s.subscriptions.filter fun sub => sub.user ≠ user }

/-! ## `Fire` -/

/-- The first query: nothing depends on the order of the accounts. -/
def dueAccounts (s : Service) (cutoff : Stamp) : List Due :=
  let rows := s.reminders.filter fun r => r.due ≤ cutoff
  (rows.map Reminder.user).dedup.filterMap fun user => (s.users.lookup user).map fun active =>
    ⟨user, (((rows.filter fun r => r.user = user).map Reminder.due).min?).getD 0, active⟩

namespace Service

variable (s : Service)

def fire (now : Time) : Service :=
  match s.pass with
  | some _ => s
  | none => if now ≤ s.clock then { s with pass := some { now } } else s

def stop : Service := { s with pass := none }

def read (p : Pass) : Service := { s with pass := some { p with users := some (dueAccounts s p.cutoff) } }

/-- The next account, or the end of the pass. -/
def next (p : Pass) : Service :=
  match p.users with
  | none => s
  | some [] => s.stop
  | some (d :: users) =>
    let held := s.reminders.filter fun r => r.user = d.user
    let turn : Turn := { account := d, stage := if d.active then .asking else .deciding false, held }
    { s with pass := some { p with users := some users, turn := some turn } }

/-- The first query of `pushUser`. -/
def ask (p : Pass) (t : Turn) : Service :=
  let subs := s.subscriptions.filter fun sub => sub.user = t.account.user
  let turn : Turn := { t with stage := .pushing subs (subs ≠ []), subscriptions := subs }
  { s with pass := some { p with turn := some turn } }

/-- A push, and what it writes of the subscription. -/
def send (p : Pass) (t : Turn) (sub : Subscription) (subs : List Subscription) (retry : Bool) (outcome : Outcome) : Service :=
  let turn : Turn := { t with stage := .pushing subs (retry && outcome = .transient), outcomes := t.outcomes ++ [outcome] }
  let rows := match outcome with
    | .delivered => s.subscriptions.map fun x => if x.id = sub.id then { x with lastOkAt := some (format p.now) } else x
    | .gone => s.subscriptions.filter fun x => x.id ≠ sub.id
    | .refused | .transient => s.subscriptions
  { s with subscriptions := rows, pass := some { p with turn := some turn } }

/-- The end of a turn: the due reminders of the account are kept for a retry, or deleted. -/
def decide (p : Pass) (t : Turn) (keep : Bool) : Service :=
  if keep ∧ p.now < parseTime t.account.oldest + retryFor then { s with pass := some { p with turn := none } }
  else
    { s with
      reminders := s.reminders.filter fun r => !(r.user = t.account.user ∧ r.due ≤ p.cutoff)
      pass := some { p with turn := none } }

/-- The next statement or send of the pass; a push has the outcome, and a statement may fail. -/
def advance (outcome : Outcome) (fails : Bool) : Service :=
  match s.pass with
  | none => s
  | some p =>
    if fails then s.stop
    else match p.turn with
      | none => if p.users = none then s.read p else s.next p
      | some t =>
        match t.stage with
        | .asking => s.ask p t
        | .pushing [] retry => { s with pass := some { p with turn := some { t with stage := .deciding retry } } }
        | .pushing (sub :: subs) retry => s.send p t sub subs retry outcome
        | .deciding keep => s.decide p t keep

end Service

inductive Label
  | tick (d : Time)
  | account (user : String) (status : Option Bool)
  | subscriptions (rows : List Subscription)
  | put (user id : String) (body : Option Stamp) (now : Time)
  | remove (user id : String)
  | fire (now : Time)
  | advance (outcome : Outcome) (fails : Bool)
deriving DecidableEq

def step (s : Service) : Label → Service
  | .tick d => { s with clock := s.clock + d }
  | .account user status => setAccount s user status
  | .subscriptions rows => { s with subscriptions := rows }
  | .put user id body now => if now ≤ s.clock then put s user id body now else s
  | .remove user id => remove s user id
  | .fire now => s.fire now
  | .advance outcome fails => s.advance outcome fails

end KyNotes.Push
