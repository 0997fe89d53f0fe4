import ClauseForm.Supervision

/-!
Supervisors that stop a computation from outside: by a flag, by the time, or after a number of
polls.
-/

namespace ClauseForm

namespace Supervisor

/-- A supervisor whose state is a flag that cancels. -/
def cancellation : Supervisor Bool :=
  ofMonitor { start := .ok, poll := fun canceled => (canceled, canceled) }

/-- A supervisor that breaks down when it is started. -/
def failing (message : String) : Supervisor Unit :=
  ofMonitor { start := fun _ => .error ⟨message⟩, poll := fun _ => (false, ()) }

end Supervisor

/-- When the time of a computation is up. -/
inductive Deadline where
  /-- A duration after the alarm was set. -/
  | afterSetting (duration : Nat)
  /-- A duration after the latest start. -/
  | afterStart (duration : Nat)
  /-- A certain time. -/
  | atTime (time : Nat)
deriving DecidableEq

/-- A deadline, the time from which it counts, and the time that the clock shows. -/
structure Alarm where
  deadline : Deadline
  since : Nat
  clock : Nat
deriving DecidableEq

namespace Alarm

/-- An alarm set at a certain time. -/
def new (deadline : Deadline) (clock : Nat) : Alarm := ⟨deadline, clock, clock⟩

/-- A start counts only for a deadline that is measured from it. -/
def restart (t : Alarm) : Alarm :=
  match t.deadline with
  | .afterStart _ => { t with since := t.clock }
  | _ => t

/-- Decides whether the time is up. -/
def expired (t : Alarm) : Bool :=
  match t.deadline with
  | .afterSetting duration | .afterStart duration => decide (duration ≤ t.clock - t.since)
  | .atTime time => decide (time ≤ t.clock)

/-- The supervisor that cancels when the time is up. -/
def supervisor : Supervisor Alarm :=
  .ofMonitor { start := fun t => .ok t.restart, poll := fun t => (t.expired, t) }

end Alarm

/-- Counts of all reports, and the number of polls after which to stop. -/
structure Tally where
  starts : Nat
  polls : Nat
  distributions : Nat
  clauses : Nat
  literals : Nat
  patience : Option Nat
deriving DecidableEq

namespace Tally

/-- A tally with nothing counted yet. -/
def new (patience : Option Nat) : Tally := ⟨0, 0, 0, 0, 0, patience⟩

/-- The supervisor that counts, and cancels once there were more polls than it has patience for. -/
def supervisor : Supervisor Tally where
  start t := .ok { t with starts := t.starts + 1 }
  poll t :=
    let polls := t.polls + 1
    (t.patience.any fun patience => decide (patience < polls), { t with polls := polls })
  distribution t := (.ok (), { t with distributions := t.distributions + 1 })
  clause n t := (.ok (), { t with clauses := t.clauses + 1, literals := t.literals + n })

end Tally

end ClauseForm
