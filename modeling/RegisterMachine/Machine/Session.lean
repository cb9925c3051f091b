import RegisterMachine.Machine.Step

/-!
# RegisterMachine.Machine.Session

A machine, its console and what has happened so far. A program may run forever,
so a session is run for at most a given number of steps; once a machine has
halted, more steps change nothing.
-/

namespace RegisterMachine

/-- A machine at work with a console. -/
structure Session (κ : Type) where
  machine : Machine
  console : κ
  /-- What has happened, in order. -/
  events : Array Event
  /-- How many steps have been taken. -/
  steps : Nat

namespace Session

variable {κ : Type} [Console κ]

/-- The session before the first step. -/
def start (m : Machine) (c : κ) : Session κ := ⟨m, c, #[], 0⟩

/-- One more step, unless the machine has halted. -/
def step? (s : Session κ) : Option (Session κ) :=
  (s.machine.step? s.console).map fun step =>
    { machine := step.machine
      console := step.console
      events := s.events.appendList step.events
      steps := s.steps + 1 }

/-- Steps until the machine has halted, or as often as allowed. -/
def run : Nat → Session κ → Session κ
  | 0, s => s
  | limit + 1, s =>
    match s.step? with
    | none => s
    | some next => run limit next

/-- The log so far, in order. -/
def log (s : Session κ) : List Log.Record := s.events.toList.filterMap Event.log?

/-! ### Running -/

theorem run_of_step?_eq_none {s : Session κ} (h : s.step? = none) (limit : Nat) :
    s.run limit = s := by
  cases limit with
  | zero => rfl
  | succ limit => rw [run, h]

theorem run_succ_of_step? {s next : Session κ} (h : s.step? = some next) (limit : Nat) :
    s.run (limit + 1) = next.run limit := by
  rw [run, h]

/-- Running on is running for the sum of both numbers of steps. -/
theorem run_add (m n : Nat) (s : Session κ) : s.run (m + n) = (s.run m).run n := by
  induction m generalizing s with
  | zero => rw [Nat.zero_add]; rfl
  | succ m ih =>
    rw [Nat.succ_add]
    cases h : s.step? with
    | none => rw [run_of_step?_eq_none h, run_of_step?_eq_none h, run_of_step?_eq_none h]
    | some next => rw [run_succ_of_step? h, run_succ_of_step? h, ih]

end Session

end RegisterMachine
