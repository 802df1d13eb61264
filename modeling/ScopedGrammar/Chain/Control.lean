/-!
# Controls

A control says how long a run goes on and which of its samples are reported. It counts the steps
as they are begun. The limit of the running time is left out, and with it the clock: it could only
end a run before one of its steps, as a smaller number of steps does.
-/
namespace ScopedGrammar

/-- When a run stops, what it reports, and how far it is. -/
structure Control where
  /-- Stop after this many steps; `0` sets no limit. -/
  steps : Nat
  /-- Report nothing up to this step. -/
  burn : Nat
  /-- Report every so many steps; `0` and `1` report each. -/
  thin : Nat
  /-- Restart after this many steps without improvement; `0` never restarts. -/
  restart : Nat
  /-- Record the progress every so many samples; `0` never does. -/
  print : Nat
  started : Bool
  doneSteps : Nat
  deriving Repr, DecidableEq

namespace Control

/-- A control that has not been started. -/
def ofFields (steps burn thin restart print : Nat) : Control :=
  ⟨steps, burn, thin, restart, print, false, 0⟩

/-- Begin to count anew. -/
def start (c : Control) : Control := { c with started := true, doneSteps := 0 }

/-- Start a control that has not been started. -/
def ensureStarted (c : Control) : Control := if c.started then c else c.start

/-- Begin the next step; the answer tells whether it is within the limit. -/
def tick (c : Control) : Bool × Control :=
  let c := { c with doneSteps := c.doneSteps + 1 }
  (!(0 < c.steps && c.steps < c.doneSteps), c)

/-- The sample of this step is to be reported. -/
def reporting (c : Control) : Bool :=
  c.burn < c.doneSteps && (c.thin ≤ 1 || c.doneSteps % c.thin == 0)

/-- Within this many more steps one is reported, if none is stopped before. -/
def stepsToReport (c : Control) : Nat := (c.burn - c.doneSteps) + max c.thin 1

/-- The same control without a limit. -/
def unlimited (c : Control) : Control := { c with steps := 0 }

/-- A run without a limit is followed as far as a counter of 64 bits goes. -/
def horizon : Nat := Nat.pow 2 64

/-- The number of steps that a run can take, as far as it is followed. -/
def stepBound (c : Control) : Nat := if c.steps = 0 then horizon else c.steps

end Control

end ScopedGrammar
