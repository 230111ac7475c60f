import Nmos6502.Machine.Step

/-! # Runs

A run is a sequence of steps that ends when the machine halts. `runFor` also ends after a given
number of steps. `run` has no such limit and need not end, so it takes fuel and answers `none` when
the fuel is used up before the machine halts. A run of a halted machine reports at once why it had
halted.
-/

universe u

namespace Nmos6502
set_option autoImplicit false

inductive Exit where
  | brk
  | limit
  deriving DecidableEq

namespace Machine

variable {M : Type u} [Bus M]

/-- What a run of a machine that has already halted reports: the fault that halted it, or BRK. -/
def haltedExit (m : Machine M) : Except IllegalOpcode Exit :=
  match m.haltCause with
  | some fault => .error fault
  | none => .ok .brk

def runFrom : Nat → Machine M → Array Event → Transition M (Except IllegalOpcode Exit)
  | 0, m, events => ⟨m, .ok .limit, events.toList⟩
  | limit + 1, m, events =>
    let t := m.step
    let events := events ++ t.events
    match t.result with
    | .error fault => ⟨t.machine, .error fault, events.toList⟩
    | .ok .halted => ⟨t.machine, .ok .brk, events.toList⟩
    | .ok .running => runFrom limit t.machine events

def runFor (limit : Nat) (m : Machine M) : Transition M (Except IllegalOpcode Exit) :=
  match m.state with
  | .halted => ⟨m, m.haltedExit, []⟩
  | .running => runFrom limit m #[]

def runOn : Nat → Machine M → Array Event → Option (Transition M (Except IllegalOpcode Exit))
  | 0, _, _ => none
  | fuel + 1, m, events =>
    let t := m.step
    let events := events ++ t.events
    match t.result with
    | .error fault => some ⟨t.machine, .error fault, events.toList⟩
    | .ok .halted => some ⟨t.machine, .ok .brk, events.toList⟩
    | .ok .running => runOn fuel t.machine events

/-- Runs until the machine halts; `none` if it is still running when the fuel is used up. -/
def run (fuel : Nat) (m : Machine M) : Option (Transition M (Except IllegalOpcode Exit)) :=
  match m.state with
  | .halted => some ⟨m, m.haltedExit, []⟩
  | .running => runOn fuel m #[]

end Machine

end Nmos6502
