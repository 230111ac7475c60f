import Nmos6502.Machine.Load
import Nmos6502.Machine.Run

/-! # Commands

Everything that can be asked of a machine from outside, as data. A history of a machine is a list
of commands; each command has one reply.
-/

universe u

namespace Nmos6502
set_option autoImplicit false

inductive Command where
  | load (image : List UInt8) (origin : UInt16)
  | step
  | run (fuel : Nat)
  | runFor (limit : Nat)
  | resume
  | setRegister (register : Register) (value : UInt8)
  | setPc (value : UInt16)
  | setStatus (byte : UInt8)
  | assignFlags (mask : Status) (on : Bool)
  | testFlags (mask : Status)
  | resolve (mode : Mode)
  | readWord (address : UInt16)
  | peek (address : UInt16)
  | poke (address : UInt16) (byte : UInt8)

inductive Reply where
  | done
  | loaded (result : Except ImageTooLarge Unit)
  | stepped (result : Except IllegalOpcode RunState)
  | ran (result : Except IllegalOpcode Exit)
  | flags (on : Bool)
  | operand (operand : Operand)
  | word (word : UInt16)
  | byte (byte : UInt8)

namespace Transition

variable {M : Type u} {α β : Type}

def map (f : α → β) (t : Transition M α) : Transition M β := ⟨t.machine, f t.result, t.events⟩

end Transition

namespace Machine

variable {M : Type u} [Bus M]

def answer (m : Machine M) (reply : Reply) : Transition M Reply := ⟨m, reply, []⟩

def quietly (m : Machine M) : Transition M Reply := m.answer .done

/-- Carries out a command; `none` only for a run that does not end within its fuel. -/
def obey (m : Machine M) : Command → Option (Transition M Reply)
  | .load image origin => some ((m.load image origin).map .loaded)
  | .step => some (m.step.map .stepped)
  | .run fuel => (m.run fuel).map (·.map .ran)
  | .runFor limit => some ((m.runFor limit).map .ran)
  | .resume => some m.resume.quietly
  | .setRegister register value => some (m.put register value).quietly
  | .setPc value => some (quietly { m with pc := value })
  | .setStatus byte => some (m.setStatus byte).quietly
  | .assignFlags mask on => some (m.assignFlags mask on).quietly
  | .testFlags mask => some (m.answer (.flags (m.p.contains mask)))
  | .resolve mode => some (m.answer (.operand (m.resolve mode)))
  | .readWord address => some (m.answer (.word (m.readWord address)))
  | .peek address => some (m.answer (.byte (m.read address)))
  | .poke address byte => some (m.write address byte).quietly

end Machine

end Nmos6502
