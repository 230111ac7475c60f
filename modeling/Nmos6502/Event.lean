import Nmos6502.Fault
import Nmos6502.Instruction.Opcode

/-! # Events

What a machine reports while it works, in the order in which it happens. Every event has a level
and a line of text.
-/

namespace Nmos6502
set_option autoImplicit false

inductive Level where
  | trace | debug | warn
  deriving DecidableEq

def Level.name : Level → String
  | .trace => "TRACE"
  | .debug => "DEBUG"
  | .warn => "WARN"

inductive Event where
  /-- The instruction at `address` is about to be executed. -/
  | executing (address : UInt16) (instruction : Instruction)
  | haltedByBrk (address : UInt16)
  | rejected (fault : IllegalOpcode)
  | skipped (fault : IllegalOpcode)
  | loaded (length : Nat) (origin : UInt16)
  deriving DecidableEq

namespace Event

def level : Event → Level
  | executing _ _ => .trace
  | skipped _ => .warn
  | haltedByBrk _ | rejected _ | loaded _ _ => .debug

def text : Event → String
  | executing address i =>
    Hex.ofWord address ++ "  " ++ Hex.ofByte i.opcode ++ "  " ++ i.mnemonic.text ++ " " ++
      i.mode.name
  | haltedByBrk address => "BRK at 0x" ++ Hex.ofWord address ++ ", halting"
  | rejected fault => fault.message ++ ", halting"
  | skipped fault =>
    "Skipping illegal opcode 0x" ++ Hex.ofByte fault.opcode ++ " at 0x" ++ Hex.ofWord fault.address
  | loaded length origin =>
    "Loaded " ++ toString length ++ " byte image at 0x" ++ Hex.ofWord origin

def line (event : Event) : String := event.level.name ++ " " ++ event.text

end Event

end Nmos6502
