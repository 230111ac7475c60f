import Nmos6502.Bus
import Nmos6502.Event
import Nmos6502.Instruction.Operation
import Nmos6502.Word

/-! # Machines

A processor holds everything but the memory: registers, program counter, flags, whether it runs,
how many instructions it has retired, and its configuration. A machine is a processor on a bus.
-/

universe u

namespace Nmos6502
set_option autoImplicit false

inductive IllegalPolicy where
  | halt
  /-- It is stepped over as if it were a one-byte instruction without effect. -/
  | skip
  deriving DecidableEq

structure Config where
  illegalOpcode : IllegalPolicy := .halt
  /-- Whether BRK halts the machine once it has been serviced. -/
  haltOnBrk : Bool := true
  stackPointer : UInt8 := 0xFF
  deriving DecidableEq

def Config.standard : Config := {}

inductive RunState where
  | running
  | halted
  deriving DecidableEq

def RunState.isHalted : RunState → Bool
  | running => false
  | halted => true

structure Processor where
  a : UInt8
  x : UInt8
  y : UInt8
  sp : UInt8
  p : Status
  pc : UInt16
  state : RunState
  haltCause : Option IllegalOpcode
  /-- How many instructions have been executed or skipped since power-on. -/
  retired : UInt64
  config : Config
  deriving DecidableEq

namespace Processor

def powerOn (config : Config) : Processor where
  a := 0
  x := 0
  y := 0
  sp := config.stackPointer
  p := .powerOn
  pc := 0
  state := .running
  haltCause := none
  retired := 0
  config := config

end Processor

structure Machine (M : Type u) extends Processor where
  memory : M

namespace Machine

variable {M : Type u}

def powerOn (config : Config) (memory : M) : Machine M := ⟨.powerOn config, memory⟩

def get (m : Machine M) : Register → UInt8
  | .a => m.a
  | .x => m.x
  | .y => m.y
  | .sp => m.sp

def put (m : Machine M) (register : Register) (value : UInt8) : Machine M :=
  match register with
  | .a => { m with a := value }
  | .x => { m with x := value }
  | .y => { m with y := value }
  | .sp => { m with sp := value }

def describing (m : Machine M) (result : UInt8) : Machine M :=
  { m with p := m.p.describing result }

def setStatus (m : Machine M) (byte : UInt8) : Machine M := { m with p := .pulled byte }

def assignFlags (m : Machine M) (mask : Status) (on : Bool) : Machine M :=
  { m with p := m.p.assign mask on }

def resume (m : Machine M) : Machine M := { m with state := .running, haltCause := none }

section Memory

variable [Bus M]

def read (m : Machine M) (address : UInt16) : UInt8 := Bus.read m.memory address

def write (m : Machine M) (address : UInt16) (byte : UInt8) : Machine M :=
  { m with memory := Bus.write m.memory address byte }

/-- The word at `address`, low byte first; after the last address comes address zero. -/
def readWord (m : Machine M) (address : UInt16) : UInt16 :=
  Word.ofBytes (m.read address) (m.read (address + 1))

/-- The word at `address`, low byte first, both bytes taken from the same page. -/
def readWordInPage (m : Machine M) (address : UInt16) : UInt16 :=
  Word.ofBytes (m.read address) (m.read (Word.nextInPage address))

end Memory

end Machine

/-- What an action of a machine leads to: the machine after it, its answer, and the events that
happened on the way. -/
structure Transition (M : Type u) (α : Type) where
  machine : Machine M
  result : α
  events : List Event

end Nmos6502
