import Nmos6502.Machine.Basic

/-! # Operands

Resolving an addressing mode looks at the operand bytes behind the program counter, at the index
registers and at pointers in memory, and changes nothing.
-/

universe u

namespace Nmos6502.Machine
set_option autoImplicit false

variable {M : Type u} [Bus M]

def resolve (m : Machine M) (mode : Mode) : Operand :=
  let first := m.pc + 1
  match mode with
  | .implicit => .none
  | .accumulator => .accumulator
  | .immediate => .address first
  | .zeroPage => .address (m.read first).toUInt16
  | .zeroPageX => .address (m.read first + m.x).toUInt16
  | .zeroPageY => .address (m.read first + m.y).toUInt16
  | .relative => .relative (m.read first).toInt8
  | .absolute => .address (m.readWord first)
  | .absoluteX => .address (m.readWord first + m.x.toUInt16)
  | .absoluteY => .address (m.readWord first + m.y.toUInt16)
  | .indirect => .address (m.readWordInPage (m.readWord first))
  | .indirectX => .address (m.readWordInPage (m.read first + m.x).toUInt16)
  | .indirectY => .address (m.readWordInPage (m.read first).toUInt16 + m.y.toUInt16)

def readOperand (m : Machine M) : Operand → UInt8
  | .none => 0
  | .accumulator => m.a
  | .address address => m.read address
  | .relative offset => offset.toUInt8

def writeOperand (m : Machine M) (operand : Operand) (byte : UInt8) : Machine M :=
  match operand with
  | .accumulator => { m with a := byte }
  | .address address => m.write address byte
  | .none | .relative _ => m

/-- The address that a store or a jump aims at; without an address it is the program counter. -/
def target (m : Machine M) : Operand → UInt16
  | .address address => address
  | .none | .accumulator | .relative _ => m.pc

end Nmos6502.Machine
