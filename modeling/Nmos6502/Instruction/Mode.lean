/-! # Addressing modes

A mode says how many operand bytes follow an opcode and what they mean. What it resolves to is an
operand: nothing, the accumulator, an address, or a signed branch displacement.
-/

namespace Nmos6502
set_option autoImplicit false

inductive Mode where
  | implicit | accumulator | immediate
  | zeroPage | zeroPageX | zeroPageY
  | relative
  | absolute | absoluteX | absoluteY
  | indirect | indirectX | indirectY
  deriving DecidableEq

namespace Mode

def all : List Mode :=
  [implicit, accumulator, immediate, zeroPage, zeroPageX, zeroPageY, relative,
    absolute, absoluteX, absoluteY, indirect, indirectX, indirectY]

theorem mem_all (mode : Mode) : mode ∈ all := by cases mode <;> decide

def name : Mode → String
  | implicit => "Implicit"
  | accumulator => "Accumulator"
  | immediate => "Immediate"
  | zeroPage => "ZeroPage"
  | zeroPageX => "ZeroPageX"
  | zeroPageY => "ZeroPageY"
  | relative => "Relative"
  | absolute => "Absolute"
  | absoluteX => "AbsoluteX"
  | absoluteY => "AbsoluteY"
  | indirect => "Indirect"
  | indirectX => "IndirectX"
  | indirectY => "IndirectY"

def ofName? (text : String) : Option Mode := all.find? (·.name == text)

theorem ofName?_name (mode : Mode) : ofName? mode.name = some mode := by
  cases mode <;> decide

def operandBytes : Mode → Nat
  | implicit | accumulator => 0
  | immediate | zeroPage | zeroPageX | zeroPageY | relative | indirectX | indirectY => 1
  | absolute | absoluteX | absoluteY | indirect => 2

def instructionLength (mode : Mode) : Nat := 1 + mode.operandBytes

theorem instructionLength_le (mode : Mode) : mode.instructionLength ≤ 3 := by
  cases mode <;> decide

end Mode

inductive Operand where
  | none
  | accumulator
  /-- The operand lies in memory; an immediate operand is the byte after the opcode. -/
  | address (address : UInt16)
  /-- A displacement from the instruction after a branch. -/
  | relative (offset : Int8)
  deriving DecidableEq

end Nmos6502
