import Nmos6502.Arithmetic
import Nmos6502.Machine.Operand
import Nmos6502.Machine.Stack

/-! # Execution of one operation

An operation works on an operand that was resolved before it started. It says how the program
counter goes on, and moves it only when it goes on elsewhere.
-/

universe u

namespace Nmos6502
set_option autoImplicit false

/-- How a program goes on after an operation. -/
inductive Flow where
  | next
  | jump
  | brk
  deriving DecidableEq

namespace Machine

variable {M : Type u} [Bus M]

def interruptVector : UInt16 := 0xFFFE

def deliver (m : Machine M) (register : Register) (result : UInt8) : Machine M :=
  (m.put register result).describing result

def accumulate (m : Machine M) (byte : UInt8) : Machine M :=
  let sum := addWithCarry m.a byte m.p.carry
  { m with
    a := sum.result
    p := { m.p with carry := sum.carry, overflow := sum.overflow }.describing sum.result }

def execute (operation : Operation) (operand : Operand) (m : Machine M) : Machine M × Flow :=
  match operation with
  | .load register => (m.deliver register (m.readOperand operand), .next)
  | .store register => (m.write (m.target operand) (m.get register), .next)
  | .transfer source .sp => (m.put .sp (m.get source), .next)
  | .transfer source register => (m.deliver register (m.get source), .next)
  | .logic logic => (m.deliver .a (logic.apply m.a (m.readOperand operand)), .next)
  | .add => (m.accumulate (m.readOperand operand), .next)
  | .subtract => (m.accumulate (~~~ m.readOperand operand), .next)
  | .compare register =>
    let value := m.get register
    let byte := m.readOperand operand
    ({ m with p := { m.p with carry := byte ≤ value }.describing (value - byte) }, .next)
  | .testBits =>
    let byte := m.readOperand operand
    ({ m with
      p := { m.p with
        zero := m.a &&& byte == 0
        overflow := byte &&& 0x40 != 0
        negative := Byte.isNegative byte } }, .next)
  | .shift shift =>
    let (result, carry) := shift.apply (m.readOperand operand) m.p.carry
    let m := m.writeOperand operand result
    ({ m with p := { m.p with carry }.describing result }, .next)
  | .increment =>
    let result := m.readOperand operand + 1
    ((m.writeOperand operand result).describing result, .next)
  | .decrement =>
    let result := m.readOperand operand - 1
    ((m.writeOperand operand result).describing result, .next)
  | .incrementRegister register => (m.deliver register (m.get register + 1), .next)
  | .decrementRegister register => (m.deliver register (m.get register - 1), .next)
  | .branch flag on =>
    match operand with
    | .relative offset =>
      if m.p.get flag = on then
        ({ m with pc := m.pc + 2 + UInt16.ofInt offset.toInt }, .jump)
      else
        (m, .next)
    | .none | .accumulator | .address _ => (m, .next)
  | .jump => ({ m with pc := m.target operand }, .jump)
  | .call =>
    let target := m.target operand
    ({ m.pushWord (m.pc + 2) with pc := target }, .jump)
  | .returnFromCall =>
    let (last, m) := m.pullWord
    ({ m with pc := last + 1 }, .jump)
  | .returnFromInterrupt =>
    let (status, m) := m.pull
    let (pc, m) := m.pullWord
    ({ m with p := .pulled status, pc }, .jump)
  | .interrupt =>
    let status := m.p.pushed
    let m := (m.pushWord (m.pc + 2)).push status
    ({ m with p := { m.p with interruptDisable := true }, pc := m.readWord interruptVector }, .brk)
  | .pushAccumulator => (m.push m.a, .next)
  | .pushStatus => (m.push m.p.pushed, .next)
  | .pullAccumulator =>
    let (byte, m) := m.pull
    (m.deliver .a byte, .next)
  | .pullStatus =>
    let (byte, m) := m.pull
    (m.setStatus byte, .next)
  | .setFlag flag on => ({ m with p := m.p.put flag on }, .next)
  | .idle => (m, .next)

end Machine

end Nmos6502
