import Nmos6502.Proofs.Step

/-! # What a step writes

The bytes that an operation puts on the bus are known before it starts: the one byte it stores
through its operand, or the bytes it pushes. Memory after a step is memory before it with exactly
these writes made, on any bus, and the stack pointer counts the bytes pushed and pulled.
-/

universe u

namespace Nmos6502
set_option autoImplicit false

namespace Bus

variable {M : Type u} [Bus M]

def writeEach : List (UInt16 × UInt8) → M → M
  | [], memory => memory
  | (address, byte) :: rest, memory => writeEach rest (write memory address byte)

theorem writeEach_append (first second : List (UInt16 × UInt8)) (memory : M) :
    writeEach (first ++ second) memory = writeEach second (writeEach first memory) := by
  induction first generalizing memory with
  | nil => rfl
  | cons head rest ih => exact ih (write memory head.1 head.2)

/-- Of the writes, made in order, one changes what is read at `address` when its turn comes. -/
def Touches (writes : List (UInt16 × UInt8)) (memory : M) (address : UInt16) : Prop :=
  ∃ before entry after, writes = before ++ entry :: after ∧
    read (write (writeEach before memory) entry.1 entry.2) address ≠
      read (writeEach before memory) address

theorem touches_of_read_ne {writes : List (UInt16 × UInt8)} {memory : M} {address : UInt16}
    (hChanged : read (writeEach writes memory) address ≠ read memory address) :
    Touches writes memory address := by
  induction writes generalizing memory with
  | nil => exact absurd rfl hChanged
  | cons head rest ih =>
    by_cases hHead : read (write memory head.1 head.2) address = read memory address
    · have hLater : read (writeEach rest (write memory head.1 head.2)) address ≠
          read (write memory head.1 head.2) address := by rwa [hHead]
      obtain ⟨before, entry, after, hSplit, hEntry⟩ := ih hLater
      exact ⟨head :: before, entry, after, congrArg (head :: ·) hSplit, hEntry⟩
    · exact ⟨[], head, rest, rfl, hHead⟩

end Bus

theorem Byte.sub_sub (a b c : UInt8) : a - b - c = a - (b + c) := by
  apply UInt8.toBitVec_inj.mp
  exact BitVec.sub_sub _ _ _

def Operation.pulls : Operation → Nat
  | pullAccumulator | pullStatus => 1
  | returnFromCall => 2
  | returnFromInterrupt => 3
  | _ => 0

def Operation.loadsSp : Operation → Bool
  | load .sp | transfer _ .sp | incrementRegister .sp | decrementRegister .sp => true
  | _ => false

/-- The writes of pushing the bytes, the first at `sp`. -/
def Word.pushWrites (sp : UInt8) : List UInt8 → List (UInt16 × UInt8)
  | [] => []
  | byte :: rest => (stackSlot sp, byte) :: pushWrites (sp - 1) rest

def Operand.writes (operand : Operand) (byte : UInt8) : List (UInt16 × UInt8) :=
  match operand with
  | .address location => [(location, byte)]
  | .none | .accumulator | .relative _ => []

namespace Machine

variable {M : Type u} [Bus M]

def pushedBytes (m : Machine M) : Operation → List UInt8
  | .call => [Word.high (m.pc + 2), Word.low (m.pc + 2)]
  | .interrupt => [Word.high (m.pc + 2), Word.low (m.pc + 2), m.p.pushed]
  | .pushAccumulator => [m.a]
  | .pushStatus => [m.p.pushed]
  | _ => []

def operationWrites (m : Machine M) (operation : Operation) (operand : Operand) :
    List (UInt16 × UInt8) :=
  match operation with
  | .store register => [(m.target operand, m.get register)]
  | .shift shift => operand.writes (shift.apply (m.readOperand operand) m.p.carry).1
  | .increment => operand.writes (m.readOperand operand + 1)
  | .decrement => operand.writes (m.readOperand operand - 1)
  | _ => Word.pushWrites m.sp (m.pushedBytes operation)

/-- The writes of the next step, in order. -/
def writes (m : Machine M) : List (UInt16 × UInt8) :=
  match m.next? with
  | some i => m.operationWrites i.mnemonic.operation (m.resolve i.mode)
  | none => []

theorem writes_of_next? {m : Machine M} {i : Instruction} (hNext : m.next? = some i) :
    m.writes = m.operationWrites i.mnemonic.operation (m.resolve i.mode) := by
  rw [writes, hNext]

omit [Bus M] in
theorem memory_put (m : Machine M) (register : Register) (value : UInt8) :
    (m.put register value).memory = m.memory := by
  cases register <;> rfl

theorem memory_writeOperand (m : Machine M) (operand : Operand) (byte : UInt8) :
    (m.writeOperand operand byte).memory = Bus.writeEach (operand.writes byte) m.memory := by
  cases operand <;> rfl

theorem execute_memory (m : Machine M) (operation : Operation) (operand : Operand) :
    (m.execute operation operand).1.memory =
      Bus.writeEach (m.operationWrites operation operand) m.memory := by
  cases operation with
  | transfer source target => cases target <;> rfl
  | shift shift => exact memory_writeOperand m operand _
  | increment => exact memory_writeOperand m operand _
  | decrement => exact memory_writeOperand m operand _
  | load register => exact memory_put m register _
  | incrementRegister register => exact memory_put m register _
  | decrementRegister register => exact memory_put m register _
  | branch flag on =>
    obtain ⟨pc, hMachine⟩ := m.execute_branch flag on operand
    rw [hMachine]
    rfl
  | _ => rfl

theorem memory_step (m : Machine M) :
    m.step.machine.memory = Bus.writeEach m.writes m.memory := by
  unfold writes
  obtain ⟨hState, hStep⟩ | ⟨i, hNext, hStep⟩ | ⟨fault, hMeets, -, hStep⟩ |
    ⟨fault, hMeets, -, hStep⟩ := m.step_cases
  · rw [next?, hState, hStep]
    rfl
  · obtain ⟨pc, state, hMachine⟩ := m.stepDocumented_machine i
    rw [hNext, hStep, hMachine]
    exact m.execute_memory _ _
  · rw [hMeets.next?, hStep]
    rfl
  · rw [hMeets.next?, hStep]
    rfl

omit [Bus M] in
theorem sp_put (m : Machine M) {register : Register} (value : UInt8) (h : register ≠ .sp) :
    (m.put register value).sp = m.sp := by
  cases register with
  | sp => exact absurd rfl h
  | _ => rfl

theorem sp_writeOperand (m : Machine M) (operand : Operand) (byte : UInt8) :
    (m.writeOperand operand byte).sp = m.sp := by
  cases operand <;> rfl

/-- The stack pointer goes down by the bytes pushed and up by the bytes pulled. -/
theorem execute_sp (m : Machine M) (operation : Operation) (operand : Operand)
    (hLoads : operation.loadsSp = false) : (m.execute operation operand).1.sp =
      m.sp - UInt8.ofNat (m.pushedBytes operation).length + UInt8.ofNat operation.pulls := by
  have hStill : m.sp = m.sp - 0 + 0 := by rw [UInt8.sub_zero, UInt8.add_zero]
  cases operation with
  | transfer source target =>
    cases target with
    | sp => cases hLoads
    | _ => exact hStill
  | load register =>
    exact (sp_put m _ fun h => by subst h; cases hLoads).trans hStill
  | incrementRegister register =>
    exact (sp_put m _ fun h => by subst h; cases hLoads).trans hStill
  | decrementRegister register =>
    exact (sp_put m _ fun h => by subst h; cases hLoads).trans hStill
  | shift shift => exact (sp_writeOperand m operand _).trans hStill
  | increment => exact (sp_writeOperand m operand _).trans hStill
  | decrement => exact (sp_writeOperand m operand _).trans hStill
  | branch flag on =>
    obtain ⟨pc, hMachine⟩ := m.execute_branch flag on operand
    rw [hMachine]
    exact hStill
  | call =>
    change m.sp - 1 - 1 = m.sp - 2 + 0
    rw [UInt8.add_zero, Byte.sub_sub]
    rfl
  | interrupt =>
    change m.sp - 1 - 1 - 1 = m.sp - 3 + 0
    rw [UInt8.add_zero, Byte.sub_sub, Byte.sub_sub]
    rfl
  | pushAccumulator =>
    change m.sp - 1 = m.sp - 1 + 0
    rw [UInt8.add_zero]
  | pushStatus =>
    change m.sp - 1 = m.sp - 1 + 0
    rw [UInt8.add_zero]
  | pullAccumulator =>
    change m.sp + 1 = m.sp - 0 + 1
    rw [UInt8.sub_zero]
  | pullStatus =>
    change m.sp + 1 = m.sp - 0 + 1
    rw [UInt8.sub_zero]
  | returnFromCall =>
    change m.sp + 1 + 1 = m.sp - 0 + 2
    rw [UInt8.sub_zero, UInt8.add_assoc]
    rfl
  | returnFromInterrupt =>
    change m.sp + 1 + 1 + 1 = m.sp - 0 + 3
    rw [UInt8.sub_zero, UInt8.add_assoc, UInt8.add_assoc]
    rfl
  | _ => exact hStill

end Machine

end Nmos6502
