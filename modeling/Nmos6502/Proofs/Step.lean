import Nmos6502.Machine.Step

/-! # What a step can do

A step does nothing on a halted machine, executes one documented instruction, or treats an
undocumented opcode as the configuration says. Operations leave the control part of a machine
alone, so a step changes it in few places, and `step_result` collects them.
-/

universe u

namespace Nmos6502
set_option autoImplicit false

/-- The part of a processor that no operation touches. -/
structure Control where
  state : RunState
  haltCause : Option IllegalOpcode
  retired : UInt64
  config : Config

def Processor.control (c : Processor) : Control := ⟨c.state, c.haltCause, c.retired, c.config⟩

theorem Mnemonic.eq_brk_of_operation {mnemonic : Mnemonic}
    (hOperation : mnemonic.operation = .interrupt) : mnemonic = .brk := by
  cases mnemonic <;> first | rfl | cases hOperation

namespace Machine

variable {M : Type u} [Bus M]

/-- The instruction that the next step executes; there is none on a halted machine or in front of
an undocumented opcode. -/
def next? (m : Machine M) : Option Instruction :=
  match m.state with
  | .running => Instruction.decode (m.read m.pc)
  | .halted => none

/-- The next step of `m` executes `i` and leads to `after`. -/
structure Executes (m : Machine M) (i : Instruction) (after : Machine M) : Prop where
  next : m.next? = some i
  step : m.step.machine = after

/-- The next step of `m` fetches an undocumented opcode. -/
structure Meets (m : Machine M) (fault : IllegalOpcode) : Prop where
  running : m.state = .running
  fault_eq : fault = ⟨m.read m.pc, m.pc⟩
  undocumented : Instruction.decode fault.opcode = none

def reject (m : Machine M) (fault : IllegalOpcode) : Machine M :=
  { m with state := .halted, haltCause := some fault }

def skip (m : Machine M) : Machine M := { m with pc := m.pc + 1, retired := m.retired + 1 }

theorem next?_eq_some_iff (m : Machine M) (i : Instruction) :
    m.next? = some i ↔ m.state = .running ∧ Instruction.decode (m.read m.pc) = some i := by
  unfold next?
  cases m.state <;> simp

theorem next?_eq_none_iff (m : Machine M) :
    m.next? = none ↔ m.state = .halted ∨ Instruction.decode (m.read m.pc) = none := by
  unfold next?
  cases m.state <;> simp

theorem Meets.next? {m : Machine M} {fault : IllegalOpcode} (hMeets : m.Meets fault) :
    m.next? = none := by
  have hDecode : Instruction.decode (m.read m.pc) = none := by
    have hUndocumented := hMeets.undocumented
    rwa [hMeets.fault_eq] at hUndocumented
  rw [Machine.next?, hMeets.running, hDecode]

theorem Meets.unique {m : Machine M} {fault other : IllegalOpcode} (h : m.Meets fault)
    (hOther : m.Meets other) : fault = other := h.fault_eq.trans hOther.fault_eq.symm

theorem step_of_halted {m : Machine M} (hHalted : m.state = .halted) :
    m.step = ⟨m, .ok .halted, []⟩ := by
  rw [step, hHalted]

theorem step_of_next? {m : Machine M} {i : Instruction} (hNext : m.next? = some i) :
    m.step = m.stepDocumented i := by
  obtain ⟨hRunning, hDecode⟩ := (m.next?_eq_some_iff i).mp hNext
  simp only [step, hRunning, hDecode]

theorem step_cases (m : Machine M) :
    (m.state = .halted ∧ m.step = ⟨m, .ok .halted, []⟩) ∨
    (∃ i, m.next? = some i ∧ m.step = m.stepDocumented i) ∨
    (∃ fault, m.Meets fault ∧ m.config.illegalOpcode = .halt ∧
      m.step = ⟨m.reject fault, .error fault, [.rejected fault]⟩) ∨
    ∃ fault, m.Meets fault ∧ m.config.illegalOpcode = .skip ∧
      m.step = ⟨m.skip, .ok .running, [.skipped fault]⟩ := by
  cases hState : m.state with
  | halted => exact .inl ⟨rfl, step_of_halted hState⟩
  | running =>
    cases hDecode : Instruction.decode (m.read m.pc) with
    | some i =>
      have hNext := (m.next?_eq_some_iff i).mpr ⟨hState, hDecode⟩
      exact .inr (.inl ⟨i, hNext, step_of_next? hNext⟩)
    | none =>
      have hMeets : m.Meets ⟨m.read m.pc, m.pc⟩ := ⟨hState, rfl, hDecode⟩
      have hStep : m.step = m.stepUndocumented (m.read m.pc) := by
        simp only [step, hState, hDecode]
      cases hPolicy : m.config.illegalOpcode with
      | halt =>
        refine .inr (.inr (.inl ⟨_, hMeets, rfl, ?_⟩))
        rw [hStep, stepUndocumented, hPolicy]
        rfl
      | skip =>
        refine .inr (.inr (.inr ⟨_, hMeets, rfl, ?_⟩))
        simp only [hStep, stepUndocumented, hPolicy, skip, hState]

omit [Bus M] in
theorem control_put (m : Machine M) (register : Register) (value : UInt8) :
    (m.put register value).control = m.control := by
  cases register <;> rfl

theorem control_writeOperand (m : Machine M) (operand : Operand) (byte : UInt8) :
    (m.writeOperand operand byte).control = m.control := by
  cases operand <;> rfl

theorem execute_branch (m : Machine M) (flag : Flag) (on : Bool) (operand : Operand) :
    ∃ pc, (m.execute (.branch flag on) operand).1 = { m with pc := pc } := by
  cases operand with
  | relative offset =>
    simp only [execute]
    split <;> exact ⟨_, rfl⟩
  | none => exact ⟨_, rfl⟩
  | accumulator => exact ⟨_, rfl⟩
  | address _ => exact ⟨_, rfl⟩

theorem execute_control (m : Machine M) (operation : Operation) (operand : Operand) :
    (m.execute operation operand).1.control = m.control := by
  cases operation with
  | transfer source target => cases target <;> rfl
  | shift shift => exact control_writeOperand m operand _
  | increment => exact control_writeOperand m operand _
  | decrement => exact control_writeOperand m operand _
  | load register => exact control_put m register _
  | incrementRegister register => exact control_put m register _
  | decrementRegister register => exact control_put m register _
  | branch flag on =>
    obtain ⟨pc, hMachine⟩ := m.execute_branch flag on operand
    rw [hMachine]
    rfl
  | _ => rfl

/-- Only the three fields named here can differ between the machine that an operation leaves and the
machine after the step that executed it. -/
theorem stepDocumented_machine (m : Machine M) (i : Instruction) :
    let left := (m.execute i.mnemonic.operation (m.resolve i.mode)).1
    ∃ pc state, (m.stepDocumented i).machine =
      { left with pc := pc, state := state, retired := left.retired + 1 } := by
  simp only [stepDocumented]
  split
  · exact ⟨_, _, rfl⟩
  · exact ⟨_, _, rfl⟩
  · split <;> exact ⟨_, _, rfl⟩

theorem stepDocumented_control (m : Machine M) (i : Instruction) : ∃ state,
    (m.stepDocumented i).machine.control = ⟨state, m.haltCause, m.retired + 1, m.config⟩ := by
  obtain ⟨pc, state, hMachine⟩ := m.stepDocumented_machine i
  have hControl := m.execute_control i.mnemonic.operation (m.resolve i.mode)
  refine ⟨state, ?_⟩
  calc (m.stepDocumented i).machine.control
    _ = { (m.execute i.mnemonic.operation (m.resolve i.mode)).1.control with
          state := state
          retired := (m.execute i.mnemonic.operation (m.resolve i.mode)).1.control.retired + 1 } := by
      rw [hMachine]
      rfl
    _ = ⟨state, m.haltCause, m.retired + 1, m.config⟩ := by
      rw [hControl]
      rfl

theorem stepDocumented_haltCause (m : Machine M) (i : Instruction) :
    (m.stepDocumented i).machine.haltCause = m.haltCause := by
  obtain ⟨state, hControl⟩ := m.stepDocumented_control i
  exact congrArg Control.haltCause hControl

theorem stepDocumented_pc (m : Machine M) (i : Instruction)
    (hFlow : (m.execute i.mnemonic.operation (m.resolve i.mode)).2 ≠ .next) :
    (m.stepDocumented i).machine.pc =
      (m.execute i.mnemonic.operation (m.resolve i.mode)).1.pc := by
  simp only [stepDocumented]
  split
  · rename_i hNext
    exact absurd hNext hFlow
  · rfl
  · split <;> rfl

theorem Executes.machine_eq {m t : Machine M} {i : Instruction} (h : m.Executes i t) :
    t = (m.stepDocumented i).machine := by
  rw [← h.step, step_of_next? h.next]

theorem stepDocumented_result (m : Machine M) (i : Instruction) :
    (m.stepDocumented i).result = .ok (m.stepDocumented i).machine.state := by
  simp only [stepDocumented]
  split
  · rfl
  · rfl
  · split <;> rfl

/-- A step answers with the run state it leaves and keeps the recorded cause, or it rejects an
undocumented opcode. -/
theorem step_result (m : Machine M) :
    (m.step.result = .ok m.step.machine.state ∧ m.step.machine.haltCause = m.haltCause) ∨
    ∃ fault, m.Meets fault ∧ m.config.illegalOpcode = .halt ∧
      m.step = ⟨m.reject fault, .error fault, [.rejected fault]⟩ := by
  obtain ⟨hState, hStep⟩ | ⟨i, -, hStep⟩ | hRejected | ⟨fault, hMeets, -, hStep⟩ := m.step_cases
  · rw [hStep]
    exact .inl ⟨by rw [hState], rfl⟩
  · rw [hStep]
    exact .inl ⟨m.stepDocumented_result i, m.stepDocumented_haltCause i⟩
  · exact .inr hRejected
  · rw [hStep]
    exact .inl ⟨congrArg Except.ok hMeets.running.symm, rfl⟩

theorem step_of_rejects {m : Machine M} {fault : IllegalOpcode} (hMeets : m.Meets fault)
    (hPolicy : m.config.illegalOpcode = .halt) :
    m.step = ⟨m.reject fault, .error fault, [.rejected fault]⟩ := by
  obtain ⟨hHalted, -⟩ | ⟨i, hNext, -⟩ | ⟨other, hOther, -, hStep⟩ | ⟨-, -, hSkip, -⟩ := m.step_cases
  · cases hMeets.running.symm.trans hHalted
  · cases hMeets.next?.symm.trans hNext
  · rw [hStep, hMeets.unique hOther]
  · cases hPolicy.symm.trans hSkip

theorem step_of_skips {m : Machine M} {fault : IllegalOpcode} (hMeets : m.Meets fault)
    (hPolicy : m.config.illegalOpcode = .skip) :
    m.step = ⟨m.skip, .ok .running, [.skipped fault]⟩ := by
  obtain ⟨hHalted, -⟩ | ⟨i, hNext, -⟩ | ⟨-, -, hHalt, -⟩ | ⟨other, hOther, -, hStep⟩ := m.step_cases
  · cases hMeets.running.symm.trans hHalted
  · cases hMeets.next?.symm.trans hNext
  · cases hPolicy.symm.trans hHalt
  · rw [hStep, hMeets.unique hOther]

theorem step_eq_error_iff (m : Machine M) (fault : IllegalOpcode) :
    m.step.result = .error fault ↔ m.Meets fault ∧ m.config.illegalOpcode = .halt := by
  constructor
  · intro hFault
    obtain ⟨hOk, -⟩ | ⟨other, hMeets, hPolicy, hStep⟩ := m.step_result
    · cases hOk.symm.trans hFault
    · rw [hStep] at hFault
      cases hFault
      exact ⟨hMeets, hPolicy⟩
  · rintro ⟨hMeets, hPolicy⟩
    rw [step_of_rejects hMeets hPolicy]

theorem step_of_running {m : Machine M} (hAfter : m.step.machine.state = .running) :
    m.step.result = .ok .running := by
  obtain ⟨hOk, -⟩ | ⟨fault, -, -, hStep⟩ := m.step_result
  · rw [hOk, hAfter]
  · rw [hStep] at hAfter
    cases hAfter

theorem operation_of_flow_brk {m : Machine M} {operation : Operation} {operand : Operand}
    (hFlow : (m.execute operation operand).2 = .brk) : operation = .interrupt := by
  cases operation with
  | interrupt => rfl
  | transfer source target => cases target <;> cases hFlow
  | branch flag on =>
    cases operand with
    | relative offset =>
      simp only [execute] at hFlow
      split at hFlow <;> cases hFlow
    | _ => cases hFlow
  | _ => cases hFlow

theorem stepDocumented_halts {m : Machine M} {i : Instruction} (hRunning : m.state = .running)
    (hHalted : (m.stepDocumented i).machine.state = .halted) : i.mnemonic = .brk := by
  have hState : (m.execute i.mnemonic.operation (m.resolve i.mode)).1.state = .running :=
    (congrArg Control.state (m.execute_control _ _)).trans hRunning
  simp only [stepDocumented] at hHalted
  split at hHalted
  · cases hState.symm.trans hHalted
  · cases hState.symm.trans hHalted
  · rename_i hFlow
    exact Mnemonic.eq_brk_of_operation (operation_of_flow_brk hFlow)

/-- Only a machine that is configured to halt on BRK is halted by an instruction. -/
theorem haltOnBrk_of_stepDocumented {m : Machine M} {i : Instruction}
    (hRunning : m.state = .running) (hHalted : (m.stepDocumented i).machine.state = .halted) :
    m.config.haltOnBrk = true := by
  have hControl := m.execute_control i.mnemonic.operation (m.resolve i.mode)
  have hState := (congrArg Control.state hControl).trans hRunning
  have hConfig := congrArg Control.config hControl
  simp only [stepDocumented] at hHalted
  split at hHalted
  · cases hState.symm.trans hHalted
  · cases hState.symm.trans hHalted
  · split at hHalted
    · rename_i hHalts
      exact (congrArg Config.haltOnBrk hConfig).symm.trans hHalts
    · cases hState.symm.trans hHalted

theorem halted_of_brk {m : Machine M} {i : Instruction} (hNext : m.next? = some i)
    (hBrk : i.mnemonic = .brk) (hHalts : m.config.haltOnBrk = true) :
    m.step.machine.state = .halted := by
  have hControl := m.execute_control i.mnemonic.operation (m.resolve i.mode)
  have hFlow : (m.execute i.mnemonic.operation (m.resolve i.mode)).2 = .brk := by
    rw [hBrk]
    rfl
  have hAfter : (m.execute i.mnemonic.operation (m.resolve i.mode)).1.config.haltOnBrk = true :=
    (congrArg (·.config.haltOnBrk) hControl).trans hHalts
  rw [step_of_next? hNext]
  simp only [stepDocumented, hFlow]
  rw [if_pos hAfter]

/-- A running machine is halted by a BRK, which leaves no new cause, or by rejecting an undocumented
opcode; no other step halts it. -/
theorem step_halts {m : Machine M} (hRunning : m.state = .running)
    (hHalted : m.step.machine.state = .halted) :
    (∃ i, m.next? = some i ∧ i.mnemonic = .brk ∧ m.step.machine.haltCause = m.haltCause) ∨
    ∃ fault, m.Meets fault ∧ m.config.illegalOpcode = .halt ∧
      m.step = ⟨m.reject fault, .error fault, [.rejected fault]⟩ := by
  obtain ⟨hState, -⟩ | ⟨i, hNext, hStep⟩ | hRejected | ⟨fault, hMeets, -, hStep⟩ := m.step_cases
  · cases hRunning.symm.trans hState
  · rw [hStep] at hHalted ⊢
    exact .inl ⟨i, hNext, stepDocumented_halts hRunning hHalted, m.stepDocumented_haltCause i⟩
  · exact .inr hRejected
  · rw [hStep] at hHalted
    cases hMeets.running.symm.trans hHalted

theorem config_step (m : Machine M) : m.step.machine.config = m.config := by
  obtain ⟨-, hStep⟩ | ⟨i, -, hStep⟩ | ⟨fault, -, -, hStep⟩ | ⟨fault, -, -, hStep⟩ := m.step_cases
  · rw [hStep]
  · obtain ⟨state, hControl⟩ := m.stepDocumented_control i
    rw [hStep]
    exact congrArg Control.config hControl
  · rw [hStep]
    rfl
  · rw [hStep]
    rfl

/-! ## Going on behind an instruction -/

end Machine

/-- The operations that may leave the program counter elsewhere than behind the instruction. -/
def Operation.movesPc : Operation → Bool
  | branch _ _ | jump | call | returnFromCall | returnFromInterrupt | interrupt => true
  | _ => false

theorem Mnemonic.movesPc_operation (mnemonic : Mnemonic) :
    mnemonic.operation.movesPc = mnemonic.isControlFlow := by
  cases mnemonic <;> rfl

namespace Machine

variable {M : Type u} [Bus M]

omit [Bus M] in
theorem pc_put (m : Machine M) (register : Register) (value : UInt8) :
    (m.put register value).pc = m.pc := by
  cases register <;> rfl

theorem pc_writeOperand (m : Machine M) (operand : Operand) (byte : UInt8) :
    (m.writeOperand operand byte).pc = m.pc := by
  cases operand <;> rfl

theorem execute_of_movesPc (m : Machine M) {operation : Operation} (operand : Operand)
    (hMoves : operation.movesPc = false) :
    (m.execute operation operand).2 = .next ∧ (m.execute operation operand).1.pc = m.pc := by
  cases operation with
  | branch _ _ | jump | call | returnFromCall | returnFromInterrupt | interrupt => cases hMoves
  | transfer source target => cases target <;> exact ⟨rfl, rfl⟩
  | load register => exact ⟨rfl, m.pc_put register _⟩
  | incrementRegister register => exact ⟨rfl, m.pc_put register _⟩
  | decrementRegister register => exact ⟨rfl, m.pc_put register _⟩
  | shift shift => exact ⟨rfl, m.pc_writeOperand operand _⟩
  | increment => exact ⟨rfl, m.pc_writeOperand operand _⟩
  | decrement => exact ⟨rfl, m.pc_writeOperand operand _⟩
  | _ => exact ⟨rfl, rfl⟩

/-- A step outside of control flow leaves what its operation leaves, with the program counter moved on
and the step counted. -/
theorem machine_of_straight {m : Machine M} {i : Instruction} (hNext : m.next? = some i)
    (hStraight : i.mnemonic.isControlFlow = false) : m.step.machine =
      { (m.execute i.mnemonic.operation (m.resolve i.mode)).1 with
        pc := m.pc + UInt16.ofNat i.length
        retired := m.retired + 1 } := by
  rw [← i.mnemonic.movesPc_operation] at hStraight
  obtain ⟨hFlow, hPc⟩ := m.execute_of_movesPc (m.resolve i.mode) hStraight
  have hRetired : (m.execute i.mnemonic.operation (m.resolve i.mode)).1.retired = m.retired :=
    congrArg Control.retired (m.execute_control i.mnemonic.operation (m.resolve i.mode))
  rw [step_of_next? hNext, ← hRetired]
  simp only [stepDocumented, hFlow, hPc]

/-- An instruction outside of control flow goes on behind itself and leaves the machine running. -/
theorem step_of_straight {m : Machine M} {i : Instruction} (hNext : m.next? = some i)
    (hStraight : i.mnemonic.isControlFlow = false) :
    m.step.result = .ok .running ∧ m.step.machine.state = .running ∧
      m.step.machine.pc = m.pc + UInt16.ofNat i.length := by
  obtain ⟨hRunning, -⟩ := (m.next?_eq_some_iff i).mp hNext
  have hMachine := machine_of_straight hNext hStraight
  have hState : m.step.machine.state = .running := by
    rw [hMachine]
    exact (congrArg Control.state (m.execute_control _ _)).trans hRunning
  exact ⟨step_of_running hState, hState, by rw [hMachine]⟩

end Machine

end Nmos6502
