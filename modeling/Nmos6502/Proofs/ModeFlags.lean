import Nmos6502.Bus.Board
import Nmos6502.Proofs.Run

/-! # The mode flags

The decimal and the interrupt-disable flag are stored, pushed and pulled, but nothing is computed
with them. Masking both out of a machine commutes with a step, PHP and BRK apart, which copy the
whole status to the stack. Two machines that differ in these flags alone therefore differ in nothing
else as long as neither instruction is executed, whatever the program does to itself on the way.
-/

universe u

namespace Nmos6502
set_option autoImplicit false

/-- The flags that select a mode; all others describe results. -/
def Flag.isMode : Flag → Bool
  | interruptDisable | decimal => true
  | _ => false

def Mnemonic.pushesStatus : Mnemonic → Bool
  | php | brk => true
  | _ => false

theorem Mnemonic.operation_ne_of_pushesStatus {mnemonic : Mnemonic}
    (hPushes : mnemonic.pushesStatus = false) :
    mnemonic.operation ≠ .pushStatus ∧ mnemonic.operation ≠ .interrupt := by
  cases mnemonic with
  | php | brk => cases hPushes
  | _ => decide

theorem Mnemonic.isMode_of_branch {mnemonic : Mnemonic} {flag : Flag} {on : Bool}
    (h : mnemonic.operation = .branch flag on) : flag.isMode = false := by
  cases mnemonic <;> cases h <;> rfl

namespace Status

def modeless (s : Status) : Status := { s with interruptDisable := false, decimal := false }

theorem get_modeless (s : Status) {flag : Flag} (hFlag : flag.isMode = false) :
    s.modeless.get flag = s.get flag := by
  cases flag with
  | interruptDisable | decimal => cases hFlag
  | _ => rfl

theorem modeless_put (s : Status) (flag : Flag) (on : Bool) :
    (s.modeless.put flag on).modeless = (s.put flag on).modeless := by
  cases flag <;> rfl

theorem modeless_eq_iff (s t : Status) :
    s.modeless = t.modeless ↔ ∀ flag, flag.isMode = false → s.get flag = t.get flag := by
  constructor
  · intro h flag hFlag
    rw [← s.get_modeless hFlag, h, t.get_modeless hFlag]
  · intro h
    apply ext_get
    intro flag
    cases hFlag : flag.isMode with
    | false => rw [s.get_modeless hFlag, t.get_modeless hFlag, h flag hFlag]
    | true =>
      cases flag with
      | interruptDisable | decimal => rfl
      | _ => cases hFlag

end Status

namespace Machine

variable {M : Type u}

def modeless (m : Machine M) : Machine M := { m with p := m.p.modeless }

/-- The machines are the same, except that their mode flags may differ. -/
structure SameButModes (m n : Machine M) : Prop where
  a : m.a = n.a
  x : m.x = n.x
  y : m.y = n.y
  sp : m.sp = n.sp
  pc : m.pc = n.pc
  flags : ∀ flag, flag.isMode = false → m.p.get flag = n.p.get flag
  state : m.state = n.state
  haltCause : m.haltCause = n.haltCause
  retired : m.retired = n.retired
  config : m.config = n.config
  memory : m.memory = n.memory

theorem sameButModes_iff (m n : Machine M) : m.SameButModes n ↔ m.modeless = n.modeless := by
  obtain ⟨⟨a, x, y, sp, p, pc, state, haltCause, retired, config⟩, memory⟩ := m
  obtain ⟨⟨a', x', y', sp', q, pc', state', haltCause', retired', config'⟩, memory'⟩ := n
  constructor
  · rintro ⟨rfl, rfl, rfl, rfl, rfl, hFlags, rfl, rfl, rfl, rfl, rfl⟩
    have hStatus : p.modeless = q.modeless := (p.modeless_eq_iff q).mpr hFlags
    simp only [modeless, hStatus]
  · intro h
    simp only [modeless, Machine.mk.injEq, Processor.mk.injEq] at h
    obtain ⟨⟨rfl, rfl, rfl, rfl, hStatus, rfl, rfl, rfl, rfl, rfl⟩, rfl⟩ := h
    exact ⟨rfl, rfl, rfl, rfl, rfl, (p.modeless_eq_iff q).mp hStatus, rfl, rfl, rfl, rfl, rfl⟩

theorem exists_of_modeless_eq {m n : Machine M} (h : m.modeless = n.modeless) :
    ∃ p : Status, n = { m with p := p } ∧ m.p.modeless = p.modeless := by
  obtain ⟨⟨a, x, y, sp, p, pc, state, haltCause, retired, config⟩, memory⟩ := m
  obtain ⟨⟨a', x', y', sp', q, pc', state', haltCause', retired', config'⟩, memory'⟩ := n
  simp only [modeless, Machine.mk.injEq, Processor.mk.injEq] at h
  obtain ⟨⟨rfl, rfl, rfl, rfl, hStatus, rfl, rfl, rfl, rfl, rfl⟩, rfl⟩ := h
  exact ⟨q, rfl, hStatus⟩

end Machine

def Transition.modeless {M : Type u} {α : Type} (t : Transition M α) : Transition M α :=
  { t with machine := t.machine.modeless }

namespace Machine

variable {M : Type u} [Bus M]

theorem execute_modeless (m : Machine M) {mnemonic : Mnemonic}
    (hPushes : mnemonic.pushesStatus = false) (operand : Operand) :
    (m.modeless.execute mnemonic.operation operand).1.modeless =
      (m.execute mnemonic.operation operand).1.modeless := by
  obtain ⟨hStatus, hInterrupt⟩ := Mnemonic.operation_ne_of_pushesStatus hPushes
  cases hOperation : mnemonic.operation with
  | pushStatus => exact absurd hOperation hStatus
  | interrupt => exact absurd hOperation hInterrupt
  | setFlag flag on =>
    have hPut := m.p.modeless_put flag on
    exact congrArg (fun p : Status => ({ m with p := p } : Machine M)) hPut
  | branch flag on =>
    cases operand with
    | relative offset =>
      have hGet : m.modeless.p.get flag = m.p.get flag :=
        m.p.get_modeless (Mnemonic.isMode_of_branch hOperation)
      simp only [execute, hGet]
      split <;> rfl
    | _ => rfl
  | load register | incrementRegister register | decrementRegister register =>
    cases register <;> rfl
  | transfer source target => cases source <;> cases target <;> rfl
  | store register => cases register <;> rfl
  | compare register => cases register <;> rfl
  | shift shift => cases operand <;> rfl
  | increment | decrement => cases operand <;> rfl
  | _ => rfl

theorem flow_modeless (m : Machine M) (mnemonic : Mnemonic) (operand : Operand) :
    (m.modeless.execute mnemonic.operation operand).2 =
      (m.execute mnemonic.operation operand).2 := by
  cases hOperation : mnemonic.operation with
  | transfer source target => cases target <;> rfl
  | branch flag on =>
    cases operand with
    | relative offset =>
      have hGet : m.modeless.p.get flag = m.p.get flag :=
        m.p.get_modeless (Mnemonic.isMode_of_branch hOperation)
      simp only [execute, hGet]
      split <;> rfl
    | _ => rfl
  | _ => rfl

theorem stepDocumented_modeless (m : Machine M) {i : Instruction}
    (hPushes : i.mnemonic.pushesStatus = false) :
    (m.modeless.stepDocumented i).modeless = (m.stepDocumented i).modeless := by
  have hOperand : m.modeless.resolve i.mode = m.resolve i.mode := by cases i.mode <;> rfl
  have hExecuted := m.execute_modeless hPushes (m.resolve i.mode)
  have hFlow := m.flow_modeless i.mnemonic (m.resolve i.mode)
  cases hM : m.execute i.mnemonic.operation (m.resolve i.mode) with
  | mk after _ =>
    cases hN : m.modeless.execute i.mnemonic.operation (m.resolve i.mode) with
    | mk other flow =>
      rw [hM, hN] at hExecuted hFlow
      subst hFlow
      obtain ⟨p, rfl, hStatus⟩ := exists_of_modeless_eq hExecuted
      simp only [stepDocumented, hOperand, hM, hN]
      cases flow with
      | next | jump => simp only [Transition.modeless, modeless, hStatus]
      | brk =>
        have hOperation := operation_of_flow_brk (congrArg Prod.snd hN)
        exact absurd hOperation (Mnemonic.operation_ne_of_pushesStatus hPushes).2

omit [Bus M] in
theorem stepUndocumented_modeless (m : Machine M) (opcode : UInt8) :
    (m.modeless.stepUndocumented opcode).modeless = (m.stepUndocumented opcode).modeless := by
  have hConfig : m.modeless.config = m.config := rfl
  unfold stepUndocumented
  rw [hConfig]
  cases m.config.illegalOpcode <;> rfl

/-- What the next step does, it does alike with both mode flags masked out. -/
theorem step_modeless {m : Machine M}
    (hPushes : ∀ i, m.next? = some i → i.mnemonic.pushesStatus = false) :
    m.modeless.step.modeless = m.step.modeless := by
  have hMasked : m.modeless.state = m.state ∧ m.modeless.read m.modeless.pc = m.read m.pc :=
    ⟨rfl, rfl⟩
  unfold step
  rw [hMasked.1, hMasked.2]
  cases hState : m.state with
  | halted => rfl
  | running =>
    cases hDecode : Instruction.decode (m.read m.pc) with
    | none => simp only [hDecode, m.stepUndocumented_modeless]
    | some i =>
      have hNext := (m.next?_eq_some_iff i).mpr ⟨hState, hDecode⟩
      simp only [hDecode, m.stepDocumented_modeless (hPushes i hNext)]

theorem SameButModes.next? {m n : Machine M} (hSame : m.SameButModes n) : m.next? = n.next? := by
  have hMasked : m.modeless.next? = n.modeless.next? := by rw [(m.sameButModes_iff n).mp hSame]
  exact hMasked

/-- Machines that differ in the mode flags alone take the same step. -/
theorem SameButModes.step {m n : Machine M} (hSame : m.SameButModes n)
    (hPushes : ∀ i, m.next? = some i → i.mnemonic.pushesStatus = false) :
    m.step.result = n.step.result ∧ m.step.events = n.step.events ∧
      m.step.machine.SameButModes n.step.machine := by
  have hMasked := (m.sameButModes_iff n).mp hSame
  have hStep : m.step.modeless = n.step.modeless := by
    rw [← step_modeless hPushes, hMasked, step_modeless]
    intro i hNext
    exact hPushes i (hSame.next?.trans hNext)
  have hResult : m.step.modeless.result = n.step.modeless.result := by rw [hStep]
  have hEvents : m.step.modeless.events = n.step.modeless.events := by rw [hStep]
  exact ⟨hResult, hEvents, (sameButModes_iff _ _).mpr (congrArg Transition.machine hStep)⟩

theorem SameButModes.stepped {m n : Machine M} (hSame : m.SameButModes n) {k : Nat}
    (hPushes : ∀ j < k, ∀ i, (m.stepped j).next? = some i → i.mnemonic.pushesStatus = false)
    {j : Nat} (hj : j ≤ k) : (m.stepped j).SameButModes (n.stepped j) := by
  induction j with
  | zero => exact hSame
  | succ j ih =>
    rw [stepped_succ, stepped_succ]
    exact ((ih (Nat.le_of_succ_le hj)).step (hPushes j hj)).2.2

/-- The accumulator and the carry of `after` hold the binary sum of `byte`, the accumulator and the
carry of `before`. -/
def Adds (before after : Machine M) (byte : UInt8) : Prop :=
  after.a.toNat + 256 * after.p.carry.toNat =
    before.a.toNat + byte.toNat + before.p.carry.toNat

theorem adds_of_next? {m : Machine M} {i : Instruction} (hNext : m.next? = some i) :
    let byte := m.readOperand (m.resolve i.mode)
    (i.mnemonic = .adc → m.Adds m.step.machine byte) ∧
      (i.mnemonic = .sbc → m.Adds m.step.machine (~~~ byte)) := by
  obtain ⟨pc, state, hMachine⟩ := m.stepDocumented_machine i
  rw [step_of_next? hNext, hMachine]
  constructor
  · intro hAdc
    rw [hAdc]
    exact toNat_addWithCarry m.a _ m.p.carry
  · intro hSbc
    rw [hSbc]
    exact toNat_addWithCarry m.a _ m.p.carry

/-- The mode flags never influence what a machine computes. Two machines that differ in these flags
alone agree after each step in the result and in everything else but the mode flags, for as long as
the first has executed neither PHP nor BRK. In particular both execute the same instructions, and
ADC and SBC add in binary in both of them. -/
theorem mode_flags_never_matter {m n : Machine M} (hSame : m.SameButModes n) {k : Nat}
    (hPushes : ∀ j < k, ∀ i, (m.stepped j).next? = some i → i.mnemonic.pushesStatus = false) :
    ∀ j < k,
      (m.stepped j).step.result = (n.stepped j).step.result ∧
      (m.stepped j).step.events = (n.stepped j).step.events ∧
      (m.stepped (j + 1)).SameButModes (n.stepped (j + 1)) ∧
      ∀ i, (m.stepped j).next? = some i → (n.stepped j).next? = some i ∧
        let byte := (m.stepped j).readOperand ((m.stepped j).resolve i.mode)
        (i.mnemonic = .adc → (m.stepped j).Adds (n.stepped (j + 1)) byte) ∧
        (i.mnemonic = .sbc → (m.stepped j).Adds (n.stepped (j + 1)) (~~~ byte)) := by
  intro j hj
  have hBefore := hSame.stepped hPushes (Nat.le_of_lt hj)
  obtain ⟨hResult, hEvents, -⟩ := hBefore.step (hPushes j hj)
  have hAfter := hSame.stepped hPushes hj
  refine ⟨hResult, hEvents, hAfter, fun i hNext => ⟨hBefore.next?.symm.trans hNext, ?_⟩⟩
  have hCarry : (m.stepped (j + 1)).p.carry = (n.stepped (j + 1)).p.carry :=
    hAfter.flags .carry rfl
  have hAdds := adds_of_next? hNext
  rw [← stepped_succ] at hAdds
  unfold Adds at hAdds ⊢
  rwa [← hAfter.a, ← hCarry]

/-- In decimal mode $28 and $19 would make $47. -/
theorem mode_flags_never_matter_in_addition :
    let m : Machine Board :=
      { powerOn .standard (Bus.writeAll 0 [0x69, 0x19, 0x48] {}) with a := 0x28 }
    let n := { m with p := { m.p with decimal := true, interruptDisable := true } }
    m.SameButModes n ∧
      (∀ j < 2, ∀ i, (m.stepped j).next? = some i → i.mnemonic.pushesStatus = false) ∧
      (n.stepped 1).a = 0x41 ∧ (m.stepped 2).memory = (n.stepped 2).memory := by
  intro m n
  have hFlags : ∀ flag, flag.isMode = false → m.p.get flag = n.p.get flag := by
    intro flag hFlag
    cases flag with
    | interruptDisable | decimal => cases hFlag
    | _ => rfl
  have hSame : m.SameButModes n := ⟨rfl, rfl, rfl, rfl, rfl, hFlags, rfl, rfl, rfl, rfl, rfl⟩
  have hPushes : ∀ j < 2, ∀ i, (m.stepped j).next? = some i → i.mnemonic.pushesStatus = false := by
    intro j hj i hNext
    have hFirst : (m.stepped 0).next? = some ⟨0x69, .adc, .immediate⟩ := by decide +kernel
    have hSecond : (m.stepped 1).next? = some ⟨0x48, .pha, .implicit⟩ := by decide +kernel
    obtain rfl | rfl : j = 0 ∨ j = 1 := by omega
    · rw [Option.some.inj (hNext.symm.trans hFirst)]
      rfl
    · rw [Option.some.inj (hNext.symm.trans hSecond)]
      rfl
  have hSteps := mode_flags_never_matter hSame hPushes
  have hSum : (m.stepped 1).a = 0x41 := by decide +kernel
  exact ⟨hSame, hPushes, (hSteps 0 (by decide)).2.2.1.a.symm.trans hSum,
    (hSteps 1 (by decide)).2.2.1.memory⟩

end Machine

end Nmos6502
