import Nmos6502.Bus.Board
import Nmos6502.Proofs.Operands

/-! # Encodings of one operand

Apart from control flow, an instruction takes nothing from its encoding but the operand: once that
is resolved, neither the mode nor the place of the instruction makes a difference to what it does.
So a short encoding and the one that writes its address out in full can stand for each other,
wherever they are and whatever they overwrite.
-/

universe u

namespace Nmos6502
set_option autoImplicit false

namespace Machine

variable {M : Type u}

/-- The machines differ at most in the program counter and in what is recorded of an old halt. -/
structure SameButPc (m n : Machine M) : Prop where
  memory : m.memory = n.memory
  a : m.a = n.a
  x : m.x = n.x
  y : m.y = n.y
  sp : m.sp = n.sp
  p : m.p = n.p
  state : m.state = n.state
  retired : m.retired = n.retired
  config : m.config = n.config

def withPc (m : Machine M) (pc : UInt16) (haltCause : Option IllegalOpcode) : Machine M :=
  { m with pc, haltCause }

theorem SameButPc.eq_withPc {m n : Machine M} (h : m.SameButPc n) :
    n = m.withPc n.pc n.haltCause := by
  obtain ⟨⟨a, x, y, sp, p, pc, state, haltCause, retired, config⟩, memory⟩ := m
  obtain ⟨⟨a', x', y', sp', p', pc', state', haltCause', retired', config'⟩, memory'⟩ := n
  obtain ⟨rfl, rfl, rfl, rfl, rfl, rfl, rfl, rfl, rfl⟩ := h
  rfl

variable [Bus M]

/-- An operation that finds an address to store at does the same wherever the program counter is. -/
theorem execute_withPc (m : Machine M) {operation : Operation} {operand : Operand}
    (hMoves : operation.movesPc = false)
    (hStore : ∀ register, operation = .store register → ∃ location, operand = .address location)
    (pc : UInt16) (haltCause : Option IllegalOpcode) :
    ((m.withPc pc haltCause).execute operation operand).1 =
      (m.execute operation operand).1.withPc pc haltCause := by
  cases operation with
  | branch _ _ | jump | call | returnFromCall | returnFromInterrupt | interrupt => cases hMoves
  | store register =>
    -- Without an address a store would aim at the program counter.
    obtain ⟨location, rfl⟩ := hStore register rfl
    cases register <;> rfl
  | load register | incrementRegister register | decrementRegister register =>
    cases register <;> cases operand <;> rfl
  | transfer source target => cases source <;> cases target <;> rfl
  | compare register => cases register <;> cases operand <;> rfl
  | logic _ | add | subtract | testBits => cases operand <;> rfl
  | shift _ | increment | decrement => cases operand <;> rfl
  | _ => rfl

/-- The steps of the two machines leave the same, except that each goes on behind its own
instruction. -/
structure StepAlike (m n : Machine M) (i j : Instruction) : Prop where
  same : m.step.machine.SameButPc n.step.machine
  pc : m.step.machine.pc = m.pc + UInt16.ofNat i.length
  other_pc : n.step.machine.pc = n.pc + UInt16.ofNat j.length

theorem exists_address_of_store {m : Machine M} {i : Instruction} (hNext : m.next? = some i)
    {register : Register} (hStore : i.mnemonic.operation = .store register) :
    ∃ location, m.resolve i.mode = .address location := by
  have hSuits := suits_of_next? hNext
  rw [hStore] at hSuits
  exact m.exists_address hSuits

theorem SameButPc.stepAlike {m n : Machine M} {i j : Instruction} (h : m.SameButPc n)
    (hNext : m.next? = some i) (hOther : n.next? = some j) (hMnemonic : i.mnemonic = j.mnemonic)
    (hStraight : i.mnemonic.isControlFlow = false)
    (hOperand : m.resolve i.mode = n.resolve j.mode) : m.StepAlike n i j := by
  have hMachine := machine_of_straight hNext hStraight
  have hOtherMachine := machine_of_straight hOther (hMnemonic ▸ hStraight)
  have hExecuted : (n.execute i.mnemonic.operation (m.resolve i.mode)).1 =
      (m.execute i.mnemonic.operation (m.resolve i.mode)).1.withPc n.pc n.haltCause := by
    rw [h.eq_withPc]
    exact m.execute_withPc (i.mnemonic.movesPc_operation.trans hStraight)
      (fun _ => exists_address_of_store hNext) n.pc n.haltCause
  rw [← hMnemonic, ← hOperand, hExecuted] at hOtherMachine
  refine ⟨?_, by rw [hMachine], by rw [hOtherMachine]⟩
  rw [hMachine, hOtherMachine]
  exact ⟨rfl, rfl, rfl, rfl, rfl, rfl, rfl, congrArg (· + 1) h.retired, rfl⟩

/-! ## Short and long encodings -/

/-- Behind the opcode of `n`, in the second mode, stands as a word what the first mode makes of the
bytes behind the opcode of `m`: a byte of page zero, such a byte as the base of an index that stays
in the page, or the place of the operand byte itself. -/
inductive WritesOut (m n : Machine M) : Mode → Mode → Prop
  | zeroPage (hWord : n.readWord (n.pc + 1) = (m.read (m.pc + 1)).toUInt16) :
      WritesOut m n .zeroPage .absolute
  | zeroPageX (hWord : n.readWord (n.pc + 1) = (m.read (m.pc + 1)).toUInt16)
      (hInside : (m.read (m.pc + 1)).toNat + m.x.toNat < 256) :
      WritesOut m n .zeroPageX .absoluteX
  | zeroPageY (hWord : n.readWord (n.pc + 1) = (m.read (m.pc + 1)).toUInt16)
      (hInside : (m.read (m.pc + 1)).toNat + m.y.toNat < 256) :
      WritesOut m n .zeroPageY .absoluteY
  | immediate (hWord : n.readWord (n.pc + 1) = m.pc + 1) : WritesOut m n .immediate .absolute

end Machine

/-- Below the end of page zero, indexing as a byte and as a word are the same. -/
theorem Word.toUInt16_add {base index : UInt8} (hInside : base.toNat + index.toNat < 256) :
    (base + index).toUInt16 = base.toUInt16 + index.toUInt16 := by
  apply UInt16.toNat_inj.mp
  simp only [UInt8.toNat_toUInt16, UInt8.toNat_add, UInt16.toNat_add]
  omega

/-- No instruction of control flow has an immediate operand or one in page zero. -/
theorem Instruction.mode_of_isControlFlow {i : Instruction} (hMem : i ∈ documented)
    (hControl : i.mnemonic.isControlFlow = true) :
    i.mode ∈ [Mode.implicit, .relative, .absolute, .indirect] := by
  have hTable : (documented.all fun i => !i.mnemonic.isControlFlow ||
      [Mode.implicit, .relative, .absolute, .indirect].contains i.mode) = true := by
    decide +kernel
  simpa [hControl] using List.all_eq_true.mp hTable i hMem

namespace Machine.WritesOut

variable {M : Type u} [Bus M] {m n : Machine M}

theorem resolve_eq {first second : Mode} (h : m.WritesOut n first second) (hSame : m.SameButPc n) :
    m.resolve first = n.resolve second := by
  cases h with
  | zeroPage hWord | immediate hWord => exact congrArg Operand.address hWord.symm
  | zeroPageX hWord hInside =>
    rw [resolve, resolve, hWord, ← hSame.x, Word.toUInt16_add hInside]
  | zeroPageY hWord hInside =>
    rw [resolve, resolve, hWord, ← hSame.y, Word.toUInt16_add hInside]

theorem straight {i : Instruction} {second : Mode} (h : m.WritesOut n i.mode second)
    (hNext : m.next? = some i) : i.mnemonic.isControlFlow = false := by
  obtain ⟨-, hDecode⟩ := (m.next?_eq_some_iff i).mp hNext
  have hMem := ((Instruction.decode_eq_some_iff _ _).mp hDecode).1
  apply Bool.eq_false_iff.mpr
  intro hControl
  have hMode := Instruction.mode_of_isControlFlow hMem hControl
  generalize i.mode = first at h hMode
  cases h <;> simp at hMode

end Machine.WritesOut

namespace Machine

/-- The effect of an instruction depends on its encoding only through the resolved operand. On two
machines that differ at most in their program counters, instructions with the same mnemonic, outside
of control flow, whose modes resolve to the same operand, leave the same machine behind, each at the
instruction that follows it. In particular an encoding in page zero, with or without an index that
stays there, and the absolute encoding of the same address stand for each other, and so do an
immediate operand and the absolute address of its byte, for every mnemonic that has both. -/
theorem effect_of_operand_alone (M : Type u) [Bus M] {m n : Machine M} {i j : Instruction}
    (hSame : m.SameButPc n) (hNext : m.next? = some i) (hOther : n.next? = some j)
    (hMnemonic : i.mnemonic = j.mnemonic) :
    (i.mnemonic.isControlFlow = false → m.resolve i.mode = n.resolve j.mode →
      m.StepAlike n i j) ∧
    (m.WritesOut n i.mode j.mode → m.StepAlike n i j) := by
  refine ⟨hSame.stepAlike hNext hOther hMnemonic, fun hWritesOut => ?_⟩
  exact hSame.stepAlike hNext hOther hMnemonic (hWritesOut.straight hNext)
    (hWritesOut.resolve_eq hSame)

/-- Two stores over the pointer of the first one, and two increments of the operand byte of the first
one. -/
theorem effect_of_operand_alone_on_itself :
    let memory : Board := Bus.writeAll 0x10 [0x91, 0x12, 0x12, 0x00]
      (Bus.writeAll 0x20 [0x8D, 0x12, 0x00]
        (Bus.writeAll 0x30 [0xE6, 0x31] (Bus.writeAll 0x40 [0xEE, 0x31, 0x00] { lines := 0xFF })))
    let machine (pc : UInt16) : Machine Board :=
      { powerOn .standard memory with a := 0x42, pc := pc }
    (machine 0x10).step.machine.read 0x12 = 0x42 ∧
      (machine 0x10).step.machine.memory = (machine 0x20).step.machine.memory ∧
      (machine 0x30).step.machine.read 0x31 = 0x32 ∧
      (machine 0x30).step.machine.memory = (machine 0x40).step.machine.memory := by
  intro memory machine
  have hSame (pc other : UInt16) : (machine pc).SameButPc (machine other) :=
    ⟨rfl, rfl, rfl, rfl, rfl, rfl, rfl, rfl, rfl⟩
  have hPointer : (machine 0x10).next? = some ⟨0x91, .sta, .indirectY⟩ := by decide +kernel
  have hStore : (machine 0x20).next? = some ⟨0x8D, .sta, .absolute⟩ := by decide +kernel
  have hShort : (machine 0x30).next? = some ⟨0xE6, .inc, .zeroPage⟩ := by decide +kernel
  have hLong : (machine 0x40).next? = some ⟨0xEE, .inc, .absolute⟩ := by decide +kernel
  obtain ⟨hAlike, -⟩ := effect_of_operand_alone Board (hSame 0x10 0x20) hPointer hStore rfl
  obtain ⟨-, hWritten⟩ := effect_of_operand_alone Board (hSame 0x30 0x40) hShort hLong rfl
  exact ⟨by decide +kernel, (hAlike rfl (by decide +kernel)).same.memory,
    by decide +kernel, (hWritten (.zeroPage (by decide +kernel))).same.memory⟩

end Machine

end Nmos6502
