import Nmos6502.Bus.Board
import Nmos6502.Proofs.Operands
import Nmos6502.Proofs.Stack

/-! # Where a program goes on

An instruction outside of control flow goes on behind itself. The others go on where their rule
says: a branch, if its flag has the right value, at a signed displacement from the instruction
behind it; a jump or a call at the address it names; a return at a word from the stack; BRK at the
word in the interrupt vector. All of it modulo 65536, for instructions at any address.
-/

universe u

namespace Nmos6502
set_option autoImplicit false

/-- Two branches that look at the same flag, one for it to be off and one for it to be on. -/
def Mnemonic.complementary : List (Mnemonic × Mnemonic) :=
  [(.bcc, .bcs), (.bne, .beq), (.bpl, .bmi), (.bvc, .bvs)]

namespace Machine

variable {M : Type u} [Bus M]

def wordAt (m : Machine M) (low high : UInt16) : Nat :=
  (m.read low).toNat + 256 * (m.read high).toNat

/-- Whether the instruction takes the program elsewhere. A branch with displacement zero is taken
without a trace in the program counter. -/
def takes (m : Machine M) (i : Instruction) : Bool :=
  (m.execute i.mnemonic.operation (m.resolve i.mode)).2 == .jump

/-- The rule of the branches: `i` is taken exactly if the flag is as asked for. -/
structure BranchesIf (m : Machine M) (i : Instruction) (flag : Flag) (on : Bool) : Prop where
  takes_iff : m.takes i = true ↔ m.p.get flag = on
  pc_eq : (m.step.machine.pc.toNat : Int) =
    (m.pc.toNat + 2 + if m.p.get flag = on then (m.read (m.pc + 1)).toInt8.toInt else 0) % 65536

/-- The rules of control flow. BRK reads its vector when the return address and the status have
been pushed. -/
def GoesOn (m : Machine M) (i : Instruction) : Prop :=
  let after := m.step.machine
  match i.mnemonic with
  | .bcc => m.BranchesIf i .carry false
  | .bcs => m.BranchesIf i .carry true
  | .bne => m.BranchesIf i .zero false
  | .beq => m.BranchesIf i .zero true
  | .bpl => m.BranchesIf i .negative false
  | .bmi => m.BranchesIf i .negative true
  | .bvc => m.BranchesIf i .overflow false
  | .bvs => m.BranchesIf i .overflow true
  | .jmp | .jsr => m.resolve i.mode = .address after.pc
  | .rts => after.pc.toNat = (m.wordAt (m.slot 1) (m.slot 2) + 1) % 65536
  | .rti => after.pc.toNat = m.wordAt (m.slot 2) (m.slot 3)
  | .brk => after.pc.toNat = after.wordAt 0xFFFE 0xFFFF ∧
      after.memory = Bus.writeEach [(m.slot 0, Word.high (m.pc + 2)),
        (m.slot (-1), Word.low (m.pc + 2)), (m.slot (-2), m.p.pushed)] m.memory
  | _ => False

theorem toNat_readBytes (m : Machine M) (low high : UInt16) :
    (Word.ofBytes (m.read low) (m.read high)).toNat = m.wordAt low high :=
  Word.toNat_ofBytes _ _

/-! ## Branches -/

theorem pc_step_of_next {m : Machine M} {i : Instruction} {operation : Operation}
    (hNext : m.next? = some i) (hOperation : i.mnemonic.operation = operation)
    (hFlow : (m.execute operation (m.resolve i.mode)).2 = .next) : m.step.machine.pc =
      (m.execute operation (m.resolve i.mode)).1.pc + UInt16.ofNat i.length := by
  rw [← hOperation] at hFlow ⊢
  rw [step_of_next? hNext]
  simp only [stepDocumented, hFlow]

theorem pc_step_of_flow {m : Machine M} {i : Instruction} {operation : Operation}
    (hNext : m.next? = some i) (hOperation : i.mnemonic.operation = operation)
    (hFlow : (m.execute operation (m.resolve i.mode)).2 ≠ .next) :
    m.step.machine.pc = (m.execute operation (m.resolve i.mode)).1.pc := by
  rw [← hOperation] at hFlow ⊢
  rw [step_of_next? hNext, m.stepDocumented_pc i hFlow]

end Machine

theorem Word.toNat_add_ofInt (word : UInt16) (offset : Int) :
    ((word + UInt16.ofInt offset).toNat : Int) = (word.toNat + offset) % 65536 := by
  rw [UInt16.toNat_add, UInt16.ofInt, UInt16.toNat_ofNat']
  omega

theorem Mnemonic.branches_of_complementary {first second : Mnemonic}
    (hPair : (first, second) ∈ complementary) :
    ∃ flag, first.operation = .branch flag false ∧ second.operation = .branch flag true := by
  simp only [complementary, List.mem_cons, List.not_mem_nil, or_false, Prod.mk.injEq] at hPair
  obtain ⟨rfl, rfl⟩ | ⟨rfl, rfl⟩ | ⟨rfl, rfl⟩ | ⟨rfl, rfl⟩ := hPair <;> exact ⟨_, rfl, rfl⟩

namespace Machine

variable {M : Type u} [Bus M]

theorem branchesIf {m : Machine M} {i : Instruction} {flag : Flag} {on : Bool}
    (hNext : m.next? = some i) (hOperation : i.mnemonic.operation = .branch flag on) :
    m.BranchesIf i flag on := by
  have hMode : i.mode = .relative := by
    have hSuits := suits_of_next? hNext
    rw [hOperation, Operation.suits, beq_iff_eq] at hSuits
    exact hSuits
  have hExecute : m.execute (.branch flag on) (m.resolve i.mode) =
      if m.p.get flag = on then
        ({ m with pc := m.pc + 2 + UInt16.ofInt (m.read (m.pc + 1)).toInt8.toInt }, .jump)
      else (m, .next) := by
    rw [hMode]
    rfl
  have hBehind : (m.pc + 2).toNat = (m.pc.toNat + 2) % 65536 := UInt16.toNat_add m.pc 2
  by_cases hFlag : m.p.get flag = on
  · rw [if_pos hFlag] at hExecute
    constructor
    · simp only [takes, hOperation, hExecute, hFlag, beq_self_eq_true]
    · have hFlow : (m.execute (.branch flag on) (m.resolve i.mode)).2 ≠ .next := by
        rw [hExecute]
        exact Flow.noConfusion
      rw [pc_step_of_flow hNext hOperation hFlow, hExecute, if_pos hFlag, Word.toNat_add_ofInt,
        hBehind]
      omega
  · rw [if_neg hFlag] at hExecute
    constructor
    · rw [takes, hOperation, hExecute]
      exact iff_of_false Bool.false_ne_true hFlag
    · have hLength : UInt16.ofNat i.length = 2 := by
        rw [Instruction.length, hMode]
        rfl
      rw [pc_step_of_next hNext hOperation (congrArg Prod.snd hExecute), hExecute, hLength,
        if_neg hFlag, hBehind]
      omega

theorem takes_of_complementary {m n : Machine M} {i j : Instruction} (hNext : m.next? = some i)
    (hOther : n.next? = some j) (hStatus : m.p = n.p)
    (hPair : (i.mnemonic, j.mnemonic) ∈ Mnemonic.complementary) : m.takes i = !n.takes j := by
  obtain ⟨flag, hOff, hOn⟩ := Mnemonic.branches_of_complementary hPair
  have hTakes := (branchesIf hNext hOff).takes_iff
  have hOtherTakes := (branchesIf hOther hOn).takes_iff
  rw [← hStatus] at hOtherTakes
  rw [Bool.eq_iff_iff, hTakes, ← Bool.not_eq_true, ← hOtherTakes, Bool.not_eq_true,
    Bool.not_eq_true']

/-! ## Jumps and returns -/

theorem resolve_of_aims {m : Machine M} {i : Instruction} (hNext : m.next? = some i)
    (hAims : i.mnemonic.operation = .jump ∨ i.mnemonic.operation = .call) :
    m.resolve i.mode = .address m.step.machine.pc := by
  have hSuits := suits_of_next? hNext
  obtain hOperation | hOperation := hAims <;> rw [hOperation] at hSuits
  all_goals
    obtain ⟨location, hAddress⟩ := m.exists_address hSuits
    rw [pc_step_of_flow hNext hOperation Flow.noConfusion, hAddress]
    rfl

theorem pc_of_returnFromCall {m : Machine M} {i : Instruction} (hNext : m.next? = some i)
    (hOperation : i.mnemonic.operation = .returnFromCall) :
    m.step.machine.pc.toNat = (m.wordAt (m.slot 1) (m.slot 2) + 1) % 65536 := by
  have hPc : m.step.machine.pc = Word.ofBytes (m.read (Word.stackSlot (m.sp + 1)))
      (m.read (Word.stackSlot (m.sp + 1 + 1))) + 1 :=
    pc_step_of_flow hNext hOperation Flow.noConfusion
  have hLow : Word.stackSlot (m.sp + 1) = m.slot 1 := (m.slot_add 1).symm
  have hHigh : Word.stackSlot (m.sp + (1 + 1)) = m.slot 2 := (m.slot_add 2).symm
  rw [hPc, UInt16.toNat_add, toNat_readBytes, UInt8.add_assoc, hLow, hHigh]
  rfl

theorem pc_of_returnFromInterrupt {m : Machine M} {i : Instruction} (hNext : m.next? = some i)
    (hOperation : i.mnemonic.operation = .returnFromInterrupt) :
    m.step.machine.pc.toNat = m.wordAt (m.slot 2) (m.slot 3) := by
  have hPc : m.step.machine.pc = Word.ofBytes (m.read (Word.stackSlot (m.sp + 1 + 1)))
      (m.read (Word.stackSlot (m.sp + 1 + 1 + 1))) :=
    pc_step_of_flow hNext hOperation Flow.noConfusion
  have hLow : Word.stackSlot (m.sp + (1 + 1)) = m.slot 2 := (m.slot_add 2).symm
  have hHigh : Word.stackSlot (m.sp + (1 + 1 + 1)) = m.slot 3 := (m.slot_add 3).symm
  rw [hPc, toNat_readBytes, UInt8.add_assoc, UInt8.add_assoc, hLow, hHigh]

theorem memory_of_interrupt {m : Machine M} {i : Instruction} (hNext : m.next? = some i)
    (hOperation : i.mnemonic.operation = .interrupt) :
    m.step.machine.memory = Bus.writeEach [(m.slot 0, Word.high (m.pc + 2)),
      (m.slot (-1), Word.low (m.pc + 2)), (m.slot (-2), m.p.pushed)] m.memory := by
  rw [memory_step, writes_of_next? hNext, hOperation, slot_zero, slot_minus_one, slot_minus_two]
  rfl

theorem pc_of_interrupt {m : Machine M} {i : Instruction} (hNext : m.next? = some i)
    (hOperation : i.mnemonic.operation = .interrupt) :
    m.step.machine.pc.toNat = m.step.machine.wordAt 0xFFFE 0xFFFF := by
  have hMemory : m.step.machine.memory =
      (m.execute .interrupt (m.resolve i.mode)).1.memory := by
    rw [memory_step, execute_memory, writes_of_next? hNext, hOperation]
  rw [pc_step_of_flow hNext hOperation Flow.noConfusion, wordAt, read, read, hMemory]
  exact Word.toNat_ofBytes _ _

theorem goesOn {m : Machine M} {i : Instruction} (hNext : m.next? = some i)
    (hControl : i.mnemonic.isControlFlow = true) : m.GoesOn i := by
  obtain ⟨opcode, mnemonic, mode⟩ := i
  cases mnemonic with
  | bcc | bcs | bne | beq | bpl | bmi | bvc | bvs => exact branchesIf hNext rfl
  | jmp => exact resolve_of_aims hNext (.inl rfl)
  | jsr => exact resolve_of_aims hNext (.inr rfl)
  | rts => exact pc_of_returnFromCall hNext rfl
  | rti => exact pc_of_returnFromInterrupt hNext rfl
  | brk => exact ⟨pc_of_interrupt hNext rfl, memory_of_interrupt hNext rfl⟩
  | _ => cases hControl

/-! ## Elsewhere -/

/-- A machine at 0x10 in front of `opcode` with the operand bytes 0x20 and 0x00. The rest of memory
is zero, and the flags are all on or all off. -/
def facing (opcode : UInt8) (flags : Bool) : Machine Ram :=
  { powerOn .standard (Bus.writeAll 0x10 [opcode, 0x20] Ram.zeroed) with
    pc := 0x10
    p := (Status.ofFlags fun _ => flags).live }

/-- The vector of a BRK that is faced by such a machine is zero, for its pushes stay in page one. -/
theorem pc_step_facing_brk : (facing 0x00 true).step.machine.pc = 0 := by
  have hNext : (facing 0x00 true).next? = some ⟨0x00, .brk, .implicit⟩ := by decide +kernel
  have hVector (address : UInt16) (hHigh : address = 0xFFFE ∨ address = 0xFFFF) :
      (facing 0x00 true).step.machine.read address = 0 := by
    rw [read, memory_step, writes_of_next? hNext]
    refine (Ram.read_pushWrites_of_not_pageOne (.inr ?_) _ _ _).trans ?_
    · obtain rfl | rfl := hHigh <;> decide
    · obtain rfl | rfl := hHigh <;>
        simp [facing, powerOn, Bus.writeAll, Bus.write, Ram.read_write]
  apply UInt16.toNat_inj.mp
  rw [pc_of_interrupt hNext rfl, wordAt, hVector _ (.inl rfl), hVector _ (.inr rfl)]
  rfl

theorem exists_detour {mnemonic : Mnemonic} (hControl : mnemonic.isControlFlow = true) :
    ∃ (m : Machine Ram) (i : Instruction), m.next? = some i ∧ i.mnemonic = mnemonic ∧
      m.step.machine.pc ≠ m.pc + UInt16.ofNat i.length := by
  cases mnemonic with
  | bcc => exact ⟨facing 0x90 false, ⟨0x90, .bcc, .relative⟩, by decide +kernel⟩
  | bcs => exact ⟨facing 0xB0 true, ⟨0xB0, .bcs, .relative⟩, by decide +kernel⟩
  | bne => exact ⟨facing 0xD0 false, ⟨0xD0, .bne, .relative⟩, by decide +kernel⟩
  | beq => exact ⟨facing 0xF0 true, ⟨0xF0, .beq, .relative⟩, by decide +kernel⟩
  | bpl => exact ⟨facing 0x10 false, ⟨0x10, .bpl, .relative⟩, by decide +kernel⟩
  | bmi => exact ⟨facing 0x30 true, ⟨0x30, .bmi, .relative⟩, by decide +kernel⟩
  | bvc => exact ⟨facing 0x50 false, ⟨0x50, .bvc, .relative⟩, by decide +kernel⟩
  | bvs => exact ⟨facing 0x70 true, ⟨0x70, .bvs, .relative⟩, by decide +kernel⟩
  | jmp => exact ⟨facing 0x4C true, ⟨0x4C, .jmp, .absolute⟩, by decide +kernel⟩
  | jsr => exact ⟨facing 0x20 true, ⟨0x20, .jsr, .absolute⟩, by decide +kernel⟩
  | rts => exact ⟨facing 0x60 true, ⟨0x60, .rts, .implicit⟩, by decide +kernel⟩
  | rti => exact ⟨facing 0x40 true, ⟨0x40, .rti, .implicit⟩, by decide +kernel⟩
  | brk =>
    -- The vector lies too high in memory to evaluate this step; its rule tells where it leads.
    refine ⟨facing 0x00 true, ⟨0x00, .brk, .implicit⟩, by decide +kernel, rfl, ?_⟩
    rw [pc_step_facing_brk]
    decide
  | _ => cases hControl

/-- The next-PC law. The displacement of a branch is signed, the slots of the stack are counted
around page one, and everything is modulo 65536. What `isControlFlow` tells apart are exactly the
instructions that can go on elsewhere than behind themselves. -/
theorem next_pc_law (M : Type u) [Bus M] :
    (∀ (m : Machine M) (i : Instruction), m.next? = some i →
      (i.mnemonic.isControlFlow = false →
        m.step.machine.pc.toNat = (m.pc.toNat + i.length) % 65536) ∧
      (i.mnemonic.isControlFlow = true → m.GoesOn i)) ∧
    (∀ (m n : Machine M) (i j : Instruction), m.next? = some i → n.next? = some j → m.p = n.p →
      (i.mnemonic, j.mnemonic) ∈ Mnemonic.complementary → m.takes i = !n.takes j) ∧
    ∀ mnemonic : Mnemonic, mnemonic.isControlFlow = true ↔
      ∃ (m : Machine Ram) (i : Instruction), m.next? = some i ∧ i.mnemonic = mnemonic ∧
        m.step.machine.pc ≠ m.pc + UInt16.ofNat i.length := by
  refine ⟨fun m i hNext => ⟨fun hStraight => ?_, goesOn hNext⟩,
    fun m n i j hNext hOther => takes_of_complementary hNext hOther,
    fun mnemonic => ⟨exists_detour, ?_⟩⟩
  · obtain ⟨-, -, hPc⟩ := step_of_straight hNext hStraight
    have hLength : i.length < 65536 := Nat.lt_of_le_of_lt i.mode.instructionLength_le (by decide)
    rw [hPc, UInt16.toNat_add, UInt16.toNat_ofNat_of_lt' hLength]
  · rintro ⟨m, i, hNext, rfl, hElsewhere⟩
    cases hControl : i.mnemonic.isControlFlow with
    | true => rfl
    | false =>
      obtain ⟨-, -, hPc⟩ := step_of_straight hNext hControl
      exact absurd hPc hElsewhere

/-- At the end of memory a branch finds its displacement at address zero, and goes backwards from
the address behind it. -/
theorem next_pc_law_wrapping :
    let m : Machine Board :=
      { powerOn .standard (Bus.writeAll 0xFFFF [0x90, 0x80] { lines := 0xFF }) with pc := 0xFFFF }
    m.next? = some ⟨0x90, .bcc, .relative⟩ ∧ m.p.carry = false ∧
      m.step.machine.pc.toNat = 0xFF81 := by
  intro m
  have hNext : m.next? = some ⟨0x90, .bcc, .relative⟩ := by decide +kernel
  have hRule : m.BranchesIf ⟨0x90, .bcc, .relative⟩ .carry false :=
    ((next_pc_law Board).1 m _ hNext).2 rfl
  have hDisplacement : (m.read (m.pc + 1)).toInt8.toInt = -128 := by decide +kernel
  have hCarry : m.p.get .carry = false := by decide +kernel
  have hStart : m.pc.toNat = 0xFFFF := by decide
  have hPc := hRule.pc_eq
  rw [if_pos hCarry, hDisplacement, hStart] at hPc
  refine ⟨hNext, hCarry, ?_⟩
  omega

end Machine

end Nmos6502
