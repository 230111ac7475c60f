import Nmos6502.Proofs.Reads

/-! # Operands that suit their operations

The opcode table pairs an operation only with modes whose operand it can use: what works on a byte
finds it at an address or, for shifts, in the accumulator; stores, jumps and calls find an address to
aim at; branches find a displacement. So nothing that execution falls back on for other operands is
ever reached.
-/

universe u

namespace Nmos6502
set_option autoImplicit false

/-- Whether the mode leads to a place in memory. -/
def Mode.isAddressing : Mode → Bool
  | implicit | accumulator | relative => false
  | _ => true

def Operation.suits (operation : Operation) (mode : Mode) : Bool :=
  match operation with
  | load _ | logic _ | add | subtract | compare _ | testBits => mode.isAddressing
  | store _ | increment | decrement | jump | call => mode.isAddressing
  | shift _ => mode.isAddressing || mode == .accumulator
  | branch _ _ => mode == .relative
  | _ => mode == .implicit

theorem Instruction.suits_of_mem {i : Instruction} (hMem : i ∈ documented) :
    i.mnemonic.operation.suits i.mode = true := by
  have hTable : (documented.all fun i => i.mnemonic.operation.suits i.mode) = true := by
    decide +kernel
  exact List.all_eq_true.mp hTable i hMem

namespace Machine

variable {M : Type u} [Bus M]

theorem suits_of_next? {m : Machine M} {i : Instruction} (hNext : m.next? = some i) :
    i.mnemonic.operation.suits i.mode = true := by
  obtain ⟨-, hDecode⟩ := (m.next?_eq_some_iff i).mp hNext
  exact Instruction.suits_of_mem ((Instruction.decode_eq_some_iff _ _).mp hDecode).1

theorem exists_address (m : Machine M) {mode : Mode} (hMode : mode.isAddressing = true) :
    ∃ location, m.resolve mode = .address location := by
  cases mode with
  | implicit | accumulator | relative => cases hMode
  | _ => exact ⟨_, rfl⟩

/-- The byte that an instruction works on lies at its effective address or in the accumulator. -/
inductive OperandByte (m : Machine M) (i : Instruction) : UInt8 → Prop
  | memory {location : UInt16} (hAddress : m.resolve i.mode = .address location) :
      OperandByte m i (m.read location)
  | accumulator (hMode : i.mode = .accumulator) : OperandByte m i m.a

theorem OperandByte.eq_readOperand {m : Machine M} {i : Instruction} {byte : UInt8}
    (h : m.OperandByte i byte) : byte = m.readOperand (m.resolve i.mode) := by
  cases h with
  | memory hAddress => rw [hAddress, readOperand]
  | accumulator hMode =>
    rw [hMode]
    rfl

/-- Whatever looks at its operand finds a byte there. -/
theorem exists_operandByte {m : Machine M} {i : Instruction} (hNext : m.next? = some i)
    (hReads : i.mnemonic.operation.readsOperand = true) : ∃ byte, m.OperandByte i byte := by
  have hSuits := suits_of_next? hNext
  by_cases hMode : i.mode.isAddressing = true
  · obtain ⟨location, hAddress⟩ := m.exists_address hMode
    exact ⟨_, .memory hAddress⟩
  · refine ⟨_, .accumulator ?_⟩
    cases hOperation : i.mnemonic.operation with
    | shift shift =>
      rw [hOperation, Operation.suits, Bool.or_eq_true, beq_iff_eq] at hSuits
      exact hSuits.resolve_left hMode
    | load _ | logic _ | add | subtract | compare _ | testBits | increment | decrement =>
      rw [hOperation] at hSuits
      exact absurd hSuits hMode
    | _ =>
      rw [hOperation] at hReads
      cases hReads

/-! ## Executing with a known operand -/

/-- The next step executes an instruction of this mnemonic, in any mode, with this operand. -/
def Performs (m : Machine M) (mnemonic : Mnemonic) (operand : Operand) : Prop :=
  ∃ i, m.next? = some i ∧ i.mnemonic = mnemonic ∧ m.resolve i.mode = operand

instance (m : Machine M) (mnemonic : Mnemonic) (operand : Operand) :
    Decidable (m.Performs mnemonic operand) :=
  decidable_of_iff
    (∃ i ∈ m.next?, i.mnemonic = mnemonic ∧ m.resolve i.mode = operand) Iff.rfl

/-- The step leaves what the operation leaves, apart from the three fields named here. -/
theorem Performs.step {m : Machine M} {mnemonic : Mnemonic} {operand : Operand}
    (h : m.Performs mnemonic operand) :
    let left := (m.execute mnemonic.operation operand).1
    ∃ pc state, m.step.machine =
      { left with pc := pc, state := state, retired := left.retired + 1 } := by
  obtain ⟨i, hNext, rfl, rfl⟩ := h
  rw [step_of_next? hNext]
  exact m.stepDocumented_machine i

end Machine

end Nmos6502
