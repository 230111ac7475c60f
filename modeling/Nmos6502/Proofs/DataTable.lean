import Nmos6502.Bus.Board
import Nmos6502.Proofs.Operands

/-! # The table of data instructions

What an instruction outside of control flow makes of the registers and the status, as one would
write it into a table: with numbers instead of bytes, where results are taken modulo 256, the carry
is bit 8 of a sum and overflow means that the signed sum has left its range. The main statement is
that every step follows the table, for every mode and on any bus, and leaves alone what the table
does not name.
-/

universe u

namespace Nmos6502
set_option autoImplicit false

/-- The two's-complement value of a byte. -/
def Byte.signed (byte : Nat) : Int := if byte < 128 then byte else byte - 256

/-- What a pulled byte makes of the status; the B bit gets lost and the unused bit is on. -/
def Status.ofBits (byte : Nat) : Status where
  carry := byte % 2 = 1
  zero := byte / 2 % 2 = 1
  interruptDisable := byte / 4 % 2 = 1
  decimal := byte / 8 % 2 = 1
  brk := false
  unused := true
  overflow := byte / 64 % 2 = 1
  negative := byte / 128 % 2 = 1

structure Registers where
  a : Nat
  x : Nat
  y : Nat
  sp : Nat
  p : Status
  deriving DecidableEq

namespace Registers

def put (r : Registers) (register : Register) (byte : Nat) : Registers :=
  match register with
  | .a => { r with a := byte }
  | .x => { r with x := byte }
  | .y => { r with y := byte }
  | .sp => { r with sp := byte }

def describing (r : Registers) (result : Nat) : Registers :=
  { r with p := { r.p with zero := result = 0, negative := 128 ≤ result } }

def deliver (r : Registers) (register : Register) (result : Nat) : Registers :=
  (r.put register result).describing result

def carrying (r : Registers) (carry : Bool) : Registers := { r with p := { r.p with carry } }

def adding (r : Registers) (byte : Nat) : Registers :=
  let sum := r.a + byte + r.p.carry.toNat
  let signedSum := Byte.signed r.a + Byte.signed byte + r.p.carry.toNat
  { r with
    a := sum % 256
    p := { r.p with
      carry := sum / 256 = 1
      overflow := signedSum < -128 ∨ 127 < signedSum
      zero := sum % 256 = 0
      negative := 128 ≤ sum % 256 } }

def comparing (r : Registers) (value byte : Nat) : Registers :=
  { r with p := { r.p with
      carry := byte ≤ value
      zero := value = byte
      negative := 128 ≤ (value + 256 - byte) % 256 } }

def testing (r : Registers) (byte : Nat) : Registers :=
  { r with p := { r.p with
      zero := r.a &&& byte = 0
      overflow := byte / 64 % 2 = 1
      negative := 128 ≤ byte } }

end Registers

namespace Mnemonic

/-- The instructions that give their operand back changed. -/
def modifies : Mnemonic → Bool
  | asl | lsr | rol | ror | inc | dec => true
  | _ => false

/-- What a modifying instruction makes of its operand byte. -/
def modified (mnemonic : Mnemonic) (carry : Bool) (byte : Nat) : Nat :=
  match mnemonic with
  | asl => 2 * byte % 256
  | lsr => byte / 2
  | rol => (2 * byte + carry.toNat) % 256
  | ror => byte / 2 + 128 * carry.toNat
  | inc => (byte + 1) % 256
  | dec => (byte + 255) % 256
  | _ => byte

end Mnemonic

namespace Registers

/-- The result of a modifying instruction shows in Z and N wherever it goes. -/
def modifying (r : Registers) (i : Instruction) (byte : Nat) : Registers :=
  let result := i.mnemonic.modified r.p.carry byte
  if i.mode = .accumulator then r.deliver .a result else r.describing result

/-- The table: the registers after an instruction that works on `byte`. On top of the stack lies
`top`. -/
def after (r : Registers) (i : Instruction) (byte top : Nat) : Registers :=
  match i.mnemonic with
  | .lda => r.deliver .a byte
  | .ldx => r.deliver .x byte
  | .ldy => r.deliver .y byte
  | .tax => r.deliver .x r.a
  | .tay => r.deliver .y r.a
  | .txa => r.deliver .a r.x
  | .tya => r.deliver .a r.y
  | .tsx => r.deliver .x r.sp
  | .txs => r.put .sp r.x
  | .inx => r.deliver .x ((r.x + 1) % 256)
  | .iny => r.deliver .y ((r.y + 1) % 256)
  | .dex => r.deliver .x ((r.x + 255) % 256)
  | .dey => r.deliver .y ((r.y + 255) % 256)
  | .and => r.deliver .a (r.a &&& byte)
  | .ora => r.deliver .a (r.a ||| byte)
  | .eor => r.deliver .a (r.a ^^^ byte)
  | .adc => r.adding byte
  | .sbc => r.adding (255 - byte)
  | .cmp => r.comparing r.a byte
  | .cpx => r.comparing r.x byte
  | .cpy => r.comparing r.y byte
  | .bit => r.testing byte
  | .asl | .rol => (r.modifying i byte).carrying (128 ≤ byte)
  | .lsr | .ror => (r.modifying i byte).carrying (byte % 2 = 1)
  | .inc | .dec => r.modifying i byte
  | .pha | .php => r.put .sp ((r.sp + 255) % 256)
  | .pla => (r.put .sp ((r.sp + 1) % 256)).deliver .a top
  | .plp => { r with sp := (r.sp + 1) % 256, p := .ofBits top }
  | .clc => { r with p := { r.p with carry := false } }
  | .sec => { r with p := { r.p with carry := true } }
  | .cli => { r with p := { r.p with interruptDisable := false } }
  | .sei => { r with p := { r.p with interruptDisable := true } }
  | .cld => { r with p := { r.p with decimal := false } }
  | .sed => { r with p := { r.p with decimal := true } }
  | .clv => { r with p := { r.p with overflow := false } }
  | .sta | .stx | .sty | .nop => r
  | .bcc | .bcs | .beq | .bmi | .bne | .bpl | .bvc | .bvs | .jmp | .jsr | .rts | .rti | .brk => r

end Registers

/-- The table asks for no operand byte where the instruction reads none. -/
theorem Registers.after_of_readsOperand {i : Instruction}
    (hReads : i.mnemonic.operation.readsOperand = false) (r : Registers) (byte other top : Nat) :
    r.after i byte top = r.after i other top := by
  obtain ⟨opcode, mnemonic, mode⟩ := i
  cases mnemonic <;> first | rfl | cases hReads

theorem Mnemonic.reads_of_modifies {mnemonic : Mnemonic} (hModifies : mnemonic.modifies = true) :
    mnemonic.operation.readsOperand = true := by
  cases mnemonic <;> first | rfl | cases hModifies

/-! ## Bytes as numbers -/

namespace Byte

theorem isNegative_eq (byte : UInt8) : isNegative byte = decide (128 ≤ byte.toNat) := by
  rw [Bool.eq_iff_iff, isNegative_iff, decide_eq_true_iff]

theorem beq_zero_eq (byte : UInt8) : (byte == 0) = decide (byte.toNat = 0) := by
  rw [Bool.eq_iff_iff, beq_iff_eq, decide_eq_true_iff, ← UInt8.toNat_inj]
  rfl

theorem toNat_add_one (byte : UInt8) : (byte + 1).toNat = (byte.toNat + 1) % 256 :=
  UInt8.toNat_add byte 1

theorem toNat_sub_one (byte : UInt8) : (byte - 1).toNat = (byte.toNat + 255) % 256 := by
  rw [UInt8.toNat_sub, Nat.add_comm]
  rfl

theorem toNat_complement (byte : UInt8) : (~~~byte).toNat = 255 - byte.toNat :=
  UInt8.toNat_not byte

theorem toNat_difference (value byte : UInt8) :
    (value - byte).toNat = (value.toNat + 256 - byte.toNat) % 256 := by
  have hByte := byte.toNat_lt
  rw [UInt8.toNat_sub]
  omega

theorem toNat_shiftLeft (byte : UInt8) : (byte <<< 1).toNat = 2 * byte.toNat % 256 := by
  rw [UInt8.toNat_shiftLeft]
  simp [Nat.shiftLeft_eq, Nat.mul_comm]

theorem toNat_shiftRight (byte : UInt8) : (byte >>> 1).toNat = byte.toNat / 2 := by
  rw [UInt8.toNat_shiftRight]
  simp [Nat.shiftRight_eq_div_pow]

theorem and_one_eq (byte : UInt8) : (byte &&& 1 == 1) = decide (byte.toNat % 2 = 1) := by
  rw [Bool.eq_iff_iff, beq_iff_eq, decide_eq_true_iff, ← UInt8.toNat_inj, UInt8.toNat_and,
    ← Nat.and_one_is_mod]
  rfl

theorem and_bit6_eq (byte : UInt8) :
    (byte &&& 0x40 != 0) = decide (byte.toNat / 64 % 2 = 1) := by
  have hAll : ∀ n : Fin 256, (UInt8.ofFin n &&& 0x40 != 0) =
      decide ((UInt8.ofFin n).toNat / 64 % 2 = 1) := by decide +kernel
  exact hAll byte.toFin

theorem pulled_eq (byte : UInt8) : Status.pulled byte = .ofBits byte.toNat := by
  have hAll : ∀ n : Fin 256, Status.pulled (UInt8.ofFin n) =
      .ofBits (UInt8.ofFin n).toNat := by decide +kernel
  exact hAll byte.toFin

end Byte

theorem addWithCarry_result (a b : UInt8) (carry : Bool) :
    (addWithCarry a b carry).result.toNat = (a.toNat + b.toNat + carry.toNat) % 256 :=
  UInt8.toNat_ofNat'

theorem addWithCarry_carry (a b : UInt8) (carry : Bool) :
    (addWithCarry a b carry).carry = decide ((a.toNat + b.toNat + carry.toNat) / 256 = 1) := by
  have ha := a.toNat_lt
  have hb := b.toNat_lt
  have hCarry := carry.toNat_le
  have hBit : 0xFF < a.toNat + b.toNat + carry.toNat ↔
      (a.toNat + b.toNat + carry.toNat) / 256 = 1 := by omega
  exact decide_eq_decide.mpr hBit

/-- To leave the signed range is to have operands of one sign and a result of the other. -/
theorem Byte.signed_overflow_iff {a b carry : Nat} (ha : a < 256) (hb : b < 256)
    (hCarry : carry ≤ 1) :
    (signed a + signed b + carry < -128 ∨ 127 < signed a + signed b + carry) ↔
      (128 ≤ a ↔ 128 ≤ b) ∧ ¬(128 ≤ a ↔ 128 ≤ (a + b + carry) % 256) := by
  unfold signed
  split <;> split <;> omega

theorem addWithCarry_overflow (a b : UInt8) (carry : Bool) :
    let signedSum := Byte.signed a.toNat + Byte.signed b.toNat + carry.toNat
    (addWithCarry a b carry).overflow = decide (signedSum < -128 ∨ 127 < signedSum) := by
  intro signedSum
  have hOverflow := Byte.signed_overflow_iff a.toNat_lt b.toNat_lt carry.toNat_le
  have hSigns : (addWithCarry a b carry).overflow = true ↔
      (Byte.isNegative a = true ↔ Byte.isNegative b = true) ∧
        ¬(Byte.isNegative a = true ↔ Byte.isNegative (addWithCarry a b carry).result = true) := by
    rw [← Bool.eq_iff_iff, ← Bool.eq_iff_iff]
    simp [addWithCarry]
  rw [Bool.eq_iff_iff, decide_eq_true_iff, hOverflow, hSigns, Byte.isNegative_iff,
    Byte.isNegative_iff, Byte.isNegative_iff, addWithCarry_result]

def Shift.carryOut (shift : Shift) (byte : Nat) : Bool :=
  match shift with
  | left | rotateLeft => 128 ≤ byte
  | right | rotateRight => byte % 2 = 1

theorem Shift.apply_carry (shift : Shift) (byte : UInt8) (carry : Bool) :
    (shift.apply byte carry).2 = shift.carryOut byte.toNat := by
  cases shift with
  | left | rotateLeft => exact Byte.isNegative_eq byte
  | right | rotateRight => exact Byte.and_one_eq byte

theorem Mnemonic.modified_of_shift {mnemonic : Mnemonic} {shift : Shift}
    (h : mnemonic.operation = .shift shift) (byte : UInt8) (carry : Bool) :
    (shift.apply byte carry).1.toNat = mnemonic.modified carry byte.toNat := by
  have hByte := byte.toNat_lt
  have hLeft := Byte.toNat_shiftLeft byte
  have hRight := Byte.toNat_shiftRight byte
  cases mnemonic <;> cases h
  case asl => exact hLeft
  case lsr => exact hRight
  case rol =>
    simp only [Shift.apply, modified, UInt8.toNat_add, hLeft]
    cases carry <;> simp
  case ror =>
    simp only [Shift.apply, modified, UInt8.toNat_add, hRight]
    cases carry <;> simp <;> omega

/-! ## Every step follows the table -/

namespace Machine

variable {M : Type u}

def registers (m : Machine M) : Registers where
  a := m.a.toNat
  x := m.x.toNat
  y := m.y.toNat
  sp := m.sp.toNat
  p := m.p

theorem registers_put (m : Machine M) (register : Register) (byte : UInt8) :
    (m.put register byte).registers = m.registers.put register byte.toNat := by
  cases register <;> rfl

theorem registers_describing (m : Machine M) (result : UInt8) :
    (m.describing result).registers = m.registers.describing result.toNat := by
  simp only [registers, describing, Status.describing, Registers.describing, Byte.beq_zero_eq,
    Byte.isNegative_eq]

theorem registers_deliver (m : Machine M) (register : Register) {result : UInt8} {n : Nat}
    (hResult : result.toNat = n) :
    (m.deliver register result).registers = m.registers.deliver register n := by
  rw [deliver, registers_describing, registers_put, hResult, Registers.deliver]

theorem registers_accumulate (m : Machine M) {byte : UInt8} {n : Nat} (hByte : byte.toNat = n) :
    (m.accumulate byte).registers = m.registers.adding n := by
  simp only [registers, accumulate, Status.describing, Registers.adding, addWithCarry_result,
    addWithCarry_carry, addWithCarry_overflow, Byte.beq_zero_eq, Byte.isNegative_eq, hByte]
  rfl

variable [Bus M]

theorem registers_compare (m : Machine M) (register : Register) (operand : Operand) :
    (m.execute (.compare register) operand).1.registers =
      m.registers.comparing (m.get register).toNat (m.readOperand operand).toNat := by
  have hZero (value byte : UInt8) : (value - byte == 0) = decide (value.toNat = byte.toNat) := by
    rw [Bool.eq_iff_iff, beq_iff_eq, decide_eq_true_iff, UInt8.toNat_inj, UInt8.sub_eq_iff_eq_add,
      UInt8.zero_add]
  simp only [registers, execute, Status.describing, Registers.comparing, hZero,
    Byte.isNegative_eq, Byte.toNat_difference, UInt8.le_iff_toNat_le]

theorem registers_testBits (m : Machine M) (operand : Operand) :
    (m.execute .testBits operand).1.registers =
      m.registers.testing (m.readOperand operand).toNat := by
  simp only [registers, execute, Registers.testing, Byte.beq_zero_eq, Byte.and_bit6_eq,
    Byte.isNegative_eq, UInt8.toNat_and]
  rfl

theorem registers_writeOperand (m : Machine M) (mode : Mode) (byte : UInt8) :
    (m.writeOperand (m.resolve mode) byte).registers =
      if mode = .accumulator then m.registers.put .a byte.toNat else m.registers := by
  cases mode <;> rfl

theorem registers_modify (m : Machine M) (mode : Mode) {result : UInt8} {n : Nat}
    (hResult : result.toNat = n) :
    ((m.writeOperand (m.resolve mode) result).describing result).registers =
      if mode = .accumulator then m.registers.deliver .a n else m.registers.describing n := by
  rw [registers_describing, registers_writeOperand, hResult]
  split <;> rfl

theorem registers_shift (m : Machine M) {i : Instruction} {shift : Shift}
    (hOperation : i.mnemonic.operation = .shift shift) :
    let byte := m.readOperand (m.resolve i.mode)
    (m.execute (.shift shift) (m.resolve i.mode)).1.registers =
      (m.registers.modifying i byte.toNat).carrying (shift.carryOut byte.toNat) := by
  intro byte
  have hModify := m.registers_modify i.mode
    (Mnemonic.modified_of_shift hOperation byte m.p.carry)
  rw [← shift.apply_carry byte m.p.carry]
  exact congrArg (·.carrying (shift.apply byte m.p.carry).2) hModify

theorem registers_push (m : Machine M) (byte : UInt8) :
    (m.push byte).registers = m.registers.put .sp ((m.registers.sp + 255) % 256) :=
  congrArg (m.registers.put .sp) (Byte.toNat_sub_one m.sp)

theorem registers_pull (m : Machine M) :
    m.pull.2.registers = m.registers.put .sp ((m.registers.sp + 1) % 256) :=
  congrArg (m.registers.put .sp) (Byte.toNat_add_one m.sp)

theorem registers_execute (m : Machine M) {i : Instruction}
    (hData : i.mnemonic.isControlFlow = false) :
    (m.execute i.mnemonic.operation (m.resolve i.mode)).1.registers =
      m.registers.after i (m.readOperand (m.resolve i.mode)).toNat
        (m.read (Word.stackSlot (m.sp + 1))).toNat := by
  obtain ⟨opcode, mnemonic, mode⟩ := i
  cases mnemonic with
  | bcc | bcs | beq | bmi | bne | bpl | bvc | bvs | jmp | jsr | rts | rti | brk => cases hData
  | sta | stx | sty | nop | clc | sec | cli | sei | cld | sed | clv | txs => rfl
  | lda | ldx | ldy | tax | tay | txa | tya | tsx => exact m.registers_deliver _ rfl
  | inx | iny => exact m.registers_deliver _ (Byte.toNat_add_one _)
  | dex | dey => exact m.registers_deliver _ (Byte.toNat_sub_one _)
  | and => exact m.registers_deliver .a (UInt8.toNat_and _ _)
  | ora => exact m.registers_deliver .a (UInt8.toNat_or _ _)
  | eor => exact m.registers_deliver .a (UInt8.toNat_xor _ _)
  | adc => exact m.registers_accumulate rfl
  | sbc => exact m.registers_accumulate (Byte.toNat_complement _)
  | cmp | cpx | cpy => exact m.registers_compare _ _
  | bit => exact m.registers_testBits _
  | asl => exact m.registers_shift (i := ⟨opcode, .asl, mode⟩) rfl
  | lsr => exact m.registers_shift (i := ⟨opcode, .lsr, mode⟩) rfl
  | rol => exact m.registers_shift (i := ⟨opcode, .rol, mode⟩) rfl
  | ror => exact m.registers_shift (i := ⟨opcode, .ror, mode⟩) rfl
  | inc => exact m.registers_modify mode (Byte.toNat_add_one _)
  | dec => exact m.registers_modify mode (Byte.toNat_sub_one _)
  | pha | php => exact m.registers_push _
  | pla =>
    change (m.pull.2.deliver .a m.pull.1).registers =
      (m.registers.put .sp ((m.registers.sp + 1) % 256)).deliver .a m.pull.1.toNat
    rw [← registers_pull]
    exact m.pull.2.registers_deliver .a rfl
  | plp =>
    have hPointer : (m.sp + 1).toNat = (m.registers.sp + 1) % 256 := Byte.toNat_add_one m.sp
    change (m.pull.2.setStatus m.pull.1).registers =
      { m.registers with sp := (m.registers.sp + 1) % 256, p := .ofBits m.pull.1.toNat }
    rw [← Byte.pulled_eq, ← hPointer]
    rfl

/-- Execution leaves the registers to the step as they are. -/
theorem registers_step {m : Machine M} {i : Instruction} (hNext : m.next? = some i) :
    m.step.machine.registers =
      (m.execute i.mnemonic.operation (m.resolve i.mode)).1.registers := by
  obtain ⟨pc, state, hMachine⟩ := m.stepDocumented_machine i
  rw [step_of_next? hNext, hMachine]
  rfl

theorem operationWrites_of_modifies (m : Machine M) {mnemonic : Mnemonic}
    (hModifies : mnemonic.modifies = true) (operand : Operand) :
    m.operationWrites mnemonic.operation operand = operand.writes
      (UInt8.ofNat (mnemonic.modified m.p.carry (m.readOperand operand).toNat)) := by
  have hShift {shift : Shift} (hOperation : mnemonic.operation = .shift shift) :
      m.operationWrites mnemonic.operation operand = operand.writes
        (UInt8.ofNat (mnemonic.modified m.p.carry (m.readOperand operand).toNat)) := by
    rw [← Mnemonic.modified_of_shift hOperation, UInt8.ofNat_toNat, hOperation, operationWrites]
  cases mnemonic with
  | asl | lsr | rol | ror => exact hShift rfl
  | inc =>
    rw [Mnemonic.modified, ← Byte.toNat_add_one, UInt8.ofNat_toNat]
    rfl
  | dec =>
    rw [Mnemonic.modified, ← Byte.toNat_sub_one, UInt8.ofNat_toNat]
    rfl
  | _ => cases hModifies

/-- Every instruction outside of control flow does to the registers what the table says, on any bus
and in every mode. If it works on a byte, it finds one in the accumulator or at the effective
address; an instruction that modifies a byte in memory puts the result back there. -/
theorem data_instructions_follow_table {m : Machine M} {i : Instruction}
    (hNext : m.next? = some i) (hData : i.mnemonic.isControlFlow = false) :
    (i.mnemonic.operation.readsOperand = true → ∃ byte, m.OperandByte i byte) ∧
    ∀ byte, (i.mnemonic.operation.readsOperand = true → m.OperandByte i byte) →
      m.step.machine.registers = m.registers.after i byte.toNat
        (m.read (Word.stackSlot (m.sp + 1))).toNat ∧
      (i.mnemonic.modifies = true → ∀ location, m.resolve i.mode = .address location →
        m.step.machine.memory = Bus.write m.memory location
          (UInt8.ofNat (i.mnemonic.modified m.p.carry byte.toNat))) := by
  refine ⟨exists_operandByte hNext, fun byte hByte => ⟨?_, fun hModifies location hAddress => ?_⟩⟩
  · rw [registers_step hNext, m.registers_execute hData]
    cases hReads : i.mnemonic.operation.readsOperand with
    | true => rw [(hByte hReads).eq_readOperand]
    | false => exact Registers.after_of_readsOperand hReads _ _ _ _
  · have hReads : i.mnemonic.operation.readsOperand = true := Mnemonic.reads_of_modifies hModifies
    rw [memory_step, writes_of_next? hNext, (hByte hReads).eq_readOperand,
      m.operationWrites_of_modifies hModifies, hAddress]
    rfl

/-- A rotation in memory takes the carry in at the top and bit 0 out. -/
theorem data_instructions_follow_table_rotating :
    let m : Machine Board :=
      { powerOn .standard (Bus.writeAll 0 [0x66, 0x20] (Bus.write { lines := 0xFF } 0x20 0x01)) with
        a := 0x42, p := { Status.powerOn with carry := true, overflow := true } }
    m.next? = some ⟨0x66, .ror, .zeroPage⟩ ∧
      m.step.machine.registers =
        { m.registers with p := { m.p with carry := true, negative := true } } ∧
      m.step.machine.memory = Bus.write m.memory 0x20 0x80 := by
  intro m
  have hNext : m.next? = some ⟨0x66, .ror, .zeroPage⟩ := by decide +kernel
  have hAddress : m.resolve .zeroPage = .address 0x20 := by decide +kernel
  have hByte : m.read 0x20 = 0x01 := by decide +kernel
  obtain ⟨hRegisters, hMemory⟩ :=
    (data_instructions_follow_table hNext rfl).2 (m.read 0x20) fun _ => .memory hAddress
  have hWritten := hMemory rfl 0x20 hAddress
  rw [hByte] at hRegisters hWritten
  exact ⟨hNext, hRegisters.trans (by decide +kernel), hWritten⟩

end Machine

end Nmos6502
