import Nmos6502.Instruction.Mode
import Nmos6502.Instruction.Mnemonic

/-! # The opcode table

Each documented opcode stands for one mnemonic in one addressing mode. Decoding is a look-up in
the list of all 151; the other 105 bytes decode to nothing.
-/

namespace Nmos6502
set_option autoImplicit false

structure Instruction where
  opcode : UInt8
  mnemonic : Mnemonic
  mode : Mode
  deriving DecidableEq

namespace Instruction

def length (i : Instruction) : Nat := i.mode.instructionLength

/-- Every documented instruction, grouped by mnemonic. -/
def documented : List Instruction := [
    ⟨0x69, .adc, .immediate⟩, ⟨0x65, .adc, .zeroPage⟩, ⟨0x75, .adc, .zeroPageX⟩,
    ⟨0x6D, .adc, .absolute⟩, ⟨0x7D, .adc, .absoluteX⟩, ⟨0x79, .adc, .absoluteY⟩,
    ⟨0x61, .adc, .indirectX⟩, ⟨0x71, .adc, .indirectY⟩,
    ⟨0x29, .and, .immediate⟩, ⟨0x25, .and, .zeroPage⟩, ⟨0x35, .and, .zeroPageX⟩,
    ⟨0x2D, .and, .absolute⟩, ⟨0x3D, .and, .absoluteX⟩, ⟨0x39, .and, .absoluteY⟩,
    ⟨0x21, .and, .indirectX⟩, ⟨0x31, .and, .indirectY⟩,
    ⟨0x0A, .asl, .accumulator⟩, ⟨0x06, .asl, .zeroPage⟩, ⟨0x16, .asl, .zeroPageX⟩,
    ⟨0x0E, .asl, .absolute⟩, ⟨0x1E, .asl, .absoluteX⟩,
    ⟨0x90, .bcc, .relative⟩, ⟨0xB0, .bcs, .relative⟩, ⟨0xF0, .beq, .relative⟩,
    ⟨0x30, .bmi, .relative⟩, ⟨0xD0, .bne, .relative⟩, ⟨0x10, .bpl, .relative⟩,
    ⟨0x50, .bvc, .relative⟩, ⟨0x70, .bvs, .relative⟩,
    ⟨0x24, .bit, .zeroPage⟩, ⟨0x2C, .bit, .absolute⟩,
    ⟨0x00, .brk, .implicit⟩, ⟨0x18, .clc, .implicit⟩, ⟨0xD8, .cld, .implicit⟩,
    ⟨0x58, .cli, .implicit⟩, ⟨0xB8, .clv, .implicit⟩,
    ⟨0xC9, .cmp, .immediate⟩, ⟨0xC5, .cmp, .zeroPage⟩, ⟨0xD5, .cmp, .zeroPageX⟩,
    ⟨0xCD, .cmp, .absolute⟩, ⟨0xDD, .cmp, .absoluteX⟩, ⟨0xD9, .cmp, .absoluteY⟩,
    ⟨0xC1, .cmp, .indirectX⟩, ⟨0xD1, .cmp, .indirectY⟩,
    ⟨0xE0, .cpx, .immediate⟩, ⟨0xE4, .cpx, .zeroPage⟩, ⟨0xEC, .cpx, .absolute⟩,
    ⟨0xC0, .cpy, .immediate⟩, ⟨0xC4, .cpy, .zeroPage⟩, ⟨0xCC, .cpy, .absolute⟩,
    ⟨0xC6, .dec, .zeroPage⟩, ⟨0xD6, .dec, .zeroPageX⟩, ⟨0xCE, .dec, .absolute⟩,
    ⟨0xDE, .dec, .absoluteX⟩,
    ⟨0xCA, .dex, .implicit⟩, ⟨0x88, .dey, .implicit⟩,
    ⟨0x49, .eor, .immediate⟩, ⟨0x45, .eor, .zeroPage⟩, ⟨0x55, .eor, .zeroPageX⟩,
    ⟨0x4D, .eor, .absolute⟩, ⟨0x5D, .eor, .absoluteX⟩, ⟨0x59, .eor, .absoluteY⟩,
    ⟨0x41, .eor, .indirectX⟩, ⟨0x51, .eor, .indirectY⟩,
    ⟨0xE6, .inc, .zeroPage⟩, ⟨0xF6, .inc, .zeroPageX⟩, ⟨0xEE, .inc, .absolute⟩,
    ⟨0xFE, .inc, .absoluteX⟩,
    ⟨0xE8, .inx, .implicit⟩, ⟨0xC8, .iny, .implicit⟩,
    ⟨0x4C, .jmp, .absolute⟩, ⟨0x6C, .jmp, .indirect⟩,
    ⟨0x20, .jsr, .absolute⟩,
    ⟨0xA9, .lda, .immediate⟩, ⟨0xA5, .lda, .zeroPage⟩, ⟨0xB5, .lda, .zeroPageX⟩,
    ⟨0xAD, .lda, .absolute⟩, ⟨0xBD, .lda, .absoluteX⟩, ⟨0xB9, .lda, .absoluteY⟩,
    ⟨0xA1, .lda, .indirectX⟩, ⟨0xB1, .lda, .indirectY⟩,
    ⟨0xA2, .ldx, .immediate⟩, ⟨0xA6, .ldx, .zeroPage⟩, ⟨0xB6, .ldx, .zeroPageY⟩,
    ⟨0xAE, .ldx, .absolute⟩, ⟨0xBE, .ldx, .absoluteY⟩,
    ⟨0xA0, .ldy, .immediate⟩, ⟨0xA4, .ldy, .zeroPage⟩, ⟨0xB4, .ldy, .zeroPageX⟩,
    ⟨0xAC, .ldy, .absolute⟩, ⟨0xBC, .ldy, .absoluteX⟩,
    ⟨0x4A, .lsr, .accumulator⟩, ⟨0x46, .lsr, .zeroPage⟩, ⟨0x56, .lsr, .zeroPageX⟩,
    ⟨0x4E, .lsr, .absolute⟩, ⟨0x5E, .lsr, .absoluteX⟩,
    ⟨0xEA, .nop, .implicit⟩,
    ⟨0x09, .ora, .immediate⟩, ⟨0x05, .ora, .zeroPage⟩, ⟨0x15, .ora, .zeroPageX⟩,
    ⟨0x0D, .ora, .absolute⟩, ⟨0x1D, .ora, .absoluteX⟩, ⟨0x19, .ora, .absoluteY⟩,
    ⟨0x01, .ora, .indirectX⟩, ⟨0x11, .ora, .indirectY⟩,
    ⟨0x48, .pha, .implicit⟩, ⟨0x08, .php, .implicit⟩, ⟨0x68, .pla, .implicit⟩,
    ⟨0x28, .plp, .implicit⟩,
    ⟨0x2A, .rol, .accumulator⟩, ⟨0x26, .rol, .zeroPage⟩, ⟨0x36, .rol, .zeroPageX⟩,
    ⟨0x2E, .rol, .absolute⟩, ⟨0x3E, .rol, .absoluteX⟩,
    ⟨0x6A, .ror, .accumulator⟩, ⟨0x66, .ror, .zeroPage⟩, ⟨0x76, .ror, .zeroPageX⟩,
    ⟨0x6E, .ror, .absolute⟩, ⟨0x7E, .ror, .absoluteX⟩,
    ⟨0x40, .rti, .implicit⟩, ⟨0x60, .rts, .implicit⟩,
    ⟨0xE9, .sbc, .immediate⟩, ⟨0xE5, .sbc, .zeroPage⟩, ⟨0xF5, .sbc, .zeroPageX⟩,
    ⟨0xED, .sbc, .absolute⟩, ⟨0xFD, .sbc, .absoluteX⟩, ⟨0xF9, .sbc, .absoluteY⟩,
    ⟨0xE1, .sbc, .indirectX⟩, ⟨0xF1, .sbc, .indirectY⟩,
    ⟨0x38, .sec, .implicit⟩, ⟨0xF8, .sed, .implicit⟩, ⟨0x78, .sei, .implicit⟩,
    ⟨0x85, .sta, .zeroPage⟩, ⟨0x95, .sta, .zeroPageX⟩, ⟨0x8D, .sta, .absolute⟩,
    ⟨0x9D, .sta, .absoluteX⟩, ⟨0x99, .sta, .absoluteY⟩, ⟨0x81, .sta, .indirectX⟩,
    ⟨0x91, .sta, .indirectY⟩,
    ⟨0x86, .stx, .zeroPage⟩, ⟨0x96, .stx, .zeroPageY⟩, ⟨0x8E, .stx, .absolute⟩,
    ⟨0x84, .sty, .zeroPage⟩, ⟨0x94, .sty, .zeroPageX⟩, ⟨0x8C, .sty, .absolute⟩,
    ⟨0xAA, .tax, .implicit⟩, ⟨0xA8, .tay, .implicit⟩, ⟨0xBA, .tsx, .implicit⟩,
    ⟨0x8A, .txa, .implicit⟩, ⟨0x9A, .txs, .implicit⟩, ⟨0x98, .tya, .implicit⟩]

theorem pairwise_documented : documented.Pairwise (·.opcode ≠ ·.opcode) := by
  decide +kernel

def decode (opcode : UInt8) : Option Instruction := documented.find? (·.opcode == opcode)

theorem decode_eq_some_iff (opcode : UInt8) (i : Instruction) :
    decode opcode = some i ↔ i ∈ documented ∧ i.opcode = opcode := by
  constructor
  · intro h
    exact ⟨List.mem_of_find?_eq_some h, by simpa using List.find?_some h⟩
  · rintro ⟨hMem, rfl⟩
    obtain ⟨before, after, hSplit⟩ := List.append_of_mem hMem
    have hPairwise := pairwise_documented
    rw [hSplit, List.pairwise_append] at hPairwise
    rw [decode, hSplit, List.find?_append, List.find?_eq_none.mpr]
    · simp
    · intro j hj
      simpa using hPairwise.2.2 j hj i List.mem_cons_self

end Instruction

end Nmos6502
