import Nmos6502.Status
import Nmos6502.Instruction.Mnemonic

/-! # Operations

The 56 mnemonics are instances of fewer operations, each with its registers, flag or direction as
parameters. Execution and the theory of single instructions follow operations, not mnemonics.
-/

namespace Nmos6502
set_option autoImplicit false

inductive Register where
  | a | x | y | sp
  deriving DecidableEq

inductive Logic where
  | and | or | exclusiveOr
  deriving DecidableEq

/-- Shifts by one place; a rotation runs through the carry. -/
inductive Shift where
  | left | right | rotateLeft | rotateRight
  deriving DecidableEq

inductive Operation where
  | load (target : Register)
  | store (source : Register)
  /-- Copies a register; the copy shows in Z and N unless it goes to the stack pointer. -/
  | transfer (source target : Register)
  | logic (logic : Logic)
  | add
  | subtract
  | compare (register : Register)
  | testBits
  | shift (shift : Shift)
  | increment
  | decrement
  | incrementRegister (register : Register)
  | decrementRegister (register : Register)
  | branch (flag : Flag) (on : Bool)
  | jump
  | call
  | returnFromCall
  | returnFromInterrupt
  | interrupt
  | pushAccumulator
  | pushStatus
  | pullAccumulator
  | pullStatus
  | setFlag (flag : Flag) (on : Bool)
  | idle
  deriving DecidableEq

namespace Mnemonic

def operation : Mnemonic → Operation
  | lda => .load .a
  | ldx => .load .x
  | ldy => .load .y
  | sta => .store .a
  | stx => .store .x
  | sty => .store .y
  | tax => .transfer .a .x
  | tay => .transfer .a .y
  | txa => .transfer .x .a
  | tya => .transfer .y .a
  | tsx => .transfer .sp .x
  | txs => .transfer .x .sp
  | and => .logic .and
  | ora => .logic .or
  | eor => .logic .exclusiveOr
  | adc => .add
  | sbc => .subtract
  | cmp => .compare .a
  | cpx => .compare .x
  | cpy => .compare .y
  | bit => .testBits
  | asl => .shift .left
  | lsr => .shift .right
  | rol => .shift .rotateLeft
  | ror => .shift .rotateRight
  | inc => .increment
  | dec => .decrement
  | inx => .incrementRegister .x
  | iny => .incrementRegister .y
  | dex => .decrementRegister .x
  | dey => .decrementRegister .y
  | bcc => .branch .carry false
  | bcs => .branch .carry true
  | bne => .branch .zero false
  | beq => .branch .zero true
  | bpl => .branch .negative false
  | bmi => .branch .negative true
  | bvc => .branch .overflow false
  | bvs => .branch .overflow true
  | jmp => .jump
  | jsr => .call
  | rts => .returnFromCall
  | rti => .returnFromInterrupt
  | brk => .interrupt
  | pha => .pushAccumulator
  | php => .pushStatus
  | pla => .pullAccumulator
  | plp => .pullStatus
  | clc => .setFlag .carry false
  | sec => .setFlag .carry true
  | cli => .setFlag .interruptDisable false
  | sei => .setFlag .interruptDisable true
  | cld => .setFlag .decimal false
  | sed => .setFlag .decimal true
  | clv => .setFlag .overflow false
  | nop => .idle

end Mnemonic

end Nmos6502
