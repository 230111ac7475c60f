import Nmos6502.Instruction.Operation

/-! # Arithmetic on bytes

Addition, comparison, shifts and logic on bytes, without a machine around them. Each result comes
with the flags that it decides.
-/

namespace Nmos6502
set_option autoImplicit false
open Byte (isNegative)

structure Sum where
  result : UInt8
  carry : Bool
  overflow : Bool
  deriving DecidableEq

/-- Adds two bytes and a carry. The carry out is bit 8 of the sum; overflow means that the operands
share a sign and the result does not. Subtraction adds the complement of the subtrahend, so its
carry is the absence of a borrow. -/
def addWithCarry (a b : UInt8) (carry : Bool) : Sum :=
  let sum := a.toNat + b.toNat + carry.toNat
  let result := UInt8.ofNat sum
  { result
    carry := 0xFF < sum
    overflow := isNegative a == isNegative b && isNegative a != isNegative result }

theorem toNat_addWithCarry (a b : UInt8) (carry : Bool) :
    (addWithCarry a b carry).result.toNat + 256 * (addWithCarry a b carry).carry.toNat =
      a.toNat + b.toNat + carry.toNat := by
  have ha := a.toNat_lt
  have hb := b.toNat_lt
  have hCarry := carry.toNat_le
  simp only [addWithCarry, UInt8.toNat_ofNat']
  by_cases hOut : 0xFF < a.toNat + b.toNat + carry.toNat
  · simp only [hOut, decide_true, Bool.toNat_true]
    omega
  · simp only [hOut, decide_false, Bool.toNat_false]
    omega

namespace Logic

def apply : Logic → UInt8 → UInt8 → UInt8
  | and, a, b => a &&& b
  | or, a, b => a ||| b
  | exclusiveOr, a, b => a ^^^ b

end Logic

namespace Shift

def apply : Shift → UInt8 → Bool → UInt8 × Bool
  | left, byte, _ => (byte <<< 1, isNegative byte)
  | right, byte, _ => (byte >>> 1, byte &&& 1 == 1)
  | rotateLeft, byte, carry => ((byte <<< 1) + (if carry then 1 else 0), isNegative byte)
  | rotateRight, byte, carry => ((byte >>> 1) + (if carry then 0x80 else 0), byte &&& 1 == 1)

end Shift

end Nmos6502
