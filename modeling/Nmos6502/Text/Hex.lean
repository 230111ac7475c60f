/-! # Fixed-width hexadecimal text

Numbers are written most significant digit first, in upper case, padded with zeros to a width.
-/

namespace Nmos6502.Hex
set_option autoImplicit false

def digit (n : Nat) : Char :=
  if n < 10 then Char.ofNat ('0'.toNat + n) else Char.ofNat ('A'.toNat + (n - 10))

/-- The last `width` hexadecimal digits of `n`. -/
def digits : Nat → Nat → List Char
  | 0, _ => []
  | width + 1, n => digits width (n / 16) ++ [digit (n % 16)]

theorem length_digits (width n : Nat) : (digits width n).length = width := by
  induction width generalizing n with
  | zero => rfl
  | succ width ih => simp [digits, ih]

def ofByte (byte : UInt8) : String := String.ofList (digits 2 byte.toNat)

def ofWord (word : UInt16) : String := String.ofList (digits 4 word.toNat)

end Nmos6502.Hex
