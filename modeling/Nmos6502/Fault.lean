import Nmos6502.Text.Hex

/-! # Faults

The two things that can go wrong: an undocumented opcode is fetched by a machine that does not skip
it, or an image reaches past the end of the address space. Each fault carries its cause; the
wording is in `message`.
-/

namespace Nmos6502
set_option autoImplicit false

structure IllegalOpcode where
  opcode : UInt8
  address : UInt16
  deriving DecidableEq

def IllegalOpcode.message (fault : IllegalOpcode) : String :=
  "Illegal opcode 0x" ++ Hex.ofByte fault.opcode ++ " at 0x" ++ Hex.ofWord fault.address

/-- An image of `length` bytes does not fit between `origin` and the end of the address space. -/
structure ImageTooLarge where
  origin : UInt16
  length : Nat
  deriving DecidableEq

def ImageTooLarge.message (fault : ImageTooLarge) : String :=
  "Program image of " ++ toString fault.length ++ " bytes does not fit at origin 0x" ++
    Hex.ofWord fault.origin

end Nmos6502
