/-! # Memory buses

A bus answers reads and accepts writes at every 16-bit address; neither can fail. What a read
returns depends on the state of the bus and the address alone.
-/

universe u

namespace Nmos6502
set_option autoImplicit false

class Bus (M : Type u) where
  read : M → UInt16 → UInt8
  write : M → UInt16 → UInt8 → M

namespace Bus

variable {M : Type u} [Bus M]

def writeAll (origin : UInt16) : List UInt8 → M → M
  | [], memory => memory
  | byte :: bytes, memory => writeAll (origin + 1) bytes (write memory origin byte)

end Bus

end Nmos6502
