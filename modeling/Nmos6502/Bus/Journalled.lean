import Nmos6502.Bus

/-! # Journalled buses

A bus that also keeps the writes it has been asked for, in order and with the addresses as given,
whatever the bus behind it makes of them. Reads leave no entry.
-/

universe u

namespace Nmos6502
set_option autoImplicit false

structure Journalled (M : Type u) where
  bus : M
  journal : Array (UInt16 × UInt8) := #[]

namespace Journalled

variable {M : Type u} [Bus M]

instance : Bus (Journalled M) where
  read memory address := Bus.read memory.bus address
  write memory address byte :=
    { bus := Bus.write memory.bus address byte
      journal := memory.journal.push (address, byte) }

@[simp] theorem read_eq (memory : Journalled M) (address : UInt16) :
    Bus.read memory address = Bus.read memory.bus address := rfl

@[simp] theorem bus_write (memory : Journalled M) (address : UInt16) (byte : UInt8) :
    (Bus.write memory address byte).bus = Bus.write memory.bus address byte := rfl

@[simp] theorem journal_write (memory : Journalled M) (address : UInt16) (byte : UInt8) :
    (Bus.write memory address byte).journal = memory.journal.push (address, byte) := rfl

def cleared (memory : Journalled M) : Journalled M := { memory with journal := #[] }

end Journalled

end Nmos6502
