import Nmos6502.Machine.Basic

/-! # Loading a program

A program image goes through the bus, one write per byte in increasing order of addresses. An image
that does not fit changes nothing at all, not even a pending halt.
-/

universe u

namespace Nmos6502.Machine
set_option autoImplicit false

variable {M : Type u} [Bus M]

def load (image : List UInt8) (origin : UInt16) (m : Machine M) :
    Transition M (Except ImageTooLarge Unit) :=
  if origin.toNat + image.length ≤ 0x10000 then
    let m := { m with memory := Bus.writeAll origin image m.memory, pc := origin }
    ⟨m.resume, .ok (), [.loaded image.length origin]⟩
  else
    ⟨m, .error ⟨origin, image.length⟩, []⟩

end Nmos6502.Machine
