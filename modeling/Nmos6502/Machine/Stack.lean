import Nmos6502.Machine.Basic

/-! # The stack

The stack is page one, a ring of 256 slots. The stack pointer names the free slot that the next
push fills; it goes down on a push, up on a pull, and wraps either way.
-/

universe u

namespace Nmos6502.Machine
set_option autoImplicit false

variable {M : Type u} [Bus M]

def push (m : Machine M) (byte : UInt8) : Machine M :=
  let sp := m.sp
  { m.write (Word.stackSlot sp) byte with sp := sp - 1 }

def pull (m : Machine M) : UInt8 × Machine M :=
  let sp := m.sp + 1
  (m.read (Word.stackSlot sp), { m with sp })

/-- Pushes the high byte first, so that the word lies low byte first in memory. -/
def pushWord (m : Machine M) (word : UInt16) : Machine M :=
  (m.push (Word.high word)).push (Word.low word)

def pullWord (m : Machine M) : UInt16 × Machine M :=
  let (low, m) := m.pull
  let (high, m) := m.pull
  (Word.ofBytes low high, m)

end Nmos6502.Machine
