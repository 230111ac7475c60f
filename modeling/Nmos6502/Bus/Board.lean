import Nmos6502.Bus.Ram

/-! # A memory board

RAM behind partly decoded address lines: an address is cut down by a mask, so memory repeats
through the address space, and a range of cells may ignore writes.
-/

namespace Nmos6502
set_option autoImplicit false

structure Board where
  ram : Ram := .zeroed
  /-- The address lines that are decoded. -/
  lines : UInt16 := 0xFFFF
  /-- The first and the last cell that ignore writes. -/
  readOnly : Option (UInt16 × UInt16) := none
  deriving DecidableEq

namespace Board

def cell (board : Board) (address : UInt16) : UInt16 := address &&& board.lines

def isReadOnly (board : Board) (cell : UInt16) : Bool :=
  match board.readOnly with
  | none => false
  | some (first, last) => first ≤ cell && cell ≤ last

def read (board : Board) (address : UInt16) : UInt8 := board.ram.read (board.cell address)

def write (board : Board) (address : UInt16) (byte : UInt8) : Board :=
  let cell := board.cell address
  if board.isReadOnly cell then board else { board with ram := board.ram.write cell byte }

instance : Bus Board := ⟨read, write⟩

/-- Fits `image` into the cells from `origin` on, read-only cells included. -/
def install (origin : UInt16) : List UInt8 → Board → Board
  | [], board => board
  | byte :: image, board =>
    install (origin + 1) image { board with ram := board.ram.write (board.cell origin) byte }

end Board

end Nmos6502
