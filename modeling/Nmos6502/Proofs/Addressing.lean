import Nmos6502.Proofs.DataTable

/-! # Effective addresses

Where the modes lead, in numbers: the operand bytes behind an opcode and the pointers in memory are
bytes, and sums wrap at 256 inside page zero and inside the page of a pointer, at 65536 everywhere
else. The main statement is that resolving follows these rules at every program counter, with any
index and on any bus.
-/

universe u

namespace Nmos6502
set_option autoImplicit false

/-- An operand with numbers in place of words. -/
inductive Place where
  | none
  | accumulator
  | address (address : Nat)
  | displacement (offset : Int)
  deriving DecidableEq

def Operand.place : Operand → Place
  | none => .none
  | accumulator => .accumulator
  | address location => .address location.toNat
  | relative offset => .displacement offset.toInt

/-- The rules: the place that a mode means for an instruction at `pc`, when `byte` is what memory
holds at each address. -/
def Mode.place (byte : Nat → Nat) (pc x y : Nat) (mode : Mode) : Place :=
  let first := byte ((pc + 1) % 65536)
  let word := first + 256 * byte ((pc + 2) % 65536)
  match mode with
  | implicit => .none
  | accumulator => .accumulator
  | immediate => .address ((pc + 1) % 65536)
  | zeroPage => .address first
  | zeroPageX => .address ((first + x) % 256)
  | zeroPageY => .address ((first + y) % 256)
  | relative => .displacement (Byte.signed first)
  | absolute => .address word
  | absoluteX => .address ((word + x) % 65536)
  | absoluteY => .address ((word + y) % 65536)
  | indirect => .address (byte word + 256 * byte (word / 256 * 256 + (word % 256 + 1) % 256))
  | indirectX =>
    let pointer := (first + x) % 256
    .address (byte pointer + 256 * byte ((pointer + 1) % 256))
  | indirectY => .address ((byte first + 256 * byte ((first + 1) % 256) + y) % 65536)

theorem Byte.toInt_toInt8 (byte : UInt8) : byte.toInt8.toInt = signed byte.toNat := by
  have hByte := byte.toNat_lt
  have hCases : byte.toInt8.toInt =
      if 2 * byte.toNat < 256 then (byte.toNat : Int) else byte.toNat - 256 :=
    BitVec.toInt_eq_toNat_cond byte.toBitVec
  rw [hCases, signed]
  split <;> split <;> omega

theorem Word.toNat_nextInPage (word : UInt16) :
    (nextInPage word).toNat = word.toNat / 256 * 256 + (word.toNat % 256 + 1) % 256 := by
  rw [nextInPage, toNat_ofBytes, toNat_high, Byte.toNat_add_one, toNat_low]
  omega

theorem Word.nextInPage_of_low_eq {word : UInt16} (hEnd : low word = 0xFF) :
    nextInPage word = ofBytes 0x00 (high word) := by
  rw [nextInPage, hEnd]
  rfl

theorem Word.nextInPage_of_low_ne {word : UInt16} (hInside : low word ≠ 0xFF) :
    nextInPage word = word + 1 := by
  have hLow : word.toNat % 256 ≠ 255 := by
    intro hEnd
    apply hInside
    apply UInt8.toNat_inj.mp
    rw [toNat_low, hEnd]
    rfl
  have hWord := word.toNat_lt
  have hNext : (word + 1).toNat = (word.toNat + 1) % 65536 := UInt16.toNat_add word 1
  apply UInt16.toNat_inj.mp
  rw [toNat_nextInPage, hNext]
  omega

namespace Machine

variable {M : Type u} [Bus M]

def byteAt (m : Machine M) (address : Nat) : Nat := (m.read (UInt16.ofNat address)).toNat

theorem byteAt_toNat (m : Machine M) (address : UInt16) :
    m.byteAt address.toNat = (m.read address).toNat := by
  rw [byteAt, UInt16.ofNat_toNat]

theorem toNat_readWord (m : Machine M) (address : UInt16) : (m.readWord address).toNat =
    m.byteAt address.toNat + 256 * m.byteAt ((address.toNat + 1) % 65536) := by
  have hNext : (address.toNat + 1) % 65536 = (address + 1).toNat := (UInt16.toNat_add address 1).symm
  rw [hNext, byteAt_toNat, byteAt_toNat, readWord, Word.toNat_ofBytes]

theorem toNat_readWordInPage (m : Machine M) (address : UInt16) :
    (m.readWordInPage address).toNat = m.byteAt address.toNat +
      256 * m.byteAt (address.toNat / 256 * 256 + (address.toNat % 256 + 1) % 256) := by
  rw [← Word.toNat_nextInPage, byteAt_toNat, byteAt_toNat, readWordInPage, Word.toNat_ofBytes]

/-- A pointer in page zero stays in page zero. -/
theorem toNat_readWordInPage_toUInt16 (m : Machine M) (offset : UInt8) :
    (m.readWordInPage offset.toUInt16).toNat =
      m.byteAt offset.toNat + 256 * m.byteAt ((offset.toNat + 1) % 256) := by
  have hOffset := offset.toNat_lt
  have hPage : offset.toNat / 256 * 256 + (offset.toNat % 256 + 1) % 256 =
      (offset.toNat + 1) % 256 := by omega
  rw [toNat_readWordInPage, UInt8.toNat_toUInt16, hPage]

theorem place_resolve (m : Machine M) (mode : Mode) :
    (m.resolve mode).place = mode.place m.byteAt m.pc.toNat m.x.toNat m.y.toNat := by
  have hPc : (m.pc.toNat + 1) % 65536 = (m.pc + 1).toNat := (UInt16.toNat_add m.pc 1).symm
  have hFirst : m.byteAt ((m.pc.toNat + 1) % 65536) = (m.read (m.pc + 1)).toNat := by
    rw [hPc, byteAt_toNat]
  have hWord : m.byteAt ((m.pc.toNat + 1) % 65536) + 256 * m.byteAt ((m.pc.toNat + 2) % 65536) =
      (m.readWord (m.pc + 1)).toNat := by
    have hBehind : ((m.pc + 1).toNat + 1) % 65536 = (m.pc.toNat + 2) % 65536 := by omega
    rw [toNat_readWord, hBehind, hPc]
  -- The modes differ in what wraps: a byte, a word, or the low byte of a pointer.
  cases mode with
  | implicit | accumulator => rfl
  | immediate => exact congrArg Place.address hPc.symm
  | zeroPage => exact congrArg Place.address (UInt8.toNat_toUInt16 _ ▸ hFirst.symm)
  | zeroPageX | zeroPageY =>
    rw [Mode.place, hFirst]
    exact congrArg Place.address (UInt8.toNat_add _ _)
  | relative =>
    rw [Mode.place, hFirst]
    exact congrArg Place.displacement (Byte.toInt_toInt8 _)
  | absolute => exact congrArg Place.address hWord.symm
  | absoluteX | absoluteY =>
    rw [Mode.place, hWord]
    exact congrArg Place.address (UInt16.toNat_add _ _)
  | indirect =>
    rw [Mode.place, hWord]
    exact congrArg Place.address (m.toNat_readWordInPage _)
  | indirectX =>
    rw [Mode.place, hFirst, ← UInt8.toNat_add]
    exact congrArg Place.address (m.toNat_readWordInPage_toUInt16 _)
  | indirectY =>
    rw [Mode.place, hFirst, ← m.toNat_readWordInPage_toUInt16]
    exact congrArg Place.address (UInt16.toNat_add _ _)

/-- Resolving follows the rules of the modes, on any bus and whatever the program counter and the
index registers are, and looks at nothing else of the processor. An indirect jump reads an ordinary
word, unless its pointer lies at the end of a page: then the high byte comes from the start of that
page. -/
theorem resolver_follows_arithmetic (M : Type u) [Bus M] (m : Machine M) :
    (∀ mode, (m.resolve mode).place = mode.place m.byteAt m.pc.toNat m.x.toNat m.y.toNat) ∧
    (∀ mode a sp p state haltCause retired config,
      ({ m with a, sp, p, state, haltCause, retired, config } : Machine M).resolve mode =
        m.resolve mode) ∧
    let pointer := m.readWord (m.pc + 1)
    m.resolve .indirect = .address (
      if Word.low pointer = 0xFF then
        Word.ofBytes (m.read pointer) (m.read (Word.ofBytes 0x00 (Word.high pointer)))
      else m.readWord pointer) := by
  refine ⟨m.place_resolve, fun mode a sp p state haltCause retired config => ?_, ?_⟩
  · cases mode <;> rfl
  · intro pointer
    change Operand.address (m.readWordInPage pointer) = _
    rw [readWordInPage]
    split
    · rename_i hEnd
      rw [Word.nextInPage_of_low_eq hEnd]
    · rename_i hInside
      rw [Word.nextInPage_of_low_ne hInside, readWord]

end Machine

end Nmos6502
