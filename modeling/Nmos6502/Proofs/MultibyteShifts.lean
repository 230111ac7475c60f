import Mathlib
import Nmos6502.Proofs.LittleEndian
import Nmos6502.Proofs.Run

/-! # Shifts of numbers of several bytes

Shifting the bytes of a long number one after the other, each taking in the carry that the one before
has left, shifts the number with the carry as one more bit on top: to the left from the lowest byte
on, to the right from the highest. A rotation to the left is an addition in columns of the number to
itself, and a rotation to the right undoes it. The bytes lie in cells, at addresses or in the
accumulator.
-/

namespace Nmos6502
set_option autoImplicit false

/-! ## Rotating a word -/

theorem rotateRight_rotateLeft {w : Nat} (hw : 1 < w) (word : BitVec w) :
    (word.rotateLeft 1).rotateRight 1 = word := by
  have hOne : 1 % w = 1 := Nat.mod_eq_of_lt hw
  apply BitVec.eq_of_getElem_eq
  intro i hi
  simp only [BitVec.getElem_rotateRight, BitVec.getElem_rotateLeft, hOne]
  by_cases hBelow : i < w - 1
  · have hPlace : 1 + i - 1 = i := by omega
    rw [dif_pos hBelow, dif_neg (by omega)]
    simp only [hPlace]
  · have hPlace : w - 1 + (i - (w - 1)) = i := by omega
    rw [dif_neg hBelow, dif_pos (by omega)]
    simp only [hPlace]

theorem rotateLeft_succ {w r : Nat} (hr : r < w) (hw : 1 < w) (word : BitVec w) :
    (word.rotateLeft r).rotateLeft 1 = word.rotateLeft (r + 1) := by
  have hOne : 1 % w = 1 := Nat.mod_eq_of_lt hw
  have hMod : r % w = r := Nat.mod_eq_of_lt hr
  have hNext : (r + 1) % w = if r + 1 = w then 0 else r + 1 := by
    split
    · rename_i hLast
      rw [hLast, Nat.mod_self]
    · rename_i hLess
      exact Nat.mod_eq_of_lt (by omega)
  apply BitVec.eq_of_getElem_eq
  intro i hi
  simp only [BitVec.getElem_rotateLeft, hOne, hMod, hNext]
  grind

theorem rotateLeft_zero {w : Nat} (word : BitVec w) : word.rotateLeft 0 = word := by
  apply BitVec.eq_of_getElem_eq
  intro i hi
  simp only [BitVec.getElem_rotateLeft, Nat.zero_mod, Nat.sub_zero]
  exact dif_neg (Nat.not_lt_zero i)

theorem rotateLeft_width {w : Nat} (word : BitVec w) : word.rotateLeft w = word := by
  rw [← BitVec.rotateLeft_mod_eq_rotateLeft, Nat.mod_self, rotateLeft_zero]

theorem eq_of_double {w v u : Nat} {c : Bool} (hw : 0 < w) (hv : v < 2 ^ w) (hu : u < 2 ^ w)
    (hDouble : u + 2 ^ w * c.toNat = 2 * v) : u = 2 * v % 2 ^ w ∧ c = v.testBit (w - 1) := by
  have hBits : w - 1 + 1 = w := Nat.sub_add_cancel hw
  have hTwice : 2 ^ w = 2 * 2 ^ (w - 1) := by rw [← pow_succ', hBits]
  constructor
  · rw [← hDouble, Nat.add_mul_mod_self_left, Nat.mod_eq_of_lt hu]
  · cases c with
    | true =>
      rw [Bool.toNat_true] at hDouble
      rw [Nat.testBit_of_two_pow_le_and_two_pow_add_one_gt (by omega) (by rwa [hBits])]
    | false =>
      rw [Bool.toNat_false] at hDouble
      rw [Nat.testBit_lt_two_pow (by omega)]

/-- Doubling a number with a carry below it, and the carry out on top, is a rotation. -/
theorem cons_eq_rotateLeft {w v u : Nat} {b c : Bool} (hw : 0 < w) (hv : v < 2 ^ w)
    (hu : u < 2 ^ w) (hDouble : u + 2 ^ w * c.toNat = 2 * v + b.toNat) :
    BitVec.cons c (BitVec.ofNat w u) = (BitVec.cons b (BitVec.ofNat w v)).rotateLeft 1 := by
  have hOne : 1 % (w + 1) = 1 := Nat.mod_eq_of_lt (Nat.succ_lt_succ hw)
  have hCarry := b.toNat_le
  have hTop : (b.toNat * 2 ^ w + v) / 2 ^ w = b.toNat := by
    rw [Nat.add_comm, Nat.add_mul_div_right _ _ (Nat.two_pow_pos w), Nat.div_eq_of_lt hv,
      Nat.zero_add]
  have hLow : (b.toNat * 2 ^ w + v) * 2 ^ 1 % 2 ^ (w + 1) = 2 ^ 1 * v := by
    have hSplit : (b.toNat * 2 ^ w + v) * 2 ^ 1 = 2 * v + 2 ^ (w + 1) * b.toNat := by ring
    rw [hSplit, Nat.add_mul_mod_self_left, Nat.mod_eq_of_lt (by omega), pow_one]
  have hBit : b.toNat < 2 ^ 1 := Nat.lt_succ_of_le hCarry
  apply BitVec.eq_of_toNat_eq
  rw [BitVec.toNat_rotateLeft, BitVec.toNat_cons', BitVec.toNat_cons', BitVec.toNat_ofNat,
    BitVec.toNat_ofNat, Nat.mod_eq_of_lt hv, Nat.mod_eq_of_lt hu, hOne]
  simp only [Nat.shiftLeft_eq, Nat.shiftRight_eq_div_pow, Nat.add_sub_cancel]
  rw [hTop, hLow, ← Nat.two_pow_add_eq_or_of_lt hBit, pow_one]
  linarith

/-! ## Shifting a byte -/

namespace Shift

def mnemonic : Shift → Mnemonic
  | left => .asl
  | right => .lsr
  | rotateLeft => .rol
  | rotateRight => .ror

theorem operation_mnemonic (shift : Shift) : shift.mnemonic.operation = .shift shift := by
  cases shift <;> rfl

/-- What a shift takes in, of the carry that it finds. -/
def carryIn (shift : Shift) (carry : Bool) : Bool :=
  match shift with
  | left | right => false
  | rotateLeft | rotateRight => carry

theorem toNat_apply (shift : Shift) (byte : UInt8) (carry : Bool) :
    (shift.apply byte carry).1.toNat = shift.mnemonic.modified carry byte.toNat :=
  Mnemonic.modified_of_shift shift.operation_mnemonic byte carry

/-- A shift to the left adds the byte to itself. -/
theorem apply_left {shift : Shift} (hLeft : shift = .left ∨ shift = .rotateLeft) (byte : UInt8)
    (carry : Bool) :
    let sum := addWithCarry byte byte (shift.carryIn carry)
    shift.apply byte carry = (sum.result, sum.carry) := by
  have hByte := byte.toNat_lt
  have hCarry := carry.toNat_le
  intro sum
  apply Prod.ext
  · apply UInt8.toNat_inj.mp
    rw [toNat_apply, addWithCarry_result, ← Nat.two_mul]
    obtain rfl | rfl := hLeft <;> rfl
  · rw [apply_carry, addWithCarry_carry]
    obtain rfl | rfl := hLeft
    · rw [carryOut, carryIn, decide_eq_decide, Bool.toNat_false]
      omega
    · rw [carryOut, carryIn, decide_eq_decide]
      omega

/-- A shift to the right is undone by adding the result to itself, with the bit that went out. -/
theorem apply_right {shift : Shift} (hRight : shift = .right ∨ shift = .rotateRight) (byte : UInt8)
    (carry : Bool) :
    let out := shift.apply byte carry
    let sum := addWithCarry out.1 out.1 out.2
    sum.result = byte ∧ sum.carry = shift.carryIn carry := by
  have hByte := byte.toNat_lt
  intro out sum
  have hResult : out.1.toNat = byte.toNat / 2 + 128 * (shift.carryIn carry).toNat := by
    rw [toNat_apply]
    obtain rfl | rfl := hRight <;> rfl
  have hOut : out.2.toNat = byte.toNat % 2 := by
    have hLow : out.2 = decide (byte.toNat % 2 = 1) := by
      rw [apply_carry]
      obtain rfl | rfl := hRight <;> rfl
    obtain hZero | hOne := Nat.mod_two_eq_zero_or_one byte.toNat
    · rw [hLow, hZero]
      rfl
    · rw [hLow, hOne]
      rfl
  constructor
  · apply UInt8.toNat_inj.mp
    rw [addWithCarry_result, hResult, hOut]
    omega
  · rw [addWithCarry_carry, hResult, hOut]
    cases shift.carryIn carry with
    | true => exact decide_eq_true (by rw [Bool.toNat_true]; omega)
    | false => exact decide_eq_false (by rw [Bool.toNat_false]; omega)

end Shift

def Operand.holdsByte : Operand → Bool
  | accumulator | address _ => true
  | none | relative _ => false

namespace Machine

/-! ## Passes over cells -/

/-- The number that `n` cells hold, its lowest byte in `cell 0`. -/
def number (m : Machine Ram) (cell : Nat → Operand) (n : Nat) : Nat :=
  littleEndian (fun i => m.readOperand (cell i)) n

/-- The number that `n` cells hold, with the carry as one more bit on top. -/
def numberWithCarry (m : Machine Ram) (cell : Nat → Operand) (n : Nat) : BitVec (8 * n + 1) :=
  BitVec.cons m.p.carry (BitVec.ofNat (8 * n) (m.number cell n))

/-- Different cells are shifted one after the other, the first by `first` and the others by
`next`. -/
structure ShiftsCells (m : Machine Ram) (first next : Shift) (cell : Nat → Operand) (n : Nat) :
    Prop where
  performs : ∀ i < n, (m.stepped i).Performs (if i = 0 then first else next).mnemonic (cell i)
  distinct : ∀ i < n, ∀ j < n, i ≠ j → cell i ≠ cell j

/-- All that differs is what the cells hold, the carry, the zero and negative flags, which describe
the byte in the cell `last`, and what counts steps. -/
structure ShiftedOnly (m t : Machine Ram) (cell : Nat → Operand) (n : Nat) (last : Operand) :
    Prop where
  others : ∀ place, (∀ i < n, cell i ≠ place) → t.readOperand place = m.readOperand place
  x : t.x = m.x
  y : t.y = m.y
  sp : t.sp = m.sp
  overflow : t.p.overflow = m.p.overflow
  decimal : t.p.decimal = m.p.decimal
  interruptDisable : t.p.interruptDisable = m.p.interruptDisable
  zero : t.p.zero = (t.readOperand last == 0)
  negative : t.p.negative = Byte.isNegative (t.readOperand last)

theorem number_lt (m : Machine Ram) (cell : Nat → Operand) (n : Nat) :
    m.number cell n < 2 ^ (8 * n) := by
  rw [two_pow_bits]
  exact littleEndian_lt _ n

theorem numberWithCarry_inj {m t : Machine Ram} {cell : Nat → Operand} {n : Nat}
    (h : t.numberWithCarry cell n = m.numberWithCarry cell n) :
    t.p.carry = m.p.carry ∧ ∀ i < n, t.readOperand (cell i) = m.readOperand (cell i) := by
  have hCarry := congrArg BitVec.msb h
  have hNumber := congrArg (fun word => (word.setWidth (8 * n)).toNat) h
  simp only [numberWithCarry, BitVec.msb_cons] at hCarry
  simp only [numberWithCarry, BitVec.setWidth_cons, BitVec.toNat_ofNat,
    Nat.mod_eq_of_lt (number_lt _ _ _)] at hNumber
  exact ⟨hCarry, eq_of_littleEndian_eq hNumber⟩

theorem readOperand_writeOperand (m : Machine Ram) {cell : Operand} (hCell : cell.holdsByte = true)
    (byte : UInt8) (place : Operand) : (m.writeOperand cell byte).readOperand place =
      if cell = place then byte else m.readOperand place := by
  cases cell with
  | none | relative _ => cases hCell
  | accumulator =>
    cases place with
    | accumulator => rfl
    | none | address _ | relative _ => rfl
  | address location =>
    cases place with
    | none | accumulator | relative _ => rfl
    | address other =>
      simp only [Operand.address.injEq]
      exact m.memory.read_write location other byte

theorem Performs.holdsByte {m : Machine Ram} {shift : Shift} {cell : Operand}
    (h : m.Performs shift.mnemonic cell) : cell.holdsByte = true := by
  obtain ⟨i, hNext, hMnemonic, rfl⟩ := h
  have hSuits := suits_of_next? hNext
  rw [hMnemonic, shift.operation_mnemonic, Operation.suits, Bool.or_eq_true, beq_iff_eq] at hSuits
  obtain hMode | hMode := hSuits
  · obtain ⟨location, hAddress⟩ := m.exists_address hMode
    rw [hAddress]
    rfl
  · rw [hMode]
    rfl

theorem Performs.shift {m : Machine Ram} {shift : Shift} {cell : Operand}
    (h : m.Performs shift.mnemonic cell) :
    let out := shift.apply (m.readOperand cell) m.p.carry
    let t := m.step.machine
    (∀ place, t.readOperand place = if cell = place then out.1 else m.readOperand place) ∧
      t.p = { m.p with carry := out.2 }.describing out.1 ∧ t.x = m.x ∧ t.y = m.y ∧ t.sp = m.sp := by
  intro out t
  obtain ⟨pc, state, hMachine⟩ := h.step
  rw [shift.operation_mnemonic] at hMachine
  refine ⟨fun place => ?_, ?_⟩
  · rw [← m.readOperand_writeOperand h.holdsByte out.1 place]
    change m.step.machine.readOperand place = _
    rw [hMachine]
    cases place <;> rfl
  · change m.step.machine.p = _ ∧ m.step.machine.x = _ ∧ m.step.machine.y = _ ∧ m.step.machine.sp = _
    rw [hMachine]
    cases cell <;> exact ⟨rfl, rfl, rfl, rfl⟩

theorem Performs.shiftedOnly {m : Machine Ram} {shift : Shift} {cell : Nat → Operand} {n i : Nat}
    (h : m.Performs shift.mnemonic (cell i)) (hi : i < n) :
    m.ShiftedOnly m.step.machine cell n (cell i) := by
  obtain ⟨hPlaces, hStatus, hX, hY, hSp⟩ := h.shift
  have hCell := hPlaces (cell i)
  rw [if_pos rfl] at hCell
  constructor
  case others =>
    intro place hOther
    rw [hPlaces place, if_neg (hOther i hi)]
  case x => exact hX
  case y => exact hY
  case sp => exact hSp
  case zero =>
    rw [hCell, hStatus]
    rfl
  case negative =>
    rw [hCell, hStatus]
    rfl
  all_goals
    rw [hStatus]
    rfl

theorem ShiftedOnly.trans {m t u : Machine Ram} {cell : Nat → Operand} {n : Nat}
    {last final : Operand} (h : m.ShiftedOnly t cell n last) (hNext : t.ShiftedOnly u cell n final) :
    m.ShiftedOnly u cell n final where
  others place hOther := (hNext.others place hOther).trans (h.others place hOther)
  x := hNext.x.trans h.x
  y := hNext.y.trans h.y
  sp := hNext.sp.trans h.sp
  overflow := hNext.overflow.trans h.overflow
  decimal := hNext.decimal.trans h.decimal
  interruptDisable := hNext.interruptDisable.trans h.interruptDisable
  zero := hNext.zero
  negative := hNext.negative

theorem ShiftedOnly.of_reverse {m t : Machine Ram} {cell : Nat → Operand} {n : Nat} {last : Operand}
    (h : m.ShiftedOnly t (fun i => cell (n - 1 - i)) n last) : m.ShiftedOnly t cell n last :=
  { h with others := fun place hOther => h.others place fun i hi => hOther (n - 1 - i) (by omega) }

/-- With the number and the carry as they were, all of memory is, and the accumulator. -/
theorem ShiftedOnly.restores {m t : Machine Ram} {cell : Nat → Operand} {n : Nat} {last : Operand}
    (h : m.ShiftedOnly t cell n last)
    (hNumber : t.numberWithCarry cell n = m.numberWithCarry cell n) :
    t.memory = m.memory ∧ t.a = m.a ∧ t.p.carry = m.p.carry := by
  obtain ⟨hCarry, hCells⟩ := numberWithCarry_inj hNumber
  have hPlaces (place : Operand) : t.readOperand place = m.readOperand place := by
    by_cases hCell : ∃ i < n, cell i = place
    · obtain ⟨i, hi, rfl⟩ := hCell
      exact hCells i hi
    · exact h.others place fun i hi hEq => hCell ⟨i, hi, hEq⟩
  exact ⟨Ram.ext_read fun location => hPlaces (.address location), hPlaces .accumulator, hCarry⟩

namespace ShiftsCells

variable {m : Machine Ram} {first next : Shift} {cell : Nat → Operand} {n : Nat}

theorem readOperand_of_ne (h : m.ShiftsCells first next cell n) {i l : Nat} (hil : i ≤ l)
    (hl : l ≤ n) {place : Operand} (hElsewhere : ∀ j, i ≤ j → j < l → cell j ≠ place) :
    (m.stepped l).readOperand place = (m.stepped i).readOperand place := by
  refine eq_of_forall_succ_eq (f := fun j => (m.stepped j).readOperand place) hil ?_
  intro j hij hjl
  obtain ⟨hPlaces, -⟩ := (h.performs j (Nat.lt_of_lt_of_le hjl hl)).shift
  rw [stepped_succ, hPlaces, if_neg (hElsewhere j hij hjl)]

/-- One cell of a pass: what it holds before and after the pass, with the carry that goes in and the
one that goes on to the next cell. -/
theorem apply_eq (h : m.ShiftsCells first next cell n) {i : Nat} (hi : i < n) :
    (if i = 0 then first else next).apply (m.readOperand (cell i)) (m.stepped i).p.carry =
      ((m.stepped n).readOperand (cell i), (m.stepped (i + 1)).p.carry) := by
  have hBefore : (m.stepped i).readOperand (cell i) = m.readOperand (cell i) :=
    h.readOperand_of_ne (Nat.zero_le i) (Nat.le_of_lt hi)
      fun j _ hj => h.distinct j (Nat.lt_trans hj hi) i hi (Nat.ne_of_lt hj)
  have hAfter : (m.stepped n).readOperand (cell i) = (m.stepped (i + 1)).readOperand (cell i) :=
    h.readOperand_of_ne (Nat.succ_le_of_lt hi) (Nat.le_refl n)
      fun j hij hj => h.distinct j hj i hi (Nat.ne_of_gt hij)
  obtain ⟨hPlaces, hStatus, -⟩ := (h.performs i hi).shift
  rw [hAfter, stepped_succ, hPlaces, if_pos rfl, hStatus, hBefore]
  rfl

theorem shiftedOnly (h : m.ShiftsCells first next cell n) {i : Nat} (hi : i < n) :
    m.ShiftedOnly (m.stepped (i + 1)) cell n (cell i) := by
  induction i with
  | zero => exact (h.performs 0 hi).shiftedOnly hi
  | succ i ih =>
    rw [stepped_succ]
    exact (ih (Nat.lt_of_succ_lt hi)).trans ((h.performs (i + 1) hi).shiftedOnly hi)

def carryInto (m : Machine Ram) (first next : Shift) (i : Nat) : Bool :=
  (if i = 0 then first else next).carryIn (m.stepped i).p.carry

theorem addsUp_left (h : m.ShiftsCells first .rotateLeft cell n)
    (hFirst : first = .left ∨ first = .rotateLeft) :
    AddsUp (fun i => m.readOperand (cell i)) (fun i => m.readOperand (cell i))
      (fun i => (m.stepped n).readOperand (cell i)) (carryInto m first .rotateLeft) n := by
  have hLeft (i : Nat) : (if i = 0 then first else .rotateLeft) = .left ∨
      (if i = 0 then first else .rotateLeft) = .rotateLeft := by
    split
    · exact hFirst
    · exact .inr rfl
  have hCell {i : Nat} (hi : i < n) := (Shift.apply_left (hLeft i) _ _).symm.trans (h.apply_eq hi)
  exact ⟨fun i hi => congrArg Prod.fst (hCell hi), fun i hi => congrArg Prod.snd (hCell hi)⟩

theorem apply_reverse (h : m.ShiftsCells first next (fun i => cell (n - 1 - i)) n) {i j : Nat}
    (hn : n = i + 1 + j) :
    (if i = 0 then first else next).apply (m.readOperand (cell j)) (m.stepped i).p.carry =
      ((m.stepped n).readOperand (cell j), (m.stepped (i + 1)).p.carry) := by
  have hIndex : n - 1 - i = j := by omega
  have hCell := h.apply_eq (i := i) (by omega)
  rwa [hIndex] at hCell

theorem addsUp_right (h : m.ShiftsCells first .rotateRight (fun i => cell (n - 1 - i)) n)
    (hFirst : first = .right ∨ first = .rotateRight) :
    AddsUp (fun i => (m.stepped n).readOperand (cell i))
      (fun i => (m.stepped n).readOperand (cell i)) (fun i => m.readOperand (cell i))
      (fun j => carryInto m first .rotateRight (n - j)) n := by
  have hRight (i : Nat) : (if i = 0 then first else .rotateRight) = .right ∨
      (if i = 0 then first else .rotateRight) = .rotateRight := by
    split
    · exact hFirst
    · exact .inr rfl
  have hCell {j : Nat} (hj : j < n) :
      let sum := addWithCarry ((m.stepped n).readOperand (cell j))
        ((m.stepped n).readOperand (cell j)) (carryInto m first .rotateRight (n - j))
      sum.result = m.readOperand (cell j) ∧
        sum.carry = carryInto m first .rotateRight (n - (j + 1)) := by
    obtain ⟨i, hn⟩ : ∃ i, n = i + 1 + j := ⟨n - 1 - j, by omega⟩
    have hUndone := Shift.apply_right (hRight i) (m.readOperand (cell j)) (m.stepped i).p.carry
    have hInto : n - j = i + 1 := by omega
    have hNext : n - (j + 1) = i := by omega
    rw [h.apply_reverse hn] at hUndone
    rw [hInto, hNext]
    exact hUndone
  exact ⟨fun j hj => (hCell hj).1, fun j hj => (hCell hj).2⟩

theorem shiftedOnly_last (h : m.ShiftsCells first next cell n) (hn : 1 ≤ n) :
    m.ShiftedOnly (m.stepped n) cell n (cell (n - 1)) := by
  obtain ⟨k, rfl⟩ := Nat.exists_eq_add_of_le' hn
  exact h.shiftedOnly (Nat.lt_succ_self k)

theorem shiftedOnly_reverse (h : m.ShiftsCells first next (fun i => cell (n - 1 - i)) n)
    (hn : 1 ≤ n) : m.ShiftedOnly (m.stepped n) cell n (cell 0) := by
  have hLast := (h.shiftedOnly_last hn).of_reverse
  rwa [Nat.sub_self] at hLast

/-! ### What a pass does to the number -/

theorem carryInto_self (shift : Shift) (i : Nat) :
    carryInto m shift shift i = shift.carryIn (m.stepped i).p.carry := by
  rw [carryInto, ite_self]

theorem carryInto_of_pos {i : Nat} (hi : 1 ≤ i) :
    carryInto m first next i = next.carryIn (m.stepped i).p.carry := by
  rw [carryInto, if_neg (Nat.ne_of_gt hi)]

theorem numberWithCarry_left (h : m.ShiftsCells .rotateLeft .rotateLeft cell n) (hn : 1 ≤ n) :
    (m.stepped n).numberWithCarry cell n = (m.numberWithCarry cell n).rotateLeft 1 := by
  have hValue := (h.addsUp_left (.inr rfl)).value
  rw [carryInto_self, carryInto_self, ← two_pow_bits, ← Nat.two_mul] at hValue
  exact cons_eq_rotateLeft (by omega) (m.number_lt cell n) ((m.stepped n).number_lt cell n) hValue

theorem numberWithCarry_right
    (h : m.ShiftsCells .rotateRight .rotateRight (fun i => cell (n - 1 - i)) n) (hn : 1 ≤ n) :
    (m.stepped n).numberWithCarry cell n = (m.numberWithCarry cell n).rotateRight 1 := by
  have hValue := (h.addsUp_right (.inr rfl)).value
  rw [carryInto_self, carryInto_self, ← two_pow_bits, ← Nat.two_mul, Nat.sub_self,
    Nat.sub_zero] at hValue
  have hUndone : m.numberWithCarry cell n = ((m.stepped n).numberWithCarry cell n).rotateLeft 1 :=
    cons_eq_rotateLeft (by omega) ((m.stepped n).number_lt cell n) (m.number_lt cell n) hValue
  rw [hUndone, rotateRight_rotateLeft (by omega)]

theorem number_left (h : m.ShiftsCells .left .rotateLeft cell n) (hn : 1 ≤ n) :
    (m.stepped n).number cell n = 2 * m.number cell n % 2 ^ (8 * n) ∧
      (m.stepped n).p.carry = (m.number cell n).testBit (8 * n - 1) := by
  have hValue := (h.addsUp_left (.inl rfl)).value
  rw [carryInto_of_pos hn, ← two_pow_bits, ← Nat.two_mul] at hValue
  exact eq_of_double (by omega) (m.number_lt cell n) ((m.stepped n).number_lt cell n) hValue

theorem number_right (h : m.ShiftsCells .right .rotateRight (fun i => cell (n - 1 - i)) n)
    (hn : 1 ≤ n) :
    (m.stepped n).number cell n = m.number cell n / 2 ∧
      (m.stepped n).p.carry.toNat = m.number cell n % 2 := by
  have hValue := (h.addsUp_right (.inl rfl)).value
  rw [Nat.sub_self, Nat.sub_zero, carryInto_of_pos hn, ← Nat.two_mul] at hValue
  have hSplit : m.number cell n =
      2 * (m.stepped n).number cell n + (m.stepped n).p.carry.toNat := hValue
  have hCarry := (m.stepped n).p.carry.toNat_le
  omega

/-! ### Several passes -/

theorem stepped_succ_mul (m : Machine Ram) (p n : Nat) :
    m.stepped ((p + 1) * n) = (m.stepped (p * n)).stepped n := by
  rw [Nat.succ_mul, stepped_add]

theorem numberWithCarry_passes {p : Nat} (hn : 1 ≤ n) (hp : p ≤ 8 * n + 1)
    (h : ∀ q < p, (m.stepped (q * n)).ShiftsCells .rotateLeft .rotateLeft cell n) :
    (m.stepped (p * n)).numberWithCarry cell n = (m.numberWithCarry cell n).rotateLeft p := by
  induction p with
  | zero => rw [Nat.zero_mul, rotateLeft_zero, stepped]
  | succ p ih =>
    have hBefore := ih (Nat.le_of_succ_le hp) fun q hq => h q (Nat.lt_succ_of_lt hq)
    rw [stepped_succ_mul, (h p (Nat.lt_succ_self p)).numberWithCarry_left hn, hBefore,
      rotateLeft_succ hp (by omega)]

theorem shiftedOnly_passes {p : Nat} (hn : 1 ≤ n)
    (h : ∀ q ≤ p, (m.stepped (q * n)).ShiftsCells .rotateLeft .rotateLeft cell n) :
    m.ShiftedOnly (m.stepped ((p + 1) * n)) cell n (cell (n - 1)) := by
  induction p with
  | zero =>
    have hPass := (h 0 (Nat.le_refl 0)).shiftedOnly_last hn
    rw [stepped_succ_mul]
    rwa [Nat.zero_mul] at hPass ⊢
  | succ p ih =>
    have hBefore := ih fun q hq => h q (Nat.le_succ_of_le hq)
    have hPass := (h (p + 1) (Nat.le_refl _)).shiftedOnly_last hn
    rw [← stepped_succ_mul] at hPass
    exact hBefore.trans hPass

end ShiftsCells

/-- Shifts of a number of `n` bytes, in cells at any addresses, or of one byte in the accumulator.
With the carry as one more bit on top, rotating the cells from the lowest on rotates the number to
the left, and rotating them from the highest down rotates it to the right. So the second undoes the
first, and as many passes as there are bits change nothing. If a pass begins with a shift that takes
no carry in, it doubles the number or halves it, whatever the carry was, and the carry has the bit
that went out. Apart from the cells and the carry, all is left alone, and the zero and negative flags
describe the cell shifted last. -/
theorem multibyte_shifts {m : Machine Ram} {n : Nat} (hn : 1 ≤ n) {cell : Nat → Operand} :
    let fromTop (i : Nat) := cell (n - 1 - i)
    let t := m.stepped n
    (m.ShiftsCells .rotateLeft .rotateLeft cell n →
      t.numberWithCarry cell n = (m.numberWithCarry cell n).rotateLeft 1 ∧
      m.ShiftedOnly t cell n (cell (n - 1))) ∧
    (m.ShiftsCells .rotateRight .rotateRight fromTop n →
      t.numberWithCarry cell n = (m.numberWithCarry cell n).rotateRight 1 ∧
      m.ShiftedOnly t cell n (cell 0)) ∧
    (m.ShiftsCells .rotateLeft .rotateLeft cell n →
      t.ShiftsCells .rotateRight .rotateRight fromTop n →
      let back := m.stepped (n + n)
      (back.memory = m.memory ∧ back.a = m.a ∧ back.p.carry = m.p.carry) ∧
      m.ShiftedOnly back cell n (cell 0)) ∧
    ((∀ p < 8 * n + 1, (m.stepped (p * n)).ShiftsCells .rotateLeft .rotateLeft cell n) →
      let around := m.stepped ((8 * n + 1) * n)
      (around.memory = m.memory ∧ around.a = m.a ∧ around.p.carry = m.p.carry) ∧
      m.ShiftedOnly around cell n (cell (n - 1))) ∧
    (m.ShiftsCells .left .rotateLeft cell n →
      t.number cell n = 2 * m.number cell n % 2 ^ (8 * n) ∧
      t.p.carry = (m.number cell n).testBit (8 * n - 1) ∧
      m.ShiftedOnly t cell n (cell (n - 1))) ∧
    (m.ShiftsCells .right .rotateRight fromTop n →
      t.number cell n = m.number cell n / 2 ∧
      t.p.carry.toNat = m.number cell n % 2 ∧
      m.ShiftedOnly t cell n (cell 0)) := by
  intro fromTop t
  refine ⟨fun h => ⟨h.numberWithCarry_left hn, h.shiftedOnly_last hn⟩,
    fun h => ⟨h.numberWithCarry_right hn, h.shiftedOnly_reverse hn⟩,
    fun hLeft hRight => ?back, fun h => ?around, fun h => ?double, fun h => ?halve⟩
  case back =>
    intro back
    have hBack : back = t.stepped n := stepped_add n n m
    have hOnly : m.ShiftedOnly back cell n (cell 0) := by
      rw [hBack]
      exact (hLeft.shiftedOnly_last hn).trans (hRight.shiftedOnly_reverse hn)
    have hNumber : back.numberWithCarry cell n = m.numberWithCarry cell n := by
      rw [hBack, hRight.numberWithCarry_right hn, hLeft.numberWithCarry_left hn,
        rotateRight_rotateLeft (by omega)]
    exact ⟨hOnly.restores hNumber, hOnly⟩
  case around =>
    intro around
    have hOnly : m.ShiftedOnly around cell n (cell (n - 1)) :=
      ShiftsCells.shiftedOnly_passes hn fun q hq => h q (Nat.lt_succ_of_le hq)
    have hNumber : around.numberWithCarry cell n = m.numberWithCarry cell n :=
      (ShiftsCells.numberWithCarry_passes hn (Nat.le_refl _) h).trans (rotateLeft_width _)
    exact ⟨hOnly.restores hNumber, hOnly⟩
  case double =>
    obtain ⟨hNumber, hCarry⟩ := h.number_left hn
    exact ⟨hNumber, hCarry, h.shiftedOnly_last hn⟩
  case halve =>
    obtain ⟨hNumber, hCarry⟩ := h.number_right hn
    exact ⟨hNumber, hCarry, h.shiftedOnly_reverse hn⟩

/-- Two bytes and a carry rotated and rotated back, doubled and halved, and the accumulator turned
nine times. -/
theorem multibyte_shifts_there_and_back :
    let cell (i : Nat) : Operand := .address (0x20 + UInt16.ofNat i)
    let machine (program : List UInt8) : Machine Ram :=
      { powerOn .standard (Bus.writeAll 0x20 [0x34, 0x92] (Bus.writeAll 0 program Ram.zeroed)) with
        a := 0x5A, p := { Status.powerOn with carry := true } }
    let rotates := machine [0x26, 0x20, 0x26, 0x21, 0x66, 0x21, 0x66, 0x20]
    let turns := machine [0x2A, 0x2A, 0x2A, 0x2A, 0x2A, 0x2A, 0x2A, 0x2A, 0x2A]
    let doubles := machine [0x06, 0x20, 0x26, 0x21]
    let halves := machine [0x46, 0x21, 0x66, 0x20]
    (rotates.ShiftsCells .rotateLeft .rotateLeft cell 2 ∧
      (rotates.stepped 2).numberWithCarry cell 2 = 0x12469#17 ∧
      (rotates.stepped 2).ShiftsCells .rotateRight .rotateRight (fun i => cell (1 - i)) 2 ∧
      (rotates.stepped 4).memory = rotates.memory) ∧
    ((∀ p < 9, (turns.stepped (p * 1)).ShiftsCells .rotateLeft .rotateLeft
        (fun _ => .accumulator) 1) ∧
      (turns.stepped 9).a = 0x5A) ∧
    (doubles.ShiftsCells .left .rotateLeft cell 2 ∧
      (doubles.stepped 2).number cell 2 = 0x2468 ∧ (doubles.stepped 2).p.carry = true) ∧
    halves.ShiftsCells .right .rotateRight (fun i => cell (1 - i)) 2 ∧
      (halves.stepped 2).number cell 2 = 0x491A := by
  intro cell machine rotates turns doubles halves
  have hDistinct : ∀ i < 2, ∀ j < 2, i ≠ j → cell i ≠ cell j := by decide
  have hReverse : ∀ i < 2, ∀ j < 2, i ≠ j → cell (1 - i) ≠ cell (1 - j) := by decide
  have hLeft : rotates.ShiftsCells .rotateLeft .rotateLeft cell 2 := ⟨by decide +kernel, hDistinct⟩
  have hRight : (rotates.stepped 2).ShiftsCells .rotateRight .rotateRight (fun i => cell (1 - i)) 2 :=
    ⟨by decide +kernel, hReverse⟩
  have hAccumulator : ∀ p < 9, ∀ i < 1, ((turns.stepped (p * 1)).stepped i).Performs
      (if i = 0 then Shift.rotateLeft else .rotateLeft).mnemonic .accumulator := by decide +kernel
  have hDoubles : doubles.ShiftsCells .left .rotateLeft cell 2 := ⟨by decide +kernel, hDistinct⟩
  have hHalves : halves.ShiftsCells .right .rotateRight (fun i => cell (1 - i)) 2 :=
    ⟨by decide +kernel, hReverse⟩
  have hRotated (m : Machine Ram) (h : m.ShiftsCells .rotateLeft .rotateLeft cell 2)
      (hBack : (m.stepped 2).ShiftsCells .rotateRight .rotateRight (fun i => cell (1 - i)) 2)
      (hNumber : m.numberWithCarry cell 2 = 0x19234#17) :
      (m.stepped 2).numberWithCarry cell 2 = 0x12469#17 ∧ (m.stepped 4).memory = m.memory := by
    obtain ⟨hOnce, -, hRestored, -⟩ := multibyte_shifts (m := m) (n := 2) (by decide)
    exact ⟨(hOnce h).1.trans (congrArg (BitVec.rotateLeft · 1) hNumber), (hRestored h hBack).1.1⟩
  have hTurned (m : Machine Ram) (h : ∀ p < 9, (m.stepped (p * 1)).ShiftsCells .rotateLeft
      .rotateLeft (fun _ => .accumulator) 1) : (m.stepped 9).a = m.a := by
    obtain ⟨-, -, -, hRestored, -⟩ := multibyte_shifts (m := m) (n := 1) (by decide)
    exact (hRestored h).1.2.1
  have hDoubled (m : Machine Ram) (h : m.ShiftsCells .left .rotateLeft cell 2)
      (hNumber : m.number cell 2 = 0x9234) :
      (m.stepped 2).number cell 2 = 0x2468 ∧ (m.stepped 2).p.carry = true := by
    obtain ⟨-, -, -, -, hDouble, -⟩ := multibyte_shifts (m := m) (n := 2) (by decide)
    obtain ⟨hLow, hCarry, -⟩ := hDouble h
    rw [hNumber] at hLow hCarry
    exact ⟨hLow, hCarry⟩
  have hHalved (m : Machine Ram)
      (h : m.ShiftsCells .right .rotateRight (fun i => cell (1 - i)) 2)
      (hNumber : m.number cell 2 = 0x9234) : (m.stepped 2).number cell 2 = 0x491A := by
    obtain ⟨-, -, -, -, -, hHalve⟩ := multibyte_shifts (m := m) (n := 2) (by decide)
    obtain ⟨hHigh, -⟩ := hHalve h
    rw [hNumber] at hHigh
    exact hHigh
  have hTurns : ∀ p < 9, (turns.stepped (p * 1)).ShiftsCells .rotateLeft .rotateLeft
      (fun _ => .accumulator) 1 :=
    fun p hp => ⟨hAccumulator p hp, fun i hi j hj hNe => absurd (by omega) hNe⟩
  obtain ⟨hNumber, hBack⟩ := hRotated rotates hLeft hRight (by decide +kernel)
  exact ⟨⟨hLeft, hNumber, hRight, hBack⟩, ⟨hTurns, hTurned turns hTurns⟩,
    ⟨hDoubles, hDoubled doubles hDoubles (by decide +kernel)⟩, hHalves,
    hHalved halves hHalves (by decide +kernel)⟩

end Machine

end Nmos6502
