import Mathlib
import Nmos6502.Proofs.LittleEndian
import Nmos6502.Proofs.Run

/-! # Arithmetic on numbers of several bytes

Programs work on long numbers byte by byte and hand the carry on in the status. Loading, combining
and storing one column after the other adds two numbers, or subtracts them, whatever the modes and
wherever the columns lie, as long as none is stored over bytes that are still to be read. Comparing
the lowest bytes and subtracting the others compares two numbers, with and without a sign. What
carries both is that memory outside of the bytes stored so far is as it was.
-/

namespace Nmos6502
set_option autoImplicit false

inductive CarryChain where
  | addition | subtraction
  deriving DecidableEq

namespace CarryChain

def carry : CarryChain → Bool
  | addition => false
  | subtraction => true

def start : CarryChain → Mnemonic
  | addition => .clc
  | subtraction => .sec

def combine : CarryChain → Mnemonic
  | addition => .adc
  | subtraction => .sbc

/-- What is added to the accumulator, of the byte that an instruction finds. -/
def addend (chain : CarryChain) (byte : UInt8) : UInt8 :=
  match chain with
  | addition => byte
  | subtraction => ~~~byte

theorem operation_start (chain : CarryChain) :
    chain.start.operation = .setFlag .carry chain.carry := by
  cases chain <;> rfl

theorem execute_combine (chain : CarryChain) (m : Machine Ram) (operand : Operand) :
    (m.execute chain.combine.operation operand).1 =
      m.accumulate (chain.addend (m.readOperand operand)) := by
  cases chain <;> rfl

end CarryChain

namespace Machine

/-- Nothing but the accumulator, the status and what counts steps is different. -/
structure SameButAccumulator (m t : Machine Ram) : Prop where
  memory : t.memory = m.memory
  x : t.x = m.x
  y : t.y = m.y
  sp : t.sp = m.sp

/-- One column after the other is loaded, combined with another and stored. No column is stored over
another, nor over what later columns are made from. -/
structure CombinesColumns (m : Machine Ram) (chain : CarryChain) (a b c : Nat → UInt16)
    (k : Nat) : Prop where
  starts : m.Performs chain.start .none
  loads : ∀ i < k, (m.stepped (3 * i + 1)).Performs .lda (.address (a i))
  combines : ∀ i < k, (m.stepped (3 * i + 2)).Performs chain.combine (.address (b i))
  stores : ∀ i < k, (m.stepped (3 * i + 3)).Performs .sta (.address (c i))
  distinct : ∀ i < k, ∀ j < k, i ≠ j → c i ≠ c j
  unread : ∀ i j, i < j → j < k → c i ≠ a j ∧ c i ≠ b j

/-- The lowest bytes of two numbers are compared, and the other bytes are subtracted. -/
structure ComparesColumns (m : Machine Ram) (a b : Nat → UInt16) (k : Nat) : Prop where
  loads : ∀ i < k, (m.stepped (2 * i)).Performs .lda (.address (a i))
  compares : (m.stepped 1).Performs .cmp (.address (b 0))
  subtracts : ∀ i, 1 ≤ i → i < k → (m.stepped (2 * i + 1)).Performs .sbc (.address (b i))

/-! ## Single instructions -/

namespace SameButAccumulator

theorem refl (m : Machine Ram) : m.SameButAccumulator m := ⟨rfl, rfl, rfl, rfl⟩

theorem trans {m n t : Machine Ram} (h : m.SameButAccumulator n) (hNext : n.SameButAccumulator t) :
    m.SameButAccumulator t :=
  ⟨hNext.memory.trans h.memory, hNext.x.trans h.x, hNext.y.trans h.y, hNext.sp.trans h.sp⟩

theorem read {m t : Machine Ram} (h : m.SameButAccumulator t) (address : UInt16) :
    t.read address = m.read address := by
  rw [Machine.read, h.memory]
  rfl

end SameButAccumulator

namespace Performs

variable {m : Machine Ram}

theorem setCarry {chain : CarryChain} (h : m.Performs chain.start .none) :
    m.step.machine.memory = m.memory ∧ m.step.machine.p.carry = chain.carry := by
  obtain ⟨pc, state, hMachine⟩ := h.step
  rw [hMachine, chain.operation_start]
  exact ⟨rfl, rfl⟩

theorem load {a : UInt16} (h : m.Performs .lda (.address a)) :
    m.SameButAccumulator m.step.machine ∧ m.step.machine.a = m.read a ∧
      m.step.machine.p = m.p.describing (m.read a) := by
  obtain ⟨pc, state, hMachine⟩ := h.step
  rw [hMachine]
  exact ⟨⟨rfl, rfl, rfl, rfl⟩, rfl, rfl⟩

theorem combine {chain : CarryChain} {b : UInt16} (h : m.Performs chain.combine (.address b)) :
    let sum := addWithCarry m.a (chain.addend (m.read b)) m.p.carry
    m.SameButAccumulator m.step.machine ∧ m.step.machine.a = sum.result ∧
      m.step.machine.p =
        { m.p with carry := sum.carry, overflow := sum.overflow }.describing sum.result := by
  obtain ⟨pc, state, hMachine⟩ := h.step
  rw [chain.execute_combine] at hMachine
  rw [hMachine]
  exact ⟨⟨rfl, rfl, rfl, rfl⟩, rfl, rfl⟩

theorem compare {b : UInt16} (h : m.Performs .cmp (.address b)) :
    m.SameButAccumulator m.step.machine ∧
      m.step.machine.p =
        { m.p with carry := m.read b ≤ m.a }.describing (m.a - m.read b) := by
  obtain ⟨pc, state, hMachine⟩ := h.step
  rw [hMachine]
  exact ⟨⟨rfl, rfl, rfl, rfl⟩, rfl⟩

theorem store {c : UInt16} (h : m.Performs .sta (.address c)) :
    m.step.machine.memory = m.memory.write c m.a ∧ m.step.machine.p = m.p := by
  obtain ⟨pc, state, hMachine⟩ := h.step
  rw [hMachine]
  exact ⟨rfl, rfl⟩

theorem load_combine {chain : CarryChain} {a b : UInt16} (hLoad : m.Performs .lda (.address a))
    (hCombine : m.step.machine.Performs chain.combine (.address b)) :
    let sum := addWithCarry (m.read a) (chain.addend (m.read b)) m.p.carry
    let t := m.step.machine.step.machine
    m.SameButAccumulator t ∧ t.a = sum.result ∧ t.p.carry = sum.carry ∧
      t.p.overflow = sum.overflow ∧ t.p.negative = Byte.isNegative sum.result := by
  intro sum t
  obtain ⟨hSame, hLoaded, hStatus⟩ := hLoad.load
  obtain ⟨hKept, hSum, hFlags⟩ := hCombine.combine
  -- Loading leaves the carry alone, so it goes into the sum as it was.
  have hColumn : addWithCarry m.step.machine.a (chain.addend (m.step.machine.read b))
      m.step.machine.p.carry = sum := by
    rw [hLoaded, hStatus, hSame.read]
    rfl
  rw [hColumn] at hSum hFlags
  exact ⟨hSame.trans hKept, hSum, congrArg Status.carry hFlags, congrArg Status.overflow hFlags,
    congrArg Status.negative hFlags⟩

end Performs

/-! ## Addition and subtraction -/

namespace CombinesColumns

variable {m : Machine Ram} {chain : CarryChain} {a b c : Nat → UInt16} {k : Nat}

theorem column (h : m.CombinesColumns chain a b c k) {i : Nat} (hi : i < k) :
    let n := m.stepped (3 * i + 1)
    let after := m.stepped (3 * (i + 1) + 1)
    let sum := addWithCarry (n.read (a i)) (chain.addend (n.read (b i))) n.p.carry
    after.memory = n.memory.write (c i) sum.result ∧ after.p.carry = sum.carry ∧
      after.p.overflow = sum.overflow ∧ after.p.negative = Byte.isNegative sum.result := by
  intro n after sum
  have hSecond : m.stepped (3 * i + 2) = n.step.machine := stepped_succ (3 * i + 1) m
  have hThird : m.stepped (3 * i + 3) = n.step.machine.step.machine := stepped_add (3 * i + 1) 2 m
  have hAfter : after = n.step.machine.step.machine.step.machine := stepped_add (3 * i + 1) 3 m
  obtain ⟨hSame, hSum, hCarry, hOverflow, hNegative⟩ :=
    (h.loads i hi).load_combine (hSecond ▸ h.combines i hi)
  obtain ⟨hMemory, hStatus⟩ := (hThird ▸ h.stores i hi : n.step.machine.step.machine.Performs _ _).store
  rw [hAfter, hMemory, hStatus, hSum, hSame.memory]
  exact ⟨rfl, hCarry, hOverflow, hNegative⟩

theorem read_of_ne (h : m.CombinesColumns chain a b c k) {i l : Nat} (hil : i ≤ l) (hl : l ≤ k)
    {address : UInt16} (hElsewhere : ∀ j, i ≤ j → j < l → c j ≠ address) :
    (m.stepped (3 * l + 1)).read address = (m.stepped (3 * i + 1)).read address := by
  refine eq_of_forall_succ_eq (f := fun j => (m.stepped (3 * j + 1)).read address) hil ?_
  intro j hij hjl
  obtain ⟨hMemory, -⟩ := h.column (Nat.lt_of_lt_of_le hjl hl)
  change (m.stepped (3 * (j + 1) + 1)).memory.read address = _
  rw [hMemory, Ram.read_write, if_neg (hElsewhere j hij hjl)]
  rfl

theorem read_of_untouched (h : m.CombinesColumns chain a b c k) {i : Nat} (hi : i ≤ k)
    {address : UInt16} (hElsewhere : ∀ j < i, c j ≠ address) :
    (m.stepped (3 * i + 1)).read address = m.read address := by
  obtain ⟨hMemory, -⟩ := h.starts.setCarry
  rw [h.read_of_ne (Nat.zero_le i) hi fun j _ hj => hElsewhere j hj]
  change m.step.machine.memory.read address = _
  rw [hMemory]
  rfl

/-- One column, in terms of the bytes that memory holds before the first step. -/
theorem column_sum (h : m.CombinesColumns chain a b c k) {i : Nat} (hi : i < k) :
    let n := m.stepped (3 * i + 1)
    let after := m.stepped (3 * (i + 1) + 1)
    let sum := addWithCarry (m.read (a i)) (chain.addend (m.read (b i))) n.p.carry
    after.memory = n.memory.write (c i) sum.result ∧ after.p.carry = sum.carry ∧
      after.p.overflow = sum.overflow ∧ after.p.negative = Byte.isNegative sum.result := by
  intro n after sum
  have hA := h.read_of_untouched (Nat.le_of_lt hi) fun j hj => (h.unread j i hj hi).1
  have hB := h.read_of_untouched (Nat.le_of_lt hi) fun j hj => (h.unread j i hj hi).2
  have hSum : sum = addWithCarry (n.read (a i)) (chain.addend (n.read (b i))) n.p.carry := by
    rw [hA, hB]
  rw [hSum]
  exact h.column hi

theorem read_result (h : m.CombinesColumns chain a b c k) {i : Nat} (hi : i < k) :
    (m.stepped (3 * k + 1)).read (c i) = (addWithCarry (m.read (a i))
      (chain.addend (m.read (b i))) (m.stepped (3 * i + 1)).p.carry).result := by
  obtain ⟨hMemory, -⟩ := h.column_sum hi
  rw [h.read_of_ne (Nat.succ_le_of_lt hi) (Nat.le_refl k)
    fun j hij hj => (h.distinct i hi j hj (Nat.ne_of_lt hij)).symm]
  change (m.stepped (3 * (i + 1) + 1)).memory.read (c i) = _
  rw [hMemory, Ram.read_write, if_pos rfl]

theorem addsUp (h : m.CombinesColumns chain a b c k) :
    AddsUp (fun i => m.read (a i)) (fun i => chain.addend (m.read (b i)))
      (fun i => (m.stepped (3 * k + 1)).read (c i)) (fun i => (m.stepped (3 * i + 1)).p.carry) k where
  result _ hi := (h.read_result hi).symm
  carry_succ _ hi := (h.column_sum hi).2.1.symm

theorem negative_eq {j : Nat} (h : m.CombinesColumns chain a b c (j + 1)) :
    let t := m.stepped (3 * (j + 1) + 1)
    t.p.negative = (littleEndian (fun i => t.read (c i)) (j + 1)).testBit (8 * (j + 1) - 1) := by
  obtain ⟨-, -, -, hNegative⟩ := h.column_sum (Nat.lt_succ_self j)
  intro t
  rw [hNegative, testBit_littleEndian, h.read_result (Nat.lt_succ_self j)]

end CombinesColumns

/-- Columns combined from the lowest on, in any modes and with any registers and flags to begin
with, add two numbers of `k` bytes, or subtract them: the result with the last carry on top is the
sum, or the difference modulo `256 ^ k` with the carry as the absence of a borrow. Overflow says
whether the signed result is out of range, and the negative flag is the highest bit. -/
theorem multibyte_sum_and_difference {m : Machine Ram} {k : Nat} (hk : 1 ≤ k)
    {a b c : Nat → UInt16} :
    let t := m.stepped (3 * k + 1)
    let x := littleEndian (fun i => m.read (a i)) k
    let y := littleEndian (fun i => m.read (b i)) k
    let z := littleEndian (fun i => t.read (c i)) k
    (m.CombinesColumns .addition a b c k →
      z + 256 ^ k * t.p.carry.toNat = x + y ∧
      (t.p.overflow = true ↔ ¬FitsSigned k (signedValue k x + signedValue k y)) ∧
      t.p.negative = z.testBit (8 * k - 1)) ∧
    (m.CombinesColumns .subtraction a b c k →
      (z : Int) = (x - y) % 256 ^ k ∧
      (t.p.carry = true ↔ y ≤ x) ∧
      (t.p.overflow = true ↔ ¬FitsSigned k (signedValue k x - signedValue k y)) ∧
      t.p.negative = z.testBit (8 * k - 1)) := by
  obtain ⟨j, rfl⟩ := Nat.exists_eq_add_of_le' hk
  intro t x y z
  refine ⟨fun h => ?_, fun h => ?_⟩
  · obtain ⟨-, hCarry⟩ := h.starts.setCarry
    obtain ⟨-, -, hOverflow, -⟩ := h.column_sum (Nat.lt_succ_self j)
    have hSigned := h.addsUp.init.overflow_sum_iff hCarry
    exact ⟨h.addsUp.value_sum hCarry, hOverflow ▸ hSigned, h.negative_eq⟩
  · obtain ⟨-, hCarry⟩ := h.starts.setCarry
    obtain ⟨-, -, hOverflow, -⟩ := h.column_sum (Nat.lt_succ_self j)
    have hSigned := h.addsUp.init.overflow_difference_iff hCarry
    exact ⟨h.addsUp.value_difference hCarry, h.addsUp.carry_iff hCarry, hOverflow ▸ hSigned,
      h.negative_eq⟩

/-- A sum and a difference that are stored over the first operand. Both cross the border between
positive and negative numbers; the sum has no carry out, and the difference no borrow. -/
theorem multibyte_sum_and_difference_in_place :
    let word (base : UInt16) (i : Nat) := base + UInt16.ofNat i
    let machine (program data : List UInt8) : Machine Ram :=
      { powerOn .standard (Bus.writeAll 0x20 data (Bus.writeAll 0 program Ram.zeroed)) with
        p := { Status.powerOn with decimal := true } }
    let m := machine [0x18, 0xA5, 0x20, 0x65, 0x22, 0x85, 0x20, 0xA5, 0x21, 0x65, 0x23, 0x85, 0x21]
      [0xFF, 0x7F, 0x01, 0x00]
    let n := machine [0x38, 0xA5, 0x20, 0xE5, 0x22, 0x85, 0x20, 0xA5, 0x21, 0xE5, 0x23, 0x85, 0x21]
      [0x00, 0x80, 0x01, 0x00]
    (m.CombinesColumns .addition (word 0x20) (word 0x22) (word 0x20) 2 ∧
      littleEndian (fun i => (m.stepped 7).read (word 0x20 i)) 2 = 0x8000 ∧
      (m.stepped 7).p.overflow = true) ∧
    n.CombinesColumns .subtraction (word 0x20) (word 0x22) (word 0x20) 2 ∧
      littleEndian (fun i => (n.stepped 7).read (word 0x20 i)) 2 = 0x7FFF ∧
      (n.stepped 7).p.overflow = true := by
  intro word machine m n
  have hDistinct : ∀ i < 2, ∀ j < 2, i ≠ j → word 0x20 i ≠ word 0x20 j := by decide
  have hUnread (i j : Nat) (hij : i < j) (hj : j < 2) :
      word 0x20 i ≠ word 0x20 j ∧ word 0x20 i ≠ word 0x22 j := by
    obtain ⟨rfl, rfl⟩ : i = 0 ∧ j = 1 := by omega
    decide
  have hAdds : m.CombinesColumns .addition (word 0x20) (word 0x22) (word 0x20) 2 :=
    ⟨by decide +kernel, by decide +kernel, by decide +kernel, by decide +kernel, hDistinct, hUnread⟩
  have hSubtracts : n.CombinesColumns .subtraction (word 0x20) (word 0x22) (word 0x20) 2 :=
    ⟨by decide +kernel, by decide +kernel, by decide +kernel, by decide +kernel, hDistinct, hUnread⟩
  have hSum (m : Machine Ram)
      (h : m.CombinesColumns .addition (word 0x20) (word 0x22) (word 0x20) 2)
      (hX : littleEndian (fun i => m.read (word 0x20 i)) 2 = 0x7FFF)
      (hY : littleEndian (fun i => m.read (word 0x22 i)) 2 = 0x0001) :
      littleEndian (fun i => (m.stepped 7).read (word 0x20 i)) 2 = 0x8000 ∧
        (m.stepped 7).p.overflow = true := by
    obtain ⟨hValue, hOverflow, -⟩ := (multibyte_sum_and_difference (k := 2) (by decide)).1 h
    rw [hX, hY] at hValue hOverflow
    have hSplit : littleEndian (fun i => (m.stepped 7).read (word 0x20 i)) 2 +
        0x10000 * (m.stepped 7).p.carry.toNat = 0x7FFF + 0x0001 := hValue
    have hBound := (m.stepped 7).p.carry.toNat_le
    exact ⟨by omega, hOverflow.mpr (by decide)⟩
  have hDifference (n : Machine Ram)
      (h : n.CombinesColumns .subtraction (word 0x20) (word 0x22) (word 0x20) 2)
      (hX : littleEndian (fun i => n.read (word 0x20 i)) 2 = 0x8000)
      (hY : littleEndian (fun i => n.read (word 0x22 i)) 2 = 0x0001) :
      littleEndian (fun i => (n.stepped 7).read (word 0x20 i)) 2 = 0x7FFF ∧
        (n.stepped 7).p.overflow = true := by
    obtain ⟨hValue, -, hOverflow, -⟩ := (multibyte_sum_and_difference (k := 2) (by decide)).2 h
    rw [hX, hY] at hValue hOverflow
    exact ⟨Int.ofNat.inj (hValue.trans (by decide)), hOverflow.mpr (by decide)⟩
  exact ⟨⟨hAdds, hSum m hAdds (by decide +kernel) (by decide +kernel)⟩,
    hSubtracts, hDifference n hSubtracts (by decide +kernel) (by decide +kernel)⟩

/-! ## Comparison -/

end Machine

/-- A comparison is a subtraction whose result nobody keeps. -/
theorem addWithCarry_complement (a b : UInt8) :
    (addWithCarry a (~~~b) true).result = a - b ∧
      (addWithCarry a (~~~b) true).carry = decide (b ≤ a) := by
  have ha := a.toNat_lt
  have hb := b.toNat_lt
  constructor
  · apply UInt8.toNat_inj.mp
    rw [addWithCarry_result, Byte.toNat_complement, Byte.toNat_difference, Bool.toNat_true]
    omega
  · rw [addWithCarry_carry, Byte.toNat_complement, Bool.toNat_true, decide_eq_decide,
      UInt8.le_iff_toNat_le]
    omega

namespace Machine

theorem Performs.load_compare {m : Machine Ram} {a b : UInt16}
    (hLoad : m.Performs .lda (.address a))
    (hCompare : m.step.machine.Performs .cmp (.address b)) :
    let t := m.step.machine.step.machine
    m.SameButAccumulator t ∧ t.p.carry = decide (m.read b ≤ m.read a) ∧
      t.p.zero = (m.read a - m.read b == 0) ∧ t.p.overflow = m.p.overflow := by
  intro t
  obtain ⟨hSame, hLoaded, hStatus⟩ := hLoad.load
  obtain ⟨hKept, hFlags⟩ := hCompare.compare
  rw [hLoaded, hStatus, hSame.read] at hFlags
  refine ⟨hSame.trans hKept, ?_⟩
  rw [hFlags]
  exact ⟨rfl, rfl, rfl⟩

/-- The carry into a column of a comparison; the lowest is compared as if there were no borrow. -/
def carryInto (m : Machine Ram) : Nat → Bool
  | 0 => true
  | i + 1 => (m.stepped (2 * (i + 1))).p.carry

namespace ComparesColumns

variable {m : Machine Ram} {a b : Nat → UInt16} {k : Nat}

theorem first (h : m.ComparesColumns a b k) (hk : 0 < k) :
    m.SameButAccumulator (m.stepped 2) ∧
      (m.stepped 2).p.carry = decide (m.read (b 0) ≤ m.read (a 0)) ∧
      (m.stepped 2).p.zero = (m.read (a 0) - m.read (b 0) == 0) ∧
      (m.stepped 2).p.overflow = m.p.overflow := (h.loads 0 hk).load_compare h.compares

theorem next (h : m.ComparesColumns a b k) {i : Nat} (hFirst : 1 ≤ i) (hi : i < k) :
    let n := m.stepped (2 * i)
    let after := m.stepped (2 * (i + 1))
    let sum := addWithCarry (n.read (a i)) (~~~n.read (b i)) n.p.carry
    n.SameButAccumulator after ∧ after.p.carry = sum.carry ∧ after.p.overflow = sum.overflow ∧
      after.p.negative = Byte.isNegative sum.result := by
  intro n after sum
  have hSecond : m.stepped (2 * i + 1) = n.step.machine := stepped_succ (2 * i) m
  have hAfter : after = n.step.machine.step.machine := stepped_add (2 * i) 2 m
  have hSubtract : n.step.machine.Performs CarryChain.subtraction.combine (.address (b i)) :=
    hSecond ▸ h.subtracts i hFirst hi
  obtain ⟨hSame, -, hFlags⟩ := (h.loads i hi).load_combine hSubtract
  rw [hAfter]
  exact ⟨hSame, hFlags⟩

theorem same (h : m.ComparesColumns a b k) {i : Nat} (hi : i ≤ k) :
    m.SameButAccumulator (m.stepped (2 * i)) := by
  induction i with
  | zero => exact .refl m
  | succ i ih =>
    cases i with
    | zero => exact (h.first hi).1
    | succ i =>
      exact (ih (Nat.le_of_succ_le hi)).trans (h.next (Nat.le_add_left 1 i) hi).1

theorem next_sum (h : m.ComparesColumns a b k) {i : Nat} (hi : i + 1 < k) :
    let after := m.stepped (2 * (i + 1 + 1))
    let sum := addWithCarry (m.read (a (i + 1))) (~~~m.read (b (i + 1))) (m.carryInto (i + 1))
    after.p.carry = sum.carry ∧ after.p.overflow = sum.overflow ∧
      after.p.negative = Byte.isNegative sum.result := by
  obtain ⟨-, hFlags⟩ := h.next (Nat.le_add_left 1 i) hi
  have hSame := h.same (Nat.le_of_lt hi)
  rw [hSame.read, hSame.read] at hFlags
  exact hFlags

theorem addsUp (h : m.ComparesColumns a b k) :
    AddsUp (fun i => m.read (a i)) (fun i => ~~~m.read (b i))
      (fun i => (addWithCarry (m.read (a i)) (~~~m.read (b i)) (m.carryInto i)).result)
      m.carryInto k where
  result _ _ := rfl
  carry_succ i hi := by
    cases i with
    | zero => rw [carryInto, carryInto, (addWithCarry_complement _ _).2, (h.first hi).2.1]
    | succ i => exact (h.next_sum hi).1.symm

end ComparesColumns

/-- Columns compared from the lowest on, in any modes and with any registers and flags to begin with,
compare two numbers of `k` bytes. The carry is set if no number is subtracted from a smaller one;
behind a subtraction, the negative flag corrected by the overflow says the same of the signed
numbers, and behind a single comparison the zero flag tells equality. Nothing but the accumulator
and the status is changed. -/
theorem multibyte_comparison {m : Machine Ram} {k : Nat} (hk : 1 ≤ k) {a b : Nat → UInt16}
    (h : m.ComparesColumns a b k) :
    let t := m.stepped (2 * k)
    let x := littleEndian (fun i => m.read (a i)) k
    let y := littleEndian (fun i => m.read (b i)) k
    (t.p.carry = true ↔ y ≤ x) ∧
    (2 ≤ k → (t.p.negative ≠ t.p.overflow ↔ signedValue k x < signedValue k y)) ∧
    (k = 1 → (t.p.zero = true ↔ x = y) ∧ t.p.overflow = m.p.overflow) ∧
    m.SameButAccumulator t := by
  obtain ⟨j, rfl⟩ := Nat.exists_eq_add_of_le' hk
  intro t x y
  refine ⟨h.addsUp.carry_iff rfl, fun hTwo => ?_, fun hOne => ?_, h.same (Nat.le_refl _)⟩
  · obtain ⟨i, rfl⟩ := Nat.exists_eq_add_of_le' (Nat.le_of_succ_le_succ hTwo)
    obtain ⟨-, hOverflow, hNegative⟩ := h.next_sum (Nat.lt_succ_self (i + 1))
    rw [hOverflow, hNegative]
    exact h.addsUp.init.less_iff rfl
  · obtain rfl : j = 0 := Nat.succ.inj hOne
    obtain ⟨-, -, hZero, hOverflow⟩ := h.first (Nat.lt_succ_self 0)
    refine ⟨?_, hOverflow⟩
    have hByte : t.p.zero = true ↔ m.read (a 0) = m.read (b 0) := by
      rw [hZero, beq_iff_eq, UInt8.sub_eq_iff_eq_add, UInt8.zero_add]
    refine hByte.trans ⟨fun hEq => littleEndian_congr fun i hi => ?_, fun hEq => ?_⟩
    · obtain rfl : i = 0 := Nat.lt_one_iff.mp hi
      exact hEq
    · exact eq_of_littleEndian_eq hEq 0 Nat.one_pos

/-- The lowest signed number compared with the highest: larger without a sign, smaller with it. -/
theorem multibyte_comparison_of_extremes :
    let word (base : UInt16) (i : Nat) := base + UInt16.ofNat i
    let m : Machine Ram :=
      { powerOn .standard (Bus.writeAll 0x20 [0x00, 0x80, 0xFF, 0x7F]
          (Bus.writeAll 0 [0xA5, 0x20, 0xC5, 0x22, 0xA5, 0x21, 0xE5, 0x23] Ram.zeroed)) with
        p := { Status.powerOn with decimal := true } }
    m.ComparesColumns (word 0x20) (word 0x22) 2 ∧ (m.stepped 4).p.carry = true ∧
      (m.stepped 4).p.negative ≠ (m.stepped 4).p.overflow := by
  intro word m
  have hCompares : m.ComparesColumns (word 0x20) (word 0x22) 2 := by
    refine ⟨by decide +kernel, by decide +kernel, fun i hFirst hi => ?_⟩
    obtain rfl : i = 1 := by omega
    decide +kernel
  have hConclude (m : Machine Ram) (h : m.ComparesColumns (word 0x20) (word 0x22) 2)
      (hX : littleEndian (fun i => m.read (word 0x20 i)) 2 = 0x8000)
      (hY : littleEndian (fun i => m.read (word 0x22 i)) 2 = 0x7FFF) :
      (m.stepped 4).p.carry = true ∧ (m.stepped 4).p.negative ≠ (m.stepped 4).p.overflow := by
    obtain ⟨hCarry, hSigned, -⟩ := multibyte_comparison (by decide) h
    rw [hX, hY] at hCarry hSigned
    exact ⟨hCarry.mpr (by decide), (hSigned (Nat.le_refl 2)).mpr (by decide)⟩
  exact ⟨hCompares, hConclude m hCompares (by decide +kernel) (by decide +kernel)⟩

end Machine

end Nmos6502
