import Mathlib
import Nmos6502.Proofs.DataTable

/-! # Numbers of several bytes

A number of `k` bytes, the lowest byte first, without a sign or in two's complement. Bytes are added
column by column, each column taking its carry from the one below. The main statements relate the
columns to the numbers: the result with the last carry on top is the sum, and the highest column
overflows exactly if the sum of the signed numbers leaves their range. Subtraction is the addition
of complements with a carry.
-/

namespace Nmos6502
set_option autoImplicit false

/-- The number that has `byte 0` to `byte (k - 1)` as its bytes, from the lowest to the highest. -/
def littleEndian (byte : Nat → UInt8) (k : Nat) : Nat :=
  ∑ i ∈ Finset.range k, (byte i).toNat * 256 ^ i

/-- The two's-complement value of a number of `k` bytes. -/
def signedValue (k n : Nat) : Int := if n < 2 ^ (8 * k - 1) then n else n - 2 ^ (8 * k)

/-- Whether a value is in the two's-complement range of `k` bytes. -/
def FitsSigned (k : Nat) (value : Int) : Prop :=
  -2 ^ (8 * k - 1) ≤ value ∧ value < 2 ^ (8 * k - 1)

instance (k : Nat) (value : Int) : Decidable (FitsSigned k value) :=
  inferInstanceAs (Decidable (_ ∧ _))

theorem littleEndian_succ (byte : Nat → UInt8) (k : Nat) :
    littleEndian byte (k + 1) = littleEndian byte k + (byte k).toNat * 256 ^ k :=
  Finset.sum_range_succ _ k

theorem littleEndian_congr {x y : Nat → UInt8} {k : Nat} (h : ∀ i < k, x i = y i) :
    littleEndian x k = littleEndian y k := by
  apply Finset.sum_congr rfl
  intro i hi
  rw [h i (Finset.mem_range.mp hi)]

theorem littleEndian_lt (byte : Nat → UInt8) (k : Nat) : littleEndian byte k < 256 ^ k := by
  induction k with
  | zero => exact Nat.one_pos
  | succ k ih =>
    have hByte : (byte k).toNat * 256 ^ k ≤ 255 * 256 ^ k :=
      Nat.mul_le_mul_right _ (Nat.le_of_lt_succ (byte k).toNat_lt)
    rw [littleEndian_succ, pow_succ]
    omega

theorem eq_of_littleEndian_eq {x y : Nat → UInt8} {k : Nat}
    (h : littleEndian x k = littleEndian y k) : ∀ i < k, x i = y i := by
  induction k with
  | zero =>
    intro i hi
    cases hi
  | succ k ih =>
    have hx := littleEndian_lt x k
    have hy := littleEndian_lt y k
    have hPositive : 0 < 256 ^ k := Nat.zero_lt_of_lt hx
    rw [littleEndian_succ, littleEndian_succ] at h
    have hHigh : x k = y k := by
      have hDiv := congrArg (· / 256 ^ k) h
      simp only [Nat.add_mul_div_right _ _ hPositive, Nat.div_eq_of_lt hx, Nat.div_eq_of_lt hy,
        Nat.zero_add] at hDiv
      exact UInt8.toNat_inj.mp hDiv
    have hLow : littleEndian x k = littleEndian y k := by
      rw [hHigh] at h
      exact Nat.add_right_cancel h
    intro i hi
    obtain hBelow | rfl := Nat.lt_succ_iff_lt_or_eq.mp hi
    · exact ih hLow i hBelow
    · exact hHigh

/-! ## The highest byte -/

theorem two_pow_top_bit (k : Nat) : 2 ^ (8 * (k + 1) - 1) = 128 * 256 ^ k := by
  have hBits : 8 * (k + 1) - 1 = 7 + 8 * k := by omega
  rw [hBits, pow_add, pow_mul]
  rfl

theorem two_pow_bits (k : Nat) : 2 ^ (8 * k) = 256 ^ k := pow_mul 2 8 k

theorem littleEndian_succ_lt_iff (byte : Nat → UInt8) (k bound : Nat) :
    littleEndian byte (k + 1) < bound * 256 ^ k ↔ (byte k).toNat < bound := by
  have hLow := littleEndian_lt byte k
  have hPositive : 0 < 256 ^ k := Nat.zero_lt_of_lt hLow
  rw [littleEndian_succ, ← Nat.div_lt_iff_lt_mul hPositive, Nat.add_mul_div_right _ _ hPositive,
    Nat.div_eq_of_lt hLow, Nat.zero_add]

theorem signedValue_littleEndian (byte : Nat → UInt8) (k : Nat) :
    signedValue (k + 1) (littleEndian byte (k + 1)) =
      Byte.signed (byte k).toNat * 256 ^ k + littleEndian byte k := by
  rw [signedValue, Byte.signed, two_pow_top_bit]
  simp only [littleEndian_succ_lt_iff]
  split
  · rw [littleEndian_succ]
    push_cast
    ring
  · rw [littleEndian_succ, pow_mul]
    push_cast
    ring

theorem testBit_littleEndian (byte : Nat → UInt8) (k : Nat) :
    (littleEndian byte (k + 1)).testBit (8 * (k + 1) - 1) = Byte.isNegative (byte k) := by
  have hTop := littleEndian_succ_lt_iff byte k 128
  have hAll := littleEndian_lt byte (k + 1)
  have hBits : 8 * (k + 1) = 8 * (k + 1) - 1 + 1 := by omega
  rw [← two_pow_top_bit] at hTop
  rw [← two_pow_bits, hBits] at hAll
  rw [Byte.isNegative_eq]
  by_cases hSign : (byte k).toNat < 128
  · rw [Nat.testBit_lt_two_pow (hTop.mpr hSign), decide_eq_false (Nat.not_le.mpr hSign)]
  · have hLarge := Nat.not_lt.mp (mt hTop.mp hSign)
    rw [Nat.testBit_of_two_pow_le_and_two_pow_add_one_gt hLarge hAll,
      decide_eq_true (Nat.not_lt.mp hSign)]

theorem fitsSigned_iff {low k : Nat} (hLow : low < 256 ^ k) (high : Int) :
    FitsSigned (k + 1) (high * 256 ^ k + low) ↔ -128 ≤ high ∧ high ≤ 127 := by
  have hBound : (2 : Int) ^ (8 * (k + 1) - 1) = 128 * 256 ^ k := by exact_mod_cast two_pow_top_bit k
  have hLess : (low : Int) < 256 ^ k := by exact_mod_cast hLow
  have hLowest : (0 : Int) ≤ low := Int.natCast_nonneg low
  -- The low part is less than one unit of the high one, so it never decides.
  rw [FitsSigned, hBound]
  constructor
  · rintro ⟨hLower, hUpper⟩
    constructor
    · by_contra hBelow
      nlinarith
    · by_contra hAbove
      nlinarith
  · rintro ⟨hLower, hUpper⟩
    constructor <;> nlinarith

/-! ## Addition in columns -/

/-- The bytes of `x` and `y` are added column by column: `sum` is what each column leaves, and
`carry` is what goes into it. -/
structure AddsUp (x y sum : Nat → UInt8) (carry : Nat → Bool) (k : Nat) : Prop where
  result : ∀ i < k, (addWithCarry (x i) (y i) (carry i)).result = sum i
  carry_succ : ∀ i < k, (addWithCarry (x i) (y i) (carry i)).carry = carry (i + 1)

namespace AddsUp

variable {x y sum : Nat → UInt8} {carry : Nat → Bool} {k : Nat}

theorem init (h : AddsUp x y sum carry (k + 1)) : AddsUp x y sum carry k where
  result i hi := h.result i (Nat.lt_succ_of_lt hi)
  carry_succ i hi := h.carry_succ i (Nat.lt_succ_of_lt hi)

theorem value (h : AddsUp x y sum carry k) :
    littleEndian sum k + 256 ^ k * (carry k).toNat =
      littleEndian x k + littleEndian y k + (carry 0).toNat := by
  -- The carry into the next column is what the columns below could not hold.
  induction k with
  | zero =>
    simp only [littleEndian, Finset.range_zero, Finset.sum_empty]
    omega
  | succ k ih =>
    have hBelow := ih h.init
    have hColumn := toNat_addWithCarry (x k) (y k) (carry k)
    rw [h.result k (Nat.lt_succ_self k), h.carry_succ k (Nat.lt_succ_self k)] at hColumn
    calc littleEndian sum (k + 1) + 256 ^ (k + 1) * (carry (k + 1)).toNat
      _ = littleEndian sum k + 256 ^ k * ((sum k).toNat + 256 * (carry (k + 1)).toNat) := by
        rw [littleEndian_succ]
        ring
      _ = littleEndian sum k + 256 ^ k * (carry k).toNat +
          256 ^ k * ((x k).toNat + (y k).toNat) := by
        rw [hColumn]
        ring
      _ = littleEndian x (k + 1) + littleEndian y (k + 1) + (carry 0).toNat := by
        rw [hBelow, littleEndian_succ, littleEndian_succ]
        ring

/-- The signed sum that the next column sees, with what the columns below leave. -/
theorem signed_sum (h : AddsUp x y sum carry k) :
    signedValue (k + 1) (littleEndian x (k + 1)) + signedValue (k + 1) (littleEndian y (k + 1)) +
        (carry 0).toNat =
      (Byte.signed (x k).toNat + Byte.signed (y k).toNat + (carry k).toNat) * 256 ^ k +
        littleEndian sum k := by
  have hValue : ((littleEndian sum k : Int) + 256 ^ k * (carry k).toNat) =
      littleEndian x k + littleEndian y k + (carry 0).toNat := by exact_mod_cast h.value
  rw [signedValue_littleEndian, signedValue_littleEndian]
  linear_combination -hValue

/-- The column above overflows exactly if the signed sum of the numbers leaves its range. -/
theorem overflow_iff (h : AddsUp x y sum carry k) :
    (addWithCarry (x k) (y k) (carry k)).overflow = true ↔
      ¬FitsSigned (k + 1) (signedValue (k + 1) (littleEndian x (k + 1)) +
        signedValue (k + 1) (littleEndian y (k + 1)) + (carry 0).toNat) := by
  rw [h.signed_sum, fitsSigned_iff (littleEndian_lt sum k), addWithCarry_overflow,
    decide_eq_true_iff]
  omega

theorem value_sum (h : AddsUp x y sum carry k) (hCarry : carry 0 = false) :
    littleEndian sum k + 256 ^ k * (carry k).toNat = littleEndian x k + littleEndian y k := by
  rw [h.value, hCarry, Bool.toNat_false, Nat.add_zero]

theorem overflow_sum_iff (h : AddsUp x y sum carry k) (hCarry : carry 0 = false) :
    (addWithCarry (x k) (y k) (carry k)).overflow = true ↔
      ¬FitsSigned (k + 1) (signedValue (k + 1) (littleEndian x (k + 1)) +
        signedValue (k + 1) (littleEndian y (k + 1))) := by
  rw [h.overflow_iff, hCarry, Bool.toNat_false, Nat.cast_zero, add_zero]

end AddsUp

/-! ## Subtraction in columns -/

theorem littleEndian_complement (byte : Nat → UInt8) (k : Nat) :
    littleEndian (fun i => ~~~byte i) k + littleEndian byte k + 1 = 256 ^ k := by
  induction k with
  | zero => rfl
  | succ k ih =>
    have hByte : (~~~byte k).toNat + (byte k).toNat = 255 := by
      have hLess := (byte k).toNat_lt
      rw [Byte.toNat_complement]
      omega
    calc littleEndian (fun i => ~~~byte i) (k + 1) + littleEndian byte (k + 1) + 1
      _ = littleEndian (fun i => ~~~byte i) k + littleEndian byte k + 1 +
          ((~~~byte k).toNat + (byte k).toNat) * 256 ^ k := by
        rw [littleEndian_succ, littleEndian_succ]
        ring
      _ = 256 ^ (k + 1) := by
        rw [ih, hByte]
        ring

theorem signedValue_complement (byte : Nat → UInt8) (k : Nat) :
    signedValue (k + 1) (littleEndian (fun i => ~~~byte i) (k + 1)) =
      -signedValue (k + 1) (littleEndian byte (k + 1)) - 1 := by
  have hLow : (littleEndian (fun i => ~~~byte i) k + littleEndian byte k + 1 : Int) = 256 ^ k := by
    exact_mod_cast littleEndian_complement byte k
  have hHigh : Byte.signed (~~~byte k).toNat = -Byte.signed (byte k).toNat - 1 := by
    have hLess := (byte k).toNat_lt
    rw [Byte.toNat_complement, Byte.signed, Byte.signed]
    split <;> split <;> omega
  rw [signedValue_littleEndian, signedValue_littleEndian, hHigh]
  linear_combination hLow

theorem Byte.isNegative_ne_overflow_iff (a b : UInt8) (carry : Bool) :
    let sum := addWithCarry a b carry
    isNegative sum.result ≠ sum.overflow ↔ signed a.toNat + signed b.toNat + carry.toNat < 0 := by
  have ha := a.toNat_lt
  have hb := b.toNat_lt
  have hCarry := carry.toNat_le
  intro sum
  rw [isNegative_eq, addWithCarry_result, addWithCarry_overflow, ne_eq, decide_eq_decide, signed,
    signed]
  split <;> split <;> omega

namespace AddsUp

variable {x y difference : Nat → UInt8} {carry : Nat → Bool} {k : Nat}

theorem borrow (h : AddsUp x (fun i => ~~~y i) difference carry k) (hCarry : carry 0 = true) :
    littleEndian difference k + littleEndian y k + 256 ^ k * (carry k).toNat =
      littleEndian x k + 256 ^ k := by
  have hValue := h.value
  rw [hCarry, Bool.toNat_true] at hValue
  have hComplement := littleEndian_complement y k
  omega

theorem carry_iff (h : AddsUp x (fun i => ~~~y i) difference carry k) (hCarry : carry 0 = true) :
    carry k = true ↔ littleEndian y k ≤ littleEndian x k := by
  have hBorrow := h.borrow hCarry
  have hLess := littleEndian_lt difference k
  cases hLast : carry k with
  | true =>
    rw [hLast, Bool.toNat_true, Nat.mul_one] at hBorrow
    exact iff_of_true rfl (by omega)
  | false =>
    rw [hLast, Bool.toNat_false, Nat.mul_zero] at hBorrow
    exact iff_of_false Bool.false_ne_true (by omega)

theorem value_difference (h : AddsUp x (fun i => ~~~y i) difference carry k)
    (hCarry : carry 0 = true) :
    (littleEndian difference k : Int) = (littleEndian x k - littleEndian y k) % 256 ^ k := by
  have hBorrow : (littleEndian difference k + littleEndian y k + 256 ^ k * (carry k).toNat : Int) =
      littleEndian x k + 256 ^ k := by exact_mod_cast h.borrow hCarry
  have hLess : (littleEndian difference k : Int) < 256 ^ k := by
    exact_mod_cast littleEndian_lt difference k
  have hSplit : (littleEndian x k - littleEndian y k : Int) =
      littleEndian difference k + 256 ^ k * ((carry k).toNat - 1) := by
    linear_combination -hBorrow
  rw [hSplit, Int.add_mul_emod_self_left]
  exact (Int.emod_eq_of_lt (Int.natCast_nonneg _) hLess).symm

theorem signed_difference (h : AddsUp x (fun i => ~~~y i) difference carry k)
    (hCarry : carry 0 = true) :
    signedValue (k + 1) (littleEndian x (k + 1)) - signedValue (k + 1) (littleEndian y (k + 1)) =
      (Byte.signed (x k).toNat + Byte.signed (~~~y k).toNat + (carry k).toNat) * 256 ^ k +
        littleEndian difference k := by
  have hSum := h.signed_sum
  rw [signedValue_complement, hCarry, Bool.toNat_true, Nat.cast_one] at hSum
  linear_combination hSum

theorem overflow_difference_iff (h : AddsUp x (fun i => ~~~y i) difference carry k)
    (hCarry : carry 0 = true) :
    (addWithCarry (x k) (~~~y k) (carry k)).overflow = true ↔
      ¬FitsSigned (k + 1) (signedValue (k + 1) (littleEndian x (k + 1)) -
        signedValue (k + 1) (littleEndian y (k + 1))) := by
  rw [h.signed_difference hCarry, ← h.signed_sum, ← h.overflow_iff]

/-- The sign that the highest column leaves and its overflow differ exactly if the signed number
subtracted is the larger one. -/
theorem less_iff (h : AddsUp x (fun i => ~~~y i) difference carry k) (hCarry : carry 0 = true) :
    let top := addWithCarry (x k) (~~~y k) (carry k)
    Byte.isNegative top.result ≠ top.overflow ↔
      signedValue (k + 1) (littleEndian x (k + 1)) <
        signedValue (k + 1) (littleEndian y (k + 1)) := by
  have hLess : (littleEndian difference k : Int) < 256 ^ k := by
    exact_mod_cast littleEndian_lt difference k
  have hLowest : (0 : Int) ≤ littleEndian difference k := Int.natCast_nonneg _
  have hDifference := h.signed_difference hCarry
  intro top
  refine (Byte.isNegative_ne_overflow_iff _ _ _).trans ?_
  constructor
  · intro hNegative
    nlinarith
  · intro hNegative
    by_contra hPositive
    nlinarith

end AddsUp

end Nmos6502
