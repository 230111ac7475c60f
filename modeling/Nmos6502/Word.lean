/-! # Bytes and words

A word is a low byte plus 256 times a high byte. Everything here is stated on `UInt8` and `UInt16`,
where arithmetic wraps, and comes with its meaning in `Nat`.
-/

namespace Nmos6502
set_option autoImplicit false

/-- Whether a byte is negative as a two's-complement number. -/
def Byte.isNegative (byte : UInt8) : Bool := 0x80 ≤ byte

theorem Byte.isNegative_iff (byte : UInt8) : Byte.isNegative byte = true ↔ 128 ≤ byte.toNat := by
  simp [Byte.isNegative, UInt8.le_iff_toNat_le]

namespace Word

def ofBytes (low high : UInt8) : UInt16 := low.toUInt16 + 256 * high.toUInt16

def low (word : UInt16) : UInt8 := word.toUInt8

def high (word : UInt16) : UInt8 := (word >>> 8).toUInt8

theorem toNat_ofBytes (l h : UInt8) : (ofBytes l h).toNat = l.toNat + 256 * h.toNat := by
  have hLow := l.toNat_lt
  have hHigh := h.toNat_lt
  simp only [ofBytes, UInt16.toNat_add, UInt16.toNat_mul, UInt8.toNat_toUInt16, UInt16.toNat_ofNat]
  omega

theorem toNat_low (word : UInt16) : (low word).toNat = word.toNat % 256 := by
  simp [low]

theorem toNat_high (word : UInt16) : (high word).toNat = word.toNat / 256 := by
  have hWord := word.toNat_lt
  have hShift : (word >>> 8).toNat = word.toNat / 256 := by
    simp [Nat.shiftRight_eq_div_pow]
  rw [high, UInt16.toNat_toUInt8, hShift]
  omega

@[simp] theorem low_ofBytes (l h : UInt8) : low (ofBytes l h) = l := by
  apply UInt8.toNat_inj.mp
  have hLow := l.toNat_lt
  rw [toNat_low, toNat_ofBytes]
  omega

@[simp] theorem high_ofBytes (l h : UInt8) : high (ofBytes l h) = h := by
  apply UInt8.toNat_inj.mp
  have hLow := l.toNat_lt
  rw [toNat_high, toNat_ofBytes]
  omega

@[simp] theorem ofBytes_low_high (word : UInt16) : ofBytes (low word) (high word) = word := by
  apply UInt16.toNat_inj.mp
  rw [toNat_ofBytes, toNat_low, toNat_high]
  omega

/-- The address after `address` in the same 256-byte page: the low byte wraps and the high byte
stays. -/
def nextInPage (address : UInt16) : UInt16 := ofBytes (low address + 1) (high address)

/-- Inside page zero the page wraps from $FF to $00. -/
theorem nextInPage_toUInt16 (offset : UInt8) :
    nextInPage offset.toUInt16 = (offset + 1).toUInt16 := by
  apply UInt16.toNat_inj.mp
  have hOffset := offset.toNat_lt
  simp only [nextInPage, toNat_ofBytes, toNat_high, UInt8.toNat_add, toNat_low,
    UInt8.toNat_toUInt16, UInt8.toNat_ofNat]
  omega

/-- The address in page one that the stack pointer `sp` selects. -/
def stackSlot (sp : UInt8) : UInt16 := ofBytes sp 1

theorem toNat_stackSlot (sp : UInt8) : (stackSlot sp).toNat = 256 + sp.toNat := by
  rw [stackSlot, toNat_ofBytes, Nat.add_comm]
  rfl

end Word

end Nmos6502
