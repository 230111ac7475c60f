import Nmos6502.Bus.Ram
import Nmos6502.Proofs.Writes

/-! # The stack as a ring

The stack pointer names one of 256 slots and wraps. How far a slot lies below the stack pointer is
their difference as bytes, so a slot that lies `n` or more below keeps its byte through `n` pushes,
and of the bytes pushed each of the last 256 stays in its own slot.
-/

universe u

namespace Nmos6502
set_option autoImplicit false

/-- Going down by `k` brings a slot at least that far below closer by `k`. -/
theorem Byte.toNat_sub_sub {sp slot : UInt8} {k : Nat} (hBelow : k ≤ (sp - slot).toNat) :
    (sp - UInt8.ofNat k - slot).toNat = (sp - slot).toNat - k := by
  have hSp := sp.toNat_lt
  have hSlot := slot.toNat_lt
  simp only [UInt8.toNat_sub, UInt8.toNat_ofNat'] at hBelow ⊢
  omega

/-- A slot counted up from where `n` pushes have left the stack pointer, out of those `n`. -/
theorem Byte.toNat_sub_sub_sub (sp : UInt8) {i n : Nat} (hi : i < n) (hn : n ≤ 256) :
    (sp - UInt8.ofNat n - (sp - UInt8.ofNat i)).toNat = 256 - (n - i) := by
  have hSp := sp.toNat_lt
  simp only [UInt8.toNat_sub, UInt8.toNat_ofNat']
  omega

/-- A slot that is none of the first `d` slots from the stack pointer on lies `d` or more below. -/
theorem Byte.le_toNat_sub {sp slot : UInt8} {d : Nat} (hOther : ∀ i < d, slot ≠ sp - UInt8.ofNat i) :
    d ≤ (sp - slot).toNat := by
  apply Nat.le_of_not_lt
  intro hNear
  apply hOther (sp - slot).toNat hNear
  rw [UInt8.ofNat_toNat, eq_comm, UInt8.sub_eq_iff_eq_add, UInt8.add_comm, UInt8.sub_add_cancel]

theorem Byte.sub_ofNat_succ (sp : UInt8) (k : Nat) :
    sp - UInt8.ofNat (k + 1) = sp - 1 - UInt8.ofNat k := by
  rw [UInt8.ofNat_add, UInt8.add_comm, ← sub_sub]
  rfl

theorem Byte.add_ofNat_succ (sp : UInt8) (k : Nat) :
    sp + UInt8.ofNat (k + 1) = sp + 1 + UInt8.ofNat k := by
  rw [UInt8.ofNat_add, UInt8.add_comm (UInt8.ofNat k), ← UInt8.add_assoc]
  rfl

theorem Byte.sub_add_of_le (sp : UInt8) {k n : Nat} (hk : k ≤ n) :
    sp - UInt8.ofNat n + UInt8.ofNat k = sp - UInt8.ofNat (n - k) := by
  have hSplit : UInt8.ofNat n = UInt8.ofNat (n - k) + UInt8.ofNat k := by
    rw [← UInt8.ofNat_add, Nat.sub_add_cancel hk]
  rw [hSplit, ← sub_sub, UInt8.sub_add_cancel]

theorem Word.stackSlot_inj {sp slot : UInt8} (h : stackSlot sp = stackSlot slot) : sp = slot := by
  have hLow := congrArg low h
  rwa [stackSlot, stackSlot, low_ofBytes, low_ofBytes] at hLow

theorem Word.eq_stackSlot {address : UInt16} (hPage : high address = 1) :
    address = stackSlot (low address) := by
  rw [stackSlot, ← hPage, ofBytes_low_high]

theorem Word.eq_stackSlot_of_pageOne {address : UInt16} (hLow : 0x0100 ≤ address)
    (hHigh : address ≤ 0x01FF) : address = stackSlot (low address) := by
  apply eq_stackSlot
  apply UInt8.toNat_inj.mp
  simp only [UInt16.le_iff_toNat_le, UInt16.reduceToNat] at hLow hHigh
  rw [toNat_high]
  change address.toNat / 256 = 1
  omega

theorem Word.high_stackSlot (sp : UInt8) : high (stackSlot sp) = 1 := high_ofBytes sp 1

theorem Word.mem_pageOne_of_mem_pushWrites {sp : UInt8} {bytes : List UInt8}
    {entry : UInt16 × UInt8} (hMem : entry ∈ pushWrites sp bytes) :
    0x0100 ≤ entry.1 ∧ entry.1 ≤ 0x01FF := by
  induction bytes generalizing sp with
  | nil => cases hMem
  | cons byte rest ih =>
    cases hMem with
    | head =>
      have hSp := sp.toNat_lt
      simp only [UInt16.le_iff_toNat_le, toNat_stackSlot, UInt16.reduceToNat]
      omega
    | tail _ hRest => exact ih hRest

/-- The address in page one that lies `offset` places from the stack pointer, around the page. -/
def Machine.slot {M : Type u} (m : Machine M) (offset : Int) : UInt16 :=
  UInt16.ofNat (0x0100 + ((m.sp.toNat + offset) % 256).toNat)

theorem Machine.slot_add {M : Type u} (m : Machine M) (k : Nat) :
    m.slot k = Word.stackSlot (m.sp + UInt8.ofNat k) := by
  apply UInt16.toNat_inj.mp
  rw [slot, Word.toNat_stackSlot, UInt8.toNat_add, UInt8.toNat_ofNat', UInt16.toNat_ofNat']
  omega

theorem Machine.slot_sub {M : Type u} (m : Machine M) (k : Nat) :
    m.slot (-k) = Word.stackSlot (m.sp - UInt8.ofNat k) := by
  apply UInt16.toNat_inj.mp
  rw [slot, Word.toNat_stackSlot, UInt8.toNat_sub, UInt8.toNat_ofNat', UInt16.toNat_ofNat']
  omega

theorem Machine.slot_zero {M : Type u} (m : Machine M) : m.slot 0 = Word.stackSlot m.sp := by
  rw [← UInt8.add_zero m.sp]
  exact m.slot_add 0

theorem Machine.slot_minus_one {M : Type u} (m : Machine M) :
    m.slot (-1) = Word.stackSlot (m.sp - 1) := m.slot_sub 1

theorem Machine.slot_minus_two {M : Type u} (m : Machine M) :
    m.slot (-2) = Word.stackSlot (m.sp - 1 - 1) := by
  rw [Byte.sub_sub]
  exact m.slot_sub 2

namespace Ram

theorem read_writeEach_of_ne (writes : List (UInt16 × UInt8)) (address : UInt16)
    (hElsewhere : ∀ write ∈ writes, write.1 ≠ address) (ram : Ram) :
    (Bus.writeEach writes ram).read address = ram.read address := by
  apply Decidable.byContradiction
  intro (hChanged : Bus.read (Bus.writeEach writes ram) address ≠ Bus.read ram address)
  obtain ⟨before, write, after, rfl, hWrite⟩ := Bus.touches_of_read_ne hChanged
  have hNe := hElsewhere write List.mem_append_cons_self
  exact hWrite ((read_write _ write.1 address write.2).trans (if_neg hNe))

theorem read_pushWrites_of_not_pageOne {address : UInt16}
    (hOutside : address < 0x0100 ∨ 0x01FF < address) (sp : UInt8) (bytes : List UInt8) (ram : Ram) :
    (Bus.writeEach (Word.pushWrites sp bytes) ram).read address = ram.read address := by
  apply read_writeEach_of_ne
  intro write hWrite hEq
  obtain ⟨hLow, hHigh⟩ := Word.mem_pageOne_of_mem_pushWrites hWrite
  subst hEq
  rw [UInt16.lt_iff_toNat_lt, UInt16.lt_iff_toNat_lt] at hOutside
  rw [UInt16.le_iff_toNat_le] at hLow hHigh
  omega

theorem read_pushWrites_of_le {bytes : List UInt8} {sp slot : UInt8}
    (hBelow : bytes.length ≤ (sp - slot).toNat) (ram : Ram) :
    (Bus.writeEach (Word.pushWrites sp bytes) ram).read (Word.stackSlot slot) =
      ram.read (Word.stackSlot slot) := by
  induction bytes generalizing sp ram with
  | nil => rfl
  | cons byte rest ih =>
    rw [List.length_cons] at hBelow
    have hNe : Word.stackSlot sp ≠ Word.stackSlot slot := by
      intro hEq
      rw [Word.stackSlot_inj hEq, UInt8.sub_self] at hBelow
      exact absurd hBelow (Nat.not_succ_le_zero _)
    have hRest : rest.length ≤ (sp - 1 - slot).toNat := by
      have hNext := Byte.toNat_sub_sub (k := 1) (Nat.le_trans (Nat.le_add_left 1 _) hBelow)
      exact hNext ▸ Nat.le_sub_of_add_le hBelow
    calc (Bus.writeEach (Word.pushWrites (sp - 1) rest)
          (ram.write (Word.stackSlot sp) byte)).read (Word.stackSlot slot)
      _ = (ram.write (Word.stackSlot sp) byte).read (Word.stackSlot slot) := ih hRest _
      _ = ram.read (Word.stackSlot slot) := by rw [read_write, if_neg hNe]

/-- A byte is found in its slot if fewer than 256 bytes have been pushed behind it. -/
theorem read_pushWrites_getElem {bytes : List UInt8} {i : Nat} (hLast : bytes.length ≤ i + 256)
    (hi : i < bytes.length) (sp : UInt8) (ram : Ram) :
    (Bus.writeEach (Word.pushWrites sp bytes) ram).read (Word.stackSlot (sp - UInt8.ofNat i)) =
      bytes[i] := by
  induction bytes generalizing sp ram i with
  | nil => cases hi
  | cons byte rest ih =>
    rw [List.length_cons] at hLast
    cases i with
    | zero =>
      -- The first slot is as far from the next stack pointer as a slot can be.
      have hFar : rest.length ≤ (sp - 1 - sp).toNat := by
        have hDistance := Byte.toNat_sub_sub_sub sp Nat.zero_lt_one (by decide)
        rw [show UInt8.ofNat 0 = 0 from rfl, UInt8.sub_zero] at hDistance
        have hBound : rest.length ≤ 255 := by omega
        exact hDistance ▸ hBound
      calc (Bus.writeEach (Word.pushWrites (sp - 1) rest)
            (ram.write (Word.stackSlot sp) byte)).read (Word.stackSlot (sp - 0))
        _ = (ram.write (Word.stackSlot sp) byte).read (Word.stackSlot sp) := by
          rw [UInt8.sub_zero, read_pushWrites_of_le hFar]
        _ = byte := by rw [read_write, if_pos rfl]
    | succ i =>
      rw [Byte.sub_ofNat_succ]
      exact ih (by omega) (Nat.lt_of_succ_lt_succ hi) (sp - 1) _

end Ram

end Nmos6502
