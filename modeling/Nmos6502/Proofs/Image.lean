import Nmos6502.Proofs.Stack

/-! # Images in memory

An image lies in memory from an origin on if each of its bytes is read at its own address. Writing
the bytes through the bus in increasing order puts an image there, provided that it ends within the
address space, and writes elsewhere leave it there.
-/

namespace Nmos6502
set_option autoImplicit false

theorem Word.toNat_add_ofNat {origin : UInt16} {offset : Nat}
    (hBound : origin.toNat + offset < 0x10000) :
    (origin + UInt16.ofNat offset).toNat = origin.toNat + offset := by
  rw [UInt16.toNat_add, UInt16.toNat_ofNat']
  omega

theorem Word.add_ofNat_zero (origin : UInt16) : origin + UInt16.ofNat 0 = origin :=
  UInt16.add_zero origin

theorem Word.add_ofNat_succ (origin : UInt16) (offset : Nat) :
    origin + UInt16.ofNat (offset + 1) = origin + 1 + UInt16.ofNat offset := by
  rw [UInt16.ofNat_add, UInt16.add_assoc, UInt16.add_comm 1]
  rfl

namespace Ram

def Holds (ram : Ram) (origin : UInt16) (image : List UInt8) : Prop :=
  ∀ offset (h : offset < image.length), ram.read (origin + UInt16.ofNat offset) = image[offset]

theorem holds_nil (ram : Ram) (origin : UInt16) : ram.Holds origin [] := by
  intro offset h
  cases h

theorem holds_cons (ram : Ram) (origin : UInt16) (byte : UInt8) (rest : List UInt8) :
    ram.Holds origin (byte :: rest) ↔ ram.read origin = byte ∧ ram.Holds (origin + 1) rest := by
  constructor
  · intro hHolds
    refine ⟨Word.add_ofNat_zero origin ▸ hHolds 0 (Nat.zero_lt_succ _), fun offset h => ?_⟩
    rw [← Word.add_ofNat_succ]
    exact hHolds (offset + 1) (Nat.succ_lt_succ h)
  · rintro ⟨hFirst, hRest⟩ offset h
    cases offset with
    | zero => exact (Word.add_ofNat_zero origin).symm ▸ hFirst
    | succ offset =>
      rw [Word.add_ofNat_succ]
      exact hRest offset (Nat.lt_of_succ_lt_succ h)

theorem holds_append (ram : Ram) (origin : UInt16) (first second : List UInt8) :
    ram.Holds origin (first ++ second) ↔
      ram.Holds origin first ∧ ram.Holds (origin + UInt16.ofNat first.length) second := by
  induction first generalizing origin with
  | nil =>
    simp only [List.nil_append, List.length_nil, Word.add_ofNat_zero, holds_nil, true_and]
  | cons byte rest ih =>
    rw [List.cons_append, holds_cons, holds_cons, ih, List.length_cons, Word.add_ofNat_succ,
      and_assoc]

/-- A part of an image lies as far behind the origin as it starts in the image. -/
theorem Holds.slice {ram : Ram} {origin : UInt16} {image : List UInt8}
    (hHolds : ram.Holds origin image) (skipped length : Nat) :
    ram.Holds (origin + UInt16.ofNat skipped) ((image.drop skipped).take length) := by
  intro offset h
  rw [List.length_take, List.length_drop] at h
  rw [UInt16.add_assoc, ← UInt16.ofNat_add, hHolds (skipped + offset) (by omega), List.getElem_take,
    List.getElem_drop]

/-- Below and above the addresses that an image covers, memory stays as it was. -/
theorem read_writeAll {image : List UInt8} {origin : UInt16}
    (hFits : origin.toNat + image.length ≤ 0x10000) (ram : Ram) (address : UInt16) :
    (Bus.writeAll origin image ram).read address =
      if hCovered : origin.toNat ≤ address.toNat ∧ address.toNat < origin.toNat + image.length then
        image[address.toNat - origin.toNat]
      else ram.read address := by
  induction image generalizing origin ram with
  | nil =>
    rw [dif_neg (by simp only [List.length_nil]; omega)]
    rfl
  | cons byte rest ih =>
    -- The next address wraps only behind the last byte that fits.
    have hOrigin := origin.toNat_lt
    have hAddress := address.toNat_lt
    have hNext : (origin + 1).toNat = (origin.toNat + 1) % 0x10000 := UInt16.toNat_add origin 1
    rw [List.length_cons] at hFits
    change (Bus.writeAll (origin + 1) rest (ram.write origin byte)).read address = _
    rw [ih (by omega)]
    simp only [List.length_cons]
    split
    · rename_i hRest
      have hIndex : address.toNat - origin.toNat = address.toNat - (origin + 1).toNat + 1 := by
        omega
      rw [dif_pos (by omega)]
      simp only [hIndex, List.getElem_cons_succ]
    · rename_i hRest
      rw [read_write]
      by_cases hSame : origin = address
      · subst hSame
        rw [if_pos rfl, dif_pos (by omega)]
        simp only [Nat.sub_self, List.getElem_cons_zero]
      · have hDistinct : origin.toNat ≠ address.toNat := fun h => hSame (UInt16.toNat_inj.mp h)
        rw [if_neg hSame, dif_neg (by omega)]

/-- An image that is written where it fits lies there. -/
theorem holds_writeAll {image : List UInt8} {origin : UInt16}
    (hFits : origin.toNat + image.length ≤ 0x10000) (ram : Ram) :
    (Bus.writeAll origin image ram).Holds origin image := by
  intro offset h
  have hAddress : (origin + UInt16.ofNat offset).toNat = origin.toNat + offset :=
    Word.toNat_add_ofNat (by omega)
  rw [read_writeAll hFits, dif_pos (by omega)]
  simp only [hAddress, Nat.add_sub_cancel_left]

theorem Holds.writeEach {ram : Ram} {origin : UInt16} {image : List UInt8}
    (hHolds : ram.Holds origin image) (hFits : origin.toNat + image.length ≤ 0x10000)
    {writes : List (UInt16 × UInt8)}
    (hAway : ∀ write ∈ writes, write.1.toNat < origin.toNat ∨
      origin.toNat + image.length ≤ write.1.toNat) :
    (Bus.writeEach writes ram : Ram).Holds origin image := by
  intro offset h
  have hAddress : (origin + UInt16.ofNat offset).toNat = origin.toNat + offset :=
    Word.toNat_add_ofNat (by omega)
  rw [read_writeEach_of_ne writes _ _ ram]
  · exact hHolds offset h
  · intro write hWrite hEq
    have hWhere := hAway write hWrite
    rw [hEq, hAddress] at hWhere
    omega

end Ram

end Nmos6502
