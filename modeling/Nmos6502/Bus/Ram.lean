import Nmos6502.Bus
import Nmos6502.Fault
import Nmos6502.Word

/-! # Flat memory

All 65536 addresses hold one byte of RAM. A write is visible to the next read at its address and
nowhere else; an image is copied as a block or not at all.
-/

namespace Nmos6502
set_option autoImplicit false

structure Ram where
  bytes : Vector UInt8 0x10000
  deriving DecidableEq

namespace Ram

def zeroed : Ram := ⟨Vector.replicate 0x10000 0⟩

def read (ram : Ram) (address : UInt16) : UInt8 :=
  have hBound := address.toNat_lt
  ram.bytes[address.toNat]

def write (ram : Ram) (address : UInt16) (byte : UInt8) : Ram :=
  ⟨ram.bytes.set address.toNat byte address.toNat_lt⟩

instance : Bus Ram := ⟨read, write⟩

@[simp] theorem read_zeroed (address : UInt16) : zeroed.read address = 0 := by
  simp [read, zeroed]

theorem read_write (ram : Ram) (address other : UInt16) (byte : UInt8) :
    (ram.write address byte).read other = if address = other then byte else ram.read other := by
  simp only [read, write, Vector.getElem_set, UInt16.toNat_inj]

theorem ext_read {ram other : Ram} (h : ∀ address, ram.read address = other.read address) :
    ram = other := by
  obtain ⟨bytes⟩ := ram
  obtain ⟨others⟩ := other
  congr 1
  apply Vector.ext
  intro i hi
  have hRead := h (UInt16.ofNat i)
  simpa [read, Nat.mod_eq_of_lt hi] using hRead

/-- Copies `image` into memory from `origin` on, unless it would run past the last address. -/
def load (ram : Ram) (origin : UInt16) (image : List UInt8) : Except ImageTooLarge Ram :=
  if hFits : origin.toNat + image.length ≤ 0x10000 then
    let before := ram.bytes.take origin.toNat
    let block : Vector UInt8 image.length := ⟨image.toArray, rfl⟩
    let after := ram.bytes.drop (origin.toNat + image.length)
    .ok ⟨(before ++ block ++ after).cast (by omega)⟩
  else
    .error ⟨origin, image.length⟩

theorem load_eq_error_iff (ram : Ram) (origin : UInt16) (image : List UInt8)
    (fault : ImageTooLarge) : ram.load origin image = .error fault ↔
      0x10000 < origin.toNat + image.length ∧ fault = ⟨origin, image.length⟩ := by
  unfold load
  split
  · rename_i hFits
    simp [Nat.not_lt.mpr hFits]
  · rename_i hLarge
    simp [Nat.lt_of_not_le hLarge, eq_comm]

/-- Below and above the block that an image covers, memory stays as it was. -/
theorem read_of_load {ram loaded : Ram} {origin : UInt16} {image : List UInt8}
    (h : ram.load origin image = .ok loaded) (address : UInt16) :
    loaded.read address =
      if hCovered : origin.toNat ≤ address.toNat ∧ address.toNat < origin.toNat + image.length then
        image[address.toNat - origin.toNat]
      else ram.read address := by
  have hAddress := address.toNat_lt
  unfold load at h
  split at h
  · cases h
    have hMin : min origin.toNat 0x10000 = origin.toNat := by omega
    simp only [read, Vector.getElem_cast, Vector.getElem_append, Vector.getElem_take,
      Vector.getElem_drop, hMin]
    by_cases hLow : address.toNat < origin.toNat
    · have hBelow : address.toNat < origin.toNat + image.length := by omega
      simp [hLow, hBelow, Nat.not_le.mpr hLow]
    · by_cases hHigh : address.toNat < origin.toNat + image.length
      · simp [hLow, hHigh, Nat.not_lt.mp hLow]
      · simp [hHigh, Nat.add_sub_of_le (Nat.not_lt.mp hHigh)]
  · cases h

def page (ram : Ram) (page : UInt8) : Array UInt8 :=
  ram.bytes.toArray.extract (256 * page.toNat) (256 * page.toNat + 256)

theorem size_page (ram : Ram) (page : UInt8) : (ram.page page).size = 256 := by
  have hPage := page.toNat_lt
  simp only [Ram.page, Array.size_extract, Vector.size_toArray]
  omega

theorem getElem?_page (ram : Ram) (page offset : UInt8) :
    (ram.page page)[offset.toNat]? = some (ram.read (Word.ofBytes offset page)) := by
  have hPage := page.toNat_lt
  have hOffset := offset.toNat_lt
  rw [Array.getElem?_eq_some_iff]
  refine ⟨by rw [size_page]; exact hOffset, ?_⟩
  simp [Ram.page, read, Word.toNat_ofBytes, Nat.add_comm]

theorem page_eq_ofFn (ram : Ram) (page : UInt8) :
    ram.page page =
      Array.ofFn fun offset : Fin 256 => ram.read (Word.ofBytes (UInt8.ofNat offset) page) := by
  apply Array.ext
  · rw [size_page, Array.size_ofFn]
  · intro k hPage hOfFn
    have hk : k < 256 := by rwa [Array.size_ofFn] at hOfFn
    have hByte := ram.getElem?_page page (UInt8.ofNat k)
    rw [UInt8.toNat_ofNat_of_lt' hk, Array.getElem?_eq_getElem hPage] at hByte
    rw [Array.getElem_ofFn]
    exact Option.some.inj hByte

def text (ram : Ram) : String :=
  "FlatMemory \x7b size: " ++ toString ram.bytes.size ++ " \x7d"

end Ram

end Nmos6502
