import Nmos6502.Proofs.BusTrace
import Nmos6502.Proofs.Image

/-! # Loading, all or nothing

An image that ends within the address space is put in its place by one write for each of its bytes,
and the machine is released at its first byte. An image that does not is refused before anything is
written. Flat memory can also take an image as a block; it takes the same images and holds the same
bytes then.
-/

universe u

namespace Nmos6502
set_option autoImplicit false

namespace Bus

/-- The writes that put an image in its place, from its first byte on. -/
def imageWrites (origin : UInt16) : List UInt8 → List (UInt16 × UInt8)
  | [] => []
  | byte :: rest => (origin, byte) :: imageWrites (origin + 1) rest

theorem writeAll_eq {M : Type u} [Bus M] (image : List UInt8) (origin : UInt16) (memory : M) :
    writeAll origin image memory = writeEach (imageWrites origin image) memory := by
  induction image generalizing origin memory with
  | nil => rfl
  | cons byte rest ih => exact ih (origin + 1) (write memory origin byte)

/-- As long as the image fits, no address of its writes wraps. -/
theorem imageWrites_eq {image : List UInt8} {origin : UInt16}
    (hFits : origin.toNat + image.length ≤ 0x10000) :
    (imageWrites origin image).map (fun entry => (entry.1.toNat, entry.2)) =
      image.mapIdx fun i byte => (origin.toNat + i, byte) := by
  induction image generalizing origin with
  | nil => rfl
  | cons byte rest ih =>
    rw [List.length_cons] at hFits
    rw [imageWrites, List.map_cons, List.mapIdx_cons]
    cases rest with
    | nil => rfl
    | cons next rest =>
      rw [List.length_cons] at hFits
      have hBound : origin.toNat + 1 < 0x10000 := by omega
      have hNext : (origin + 1).toNat = origin.toNat + 1 := Word.toNat_add_ofNat hBound
      have hRest : (origin + 1).toNat + (next :: rest).length ≤ 0x10000 := by
        rw [List.length_cons]
        omega
      rw [ih hRest, hNext]
      simp only [Nat.add_zero, Nat.add_assoc, Nat.add_comm 1]

end Bus

/-- The two ways of loading flat memory leave the same bytes. -/
theorem Ram.load_eq_writeAll {image : List UInt8} {origin : UInt16}
    (hFits : origin.toNat + image.length ≤ 0x10000) (ram : Ram) :
    ram.load origin image = .ok (Bus.writeAll origin image ram) := by
  cases hLoad : ram.load origin image with
  | error fault =>
    obtain ⟨hLarge, -⟩ := (ram.load_eq_error_iff origin image fault).mp hLoad
    omega
  | ok loaded =>
    congr 1
    apply Ram.ext_read
    intro address
    rw [read_of_load hLoad, read_writeAll hFits]

namespace Machine

variable {M : Type u} [Bus M]

theorem load_eq_of_fits {image : List UInt8} {origin : UInt16}
    (hFits : origin.toNat + image.length ≤ 0x10000) (m : Machine M) :
    m.load image origin =
      ⟨{ m with
          pc := origin
          state := .running
          haltCause := none
          memory := Bus.writeEach (Bus.imageWrites origin image) m.memory },
        .ok (), [.loaded image.length origin]⟩ := by
  rw [load, if_pos hFits, Bus.writeAll_eq]
  rfl

theorem load_eq_of_not_fits {image : List UInt8} {origin : UInt16}
    (hLarge : ¬origin.toNat + image.length ≤ 0x10000) (m : Machine M) :
    m.load image origin = ⟨m, .error ⟨origin, image.length⟩, []⟩ := by
  rw [load, if_neg hLarge]

/-- Every write that a load asks the bus for, in order. -/
def loadWrites (m : Machine M) (image : List UInt8) (origin : UInt16) : List (UInt16 × UInt8) :=
  (m.observed.load image origin).machine.memory.journal.toList

theorem loadWrites_of_fits {image : List UInt8} {origin : UInt16}
    (hFits : origin.toNat + image.length ≤ 0x10000) (m : Machine M) :
    m.loadWrites image origin = Bus.imageWrites origin image := by
  rw [loadWrites, load_eq_of_fits hFits, Journalled.journal_writeEach]
  rfl

theorem loadWrites_of_not_fits {image : List UInt8} {origin : UInt16}
    (hLarge : ¬origin.toNat + image.length ≤ 0x10000) (m : Machine M) :
    m.loadWrites image origin = [] := by
  rw [loadWrites, load_eq_of_not_fits hLarge]
  rfl

/-- Loading is all or nothing. It succeeds exactly if the image ends within the address space. Then
the bus has been asked for one write per byte, upwards and without a wrap, and the machine, whatever
had halted it, runs from the first byte on with registers, status and count as before. Otherwise the
bus has been asked for nothing and not even a halt is forgotten. Flat memory takes the same images
as a block, refuses the others with the same fault, and is left with the same bytes. -/
theorem load_all_or_nothing (M : Type u) [Bus M] :
    (∀ (m : Machine M) (image : List UInt8) (origin : UInt16),
      let t := m.load image origin
      let writes := m.loadWrites image origin
      (t.result = .ok () ↔ origin.toNat + image.length ≤ 65536) ∧
      (origin.toNat + image.length ≤ 65536 →
        writes.map (fun entry => (entry.1.toNat, entry.2)) =
          image.mapIdx (fun i byte => (origin.toNat + i, byte)) ∧
        t.machine = { m with
          pc := origin
          state := .running
          haltCause := none
          memory := Bus.writeEach writes m.memory } ∧
        t.events = [.loaded image.length origin]) ∧
      (65536 < origin.toNat + image.length →
        writes = [] ∧ t = ⟨m, .error ⟨origin, image.length⟩, []⟩)) ∧
    ∀ (m : Machine Ram) (image : List UInt8) (origin : UInt16),
      let t := m.load image origin
      m.memory.load origin image = t.result.map (fun _ => t.machine.memory) ∧
      (t.result = .ok () → t.machine.memory.Holds origin image ∧
        ∀ address, address.toNat < origin.toNat ∨ origin.toNat + image.length ≤ address.toNat →
          t.machine.read address = m.read address) := by
  constructor
  · intro m image origin t writes
    by_cases hFits : origin.toNat + image.length ≤ 0x10000
    · have hWrites : writes = Bus.imageWrites origin image := m.loadWrites_of_fits hFits
      have hLoad : t = _ := m.load_eq_of_fits hFits
      rw [hWrites, hLoad]
      exact ⟨iff_of_true rfl hFits, fun _ => ⟨Bus.imageWrites_eq hFits, rfl, rfl⟩,
        fun hLarge => absurd hFits (Nat.not_le_of_lt hLarge)⟩
    · have hLoad : t = _ := m.load_eq_of_not_fits hFits
      refine ⟨?_, fun hSmall => absurd hSmall hFits,
        fun _ => ⟨m.loadWrites_of_not_fits hFits, hLoad⟩⟩
      rw [hLoad]
      refine iff_of_false (fun hOk => ?_) hFits
      cases hOk
  · intro m image origin t
    by_cases hFits : origin.toNat + image.length ≤ 0x10000
    · have hMemory : t.machine.memory = Bus.writeAll origin image m.memory := by
        rw [Bus.writeAll_eq]
        exact congrArg (·.machine.memory) (m.load_eq_of_fits hFits)
      have hResult : t.result = .ok () := congrArg Transition.result (m.load_eq_of_fits hFits)
      constructor
      · rw [Ram.load_eq_writeAll hFits, hResult, hMemory]
        rfl
      · intro _
        rw [hMemory]
        refine ⟨Ram.holds_writeAll hFits m.memory, fun address hOutside => ?_⟩
        change t.machine.memory.read address = _
        rw [hMemory, Ram.read_writeAll hFits, dif_neg (by omega)]
        rfl
    · have hLoad : t = _ := m.load_eq_of_not_fits hFits
      rw [hLoad]
      constructor
      · exact (m.memory.load_eq_error_iff origin image _).mpr ⟨Nat.lt_of_not_le hFits, rfl⟩
      · intro hOk
        cases hOk

/-- A machine that has been halted by a fault: two bytes at the end of memory release it, and a third
one is too much. -/
theorem load_all_or_nothing_at_end :
    let m : Machine Board := (powerOn .standard { lines := 0xFF }).reject ⟨0x02, 0x0200⟩
    m.loadWrites [0xA9, 0x07] 0xFFFE = [(0xFFFE, 0xA9), (0xFFFF, 0x07)] ∧
      (m.load [0xA9, 0x07] 0xFFFE).machine.haltCause = none ∧
      m.load [0xA9, 0x07, 0x00] 0xFFFE = ⟨m, .error ⟨0xFFFE, 3⟩, []⟩ := by
  intro m
  obtain ⟨-, hLoaded, -⟩ := (load_all_or_nothing Board).1 m [0xA9, 0x07] 0xFFFE
  obtain ⟨-, -, hRefused⟩ := (load_all_or_nothing Board).1 m [0xA9, 0x07, 0x00] 0xFFFE
  obtain ⟨hWrites, hMachine, -⟩ := hLoaded (by decide)
  refine ⟨?_, congrArg (·.haltCause) hMachine, (hRefused (by decide)).2⟩
  refine (List.map_inj_right ?_).mp hWrites
  rintro ⟨address, byte⟩ ⟨other, written⟩ hEntry
  rw [Prod.mk.injEq, UInt16.toNat_inj] at hEntry
  exact Prod.ext hEntry.1 hEntry.2

end Machine

end Nmos6502
