import Nmos6502.Proofs.Stack

/-! # Last in, first out

Any number of bytes can be pushed, and any number pulled. A push lands 256 pushes later in the same
slot again, so of the bytes pushed the last 256 are still there, each in its slot; pulls get them
back from the last one on, and then start over.
-/

universe u

namespace Nmos6502.Machine
set_option autoImplicit false

section Sequences

variable {M : Type u} [Bus M]

def pushAll (m : Machine M) (bytes : List UInt8) : Machine M := bytes.foldl push m

/-- What `count` pulls get, the first pull first, and the machine behind them. -/
def pullMany : Nat → Machine M → List UInt8 × Machine M
  | 0, m => ([], m)
  | count + 1, m =>
    let (byte, m) := m.pull
    let (rest, m) := pullMany count m
    (byte :: rest, m)

theorem pushAll_eq (m : Machine M) (bytes : List UInt8) :
    m.pushAll bytes =
      { m with
        sp := m.sp - UInt8.ofNat bytes.length
        memory := Bus.writeEach (Word.pushWrites m.sp bytes) m.memory } := by
  induction bytes generalizing m with
  | nil =>
    change m = { m with sp := m.sp - 0 }
    rw [UInt8.sub_zero]
  | cons byte rest ih =>
    change (m.push byte).pushAll rest = _
    rw [ih, List.length_cons, Byte.sub_ofNat_succ]
    rfl

theorem pullMany_eq (count : Nat) (m : Machine M) :
    m.pullMany count =
      ((List.range count).map fun k => m.read (m.slot (k + 1 : Nat)),
        { m with sp := m.sp + UInt8.ofNat count }) := by
  induction count generalizing m with
  | zero =>
    change ([], m) = ([], { m with sp := m.sp + 0 })
    rw [UInt8.add_zero]
  | succ count ih =>
    have hFirst : m.read (Word.stackSlot (m.sp + 1)) = m.read (m.slot (1 : Nat)) := by
      rw [slot_add]
      rfl
    have hRest (k : Nat) : m.pull.2.read (m.pull.2.slot (k + 1 : Nat)) =
        m.read (m.slot (k + 1 + 1 : Nat)) := by
      rw [slot_add, slot_add, Byte.add_ofNat_succ m.sp]
      rfl
    rw [List.range_succ_eq_map, List.map_cons, List.map_map, Byte.add_ofNat_succ, Nat.zero_add,
      ← hFirst]
    change (m.pull.1 :: (m.pull.2.pullMany count).1, (m.pull.2.pullMany count).2) = _
    rw [ih]
    simp only [hRest]
    rfl

/-- A word is two bytes, and comes back in the opposite order. -/
theorem pullWord_eq_pullMany {m : Machine M} {low high : UInt8}
    (hPulled : (m.pullMany 2).1 = [low, high]) :
    m.pullWord = (Word.ofBytes low high, (m.pullMany 2).2) := by
  obtain ⟨hLow, hRest⟩ := List.cons.inj hPulled
  obtain ⟨hHigh, -⟩ := List.cons.inj hRest
  rw [← hLow, ← hHigh]
  rfl

end Sequences

section Slots

variable {M : Type u}

theorem slot_eq_of_emod_eq (m : Machine M) {offset other : Int} (h : offset % 256 = other % 256) :
    m.slot offset = m.slot other := by
  rw [slot, slot, Int.add_emod, h, ← Int.add_emod]

/-- Counting from where pushes have left the stack pointer, a slot lies nearer by their number. -/
theorem slot_of_sp {m after : Machine M} {n : Nat} (hSp : after.sp = m.sp - UInt8.ofNat n)
    (offset : Int) : after.slot offset = m.slot (offset - n) := by
  have hNumber : after.sp.toNat = (m.sp.toNat + (256 - n % 256)) % 256 := by
    have hBound := m.sp.toNat_lt
    rw [hSp, UInt8.toNat_sub, UInt8.toNat_ofNat']
    omega
  rw [slot, slot, hNumber]
  congr 3
  omega

end Slots

/-! ## The ring in flat memory -/

theorem read_pushAll_of_not_pageOne (m : Machine Ram) (bytes : List UInt8) {address : UInt16}
    (hOutside : address < 0x0100 ∨ 0x01FF < address) :
    (m.pushAll bytes).read address = m.read address := by
  rw [pushAll_eq]
  exact Ram.read_pushWrites_of_not_pageOne hOutside m.sp bytes m.memory

/-- The last byte that is pushed into a slot stays there. -/
theorem read_pushAll_of_last (m : Machine Ram) {bytes : List UInt8} {i : Nat} (hi : i < bytes.length)
    (hLast : bytes.length ≤ i + 256) : (m.pushAll bytes).read (m.slot (-i)) = bytes[i] := by
  rw [pushAll_eq, slot_sub]
  exact Ram.read_pushWrites_getElem hLast hi m.sp m.memory

theorem le_of_last_in_slot (m : Machine Ram) {length i : Nat}
    (hLast : ∀ later : Nat, i < later → later < length → m.slot (-later) ≠ m.slot (-i)) :
    length ≤ i + 256 := by
  apply Nat.le_of_not_lt
  intro hMore
  apply hLast (i + 256) (by omega) hMore
  apply slot_eq_of_emod_eq
  omega

theorem read_pushAll_of_unreached (m : Machine Ram) (bytes : List UInt8) {address : UInt16}
    (hLow : 0x0100 ≤ address) (hHigh : address ≤ 0x01FF)
    (hUnreached : ∀ i : Nat, i < bytes.length → m.slot (-i) ≠ address) :
    bytes.length < 256 ∧ (m.pushAll bytes).read address = m.read address := by
  have hSlot := Word.eq_stackSlot_of_pageOne hLow hHigh
  have hBelow : bytes.length ≤ (m.sp - Word.low address).toNat := by
    apply Byte.le_toNat_sub
    intro i hi hHit
    apply hUnreached i hi
    rw [slot_sub, ← hHit, ← hSlot]
  refine ⟨Nat.lt_of_le_of_lt hBelow (UInt8.toNat_lt _), ?_⟩
  rw [pushAll_eq, hSlot]
  exact Ram.read_pushWrites_of_le hBelow m.memory

theorem pullMany_pushAll (m : Machine Ram) (bytes : List UInt8) {count : Nat}
    (hCount : count ≤ min bytes.length 256) :
    ((m.pushAll bytes).pullMany count).1 = bytes.reverse.take count := by
  have hSp : (m.pushAll bytes).sp = m.sp - UInt8.ofNat bytes.length := by rw [pushAll_eq]
  rw [pullMany_eq]
  apply List.ext_getElem
  · simp only [List.length_map, List.length_range, List.length_take, List.length_reverse]
    omega
  · intro k hk hTaken
    simp only [List.length_map, List.length_range] at hk
    have hOffset : ((k + 1 : Nat) : Int) - bytes.length = -((bytes.length - 1 - k : Nat) : Int) := by
      omega
    rw [List.getElem_map, List.getElem_range, List.getElem_take, List.getElem_reverse,
      slot_of_sp hSp, hOffset]
    exact m.read_pushAll_of_last (by omega) (by omega)

theorem pullWord_pushWord (m : Machine Ram) (word : UInt16) :
    (m.pushWord word).pullWord = (word, { m with memory := (m.pushWord word).memory }) := by
  have hPulled : ((m.pushWord word).pullMany 2).1 = [Word.low word, Word.high word] :=
    m.pullMany_pushAll [Word.high word, Word.low word] (Nat.le_refl 2)
  have hSp : (m.pushWord word).sp + UInt8.ofNat 2 = m.sp := by
    change m.sp - 1 - 1 + 2 = m.sp
    rw [Byte.sub_sub]
    exact UInt8.sub_add_cancel m.sp 2
  rw [pullWord_eq_pullMany hPulled, Word.ofBytes_low_high, pullMany_eq, hSp]
  rfl

/-- A further round of 256 pulls gets the same bytes again. -/
theorem getElem?_pullMany {M : Type u} [Bus M] (m : Machine M) {count k : Nat} (hk : k < count) :
    (m.pullMany count).1[k]? = (m.pullMany 256).1[k % 256]? := by
  have hRound : k % 256 < 256 := Nat.mod_lt k (by decide)
  have hSlot : m.slot (k + 1 : Nat) = m.slot (k % 256 + 1 : Nat) := by
    apply slot_eq_of_emod_eq
    omega
  rw [pullMany_eq, pullMany_eq]
  simp only [List.getElem?_map, List.getElem?_range hk, List.getElem?_range hRound, Option.map_some,
    hSlot]

/-- Page one is a ring, and the stack in it gives back last what came first. Pushing moves the stack
pointer down by the number of bytes, around the page, and touches nothing but page one, where each
slot holds the last byte pushed into it, or its old byte if none was. Pulling gets up to 256 of the
bytes, the last one first, moves the stack pointer up again and changes nothing else; after 256
pulls it starts over. A word goes as its high byte and then its low byte and comes back whole. -/
theorem last_in_first_out (m : Machine Ram) (bytes : List UInt8) :
    let after := m.pushAll bytes
    (after.sp.toNat : Int) = (m.sp.toNat - bytes.length) % 256 ∧
    after = { m with sp := after.sp, memory := after.memory } ∧
    (∀ address, address < 0x0100 ∨ 0x01FF < address → after.read address = m.read address) ∧
    (∀ (i : Nat) (h : i < bytes.length),
      (∀ later : Nat, i < later → later < bytes.length → m.slot (-later) ≠ m.slot (-i)) →
        after.read (m.slot (-i)) = bytes[i]) ∧
    (∀ address, 0x0100 ≤ address → address ≤ 0x01FF →
      (∀ i : Nat, i < bytes.length → m.slot (-i) ≠ address) →
        bytes.length < 256 ∧ after.read address = m.read address) ∧
    (∀ count ≤ min bytes.length 256, (after.pullMany count).1 = bytes.reverse.take count) ∧
    (∀ count : Nat,
      let pulled := (after.pullMany count).1
      let behind := (after.pullMany count).2
      pulled.length = count ∧
      behind = { after with sp := behind.sp } ∧
      behind.sp.toNat = (after.sp.toNat + count) % 256 ∧
      ∀ k < count, pulled[k]? = (after.pullMany 256).1[k % 256]?) ∧
    ∀ word : UInt16,
      m.pushWord word = m.pushAll [Word.high word, Word.low word] ∧
      (m.pushWord word).pullWord = (word, { m with memory := (m.pushWord word).memory }) := by
  intro after
  have hAfter : after = _ := m.pushAll_eq bytes
  refine ⟨?_, ?_, fun address => m.read_pushAll_of_not_pageOne bytes,
    fun i hi hLast => m.read_pushAll_of_last hi (m.le_of_last_in_slot hLast),
    fun address => m.read_pushAll_of_unreached bytes, fun count => m.pullMany_pushAll bytes,
    fun count => ?_, fun word => ⟨rfl, m.pullWord_pushWord word⟩⟩
  · have hSp : after.sp = m.sp - UInt8.ofNat bytes.length := congrArg (·.sp) hAfter
    have hBound := m.sp.toNat_lt
    rw [hSp, UInt8.toNat_sub, UInt8.toNat_ofNat']
    omega
  · rw [hAfter]
  · have hPulled := after.pullMany_eq count
    refine ⟨?_, ?_, ?_, fun k hk => after.getElem?_pullMany hk⟩
    · rw [hPulled, List.length_map, List.length_range]
    · rw [hPulled]
    · rw [hPulled, UInt8.toNat_add, UInt8.toNat_ofNat']
      omega

/-- A stack pointer near the end of the page: 257 bytes go once around it and over the first of them,
and a word comes back from both ends of the page. -/
theorem last_in_first_out_around_page :
    let m : Machine Ram := { powerOn .standard Ram.zeroed with sp := 0x00 }
    let around := m.pushAll (List.replicate 256 0xAA ++ [0x55])
    around.sp = 0xFF ∧ around.read 0x0100 = 0x55 ∧ (around.pullMany 2).1 = [0x55, 0xAA] ∧
      (around.pullMany 258).1[256]? = some 0x55 ∧
      (m.pushAll [0x11, 0x22]).read 0x01FE = m.read 0x01FE ∧
      m.pushWord 0x1234 = m.pushAll [0x12, 0x34] ∧ (m.pushWord 0x1234).pullWord.1 = 0x1234 := by
  intro m around
  obtain ⟨hSp, -, -, hLast, -, hPulled, hRounds, hWord⟩ :=
    last_in_first_out m (List.replicate 256 0xAA ++ [0x55])
  obtain ⟨-, -, -, -, hUnreached, -⟩ := last_in_first_out m [0x11, 0x22]
  have hLength : (List.replicate 256 (0xAA : UInt8) ++ [0x55]).length = 257 := by decide +kernel
  have hTwo : (around.pullMany 2).1 = [0x55, 0xAA] :=
    (hPulled 2 (by rw [hLength]; decide)).trans (by decide +kernel)
  refine ⟨?_, ?_, hTwo, ?_, (hUnreached 0x01FE (by decide) (by decide) ?_).2, (hWord 0x1234).1,
    congrArg Prod.fst (hWord 0x1234).2⟩
  · have hStart : m.sp.toNat = 0 := rfl
    apply UInt8.toNat_inj.mp
    rw [hLength, hStart] at hSp
    exact Int.ofNat.inj hSp
  · have hSlot : m.slot (-(256 : Nat)) = 0x0100 := by decide
    rw [← hSlot]
    exact hLast 256 (by rw [hLength]; decide) fun later hLater hBound => by omega
  · obtain ⟨-, -, -, hAgain⟩ := hRounds 258
    rw [hAgain 256 (by decide), hPulled 256 (by rw [hLength]; decide)]
    decide +kernel
  · intro i hi hEq
    obtain rfl | rfl : i = 0 ∨ i = 1 := by
      rw [List.length_cons, List.length_singleton] at hi
      omega
    all_goals exact absurd hEq (by decide)

end Nmos6502.Machine
