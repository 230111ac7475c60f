import Nmos6502.Proofs.Load
import Nmos6502.Proofs.Retired

/-! # A machine with nothing to fall back on

Execution is total: an operand that holds no byte reads as zero, writing to it does nothing, what has
no address aims at the program counter, and sums, indices and counters wrap or are cut down. The
checked machine here has no such way out. It gives up where an operand is not of the kind that its
operation needs, where a sum does not fit its width, and where an index or a block lies outside of its
table. Nor does it hold on to an operand: whenever an operation gets at it, the mode is resolved anew.
It does what the plain machine does, except that it gives up at the end of the counter.
-/

universe u

namespace Nmos6502
set_option autoImplicit false
open Byte (isNegative)

/-! ## Checked arithmetic -/

namespace Word

def checkedAdd (a b : UInt16) : Option UInt16 :=
  if a.toNat + b.toNat < 0x10000 then some (a + b) else none

def checkedOfNat (n : Nat) : Option UInt16 :=
  if n < 0x10000 then some (UInt16.ofNat n) else none

theorem checkedAdd_of_lt {a b : UInt16} (h : a.toNat + b.toNat < 0x10000) :
    checkedAdd a b = some (a + b) ∧ (a + b).toNat = a.toNat + b.toNat := by
  refine ⟨if_pos h, ?_⟩
  rw [UInt16.toNat_add]
  omega

theorem checkedOfNat_of_lt {n : Nat} (h : n < 0x10000) :
    checkedOfNat n = some (UInt16.ofNat n) ∧ (UInt16.ofNat n).toNat = n :=
  ⟨if_pos h, UInt16.toNat_ofNat_of_lt' h⟩

end Word

/-- Adds two bytes and a carry in a word. -/
def checkedSum (a b : UInt8) (carry : Bool) : Option UInt16 := do
  let sum ← Word.checkedAdd a.toUInt16 b.toUInt16
  Word.checkedAdd sum (if carry then 1 else 0)

/-- The sum may need no more than nine bits of the word. -/
def checkedAddWithCarry (a b : UInt8) (carry : Bool) : Option Sum := do
  let sum ← checkedSum a b carry
  if sum < 512 then
    let result := sum.toUInt8
    some { result
           carry := 0xFF < sum
           overflow := isNegative a == isNegative b && isNegative a != isNegative result }
  else none

theorem exists_checkedSum (a b : UInt8) (carry : Bool) :
    ∃ sum, checkedSum a b carry = some sum ∧ sum < 512 ∧
      sum.toNat = a.toNat + b.toNat + carry.toNat := by
  have ha := a.toNat_lt
  have hb := b.toNat_lt
  have hCarry : (if carry then 1 else 0 : UInt16).toNat = carry.toNat := by cases carry <;> rfl
  have hCarryLe := carry.toNat_le
  obtain ⟨hBytes, hBytesNat⟩ := Word.checkedAdd_of_lt (a := a.toUInt16) (b := b.toUInt16) (by
    rw [UInt8.toNat_toUInt16, UInt8.toNat_toUInt16]
    omega)
  rw [UInt8.toNat_toUInt16, UInt8.toNat_toUInt16] at hBytesNat
  obtain ⟨hSum, hSumNat⟩ := Word.checkedAdd_of_lt (a := a.toUInt16 + b.toUInt16)
    (b := if carry then 1 else 0) (by
      rw [hBytesNat, hCarry]
      omega)
  rw [hBytesNat, hCarry] at hSumNat
  refine ⟨_, ?_, ?_, hSumNat⟩
  · rw [checkedSum, hBytes, Option.bind_eq_bind, Option.bind_some, hSum]
  · rw [UInt16.lt_iff_toNat_lt, hSumNat]
    change _ < 512
    omega

theorem checkedAddWithCarry_eq (a b : UInt8) (carry : Bool) :
    checkedAddWithCarry a b carry = some (addWithCarry a b carry) := by
  obtain ⟨sum, hSum, hSmall, hNat⟩ := exists_checkedSum a b carry
  have hResult : sum.toUInt8 = UInt8.ofNat (a.toNat + b.toNat + carry.toNat) := by
    rw [← hNat]
    rfl
  have hOut : 0xFF < sum ↔ 0xFF < a.toNat + b.toNat + carry.toNat := by
    rw [UInt16.lt_iff_toNat_lt, hNat]
    rfl
  rw [checkedAddWithCarry, hSum, Option.bind_eq_bind, Option.bind_some, if_pos hSmall, hResult]
  simp only [hOut]
  rfl

/-! ## Checked look-up -/

namespace Instruction

/-- The instructions by their opcodes. A row with an index outside of the table would be lost. -/
def table : Array (Option Instruction) :=
  documented.foldl (fun table i => table.setIfInBounds i.opcode.toNat (some i))
    (Array.replicate 256 none)

/-- Filled in with rows of distinct opcodes, a table holds at each opcode the row that has it. -/
theorem getElem?_foldl_rows {rows : List Instruction}
    (hDistinct : rows.Pairwise (·.opcode ≠ ·.opcode)) {start : Array (Option Instruction)}
    (hSize : start.size = 256) (opcode : UInt8) :
    (rows.foldl (fun table i => table.setIfInBounds i.opcode.toNat (some i)) start)[opcode.toNat]? =
      match rows.find? (·.opcode == opcode) with
      | some i => some (some i)
      | none => start[opcode.toNat]? := by
  induction rows generalizing start with
  | nil => rfl
  | cons i rest ih =>
    obtain ⟨hHead, hRest⟩ := List.pairwise_cons.mp hDistinct
    rw [List.foldl_cons, ih hRest (by rw [Array.size_setIfInBounds, hSize])]
    by_cases hHere : i.opcode = opcode
    · have hLater : rest.find? (·.opcode == opcode) = none := by
        rw [List.find?_eq_none]
        intro j hj
        rw [beq_iff_eq, ← hHere]
        exact Ne.symm (hHead j hj)
      have hBound : opcode.toNat < start.size := hSize ▸ opcode.toNat_lt
      rw [hLater, List.find?_cons_of_pos (by rw [beq_iff_eq, hHere]), hHere]
      exact Array.getElem?_setIfInBounds_self_of_lt hBound
    · have hIndex : i.opcode.toNat ≠ opcode.toNat := fun h => hHere (UInt8.toNat_inj.mp h)
      rw [List.find?_cons_of_neg (by rw [beq_iff_eq]; exact hHere),
        Array.getElem?_setIfInBounds_ne hIndex]

theorem getElem?_table (opcode : UInt8) : table[opcode.toNat]? = some (decode opcode) := by
  have hStart : (Array.replicate 256 (none : Option Instruction)).size = 256 := Array.size_replicate
  rw [table, getElem?_foldl_rows pairwise_documented hStart, decode]
  cases documented.find? (·.opcode == opcode) with
  | some i => rfl
  | none => exact Array.getElem?_replicate.trans (if_pos opcode.toNat_lt)

end Instruction

/-! ## Checked blocks -/

def checkedSlice (bytes : Array UInt8) (start stop : Nat) : Option (Array UInt8) :=
  if start ≤ stop ∧ stop ≤ bytes.size then some (bytes.extract start stop) else none

/-- Puts `block` in the place of a slice of its own length. -/
def checkedCopy (bytes : Array UInt8) (start stop : Nat) (block : List UInt8) :
    Option (Array UInt8) :=
  (checkedSlice bytes start stop).bind fun slice =>
    if slice.size = block.length then
      some (bytes.extract 0 start ++ block.toArray ++ bytes.extract stop)
    else none

theorem checkedSlice_of_le {bytes : Array UInt8} {start stop : Nat} (hOrder : start ≤ stop)
    (hStop : stop ≤ bytes.size) : checkedSlice bytes start stop = some (bytes.extract start stop) :=
  if_pos ⟨hOrder, hStop⟩

theorem checkedCopy_of_fits {bytes : Array UInt8} {start : Nat} {block : List UInt8}
    (hFits : start + block.length ≤ bytes.size) :
    checkedCopy bytes start (start + block.length) block =
      some (bytes.extract 0 start ++ block.toArray ++ bytes.extract (start + block.length)) := by
  have hSlice := checkedSlice_of_le (Nat.le_add_right start block.length) hFits
  have hLength : (bytes.extract start (start + block.length)).size = block.length := by
    rw [Array.size_extract]
    omega
  rw [checkedCopy, hSlice, Option.bind_some, if_pos hLength]

namespace Ram

theorem getElem?_bytes (ram : Ram) (address : UInt16) :
    ram.bytes.toArray[address.toNat]? = some (ram.read address) := by
  have hBound : address.toNat < ram.bytes.toArray.size := by
    rw [Vector.size_toArray]
    exact address.toNat_lt
  rw [Array.getElem?_eq_getElem hBound]
  rfl

def checkedPage (ram : Ram) (page : UInt8) : Option (Array UInt8) :=
  checkedSlice ram.bytes.toArray (256 * page.toNat) (256 * page.toNat + 256)

def checkedLoad (ram : Ram) (origin : UInt16) (image : List UInt8) :
    Option (Except ImageTooLarge (Array UInt8)) :=
  let stop := origin.toNat + image.length
  if stop ≤ 0x10000 then (checkedCopy ram.bytes.toArray origin.toNat stop image).map .ok
  else some (.error ⟨origin, image.length⟩)

theorem checkedPage_eq (ram : Ram) (page : UInt8) : ram.checkedPage page = some (ram.page page) := by
  have hPage := page.toNat_lt
  apply checkedSlice_of_le (Nat.le_add_right _ 256)
  rw [Vector.size_toArray]
  omega

theorem checkedLoad_eq (ram : Ram) (origin : UInt16) (image : List UInt8) :
    ram.checkedLoad origin image = some ((ram.load origin image).map (·.bytes.toArray)) := by
  rw [checkedLoad, load]
  by_cases hFits : origin.toNat + image.length ≤ 0x10000
  · have hInside : origin.toNat + image.length ≤ ram.bytes.toArray.size := by
      rwa [Vector.size_toArray]
    rw [if_pos hFits, dif_pos hFits, checkedCopy_of_fits hInside]
    simp only [Option.map_some, Except.map, Vector.toArray_cast, Vector.toArray_append,
      Vector.toArray_take, Vector.toArray_drop, Array.take_eq_extract, Vector.size_toArray]
  · rw [if_neg hFits, dif_neg hFits]
    rfl

end Ram

/-! ## Checked execution -/

/-- What an operation needs for an operand. The operations that are not named need none. -/
def Operation.Takes (operation : Operation) (operand : Operand) : Prop :=
  match operation with
  | load _ | logic _ | add | subtract | compare _ | testBits | increment | decrement
  | store _ | jump | call => ∃ location, operand = .address location
  | shift _ => operand = .accumulator ∨ ∃ location, operand = .address location
  | branch _ _ => ∃ offset, operand = .relative offset
  | _ => operand = .none

namespace Machine

variable {M : Type u} [Bus M]

def checkedRead (m : Machine M) (mode : Mode) : Option UInt8 :=
  match m.resolve mode with
  | .accumulator => some m.a
  | .address location => some (m.read location)
  | .none | .relative _ => none

def checkedWrite (m : Machine M) (mode : Mode) (byte : UInt8) : Option (Machine M) :=
  match m.resolve mode with
  | .accumulator => some { m with a := byte }
  | .address location => some (m.write location byte)
  | .none | .relative _ => none

def checkedTarget (m : Machine M) (mode : Mode) : Option UInt16 :=
  match m.resolve mode with
  | .address location => some location
  | .none | .accumulator | .relative _ => none

def checkedOffset (m : Machine M) : Option Int8 :=
  match m.resolve .relative with
  | .relative offset => some offset
  | .none | .accumulator | .address _ => none

def checkedAccumulate (m : Machine M) (byte : UInt8) : Option (Machine M) :=
  (checkedAddWithCarry m.a byte m.p.carry).map fun sum =>
    { m with
      a := sum.result
      p := { m.p with carry := sum.carry, overflow := sum.overflow }.describing sum.result }

/-- Whatever an operation gets at through its operand it asks for, and resolves the mode to do so. An
operation that changes its operand resolves the mode twice, and a branch only if it is taken. -/
def checkedExecute (operation : Operation) (mode : Mode) (m : Machine M) :
    Option (Machine M × Flow) :=
  match operation with
  | .load register => (m.checkedRead mode).map fun byte => (m.deliver register byte, .next)
  | .store register =>
    (m.checkedTarget mode).map fun location => (m.write location (m.get register), .next)
  | .logic logic =>
    (m.checkedRead mode).map fun byte => (m.deliver .a (logic.apply m.a byte), .next)
  | .add => ((m.checkedRead mode).bind m.checkedAccumulate).map (·, .next)
  | .subtract =>
    ((m.checkedRead mode).bind fun byte => m.checkedAccumulate (~~~byte)).map (·, .next)
  | .compare register =>
    (m.checkedRead mode).map fun byte =>
      let value := m.get register
      ({ m with p := { m.p with carry := byte ≤ value }.describing (value - byte) }, .next)
  | .testBits =>
    (m.checkedRead mode).map fun byte =>
      ({ m with
        p := { m.p with
          zero := m.a &&& byte == 0
          overflow := byte &&& 0x40 != 0
          negative := isNegative byte } }, .next)
  | .shift shift =>
    (m.checkedRead mode).bind fun byte =>
      let shifted := shift.apply byte m.p.carry
      (m.checkedWrite mode shifted.1).map fun m =>
        ({ m with p := { m.p with carry := shifted.2 }.describing shifted.1 }, .next)
  | .increment =>
    (m.checkedRead mode).bind fun byte =>
      (m.checkedWrite mode (byte + 1)).map fun m => (m.describing (byte + 1), .next)
  | .decrement =>
    (m.checkedRead mode).bind fun byte =>
      (m.checkedWrite mode (byte - 1)).map fun m => (m.describing (byte - 1), .next)
  | .branch flag on =>
    if m.p.get flag = on then
      m.checkedOffset.map fun offset =>
        ({ m with pc := m.pc + 2 + UInt16.ofInt offset.toInt }, .jump)
    else
      some (m, .next)
  | .jump => (m.checkedTarget mode).map fun location => ({ m with pc := location }, .jump)
  | .call =>
    (m.checkedTarget mode).map fun location =>
      ({ m.pushWord (m.pc + 2) with pc := location }, .jump)
  | .transfer _ _ | .incrementRegister _ | .decrementRegister _ | .returnFromCall
  | .returnFromInterrupt | .interrupt | .pushAccumulator | .pushStatus | .pullAccumulator
  | .pullStatus | .setFlag _ _ | .idle => some (m.execute operation .none)

theorem takes_of_suits (m : Machine M) {operation : Operation} {mode : Mode}
    (hSuits : operation.suits mode = true) : operation.Takes (m.resolve mode) := by
  cases operation with
  | load _ | logic _ | add | subtract | compare _ | testBits | increment | decrement | store _
  | jump | call => exact m.exists_address hSuits
  | shift shift =>
    rw [Operation.suits, Bool.or_eq_true, beq_iff_eq] at hSuits
    obtain hAddress | rfl := hSuits
    · exact .inr (m.exists_address hAddress)
    · exact .inl rfl
  | branch flag on =>
    obtain rfl : mode = .relative := beq_iff_eq.mp hSuits
    exact ⟨_, rfl⟩
  | _ =>
    obtain rfl : mode = .implicit := beq_iff_eq.mp hSuits
    rfl

/-- It makes no difference that the plain machine resolves the mode once, before the operation. -/
theorem checkedExecute_eq (m : Machine M) {operation : Operation} {mode : Mode}
    (hSuits : operation.suits mode = true) :
    m.checkedExecute operation mode = some (m.execute operation (m.resolve mode)) := by
  have hTakes := m.takes_of_suits hSuits
  cases operation with
  | load _ | logic _ | compare _ | testBits | increment | decrement | store _ | jump | call =>
    obtain ⟨location, hAddress⟩ := hTakes
    simp only [checkedExecute, checkedRead, checkedWrite, checkedTarget, hAddress]
    rfl
  | add | subtract =>
    obtain ⟨location, hAddress⟩ := hTakes
    simp only [checkedExecute, checkedRead, hAddress, checkedAccumulate, checkedAddWithCarry_eq,
      Option.bind_some, Option.map_some]
    rfl
  | shift shift =>
    obtain hOperand | ⟨location, hOperand⟩ := hTakes
    all_goals
      simp only [checkedExecute, checkedRead, checkedWrite, hOperand]
      rfl
  | branch flag on =>
    obtain rfl : mode = .relative := beq_iff_eq.mp hSuits
    simp only [checkedExecute, checkedOffset, resolve, execute]
    split <;> rfl
  | _ =>
    obtain rfl : mode = .implicit := beq_iff_eq.mp hSuits
    rfl

/-- What takes no operand looks at none. -/
theorem execute_of_takes_none (m : Machine M) {operation : Operation} (h : operation.Takes .none)
    (operand : Operand) : m.execute operation operand = m.execute operation .none := by
  cases operation with
  | load _ | logic _ | add | subtract | compare _ | testBits | increment | decrement | store _
  | jump | call | branch _ _ =>
    obtain ⟨_, hEq⟩ := h
    cases hEq
  | shift shift => obtain hEq | ⟨_, hEq⟩ := h <;> cases hEq
  | transfer source target => cases target <;> rfl
  | _ => rfl

/-! ## Checked steps -/

/-- Counts an instruction, unless the counter is at its end. -/
def checkedCount (m : Machine M) : Option (Machine M) :=
  if m.retired.toNat + 1 < UInt64.size then some { m with retired := m.retired + 1 } else none

def checkedDocumented (m : Machine M) (i : Instruction) :
    Option (Transition M (Except IllegalOpcode RunState)) :=
  (m.checkedExecute i.mnemonic.operation i.mode).bind fun executed =>
    executed.1.checkedCount.map fun left =>
      match executed.2 with
      | .next =>
        ⟨{ left with pc := left.pc + UInt16.ofNat i.length }, .ok left.state, [.executing m.pc i]⟩
      | .jump => ⟨left, .ok left.state, [.executing m.pc i]⟩
      | .brk =>
        if left.config.haltOnBrk then
          ⟨{ left with state := .halted }, .ok .halted, [.executing m.pc i, .haltedByBrk m.pc]⟩
        else ⟨left, .ok left.state, [.executing m.pc i]⟩

def checkedUndocumented (m : Machine M) (opcode : UInt8) :
    Option (Transition M (Except IllegalOpcode RunState)) :=
  let fault : IllegalOpcode := ⟨opcode, m.pc⟩
  match m.config.illegalOpcode with
  | .halt => some ⟨m.reject fault, .error fault, [.rejected fault]⟩
  | .skip =>
    m.checkedCount.map fun counted =>
      ⟨{ counted with pc := counted.pc + 1 }, .ok counted.state, [.skipped fault]⟩

def checkedStep (m : Machine M) : Option (Transition M (Except IllegalOpcode RunState)) :=
  match m.state with
  | .halted => some ⟨m, .ok .halted, []⟩
  | .running =>
    Instruction.table[(m.read m.pc).toNat]?.bind fun entry =>
      match entry with
      | some i => m.checkedDocumented i
      | none => m.checkedUndocumented (m.read m.pc)

omit [Bus M] in
theorem checkedCount_of_last {m : Machine M} (hLast : m.retired = 0xFFFFFFFFFFFFFFFF) :
    m.checkedCount = none := by
  rw [checkedCount, hLast]
  rfl

omit [Bus M] in
theorem checkedCount_of_ne {m : Machine M} (hMore : m.retired ≠ 0xFFFFFFFFFFFFFFFF) :
    m.checkedCount = some { m with retired := m.retired + 1 } := by
  have hBound := m.retired.toNat_lt
  have hNe : m.retired.toNat ≠ 0xFFFFFFFFFFFFFFFF := fun h => hMore (UInt64.toNat_inj.mp h)
  apply if_pos
  change m.retired.toNat + 1 < 0x10000000000000000
  omega

theorem checkedDocumented_eq (m : Machine M) {i : Instruction}
    (hSuits : i.mnemonic.operation.suits i.mode = true) : m.checkedDocumented i =
      if m.retired = 0xFFFFFFFFFFFFFFFF then none else some (m.stepDocumented i) := by
  have hControl := m.execute_control i.mnemonic.operation (m.resolve i.mode)
  rw [checkedDocumented, m.checkedExecute_eq hSuits, Option.bind_some]
  cases hExecute : m.execute i.mnemonic.operation (m.resolve i.mode) with
  | mk left flow =>
    rw [hExecute] at hControl
    have hRetired : left.retired = m.retired := congrArg Control.retired hControl
    by_cases hLast : m.retired = 0xFFFFFFFFFFFFFFFF
    · rw [if_pos hLast, checkedCount_of_last (hRetired.trans hLast), Option.map_none]
    · have hMore : left.retired ≠ 0xFFFFFFFFFFFFFFFF := hRetired ▸ hLast
      rw [if_neg hLast, checkedCount_of_ne hMore]
      cases flow with
      | next | jump | brk => simp only [stepDocumented, hExecute, Option.map_some]

theorem checkedStep_of_next? {m : Machine M} {i : Instruction} (hNext : m.next? = some i) :
    m.checkedStep = m.checkedDocumented i := by
  obtain ⟨hRunning, hDecode⟩ := (m.next?_eq_some_iff i).mp hNext
  simp only [checkedStep, hRunning, Instruction.getElem?_table, hDecode, Option.bind_some]

theorem checkedStep_of_meets {m : Machine M} {fault : IllegalOpcode} (hMeets : m.Meets fault) :
    m.checkedStep = m.checkedUndocumented fault.opcode := by
  obtain ⟨hRunning, rfl, hUndocumented⟩ := hMeets
  simp only [checkedStep, hRunning, Instruction.getElem?_table, hUndocumented, Option.bind_some]

/-- The checked step gives up only if it has to count and the counter is at its end. -/
theorem checkedStep_eq (m : Machine M) : m.checkedStep =
    if m.retires = true ∧ m.retired = 0xFFFFFFFFFFFFFFFF then none else some m.step := by
  obtain ⟨hHalted, hStep⟩ | ⟨i, hNext, hStep⟩ | ⟨fault, hMeets, hPolicy, hStep⟩ |
    ⟨fault, hMeets, hPolicy, hStep⟩ := m.step_cases
  · have hRetires : ¬(m.retires = true ∧ m.retired = 0xFFFFFFFFFFFFFFFF) := by
      rw [retires_of_halted hHalted]
      exact fun h => Bool.false_ne_true h.1
    rw [if_neg hRetires, checkedStep, hHalted, hStep]
  · have hRetires : m.retires = true := by rw [retires, hNext, Option.isSome_some, Bool.true_or]
    rw [checkedStep_of_next? hNext, m.checkedDocumented_eq (suits_of_next? hNext),
      hRetires, hStep]
    simp only [true_and]
  · have hRetires : ¬(m.retires = true ∧ m.retired = 0xFFFFFFFFFFFFFFFF) := by
      rw [hMeets.retires_iff, hPolicy]
      exact fun h => IllegalPolicy.noConfusion h.1
    rw [if_neg hRetires, checkedStep_of_meets hMeets, hStep, hMeets.fault_eq, checkedUndocumented,
      hPolicy]
  · have hRetires : m.retires = true := hMeets.retires_iff.mpr hPolicy
    have hRunning := hMeets.running
    rw [checkedStep_of_meets hMeets, checkedUndocumented, hPolicy, hRetires, hStep, hMeets.fault_eq]
    simp only [true_and]
    by_cases hLast : m.retired = 0xFFFFFFFFFFFFFFFF
    · rw [if_pos hLast, checkedCount_of_last hLast, Option.map_none]
    · rw [if_neg hLast, checkedCount_of_ne hLast, Option.map_some]
      simp only [hRunning, skip]

end Machine

/-! ## Checked loading -/

/-- Writes an image from `offset` places behind the origin on. -/
def Bus.checkedWriteAll {M : Type u} [Bus M] (origin : UInt16) :
    Nat → List UInt8 → M → Option M
  | _, [], memory => some memory
  | offset, byte :: rest, memory =>
    (Word.checkedOfNat offset).bind fun distance =>
      (Word.checkedAdd origin distance).bind fun address =>
        checkedWriteAll origin (offset + 1) rest (write memory address byte)

theorem Bus.checkedWriteAll_eq {M : Type u} [Bus M] {origin : UInt16} {image : List UInt8}
    {offset : Nat} (hFits : origin.toNat + offset + image.length ≤ 0x10000) (memory : M) :
    checkedWriteAll origin offset image memory =
      some (writeAll (origin + UInt16.ofNat offset) image memory) := by
  induction image generalizing offset memory with
  | nil => rfl
  | cons byte rest ih =>
    rw [List.length_cons] at hFits
    obtain ⟨hCast, hOffset⟩ := Word.checkedOfNat_of_lt (n := offset) (by omega)
    obtain ⟨hAdd, -⟩ := Word.checkedAdd_of_lt (a := origin) (b := UInt16.ofNat offset) (by omega)
    have hNext : origin + UInt16.ofNat (offset + 1) = origin + UInt16.ofNat offset + 1 := by
      rw [UInt16.ofNat_add, ← UInt16.add_assoc]
      rfl
    rw [checkedWriteAll, hCast, Option.bind_some, hAdd, Option.bind_some, ih (by omega), hNext]
    rfl

namespace Machine

variable {M : Type u} [Bus M]

def checkedLoad (image : List UInt8) (origin : UInt16) (m : Machine M) :
    Option (Transition M (Except ImageTooLarge Unit)) :=
  if origin.toNat + image.length ≤ 0x10000 then
    (Bus.checkedWriteAll origin 0 image m.memory).map fun memory =>
      ⟨{ m with memory := memory, pc := origin : Machine M }.resume, .ok (),
        [.loaded image.length origin]⟩
  else
    some ⟨m, .error ⟨origin, image.length⟩, []⟩

theorem checkedLoad_eq (image : List UInt8) (origin : UInt16) (m : Machine M) :
    m.checkedLoad image origin = some (m.load image origin) := by
  rw [checkedLoad, load]
  by_cases hFits : origin.toNat + image.length ≤ 0x10000
  · rw [if_pos hFits, if_pos hFits, Bus.checkedWriteAll_eq hFits, Word.add_ofNat_zero,
      Option.map_some]
  · rw [if_neg hFits, if_neg hFits]

/-- Nothing falls back and nothing overflows. In front of any byte, on any bus, a running machine
finds operands of the kind that its operation needs, or has none to look at. Its step is the checked
step, which has no other way out; only a count beyond the last number is refused. Loading is the
checked loading. Sums have nine bits at most, and every opcode has its place in the table. Every
address lies inside flat memory, every page is a slice of it, and an image that is loaded as a block
takes the place of a slice of its own length. -/
theorem nothing_to_fall_back_on (M : Type u) [Bus M] :
    (∀ m : Machine M, m.state = .running →
      (∀ i, m.next? = some i → i.mnemonic.operation.Takes (m.resolve i.mode) ∧
        (i.mode = .implicit → ∀ operand,
          m.execute i.mnemonic.operation operand = m.execute i.mnemonic.operation .none)) ∧
      m.checkedStep =
        if m.retires = true ∧ m.retired = 0xFFFFFFFFFFFFFFFF then none else some m.step) ∧
    (∀ (m : Machine M) (image : List UInt8) (origin : UInt16),
      m.checkedLoad image origin = some (m.load image origin)) ∧
    (∀ (a b : UInt8) (carry : Bool), ∃ sum, checkedSum a b carry = some sum ∧ sum < 512 ∧
      sum.toNat = a.toNat + b.toNat + carry.toNat) ∧
    (∀ opcode : UInt8, Instruction.table[opcode.toNat]? = some (Instruction.decode opcode)) ∧
    ∀ ram : Ram,
      (∀ address : UInt16, ram.bytes.toArray[address.toNat]? = some (ram.read address) ∧
        ∀ byte, (ram.write address byte).bytes.toArray[address.toNat]? = some byte) ∧
      (∀ page : UInt8, ram.checkedPage page = some (ram.page page)) ∧
      ∀ (origin : UInt16) (image : List UInt8), ram.checkedLoad origin image =
        some ((ram.load origin image).map (·.bytes.toArray)) := by
  refine ⟨fun m _ => ⟨fun i hNext => ?_, m.checkedStep_eq⟩, fun m image origin =>
    m.checkedLoad_eq image origin, exists_checkedSum, Instruction.getElem?_table,
    fun ram => ⟨fun address => ⟨ram.getElem?_bytes address, fun byte => ?_⟩, ram.checkedPage_eq,
      ram.checkedLoad_eq⟩⟩
  · have hTakes := m.takes_of_suits (suits_of_next? hNext)
    refine ⟨hTakes, fun hImplicit => m.execute_of_takes_none ?_⟩
    rwa [hImplicit] at hTakes
  · rw [Ram.getElem?_bytes, Ram.read_write, if_pos rfl]

/-- The largest sum there is, of an operand that is found through a pointer that wraps in page zero,
and an increment without an operand, both in read-only memory. At the end of the counter the checked
step is refused. -/
theorem nothing_to_fall_back_on_at_limits :
    let m : Machine Board :=
      { powerOn .standard
          (Board.install 0xFF [0x05, 0x71, 0xFF, 0xE8]
            (Bus.write { lines := 0x01FF, readOnly := some (0x0100, 0x01FF) } 0x05 0xFF)) with
        pc := 0x0100, a := 0xFF, p := { Status.powerOn with carry := true } }
    let last : Machine Board := { m with retired := 0xFFFFFFFFFFFFFFFF }
    let index : Machine Board := { m with pc := 0x0102 }
    (∃ location, m.resolve .indirectY = .address location) ∧ m.checkedStep = some m.step ∧
      m.step.machine.a = 0xFF ∧ last.checkedStep = none ∧
      index.execute (.incrementRegister .x) .accumulator =
        index.execute (.incrementRegister .x) .none := by
  intro m last index
  obtain ⟨hMachines, -⟩ := nothing_to_fall_back_on Board
  obtain ⟨hTakes, hStep⟩ := hMachines m rfl
  obtain ⟨-, hLast⟩ := hMachines last rfl
  obtain ⟨hIndex, -⟩ := hMachines index rfl
  have hNext : m.next? = some ⟨0x71, .adc, .indirectY⟩ := by decide +kernel
  have hIndexNext : index.next? = some ⟨0xE8, .inx, .implicit⟩ := by decide +kernel
  rw [if_neg (by decide +kernel)] at hStep
  rw [if_pos (by decide +kernel)] at hLast
  exact ⟨(hTakes _ hNext).1, hStep, by decide +kernel, hLast,
    (hIndex _ hIndexNext).2 rfl .accumulator⟩

end Machine

end Nmos6502
