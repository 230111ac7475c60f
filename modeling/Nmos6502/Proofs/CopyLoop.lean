import Nmos6502.Proofs.Load
import Nmos6502.Proofs.NextPc
import Nmos6502.Proofs.StraightLine

/-! # Copying through pointers

A program of six instructions copies bytes from where one pointer in page zero points to where
another one does, counting an index down. It goes on as long as the index is not negative, so an
index above $80 ends the loop at once and $80 itself does not. One pass of the loop copies one byte
and keeps everything else; what carries the passes is that the destination stays clear of the
program, the pointers and the source. The BRK at the end fills three slots of the stack.
-/

namespace Nmos6502
set_option autoImplicit false

/-- A word that does not start at the last address of its page can be read either way. -/
theorem Machine.readWordInPage_eq (m : Machine Ram) (address : UInt16)
    (hInside : Word.nextInPage address = address + 1) :
    m.readWordInPage address = m.readWord address := by
  rw [readWordInPage, hInside]
  rfl

namespace CopyLoop

/-- LDY #last, then LDA ($20),Y; STA ($22),Y; DEY; BPL to the LDA, and BRK. -/
def image (last : UInt8) : List UInt8 :=
  [0xA0, last, 0xB1, 0x20, 0x91, 0x22, 0x88, 0x10, 0xF9, 0x00]

/-- The indices of the bytes that are copied. -/
def indices (last : UInt8) : List UInt8 :=
  if last ≤ 0x80 then (List.range (last.toNat + 1)).map UInt8.ofNat else [last]

def source (m : Machine Ram) (index : UInt8) : UInt16 := m.readWord 0x20 + index.toUInt16

def target (m : Machine Ram) (index : UInt8) : UInt16 := m.readWord 0x22 + index.toUInt16

/-- Where the BRK pushes. -/
def slots (m : Machine Ram) : List UInt16 := [m.slot 0, m.slot (-1), m.slot (-2)]

theorem slots_congr {m n : Machine Ram} (hSp : n.sp = m.sp) : slots n = slots m := by
  simp only [slots, Machine.slot, hSp]

/-- The program fits at its origin and leaves the pointers alone, and no byte goes over the program,
the pointers, the source or the slots. -/
structure Placed (m : Machine Ram) (origin : UInt16) (last : UInt8) : Prop where
  fits : origin.toNat + (image last).length ≤ 65536
  beside : origin.toNat + (image last).length ≤ 0x20 ∨ 0x24 ≤ origin.toNat
  program : ∀ i ∈ indices last, (target m i).toNat < origin.toNat ∨
    origin.toNat + (image last).length ≤ (target m i).toNat
  pointers : ∀ i ∈ indices last, target m i ∉ ([0x20, 0x21, 0x22, 0x23] : List UInt16)
  source : ∀ i ∈ indices last, ∀ j ∈ indices last, target m i ≠ source m j
  stack : ∀ i ∈ indices last, target m i ∉ slots m

/-! ## Counting down -/

theorem length_indices (last : UInt8) :
    (indices last).length = if last.toNat ≤ 128 then last.toNat + 1 else 1 := by
  simp only [indices, UInt8.le_iff_toNat_le, UInt8.reduceToNat]
  split
  · rw [List.length_map, List.length_range]
  · rfl

/-- The index in pass `k`. -/
def index (last : UInt8) (k : Nat) : UInt8 := last - UInt8.ofNat k

theorem toNat_index (last : UInt8) {k : Nat} (hk : k ≤ last.toNat) :
    (index last k).toNat = last.toNat - k := by
  have hLast := last.toNat_lt
  rw [index, UInt8.toNat_sub, UInt8.toNat_ofNat']
  omega

theorem index_succ (last : UInt8) (k : Nat) : index last (k + 1) = index last k - 1 := by
  rw [index, index, UInt8.ofNat_add, Byte.sub_sub]
  rfl

theorem mem_indices_iff (last i : UInt8) :
    i ∈ indices last ↔ ∃ k < (indices last).length, i = index last k := by
  have hLast := last.toNat_lt
  rw [length_indices]
  simp only [indices, UInt8.le_iff_toNat_le, UInt8.reduceToNat]
  split
  · -- The list goes up, the loop goes down.
    simp only [List.mem_map, List.mem_range]
    constructor
    · rintro ⟨n, hn, rfl⟩
      refine ⟨last.toNat - n, by omega, ?_⟩
      apply UInt8.toNat_inj.mp
      rw [toNat_index last (by omega), UInt8.toNat_ofNat']
      omega
    · rintro ⟨k, hk, rfl⟩
      refine ⟨last.toNat - k, by omega, ?_⟩
      apply UInt8.toNat_inj.mp
      rw [toNat_index last (by omega), UInt8.toNat_ofNat']
      omega
  · simp [index]

/-- Behind pass `k` the index is negative exactly if that was the last pass. -/
theorem isNegative_index_iff {last : UInt8} {k : Nat} (hk : k < (indices last).length) :
    Byte.isNegative (index last (k + 1)) = true ↔ k + 1 = (indices last).length := by
  have hLast := last.toNat_lt
  rw [Byte.isNegative_iff, index, UInt8.toNat_sub, UInt8.toNat_ofNat']
  rw [length_indices] at hk ⊢
  split at hk <;> rename_i hSize
  · rw [if_pos hSize]
    omega
  · rw [if_neg hSize]
    omega

theorem index_length_indices (last : UInt8) :
    index last (indices last).length = if last ≤ 0x80 then 0xFF else last - 1 := by
  have hLast := last.toNat_lt
  simp only [index, length_indices, UInt8.le_iff_toNat_le, UInt8.reduceToNat]
  split
  · apply UInt8.toNat_inj.mp
    simp only [UInt8.toNat_sub, UInt8.toNat_ofNat', UInt8.reduceToNat]
    omega
  · rfl

/-! ## One pass -/

/-- The machine runs with the program intact, and is `offset` bytes into it. -/
structure Stands (origin : UInt16) (last : UInt8) (offset : Nat) (n : Machine Ram) : Prop where
  running : n.state = .running
  pc : n.pc = origin + UInt16.ofNat offset
  program : n.memory.Holds origin (image last)

namespace Stands

variable {n : Machine Ram} {origin : UInt16} {last : UInt8} {offset : Nat}

/-- An instruction is fetched from its offset, and takes its operand from its own bytes. -/
theorem fetches (h : Stands origin last offset n) {i : Instruction}
    (hDocumented : i ∈ Instruction.documented) {operands : List UInt8}
    (hComplete : operands.length = i.mode.operandBytes)
    (hEncoded : ((image last).drop offset).take i.length = i.opcode :: operands) :
    n.next? = some i ∧ n.resolve i.mode = n.operandOf i.mode operands := by
  have hHolds := h.program.slice offset i.length
  rw [hEncoded, ← h.pc] at hHolds
  exact ⟨Machine.next?_of_holds h.running hDocumented hHolds,
    Machine.resolve_eq_operandOf hComplete ((Ram.holds_cons _ _ _ _).mp hHolds).2⟩

/-- Such an instruction outside of control flow executes, and the machine goes on behind it. -/
theorem executes (h : Stands origin last offset n) {i : Instruction}
    (hDocumented : i ∈ Instruction.documented) {operands : List UInt8}
    (hComplete : operands.length = i.mode.operandBytes)
    (hEncoded : ((image last).drop offset).take i.length = i.opcode :: operands)
    (hStraight : i.mnemonic.isControlFlow = false) : n.step.machine =
      { (n.execute i.mnemonic.operation (n.operandOf i.mode operands)).1 with
        pc := origin + UInt16.ofNat (offset + i.length)
        retired := n.retired + 1 } := by
  obtain ⟨hNext, hOperand⟩ := h.fetches hDocumented hComplete hEncoded
  rw [Machine.machine_of_straight hNext hStraight, hOperand, h.pc, UInt16.ofNat_add,
    UInt16.add_assoc]

theorem ldy (h : Stands origin last 0 n) : ∃ p, n.step.machine =
    { n with y := last, p := p, pc := origin + 2, retired := n.retired + 1 } := by
  have hLast : n.read (n.pc + 1) = last := by
    rw [h.pc, UInt16.add_assoc]
    exact h.program 1 (by simp only [image, List.length_cons]; omega)
  rw [h.executes (i := ⟨0xA0, .ldy, .immediate⟩) (by decide +kernel) rfl rfl rfl]
  exact ⟨n.p.describing last, by rw [← hLast]; rfl⟩

theorem lda (h : Stands origin last 2 n) : ∃ p, n.step.machine =
    { n with a := n.read (source n n.y), p := p, pc := origin + 4, retired := n.retired + 1 } := by
  have hPointer := n.readWordInPage_eq 0x20 (by decide)
  rw [h.executes (i := ⟨0xB1, .lda, .indirectY⟩) (by decide +kernel) rfl rfl rfl, source,
    ← hPointer]
  exact ⟨_, rfl⟩

theorem sta (h : Stands origin last 4 n) : n.step.machine =
    { n with
      pc := origin + 6
      retired := n.retired + 1
      memory := n.memory.write (target n n.y) n.a } := by
  have hPointer := n.readWordInPage_eq 0x22 (by decide)
  rw [h.executes (i := ⟨0x91, .sta, .indirectY⟩) (by decide +kernel) rfl rfl rfl, target,
    ← hPointer]
  rfl

theorem dey (h : Stands origin last 6 n) : n.step.machine =
    { n with
      y := n.y - 1
      p := n.p.describing (n.y - 1)
      pc := origin + 7
      retired := n.retired + 1 } := by
  rw [h.executes (i := ⟨0x88, .dey, .implicit⟩) (by decide +kernel) rfl rfl rfl]
  rfl

theorem bpl (h : Stands origin last 7 n) : n.step.machine =
    { n with pc := origin + (if n.p.negative then 9 else 2), retired := n.retired + 1 } := by
  obtain ⟨hNext, hOperand⟩ :=
    h.fetches (i := ⟨0x10, .bpl, .relative⟩) (by decide +kernel) rfl rfl
  have hExecute : n.execute (.branch .negative false) (.relative (0xF9 : UInt8).toInt8) =
      if n.p.negative = false then ({ n with pc := n.pc + 2 + UInt16.ofInt (-7) }, .jump)
      else (n, .next) := rfl
  have hBack : UInt16.ofNat 7 + (2 + UInt16.ofInt (-7)) = 2 := by decide
  have hBehind :
      UInt16.ofNat 7 + UInt16.ofNat (Instruction.length ⟨0x10, .bpl, .relative⟩) = 9 := by decide
  change n.resolve .relative = .relative (0xF9 : UInt8).toInt8 at hOperand
  rw [Machine.step_of_next? hNext]
  simp only [Machine.stepDocumented, Mnemonic.operation, hOperand, hExecute]
  cases hSign : n.p.negative with
  | false =>
    rw [if_pos rfl, if_neg Bool.false_ne_true, h.pc, UInt16.add_assoc, UInt16.add_assoc, hBack]
  | true =>
    rw [if_neg Bool.noConfusion, if_pos rfl]
    simp only [h.pc, UInt16.add_assoc, hBehind]

/-- One pass copies the byte at the index and counts the index down. It ends at the BRK exactly if
the index is negative then. -/
theorem pass (h : Stands origin last 2 n) (hFits : origin.toNat + (image last).length ≤ 0x10000)
    (hOutside : (target n n.y).toNat < origin.toNat ∨
      origin.toNat + (image last).length ≤ (target n n.y).toNat) :
    ∃ a p retired, n.stepped 4 =
      { n with
        a := a
        y := n.y - 1
        p := p
        pc := origin + (if Byte.isNegative (n.y - 1) then 9 else 2)
        retired := retired
        memory := n.memory.write (target n n.y) (n.read (source n n.y)) } := by
  obtain ⟨p, hLoaded⟩ := h.lda
  have hProgram :
      (Bus.writeEach [(target n n.y, n.read (source n n.y))] n.memory : Ram).Holds origin
        (image last) :=
    h.program.writeEach hFits (List.forall_mem_singleton.mpr hOutside)
  have hAtSta : Stands origin last 4 n.step.machine := by
    rw [hLoaded]
    exact ⟨h.running, rfl, h.program⟩
  have hStored := hAtSta.sta
  rw [hLoaded] at hStored
  have hAtDey : Stands origin last 6 n.step.machine.step.machine := by
    rw [hLoaded, hStored]
    exact ⟨h.running, rfl, hProgram⟩
  have hCounted := hAtDey.dey
  rw [hLoaded, hStored] at hCounted
  have hAtBpl : Stands origin last 7 n.step.machine.step.machine.step.machine := by
    rw [hLoaded, hStored, hCounted]
    exact ⟨h.running, rfl, hProgram⟩
  have hDecided := hAtBpl.bpl
  rw [hLoaded, hStored, hCounted] at hDecided
  change ∃ a p retired, n.step.machine.step.machine.step.machine.step.machine = _
  rw [hLoaded, hStored, hCounted, hDecided]
  exact ⟨_, _, _, rfl⟩

/-- The BRK behind the loop fills three slots of the stack. -/
theorem brk (h : Stands origin last 9 n) : n.next? = some ⟨0x00, .brk, .implicit⟩ ∧
    n.step.machine.y = n.y ∧ n.step.machine.sp = n.sp - 3 ∧
    ∀ address, address ∉ slots n → n.step.machine.read address = n.read address := by
  obtain ⟨hNext, -⟩ := h.fetches (i := ⟨0x00, .brk, .implicit⟩) (by decide +kernel) rfl rfl
  obtain ⟨pc, state, hMachine⟩ := Machine.Performs.step ⟨_, hNext, rfl, rfl⟩
  refine ⟨hNext, ?_, ?_, fun address hElsewhere => ?_⟩
  · rw [hMachine]
    rfl
  · rw [hMachine]
    change n.sp - 1 - 1 - 1 = n.sp - 3
    rw [Byte.sub_sub, Byte.sub_sub]
    rfl
  · change n.step.machine.memory.read address = n.memory.read address
    rw [Machine.memory_of_interrupt hNext rfl]
    apply Ram.read_writeEach_of_ne
    rintro write hMem rfl
    apply hElsewhere
    have hWhere : write.1 ∈ List.map Prod.fst [(n.slot 0, Word.high (n.pc + 2)),
        (n.slot (-1), Word.low (n.pc + 2)), (n.slot (-2), n.p.pushed)] :=
      List.mem_map_of_mem hMem
    exact hWhere

end Stands

/-! ## All passes -/

/-- In front of pass `k`, or of the BRK behind the last one, the bytes at the indices so far have been
copied, and nothing else in memory has changed since `start`. -/
structure Copied (start : Machine Ram) (origin : UInt16) (last : UInt8) (k : Nat)
    (n : Machine Ram) : Prop where
  running : n.state = .running
  pc : n.pc = origin + (if k < (indices last).length then 2 else 9)
  y : n.y = index last k
  sp : n.sp = start.sp
  copied : ∀ j < k, n.read (target start (index last j)) = start.read (source start (index last j))
  kept : ∀ address, (∀ j < k, address ≠ target start (index last j)) →
    n.read address = start.read address

theorem target_inj {m : Machine Ram} {i j : UInt8} (h : target m i = target m j) : i = j := by
  have hWide : i.toUInt16.toNat = j.toUInt16.toNat :=
    congrArg UInt16.toNat (UInt16.add_right_inj _ |>.mp h)
  rw [UInt8.toNat_toUInt16, UInt8.toNat_toUInt16] at hWide
  exact UInt8.toNat_inj.mp hWide

namespace Copied

variable {start n : Machine Ram} {origin : UInt16} {last : UInt8} {k : Nat}

/-- What no index aims at is still there. -/
theorem read_eq (h : Copied start origin last k n) (hk : k ≤ (indices last).length)
    {address : UInt16} (hUnaimed : ∀ i ∈ indices last, target start i ≠ address) :
    n.read address = start.read address := by
  apply h.kept
  rintro j hj rfl
  exact hUnaimed _ ((mem_indices_iff _ _).mpr ⟨j, by omega, rfl⟩) rfl

theorem program (h : Copied start origin last k n) (hk : k ≤ (indices last).length)
    (hPlaced : Placed start origin last) (hProgram : start.memory.Holds origin (image last)) :
    n.memory.Holds origin (image last) := by
  have hFits := hPlaced.fits
  intro offset hOffset
  rw [← hProgram offset hOffset]
  apply h.read_eq hk
  intro i hi hEq
  have hOutside := hPlaced.program i hi
  rw [hEq, Word.toNat_add_ofNat (by omega)] at hOutside
  omega

theorem pointers (h : Copied start origin last k n) (hk : k ≤ (indices last).length)
    (hPlaced : Placed start origin last) : source n = source start ∧ target n = target start := by
  have hPointer (address : UInt16) (hMem : address ∈ ([0x20, 0x21, 0x22, 0x23] : List UInt16)) :
      n.read address = start.read address :=
    h.read_eq hk fun i hi hEq => hPlaced.pointers i hi (hEq ▸ hMem)
  have hSource : n.readWord 0x20 = start.readWord 0x20 := by
    simp only [Machine.readWord, hPointer 0x20 (by decide), hPointer (0x20 + 1) (by decide)]
  have hTarget : n.readWord 0x22 = start.readWord 0x22 := by
    simp only [Machine.readWord, hPointer 0x22 (by decide), hPointer (0x22 + 1) (by decide)]
  constructor
  · funext i
    rw [source, source, hSource]
  · funext i
    rw [target, target, hTarget]

theorem stands (h : Copied start origin last k n) (hk : k < (indices last).length)
    (hPlaced : Placed start origin last) (hProgram : start.memory.Holds origin (image last)) :
    Stands origin last 2 n := by
  have hPc := h.pc
  rw [if_pos hk] at hPc
  exact ⟨h.running, hPc, h.program (Nat.le_of_lt hk) hPlaced hProgram⟩

theorem pass (h : Copied start origin last k n) (hk : k < (indices last).length)
    (hPlaced : Placed start origin last) (hProgram : start.memory.Holds origin (image last)) :
    Copied start origin last (k + 1) (n.stepped 4) := by
  have hIndex : index last k ∈ indices last := (mem_indices_iff _ _).mpr ⟨k, hk, rfl⟩
  obtain ⟨hSource, hTarget⟩ := h.pointers (Nat.le_of_lt hk) hPlaced
  have hByte : n.read (source start (index last k)) = start.read (source start (index last k)) :=
    h.read_eq (Nat.le_of_lt hk) fun i hi => hPlaced.source i hi _ hIndex
  have hOutside := hPlaced.program _ hIndex
  rw [← hTarget, ← h.y] at hOutside
  obtain ⟨a, p, retired, hPassed⟩ :=
    (h.stands hk hPlaced hProgram).pass hPlaced.fits hOutside
  have hRead (address : UInt16) : (n.stepped 4).read address =
      if target start (index last k) = address then start.read (source start (index last k))
      else n.read address := by
    rw [hPassed, hSource, hTarget, h.y, ← hByte]
    exact Ram.read_write _ _ _ _
  have hSign := isNegative_index_iff hk
  constructor
  · rw [hPassed]
    exact h.running
  · rw [hPassed, h.y, ← index_succ]
    change origin + _ = _
    congr 1
    by_cases hLast : k + 1 = (indices last).length
    · rw [if_pos (hSign.mpr hLast), if_neg (by omega)]
    · rw [if_neg (mt hSign.mp hLast), if_pos (by omega)]
  · rw [hPassed, index_succ, ← h.y]
  · rw [hPassed]
    exact h.sp
  · intro j hj
    rw [hRead]
    by_cases hSame : target start (index last k) = target start (index last j)
    · rw [if_pos hSame, target_inj hSame]
    · have hBefore : j ≠ k := fun hEq => hSame (by rw [hEq])
      rw [if_neg hSame, h.copied j (by omega)]
  · intro address hAway
    rw [hRead, if_neg (hAway k (Nat.lt_succ_self k)).symm]
    exact h.kept address fun j hj => hAway j (Nat.lt_succ_of_lt hj)

end Copied

theorem copied_zero {start : Machine Ram} {origin : UInt16} {last : UInt8}
    (h : Stands origin last 0 start) : Copied start origin last 0 (start.stepped 1) := by
  obtain ⟨p, hStep⟩ := h.ldy
  have hSome : 0 < (indices last).length := by
    rw [length_indices]
    split <;> omega
  constructor
  · exact (congrArg (·.state) hStep).trans h.running
  · rw [if_pos hSome]
    exact congrArg (·.pc) hStep
  · exact (congrArg (·.y) hStep).trans (UInt8.sub_zero last).symm
  · exact congrArg (·.sp) hStep
  · intro j hj
    exact absurd hj (Nat.not_lt_zero j)
  · intro address _
    exact congrArg (·.read address) hStep

/-- The passes of the loop, one after the other. -/
theorem copied_stepped {start : Machine Ram} {origin : UInt16} {last : UInt8}
    (h : Stands origin last 0 start) (hPlaced : Placed start origin last) (k : Nat)
    (hk : k ≤ (indices last).length) :
    Copied start origin last k (start.stepped (1 + 4 * k)) := by
  induction k with
  | zero => exact copied_zero h
  | succ k ih =>
    have hPasses : 1 + 4 * (k + 1) = 1 + 4 * k + 4 := by omega
    rw [hPasses, Machine.stepped_add]
    exact (ih (by omega)).pass hk hPlaced h.program

/-- From its first instruction on, the program runs to the BRK, by the LDY and four instructions for
each index. -/
theorem runs {start : Machine Ram} {origin : UInt16} {last : UInt8}
    (h : Stands origin last 0 start) (hPlaced : Placed start origin last)
    (hCause : start.haltCause = none) (hBrk : start.config.haltOnBrk = true) :
    ∃ t, (∀ other, start.RunsTo other ↔ other = t) ∧ t.result = .ok .brk ∧
      t.machine.retired = start.retired + UInt64.ofNat (1 + 4 * (indices last).length + 1) ∧
      (∀ i ∈ indices last, t.machine.read (target start i) = start.read (source start i)) ∧
      (∀ address, (∀ i ∈ indices last, target start i ≠ address) → address ∉ slots start →
        t.machine.read address = start.read address) ∧
      t.machine.sp = start.sp - 3 ∧ t.machine.y = if last ≤ 0x80 then 0xFF else last - 1 := by
  have hCopied := copied_stepped h hPlaced (indices last).length (Nat.le_refl _)
  have hPc := hCopied.pc
  rw [if_neg (Nat.lt_irrefl _)] at hPc
  have hAtBrk : Stands origin last 9 (start.stepped (1 + 4 * (indices last).length)) :=
    ⟨hCopied.running, hPc, hCopied.program (Nat.le_refl _) hPlaced h.program⟩
  obtain ⟨hNext, hY, hSp, hElsewhere⟩ := hAtBrk.brk
  rw [slots_congr hCopied.sp] at hElsewhere
  have hHalts : start.HaltsAfter (1 + 4 * (indices last).length + 1) := by
    constructor
    · rw [Machine.stepped_succ]
      exact Machine.halted_of_brk hNext rfl (by rw [Machine.config_stepped, hBrk])
    · intro j hj
      exact Machine.running_of_le hCopied.running (Nat.le_of_lt_succ hj)
  obtain ⟨t, hRuns, hExit, hMachine, hCount⟩ :=
    Machine.runsTo_of_brk (fun _ => hCause) hHalts hNext
  rw [Machine.stepped_succ] at hMachine
  refine ⟨t, hRuns, hExit, hCount, ?_, ?_, ?_, ?_⟩
  · intro i hi
    obtain ⟨j, hj, rfl⟩ := (mem_indices_iff _ _).mp hi
    rw [hMachine, hElsewhere _ (hPlaced.stack _ hi)]
    exact hCopied.copied j hj
  · intro address hUnaimed hOff
    rw [hMachine, hElsewhere _ hOff]
    exact hCopied.read_eq (Nat.le_refl _) hUnaimed
  · rw [hMachine, hSp, hCopied.sp]
  · rw [hMachine, hY, hCopied.y, index_length_indices]

/-! ## From the load on -/

/-- Loaded beside its pointers, the program stands at its first instruction. The pointers and the
slots are where they were before. -/
theorem ready_of_load {m : Machine Ram} {origin : UInt16} {last : UInt8}
    (hPlaced : Placed m origin last) :
    let start := (m.load (image last) origin).machine
    Stands origin last 0 start ∧ Placed start origin last ∧
      source start = source m ∧ target start = target m ∧ start.sp = m.sp := by
  intro start
  have hLoad : start = _ := congrArg Transition.machine (Machine.load_eq_of_fits hPlaced.fits m)
  have hMemory : start.memory = Bus.writeAll origin (image last) m.memory := by
    rw [hLoad, Bus.writeAll_eq]
  have hBeside := hPlaced.beside
  have hPointer (address : UInt16) (hMem : address ∈ ([0x20, 0x21, 0x22, 0x23] : List UInt16)) :
      start.read address = m.read address := by
    have hWhere : 0x20 ≤ address.toNat ∧ address.toNat < 0x24 := by
      simp only [List.mem_cons, List.not_mem_nil, or_false] at hMem
      obtain rfl | rfl | rfl | rfl := hMem <;> decide
    change start.memory.read address = _
    rw [hMemory, Ram.read_writeAll hPlaced.fits, dif_neg (by omega)]
    rfl
  have hFrom : source start = source m := by
    funext i
    simp only [source, Machine.readWord, hPointer 0x20 (by decide), hPointer (0x20 + 1) (by decide)]
  have hTo : target start = target m := by
    funext i
    simp only [target, Machine.readWord, hPointer 0x22 (by decide), hPointer (0x22 + 1) (by decide)]
  have hSp : start.sp = m.sp := congrArg (·.sp) hLoad
  refine ⟨⟨congrArg (·.state) hLoad, ?_, ?_⟩, ⟨hPlaced.fits, hBeside, ?_, ?_, ?_, ?_⟩,
    hFrom, hTo, hSp⟩
  · exact (congrArg (·.pc) hLoad).trans (UInt16.add_zero origin).symm
  · rw [hMemory]
    exact Ram.holds_writeAll hPlaced.fits m.memory
  · rw [hTo]
    exact hPlaced.program
  · rw [hTo]
    exact hPlaced.pointers
  · rw [hTo, hFrom]
    exact hPlaced.source
  · rw [hTo, slots_congr hSp]
    exact hPlaced.stack

/-- The loop copies every length, wherever it is placed. Once it is loaded, on a machine in whatever
state, the run ends in the BRK after the LDY, four instructions for each index and the BRK. Every
byte aimed at holds what its source held, and apart from these bytes only the slots of the stack can
have changed. -/
theorem copies_every_length {m : Machine Ram} {origin : UInt16} {last : UInt8}
    (hBrk : m.config.haltOnBrk = true) (hPlaced : Placed m origin last) :
    let start := (m.load (image last) origin).machine
    (m.load (image last) origin).result = .ok () ∧
    ∃ t, (∀ other, start.RunsTo other ↔ other = t) ∧ t.result = .ok .brk ∧
      (t.machine.retired - m.retired).toNat = 4 * (indices last).length + 2 ∧
      (∀ i ∈ indices last, t.machine.read (target m i) = start.read (source m i)) ∧
      (∀ address, (∀ i ∈ indices last, target m i ≠ address) → address ∉ slots m →
        t.machine.read address = start.read address) ∧
      t.machine.sp = m.sp - 3 ∧ t.machine.y = if last ≤ 0x80 then 0xFF else last - 1 := by
  intro start
  obtain ⟨hResult, hCause, hConfig, hRetired⟩ :=
    Machine.load_of_fits (m := m) hPlaced.fits
  obtain ⟨hStands, hReady, hFrom, hTo, hSp⟩ := ready_of_load hPlaced
  obtain ⟨t, hRuns, hExit, hCount, hCopied, hKept, hStack, hY⟩ :=
    runs hStands hReady hCause (by rw [hConfig, hBrk])
  rw [hFrom, hTo] at hCopied
  rw [hTo, slots_congr hSp] at hKept
  refine ⟨hResult, t, hRuns, hExit, ?_, hCopied, hKept, hStack.trans (by rw [hSp]), hY⟩
  have hLength : (indices last).length ≤ 129 := by
    rw [length_indices]
    split <;> omega
  have hSmall : 1 + 4 * (indices last).length + 1 < UInt64.size := by
    rw [UInt64.size]
    omega
  rw [hCount, hRetired, UInt64.add_comm, UInt64.add_sub_cancel, UInt64.toNat_ofNat_of_lt' hSmall]
  omega

/-- Two bytes are copied to the last and the first address of memory. -/
theorem copies_every_length_across_wrap :
    let m := Machine.powerOn .standard
      (Bus.writeAll 0x20 [0x40, 0x00, 0xFF, 0xFF] (Bus.writeAll 0x40 [0x11, 0x22] Ram.zeroed))
    let start := (m.load (image 1) 0x10).machine
    ∃ t, start.RunsTo t ∧ t.result = .ok .brk ∧ t.machine.retired.toNat = 10 ∧
      t.machine.read 0xFFFF = 0x11 ∧ t.machine.read 0x0000 = 0x22 ∧ t.machine.y = 0xFF := by
  intro m start
  have hIndices : indices 1 = [0, 1] := by decide
  have hEach {P : UInt8 → Prop} (hFirst : P 0) (hSecond : P 1) : ∀ i ∈ indices 1, P i := by
    rw [hIndices]
    simp only [List.forall_mem_cons, List.not_mem_nil, false_implies, implies_true, and_true]
    exact ⟨hFirst, hSecond⟩
  have hTo : target m 0 = 0xFFFF ∧ target m 1 = 0 := by decide +kernel
  have hFrom : source m 0 = 0x40 ∧ source m 1 = 0x41 := by decide +kernel
  have hSlots : slots m = [0x01FF, 0x01FE, 0x01FD] := by decide +kernel
  have hPlaced : Placed m 0x10 1 := by
    constructor
    · decide
    · exact .inl (by decide)
    · exact hEach (by rw [hTo.1]; decide) (by rw [hTo.2]; decide)
    · exact hEach (by rw [hTo.1]; decide) (by rw [hTo.2]; decide)
    · refine hEach (hEach ?_ ?_) (hEach ?_ ?_) <;> simp only [hTo, hFrom] <;> decide
    · exact hEach (by rw [hTo.1, hSlots]; decide) (by rw [hTo.2, hSlots]; decide)
  obtain ⟨-, t, hRuns, hExit, hCount, hCopied, -, -, hY⟩ :=
    copies_every_length (m := m) rfl hPlaced
  have hZero : m.retired = 0 := rfl
  rw [hZero, UInt64.sub_zero, hIndices] at hCount
  refine ⟨t, (hRuns t).mpr rfl, hExit, hCount, ?_, ?_, hY⟩
  · rw [← hTo.1, hCopied 0 (by rw [hIndices]; decide), hFrom.1]
    decide +kernel
  · rw [← hTo.2, hCopied 1 (by rw [hIndices]; decide), hFrom.2]
    decide +kernel

end CopyLoop

end Nmos6502
