import Nmos6502.Proofs.Image
import Nmos6502.Proofs.Retired

/-! # Straight-line programs

A program without control flow is the encodings of its instructions, one behind the other, and a BRK
at the end. While no step writes into the image of the program, decoding keeps in step with the
encoding: each instruction is fetched from where it was put, takes its operand from its own bytes,
and goes on behind itself, until the BRK halts the machine.
-/

universe u

namespace Nmos6502
set_option autoImplicit false

/-- A line of a straight-line program: a documented instruction outside of control flow, with as many
operand bytes as its mode requires. -/
structure Line where
  instruction : Instruction
  operands : List UInt8
  documented : instruction ∈ Instruction.documented
  straight : instruction.mnemonic.isControlFlow = false
  complete : operands.length = instruction.mode.operandBytes

namespace Line

def bytes (line : Line) : List UInt8 := line.instruction.opcode :: line.operands

def encode (lines : List Line) : List UInt8 := lines.flatMap bytes

/-- The image of a program: its lines and a BRK. -/
def image (lines : List Line) : List UInt8 := encode lines ++ [0x00]

theorem length_bytes (line : Line) : line.bytes.length = line.instruction.length := by
  rw [bytes, List.length_cons, line.complete, Nat.add_comm]
  rfl

theorem encode_take_succ {lines : List Line} {k : Nat} (hk : k < lines.length) :
    encode (lines.take (k + 1)) = encode (lines.take k) ++ lines[k].bytes := by
  rw [List.take_succ_eq_append_getElem hk, encode, encode, List.flatMap_append]
  simp only [List.flatMap_cons, List.flatMap_nil, List.append_nil]

theorem encode_take_append_drop (lines : List Line) (k : Nat) :
    encode (lines.take k) ++ encode (lines.drop k) = encode lines := by
  rw [encode, encode, encode, ← List.flatMap_append, List.take_append_drop]

/-- The image around line `k`. -/
theorem exists_image_eq {lines : List Line} {k : Nat} (hk : k < lines.length) :
    ∃ rest, image lines = encode (lines.take k) ++ (lines[k].bytes ++ rest) := by
  refine ⟨encode (lines.drop (k + 1)) ++ [0x00], ?_⟩
  rw [image, ← encode_take_append_drop lines (k + 1), encode_take_succ hk]
  simp only [List.append_assoc]

theorem length_encode_take_lt (lines : List Line) (k : Nat) :
    (encode (lines.take k)).length < (image lines).length := by
  have hSplit := congrArg List.length (encode_take_append_drop lines k)
  rw [List.length_append] at hSplit
  rw [image, List.length_append, List.length_singleton]
  omega

theorem length_le_encode (lines : List Line) : lines.length ≤ (encode lines).length := by
  induction lines with
  | nil => exact Nat.le_refl 0
  | cons line rest ih =>
    have hLine : 1 ≤ line.bytes.length := Nat.le_add_left 1 _
    rw [encode, List.flatMap_cons, List.length_append, ← encode, List.length_cons]
    omega

end Line

namespace Machine

section Operands

variable {M : Type u} [Bus M]

/-- What `bytes` mean as the operand bytes behind the opcode at the program counter. -/
def operandOf (m : Machine M) (mode : Mode) (bytes : List UInt8) : Operand :=
  let byte := bytes.headD 0
  let word := Word.ofBytes byte (bytes.tail.headD 0)
  match mode with
  | .implicit => .none
  | .accumulator => .accumulator
  | .immediate => .address (m.pc + 1)
  | .zeroPage => .address byte.toUInt16
  | .zeroPageX => .address (byte + m.x).toUInt16
  | .zeroPageY => .address (byte + m.y).toUInt16
  | .relative => .relative byte.toInt8
  | .absolute => .address word
  | .absoluteX => .address (word + m.x.toUInt16)
  | .absoluteY => .address (word + m.y.toUInt16)
  | .indirect => .address (m.readWordInPage word)
  | .indirectX => .address (m.readWordInPage (byte + m.x).toUInt16)
  | .indirectY => .address (m.readWordInPage byte.toUInt16 + m.y.toUInt16)

end Operands

theorem resolve_eq_operandOf {m : Machine Ram} {mode : Mode} {bytes : List UInt8}
    (hComplete : bytes.length = mode.operandBytes) (hHolds : m.memory.Holds (m.pc + 1) bytes) :
    m.resolve mode = m.operandOf mode bytes := by
  have hByte (byte : UInt8) (rest : List UInt8) (hBytes : bytes = byte :: rest) :
      m.read (m.pc + 1) = byte := by
    rw [hBytes, Ram.holds_cons] at hHolds
    exact hHolds.1
  have hWord (low high : UInt8) (hBytes : bytes = [low, high]) :
      m.readWord (m.pc + 1) = Word.ofBytes low high := by
    rw [hBytes, Ram.holds_cons, Ram.holds_cons] at hHolds
    obtain ⟨hLow, hHigh, -⟩ := hHolds
    change Word.ofBytes (m.memory.read (m.pc + 1)) (m.memory.read (m.pc + 1 + 1)) = _
    rw [hLow, hHigh]
  cases mode with
  | implicit | accumulator | immediate => rfl
  | zeroPage | zeroPageX | zeroPageY | relative | indirectX | indirectY =>
    obtain ⟨byte, rfl⟩ := List.length_eq_one_iff.mp hComplete
    simp only [resolve, operandOf, hByte byte [] rfl, List.headD_cons]
  | absolute | absoluteX | absoluteY | indirect =>
    obtain ⟨low, rest, rfl⟩ := List.exists_cons_of_length_eq_add_one hComplete
    obtain ⟨high, rfl⟩ := List.length_eq_one_iff.mp (Nat.succ.inj hComplete)
    simp only [resolve, operandOf, hWord low high rfl, List.headD_cons, List.tail_cons]

/-- A running machine in front of an encoding is about to execute what it encodes. -/
theorem next?_of_holds {m : Machine Ram} {i : Instruction} {operands : List UInt8}
    (hRunning : m.state = .running) (hDocumented : i ∈ Instruction.documented)
    (hHolds : m.memory.Holds m.pc (i.opcode :: operands)) : m.next? = some i := by
  rw [Ram.holds_cons] at hHolds
  have hOpcode : m.read m.pc = i.opcode := hHolds.1
  rw [next?_eq_some_iff, hOpcode]
  exact ⟨hRunning, (Instruction.decode_eq_some_iff _ _).mpr ⟨hDocumented, rfl⟩⟩

/-! ## In step with the encoding -/

/-- The machine runs with the image at `origin` intact, and is about to execute line `k`, or the BRK
when there is no such line. -/
structure AtLine (lines : List Line) (origin : UInt16) (k : Nat) (m : Machine Ram) : Prop where
  running : m.state = .running
  pc : m.pc = origin + UInt16.ofNat (Line.encode (lines.take k)).length
  image : m.memory.Holds origin (Line.image lines)

end Machine

/-- The write stays off the image of the program. -/
def Line.Spares (lines : List Line) (origin : UInt16) (write : UInt16 × UInt8) : Prop :=
  write.1.toNat < origin.toNat ∨ origin.toNat + (image lines).length ≤ write.1.toNat

namespace Machine.AtLine

variable {lines : List Line} {origin : UInt16} {k : Nat} {m : Machine Ram}

theorem toNat_pc (h : AtLine lines origin k m)
    (hFits : origin.toNat + (Line.image lines).length ≤ 0x10000) :
    m.pc.toNat = origin.toNat + (Line.encode (lines.take k)).length := by
  have hWithin := Line.length_encode_take_lt lines k
  rw [h.pc, Word.toNat_add_ofNat (by omega)]

theorem holds_line (h : AtLine lines origin k m) (hk : k < lines.length) :
    m.memory.Holds m.pc lines[k].bytes := by
  obtain ⟨rest, hImage⟩ := Line.exists_image_eq hk
  have hHolds := h.image
  rw [hImage, Ram.holds_append, ← h.pc, Ram.holds_append] at hHolds
  exact hHolds.2.1

theorem next?_eq (h : AtLine lines origin k m) (hk : k < lines.length) :
    m.next? = some lines[k].instruction :=
  next?_of_holds h.running lines[k].documented (h.holds_line hk)

theorem resolve_eq (h : AtLine lines origin k m) (hk : k < lines.length) :
    m.resolve lines[k].instruction.mode =
      m.operandOf lines[k].instruction.mode lines[k].operands := by
  have hLine := h.holds_line hk
  rw [Line.bytes, Ram.holds_cons] at hLine
  exact resolve_eq_operandOf lines[k].complete hLine.2

theorem next?_brk (h : AtLine lines origin lines.length m) :
    m.next? = some ⟨0x00, .brk, .implicit⟩ := by
  have hHolds := h.image
  have hPc := h.pc
  rw [List.take_length] at hPc
  rw [Line.image, Ram.holds_append, ← hPc] at hHolds
  exact next?_of_holds h.running (by decide) hHolds.2

theorem step (h : AtLine lines origin k m) (hk : k < lines.length)
    (hFits : origin.toNat + (Line.image lines).length ≤ 0x10000)
    (hSpares : ∀ write ∈ m.writes, Line.Spares lines origin write) :
    AtLine lines origin (k + 1) m.step.machine := by
  obtain ⟨-, hRunning, hPc⟩ := step_of_straight (h.next?_eq hk) lines[k].straight
  refine ⟨hRunning, ?_, ?_⟩
  · rw [hPc, h.pc, Line.encode_take_succ hk, List.length_append, lines[k].length_bytes,
      UInt16.ofNat_add, UInt16.add_assoc]
  · rw [memory_step]
    exact h.image.writeEach hFits hSpares

theorem stepped {start : Machine Ram} (h : AtLine lines origin 0 start)
    (hFits : origin.toNat + (Line.image lines).length ≤ 0x10000)
    (hSpares : ∀ k < lines.length, ∀ write ∈ (start.stepped k).writes,
      Line.Spares lines origin write) :
    ∀ k ≤ lines.length, AtLine lines origin k (start.stepped k) := by
  intro k hk
  induction k with
  | zero => exact h
  | succ k ih =>
    rw [stepped_succ]
    exact (ih (Nat.le_of_succ_le hk)).step hk hFits (hSpares k hk)

/-- The BRK behind the last line ends the run. -/
theorem halts {start : Machine Ram}
    (hLines : ∀ k ≤ lines.length, AtLine lines origin k (start.stepped k))
    (hBrk : start.config.haltOnBrk = true) : start.HaltsAfter (lines.length + 1) := by
  have hLast := (hLines lines.length (Nat.le_refl _)).next?_brk
  refine ⟨?_, fun j hj => (hLines j (Nat.le_of_lt_succ hj)).running⟩
  rw [stepped_succ]
  exact halted_of_brk hLast rfl (by rw [config_stepped, hBrk])

end AtLine

theorem atLine_of_load {m : Machine Ram} {lines : List Line} {origin : UInt16}
    (hFits : origin.toNat + (Line.image lines).length ≤ 0x10000) :
    AtLine lines origin 0 (m.load (Line.image lines) origin).machine := by
  rw [load, if_pos hFits]
  exact ⟨rfl, (UInt16.add_zero origin).symm, Ram.holds_writeAll hFits m.memory⟩

theorem load_of_fits {m : Machine Ram} {image : List UInt8} {origin : UInt16}
    (hFits : origin.toNat + image.length ≤ 0x10000) :
    let t := m.load image origin
    t.result = .ok () ∧ t.machine.haltCause = none ∧ t.machine.config = m.config ∧
      t.machine.retired = m.retired := by
  rw [load, if_pos hFits]
  exact ⟨rfl, rfl, rfl, rfl⟩

/-- A run that a BRK ends after `count` further instructions has retired that many and the BRK. -/
theorem runsTo_of_brk {start : Machine Ram} (hCause : start.NoStaleCause) {count : Nat}
    {i : Instruction} (hHalts : start.HaltsAfter (count + 1))
    (hNext : (start.stepped count).next? = some i) :
    ∃ t, (∀ other, start.RunsTo other ↔ other = t) ∧ t.result = .ok .brk ∧
      t.machine = start.stepped (count + 1) ∧
      t.machine.retired = start.retired + UInt64.ofNat (count + 1) := by
  have hRunning := hHalts.running count (Nat.lt_succ_self count)
  have hNone : (start.stepped (count + 1)).haltCause = none := by
    rw [stepped_succ, step_of_next? hNext, stepDocumented_haltCause]
    exact hCause.stepped count hRunning
  refine ⟨⟨_, _, start.stepEvents (count + 1)⟩, ?_, haltedExit_of_none hNone, rfl, ?_⟩
  · intro other
    constructor
    · rintro ⟨fuel, hRun⟩
      exact ((run_eq_some_iff hCause hHalts fuel other).mp hRun).2
    · intro hOther
      exact ⟨count + 1, (run_eq_some_iff hCause hHalts _ other).mpr ⟨Nat.le_refl _, hOther⟩⟩
  · have hRetires : (start.stepped count).retires = true := by
      rw [retires, hNext]
      rfl
    change (start.stepped (count + 1)).retired = _
    rw [stepped_succ, retired_step, if_pos hRetires, retired_of_running hRunning,
      UInt64.ofNat_add, UInt64.add_assoc]
    rfl

/-- A straight-line program executes in sequence. Once it is loaded, at an origin where it fits with
its BRK and on a machine in whatever state, and as long as no step before the BRK writes into its
image, each line is fetched from behind the encodings of all lines before it and resolves its
operand from its own operand bytes. The image is intact when the BRK is reached, and the unbounded
run ends there, after one instruction for each line and the BRK. -/
theorem straight_line_in_sequence {m : Machine Ram} {lines : List Line} {origin : UInt16}
    (hFits : origin.toNat + (Line.image lines).length ≤ 0x10000)
    (hBrk : m.config.haltOnBrk = true)
    (hSpares : ∀ k < lines.length,
      ∀ write ∈ ((m.load (Line.image lines) origin).machine.stepped k).writes,
        Line.Spares lines origin write) :
    let start := (m.load (Line.image lines) origin).machine
    (m.load (Line.image lines) origin).result = .ok () ∧
    (∀ k (hk : k < lines.length),
      let n := start.stepped k
      let i := lines[k].instruction
      n.pc.toNat = origin.toNat + (Line.encode (lines.take k)).length ∧
      n.memory.Holds n.pc lines[k].bytes ∧ n.next? = some i ∧
      n.resolve i.mode = n.operandOf i.mode lines[k].operands ∧
      n.step.result = .ok .running) ∧
    (∀ k ≤ lines.length, (start.stepped k).memory.Holds origin (Line.image lines)) ∧
    ∃ t, (∀ other, start.RunsTo other ↔ other = t) ∧ t.result = .ok .brk ∧
      t.machine = start.stepped (lines.length + 1) ∧
      (t.machine.retired - m.retired).toNat = lines.length + 1 := by
  intro start
  obtain ⟨hResult, hCause, hConfig, hRetired⟩ := load_of_fits (m := m) hFits
  have hLines := (atLine_of_load (m := m) hFits).stepped hFits hSpares
  refine ⟨hResult, fun k hk => ?_, fun k hk => (hLines k hk).image, ?_⟩
  · have hLine := hLines k (Nat.le_of_lt hk)
    exact ⟨hLine.toNat_pc hFits, hLine.holds_line hk, hLine.next?_eq hk, hLine.resolve_eq hk,
      (step_of_straight (hLine.next?_eq hk) lines[k].straight).1⟩
  · have hLast := (hLines lines.length (Nat.le_refl _)).next?_brk
    have hHalts := AtLine.halts hLines (by rw [hConfig, hBrk])
    obtain ⟨t, hRuns, hExit, hMachine, hCount⟩ := runsTo_of_brk (fun _ => hCause) hHalts hLast
    refine ⟨t, hRuns, hExit, hMachine, ?_⟩
    have hLength := Line.length_le_encode lines
    have hWithin := Line.length_encode_take_lt lines lines.length
    rw [List.take_length] at hWithin
    have hShort : lines.length + 1 ≤ 0x10000 := by omega
    rw [hCount, hRetired, UInt64.add_comm, UInt64.add_sub_cancel]
    exact UInt64.toNat_ofNat_of_lt' (Nat.lt_of_le_of_lt hShort (by decide))

/-- Loading a byte and storing it below the program, in an image that ends at the last address. -/
theorem straight_line_in_sequence_to_last_address :
    let lines : List Line :=
      [⟨⟨0xA9, .lda, .immediate⟩, [0x2A], by decide +kernel, by decide, by decide⟩,
        ⟨⟨0x8D, .sta, .absolute⟩, [0x00, 0x03], by decide +kernel, by decide, by decide⟩]
    let start := ((powerOn .standard Ram.zeroed).load (Line.image lines) 0xFFFA).machine
    Line.image lines = [0xA9, 0x2A, 0x8D, 0x00, 0x03, 0x00] ∧
      (start.stepped 1).pc.toNat = 0xFFFC ∧
      (start.stepped 1).resolve .absolute = .address 0x0300 ∧
      ∃ t, start.RunsTo t ∧ t.result = .ok .brk ∧ t.machine.retired.toNat = 3 := by
  intro lines start
  have hFits : (0xFFFA : UInt16).toNat + (Line.image lines).length ≤ 0x10000 := by decide
  have hLoad : AtLine lines 0xFFFA 0 (start.stepped 0) := atLine_of_load hFits
  have hNone : (start.stepped 0).writes = [] := by
    rw [writes, hLoad.next?_eq (by decide)]
    rfl
  have hStore : AtLine lines 0xFFFA 1 (start.stepped 1) := by
    rw [stepped_succ 0]
    apply hLoad.step (by decide) hFits
    rw [hNone]
    intro write hMem
    cases hMem
  have hTarget : (start.stepped 1).resolve .absolute = .address 0x0300 :=
    hStore.resolve_eq (by decide)
  have hPut (n : Machine Ram) : n.operationWrites (.store .a) (.address 0x0300) = [(0x0300, n.a)] :=
    rfl
  have hWrite : (start.stepped 1).writes = [(0x0300, (start.stepped 1).a)] := by
    rw [writes, hStore.next?_eq (by decide)]
    change operationWrites _ (.store .a) ((start.stepped 1).resolve .absolute) = _
    rw [hTarget, hPut]
  have hSpares (k : Nat) (hk : k < 2) :
      ∀ write ∈ (start.stepped k).writes, Line.Spares lines 0xFFFA write := by
    intro write hMem
    obtain rfl | rfl : k = 0 ∨ k = 1 := by omega
    · rw [hNone] at hMem
      cases hMem
    · rw [hWrite] at hMem
      rw [List.mem_singleton.mp hMem]
      exact .inl (by decide)
  obtain ⟨-, hSteps, -, t, hRuns, hExit, -, hCount⟩ :=
    straight_line_in_sequence (m := powerOn .standard Ram.zeroed) hFits rfl hSpares
  obtain ⟨hPc, -⟩ := hSteps 1 (by decide)
  have hStart : ((powerOn .standard Ram.zeroed).load (Line.image lines) 0xFFFA).machine = start :=
    rfl
  rw [hStart] at hPc hRuns
  have hBehind : (0xFFFA : UInt16).toNat + (Line.encode (lines.take 1)).length = 0xFFFC := by
    decide
  have hZero : (powerOn .standard Ram.zeroed).retired = 0 := rfl
  rw [hZero, UInt64.sub_zero] at hCount
  exact ⟨by decide, hPc.trans hBehind, hTarget, t, (hRuns t).mpr rfl, hExit, hCount⟩

end Machine

end Nmos6502
