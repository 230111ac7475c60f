import Nmos6502.Proofs.DataTable
import Nmos6502.Proofs.Parametric

/-! # What a bus is asked to write

A bus behind a journal does what it always does, and the journal shows every write that it has been
asked for, also those that it ignores or puts elsewhere. A step asks for the one write of a store or
of a modified byte, for its pushes, or for none. A run asks for what its steps ask for, one after
the other, and the memory that it leaves is the memory before it with these writes made.
-/

universe u

namespace Nmos6502
set_option autoImplicit false

/-- The instructions that write through the stack pointer, without an address of their own. -/
def Mnemonic.pushes : Mnemonic → Bool
  | pha | php | jsr | brk => true
  | _ => false

theorem Status.pushed_eq (s : Status) : s.pushed = s.toByte ||| 0x30 := by
  obtain ⟨c, z, i, d, b, u, v, n⟩ := s
  revert c z i d b u v n
  decide

theorem Bus.KeepsBytes.exists_mem_of_touches {M : Type u} [Bus M] (hKeeps : Bus.KeepsBytes M)
    {writes : List (UInt16 × UInt8)} {memory : M} {address : UInt16}
    (hTouches : Bus.Touches writes memory address) : ∃ byte, (address, byte) ∈ writes := by
  obtain ⟨before, ⟨written, byte⟩, after, rfl, hChanged⟩ := hTouches
  have hWritten : written = address := by
    apply Decidable.byContradiction
    intro hNe
    exact hChanged ((hKeeps.read_write _ written byte address).trans (if_neg hNe))
  exact ⟨byte, hWritten ▸ List.mem_append_cons_self⟩

namespace Journalled

variable {M : Type u} [Bus M]

theorem journal_writeEach (writes : List (UInt16 × UInt8)) (memory : Journalled M) :
    (Bus.writeEach writes memory).journal.toList = memory.journal.toList ++ writes := by
  induction writes generalizing memory with
  | nil => exact (List.append_nil _).symm
  | cons head rest ih =>
    calc (Bus.writeEach rest (Bus.write memory head.1 head.2)).journal.toList
      _ = (Bus.write memory head.1 head.2).journal.toList ++ rest := ih _
      _ = memory.journal.toList ++ head :: rest := by
        rw [journal_write, Array.toList_push, List.append_assoc, List.singleton_append]

end Journalled

namespace Machine

variable {M : Type u} [Bus M]

/-- The same machine on a bus that starts a journal. -/
def observed (m : Machine M) : Machine (Journalled M) := ⟨m.toProcessor, { bus := m.memory }⟩

/-- Every write that the next step asks the bus for, in order. -/
def observedWrites (m : Machine M) : List (UInt16 × UInt8) :=
  m.observed.step.machine.memory.journal.toList

/-- The instruction asks for one write, at the address that it names before the step. -/
def WritesOnce (m : Machine M) (i : Instruction) (byte : UInt16 → UInt8)
    (writes : List (UInt16 × UInt8)) : Prop :=
  ∃ location, m.resolve i.mode = .address location ∧ writes = [(location, byte location)]

/-- The rules of writing. Stores and pushes take what the registers hold before the step, and what
is modified goes back to where it has been read. -/
def WritesByRule (m : Machine M) (i : Instruction) (writes : List (UInt16 × UInt8)) : Prop :=
  match i.mnemonic with
  | .sta => m.WritesOnce i (fun _ => m.a) writes
  | .stx => m.WritesOnce i (fun _ => m.x) writes
  | .sty => m.WritesOnce i (fun _ => m.y) writes
  | .inc | .dec | .asl | .lsr | .rol | .ror =>
    if i.mode = .accumulator then writes = []
    else m.WritesOnce i (fun location =>
      UInt8.ofNat (i.mnemonic.modified m.p.carry (m.read location).toNat)) writes
  | .pha => writes = [(m.slot 0, m.a)]
  | .php => writes = [(m.slot 0, m.p.toByte ||| 0x30)]
  | .jsr => writes = [(m.slot 0, Word.high (m.pc + 2)), (m.slot (-1), Word.low (m.pc + 2))]
  | .brk => writes = [(m.slot 0, Word.high (m.pc + 2)), (m.slot (-1), Word.low (m.pc + 2)),
      (m.slot (-2), m.p.toByte ||| 0x30)]
  | _ => writes = []

/-! ## The journal of a run -/

omit [Bus M] in
theorem Agree.observed (m : Machine M) :
    Agree (fun memory bus => memory.bus = bus) m.observed m := ⟨rfl, rfl⟩

section Journal

variable {w : Machine (Journalled M)} {m : Machine M}

theorem Agree.journal_step (h : Agree (fun memory bus => memory.bus = bus) w m) :
    w.step.machine.memory.journal.toList = w.memory.journal.toList ++ m.writes := by
  have hWrites := h.writes ((Journalled.simulation M).on fun _ => True) fun _ _ => trivial
  rw [memory_step, Journalled.journal_writeEach, hWrites]

theorem Agree.journal_stepped (h : Agree (fun memory bus => memory.bus = bus) w m) (k : Nat) :
    (w.stepped k).memory.journal.toList =
      w.memory.journal.toList ++ (List.range k).flatMap fun n => (m.stepped n).writes := by
  -- The last step is split off, for the journal grows at its end.
  induction k with
  | zero => exact (List.append_nil _).symm
  | succ k ih =>
    rw [stepped_succ, (h.stepped (Journalled.simulation M) k).journal_step, ih, flatMap_range_succ,
      List.append_assoc]

/-- Clearing a journal forgets what it has recorded, and makes no difference to what it records. -/
theorem journal_stepped_cleared (w : Machine (Journalled M)) (k : Nat) :
    let cleared : Machine (Journalled M) := { w with memory := w.memory.cleared }
    (w.stepped k).memory.journal.toList =
      w.memory.journal.toList ++ (cleared.stepped k).memory.journal.toList := by
  intro cleared
  have hAgree : Agree (fun memory bus => memory.bus = bus) w ⟨w.toProcessor, w.memory.bus⟩ :=
    ⟨rfl, rfl⟩
  have hCleared :
      Agree (fun memory bus => memory.bus = bus) cleared ⟨w.toProcessor, w.memory.bus⟩ := ⟨rfl, rfl⟩
  rw [hAgree.journal_stepped, hCleared.journal_stepped]
  rfl

end Journal

theorem observedWrites_eq (m : Machine M) : m.observedWrites = m.writes := by
  rw [observedWrites, (Agree.observed m).journal_step]
  rfl

theorem memory_stepped (m : Machine M) (k : Nat) : (m.stepped k).memory =
    Bus.writeEach ((List.range k).flatMap fun n => (m.stepped n).writes) m.memory := by
  induction k with
  | zero => rfl
  | succ k ih =>
    rw [stepped_succ, memory_step, ih, flatMap_range_succ, Bus.writeEach_append]

/-! ## The writes of a step -/

theorem writesOnce_of_store {m : Machine M} {i : Instruction} {register : Register}
    (hNext : m.next? = some i) (hOperation : i.mnemonic.operation = .store register) :
    m.WritesOnce i (fun _ => m.get register) m.writes := by
  have hSuits := suits_of_next? hNext
  rw [hOperation] at hSuits
  obtain ⟨location, hAddress⟩ := m.exists_address hSuits
  refine ⟨location, hAddress, ?_⟩
  rw [writes_of_next? hNext, hOperation, hAddress]
  rfl

theorem writes_of_modifies {m : Machine M} {i : Instruction} (hNext : m.next? = some i)
    (hModifies : i.mnemonic.modifies = true) :
    if i.mode = .accumulator then m.writes = []
    else m.WritesOnce i (fun location =>
      UInt8.ofNat (i.mnemonic.modified m.p.carry (m.read location).toNat)) m.writes := by
  have hWrites := writes_of_next? hNext
  rw [m.operationWrites_of_modifies hModifies] at hWrites
  -- The byte goes back through the operand that it has been read through.
  obtain ⟨byte, hByte⟩ := exists_operandByte hNext (Mnemonic.reads_of_modifies hModifies)
  cases hByte with
  | accumulator hMode =>
    rw [if_pos hMode, hWrites, hMode]
    rfl
  | memory hAddress =>
    have hMode : i.mode ≠ .accumulator := by
      intro hMode
      rw [hMode] at hAddress
      cases hAddress
    rw [hAddress] at hWrites
    rw [if_neg hMode]
    exact ⟨_, hAddress, hWrites⟩

theorem writesByRule {m : Machine M} {i : Instruction} (hNext : m.next? = some i) :
    m.WritesByRule i m.writes := by
  have hWrites := writes_of_next? hNext
  have hZero := m.slot_zero
  obtain ⟨opcode, mnemonic, mode⟩ := i
  cases mnemonic with
  | sta | stx | sty => exact writesOnce_of_store hNext rfl
  | inc | dec | asl | lsr | rol | ror => exact writes_of_modifies hNext rfl
  | pha =>
    rw [WritesByRule, hWrites, hZero]
    rfl
  | php =>
    rw [WritesByRule, hWrites, hZero, ← Status.pushed_eq]
    rfl
  | jsr =>
    rw [WritesByRule, hWrites, hZero, slot_minus_one]
    rfl
  | brk =>
    rw [WritesByRule, hWrites, hZero, slot_minus_one, slot_minus_two, ← Status.pushed_eq]
    rfl
  | _ => exact hWrites

theorem writes_of_pushes {m : Machine M} {i : Instruction} (hNext : m.next? = some i)
    (hPushes : i.mnemonic.pushes = true) :
    m.writes = Word.pushWrites m.sp (m.pushedBytes i.mnemonic.operation) := by
  rw [writes_of_next? hNext]
  obtain ⟨opcode, mnemonic, mode⟩ := i
  cases mnemonic with
  | pha | php | jsr | brk => rfl
  | _ => cases hPushes

/-- The bus-write trace. What a journal records of a step is what the rule of its instruction says,
and nothing if no instruction is executed; pushes never leave page one. What it records of a run
are the writes of its steps in order. These make the memory that the run leaves: where it reads
differently from before, one of them has changed it. -/
theorem bus_write_trace (M : Type u) [Bus M] (m : Machine M) :
    (∀ i : Instruction, m.next? = some i → m.WritesByRule i m.observedWrites ∧
      (i.mnemonic.pushes = true →
        ∀ entry ∈ m.observedWrites, 0x0100 ≤ entry.1 ∧ entry.1 ≤ 0x01FF)) ∧
    (m.state = .halted ∨ Instruction.decode (m.read m.pc) = none → m.observedWrites = []) ∧
    ∀ k : Nat,
      let trace := (List.range k).flatMap fun n => (m.stepped n).observedWrites
      (m.runFor k).machine = m.stepped k ∧
      (∀ t, m.run k = some t → t.machine = m.stepped k) ∧
      Agree (fun memory bus => memory.bus = bus) (m.observed.stepped k) (m.stepped k) ∧
      (m.observed.stepped k).memory.journal.toList = trace ∧
      (m.stepped k).memory = Bus.writeEach trace m.memory ∧
      ∀ address, (m.stepped k).read address ≠ m.read address →
        Bus.Touches trace m.memory address ∧
        (Bus.KeepsBytes M → ∃ byte, (address, byte) ∈ trace) := by
  simp only [observedWrites_eq]
  refine ⟨fun i hNext => ⟨writesByRule hNext, fun hPushes entry hMem => ?_⟩, fun hIdle => ?_,
    fun k => ⟨(runFor_leaves k m).1, fun t hRun => ?_, ?_, (Agree.observed m).journal_stepped k,
      m.memory_stepped k, fun address hChanged => ?_⟩⟩
  · rw [writes_of_pushes hNext hPushes] at hMem
    exact Word.mem_pageOne_of_mem_pushWrites hMem
  · rw [writes, m.next?_eq_none_iff.mpr hIdle]
  · rw [run_eq] at hRun
    rw [← ended?_eq_some hRun, (runFor_leaves k m).1]
  · exact (Agree.observed m).stepped (Journalled.simulation M) k
  · rw [read, memory_stepped] at hChanged
    have hTouches := Bus.touches_of_read_ne hChanged
    exact ⟨hTouches, fun hKeeps => hKeeps.exists_mem_of_touches hTouches⟩

/-- The address that this increment names is the mirror image of the place where it is written down.
The write goes to the address as named before the step, once. -/
theorem bus_write_trace_of_aliased :
    let m : Machine Board :=
      powerOn .standard (Bus.writeAll 0 [0xEE, 0x01, 0x01] { lines := 0xFF })
    m.next? = some ⟨0xEE, .inc, .absolute⟩ ∧ m.observedWrites = [(0x0101, 0x02)] ∧
      (m.runFor 1).machine.memory = Bus.write m.memory 0x0101 0x02 := by
  intro m
  have hNext : m.next? = some ⟨0xEE, .inc, .absolute⟩ := by decide +kernel
  have hNamed : m.resolve .absolute = .address 0x0101 := by decide +kernel
  have hResult : UInt8.ofNat (Mnemonic.inc.modified m.p.carry (m.read 0x0101).toNat) = 0x02 := by
    rw [show m.read 0x0101 = 0x01 by decide +kernel]
    rfl
  obtain ⟨hRule, -, hRun⟩ := bus_write_trace Board m
  obtain ⟨location, hAddress, hRuled⟩ := (hRule _ hNext).1
  cases hAddress.symm.trans hNamed
  have hWrites : m.observedWrites = [(0x0101, 0x02)] :=
    hRuled.trans (congrArg (fun byte => [(0x0101, byte)]) hResult)
  obtain ⟨hMachine, -, -, -, hMemory, -⟩ := hRun 1
  have hTrace : (List.range 1).flatMap (fun n => (m.stepped n).observedWrites) =
      [(0x0101, 0x02)] := (List.flatMap_singleton _ 0).trans hWrites
  rw [hTrace] at hMemory
  exact ⟨hNext, hWrites, (congrArg Machine.memory hMachine).trans hMemory⟩

end Machine

end Nmos6502
