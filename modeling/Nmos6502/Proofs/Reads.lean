import Nmos6502.Proofs.Stack

/-! # What a step reads

The bytes that a step reads are known before it starts: the opcode, the operand bytes and pointer
of its mode, the byte it works on, the slots it pulls, and the vector of BRK. Two machines that
differ in their memories alone, and there not on these bytes, take the same step. That is proved
for any two buses under a relation that writes preserve and that fixes what is read on a given set
of addresses, so the memories that a step leaves are related again.
-/

universe u v

namespace Nmos6502
set_option autoImplicit false

/-- Related memories read alike on the addresses of `F`, and stay related when written alike. -/
structure Bus.SimulationOn {M : Type u} {N : Type v} [Bus M] [Bus N] (F : UInt16 → Prop)
    (R : M → N → Prop) : Prop where
  read : ∀ a b, R a b → ∀ address, F address → Bus.read a address = Bus.read b address
  write : ∀ a b, R a b → ∀ address byte, R (Bus.write a address byte) (Bus.write b address byte)

/-- The operations that look at the byte they are aimed at; a store or a jump only takes aim. -/
def Operation.readsOperand : Operation → Bool
  | load _ | logic _ | add | subtract | compare _ | testBits | shift _ | increment | decrement =>
    true
  | _ => false

def Operation.vector : Operation → List UInt16
  | interrupt => [0xFFFE, 0xFFFF]
  | _ => []

def Operand.addresses : Operand → List UInt16
  | .address location => [location]
  | .none | .accumulator | .relative _ => []

/-- The slots of pulling `count` bytes. -/
def Word.pullSlots (sp : UInt8) : Nat → List UInt16
  | 0 => []
  | count + 1 => stackSlot (sp + 1) :: pullSlots (sp + 1) count

namespace Machine

section Footprint

variable {M : Type u} [Bus M]

/-- Where the pointer of an indirect mode lies; neither kind of pointer leaves its page. -/
def pointer (m : Machine M) : Mode → List UInt16
  | .indirect =>
    let location := m.readWord (m.pc + 1)
    [location, Word.nextInPage location]
  | .indirectX =>
    let offset := m.read (m.pc + 1) + m.x
    [offset.toUInt16, (offset + 1).toUInt16]
  | .indirectY =>
    let offset := m.read (m.pc + 1)
    [offset.toUInt16, (offset + 1).toUInt16]
  | _ => []

def resolveReads (m : Machine M) (mode : Mode) : List UInt16 :=
  [m.pc + 1, m.pc + 2].take mode.operandBytes ++ m.pointer mode

def executeReads (m : Machine M) (operation : Operation) (operand : Operand) : List UInt16 :=
  (if operation.readsOperand then operand.addresses else []) ++
    Word.pullSlots m.sp operation.pulls ++ operation.vector

/-- The addresses that the next step reads. -/
def footprint (m : Machine M) : List UInt16 :=
  m.pc ::
    match Instruction.decode (m.read m.pc) with
    | some i => m.resolveReads i.mode ++ m.executeReads i.mnemonic.operation (m.resolve i.mode)
    | none => []

theorem forall_of_footprint {m : Machine M} {i : Instruction} {F : UInt16 → Prop}
    (hDecode : Instruction.decode (m.read m.pc) = some i)
    (hF : ∀ address ∈ m.footprint, F address) :
    ∀ address ∈ m.resolveReads i.mode ++
      m.executeReads i.mnemonic.operation (m.resolve i.mode), F address := by
  intro address hMem
  apply hF
  rw [footprint, hDecode]
  exact List.mem_cons_of_mem _ hMem

end Footprint

section Agreement

variable {M : Type u} {N : Type v}

/-- The machines have the same processor, and related memories. -/
structure Agree (R : M → N → Prop) (m : Machine M) (n : Machine N) : Prop where
  processor : m.toProcessor = n.toProcessor
  memory : R m.memory n.memory

end Agreement

end Machine

/-- The transitions end in machines that agree, with the same result and the same events. -/
structure Transition.Agree {M : Type u} {N : Type v} {α : Type} (R : M → N → Prop)
    (t : Transition M α) (u : Transition N α) : Prop where
  machine : Machine.Agree R t.machine u.machine
  result : t.result = u.result
  events : t.events = u.events

namespace Machine.Agree

variable {M : Type u} {N : Type v} [Bus M] [Bus N] {F : UInt16 → Prop} {R : M → N → Prop}
variable {m : Machine M} {n : Machine N}

omit [Bus M] [Bus N] in
theorem exists_eq (h : Agree R m n) :
    ∃ c a b, m = ⟨c, a⟩ ∧ n = ⟨c, b⟩ ∧ R a b :=
  ⟨n.toProcessor, m.memory, n.memory, by rw [← h.processor], rfl, h.memory⟩

omit [Bus M] [Bus N] in
theorem pc (h : Agree R m n) : m.pc = n.pc := congrArg Processor.pc h.processor

omit [Bus M] [Bus N] in
theorem state (h : Agree R m n) : m.state = n.state := congrArg Processor.state h.processor

/-! ## Reading -/

theorem read (h : Agree R m n) (hR : Bus.SimulationOn F R) (address : UInt16) (hF : F address) :
    m.read address = n.read address := hR.read _ _ h.memory address hF

theorem readWord (h : Agree R m n) (hR : Bus.SimulationOn F R) (address : UInt16)
    (hLow : F address) (hHigh : F (address + 1)) : m.readWord address = n.readWord address := by
  rw [Machine.readWord, Machine.readWord, h.read hR _ hLow, h.read hR _ hHigh]

theorem readWordInPage (h : Agree R m n) (hR : Bus.SimulationOn F R) (address : UInt16)
    (hLow : F address) (hHigh : F (Word.nextInPage address)) :
    m.readWordInPage address = n.readWordInPage address := by
  rw [Machine.readWordInPage, Machine.readWordInPage, h.read hR _ hLow, h.read hR _ hHigh]

theorem readOperand (h : Agree R m n) (hR : Bus.SimulationOn F R) {operand : Operand}
    (hF : ∀ address ∈ operand.addresses, F address) :
    m.readOperand operand = n.readOperand operand := by
  cases operand with
  | address location => exact h.read hR location (hF location List.mem_cons_self)
  | accumulator => exact congrArg Processor.a h.processor
  | none => rfl
  | relative offset => rfl

theorem operandByte (h : Agree R m n) (hR : Bus.SimulationOn F R) {operation : Operation}
    {operand : Operand} (hF : ∀ address ∈ m.executeReads operation operand, F address)
    (hReads : operation.readsOperand = true) : m.readOperand operand = n.readOperand operand := by
  rw [executeReads, if_pos hReads, List.append_assoc, List.forall_mem_append] at hF
  exact h.readOperand hR hF.1

theorem resolve (h : Agree R m n) (hR : Bus.SimulationOn F R) {mode : Mode}
    (hF : ∀ address ∈ m.resolveReads mode, F address) : m.resolve mode = n.resolve mode := by
  obtain ⟨c, a, b, rfl, rfl, -⟩ := h.exists_eq
  have hNext : c.pc + 1 + 1 = c.pc + 2 := UInt16.add_assoc c.pc 1 1
  -- One operand byte, or a word of them, read alike before a mode makes its own use of them.
  have hByte (hFirst : F (c.pc + 1)) := h.read hR _ hFirst
  have hWord (hFirst : F (c.pc + 1)) (hSecond : F (c.pc + 2)) :=
    h.readWord hR _ hFirst (hNext ▸ hSecond)
  cases mode with
  | implicit | accumulator | immediate => rfl
  | zeroPage | zeroPageX | zeroPageY | relative =>
    simp only [Machine.resolve, hByte (hF _ List.mem_cons_self)]
  | absolute | absoluteX | absoluteY =>
    simp only [Machine.resolve,
      hWord (hF _ List.mem_cons_self) (hF _ (List.mem_cons_of_mem _ List.mem_cons_self))]
  | indirect =>
    change ∀ address ∈ [c.pc + 1, c.pc + 2, _, _], F address at hF
    simp only [List.forall_mem_cons] at hF
    obtain ⟨hFirst, hSecond, hLow, hHigh, -⟩ := hF
    have hPointer := h.readWordInPage hR _ hLow hHigh
    simp only [Machine.resolve, ← hWord hFirst hSecond, hPointer]
  | indirectX =>
    change ∀ address ∈ [c.pc + 1, _, _], F address at hF
    simp only [List.forall_mem_cons, ← Word.nextInPage_toUInt16] at hF
    obtain ⟨hFirst, hLow, hHigh, -⟩ := hF
    have hPointer := h.readWordInPage hR _ hLow hHigh
    simp only [Machine.resolve, ← hByte hFirst, hPointer]
  | indirectY =>
    change ∀ address ∈ [c.pc + 1, _, _], F address at hF
    simp only [List.forall_mem_cons, ← Word.nextInPage_toUInt16] at hF
    obtain ⟨hFirst, hLow, hHigh, -⟩ := hF
    have hPointer := h.readWordInPage hR _ hLow hHigh
    simp only [Machine.resolve, ← hByte hFirst, hPointer]

/-! ## Changing -/

omit [Bus M] [Bus N] in
theorem update (h : Agree R m n) (f : Processor → Processor) :
    Agree R ⟨f m.toProcessor, m.memory⟩ ⟨f n.toProcessor, n.memory⟩ :=
  ⟨congrArg f h.processor, h.memory⟩

omit [Bus M] [Bus N] in
theorem get (h : Agree R m n) (register : Register) : m.get register = n.get register := by
  obtain ⟨c, a, b, rfl, rfl, -⟩ := h.exists_eq
  rfl

omit [Bus M] [Bus N] in
theorem put (h : Agree R m n) (register : Register) (value : UInt8) :
    Agree R (m.put register value) (n.put register value) := by
  cases register with
  | a => exact h.update fun c => { c with a := value }
  | x => exact h.update fun c => { c with x := value }
  | y => exact h.update fun c => { c with y := value }
  | sp => exact h.update fun c => { c with sp := value }

omit [Bus M] [Bus N] in
theorem deliver (h : Agree R m n) (register : Register) (result : UInt8) :
    Agree R (m.deliver register result) (n.deliver register result) :=
  (h.put register result).update fun c => { c with p := c.p.describing result }

theorem write (h : Agree R m n) (hR : Bus.SimulationOn F R) (address : UInt16) (byte : UInt8) :
    Agree R (m.write address byte) (n.write address byte) :=
  ⟨h.processor, hR.write _ _ h.memory address byte⟩

theorem writeOperand (h : Agree R m n) (hR : Bus.SimulationOn F R) (operand : Operand)
    (byte : UInt8) : Agree R (m.writeOperand operand byte) (n.writeOperand operand byte) := by
  cases operand with
  | accumulator => exact h.update fun c => { c with a := byte }
  | address location => exact h.write hR location byte
  | none => exact h
  | relative offset => exact h

theorem push (h : Agree R m n) (hR : Bus.SimulationOn F R) (byte : UInt8) :
    Agree R (m.push byte) (n.push byte) := by
  obtain ⟨c, a, b, rfl, rfl, -⟩ := h.exists_eq
  exact (h.write hR (Word.stackSlot c.sp) byte).update fun c => { c with sp := c.sp - 1 }

theorem pushWord (h : Agree R m n) (hR : Bus.SimulationOn F R) (word : UInt16) :
    Agree R (m.pushWord word) (n.pushWord word) := (h.push hR _).push hR _

theorem pull (h : Agree R m n) (hR : Bus.SimulationOn F R)
    (hF : F (Word.stackSlot (m.sp + 1))) : m.pull.1 = n.pull.1 ∧ Agree R m.pull.2 n.pull.2 := by
  obtain ⟨c, a, b, rfl, rfl, -⟩ := h.exists_eq
  exact ⟨h.read hR _ hF, h.update fun c => { c with sp := c.sp + 1 }⟩

theorem pullWord (h : Agree R m n) (hR : Bus.SimulationOn F R)
    (hLow : F (Word.stackSlot (m.sp + 1))) (hHigh : F (Word.stackSlot (m.sp + 1 + 1))) :
    m.pullWord.1 = n.pullWord.1 ∧ Agree R m.pullWord.2 n.pullWord.2 := by
  obtain ⟨hFirst, hRest⟩ := h.pull hR hLow
  obtain ⟨hSecond, hEnd⟩ := hRest.pull hR hHigh
  refine ⟨?_, hEnd⟩
  change Word.ofBytes m.pull.1 m.pull.2.pull.1 = Word.ofBytes n.pull.1 n.pull.2.pull.1
  rw [hFirst, hSecond]

omit [Bus M] [Bus N] in
theorem p (h : Agree R m n) : m.p = n.p := congrArg Processor.p h.processor

theorem execute_flow (h : Agree R m n) (operation : Operation) (operand : Operand) :
    (m.execute operation operand).2 = (n.execute operation operand).2 := by
  cases operation with
  | transfer source target => cases target <;> rfl
  | branch flag on =>
    cases operand with
    | relative offset =>
      simp only [Machine.execute, h.p]
      split <;> rfl
    | _ => rfl
  | _ => rfl

theorem execute (h : Agree R m n) (hR : Bus.SimulationOn F R) {operation : Operation}
    {operand : Operand} (hF : ∀ address ∈ m.executeReads operation operand, F address) :
    Agree R (m.execute operation operand).1 (n.execute operation operand).1 := by
  obtain ⟨c, a, b, rfl, rfl, hMemory⟩ := h.exists_eq
  have hByte := h.operandByte hR hF
  cases operation with
  | setFlag flag on | idle | jump => exact ⟨rfl, hMemory⟩
  | add | subtract | testBits | compare register =>
    simp only [Machine.execute, hByte rfl]
    exact ⟨rfl, hMemory⟩
  | load register | logic logic =>
    simp only [Machine.execute, hByte rfl]
    exact h.deliver _ _
  | incrementRegister register | decrementRegister register =>
    simp only [Machine.execute, h.get]
    exact h.deliver _ _
  | transfer source target =>
    cases target with
    | sp => exact h.put .sp _
    | _ => exact h.deliver _ _
  | store register => exact h.write hR _ _
  | increment | decrement =>
    simp only [Machine.execute, hByte rfl]
    exact (h.writeOperand hR _ _).update fun c => { c with p := c.p.describing _ }
  | shift shift =>
    simp only [Machine.execute, hByte rfl]
    generalize shift.apply (Machine.readOperand ⟨c, b⟩ operand) c.p.carry = shifted
    exact (h.writeOperand hR operand shifted.1).update fun c =>
      { c with p := { c.p with carry := shifted.2 }.describing shifted.1 }
  | branch flag on =>
    cases operand with
    | relative offset =>
      simp only [Machine.execute]
      split <;> exact ⟨rfl, hMemory⟩
    | _ => exact h
  | call => exact (h.pushWord hR (c.pc + 2)).update fun c => { c with pc := _ }
  | returnFromCall =>
    obtain ⟨hWord, hPulled⟩ := h.pullWord hR (hF _ List.mem_cons_self)
      (hF _ (List.mem_cons_of_mem _ List.mem_cons_self))
    simp only [Machine.execute, hWord]
    exact hPulled.update fun c => { c with pc := _ }
  | returnFromInterrupt =>
    have hSlots : ∀ address ∈ Word.pullSlots c.sp 3, F address := hF
    simp only [Word.pullSlots, List.forall_mem_cons] at hSlots
    obtain ⟨hFirst, hSecond, hThird, -⟩ := hSlots
    obtain ⟨hStatus, hPulled⟩ := h.pull hR hFirst
    obtain ⟨hWord, hEnd⟩ := hPulled.pullWord hR hSecond hThird
    simp only [Machine.execute, hStatus, hWord]
    exact hEnd.update fun c => { c with p := _, pc := _ }
  | interrupt =>
    have hPushed := (h.pushWord hR (c.pc + 2)).push hR c.p.pushed
    have hVector := hPushed.readWord hR interruptVector
      (hF 0xFFFE List.mem_cons_self) (hF 0xFFFF (List.mem_cons_of_mem _ List.mem_cons_self))
    simp only [Machine.execute, hVector]
    exact hPushed.update fun c => { c with p := { c.p with interruptDisable := true }, pc := _ }
  | pushAccumulator => exact h.push hR c.a
  | pushStatus => exact h.push hR c.p.pushed
  | pullAccumulator =>
    obtain ⟨hPull, hPulled⟩ := h.pull hR (hF _ List.mem_cons_self)
    simp only [Machine.execute, hPull]
    exact hPulled.deliver .a _
  | pullStatus =>
    obtain ⟨hPull, hPulled⟩ := h.pull hR (hF _ List.mem_cons_self)
    simp only [Machine.execute, hPull]
    exact hPulled.update fun c => { c with p := _ }

/-! ## Stepping -/

theorem stepDocumented (h : Agree R m n) (hR : Bus.SimulationOn F R) {i : Instruction}
    (hF : ∀ address ∈ m.resolveReads i.mode ++
      m.executeReads i.mnemonic.operation (m.resolve i.mode), F address) :
    Transition.Agree R (m.stepDocumented i) (n.stepDocumented i) := by
  rw [List.forall_mem_append] at hF
  have hOperand := h.resolve hR hF.1
  have hExecuted := h.execute hR hF.2
  have hFlow := h.execute_flow i.mnemonic.operation (m.resolve i.mode)
  have hPc := h.pc
  cases hM : m.execute i.mnemonic.operation (m.resolve i.mode) with
  | mk after flow =>
    cases hN : n.execute i.mnemonic.operation (m.resolve i.mode) with
    | mk other _ =>
      rw [hM, hN] at hExecuted hFlow
      subst hFlow
      obtain ⟨c, a, b, rfl, rfl, hMemory⟩ := hExecuted.exists_eq
      simp only [Machine.stepDocumented, ← hOperand, hM, hN, hPc]
      cases flow with
      | next => exact ⟨⟨rfl, hMemory⟩, rfl, rfl⟩
      | jump => exact ⟨⟨rfl, hMemory⟩, rfl, rfl⟩
      | brk => cases c.config.haltOnBrk <;> exact ⟨⟨rfl, hMemory⟩, rfl, rfl⟩

omit [Bus M] [Bus N] in
theorem stepUndocumented (h : Agree R m n) (opcode : UInt8) :
    Transition.Agree R (m.stepUndocumented opcode) (n.stepUndocumented opcode) := by
  obtain ⟨c, a, b, rfl, rfl, hMemory⟩ := h.exists_eq
  unfold Machine.stepUndocumented
  cases c.config.illegalOpcode <;> exact ⟨⟨rfl, hMemory⟩, rfl, rfl⟩

theorem opcode (h : Agree R m n) (hR : Bus.SimulationOn F R)
    (hF : ∀ address ∈ m.footprint, F address) : m.read m.pc = n.read n.pc := by
  rw [← h.pc]
  exact h.read hR m.pc (hF m.pc List.mem_cons_self)

theorem step (h : Agree R m n) (hR : Bus.SimulationOn F R)
    (hF : ∀ address ∈ m.footprint, F address) : Transition.Agree R m.step n.step := by
  unfold Machine.step
  rw [← h.state, ← h.opcode hR hF]
  cases m.state with
  | halted => exact ⟨h, rfl, rfl⟩
  | running =>
    cases hDecode : Instruction.decode (m.read m.pc) with
    | none =>
      simp only [hDecode]
      exact h.stepUndocumented _
    | some i =>
      simp only [hDecode]
      exact h.stepDocumented hR (forall_of_footprint hDecode hF)

theorem operationWrites (h : Agree R m n) (hR : Bus.SimulationOn F R) {operation : Operation}
    {operand : Operand} (hF : ∀ address ∈ m.executeReads operation operand, F address) :
    m.operationWrites operation operand = n.operationWrites operation operand := by
  obtain ⟨c, a, b, rfl, rfl, -⟩ := h.exists_eq
  have hByte := h.operandByte hR hF
  cases operation with
  | shift shift | increment | decrement => simp only [Machine.operationWrites, hByte rfl]
  | _ => rfl

/-- Machines that agree on the footprint of a step also make the same writes in it. -/
theorem writes (h : Agree R m n) (hR : Bus.SimulationOn F R)
    (hF : ∀ address ∈ m.footprint, F address) : m.writes = n.writes := by
  have hNext : m.next? = n.next? := by rw [next?, next?, ← h.state, ← h.opcode hR hF]
  unfold Machine.writes
  rw [← hNext]
  cases hInstruction : m.next? with
  | none => rfl
  | some i =>
    obtain ⟨-, hDecode⟩ := (m.next?_eq_some_iff i).mp hInstruction
    obtain ⟨hResolve, hExecute⟩ := List.forall_mem_append.mp (forall_of_footprint hDecode hF)
    simp only [← h.resolve hR hResolve]
    exact h.operationWrites hR hExecute

end Machine.Agree

/-! ## Flat memory -/

theorem Ram.simulationOn (F : UInt16 → Prop) :
    Bus.SimulationOn F fun a b : Ram => ∀ address, F address → a.read address = b.read address where
  read _ _ hSame := hSame
  write a b hSame location byte address hF := by
    change (a.write location byte).read address = (b.write location byte).read address
    rw [read_write, read_write, hSame address hF]

/-- A step depends on nothing but the processor and the bytes of its footprint. Two machines with
flat memory and the same processor whose memories may differ everywhere else get the same result,
are left with the same processor, and make the same writes; what a step does not write it leaves
alone in each memory. -/
theorem Machine.step_local {s t : Machine Ram} (hProcessor : s.toProcessor = t.toProcessor)
    (hFootprint : ∀ address ∈ s.footprint, s.read address = t.read address) :
    s.step.result = t.step.result ∧ s.step.events = t.step.events ∧
    s.step.machine.toProcessor = t.step.machine.toProcessor ∧
    s.writes = t.writes ∧
    s.step.machine.memory = Bus.writeEach s.writes s.memory ∧
    t.step.machine.memory = Bus.writeEach s.writes t.memory ∧
    ∀ address, (∀ write ∈ s.writes, write.1 ≠ address) →
      s.step.machine.read address = s.read address ∧
      t.step.machine.read address = t.read address := by
  have hAgree : Agree (fun a b : Ram => ∀ address ∈ s.footprint, a.read address = b.read address)
      s t := ⟨hProcessor, hFootprint⟩
  have hR := Ram.simulationOn (· ∈ s.footprint)
  have hStep := hAgree.step hR fun _ hMem => hMem
  have hWrites := hAgree.writes hR fun _ hMem => hMem
  have hFirst := s.memory_step
  have hSecond : t.step.machine.memory = Bus.writeEach s.writes t.memory := by
    rw [memory_step, hWrites]
  refine ⟨hStep.result, hStep.events, hStep.machine.processor, hWrites, hFirst, hSecond, ?_⟩
  intro address hElsewhere
  constructor
  · change s.step.machine.memory.read address = s.memory.read address
    rw [hFirst, Ram.read_writeEach_of_ne _ _ hElsewhere]
  · change t.step.machine.memory.read address = t.memory.read address
    rw [hSecond, Ram.read_writeEach_of_ne _ _ hElsewhere]

/-- An index carries a load to $0120 cut down to page zero, so that the byte at $0120 itself does not
matter. -/
theorem Machine.step_local_of_wrap :
    let memory := Bus.writeAll 0x10 [0xB5, 0xF8] (Bus.write Ram.zeroed 0x20 0x42)
    let s : Machine Ram := { powerOn .standard memory with pc := 0x10, x := 0x28 }
    let t : Machine Ram := { s with memory := Bus.write memory 0x0120 0x56 }
    (∀ address ∈ s.footprint, s.read address = t.read address) ∧
      s.read 0x0120 = 0 ∧ t.read 0x0120 = 0x56 ∧
      s.step.machine.a = 0x42 ∧ t.step.machine.a = 0x42 := by
  intro memory s t
  have hAway : 0x0120 ∉ s.footprint := by decide +kernel
  have hFootprint : ∀ address ∈ s.footprint, s.read address = t.read address := by
    intro address hMem
    have hNe : ¬0x0120 = address := fun h => hAway (h ▸ hMem)
    exact ((Ram.read_write _ _ _ _).trans (if_neg hNe)).symm
  obtain ⟨-, -, hProcessor, -⟩ := step_local (s := s) (t := t) rfl hFootprint
  have hFirst : s.read 0x0120 = 0 := by
    change (((Ram.zeroed.write 0x20 0x42).write 0x10 0xB5).write 0x11 0xF8).read 0x0120 = 0
    simp [Ram.read_write]
  have hSecond : t.read 0x0120 = 0x56 := (Ram.read_write _ _ _ _).trans (if_pos rfl)
  have hLoaded : s.step.machine.a = 0x42 := by decide +kernel
  exact ⟨hFootprint, hFirst, hSecond, hLoaded,
    (congrArg Processor.a hProcessor).symm.trans hLoaded⟩

end Nmos6502
