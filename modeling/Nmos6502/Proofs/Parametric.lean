import Nmos6502.Bus.Board
import Nmos6502.Bus.Journalled
import Nmos6502.Proofs.History
import Nmos6502.Proofs.Reads

/-! # Machines on different buses

All that a machine knows of its memory is what the bus answers. Two machines with the same processor
cannot be told apart by any history if their memories read alike and go on reading alike however
they are written alike. A step is the case of `Proofs.Reads` without a footprint; runs follow by
induction on the limit and histories by induction on the commands.
-/

universe u v u' v'

namespace Nmos6502
set_option autoImplicit false

/-- Related memories read alike at every address, and stay related when written alike. -/
structure Bus.Simulation {M : Type u} {N : Type v} [Bus M] [Bus N] (R : M → N → Prop) : Prop where
  read : ∀ a b, R a b → ∀ address, Bus.read a address = Bus.read b address
  write : ∀ a b, R a b → ∀ address byte, R (Bus.write a address byte) (Bus.write b address byte)

/-- A write is visible to the next read at its address and nowhere else. -/
structure Bus.KeepsBytes (M : Type u) [Bus M] : Prop where
  read_write : ∀ (memory : M) address byte other, Bus.read (Bus.write memory address byte) other =
    if address = other then byte else Bus.read memory other

/-- Whatever they are asked, the machines give the same replies and events, and are left with the
same processor and with related memories; if a run of one does not end, neither does the other's.
As a history may stop anywhere, they agree at every point of it. -/
def Machine.Indistinguishable {M : Type u} {N : Type v} [Bus M] [Bus N] (R : M → N → Prop)
    (m : Machine M) (n : Machine N) : Prop :=
  ∀ history, Option.Rel (Transition.Agree R) (m.obeyAll history) (n.obeyAll history)

theorem rel_bind {α : Type u} {α' : Type v} {β : Type u'} {β' : Type v'} {r : α → α' → Prop}
    {s : β → β' → Prop} {first : Option α} {other : Option α'} {next : α → Option β}
    {next' : α' → Option β'} (hFirst : Option.Rel r first other)
    (hNext : ∀ a a', r a a' → Option.Rel s (next a) (next' a')) :
    Option.Rel s (first.bind next) (other.bind next') := by
  cases hFirst with
  | none => exact .none
  | some hRelated => exact hNext _ _ hRelated

section Simulation

variable {M : Type u} {N : Type v} [Bus M] [Bus N] {R : M → N → Prop}

theorem Bus.Simulation.on (hR : Bus.Simulation R) (F : UInt16 → Prop) : Bus.SimulationOn F R where
  read a b hMemory address _ := hR.read a b hMemory address
  write := hR.write

theorem Bus.Simulation.writeAll (hR : Bus.Simulation R) {a : M} {b : N} (hMemory : R a b)
    (origin : UInt16) (image : List UInt8) :
    R (Bus.writeAll origin image a) (Bus.writeAll origin image b) := by
  induction image generalizing origin a b with
  | nil => exact hMemory
  | cons byte image ih => exact ih (hR.write a b hMemory origin byte) (origin + 1)

end Simulation

section Transitions

variable {M : Type u} {N : Type v} {R : M → N → Prop} {α β : Type}

theorem Transition.Agree.map {t : Transition M α} {t' : Transition N α}
    (h : Transition.Agree R t t') (f : α → β) : Transition.Agree R (t.map f) (t'.map f) :=
  ⟨h.machine, congrArg f h.result, h.events⟩

theorem Transition.Agree.ended? {t : Transition M (Except IllegalOpcode Exit)}
    {t' : Transition N (Except IllegalOpcode Exit)} (h : Transition.Agree R t t') :
    Option.Rel (Transition.Agree R) (Machine.ended? t) (Machine.ended? t') := by
  unfold Machine.ended?
  rw [← h.result]
  split
  · exact .none
  · exact .some h
  · exact .some h

end Transitions

namespace Machine.Agree

variable {M : Type u} {N : Type v} [Bus M] [Bus N] {R : M → N → Prop}
variable {m : Machine M} {n : Machine N}

omit [Bus M] [Bus N] in
theorem answer (h : Agree R m n) (reply : Reply) :
    Transition.Agree R (m.answer reply) (n.answer reply) := ⟨h, rfl, rfl⟩

theorem load (h : Agree R m n) (hR : Bus.Simulation R) (image : List UInt8) (origin : UInt16) :
    Transition.Agree R (m.load image origin) (n.load image origin) := by
  obtain ⟨c, a, b, rfl, rfl, hMemory⟩ := h.exists_eq
  unfold Machine.load
  split
  · exact ⟨⟨rfl, hR.writeAll hMemory origin image⟩, rfl, rfl⟩
  · exact ⟨h, rfl, rfl⟩

/-! ## Runs -/

theorem stepped (h : Agree R m n) (hR : Bus.Simulation R) (k : Nat) :
    Agree R (m.stepped k) (n.stepped k) := by
  induction k with
  | zero => exact h
  | succ k ih =>
    rw [stepped_succ, stepped_succ]
    exact (ih.step (hR.on fun _ => True) fun _ _ => trivial).machine

theorem runFrom (h : Agree R m n) (hR : Bus.Simulation R) (limit : Nat) (events : Array Event) :
    Transition.Agree R (runFrom limit m events) (runFrom limit n events) := by
  induction limit generalizing m n events with
  | zero => exact ⟨h, rfl, rfl⟩
  | succ limit ih =>
    have hStep := h.step (hR.on fun _ => True) fun _ _ => trivial
    rw [Machine.runFrom, Machine.runFrom, ← hStep.result, ← hStep.events]
    cases m.step.result with
    | error fault => exact ⟨hStep.machine, rfl, rfl⟩
    | ok state =>
      cases state with
      | halted => exact ⟨hStep.machine, rfl, rfl⟩
      | running => exact ih hStep.machine _

theorem runFor (h : Agree R m n) (hR : Bus.Simulation R) (limit : Nat) :
    Transition.Agree R (m.runFor limit) (n.runFor limit) := by
  have hExit : m.haltedExit = n.haltedExit := by rw [haltedExit, haltedExit, h.processor]
  unfold Machine.runFor
  rw [← h.state, ← hExit]
  cases m.state with
  | halted => exact ⟨h, rfl, rfl⟩
  | running => exact h.runFrom hR limit #[]

theorem run (h : Agree R m n) (hR : Bus.Simulation R) (fuel : Nat) :
    Option.Rel (Transition.Agree R) (m.run fuel) (n.run fuel) := by
  rw [run_eq, run_eq]
  exact (h.runFor hR fuel).ended?

/-! ## Histories -/

theorem obey (h : Agree R m n) (hR : Bus.Simulation R) (command : Command) :
    Option.Rel (Transition.Agree R) (m.obey command) (n.obey command) := by
  have hOn := hR.on fun _ => True
  -- A setter is a function of the processor alone, and a getter one of the processor and a few reads.
  cases command with
  | load image origin => exact .some ((h.load hR image origin).map _)
  | step => exact .some ((h.step hOn fun _ _ => trivial).map _)
  | run fuel =>
    simp only [Machine.obey, Option.map_eq_bind]
    exact rel_bind (h.run hR fuel) fun t t' hRun => .some (hRun.map _)
  | runFor limit => exact .some ((h.runFor hR limit).map _)
  | resume =>
    exact .some (answer (h.update fun c => { c with state := .running, haltCause := none }) _)
  | setRegister register value => exact .some ((h.put register value).answer _)
  | setPc value => exact .some (answer (h.update fun c => { c with pc := value }) _)
  | setStatus byte => exact .some (answer (h.update fun c => { c with p := .pulled byte }) _)
  | assignFlags mask on =>
    exact .some (answer (h.update fun c => { c with p := c.p.assign mask on }) _)
  | testFlags mask =>
    simp only [Machine.obey, h.p]
    exact .some (h.answer _)
  | resolve mode =>
    simp only [Machine.obey, h.resolve hOn fun _ _ => trivial]
    exact .some (h.answer _)
  | readWord address =>
    simp only [Machine.obey, h.readWord hOn address trivial trivial]
    exact .some (h.answer _)
  | peek address =>
    simp only [Machine.obey, h.read hOn address trivial]
    exact .some (h.answer _)
  | poke address byte => exact .some ((h.write hOn address byte).answer _)

theorem indistinguishable (h : Agree R m n) (hR : Bus.Simulation R) : m.Indistinguishable R n := by
  intro history
  induction history generalizing m n with
  | nil => exact .some ⟨h, rfl, rfl⟩
  | cons command rest ih =>
    refine rel_bind (h.obey hR command) fun t t' hNow => ?_
    refine rel_bind (ih hNow.machine) fun u u' hLater => ?_
    refine .some ⟨hLater.machine, ?_, ?_⟩
    · rw [hNow.result, hLater.result]
    · rw [hNow.events, hLater.events]

end Machine.Agree

theorem Machine.Indistinguishable.exists_of_obeyAll {M : Type u} {N : Type v} [Bus M] [Bus N]
    {R : M → N → Prop} {m : Machine M} {n : Machine N} (h : m.Indistinguishable R n)
    {history : List Command} {t : Transition M (List Reply)}
    (hHistory : m.obeyAll history = some t) :
    ∃ t', n.obeyAll history = some t' ∧ Transition.Agree R t t' := by
  have hRel := h history
  rw [hHistory] at hRel
  cases hOther : n.obeyAll history with
  | none =>
    rw [hOther] at hRel
    cases hRel
  | some t' =>
    rw [hOther] at hRel
    cases hRel with
    | some hAgree => exact ⟨t', rfl, hAgree⟩

/-! ## Buses alike -/

theorem Bus.KeepsBytes.simulation {M : Type u} {N : Type v} [Bus M] [Bus N]
    (hM : Bus.KeepsBytes M) (hN : Bus.KeepsBytes N) :
    Bus.Simulation fun (a : M) (b : N) => ∀ address, Bus.read a address = Bus.read b address where
  read _ _ hSame := hSame
  write a b hSame address byte other := by
    rw [hM.read_write, hN.read_write, hSame]

theorem Ram.keepsBytes : Bus.KeepsBytes Ram :=
  ⟨fun ram address byte other => ram.read_write address other byte⟩

theorem Journalled.simulation (M : Type u) [Bus M] :
    Bus.Simulation fun (memory : Journalled M) (bus : M) => memory.bus = bus where
  read memory bus hBus address := by rw [← hBus, read_eq]
  write memory bus hBus address byte := by rw [← hBus, bus_write]

theorem Word.and_full (word : UInt16) : word &&& 0xFFFF = word := UInt16.and_neg_one

/-- A board that decodes every line and takes every write is flat memory. -/
theorem Board.simulation : Bus.Simulation fun (ram : Ram) (board : Board) =>
    board.lines = 0xFFFF ∧ board.readOnly = none ∧ board.ram = ram where
  read := by
    rintro _ ⟨ram, _, _⟩ ⟨rfl, rfl, rfl⟩ address
    change ram.read address = ram.read (address &&& 0xFFFF)
    rw [Word.and_full]
  write := by
    rintro _ ⟨ram, _, _⟩ ⟨rfl, rfl, rfl⟩ address byte
    refine ⟨rfl, rfl, ?_⟩
    change ram.write (address &&& 0xFFFF) byte = ram.write address byte
    rw [Word.and_full]

/-- A machine is parametric in its bus: whatever relates two buses that read alike and that equal
writes keep related, no history tells the machines apart. A journal therefore makes no difference,
and neither does the way in which a bus keeps its bytes: if it keeps them at all, it is as good as
flat memory. -/
theorem Machine.parametric_in_bus (M : Type u) (N : Type v) [Bus M] [Bus N] :
    (∀ R : M → N → Prop, Bus.Simulation R → ∀ m n, Agree R m n → m.Indistinguishable R n) ∧
    (∀ (m : Machine (Journalled M)) (n : Machine M), m.toProcessor = n.toProcessor →
      m.memory.bus = n.memory → m.Indistinguishable (fun memory bus => memory.bus = bus) n) ∧
    (Bus.KeepsBytes N → ∀ (m : Machine Ram) (n : Machine N), m.toProcessor = n.toProcessor →
      (∀ address, m.read address = n.read address) →
      m.Indistinguishable
        (fun ram memory => ∀ address, ram.read address = Bus.read memory address) n) := by
  refine ⟨?_, ?_, ?_⟩
  · intro R hR m n hAgree
    exact hAgree.indistinguishable hR
  · intro m n hProcessor hBus
    exact Agree.indistinguishable ⟨hProcessor, hBus⟩ (Journalled.simulation M)
  · intro hN m n hProcessor hRead
    exact Agree.indistinguishable ⟨hProcessor, hRead⟩ (Ram.keepsBytes.simulation hN)

/-- Flat memory and a full board see the same program through: it loads the accumulator, pushes it,
and stops. -/
theorem Machine.parametric_in_bus_of_board :
    let history : List Command :=
      [.load [0xA9, 0x07, 0x48, 0x00] 0x10, .runFor 5, .peek 0x01FF, .run 1]
    let m := powerOn .standard Ram.zeroed
    let n := powerOn .standard ({} : Board)
    ∃ t t', m.obeyAll history = some t ∧ n.obeyAll history = some t' ∧
      t.result = t'.result ∧ t.machine.retired = 3 ∧ t'.machine.retired = 3 := by
  intro history m n
  have hSame := (parametric_in_bus Ram Board).1 _ Board.simulation m n ⟨rfl, rfl, rfl, rfl⟩
  have hEnds : (m.obeyAll history).isSome = true := by decide +kernel
  obtain ⟨t, hHistory⟩ := Option.isSome_iff_exists.mp hEnds
  obtain ⟨t', hOther, hAgree⟩ := hSame.exists_of_obeyAll hHistory
  have hRetired : (m.obeyAll history).map (·.machine.retired) = some 3 := by decide +kernel
  rw [hHistory] at hRetired
  have hCount : t.machine.retired = 3 := Option.some.inj hRetired
  exact ⟨t, t', hHistory, hOther, hAgree.result, hCount,
    (congrArg Processor.retired hAgree.machine.processor).symm.trans hCount⟩

end Nmos6502
