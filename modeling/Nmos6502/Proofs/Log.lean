import Nmos6502.Bus.Board
import Nmos6502.Proofs.HaltOrigin
import Nmos6502.Proofs.Retired
import Nmos6502.Proofs.Wording

/-! # The log

A machine reports what its steps do. Each step on a running machine has one group of lines, which can
be read off the machine before the step and off whether the step halts it, and the log of a run is
these groups in the order of the steps. So the log can be counted: its TRACE and WARN lines are the
instructions that the run has retired, and its DEBUG lines are the halts.
-/

universe u

namespace Nmos6502
set_option autoImplicit false

/-- An event as the log shows it. -/
def Event.entry (event : Event) : Level × String := (event.level, event.text)

/-- Whether the event tells of an instruction that was executed or skipped. -/
def Event.isRetirement (event : Event) : Bool :=
  match event.level with
  | .trace | .warn => true
  | .debug => false

def Event.isDebug (event : Event) : Bool := event.level = .debug

namespace Command

/-- Whether the command only takes steps, one by hand or as many as a bounded run allows. -/
def takesSteps : Command → Bool
  | .step | .runFor _ => true
  | _ => false

def stepsAsked : List Command → Nat
  | [] => 0
  | .step :: rest => 1 + stepsAsked rest
  | .runFor limit :: rest => limit + stepsAsked rest
  | _ :: rest => stepsAsked rest

end Command

namespace Machine

variable {M : Type u} [Bus M]

/-- The lines that are due for the next step. A documented instruction has a TRACE line with the
program counter, the opcode found there, and what the table makes of it, and a DEBUG line as well if
it is a BRK that halts. An undocumented opcode has one line only. -/
def linesDue (m : Machine M) : List (Level × String) :=
  let address := Hex.ofWord m.pc
  let opcode := Hex.ofByte (m.read m.pc)
  match m.state, Instruction.decode (m.read m.pc) with
  | .halted, _ => []
  | .running, some i =>
    (.trace, address ++ "  " ++ opcode ++ "  " ++ i.mnemonic.text ++ " " ++ i.mode.name) ::
      if i.mnemonic = .brk ∧ m.step.machine.state = .halted then
        [(.debug, "BRK at 0x" ++ address ++ ", halting")]
      else
        []
  | .running, none =>
    if m.step.machine.state = .halted then
      [(.debug, "Illegal opcode 0x" ++ opcode ++ " at 0x" ++ address ++ ", halting")]
    else
      [(.warn, "Skipping illegal opcode 0x" ++ opcode ++ " at 0x" ++ address)]

/-- The step halts a machine that was running. -/
def comesToHalt (m : Machine M) : Bool := m.isRunning && !m.step.machine.isRunning

/-! ## One step -/

theorem stepDocumented_events {m : Machine M} (hRunning : m.state = .running) (i : Instruction) :
    (m.stepDocumented i).events = .executing m.pc i ::
      if (m.stepDocumented i).machine.state = .halted then [.haltedByBrk m.pc] else [] := by
  have hState : (m.execute i.mnemonic.operation (m.resolve i.mode)).1.state = .running :=
    (congrArg Control.state (m.execute_control _ _)).trans hRunning
  have hGoesOn : ¬RunState.running = .halted := by decide
  simp only [stepDocumented]
  split
  · simp only [hState, if_neg hGoesOn]
  · simp only [hState, if_neg hGoesOn]
  · split
    · rfl
    · simp only [hState, if_neg hGoesOn]

theorem events_of_next? {m : Machine M} {i : Instruction} (hNext : m.next? = some i) :
    m.step.events = .executing m.pc i ::
      if i.mnemonic = .brk ∧ m.step.machine.state = .halted then [.haltedByBrk m.pc] else [] := by
  obtain ⟨hRunning, -⟩ := (m.next?_eq_some_iff i).mp hNext
  rw [step_of_next? hNext, stepDocumented_events hRunning]
  by_cases hHalted : (m.stepDocumented i).machine.state = .halted
  · rw [if_pos hHalted, if_pos ⟨stepDocumented_halts hRunning hHalted, hHalted⟩]
  · rw [if_neg hHalted, if_neg fun h => hHalted h.2]

/-- A step reports the lines that are due. -/
theorem entries_step (m : Machine M) : m.step.events.map Event.entry = m.linesDue := by
  obtain ⟨hState, hStep⟩ | ⟨i, hNext, -⟩ | ⟨fault, hMeets, -, hStep⟩ | ⟨fault, hMeets, -, hStep⟩ :=
    m.step_cases
  · simp only [linesDue, hState, hStep, List.map_nil]
  · obtain ⟨hRunning, hDecode⟩ := (m.next?_eq_some_iff i).mp hNext
    have hOpcode := ((Instruction.decode_eq_some_iff _ _).mp hDecode).2
    rw [events_of_next? hNext, linesDue, hRunning, hDecode, ← hOpcode]
    by_cases hHalts : i.mnemonic = .brk ∧ m.step.machine.state = .halted
    · simp only [if_pos hHalts]
      rfl
    · simp only [if_neg hHalts]
      rfl
  · have hDecode := hMeets.undocumented
    rw [hMeets.fault_eq] at hDecode hStep
    have hHalted : m.step.machine.state = .halted := by rw [hStep]; rfl
    simp only [linesDue, hMeets.running, hDecode, if_pos hHalted]
    rw [hStep]
    rfl
  · have hDecode := hMeets.undocumented
    rw [hMeets.fault_eq] at hDecode hStep
    have hRunning : ¬m.step.machine.state = .halted := by
      rw [hStep]
      exact fun h => nomatch hMeets.running.symm.trans h
    simp only [linesDue, hMeets.running, hDecode, if_neg hRunning]
    rw [hStep]
    rfl

theorem countP_retirements_step (m : Machine M) :
    m.step.events.countP (·.isRetirement) = if m.retires then 1 else 0 := by
  obtain ⟨hState, hStep⟩ | ⟨i, hNext, -⟩ | ⟨fault, hMeets, hPolicy, hStep⟩ |
    ⟨fault, hMeets, hPolicy, hStep⟩ := m.step_cases
  · rw [hStep, retires_of_halted hState]
    rfl
  · have hRetires : m.retires = true := by rw [retires, hNext]; rfl
    rw [events_of_next? hNext, if_pos hRetires]
    split <;> rfl
  · have hRetires : ¬m.retires = true := by rw [hMeets.retires_iff, hPolicy]; decide
    rw [hStep, if_neg hRetires]
    rfl
  · rw [hStep, if_pos (hMeets.retires_iff.mpr hPolicy)]
    rfl

theorem countP_debug_step (m : Machine M) :
    m.step.events.countP (·.isDebug) = if m.comesToHalt then 1 else 0 := by
  obtain ⟨hState, hStep⟩ | ⟨i, hNext, hStep⟩ | ⟨fault, hMeets, -, hStep⟩ | ⟨fault, hMeets, -, hStep⟩ :=
    m.step_cases
  · simp only [comesToHalt, isRunning, hState, hStep]
    rfl
  · obtain ⟨hRunning, -⟩ := (m.next?_eq_some_iff i).mp hNext
    rw [comesToHalt, isRunning, isRunning, hStep, stepDocumented_events hRunning, hRunning]
    cases (m.stepDocumented i).machine.state <;> rfl
  · simp only [comesToHalt, isRunning, hMeets.running, hStep]
    rfl
  · simp only [comesToHalt, isRunning, hMeets.running, hStep, skip]
    rfl

/-! ## A run -/

theorem entries_stepEvents (k : Nat) (m : Machine M) :
    (m.stepEvents k).map Event.entry = (List.range k).flatMap fun j => (m.stepped j).linesDue := by
  induction k with
  | zero => rfl
  | succ k ih =>
    rw [stepEvents_succ, List.map_append, ih, entries_step, flatMap_range_succ]

theorem retired_stepped_eq_countP (k : Nat) (m : Machine M) :
    (m.stepped k).retired =
      m.retired + UInt64.ofNat ((m.stepEvents k).countP (·.isRetirement)) := by
  induction k with
  | zero => exact (UInt64.add_zero m.retired).symm
  | succ k ih =>
    rw [stepped_succ, retired_step, stepEvents_succ, List.countP_append, countP_retirements_step, ih]
    split
    · rw [UInt64.ofNat_add, UInt64.add_assoc]
      rfl
    · rfl

theorem countP_debug_stepEvents (k : Nat) (m : Machine M) :
    (m.stepEvents k).countP (·.isDebug) =
      (List.range k).countP fun j => (m.stepped j).isRunning && !(m.stepped (j + 1)).isRunning := by
  induction k with
  | zero => rfl
  | succ k ih =>
    rw [stepEvents_succ, List.countP_append, ih, countP_debug_step, List.range_succ,
      List.countP_append, List.countP_singleton, stepped_succ, comesToHalt]

/-- Steps taken one by one and in bounded runs are as many steps in a row. -/
theorem obeyAll_of_takesSteps {calls : List Command} (m : Machine M)
    (hCalls : ∀ call ∈ calls, call.takesSteps = true) :
    ∃ t, m.obeyAll calls = some t ∧ t.machine = m.stepped (Command.stepsAsked calls) ∧
      t.events = m.stepEvents (Command.stepsAsked calls) := by
  induction calls generalizing m with
  | nil => exact ⟨_, rfl, rfl, rfl⟩
  | cons call rest ih =>
    obtain ⟨hFirst, hRest⟩ := List.forall_mem_cons.mp hCalls
    cases call with
    | step =>
      obtain ⟨t, hLater, hMachine, hEvents⟩ := ih m.step.machine hRest
      refine ⟨_, obeyAll_cons rfl hLater, ?_, ?_⟩
      · rw [Command.stepsAsked, stepped_add]
        exact hMachine
      · change m.step.events ++ t.events = _
        rw [Command.stepsAsked, Nat.add_comm, stepEvents, hEvents]
    | runFor limit =>
      obtain ⟨hRunMachine, hRunEvents⟩ := runFor_leaves limit m
      obtain ⟨t, hLater, hMachine, hEvents⟩ := ih (m.stepped limit) hRest
      refine ⟨_, obeyAll_cons (t := (m.runFor limit).map .ran) rfl (hRunMachine ▸ hLater), ?_, ?_⟩
      · rw [Command.stepsAsked, stepped_add]
        exact hMachine
      · change (m.runFor limit).events ++ t.events = _
        rw [Command.stepsAsked, stepEvents_add, hRunEvents, hEvents]
    | _ => cases hFirst

/-- The log of a run, however it is cut into single steps and bounded runs, and whatever machine it
starts from. It is the lines due for the steps, in the order of the steps. Its TRACE and WARN lines
count what the run has retired, and its DEBUG lines count how often the machine has come to a halt. No
other events have the same lines. -/
theorem log_traces_steps {m : Machine M} {calls : List Command}
    (hCalls : ∀ call ∈ calls, call.takesSteps = true) :
    let k := Command.stepsAsked calls
    ∃ t, m.obeyAll calls = some t ∧ t.machine = m.stepped k ∧
      t.events.map Event.entry = ((List.range k).flatMap fun j => (m.stepped j).linesDue) ∧
      t.machine.retired = m.retired + UInt64.ofNat (t.events.countP (·.isRetirement)) ∧
      t.events.countP (·.isDebug) = ((List.range k).countP fun j =>
        (m.stepped j).isRunning && !(m.stepped (j + 1)).isRunning) ∧
      ∀ others : List Event, others.map Event.line = t.events.map Event.line → others = t.events := by
  intro k
  obtain ⟨t, hObey, hMachine, hEvents⟩ := m.obeyAll_of_takesSteps hCalls
  refine ⟨t, hObey, hMachine, ?_, ?_, ?_, fun others => ?_⟩
  · rw [hEvents, entries_stepEvents]
  · rw [hMachine, hEvents, retired_stepped_eq_countP]
  · rw [hEvents, countP_debug_stepEvents]
  · exact (List.map_inj_right fun _ _ => Event.line_inj.mp).mp

/-- The program stores $02 over its own NOP before it gets there. So the trace shows an opcode that
is skipped, and then the BRK that halts; the last step finds the machine halted. -/
theorem log_traces_steps_of_overwritten :
    let start : Machine Board := { powerOn { illegalOpcode := .skip }
      (Bus.writeAll 0x10 [0x85, 0x12, 0xEA, 0x00] { lines := 0xFF }) with a := 0x02, pc := 0x10 }
    let calls := [Command.step, .runFor 5, .step]
    ∃ t, start.obeyAll calls = some t ∧ t.machine.retired = 3 ∧
      t.events.map Event.entry =
        [(.trace, "0010  85  STA ZeroPage"), (.warn, "Skipping illegal opcode 0x02 at 0x0012"),
          (.trace, "0013  00  BRK Implicit"), (.debug, "BRK at 0x0013, halting")] := by
  intro start calls
  have hCalls : ∀ call ∈ calls, call.takesSteps = true := by decide
  obtain ⟨t, hObey, hMachine, hLines, -⟩ := log_traces_steps (m := start) hCalls
  refine ⟨t, hObey, ?_, ?_⟩
  · rw [hMachine]
    decide +kernel
  · rw [hLines]
    decide +kernel

end Machine

end Nmos6502
