import Nmos6502.Bus.Board
import Nmos6502.Proofs.History

/-! # Halting over any history

The run state, the recorded cause and the configuration of a reachable machine fit together: a
running machine has no cause, and a recorded cause is an undocumented opcode that the configuration
does not skip. From a halt on, until the machine is released, every run reports that halt again
and every step does nothing, whatever else is asked of the machine in between.
-/

universe u

namespace Nmos6502
set_option autoImplicit false

/-- The commands that let a halted machine go on: `resume` and a load that succeeds. -/
def Command.releases : Command → Bool
  | .resume => true
  | .load image origin => origin.toNat + image.length ≤ 0x10000
  | _ => false

/-- How a reply to a machine that was running tells that it has halted. -/
def Reply.exit? : Reply → Option (Except IllegalOpcode Exit)
  | .stepped (.ok .halted) | .ran (.ok .brk) => some (.ok .brk)
  | .stepped (.error fault) | .ran (.error fault) => some (.error fault)
  | _ => none

namespace Machine

variable {M : Type u} [Bus M]

structure HaltConsistent (m : Machine M) : Prop where
  noStaleCause : m.NoStaleCause
  cause : ∀ fault, m.haltCause = some fault →
    m.config.illegalOpcode = .halt ∧ Instruction.decode fault.opcode = none

omit [Bus M] in
theorem HaltConsistent.of_control {m n : Machine M} (h : m.HaltConsistent)
    (hControl : n.control = m.control) : n.HaltConsistent := by
  have hState : n.state = m.state := congrArg Control.state hControl
  have hCause : n.haltCause = m.haltCause := congrArg Control.haltCause hControl
  have hConfig : n.config = m.config := congrArg Control.config hControl
  refine ⟨?_, ?_⟩
  · rw [NoStaleCause, hState, hCause]
    exact h.noStaleCause
  · rw [hCause, hConfig]
    exact h.cause

omit [Bus M] in
theorem haltConsistent_of_none {m : Machine M} (hCause : m.haltCause = none) :
    m.HaltConsistent := by
  refine ⟨fun _ => hCause, fun fault hFault => ?_⟩
  rw [hCause] at hFault
  cases hFault

theorem HaltConsistent.step {m : Machine M} (h : m.HaltConsistent) :
    m.step.machine.HaltConsistent := by
  refine ⟨h.noStaleCause.step, fun fault hFault => ?_⟩
  obtain ⟨-, hKept⟩ | ⟨other, hMeets, hPolicy, hStep⟩ := m.step_result
  · rw [hKept] at hFault
    rw [config_step]
    exact h.cause fault hFault
  · rw [hStep] at hFault ⊢
    cases hFault
    exact ⟨hPolicy, hMeets.undocumented⟩

theorem HaltConsistent.stepped {m : Machine M} (h : m.HaltConsistent) (k : Nat) :
    (m.stepped k).HaltConsistent := stepped_keeps (fun _ => HaltConsistent.step) h k

theorem HaltConsistent.obey {m : Machine M} {command : Command} {t : Transition M Reply}
    (h : m.HaltConsistent) (hObey : m.obey command = some t) : t.machine.HaltConsistent := by
  obtain ⟨hStep, -⟩ | ⟨limit, hRun, -⟩ | ⟨hReleased, -⟩ | ⟨hKept, -⟩ :=
    obey_cases h.noStaleCause hObey
  · exact hStep ▸ h.step
  · exact hRun ▸ h.stepped limit
  · exact haltConsistent_of_none (congrArg Control.haltCause hReleased)
  · exact h.of_control hKept

theorem Reachable.haltConsistent {m : Machine M} (h : m.Reachable) : m.HaltConsistent := by
  induction h with
  | powerOn config memory => exact haltConsistent_of_none rfl
  | obey command hReachable hObey ih => exact ih.obey hObey

/-- Every run of `m` reports `exit` at once, every step finds it halted, and none of them changes
anything. -/
structure AnswersHalted (m : Machine M) (exit : Except IllegalOpcode Exit) : Prop where
  run : ∀ fuel, m.run fuel = some ⟨m, exit, []⟩
  runFor : ∀ limit, m.runFor limit = ⟨m, exit, []⟩
  step : m.step = ⟨m, .ok .halted, []⟩

/-- After any history that does not release it, the machine answers as one halted by `exit`. -/
def StaysHalted (m : Machine M) (exit : Except IllegalOpcode Exit) : Prop :=
  ∀ history : List Command, (∀ command ∈ history, command.releases = false) →
    ∃ t, m.obeyAll history = some t ∧ t.machine.AnswersHalted exit

theorem answersHalted {m : Machine M} (hHalted : m.state = .halted) :
    m.AnswersHalted m.haltedExit := by
  refine ⟨fun fuel => ?_, fun limit => ?_, step_of_halted hHalted⟩
  · rw [Machine.run, hHalted]
  · rw [Machine.runFor, hHalted]

/-- A command that does not release a halted machine leaves it halted for the same cause. -/
theorem obey_of_halted {m : Machine M} (hHalted : m.state = .halted) {command : Command}
    (hKeeps : command.releases = false) : ∃ t, m.obey command = some t ∧
      t.machine.state = .halted ∧ t.machine.haltCause = m.haltCause := by
  have hAnswers := answersHalted hHalted
  cases command with
  | load image origin =>
    have hLarge : ¬ origin.toNat + image.length ≤ 0x10000 := by
      simpa [Command.releases] using hKeeps
    refine ⟨_, rfl, ?_⟩
    rw [load, if_neg hLarge]
    exact ⟨hHalted, rfl⟩
  | step =>
    refine ⟨_, rfl, ?_⟩
    rw [hAnswers.step]
    exact ⟨hHalted, rfl⟩
  | run fuel =>
    refine ⟨⟨m, .ran m.haltedExit, []⟩, ?_, hHalted, rfl⟩
    rw [obey, hAnswers.run, Option.map_some]
    rfl
  | runFor limit =>
    refine ⟨_, rfl, ?_⟩
    rw [hAnswers.runFor]
    exact ⟨hHalted, rfl⟩
  | resume => cases hKeeps
  | setRegister register value =>
    have hControl := control_put m register value
    exact ⟨_, rfl, (congrArg Control.state hControl).trans hHalted,
      congrArg Control.haltCause hControl⟩
  | _ => exact ⟨_, rfl, hHalted, rfl⟩

/-- A command that releases a machine leaves it running and without a cause. -/
theorem obey_of_releases (m : Machine M) {command : Command} (hReleases : command.releases = true) :
    ∃ t, m.obey command = some t ∧ t.machine.state = .running ∧ t.machine.haltCause = none := by
  cases command with
  | load image origin =>
    have hFits : origin.toNat + image.length ≤ 0x10000 := of_decide_eq_true hReleases
    refine ⟨_, rfl, ?_⟩
    rw [load, if_pos hFits]
    exact ⟨rfl, rfl⟩
  | resume => exact ⟨_, rfl, rfl, rfl⟩
  | _ => cases hReleases

theorem staysHalted {m : Machine M} (hHalted : m.state = .halted) :
    m.StaysHalted m.haltedExit := by
  intro history
  induction history generalizing m with
  | nil => exact fun _ => ⟨_, rfl, answersHalted hHalted⟩
  | cons command rest ih =>
    intro hKeeps
    obtain ⟨t, hObey, hState, hCause⟩ :=
      obey_of_halted hHalted (hKeeps command List.mem_cons_self)
    obtain ⟨later, hLater, hAnswers⟩ :=
      ih hState fun other hOther => hKeeps other (List.mem_cons_of_mem command hOther)
    have hExit : t.machine.haltedExit = m.haltedExit := by
      rw [haltedExit, haltedExit, hCause]
    exact ⟨_, obeyAll_cons hObey hLater, hExit ▸ hAnswers⟩

omit [Bus M] in
theorem exit?_haltedExit (m : Machine M) : (Reply.ran m.haltedExit).exit? = some m.haltedExit := by
  unfold haltedExit
  cases m.haltCause <;> rfl

theorem exit?_runFor {m : Machine M} (hCause : m.NoStaleCause) {limit : Nat}
    (hHalted : (m.runFor limit).machine.state = .halted) :
    (Reply.ran (m.runFor limit).result).exit? = some (m.runFor limit).machine.haltedExit := by
  rw [runFor_eq hCause] at hHalted ⊢
  rw [report_of_halted hHalted]
  exact exit?_haltedExit _

theorem exit?_step {m : Machine M} (hNone : m.haltCause = none)
    (hHalted : m.step.machine.state = .halted) :
    (Reply.stepped m.step.result).exit? = some m.step.machine.haltedExit := by
  obtain ⟨hResult, hKept⟩ | ⟨fault, -, -, hStep⟩ := m.step_result
  · rw [hResult, hHalted, haltedExit_of_none (hKept.trans hNone)]
    rfl
  · rw [hStep]
    rfl

/-- The command that halts a running machine says so, and says for which cause. -/
theorem exit?_of_obey {m : Machine M} {command : Command} {t : Transition M Reply}
    (hCause : m.NoStaleCause) (hRunning : m.state = .running) (hObey : m.obey command = some t)
    (hHalted : t.machine.state = .halted) : t.result.exit? = some t.machine.haltedExit := by
  cases command with
  | step =>
    cases hObey
    exact exit?_step (hCause hRunning) hHalted
  | run fuel =>
    obtain ⟨u, hRun, rfl⟩ := Option.map_eq_some_iff.mp hObey
    rw [run_eq] at hRun
    obtain rfl := ended?_eq_some hRun
    exact exit?_runFor hCause hHalted
  | runFor limit =>
    cases hObey
    exact exit?_runFor hCause hHalted
  | load image origin =>
    cases hObey
    have hState : (m.load image origin).machine.state = .running := by
      unfold load
      split
      · rfl
      · exact hRunning
    exact absurd (hHalted.symm.trans hState) (by decide)
  | setRegister register value =>
    cases hObey
    have hState := congrArg Control.state (control_put m register value)
    exact absurd (hHalted.symm.trans (hState.trans hRunning)) (by decide)
  | resume =>
    cases hObey
    cases hHalted
  | _ =>
    cases hObey
    exact absurd (hHalted.symm.trans hRunning) (by decide)

/-- The halts of a reachable machine. A running machine has no cause; a recorded cause is an
undocumented opcode under the policy that halts on it. A step that halts the machine, by a fault or
by BRK, fixes what all runs and steps answer until the machine is released; so does any other
command during which the machine halts, with the exit that its own reply has told. A command that
releases the machine leaves it running and without a cause. -/
theorem halt_sticks {m : Machine M} (hReachable : m.Reachable) :
    (m.state = .running → m.haltCause = none) ∧
    (∀ fault, m.haltCause = some fault → m.state = .halted ∧
      m.config.illegalOpcode = .halt ∧ Instruction.decode fault.opcode = none) ∧
    (∀ fault, m.step.result = .error fault → m.step.machine.StaysHalted (.error fault)) ∧
    (m.state = .running → m.step.result = .ok .halted → m.step.machine.StaysHalted (.ok .brk)) ∧
    (∀ command t, m.state = .running → m.obey command = some t → t.machine.state = .halted →
      ∃ exit, t.result.exit? = some exit ∧ t.machine.StaysHalted exit) ∧
    ∀ command : Command, command.releases = true → ∃ t, m.obey command = some t ∧
      t.machine.state = .running ∧ t.machine.haltCause = none := by
  have hConsistent := hReachable.haltConsistent
  refine ⟨hConsistent.noStaleCause, ?_, ?_, ?_, ?_, fun command => m.obey_of_releases⟩
  · intro fault hFault
    refine ⟨?_, hConsistent.cause fault hFault⟩
    cases hState : m.state with
    | halted => rfl
    | running =>
      rw [hConsistent.noStaleCause hState] at hFault
      cases hFault
  · intro fault hResult
    obtain ⟨hOk, -⟩ | ⟨other, -, -, hStep⟩ := m.step_result
    · rw [hOk] at hResult
      cases hResult
    · rw [hStep] at hResult ⊢
      cases hResult
      exact staysHalted rfl
  · intro hRunning hResult
    obtain ⟨hOk, hKept⟩ | ⟨other, -, -, hStep⟩ := m.step_result
    · have hHalted : m.step.machine.state = .halted := Except.ok.inj (hOk.symm.trans hResult)
      have hNone := hKept.trans (hConsistent.noStaleCause hRunning)
      exact haltedExit_of_none hNone ▸ staysHalted hHalted
    · rw [hStep] at hResult
      cases hResult
  · intro command t hRunning hObey hHalted
    exact ⟨_, exit?_of_obey hConsistent.noStaleCause hRunning hObey hHalted, staysHalted hHalted⟩

/-- The byte that halted the machine is repaired and a load fails, and the fault is still there. -/
theorem halt_sticks_after_repair :
    let m : Machine Board := .powerOn .standard (Bus.write {} 0 0x02)
    m.Reachable ∧ m.step.result = .error ⟨0x02, 0⟩ ∧
      ∃ t, m.step.machine.obeyAll [.poke 0 0xEA, .load [0, 0, 0] 0xFFFE, .runFor 7] = some t ∧
        t.machine.runFor 0 = ⟨t.machine, .error ⟨0x02, 0⟩, []⟩ := by
  have hReachable : (powerOn .standard (Bus.write {} 0 0x02 : Board)).Reachable := .powerOn _ _
  have hResult : (powerOn .standard (Bus.write {} 0 0x02 : Board)).step.result =
      .error ⟨0x02, 0⟩ := by rfl
  obtain ⟨t, hHistory, hAnswers⟩ := (halt_sticks hReachable).2.2.1 _ hResult
    [.poke 0 0xEA, .load [0, 0, 0] 0xFFFE, .runFor 7] (by simp [Command.releases])
  exact ⟨hReachable, hResult, t, hHistory, hAnswers.runFor 0⟩

end Machine

end Nmos6502
