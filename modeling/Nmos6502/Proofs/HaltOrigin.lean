import Nmos6502.Proofs.Halt

/-! # Where a halt comes from

A machine keeps one record of why it has halted, and a history may ask it many things afterwards.
The steps of the history tell as much: of the machines on which a step was taken, the last one that
was running is the one that this step has halted. In front of it was a BRK if no cause is recorded,
and else the undocumented opcode that is.
-/

universe u

namespace Nmos6502.Machine
set_option autoImplicit false

variable {M : Type u} [Bus M]

def isRunning (m : Machine M) : Bool := !m.state.isHalted

/-- The last of these machines that is running. -/
def lastActive (steps : List (Machine M)) : Option (Machine M) :=
  (steps.filter (·.isRunning)).getLast?

/-- Of the steps on these machines, the one on `n` was the last on a running machine, and has halted
it. -/
def HaltsOn (steps : List (Machine M)) (n : Machine M) : Prop :=
  lastActive steps = some n ∧ n.step.machine.state = .halted

/-- The next step of the machine executes a BRK. -/
def MeetsBrk (m : Machine M) : Prop := ∃ i, m.next? = some i ∧ i.mnemonic = .brk

/-- After steps on the machines `steps`, the one that has halted `m` explains why, and the
configuration has allowed it. -/
structure HaltExplained (steps : List (Machine M)) (m : Machine M) : Prop where
  noStaleCause : m.NoStaleCause
  brk : m.state = .halted → m.haltCause = none →
    m.config.haltOnBrk = true ∧ ∃ n, HaltsOn steps n ∧ n.MeetsBrk
  fault : ∀ fault, m.haltCause = some fault →
    m.config.illegalOpcode = .halt ∧ ∃ n, HaltsOn steps n ∧ n.Meets fault

omit [Bus M] in
theorem lastActive_concat_running {m : Machine M} (hRunning : m.state = .running)
    (steps : List (Machine M)) : lastActive (steps ++ [m]) = some m := by
  have hActive : m.isRunning = true := by rw [isRunning, hRunning]; rfl
  rw [lastActive, List.filter_append, List.filter_cons_of_pos hActive, List.filter_nil,
    List.getLast?_concat]

omit [Bus M] in
theorem lastActive_concat_halted {m : Machine M} (hHalted : m.state = .halted)
    (steps : List (Machine M)) : lastActive (steps ++ [m]) = lastActive steps := by
  have hIdle : ¬m.isRunning = true := by rw [isRunning, hHalted]; decide
  rw [lastActive, List.filter_append, List.filter_cons_of_neg hIdle, List.filter_nil,
    List.append_nil, lastActive]

namespace HaltExplained

variable {steps : List (Machine M)} {m n : Machine M}

theorem of_control (h : HaltExplained steps m) (hControl : n.control = m.control) :
    HaltExplained steps n := by
  have hState : n.state = m.state := congrArg Control.state hControl
  have hCause : n.haltCause = m.haltCause := congrArg Control.haltCause hControl
  have hConfig : n.config = m.config := congrArg Control.config hControl
  refine ⟨?_, ?_, ?_⟩
  · rw [NoStaleCause, hState, hCause]
    exact h.noStaleCause
  · rw [hState, hCause, hConfig]
    exact h.brk
  · rw [hCause, hConfig]
    exact h.fault

theorem of_running (hRunning : m.state = .running) (hCause : m.haltCause = none) :
    HaltExplained steps m := by
  refine ⟨fun _ => hCause, fun hHalted => ?_, fun fault hFault => ?_⟩
  · cases hRunning.symm.trans hHalted
  · cases hCause.symm.trans hFault

theorem step (h : HaltExplained steps m) : HaltExplained (steps ++ [m]) m.step.machine := by
  cases hState : m.state with
  | halted =>
    rw [step_of_halted hState]
    refine ⟨h.noStaleCause, ?_, ?_⟩
    · simp only [HaltsOn, lastActive_concat_halted hState]
      exact h.brk
    · simp only [HaltsOn, lastActive_concat_halted hState]
      exact h.fault
  | running =>
    have hNone := h.noStaleCause hState
    cases hAfter : m.step.machine.state with
    | running => exact of_running hAfter (h.noStaleCause.step hAfter)
    | halted =>
      have hLast : HaltsOn (steps ++ [m]) m := ⟨lastActive_concat_running hState steps, hAfter⟩
      obtain ⟨i, hNext, hBrk, hKept⟩ | ⟨fault, hMeets, hPolicy, hStep⟩ := step_halts hState hAfter
      · refine ⟨h.noStaleCause.step, fun _ _ => ?_, fun fault hFault => ?_⟩
        · rw [step_of_next? hNext] at hAfter
          rw [config_step]
          exact ⟨haltOnBrk_of_stepDocumented hState hAfter, m, hLast, i, hNext, hBrk⟩
        · cases (hKept.trans hNone).symm.trans hFault
      · rw [hStep]
        refine ⟨fun hRunning => ?_, fun _ hCause => ?_, fun other hOther => ?_⟩
        · cases hRunning
        · cases hCause
        · cases hOther
          exact ⟨hPolicy, m, hLast, hMeets⟩

/-- A run explains its halt by the steps of its loop. -/
theorem stepped (h : HaltExplained steps m) (limit : Nat) :
    HaltExplained (steps ++ m.loopSteps limit) (m.stepped limit) := by
  induction limit generalizing steps m with
  | zero =>
    rw [loopSteps, List.append_nil]
    exact h
  | succ limit ih =>
    cases hState : m.state with
    | halted =>
      rw [loopSteps_of_halted hState, stepped_of_halted hState, List.append_nil]
      exact h
    | running =>
      rw [loopSteps_succ hState, List.append_cons]
      exact ih h.step

theorem obey (h : HaltExplained steps m) {command : Command} {t : Transition M Reply}
    (hObey : m.obey command = some t) :
    HaltExplained (steps ++ m.stepsOf command) t.machine := by
  obtain ⟨hStep, hSteps⟩ | ⟨limit, hRun, hSteps⟩ | ⟨hReleased, hSteps⟩ | ⟨hKept, hSteps⟩ :=
    obey_cases h.noStaleCause hObey
  · rw [hStep, hSteps]
    exact h.step
  · rw [hRun, hSteps]
    exact h.stepped limit
  · rw [hSteps, List.append_nil]
    exact of_running (congrArg Control.state hReleased) (congrArg Control.haltCause hReleased)
  · rw [hSteps, List.append_nil]
    exact h.of_control hKept

theorem obeyAll (h : HaltExplained steps m) {history : List Command}
    {t : Transition M (List Reply)} (hHistory : m.obeyAll history = some t) :
    HaltExplained (steps ++ m.stepsDuring history) t.machine := by
  induction history generalizing steps m t with
  | nil =>
    cases hHistory
    rw [stepsDuring, List.append_nil]
    exact h
  | cons command rest ih =>
    obtain ⟨u, later, hObey, hLater, hMachine⟩ := exists_of_obeyAll_cons hHistory
    rw [hMachine, stepsDuring_cons hObey, ← List.append_assoc]
    exact ih (h.obey hObey) hLater

end HaltExplained

theorem haltExplained_of_history {config : Config} {memory : M} {history : List Command}
    {t : Transition M (List Reply)}
    (hHistory : (powerOn config memory).obeyAll history = some t) :
    HaltExplained ((powerOn config memory).stepsDuring history) t.machine :=
  HaltExplained.obeyAll (.of_running rfl rfl : HaltExplained [] _) hHistory

/-! ## Reports tell where the halt comes from -/

theorem HaltsOn.unique {steps : List (Machine M)} {n other : Machine M} (h : HaltsOn steps n)
    (hOther : HaltsOn steps other) : n = other :=
  Option.some.inj (h.1.symm.trans hOther.1)

theorem MeetsBrk.not_meets {m : Machine M} (h : m.MeetsBrk) (fault : IllegalOpcode) :
    ¬m.Meets fault := by
  intro hMeets
  obtain ⟨i, hNext, -⟩ := h
  cases hMeets.next?.symm.trans hNext

namespace HaltExplained

variable {steps : List (Machine M)} {m : Machine M}

theorem report_cases (h : HaltExplained steps m) :
    (m.state = .running ∧ m.report = .ok .limit) ∨
    (m.state = .halted ∧ m.report = .ok .brk ∧ ∃ n, HaltsOn steps n ∧ n.MeetsBrk) ∨
    (m.state = .halted ∧ ∃ fault, m.report = .error fault ∧
      ∃ n, HaltsOn steps n ∧ n.Meets fault) := by
  cases hState : m.state with
  | running => exact .inl ⟨rfl, report_of_running hState⟩
  | halted =>
    have hReport := report_of_halted hState
    cases hCause : m.haltCause with
    | none =>
      exact .inr (.inl ⟨rfl, hReport.trans (haltedExit_of_none hCause), (h.brk hState hCause).2⟩)
    | some fault =>
      have hFault := (m.haltedExit_eq_error_iff fault).mpr hCause
      exact .inr (.inr ⟨rfl, fault, hReport.trans hFault, (h.fault fault hCause).2⟩)

theorem report_eq_limit_iff (h : HaltExplained steps m) :
    m.report = .ok .limit ↔ m.state = .running := by
  constructor
  · intro hReport
    obtain ⟨hRunning, -⟩ | ⟨-, hBrk, -⟩ | ⟨-, fault, hFault, -⟩ := h.report_cases
    · exact hRunning
    · cases hBrk.symm.trans hReport
    · cases hFault.symm.trans hReport
  · exact report_of_running

theorem report_eq_brk_iff (h : HaltExplained steps m) :
    m.report = .ok .brk ↔ m.state = .halted ∧ ∃ n, HaltsOn steps n ∧ n.MeetsBrk := by
  constructor
  · intro hReport
    obtain ⟨hHalted, hNone⟩ := halted_of_report hReport
    exact ⟨hHalted, (h.brk hHalted hNone).2⟩
  · rintro ⟨hHalted, n, hLast, hBrk⟩
    obtain ⟨hRunning, -⟩ | ⟨-, hReport, -⟩ | ⟨-, fault, -, other, hOther, hMeets⟩ := h.report_cases
    · cases hRunning.symm.trans hHalted
    · exact hReport
    · rw [← hLast.unique hOther] at hMeets
      exact absurd hMeets (hBrk.not_meets fault)

theorem report_eq_error_iff (h : HaltExplained steps m) (fault : IllegalOpcode) :
    m.report = .error fault ↔ m.state = .halted ∧ ∃ n, HaltsOn steps n ∧ n.Meets fault := by
  constructor
  · intro hReport
    obtain ⟨-, hLimit⟩ | ⟨-, hBrk, -⟩ | ⟨hHalted, other, hFault, hMeets⟩ := h.report_cases
    · cases hLimit.symm.trans hReport
    · cases hBrk.symm.trans hReport
    · cases hFault.symm.trans hReport
      exact ⟨hHalted, hMeets⟩
  · rintro ⟨hHalted, n, hLast, hMeets⟩
    obtain ⟨hRunning, -⟩ | ⟨-, -, other, hOther, hBrk⟩ | ⟨-, fault', hReport, other, hOther, hOrigin⟩ :=
      h.report_cases
    · cases hRunning.symm.trans hHalted
    · rw [hLast.unique hOther] at hMeets
      exact absurd hMeets (hBrk.not_meets fault)
    · rw [← hLast.unique hOther] at hOrigin
      rw [hReport, hMeets.unique hOrigin]

end HaltExplained

end Nmos6502.Machine
