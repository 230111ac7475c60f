import Nmos6502.Bus.Board
import Nmos6502.Proofs.HaltOrigin
import Nmos6502.Proofs.Retired

/-! # What a configuration rules out

No command changes the configuration of a machine, so it limits what can ever happen to it. A
machine that skips undocumented opcodes never meets a fault, one that does not halt on BRK never
ends a run by it, and one that does both never stops. A machine that has halted without a cause has
retired a BRK last of all.
-/

universe u

namespace Nmos6502.Machine
set_option autoImplicit false

variable {M : Type u} [Bus M]

theorem config_obey {m : Machine M} {command : Command} {t : Transition M Reply}
    (hCause : m.NoStaleCause) (hObey : m.obey command = some t) :
    t.machine.config = m.config := by
  obtain ⟨hStep, -⟩ | ⟨limit, hRun, -⟩ | ⟨hReleased, -⟩ | ⟨hKept, -⟩ := obey_cases hCause hObey
  · rw [hStep, config_step]
  · rw [hRun, config_stepped]
  · exact congrArg Control.config hReleased
  · exact congrArg Control.config hKept

theorem config_obeyAll {m : Machine M} {history : List Command} {t : Transition M (List Reply)}
    (hReachable : m.Reachable) (hHistory : m.obeyAll history = some t) :
    t.machine.config = m.config := by
  induction history generalizing m t with
  | nil =>
    cases hHistory
    rfl
  | cons command rest ih =>
    obtain ⟨u, later, hObey, hLater, hMachine⟩ := exists_of_obeyAll_cons hHistory
    rw [hMachine, ih (hReachable.obey command hObey) hLater,
      config_obey hReachable.haltConsistent.noStaleCause hObey]

theorem result_of_run {m : Machine M} (hCause : m.NoStaleCause) {fuel : Nat}
    {t : Transition M (Except IllegalOpcode Exit)} (hRun : m.run fuel = some t) :
    t.result = (m.stepped fuel).report := by
  rw [run_eq, runFor_eq hCause] at hRun
  exact congrArg Transition.result (ended?_eq_some hRun).symm

/-! ## Halts that the configuration allows -/

theorem retires_eq_and (m : Machine M) : m.retires = (m.retires && m.isRunning) := by
  cases hState : m.state with
  | halted => rw [retires_of_halted hState, Bool.false_and]
  | running =>
    have hRunning : m.isRunning = true := by rw [isRunning, hState]; rfl
    rw [hRunning, Bool.and_true]

/-- If the last active machine retires an instruction, it is the last one retired. -/
theorem getLast?_retires {steps : List (Machine M)} {n : Machine M}
    (hLast : lastActive steps = some n) (hRetires : n.retires = true) :
    (steps.filter (·.retires)).getLast? = some n := by
  have hActive : steps.filter (·.retires) = (steps.filter (·.isRunning)).filter (·.retires) := by
    rw [List.filter_filter]
    exact List.filter_congr fun m _ => m.retires_eq_and
  obtain ⟨before, hSplit⟩ := List.getLast?_eq_some_iff.mp hLast
  rw [hActive, hSplit, List.filter_append, List.filter_cons_of_pos hRetires, List.filter_nil,
    List.getLast?_concat]

namespace HaltExplained

variable {steps : List (Machine M)} {m : Machine M}

theorem haltCause_of_skip (h : HaltExplained steps m) (hSkip : m.config.illegalOpcode = .skip) :
    m.haltCause = none := by
  cases hCause : m.haltCause with
  | none => rfl
  | some fault => cases hSkip.symm.trans (h.fault fault hCause).1

theorem running_of_never (h : HaltExplained steps m) (hSkip : m.config.illegalOpcode = .skip)
    (hBrk : m.config.haltOnBrk = false) : m.state = .running := by
  cases hState : m.state with
  | running => rfl
  | halted => cases hBrk.symm.trans (h.brk hState (h.haltCause_of_skip hSkip)).1

theorem report_ne_error (h : HaltExplained steps m) (hSkip : m.config.illegalOpcode = .skip)
    (k : Nat) (fault : IllegalOpcode) : (m.stepped k).report ≠ .error fault := by
  intro hFault
  have hNone := (h.stepped k).haltCause_of_skip (by rw [config_stepped, hSkip])
  cases hNone.symm.trans (haltCause_of_report hFault)

theorem report_ne_brk (h : HaltExplained steps m) (hBrk : m.config.haltOnBrk = false) (k : Nat) :
    (m.stepped k).report ≠ .ok .brk := by
  intro hEnd
  obtain ⟨hHalted, hNone⟩ := halted_of_report hEnd
  have hHalts := ((h.stepped k).brk hHalted hNone).1
  rw [config_stepped, hBrk] at hHalts
  cases hHalts

theorem stepped_running (h : HaltExplained steps m) (hSkip : m.config.illegalOpcode = .skip)
    (hBrk : m.config.haltOnBrk = false) (k : Nat) : (m.stepped k).state = .running :=
  (h.stepped k).running_of_never (by rw [config_stepped, hSkip]) (by rw [config_stepped, hBrk])

theorem last_retired (h : HaltExplained steps m) (hHalted : m.state = .halted)
    (hNone : m.haltCause = none) :
    ∃ n, (steps.filter (·.retires)).getLast? = some n ∧ n.MeetsBrk := by
  obtain ⟨-, n, ⟨hLast, -⟩, i, hNext, hBrk⟩ := h.brk hHalted hNone
  have hRetires : n.retires = true := by
    rw [retires, hNext]
    rfl
  exact ⟨n, getLast?_retires hLast hRetires, i, hNext, hBrk⟩

end HaltExplained

theorem step_ne_error {m : Machine M} (hSkip : m.config.illegalOpcode = .skip)
    (fault : IllegalOpcode) : m.step.result ≠ .error fault := by
  intro hFault
  obtain ⟨hOk, -⟩ | ⟨other, -, hPolicy, -⟩ := m.step_result
  · cases hOk.symm.trans hFault
  · cases hSkip.symm.trans hPolicy

/-- What the configuration of a machine rules out, after any history from power-on. A machine that
skips undocumented opcodes has no cause recorded, and none of its steps and runs reports a fault. A
machine that does not halt on BRK ends no run by BRK. With both, the machine is running, takes every
step, retires as many instructions in a bounded run as its limit allows, and never ends an unbounded
run. And if a machine that halts on BRK has halted without a cause, then the last instruction that
it has retired was a BRK. -/
theorem configuration_rules_out {config : Config} {memory : M} {history : List Command}
    {t : Transition M (List Reply)}
    (hHistory : (powerOn config memory).obeyAll history = some t) :
    let m := t.machine
    (config.illegalOpcode = .skip → m.haltCause = none ∧
      ∀ fault, m.step.result ≠ .error fault ∧
        (∀ limit, (m.runFor limit).result ≠ .error fault) ∧
        ∀ fuel u, m.run fuel = some u → u.result ≠ .error fault) ∧
    (config.haltOnBrk = false →
      (∀ limit, (m.runFor limit).result ≠ .ok .brk) ∧
      ∀ fuel u, m.run fuel = some u → u.result ≠ .ok .brk) ∧
    (config.illegalOpcode = .skip → config.haltOnBrk = false →
      m.state = .running ∧ m.step.result = .ok .running ∧ m.Diverges ∧
      ∀ limit, (m.runFor limit).result = .ok .limit ∧
        (m.loopSteps limit).countP (·.retires) = limit ∧
        (m.runFor limit).machine.retired = m.retired + UInt64.ofNat limit) ∧
    (config.haltOnBrk = true → m.state = .halted → m.haltCause = none →
      ∃ n, (((powerOn config memory).stepsDuring history).filter (·.retires)).getLast? = some n ∧
        n.MeetsBrk) := by
  have hExplained := haltExplained_of_history hHistory
  have hCause := hExplained.noStaleCause
  have hConfig : t.machine.config = config := config_obeyAll (.powerOn config memory) hHistory
  refine ⟨fun hSkip => ?_, fun hBrk => ?_, fun hSkip hBrk => ?_, fun _ => hExplained.last_retired⟩
  · rw [← hConfig] at hSkip
    refine ⟨hExplained.haltCause_of_skip hSkip, fun fault => ⟨step_ne_error hSkip fault, ?_, ?_⟩⟩
    · intro limit
      rw [runFor_eq hCause]
      exact hExplained.report_ne_error hSkip limit fault
    · intro fuel u hRun
      rw [result_of_run hCause hRun]
      exact hExplained.report_ne_error hSkip fuel fault
  · rw [← hConfig] at hBrk
    constructor
    · intro limit
      rw [runFor_eq hCause]
      exact hExplained.report_ne_brk hBrk limit
    · intro fuel u hRun
      rw [result_of_run hCause hRun]
      exact hExplained.report_ne_brk hBrk fuel
  · rw [← hConfig] at hSkip hBrk
    have hRunning := hExplained.stepped_running hSkip hBrk
    refine ⟨hRunning 0, step_of_running (hRunning 1), ?_, fun limit => ?_⟩
    · intro fuel
      exact (runFor_of_running hCause (hRunning fuel)).2.2
    · obtain ⟨hResult, hMachine, -⟩ := runFor_of_running hCause (hRunning limit)
      exact ⟨hResult, countP_loopSteps_of_running (hRunning limit),
        hMachine ▸ retired_of_running (hRunning limit)⟩

/-- With both exits closed, a skipped opcode and a chain of BRKs go on for ever. As the machine comes
by default, the first BRK ends the program and stays the last instruction retired. -/
theorem configuration_rules_out_exits :
    let closed : Machine Board :=
      .powerOn { illegalOpcode := .skip, haltOnBrk := false } { lines := 0xFF }
    let standard : Machine Board := .powerOn .standard { lines := 0xFF }
    let history := [Command.load [0xEA, 0x00, 0x02] 0x10, .runFor 5, .step, .setPc 0]
    (∃ t, closed.obeyAll history = some t ∧ t.machine.Diverges ∧
      (t.machine.runFor 1000).result = .ok .limit) ∧
    ∃ t n, standard.obeyAll history = some t ∧ t.machine.state = .halted ∧
      ((standard.stepsDuring history).filter (·.retires)).getLast? = some n ∧ n.MeetsBrk := by
  intro closed standard history
  have hClosed : (closed.obeyAll history).isSome = true := by decide +kernel
  obtain ⟨t, hHistory⟩ := Option.isSome_iff_exists.mp hClosed
  obtain ⟨-, -, hDiverges, hLimits⟩ := (configuration_rules_out hHistory).2.2.1 rfl rfl
  have hStandard : (standard.obeyAll history).map
      (fun u => (u.machine.state, u.machine.haltCause)) = some (.halted, none) := by
    decide +kernel
  obtain ⟨u, hOther, hEnd⟩ := Option.map_eq_some_iff.mp hStandard
  obtain ⟨hHalted, hNone⟩ := Prod.mk.inj hEnd
  obtain ⟨n, hLast, hBrk⟩ := (configuration_rules_out hOther).2.2.2 rfl hHalted hNone
  exact ⟨⟨t, hHistory, hDiverges, (hLimits 1000).1⟩, u, n, hOther, hHalted, hLast, hBrk⟩

end Nmos6502.Machine
