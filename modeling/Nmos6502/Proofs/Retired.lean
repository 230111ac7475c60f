import Nmos6502.Bus.Board
import Nmos6502.Proofs.Budget
import Nmos6502.Proofs.Halt

/-! # Retired instructions

Over every history the counter of a machine counts the steps that executed a documented instruction
or skipped an undocumented opcode, and nothing else moves it. So a bounded run of a running machine
uses up its limit if it leaves the machine running; if it ends at a BRK it has counted at least that
BRK, and if it ends at a fault it stays below the limit, because the fault is not counted.
-/

universe u

namespace Nmos6502.Machine
set_option autoImplicit false

variable {M : Type u} [Bus M]

/-- Whether the next step passes over an undocumented opcode. -/
def skips (m : Machine M) : Bool :=
  match m.state, Instruction.decode (m.read m.pc), m.config.illegalOpcode with
  | .running, none, .skip => true
  | _, _, _ => false

def retires (m : Machine M) : Bool := m.next?.isSome || m.skips

theorem skips_of_next? {m : Machine M} {i : Instruction} (hNext : m.next? = some i) :
    m.skips = false := by
  obtain ⟨hRunning, hDecode⟩ := (m.next?_eq_some_iff i).mp hNext
  simp only [skips, hRunning, hDecode]

theorem retires_of_halted {m : Machine M} (hHalted : m.state = .halted) : m.retires = false := by
  simp only [retires, next?, skips, hHalted]
  rfl

theorem Meets.retires_iff {m : Machine M} {fault : IllegalOpcode} (hMeets : m.Meets fault) :
    m.retires = true ↔ m.config.illegalOpcode = .skip := by
  have hDecode : Instruction.decode (m.read m.pc) = none := by
    have hUndocumented := hMeets.undocumented
    rwa [hMeets.fault_eq] at hUndocumented
  cases hPolicy : m.config.illegalOpcode <;>
    simp [retires, hMeets.next?, skips, hMeets.running, hDecode, hPolicy]

/-- A step that retires executes or skips, and never both. -/
theorem countP_retires (steps : List (Machine M)) :
    steps.countP (·.retires) = steps.countP (·.next?.isSome) + steps.countP (·.skips) := by
  induction steps with
  | nil => rfl
  | cons m rest ih =>
    rw [List.countP_cons, List.countP_cons, List.countP_cons, ih]
    cases hNext : m.next? with
    | none =>
      simp only [retires, hNext, Option.isSome_none, Bool.false_or, Bool.false_eq_true, if_false]
      omega
    | some i =>
      simp only [retires, hNext, skips_of_next? hNext, Option.isSome_some, Bool.true_or,
        Bool.false_eq_true, if_true, if_false]
      omega

theorem retired_step (m : Machine M) :
    m.step.machine.retired = if m.retires then m.retired + 1 else m.retired := by
  obtain ⟨hState, hStep⟩ | ⟨i, hNext, hStep⟩ | ⟨fault, hMeets, hPolicy, hStep⟩ |
    ⟨fault, hMeets, hPolicy, hStep⟩ := m.step_cases
  · rw [hStep, retires_of_halted hState]
    rfl
  · obtain ⟨state, hControl⟩ := m.stepDocumented_control i
    rw [hStep, retires, hNext]
    exact congrArg Control.retired hControl
  · have hRetires : ¬ m.retires = true := by
      rw [hMeets.retires_iff, hPolicy]
      decide
    rw [hStep, if_neg hRetires]
    rfl
  · rw [hStep, if_pos (hMeets.retires_iff.mpr hPolicy)]
    rfl

/-! ## Counting over a history -/

theorem retired_stepped (limit : Nat) (m : Machine M) :
    (m.stepped limit).retired =
      m.retired + UInt64.ofNat ((m.loopSteps limit).countP (·.retires)) := by
  induction limit generalizing m with
  | zero => exact (UInt64.add_zero m.retired).symm
  | succ limit ih =>
    cases hState : m.state with
    | halted =>
      rw [stepped_of_halted hState, loopSteps_of_halted hState]
      exact (UInt64.add_zero m.retired).symm
    | running =>
      rw [stepped, ih, loopSteps_succ hState, List.countP_cons, retired_step]
      split
      · rw [UInt64.ofNat_add, UInt64.add_assoc, UInt64.add_comm 1]
        rfl
      · rfl

theorem retired_obey {m : Machine M} {command : Command} {t : Transition M Reply}
    (hCause : m.NoStaleCause) (hObey : m.obey command = some t) :
    t.machine.retired =
      m.retired + UInt64.ofNat ((m.stepsOf command).countP (·.retires)) := by
  have hNone : m.retired = m.retired + UInt64.ofNat 0 := (UInt64.add_zero m.retired).symm
  obtain ⟨hStep, hSteps⟩ | ⟨limit, hRun, hSteps⟩ | ⟨hReleased, hSteps⟩ | ⟨hKept, hSteps⟩ :=
    obey_cases hCause hObey
  · rw [hStep, hSteps, List.countP_singleton, retired_step]
    split
    · rfl
    · exact hNone
  · rw [hRun, hSteps]
    exact m.retired_stepped limit
  · rw [hSteps]
    exact (congrArg Control.retired hReleased).trans hNone
  · rw [hSteps]
    exact (congrArg Control.retired hKept).trans hNone

theorem retired_obeyAll {m : Machine M} {history : List Command} {t : Transition M (List Reply)}
    (hReachable : m.Reachable) (hHistory : m.obeyAll history = some t) :
    t.machine.retired =
      m.retired + UInt64.ofNat ((m.stepsDuring history).countP (·.retires)) := by
  induction history generalizing m t with
  | nil =>
    cases hHistory
    exact (UInt64.add_zero m.retired).symm
  | cons command rest ih =>
    obtain ⟨u, later, hObey, hLater, hMachine⟩ := exists_of_obeyAll_cons hHistory
    have hFirst := retired_obey hReachable.haltConsistent.noStaleCause hObey
    rw [hMachine, ih (hReachable.obey command hObey) hLater, hFirst, stepsDuring_cons hObey,
      List.countP_append, UInt64.ofNat_add, UInt64.add_assoc]

/-! ## What a bounded run spends -/

/-- How a run with a limit moves the counter, by its four ways out: the machine had halted before,
it is still running, a BRK halted it, or a fault did. -/
def KeepsBudget (m : Machine M) (limit : UInt64) : Prop :=
  let t := m.runFor limit.toNat
  let increase := (t.machine.retired - m.retired).toNat
  match m.state with
  | .halted => increase = 0
  | .running =>
    (t.result = .ok .limit ↔ t.machine.state = .running) ∧
    (t.machine.state = .running → increase = limit.toNat) ∧
    (t.result = .ok .brk → 1 ≤ increase ∧ increase ≤ limit.toNat ∧
      ∃ n i, ((m.stepsOf (.runFor limit.toNat)).filter (·.retires)).getLast? = some n ∧
        n.next? = some i ∧ i.mnemonic = .brk) ∧
    ∀ fault, t.result = .error fault → increase < limit.toNat

theorem retires_of_running {m : Machine M} (hRunning : m.state = .running)
    (hAfter : m.step.machine.state = .running) : m.retires = true := by
  obtain ⟨hState, -⟩ | ⟨i, hNext, -⟩ | ⟨fault, -, -, hStep⟩ | ⟨fault, hMeets, hPolicy, -⟩ :=
    m.step_cases
  · cases hRunning.symm.trans hState
  · rw [retires, hNext]
    rfl
  · rw [hStep] at hAfter
    cases hAfter
  · exact hMeets.retires_iff.mpr hPolicy

theorem countP_loopSteps_of_running {limit : Nat} {m : Machine M}
    (hRunning : (m.stepped limit).state = .running) :
    (m.loopSteps limit).countP (·.retires) = limit := by
  induction limit generalizing m with
  | zero => rfl
  | succ limit ih =>
    have hNow : m.state = .running := running_of_le hRunning (Nat.zero_le _)
    have hNext : m.step.machine.state = .running :=
      running_of_le (j := 1) hRunning (Nat.le_add_left 1 limit)
    rw [loopSteps_succ hNow, List.countP_cons, ih hRunning, if_pos (retires_of_running hNow hNext)]

theorem retired_of_running {m : Machine M} {limit : Nat}
    (hRunning : (m.stepped limit).state = .running) :
    (m.stepped limit).retired = m.retired + UInt64.ofNat limit := by
  rw [retired_stepped, countP_loopSteps_of_running hRunning]

/-- A run that halts takes its last step on the machine that this step halts. -/
theorem loopSteps_of_haltsAfter {m : Machine M} {k limit : Nat} (hHalts : m.HaltsAfter (k + 1))
    (hLimit : k < limit) : m.loopSteps limit = m.loopSteps k ++ [m.stepped k] := by
  obtain ⟨extra, rfl⟩ := Nat.exists_eq_add_of_le (Nat.succ_le_of_lt hLimit)
  rw [loopSteps_add (k + 1), loopSteps_of_halted hHalts.halted, List.append_nil,
    loopSteps_add k 1, loopSteps_succ (hHalts.running k (Nat.lt_succ_self k)), loopSteps]

/-- The last step of a run that halts a running machine: a BRK, which is counted, or a rejected
opcode, which is not. All steps before it are counted. -/
theorem exists_last_step {m : Machine M} (hCause : m.NoStaleCause) (hRunning : m.state = .running)
    {limit : Nat} (hHalted : (m.stepped limit).state = .halted) :
    ∃ k < limit, m.loopSteps limit = m.loopSteps k ++ [m.stepped k] ∧
      (m.loopSteps k).countP (·.retires) = k ∧
      (((m.stepped limit).report = .ok .brk ∧
          ∃ i, (m.stepped k).next? = some i ∧ i.mnemonic = .brk) ∨
        ∃ fault, (m.stepped limit).report = .error fault ∧ (m.stepped k).retires = false) := by
  obtain ⟨after, hHalts⟩ := exists_haltsAfter hHalted
  cases after with
  | zero => cases hRunning.symm.trans hHalts.halted
  | succ k =>
    have hLimit : k < limit := by
      apply Nat.lt_of_not_le
      intro hLe
      cases hHalted.symm.trans (hHalts.running limit (Nat.lt_succ_of_le hLe))
    have hBefore := hHalts.running k (Nat.lt_succ_self k)
    have hLast : m.stepped limit = (m.stepped k).step.machine := by
      rw [(stepped_eq_of_le hHalts.halted hLimit).1, stepped_succ]
    refine ⟨k, hLimit, loopSteps_of_haltsAfter hHalts hLimit,
      countP_loopSteps_of_running hBefore, ?_⟩
    rw [report_of_halted hHalted, hLast]
    rw [hLast] at hHalted
    obtain ⟨i, hNext, hBrk, hKept⟩ | ⟨fault, hMeets, hPolicy, hStep⟩ := step_halts hBefore hHalted
    · have hNone := hKept.trans (hCause.stepped k hBefore)
      exact .inl ⟨haltedExit_of_none hNone, i, hNext, hBrk⟩
    · refine .inr ⟨fault, ?_, ?_⟩
      · rw [haltedExit_eq_error_iff, hStep]
        rfl
      · rw [Bool.eq_false_iff, ne_eq, hMeets.retires_iff, hPolicy]
        decide

theorem length_loopSteps_le (limit : Nat) (m : Machine M) :
    (m.loopSteps limit).length ≤ limit := by
  induction limit generalizing m with
  | zero => exact Nat.le_refl 0
  | succ limit ih =>
    cases hState : m.state with
    | halted =>
      rw [loopSteps_of_halted hState]
      exact Nat.zero_le _
    | running =>
      rw [loopSteps_succ hState, List.length_cons]
      exact Nat.succ_le_succ (ih m.step.machine)

/-- Wherever the counter stands, its increase over a run shows in the difference. -/
theorem toNat_retired_sub (m : Machine M) (limit : UInt64) :
    ((m.stepped limit.toNat).retired - m.retired).toNat =
      (m.loopSteps limit.toNat).countP (·.retires) := by
  have hCount : (m.loopSteps limit.toNat).countP (·.retires) ≤ limit.toNat :=
    Nat.le_trans List.countP_le_length (length_loopSteps_le _ m)
  rw [retired_stepped, UInt64.add_comm, UInt64.add_sub_cancel,
    UInt64.toNat_ofNat_of_lt' (Nat.lt_of_le_of_lt hCount limit.toNat_lt)]

theorem NoStaleCause.keepsBudget {m : Machine M} (hCause : m.NoStaleCause) (limit : UInt64) :
    m.KeepsBudget limit := by
  unfold KeepsBudget
  rw [runFor_eq hCause]
  simp only [toNat_retired_sub, stepsOf]
  cases hState : m.state with
  | halted => rw [loopSteps_of_halted hState, List.countP_nil]
  | running =>
    cases hAfter : (m.stepped limit.toNat).state with
    | running =>
      rw [report_of_running hAfter, countP_loopSteps_of_running hAfter]
      refine ⟨by simp, fun _ => rfl, fun hBrk => ?_, fun fault hFault => ?_⟩
      · cases hBrk
      · cases hFault
    | halted =>
      obtain ⟨k, hLimit, hSteps, hCount, hExit⟩ := exists_last_step hCause hState hAfter
      rw [hSteps, List.countP_append, hCount, List.countP_singleton]
      obtain ⟨hReport, i, hNext, hBrk⟩ | ⟨fault, hReport, hRetires⟩ := hExit
      · have hRetires : (m.stepped k).retires = true := by
          rw [retires, hNext]
          rfl
        rw [hReport, if_pos hRetires, List.filter_append, List.filter_cons_of_pos hRetires]
        refine ⟨by simp, by simp, fun _ => ⟨Nat.le_add_left 1 k, hLimit, ?_⟩, by simp⟩
        exact ⟨m.stepped k, i, List.getLast?_concat, hNext, hBrk⟩
      · rw [hReport, hRetires]
        exact ⟨by simp, by simp, by simp, fun _ _ => hLimit⟩

/-- The counter of a machine after any history from power-on, as long as it does not overflow. It
is the number of steps that executed a documented instruction plus the number that skipped an
undocumented opcode; a command none of whose steps does either leaves it alone; and the next bounded
run keeps its budget, whatever the limit. -/
theorem retired_accounting {config : Config} {memory : M} {history : List Command}
    {t : Transition M (List Reply)}
    (hHistory : (powerOn config memory).obeyAll history = some t) :
    let steps := (powerOn config memory).stepsDuring history
    let count := steps.countP (·.next?.isSome) + steps.countP (·.skips)
    (count < UInt64.size → t.machine.retired.toNat = count) ∧
    (∀ command u, t.machine.obey command = some u →
      (∀ n ∈ t.machine.stepsOf command, n.retires = false) →
      u.machine.retired = t.machine.retired) ∧
    ∀ limit, t.machine.KeepsBudget limit := by
  have hPowerOn : (powerOn config memory).Reachable := .powerOn config memory
  have hCause := (hPowerOn.obeyAll hHistory).haltConsistent.noStaleCause
  refine ⟨?_, ?_, hCause.keepsBudget⟩
  · intro hSmall
    have hZero : (powerOn config memory).retired = 0 := rfl
    rw [retired_obeyAll hPowerOn hHistory, hZero, UInt64.zero_add, countP_retires]
    exact UInt64.toNat_ofNat_of_lt' hSmall
  · intro command u hObey hIdle
    have hNone : (t.machine.stepsOf command).countP (·.retires) = 0 := by
      rw [List.countP_eq_zero]
      intro n hn
      rw [hIdle n hn]
      decide
    rw [retired_obey hCause hObey, hNone]
    exact UInt64.add_zero _

/-- NOP, a skipped opcode and a halting BRK make three; the fourth step finds a halted machine. -/
theorem retired_accounting_of_skip :
    let start : Machine Board := .powerOn { illegalOpcode := .skip } { lines := 0xFF }
    let history := [Command.load [0xEA, 0x02, 0x00] 0x10, .runFor 5, .step, .resume]
    ∃ t, start.obeyAll history = some t ∧ (start.stepsDuring history).length = 4 ∧
      t.machine.retired.toNat = 3 ∧ t.machine.KeepsBudget 4 := by
  intro start history
  have hEnds : (start.obeyAll history).isSome = true := by decide +kernel
  obtain ⟨t, hHistory⟩ := Option.isSome_iff_exists.mp hEnds
  have hCount : (start.stepsDuring history).countP (·.next?.isSome) +
      (start.stepsDuring history).countP (·.skips) = 3 := by decide +kernel
  obtain ⟨hRetired, -, hBudget⟩ := retired_accounting hHistory
  refine ⟨t, hHistory, by decide +kernel, ?_, hBudget 4⟩
  rw [hRetired (by rw [hCount]; decide), hCount]

end Nmos6502.Machine
