import Nmos6502.Bus.Board
import Nmos6502.Proofs.Run

/-! # Budgets

Cutting the budget of a bounded run into slices changes nothing that can be observed in the end,
and bounded runs, the unbounded run and stepping by hand agree on when and how a machine halts.
-/

universe u

namespace Nmos6502.Machine
set_option autoImplicit false

variable {M : Type u} [Bus M]

/-- Bounded runs one after the other, each on the machine that the one before it has left. The
result is that of the last run. -/
def runSlices (first : Nat) : List Nat → Machine M → Transition M (Except IllegalOpcode Exit)
  | [], m => m.runFor first
  | next :: rest, m =>
    let t := m.runFor first
    let later := runSlices next rest t.machine
    { later with events := t.events ++ later.events }

theorem NoStaleCause.runFor {m : Machine M} (hCause : m.NoStaleCause) (limit : Nat) :
    (m.runFor limit).machine.NoStaleCause := by
  rw [runFor_eq hCause]
  exact hCause.stepped limit

theorem runFor_runFor {m : Machine M} (hCause : m.NoStaleCause) (first second : Nat) :
    (m.runFor first).machine.runFor second =
      ⟨(m.runFor (first + second)).machine, (m.runFor (first + second)).result,
        (m.stepped first).stepEvents second⟩ := by
  rw [runFor_eq hCause, runFor_eq (hCause.stepped first), runFor_eq hCause, stepped_add]

theorem runSlices_eq {m : Machine M} (hCause : m.NoStaleCause) (first : Nat) (rest : List Nat) :
    m.runSlices first rest = m.runFor (first + rest.foldr (· + ·) 0) := by
  induction rest generalizing m first with
  | nil => rfl
  | cons next rest ih =>
    rw [runSlices, ih (hCause.runFor first), runFor_runFor hCause, List.foldr_cons,
      runFor_eq hCause, runFor_eq hCause, stepEvents_add]

/-- Bounded runs compose: two in a row, the result of the first ignored, are one with the budgets
added up, and so is any list of slices. Runs of a machine that halts on the way, or has halted for
whatever reason before the first slice, are no exception. -/
theorem runFor_compose {m : Machine M} (hCause : m.NoStaleCause) :
    (∀ first second,
      ((m.runFor first).machine.runFor second).machine = (m.runFor (first + second)).machine ∧
      ((m.runFor first).machine.runFor second).result = (m.runFor (first + second)).result) ∧
    ∀ first rest, m.runSlices first rest = m.runFor (first + rest.foldr (· + ·) 0) := by
  refine ⟨fun first second => ?_, runSlices_eq hCause⟩
  rw [runFor_runFor hCause]
  exact ⟨rfl, rfl⟩

/-- NOP and BRK on 256 bytes of memory: BRK is the last instruction that the first slice allows. -/
theorem runFor_compose_brk_on_last :
    let m : Machine Board := .powerOn .standard (Bus.write { lines := 0xFF } 0 0xEA)
    m.NoStaleCause ∧ (m.runFor 1).machine.state = .running ∧
      (m.runFor 2).machine.state = .halted ∧ m.runSlices 2 [0, 3] = m.runFor 5 :=
  ⟨fun _ => rfl, by decide +kernel, by decide +kernel, (runFor_compose fun _ => rfl).2 2 [0, 3]⟩

/-- After `k` steps, and no earlier, the machine has halted. -/
structure HaltsAfter (m : Machine M) (k : Nat) : Prop where
  halted : (m.stepped k).state = .halted
  running : ∀ j < k, (m.stepped j).state = .running

/-- The step that makes `k` steps halts the machine by `fault`, or the machine had halted by it. -/
def HaltedByFault (m : Machine M) (k : Nat) (fault : IllegalOpcode) : Prop :=
  (k = 0 ∧ m.haltCause = some fault) ∨
    ∃ j, k = j + 1 ∧ (m.stepped j).step.result = .error fault

/-- The unbounded run of `m` ends, and in `t`. -/
def RunsTo (m : Machine M) (t : Transition M (Except IllegalOpcode Exit)) : Prop :=
  ∃ fuel, m.run fuel = some t

def Diverges (m : Machine M) : Prop := ∀ fuel, m.run fuel = none

/-- Steps beyond a halt change nothing and report nothing. -/
theorem stepped_eq_of_le {m : Machine M} {k limit : Nat}
    (hHalted : (m.stepped k).state = .halted) (hLimit : k ≤ limit) :
    m.stepped limit = m.stepped k ∧ m.stepEvents limit = m.stepEvents k := by
  obtain ⟨extra, rfl⟩ := Nat.exists_eq_add_of_le hLimit
  rw [stepped_add, stepEvents_add, stepped_of_halted hHalted, stepEvents_of_halted hHalted,
    List.append_nil]
  exact ⟨rfl, rfl⟩

theorem running_of_le {m : Machine M} {j k : Nat} (hRunning : (m.stepped k).state = .running)
    (hj : j ≤ k) : (m.stepped j).state = .running := by
  cases hState : (m.stepped j).state with
  | running => rfl
  | halted =>
    rw [(stepped_eq_of_le hState hj).1, hState] at hRunning
    cases hRunning

theorem exists_haltsAfter {m : Machine M} {k : Nat} (hHalted : (m.stepped k).state = .halted) :
    ∃ j, m.HaltsAfter j := by
  induction k with
  | zero => exact ⟨0, hHalted, fun j hj => absurd hj (Nat.not_lt_zero j)⟩
  | succ k ih =>
    cases hState : (m.stepped k).state with
    | halted => exact ih hState
    | running =>
      exact ⟨k + 1, hHalted, fun j hj => running_of_le hState (Nat.le_of_lt_succ hj)⟩

/-- While the machine is running, a bounded run ends at its limit and an unbounded one goes on. -/
theorem runFor_of_running {m : Machine M} (hCause : m.NoStaleCause) {limit : Nat}
    (hRunning : (m.stepped limit).state = .running) :
    (m.runFor limit).result = .ok .limit ∧ (m.runFor limit).machine = m.stepped limit ∧
      m.run limit = none := by
  rw [run_eq, runFor_eq hCause, report_of_running hRunning]
  exact ⟨rfl, rfl, rfl⟩

theorem runFor_of_haltsAfter {m : Machine M} (hCause : m.NoStaleCause) {k limit : Nat}
    (hHalts : m.HaltsAfter k) (hLimit : k ≤ limit) :
    m.runFor limit = ⟨m.stepped k, (m.stepped k).haltedExit, m.stepEvents k⟩ := by
  obtain ⟨hStepped, hEvents⟩ := stepped_eq_of_le hHalts.halted hLimit
  rw [runFor_eq hCause, hStepped, hEvents, report_of_halted hHalts.halted]

theorem run_eq_some_iff {m : Machine M} (hCause : m.NoStaleCause) {k : Nat}
    (hHalts : m.HaltsAfter k) (fuel : Nat) (t : Transition M (Except IllegalOpcode Exit)) :
    m.run fuel = some t ↔
      k ≤ fuel ∧ t = ⟨m.stepped k, (m.stepped k).haltedExit, m.stepEvents k⟩ := by
  by_cases hFuel : k ≤ fuel
  · rw [run_eq, runFor_of_haltsAfter hCause hHalts hFuel, ended?_of_halted rfl, Option.some_inj]
    exact ⟨fun h => ⟨hFuel, h.symm⟩, fun h => h.2.symm⟩
  · rw [(runFor_of_running hCause (hHalts.running fuel (Nat.lt_of_not_le hFuel))).2.2]
    constructor
    · intro h
      cases h
    · intro h
      exact absurd h.1 hFuel

/-- The machine's own record of a fault and the answer of the halting step are the same thing. -/
theorem haltCause_eq_some_iff {m : Machine M} (hCause : m.NoStaleCause) {k : Nat}
    (hHalts : m.HaltsAfter k) (fault : IllegalOpcode) :
    (m.stepped k).haltCause = some fault ↔ m.HaltedByFault k fault := by
  cases k with
  | zero => simp [HaltedByFault, stepped]
  | succ k =>
    have hRunning := hHalts.running k (Nat.lt_succ_self k)
    have hNone := hCause.stepped k hRunning
    rw [stepped_succ]
    obtain ⟨hResult, hKept⟩ | ⟨other, -, -, hStep⟩ := (m.stepped k).step_result
    · simp [HaltedByFault, hResult, hKept, hNone]
    · simp [HaltedByFault, hStep, reject]

/-- `run`, `runFor` and stepping by hand agree. If stepping halts the machine after `k` steps, the
unbounded run ends there, in just one way, and so does every bounded run with a limit from `k` on;
a smaller limit is met, after exactly that many steps. If stepping never halts the machine, the
unbounded run does not end and every limit is met. -/
theorem run_agrees_with_steps {m : Machine M} (hCause : m.NoStaleCause) :
    (∀ k, m.HaltsAfter k → ∃ t, (∀ other, m.RunsTo other ↔ other = t) ∧
      t.machine = m.stepped k ∧
      (∀ fault, t.result = .error fault ↔ m.HaltedByFault k fault) ∧
      ((∀ fault, ¬ m.HaltedByFault k fault) → t.result = .ok .brk) ∧
      (∀ limit, k ≤ limit → m.runFor limit = t) ∧
      ∀ limit < k,
        (m.runFor limit).result = .ok .limit ∧ (m.runFor limit).machine = m.stepped limit) ∧
    ((∀ k, ¬ m.HaltsAfter k) →
      m.Diverges ∧ ∀ limit, (m.runFor limit).result = .ok .limit) := by
  constructor
  · intro k hHalts
    refine ⟨⟨m.stepped k, (m.stepped k).haltedExit, m.stepEvents k⟩, ?_, rfl, ?_, ?_, ?_, ?_⟩
    · intro other
      constructor
      · rintro ⟨fuel, hRun⟩
        exact ((run_eq_some_iff hCause hHalts fuel other).mp hRun).2
      · intro hOther
        exact ⟨k, (run_eq_some_iff hCause hHalts k other).mpr ⟨Nat.le_refl k, hOther⟩⟩
    · intro fault
      rw [haltedExit_eq_error_iff]
      exact haltCause_eq_some_iff hCause hHalts fault
    · intro hNone
      apply haltedExit_of_none
      cases hRecorded : (m.stepped k).haltCause with
      | none => rfl
      | some fault =>
        exact absurd ((haltCause_eq_some_iff hCause hHalts fault).mp hRecorded) (hNone fault)
    · intro limit hLimit
      exact runFor_of_haltsAfter hCause hHalts hLimit
    · intro limit hLimit
      obtain ⟨hResult, hMachine, -⟩ := runFor_of_running hCause (hHalts.running limit hLimit)
      exact ⟨hResult, hMachine⟩
  · intro hNever
    have hRunning : ∀ limit, (m.stepped limit).state = .running := by
      intro limit
      cases hState : (m.stepped limit).state with
      | running => rfl
      | halted =>
        obtain ⟨k, hHalts⟩ := exists_haltsAfter hState
        exact absurd hHalts (hNever k)
    exact ⟨fun fuel => (runFor_of_running hCause (hRunning fuel)).2.2,
      fun limit => (runFor_of_running hCause (hRunning limit)).1⟩

theorem run_agrees_with_steps_at_brk :
    let m : Machine Board := .powerOn .standard (Bus.write { lines := 0xFF } 0 0xEA)
    m.NoStaleCause ∧ m.HaltsAfter 2 ∧ ∃ t, m.RunsTo t ∧ t.machine = m.stepped 2 ∧
      m.runFor 2 = t ∧ m.runFor 3 = t ∧ (m.runFor 1).result = .ok .limit := by
  intro m
  have hCause : m.NoStaleCause := fun _ => rfl
  have hHalts : m.HaltsAfter 2 := ⟨by decide +kernel, by decide +kernel⟩
  obtain ⟨t, hRuns, hMachine, -, -, hFrom, hBelow⟩ := (run_agrees_with_steps hCause).1 2 hHalts
  exact ⟨hCause, hHalts, t, (hRuns t).mpr rfl, hMachine, hFrom 2 (by decide),
    hFrom 3 (by decide), (hBelow 1 (by decide)).1⟩

end Nmos6502.Machine
