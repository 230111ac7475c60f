import Nmos6502.Machine.Run
import Nmos6502.Proofs.Step

/-! # Runs are iterated steps

A bounded run leaves the machine that as many single steps leave, and reports what can be read off
that machine: the limit while it is running, else the cause of its halt. Two statements rest on
this. Bounded runs compose, however a budget is cut into slices; and `run`, `runFor` and stepping
by hand agree. The only assumption is that a running machine has no cause left from an old halt.
-/

universe u

namespace Nmos6502.Machine
set_option autoImplicit false

variable {M : Type u} [Bus M]

/-- The machine after `k` steps; a halted machine stays as it is. -/
def stepped : Nat → Machine M → Machine M
  | 0, m => m
  | k + 1, m => stepped k m.step.machine

def stepEvents : Nat → Machine M → List Event
  | 0, _ => []
  | k + 1, m => m.step.events ++ stepEvents k m.step.machine

/-- A running machine has no halt cause left over from an earlier halt. -/
def NoStaleCause (m : Machine M) : Prop := m.state = .running → m.haltCause = none

def report (m : Machine M) : Except IllegalOpcode Exit :=
  match m.state with
  | .running => .ok .limit
  | .halted => m.haltedExit

omit [Bus M] in
theorem report_of_running {m : Machine M} (hRunning : m.state = .running) :
    m.report = .ok .limit := by
  rw [report, hRunning]

omit [Bus M] in
theorem report_of_halted {m : Machine M} (hHalted : m.state = .halted) :
    m.report = m.haltedExit := by
  rw [report, hHalted]

omit [Bus M] in
theorem haltedExit_eq_error_iff (m : Machine M) (fault : IllegalOpcode) :
    m.haltedExit = .error fault ↔ m.haltCause = some fault := by
  unfold haltedExit
  cases m.haltCause <;> simp

omit [Bus M] in
theorem haltedExit_of_none {m : Machine M} (hCause : m.haltCause = none) :
    m.haltedExit = .ok .brk := by
  rw [haltedExit, hCause]

omit [Bus M] in
theorem haltCause_of_report {m : Machine M} {fault : IllegalOpcode}
    (hReport : m.report = .error fault) : m.haltCause = some fault := by
  cases hState : m.state with
  | running =>
    rw [report_of_running hState] at hReport
    cases hReport
  | halted =>
    rw [report_of_halted hState] at hReport
    exact (m.haltedExit_eq_error_iff fault).mp hReport

omit [Bus M] in
theorem halted_of_report {m : Machine M} (hReport : m.report = .ok .brk) :
    m.state = .halted ∧ m.haltCause = none := by
  cases hState : m.state with
  | running =>
    rw [report_of_running hState] at hReport
    cases hReport
  | halted =>
    refine ⟨rfl, ?_⟩
    rw [report_of_halted hState, haltedExit] at hReport
    cases hCause : m.haltCause with
    | none => rfl
    | some fault =>
      rw [hCause] at hReport
      cases hReport

/-- What `k + 1` steps contribute to a list, one after the other. -/
theorem flatMap_range_succ {α : Type} (f : Nat → List α) (k : Nat) :
    (List.range (k + 1)).flatMap f = (List.range k).flatMap f ++ f k := by
  rw [List.range_succ, List.flatMap_append, List.flatMap_singleton]

/-- What no step from `i` to `l` changes. -/
theorem eq_of_forall_succ_eq {α : Type} {f : Nat → α} {i l : Nat} (hil : i ≤ l)
    (h : ∀ j, i ≤ j → j < l → f (j + 1) = f j) : f l = f i := by
  obtain ⟨d, rfl⟩ := Nat.exists_eq_add_of_le hil
  induction d with
  | zero => rfl
  | succ d ih =>
    have hBefore := ih (Nat.le_add_right i d) fun j hij hj => h j hij (Nat.lt_succ_of_lt hj)
    exact (h (i + d) (Nat.le_add_right i d) (Nat.lt_succ_self _)).trans hBefore

theorem stepped_add (first second : Nat) (m : Machine M) :
    m.stepped (first + second) = (m.stepped first).stepped second := by
  induction first generalizing m with
  | zero => rw [Nat.zero_add, stepped]
  | succ first ih =>
    rw [Nat.succ_add]
    exact ih m.step.machine

theorem stepped_succ (k : Nat) (m : Machine M) :
    m.stepped (k + 1) = (m.stepped k).step.machine := stepped_add k 1 m

/-- What a step keeps, any number of steps keeps. -/
theorem stepped_keeps {P : Machine M → Prop} (hStep : ∀ n, P n → P n.step.machine) {m : Machine M}
    (h : P m) (k : Nat) : P (m.stepped k) := by
  induction k generalizing m with
  | zero => exact h
  | succ k ih => exact ih (hStep m h)

theorem config_stepped (m : Machine M) (k : Nat) : (m.stepped k).config = m.config :=
  stepped_keeps (P := fun n => n.config = m.config)
    (fun n hConfig => n.config_step.trans hConfig) rfl k

theorem stepEvents_add (first second : Nat) (m : Machine M) :
    m.stepEvents (first + second) = m.stepEvents first ++ (m.stepped first).stepEvents second := by
  induction first generalizing m with
  | zero => rw [Nat.zero_add, stepEvents, stepped, List.nil_append]
  | succ first ih =>
    rw [Nat.succ_add, stepEvents, ih m.step.machine, stepEvents, stepped, List.append_assoc]

theorem stepEvents_succ (k : Nat) (m : Machine M) :
    m.stepEvents (k + 1) = m.stepEvents k ++ (m.stepped k).step.events := by
  rw [stepEvents_add, stepEvents, stepEvents, List.append_nil]

theorem stepped_of_halted {m : Machine M} (hHalted : m.state = .halted) (k : Nat) :
    m.stepped k = m := by
  induction k with
  | zero => rfl
  | succ k ih => rw [stepped_succ, ih, step_of_halted hHalted]

theorem stepEvents_of_halted {m : Machine M} (hHalted : m.state = .halted) (k : Nat) :
    m.stepEvents k = [] := by
  induction k with
  | zero => rfl
  | succ k ih => rw [stepEvents, step_of_halted hHalted, ih, List.nil_append]

theorem NoStaleCause.step {m : Machine M} (hCause : m.NoStaleCause) :
    m.step.machine.NoStaleCause := by
  intro hAfter
  obtain ⟨hResult, hKept⟩ | ⟨fault, hMeets, -, hStep⟩ := m.step_result
  · rw [hKept]
    apply hCause
    cases hState : m.state with
    | running => rfl
    | halted =>
      rw [step_of_halted hState, hState] at hAfter
      cases hAfter
  · rw [hStep] at hAfter
    cases hAfter

theorem NoStaleCause.stepped {m : Machine M} (hCause : m.NoStaleCause) (k : Nat) :
    (m.stepped k).NoStaleCause := stepped_keeps (fun _ => NoStaleCause.step) hCause k

/-- Whatever a bounded run reports, it leaves the machine and the events of as many steps. -/
theorem runFrom_leaves (limit : Nat) (m : Machine M) (events : Array Event) :
    (runFrom limit m events).machine = m.stepped limit ∧
      (runFrom limit m events).events = events.toList ++ m.stepEvents limit := by
  induction limit generalizing m events with
  | zero => exact ⟨rfl, (List.append_nil _).symm⟩
  | succ limit ih =>
    have hEvents : (events ++ m.step.events).toList = events.toList ++ m.step.events :=
      Array.toList_appendList
    rw [runFrom, stepped, stepEvents]
    obtain ⟨hResult, -⟩ | ⟨fault, -, -, hStep⟩ := m.step_result
    · cases hAfter : m.step.machine.state with
      | running =>
        obtain ⟨hMachine, hLater⟩ := ih m.step.machine (events ++ m.step.events)
        simp only [hResult, hAfter, hMachine, hLater, hEvents, List.append_assoc, and_self]
      | halted =>
        simp only [hResult, hAfter, stepped_of_halted hAfter, stepEvents_of_halted hAfter, hEvents,
          List.append_nil, and_self]
    · have hHalted : (m.reject fault).state = .halted := rfl
      rw [hStep] at hEvents
      simp only [hStep, stepped_of_halted hHalted, stepEvents_of_halted hHalted, hEvents,
        List.append_nil, and_self]

theorem runFrom_result {m : Machine M} (hRunning : m.state = .running)
    (hCause : m.haltCause = none) (limit : Nat) (events : Array Event) :
    (runFrom limit m events).result = (m.stepped limit).report := by
  induction limit generalizing m events with
  | zero => exact (report_of_running hRunning).symm
  | succ limit ih =>
    rw [runFrom, stepped]
    obtain ⟨hResult, hKept⟩ | ⟨fault, -, -, hStep⟩ := m.step_result
    · rw [hCause] at hKept
      cases hAfter : m.step.machine.state with
      | running => simp only [hResult, hAfter, ih hAfter hKept]
      | halted =>
        simp only [hResult, hAfter, stepped_of_halted hAfter, report_of_halted hAfter,
          haltedExit_of_none hKept]
    · have hHalted : (m.reject fault).state = .halted := rfl
      have hExit : (m.reject fault).haltedExit = .error fault := rfl
      simp only [hStep, stepped_of_halted hHalted, report_of_halted hHalted, hExit]

theorem runFrom_eq {m : Machine M} (hRunning : m.state = .running) (hCause : m.haltCause = none)
    (limit : Nat) (events : Array Event) :
    runFrom limit m events =
      ⟨m.stepped limit, (m.stepped limit).report, events.toList ++ m.stepEvents limit⟩ := by
  obtain ⟨hMachine, hEvents⟩ := runFrom_leaves limit m events
  rw [← runFrom_result hRunning hCause limit events, ← hMachine, ← hEvents]

theorem runFor_leaves (limit : Nat) (m : Machine M) :
    (m.runFor limit).machine = m.stepped limit ∧
      (m.runFor limit).events = m.stepEvents limit := by
  unfold runFor
  cases hState : m.state with
  | running => exact runFrom_leaves limit m #[]
  | halted =>
    rw [stepped_of_halted hState, stepEvents_of_halted hState]
    exact ⟨rfl, rfl⟩

theorem runFor_eq {m : Machine M} (hCause : m.NoStaleCause) (limit : Nat) :
    m.runFor limit = ⟨m.stepped limit, (m.stepped limit).report, m.stepEvents limit⟩ := by
  unfold runFor
  cases hState : m.state with
  | running => exact runFrom_eq hState (hCause hState) limit #[]
  | halted =>
    rw [stepped_of_halted hState, stepEvents_of_halted hState, report_of_halted hState]

/-- The outcome of a bounded run, unless it met its limit. -/
def ended? (t : Transition M (Except IllegalOpcode Exit)) :
    Option (Transition M (Except IllegalOpcode Exit)) :=
  match t.result with
  | .ok .limit => none
  | .ok .brk | .error _ => some t

theorem runOn_eq (fuel : Nat) (m : Machine M) (events : Array Event) :
    runOn fuel m events = ended? (runFrom fuel m events) := by
  induction fuel generalizing m events with
  | zero => rfl
  | succ fuel ih =>
    rw [runOn, runFrom.eq_def]
    cases hResult : m.step.result with
    | error fault => simp only [hResult, ended?]
    | ok state =>
      cases state with
      | running => simp only [hResult, ih]
      | halted => simp only [hResult, ended?]

omit [Bus M] in
theorem ended?_of_halted {m : Machine M} {t : Transition M (Except IllegalOpcode Exit)}
    (hResult : t.result = m.haltedExit) : ended? t = some t := by
  unfold ended?
  rw [hResult, haltedExit]
  cases m.haltCause <;> rfl

omit [Bus M] in
theorem ended?_eq_some {t u : Transition M (Except IllegalOpcode Exit)} (h : ended? t = some u) :
    t = u := by
  unfold ended? at h
  split at h
  · cases h
  · exact Option.some.inj h
  · exact Option.some.inj h

/-- An unbounded run is a bounded run that did not meet its limit. -/
theorem run_eq (fuel : Nat) (m : Machine M) : m.run fuel = ended? (m.runFor fuel) := by
  unfold run runFor
  cases m.state with
  | running => exact runOn_eq fuel m #[]
  | halted => exact (ended?_of_halted (m := m) rfl).symm

end Nmos6502.Machine
