import Nmos6502.Machine.Command
import Nmos6502.Proofs.Run

/-! # Histories

A history is a list of commands, carried out one after the other. A machine is reachable if some
history leads to it from power-on, whatever the configuration, the memory and the commands. Of the
commands only steps and runs take steps; the machines on which they do are reachable as well.
-/

universe u

namespace Nmos6502.Machine
set_option autoImplicit false

variable {M : Type u} [Bus M]

/-- Carries out a list of commands; `none` only if one of them is a run that does not end. -/
def obeyAll : List Command → Machine M → Option (Transition M (List Reply))
  | [], m => some ⟨m, [], []⟩
  | command :: rest, m => do
    let t ← m.obey command
    let later ← obeyAll rest t.machine
    some ⟨later.machine, t.result :: later.result, t.events ++ later.events⟩

inductive Reachable : Machine M → Prop where
  | powerOn (config : Config) (memory : M) : Reachable (.powerOn config memory)
  | obey {m : Machine M} {t : Transition M Reply} (command : Command) (hReachable : Reachable m)
      (hObey : m.obey command = some t) : Reachable t.machine

theorem obeyAll_cons {command : Command} {rest : List Command} {m : Machine M}
    {t : Transition M Reply} {later : Transition M (List Reply)} (hObey : m.obey command = some t)
    (hLater : t.machine.obeyAll rest = some later) :
    m.obeyAll (command :: rest) =
      some ⟨later.machine, t.result :: later.result, t.events ++ later.events⟩ := by
  rw [obeyAll, hObey, Option.bind_eq_bind, Option.bind_some, hLater]
  rfl

theorem exists_of_obeyAll_cons {command : Command} {rest : List Command} {m : Machine M}
    {u : Transition M (List Reply)} (hHistory : m.obeyAll (command :: rest) = some u) :
    ∃ t later, m.obey command = some t ∧ t.machine.obeyAll rest = some later ∧
      u.machine = later.machine := by
  rw [obeyAll] at hHistory
  obtain ⟨t, hObey, hHistory⟩ := Option.bind_eq_some_iff.mp hHistory
  obtain ⟨later, hLater, hEnd⟩ := Option.bind_eq_some_iff.mp hHistory
  cases hEnd
  exact ⟨t, later, hObey, hLater, rfl⟩

theorem Reachable.obeyAll {m : Machine M} {history : List Command}
    {t : Transition M (List Reply)} (hReachable : m.Reachable)
    (hHistory : m.obeyAll history = some t) : t.machine.Reachable := by
  induction history generalizing m t with
  | nil =>
    cases hHistory
    exact hReachable
  | cons command rest ih =>
    obtain ⟨u, later, hObey, hLater, hMachine⟩ := exists_of_obeyAll_cons hHistory
    rw [hMachine]
    exact ih (hReachable.obey command hObey) hLater

/-! ## The steps of a history -/

/-- The machines on which a run takes its steps; it takes no more than `limit`. -/
def loopSteps : Nat → Machine M → List (Machine M)
  | 0, _ => []
  | limit + 1, m =>
    match m.state with
    | .halted => []
    | .running => m :: loopSteps limit m.step.machine

/-- The machines on which a command takes a step, in order. -/
def stepsOf (m : Machine M) : Command → List (Machine M)
  | .step => [m]
  | .run fuel => m.loopSteps fuel
  | .runFor limit => m.loopSteps limit
  | _ => []

def stepsDuring : List Command → Machine M → List (Machine M)
  | [], _ => []
  | command :: rest, m =>
    m.stepsOf command ++
      match m.obey command with
      | some t => stepsDuring rest t.machine
      | none => []

theorem stepsDuring_cons {command : Command} {m : Machine M} {t : Transition M Reply}
    (hObey : m.obey command = some t) (rest : List Command) :
    m.stepsDuring (command :: rest) = m.stepsOf command ++ t.machine.stepsDuring rest := by
  rw [stepsDuring, hObey]

theorem loopSteps_of_halted {m : Machine M} (hHalted : m.state = .halted) (limit : Nat) :
    m.loopSteps limit = [] := by
  cases limit with
  | zero => rfl
  | succ limit => rw [loopSteps, hHalted]

theorem loopSteps_succ {m : Machine M} (hRunning : m.state = .running) (limit : Nat) :
    m.loopSteps (limit + 1) = m :: m.step.machine.loopSteps limit := by
  rw [loopSteps, hRunning]

theorem loopSteps_add (first second : Nat) (m : Machine M) :
    m.loopSteps (first + second) = m.loopSteps first ++ (m.stepped first).loopSteps second := by
  induction first generalizing m with
  | zero => rw [Nat.zero_add, loopSteps, stepped, List.nil_append]
  | succ first ih =>
    cases hState : m.state with
    | running =>
      rw [Nat.succ_add, loopSteps_succ hState, loopSteps_succ hState, ih, stepped,
        List.cons_append]
    | halted =>
      rw [stepped_of_halted hState, loopSteps_of_halted hState, loopSteps_of_halted hState,
        loopSteps_of_halted hState, List.append_nil]

theorem exists_stepped_of_mem_loopSteps {limit : Nat} {m n : Machine M}
    (hMem : n ∈ m.loopSteps limit) : ∃ k, n = m.stepped k := by
  induction limit generalizing m with
  | zero => cases hMem
  | succ limit ih =>
    cases hState : m.state with
    | halted =>
      rw [loopSteps_of_halted hState] at hMem
      cases hMem
    | running =>
      rw [loopSteps_succ hState] at hMem
      rcases List.mem_cons.mp hMem with rfl | hMem
      · exact ⟨0, rfl⟩
      · obtain ⟨k, hStepped⟩ := ih hMem
        exact ⟨k + 1, hStepped⟩

theorem exists_stepped_of_mem_stepsOf {command : Command} {m n : Machine M}
    (hMem : n ∈ m.stepsOf command) : ∃ k, n = m.stepped k := by
  cases command with
  | step => exact ⟨0, List.mem_singleton.mp hMem⟩
  | run fuel => exact exists_stepped_of_mem_loopSteps hMem
  | runFor limit => exact exists_stepped_of_mem_loopSteps hMem
  | _ => cases hMem

theorem Reachable.stepped {m : Machine M} (hReachable : m.Reachable) (k : Nat) :
    (m.stepped k).Reachable := stepped_keeps (fun _ h => h.obey .step rfl) hReachable k

/-- A run that ends leaves the machine that as many steps leave as it had fuel. -/
theorem machine_of_obey_run {m : Machine M} (hCause : m.NoStaleCause) {fuel : Nat}
    {t : Transition M Reply} (hObey : m.obey (.run fuel) = some t) :
    t.machine = m.stepped fuel := by
  obtain ⟨u, hRun, rfl⟩ := Option.map_eq_some_iff.mp hObey
  rw [run_eq, runFor_eq hCause] at hRun
  exact congrArg Transition.machine (ended?_eq_some hRun).symm

theorem machine_of_obey_runFor {m : Machine M} (hCause : m.NoStaleCause) {limit : Nat}
    {t : Transition M Reply} (hObey : m.obey (.runFor limit) = some t) :
    t.machine = m.stepped limit := by
  cases hObey
  exact congrArg Transition.machine (runFor_eq hCause limit)

/-- A command takes a step, or the steps of a run, or none; without a step the control part of the
machine is released from a halt, or kept. -/
theorem obey_cases {m : Machine M} {command : Command} {t : Transition M Reply}
    (hCause : m.NoStaleCause) (hObey : m.obey command = some t) :
    (t.machine = m.step.machine ∧ m.stepsOf command = [m]) ∨
    (∃ limit, t.machine = m.stepped limit ∧ m.stepsOf command = m.loopSteps limit) ∨
    (t.machine.control = m.resume.control ∧ m.stepsOf command = []) ∨
    (t.machine.control = m.control ∧ m.stepsOf command = []) := by
  cases command with
  | step =>
    cases hObey
    exact .inl ⟨rfl, rfl⟩
  | run fuel => exact .inr (.inl ⟨fuel, machine_of_obey_run hCause hObey, rfl⟩)
  | runFor limit => exact .inr (.inl ⟨limit, machine_of_obey_runFor hCause hObey, rfl⟩)
  | load image origin =>
    cases hObey
    by_cases hFits : origin.toNat + image.length ≤ 0x10000
    · refine .inr (.inr (.inl ⟨?_, rfl⟩))
      rw [load, if_pos hFits]
      rfl
    · refine .inr (.inr (.inr ⟨?_, rfl⟩))
      rw [load, if_neg hFits]
      rfl
  | resume =>
    cases hObey
    exact .inr (.inr (.inl ⟨rfl, rfl⟩))
  | setRegister register value =>
    cases hObey
    exact .inr (.inr (.inr ⟨control_put m register value, rfl⟩))
  | _ =>
    cases hObey
    exact .inr (.inr (.inr ⟨rfl, rfl⟩))

end Nmos6502.Machine
