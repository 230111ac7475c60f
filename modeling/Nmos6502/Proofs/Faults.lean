import Nmos6502.Bus.Board
import Nmos6502.Proofs.Budget
import Nmos6502.Proofs.History

/-! # Faults

The one fault of a running machine is an undocumented opcode that the configuration does not skip.
It is noticed before anything is done about the opcode, so the machine that has rejected it still
stands in front of it, and trying again fails again. What a step says of its fault holds of a run,
whatever the run has executed or overwritten before.
-/

universe u

namespace Nmos6502.Machine
set_option autoImplicit false

variable {M : Type u} [Bus M]

/-- The opcode that `fault` names is the next one, and undocumented. -/
structure Faces (m : Machine M) (fault : IllegalOpcode) : Prop where
  pc : m.pc = fault.address
  opcode : m.read fault.address = fault.opcode
  undocumented : Instruction.decode fault.opcode = none

theorem meets_iff (m : Machine M) (fault : IllegalOpcode) :
    m.Meets fault ↔ m.state = .running ∧ m.Faces fault := by
  constructor
  · rintro ⟨hRunning, rfl, hUndocumented⟩
    exact ⟨hRunning, rfl, rfl, hUndocumented⟩
  · rintro ⟨hRunning, hPc, hOpcode, hUndocumented⟩
    refine ⟨hRunning, ?_, hUndocumented⟩
    rw [hPc, hOpcode]

/-! ## Trying again -/

/-- A machine that has rejected an opcode and is resumed rejects it again. -/
theorem step_resume_reject {m : Machine M} {fault : IllegalOpcode} (hMeets : m.Meets fault)
    (hPolicy : m.config.illegalOpcode = .halt) :
    (m.reject fault).resume.step = ⟨m.reject fault, .error fault, [.rejected fault]⟩ := by
  have hAgain : (m.reject fault).resume.Meets fault := ⟨rfl, hMeets.fault_eq, hMeets.undocumented⟩
  exact step_of_rejects hAgain hPolicy

theorem obeyAll_retries {m : Machine M} {fault : IllegalOpcode} (hMeets : m.Meets fault)
    (hPolicy : m.config.illegalOpcode = .halt) (attempts : Nat) :
    (m.reject fault).obeyAll (List.replicate attempts [.resume, .step]).flatten =
      some ⟨m.reject fault,
        (List.replicate attempts [.done, .stepped (.error fault)]).flatten,
        List.replicate attempts (.rejected fault)⟩ := by
  induction attempts with
  | zero => rfl
  | succ attempts ih =>
    have hStep : (m.reject fault).resume.obey .step =
        some ⟨m.reject fault, .stepped (.error fault), [.rejected fault]⟩ := by
      rw [obey, step_resume_reject hMeets hPolicy]
      rfl
    have hResume : (m.reject fault).obey .resume = some (m.reject fault).resume.quietly := rfl
    simp only [List.replicate_succ, List.flatten_cons, List.cons_append, List.nil_append]
    rw [obeyAll_cons hResume (obeyAll_cons hStep ih)]
    rfl

/-! ## Runs -/

/-- A run that ends with a fault has met it on one of its machines, and leaves that one as it was
apart from the halt. -/
theorem exists_meets_of_runFrom {m : Machine M} {limit : Nat} {events : Array Event}
    {fault : IllegalOpcode} (hFault : (runFrom limit m events).result = .error fault) :
    ∃ k, (m.stepped k).Meets fault ∧
      (runFrom limit m events).machine = (m.stepped k).reject fault := by
  induction limit generalizing m events with
  | zero => cases hFault
  | succ limit ih =>
    rw [runFrom] at hFault ⊢
    obtain ⟨hResult, -⟩ | ⟨other, hMeets, -, hStep⟩ := m.step_result
    · cases hAfter : m.step.machine.state with
      | running =>
        simp only [hResult, hAfter] at hFault ⊢
        obtain ⟨k, hMeets, hMachine⟩ := ih hFault
        exact ⟨k + 1, hMeets, hMachine⟩
      | halted =>
        simp only [hResult, hAfter] at hFault
        cases hFault
    · simp only [hStep] at hFault ⊢
      cases hFault
      exact ⟨0, hMeets, rfl⟩

theorem faces_of_runFor {m : Machine M} (hRunning : m.state = .running) {limit : Nat}
    {fault : IllegalOpcode} (hFault : (m.runFor limit).result = .error fault) :
    (m.runFor limit).machine.Faces fault := by
  have hLoop : m.runFor limit = runFrom limit m #[] := by rw [runFor, hRunning]
  rw [hLoop] at hFault ⊢
  obtain ⟨k, hMeets, hMachine⟩ := exists_meets_of_runFrom hFault
  obtain ⟨-, hPc, hOpcode, hUndocumented⟩ := ((m.stepped k).meets_iff fault).mp hMeets
  rw [hMachine]
  exact ⟨hPc, hOpcode, hUndocumented⟩

/-- Faults come from undocumented opcodes only, and leave no half-done work. A step fails exactly on
a running machine in front of an undocumented opcode that it does not skip, names that opcode and
its address, and changes nothing but the run state and its cause; resumed, the machine fails in the
same way however often it is tried. Where such opcodes are skipped, the step moves on by one byte
and counts. A run of a running machine that fails ends in front of the opcode that it names. -/
theorem faults_exactly_on_undocumented (M : Type u) [Bus M] (m : Machine M) :
    (∀ fault, m.step.result = .error fault ↔
      m.state = .running ∧ m.config.illegalOpcode = .halt ∧
        Instruction.decode (m.read m.pc) = none ∧ fault = ⟨m.read m.pc, m.pc⟩) ∧
    (∀ fault, m.step.result = .error fault →
      m.step.machine = { m with state := .halted, haltCause := some fault } ∧
      ∀ attempts, m.step.machine.obeyAll (List.replicate attempts [.resume, .step]).flatten =
        some ⟨m.step.machine,
          (List.replicate attempts [.done, .stepped (.error fault)]).flatten,
          List.replicate attempts (.rejected fault)⟩) ∧
    (m.state = .running → m.config.illegalOpcode = .skip →
      Instruction.decode (m.read m.pc) = none →
      m.step = ⟨{ m with pc := m.pc + 1, retired := m.retired + 1 }, .ok .running,
        [.skipped ⟨m.read m.pc, m.pc⟩]⟩) ∧
    (m.state = .running → ∀ t fault, (∃ limit, m.runFor limit = t) ∨ m.RunsTo t →
      t.result = .error fault → t.machine.Faces fault) := by
  refine ⟨fun fault => ?_, fun fault hFault => ?_, fun hRunning hPolicy hUndocumented => ?_, ?_⟩
  · rw [step_eq_error_iff]
    constructor
    · rintro ⟨⟨hRunning, rfl, hUndocumented⟩, hPolicy⟩
      exact ⟨hRunning, hPolicy, hUndocumented, rfl⟩
    · rintro ⟨hRunning, hPolicy, hUndocumented, rfl⟩
      exact ⟨⟨hRunning, rfl, hUndocumented⟩, hPolicy⟩
  · obtain ⟨hMeets, hPolicy⟩ := (m.step_eq_error_iff fault).mp hFault
    rw [step_of_rejects hMeets hPolicy]
    exact ⟨rfl, obeyAll_retries hMeets hPolicy⟩
  · exact step_of_skips ⟨hRunning, rfl, hUndocumented⟩ hPolicy
  · rintro hRunning t fault (⟨limit, rfl⟩ | ⟨fuel, hRun⟩) hFault
    · exact faces_of_runFor hRunning hFault
    · rw [run_eq] at hRun
      obtain rfl := ended?_eq_some hRun
      exact faces_of_runFor hRunning hFault

/-- The program writes the opcode that it fails on over a NOP of its own. -/
theorem faults_exactly_on_undocumented_of_overwritten :
    let m : Machine Board :=
      powerOn .standard (Bus.writeAll 0 [0xA9, 0x02, 0x85, 0x04, 0xEA] { lines := 0xFF })
    let fault : IllegalOpcode := ⟨0x02, 0x0004⟩
    m.read 0x0004 = 0xEA ∧ (m.runFor 5).result = .error fault ∧ (m.runFor 5).machine.Faces fault ∧
      (m.stepped 2).step.machine.obeyAll [.resume, .step, .resume, .step] =
        some ⟨(m.stepped 2).step.machine,
          [.done, .stepped (.error fault), .done, .stepped (.error fault)],
          [.rejected fault, .rejected fault]⟩ := by
  intro m fault
  have hRunning : m.state = .running := rfl
  have hMeets : (m.stepped 2).Meets fault :=
    ⟨by decide +kernel, by decide +kernel, by decide +kernel⟩
  have hStep : (m.stepped 2).step.result = .error fault :=
    ((m.stepped 2).step_eq_error_iff fault).mpr ⟨hMeets, by decide +kernel⟩
  have hHalted : (m.stepped 5).state = .halted := by decide +kernel
  have hRun : (m.runFor 5).result = .error fault := by
    rw [runFor_eq fun _ => rfl, report_of_halted hHalted, haltedExit_eq_error_iff]
    decide +kernel
  obtain ⟨-, -, -, hFaces⟩ := faults_exactly_on_undocumented Board m
  obtain ⟨-, hRetries, -⟩ := faults_exactly_on_undocumented Board (m.stepped 2)
  exact ⟨by decide +kernel, hRun, hFaces hRunning _ fault (.inl ⟨5, rfl⟩) hRun,
    (hRetries fault hStep).2 2⟩

end Nmos6502.Machine
