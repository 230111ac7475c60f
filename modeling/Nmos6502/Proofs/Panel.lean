import Nmos6502.FrontPanel
import Nmos6502.Proofs.Configuration
import Nmos6502.Proofs.Wording

/-! # The panel against the machine

A session at the front panel is a list of calls. Each call is one command of the machine behind the
panel and shows the reply to it as a Boolean or a notice, so a session is a history of a machine with
flat memory and the default configuration. That is little to show, and yet the history can be told
from it: a run answers by the step that has halted the machine, however long ago.
-/

namespace Nmos6502
set_option autoImplicit false

namespace FrontPanel

inductive Call where
  | load (image : List UInt8) (origin : UInt16)
  | step
  | run (limit : UInt32)
  | resume
  | setPc (address : UInt16)
  | write (address : UInt16) (byte : UInt8)

/-- What the panel shows on a call. -/
inductive Answer where
  | done
  | loaded (outcome : Except Notice Unit)
  | told (outcome : Except Notice Bool)

def operate (panel : FrontPanel) : Call → FrontPanel × Answer
  | .load image origin => ((panel.load image origin).1, .loaded (panel.load image origin).2)
  | .step => (panel.step.1, .told panel.step.2)
  | .run limit => ((panel.run limit).1, .told (panel.run limit).2)
  | .resume => (panel.resume, .done)
  | .setPc address => (panel.setPc address, .done)
  | .write address byte => (panel.write address byte, .done)

def operateAll : List Call → FrontPanel → FrontPanel × List Answer
  | [], panel => (panel, [])
  | call :: rest, panel =>
    let now := panel.operate call
    let later := operateAll rest now.1
    (later.1, now.2 :: later.2)

def Call.command : Call → Command
  | .load image origin => .load image origin
  | .step => .step
  | .run limit => .runFor limit.toNat
  | .resume => .resume
  | .setPc address => .setPc address
  | .write address byte => .poke address byte

/-- A result as the panel shows it: a fault by its message, all else by a Boolean. -/
def shown {α : Type} (lights : α → Bool) (result : Except IllegalOpcode α) : Except Notice Bool :=
  (result.mapError (⟨·.message⟩)).map lights

/-- What a call answers when the machine replies so to its command. -/
def Answer.ofReply : Reply → Answer
  | .loaded result => .loaded (result.mapError (⟨·.message⟩))
  | .stepped result => .told (shown (!·.isHalted) result)
  | .ran result => .told (shown (· == .brk) result)
  | .done | .flags _ | .operand _ | .word _ | .byte _ => .done

/-- A call carries out its command on the machine behind the panel. -/
theorem operate_refines (panel : FrontPanel) (call : Call) :
    ∃ t, panel.machine.obey call.command = some t ∧
      panel.operate call = (⟨t.machine⟩, Answer.ofReply t.result) := by
  cases call <;> exact ⟨_, rfl, rfl⟩

theorem operateAll_refines (panel : FrontPanel) (session : List Call) :
    ∃ t, panel.machine.obeyAll (session.map Call.command) = some t ∧
      panel.operateAll session = (⟨t.machine⟩, t.result.map Answer.ofReply) := by
  induction session generalizing panel with
  | nil => exact ⟨_, rfl, rfl⟩
  | cons call rest ih =>
    obtain ⟨t, hObey, hNow⟩ := panel.operate_refines call
    obtain ⟨later, hLater, hRest⟩ := ih ⟨t.machine⟩
    refine ⟨_, Machine.obeyAll_cons hObey hLater, ?_⟩
    simp only [operateAll, hNow, hRest, List.map_cons]

/-! ## Reading the panel -/

/-- All that can be read at the panel is read off the machine. -/
structure ReadsOut (panel : FrontPanel) (m : Machine Ram) : Prop where
  registers : ∀ register, panel.machine.get register = m.get register
  pc : panel.machine.pc = m.pc
  status : panel.status = m.p.shown
  lamp : ∀ flag, panel.lamp flag = m.p.get flag
  halted : panel.halted = m.state.isHalted
  instructions : panel.instructions = m.retired.toFloat
  read : ∀ address, panel.read address = m.read address
  page : ∀ page, panel.page page =
    Array.ofFn fun offset : Fin 256 => m.read (Word.ofBytes (UInt8.ofNat offset) page)

theorem readsOut (panel : FrontPanel) : panel.ReadsOut panel.machine where
  registers _ := rfl
  pc := rfl
  status := rfl
  lamp _ := rfl
  halted := rfl
  instructions := rfl
  read _ := rfl
  page := panel.machine.memory.page_eq_ofFn

/-! ## What an outcome tells -/

section Shown

variable {α : Type} {lights : α → Bool} {result : Except IllegalOpcode α}

theorem shown_eq_ok_iff {on : Bool} (answer : α) (hLights : ∀ a, lights a = on ↔ a = answer) :
    shown lights result = .ok on ↔ result = .ok answer := by
  cases result with
  | error fault => exact ⟨fun h => (nomatch h), fun h => (nomatch h)⟩
  | ok given =>
    change Except.ok (lights given) = .ok on ↔ _
    rw [Except.ok.injEq, Except.ok.injEq, hLights]

theorem shown_eq_error_iff (notice : Notice) :
    shown lights result = .error notice ↔ ∃ fault, result = .error fault ∧ notice = ⟨fault.message⟩ := by
  cases result with
  | error fault =>
    constructor
    · intro h
      cases h
      exact ⟨fault, rfl, rfl⟩
    · rintro ⟨other, hFault, hNotice⟩
      cases hFault
      rw [hNotice]
      rfl
  | ok given =>
    constructor
    · intro h
      cases h
    · rintro ⟨other, hFault, -⟩
      cases hFault

/-- A notice with the text of a fault is shown for that fault and no other. -/
theorem shown_eq_message_iff (fault : IllegalOpcode) :
    shown lights result = .error ⟨fault.message⟩ ↔ result = .error fault := by
  rw [shown_eq_error_iff]
  constructor
  · rintro ⟨other, hResult, hNotice⟩
    rw [hResult, IllegalOpcode.message_inj.mp (Notice.mk.inj hNotice)]
  · intro hResult
    exact ⟨fault, hResult, rfl⟩

end Shown

/-- What a run tells at a panel whose machine has come here by the steps `past`. -/
structure RunTells (past : List (Machine Ram)) (panel : FrontPanel) (limit : UInt32) : Prop where
  brk :
    let steps := past ++ panel.machine.stepsOf (.runFor limit.toNat)
    (panel.run limit).2 = .ok true ↔
      (panel.run limit).1.machine.state = .halted ∧ ∃ n, Machine.HaltsOn steps n ∧ n.MeetsBrk
  running : (panel.run limit).2 = .ok false ↔ (panel.run limit).1.machine.state = .running
  spent : (panel.run limit).1.machine.state = .running →
    ((panel.run limit).1.machine.retired - panel.machine.retired).toNat = limit.toNat
  fault : ∀ notice,
    let steps := past ++ panel.machine.stepsOf (.runFor limit.toNat)
    (panel.run limit).2 = .error notice ↔
      (panel.run limit).1.machine.state = .halted ∧
        ∃ n fault, Machine.HaltsOn steps n ∧ n.Meets fault ∧ notice = ⟨fault.message⟩
  named : ∀ fault : IllegalOpcode,
    let steps := past ++ panel.machine.stepsOf (.runFor limit.toNat)
    (panel.run limit).2 = .error ⟨fault.message⟩ ↔
      (panel.run limit).1.machine.state = .halted ∧ ∃ n, Machine.HaltsOn steps n ∧ n.Meets fault

/-- What a step tells: the fault that it meets, and else whether the machine runs on. -/
structure StepTells (panel : FrontPanel) : Prop where
  running : panel.step.2 = .ok true ↔ panel.step.1.machine.state = .running
  halted : panel.step.2 = .ok false ↔
    panel.step.1.machine.state = .halted ∧ ∀ fault, ¬panel.machine.Meets fault
  fault : ∀ notice, panel.step.2 = .error notice ↔
    ∃ fault, panel.machine.Meets fault ∧ notice = ⟨fault.message⟩
  named : ∀ fault : IllegalOpcode,
    panel.step.2 = .error ⟨fault.message⟩ ↔ panel.machine.Meets fault

theorem run_tells {past : List (Machine Ram)} {panel : FrontPanel}
    (hExplained : Machine.HaltExplained past panel.machine) (limit : UInt32) :
    RunTells past panel limit := by
  have hRun := Machine.runFor_eq hExplained.noStaleCause limit.toNat
  have hAfter := hExplained.stepped limit.toNat
  have hMachine : (panel.run limit).1.machine = panel.machine.stepped limit.toNat :=
    congrArg Transition.machine hRun
  have hOutcome : (panel.run limit).2 =
      shown (· == .brk) (panel.machine.stepped limit.toNat).report := by
    change shown _ (panel.machine.runFor limit.toNat).result = _
    rw [hRun]
  refine ⟨?_, ?_, ?_, fun notice => ?_, fun fault => ?_⟩
  · rw [hMachine, hOutcome, shown_eq_ok_iff .brk (fun exit => by cases exit <;> decide)]
    exact hAfter.report_eq_brk_iff
  · rw [hMachine, hOutcome, shown_eq_ok_iff .limit (fun exit => by cases exit <;> decide)]
    exact hAfter.report_eq_limit_iff
  · intro hRunning
    rw [hMachine] at hRunning ⊢
    rw [Machine.retired_of_running hRunning, UInt64.add_comm, UInt64.add_sub_cancel]
    exact UInt64.toNat_ofNat_of_lt' (Nat.lt_trans limit.toNat_lt (by decide))
  · rw [hMachine, hOutcome, shown_eq_error_iff]
    constructor
    · rintro ⟨fault, hReport, hNotice⟩
      obtain ⟨hHalted, n, hLast, hMeets⟩ := (hAfter.report_eq_error_iff fault).mp hReport
      exact ⟨hHalted, n, fault, hLast, hMeets, hNotice⟩
    · rintro ⟨hHalted, n, fault, hLast, hMeets, hNotice⟩
      exact ⟨fault, (hAfter.report_eq_error_iff fault).mpr ⟨hHalted, n, hLast, hMeets⟩, hNotice⟩
  · rw [hMachine, hOutcome, shown_eq_message_iff]
    exact hAfter.report_eq_error_iff fault

theorem step_tells {panel : FrontPanel} (hPolicy : panel.machine.config.illegalOpcode = .halt) :
    panel.StepTells := by
  have hFault (fault : IllegalOpcode) :
      panel.machine.step.result = .error fault ↔ panel.machine.Meets fault :=
    (panel.machine.step_eq_error_iff fault).trans (and_iff_left hPolicy)
  have hOutcome : panel.step.2 = shown (!·.isHalted) panel.machine.step.result := rfl
  have hMachine : panel.step.1.machine = panel.machine.step.machine := rfl
  refine ⟨?_, ?_, fun notice => ?_, fun fault => ?_⟩
  · rw [hMachine, hOutcome,
      shown_eq_ok_iff .running (fun state => by cases state <;> decide)]
    refine ⟨fun hRunning => ?_, Machine.step_of_running⟩
    obtain ⟨hOk, -⟩ | ⟨fault, hMeets, -⟩ := panel.machine.step_result
    · exact Except.ok.inj (hOk.symm.trans hRunning)
    · cases ((hFault fault).mpr hMeets).symm.trans hRunning
  · rw [hMachine, hOutcome,
      shown_eq_ok_iff .halted (fun state => by cases state <;> decide)]
    obtain ⟨hOk, -⟩ | ⟨fault, hMeets, -⟩ := panel.machine.step_result
    · rw [hOk]
      refine ⟨fun hHalted => ⟨Except.ok.inj hHalted, fun fault hMeets => ?_⟩, fun h => by rw [h.1]⟩
      cases ((hFault fault).mpr hMeets).symm.trans hOk
    · rw [(hFault fault).mpr hMeets]
      refine ⟨fun hHalted => ?_, fun h => absurd hMeets (h.2 fault)⟩
      cases hHalted
  · simp only [hOutcome, shown_eq_error_iff, hFault]
  · rw [hOutcome, shown_eq_message_iff, hFault]

/-- The panel refines the machine. After every session from power-on, the machine behind the panel
is the one that the commands of the session lead to, the panel has shown its replies, and every read
at the panel is a read of it. What the next run or step shows is told by the history: a run tells that
a BRK has stopped the machine exactly if the step that has halted it was a BRK, in whatever call,
and names the opcode and the address of that step if it was a fault; if the machine is not halted,
the run has used up its limit. A step names a fault only when it executes it itself. Whoever reads a
notice knows the fault, for no two have the same text. -/
theorem panel_refines_machine (session : List Call) :
    let start : Machine Ram := .powerOn .standard .zeroed
    let history := session.map Call.command
    let panel := (powerOn.operateAll session).1
    ∃ t, start.obeyAll history = some t ∧ panel.ReadsOut t.machine ∧
      (powerOn.operateAll session).2 = t.result.map Answer.ofReply ∧
      (∀ limit, RunTells (start.stepsDuring history) panel limit) ∧ panel.StepTells := by
  intro start history panel
  obtain ⟨t, hHistory, hSession⟩ := powerOn.operateAll_refines session
  have hPanel : panel = ⟨t.machine⟩ := congrArg Prod.fst hSession
  have hExplained := Machine.haltExplained_of_history hHistory
  have hConfig := Machine.config_obeyAll (.powerOn .standard Ram.zeroed) hHistory
  rw [hPanel]
  exact ⟨t, hHistory, readsOut ⟨t.machine⟩, congrArg Prod.snd hSession, run_tells hExplained,
    step_tells (congrArg Config.illegalOpcode hConfig)⟩

-- A fault is shown once by the step that meets it, and by every run until the machine is resumed.
example :
    let fault : Notice := ⟨"Illegal opcode 0x02 at 0x0011"⟩
    (powerOn.operateAll
        [.load [0xEA, 0x02, 0x00] 0x10, .step, .step, .step, .setPc 0x12, .run 9, .resume, .run 9]).2 =
      [.loaded (.ok ()), .told (.ok true), .told (.error fault), .told (.ok false), .done,
        .told (.error fault), .done, .told (.ok true)] := by
  rfl

end FrontPanel

end Nmos6502
