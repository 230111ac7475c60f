import Nmos6502.Bus.Board
import Nmos6502.Proofs.Halt
import Nmos6502.Proofs.Writes

/-! # The live status register

No documented instruction turns the unused bit off or the B bit on, and no command does, so the
register of every reachable machine is live. What PHP and BRK push of a live register is the byte
that the machine shows, with the B bit added, and it is that register again when pulled.
-/

universe u

namespace Nmos6502
set_option autoImplicit false

namespace Status

theorem live_of_isLive {s : Status} (hLive : s.IsLive) : s.live = s := by
  obtain ⟨hUnused, hBrk⟩ := hLive
  obtain ⟨c, z, i, d, b, u, v, n⟩ := s
  subst hUnused hBrk
  rfl

theorem pulled_pushed {s : Status} (hLive : s.IsLive) : pulled s.pushed = s := by
  rw [pulled, pushed, ofByte_toByte]
  exact live_of_isLive hLive

theorem shown_of_isLive {s : Status} (hLive : s.IsLive) : s.shown = s.toByte := by
  obtain ⟨hUnused, -⟩ := hLive
  rw [shown, ← hUnused]

theorem contains_of_isLive {s mask : Status} (hLive : s.IsLive) (hBrk : mask.brk = true) :
    s.contains mask = false := by
  rw [Bool.eq_false_iff, ne_eq, contains_iff]
  intro hAll
  cases hLive.2.symm.trans (hAll .brk hBrk)

theorem pushed_eq_shown (s : Status) : s.pushed = s.shown ||| Flag.mask .brk := by
  obtain ⟨c, z, i, d, b, u, v, n⟩ := s
  revert c z i d b u v n
  decide +kernel

theorem IsLive.put {s : Status} (hLive : s.IsLive) {flag : Flag} (hBrk : flag ≠ .brk)
    (hUnused : flag ≠ .unused) (on : Bool) : (s.put flag on).IsLive := by
  have hUnusedKept : (s.put flag on).get .unused = s.get .unused := by
    rw [get_put, if_neg hUnused.symm]
  have hBrkKept : (s.put flag on).get .brk = s.get .brk := by
    rw [get_put, if_neg hBrk.symm]
  exact ⟨hUnusedKept.trans hLive.1, hBrkKept.trans hLive.2⟩

end Status

/-- The flag instructions leave the two hidden flags alone. -/
theorem Mnemonic.setFlag_ne {mnemonic : Mnemonic} {flag : Flag} {on : Bool}
    (h : mnemonic.operation = .setFlag flag on) : flag ≠ .brk ∧ flag ≠ .unused := by
  cases mnemonic <;> cases h <;> decide

namespace Machine

variable {M : Type u} [Bus M]

omit [Bus M] in
theorem p_put (m : Machine M) (register : Register) (value : UInt8) :
    (m.put register value).p = m.p := by
  cases register <;> rfl

omit [Bus M] in
theorem isLive_deliver {m : Machine M} (hLive : m.p.IsLive) (register : Register)
    (result : UInt8) : (m.deliver register result).p.IsLive := by
  have hDescribed : (m.deliver register result).p = m.p.describing result :=
    congrArg (·.describing result) (m.p_put register result)
  rw [hDescribed]
  exact hLive

theorem execute_isLive {m : Machine M} (hLive : m.p.IsLive) (mnemonic : Mnemonic)
    (operand : Operand) : (m.execute mnemonic.operation operand).1.p.IsLive := by
  cases hOperation : mnemonic.operation with
  | setFlag flag on =>
    obtain ⟨hBrk, hUnused⟩ := Mnemonic.setFlag_ne hOperation
    exact hLive.put hBrk hUnused on
  | load register => exact isLive_deliver hLive register _
  | incrementRegister register => exact isLive_deliver hLive register _
  | decrementRegister register => exact isLive_deliver hLive register _
  | transfer source target =>
    cases target with
    | sp => exact hLive
    | _ => exact isLive_deliver hLive _ _
  | branch flag on =>
    obtain ⟨pc, hMachine⟩ := m.execute_branch flag on operand
    rw [hMachine]
    exact hLive
  | increment => cases operand <;> exact hLive
  | decrement => cases operand <;> exact hLive
  | shift shift => cases operand <;> exact hLive
  | pullStatus => exact Status.isLive_live _
  | returnFromInterrupt => exact Status.isLive_live _
  | _ => exact hLive

theorem isLive_step {m : Machine M} (hLive : m.p.IsLive) : m.step.machine.p.IsLive := by
  obtain ⟨-, hStep⟩ | ⟨i, -, hStep⟩ | ⟨fault, -, -, hStep⟩ | ⟨fault, -, -, hStep⟩ := m.step_cases
  · rw [hStep]
    exact hLive
  · obtain ⟨pc, state, hMachine⟩ := m.stepDocumented_machine i
    rw [hStep, hMachine]
    exact execute_isLive hLive i.mnemonic _
  · rw [hStep]
    exact hLive
  · rw [hStep]
    exact hLive

/-! ## Over any history -/

theorem isLive_stepped {m : Machine M} (hLive : m.p.IsLive) (k : Nat) :
    (m.stepped k).p.IsLive :=
  stepped_keeps (P := (·.p.IsLive)) (fun _ => isLive_step) hLive k

theorem isLive_obey {m : Machine M} {command : Command} {t : Transition M Reply}
    (hCause : m.NoStaleCause) (hLive : m.p.IsLive) (hObey : m.obey command = some t) :
    t.machine.p.IsLive := by
  cases command with
  | step =>
    cases hObey
    exact isLive_step hLive
  | run fuel =>
    rw [machine_of_obey_run hCause hObey]
    exact isLive_stepped hLive fuel
  | runFor limit =>
    rw [machine_of_obey_runFor hCause hObey]
    exact isLive_stepped hLive limit
  | load image origin =>
    cases hObey
    unfold load
    split <;> exact hLive
  | setRegister register value =>
    cases hObey
    exact m.p_put register value ▸ hLive
  | setStatus byte =>
    cases hObey
    exact Status.isLive_live _
  | assignFlags mask on =>
    cases hObey
    exact Status.isLive_live _
  | _ =>
    cases hObey
    exact hLive

theorem Reachable.isLive {m : Machine M} (hReachable : m.Reachable) : m.p.IsLive := by
  induction hReachable with
  | powerOn config memory => exact ⟨rfl, rfl⟩
  | obey command hReachable hObey ih =>
    exact isLive_obey hReachable.haltConsistent.noStaleCause ih hObey

/-- The stack writes of PHP, and of BRK before it turns interrupts off, end with the status as the
machine shows it and the B bit. -/
theorem memory_step_of_status {m : Machine M} {i : Instruction} (hNext : m.next? = some i) :
    (i.mnemonic = .php → m.step.machine.memory =
      Bus.write m.memory (Word.stackSlot m.sp) (m.p.shown ||| Flag.mask .brk)) ∧
    (i.mnemonic = .brk → m.step.machine.memory =
      Bus.writeEach [(Word.stackSlot m.sp, Word.high (m.pc + 2)),
        (Word.stackSlot (m.sp - 1), Word.low (m.pc + 2)),
        (Word.stackSlot (m.sp - 2), m.p.shown ||| Flag.mask .brk)] m.memory) := by
  rw [memory_step, writes, hNext, ← Status.pushed_eq_shown]
  have hTwo : m.sp - 1 - 1 = m.sp - 2 := Byte.sub_sub m.sp 1 1
  constructor
  · intro hPhp
    simp only [hPhp]
    rfl
  · intro hBrk
    rw [← hTwo]
    simp only [hBrk]
    rfl

/-- The status of a reachable machine is live: it is shown as it is stored, and no test that asks
for the B bit succeeds. The same is true on every machine on which a command takes a step, and what
PHP and BRK push there is the byte shown just before, with the B bit added. -/
theorem status_stays_live {m : Machine M} (hReachable : m.Reachable) :
    m.p.IsLive ∧ m.p.shown = m.p.toByte ∧
    (∀ mask : Status, mask.brk = true → m.p.contains mask = false) ∧
    ∀ command, ∀ n ∈ m.stepsOf command, n.p.IsLive ∧ ∀ i, n.next? = some i →
      (i.mnemonic = .php → n.step.machine.memory =
        Bus.write n.memory (Word.stackSlot n.sp) (n.p.shown ||| Flag.mask .brk)) ∧
      (i.mnemonic = .brk → n.step.machine.memory =
        Bus.writeEach [(Word.stackSlot n.sp, Word.high (n.pc + 2)),
          (Word.stackSlot (n.sp - 1), Word.low (n.pc + 2)),
          (Word.stackSlot (n.sp - 2), n.p.shown ||| Flag.mask .brk)] n.memory) := by
  have hLive := hReachable.isLive
  refine ⟨hLive, Status.shown_of_isLive hLive, fun _ => Status.contains_of_isLive hLive, ?_⟩
  intro command n hn
  obtain ⟨k, rfl⟩ := exists_stepped_of_mem_stepsOf hn
  exact ⟨isLive_stepped hLive k, fun i hNext => memory_step_of_status hNext⟩

/-- The status is set with the unused bit off and the B bit on, and PHP pushes it. -/
theorem status_stays_live_when_set :
    let m := (powerOn .standard (Bus.write {} 0 0x08 : Board)).setStatus 0xDF
    m.Reachable ∧ m.p.toByte = 0xEF ∧ m.p.shown = m.p.toByte ∧
      m.step.machine.memory = Bus.write m.memory 0x01FF 0xFF := by
  intro m
  have hReachable : m.Reachable := .obey (.setStatus 0xDF) (.powerOn .standard _) rfl
  obtain ⟨-, hShown, -, hSteps⟩ := status_stays_live hReachable
  obtain ⟨-, hPushes⟩ := hSteps .step m List.mem_cons_self
  have hPhp : m.next? = some ⟨0x08, .php, .implicit⟩ := by decide +kernel
  have hMemory := (hPushes _ hPhp).1 rfl
  rw [show Word.stackSlot m.sp = 0x01FF by decide,
    show m.p.shown ||| Flag.mask .brk = 0xFF by decide] at hMemory
  exact ⟨hReachable, by decide, hShown, hMemory⟩

end Machine

end Nmos6502
