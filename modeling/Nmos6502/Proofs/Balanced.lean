import Nmos6502.Proofs.LiveStatus
import Nmos6502.Proofs.Run
import Nmos6502.Proofs.Stack

/-! # Balanced runs

In a balanced run every instruction that pushes has its partner that pulls, at any depth of
nesting. If no more than 256 bytes are ever on the stack, such a run gives the stack pointer back,
touches only the slots that it has used, and each pulling instruction gets what its partner pushed.
The carrying invariant is that a balanced run leaves alone every slot that lies further below the
stack pointer than the run is deep; the slots of an enclosing bracket lie there, around the ring.
-/

namespace Nmos6502
set_option autoImplicit false

/-- The pairs of an instruction that pushes and the one that pulls the same again. -/
inductive Bracket where
  | accumulator | status | call | interrupt
  deriving DecidableEq

namespace Bracket

def opening : Bracket → Mnemonic
  | accumulator => .pha
  | status => .php
  | call => .jsr
  | interrupt => .brk

def closing : Bracket → Mnemonic
  | accumulator => .pla
  | status => .plp
  | call => .rts
  | interrupt => .rti

def size : Bracket → Nat
  | accumulator | status => 1
  | call => 2
  | interrupt => 3

end Bracket

def Mnemonic.isLevel : Mnemonic → Bool
  | pha | php | pla | plp | jsr | rts | rti | brk | txs => false
  | _ => true

/-- The balanced runs from one machine to another, by how they are built from single steps. -/
inductive BalancedRun : Machine Ram → Machine Ram → Type
  | empty (s : Machine Ram) : BalancedRun s s
  | level {s t : Machine Ram} (i : Instruction) (hStep : s.Executes i t)
      (hLevel : i.mnemonic.isLevel = true)
      (hWrites : ∀ write ∈ s.writes, Word.high write.1 ≠ 1) : BalancedRun s t
  | bracket {s u v t : Machine Ram} (kind : Bracket) (i j : Instruction)
      (hOpen : s.Executes i u) (hOpening : i.mnemonic = kind.opening) (inner : BalancedRun u v)
      (hClose : v.Executes j t) (hClosing : j.mnemonic = kind.closing) : BalancedRun s t
  | append {s t u : Machine Ram} (first : BalancedRun s t) (second : BalancedRun t u) :
      BalancedRun s u

/-- A bracket of a run: the machine in front of the opening instruction and the machine behind the
closing one. -/
structure Bracketed where
  kind : Bracket
  before : Machine Ram
  after : Machine Ram

/-- The closing instruction brings back what the opening one has saved: PLA the accumulator, PLP the
status, RTS the address behind its JSR, RTI the status and the address two behind its BRK. -/
def Bracketed.Restores (b : Bracketed) : Prop :=
  b.after.sp = b.before.sp ∧
    match b.kind with
    | .accumulator => b.after.a = b.before.a
    | .status => b.after.p = b.before.p
    | .call => b.after.pc = b.before.pc + 3
    | .interrupt => b.after.p = b.before.p ∧ b.after.pc = b.before.pc + 2

namespace BalancedRun

/-- How many bytes are pushed and not yet pulled, at each moment between two steps. -/
def held {s t : Machine Ram} : BalancedRun s t → List Nat
  | empty _ => [0]
  | level _ _ _ _ => [0, 0]
  | bracket kind _ _ _ _ inner _ _ => 0 :: inner.held.map (kind.size + ·) ++ [0]
  | append first second => first.held ++ second.held

def depth {s t : Machine Ram} (run : BalancedRun s t) : Nat := run.held.foldr max 0

/-- All brackets of a run, those inside of brackets included. -/
def brackets {s t : Machine Ram} : BalancedRun s t → List Bracketed
  | empty _ => []
  | level _ _ _ _ => []
  | bracket (s := s) (t := t) kind _ _ _ _ inner _ _ => ⟨kind, s, t⟩ :: inner.brackets
  | append first second => first.brackets ++ second.brackets

end BalancedRun

/-! ## Depth -/

theorem foldr_max_map_add (k : Nat) {l : List Nat} (hNonempty : l ≠ []) :
    (l.map (k + ·)).foldr max 0 = k + l.foldr max 0 := by
  induction l with
  | nil => exact absurd rfl hNonempty
  | cons n rest ih =>
    cases rest with
    | nil => simp
    | cons next rest =>
      rw [List.map_cons, List.foldr_cons, ih (List.cons_ne_nil next rest), Nat.add_max_add_left]
      rfl

theorem foldr_max_append (l r : List Nat) :
    (l ++ r).foldr max 0 = max (l.foldr max 0) (r.foldr max 0) := by
  induction l with
  | nil => rw [List.nil_append, List.foldr_nil, Nat.zero_max]
  | cons n rest ih => rw [List.cons_append, List.foldr_cons, ih, List.foldr_cons, Nat.max_assoc]

namespace BalancedRun

theorem held_ne_nil {s t : Machine Ram} (run : BalancedRun s t) : run.held ≠ [] := by
  induction run with
  | append first second ih _ => exact List.append_ne_nil_of_left_ne_nil ih _
  | _ => exact List.cons_ne_nil _ _

theorem depth_bracket {s u v t : Machine Ram} {kind : Bracket} {i j : Instruction}
    (hOpen : s.Executes i u) (hOpening : i.mnemonic = kind.opening) (inner : BalancedRun u v)
    (hClose : v.Executes j t) (hClosing : j.mnemonic = kind.closing) :
    (bracket kind i j hOpen hOpening inner hClose hClosing).depth = kind.size + inner.depth := by
  rw [depth, held, List.cons_append, List.foldr_cons, foldr_max_append,
    foldr_max_map_add kind.size inner.held_ne_nil]
  simp [depth]

theorem depth_append {s t u : Machine Ram} (first : BalancedRun s t) (second : BalancedRun t u) :
    (first.append second).depth = max first.depth second.depth :=
  foldr_max_append first.held second.held

end BalancedRun

/-! ## Single steps -/

theorem Mnemonic.level_operation {mnemonic : Mnemonic} (h : mnemonic.isLevel = true) :
    mnemonic.operation.loadsSp = false ∧ mnemonic.operation.pulls = 0 ∧
      ∀ m : Machine Ram, m.pushedBytes mnemonic.operation = [] := by
  cases mnemonic <;> first | exact ⟨rfl, rfl, fun _ => rfl⟩ | cases h

namespace Machine

theorem Executes.sp_eq {m t : Machine Ram} {i : Instruction} (h : m.Executes i t)
    (hLoads : i.mnemonic.operation.loadsSp = false) :
    t.sp = m.sp - UInt8.ofNat (m.pushedBytes i.mnemonic.operation).length +
      UInt8.ofNat i.mnemonic.operation.pulls := by
  obtain ⟨pc, state, hMachine⟩ := m.stepDocumented_machine i
  rw [h.machine_eq, hMachine]
  exact m.execute_sp _ _ hLoads

theorem Executes.memory_eq {m t : Machine Ram} {i : Instruction} (h : m.Executes i t) :
    t.memory = Bus.writeEach
      (m.operationWrites i.mnemonic.operation (m.resolve i.mode)) m.memory := by
  rw [← h.step, memory_step, writes, h.next]

theorem Executes.isLive {m t : Machine Ram} {i : Instruction} (h : m.Executes i t)
    (hLive : m.p.IsLive) : t.p.IsLive := h.step ▸ isLive_step hLive

end Machine

namespace Bracket

def saved (kind : Bracket) (s : Machine Ram) : List UInt8 := s.pushedBytes kind.opening.operation

theorem length_saved (kind : Bracket) (s : Machine Ram) : (kind.saved s).length = kind.size := by
  cases kind <;> rfl

theorem opens {kind : Bracket} {s u : Machine Ram} {i : Instruction} (hOpen : s.Executes i u)
    (hOpening : i.mnemonic = kind.opening) : u.sp = s.sp - UInt8.ofNat kind.size ∧
      u.memory = Bus.writeEach (Word.pushWrites s.sp (kind.saved s)) s.memory := by
  have hSp := hOpen.sp_eq
  have hMemory := hOpen.memory_eq
  rw [hOpening] at hSp hMemory
  have hPulls : kind.opening.operation.pulls = 0 := by cases kind <;> rfl
  have hLoads : kind.opening.operation.loadsSp = false := by cases kind <;> rfl
  constructor
  · rw [hSp hLoads, hPulls, ← saved, length_saved, show UInt8.ofNat 0 = 0 from rfl,
      UInt8.add_zero]
  · rw [hMemory]
    cases kind <;> rfl

theorem closes {kind : Bracket} {v t : Machine Ram} {j : Instruction} (hClose : v.Executes j t)
    (hClosing : j.mnemonic = kind.closing) : t.sp = v.sp + UInt8.ofNat kind.size ∧
      t.memory = v.memory := by
  have hSp := hClose.sp_eq
  have hMemory := hClose.memory_eq
  rw [hClosing] at hSp hMemory
  have hPushed : v.pushedBytes kind.closing.operation = [] := by cases kind <;> rfl
  have hPulls : kind.closing.operation.pulls = kind.size := by cases kind <;> rfl
  have hLoads : kind.closing.operation.loadsSp = false := by cases kind <;> rfl
  constructor
  · rw [hSp hLoads, hPulls, hPushed, List.length_nil, show UInt8.ofNat 0 = 0 from rfl,
      UInt8.sub_zero]
  · rw [hMemory]
    cases kind <;> rfl

/-- What the closing instruction takes from the slots above the stack pointer. -/
theorem loads {kind : Bracket} {v t : Machine Ram} {j : Instruction} (hClose : v.Executes j t)
    (hClosing : j.mnemonic = kind.closing) :
    let pulled (k : Nat) := v.read (Word.stackSlot (v.sp + UInt8.ofNat k))
    match kind with
    | accumulator => t.a = pulled 1
    | status => t.p = .pulled (pulled 1)
    | call => t.pc = Word.ofBytes (pulled 1) (pulled 2) + 1
    | interrupt => t.p = .pulled (pulled 1) ∧ t.pc = Word.ofBytes (pulled 2) (pulled 3) := by
  obtain ⟨pc, state, hMachine⟩ := v.stepDocumented_machine j
  have hPc := v.stepDocumented_pc j
  rw [← hClose.machine_eq, hClosing] at hMachine hPc
  have hTwo : v.sp + 1 + 1 = v.sp + 2 := UInt8.add_assoc v.sp 1 1
  have hThree : v.sp + 2 + 1 = v.sp + 3 := UInt8.add_assoc v.sp 2 1
  cases kind with
  | accumulator => exact hMachine ▸ rfl
  | status => exact hMachine ▸ rfl
  | call =>
    change t.pc = _
    rw [hPc (show Flow.jump ≠ .next by decide)]
    change Word.ofBytes (v.read (Word.stackSlot (v.sp + 1)))
      (v.read (Word.stackSlot (v.sp + 1 + 1))) + 1 = _
    rw [hTwo]
    rfl
  | interrupt =>
    refine ⟨hMachine ▸ rfl, ?_⟩
    rw [hPc (show Flow.jump ≠ .next by decide)]
    change Word.ofBytes (v.read (Word.stackSlot (v.sp + 1 + 1)))
      (v.read (Word.stackSlot (v.sp + 1 + 1 + 1))) = _
    rw [hTwo, hThree]
    rfl

end Bracket

/-! ## The invariant -/

/-- What a balanced run of depth `d` from `s` to `t` keeps: the stack pointer, a live status, and
every slot that lies `d` or more below the stack pointer. -/
structure Kept (s t : Machine Ram) (d : Nat) : Prop where
  sp : t.sp = s.sp
  live : t.p.IsLive
  stack : ∀ slot : UInt8, d ≤ (s.sp - slot).toNat →
    t.read (Word.stackSlot slot) = s.read (Word.stackSlot slot)

namespace Kept

theorem trans {s t u : Machine Ram} {d e : Nat} (first : Kept s t d) (second : Kept t u e) :
    Kept s u (max d e) where
  sp := second.sp.trans first.sp
  live := second.live
  stack slot hBelow := by
    rw [second.stack slot (first.sp ▸ Nat.le_trans (Nat.le_max_right d e) hBelow),
      first.stack slot (Nat.le_trans (Nat.le_max_left d e) hBelow)]

theorem of_level {s t : Machine Ram} {i : Instruction} (hStep : s.Executes i t)
    (hLevel : i.mnemonic.isLevel = true) (hWrites : ∀ write ∈ s.writes, Word.high write.1 ≠ 1)
    (hLive : s.p.IsLive) : Kept s t 0 := by
  obtain ⟨hLoads, hPulls, hPushes⟩ := Mnemonic.level_operation hLevel
  refine ⟨?_, hStep.isLive hLive, fun slot _ => ?_⟩
  · rw [hStep.sp_eq hLoads, hPulls, hPushes, List.length_nil, show UInt8.ofNat 0 = 0 from rfl,
      UInt8.sub_zero, UInt8.add_zero]
  · have hMemory : t.memory = Bus.writeEach s.writes s.memory := by
      rw [← hStep.step, Machine.memory_step]
    change t.memory.read (Word.stackSlot slot) = s.memory.read (Word.stackSlot slot)
    rw [hMemory]
    apply Ram.read_writeEach_of_ne
    intro write hWrite hSlot
    exact hWrites write hWrite (hSlot ▸ Word.high_stackSlot slot)

/-- Behind the inner run of a bracket, the slots above the stack pointer still hold the bytes that
the opening instruction has pushed. -/
theorem saved_eq_pulled {kind : Bracket} {s u v : Machine Ram} {i : Instruction} {d : Nat}
    (hOpen : s.Executes i u) (hOpening : i.mnemonic = kind.opening) (inner : Kept u v d)
    (hDepth : kind.size + d ≤ 256) {k : Nat} (hPositive : 0 < k) (hk : k ≤ kind.size) :
    (kind.saved s)[kind.size - k]? = some (v.read (Word.stackSlot (v.sp + UInt8.ofNat k))) := by
  obtain ⟨hSp, hMemory⟩ := Bracket.opens hOpen hOpening
  have hLength := kind.length_saved s
  have hSlot : v.sp + UInt8.ofNat k = s.sp - UInt8.ofNat (kind.size - k) := by
    rw [inner.sp, hSp, Byte.sub_add_of_le s.sp hk]
  have hBelow : d ≤ (u.sp - (v.sp + UInt8.ofNat k)).toNat := by
    rw [hSlot, hSp, Byte.toNat_sub_sub_sub s.sp (by omega) (Nat.le_of_add_right_le hDepth)]
    omega
  have hi : kind.size - k < (kind.saved s).length := by omega
  have hSaved : u.read (Word.stackSlot (v.sp + UInt8.ofNat k)) =
      (kind.saved s)[kind.size - k] := by
    change u.memory.read _ = _
    rw [hSlot, hMemory, Ram.read_pushWrites_getElem (by omega) hi]
  rw [inner.stack _ hBelow, hSaved, List.getElem?_eq_getElem hi]

theorem of_bracket {kind : Bracket} {s u v t : Machine Ram} {i j : Instruction} {d : Nat}
    (hOpen : s.Executes i u) (hOpening : i.mnemonic = kind.opening) (inner : Kept u v d)
    (hClose : v.Executes j t) (hClosing : j.mnemonic = kind.closing) :
    Kept s t (kind.size + d) := by
  obtain ⟨hOpenSp, hOpenMemory⟩ := Bracket.opens hOpen hOpening
  obtain ⟨hCloseSp, hCloseMemory⟩ := Bracket.closes hClose hClosing
  refine ⟨?_, hClose.isLive inner.live, fun slot hBelow => ?_⟩
  · rw [hCloseSp, inner.sp, hOpenSp, UInt8.sub_add_cancel]
  · have hSize : kind.size ≤ (s.sp - slot).toNat := Nat.le_of_add_right_le hBelow
    have hInner : d ≤ (u.sp - slot).toNat := by
      rw [hOpenSp, Byte.toNat_sub_sub hSize]
      omega
    calc t.read (Word.stackSlot slot)
      _ = v.read (Word.stackSlot slot) := by rw [Machine.read, Machine.read, hCloseMemory]
      _ = u.read (Word.stackSlot slot) := inner.stack slot hInner
      _ = s.read (Word.stackSlot slot) := by
        change u.memory.read _ = s.memory.read _
        rw [hOpenMemory, Ram.read_pushWrites_of_le (kind.length_saved s ▸ hSize)]

theorem restores {kind : Bracket} {s u v t : Machine Ram} {i j : Instruction} {d : Nat}
    (hOpen : s.Executes i u) (hOpening : i.mnemonic = kind.opening) (inner : Kept u v d)
    (hClose : v.Executes j t) (hClosing : j.mnemonic = kind.closing)
    (hDepth : kind.size + d ≤ 256) (hLive : s.p.IsLive) :
    (Bracketed.mk kind s t).Restores := by
  refine ⟨(of_bracket hOpen hOpening inner hClose hClosing).sp, ?_⟩
  have hLoads := Bracket.loads hClose hClosing
  have hSaved := fun k => saved_eq_pulled hOpen hOpening inner hDepth (k := k)
  cases kind with
  | accumulator =>
    have hByte : s.a = v.read (Word.stackSlot (v.sp + 1)) :=
      Option.some.inj (hSaved 1 (by decide) (by decide))
    exact hLoads.trans hByte.symm
  | status =>
    have hByte : s.p.pushed = v.read (Word.stackSlot (v.sp + 1)) :=
      Option.some.inj (hSaved 1 (by decide) (by decide))
    calc t.p
      _ = .pulled (v.read (Word.stackSlot (v.sp + 1))) := hLoads
      _ = .pulled s.p.pushed := by rw [hByte]
      _ = s.p := Status.pulled_pushed hLive
  | call =>
    have hLow : Word.low (s.pc + 2) = v.read (Word.stackSlot (v.sp + 1)) :=
      Option.some.inj (hSaved 1 (by decide) (by decide))
    have hHigh : Word.high (s.pc + 2) = v.read (Word.stackSlot (v.sp + 2)) :=
      Option.some.inj (hSaved 2 (by decide) (by decide))
    calc t.pc
      _ = Word.ofBytes (v.read (Word.stackSlot (v.sp + 1)))
            (v.read (Word.stackSlot (v.sp + 2))) + 1 := hLoads
      _ = s.pc + 2 + 1 := by rw [← hLow, ← hHigh, Word.ofBytes_low_high]
      _ = s.pc + 3 := UInt16.add_assoc s.pc 2 1
  | interrupt =>
    have hByte : s.p.pushed = v.read (Word.stackSlot (v.sp + 1)) :=
      Option.some.inj (hSaved 1 (by decide) (by decide))
    have hLow : Word.low (s.pc + 2) = v.read (Word.stackSlot (v.sp + 2)) :=
      Option.some.inj (hSaved 2 (by decide) (by decide))
    have hHigh : Word.high (s.pc + 2) = v.read (Word.stackSlot (v.sp + 3)) :=
      Option.some.inj (hSaved 3 (by decide) (by decide))
    constructor
    · calc t.p
        _ = .pulled (v.read (Word.stackSlot (v.sp + 1))) := hLoads.1
        _ = .pulled s.p.pushed := by rw [hByte]
        _ = s.p := Status.pulled_pushed hLive
    · calc t.pc
        _ = Word.ofBytes (v.read (Word.stackSlot (v.sp + 2)))
              (v.read (Word.stackSlot (v.sp + 3))) := hLoads.2
        _ = s.pc + 2 := by rw [← hLow, ← hHigh, Word.ofBytes_low_high]

end Kept

namespace BalancedRun

/-- By induction on how the run is built: what it keeps, and what its brackets restore. -/
theorem kept_and_restores {s t : Machine Ram} (run : BalancedRun s t) (hLive : s.p.IsLive)
    (hDepth : run.depth ≤ 256) : Kept s t run.depth ∧ ∀ b ∈ run.brackets, b.Restores := by
  induction run with
  | empty s =>
    refine ⟨⟨rfl, hLive, fun _ _ => rfl⟩, ?_⟩
    intro b hb
    cases hb
  | level i hStep hLevel hWrites =>
    refine ⟨Kept.of_level hStep hLevel hWrites hLive, ?_⟩
    intro b hb
    cases hb
  | bracket kind i j hOpen hOpening inner hClose hClosing ih =>
    rw [depth_bracket] at hDepth ⊢
    obtain ⟨hKept, hRestores⟩ := ih (hOpen.isLive hLive) (by omega)
    refine ⟨Kept.of_bracket hOpen hOpening hKept hClose hClosing, ?_⟩
    intro b hb
    rcases List.mem_cons.mp hb with rfl | hb
    · exact Kept.restores hOpen hOpening hKept hClose hClosing hDepth hLive
    · exact hRestores b hb
  | append first second ihFirst ihSecond =>
    rw [depth_append] at hDepth ⊢
    obtain ⟨hFirst, hRestoresFirst⟩ := ihFirst hLive (by omega)
    obtain ⟨hSecond, hRestoresSecond⟩ := ihSecond hFirst.live (by omega)
    refine ⟨hFirst.trans hSecond, ?_⟩
    intro b hb
    rcases List.mem_append.mp hb with hb | hb
    · exact hRestoresFirst b hb
    · exact hRestoresSecond b hb

/-- A balanced run is a run: its end is reached from its start by stepping. -/
theorem exists_stepped {s t : Machine Ram} (run : BalancedRun s t) : ∃ k, s.stepped k = t := by
  induction run with
  | empty s => exact ⟨0, rfl⟩
  | level i hStep _ _ => exact ⟨1, hStep.step⟩
  | bracket kind i j hOpen _ inner hClose _ ih =>
    obtain ⟨k, hInner⟩ := ih
    refine ⟨1 + k + 1, ?_⟩
    rw [Machine.stepped_succ, Machine.stepped_add]
    change (Machine.stepped k (Machine.step _).machine).step.machine = _
    rw [hOpen.step, hInner, hClose.step]
  | append first second ihFirst ihSecond =>
    obtain ⟨k, hFirst⟩ := ihFirst
    obtain ⟨l, hSecond⟩ := ihSecond
    exact ⟨k + l, by rw [Machine.stepped_add, hFirst, hSecond]⟩

end BalancedRun

/-- The stack discipline of balanced runs, for every stack pointer to start with and as long as no
more than 256 bytes are held at a time. Such a run is a run of the machine. The stack pointer comes
back; of page one at most the slots change that lie fewer than `depth` below it; every bracket,
however deep, restores. -/
theorem BalancedRun.stack_discipline {s t : Machine Ram} (run : BalancedRun s t)
    (hLive : s.p.IsLive) (hDepth : run.depth ≤ 256) :
    (∃ k, s.stepped k = t) ∧
    t.sp = s.sp ∧
    (∀ address : UInt16, Word.high address = 1 →
      (∀ i < run.depth, address ≠ Word.stackSlot (s.sp - UInt8.ofNat i)) →
      t.read address = s.read address) ∧
    ∀ b ∈ run.brackets, b.Restores := by
  obtain ⟨hKept, hRestores⟩ := run.kept_and_restores hLive hDepth
  refine ⟨run.exists_stepped, hKept.sp, ?_, hRestores⟩
  intro address hPage hOutside
  rw [Word.eq_stackSlot hPage] at hOutside ⊢
  apply hKept.stack
  apply Byte.le_toNat_sub
  intro i hi hSlot
  exact hOutside i hi (congrArg Word.stackSlot hSlot)

/-- With the stack pointer at zero, a subroutine saves and restores the status around LDA. Its
return address lies at both ends of page one. -/
theorem BalancedRun.stack_discipline_wrapping :
    let start : Machine Ram :=
      { Machine.powerOn .standard (Bus.writeAll 0x10 [0x08, 0xA9, 0x80, 0x28, 0x60]
          (Bus.writeAll 0 [0x20, 0x10] Ram.zeroed)) with sp := 0 }
    start.p.IsLive ∧ ∃ run : BalancedRun start (start.stepped 5), run.depth = 3 ∧
      run.brackets.map (·.kind) = [.call, .status] ∧ (start.stepped 5).sp = 0 ∧
      ∀ b ∈ run.brackets, b.Restores := by
  intro start
  have hLive : start.p.IsLive := by decide
  have hLda : (start.stepped 2).next? = some ⟨0xA9, .lda, .immediate⟩ := by decide +kernel
  have hWrites : (start.stepped 2).writes = [] := by
    rw [Machine.writes, hLda]
    rfl
  let run : BalancedRun start (start.stepped 5) :=
    .bracket .call ⟨0x20, .jsr, .absolute⟩ ⟨0x60, .rts, .implicit⟩
      ⟨by decide +kernel, rfl⟩ rfl
      (.bracket .status ⟨0x08, .php, .implicit⟩ ⟨0x28, .plp, .implicit⟩
        ⟨by decide +kernel, rfl⟩ rfl
        (.level ⟨0xA9, .lda, .immediate⟩ ⟨hLda, rfl⟩ rfl (hWrites ▸ List.forall_mem_nil _))
        ⟨by decide +kernel, rfl⟩ rfl)
      ⟨by decide +kernel, rfl⟩ rfl
  have hDepth : run.depth = 3 := rfl
  obtain ⟨-, hSp, -, hRestores⟩ := run.stack_discipline hLive (by rw [hDepth]; decide)
  exact ⟨hLive, run, hDepth, rfl, hSp, hRestores⟩

end Nmos6502
