import Nmos6502.Machine.Execute

/-! # One step

A step fetches the byte at the program counter, decodes it and executes the instruction it stands
for. A halted machine does nothing. An undocumented opcode is skipped or halts the machine, as the
configuration says; when it halts the machine, only the run state and its cause change.
-/

universe u

namespace Nmos6502.Machine
set_option autoImplicit false

variable {M : Type u} [Bus M]

def stepDocumented (m : Machine M) (i : Instruction) :
    Transition M (Except IllegalOpcode RunState) :=
  let address := m.pc
  let executing := Event.executing address i
  let (m, flow) := m.execute i.mnemonic.operation (m.resolve i.mode)
  let m := { m with retired := m.retired + 1 }
  match flow with
  | .next =>
    let m := { m with pc := m.pc + UInt16.ofNat i.length }
    ⟨m, .ok m.state, [executing]⟩
  | .jump => ⟨m, .ok m.state, [executing]⟩
  | .brk =>
    if m.config.haltOnBrk then
      let m := { m with state := .halted }
      ⟨m, .ok m.state, [executing, .haltedByBrk address]⟩
    else
      ⟨m, .ok m.state, [executing]⟩

def stepUndocumented (m : Machine M) (opcode : UInt8) :
    Transition M (Except IllegalOpcode RunState) :=
  let fault : IllegalOpcode := ⟨opcode, m.pc⟩
  match m.config.illegalOpcode with
  | .halt =>
    let m := { m with state := .halted, haltCause := some fault }
    ⟨m, .error fault, [.rejected fault]⟩
  | .skip =>
    let m := { m with pc := m.pc + 1, retired := m.retired + 1 }
    ⟨m, .ok m.state, [.skipped fault]⟩

def step (m : Machine M) : Transition M (Except IllegalOpcode RunState) :=
  match m.state with
  | .halted => ⟨m, .ok .halted, []⟩
  | .running =>
    let opcode := m.read m.pc
    match Instruction.decode opcode with
    | some i => m.stepDocumented i
    | none => m.stepUndocumented opcode

end Nmos6502.Machine
