import Nmos6502.Bus.Ram
import Nmos6502.Machine.Load
import Nmos6502.Machine.Run

/-! # The front panel

A machine with flat memory and the default configuration behind a panel of switches and lamps:
outcomes are shown as Booleans, and a fault as the text of its message.
-/

namespace Nmos6502
set_option autoImplicit false

structure Notice where
  message : String
  deriving DecidableEq

structure FrontPanel where
  machine : Machine Ram

namespace FrontPanel

def powerOn : FrontPanel := ⟨.powerOn Config.standard .zeroed⟩

def load (panel : FrontPanel) (image : List UInt8) (origin : UInt16) :
    FrontPanel × Except Notice Unit :=
  let t := panel.machine.load image origin
  (⟨t.machine⟩, t.result.mapError (⟨·.message⟩))

/-- Executes one instruction; says whether the machine is still running. -/
def step (panel : FrontPanel) : FrontPanel × Except Notice Bool :=
  let t := panel.machine.step
  (⟨t.machine⟩, (t.result.mapError (⟨·.message⟩)).map (!·.isHalted))

/-- Executes up to `limit` instructions; says whether BRK has stopped the machine. -/
def run (panel : FrontPanel) (limit : UInt32) : FrontPanel × Except Notice Bool :=
  let t := panel.machine.runFor limit.toNat
  (⟨t.machine⟩, (t.result.mapError (⟨·.message⟩)).map (· == .brk))

def resume (panel : FrontPanel) : FrontPanel := ⟨panel.machine.resume⟩

def setPc (panel : FrontPanel) (address : UInt16) : FrontPanel :=
  ⟨{ panel.machine with pc := address }⟩

def read (panel : FrontPanel) (address : UInt16) : UInt8 := panel.machine.read address

def write (panel : FrontPanel) (address : UInt16) (byte : UInt8) : FrontPanel :=
  ⟨panel.machine.write address byte⟩

def page (panel : FrontPanel) (page : UInt8) : Array UInt8 := panel.machine.memory.page page

def status (panel : FrontPanel) : UInt8 := panel.machine.p.shown

def lamp (panel : FrontPanel) (flag : Flag) : Bool := panel.machine.p.get flag

def halted (panel : FrontPanel) : Bool := panel.machine.state.isHalted

/-- The number of retired instructions, as the panel displays it. -/
def instructions (panel : FrontPanel) : Float := panel.machine.retired.toFloat

end FrontPanel

end Nmos6502
