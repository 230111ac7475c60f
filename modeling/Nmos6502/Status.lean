import Nmos6502.Word

/-! # Processor status

Eight flags and their packing into the byte NV-BDIZC. The live register always has the unused bit
on and the B bit off; B exists only in the copies that are pushed on the stack.
-/

namespace Nmos6502
set_option autoImplicit false

inductive Flag where
  | carry | zero | interruptDisable | decimal | brk | unused | overflow | negative
  deriving DecidableEq

namespace Flag

def all : List Flag :=
  [carry, zero, interruptDisable, decimal, brk, unused, overflow, negative]

theorem mem_all (flag : Flag) : flag ∈ all := by cases flag <;> decide

def mask : Flag → UInt8
  | carry => 0x01
  | zero => 0x02
  | interruptDisable => 0x04
  | decimal => 0x08
  | brk => 0x10
  | unused => 0x20
  | overflow => 0x40
  | negative => 0x80

def name : Flag → String
  | carry => "CARRY"
  | zero => "ZERO"
  | interruptDisable => "INTERRUPT_DISABLE"
  | decimal => "DECIMAL"
  | brk => "BREAK"
  | unused => "UNUSED"
  | overflow => "OVERFLOW"
  | negative => "NEGATIVE"

end Flag

structure Status where
  carry : Bool
  zero : Bool
  interruptDisable : Bool
  decimal : Bool
  brk : Bool
  unused : Bool
  overflow : Bool
  negative : Bool
  deriving DecidableEq

namespace Status

def get (s : Status) : Flag → Bool
  | .carry => s.carry
  | .zero => s.zero
  | .interruptDisable => s.interruptDisable
  | .decimal => s.decimal
  | .brk => s.brk
  | .unused => s.unused
  | .overflow => s.overflow
  | .negative => s.negative

def ofFlags (value : Flag → Bool) : Status where
  carry := value .carry
  zero := value .zero
  interruptDisable := value .interruptDisable
  decimal := value .decimal
  brk := value .brk
  unused := value .unused
  overflow := value .overflow
  negative := value .negative

@[simp] theorem get_ofFlags (value : Flag → Bool) (flag : Flag) :
    (ofFlags value).get flag = value flag := by cases flag <;> rfl

@[simp] theorem ofFlags_get (s : Status) : ofFlags s.get = s := rfl

@[ext] theorem ext_get {s t : Status} (h : ∀ flag, s.get flag = t.get flag) : s = t := by
  rw [← ofFlags_get s, ← ofFlags_get t, funext h]

def put (s : Status) (flag : Flag) (on : Bool) : Status :=
  match flag with
  | .carry => { s with carry := on }
  | .zero => { s with zero := on }
  | .interruptDisable => { s with interruptDisable := on }
  | .decimal => { s with decimal := on }
  | .brk => { s with brk := on }
  | .unused => { s with unused := on }
  | .overflow => { s with overflow := on }
  | .negative => { s with negative := on }

theorem get_put (s : Status) (flag other : Flag) (on : Bool) :
    (s.put flag on).get other = if other = flag then on else s.get other := by
  cases flag <;> cases other <;> rfl

def ofByte (byte : UInt8) : Status := ofFlags fun flag => byte &&& flag.mask != 0

def toByte (s : Status) : UInt8 :=
  Flag.all.foldl (fun byte flag => if s.get flag then byte + flag.mask else byte) 0

theorem ofByte_toByte (s : Status) : ofByte s.toByte = s := by
  obtain ⟨c, z, i, d, b, u, v, n⟩ := s
  revert c z i d b u v n
  decide

def union (s t : Status) : Status := ofFlags fun flag => s.get flag || t.get flag

def without (s t : Status) : Status := ofFlags fun flag => s.get flag && !t.get flag

/-- Whether every flag of `mask` is a flag of `s`; the empty mask is contained in every status. -/
def contains (s mask : Status) : Bool := Flag.all.all fun flag => !mask.get flag || s.get flag

theorem contains_iff (s mask : Status) :
    s.contains mask = true ↔ ∀ flag, mask.get flag = true → s.get flag = true := by
  simp only [contains, List.all_eq_true]
  constructor
  · intro h flag hMask
    simpa [hMask] using h flag flag.mem_all
  · intro h flag _
    cases hMask : mask.get flag
    · rfl
    · simp [h flag hMask]

/-- What the live register may hold: the unused bit on and the B bit off. -/
def IsLive (s : Status) : Prop := s.unused = true ∧ s.brk = false

instance (s : Status) : Decidable s.IsLive := inferInstanceAs (Decidable (_ ∧ _))

def live (s : Status) : Status := { s with unused := true, brk := false }

theorem isLive_live (s : Status) : s.live.IsLive := ⟨rfl, rfl⟩

def powerOn : Status := ofFlags (· == .unused)

/-- The byte that PHP and BRK push: B and the unused bit are on. -/
def pushed (s : Status) : UInt8 := { s with unused := true, brk := true : Status }.toByte

def pulled (byte : UInt8) : Status := (ofByte byte).live

/-- The byte shown to an observer: the unused bit reads as on. -/
def shown (s : Status) : UInt8 := { s with unused := true : Status }.toByte

def assign (s mask : Status) (on : Bool) : Status :=
  (if on then s.union mask else s.without mask).live

def describing (s : Status) (result : UInt8) : Status :=
  { s with zero := result == 0, negative := Byte.isNegative result }

/-- The text `Status(CARRY | ZERO)`, with names in bit order; `Status(0x0)` when no flag is on. -/
def text (s : Status) : String :=
  let names := (Flag.all.filter s.get).map Flag.name
  "Status(" ++ (if names.isEmpty then "0x0" else " | ".intercalate names) ++ ")"

end Status

end Nmos6502
