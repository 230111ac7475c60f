import Mathlib
import Nmos6502.Event

/-! # What texts tell

The text of a fault and the lines of the log are fixed words around the numbers and names that they
tell of. Hexadecimal numbers take up a fixed number of digits and read back as what was written, and
no two mnemonics and no two modes go by one name. So nothing is lost in the wording: the text of a
fault tells the fault, and a line of the log tells the event.
-/

namespace Nmos6502
set_option autoImplicit false

/-! ## Numbers -/

namespace Hex

def digitValue? (c : Char) : Option Nat := "0123456789ABCDEF".toList.idxOf? c

/-- The number that hexadecimal digits write, the most significant one first. -/
def value? (text : List Char) : Option Nat :=
  text.foldlM (fun n c => (digitValue? c).map (16 * n + ·)) 0

theorem digitValue?_digit {n : Nat} (hn : n < 16) : digitValue? (digit n) = some n := by
  have hTable : ∀ n : Fin 16, digitValue? (digit n) = some n.val := by decide
  exact hTable ⟨n, hn⟩

theorem value?_digits_succ (width n : Nat) : value? (digits (width + 1) n) =
    (value? (digits width (n / 16))).map (16 * · + n % 16) := by
  rw [digits, value?, List.foldlM_append, ← value?]
  simp only [List.foldlM_cons, List.foldlM_nil, digitValue?_digit (Nat.mod_lt n (by decide)),
    Option.map_some, bind_pure]
  cases value? (digits width (n / 16)) <;> rfl

theorem value?_digits (width n : Nat) : value? (digits width n) = some (n % 16 ^ width) := by
  induction width generalizing n with
  | zero => rw [Nat.pow_zero, Nat.mod_one]; rfl
  | succ width ih =>
    rw [value?_digits_succ, ih, Option.map_some, Nat.pow_succ', Nat.mod_mul, Nat.add_comm]

theorem value?_ofByte (byte : UInt8) : value? (ofByte byte).toList = some byte.toNat := by
  have hBound : byte.toNat < 16 ^ 2 := byte.toNat_lt
  rw [ofByte, String.toList_ofList, value?_digits, Nat.mod_eq_of_lt hBound]

theorem value?_ofWord (word : UInt16) : value? (ofWord word).toList = some word.toNat := by
  have hBound : word.toNat < 16 ^ 4 := word.toNat_lt
  rw [ofWord, String.toList_ofList, value?_digits, Nat.mod_eq_of_lt hBound]

theorem length_ofByte (byte : UInt8) : (ofByte byte).length = 2 := by
  rw [ofByte, String.length_ofList, length_digits]

theorem length_ofWord (word : UInt16) : (ofWord word).length = 4 := by
  rw [ofWord, String.length_ofList, length_digits]

theorem ofByte_inj {byte other : UInt8} : ofByte byte = ofByte other ↔ byte = other := by
  refine ⟨fun h => ?_, congrArg ofByte⟩
  have hValue := congrArg (value? ·.toList) h
  simp only [value?_ofByte, Option.some.injEq] at hValue
  exact UInt8.toNat_inj.mp hValue

theorem ofWord_inj {word other : UInt16} : ofWord word = ofWord other ↔ word = other := by
  refine ⟨fun h => ?_, congrArg ofWord⟩
  have hValue := congrArg (value? ·.toList) h
  simp only [value?_ofWord, Option.some.injEq] at hValue
  exact UInt16.toNat_inj.mp hValue

end Hex

/-! ## Texts put together -/

namespace Text

theorem append_inj_of_length {a b c d : String} (h : a ++ b = c ++ d)
    (hLength : a.length = c.length) : a = c ∧ b = d := by
  have hChars := congrArg String.toList h
  rw [String.toList_append, String.toList_append] at hChars
  obtain ⟨hFirst, hSecond⟩ := List.append_inj hChars (by
    rw [String.length_toList, String.length_toList, hLength])
  exact ⟨String.toList_inj.mp hFirst, String.toList_inj.mp hSecond⟩

theorem append_inj_of_length_right {a b c d : String} (h : a ++ b = c ++ d)
    (hLength : b.length = d.length) : a = c ∧ b = d := by
  have hChars := congrArg String.toList h
  rw [String.toList_append, String.toList_append] at hChars
  obtain ⟨hFirst, hSecond⟩ := List.append_inj' hChars (by
    rw [String.length_toList, String.length_toList, hLength])
  exact ⟨String.toList_inj.mp hFirst, String.toList_inj.mp hSecond⟩

theorem head?_append {a : String} {c : Char} (hHead : a.toList.head? = some c) (b : String) :
    (a ++ b).toList.head? = some c := by
  rw [String.toList_append, List.head?_append, hHead]
  rfl

/-- Words around a number, however it is written, and a word in hexadecimal digits tell both. -/
theorem around_inj {α : Type} {write : α → String} (hWrite : ∀ {a b}, write a = write b ↔ a = b)
    {first second : String} {a b : α} {word word' : UInt16}
    (h : first ++ write a ++ second ++ Hex.ofWord word =
      first ++ write b ++ second ++ Hex.ofWord word') : a = b ∧ word = word' := by
  obtain ⟨hFirst, hWord⟩ := append_inj_of_length_right h (by
    rw [Hex.length_ofWord, Hex.length_ofWord])
  rw [String.append_left_inj, String.append_right_inj] at hFirst
  exact ⟨hWrite.mp hFirst, Hex.ofWord_inj.mp hWord⟩

end Text

/-! ## Faults -/

/-- The text names the opcode by two hexadecimal digits and the address by four. -/
theorem IllegalOpcode.message_eq (fault : IllegalOpcode) : ∃ opcode address : String,
    fault.message = "Illegal opcode 0x" ++ opcode ++ " at 0x" ++ address ∧
    opcode.length = 2 ∧ Hex.value? opcode.toList = some fault.opcode.toNat ∧
    address.length = 4 ∧ Hex.value? address.toList = some fault.address.toNat :=
  ⟨Hex.ofByte fault.opcode, Hex.ofWord fault.address, rfl, Hex.length_ofByte _,
    Hex.value?_ofByte _, Hex.length_ofWord _, Hex.value?_ofWord _⟩

theorem IllegalOpcode.message_inj {fault other : IllegalOpcode} :
    fault.message = other.message ↔ fault = other := by
  refine ⟨fun h => ?_, congrArg message⟩
  obtain ⟨opcode, address⟩ := fault
  obtain ⟨opcode', address'⟩ := other
  obtain ⟨rfl, rfl⟩ := Text.around_inj Hex.ofByte_inj h
  rfl

theorem ImageTooLarge.message_inj {fault other : ImageTooLarge} :
    fault.message = other.message ↔ fault = other := by
  refine ⟨fun h => ?_, congrArg message⟩
  obtain ⟨origin, length⟩ := fault
  obtain ⟨origin', length'⟩ := other
  obtain ⟨rfl, rfl⟩ := Text.around_inj Nat.repr_inj h
  rfl

example : IllegalOpcode.message ⟨0x02, 0x8000⟩ = "Illegal opcode 0x02 at 0x8000" := by decide

/-! ## Names -/

theorem Mode.name_inj {mode other : Mode} : mode.name = other.name ↔ mode = other := by
  refine ⟨fun h => ?_, congrArg name⟩
  have hRead := ofName?_name mode
  rw [h, ofName?_name] at hRead
  exact (Option.some.inj hRead).symm

namespace Mnemonic

def all : List Mnemonic :=
  [adc, and, asl, bcc, bcs, beq, bit, bmi, bne, bpl, brk, bvc, bvs, clc, cld, cli, clv, cmp, cpx, cpy,
    dec, dex, dey, eor, inc, inx, iny, jmp, jsr, lda, ldx, ldy, lsr, nop, ora, pha, php, pla, plp, rol,
    ror, rti, rts, sbc, sec, sed, sei, sta, stx, sty, tax, tay, tsx, txa, txs, tya]

theorem mem_all (mnemonic : Mnemonic) : mnemonic ∈ all := by cases mnemonic <;> decide

theorem text_inj {mnemonic other : Mnemonic} : mnemonic.text = other.text ↔ mnemonic = other := by
  have hTexts : (all.map text).Nodup := by decide +kernel
  exact ⟨fun h => List.inj_on_of_nodup_map hTexts mnemonic.mem_all other.mem_all h, congrArg text⟩

theorem length_text (mnemonic : Mnemonic) : mnemonic.text.length = 3 := by cases mnemonic <;> rfl

end Mnemonic

/-! ## Lines of the log -/

namespace Level

def initial : Level → Char
  | trace => 'T'
  | debug => 'D'
  | warn => 'W'

theorem head?_name (level : Level) : level.name.toList.head? = some level.initial := by
  cases level <;> decide

theorem initial_inj {level other : Level} (h : level.initial = other.initial) : level = other := by
  cases level <;> cases other <;> simp [initial] at h <;> rfl

end Level

namespace Event

theorem executing_text_inj {address address' : UInt16} {i j : Instruction}
    (h : (executing address i).text = (executing address' j).text) : address = address' ∧ i = j := by
  obtain ⟨opcode, mnemonic, mode⟩ := i
  obtain ⟨opcode', mnemonic', mode'⟩ := j
  unfold text at h
  simp only [String.append_assoc] at h
  obtain ⟨hAddress, hBehind⟩ := Text.append_inj_of_length h (by
    rw [Hex.length_ofWord, Hex.length_ofWord])
  rw [String.append_right_inj] at hBehind
  obtain ⟨hOpcode, hNames⟩ := Text.append_inj_of_length hBehind (by
    rw [Hex.length_ofByte, Hex.length_ofByte])
  rw [String.append_right_inj] at hNames
  obtain ⟨hMnemonic, hMode⟩ := Text.append_inj_of_length hNames (by
    rw [Mnemonic.length_text, Mnemonic.length_text])
  rw [String.append_right_inj] at hMode
  cases Hex.ofByte_inj.mp hOpcode
  cases Mnemonic.text_inj.mp hMnemonic
  cases Mode.name_inj.mp hMode
  exact ⟨Hex.ofWord_inj.mp hAddress, rfl⟩

/-- The letter that tells a DEBUG text from the others. -/
def initial? : Event → Option Char
  | haltedByBrk _ => some 'B'
  | rejected _ => some 'I'
  | loaded _ _ => some 'L'
  | executing _ _ | skipped _ => none

theorem head?_text {event : Event} (hDebug : event.level = .debug) :
    event.text.toList.head? = event.initial? := by
  cases event with
  | haltedByBrk address =>
    have hHead : "BRK at 0x".toList.head? = some 'B' := by decide
    exact Text.head?_append (Text.head?_append hHead _) _
  | rejected fault =>
    have hHead : "Illegal opcode 0x".toList.head? = some 'I' := by decide
    exact Text.head?_append
      (Text.head?_append (Text.head?_append (Text.head?_append hHead _) _) _) _
  | loaded length origin =>
    have hHead : "Loaded ".toList.head? = some 'L' := by decide
    exact Text.head?_append (Text.head?_append (Text.head?_append hHead _) _) _
  | executing _ _ | skipped _ => cases hDebug

theorem eq_of_text_eq {event other : Event} (hLevel : event.level = other.level)
    (hText : event.text = other.text) : event = other := by
  have hInitial (hDebug : event.level = .debug) : event.initial? = other.initial? := by
    rw [← head?_text hDebug, hText, head?_text (hLevel ▸ hDebug)]
  cases event with
  | executing address i =>
    cases other with
    | executing address' j =>
      obtain ⟨rfl, rfl⟩ := executing_text_inj hText
      rfl
    | _ => cases hLevel
  | skipped fault =>
    cases other with
    | skipped fault' =>
      obtain ⟨opcode, address⟩ := fault
      obtain ⟨opcode', address'⟩ := fault'
      obtain ⟨rfl, rfl⟩ := Text.around_inj Hex.ofByte_inj hText
      rfl
    | _ => cases hLevel
  | haltedByBrk address =>
    cases other with
    | haltedByBrk address' =>
      unfold text at hText
      rw [String.append_left_inj, String.append_right_inj, Hex.ofWord_inj] at hText
      rw [hText]
    | rejected _ | loaded _ _ => exact absurd (hInitial rfl) (by simp [initial?])
    | executing _ _ | skipped _ => cases hLevel
  | rejected fault =>
    cases other with
    | rejected fault' =>
      unfold text at hText
      rw [String.append_left_inj, IllegalOpcode.message_inj] at hText
      rw [hText]
    | haltedByBrk _ | loaded _ _ => exact absurd (hInitial rfl) (by simp [initial?])
    | executing _ _ | skipped _ => cases hLevel
  | loaded length origin =>
    cases other with
    | loaded length' origin' =>
      obtain ⟨rfl, rfl⟩ := Text.around_inj Nat.repr_inj hText
      rfl
    | haltedByBrk _ | rejected _ => exact absurd (hInitial rfl) (by simp [initial?])
    | executing _ _ | skipped _ => cases hLevel

theorem head?_line (event : Event) : event.line.toList.head? = some event.level.initial :=
  Text.head?_append (Text.head?_append (Level.head?_name _) _) _

/-- A line of the log tells its event. -/
theorem line_inj {event other : Event} : event.line = other.line ↔ event = other := by
  refine ⟨fun h => ?_, congrArg line⟩
  have hLevel : event.level = other.level := by
    have hHead := event.head?_line
    rw [h, head?_line] at hHead
    exact (Level.initial_inj (Option.some.inj hHead)).symm
  unfold line at h
  rw [hLevel, String.append_right_inj] at h
  exact eq_of_text_eq hLevel h

example : line (.executing 0x0010 ⟨0x85, .sta, .zeroPage⟩) = "TRACE 0010  85  STA ZeroPage" := by
  decide

end Event

end Nmos6502
