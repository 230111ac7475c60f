import Nmos6502.Proofs.Load

/-! # The last write counts

Flat memory that is written byte by byte and block by block holds at every address the byte that was
last given for it. So only edits that give bytes for the same address can get in each other's way,
and it does not matter in which order the bytes of an image are written.
-/

namespace Nmos6502.Ram
set_option autoImplicit false

inductive Edit where
  | write (address : UInt16) (byte : UInt8)
  | load (origin : UInt16) (image : List UInt8)
  deriving DecidableEq

namespace Edit

def isAccepted : Edit → Bool
  | write _ _ => true
  | load origin image => origin.toNat + image.length ≤ 0x10000

/-- The byte that an edit gives for an address. An edit that is not accepted gives none. -/
def byteAt? : Edit → UInt16 → Option UInt8
  | write address byte, x => if x = address then some byte else none
  | load origin image, x =>
    if origin.toNat + image.length ≤ 0x10000 ∧ origin.toNat ≤ x.toNat then
      image[x.toNat - origin.toNat]?
    else none

def Disjoint (first second : Edit) : Prop :=
  ∀ x, first.byteAt? x = none ∨ second.byteAt? x = none

/-- The bytes of an image, each with its own address. -/
def singles (origin : UInt16) (image : List UInt8) : List Edit :=
  image.mapIdx fun i byte => write (origin + UInt16.ofNat i) byte

/-- The byte that the last edit to give one for `x` gives for it. -/
def lastByte? (history : List Edit) (x : UInt16) : Option UInt8 :=
  history.reverse.findSome? fun edit => edit.byteAt? x

theorem byteAt?_of_not_accepted {edit : Edit} (hRejected : edit.isAccepted = false) (x : UInt16) :
    edit.byteAt? x = none := by
  cases edit with
  | write address byte => cases hRejected
  | load origin image =>
    rw [isAccepted, decide_eq_false_iff_not] at hRejected
    rw [byteAt?, if_neg fun h => hRejected h.1]

theorem lastByte?_cons (edit : Edit) (rest : List Edit) (x : UInt16) :
    lastByte? (edit :: rest) x = (lastByte? rest x).or (edit.byteAt? x) := by
  rw [lastByte?, List.reverse_cons, List.findSome?_append, List.findSome?_singleton]
  rfl

end Edit

/-- Memory after an edit, with the answer to it. -/
def perform (ram : Ram) : Edit → Ram × Except ImageTooLarge Unit
  | .write address byte => (ram.write address byte, .ok ())
  | .load origin image =>
    match ram.load origin image with
    | .ok loaded => (loaded, .ok ())
    | .error fault => (ram, .error fault)

def after (ram : Ram) (history : List Edit) : Ram :=
  history.foldl (fun ram edit => (ram.perform edit).1) ram

theorem after_cons (ram : Ram) (edit : Edit) (rest : List Edit) :
    ram.after (edit :: rest) = (ram.perform edit).1.after rest := rfl

theorem perform_load_of_fits {origin : UInt16} {image : List UInt8}
    (hFits : origin.toNat + image.length ≤ 0x10000) (ram : Ram) :
    ram.perform (.load origin image) = (Bus.writeAll origin image ram, .ok ()) := by
  rw [perform, load_eq_writeAll hFits]

theorem perform_load_of_large {origin : UInt16} {image : List UInt8}
    (hLarge : 0x10000 < origin.toNat + image.length) (ram : Ram) :
    ram.perform (.load origin image) = (ram, .error ⟨origin, image.length⟩) := by
  rw [perform, (ram.load_eq_error_iff origin image _).mpr ⟨hLarge, rfl⟩]

/-! ## Reading after a history -/

/-- What an edit gives bytes for it overwrites, and it leaves everything else alone. -/
theorem read_perform (ram : Ram) (edit : Edit) (x : UInt16) :
    (ram.perform edit).1.read x = (edit.byteAt? x).getD (ram.read x) := by
  cases edit with
  | write address byte =>
    rw [perform, Edit.byteAt?, read_write]
    by_cases hSame : address = x
    · rw [if_pos hSame, if_pos hSame.symm]
      rfl
    · rw [if_neg hSame, if_neg (Ne.symm hSame)]
      rfl
  | load origin image =>
    by_cases hFits : origin.toNat + image.length ≤ 0x10000
    · rw [perform_load_of_fits hFits, read_writeAll hFits, Edit.byteAt?]
      by_cases hBelow : origin.toNat ≤ x.toNat
      · rw [if_pos ⟨hFits, hBelow⟩]
        by_cases hIndex : x.toNat - origin.toNat < image.length
        · rw [dif_pos ⟨hBelow, by omega⟩, List.getElem?_eq_getElem hIndex, Option.getD_some]
        · rw [dif_neg (by omega), List.getElem?_eq_none (Nat.le_of_not_lt hIndex), Option.getD_none]
      · rw [if_neg fun h => hBelow h.2, dif_neg fun h => hBelow h.1, Option.getD_none]
    · rw [perform_load_of_large (Nat.lt_of_not_le hFits), Edit.byteAt?, if_neg fun h => hFits h.1,
        Option.getD_none]

theorem read_after (ram : Ram) (history : List Edit) (x : UInt16) :
    (ram.after history).read x = (Edit.lastByte? history x).getD (ram.read x) := by
  induction history generalizing ram with
  | nil => rfl
  | cons edit rest ih =>
    rw [after_cons, ih, read_perform, Edit.lastByte?_cons]
    cases Edit.lastByte? rest x <;> rfl

/-! ## Orders that do not matter -/

theorem perform_of_not_accepted (ram : Ram) {edit : Edit} (hRejected : edit.isAccepted = false) :
    (ram.perform edit).1 = ram := by
  apply ext_read
  intro x
  rw [read_perform, Edit.byteAt?_of_not_accepted hRejected, Option.getD_none]

theorem perform_eq_ok_iff (ram : Ram) (edit : Edit) :
    (ram.perform edit).2 = .ok () ↔ edit.isAccepted = true := by
  cases edit with
  | write address byte => exact iff_of_true rfl rfl
  | load origin image =>
    rw [Edit.isAccepted, decide_eq_true_iff]
    by_cases hFits : origin.toNat + image.length ≤ 0x10000
    · rw [perform_load_of_fits hFits]
      exact iff_of_true rfl hFits
    · rw [perform_load_of_large (Nat.lt_of_not_le hFits)]
      exact iff_of_false (fun hOk => by cases hOk) hFits

theorem after_filter (ram : Ram) (history : List Edit) :
    ram.after (history.filter Edit.isAccepted) = ram.after history := by
  induction history generalizing ram with
  | nil => rfl
  | cons edit rest ih =>
    cases hEdit : edit.isAccepted with
    | true => rw [List.filter_cons_of_pos hEdit, after_cons, after_cons, ih]
    | false =>
      have hRejected : ¬edit.isAccepted = true := by rw [hEdit]; exact Bool.false_ne_true
      rw [List.filter_cons_of_neg hRejected, after_cons, ram.perform_of_not_accepted hEdit, ih]

theorem perform_comm {first second : Edit} (hDisjoint : first.Disjoint second) (ram : Ram) :
    ((ram.perform first).1.perform second).1 = ((ram.perform second).1.perform first).1 := by
  apply ext_read
  intro x
  simp only [read_perform]
  obtain hNone | hNone := hDisjoint x <;> rw [hNone] <;> rfl

theorem Edit.disjoint_of_ne {address other : UInt16} (hNe : address ≠ other) (byte written : UInt8) :
    (write address byte).Disjoint (write other written) := by
  intro x
  by_cases hHere : x = address
  · exact .inr (if_neg (hHere ▸ hNe))
  · exact .inl (if_neg hHere)

theorem after_singles (ram : Ram) (origin : UInt16) (image : List UInt8) :
    ram.after (Edit.singles origin image) = Bus.writeAll origin image ram := by
  induction image generalizing ram origin with
  | nil => rfl
  | cons byte rest ih =>
    have hRest : Edit.singles origin (byte :: rest) =
        .write origin byte :: Edit.singles (origin + 1) rest := by
      rw [Edit.singles, List.mapIdx_cons]
      simp only [Word.add_ofNat_succ]
      exact congrArg (Edit.write · byte :: _) (Word.add_ofNat_zero origin)
    rw [hRest, after_cons, ih]
    rfl

/-- Two of the single writes of an image are the same or far from each other. -/
theorem Edit.eq_or_disjoint_of_mem_singles {origin : UInt16} {image : List UInt8}
    (hFits : origin.toNat + image.length ≤ 0x10000) {edit other : Edit}
    (hMem : edit ∈ singles origin image) (hOther : other ∈ singles origin image) :
    edit = other ∨ edit.Disjoint other := by
  obtain ⟨i, hi, rfl⟩ := List.mem_mapIdx.mp hMem
  obtain ⟨j, hj, rfl⟩ := List.mem_mapIdx.mp hOther
  by_cases hSame : origin + UInt16.ofNat i = origin + UInt16.ofNat j
  · have hIndex : origin.toNat + i = origin.toNat + j := by
      rw [← Word.toNat_add_ofNat (by omega), ← Word.toNat_add_ofNat (by omega), hSame]
    cases Nat.add_left_cancel hIndex
    exact .inl rfl
  · exact .inr (disjoint_of_ne hSame _ _)

theorem after_perm_singles {origin : UInt16} {image : List UInt8}
    (hFits : origin.toNat + image.length ≤ 0x10000) {writes : List Edit}
    (hPerm : writes.Perm (Edit.singles origin image)) (ram : Ram) :
    ram.after writes = ram.after (Edit.singles origin image) := by
  refine (hPerm.symm.foldl_eq' (fun edit hMem other hOther between => ?_) ram).symm
  obtain rfl | hDisjoint := Edit.eq_or_disjoint_of_mem_singles hFits hMem hOther
  · rfl
  · exact perform_comm hDisjoint between

/-! ## Pages -/

theorem flatMap_range_mul {α : Type} (f : Nat → α) (width count : Nat) :
    (List.range count).flatMap (fun n => (List.range width).map fun i => f (width * n + i)) =
      (List.range (width * count)).map f := by
  induction count with
  | zero => rfl
  | succ count ih =>
    rw [List.range_succ, List.flatMap_append, ih, Nat.mul_succ, List.range_add, List.map_append,
      List.flatMap_singleton, List.map_map]
    rfl

theorem getElem?_page_nat (ram : Ram) (page : UInt8) {i : Nat} (hi : i < 256) :
    (ram.page page)[i]? = some (ram.read (UInt16.ofNat (256 * page.toNat + i))) := by
  have hPage := page.toNat_lt
  have hAddress : Word.ofBytes (UInt8.ofNat i) page = UInt16.ofNat (256 * page.toNat + i) := by
    apply UInt16.toNat_inj.mp
    rw [Word.toNat_ofBytes, UInt8.toNat_ofNat_of_lt' hi, UInt16.toNat_ofNat_of_lt' (by
      simp only [UInt16.size]
      omega)]
    omega
  have hByte := ram.getElem?_page page (UInt8.ofNat i)
  rwa [UInt8.toNat_ofNat_of_lt' hi, hAddress] at hByte

theorem toList_page (ram : Ram) (page : UInt8) :
    (ram.page page).toList =
      (List.range 256).map fun i => ram.read (UInt16.ofNat (256 * page.toNat + i)) := by
  apply List.ext_getElem?
  intro i
  rw [Array.getElem?_toList, List.getElem?_map]
  by_cases hi : i < 256
  · rw [ram.getElem?_page_nat page hi, List.getElem?_range hi]
    rfl
  · rw [Array.getElem?_eq_none (by rw [size_page]; omega), List.getElem?_eq_none (by simpa using hi)]
    rfl

theorem flatMap_page (ram : Ram) :
    (List.range 256).flatMap (fun page => (ram.page (UInt8.ofNat page)).toList) =
      (List.range 65536).map fun x => ram.read (UInt16.ofNat x) := by
  rw [← flatMap_range_mul (fun x => ram.read (UInt16.ofNat x)) 256 256, List.flatMap_def,
    List.flatMap_def]
  congr 1
  apply List.map_congr_left
  intro page hPage
  rw [toList_page, UInt8.toNat_ofNat_of_lt' (List.mem_range.mp hPage)]

/-- Flat memory is plain memory over any history of edits from zero on. It holds the last byte given
for each address; edits that are not accepted say so and have no part in it. Its pages, one behind
the other, are the whole of it. Edits that give bytes for different addresses commute, and an image
that is loaded leaves what its bytes leave that are written singly, in any order. -/
theorem last_write_counts (history : List Edit) :
    let memory := zeroed.after history
    (∀ x, memory.read x = (Edit.lastByte? history x).getD 0) ∧
    (∀ edit, (memory.perform edit).2 = .ok () ↔ edit.isAccepted = true) ∧
    zeroed.after (history.filter Edit.isAccepted) = memory ∧
    (∀ page : UInt8, (memory.page page).size = 256 ∧
      ∀ i < 256, (memory.page page)[i]? =
        some (memory.read (UInt16.ofNat (256 * page.toNat + i)))) ∧
    (List.range 256).flatMap (fun page => (memory.page (UInt8.ofNat page)).toList) =
      (List.range 65536).map (fun x => memory.read (UInt16.ofNat x)) ∧
    (∀ first second : Edit, first.Disjoint second →
      memory.after [first, second] = memory.after [second, first]) ∧
    ∀ (origin : UInt16) (image : List UInt8), origin.toNat + image.length ≤ 65536 →
      ∀ writes : List Edit, writes.Perm (Edit.singles origin image) →
        memory.after writes = memory.after [.load origin image] := by
  intro memory
  refine ⟨fun x => ?_, fun edit => memory.perform_eq_ok_iff edit, zeroed.after_filter history,
    fun page => ⟨memory.size_page page, fun i hi => memory.getElem?_page_nat page hi⟩,
    memory.flatMap_page, fun first second hDisjoint => perform_comm hDisjoint memory,
    fun origin image hFits writes hPerm => ?_⟩
  · rw [read_after, read_zeroed]
  · rw [after_perm_singles hFits hPerm, after_singles, after_cons, perform_load_of_fits hFits]
    rfl

/-- A load at the end of memory, overwritten in part, and one that goes beyond the end and changes
nothing, though it starts inside. -/
theorem last_write_counts_at_end :
    let memory := zeroed.after
      [.load 0xFFFE [0xA9, 0x07], .write 0xFFFF 0x42, .load 0xFFFF [0x01, 0x02]]
    memory.read 0xFFFE = 0xA9 ∧ memory.read 0xFFFF = 0x42 ∧ memory.read 0x0000 = 0x00 ∧
      memory.after [.write 0xFFFF 0x01, .write 0x0000 0x02] =
        memory.after [.write 0x0000 0x02, .write 0xFFFF 0x01] ∧
      memory.after [.write 0xFFFF 0x02, .write 0xFFFE 0x01] =
        memory.after [.load 0xFFFE [0x01, 0x02]] := by
  intro memory
  obtain ⟨hRead, -, -, -, -, hCommutes, hSingles⟩ := last_write_counts
    [.load 0xFFFE [0xA9, 0x07], .write 0xFFFF 0x42, .load 0xFFFF [0x01, 0x02]]
  refine ⟨(hRead 0xFFFE).trans (by decide), (hRead 0xFFFF).trans (by decide),
    (hRead 0x0000).trans (by decide), hCommutes _ _ (Edit.disjoint_of_ne (by decide) _ _),
    hSingles 0xFFFE [0x01, 0x02] (by decide) _ ?_⟩
  exact List.Perm.swap _ _ []

end Nmos6502.Ram
