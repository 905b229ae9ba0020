import Mathlib.Data.List.TakeWhile
import WordLang.Host.Call
import WordLang.Proofs.Literals

/-!
# From the data section to the printer

How an assembler lays out the read-only data of a program: each `.string` directive puts the bytes
of its operand behind those that are there, with a zero byte at the end, and each label is the place
that was reached. Printing from the label of a literal ends at the first zero byte, so it prints the
literal up to its first zero character.
-/
namespace WordLang

open Asm

/-! ## Texts up to a zero character -/

/-- The text before its first zero character. -/
def beforeZero (text : String) : String :=
  String.ofList (text.toList.takeWhile (· != '\x00'))

theorem beforeZero_eq_iff (text : String) : beforeZero text = text ↔ '\x00' ∉ text.toList := by
  rw [← String.toList_inj, beforeZero, String.toList_ofList, List.takeWhile_eq_self_iff]
  constructor
  · intro h hm
    simpa using h _ hm
  · rintro h c hm
    rw [bne_iff_ne]
    rintro rfl
    exact h hm

/-- Only the zero character is written with a zero byte. -/
theorem ne_zero_of_mem_utf8EncodeChar {c : Char} (hc : c ≠ '\x00') {b : UInt8}
    (hb : b ∈ String.utf8EncodeChar c) : b ≠ 0 := by
  have hpos : c.val.toNat ≠ 0 := by
    intro h
    exact hc (Char.ext (UInt32.toNat_inj.1 h))
  have hbyte {n : Nat} (hn : 0 < n) (hlt : n < 256) : UInt8.ofNat n ≠ 0 := by
    intro h
    have := congrArg UInt8.toNat h
    rw [UInt8.toNat_ofNat_of_lt' hlt] at this
    exact absurd this (Nat.ne_of_gt hn)
  simp only [String.utf8EncodeChar] at hb
  split_ifs at hb <;>
    simp only [List.mem_cons, List.not_mem_nil, or_false] at hb <;>
    rcases hb with rfl | rfl | rfl | rfl <;>
    exact hbyte (by omega) (by omega)

theorem takeWhile_utf8 (text : String) :
    (utf8 text).takeWhile (· != 0) = utf8 (beforeZero text) := by
  rw [utf8_eq_flatMap, utf8_eq_flatMap, beforeZero, String.toList_ofList]
  induction text.toList with
  | nil => rfl
  | cons c cs ih =>
    by_cases hc : c = '\x00'
    · subst hc
      rfl
    · have hne : ∀ b ∈ String.utf8EncodeChar c, (b != 0) = true := fun b hb =>
        bne_iff_ne.2 (ne_zero_of_mem_utf8EncodeChar hc hb)
      rw [List.flatMap_cons, List.takeWhile_append_of_pos hne, ih,
        List.takeWhile_cons, if_pos (bne_iff_ne.2 hc), List.flatMap_cons]

theorem takeWhile_append_zero (bytes rest : List UInt8) :
    (bytes ++ 0 :: rest).takeWhile (· != 0) = bytes.takeWhile (· != 0) := by
  induction bytes with
  | nil => rfl
  | cons b bytes ih => simp only [List.cons_append, List.takeWhile_cons, ih]

/-! ## Data sections -/

/-- Bytes of a data section, and the places of its labels. -/
structure DataImage where
  bytes : List UInt8 := []
  labels : Table Nat := []
  deriving DecidableEq, Repr

namespace DataImage

/-- The operand of a `.string` directive, without its quotes. -/
def operand? (row : String) : Option String := do
  let rest ← "    .string \"".toList.isPrefixOf? row.toList
  let operand ← "\"".toList.isSuffixOf? rest
  return String.ofList operand

/-- The label that a line defines. -/
def label? (row : String) : Option String :=
  (":".toList.isSuffixOf? row.toList).map String.ofList

/-- Reads a line of the section. A label must be new. -/
def readRow (image : DataImage) (row : String) : Option DataImage :=
  if row = "" then some image
  else
    match operand? row, label? row with
    | some operand, _ =>
      (Quoted.decode operand).map fun bytes => { image with bytes := image.bytes ++ bytes ++ [0] }
    | none, some label =>
      if image.labels.contains label then none
      else some { image with labels := image.labels ++ [(label, image.bytes.length)] }
    | none, none => none

/-- Whether the line begins another section than that of the read-only data. -/
def leavesData (row : String) : Bool :=
  row == ".text" || ".section ".toList.isPrefixOf row.toList

/-- Reads the lines of a program. Those outside the read-only data are passed over. -/
def assembleFrom (inData : Bool) (image : DataImage) : List String → Option DataImage
  | [] => some image
  | row :: rows =>
    if row = ".section .rodata" then assembleFrom true image rows
    else if leavesData row then assembleFrom false image rows
    else if inData then image.readRow row >>= fun image => assembleFrom true image rows
    else assembleFrom false image rows

/-- The read-only data of a program. -/
def assemble (rows : List String) : Option DataImage := assembleFrom false {} rows

/-- At the label stand these bytes with a zero byte behind them. -/
def Places (image : DataImage) (label : String) (bytes : List UInt8) : Prop :=
  ∃ offset rest, image.labels.find? label = some offset ∧
    image.bytes.drop offset = bytes ++ 0 :: rest

theorem drop_append_of_drop {all bytes rest : List UInt8} {offset : Nat}
    (h : all.drop offset = bytes ++ 0 :: rest) (more : List UInt8) :
    (all ++ more).drop offset = bytes ++ 0 :: (rest ++ more) := by
  have hlt : offset < all.length := by
    by_contra hle
    rw [List.drop_of_length_le (Nat.not_lt.1 hle)] at h
    exact List.append_ne_nil_of_right_ne_nil _ (List.cons_ne_nil _ _) h.symm
  rw [List.drop_append_of_le_length (Nat.le_of_lt hlt), h, List.append_assoc, List.cons_append]

/-- More was read. -/
structure Extends (image image' : DataImage) : Prop where
  bytes : image.bytes <+: image'.bytes
  labels : image.labels <+: image'.labels

namespace Extends

variable {image image₁ image' : DataImage}

theorem refl (image : DataImage) : image.Extends image := ⟨List.prefix_rfl, List.prefix_rfl⟩

theorem trans (h : image.Extends image₁) (h' : image₁.Extends image') : image.Extends image' :=
  ⟨h.bytes.trans h'.bytes, h.labels.trans h'.labels⟩

theorem places (h : image.Extends image') {label : String} {bytes : List UInt8}
    (hp : image.Places label bytes) : image'.Places label bytes := by
  obtain ⟨offset, rest, hlabel, hbytes⟩ := hp
  obtain ⟨more, hmore⟩ := h.bytes
  refine ⟨offset, rest ++ more, Table.find?_of_prefix h.labels hlabel, ?_⟩
  rw [← hmore, drop_append_of_drop hbytes]

end Extends

/-! ### Reading the lines of a literal -/

theorem operand?_string (operand : String) :
    operand? ("    .string \"" ++ operand ++ "\"") = some operand := by
  rw [operand?, String.toList_append, String.toList_append, List.append_assoc, isPrefixOf?_append]
  show (do
    let operand ← "\"".toList.isSuffixOf? (operand.toList ++ "\"".toList)
    return String.ofList operand) = _
  rw [isSuffixOf?_append]
  simp

theorem operand?_label (index : Nat) : operand? (stringLabel index ++ ":") = none := by
  simp [operand?, stringLabel_eq, List.isPrefixOf?]

theorem label?_label (label : String) : label? (label ++ ":") = some label := by
  rw [label?, String.toList_append, isSuffixOf?_append]
  simp

theorem stringLabel_injective : Function.Injective stringLabel := append_repr_injective ".STR"

/-- The image with one more literal under its label. -/
def place (image : DataImage) (index : Nat) (bytes : List UInt8) : DataImage where
  bytes := image.bytes ++ bytes ++ [0]
  labels := image.labels ++ [(stringLabel index, image.bytes.length)]

/-- Only the first `count` labels are taken. -/
def Below (count : Nat) (image : DataImage) : Prop :=
  ∀ entry ∈ image.labels, ∃ index < count, entry.1 = stringLabel index

section Place

variable {image : DataImage} {index : Nat} {bytes : List UInt8}

theorem extends_place : image.Extends (image.place index bytes) :=
  ⟨by simp [place], List.prefix_append _ _⟩

theorem Below.find? (h : image.Below index) : image.labels.find? (stringLabel index) = none := by
  rw [Table.find?_eq_none_iff]
  intro hm
  obtain ⟨entry, he, hlabel⟩ := List.mem_map.1 hm
  obtain ⟨j, hj, hentry⟩ := h entry he
  exact absurd (stringLabel_injective (hentry.symm.trans hlabel)) (Nat.ne_of_lt hj)

theorem Below.place (h : image.Below index) (bytes : List UInt8) :
    (image.place index bytes).Below (index + 1) := by
  intro entry he
  rcases List.mem_append.1 he with he | he
  · obtain ⟨j, hj, hentry⟩ := h entry he
    exact ⟨j, Nat.lt_succ_of_lt hj, hentry⟩
  · obtain rfl := List.mem_singleton.1 he
    exact ⟨index, Nat.lt_succ_self index, rfl⟩

theorem places_place (h : image.Below index) :
    (image.place index bytes).Places (stringLabel index) bytes := by
  refine ⟨image.bytes.length, [], ?_, ?_⟩
  · simp [DataImage.place, h.find?]
  · simp [DataImage.place]

theorem readRow_label (h : image.Below index) :
    image.readRow (stringLabel index ++ ":") =
      some { image with
        labels := image.labels ++ [(stringLabel index, image.bytes.length)] } := by
  have hne : stringLabel index ++ ":" ≠ "" := by simp [← String.toList_inj, stringLabel_eq]
  unfold readRow
  rw [if_neg hne, operand?_label, label?_label]
  simp [Table.contains, h.find?]

theorem readRow_string {operand : String} (hd : Quoted.decode operand = some bytes) :
    image.readRow ("    .string \"" ++ operand ++ "\"") =
      some { image with bytes := image.bytes ++ bytes ++ [0] } := by
  have hne : "    .string \"" ++ operand ++ "\"" ≠ "" := by simp [← String.toList_inj]
  unfold readRow
  rw [if_neg hne, operand?_string]
  simp [hd]

theorem assembleFrom_row {row : String} (hdata : row ≠ ".section .rodata")
    (hleaves : leavesData row = false) (rows : List String) :
    assembleFrom true image (row :: rows) =
      image.readRow row >>= fun image => assembleFrom true image rows := by
  rw [assembleFrom, if_neg hdata]
  simp [hleaves]

/-- The two lines of a literal place it. -/
theorem assembleFrom_literalRows {operand : String} (h : image.Below index)
    (hd : Quoted.decode operand = some bytes) (rows : List String) :
    assembleFrom true image (literalRows index operand ++ rows) =
      assembleFrom true (image.place index bytes) rows := by
  show assembleFrom true image (_ :: _ :: rows) = _
  rw [assembleFrom_row (by simp [← String.toList_inj, stringLabel_eq])
      (by simp [leavesData, stringLabel_eq, ← String.toList_inj, List.isPrefixOf]), readRow_label h,
    Option.bind_eq_bind, Option.bind_some,
    assembleFrom_row (by simp [← String.toList_inj])
      (by simp [leavesData, ← String.toList_inj, List.isPrefixOf]), readRow_string hd]
  rfl

end Place

/-- All literals are placed, and stay where they are. -/
theorem exists_assembleFrom_literals {operands : List String} {values : List (List UInt8)}
    (hd : operands.map Quoted.decode = values.map some) {image : DataImage} {count : Nat}
    (h : image.Below count) (rows : List String) :
    ∃ image', image.Extends image' ∧
      assembleFrom true image ((operands.zipIdx count).flatMap (fun item =>
        literalRows item.2 item.1) ++ rows) = assembleFrom true image' rows ∧
      ∀ index bytes, values[index]? = some bytes →
        image'.Places (stringLabel (count + index)) bytes := by
  induction operands generalizing values image count with
  | nil =>
    obtain rfl : values = [] := by simpa using hd.symm
    exact ⟨image, .refl image, rfl, by simp⟩
  | cons operand operands ih =>
    cases values with
    | nil => simp at hd
    | cons bytes values =>
      obtain ⟨hhead, htail⟩ := List.cons.inj hd
      obtain ⟨image', hextends, hrest, hplaces⟩ := ih htail (h.place bytes)
      refine ⟨image', extends_place.trans hextends, ?_, ?_⟩
      · rw [List.zipIdx_cons, List.flatMap_cons, List.append_assoc,
          assembleFrom_literalRows h hhead]
        exact hrest
      · intro index found hfound
        cases index with
        | zero =>
          obtain rfl : bytes = found := by simpa using hfound
          exact hextends.places (places_place h)
        | succ index =>
          rw [show count + (index + 1) = count + 1 + index by omega]
          exact hplaces index found (by simpa using hfound)

/-! ### Reading a program -/

/-- Lines before the section are passed over. -/
theorem assembleFrom_skip {before : List String} (h : ".section .rodata" ∉ before)
    (image : DataImage) (rows : List String) :
    assembleFrom false image (before ++ rows) = assembleFrom false image rows := by
  induction before with
  | nil => rfl
  | cons row before ih =>
    rw [List.mem_cons, not_or] at h
    rw [List.cons_append, assembleFrom, if_neg (Ne.symm h.1)]
    simp [ih h.2]

/-- The read-only data of a program holds all literals under their labels. -/
theorem exists_assemble {operands : List String} {values : List (List UInt8)}
    (hd : operands.map Quoted.decode = values.map some) (routines : List Routine) :
    ∃ image, assemble (Part.rows .textSection ++ routines.flatMap Routine.rows ++
        dataRows operands ++ Part.rows .stackNote) = some image ∧
      ∀ index bytes, values[index]? = some bytes → image.Places (stringLabel index) bytes := by
  have hcode : ".section .rodata" ∉ Part.rows .textSection ++ routines.flatMap Routine.rows := by
    rw [List.mem_append, List.mem_flatMap]
    rintro (hm | ⟨r, -, hm⟩)
    · revert hm
      decide
    · exact r.section_not_mem_rows hm
  rw [assemble, List.append_assoc, assembleFrom_skip hcode]
  have hend (inData : Bool) (image : DataImage) :
      assembleFrom inData image (Part.rows .stackNote) = some image := by
    cases inData <;> rfl
  by_cases hnone : operands = []
  · subst hnone
    obtain rfl : values = [] := by simpa using hd.symm
    exact ⟨{}, hend false {}, by simp⟩
  · have hbelow : Below 0 {} := by simp [Below]
    obtain ⟨image, -, hrows, hplaces⟩ :=
      exists_assembleFrom_literals hd hbelow (Part.rows .stackNote)
    refine ⟨image, ?_, by simpa using hplaces⟩
    rw [dataRows, if_neg hnone, ← hend true image, ← hrows]
    rfl

end DataImage

/-! ## Printing -/

/-- The call returns and has printed `bytes`. -/
def Run.Prints (call : Run Unit) (bytes : List UInt8) : Prop :=
  ∀ host, ExceptT.run call host = (.ok (), { host with printed := host.printed ++ bytes })

/-- Printing from a label prints what stands there up to its first zero byte, whatever follows the
data in memory. -/
theorem DataImage.Places.prints {image : DataImage} {label text : String}
    (h : image.Places label (utf8 text)) :
    ∃ offset, image.labels.find? label = some offset ∧ ∀ beyond,
      Run.Prints (SystemCall.run (.printString (some ((image.bytes ++ beyond).drop offset))))
        (utf8 (beforeZero text)) := by
  obtain ⟨offset, rest, hlabel, hbytes⟩ := h
  refine ⟨offset, hlabel, fun beyond host => ?_⟩
  have hread : CText.bytes (some ((image.bytes ++ beyond).drop offset)) =
      utf8 (beforeZero text) := by
    rw [drop_append_of_drop hbytes, CText.bytes, takeWhile_append_zero, takeWhile_utf8]
  show ExceptT.run (Run.print (CText.bytes (some ((image.bytes ++ beyond).drop offset)))) host = _
  rw [hread]
  rfl

namespace Program

variable {limits : Limits} {p : Program}

/-- The code of an accepted program takes the address of a literal by its label. What is printed
from there is the literal up to its first zero character, and so the whole literal exactly if it has
no zero character. -/
theorem literals_printed (h : p.Accepted limits) :
    ∃ routines operands image, p.LiteralsPlaced limits routines operands ∧
      DataImage.assemble (Part.rows .textSection ++ routines.flatMap Routine.rows ++
        dataRows operands ++ Part.rows .stackNote) = some image ∧
      ∀ value ∈ p.literals,
        (∃ offset, image.labels.find? (stringLabel (p.literals.eraseDups.idxOf value)) =
            some offset ∧ ∀ beyond,
          Run.Prints (SystemCall.run (.printString (some ((image.bytes ++ beyond).drop offset))))
            (utf8 (beforeZero value))) ∧
        (beforeZero value = value ↔ '\x00' ∉ value.toList) := by
  obtain ⟨a, -, -, hplaced⟩ := h.exists_placed
  have hdecode : (a.pool.entries.map Quoted.encode).map Quoted.decode =
      (p.literals.eraseDups.map utf8).map some := by
    rw [hplaced.operands, List.map_map]
    rfl
  obtain ⟨image, himage, hplaces⟩ := DataImage.exists_assemble hdecode a.routines
  refine ⟨_, _, image, hplaced, himage, fun value hvalue => ⟨?_, beforeZero_eq_iff value⟩⟩
  have hindex : (p.literals.eraseDups.map utf8)[p.literals.eraseDups.idxOf value]? =
      some (utf8 value) := by
    rw [List.getElem?_map, List.getElem?_idxOf (List.mem_eraseDups.2 hvalue), Option.map_some]
  exact (hplaces _ _ hindex).prints

/-- A program whose literals need every kind of escape, with digits behind an octal one. -/
def quoting : Program where
  functions := [⟨"main", [], [
    .print (.str "tab\there, \"quoted\" \\ \x0177"),
    .print (.str "é∀😀\n")]⟩]

theorem literals_printed_quoting : quoting.Accepted {} ∧
    ∃ routines operands image, quoting.LiteralsPlaced {} routines operands ∧
      DataImage.assemble (Part.rows .textSection ++ routines.flatMap Routine.rows ++
        dataRows operands ++ Part.rows .stackNote) = some image ∧
      ∃ offset, image.labels.find? ".STR1" = some offset ∧ ∀ beyond,
        Run.Prints (SystemCall.run (.printString (some ((image.bytes ++ beyond).drop offset))))
          (utf8 "é∀😀\n") := by
  have h : quoting.Accepted {} := by decide +kernel
  obtain ⟨routines, operands, image, hplaced, himage, hprints⟩ := literals_printed h
  obtain ⟨hoffset, hwhole⟩ := hprints "é∀😀\n" (by decide)
  rw [hwhole.2 (by decide)] at hoffset
  exact ⟨h, routines, operands, image, hplaced, himage, hoffset⟩

/-- A literal with a zero character is laid out as it is, and printed only up to there. -/
theorem literal_cut_at_zero :
    let p : Program := { functions := [⟨"main", [], [.print (.str "a\x00b")]⟩] }
    p.Accepted {} ∧ p.literals = ["a\x00b"] ∧
      ∃ rows image, p.written {} = utf8 (unlines rows) ∧ DataImage.assemble rows = some image ∧
        image = ⟨utf8 "a\x00b" ++ [0], [(".STR0", 0)]⟩ ∧
        Run.Prints (SystemCall.run (.printString (some image.bytes))) (utf8 "a") ∧
        utf8 "a" ≠ utf8 "a\x00b" := by
  refine ⟨by decide +kernel, rfl, [
    ".text", "", ".globl main", ".type main, @function", "main:", "    pushq %rbp",
    "    movq %rsp, %rbp", "    leaq .STR0(%rip), %rax", "    movq %rax, %rdi",
    "    call print_string@PLT", "    call print_newline@PLT", "    movq $0, %rax", ".L0:",
    "    movq %rbp, %rsp", "    popq %rbp", "    ret", "", ".section .rodata", ".STR0:",
    "    .string \"a\\000b\"", "", ".section .note.GNU-stack,\"\",@progbits"],
    ⟨[0x61, 0, 0x62, 0], [(".STR0", 0)]⟩, by decide +kernel, by decide +kernel, by decide +kernel,
    fun host => rfl, by decide +kernel⟩

end Program

end WordLang
