import Shader.Assembly.Printer
import Shader.Proofs.EmittedCode
import Shader.Proofs.Excerpts
import Shader.Proofs.RegisterNames

/-!
# Reading assembly

A reader for the text of a fragment program. Blanks only pad the fields of a line, so the reader
drops them. What is left of a declaration stands between a keyword and a semicolon, and what is left
of an instruction are operands between commas. Which line is what follows from the section it is in:
each section has a title and ends with two empty lines, and the code ends with the last four.

The reader gives back all that was printed if the names and values have no byte in them that would
end a field.
-/

namespace Shader

open Text

/-! ## Registers and operands -/

namespace Register

/-- The registers that have a name without a number. -/
def fixed : List Register :=
  [.truth true, .truth false, .zero] ++ Hardware.all.map .hardware

/-- The register whose name has a number behind `stem`. -/
def ofStem? (stem : Bytes) (n : Nat) : Option Register :=
  if stem = ascii "__$temp" then some (.temp n)
  else if stem = ascii "__$templl" then some (.longLived n)
  else if stem = ascii "__$param" then some (.immediate n)
  else if stem.head? = some (byte '$') then some (.user stem.tail n)
  else none

/-- The register of a name. A number stands behind the last underscore. -/
def ofText? (t : Bytes) : Option Register :=
  match fixed.find? (fun r => r.text == t) with
  | some r => some r
  | none =>
    ofStem? (t.reverse.dropWhile (· != byte '_')).tail.reverse
      (Number.digitsValue (t.reverse.takeWhile (· != byte '_')).reverse)

/-- A register that a name can stand for. -/
def Nameable (r : Register) : Prop := r.Declarable ∨ ∃ h, r = .hardware h

end Register

namespace Operand

/-- The operand of a register's name, behind which a component may stand. -/
def ofName? (negated : Bool) (t : Bytes) : Option Operand :=
  match Component.all.find? (fun c => (ascii "." ++ c.text).isSuffixOf t) with
  | some c => (Register.ofText? (t.take (t.length - 2))).map fun r => ⟨r, .one c, negated⟩
  | none => (Register.ofText? t).map fun r => ⟨r, .whole, negated⟩

/-- The operand of a text. -/
def ofText? (t : Bytes) : Option Operand :=
  if t.head? = some (byte '-') then ofName? true t.tail else ofName? false t

end Operand

section Names

theorem Component.mem_all (c : Component) : c ∈ Component.all := by
  cases c <;> decide

theorem Component.length_text (c : Component) : c.text.length = 1 := by
  cases c <;> rfl

namespace Register

/-- The stem of a register's name says what kind of register it is. -/
theorem ofStem?_stem {r : Register} {p : Bytes × Nat} (h : r.stem? = some p) :
    ofStem? p.1 p.2 = some r := by
  have huser : ∀ {name s : Bytes}, s.head? = some (byte '_') → ascii "$" ++ name ≠ s := by
    rintro name s hs rfl
    exact absurd (Option.some.inj hs) (by decide)
  cases r <;> cases h
  · rw [ofStem?, if_neg (huser rfl), if_neg (huser rfl), if_neg (huser rfl)]
    rfl
  all_goals rfl

/-- No name without a number ends in a digit. -/
theorem getLast?_text_of_mem_fixed : ∀ r ∈ fixed, r.text.getLast?.any isDigit = false := by
  decide +kernel

/-- No two names without a number are the same. -/
theorem find?_fixed : ∀ r ∈ fixed, fixed.find? (fun r' => r'.text == r.text) = some r := by
  decide +kernel

/-- A name with a number in it is none of the fixed ones, so the search among those falls
through. -/
theorem find?_fixed_of_stem {r : Register} {p : Bytes × Nat} (h : r.stem? = some p) :
    fixed.find? (fun r' => r'.text == r.text) = none := by
  rw [List.find?_eq_none]
  intro r' hr' heq
  obtain ⟨b, hb, hle, hge⟩ := getLast?_numbered p.1 p.2
  have hlast := getLast?_text_of_mem_fixed r' hr'
  rw [beq_iff_eq.mp heq, text_of_stem h, hb] at hlast
  have hdigit : isDigit b = true := by
    simp only [isDigit, Bool.and_eq_true, decide_eq_true_eq, UInt8.le_iff_toNat_le]
    exact ⟨hle, hge⟩
  rw [Option.any_some, hdigit] at hlast
  cases hlast

/-- A register with a number in its name, or without. -/
theorem Nameable.cases {r : Register} (h : r.Nameable) :
    (∃ p, r.stem? = some p) ∨ r ∈ fixed := by
  rcases h with (hstem | hcommon) | ⟨h, rfl⟩
  · exact .inl hstem
  · exact .inr (List.mem_append_left _ hcommon)
  · exact .inr (List.mem_append_right _ (List.mem_map_of_mem (by cases h <;> decide)))

/-- **A register is read back from its name.** -/
theorem ofText?_text {r : Register} (h : r.Nameable) : ofText? r.text = some r := by
  rw [ofText?]
  rcases h.cases with ⟨p, hp⟩ | hfixed
  · rw [find?_fixed_of_stem hp]
    dsimp only
    rw [text_of_stem hp, dropWhile_reverse_numbered, takeWhile_reverse_numbered,
      List.tail_cons, List.reverse_reverse, List.reverse_reverse, digitsValue_decimal]
    exact ofStem?_stem hp
  · rw [find?_fixed r hfixed]

/-- No name begins with a minus sign, which could be taken for that of a negated operand. -/
theorem head?_text_of_nameable {r : Register} (h : r.Nameable) :
    r.text.head? ≠ some (byte '-') := by
  have hfixed : ∀ r ∈ fixed, r.text.head? ≠ some (byte '-') := by decide +kernel
  rcases h.cases with ⟨p, hp⟩ | h
  · cases r <;> cases hp <;> exact fun heq => absurd (Option.some.inj heq) (by decide)
  · exact hfixed r h

/-- No name ends as a component does. -/
theorem not_suffix_text {r : Register} (h : r.Nameable) (c : Component) :
    (ascii "." ++ c.text).isSuffixOf r.text = false := by
  have hfixed : ∀ r ∈ fixed, ∀ c ∈ Component.all,
      (ascii "." ++ c.text).isSuffixOf r.text = false := by decide +kernel
  rcases h.cases with ⟨p, hp⟩ | h
  · obtain ⟨b, hb, hle, hge⟩ := getLast?_numbered p.1 p.2
    rw [← text_of_stem hp] at hb
    refine Bool.eq_false_iff.mpr fun hs => ?_
    obtain ⟨u, hu⟩ := List.isSuffixOf_iff_suffix.mp hs
    have hletter : (ascii "." ++ c.text).getLast? = some b := by
      rw [← hu, List.getLast?_append_of_ne_nil] at hb
      · exact hb
      · cases c <;> decide
    cases c <;> cases hletter <;> exact absurd hge (by decide)
  · exact hfixed r h c c.mem_all

end Register

/-- A text ends in one component at most. -/
theorem Component.eq_of_suffix {c c' : Component} {t : Bytes}
    (h : (ascii "." ++ c.text).isSuffixOf (t ++ (ascii "." ++ c'.text)) = true) : c = c' := by
  obtain ⟨u, hu⟩ := List.isSuffixOf_iff_suffix.mp h
  have hlen : (ascii "." ++ c.text).length = (ascii "." ++ c'.text).length := by
    rw [List.length_append, List.length_append, c.length_text, c'.length_text]
  have hletters : ∀ c ∈ Component.all, ∀ c' ∈ Component.all, c.text = c'.text → c = c' := by
    decide +kernel
  exact hletters c c.mem_all c' c'.mem_all (List.append_cancel_left (List.append_inj' hu hlen).2)

namespace Operand

/-- A name and the component behind it are told apart by the dot, as no name ends in a dot and a
component. -/
theorem ofName?_text {r : Register} (h : r.Nameable) {select : Selector}
    (hplain : ∀ t, select ≠ .other t) (negated : Bool) :
    ofName? negated (r.text ++ select.text) = some ⟨r, select, negated⟩ := by
  rw [ofName?]
  cases select with
  | whole =>
    rw [Selector.text, List.append_nil, List.find?_eq_none.mpr]
    · dsimp only
      rw [Register.ofText?_text h]
      rfl
    · intro c _
      rw [Register.not_suffix_text h]
      exact Bool.false_ne_true
  | one c =>
    rw [Selector.text]
    have hlen : (ascii "." ++ c.text).length = 2 := by rw [List.length_append, c.length_text]; rfl
    have hown := List.isSuffixOf_iff_suffix.mpr (List.suffix_append r.text (ascii "." ++ c.text))
    split
    · rename_i c' hc'
      have hsuffix := List.find?_some hc'
      rw [Component.eq_of_suffix hsuffix, List.length_append, hlen, Nat.add_sub_cancel,
        List.take_left, Register.ofText?_text h]
      rfl
    · rename_i hnone
      exact absurd hown (List.find?_eq_none.mp hnone c c.mem_all)
  | other t => exact absurd rfl (hplain t)

/-- **An operand is read back from its text.** -/
theorem ofText?_text {o : Operand} (hplain : o.Plain) (h : o.reg.Nameable) :
    ofText? o.text = some o := by
  obtain ⟨r, select, negated⟩ := o
  have hname := ofName?_text h hplain negated
  cases negated with
  | true => exact hname
  | false =>
    have hhead : (r.text ++ select.text).head? ≠ some (byte '-') := by
      rw [List.head?_append]
      intro heq
      rcases Option.or_eq_some_iff.mp heq with heq | ⟨-, heq⟩
      · exact Register.head?_text_of_nameable h heq
      · cases select <;> cases heq
    exact (if_neg hhead).trans hname

end Operand

end Names

/-! ## Lines -/

/-- A line without its blanks. -/
def unpadded (l : Bytes) : Bytes := l.filter (· != byte ' ')

/-- What stands between a keyword and the semicolon at the end of a line. -/
def body? (keyword l : Bytes) : Option Bytes :=
  if keyword.isPrefixOf l ∧ l.getLast? = some (byte ';') then
    some (l.drop keyword.length).dropLast
  else none

/-- The instruction of a mnemonic. -/
def Opcode.ofName? (t : Bytes) : Option Opcode := Opcode.all.find? (fun op => op.name == t)

namespace Assembly

variable {α β : Type}

/-- The declaration of a register that is written. -/
def readTemp (l : Bytes) : Option Register :=
  (body? (ascii "TEMP") (unpadded l)).bind Register.ofText?

/-- The declaration of a constant register, with the text of its value. -/
def readParam (l : Bytes) : Option (Param α) :=
  (body? (ascii "PARAM") (unpadded l)).bind fun t =>
    let name := t.takeWhile (· != byte '=')
    (Register.ofText? name).map fun r => ⟨r, .given (t.drop (name.length + 1))⟩

/-- The length of a mnemonic. -/
def mnemonic : Nat := 3

/-- An instruction. -/
def readInstruction (l : Bytes) : Option Instruction :=
  (Opcode.ofName? ((unpadded l).take mnemonic)).bind fun op =>
    (body? op.name (unpadded l)).bind fun t =>
      match (t.splitOn (byte ',')).mapM Operand.ofText? with
      | some (dst :: src) => some ⟨op, dst, src⟩
      | _ => none

/-- A line of code. -/
def readLine (l : Bytes) : Option Line :=
  if l = [] then some .blank
  else if (ascii "# ").isPrefixOf l then some (.comment (l.drop 2))
  else (readInstruction l).map .instr

/-- A section of registers, and the lines behind it. -/
def readSection (name : Bytes) (entry : Bytes → Option β) (ls : List Bytes) :
    Option (List β × List Bytes) :=
  if ls.head? = some (ascii "# " ++ name) then do
    let entries ← (ls.tail.takeWhile (· != [])).mapM entry
    return (entries, (ls.tail.dropWhile (· != [])).drop 2)
  else none

/-- The lines behind the code. -/
def closing : List Bytes := [[], [], ascii "END", []]

/-- The code. -/
def readCode (ls : List Bytes) : Option (List Line) :=
  let code := ls.tail
  if ls.head? = some (ascii "# Instructions") ∧
      code.drop (code.length - closing.length) = closing then
    (code.take (code.length - closing.length)).mapM readLine
  else none

/-- The sections of a program. -/
def readSections (ls : List Bytes) : Option (Assembly α) := do
  let (userTemps, ls) ← readSection (ascii "User Declared Non-Constant Variables") readTemp ls
  let (userParams, ls) ← readSection (ascii "User Declared Constant Variables") readParam ls
  let (temps, ls) ← readSection
    (ascii "Auto-Generated Re-usable Intermediate Value Registers") readTemp ls
  let (longLived, ls) ← readSection
    (ascii "Auto-Generated Non-reusable Intermediate Value Registers") readTemp ls
  let (immediates, ls) ← readSection (ascii "Auto-Generated Immediate Value Registers") readParam ls
  let lines ← readCode ls
  return { userTemps, userParams, temps, longLived, immediates, lines }

/-- **The reader.** -/
def read (t : Bytes) : Option (Assembly α) :=
  if (Shader.lines t).take 2 = [ascii "!!ARBfp1.0", []] then readSections ((Shader.lines t).drop 2)
  else none

end Assembly

/-! ## What can be read -/

/-- A text without any of the given bytes. -/
def Avoids (bytes t : Bytes) : Prop := ∀ b ∈ t, b ∉ bytes

instance (bytes t : Bytes) : Decidable (Avoids bytes t) :=
  List.decidableBAll (fun b => b ∉ bytes) t

/-- A text without blanks and ends of lines. -/
def Unbroken (t : Bytes) : Prop := Avoids [byte ' ', byte '\n'] t

instance (t : Bytes) : Decidable (Unbroken t) :=
  inferInstanceAs (Decidable (Avoids [byte ' ', byte '\n'] t))

/-- The bytes at which a field may end. -/
def fieldEnds : Bytes := [byte ' ', byte '\n', byte ',', byte '=']

/-- A register that is read back from a line. -/
structure Register.Readable (r : Register) : Prop where
  nameable : r.Nameable
  text : Avoids fieldEnds r.text

/-- A line of code that is read back. -/
def Line.Readable : Line → Prop
  | .instr i => i.op ∈ Opcode.all ∧ ∀ o ∈ i.dst :: i.src, o.Plain ∧ o.reg.Readable
  | .comment t => byte '\n' ∉ t
  | .blank => True
  | .absent => False

/-- A value whose text is read back. -/
def ParamValue.Readable {α : Type} (number : α → Bytes) (v : ParamValue α) : Prop :=
  Unbroken (v.text number)

/-- A constant register with its value as it is written. -/
def Param.written {α : Type} (number : α → Bytes) (p : Param α) : Param α :=
  ⟨p.reg, .given (p.value.text number)⟩

namespace Assembly

variable {α β γ : Type}

/-- A program that is read back, where `number` writes its scalars. -/
structure Readable (number : α → Bytes) (a : Assembly α) : Prop where
  registers : ∀ r ∈ a.userTemps ++ a.temps ++ a.longLived, r.Readable
  params : ∀ p ∈ a.userParams ++ a.immediates, p.reg.Readable ∧ p.value.Readable number
  lines : ∀ l ∈ a.lines, l.Readable

/-- A program with its values as they are written. -/
def written (number : α → Bytes) (a : Assembly α) : Assembly α :=
  { a with
    userParams := a.userParams.map (Param.written number)
    immediates := a.immediates.map (Param.written number) }

/-! ## Fields -/

section Fields

theorem unpadded_append (t u : Bytes) : unpadded (t ++ u) = unpadded t ++ unpadded u :=
  List.filter_append t u

theorem unpadded_of_not_mem {t : Bytes} (h : byte ' ' ∉ t) : unpadded t = t := by
  refine List.filter_eq_self.mpr fun b hb => ?_
  rw [bne_iff_ne]
  rintro rfl
  exact h hb

/-- The padding of a field is dropped if the field has no blanks of its own. -/
theorem unpadded_padRight {w : Nat} {t : Bytes} (h : byte ' ' ∉ t) :
    unpadded (padRight w t) = t := by
  rw [padRight, unpadded_append, unpadded_of_not_mem h, blanks, unpadded,
    List.filter_replicate_of_neg (by simp), List.append_nil]

/-- What stands between a keyword and a semicolon is cut out again. -/
theorem body?_keyword (keyword t : Bytes) : body? keyword (keyword ++ t ++ ascii ";") = some t := by
  have hfront : keyword.isPrefixOf (keyword ++ t ++ ascii ";") = true := by
    rw [List.isPrefixOf_iff_prefix, List.append_assoc]
    exact List.prefix_append _ _
  have hlast : (keyword ++ t ++ ascii ";").getLast? = some (byte ';') := List.getLast?_concat
  rw [body?, if_pos ⟨hfront, hlast⟩, List.append_assoc, List.drop_left]
  exact congrArg some List.dropLast_concat

/-- Reading back a list of written entries, one by one. -/
theorem mapM_map {f : α → β} {g : β → Option γ} {k : α → γ} {l : List α}
    (h : ∀ a ∈ l, g (f a) = some (k a)) : (l.map f).mapM g = some (l.map k) := by
  induction l with
  | nil => rfl
  | cons a l ih =>
    rw [List.map_cons, List.mapM_cons, h a List.mem_cons_self,
      ih fun a ha => h a (List.mem_cons_of_mem _ ha)]
    rfl

theorem intercalate_cons (t : Bytes) (ts : List Bytes) :
    [byte ','].intercalate (t :: ts) = t ++ ts.flatMap (ascii "," ++ ·) := by
  induction ts generalizing t with
  | nil => simp
  | cons u ts ih =>
    rw [List.intercalate_cons_cons, ih, List.flatMap_cons, List.append_assoc, List.append_assoc]
    rfl

/-- A readable operand has no byte that ends a field: what is added to the name of its register is a
sign, a dot and a letter. -/
theorem avoids_text_operand {o : Operand} (hplain : o.Plain) (h : o.reg.Readable) :
    Avoids fieldEnds o.text := by
  obtain ⟨r, select, negated⟩ := o
  intro b hb
  rw [Operand.text, List.mem_append, List.mem_append] at hb
  rcases hb with (hb | hb) | hb
  · cases negated with
    | true =>
      cases List.mem_singleton.mp hb
      decide
    | false => cases hb
  · exact h.text b hb
  · have hselect : ∀ c : Component, Avoids fieldEnds (Selector.one c).text := by
      intro c
      cases c <;> decide
    cases select with
    | whole => cases hb
    | one c => exact hselect c b hb
    | other t => exact absurd rfl (hplain t)

end Fields

/-! ## Printed lines -/

/-- The line of a declaration, without its newline. -/
def tempLine (r : Register) : Bytes :=
  wordField (ascii "TEMP") ++ operandField r.text ++ ascii ";"

theorem tempText_eq (r : Register) : tempText r = tempLine r ++ ascii "\n" := by
  exact (List.append_assoc _ (ascii ";") (ascii "\n")).symm

/-- The declaration of a register is read back. -/
theorem readTemp_tempLine {r : Register} (h : r.Readable) : readTemp (tempLine r) = some r := by
  have hblank : byte ' ' ∉ r.text := fun hb => h.text _ hb (by decide)
  have hline : unpadded (tempLine r) = ascii "TEMP" ++ r.text ++ ascii ";" := by
    rw [tempLine, wordField, operandField, unpadded_append, unpadded_append,
      unpadded_padRight (by decide), unpadded_padRight hblank]
    rfl
  rw [readTemp, hline, body?_keyword]
  exact Register.ofText?_text h.nameable

/-- The line of a constant's declaration. -/
def paramLine (number : α → Bytes) (p : Param α) : Bytes :=
  wordField (ascii "PARAM") ++ operandField p.reg.text ++ ascii "=  " ++
    valueField (p.value.text number) ++ ascii ";"

theorem paramText_eq (number : α → Bytes) (p : Param α) :
    paramText number p = paramLine number p ++ ascii "\n" := by
  exact (List.append_assoc _ (ascii ";") (ascii "\n")).symm

/-- The declaration of a constant is read back, with the text of its value. The name ends at the
first equality sign, as there is none in the name of a readable register. -/
theorem readParam_paramLine {number : α → Bytes} {p : Param α} (h : p.reg.Readable)
    (hv : p.value.Readable number) :
    readParam (paramLine number p) = some (p.written number) := by
  have hblank : byte ' ' ∉ p.reg.text := fun hb => h.text _ hb (by decide)
  have hvalue : byte ' ' ∉ p.value.text number := fun hb => hv _ hb (by decide)
  have hequals : ∀ b ∈ p.reg.text, (b != byte '=') = true := by
    intro b hb
    rw [bne_iff_ne]
    rintro rfl
    exact h.text _ hb (by decide)
  have hline : unpadded (paramLine number p) =
      ascii "PARAM" ++ (p.reg.text ++ byte '=' :: p.value.text number) ++ ascii ";" := by
    rw [paramLine, wordField, operandField, valueField, unpadded_append, unpadded_append,
      unpadded_append, unpadded_append, unpadded_padRight (by decide), unpadded_padRight hblank,
      unpadded_padRight hvalue, List.append_assoc, List.append_assoc, List.append_assoc,
      List.append_assoc, List.append_assoc]
    rfl
  have hname : (p.reg.text ++ byte '=' :: p.value.text number).takeWhile (· != byte '=') =
      p.reg.text := by
    rw [List.takeWhile_append_of_pos hequals, List.takeWhile_cons_of_neg (by simp), List.append_nil]
  rw [readParam, hline, body?_keyword, Option.bind_some]
  dsimp only
  rw [hname, Register.ofText?_text h.nameable, Option.map_some, List.drop_length_add_append]
  rfl

/-- The line of an instruction. -/
def instructionLine (i : Instruction) : Bytes :=
  wordField i.op.name ++ operandField i.dst.text ++
    i.src.flatMap (fun s => ascii ",  " ++ operandField s.text) ++ ascii ";"

theorem instructionText_eq (i : Instruction) :
    instructionText i = instructionLine i ++ ascii "\n" := by
  exact (List.append_assoc _ (ascii ";") (ascii "\n")).symm

/-- Mnemonics are of one length, and each is that of one instruction. -/
theorem name_of_mem_all : ∀ op ∈ Opcode.all, op.name.length = mnemonic ∧ byte ' ' ∉ op.name ∧
    Opcode.ofName? op.name = some op := by
  decide

theorem head_of_mem_all : ∀ op ∈ Opcode.all, ∃ b name, op.name = b :: name ∧ b ≠ byte '#' := by
  intro op hop
  have hany : ∀ op ∈ Opcode.all, op.name.head?.any (· != byte '#') = true := by decide
  have hhead := hany op hop
  cases hname : op.name with
  | nil =>
    rw [hname] at hhead
    cases hhead
  | cons b name =>
    rw [hname] at hhead
    exact ⟨b, name, rfl, by simpa using hhead⟩

/-- Without its blanks, an instruction is its mnemonic and its operands with commas between them. -/
theorem unpadded_instructionLine {i : Instruction} (hop : i.op ∈ Opcode.all)
    (h : ∀ o ∈ i.dst :: i.src, o.Plain ∧ o.reg.Readable) : unpadded (instructionLine i) =
      i.op.name ++ [byte ','].intercalate ((i.dst :: i.src).map Operand.text) ++ ascii ";" := by
  have hfield : ∀ o ∈ i.dst :: i.src, unpadded (operandField o.text) = o.text := fun o ho =>
    unpadded_padRight fun hb => avoids_text_operand (h o ho).1 (h o ho).2 _ hb (by decide)
  have hsources : ∀ os : List Operand, (∀ o ∈ os, o ∈ i.src) →
      unpadded (os.flatMap fun s => ascii ",  " ++ operandField s.text) =
        (os.map Operand.text).flatMap (ascii "," ++ ·) := by
    intro os
    induction os with
    | nil => exact fun _ => rfl
    | cons o os ih =>
      intro hos
      rw [List.flatMap_cons, unpadded_append, unpadded_append, ih fun o ho => hos o (by simp [ho]),
        hfield o (List.mem_cons_of_mem _ (hos o (by simp))), List.map_cons, List.flatMap_cons]
      rfl
  rw [instructionLine, unpadded_append, unpadded_append, unpadded_append, wordField,
    unpadded_padRight (name_of_mem_all _ hop).2.1, hfield _ List.mem_cons_self,
    hsources _ fun _ ho => ho, List.map_cons, intercalate_cons, List.append_assoc i.op.name]
  rfl

/-- An instruction is read back: all mnemonics have the same length, and no operand has a comma in
it. -/
theorem readInstruction_instructionLine {i : Instruction} (hop : i.op ∈ Opcode.all)
    (h : ∀ o ∈ i.dst :: i.src, o.Plain ∧ o.reg.Readable) :
    readInstruction (instructionLine i) = some i := by
  obtain ⟨hlen, -, hname⟩ := name_of_mem_all i.op hop
  have hcomma : ∀ t ∈ (i.dst :: i.src).map Operand.text, byte ',' ∉ t := by
    intro t ht hb
    obtain ⟨o, ho, rfl⟩ := List.mem_map.mp ht
    exact avoids_text_operand (h o ho).1 (h o ho).2 _ hb (by decide)
  have hoperands : ((i.dst :: i.src).map Operand.text).mapM Operand.ofText? =
      some ((i.dst :: i.src).map id) :=
    mapM_map fun o ho => Operand.ofText?_text (h o ho).1 (h o ho).2.nameable
  rw [readInstruction, unpadded_instructionLine hop h, List.append_assoc, ← hlen, List.take_left,
    hname, ← List.append_assoc]
  rw [Option.bind_some, body?_keyword, Option.bind_some,
    List.splitOn_intercalate _ hcomma (by simp), hoperands, List.map_id]

/-- A line of code, without its newline. -/
def codeLine : Line → Bytes
  | .instr i => instructionLine i
  | .comment t => ascii "# " ++ t
  | .blank => []
  | .absent => ascii "# unknown line <nil>"

theorem lineText_eq (l : Line) : lineText l = codeLine l ++ ascii "\n" := by
  cases l with
  | instr i => exact instructionText_eq i
  | comment t => rfl
  | blank => rfl
  | absent => rfl

/-- **A line of code is read back.** An instruction begins with none of the bytes of a comment, and
it is not empty. -/
theorem readLine_codeLine {l : Line} (h : l.Readable) : readLine (codeLine l) = some l := by
  cases l with
  | instr i =>
    obtain ⟨hop, hoperands⟩ := h
    obtain ⟨b, rest, hline, hb⟩ : ∃ b rest, instructionLine i = b :: rest ∧ b ≠ byte '#' := by
      obtain ⟨b, name, hname, hb⟩ := head_of_mem_all i.op hop
      rw [instructionLine, wordField, padRight, hname]
      exact ⟨b, _, rfl, hb⟩
    have hcomment : ¬ (ascii "# ").isPrefixOf (b :: rest) = true := by
      intro hp
      obtain ⟨u, hu⟩ := List.isPrefixOf_iff_prefix.mp hp
      exact hb (List.cons.inj hu).1.symm
    have hread := readInstruction_instructionLine hop hoperands
    rw [codeLine]
    rw [hline] at hread ⊢
    rw [readLine, if_neg (List.cons_ne_nil _ _), if_neg hcomment, hread]
    rfl
  | comment t =>
    rw [readLine, codeLine, if_neg (by simp [ascii]), if_pos]
    · rfl
    · rw [List.isPrefixOf_iff_prefix]
      exact List.prefix_append _ _
  | blank => rfl
  | absent => exact h.elim

/-! ## Printed programs -/

/-- A text of lines, each with a newline behind it. -/
def unlines (ls : List Bytes) : Bytes := ls.flatMap (· ++ ascii "\n")

theorem unlines_append (ls ls' : List Bytes) : unlines (ls ++ ls') = unlines ls ++ unlines ls' :=
  List.flatMap_append

theorem unlines_map {l : List α} {f g : α → Bytes} (h : ∀ a, g a = f a ++ ascii "\n") :
    unlines (l.map f) = l.flatMap g := by
  rw [unlines, List.flatMap_map]
  exact List.flatMap_congr fun a _ => (h a).symm

/-- A text of lines is cut into these lines, and an empty one behind the last newline. -/
theorem lines_unlines {ls : List Bytes} (h : ∀ l ∈ ls, byte '\n' ∉ l) :
    Shader.lines (unlines ls) = ls ++ [[]] := by
  induction ls with
  | nil => rfl
  | cons l ls ih =>
    rw [unlines, List.flatMap_cons, List.append_assoc]
    show Shader.lines (l ++ byte '\n' :: unlines ls) = _
    rw [lines_append_newline, lines_of_not_mem (h l List.mem_cons_self),
      ih fun l hl => h l (List.mem_cons_of_mem _ hl)]
    rfl

/-- The lines of a section. -/
def sectionLines (name : Bytes) (entries : List Bytes) : List Bytes :=
  (ascii "# " ++ name) :: (entries ++ [[], []])

/-- The printer writes the lines of a section. -/
theorem unlines_sectionLines {l : List α} {f g : α → Bytes} (h : ∀ a, g a = f a ++ ascii "\n")
    (name : Bytes) : unlines (sectionLines name (l.map f)) = registers name (l.map g) := by
  rw [sectionLines, unlines, List.flatMap_cons, List.flatMap_append]
  show ascii "# " ++ name ++ ascii "\n" ++ (unlines (l.map f) ++ ascii "\n\n") =
    ascii "# " ++ name ++ ascii "\n" ++ (l.map g).flatten ++ ascii "\n\n"
  rw [unlines_map h, List.flatMap_def]
  simp only [List.append_assoc]

/-- A section is read back up to its first empty line, as no entry is an empty line. -/
theorem readSection_sectionLines {name : Bytes} {f : α → Bytes} {g : Bytes → Option β} {k : α → β}
    {l : List α} (hread : ∀ a ∈ l, g (f a) = some (k a)) (hne : ∀ a ∈ l, f a ≠ [])
    (rest : List Bytes) :
    readSection name g (sectionLines name (l.map f) ++ rest) = some (l.map k, rest) := by
  have hentries : ∀ t ∈ l.map f, (t != []) = true := by
    intro t ht
    obtain ⟨a, ha, rfl⟩ := List.mem_map.mp ht
    rw [bne_iff_ne]
    exact hne a ha
  have htail : (sectionLines name (l.map f) ++ rest).tail = l.map f ++ ([] :: [] :: rest) := by
    rw [sectionLines, List.cons_append, List.tail_cons, List.append_assoc]
    rfl
  have hhead : (sectionLines name (l.map f) ++ rest).head? = some (ascii "# " ++ name) := rfl
  rw [readSection, if_pos hhead, htail, List.takeWhile_append_of_pos hentries,
    List.dropWhile_append_of_pos hentries, List.takeWhile_cons_of_neg (by simp),
    List.dropWhile_cons_of_neg (by simp), List.append_nil, mapM_map hread]
  rfl

/-- The lines of a program. -/
def layout (number : α → Bytes) (a : Assembly α) : List Bytes :=
  [ascii "!!ARBfp1.0", []] ++
    (sectionLines (ascii "User Declared Non-Constant Variables") (a.userTemps.map tempLine) ++
    (sectionLines (ascii "User Declared Constant Variables")
        (a.userParams.map (paramLine number)) ++
    (sectionLines (ascii "Auto-Generated Re-usable Intermediate Value Registers")
      (a.temps.map tempLine) ++
    (sectionLines (ascii "Auto-Generated Non-reusable Intermediate Value Registers")
      (a.longLived.map tempLine) ++
    (sectionLines (ascii "Auto-Generated Immediate Value Registers")
      (a.immediates.map (paramLine number)) ++
    (ascii "# Instructions" :: (a.lines.map codeLine ++ [[], [], ascii "END"])))))))

/-- **The printer writes the lines of the layout.** -/
theorem text_eq_unlines (number : α → Bytes) (a : Assembly α) :
    a.text number = unlines (a.layout number) := by
  rw [layout, unlines_append, unlines_append, unlines_append, unlines_append, unlines_append,
    unlines_append, unlines_sectionLines tempText_eq, unlines_sectionLines (paramText_eq number),
    unlines_sectionLines tempText_eq, unlines_sectionLines tempText_eq,
    unlines_sectionLines (paramText_eq number)]
  have hcode : unlines (ascii "# Instructions" :: (a.lines.map codeLine ++ [[], [], ascii "END"])) =
      title (ascii "Instructions") ++ (a.lines.flatMap lineText ++ ascii "\n\nEND\n") := by
    rw [← unlines_map lineText_eq]
    exact congrArg (title (ascii "Instructions") ++ ·) (unlines_append _ _)
  rw [hcode, text]
  simp only [List.append_assoc]
  rfl

section Newlines

theorem newline_not_mem_append {t u : Bytes} (ht : byte '\n' ∉ t) (hu : byte '\n' ∉ u) :
    byte '\n' ∉ t ++ u := by
  rw [List.mem_append, not_or]
  exact ⟨ht, hu⟩

theorem newline_not_mem_padRight {t : Bytes} (h : byte '\n' ∉ t) (w : Nat) :
    byte '\n' ∉ padRight w t :=
  newline_not_mem_append h fun hb => absurd (List.eq_of_mem_replicate hb) (by decide)

theorem newline_not_mem_tempLine {r : Register} (h : r.Readable) : byte '\n' ∉ tempLine r :=
  newline_not_mem_append
    (newline_not_mem_append (newline_not_mem_padRight (by decide) _)
      (newline_not_mem_padRight (fun hb => h.text _ hb (by decide)) _))
    (by decide)

theorem newline_not_mem_paramLine {number : α → Bytes} {p : Param α} (h : p.reg.Readable)
    (hv : p.value.Readable number) : byte '\n' ∉ paramLine number p :=
  newline_not_mem_append
    (newline_not_mem_append
      (newline_not_mem_append
        (newline_not_mem_append (newline_not_mem_padRight (by decide) _)
          (newline_not_mem_padRight (fun hb => h.text _ hb (by decide)) _))
        (by decide))
      (newline_not_mem_padRight (fun hb => hv _ hb (by decide)) _))
    (by decide)

/-- No newline is within a line of code. -/
theorem newline_not_mem_codeLine {l : Line} (h : l.Readable) : byte '\n' ∉ codeLine l := by
  cases l with
  | instr i =>
    obtain ⟨hop, hoperands⟩ := h
    have hname : ∀ op ∈ Opcode.all, byte '\n' ∉ op.name := by decide
    have hfield : ∀ o ∈ i.dst :: i.src, byte '\n' ∉ operandField o.text := fun o ho =>
      newline_not_mem_padRight (fun hb =>
        avoids_text_operand (hoperands o ho).1 (hoperands o ho).2 _ hb (by decide)) _
    refine newline_not_mem_append (newline_not_mem_append (newline_not_mem_append
      (newline_not_mem_padRight (hname _ hop) _) (hfield _ List.mem_cons_self)) ?_) (by decide)
    intro hb
    obtain ⟨o, ho, hb⟩ := List.mem_flatMap.mp hb
    exact newline_not_mem_append (by decide) (hfield o (List.mem_cons_of_mem _ ho)) hb
  | comment t => exact newline_not_mem_append (by decide) h
  | blank => exact List.not_mem_nil
  | absent => exact h.elim

theorem newline_not_mem_sectionLines {name : Bytes} {l : List α} {f : α → Bytes}
    (hname : byte '\n' ∉ name) (h : ∀ a ∈ l, byte '\n' ∉ f a) :
    ∀ t ∈ sectionLines name (l.map f), byte '\n' ∉ t := by
  intro t ht
  rw [sectionLines, List.mem_cons, List.mem_append, List.mem_map] at ht
  rcases ht with rfl | ⟨a, ha, rfl⟩ | ht
  · exact newline_not_mem_append (by decide) hname
  · exact h a ha
  · have hempty : ∀ t ∈ [([] : Bytes), []], byte '\n' ∉ t := by decide
    exact hempty t ht

end Newlines

/-- No line that can be read has a newline in it. -/
theorem newline_not_mem_layout {number : α → Bytes} {a : Assembly α} (h : a.Readable number) :
    ∀ l ∈ a.layout number, byte '\n' ∉ l := by
  have hreg : ∀ r ∈ a.userTemps ++ a.temps ++ a.longLived, byte '\n' ∉ tempLine r := fun r hr =>
    newline_not_mem_tempLine (h.registers r hr)
  have hparam : ∀ p ∈ a.userParams ++ a.immediates, byte '\n' ∉ paramLine number p := fun p hp =>
    newline_not_mem_paramLine (h.params p hp).1 (h.params p hp).2
  rw [List.forall_mem_append, List.forall_mem_append] at hreg
  rw [List.forall_mem_append] at hparam
  have hcode : ∀ l ∈ a.lines.map codeLine, byte '\n' ∉ l := by
    intro t ht
    obtain ⟨l, hl, rfl⟩ := List.mem_map.mp ht
    exact newline_not_mem_codeLine (h.lines l hl)
  simp only [layout, List.forall_mem_append, List.forall_mem_cons]
  exact ⟨by decide +kernel, newline_not_mem_sectionLines (by decide +kernel) hreg.1.1,
    newline_not_mem_sectionLines (by decide +kernel) hparam.1,
    newline_not_mem_sectionLines (by decide +kernel) hreg.1.2,
    newline_not_mem_sectionLines (by decide +kernel) hreg.2,
    newline_not_mem_sectionLines (by decide +kernel) hparam.2, by decide +kernel, hcode,
    by decide +kernel⟩

/-- The code is read back. Its end is found from behind, since the code may have empty lines of its
own. -/
theorem readCode_codeLines {ls : List Line} (h : ∀ l ∈ ls, l.Readable) :
    readCode (ascii "# Instructions" :: (ls.map codeLine ++ closing)) = some ls := by
  have hlength : (ls.map codeLine ++ closing).length - closing.length =
      (ls.map codeLine).length := by
    rw [List.length_append, Nat.add_sub_cancel]
  have hread : ∀ l ∈ ls, readLine (codeLine l) = some (id l) := fun l hl =>
    readLine_codeLine (h l hl)
  have hclosing : (ls.map codeLine ++ closing).drop
      ((ls.map codeLine ++ closing).length - closing.length) = closing := by
    rw [hlength, List.drop_left]
  refine (if_pos ⟨rfl, hclosing⟩).trans ?_
  rw [List.tail_cons, hlength, List.take_left, mapM_map hread, List.map_id]

/-- **A program that can be read is read back from its text.** -/
theorem read_text {number : α → Bytes} {a : Assembly α} (h : a.Readable number) :
    read (a.text number) = some (a.written number) := by
  have hlines := lines_unlines (newline_not_mem_layout h)
  rw [← text_eq_unlines] at hlines
  have htemps : ∀ {l : List Register} (name : Bytes) (rest : List Bytes), (∀ r ∈ l, r.Readable) →
      readSection name readTemp (sectionLines name (l.map tempLine) ++ rest) = some (l, rest) := by
    intro l name rest hl
    have hread : ∀ r ∈ l, readTemp (tempLine r) = some (id r) := fun r hr =>
      readTemp_tempLine (hl r hr)
    rw [readSection_sectionLines hread (fun r _ => by simp [tempLine, ascii]) rest, List.map_id]
  have hparams : ∀ {l : List (Param α)} (name : Bytes) (rest : List Bytes),
      (∀ p ∈ l, p.reg.Readable ∧ p.value.Readable number) →
      readSection name readParam (sectionLines name (l.map (paramLine number)) ++ rest) =
        some (l.map (Param.written number), rest) := by
    intro l name rest hl
    exact readSection_sectionLines (fun p hp => readParam_paramLine (hl p hp).1 (hl p hp).2)
      (fun p _ => by simp [paramLine, ascii]) rest
  obtain ⟨hregs, hlong⟩ := List.forall_mem_append.mp h.registers
  obtain ⟨huser, htemp⟩ := List.forall_mem_append.mp hregs
  obtain ⟨hconst, himm⟩ := List.forall_mem_append.mp h.params
  have hrest : readSections (((a.layout number) ++ [[]]).drop 2) = some (a.written number) := by
    simp only [layout, List.append_assoc, List.cons_append, List.nil_append, List.drop_succ_cons,
      List.drop_zero]
    have hcode : readCode (ascii "# Instructions" ::
        (a.lines.map codeLine ++ [[], [], ascii "END", []])) = some a.lines :=
      readCode_codeLines h.lines
    -- the sections are taken one after the other
    simp only [readSections, Option.bind_eq_bind, htemps _ _ huser, hparams _ _ hconst,
      htemps _ _ htemp, htemps _ _ hlong, hparams _ _ himm, hcode, Option.bind_some]
    rfl
  rw [read, hlines]
  exact (if_pos rfl).trans hrest

end Assembly

end Shader
