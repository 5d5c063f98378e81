import Mathlib.Data.List.DropRight
import Shader.Excerpt
import Shader.Proofs.DiagnosticOrder
import Shader.Proofs.RegisterNames

/-!
# Every diagnostic can be shown

A diagnostic is at the first byte of a token. The line of that byte is the one that its excerpt
quotes, and the excerpt's underline starts below the byte: no carriage return that is cut off at the
end of a line is one of a token, so what is underlined is still there.
-/

namespace Shader

open Text

/-! ## Lines -/

/-- The line of a text that holds the byte at `b`, with all that stands before and behind it. -/
structure LineAt (t : Bytes) (b : Nat) (before line after : Bytes) : Prop where
  text : t = before ++ line ++ after
  /-- Before the line is nothing, or a newline is last. -/
  above : before = [] ∨ before.getLast? = some (byte '\n')
  single : byte '\n' ∉ line
  /-- Behind the line is nothing, or a newline is first. -/
  below : after = [] ∨ after.head? = some (byte '\n')
  inside : before.length ≤ b ∧ b < before.length + line.length

theorem lines_ne_nil (t : Bytes) : lines t ≠ [] := by
  cases t with
  | nil => simp [lines]
  | cons b t =>
    rw [lines]
    split
    · simp
    · split <;> simp

theorem lines_cons_of_ne {b : UInt8} {t line : Bytes} {more : List Bytes} (hb : b ≠ byte '\n')
    (h : lines t = line :: more) : lines (b :: t) = (b :: line) :: more := by
  rw [lines, if_neg hb, h]

theorem lines_newline (t : Bytes) : lines (byte '\n' :: t) = [] :: lines t := by
  rw [lines, if_pos rfl]

theorem lines_append_newline (t u : Bytes) :
    lines (t ++ byte '\n' :: u) = lines t ++ lines u := by
  induction t with
  | nil => exact lines_newline u
  | cons b t ih =>
    rw [List.cons_append]
    by_cases hb : b = byte '\n'
    · rw [hb, lines_newline, lines_newline, ih, List.cons_append]
    · obtain ⟨line, more, hlines⟩ := List.exists_cons_of_ne_nil (lines_ne_nil t)
      rw [lines_cons_of_ne hb hlines]
      rw [hlines, List.cons_append] at ih
      rw [lines_cons_of_ne hb ih, List.cons_append]

theorem length_lines (t : Bytes) : (lines t).length = t.count (byte '\n') + 1 := by
  induction t with
  | nil => rfl
  | cons b t ih =>
    by_cases hb : b = byte '\n'
    · rw [hb, lines_newline, List.length_cons, ih, List.count_cons_self]
    · obtain ⟨line, more, hlines⟩ := List.exists_cons_of_ne_nil (lines_ne_nil t)
      rw [lines_cons_of_ne hb hlines, List.count_cons_of_ne hb, ← ih, hlines]
      rfl

/-- A text without a newline is one line. -/
theorem lines_of_not_mem {t : Bytes} (h : byte '\n' ∉ t) : lines t = [t] := by
  induction t with
  | nil => rfl
  | cons b t ih =>
    rw [List.mem_cons, not_or] at h
    exact lines_cons_of_ne (Ne.symm h.1) (ih h.2)

/-- The first line of a text. -/
theorem head?_lines {line after : Bytes} (hline : byte '\n' ∉ line)
    (hafter : after = [] ∨ after.head? = some (byte '\n')) :
    (lines (line ++ after))[0]? = some line := by
  rcases hafter with rfl | hafter
  · rw [List.append_nil, lines_of_not_mem hline]
    rfl
  · obtain ⟨rest, rfl⟩ := List.head?_eq_some_iff.mp hafter
    rw [lines_append_newline, lines_of_not_mem hline]
    rfl

/-- **The line of a byte has as its number the newlines before it.** -/
theorem LineAt.getElem?_lines {t before line after : Bytes} {b : Nat}
    (h : LineAt t b before line after) : (lines t)[before.count (byte '\n')]? = some line := by
  have hfirst := head?_lines h.single h.below
  rw [h.text, List.append_assoc]
  rcases h.above with rfl | habove
  · exact hfirst
  · obtain ⟨u, rfl⟩ := List.getLast?_eq_some_iff.mp habove
    rw [List.append_assoc, List.singleton_append, lines_append_newline,
      List.getElem?_append_right (by rw [length_lines]; simp), length_lines]
    simpa using hfirst

/-- **A byte that is no newline stands in a line**, which has the number of the byte's line, and the
byte at its column. -/
theorem Pos.IsAt.exists_line {p : Pos} {t : Bytes} {b : Nat} {c : UInt8} (h : p.IsAt t b)
    (hc : t[b]? = some c) (hnew : c ≠ byte '\n') : ∃ before row after,
      LineAt t b before row after ∧ p.line = before.count (byte '\n') + 1 ∧
        p.column = b - before.length + 1 ∧ row[b - before.length]? = some c := by
  have hb : b < t.length := (List.getElem?_eq_some_iff.mp hc).1
  -- the line starts at `k`
  obtain ⟨k, hk, habove, hseg, hcol⟩ : ∃ k ≤ b,
      (t.take k = [] ∨ (t.take k).getLast? = some (byte '\n')) ∧
        byte '\n' ∉ (t.drop k).take (b - k) ∧ p.column = b - k + 1 := by
    rcases h.column with ⟨hnone, hcol⟩ | ⟨j, hj, hjn, hlast, hcol⟩
    · exact ⟨0, Nat.zero_le b, .inl rfl, by simpa using hnone, by rw [hcol]; omega⟩
    · refine ⟨j + 1, hj, .inr ?_, fun hmem => ?_, by rw [hcol]; omega⟩
      · rw [List.take_add_one, hjn]
        simp
      · obtain ⟨i, hi, hget⟩ := List.getElem_of_mem hmem
        rw [List.length_take, List.length_drop] at hi
        rw [List.getElem_take, List.getElem_drop] at hget
        refine hlast (j + 1 + i) (by omega) (by omega) ?_
        rw [List.getElem?_eq_getElem (by omega), hget]
  have hdrop : t.drop k = (t.drop k).take (b - k) ++ t.drop b := by
    conv_lhs => rw [← List.take_append_drop (b - k) (t.drop k)]
    rw [List.drop_drop, Nat.add_sub_cancel' hk]
  have hrest : t.drop b = c :: t.drop (b + 1) := by
    rw [List.drop_eq_getElem_cons hb, (List.getElem?_eq_some_iff.mp hc).2]
  have hk' : (t.take k).length = k := List.length_take_of_le (by omega)
  have hseg' : ((t.drop k).take (b - k)).length = b - k := by
    rw [List.length_take, List.length_drop]
    omega
  have hbefore : t.take b = t.take k ++ (t.drop k).take (b - k) := by
    rw [← List.take_add, Nat.add_sub_cancel' hk]
  generalize (t.drop k).take (b - k) = seg at hseg hdrop hseg' hbefore
  -- and ends before the next newline
  obtain ⟨more, after, hmore, hsingle, hbelow, -⟩ := length_line (t.drop (b + 1))
  refine ⟨t.take k, seg ++ c :: more, after, ⟨?_, habove, ?_, hbelow, ?_⟩, ?_, ?_, ?_⟩
  · rw [List.append_assoc, List.append_assoc, List.cons_append, ← hmore, ← hrest, ← hdrop,
      List.take_append_drop]
  · simp [hseg, hsingle, Ne.symm hnew]
  · rw [hk', List.length_append, List.length_cons, hseg']
    omega
  · rw [h.line, hbefore, List.count_append, List.count_eq_zero.mpr hseg]
    omega
  · rw [hcol, hk']
  · rw [hk', ← hseg', List.getElem?_append_right (Nat.le_refl _)]
    simp

/-! ## Underlines -/

theorem trimReturns_eq (line : Bytes) :
    trimReturns line = line.rdropWhile (· == byte '\r') := rfl

theorem trimReturns_append (line : Bytes) :
    trimReturns line ++ line.rtakeWhile (· == byte '\r') = line :=
  List.rdropWhile_append_rtakeWhile

theorem eq_return_of_mem {line : Bytes} {c : UInt8} (h : c ∈ line.rtakeWhile (· == byte '\r')) :
    c = byte '\r' := by
  simpa using List.mem_rtakeWhile_imp h

theorem getLast?_trimReturns (line : Bytes) : (trimReturns line).getLast? ≠ some (byte '\r') := by
  intro h
  rw [trimReturns_eq] at h
  obtain ⟨u, hu⟩ := List.getLast?_eq_some_iff.mp h
  have hne : line.rdropWhile (· == byte '\r') ≠ [] := by
    rw [hu]
    simp
  refine List.rdropWhile_last_not _ _ hne ?_
  rw [List.getLast_of_getLast?_eq_some h]
  rfl

/-- No byte but a return is cut off at the end of a line. -/
theorem lt_length_trimReturns {row : Bytes} {i : Nat} {c : UInt8} (h : row[i]? = some c)
    (hc : c ≠ byte '\r') : i < (trimReturns row).length := by
  refine Nat.lt_of_not_le fun hle => hc ?_
  rw [← trimReturns_append row, List.getElem?_append_right hle] at h
  exact eq_return_of_mem (List.mem_of_getElem? h)

namespace Excerpt

theorem mem_label {n : Nat} {c : UInt8} (h : c ∈ label n) :
    c = byte ' ' ∨ c = byte ':' ∨ 48 ≤ c.toNat ∧ c.toNat ≤ 57 := by
  rw [label, padLeft, List.mem_append, List.mem_append] at h
  rcases h with (h | h) | h
  · exact .inl (List.eq_of_mem_replicate h)
  · exact .inr (.inr (digit_of_mem_decimal h))
  · have hcolon : c ∈ [byte ':', byte ' '] := h
    simp at hcolon
    tauto

theorem map_shade_label (n : Nat) : (label n).map shade = blanks (label n).length := by
  refine List.eq_replicate_iff.mpr ⟨List.length_map _, fun c hc => ?_⟩
  obtain ⟨c, hmem, rfl⟩ := List.mem_map.mp hc
  rw [shade, if_neg]
  rintro rfl
  exact absurd (mem_label hmem) (by decide)

/-- The line that underlines the word at `start` of a line. -/
def underline (number : Int) (line : Bytes) (start : Nat) : Bytes :=
  blanks (label number).length ++ (line.take start).map shade ++
    List.replicate (width (line.drop start)) (byte '^')

theorem ofLine_eq (number : Int) (line : Bytes) (start : Nat) :
    ofLine number line start =
      label number ++ line ++ ascii "\n" ++ underline number line start ++ ascii "\n" := by
  simp only [ofLine, underline, List.append_assoc]

theorem width_pos (t : Bytes) : 0 < width t :=
  Nat.lt_of_lt_of_le Nat.zero_lt_one (Nat.le_max_right _ _)

section Underline

variable {n start : Nat} {line : Bytes} (hstart : start < line.length)

/-- What stands before the carets follows the line above. -/
theorem underline_eq : underline n line start =
    ((label n ++ line).take ((label n).length + start)).map shade ++
      List.replicate (width (line.drop start)) (byte '^') := by
  rw [underline, List.take_length_add_append, List.map_append, map_shade_label]

include hstart

theorem length_before_carets :
    (((label n ++ line).take ((label n).length + start)).map shade).length =
      (label n).length + start := by
  rw [List.length_map, List.length_take, List.length_append]
  omega

theorem getElem?_underline_caret :
    (underline n line start)[(label n).length + start]? = some (byte '^') := by
  have hlen := length_before_carets (n := n) hstart
  rw [underline_eq, List.getElem?_append_right (by rw [hlen]), hlen, Nat.sub_self,
    List.getElem?_replicate, if_pos (width_pos _)]

theorem drop_underline : (underline n line start).drop ((label n).length + start) =
    List.replicate (width (line.drop start)) (byte '^') := by
  rw [underline_eq, List.drop_left' (length_before_carets hstart)]

theorem getElem?_underline {i : Nat} (hi : i < (label n).length + start) :
    (underline n line start)[i]? =
      some (if (label n ++ line)[i]? = some (byte '\t') then byte '\t' else byte ' ') := by
  have hlen := length_before_carets (n := n) hstart
  have hi' : i < (label n ++ line).length := by
    rw [List.length_append]
    omega
  rw [underline_eq, List.getElem?_append_left (by rw [hlen]; exact hi), List.getElem?_map,
    List.getElem?_take_of_lt hi, List.getElem?_eq_getElem hi']
  simp [shade]

end Underline

theorem newline_not_mem_label (n : Nat) : byte '\n' ∉ label n := fun h =>
  absurd (mem_label h) (by decide)

theorem newline_not_mem_underline (n start : Nat) (line : Bytes) :
    byte '\n' ∉ underline n line start := by
  rw [underline_eq, List.mem_append, List.mem_map, not_or]
  constructor
  · rintro ⟨c, -, hc⟩
    rw [shade] at hc
    split at hc <;> exact absurd hc (by decide)
  · exact fun h => absurd (List.eq_of_mem_replicate h) (by decide)

end Excerpt

/-- A text `shown` of two lines, `first` and `second`, that shows the byte at `b` of a source. The
byte is in the line `quoted`, behind the lines `before`, and at `offset` in `first`. -/
structure Displays (source : Bytes) (b : Nat) (before quoted first second : Bytes) (offset : Nat)
    (shown : Bytes) : Prop where
  text : shown = first ++ ascii "\n" ++ second ++ ascii "\n"
  single : byte '\n' ∉ first ∧ byte '\n' ∉ second
  /-- The line is quoted without the returns at its end. -/
  quotes : ∃ returns after, LineAt source b before (quoted ++ returns) after ∧
    (∀ c ∈ returns, c = byte '\r') ∧ quoted.getLast? ≠ some (byte '\r')
  /-- It stands behind its number. -/
  number : first = padLeft 7 (decimal (before.count (byte '\n') + 1)) ++ ascii ": " ++ quoted
  place : offset = first.length - quoted.length + (b - before.length)
  /-- The first caret is below the byte. -/
  caret : first[offset]? = source[b]? ∧ second[offset]? = some (byte '^')
  /-- Before it are blanks, and tabs where the line above has them. -/
  tabs : ∀ i < offset,
    second[i]? = some (if first[i]? = some (byte '\t') then byte '\t' else byte ' ')

/-- The line and the column that an excerpt looks for. -/
theorem excerpt_eq {source before line after : Bytes} {p : Pos} {b : Nat}
    (h : LineAt source b before line after) (hline : p.line = before.count (byte '\n') + 1)
    (hcolumn : p.column = b - before.length + 1)
    (hb : b - before.length < (trimReturns line).length) :
    excerpt source p = Excerpt.ofLine (before.count (byte '\n') + 1 : Nat) (trimReturns line)
      (b - before.length) := by
  have hle := h.inside.1
  have hindex : (p.line - 1).toNat = before.count (byte '\n') := by omega
  have hstart : (p.column - 1).toNat = b - before.length := by omega
  rw [excerpt, if_neg (by omega), hindex, h.getElem?_lines]
  dsimp only
  rw [if_neg (by omega), hstart, hline]
  rfl

/-- **An excerpt shows the byte it is asked for**, unless that is a space, with as many carets as
the quoted line has to underline. -/
theorem exists_displays_width {source : Bytes} {p : Pos} {b : Nat} {c : UInt8} (h : p.IsAt source b)
    (hc : source[b]? = some c) (hspace : isSpace c = false) :
    ∃ before quoted first second offset,
      Displays source b before quoted first second offset (excerpt source p) ∧
        second.drop offset =
          List.replicate (Excerpt.width (quoted.drop (b - before.length))) (byte '^') := by
  -- the byte is no blank, so it is neither the end of its line nor trimmed from it
  have hnew : c ≠ byte '\n' := by rintro rfl; exact absurd hspace (by decide)
  have hreturn : c ≠ byte '\r' := by rintro rfl; exact absurd hspace (by decide)
  obtain ⟨before, line, after, hline, hnumber, hcolumn, hbyte⟩ := h.exists_line hc hnew
  have hlt := lt_length_trimReturns hbyte hreturn
  have hquoted : (trimReturns line)[b - before.length]? = some c := by
    rw [← trimReturns_append line, List.getElem?_append_left hlt] at hbyte
    exact hbyte
  have hsingle : byte '\n' ∉ trimReturns line := fun hmem => hline.single
    (by rw [← trimReturns_append line]; exact List.mem_append_left _ hmem)
  have hexcerpt := excerpt_eq hline hnumber hcolumn hlt
  rw [Excerpt.ofLine_eq] at hexcerpt
  rw [← trimReturns_append line] at hline
  refine ⟨before, trimReturns line, _, _,
    (Excerpt.label (before.count (byte '\n') + 1 : Nat)).length + (b - before.length), ⟨hexcerpt,
    ⟨?_, Excerpt.newline_not_mem_underline _ _ _⟩, ⟨_, after, hline, fun _ => eq_return_of_mem,
      getLast?_trimReturns line⟩, rfl, ?_, ⟨?_, Excerpt.getElem?_underline_caret hlt⟩,
    fun i hi => Excerpt.getElem?_underline hlt hi⟩, Excerpt.drop_underline hlt⟩
  · rw [List.mem_append, not_or]
    exact ⟨Excerpt.newline_not_mem_label _, hsingle⟩
  · rw [List.length_append, Nat.add_sub_cancel]
  · rw [List.getElem?_append_right (Nat.le_add_right _ _), Nat.add_sub_cancel_left, hquoted, hc]

theorem exists_displays {source : Bytes} {p : Pos} {b : Nat} {c : UInt8} (h : p.IsAt source b)
    (hc : source[b]? = some c) (hspace : isSpace c = false) :
    ∃ before quoted first second offset,
      Displays source b before quoted first second offset (excerpt source p) := by
  obtain ⟨before, quoted, first, second, offset, hshown, -⟩ := exists_displays_width h hc hspace
  exact ⟨before, quoted, first, second, offset, hshown⟩

/-! ## Tokens of a source -/

theorem Pos.IsAt.append {p : Pos} {t : Bytes} {b : Nat} (h : p.IsAt t b) (hb : b ≤ t.length)
    (tail : Bytes) : p.IsAt (t ++ tail) b := by
  have htake : (t ++ tail).take b = t.take b := List.take_append_of_le_length hb
  have hget : ∀ {j : Nat}, j < b → (t ++ tail)[j]? = t[j]? := fun hj =>
    List.getElem?_append_left (Nat.lt_of_lt_of_le hj hb)
  refine ⟨by rw [htake]; exact h.line, ?_⟩
  rw [htake]
  rcases h.column with hnone | ⟨j, hj, hjn, hlast, hcol⟩
  · exact .inl hnone
  · refine .inr ⟨j, hj, by rw [hget hj]; exact hjn, fun k hk hkb => ?_, hcol⟩
    rw [hget hkb]
    exact hlast k hk hkb

theorem Token.IsAt.append {tok : Token} {t : Bytes} {s : Span} (h : tok.IsAt t s)
    (hs : s.start ≤ s.stop) (ht : s.stop ≤ t.length) (tail : Bytes) : tok.IsAt (t ++ tail) s := by
  have htext : s.text (t ++ tail) = s.text t := by
    rw [Span.text, Span.text, List.drop_append_of_le_length (by omega),
      List.take_append_of_le_length (by rw [List.length_drop]; omega)]
  exact ⟨by rw [htext]; exact h.literal, by rw [htext]; exact h.illegal,
    h.position.append (by omega) tail, h.proper⟩

theorem isSpace_of_unseparated {t : Bytes} {b : Nat} {c : UInt8} (h : Unseparated (t.drop b))
    (hc : t[b]? = some c) : isSpace c = false := by
  refine Bool.eq_false_iff.mpr fun hspace => ?_
  obtain ⟨hb, rfl⟩ := List.getElem?_eq_some_iff.mp hc
  exact h [t[b]] _ (List.drop_eq_getElem_cons hb) (.space (isSpace_iff.mp hspace))

/-- A token of a source stands in it, and does not start with a space. -/
theorem exists_isAt {source : Bytes} {tok : Token} (h : tok ∈ (scan source).1) :
    ∃ s : Span, tok.IsAt source s ∧ s.start < s.stop ∧ s.stop ≤ source.length ∧
      ∃ c, source[s.start]? = some c ∧ isSpace c = false := by
  obtain ⟨tail, htail⟩ : ∃ tail, source = visible source ++ tail := by
    rcases (visible_cases source).2 with h | ⟨tail, h⟩
    · exact ⟨[], by rw [List.append_nil]; exact h⟩
    · exact ⟨_, h⟩
  obtain ⟨spans, heach, hinside, -, -, hfree⟩ := exists_tiling source
  obtain ⟨s, hs, hat⟩ := exists_span heach h
  obtain ⟨-, hlt, hle⟩ := hinside s hs
  have hfirst : (visible source)[s.start]? = some _ := List.getElem?_eq_getElem (by omega)
  have hspace := isSpace_of_unseparated (hfree s hs) hfirst
  have happend := hat.append hlt.le hle tail
  have hget : (visible source ++ tail)[s.start]? = some _ :=
    (List.getElem?_append_left (by omega)).trans hfirst
  have hlength : s.stop ≤ (visible source ++ tail).length := by
    rw [List.length_append]
    omega
  rw [← htail] at happend hget hlength
  exact ⟨s, happend, hlt, hlength, _, hget, hspace⟩

/-- **Every diagnostic can be shown in its source.** It is at the first byte of a token, and the
excerpt at its position quotes the line of that byte behind its number and underlines from the byte
on. -/
theorem exists_excerpt_of_mem_errors (source : Bytes) (d : Diagnostic)
    (h : d ∈ (Program.ofAst (parse source).body).check.checker.errors) :
    ∃ tok ∈ (scan source).1, tok.pos = d.pos ∧
      ∃ s : Span, tok.IsAt source s ∧ s.start < s.stop ∧ s.stop ≤ source.length ∧
        ∃ before quoted first second offset,
          Displays source s.start before quoted first second offset (excerpt source d.pos) := by
  have hplace := (places_parse source).subset (mem_places_of_mem_errors h)
  obtain ⟨tok, htok, hpos⟩ := List.mem_map.mp hplace
  obtain ⟨s, hat, hlt, hle, c, hc, hspace⟩ := exists_isAt htok
  refine ⟨tok, htok, hpos, s, hat, hlt, hle, ?_⟩
  rw [← hpos]
  exact exists_displays hat.position hc hspace

/-- A name that is declared nowhere, in the second line, behind a tab and before a return. -/
theorem exists_excerpt_of_mem_errors_tab :
    (⟨⟨2, 6⟩, .undeclared (ascii "y")⟩ : Diagnostic) ∈
        (Program.ofAst (parse (ascii "\x7bfloat x;\n\tx = y;\r\n\x7d")).body).check.checker.errors ∧
      ∃ tok ∈ (scan (ascii "\x7bfloat x;\n\tx = y;\r\n\x7d")).1, tok.pos = ⟨2, 6⟩ ∧
        ∃ s : Span, tok.IsAt (ascii "\x7bfloat x;\n\tx = y;\r\n\x7d") s ∧ s.start < s.stop ∧
          s.stop ≤ (ascii "\x7bfloat x;\n\tx = y;\r\n\x7d").length ∧
          ∃ before quoted first second offset,
            Displays (ascii "\x7bfloat x;\n\tx = y;\r\n\x7d") s.start before quoted first second
              offset
              (excerpt (ascii "\x7bfloat x;\n\tx = y;\r\n\x7d") ⟨2, 6⟩) := by
  have h : (⟨⟨2, 6⟩, .undeclared (ascii "y")⟩ : Diagnostic) ∈
      (Program.ofAst
        (parse (ascii "\x7bfloat x;\n\tx = y;\r\n\x7d")).body).check.checker.errors := by
    decide +kernel
  exact ⟨h, exists_excerpt_of_mem_errors _ _ h⟩

end Shader
