import Shader.Proofs.Excerpts
import Shader.Proofs.Rendering

/-!
# How far a word is underlined

An excerpt does not know the tokens of its source. It underlines the letters, digits, underscores
and points that stand together, which is not always one token: the sign in the exponent of a float
ends the underline before the token does, and what stands close behind a token goes on with it.
There are no other cases for words of ASCII letters and for numbers: without a sign, and with none
of these bytes close behind, the underline is as long as the token.
-/

namespace Shader

open Text

/-! ## Runs of bytes -/

section Runs

variable {p : UInt8 → Bool} {w after : Bytes}

/-- A run does not go on where the text does not. -/
theorem takeWhile_append_of_head (hafter : ∀ b ∈ after.head?, p b = false) :
    (w ++ after).takeWhile p = w.takeWhile p := by
  have hnone : after.takeWhile p = [] := by
    cases after with
    | nil => rfl
    | cons b after => exact List.takeWhile_cons_of_neg (by simp [hafter b (by simp)])
  rw [List.takeWhile_append, hnone, List.append_nil]
  split
  · rename_i hlen
    exact ((List.takeWhile_prefix p).eq_of_length hlen).symm
  · rfl

/-- A run that is as long as `w` is `w`, and goes no further. -/
theorem runLength_append_eq_iff : runLength p (w ++ after) = w.length ↔
    (∀ b ∈ w, p b = true) ∧ ∀ b ∈ after.head?, p b = false := by
  refine ⟨fun h => ?_, fun h => runLength_append h.1 h.2⟩
  have hw : (w ++ after).takeWhile p = w :=
    (List.prefix_of_prefix_length_le (List.takeWhile_prefix p) (List.prefix_append w after)
      (Nat.le_of_eq h)).eq_of_length h
  have hall : ∀ b ∈ w, p b = true := by
    rw [← hw]
    exact List.all_eq_true.mp List.all_takeWhile
  refine ⟨hall, fun b hb => ?_⟩
  obtain ⟨rest, rfl⟩ := List.head?_eq_some_iff.mp hb
  rw [List.takeWhile_append_of_pos hall, List.append_right_eq_self, List.takeWhile_eq_nil_iff] at hw
  simpa using hw (by simp)

end Runs

/-! ## Words and numbers -/

theorem isWord_of_isWordFront {b : UInt8} (h : isWordFront b = true) (hascii : b < 0x80) :
    Excerpt.isWord b = true :=
  byte_forall (P := fun b => isWordFront b = true → b < 0x80 → Excerpt.isWord b = true)
    (by decide +kernel) b h hascii

/-- **A word or a number is underlined whole unless it has a sign.** -/
theorem Lexeme.underlined_iff {k : Kind} {w : Bytes} (h : Lexeme k w) (hk : k.isWord = true)
    (hascii : ∀ b ∈ w, b < 0x80) :
    (∀ b ∈ w, Excerpt.isWord b = true) ↔ byte '+' ∉ w ∧ byte '-' ∉ w := by
  refine ⟨fun hw => ⟨fun hmem => ?_, fun hmem => ?_⟩, fun hw b hb => ?_⟩
  · exact absurd (hw _ hmem) (by decide)
  · exact absurd (hw _ hmem) (by decide)
  · rcases h.parts hk b hb with hb' | rfl | rfl
    · exact isWord_of_isWordFront hb' (hascii b hb)
    · exact absurd hb hw.1
    · exact absurd hb hw.2

/-! ## Underlines -/

/-- What a line leaves of the text behind it is no part of a word. -/
theorem head?_line_end {returns after : Bytes} (hreturns : ∀ c ∈ returns, c = byte '\r')
    (hafter : after = [] ∨ after.head? = some (byte '\n')) :
    ∀ b ∈ (returns ++ after).head?, Excerpt.isWord b = false := by
  intro b hb
  cases returns with
  | nil =>
    rcases hafter with rfl | hafter
    · cases hb
    · rw [List.nil_append, hafter] at hb
      cases hb
      decide
  | cons c returns =>
    cases hb
    rw [hreturns b (by simp)]
    decide

namespace Displays

variable {source before quoted first second shown : Bytes} {b offset : Nat}

/-- The byte is in what is quoted of its line. -/
theorem lt_length_quoted (h : Displays source b before quoted first second offset shown) :
    b - before.length < quoted.length := by
  obtain ⟨returns, after, hline, -⟩ := h.quotes
  have hb : b < source.length := by
    rw [hline.text, List.length_append, List.length_append]
    have := hline.inside.2
    omega
  have hfirst : quoted.length ≤ first.length := by
    rw [h.number, List.length_append]
    omega
  have hcaret := h.caret.1
  rw [List.getElem?_eq_getElem hb, List.getElem?_eq_some_iff] at hcaret
  obtain ⟨hoffset, -⟩ := hcaret
  have := h.place
  omega

theorem takeWhile_quoted (h : Displays source b before quoted first second offset shown) :
    (quoted.drop (b - before.length)).takeWhile Excerpt.isWord =
      (source.drop b).takeWhile Excerpt.isWord := by
  obtain ⟨returns, after, hline, hreturns, -⟩ := h.quotes
  have hrest : source.drop b = quoted.drop (b - before.length) ++ (returns ++ after) := by
    rw [hline.text, List.append_assoc, List.append_assoc, List.drop_append,
      List.drop_eq_nil_of_le hline.inside.1, List.nil_append,
      List.drop_append_of_le_length h.lt_length_quoted.le]
  rw [hrest, takeWhile_append_of_head (head?_line_end hreturns hline.below)]

/-- No carets stand before the underline. -/
theorem count_caret (h : Displays source b before quoted first second offset shown) {n : Nat}
    (hn : second.drop offset = List.replicate n (byte '^')) : second.count (byte '^') = n := by
  have hbefore : (second.take offset).count (byte '^') = 0 := by
    rw [List.count_eq_zero]
    intro hmem
    obtain ⟨i, hi, hget⟩ := List.getElem_of_mem hmem
    rw [List.length_take] at hi
    have htab := h.tabs i (by omega)
    rw [List.getElem_take] at hget
    rw [List.getElem?_eq_getElem (by omega), hget] at htab
    split at htab <;> exact absurd htab (by decide)
  rw [← List.take_append_drop offset second, List.count_append, hbefore, hn,
    List.count_replicate_self, Nat.zero_add]

end Displays

/-- A token that is a word or a number, in its source. -/
theorem Token.IsAt.drop_eq {tok : Token} {source : Bytes} {s : Span} (h : tok.IsAt source s)
    (hk : tok.kind ≠ .illegal) (hs : s.start ≤ s.stop) :
    source.drop s.start = tok.literal ++ source.drop s.stop := by
  rw [h.literal hk, Span.text]
  conv_lhs => rw [← List.take_append_drop (s.stop - s.start) (source.drop s.start)]
  rw [List.drop_drop, Nat.add_sub_cancel' hs]

/-- **How far words and numbers are underlined.** Behind blanks, the excerpt at a name, a keyword or
a number of ASCII bytes has one caret for each letter, digit, underscore and point from there on. So
it has as many as the token has bytes exactly if the token has no signed exponent and none of these
bytes stands close behind it. -/
theorem carets_of_mem_scan {source : Bytes} {tok : Token} (h : tok ∈ (scan source).1)
    (hword : tok.kind.isWord = true) (hascii : ∀ b ∈ tok.literal, b < 0x80) :
    ∃ s : Span, tok.IsAt source s ∧ s.start < s.stop ∧ s.stop ≤ source.length ∧
      ∃ before quoted first second offset,
        Displays source s.start before quoted first second offset (excerpt source tok.pos) ∧
        second.drop offset = List.replicate (second.count (byte '^')) (byte '^') ∧
        second.count (byte '^') = runLength Excerpt.isWord (source.drop s.start) ∧
        (second.count (byte '^') = tok.literal.length ↔
          (byte '+' ∉ tok.literal ∧ byte '-' ∉ tok.literal) ∧
            ∀ b ∈ source[s.stop]?, Excerpt.isWord b = false) := by
  have hkind : tok.kind ≠ .illegal := by
    intro hk
    rw [hk] at hword
    exact absurd hword (by decide)
  have hlexeme := lexeme_of_mem_scan h hkind
  obtain ⟨s, hat, hlt, hle, c, hc, hspace⟩ := exists_isAt h
  obtain ⟨before, quoted, first, second, offset, hshown, hcarets⟩ :=
    exists_displays_width hat.position hc hspace
  have hsource := hat.drop_eq hkind hlt.le
  have hrun : Excerpt.width (quoted.drop (s.start - before.length)) =
      runLength Excerpt.isWord (source.drop s.start) := by
    -- there is at least one caret, and the token's first byte is one that is underlined anyway
    obtain ⟨b, rest, hrest, hfront⟩ := hlexeme.isWordFront_head hword
    have hb : Excerpt.isWord b = true :=
      isWord_of_isWordFront hfront (hascii b (by rw [hrest]; simp))
    have hpos : 0 < runLength Excerpt.isWord (source.drop s.start) := by
      rw [hsource, hrest]
      exact runLength_pos _ hb
    rw [Excerpt.width, hshown.takeWhile_quoted]
    exact Nat.max_eq_left hpos
  rw [hrun] at hcarets
  have hcount := hshown.count_caret hcarets
  refine ⟨s, hat, hlt, hle, before, quoted, first, second, offset, hshown, ?_, hcount, ?_⟩
  · rw [hcount]
    exact hcarets
  · rw [hcount, hsource, runLength_append_eq_iff, hlexeme.underlined_iff hword hascii,
      List.head?_drop]

/-- A float with an exponent that ends its line, before a return. -/
theorem carets_of_mem_scan_return :
    let source := ascii "\x7bx=1.5e3\r\n;\x7d"
    let tok : Token := ⟨.float, ascii "1.5e3", ⟨1, 4⟩⟩
    tok ∈ (scan source).1 ∧ tok.kind.isWord = true ∧ (tok.literal.all (· < 0x80)) = true ∧
      ∃ s : Span, tok.IsAt source s ∧ s.start < s.stop ∧ s.stop ≤ source.length ∧
        ∃ before quoted first second offset,
          Displays source s.start before quoted first second offset (excerpt source tok.pos) ∧
          second.drop offset = List.replicate (second.count (byte '^')) (byte '^') ∧
          second.count (byte '^') = runLength Excerpt.isWord (source.drop s.start) ∧
          (second.count (byte '^') = tok.literal.length ↔
            (byte '+' ∉ tok.literal ∧ byte '-' ∉ tok.literal) ∧
              ∀ b ∈ source[s.stop]?, Excerpt.isWord b = false) := by
  intro source tok
  have h : tok ∈ (scan source).1 := by decide +kernel
  have hword : tok.kind.isWord = true := by decide
  have hascii : (tok.literal.all (· < 0x80)) = true := by decide
  exact ⟨h, hword, hascii, carets_of_mem_scan h hword fun b hb => by
    simpa using List.all_eq_true.mp hascii b hb⟩

/-- Two tokens that are not underlined as they are: a float of six bytes by four carets, and an
integer of one byte by two. -/
theorem carets_of_sign_and_neighbour :
    (⟨.float, ascii "1.0e+5", ⟨1, 4⟩⟩ : Token) ∈ (scan (ascii "\x7bx=1.0e+5;\x7d")).1 ∧
      excerpt (ascii "\x7bx=1.0e+5;\x7d") ⟨1, 4⟩ =
        ascii "      1: \x7bx=1.0e+5;\x7d\n            ^^^^\n" ∧
    (⟨.int, ascii "2", ⟨1, 4⟩⟩ : Token) ∈ (scan (ascii "\x7bx=2y;\x7d")).1 ∧
      excerpt (ascii "\x7bx=2y;\x7d") ⟨1, 4⟩ =
        ascii "      1: \x7bx=2y;\x7d\n            ^^\n" := by
  decide +kernel

end Shader
