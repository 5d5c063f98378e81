import Shader.Proofs.Lexemes

/-!
# Layout does not matter

A text is read the same however its tokens are laid out: what stands between two of them may be any
mix of spaces and closed comments, as long as it keeps them apart. Spaces always do. A comment alone
may not: a slash in front of one would open another.

`Reads` describes a text as lexemes in their gaps, and the scanner finds those lexemes, whatever the
gaps are (`forms_of_reads`). So everything about layout is about which texts `Reads` covers.
-/

namespace Shader

open Text

/-! ## Gaps -/

/-- A space, or a comment that is closed: one of a line by a newline. -/
inductive Filler : Bytes → Prop where
  | space {b : UInt8} : b ∈ [byte ' ', byte '\t', byte '\r', byte '\n'] → Filler [b]
  | line {body : Bytes} : byte '\n' ∉ body → 0 ∉ body →
      Filler (byte '/' :: byte '/' :: (body ++ [byte '\n']))
  | block {body : Bytes} : ¬ closer <:+: body → 0 ∉ body →
      Filler (byte '/' :: byte '*' :: (body ++ closer))

/-- Any mix of spaces and closed comments. -/
inductive Filling : Bytes → Prop where
  | nil : Filling []
  | cons {s t : Bytes} : Filler s → Filling t → Filling (s ++ t)

/-- A mix that begins with a space. -/
inductive Spacing : Bytes → Prop where
  | mk {b : UInt8} {t : Bytes} :
      b ∈ [byte ' ', byte '\t', byte '\r', byte '\n'] → Filling t → Spacing (b :: t)

section Gaps

variable {s t gap : Bytes}

theorem length_line_comment {body : Bytes} (h : byte '\n' ∉ body) (t : Bytes) :
    Gap.line.length (body ++ byte '\n' :: t) = body.length + 1 + gapLength t := by
  induction body with
  | nil =>
    rw [List.nil_append, Gap.length, Gap.step, if_pos rfl, List.length_nil, Nat.zero_add,
      Nat.add_comm]
    rfl
  | cons b body ih =>
    rw [List.mem_cons, not_or] at h
    rw [List.cons_append, Gap.length, Gap.step, if_neg (Ne.symm h.1)]
    simp only [ih h.2, List.length_cons]
    omega

theorem length_block_comment {body : Bytes} (h : ¬ closer <:+: body) (t : Bytes) :
    Gap.block.length (body ++ (closer ++ t)) = body.length + 2 + gapLength t := by
  induction body with
  | nil =>
    rw [List.nil_append, closer, List.cons_append, Gap.length, Gap.step, if_pos ⟨rfl, rfl⟩]
    show gapLength t + 1 + 1 = _
    simp only [List.length_nil]
    omega
  | cons b body ih =>
    -- a closer of which the first byte is in the comment is all in it
    have hopen : ¬(b = byte '*' ∧ (body ++ (closer ++ t)).head? = some (byte '/')) := by
      rintro ⟨rfl, hnext⟩
      cases body with
      | nil => exact absurd hnext (by simp [closer, byte])
      | cons c body =>
        cases Option.some.inj hnext
        exact h ⟨[], body, rfl⟩
    have hbody : ¬ closer <:+: body := fun hin =>
      h (hin.trans (List.infix_cons (List.infix_refl _)))
    rw [List.cons_append, Gap.length, Gap.step, if_neg hopen]
    simp only [ih hbody, List.length_cons]
    omega

theorem gapLength_filler (h : Filler s) (t : Bytes) :
    gapLength (s ++ t) = s.length + gapLength t := by
  cases h with
  | space hb =>
    rw [List.singleton_append, gapLength, Gap.length, Gap.step, if_pos (isSpace_iff.mpr hb),
      Nat.add_comm]
    rfl
  | line hbody _ =>
    rw [List.cons_append, List.cons_append, List.append_assoc, gapLength_line,
      List.singleton_append, length_line_comment hbody]
    simp only [List.length_cons, List.length_append, List.length_nil]
    omega
  | block hbody _ =>
    rw [List.cons_append, List.cons_append, List.append_assoc, gapLength_block,
      length_block_comment hbody]
    simp only [List.length_cons, List.length_append, closer, List.length_nil]
    omega

/-- **Spaces and closed comments are passed over**, whatever stands behind them. -/
theorem gapLength_filling (h : Filling gap) (t : Bytes) :
    gapLength (gap ++ t) = gap.length + gapLength t := by
  induction h with
  | nil => simp
  | cons hs _ ih =>
    rw [List.append_assoc, gapLength_filler hs, ih, List.length_append, Nat.add_assoc]

theorem Filling.append (h : Filling s) (ht : Filling t) : Filling (s ++ t) := by
  induction h with
  | nil => exact ht
  | cons hs _ ih =>
    rw [List.append_assoc]
    exact .cons hs ih

theorem Filling.no_zero (h : Filling gap) : 0 ∉ gap := by
  induction h with
  | nil => simp
  | cons hs _ ih =>
    refine fun hmem => (List.mem_append.mp hmem).elim (fun hmem => ?_) ih
    cases hs with
    | space hb =>
      cases List.mem_singleton.mp hmem
      exact absurd hb (by decide)
    | line _ hbody => simp [hbody, byte] at hmem
    | block _ hbody => simp [hbody, byte, closer] at hmem

theorem Spacing.filling (h : Spacing s) : Filling s := by
  cases h with | mk hb ht => exact .cons (.space hb) ht

theorem joins_space {a b : UInt8} (h : isSpace b = true) : joins a b = false := by
  have hb := isSpace_iff.mp h
  simp only [List.mem_cons, List.not_mem_nil, or_false] at hb
  obtain ⟨hword, hpoint, hpairs, hslash, hstar⟩ : isWordByte b = false ∧ b ≠ byte '.' ∧
      (∀ p ∈ pairings, p.second ≠ b) ∧ b ≠ byte '/' ∧ b ≠ byte '*' := by
    rcases hb with rfl | rfl | rfl | rfl <;> decide
  simp [joins, hword, hpoint, no_pairing fun p hp _ => hpairs p hp, hslash, hstar]

theorem Spacing.apart (h : Spacing s) (w t : Bytes) : Apart w (s ++ t) := by
  cases h with
  | mk hb _ =>
    intro a _ b hb'
    cases hb'
    exact joins_space (isSpace_iff.mpr hb)

end Gaps

/-! ## Reading a layout -/

/-- What a token is without its place. -/
def Token.form (t : Token) : Kind × Bytes := (t.kind, t.literal)

/-- The tokens of a text without their places, the end token among them. -/
def forms (source : Bytes) : List (Kind × Bytes) :=
  ((scan source).1 ++ [(scan source).2]).map Token.form

/-- `Reads t ts`: the text `t` consists of lexemes, which say `ts`, and gaps. No lexeme is gone on
by what stands behind it. -/
inductive Reads : Bytes → List (Kind × Bytes) → Prop where
  | done {gap : Bytes} : Filling gap → Reads gap []
  | token {gap w rest : Bytes} {k : Kind} {ts : List (Kind × Bytes)} :
      Filling gap → Lexeme k w → Apart w rest → Reads rest ts →
      Reads (gap ++ (w ++ rest)) ((k, literalOf k w) :: ts)

section Reading

variable {t : Bytes} {ts : List (Kind × Bytes)}

theorem Cursor.rest_skipGap {c : Cursor} {gap rest : Bytes} (hc : c.rest = gap ++ rest)
    (hgap : Filling gap) (hrest : gapLength rest = 0) : c.skipGap.rest = rest := by
  rw [skipGap, skip, hc, gapLength_filling hgap, hrest]
  exact List.drop_left

/-- The scanner finds the lexemes of a layout. -/
theorem Reads.scan (h : Reads t ts) : ∀ c : Cursor, c.rest = t →
    c.scan.1.map Token.form = ts ∧ c.scan.2.form = (.eof, []) := by
  induction h with
  | @done gap hgap =>
    intro c hc
    have hend : lexeme? c.skipGap.rest = none := by
      have hrest : c.rest = gap ++ [] := by rw [hc, List.append_nil]
      rw [Cursor.rest_skipGap hrest hgap rfl, lexeme?_nil]
    rw [scan_of_eof (by rw [Cursor.next_of_none hend]), Cursor.next_of_none hend]
    exact ⟨rfl, rfl⟩
  | @token gap w rest k ts hgap hw hapart _ ih =>
    intro c hc
    have hrest := Cursor.rest_skipGap hc hgap (gapLength_lexeme hw hapart)
    have hlex := lexeme?_of_lexeme hw hapart
    have hnext := Cursor.next_of_some (by rw [hrest]; exact hlex : lexeme? c.skipGap.rest = _)
    rw [hrest, List.take_left] at hnext
    have hbehind : (c.skipGap.skip w.length).rest = rest := by
      rw [Cursor.skip, hrest]
      exact List.drop_left
    obtain ⟨hforms, hlast⟩ := ih _ hbehind
    rw [scan_of_ne_eof (by rw [hnext]; exact (lexeme?_kind hlex).1), hnext]
    exact ⟨by rw [List.map_cons, hforms]; rfl, hlast⟩

/-- **A layout is read as its lexemes.** -/
theorem forms_of_reads (h : Reads t ts) (hzero : 0 ∉ t) : forms t = ts ++ [(.eof, [])] := by
  have hvisible : visible t = t := by
    rcases visible_cases t with ⟨-, heq | ⟨tail, heq⟩⟩
    · exact heq.symm
    · exact absurd (by rw [heq]; simp) hzero
  obtain ⟨hforms, hlast⟩ := h.scan (.ofSource t) hvisible
  rw [forms, Shader.scan, List.map_append, hforms, List.map_singleton, hlast]

theorem Reads.gap {g : Bytes} (hg : Filling g) (h : Reads t ts) : Reads (g ++ t) ts := by
  cases h with
  | done hgap => exact .done (hg.append hgap)
  | token hgap hw hapart hrest =>
    rw [← List.append_assoc]
    exact .token (hg.append hgap) hw hapart hrest

end Reading

/-! ## Laying out lexemes -/

/-- The texts in order, with a gap behind each as long as there are gaps. -/
def spread : List Bytes → List Bytes → Bytes
  | [], _ => []
  | w :: ws, gaps => w ++ (gaps.headD [] ++ spread ws gaps.tail)

/-- Each gap is empty or a spacing, and a text without a gap behind it is not gone on by the
next. -/
def SetApart : List Bytes → List Bytes → Prop
  | [], _ => True
  | w :: ws, gaps =>
    (Spacing (gaps.headD []) ∨ gaps.headD [] = [] ∧ Apart w (ws.headD [])) ∧ SetApart ws gaps.tail

theorem apart_nil (w : Bytes) : Apart w [] := fun _ _ _ hb => by cases hb

theorem apart_spread {w : Bytes} {ws gaps : List Bytes} (hws : ∀ w ∈ ws, w ≠ [])
    (h : Apart w (ws.headD [])) : Apart w (spread ws gaps) := by
  cases ws with
  | nil => exact apart_nil w
  | cons w' ws =>
    obtain ⟨b, rest, rfl⟩ := List.exists_cons_of_ne_nil (hws w' (by simp))
    exact h

/-- Lexemes that are laid out and set apart are read. -/
theorem reads_spread : ∀ {fs : List (Kind × Bytes)} {gaps : List Bytes},
    (∀ f ∈ fs, Lexeme f.1 f.2) → SetApart (fs.map (·.2)) gaps →
    Reads (spread (fs.map (·.2)) gaps) (fs.map fun f => (f.1, literalOf f.1 f.2))
  | [], _, _, _ => .done .nil
  | f :: fs, gaps, hfs, ⟨hgap, hrest⟩ => by
    have hmore : ∀ f ∈ fs, Lexeme f.1 f.2 := fun f hf => hfs f (List.mem_cons_of_mem _ hf)
    have hreads := reads_spread hmore hrest
    have hne : ∀ w ∈ fs.map (·.2), w ≠ [] := by
      intro w hw
      obtain ⟨f, hf, rfl⟩ := List.mem_map.mp hw
      exact (hmore f hf).ne_nil
    rw [List.map_cons, spread]
    rcases hgap with hgap | ⟨hnil, hapart⟩
    · exact .token .nil (hfs f (by simp)) (hgap.apart _ _) (hreads.gap hgap.filling)
    · rw [hnil, List.nil_append]
      exact .token .nil (hfs f (by simp)) (apart_spread hne hapart) hreads

theorem no_zero_spread : ∀ {ws gaps : List Bytes}, (∀ w ∈ ws, 0 ∉ w) → SetApart ws gaps →
    0 ∉ spread ws gaps
  | [], _, _, _ => by simp [spread]
  | w :: ws, gaps, hws, ⟨hgap, hrest⟩ => by
    have hgap : 0 ∉ gaps.headD [] := by
      rcases hgap with hgap | ⟨hnil, -⟩
      · exact hgap.filling.no_zero
      · rw [hnil]
        exact List.not_mem_nil
    have hmore : 0 ∉ spread ws gaps.tail :=
      no_zero_spread (fun w hw => hws w (List.mem_cons_of_mem _ hw)) hrest
    rw [spread, List.mem_append, List.mem_append]
    rintro (hmem | hmem | hmem)
    · exact hws w (by simp) hmem
    · exact hgap hmem
    · exact hmore hmem

/-- **Lexemes that are laid out and set apart are the tokens of the text.** -/
theorem forms_spread {fs : List (Kind × Bytes)} {gaps : List Bytes}
    (hfs : ∀ f ∈ fs, Lexeme f.1 f.2) (h : SetApart (fs.map (·.2)) gaps) :
    forms (spread (fs.map (·.2)) gaps) =
      (fs.map fun f => (f.1, literalOf f.1 f.2)) ++ [(.eof, [])] := by
  refine forms_of_reads (reads_spread hfs h) (no_zero_spread (fun w hw => ?_) h)
  obtain ⟨f, hf, rfl⟩ := List.mem_map.mp hw
  exact (hfs f hf).no_zero

/-! ## The tokens of a text, laid out anew -/

theorem gapLength_eq_zero {t : Bytes} (h : Unseparated t) : gapLength t = 0 := by
  rcases gap_cases t with ⟨hzero, -⟩ | ⟨s, u, heq, hs, -⟩
  · exact hzero
  · exact absurd hs (h s u heq)

theorem gapLength_skipGap (c : Cursor) : gapLength c.skipGap.rest = 0 := by
  obtain ⟨gap, rest, hsplit, hlen, -, hfree⟩ := separators_gap c.rest
  have hrest : c.skipGap.rest = rest := by
    rw [Cursor.skipGap, Cursor.skip, ← hlen]
    show c.rest.drop gap.length = rest
    rw [hsplit, List.drop_left]
  rw [hrest, gapLength_eq_zero hfree]

/-- The tokens of a text are lexemes. -/
theorem Cursor.lexemes_scan (c : Cursor) (hzero : 0 ∉ c.rest) :
    ∀ t ∈ c.scan.1, ∃ w, Lexeme t.kind w ∧ t.literal = literalOf t.kind w := by
  induction c using Cursor.scan.induct with
  | case1 c h =>
    rw [scan_of_eof h]
    simp
  | case2 c h _ _ _ ih =>
    have hskip : 0 ∉ c.skipGap.rest := fun hmem => hzero (List.mem_of_mem_drop hmem)
    rw [scan_of_ne_eof h]
    intro t ht
    cases hl : lexeme? c.skipGap.rest with
    | none =>
      rw [next_of_none hl] at h
      exact absurd rfl h
    | some kn =>
      obtain ⟨k, n⟩ := kn
      rcases List.mem_cons.mp ht with rfl | ht
      · rw [next_of_some hl]
        exact ⟨_, lexeme_of_lexeme? hl (gapLength_skipGap c) hskip, rfl⟩
      · refine ih ?_ t ht
        rw [next_of_some hl]
        exact fun hmem => hskip (List.mem_of_mem_drop hmem)

/-- A token of the language is a lexeme as it stands. -/
theorem lexeme_of_mem_scan {source : Bytes} {t : Token} (h : t ∈ (scan source).1)
    (hk : t.kind ≠ .illegal) : Lexeme t.kind t.literal := by
  obtain ⟨w, hw, hliteral⟩ :=
    (Cursor.ofSource source).lexemes_scan (visible_cases source).1 t h
  rwa [hliteral, literalOf, if_neg hk]

/-- Only the character of an ASCII byte is written with ASCII bytes, as itself. -/
theorem utf8_of_ascii {b : UInt8} (h : ∀ c ∈ utf8 b, c < 0x80) : utf8 b = [b] := by
  have hall : (utf8 b).all (· < 0x80) = true := by simpa using h
  revert hall
  exact byte_forall (P := fun b => (utf8 b).all (· < 0x80) = true → utf8 b = [b])
    (by decide +kernel) b

/-- A lexeme is what its token says. -/
theorem Lexeme.literalOf_eq {k : Kind} {w : Bytes} (h : Lexeme k w)
    (hascii : k = .illegal → ∀ b ∈ literalOf k w, b < 0x80) : literalOf k w = w := by
  by_cases hk : k = .illegal
  · have hlex := lexeme?_of_lexeme h (apart_nil w)
    obtain ⟨b, rfl⟩ := List.length_eq_one_iff.mp ((lexeme?_length hlex).2 hk)
    have hutf8 : literalOf k [b] = utf8 b := by
      rw [literalOf, if_pos hk, List.flatMap_singleton]
    rw [hutf8] at hascii ⊢
    exact utf8_of_ascii (hascii hk)
  · exact if_neg hk

theorem setApart_of_spacing : ∀ {ws gaps : List Bytes}, (∀ g ∈ gaps, Spacing g) →
    ws.length ≤ gaps.length + 1 → SetApart ws gaps
  | [], _, _, _ => trivial
  | w :: ws, [], _, hlen => by
    have hnil : ws = [] := List.length_eq_zero_iff.mp (by simpa using hlen)
    subst hnil
    exact ⟨.inr ⟨rfl, apart_nil w⟩, trivial⟩
  | w :: ws, g :: gaps, hgaps, hlen =>
    ⟨.inl (hgaps g (by simp)),
      setApart_of_spacing (fun g hg => hgaps g (List.mem_cons_of_mem _ hg)) (by simpa using hlen)⟩

/-- **Layout does not matter.** The tokens of a text are read again, kind by kind and literal by
literal, from any text that has their literals with a spacing between each two, which may be any mix
of spaces and closed comments that begins with a space. Only a byte that is no ASCII and in no token
of the language is written otherwise than it is read. -/
theorem forms_spread_literals {source : Bytes} {gaps : List Bytes}
    (hascii : ∀ t ∈ (scan source).1, t.kind = .illegal → ∀ b ∈ t.literal, b < 0x80)
    (hgaps : ∀ g ∈ gaps, Spacing g) (hcount : (scan source).1.length ≤ gaps.length + 1) :
    forms (spread ((scan source).1.map (·.literal)) gaps) = forms source := by
  have hzero : 0 ∉ (Cursor.ofSource source).rest := (visible_cases source).1
  have hliteral : ∀ t ∈ (scan source).1,
      Lexeme t.kind t.literal ∧ literalOf t.kind t.literal = t.literal := by
    intro t ht
    obtain ⟨w, hw, hlit⟩ := (Cursor.ofSource source).lexemes_scan hzero t ht
    have hw' : literalOf t.kind w = w := hw.literalOf_eq (by rw [← hlit]; exact hascii t ht)
    rw [hlit, hw']
    exact ⟨hw, hw'⟩
  have hlex : ∀ f ∈ (scan source).1.map Token.form, Lexeme f.1 f.2 := by
    intro f hf
    obtain ⟨t, ht, rfl⟩ := List.mem_map.mp hf
    exact (hliteral t ht).1
  have hsame : ((scan source).1.map Token.form).map (fun f => (f.1, literalOf f.1 f.2)) =
      (scan source).1.map Token.form := by
    rw [List.map_map]
    exact List.map_congr_left fun t ht => Prod.ext rfl (hliteral t ht).2
  have hwords : (scan source).1.map (·.literal) =
      ((scan source).1.map Token.form).map (·.2) := by
    rw [List.map_map]
    rfl
  obtain ⟨-, -, hlast, -⟩ := tiling_scan (Nat.zero_le (visible source).length)
  have hlast : (scan source).2.form = (.eof, []) := congrArg Token.form hlast
  rw [hwords, forms_spread hlex (setApart_of_spacing hgaps (by simpa using hcount)), hsame, forms,
    List.map_append, List.map_singleton, hlast]

/-- A quotient, a float that ends in the sign of its exponent, and two bytes of no token, with line
breaks and comments between them. -/
theorem forms_spread_literals_comments :
    let source := ascii "x/1.5e+.&//"
    let gaps := [ascii " ", ascii "\t//*\n", ascii "\n/*/*/ ", ascii " "]
    (scan source).1.map (·.literal) =
        [ascii "x", ascii "/", ascii "1.5e+", ascii ".", ascii "&"] ∧
      forms (spread ((scan source).1.map (·.literal)) gaps) = forms source := by
  intro source gaps
  have hascii : ((scan source).1.all fun t => t.literal.all (· < 0x80)) = true := by
    decide +kernel
  have hline : Filler (ascii "//*\n") := .line (by decide : byte '\n' ∉ ascii "*") (by decide)
  have hblock : Filler (ascii "/*/*/") := .block (by decide : ¬ closer <:+: ascii "/") (by decide)
  refine ⟨by decide +kernel, forms_spread_literals (fun t ht _ b hb => ?_) (fun g hg => ?_)
    (by decide +kernel)⟩
  · simpa using List.all_eq_true.mp (List.all_eq_true.mp hascii t ht) b hb
  · simp only [gaps, List.mem_cons, List.not_mem_nil, or_false] at hg
    rcases hg with rfl | rfl | rfl | rfl
    · exact .mk (by decide) .nil
    · exact .mk (by decide) (.cons hline .nil)
    · exact .mk (by decide) (.cons hblock (.cons (.space (by decide)) .nil))
    · exact .mk (by decide) .nil

end Shader
