import Shader.Proofs.ParserComplete

/-!
# The parser accepts exactly the grammar

A text is read without an error if and only if its tokens are a program of the grammar, and the tree
is then that of a derivation in which every `else` belongs to the nearest `if`.

Two things are left for this. The plain grammar lets an `else` belong to an `if` further away, and
such a derivation is not one that the parser follows: but the same tokens have another, in which the
`else` moves inwards until it meets the nearest `if` (`stmtOf_else`). And the tokens that the
grammar speaks about are those of a text, so their integers consist of digits and none of them is
the end token.
-/

namespace Shader.Grammar

open Ast

/-! ## Every `else` can move to the nearest `if` -/

/-- An `else` behind a statement that ends in an `if` without one belongs inside it. -/
theorem stmtOf_else {dangling d : Bool} {us ws : List Token} {l : Token} {o o' : Option Stmt}
    (hl : l.kind = .elseWord) (hw : StmtOf true d ws o') :
    StmtOf true dangling us o → dangling = true → ∃ d' o'', StmtOf true d' (us ++ l :: ws) o''
  | .assign _ _ _ _, hd => by simp at hd
  | @StmtOf.ifThen _ i ts us inner e s hi hc hs, _ => by
    rw [List.cons_append, List.append_assoc]
    by_cases hin : inner = true
    · obtain ⟨d', o'', h⟩ := stmtOf_else hl hw hs hin
      exact ⟨_, _, .ifThen hi hc h⟩
    · exact ⟨_, _, .ifElse hi hc hs (fun _ => by simpa using hin) hl hw⟩
  | .ifElse hi hc hs hin hl' hs', hd => by
    obtain ⟨d', o'', h⟩ := stmtOf_else hl hw hs' hd
    rw [List.cons_append, List.append_assoc, List.append_assoc, List.cons_append]
    exact ⟨_, _, .ifElse hi hc hs hin hl' h⟩
  | .loop hk hc hs, hd => by
    obtain ⟨d', o'', h⟩ := stmtOf_else hl hw hs hd
    rw [List.cons_append, List.append_assoc]
    exact ⟨_, _, .loop hk hc h⟩
  | .block _, hd => by simp at hd
  | .empty _, hd => by simp at hd

mutual

/-- Tokens that are a statement at all are one in which every `else` belongs to the nearest
`if`. -/
theorem stmtOf_nearest {nearest dangling : Bool} {ts : List Token} {o : Option Stmt} :
    StmtOf nearest dangling ts o → ∃ d o', StmtOf true d ts o'
  | .assign hv ha he hm => ⟨_, _, .assign hv ha he hm⟩
  | .ifThen hi hc hs => by
    obtain ⟨d, o, h⟩ := stmtOf_nearest hs
    exact ⟨_, _, .ifThen hi hc h⟩
  | .ifElse hi hc hs _ hl hs' => by
    obtain ⟨d, o, h⟩ := stmtOf_nearest hs
    obtain ⟨d', o', h'⟩ := stmtOf_nearest hs'
    cases d with
    | false => exact ⟨_, _, .ifElse hi hc h (fun _ => rfl) hl h'⟩
    | true =>
      obtain ⟨d'', o'', h''⟩ := stmtOf_else hl h' h rfl
      exact ⟨_, _, .ifThen hi hc h''⟩
  | .loop hw hc hs => by
    obtain ⟨d, o, h⟩ := stmtOf_nearest hs
    exact ⟨_, _, .loop hw hc h⟩
  | .block hb => by
    obtain ⟨b, h⟩ := blockOf_nearest hb
    exact ⟨_, _, .block h⟩
  | .empty hm => ⟨_, _, .empty hm⟩

theorem blockOf_nearest {nearest : Bool} {ts : List Token} {b : Scope} :
    BlockOf nearest ts b → ∃ b', BlockOf true ts b'
  | .mk hl hds hss hr => by
    obtain ⟨ss, h⟩ := stmtsOf_nearest hss
    exact ⟨_, .mk hl hds h hr⟩

theorem stmtsOf_nearest {nearest : Bool} {ts : List Token} {ss : List Stmt} :
    StmtsOf nearest ts ss → ∃ ss', StmtsOf true ts ss'
  | .nil => ⟨_, .nil⟩
  | .cons hs hss => by
    obtain ⟨d, o, h⟩ := stmtOf_nearest hs
    obtain ⟨ss, h'⟩ := stmtsOf_nearest hss
    exact ⟨_, .cons h h'⟩

end

theorem BlockOf.head {nearest : Bool} {ts : List Token} {b : Scope} (h : BlockOf nearest ts b) :
    ∃ l us, ts = l :: us ∧ l.kind = .lbrace := by
  cases h with | mk hl _ _ _ => exact ⟨_, _, rfl, hl⟩

mutual

/-- A derivation in which every `else` belongs to the nearest `if` is one of the plain grammar. -/
theorem stmtOf_plain {dangling : Bool} {ts : List Token} {o : Option Stmt} :
    StmtOf true dangling ts o → StmtOf false dangling ts o
  | .assign hv ha he hm => .assign hv ha he hm
  | .ifThen hi hc hs => .ifThen hi hc (stmtOf_plain hs)
  | .ifElse hi hc hs _ hl hs' =>
    .ifElse hi hc (stmtOf_plain hs) (fun h => by simp at h) hl (stmtOf_plain hs')
  | .loop hw hc hs => .loop hw hc (stmtOf_plain hs)
  | .block hb => .block (blockOf_plain hb)
  | .empty hm => .empty hm

theorem blockOf_plain {ts : List Token} {b : Scope} : BlockOf true ts b → BlockOf false ts b
  | .mk hl hds hss hr => .mk hl hds (stmtsOf_plain hss) hr

theorem stmtsOf_plain {ts : List Token} {ss : List Stmt} :
    StmtsOf true ts ss → StmtsOf false ts ss
  | .nil => .nil
  | .cons hs hss => .cons (stmtOf_plain hs) (stmtsOf_plain hss)

end

end Shader.Grammar

namespace Shader

open Text Grammar

/-! ## The tokens of a text -/

theorem take_runLength (p : UInt8 → Bool) (t : Bytes) : t.take (runLength p t) = t.takeWhile p :=
  (List.prefix_iff_eq_take.mp (List.takeWhile_prefix p)).symm

theorem number_int {t : Bytes} {n : Nat} (h : number t = (.int, n)) : n = runLength isDigit t := by
  unfold number at h
  dsimp only at h
  split at h
  · split at h
    · simp at h
    · injection h with _ h; exact h.symm
  · injection h with _ h; exact h.symm

theorem Kind.ofWord_ne (w : Bytes) : Kind.ofWord w ≠ .int ∧ Kind.ofWord w ≠ .eof := by
  unfold Kind.ofWord
  cases h : Kind.keywords.find? (fun k => k.name == w) with
  | none => exact ⟨by simp, by simp⟩
  | some k =>
    have hk := List.mem_of_find?_eq_some h
    constructor
    · rintro rfl; revert hk; decide
    · rintro rfl; revert hk; decide

/-- No lexeme is the end, and one that is an integer is a run of digits. -/
theorem lexeme?_kind {t : Bytes} {kind : Kind} {n : Nat} (h : lexeme? t = some (kind, n)) :
    kind ≠ .eof ∧ (kind = .int → n = runLength isDigit t) := by
  cases t with
  | nil => simp [lexeme?] at h
  | cons b rest =>
    simp only [lexeme?] at h
    split at h
    · rename_i k hk
      injection h with h
      injection h with h _
      have hmem := List.lookup_eq_some_iff.mp hk
      obtain ⟨l₁, l₂, hl, -⟩ := hmem
      have hin : (b, k) ∈ singles := by rw [hl]; simp
      subst h
      -- the operators are a table that can be searched
      have hall : ∀ e ∈ singles, e.2 ≠ .eof ∧ e.2 ≠ .int := by decide
      exact ⟨(hall _ hin).1, fun hi => absurd hi (hall _ hin).2⟩
    · split at h
      · rename_i p hp
        have hin := List.mem_of_find?_eq_some hp
        have hall : ∀ p ∈ pairings, p.both ≠ .eof ∧ p.alone ≠ .eof ∧ p.both ≠ .int ∧
            p.alone ≠ .int := by decide
        obtain ⟨h₁, h₂, h₃, h₄⟩ := hall p hin
        split at h
        · injection h with h; injection h with h _; subst h
          exact ⟨h₁, fun hi => absurd hi h₃⟩
        · injection h with h; injection h with h _; subst h
          exact ⟨h₂, fun hi => absurd hi h₄⟩
      · split at h
        · injection h with h; injection h with h _; subst h
          exact ⟨(Kind.ofWord_ne _).2, fun hi => absurd hi (Kind.ofWord_ne _).1⟩
        · split at h
          · injection h with h
            -- a number, the one case in which the kind may be an integer
            refine ⟨?_, fun hi => number_int (by rw [h, hi])⟩
            rintro rfl
            unfold number at h
            dsimp only at h
            split at h
            · split at h <;> simp at h
            · simp at h
          · injection h with h; injection h with h _; subst h
            exact ⟨by simp, by simp⟩

theorem Cursor.numeral_next {c : Cursor} : Numeral c.next.1 := by
  unfold Cursor.next
  dsimp only
  cases hl : lexeme? c.skipGap.rest with
  | none => exact fun h => by simp at h
  | some kn =>
    obtain ⟨kind, n⟩ := kn
    dsimp only
    intro hk
    dsimp only at hk ⊢
    subst hk
    have hn := (lexeme?_kind hl).2 rfl
    have hpos := lexeme?_pos hl
    have hlit : literalOf .int (c.skipGap.rest.take n) = c.skipGap.rest.takeWhile isDigit := by
      rw [hn, take_runLength]
      rfl
    rw [hlit]
    constructor
    · intro hnil
      rw [hn, runLength, hnil] at hpos
      simp at hpos
    · exact List.all_takeWhile

/-- The tokens of a text are followed by the end token, none of them is one, and their integers
consist of digits. -/
theorem Cursor.scan_tokens (c : Cursor) :
    c.scan.2.kind = .eof ∧ ∀ t ∈ c.scan.1, t.kind ≠ .eof ∧ Numeral t := by
  induction c using Cursor.scan.induct with
  | case1 c h =>
    rw [Cursor.scan, if_pos h]
    exact ⟨h, by simp⟩
  | case2 c h _ _ _ ih =>
    rw [Cursor.scan, if_neg h]
    refine ⟨ih.1, ?_⟩
    intro t ht
    rcases List.mem_cons.mp ht with rfl | ht
    · exact ⟨h, Cursor.numeral_next⟩
    · exact ih.2 t ht

/-! ## Reading a text -/

namespace Parser

/-- The state in which a text is read. -/
def start (source : Bytes) : State :=
  { rest := (scan source).1, last := (scan source).2, budget := 8 * ((scan source).1.length + 1) }

theorem ended_start (source : Bytes) : Ended (start source) :=
  (Cursor.ofSource source).scan_tokens.1

theorem funded_start (source : Bytes) : Funded (start source) := by
  show 5 * (scan source).1.length + 4 ≤ 8 * ((scan source).1.length + 1)
  omega

theorem parse_eq (source : Bytes) :
    parse source = ⟨(StateT.run program (start source)).1,
      (StateT.run program (start source)).2.errors⟩ := rfl

theorem run_program (s : State) :
    StateT.run program s =
      if s.current.kind = .lbrace then
        let body := StateT.run (scope s.budget) s
        (body.1, if body.2.current.kind ≠ .eof
          then body.2.report (.trailing body.2.current.kind) else body.2)
      else ({}, s.report (.noBlock s.current.kind)) := by
  unfold program
  show StateT.run (if s.current.kind = Kind.lbrace then _ else _) s = _
  split
  · show StateT.run (if (StateT.run (scope s.budget) s).2.current.kind ≠ Kind.eof then _ else _)
      (StateT.run (scope s.budget) s).2 = _
    dsimp only
    split <;> rfl
  · rfl

end Parser

open Shader.Parser

/-- **Without errors, the tree of a text is one of the grammar**, in which every `else` belongs to
the nearest `if`. -/
theorem treeOf_parse {source : Bytes} (h : (parse source).errors = []) :
    TreeOf (scan source).1 (parse source).body := by
  have hs := ended_start source
  have hf := funded_start source
  rw [parse_eq] at h ⊢
  rw [run_program] at h ⊢
  have hnil : (start source).errors = [] := rfl
  split at h
  · rename_i hk
    rw [if_pos hk]
    dsimp only at h ⊢
    obtain ⟨l, ts, hr, -, hl⟩ := hs.rest_of_current hk (by simp)
    have hclean := scope_clean (start source).budget (start source) hs hf
      (by show 3 * (scan source).1.length + 1 ≤ 8 * ((scan source).1.length + 1); omega) hr hl
    split at h
    · simp at h
    · rename_i hend
      obtain ⟨us, rest, hus, hs', hblock⟩ := hclean (h.trans hnil.symm)
      -- the end token is behind the block, and no token of the text is one
      have hrest : rest = [] := by
        cases rest with
        | nil => rfl
        | cons t rest =>
          rw [hs', State.current_seek_cons] at hend
          have hmem : t ∈ (scan source).1 := by
            show t ∈ (start source).rest
            rw [hus]
            simp
          exact absurd (((Cursor.ofSource source).scan_tokens.2 t hmem).1) hend
      have hall : (scan source).1 = us := by
        show (start source).rest = us
        rw [hus, hrest, List.append_nil]
      rw [hall]
      exact hblock
  · simp at h

/-- A tree of the grammar in which every `else` belongs to the nearest `if` is the one that is read,
without an error. -/
theorem parse_of_treeOf {source : Bytes} {b : Ast.Scope} (hb : TreeOf (scan source).1 b) :
    parse source = ⟨b, []⟩ := by
  have hn : ∀ t ∈ (scan source).1, Numeral t := fun t ht =>
    ((Cursor.ofSource source).scan_tokens.2 t ht).2
  have hrun := run_scope_of_blockOf hb hn (start source) [] (start source).budget
    (funded_start source)
    (by show 3 * (scan source).1.length + 1 ≤ 8 * ((scan source).1.length + 1); omega)
  have hseek : (start source).seek ((scan source).1 ++ []) = start source := by
    rw [List.append_nil]; rfl
  rw [hseek] at hrun
  have hk : (start source).current.kind = .lbrace := by
    have hr : (start source).rest = (scan source).1 := rfl
    obtain ⟨l, ts, heq, hl⟩ := hb.head
    rw [current_of_rest (hr.trans heq)]
    exact hl
  rw [parse_eq, run_program, if_pos hk, hrun]
  dsimp only
  rw [State.current_seek_nil, if_neg (by rw [ended_start source]; simp)]
  rfl

/-- **What the grammar derives is read without an error.** -/
theorem parse_of_derivable {source : Bytes} (h : Derivable (scan source).1) :
    (parse source).errors = [] := by
  obtain ⟨b, hb⟩ := h
  obtain ⟨b, hb⟩ := blockOf_nearest hb
  rw [parse_of_treeOf hb]

/-- **The parser accepts exactly the grammar.** A text has no parse error if and only if its tokens
are a program, and then its tree is that of a derivation in which every `else` belongs to the
nearest `if`. -/
theorem parse_errors_eq_nil_iff_derivable (source : Bytes) :
    ((parse source).errors = [] ↔ Derivable (scan source).1) ∧
      ((parse source).errors = [] → TreeOf (scan source).1 (parse source).body) :=
  ⟨⟨fun h => ⟨_, blockOf_plain (treeOf_parse h)⟩, parse_of_derivable⟩, treeOf_parse⟩

end Shader
