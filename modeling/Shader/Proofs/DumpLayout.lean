import Shader.Program.Printer
import Shader.Proofs.NestedLists
import Shader.Proofs.Rendering

/-!
# The dump as a nested list

The dump of a program is a nested list that is spread over lines. Here the list is given for a tree
of a text, with nothing about lines and blanks (`Stmt.nested`), and the dump is shown to have the
parentheses and words of that list, in their order (`pieces_text`). This asks for words: names are
identifiers, and types have names (`Stmt.Spelled`).
-/

namespace Shader

open Text Program TypeSystem

namespace Ast

/-! ## Trees as nested lists -/

/-- A variable as it is dumped. -/
def Var.nested (v : Var) : Nested :=
  match v.index with
  | none => .word v.name
  | some i => .list [.word (ascii "INDEX"), .word Ty.invalid.name, .word v.name, .word (decimal i)]

mutual

/-- An expression as it is dumped. -/
def Expr.nested : Expr → Nested
  | .int _ n => .word (decimal n)
  | .float _ x => .word (Number.ofDouble x).text
  | .bool _ b => .word (if b then ascii "true" else ascii "false")
  | .var v => v.nested
  | .unary _ op x =>
    .list [.word (ascii "UNARY"), .word Ty.invalid.name, .word op.name, x.nested]
  | .binary _ op l r =>
    .list [.word (ascii "BINARY"), .word Ty.invalid.name, .word op.name, l.nested, r.nested]
  | .call _ f args => .list (.word (ascii "CALL") :: .word f :: Expr.listNested args)
  | .construct _ t args => .list (.word (ascii "CALL") :: .word t.name :: Expr.listNested args)

/-- Expressions as they are dumped. -/
def Expr.listNested : List Expr → List Nested
  | [] => []
  | e :: es => e.nested :: Expr.listNested es

end

/-- A declaration as it is dumped. -/
def Decl.nested (d : Decl) : Nested :=
  .list (.word (ascii "DECLARATION") :: .word d.name ::
    ((if d.isConst then [.word (ascii "const")] else []) ++
      .word d.type.name :: (d.init.map Expr.nested).toList))

mutual

/-- A statement as it is dumped. -/
def Stmt.nested : Stmt → Nested
  | .assign v e => .list [.word (ascii "ASSIGN"), .word Ty.invalid.name, v.nested, e.nested]
  | .branch c yes none => .list [.word (ascii "IF"), c.nested, yes.nested]
  | .branch c yes (some no) => .list [.word (ascii "IF"), c.nested, yes.nested, no.nested]
  | .loop _ c body => .list [.word (ascii "WHILE"), c.nested, body.nested]
  | .scope decls stmts =>
    .list [.word (ascii "SCOPE"),
      .list (.word (ascii "DECLARATIONS") :: decls.map Decl.nested),
      .list (.word (ascii "STATEMENTS") :: Stmt.listNested stmts)]

/-- Statements as they are dumped. -/
def Stmt.listNested : List Stmt → List Nested
  | [] => []
  | s :: ss => s.nested :: Stmt.listNested ss

end

/-! ## Trees with words for names -/

mutual

/-- An expression whose names are identifiers and whose types are those of the language, without
floats. -/
def Expr.Spelled : Expr → Prop
  | .int _ _ | .bool _ _ => True
  | .float _ _ => False
  | .var v => Lexeme .ident v.name
  | .unary _ _ x => x.Spelled
  | .binary _ _ l r => l.Spelled ∧ r.Spelled
  | .call _ f args => Lexeme .ident f ∧ Expr.ListSpelled args
  | .construct _ t args => Named t ∧ Expr.ListSpelled args

/-- Such expressions. -/
def Expr.ListSpelled : List Expr → Prop
  | [] => True
  | e :: es => e.Spelled ∧ Expr.ListSpelled es

end

/-- A declaration whose name is an identifier and whose type is one of the language, without
floats. -/
def Decl.Spelled (d : Decl) : Prop :=
  Lexeme .ident d.name ∧ Named d.type ∧ ∀ e, d.init = some e → e.Spelled

mutual

/-- A statement whose names are identifiers and whose types are those of the language, without
floats. -/
def Stmt.Spelled : Stmt → Prop
  | .assign v e => Lexeme .ident v.name ∧ e.Spelled
  | .branch c yes none => c.Spelled ∧ yes.Spelled
  | .branch c yes (some no) => c.Spelled ∧ yes.Spelled ∧ no.Spelled
  | .loop _ c body => c.Spelled ∧ body.Spelled
  | .scope decls stmts => (∀ d ∈ decls, d.Spelled) ∧ Stmt.ListSpelled stmts

/-- Such statements. -/
def Stmt.ListSpelled : List Stmt → Prop
  | [] => True
  | s :: ss => s.Spelled ∧ Stmt.ListSpelled ss

end

end Ast

open Ast

/-! ## Words -/

/-- A word of the language has no parentheses or blanks in it. -/
theorem isUnbroken_of_lexeme {k : Kind} {w : Bytes} (h : Lexeme k w) (hk : k.isWord = true) :
    IsUnbroken w := by
  refine ⟨h.ne_nil, List.all_eq_true.mpr fun b hb => ?_⟩
  rcases h.parts hk b hb with hb | rfl | rfl
  · exact byte_forall (P := fun b => isWordFront b = true → (!isBreak b) = true)
      (by decide +kernel) b hb
  · decide
  · decide

theorem isUnbroken_type {t : Ty} (h : Named t) : IsUnbroken t.name :=
  isUnbroken_of_lexeme (lexeme_type h).1 (Kind.isWord_ofWord _)

theorem isUnbroken_decimal (n : Nat) : IsUnbroken (decimal n) :=
  isUnbroken_of_lexeme (.int (decimal_ne_nil n) fun _ => isDigit_of_mem_decimal) rfl

theorem isUnbroken_unary (op : UnaryOp) : IsUnbroken op.name := by
  cases op <;> decide

theorem isUnbroken_binary (op : BinaryOp) : IsUnbroken op.name := by
  cases op <;> decide

/-- A name is no word of the language, and begins with a letter. -/
theorem Lexeme.ofWord_eq_ident {w : Bytes} (h : Lexeme .ident w) :
    Kind.ofWord w = .ident ∧ ∃ b ∈ w.head?, isLetter b = true := by
  generalize hk : Kind.ident = k at h
  cases h with
  | single hb =>
    have hall : ∀ e ∈ singles, Kind.ident ≠ e.2 := by decide
    exact absurd hk (hall _ hb)
  | pair hp =>
    have hall : ∀ p ∈ pairings, Kind.ident ≠ p.both := by decide
    exact absurd hk (hall _ hp)
  | alone hp =>
    have hall : ∀ p ∈ pairings, Kind.ident ≠ p.alone := by decide
    exact absurd hk (hall _ hp)
  | word hb _ => exact ⟨rfl, _, rfl, hb⟩
  | int | float | stray => cases hk

/-! ## The layout -/

/-- A variable, by itself or with an index. -/
theorem pieces_var {v : Var} (hv : Lexeme .ident v.name) {rest : Bytes} (hr : Ends rest) :
    pieces ((Expr.ofVar v).writer rest) = v.nested.pieces ++ pieces rest := by
  have hname := isUnbroken_of_lexeme hv rfl
  obtain ⟨pos, name, index⟩ := v
  cases index with
  | none => exact pieces_word hname hr
  | some i =>
    show pieces (byte '(' :: (ascii "INDEX" ++ byte ' ' :: (Ty.invalid.name ++ byte ' ' ::
      (name ++ byte ' ' :: (decimal i ++ byte ')' :: rest))))) = _
    rw [pieces_left, pieces_word_space (by decide), pieces_word_space (by decide),
      pieces_word_space hname, pieces_word_right (isUnbroken_decimal i)]
    rfl

/-- Behind the name of a function, its word has ended. -/
theorem ends_args (es : List Program.Expr) (rest : Bytes) :
    Ends (Expr.argsWriter es (byte ')' :: rest)) := by
  cases es with
  | nil => exact ends_cons (by decide) rest
  | cons e es => exact ends_cons (by decide) _

mutual

/-- **The dump of an expression is its nested list.** -/
theorem pieces_expr : ∀ {e : Ast.Expr}, e.Spelled → ∀ {rest : Bytes}, Ends rest →
    pieces ((Expr.ofAst e).writer rest) = e.nested.pieces ++ pieces rest
  | .int _ n, _, rest, hr => pieces_word (isUnbroken_decimal n) hr
  | .bool _ b, _, rest, hr => by
    cases b
    · exact pieces_word (by decide) hr
    · exact pieces_word (by decide) hr
  | .var v, h, rest, hr => pieces_var h hr
  | .unary _ op x, h, rest, hr => by
    have hx : x.Spelled := h
    show pieces (byte '(' :: (ascii "UNARY" ++ byte ' ' :: (Ty.invalid.name ++ byte ' ' ::
      (op.name ++ byte ' ' :: (Expr.ofAst x).writer (byte ')' :: rest))))) = _
    rw [pieces_left, pieces_word_space (by decide), pieces_word_space (by decide),
      pieces_word_space (isUnbroken_unary op), pieces_expr hx (ends_cons (by decide) rest),
      pieces_right]
    simp [Ast.Expr.nested, Nested.pieces, Nested.listPieces]
  | .binary _ op l r, h, rest, hr => by
    show pieces (byte '(' :: (ascii "BINARY" ++ byte ' ' :: (Ty.invalid.name ++ byte ' ' ::
      (op.name ++ byte ' ' :: (Expr.ofAst l).writer (byte ' ' ::
        (Expr.ofAst r).writer (byte ')' :: rest)))))) = _
    rw [pieces_left, pieces_word_space (by decide), pieces_word_space (by decide),
      pieces_word_space (isUnbroken_binary op), pieces_expr h.1 (ends_cons (by decide) _),
      pieces_space, pieces_expr h.2 (ends_cons (by decide) rest), pieces_right]
    simp [Ast.Expr.nested, Nested.pieces, Nested.listPieces]
  | .call _ f args, h, rest, hr => by
    show pieces (byte '(' :: (ascii "CALL" ++ byte ' ' ::
      (f ++ Expr.argsWriter (Expr.ofAsts args) (byte ')' :: rest)))) = _
    rw [pieces_left, pieces_word_space (by decide),
      pieces_word (isUnbroken_of_lexeme h.1 rfl) (ends_args _ rest), pieces_args h.2]
    simp [Ast.Expr.nested, Nested.pieces, Nested.listPieces]
  | .construct _ t args, h, rest, hr => by
    show pieces (byte '(' :: (ascii "CALL" ++ byte ' ' ::
      (t.name ++ Expr.argsWriter (Expr.ofAsts args) (byte ')' :: rest)))) = _
    rw [pieces_left, pieces_word_space (by decide),
      pieces_word (isUnbroken_type h.1) (ends_args _ rest), pieces_args h.2]
    simp [Ast.Expr.nested, Nested.pieces, Nested.listPieces]

/-- Arguments, each with a blank in front of it. -/
theorem pieces_args : ∀ {es : List Ast.Expr}, Expr.ListSpelled es → ∀ {rest : Bytes},
    pieces (Expr.argsWriter (Expr.ofAsts es) (byte ')' :: rest)) =
      Nested.listPieces (Expr.listNested es) ++ .right :: pieces rest
  | [], _, rest => pieces_right rest
  | e :: es, h, rest => by
    show pieces (byte ' ' ::
      (Expr.ofAst e).writer (Expr.argsWriter (Expr.ofAsts es) (byte ')' :: rest))) = _
    rw [pieces_space, pieces_expr h.1 (ends_args _ rest), pieces_args h.2, Ast.Expr.listNested,
      Nested.listPieces, List.append_assoc]

end

/-- The dump of a declaration is its nested list. -/
theorem pieces_decl {d : Decl} (h : d.Spelled) (rest : Bytes) :
    pieces (declText (declOfAst d) ++ rest) = d.nested.pieces ++ pieces rest := by
  obtain ⟨hname, htype, hinit⟩ := h
  obtain ⟨pos, isConst, type, name, init⟩ := d
  -- what stands behind the type
  obtain ⟨tail, htail, hends, hpieces⟩ : ∃ tail : Bytes,
      (declText (declOfAst ⟨pos, isConst, type, name, init⟩) ++ rest = ascii "(DECLARATION " ++
        (name ++ byte ' ' :: ((if isConst then ascii "const " else []) ++ (type.name ++ tail)))) ∧
      Ends tail ∧
      pieces tail =
        Nested.listPieces (init.map Ast.Expr.nested).toList ++ .right :: pieces rest := by
    cases init with
    | none =>
      refine ⟨byte ')' :: rest, ?_, ends_cons (by decide) rest, pieces_right rest⟩
      cases isConst <;> simp [declText, declOfAst, Qualifier.name] <;> rfl
    | some e =>
      refine ⟨byte ' ' :: (Expr.ofAst e).writer (byte ')' :: rest), ?_,
        ends_cons (by decide) _, ?_⟩
      · rw [Expr.writer_eq]
        cases isConst <;> simp [declText, declOfAst, Qualifier.name] <;> rfl
      · rw [pieces_space, pieces_expr (hinit e rfl) (ends_cons (by decide) rest), pieces_right]
        simp [Nested.listPieces]
  have hname' := isUnbroken_of_lexeme hname rfl
  have htype' := isUnbroken_type htype
  rw [htail]
  cases isConst with
  | false =>
    show pieces (byte '(' :: (ascii "DECLARATION" ++ byte ' ' :: (name ++ byte ' ' ::
      (type.name ++ tail)))) = _
    rw [pieces_left, pieces_word_space (by decide), pieces_word_space hname',
      pieces_word htype' hends, hpieces]
    simp [Decl.nested, Nested.pieces, Nested.listPieces]
  | true =>
    show pieces (byte '(' :: (ascii "DECLARATION" ++ byte ' ' :: (name ++ byte ' ' ::
      (ascii "const" ++ byte ' ' :: (type.name ++ tail))))) = _
    rw [pieces_left, pieces_word_space (by decide), pieces_word_space hname',
      pieces_word_space (by decide), pieces_word htype' hends, hpieces]
    simp [Decl.nested, Nested.pieces, Nested.listPieces]

/-- Whether a table has declarations of a text from a place on. -/
def Tabled (table : List Declaration) (next : DeclId) (ds : List Decl) : Prop :=
  ∀ i d, ds[i]? = some d → table[next + i]? = some (declOfAst d)

section Tabled

variable {table : List Declaration} {next : DeclId} {ds es : List Decl}

/-- The declarations of one statement after another stand in the table in that order. -/
theorem Tabled.left (h : Tabled table next (ds ++ es)) : Tabled table next ds := fun i d hd =>
  h i d (by rw [List.getElem?_append_left (List.getElem?_eq_some_iff.mp hd).1, hd])

theorem Tabled.right (h : Tabled table next (ds ++ es)) : Tabled table (next + ds.length) es := by
  intro i d hd
  rw [Nat.add_assoc]
  refine h _ d ?_
  rw [List.getElem?_append_right (Nat.le_add_right _ _), Nat.add_sub_cancel_left, hd]

/-- Lines that show the declarations of a text, one by one. -/
theorem pieces_declLines {line : DeclId → Bytes} {level : Nat} (rest : Bytes) :
    ∀ {ds : List Decl} {next : DeclId},
      (∀ i d, ds[i]? = some d →
        line (next + i) = indent level ++ (declText (declOfAst d) ++ ascii "\n")) →
      (∀ d ∈ ds, d.Spelled) →
      pieces ((List.range' next ds.length).flatMap line ++ rest) =
        Nested.listPieces (ds.map Decl.nested) ++ pieces rest
  | [], _, _, _ => rfl
  | d :: ds, next, hline, hs => by
    have hfirst := hline 0 d rfl
    have hrest : pieces ((List.range' (next + 1) ds.length).flatMap line ++ rest) =
        Nested.listPieces (ds.map Decl.nested) ++ pieces rest :=
      pieces_declLines rest
        (fun i d hd => by rw [Nat.add_assoc, Nat.add_comm 1 i]; exact hline (i + 1) d hd)
        (fun d hd => hs d (List.mem_cons_of_mem _ hd))
    rw [Nat.add_zero] at hfirst
    rw [List.length_cons, List.range'_succ, List.flatMap_cons, hfirst, List.append_assoc,
      List.append_assoc, List.append_assoc, indent, pieces_blanks, pieces_decl (hs d (by simp))]
    show _ ++ pieces (byte '\n' :: ((List.range' (next + 1) ds.length).flatMap line ++ rest)) = _
    rw [pieces_newline, hrest, List.map_cons, Nested.listPieces, List.append_assoc]

/-- The declarations of a block. -/
theorem pieces_decls (ht : Tabled table next ds) (hs : ∀ d ∈ ds, d.Spelled) (level : Nat)
    (rest : Bytes) :
    pieces (declsText table level (List.range' next ds.length) ++ rest) =
      (Nested.list (.word (ascii "DECLARATIONS") :: ds.map Decl.nested)).pieces ++ pieces rest := by
  have hopen : ∀ t, pieces (ascii "(DECLARATIONS\n" ++ t) =
      .left :: .word (ascii "DECLARATIONS") :: pieces t := by
    intro t
    show pieces (byte '(' :: (ascii "DECLARATIONS" ++ byte '\n' :: t)) = _
    rw [pieces_left, pieces_word_newline (by decide)]
  have hclose : ∀ t, pieces (ascii ")\n" ++ t) = .right :: pieces t := by
    intro t
    show pieces (byte ')' :: byte '\n' :: t) = _
    rw [pieces_right, pieces_newline]
  rw [declsText]
  simp only [List.append_assoc]
  rw [indent, pieces_blanks, hopen, pieces_declLines _ (fun i d hd => by rw [ht i d hd]) hs,
    pieces_blanks, hclose]
  simp [Nested.pieces, Nested.listPieces]

end Tabled

/-- The dump of a text shows no types, as nothing is bound before the check. -/
theorem type_ofVar (table : List Declaration) (v : Var) : (Expr.ofVar v).type table = .invalid := by
  obtain ⟨pos, name, index⟩ := v
  cases index <;> rfl

mutual

/-- **The dump of a statement is its nested list**, if the table has its declarations. -/
theorem pieces_stmt {table : List Declaration} : ∀ {st : Ast.Stmt}, st.Spelled →
    ∀ {next : DeclId}, Tabled table next (astDecls st) → ∀ (level : Nat) (rest : Bytes),
      pieces ((Stmt.ofAst next st).writer table level rest) = st.nested.pieces ++ pieces rest
  | .assign v e, h, next, ht, level, rest => by
    -- in each case the text is written out first, and its pieces are then read from the left
    show pieces (byte '(' :: (ascii "ASSIGN" ++ byte ' ' :: (((Expr.ofVar v).type table).name ++
      byte ' ' :: (Expr.ofVar v).writer (byte ' ' ::
        (Expr.ofAst e).writer (byte ')' :: rest))))) = _
    rw [type_ofVar, pieces_left, pieces_word_space (by decide), pieces_word_space (by decide),
      pieces_var h.1 (ends_cons (by decide) _), pieces_space,
      pieces_expr h.2 (ends_cons (by decide) rest), pieces_right]
    simp [Ast.Stmt.nested, Nested.pieces, Nested.listPieces]
  | .branch c yes none, h, next, ht, level, rest => by
    show pieces (byte '(' :: (ascii "IF" ++ byte ' ' :: (Expr.ofAst c).writer (byte ' ' ::
      (Stmt.ofAst next yes).writer table level (byte ')' :: rest)))) = _
    rw [pieces_left, pieces_word_space (by decide), pieces_expr h.1 (ends_cons (by decide) _),
      pieces_space, pieces_stmt h.2 ht, pieces_right]
    simp [Ast.Stmt.nested, Nested.pieces, Nested.listPieces]
  | .branch c yes (some no), h, next, ht, level, rest => by
    rw [astDecls] at ht
    show pieces (byte '(' :: (ascii "IF" ++ byte ' ' :: (Expr.ofAst c).writer (byte ' ' ::
      (Stmt.ofAst next yes).writer table level (byte ' ' ::
        (Stmt.ofAst (next + (astDecls yes).length) no).writer table level (byte ')' :: rest))))) = _
    rw [pieces_left, pieces_word_space (by decide), pieces_expr h.1 (ends_cons (by decide) _),
      pieces_space, pieces_stmt h.2.1 ht.left, pieces_space, pieces_stmt h.2.2 ht.right,
      pieces_right]
    simp [Ast.Stmt.nested, Nested.pieces, Nested.listPieces]
  | .loop _ c body, h, next, ht, level, rest => by
    show pieces (byte '(' :: (ascii "WHILE" ++ byte ' ' :: (Expr.ofAst c).writer (byte ' ' ::
      (Stmt.ofAst next body).writer table level (byte ')' :: rest)))) = _
    rw [pieces_left, pieces_word_space (by decide), pieces_expr h.1 (ends_cons (by decide) _),
      pieces_space, pieces_stmt h.2 ht, pieces_right]
    simp [Ast.Stmt.nested, Nested.pieces, Nested.listPieces]
  | .scope ds ss, h, next, ht, level, rest => by
    rw [astDecls] at ht
    show pieces (byte '(' :: (ascii "SCOPE" ++ byte '\n' ::
      (declsText table (level + 1) (List.range' next ds.length) ++ (indent (level + 1) ++
        (byte '(' :: (ascii "STATEMENTS" ++ byte '\n' ::
          Stmt.linesWriter table (level + 2) (Stmt.ofAsts (next + ds.length) ss)
            (indent (level + 1) ++ (byte ')' :: byte '\n' ::
              (indent level ++ byte ')' :: rest))))))))) = _
    rw [pieces_left, pieces_word_newline (by decide), pieces_decls ht.left h.1, indent,
      pieces_blanks, pieces_left, pieces_word_newline (by decide), pieces_stmts h.2 ht.right,
      pieces_blanks, pieces_right, pieces_newline, indent, pieces_blanks, pieces_right]
    simp [Ast.Stmt.nested, Nested.pieces, Nested.listPieces]

/-- Statements, each on a line of its own. -/
theorem pieces_stmts {table : List Declaration} : ∀ {ss : List Ast.Stmt}, Stmt.ListSpelled ss →
    ∀ {next : DeclId}, Tabled table next (astDeclsList ss) → ∀ (level : Nat) (rest : Bytes),
      pieces (Stmt.linesWriter table level (Stmt.ofAsts next ss) rest) =
        Nested.listPieces (Stmt.listNested ss) ++ pieces rest
  | [], _, _, _, _, _ => rfl
  | st :: ss, h, next, ht, level, rest => by
    rw [astDeclsList] at ht
    show pieces (indent level ++ (Stmt.ofAst next st).writer table level (byte '\n' ::
      Stmt.linesWriter table level (Stmt.ofAsts (next + (astDecls st).length) ss) rest)) = _
    rw [indent, pieces_blanks, pieces_stmt h.1 ht.left, pieces_newline, pieces_stmts h.2 ht.right,
      Ast.Stmt.listNested, Nested.listPieces, List.append_assoc]

end

theorem pieces_text {body : Ast.Scope} (h : body.toStmt.Spelled) :
    pieces (Program.ofAst body).text = body.toStmt.nested.pieces := by
  have htable : Tabled ((astDecls body.toStmt).map declOfAst) 0 (astDecls body.toStmt) := by
    intro i d hd
    rw [Nat.zero_add, List.getElem?_map, hd]
    rfl
  have hscope : Stmt.ofAst 0 body.toStmt = .scope (List.range' 0 body.decls.length)
      (Stmt.ofAsts body.decls.length body.stmts) := by
    rw [Scope.toStmt, Stmt.ofAst, Nat.zero_add]
  have hstmt := pieces_stmt h htable 0 (ascii "\n")
  rw [Stmt.writer_eq, hscope] at hstmt
  exact hstmt.trans (List.append_nil _)

end Shader
