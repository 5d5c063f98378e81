import Shader.Proofs.DumpLayout

/-!
# Two texts with one dump

The dump of a program that is not checked yet says all of its tree but the places: two texts have
the same dump only if they have the same tree up to places. Its layout adds nothing, and each node
can be told by its first word. Where two forms of nodes share that word, as calls of functions and
of types do, the next word tells them apart, because no name is a word of the language.

Floats are left out. A float is dumped in six decimals, which not every float has.
-/

namespace Shader

open Text Program TypeSystem

namespace Ast

/-! ## Trees without places -/

/-- A declaration without its places. -/
def Decl.unplaced (d : Decl) : Decl := { d with pos := {}, init := d.init.map Expr.unplaced }

mutual

/-- A statement without its places. -/
def Stmt.unplaced : Stmt → Stmt
  | .assign v e => .assign v.unplaced e.unplaced
  | .branch c yes none => .branch c.unplaced yes.unplaced none
  | .branch c yes (some no) => .branch c.unplaced yes.unplaced (some no.unplaced)
  | .loop _ c body => .loop {} c.unplaced body.unplaced
  | .scope decls stmts => .scope (decls.map Decl.unplaced) (Stmt.listUnplaced stmts)

/-- Statements without their places. -/
def Stmt.listUnplaced : List Stmt → List Stmt
  | [] => []
  | s :: ss => s.unplaced :: Stmt.listUnplaced ss

end

/-- A block without its places. -/
def Scope.unplaced (b : Scope) : Scope := ⟨b.decls.map Decl.unplaced, Stmt.listUnplaced b.stmts⟩

end Ast

open Ast

/-! ## Trees from nested lists -/

/-- The forms of nodes that a dump tells apart. -/
inductive Form where
  | int
  | float
  | bool
  | var
  | unary
  | binary
  | call
  | construct
  | assign
  | branch
  | loop
  | scope

/-- The form of an expression. -/
def Ast.Expr.shape : Ast.Expr → Form
  | .int _ _ => .int
  | .float _ _ => .float
  | .bool _ _ => .bool
  | .var _ => .var
  | .unary _ _ _ => .unary
  | .binary _ _ _ _ => .binary
  | .call _ _ _ => .call
  | .construct _ _ _ => .construct

/-- The form of the expression that is dumped so, by its first two words. -/
def Nested.shape : Nested → Form
  | .word w =>
    if w.head?.any isDigit then .int else if Kind.ofWord w = .ident then .var else .bool
  | .list (.word t :: .word w :: _) =>
    if t = ascii "INDEX" then .var else if t = ascii "UNARY" then .unary
    else if t = ascii "BINARY" then .binary
    else if Kind.ofWord w = .ident then .call else .construct
  | .list _ => .float

theorem isDigit_of_isLetter {b : UInt8} (h : isLetter b = true) : isDigit b = false :=
  byte_forall (P := fun b => isLetter b = true → isDigit b = false) (by decide +kernel) b h

/-- A variable is dumped as its name, which no digit starts and which is no word of the language, or
as an index. -/
theorem shape_var {v : Var} (h : Lexeme .ident v.name) : v.nested.shape = .var := by
  obtain ⟨pos, name, index⟩ := v
  cases index with
  | none =>
    obtain ⟨hword, b, hb, hletter⟩ := h.ofWord_eq_ident
    have hdigit : name.head?.any isDigit = false := by
      rw [show name.head? = some b from hb]
      exact isDigit_of_isLetter hletter
    show (if name.head?.any isDigit then Form.int else _) = _
    rw [hdigit, if_neg (by simp), if_pos hword]
  | some i => rfl

/-- The name of a type is a word of the language, so it is never taken for the name of a
function. -/
theorem ofWord_type_ne_ident {t : Ty} (h : Named t) : Kind.ofWord t.name ≠ .ident := by
  intro hk
  have htype := (lexeme_type h).2
  rw [hk] at htype
  cases htype

/-- **The form of an expression can be read off its dump.** -/
theorem shape_nested {e : Ast.Expr} (h : e.Spelled) : e.nested.shape = e.shape := by
  cases e with
  | int _ n =>
    obtain ⟨b, rest, hrest⟩ := List.exists_cons_of_ne_nil (decimal_ne_nil n)
    have hb : isDigit b = true := isDigit_of_mem_decimal (n := n) (by rw [hrest]; simp)
    show (if (decimal n).head?.any isDigit then Form.int else _) = _
    rw [if_pos (by rw [hrest]; exact hb)]
    rfl
  | float => cases h
  | bool _ b => cases b <;> rfl
  | var v => exact shape_var h
  | unary => rfl
  | binary => rfl
  | call _ f args =>
    show (if Kind.ofWord f = .ident then Form.call else .construct) = _
    rw [if_pos h.1.ofWord_eq_ident.1]
    rfl
  | construct _ t args =>
    show (if Kind.ofWord t.name = .ident then Form.call else .construct) = _
    rw [if_neg (ofWord_type_ne_ident h.1)]
    rfl

/-- Expressions with one dump have the same form. This leaves the diagonal of the case split
below. -/
theorem shape_of_nested {e e' : Ast.Expr} (he : e.Spelled) (he' : e'.Spelled)
    (h : e.nested = e'.nested) : e.shape = e'.shape := by
  rw [← shape_nested he, ← shape_nested he', h]

theorem name_unary_inj {op op' : UnaryOp} (h : op.name = op'.name) : op = op' := by
  revert h
  cases op <;> cases op' <;> decide

theorem name_binary_inj {op op' : BinaryOp} (h : op.name = op'.name) : op = op' := by
  revert h
  cases op <;> cases op' <;> decide

/-- Types of the language have different names. Of others this is not true: all that are unknown
share one. -/
theorem name_type_inj {t t' : Ty} (ht : Named t) (ht' : Named t') (h : t.name = t'.name) :
    t = t' := by
  have htype := (lexeme_type ht).2
  rw [h, (lexeme_type ht').2] at htype
  exact (Option.some.inj htype).symm

/-- Variables with one dump are the same but for their places. A name in the place of an index would
be a word where a list stands. -/
theorem var_of_nested {v v' : Var} (h : v.nested = v'.nested) : v.unplaced = v'.unplaced := by
  obtain ⟨pos, name, index⟩ := v
  obtain ⟨pos', name', index'⟩ := v'
  cases index with
  | none =>
    cases index' with
    | none =>
      cases h
      rfl
    | some j => cases h
  | some i =>
    cases index' with
    | none => cases h
    | some j =>
      simp only [Var.nested, Nested.list.injEq, List.cons.injEq, Nested.word.injEq, true_and,
        and_true] at h
      obtain ⟨rfl, hindex⟩ := h
      cases decimal_injective hindex
      rfl

mutual

/-- **Expressions with one dump are the same up to places.** -/
theorem expr_of_nested : ∀ {e e' : Ast.Expr}, e.Spelled → e'.Spelled → e.nested = e'.nested →
    e.unplaced = e'.unplaced
  | .int _ n, e', he, he', h => by
    have hshape := shape_of_nested he he' h
    cases e' with
    | int _ n' =>
      simp only [Ast.Expr.nested, Nested.word.injEq] at h
      rw [decimal_injective h, Ast.Expr.unplaced, Ast.Expr.unplaced]
    | _ => cases hshape
  | .float _ _, _, he, _, _ => by cases he
  | .bool _ b, e', he, he', h => by
    have hshape := shape_of_nested he he' h
    cases e' with
    | bool _ b' =>
      have hb : b = b' := by
        revert h
        cases b <;> cases b' <;> simp +decide [Ast.Expr.nested]
      rw [hb, Ast.Expr.unplaced, Ast.Expr.unplaced]
    | _ => cases hshape
  | .var v, e', he, he', h => by
    have hshape := shape_of_nested he he' h
    cases e' with
    | var v' => rw [Ast.Expr.unplaced, Ast.Expr.unplaced, var_of_nested h]
    | _ => cases hshape
  | .unary _ op x, e', he, he', h => by
    -- the first word is that of an operator before an operand, so `e'` is one
    have hshape := shape_of_nested he he' h
    cases e' with
    | unary _ op' x' =>
      have hx : x.Spelled := he
      have hx' : x'.Spelled := he'
      simp only [Ast.Expr.nested, Nested.list.injEq, List.cons.injEq, Nested.word.injEq, true_and,
        and_true] at h
      rw [Ast.Expr.unplaced, Ast.Expr.unplaced, name_unary_inj h.1, expr_of_nested hx hx' h.2]
    | _ => cases hshape
  | .binary _ op l r, e', he, he', h => by
    have hshape := shape_of_nested he he' h
    cases e' with
    | binary _ op' l' r' =>
      simp only [Ast.Expr.nested, Nested.list.injEq, List.cons.injEq, Nested.word.injEq, true_and,
        and_true] at h
      rw [Ast.Expr.unplaced, Ast.Expr.unplaced, name_binary_inj h.1,
        expr_of_nested he.1 he'.1 h.2.1, expr_of_nested he.2 he'.2 h.2.2]
    | _ => cases hshape
  | .call _ f args, e', he, he', h => by
    have hshape := shape_of_nested he he' h
    cases e' with
    | call _ f' args' =>
      simp only [Ast.Expr.nested, Nested.list.injEq, List.cons.injEq, Nested.word.injEq,
        true_and] at h
      rw [Ast.Expr.unplaced, Ast.Expr.unplaced, h.1, exprs_of_nested he.2 he'.2 h.2]
    | _ => cases hshape
  | .construct _ t args, e', he, he', h => by
    have hshape := shape_of_nested he he' h
    cases e' with
    | construct _ t' args' =>
      simp only [Ast.Expr.nested, Nested.list.injEq, List.cons.injEq, Nested.word.injEq,
        true_and] at h
      rw [Ast.Expr.unplaced, Ast.Expr.unplaced, name_type_inj he.1 he'.1 h.1,
        exprs_of_nested he.2 he'.2 h.2]
    | _ => cases hshape

/-- Arguments with one dump are the same but for their places, one by one. -/
theorem exprs_of_nested : ∀ {es es' : List Ast.Expr}, Expr.ListSpelled es → Expr.ListSpelled es' →
    Expr.listNested es = Expr.listNested es' → Expr.listUnplaced es = Expr.listUnplaced es'
  | [], [], _, _, _ => rfl
  | [], _ :: _, _, _, h => by cases h
  | _ :: _, [], _, _, h => by cases h
  | e :: es, e' :: es', hs, hs', h => by
    rw [Ast.Expr.listNested, Ast.Expr.listNested, List.cons.injEq] at h
    rw [Ast.Expr.listUnplaced, Ast.Expr.listUnplaced, expr_of_nested hs.1 hs'.1 h.1,
      exprs_of_nested hs.2 hs'.2 h.2]

end

/-- Initializers with one dump are the same but for their places, and one that is missing is missing
in both. -/
theorem init_of_nested {init init' : Option Ast.Expr} (hs : ∀ e, init = some e → e.Spelled)
    (hs' : ∀ e, init' = some e → e.Spelled)
    (h : (init.map Ast.Expr.nested).toList = (init'.map Ast.Expr.nested).toList) :
    init.map Ast.Expr.unplaced = init'.map Ast.Expr.unplaced := by
  cases init with
  | none =>
    cases init' with
    | none => rfl
    | some e' => cases h
  | some e =>
    cases init' with
    | none => cases h
    | some e' =>
      have he : e.nested = e'.nested := (List.cons.inj h).1
      rw [Option.map_some, Option.map_some, expr_of_nested (hs e rfl) (hs' e' rfl) he]

/-- A qualifier is told from a type, which stands in its place where there is none. -/
theorem name_type_ne_const {t : Ty} (h : Named t) : t.name ≠ ascii "const" := by
  intro hname
  have htype := (lexeme_type h).2
  rw [hname] at htype
  cases htype

/-- The word behind the name is a type, or it is `const`. -/
theorem decl_of_nested {d d' : Decl} (hd : d.Spelled) (hd' : d'.Spelled)
    (h : d.nested = d'.nested) : d.unplaced = d'.unplaced := by
  obtain ⟨pos, isConst, type, name, init⟩ := d
  obtain ⟨pos', isConst', type', name', init'⟩ := d'
  obtain ⟨-, htype, hinit⟩ := hd
  obtain ⟨-, htype', hinit'⟩ := hd'
  simp only [Decl.nested, Nested.list.injEq, List.cons.injEq, Nested.word.injEq, true_and] at h
  obtain ⟨rfl, h⟩ := h
  have hend : isConst = isConst' ∧ Nested.word type.name :: (init.map Ast.Expr.nested).toList =
      .word type'.name :: (init'.map Ast.Expr.nested).toList := by
    -- no type is called `const`
    cases isConst <;> cases isConst'
    · exact ⟨rfl, h⟩
    · exact absurd (Nested.word.inj (List.cons.inj h).1) (name_type_ne_const htype)
    · exact absurd (Nested.word.inj (List.cons.inj h).1).symm (name_type_ne_const htype')
    · exact ⟨rfl, (List.cons.inj h).2⟩
  obtain ⟨rfl, hend⟩ := hend
  have hname : type = type' := name_type_inj htype htype' (Nested.word.inj (List.cons.inj hend).1)
  have hunplaced : init.map Ast.Expr.unplaced = init'.map Ast.Expr.unplaced :=
    init_of_nested hinit hinit' (List.cons.inj hend).2
  rw [Decl.unplaced, Decl.unplaced, hname, hunplaced]

/-- Declarations with one dump are the same but for their places. -/
theorem decls_of_nested : ∀ {ds ds' : List Decl}, (∀ d ∈ ds, d.Spelled) → (∀ d ∈ ds', d.Spelled) →
    ds.map Decl.nested = ds'.map Decl.nested → ds.map Decl.unplaced = ds'.map Decl.unplaced
  | [], [], _, _, _ => rfl
  | [], _ :: _, _, _, h => by cases h
  | _ :: _, [], _, _, h => by cases h
  | d :: ds, d' :: ds', hs, hs', h => by
    rw [List.map_cons, List.map_cons, List.cons.injEq] at h
    rw [List.map_cons, List.map_cons, decl_of_nested (hs d (by simp)) (hs' d' (by simp)) h.1,
      decls_of_nested (fun d hd => hs d (List.mem_cons_of_mem _ hd))
        (fun d hd => hs' d (List.mem_cons_of_mem _ hd)) h.2]

/-- The form of a statement. -/
def Ast.Stmt.shape : Ast.Stmt → Form
  | .assign _ _ => .assign
  | .branch _ _ _ => .branch
  | .loop _ _ _ => .loop
  | .scope _ _ => .scope

/-- The form of the statement that is dumped so, by its first word. -/
def Nested.stmtShape : Nested → Form
  | .list (.word t :: _) =>
    if t = ascii "ASSIGN" then .assign else if t = ascii "IF" then .branch
    else if t = ascii "WHILE" then .loop else .scope
  | _ => .scope

/-- **The form of a statement can be read off the first word of its dump.** -/
theorem stmtShape_nested (st : Ast.Stmt) : st.nested.stmtShape = st.shape := by
  cases st with
  | branch c yes no => cases no <;> rfl
  | _ => rfl

theorem shape_of_stmt_nested {st st' : Ast.Stmt} (h : st.nested = st'.nested) :
    st.shape = st'.shape := by
  rw [← stmtShape_nested, ← stmtShape_nested, h]

mutual

/-- **Statements with one dump are the same up to places.** -/
theorem stmt_of_nested : ∀ {st st' : Ast.Stmt}, st.Spelled → st'.Spelled →
    st.nested = st'.nested → st.unplaced = st'.unplaced
  | .assign v e, st', hs, hs', h => by
    -- the first word of the list says which kind of statement the other one is
    have hshape := shape_of_stmt_nested h
    cases st' with
    | assign v' e' =>
      simp only [Ast.Stmt.nested, Nested.list.injEq, List.cons.injEq, true_and, and_true] at h
      rw [Ast.Stmt.unplaced, Ast.Stmt.unplaced, var_of_nested h.1, expr_of_nested hs.2 hs'.2 h.2]
    | _ => cases hshape
  | .branch c yes none, st', hs, hs', h => by
    have hshape := shape_of_stmt_nested h
    cases st' with
    | branch c' yes' no' =>
      cases no' with
      | none =>
        simp only [Ast.Stmt.nested, Nested.list.injEq, List.cons.injEq, true_and, and_true] at h
        rw [Ast.Stmt.unplaced, Ast.Stmt.unplaced, expr_of_nested hs.1 hs'.1 h.1,
          stmt_of_nested hs.2 hs'.2 h.2]
      | some no' => simp [Ast.Stmt.nested] at h
    | _ => cases hshape
  | .branch c yes (some no), st', hs, hs', h => by
    have hshape := shape_of_stmt_nested h
    cases st' with
    | branch c' yes' no' =>
      cases no' with
      | none => simp [Ast.Stmt.nested] at h
      | some no' =>
        simp only [Ast.Stmt.nested, Nested.list.injEq, List.cons.injEq, true_and, and_true] at h
        rw [Ast.Stmt.unplaced, Ast.Stmt.unplaced, expr_of_nested hs.1 hs'.1 h.1,
          stmt_of_nested hs.2.1 hs'.2.1 h.2.1, stmt_of_nested hs.2.2 hs'.2.2 h.2.2]
    | _ => cases hshape
  | .loop _ c body, st', hs, hs', h => by
    have hshape := shape_of_stmt_nested h
    cases st' with
    | loop _ c' body' =>
      simp only [Ast.Stmt.nested, Nested.list.injEq, List.cons.injEq, true_and, and_true] at h
      rw [Ast.Stmt.unplaced, Ast.Stmt.unplaced, expr_of_nested hs.1 hs'.1 h.1,
        stmt_of_nested hs.2 hs'.2 h.2]
    | _ => cases hshape
  | .scope ds ss, st', hs, hs', h => by
    have hshape := shape_of_stmt_nested h
    cases st' with
    | scope ds' ss' =>
      simp only [Ast.Stmt.nested, Nested.list.injEq, List.cons.injEq, true_and, and_true] at h
      rw [Ast.Stmt.unplaced, Ast.Stmt.unplaced, decls_of_nested hs.1 hs'.1 h.1,
        stmts_of_nested hs.2 hs'.2 h.2]
    | _ => cases hshape

/-- Statements with one dump are the same but for their places. -/
theorem stmts_of_nested : ∀ {ss ss' : List Ast.Stmt}, Stmt.ListSpelled ss → Stmt.ListSpelled ss' →
    Stmt.listNested ss = Stmt.listNested ss' → Stmt.listUnplaced ss = Stmt.listUnplaced ss'
  | [], [], _, _, _ => rfl
  | [], _ :: _, _, _, h => by cases h
  | _ :: _, [], _, _, h => by cases h
  | st :: ss, st' :: ss', hs, hs', h => by
    rw [Ast.Stmt.listNested, Ast.Stmt.listNested, List.cons.injEq] at h
    rw [Ast.Stmt.listUnplaced, Ast.Stmt.listUnplaced, stmt_of_nested hs.1 hs'.1 h.1,
      stmts_of_nested hs.2 hs'.2 h.2]

end

/-! ## Places are not dumped -/

theorem writer_var_unplaced (v : Var) : (Expr.ofVar v.unplaced).writer = (Expr.ofVar v).writer := by
  obtain ⟨pos, name, index⟩ := v
  cases index <;> rfl

mutual

/-- What is written of an expression does not depend on places. -/
theorem writer_unplaced : ∀ e : Ast.Expr, (Expr.ofAst e.unplaced).writer = (Expr.ofAst e).writer
  | .int _ _ | .float _ _ | .bool _ _ => rfl
  | .var v => writer_var_unplaced v
  | .unary _ _ x => by
    rw [Ast.Expr.unplaced, Expr.ofAst, Expr.ofAst, Expr.writer, Expr.writer, writer_unplaced x]
  | .binary _ _ l r => by
    rw [Ast.Expr.unplaced, Expr.ofAst, Expr.ofAst, Expr.writer, Expr.writer, writer_unplaced l,
      writer_unplaced r]
  | .call _ _ args => by
    rw [Ast.Expr.unplaced, Expr.ofAst, Expr.ofAst, Expr.writer, Expr.writer,
      argsWriter_unplaced args]
  | .construct _ _ args => by
    rw [Ast.Expr.unplaced, Expr.ofAst, Expr.ofAst, Expr.writer, Expr.writer,
      argsWriter_unplaced args]

theorem argsWriter_unplaced : ∀ es : List Ast.Expr,
    Expr.argsWriter (Expr.ofAsts (Expr.listUnplaced es)) = Expr.argsWriter (Expr.ofAsts es)
  | [] => rfl
  | e :: es => by
    rw [Ast.Expr.listUnplaced, Expr.ofAsts, Expr.ofAsts, Expr.argsWriter, Expr.argsWriter,
      writer_unplaced e, argsWriter_unplaced es]

end

/-- The line of a declaration does not depend on places. -/
theorem declText_unplaced (d : Decl) :
    declText (declOfAst d.unplaced) = declText (declOfAst d) := by
  obtain ⟨pos, isConst, type, name, init⟩ := d
  cases init with
  | none => rfl
  | some e =>
    have htext : (Expr.ofAst e.unplaced).text = (Expr.ofAst e).text :=
      congrFun (writer_unplaced e) []
    simp only [declText, declOfAst, Decl.unplaced, Option.map_some, htext]
    rfl

mutual

/-- Without places a statement declares the same, in the same order. -/
theorem astDecls_unplaced : ∀ st : Ast.Stmt,
    astDecls st.unplaced = (astDecls st).map Decl.unplaced
  | .assign _ _ => rfl
  | .branch _ yes none => by
    rw [Ast.Stmt.unplaced, astDecls, astDecls, astDecls_unplaced yes]
  | .branch _ yes (some no) => by
    rw [Ast.Stmt.unplaced, astDecls, astDecls, astDecls_unplaced yes, astDecls_unplaced no,
      List.map_append]
  | .loop _ _ body => by
    rw [Ast.Stmt.unplaced, astDecls, astDecls, astDecls_unplaced body]
  | .scope ds ss => by
    rw [Ast.Stmt.unplaced, astDecls, astDecls, astDeclsList_unplaced ss, List.map_append]

theorem astDeclsList_unplaced : ∀ ss : List Ast.Stmt,
    astDeclsList (Stmt.listUnplaced ss) = (astDeclsList ss).map Decl.unplaced
  | [] => rfl
  | st :: ss => by
    rw [Ast.Stmt.listUnplaced, astDeclsList, astDeclsList, astDecls_unplaced st,
      astDeclsList_unplaced ss, List.map_append]

end

/-- Whether two tables are dumped alike. -/
def SameTexts (table table' : List Declaration) : Prop :=
  ∀ i : Nat, table'[i]?.map declText = table[i]?.map declText

section Tables

variable {table table' : List Declaration}

/-- The lines of declarations depend on the lines of the table alone. -/
theorem declsText_congr (h : SameTexts table table') (level : Nat) (ids : List DeclId) :
    declsText table' level ids = declsText table level ids := by
  unfold declsText
  dsimp only
  congr 4
  funext id
  have hid := h id
  cases hd : table[id]? with
  | none =>
    rw [hd, Option.map_none, Option.map_eq_none_iff] at hid
    rw [hid]
  | some d =>
    rw [hd, Option.map_some, Option.map_eq_some_iff] at hid
    obtain ⟨d', hd', htext⟩ := hid
    rw [hd']
    dsimp only
    rw [htext]

mutual

/-- What is written of a statement does not depend on places, its own and those of the table. -/
theorem stmtWriter_unplaced (h : SameTexts table table') (level : Nat) :
    ∀ (st : Ast.Stmt) (next : DeclId),
      (Stmt.ofAst next st.unplaced).writer table' level = (Stmt.ofAst next st).writer table level
  | .assign v e, next => by
    rw [Ast.Stmt.unplaced, Stmt.ofAst, Stmt.ofAst, Stmt.writer, Stmt.writer, type_ofVar, type_ofVar,
      writer_var_unplaced, writer_unplaced]
  | .branch c yes none, next => by
    rw [Ast.Stmt.unplaced, Stmt.ofAst, Stmt.ofAst, Stmt.writer, Stmt.writer, writer_unplaced,
      stmtWriter_unplaced h level yes]
  | .branch c yes (some no), next => by
    rw [Ast.Stmt.unplaced, Stmt.ofAst, Stmt.ofAst, Stmt.writer, Stmt.writer, writer_unplaced,
      stmtWriter_unplaced h level yes, stmtWriter_unplaced h level no, astDecls_unplaced,
      List.length_map]
  | .loop _ c body, next => by
    rw [Ast.Stmt.unplaced, Stmt.ofAst, Stmt.ofAst, Stmt.writer, Stmt.writer, writer_unplaced,
      stmtWriter_unplaced h level body]
  | .scope ds ss, next => by
    rw [Ast.Stmt.unplaced, Stmt.ofAst, Stmt.ofAst, Stmt.writer, Stmt.writer, List.length_map,
      declsText_congr h, linesWriter_unplaced h (level + 2) ss]

theorem linesWriter_unplaced (h : SameTexts table table') (level : Nat) :
    ∀ (ss : List Ast.Stmt) (next : DeclId),
      Stmt.linesWriter table' level (Stmt.ofAsts next (Stmt.listUnplaced ss)) =
        Stmt.linesWriter table level (Stmt.ofAsts next ss)
  | [], next => rfl
  | st :: ss, next => by
    rw [Ast.Stmt.listUnplaced, Stmt.ofAsts, Stmt.ofAsts, Stmt.linesWriter, Stmt.linesWriter,
      stmtWriter_unplaced h level st, linesWriter_unplaced h level ss, astDecls_unplaced,
      List.length_map]

end

end Tables

/-- **The dump of a program does not depend on places.** -/
theorem text_unplaced (body : Ast.Scope) :
    (Program.ofAst body.unplaced).text = (Program.ofAst body).text := by
  have htable : SameTexts ((astDecls body.toStmt).map declOfAst)
      ((astDecls body.unplaced.toStmt).map declOfAst) := by
    intro i
    have hdecls : astDecls body.unplaced.toStmt = (astDecls body.toStmt).map Decl.unplaced :=
      astDecls_unplaced body.toStmt
    rw [hdecls, List.getElem?_map, List.getElem?_map, List.getElem?_map]
    cases (astDecls body.toStmt)[i]? with
    | none => rfl
    | some d => exact congrArg some (declText_unplaced d)
  have hscope : ∀ body : Ast.Scope, (Program.ofAst body).text =
      (Stmt.ofAst 0 body.toStmt).writer ((astDecls body.toStmt).map declOfAst) 0 [] ++
        ascii "\n" := by
    intro body
    rw [Scope.toStmt, Stmt.ofAst, Nat.zero_add]
    rfl
  rw [hscope, hscope]
  exact congrArg (· ++ ascii "\n") (congrFun (stmtWriter_unplaced htable 0 body.toStmt 0) [])

/-! ## The trees of texts -/

/-- Tokens without floats, whose names are identifiers. -/
def Plain (ts : List Token) : Prop :=
  ∀ t ∈ ts, t.kind ≠ .float ∧ (t.kind = .ident → Lexeme .ident t.literal)

section Grammar

open Grammar

theorem Plain.mono {ts us : List Token} (h : Plain us) (hsub : ts ⊆ us) : Plain ts :=
  fun t ht => h t (hsub ht)

theorem spelled_of_varOf {ts : List Token} {v : Var} (h : VarOf ts v) (hp : Plain ts) :
    Lexeme .ident v.name := by
  cases h with
  | @plain x hx => exact (hp x (by simp)).2 hx
  | @indexed x l i r n hx _ _ _ => exact (hp x (by simp)).2 hx

mutual

/-- An expression of the grammar is spelled in the words of its tokens: its names are identifiers,
its types are named, and floats are not among them. -/
theorem spelled_of_exprOf : ∀ {n : Nat} {ts : List Token} {e : Ast.Expr}, ExprOf n ts e →
    Plain ts → e.Spelled
  | _, _, _, .binary _ hl hr, hp => by
    rw [Ast.Expr.Spelled]
    exact ⟨spelled_of_exprOf hl (hp.mono fun t ht => by simp [ht]),
      spelled_of_exprOf hr (hp.mono fun t ht => by simp [ht])⟩
  | _, _, _, .tighter _ he, hp => spelled_of_exprOf he hp
  | _, _, _, .unary _ he, hp => by
    rw [Ast.Expr.Spelled]
    exact spelled_of_exprOf he (hp.mono fun t ht => by simp [ht])
  | _, _, _, .power _ hb hx, hp => by
    rw [Ast.Expr.Spelled]
    exact ⟨spelled_of_exprOf hb (hp.mono fun t ht => by simp [ht]),
      spelled_of_exprOf hx (hp.mono fun t ht => by simp [ht])⟩
  | _, _, _, .int _, _ => by simp [Ast.Expr.Spelled]
  | _, _, _, .float hk _, hp => absurd hk (hp _ (by simp)).1
  | _, _, _, .true _, _ => by simp [Ast.Expr.Spelled]
  | _, _, _, .false _, _ => by simp [Ast.Expr.Spelled]
  | _, _, _, .var hv, hp => by
    rw [Ast.Expr.Spelled]
    exact spelled_of_varOf hv hp
  | _, _, _, .call hk hargs, hp => by
    rw [Ast.Expr.Spelled]
    exact ⟨(hp _ (by simp)).2 hk, listSpelled_of_argsOf hargs (hp.mono fun t ht => by simp [ht])⟩
  | _, _, _, .construct ht hargs, hp => by
    rw [Ast.Expr.Spelled]
    exact ⟨named_of_type? ht, listSpelled_of_argsOf hargs (hp.mono fun t ht => by simp [ht])⟩
  | _, _, _, .parens _ he _, hp => spelled_of_exprOf he (hp.mono fun t ht => by simp [ht])

theorem listSpelled_of_argsOf : ∀ {ts : List Token} {es : List Ast.Expr}, ArgsOf ts es →
    Plain ts → Expr.ListSpelled es
  | _, _, .none _ _, _ => trivial
  | _, _, .some _ hlist _, hp => listSpelled_of_listOf hlist (hp.mono fun t ht => by simp [ht])

theorem listSpelled_of_listOf : ∀ {ts : List Token} {es : List Ast.Expr}, ListOf ts es →
    Plain ts → Expr.ListSpelled es
  | _, _, .one he, hp => ⟨spelled_of_exprOf he hp, trivial⟩
  | _, _, .more he _ hes, hp => ⟨spelled_of_exprOf he (hp.mono fun t ht => by simp [ht]),
      listSpelled_of_listOf hes (hp.mono fun t ht => by simp [ht])⟩

end

theorem spelled_of_declOf {ts : List Token} {d : Decl} (h : DeclOf ts d) (hp : Plain ts) :
    d.Spelled := by
  have hinit : ∀ {us : List Token} {init : Option Ast.Expr}, InitOf us init → us ⊆ ts →
      ∀ e, init = some e → e.Spelled := by
    intro us init hi hsub e he
    cases hi with
    | none => cases he
    | some _ hexpr =>
      cases he
      exact spelled_of_exprOf hexpr (hp.mono fun t ht => hsub (List.mem_cons_of_mem _ ht))
  cases h with
  | mutable ht hx hi _ =>
    exact ⟨(hp _ (by simp)).2 hx, named_of_type? ht, hinit hi fun t ht => by simp [ht]⟩
  | const _ ht hx hi _ =>
    exact ⟨(hp _ (by simp)).2 hx, named_of_type? ht, hinit hi fun t ht => by simp [ht]⟩

theorem spelled_of_declsOf {ts : List Token} {ds : List Decl} (h : DeclsOf ts ds) (hp : Plain ts) :
    ∀ d ∈ ds, d.Spelled := by
  induction h with
  | nil => simp
  | cons hd _ ih =>
    intro d hmem
    rcases List.mem_cons.mp hmem with rfl | hmem
    · exact spelled_of_declOf hd (hp.mono fun t ht => by simp [ht])
    · exact ih (hp.mono fun t ht => by simp [ht]) d hmem

theorem spelled_of_condOf {ts : List Token} {e : Ast.Expr} (h : CondOf ts e) (hp : Plain ts) :
    e.Spelled := by
  cases h with
  | mk _ he _ => exact spelled_of_exprOf he (hp.mono fun t ht => by simp [ht])

theorem spelled_bodyOf {o : Option Ast.Stmt} (h : ∀ st ∈ o, st.Spelled) : (bodyOf o).Spelled := by
  cases o with
  | none =>
    show (Ast.Stmt.scope [] []).Spelled
    rw [Ast.Stmt.Spelled]
    exact ⟨by simp, trivial⟩
  | some st => exact h st rfl

theorem spelled_branch {c : Ast.Expr} {yes : Ast.Stmt} {no : Option Ast.Stmt} (hc : c.Spelled)
    (hyes : yes.Spelled) (hno : ∀ st ∈ no, st.Spelled) : (Ast.Stmt.branch c yes no).Spelled := by
  cases no with
  | none => exact ⟨hc, hyes⟩
  | some no => exact ⟨hc, hyes, hno no rfl⟩

theorem listSpelled_append {o : Option Ast.Stmt} {ss : List Ast.Stmt} (h : ∀ st ∈ o, st.Spelled)
    (hss : Stmt.ListSpelled ss) : Stmt.ListSpelled (o.toList ++ ss) := by
  cases o with
  | none => exact hss
  | some st => exact ⟨h st rfl, hss⟩

mutual

/-- The same for a statement. An empty one leaves nothing in the tree. -/
theorem spelled_of_stmtOf {nearest : Bool} : ∀ {dangling : Bool} {ts : List Token}
    {o : Option Ast.Stmt}, StmtOf nearest dangling ts o → Plain ts → ∀ st ∈ o, st.Spelled
  | _, _, _, .assign hv _ he _, hp => by
    rintro _ ⟨⟩
    exact ⟨spelled_of_varOf hv (hp.mono fun t ht => by simp [ht]),
      spelled_of_exprOf he (hp.mono fun t ht => by simp [ht])⟩
  | _, _, _, .ifThen _ hc hs, hp => by
    rintro _ ⟨⟩
    exact spelled_branch (spelled_of_condOf hc (hp.mono fun t ht => by simp [ht]))
      (spelled_bodyOf (spelled_of_stmtOf hs (hp.mono fun t ht => by simp [ht]))) (by simp)
  | _, _, _, .ifElse _ hc hs _ _ ho, hp => by
    rintro _ ⟨⟩
    exact spelled_branch (spelled_of_condOf hc (hp.mono fun t ht => by simp [ht]))
      (spelled_bodyOf (spelled_of_stmtOf hs (hp.mono fun t ht => by simp [ht])))
      (spelled_of_stmtOf ho (hp.mono fun t ht => by simp [ht]))
  | _, _, _, .loop _ hc hs, hp => by
    rintro _ ⟨⟩
    exact ⟨spelled_of_condOf hc (hp.mono fun t ht => by simp [ht]),
      spelled_bodyOf (spelled_of_stmtOf hs (hp.mono fun t ht => by simp [ht]))⟩
  | _, _, _, .block hb, hp => by
    rintro _ ⟨⟩
    exact spelled_of_blockOf hb hp
  | _, _, _, .empty _, _ => by simp

theorem spelled_of_blockOf {nearest : Bool} : ∀ {ts : List Token} {b : Ast.Scope},
    BlockOf nearest ts b → Plain ts → b.toStmt.Spelled
  | _, _, .mk _ hds hss _, hp =>
    ⟨spelled_of_declsOf hds (hp.mono fun t ht => by simp [ht]),
      listSpelled_of_stmtsOf hss (hp.mono fun t ht => by simp [ht])⟩

theorem listSpelled_of_stmtsOf {nearest : Bool} : ∀ {ts : List Token} {ss : List Ast.Stmt},
    StmtsOf nearest ts ss → Plain ts → Stmt.ListSpelled ss
  | _, _, .nil, _ => trivial
  | _, _, .cons hs hss, hp => listSpelled_append
      (spelled_of_stmtOf hs (hp.mono fun t ht => by simp [ht]))
      (listSpelled_of_stmtsOf hss (hp.mono fun t ht => by simp [ht]))

end

end Grammar

/-- The names among the tokens of a text are identifiers. -/
theorem plain_scan {source : Bytes} (h : ∀ t ∈ (scan source).1, t.kind ≠ .float) :
    Plain (scan source).1 := by
  refine fun t ht => ⟨h t ht, fun hk => ?_⟩
  have hlexeme := lexeme_of_mem_scan ht (by rw [hk]; decide)
  rwa [hk] at hlexeme

/-- **The dump of a text says its tree.** Two texts that can be parsed and have no floats are dumped
alike exactly if they have the same tree up to places. -/
theorem text_eq_iff_unplaced_eq {source source' : Bytes} (h : (parse source).errors = [])
    (h' : (parse source').errors = []) (hfloat : ∀ t ∈ (scan source).1, t.kind ≠ .float)
    (hfloat' : ∀ t ∈ (scan source').1, t.kind ≠ .float) :
    (Program.ofAst (parse source).body).text = (Program.ofAst (parse source').body).text ↔
      (parse source).body.unplaced = (parse source').body.unplaced := by
  refine ⟨fun htext => ?_, fun hsame => ?_⟩
  · have hs := spelled_of_blockOf (treeOf_parse h) (plain_scan hfloat)
    have hs' := spelled_of_blockOf (treeOf_parse h') (plain_scan hfloat')
    have hpieces := congrArg pieces htext
    rw [pieces_text hs, pieces_text hs'] at hpieces
    have hstmt := stmt_of_nested hs hs' (Nested.pieces_injective hpieces)
    obtain ⟨hdecls, hstmts⟩ := Stmt.scope.inj hstmt
    rw [Scope.unplaced, Scope.unplaced, hdecls, hstmts]
  · rw [← text_unplaced, hsame, text_unplaced]

/-- Two layouts of one program, with an empty statement for an empty block and parentheses that make
no difference. -/
theorem text_eq_iff_unplaced_eq_layouts :
    let source := ascii "\x7bconst int a=-f(1);if(a<b[2])\x7b\x7delse a=vec2(a);\x7d"
    let source' := ascii "\x7b const int a = -(f(1)); if (a<b[2]); else a = vec2((a)); \x7d"
    (parse source).errors = [] ∧ (parse source').errors = [] ∧
      ((scan source).1.all (·.kind != .float)) = true ∧
      ((scan source').1.all (·.kind != .float)) = true ∧
      (Program.ofAst (parse source).body).text = (Program.ofAst (parse source').body).text ∧
      (parse source).body.unplaced = (parse source').body.unplaced := by
  intro source source'
  have h : (parse source).errors = [] := by decide +kernel
  have h' : (parse source').errors = [] := by decide +kernel
  have hfloat : ((scan source).1.all (·.kind != .float)) = true := by decide +kernel
  have hfloat' : ((scan source').1.all (·.kind != .float)) = true := by decide +kernel
  have htext : (Program.ofAst (parse source).body).text =
      (Program.ofAst (parse source').body).text := by
    decide +kernel
  refine ⟨h, h', hfloat, hfloat', htext, (text_eq_iff_unplaced_eq h h' (fun t ht => ?_)
    (fun t ht => ?_)).mp htext⟩
  · simpa using List.all_eq_true.mp hfloat t ht
  · simpa using List.all_eq_true.mp hfloat' t ht

end Shader
