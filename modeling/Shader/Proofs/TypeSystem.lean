import Shader.Program
import Shader.Typing.Rules

/-!
# The type system, as rules

What it means for the tree of a text to be well-scoped and well-typed, written as derivations. A
derivation also says what the checked program looks like: every name bound to its declaration, and
every expression with the type the rules give it. Nothing here looks at the checker.

A context is the list of the open blocks, innermost first, and a block the list of the variables it
has declared so far. A name means the variable of the innermost block that has it. The table of a
program lists the declarations in the order of the text and the predefined ones behind them, so the
rules for statements count the place of the next declaration.
-/

namespace Shader.TypeSystem

open Text

/-! ## Types of operators and functions -/

/-- The types of the language. -/
def Named (t : Ty) : Prop :=
  (t.base = .bool ∨ t.base = .int ∨ t.base = .float) ∧ 1 ≤ t.order ∧ t.order ≤ 4

/-- The types whose values can be added and compared. -/
inductive Arithmetic : Ty → Prop where
  | int {n : Int} : Arithmetic ⟨.int, n⟩
  | float {n : Int} : Arithmetic ⟨.float, n⟩

/-- The type of a prefix operator. -/
inductive UnaryRule : UnaryOp → Ty → Ty → Prop where
  | neg {t : Ty} : Arithmetic t → UnaryRule .neg t t
  | not {n : Int} : UnaryRule .not ⟨.bool, n⟩ ⟨.bool, n⟩

/-- The type of a binary operator. -/
inductive BinaryRule : BinaryOp → Ty → Ty → Ty → Prop where
  | add {t : Ty} : Arithmetic t → BinaryRule .add t t t
  | sub {t : Ty} : Arithmetic t → BinaryRule .sub t t t
  | mul {t : Ty} : Arithmetic t → BinaryRule .mul t t t
  /-- A number scales a vector of its base, from either side. -/
  | scaleLeft {b : BaseType} {n : Int} :
      Arithmetic ⟨b, n⟩ → BinaryRule .mul ⟨b, 1⟩ ⟨b, n⟩ ⟨b, n⟩
  | scaleRight {b : BaseType} {n : Int} :
      Arithmetic ⟨b, n⟩ → BinaryRule .mul ⟨b, n⟩ ⟨b, 1⟩ ⟨b, n⟩
  | div {b : BaseType} : Arithmetic ⟨b, 1⟩ → BinaryRule .div ⟨b, 1⟩ ⟨b, 1⟩ ⟨b, 1⟩
  | pow {b : BaseType} : Arithmetic ⟨b, 1⟩ → BinaryRule .pow ⟨b, 1⟩ ⟨b, 1⟩ ⟨b, 1⟩
  | and {n : Int} : BinaryRule .and ⟨.bool, n⟩ ⟨.bool, n⟩ ⟨.bool, n⟩
  | or {n : Int} : BinaryRule .or ⟨.bool, n⟩ ⟨.bool, n⟩ ⟨.bool, n⟩
  | order {op : BinaryOp} {b : BaseType} :
      op ∈ [.lt, .le, .gt, .ge] → Arithmetic ⟨b, 1⟩ → BinaryRule op ⟨b, 1⟩ ⟨b, 1⟩ .bool
  | equate {op : BinaryOp} {t : Ty} :
      op ∈ [.eq, .ne] → Arithmetic t → BinaryRule op t t .bool

/-- The type of a call of a function of the target. -/
inductive CallRule : Function → List Ty → Ty → Prop where
  | rsq {b : BaseType} : Arithmetic ⟨b, 1⟩ → CallRule .rsq [⟨b, 1⟩] .float
  | dp3 {b : BaseType} {n : Int} :
      Arithmetic ⟨b, n⟩ → n = 3 ∨ n = 4 → CallRule .dp3 [⟨b, n⟩, ⟨b, n⟩] .float
  | lit : CallRule .lit [.vec4] .vec4

/-! ## Contexts -/

/-- A variable in scope: its place in the table, its type, and how it may be used. -/
structure Variable where
  id : DeclId
  type : Ty
  qualifier : Qualifier

/-- The variables that a block has declared so far, the latest first. -/
abbrev Block := List (Bytes × Variable)

/-- The open blocks, innermost first. -/
abbrev Context := List Block

/-- The variable a name means: the one of the innermost block that has declared the name. -/
inductive Context.Finds : Context → Bytes → Variable → Prop where
  | here {b : Block} {Γ : Context} {name : Bytes} {x : Variable} :
      b.lookup name = some x → Finds (b :: Γ) name x
  | outer {b : Block} {Γ : Context} {name : Bytes} {x : Variable} :
      b.lookup name = none → Finds Γ name x → Finds (b :: Γ) name x

/-- The block with one more variable, that of a declaration at a place of the table. -/
def Block.declare (b : Block) (id : DeclId) (d : Declaration) : Block :=
  (d.name, ⟨id, d.type, d.qualifier⟩) :: b

/-- The block with the variables of declarations that follow each other in the table. -/
def Block.declareAll (b : Block) (next : DeclId) : List Declaration → Block
  | [] => b
  | d :: ds => (b.declare next d).declareAll (next + 1) ds

/-- The predefined variables, of which the first has the place `next` in the table. -/
def predefinedBlock (next : DeclId) : Block := Block.declareAll [] next Program.predefinedDecls

/-! ## Expressions -/

/-- `Access Γ v v' x t`: the variable or component `v` belongs to the variable `x` and has type `t`,
and `v'` is `v` bound to `x`. -/
inductive Access (Γ : Context) : Ast.Var → Program.Expr → Variable → Ty → Prop where
  | whole {pos : Pos} {name : Bytes} {x : Variable} :
      Γ.Finds name x → Access Γ ⟨pos, name, none⟩ (.var ⟨name, some x.id, pos⟩) x x.type
  | component {pos : Pos} {name : Bytes} {x : Variable} {i : Nat} :
      Γ.Finds name x → 1 < x.type.order → i < x.type.order →
      Access Γ ⟨pos, name, some i⟩ (.index ⟨name, some x.id, pos⟩ i ⟨x.type.base, 1⟩) x
        ⟨x.type.base, 1⟩

mutual

/-- `Typed Γ e e' t`: the expression `e` has type `t`, and `e'` is `e` with its names bound and its
types filled in. -/
inductive Typed (Γ : Context) : Ast.Expr → Program.Expr → Ty → Prop where
  | int {pos : Pos} {n : Nat} : Typed Γ (.int pos n) (.int pos n) .int
  | float {pos : Pos} {x : Float} : Typed Γ (.float pos x) (.float pos x) .float
  | bool {pos : Pos} {b : Bool} : Typed Γ (.bool pos b) (.bool pos b) .bool
  /-- All but the outputs can be read. -/
  | var {v : Ast.Var} {v' : Program.Expr} {x : Variable} {t : Ty} :
      Access Γ v v' x t → x.qualifier ≠ .result → Typed Γ (.var v) v' t
  | unary {pos : Pos} {op : UnaryOp} {e : Ast.Expr} {e' : Program.Expr} {s t : Ty} :
      Typed Γ e e' s → UnaryRule op s t → Typed Γ (.unary pos op e) (.unary pos op e' t) t
  | binary {pos : Pos} {op : BinaryOp} {e f : Ast.Expr} {e' f' : Program.Expr} {l r t : Ty} :
      Typed Γ e e' l → Typed Γ f f' r → BinaryRule op l r t →
      Typed Γ (.binary pos op e f) (.binary pos op e' f' t) t
  | call {pos : Pos} {f : Function} {args : List Ast.Expr} {args' : List Program.Expr}
      {ts : List Ty} {t : Ty} :
      TypedList Γ args args' ts → CallRule f ts t →
      Typed Γ (.call pos f.name args) (.call pos f.name args' t) t
  /-- A constructor takes as many scalars of its base as it has components. -/
  | construct {pos : Pos} {b : BaseType} {n : Nat} {args : List Ast.Expr}
      {args' : List Program.Expr} :
      Named ⟨b, n⟩ → TypedList Γ args args' (List.replicate n ⟨b, 1⟩) →
      Typed Γ (.construct pos ⟨b, n⟩ args) (.construct pos ⟨b, n⟩ args') ⟨b, n⟩

/-- Expressions with their types, one by one. -/
inductive TypedList (Γ : Context) : List Ast.Expr → List Program.Expr → List Ty → Prop where
  | nil : TypedList Γ [] [] []
  | cons {e : Ast.Expr} {e' : Program.Expr} {t : Ty} {es : List Ast.Expr}
      {es' : List Program.Expr} {ts : List Ty} :
      Typed Γ e e' t → TypedList Γ es es' ts → TypedList Γ (e :: es) (e' :: es') (t :: ts)

end

/-! ## Declarations and statements -/

/-- A declaration and its entry in the table. A constant has an initializer. -/
inductive DeclTyped (Γ : Context) : Ast.Decl → Declaration → Prop where
  | plain {pos : Pos} {t : Ty} {name : Bytes} :
      Named t → DeclTyped Γ ⟨pos, false, t, name, none⟩ ⟨name, t, .ordinary, none, pos⟩
  | mutable {pos : Pos} {t : Ty} {name : Bytes} {e : Ast.Expr} {e' : Program.Expr} :
      Named t → Typed Γ e e' t →
      DeclTyped Γ ⟨pos, false, t, name, some e⟩ ⟨name, t, .ordinary, some e', pos⟩
  | const {pos : Pos} {t : Ty} {name : Bytes} {e : Ast.Expr} {e' : Program.Expr} :
      Named t → Typed Γ e e' t →
      DeclTyped Γ ⟨pos, true, t, name, some e⟩ ⟨name, t, .const, some e', pos⟩

/-- `DeclsTyped next Γ ds ds' Γ'`: the declarations `ds`, of which the first has the place `next`,
have the entries `ds'` and lead from `Γ` to `Γ'`. Each is in scope behind itself, and no block has
two of one name. -/
inductive DeclsTyped : DeclId → Context → List Ast.Decl → List Declaration → Context → Prop where
  | nil {next : DeclId} {Γ : Context} : DeclsTyped next Γ [] [] Γ
  | cons {next : DeclId} {b : Block} {Γ Γ' : Context} {d : Ast.Decl} {d' : Declaration}
      {ds : List Ast.Decl} {ds' : List Declaration} :
      DeclTyped (b :: Γ) d d' → b.lookup d'.name = none →
      DeclsTyped (next + 1) (b.declare next d' :: Γ) ds ds' Γ' →
      DeclsTyped next (b :: Γ) (d :: ds) (d' :: ds') Γ'

mutual

/-- `StmtTyped Γ next s s' ds`: the statement `s`, whose first declaration has the place `next`, is
well-typed; `s'` is the checked statement, and `ds` are the entries of its declarations. -/
inductive StmtTyped : Context → DeclId → Ast.Stmt → Program.Stmt → List Declaration → Prop where
  /-- Constants and inputs cannot be assigned to. -/
  | assign {Γ : Context} {next : DeclId} {v : Ast.Var} {v' : Program.Expr} {x : Variable}
      {e : Ast.Expr} {e' : Program.Expr} {t : Ty} :
      Access Γ v v' x t → x.qualifier ∉ [.const, .varying, .uniform] → Typed Γ e e' t →
      StmtTyped Γ next (.assign v e) (.assign v.pos v' e') []
  | ifThen {Γ : Context} {next : DeclId} {c : Ast.Expr} {c' : Program.Expr} {s : Ast.Stmt}
      {s' : Program.Stmt} {ds : List Declaration} :
      Typed Γ c c' .bool → StmtTyped Γ next s s' ds →
      StmtTyped Γ next (.branch c s none) (.branch c' s' none) ds
  | ifElse {Γ : Context} {next : DeclId} {c : Ast.Expr} {c' : Program.Expr} {s o : Ast.Stmt}
      {s' o' : Program.Stmt} {ds es : List Declaration} :
      Typed Γ c c' .bool → StmtTyped Γ next s s' ds → StmtTyped Γ (next + ds.length) o o' es →
      StmtTyped Γ next (.branch c s (some o)) (.branch c' s' (some o')) (ds ++ es)
  | loop {Γ : Context} {next : DeclId} {pos : Pos} {c : Ast.Expr} {c' : Program.Expr}
      {s : Ast.Stmt} {s' : Program.Stmt} {ds : List Declaration} :
      Typed Γ c c' .bool → StmtTyped Γ next s s' ds →
      StmtTyped Γ next (.loop pos c s) (.loop pos c' s') ds
  | scope {Γ Γ' : Context} {next : DeclId} {decls : List Ast.Decl} {ds es : List Declaration}
      {ss : List Ast.Stmt} {ss' : List Program.Stmt} :
      DeclsTyped next ([] :: Γ) decls ds Γ' → StmtsTyped Γ' (next + ds.length) ss ss' es →
      StmtTyped Γ next (.scope decls ss) (.scope (List.range' next ds.length) ss') (ds ++ es)

/-- Statements in order. -/
inductive StmtsTyped :
    Context → DeclId → List Ast.Stmt → List Program.Stmt → List Declaration → Prop where
  | nil {Γ : Context} {next : DeclId} : StmtsTyped Γ next [] [] []
  | cons {Γ : Context} {next : DeclId} {s : Ast.Stmt} {s' : Program.Stmt} {ss : List Ast.Stmt}
      {ss' : List Program.Stmt} {ds es : List Declaration} :
      StmtTyped Γ next s s' ds → StmtsTyped Γ (next + ds.length) ss ss' es →
      StmtsTyped Γ next (s :: ss) (s' :: ss') (ds ++ es)

end

/-- `Elaborates body p`: the tree `body` is well-scoped and well-typed, and `p` is the program that
its derivation describes. The predefined variables share the outermost block with those of `body`,
and stand behind all others in the table. -/
inductive Elaborates : Ast.Scope → Program → Prop where
  | mk {decls : List Ast.Decl} {stmts : List Ast.Stmt} {Γ : Context} {ds es : List Declaration}
      {stmts' : List Program.Stmt} :
      DeclsTyped 0 [predefinedBlock (ds ++ es).length] decls ds Γ →
      StmtsTyped Γ ds.length stmts stmts' es →
      Elaborates ⟨decls, stmts⟩
        { decls := (ds ++ es) ++ Program.predefinedDecls
          predefined := some (List.range' (ds ++ es).length Program.predefinedDecls.length)
          body := some ⟨List.range' 0 ds.length, stmts'⟩ }

/-- A tree is well-scoped and well-typed if it has a derivation. -/
def WellTyped (body : Ast.Scope) : Prop := ∃ p, Elaborates body p

/-! ## The rules compute -/

theorem Named.isValid {t : Ty} (h : Named t) : t.isValid = true := by
  obtain ⟨hb, hl, hu⟩ := h
  have hbase : t.base ≠ .invalid := by
    rcases hb with hb | hb | hb <;> rw [hb] <;> simp
  simp [Ty.isValid, hbase, hl, hu]

/-- A word for a type names a type of the language. -/
theorem named_of_type? {k : Kind} {t : Ty} (h : k.type? = some t) : Named t := by
  cases k <;> simp [Kind.type?] at h <;> subst h <;> simp [Named, Ty.bool, Ty.int, Ty.float]

theorem named_hardware (h : Hardware) : Named h.type := by
  cases h <;> simp [Named, Hardware.type, Ty.bool, Ty.vec4]

/-- Arithmetic types are those of numbers, whatever their order. -/
theorem isArithmetic_iff {t : Ty} : t.isArithmetic = true ↔ Arithmetic t := by
  obtain ⟨b, n⟩ := t
  constructor
  · intro h
    cases b <;> simp [Ty.isArithmetic] at h
    · exact .int
    · exact .float
  · intro h
    cases h <;> rfl

/-- **The table of prefix operators has exactly the rules.** -/
theorem unaryResult?_eq_some_iff {op : UnaryOp} {s t : Ty} :
    Typing.unaryResult? op s = some t ↔ UnaryRule op s t := by
  constructor
  · intro h
    cases op with
    | neg =>
      simp only [Typing.unaryResult?, Option.ite_none_right_eq_some, Option.some.injEq] at h
      obtain ⟨ha, rfl⟩ := h
      exact .neg (isArithmetic_iff.mp ha)
    | not =>
      obtain ⟨b, n⟩ := s
      simp only [Typing.unaryResult?, Option.ite_none_right_eq_some, Option.some.injEq] at h
      obtain ⟨rfl, rfl⟩ := h
      exact .not
    | unknown => simp [Typing.unaryResult?] at h
  · intro h
    cases h with
    | neg ha => simp [Typing.unaryResult?, isArithmetic_iff.mpr ha]
    | not => simp [Typing.unaryResult?]

/-- A product has three rules, for two values of one type and for a number on either side of a
vector. Where both sides are numbers, all three say the same. -/
theorem productResult?_eq_some_iff {l r t : Ty} :
    Typing.productResult? l r = some t ↔ BinaryRule .mul l r t := by
  obtain ⟨b, n⟩ := l
  obtain ⟨c, m⟩ := r
  constructor
  · intro h
    simp only [Typing.productResult?] at h
    split at h
    · simp at h
    · rename_i hbase
      simp only [Bool.or_eq_true, Bool.not_eq_true', bne_iff_ne, ne_eq, not_or, Bool.not_eq_false,
        Decidable.not_not] at hbase
      obtain ⟨ha, rfl⟩ := hbase
      have harith := isArithmetic_iff.mp ha
      -- arithmetic is a matter of the base alone
      have hother : ∀ k : Int, Arithmetic ⟨b, k⟩ := by
        intro k
        cases harith <;> constructor
      split at h
      · rename_i hsame
        rw [← hsame, ← Option.some.inj h]
        exact .mul harith
      · split at h
        · rename_i hn
          have hn : n = 1 := by simpa [Ty.isScalar] using hn
          rw [← Option.some.inj h, hn]
          exact .scaleLeft (hother m)
        · split at h
          · rename_i hm
            have hm : m = 1 := by simpa [Ty.isScalar] using hm
            rw [← Option.some.inj h, hm]
            exact .scaleRight harith
          · simp at h
  · intro h
    cases h with
    | mul ha => simp [Typing.productResult?, isArithmetic_iff.mpr ha]
    | scaleLeft ha =>
      have ha' : (⟨b, 1⟩ : Ty).isArithmetic = true :=
        isArithmetic_iff.mpr (by cases ha <;> constructor)
      simp [Typing.productResult?, ha', Ty.isScalar]
    | scaleRight ha =>
      have ha' : (⟨b, n⟩ : Ty).isArithmetic = true := isArithmetic_iff.mpr ha
      simp only [Typing.productResult?, ha', Ty.isScalar, Ty.mk.injEq, true_and]
      split
      · simp_all
      · split <;> simp_all
    | order hop _ => simp at hop
    | equate hop _ => simp at hop

/-- **The table of operators between operands has exactly the rules.** -/
theorem binaryResult?_eq_some_iff {op : BinaryOp} {l r t : Ty} :
    Typing.binaryResult? op l r = some t ↔ BinaryRule op l r t := by
  -- all but the product have one rule, with its premises as the test
  by_cases hmul : op = .mul
  · subst hmul
    exact productResult?_eq_some_iff
  constructor
  · intro h
    obtain ⟨b, n⟩ := l
    cases op <;>
      simp only [Typing.binaryResult?, Option.ite_none_right_eq_some, Option.some.injEq,
        reduceCtorEq] at h
    case mul => exact absurd rfl hmul
    all_goals
      simp only [Bool.and_eq_true, decide_eq_true_eq, isArithmetic_iff, Ty.isScalar,
        beq_iff_eq] at h
    case add => obtain ⟨⟨ha, rfl⟩, rfl⟩ := h; exact .add ha
    case sub => obtain ⟨⟨ha, rfl⟩, rfl⟩ := h; exact .sub ha
    case div => obtain ⟨⟨⟨ha, rfl⟩, rfl⟩, rfl⟩ := h; exact .div ha
    case pow => obtain ⟨⟨⟨ha, rfl⟩, rfl⟩, rfl⟩ := h; exact .pow ha
    case and => obtain ⟨⟨rfl, rfl⟩, rfl⟩ := h; exact .and
    case or => obtain ⟨⟨rfl, rfl⟩, rfl⟩ := h; exact .or
    case eq => obtain ⟨⟨ha, rfl⟩, rfl⟩ := h; exact .equate (by simp) ha
    case ne => obtain ⟨⟨ha, rfl⟩, rfl⟩ := h; exact .equate (by simp) ha
    all_goals
      obtain ⟨⟨⟨ha, rfl⟩, rfl⟩, rfl⟩ := h
      exact .order (by simp) ha
  · intro h
    cases h with
    | add ha => simp [Typing.binaryResult?, isArithmetic_iff.mpr ha]
    | sub ha => simp [Typing.binaryResult?, isArithmetic_iff.mpr ha]
    | div ha => simp [Typing.binaryResult?, isArithmetic_iff.mpr ha, Ty.isScalar]
    | pow ha => simp [Typing.binaryResult?, isArithmetic_iff.mpr ha, Ty.isScalar]
    | and => simp [Typing.binaryResult?]
    | or => simp [Typing.binaryResult?]
    | order hop ha =>
      simp only [List.mem_cons, List.not_mem_nil, or_false] at hop
      rcases hop with rfl | rfl | rfl | rfl <;>
        simp [Typing.binaryResult?, isArithmetic_iff.mpr ha, Ty.isScalar]
    | equate hop ha =>
      simp only [List.mem_cons, List.not_mem_nil, or_false] at hop
      rcases hop with rfl | rfl <;> simp [Typing.binaryResult?, isArithmetic_iff.mpr ha]
    | mul => exact absurd rfl hmul
    | scaleLeft => exact absurd rfl hmul
    | scaleRight => exact absurd rfl hmul

/-- **The signatures of the functions are exactly the rules for calls.** -/
theorem result?_eq_some_iff {f : Function} {ts : List Ty} {t : Ty} :
    f.result? ts = some t ↔ CallRule f ts t := by
  constructor
  · intro h
    have hmem : (ts, t) ∈ f.signatures := by
      obtain ⟨l₁, l₂, heq, -⟩ := List.lookup_eq_some_iff.mp h
      rw [heq]
      simp
    cases f <;> simp [Function.signatures] at hmem
    case rsq =>
      obtain ⟨rfl, rfl⟩ | ⟨rfl, rfl⟩ := hmem
      · exact .rsq .float
      · exact .rsq .int
    case dp3 =>
      obtain ⟨rfl, rfl⟩ | ⟨rfl, rfl⟩ | ⟨rfl, rfl⟩ | ⟨rfl, rfl⟩ := hmem
      · exact .dp3 .float (.inr rfl)
      · exact .dp3 .float (.inl rfl)
      · exact .dp3 .int (.inr rfl)
      · exact .dp3 .int (.inl rfl)
    case lit =>
      obtain ⟨rfl, rfl⟩ := hmem
      exact .lit
  · intro h
    cases h with
    | rsq ha => cases ha <;> rfl
    | dp3 ha hn => cases ha <;> rcases hn with rfl | rfl <;> rfl
    | lit => rfl

/-! ## Only types of the language -/

/-- A context all of whose variables have types of the language. -/
def Context.Named (Γ : Context) : Prop := ∀ b ∈ Γ, ∀ p ∈ b, TypeSystem.Named p.2.type

/-- What a name finds is in one of the blocks. -/
theorem Context.Finds.mem {Γ : Context} {name : Bytes} {x : Variable} (h : Γ.Finds name x) :
    ∃ b ∈ Γ, (name, x) ∈ b := by
  induction h with
  | @here b _ _ _ hb =>
    obtain ⟨l₁, l₂, heq, -⟩ := List.lookup_eq_some_iff.mp hb
    exact ⟨b, by simp, by rw [heq]; simp⟩
  | outer _ _ ih =>
    obtain ⟨b, hb, hmem⟩ := ih
    exact ⟨b, by simp [hb], hmem⟩

theorem Named.scalar {t : Ty} (h : Named t) : Named ⟨t.base, 1⟩ := by
  obtain ⟨hb, -, -⟩ := h
  exact ⟨hb, Int.le_refl 1, by show (1 : Int) ≤ 4; decide⟩

/-- A variable, or a component of one, has a type of the language. -/
theorem Access.named {Γ : Context} {v : Ast.Var} {v' : Program.Expr} {x : Variable} {t : Ty}
    (hΓ : Γ.Named) (h : Access Γ v v' x t) : Named t := by
  cases h with
  | whole hx =>
    obtain ⟨b, hb, hmem⟩ := hx.mem
    exact hΓ b hb _ hmem
  | component hx _ _ =>
    obtain ⟨b, hb, hmem⟩ := hx.mem
    exact (hΓ b hb _ hmem).scalar

theorem UnaryRule.named {op : UnaryOp} {s t : Ty} (h : UnaryRule op s t) (hs : Named s) :
    Named t := by
  cases h <;> exact hs

/-- The rules lead from types of the language to types of the language. -/
theorem BinaryRule.named {op : BinaryOp} {l r t : Ty} (h : BinaryRule op l r t) (hl : Named l)
    (hr : Named r) : Named t := by
  have hbool : Named .bool := ⟨.inl rfl, by decide, by decide⟩
  cases h with
  | scaleLeft => exact hr
  | order => exact hbool
  | equate => exact hbool
  | _ => exact hl

theorem CallRule.named {f : Function} {ts : List Ty} {t : Ty} (h : CallRule f ts t) : Named t := by
  cases h <;> exact ⟨.inr (.inr rfl), by decide, by decide⟩

/-- **Every expression has a type of the language.** -/
theorem Typed.named {Γ : Context} (hΓ : Γ.Named) :
    ∀ {e : Ast.Expr} {e' : Program.Expr} {t : Ty}, Typed Γ e e' t → Named t
  | _, _, _, .int => ⟨.inr (.inl rfl), by decide, by decide⟩
  | _, _, _, .float => ⟨.inr (.inr rfl), by decide, by decide⟩
  | _, _, _, .bool => ⟨.inl rfl, by decide, by decide⟩
  | _, _, _, .var ha _ => ha.named hΓ
  | _, _, _, .unary he hop => hop.named (he.named hΓ)
  | _, _, _, .binary he hf hop => hop.named (he.named hΓ) (hf.named hΓ)
  | _, _, _, .call _ hcall => hcall.named
  | _, _, _, .construct ht _ => ht

/-- The types of typed arguments are types of the language. -/
theorem TypedList.named {Γ : Context} (hΓ : Γ.Named) :
    ∀ {es : List Ast.Expr} {es' : List Program.Expr} {ts : List Ty},
      TypedList Γ es es' ts → ∀ t ∈ ts, Named t
  | _, _, _, .nil, _, ht => by simp at ht
  | _, _, _, .cons he hes, t, ht => by
    rcases List.mem_cons.mp ht with rfl | ht
    · exact he.named hΓ
    · exact hes.named hΓ t ht

theorem TypedList.length {Γ : Context} :
    ∀ {es : List Ast.Expr} {es' : List Program.Expr} {ts : List Ty},
      TypedList Γ es es' ts → es'.length = ts.length
  | _, _, _, .nil => rfl
  | _, _, _, .cons _ hes => by rw [List.length_cons, List.length_cons, hes.length]

theorem DeclTyped.named {Γ : Context} {d : Ast.Decl} {d' : Declaration} (h : DeclTyped Γ d d') :
    Named d'.type := by
  cases h <;> assumption

theorem Context.Named.push {Γ : Context} (hΓ : Γ.Named) : Context.Named ([] :: Γ) := by
  intro b hb p hp
  rcases List.mem_cons.mp hb with rfl | hb
  · simp at hp
  · exact hΓ b hb p hp

/-- A declaration with a type of the language keeps the context one of such types. -/
theorem Context.Named.declare {b : Block} {Γ : Context} {id : DeclId} {d : Declaration}
    (hΓ : Context.Named (b :: Γ)) (hd : TypeSystem.Named d.type) :
    Context.Named (b.declare id d :: Γ) := by
  intro c hc p hp
  rcases List.mem_cons.mp hc with rfl | hc
  · rcases List.mem_cons.mp hp with rfl | hp
    · exact hd
    · exact hΓ b (by simp) p hp
  · exact hΓ c (by simp [hc]) p hp

/-- Typed declarations have an entry each. -/
theorem DeclsTyped.length {next : DeclId} {Γ Γ' : Context} {ds : List Ast.Decl}
    {ds' : List Declaration} (h : DeclsTyped next Γ ds ds' Γ') : ds'.length = ds.length := by
  induction h with
  | nil => rfl
  | cons _ _ _ ih => rw [List.length_cons, List.length_cons, ih]

mutual

/-- A typed statement lists an entry for each declaration in its tree, those of nested blocks
included. -/
theorem StmtTyped.length :
    ∀ {Γ : Context} {next : DeclId} {s : Ast.Stmt} {s' : Program.Stmt} {ds : List Declaration},
      StmtTyped Γ next s s' ds → ds.length = (Program.astDecls s).length
  | _, _, _, _, _, .assign _ _ _ => by rw [Program.astDecls]; rfl
  | _, _, _, _, _, .ifThen _ hs => by rw [Program.astDecls, hs.length]
  | _, _, _, _, _, .ifElse _ hs ho => by
    rw [Program.astDecls, List.length_append, List.length_append, hs.length, ho.length]
  | _, _, _, _, _, .loop _ hs => by rw [Program.astDecls, hs.length]
  | _, _, _, _, _, .scope hds hss => by
    rw [Program.astDecls, List.length_append, List.length_append, hds.length, hss.length]

theorem StmtsTyped.length :
    ∀ {Γ : Context} {next : DeclId} {ss : List Ast.Stmt} {ss' : List Program.Stmt}
      {ds : List Declaration},
      StmtsTyped Γ next ss ss' ds → ds.length = (Program.astDeclsList ss).length
  | _, _, _, _, _, .nil => by rw [Program.astDeclsList]; rfl
  | _, _, _, _, _, .cons hs hss => by
    rw [Program.astDeclsList, List.length_append, List.length_append, hs.length, hss.length]

end

theorem Context.Named.declareAll {b : Block} {Γ : Context} {next : DeclId} {ds : List Declaration}
    (hΓ : Context.Named (b :: Γ)) (hds : ∀ d ∈ ds, TypeSystem.Named d.type) :
    Context.Named (b.declareAll next ds :: Γ) := by
  induction ds generalizing b next with
  | nil => exact hΓ
  | cons d ds ih => exact ih (hΓ.declare (hds d (by simp))) fun d hd => hds d (by simp [hd])

theorem named_predefinedDecls : ∀ d ∈ Program.predefinedDecls, Named d.type := by
  intro d hd
  obtain ⟨h, -, rfl⟩ := List.mem_map.mp hd
  exact named_hardware h

theorem named_predefinedBlock (next : DeclId) : Context.Named [predefinedBlock next] :=
  Context.Named.declareAll (fun b hb p hp => by simp_all) named_predefinedDecls

/-- Behind typed declarations all that is in scope has a type of the language. -/
theorem DeclsTyped.named {next : DeclId} {Γ Γ' : Context} {ds : List Ast.Decl}
    {ds' : List Declaration} (h : DeclsTyped next Γ ds ds' Γ') (hΓ : Γ.Named) : Γ'.Named := by
  induction h with
  | nil => exact hΓ
  | cons hd _ _ ih => exact ih (hΓ.declare hd.named)

/-! ## Contexts and tables -/

/-- What the rest of a program sees of a declaration. -/
def signature (d : Declaration) : Bytes × Ty × Qualifier := (d.name, d.type, d.qualifier)

/-- A table that has what a context says. -/
def Lists (decls : List Declaration) (Γ : Context) : Prop :=
  ∀ b ∈ Γ, ∀ p ∈ b, (decls.map signature)[p.2.id]? = some (p.1, p.2.type, p.2.qualifier)

section Lists

variable {decls : List Declaration} {Γ : Context}

/-- What is in scope is in the table, under the name, the type and the qualifier that it is known
by. -/
theorem Lists.decl_of_finds (h : Lists decls Γ) {name : Bytes} {x : Variable}
    (hx : Γ.Finds name x) :
    ∃ d, decls[x.id]? = some d ∧ d.name = name ∧ d.type = x.type ∧
      d.qualifier = x.qualifier := by
  obtain ⟨b, hb, hmem⟩ := hx.mem
  have hbound := h b hb _ hmem
  rw [List.getElem?_map] at hbound
  obtain ⟨d, hd, hsig⟩ := Option.map_eq_some_iff.mp hbound
  simp only [signature, Prod.mk.injEq] at hsig
  exact ⟨d, hd, hsig⟩

/-- Only the signatures of the table matter: initializers can be filled in without a change to what
is in scope. -/
theorem Lists.congr {decls' : List Declaration} (h : Lists decls Γ)
    (heq : decls'.map signature = decls.map signature) : Lists decls' Γ := by
  intro b hb p hp
  rw [heq]
  exact h b hb p hp

theorem Lists.push (h : Lists decls Γ) : Lists decls ([] :: Γ) := by
  intro b hb p hp
  rcases List.mem_cons.mp hb with rfl | hb
  · simp at hp
  · exact h b hb p hp

/-- A declaration that is in the table can come into scope. -/
theorem Lists.declare {b : Block} {id : DeclId} {d : Declaration} (h : Lists decls (b :: Γ))
    (hd : decls[id]? = some d) : Lists decls (b.declare id d :: Γ) := by
  intro c hc p hp
  rcases List.mem_cons.mp hc with rfl | hc
  · rcases List.mem_cons.mp hp with rfl | hp
    · rw [List.getElem?_map, hd]
      rfl
    · exact h b (by simp) p hp
  · exact h c (by simp [hc]) p hp

end Lists

end Shader.TypeSystem
