import Shader.Proofs.SalvagedTrees

/-!
# Programs without gaps

What the later passes may rely on, whatever errors a text has: no part of the tree is missing, names
are bound to entries of the table or to nothing, types have at most four components, and the
initializer of a variable is bound to variables declared before it or to predefined ones.

The tree of a text starts out this way, with nothing bound, and the check leaves it so. A diagnostic
changes none of it. So the invariant of the walk does not ask for a quiet run.
-/

namespace Shader

/-- A type of at most four components. One that is not known has none. -/
def Ty.Sized (t : Ty) : Prop := 0 ≤ t.order ∧ t.order ≤ 4

/-- A name that is bound to a variable in `V`, if it is bound. -/
def Ref.Within (V : DeclId → Prop) (ref : Ref) : Prop := ∀ id, ref.decl = some id → V id

namespace Program

mutual

/-- An expression without a missing part, whose types are sized and whose names are bound within
`V`. -/
def Expr.Whole (V : DeclId → Prop) : Expr → Prop
  | .absent => False
  | .int _ _ | .float _ _ | .bool _ _ => True
  | .var ref => ref.Within V
  | .index ref _ type => ref.Within V ∧ type.Sized
  | .unary _ _ x type => x.Whole V ∧ type.Sized
  | .binary _ _ l r type => l.Whole V ∧ r.Whole V ∧ type.Sized
  | .call _ _ args type => Expr.ListWhole V args ∧ type.Sized
  | .construct _ type args => Expr.ListWhole V args ∧ type.Sized

/-- Expressions without a missing part. -/
def Expr.ListWhole (V : DeclId → Prop) : List Expr → Prop
  | [] => True
  | e :: es => e.Whole V ∧ Expr.ListWhole V es

end

mutual

/-- A statement without a missing part, whose declarations and names are in `V`. -/
def Stmt.Whole (V : DeclId → Prop) : Stmt → Prop
  | .absent => False
  | .assign _ target value => target.Whole V ∧ value.Whole V
  | .branch cond yes none => cond.Whole V ∧ yes.Whole V
  | .branch cond yes (some no) => cond.Whole V ∧ yes.Whole V ∧ no.Whole V
  | .loop _ cond body => cond.Whole V ∧ body.Whole V
  | .scope ids ss => (∀ id ∈ ids, V id) ∧ Stmt.ListWhole V ss

/-- Statements without a missing part. -/
def Stmt.ListWhole (V : DeclId → Prop) : List Stmt → Prop
  | [] => True
  | s :: ss => s.Whole V ∧ Stmt.ListWhole V ss

end

/-- The variables that are known at the place `id` of a table of `size` entries: those at earlier
places, and the predefined ones, at `n` and behind. -/
def Known (n size id i : Nat) : Prop := i < size ∧ (i < id ∨ n ≤ i)

/-- A table in which initializers look back. The shader's own declarations are those before `n`. -/
structure Ordered (n : Nat) (decls : List Declaration) : Prop where
  types : ∀ d ∈ decls, d.type.Sized
  inits : ∀ (id : Nat) (d : Declaration) (e : Expr), decls[id]? = some d → d.init = some e →
    id < n ∧ e.Whole (Known n decls.length id)

/-- A program without gaps. -/
structure Intact (p : Program) : Prop where
  table : ∃ n ≤ p.decls.length, Ordered n p.decls
  body : ∃ body, p.body = some body ∧
    (Stmt.scope body.decls body.stmts).Whole (· < p.decls.length)

section Whole

variable {V W : DeclId → Prop}

mutual

/-- An expression that is bound within some variables is bound within more. -/
theorem Expr.Whole.mono (hVW : ∀ id, V id → W id) : ∀ {e : Expr}, e.Whole V → e.Whole W
  | .absent, h => h
  | .int _ _, _ | .float _ _, _ | .bool _ _, _ => trivial
  | .var _, h => fun id hid => hVW id (h id hid)
  | .index _ _ _, h => ⟨fun id hid => hVW id (h.1 id hid), h.2⟩
  | .unary _ _ _ _, h => ⟨h.1.mono hVW, h.2⟩
  | .binary _ _ _ _ _, h => ⟨h.1.mono hVW, h.2.1.mono hVW, h.2.2⟩
  | .call _ _ _ _, h => ⟨h.1.mono hVW, h.2⟩
  | .construct _ _ _, h => ⟨h.1.mono hVW, h.2⟩

theorem Expr.ListWhole.mono (hVW : ∀ id, V id → W id) :
    ∀ {es : List Expr}, Expr.ListWhole V es → Expr.ListWhole W es
  | [], _ => trivial
  | _ :: _, h => ⟨h.1.mono hVW, h.2.mono hVW⟩

end

/-- What is known at a place is known at every later one. -/
theorem Known.mono {n size k k' i : Nat} (hk : k ≤ k') (h : Known n size k i) :
    Known n size k' i :=
  ⟨h.1, h.2.imp_left fun hi => Nat.lt_of_lt_of_le hi hk⟩

/-- An initializer may be replaced by one that looks back too. -/
theorem Ordered.setInit {n id : Nat} {decls : List Declaration} {e : Expr} (h : Ordered n decls)
    (hid : id < n) (he : e.Whole (Known n decls.length id)) :
    Ordered n (decls.modify id fun d => { d with init := some e }) := by
  constructor
  · intro d hd
    obtain ⟨i, hi⟩ := List.mem_iff_getElem?.mp hd
    rw [List.getElem?_modify] at hi
    obtain ⟨d', hd', rfl⟩ := Option.map_eq_some_iff.mp hi
    have hsized : d'.type.Sized := h.types d' (List.mem_of_getElem? hd')
    split <;> exact hsized
  · intro i d e' hi hinit
    rw [List.length_modify]
    rw [List.getElem?_modify] at hi
    obtain ⟨d', hd', rfl⟩ := Option.map_eq_some_iff.mp hi
    by_cases heq : id = i
    · subst heq
      simp only [if_true, Option.some.injEq] at hinit
      subst hinit
      exact ⟨hid, he⟩
    · simp only [heq, if_false] at hinit
      exact h.inits i d' e' hd' hinit

end Whole

end Program

/-! ## Types -/

/-- Types of the language have at most four components. -/
theorem sized_of_named {t : Ty} (h : TypeSystem.Named t) : t.Sized :=
  ⟨Int.le_trans (by decide) h.2.1, h.2.2⟩

theorem sized_invalid : Ty.invalid.Sized := ⟨by decide, by decide⟩

theorem sized_one (base : BaseType) : Ty.Sized ⟨base, 1⟩ := by simp [Ty.Sized]

/-- The type of a name is one of the table, or is not known. -/
theorem sized_refType {decls : List Declaration} (h : ∀ d ∈ decls, d.type.Sized) (ref : Ref) :
    (Program.refType decls ref).Sized := by
  unfold Program.refType
  split
  · rename_i d hd
    obtain ⟨id, -, hid⟩ := Option.bind_eq_some_iff.mp hd
    exact h d (List.mem_of_getElem? hid)
  · exact sized_invalid

theorem sized_unaryResult {op : UnaryOp} {t t' : Ty} (ht : t.Sized)
    (h : Typing.unaryResult? op t = some t') : t'.Sized := by
  unfold Typing.unaryResult? at h
  grind

/-- No rule makes a type of more components than those of its operands. -/
theorem sized_binaryResult {op : BinaryOp} {l r t : Ty} (hl : l.Sized) (hr : r.Sized)
    (h : Typing.binaryResult? op l r = some t) : t.Sized := by
  unfold Typing.binaryResult? Typing.productResult? at h
  have hbool : Ty.bool.Sized := sized_one .bool
  grind

theorem sized_result {f : Function} {args : List Ty} {t : Ty} (h : f.result? args = some t) :
    t.Sized := by
  have hmem : ∀ p ∈ f.signatures, p.2.Sized := by
    unfold Ty.Sized
    cases f <;> decide
  obtain ⟨l₁, l₂, heq, -⟩ := List.lookup_eq_some_iff.mp h
  exact hmem (args, t) (by simp [heq])

namespace Checker

open Program

/-! ## The tree of a text -/

section OfAst

variable {V : DeclId → Prop}

theorem whole_ofVar (v : Ast.Var) : (Expr.ofVar v).Whole V := by
  unfold Expr.ofVar
  split
  · intro id hid
    cases hid
  · refine ⟨fun id hid => ?_, sized_invalid⟩
    cases hid

mutual

/-- The tree of a text begins with all its parts, with no type known and nothing bound. -/
theorem whole_ofAst : ∀ {e : Ast.Expr}, NamedExpr e → (Expr.ofAst e).Whole V
  | .int _ _, _ | .float _ _, _ | .bool _ _, _ => by
    rw [Expr.ofAst]
    trivial
  | .var v, _ => by
    rw [Expr.ofAst]
    exact whole_ofVar v
  | .unary _ _ _, h => ⟨whole_ofAst h, sized_invalid⟩
  | .binary _ _ _ _, h => ⟨whole_ofAst h.1, whole_ofAst h.2, sized_invalid⟩
  | .call _ _ _, h => ⟨whole_ofAsts h, sized_invalid⟩
  | .construct _ _ _, h => ⟨whole_ofAsts h.2, sized_of_named h.1⟩

theorem whole_ofAsts : ∀ {es : List Ast.Expr}, NamedExprs es → Expr.ListWhole V (Expr.ofAsts es)
  | [], _ => trivial
  | _ :: _, h => ⟨whole_ofAst h.1, whole_ofAsts h.2⟩

end

mutual

/-- The declarations of a statement have the places that were counted for them, so all are within
the table. -/
theorem whole_stmt_ofAst {size : Nat} : ∀ {next : Nat} {st : Ast.Stmt}, NamedStmt st →
    next + (astDecls st).length ≤ size → (Stmt.ofAst next st).Whole (· < size)
  | next, .assign target _, h, _ => ⟨whole_ofVar target, whole_ofAst h⟩
  | next, .branch _ yes none, h, hsize => ⟨whole_ofAst h.1, whole_stmt_ofAst h.2 hsize⟩
  | next, .branch _ yes (some no), h, hsize => by
    rw [astDecls, List.length_append] at hsize
    exact ⟨whole_ofAst h.1, whole_stmt_ofAst h.2.1 (by omega), whole_stmt_ofAst h.2.2 (by omega)⟩
  | next, .loop _ _ body, h, hsize => ⟨whole_ofAst h.1, whole_stmt_ofAst h.2 hsize⟩
  | next, .scope decls stmts, h, hsize => by
    rw [astDecls, List.length_append] at hsize
    refine ⟨fun id hid => ?_, whole_stmts_ofAsts h.2 (by omega)⟩
    have hid' : id < next + decls.length := (List.mem_range'_1.mp hid).2
    exact Nat.lt_of_lt_of_le hid' (by omega)

theorem whole_stmts_ofAsts {size : Nat} : ∀ {next : Nat} {ss : List Ast.Stmt}, NamedStmts ss →
    next + (astDeclsList ss).length ≤ size → Stmt.ListWhole (· < size) (Stmt.ofAsts next ss)
  | _, [], _, _ => trivial
  | next, s :: ss, h, hsize => by
    rw [astDeclsList, List.length_append] at hsize
    exact ⟨whole_stmt_ofAst h.1 (by omega), whole_stmts_ofAsts h.2 (by omega)⟩

end

mutual

/-- The declarations of a statement, those of nested blocks included, have types of the language. -/
theorem namedDecls_of_namedStmt : ∀ {st : Ast.Stmt}, NamedStmt st → ∀ d ∈ astDecls st, NamedDecl d
  | .assign _ _, _ => fun _ hd => by cases hd
  | .branch _ yes none, h => by
    rw [astDecls]
    exact namedDecls_of_namedStmt h.2
  | .branch _ _ (some _), h => by
    intro d hd
    rcases List.mem_append.mp hd with hd | hd
    · exact namedDecls_of_namedStmt h.2.1 d hd
    · exact namedDecls_of_namedStmt h.2.2 d hd
  | .loop _ _ body, h => by
    rw [astDecls]
    exact namedDecls_of_namedStmt h.2
  | .scope _ _, h => by
    intro d hd
    rcases List.mem_append.mp hd with hd | hd
    · exact h.1 d hd
    · exact namedDecls_of_namedStmts h.2 d hd

theorem namedDecls_of_namedStmts : ∀ {ss : List Ast.Stmt}, NamedStmts ss →
    ∀ d ∈ astDeclsList ss, NamedDecl d
  | [], _ => fun _ hd => by cases hd
  | _ :: _, h => by
    intro d hd
    rcases List.mem_append.mp hd with hd | hd
    · exact namedDecls_of_namedStmt h.1 d hd
    · exact namedDecls_of_namedStmts h.2 d hd

end

/-- A table of declarations of a text, with variables without initializers behind them. -/
theorem ordered_declOfAst {ds : List Ast.Decl} {more : List Declaration}
    (hds : ∀ d ∈ ds, NamedDecl d) (hmore : ∀ d ∈ more, d.type.Sized ∧ d.init = none) :
    Ordered ds.length (ds.map declOfAst ++ more) := by
  constructor
  · intro d hd
    rcases List.mem_append.mp hd with hd | hd
    · obtain ⟨d', hd', rfl⟩ := List.mem_map.mp hd
      exact sized_of_named (hds d' hd').1
    · exact (hmore d hd).1
  · intro id d e hid hinit
    by_cases hlt : id < ds.length
    · refine ⟨hlt, ?_⟩
      rw [List.getElem?_append_left (by simpa using hlt), List.getElem?_map] at hid
      obtain ⟨d', hd', rfl⟩ := Option.map_eq_some_iff.mp hid
      obtain ⟨e', he', rfl⟩ := Option.map_eq_some_iff.mp hinit
      exact whole_ofAst ((hds d' (List.mem_of_getElem? hd')).2 e' he')
    · rw [List.getElem?_append_right (by simpa using hlt)] at hid
      rw [(hmore d (List.mem_of_getElem? hid)).2] at hinit
      cases hinit

/-- **The tree of a text has no gaps.** -/
theorem intact_ofAst {body : Ast.Scope} (h : NamedStmt body.toStmt) :
    (Program.ofAst body).Intact where
  table := by
    refine ⟨(astDecls body.toStmt).length, by simp [Program.ofAst], ?_⟩
    have htable : Ordered (astDecls body.toStmt).length
        ((astDecls body.toStmt).map declOfAst ++ []) :=
      ordered_declOfAst (namedDecls_of_namedStmt h) (by simp)
    rwa [List.append_nil] at htable
  body := by
    refine ⟨_, rfl, ?_⟩
    have hbody : (Stmt.ofAst 0 body.toStmt).Whole (· < (astDecls body.toStmt).length) :=
      whole_stmt_ofAst h (by omega)
    rw [Ast.Scope.toStmt, Stmt.ofAst] at hbody
    simpa [Program.ofAst, Ast.Scope.toStmt] using hbody

end OfAst

/-! ## Steps of the check -/

/-- A step that leads from states in `I` to states in `J` and gives a value in `Q`. -/
def Leads {α : Type} (I J : State → Prop) (m : CheckM α) (Q : α → Prop) : Prop :=
  ∀ s, I s → J (exec m s).2 ∧ Q (exec m s).1

section Leads

variable {α β : Type} {I J K : State → Prop} {P : α → Prop} {Q : β → Prop}

theorem leads_pure {b : β} (h : Q b) : Leads I I (pure b) Q := fun _ hs => ⟨hs, h⟩

/-- Steps that lead from one kind of states to the next can follow each other. -/
theorem leads_bind {m : CheckM α} {f : α → CheckM β} (hm : Leads I J m P)
    (hf : ∀ a, P a → Leads J K (f a) Q) : Leads I K (m >>= f) Q := by
  intro s hs
  obtain ⟨hj, hp⟩ := hm s hs
  exact hf _ hp _ hj

theorem leads_get_bind {f : State → CheckM β} (hf : ∀ s, I s → Leads I J (f s) Q) :
    Leads I J (get >>= f) Q := fun s hs => hf s hs s hs

theorem leads_modify {f : State → State} (h : ∀ s, I s → J (f s)) :
    Leads I J (modify f) fun _ => True := fun s hs => ⟨h s hs, trivial⟩

theorem leads_ite {c : Prop} [Decidable c] {m m' : CheckM β} (h : Leads I J m Q)
    (h' : Leads I J m' Q) : Leads I J (if c then m else m') Q := by
  split
  · exact h
  · exact h'

/-- In a check that goes on no step is skipped. -/
theorem leads_whileRunning {b : β} {m : CheckM β} (hI : ∀ s, I s → s.stopped = none)
    (h : Leads I J m Q) : Leads I J (whileRunning b m) Q := by
  intro s hs
  have hrun : s.running = true := by simp [State.running, hI s hs]
  rw [exec_whileRunning, if_pos hrun]
  exact h s hs

end Leads

/-- A check that goes on, with the table `D` and with variables in `V` in its open blocks. -/
structure Scoped (V : DeclId → Prop) (D : List Declaration) (s : State) : Prop where
  stopped : s.stopped = none
  decls : s.decls = D
  scopes : ∀ b ∈ s.scopes, ∀ p ∈ b, V p.2

/-- A step that adds diagnostics at most. -/
abbrev Steady {α : Type} (V : DeclId → Prop) (D : List Declaration) (m : CheckM α)
    (Q : α → Prop) : Prop := Leads (Scoped V D) (Scoped V D) m Q

section Expr

variable {V : DeclId → Prop} {D : List Declaration} {s : State}

/-- A diagnostic changes neither the table nor the open blocks. -/
theorem Scoped.report (h : Scoped V D s) (pos : Pos) (c : Complaint) :
    Scoped V D (s.report pos c) := by
  unfold State.report
  split
  · exact ⟨h.stopped, h.decls, h.scopes⟩
  · exact h

/-- A name that is found is one of the variables that may be in scope. -/
theorem Scoped.of_lookup? (h : Scoped V D s) {name : Bytes} {id : DeclId}
    (hid : s.lookup? name = some id) : V id := by
  obtain ⟨b, hb, hid⟩ := List.exists_of_findSome?_eq_some hid
  obtain ⟨l₁, l₂, rfl, -⟩ := List.lookup_eq_some_iff.mp hid
  exact h.scopes _ hb (name, id) (by simp)

theorem steady_report (pos : Pos) (c : Complaint) : Steady V D (report pos c) fun _ => True :=
  leads_modify fun _ hs => hs.report pos c

theorem steady_complain {α : Type} {Q : α → Prop} {a : α} (pos : Pos) (c : Complaint) (h : Q a) :
    Steady V D (report pos c >>= fun _ => pure a) Q :=
  leads_bind (steady_report pos c) fun _ _ => leads_pure h

/-- A name is bound to what it finds, or is left as it was. -/
theorem steady_resolve (hD : ∀ d ∈ D, d.type.Sized) {ref : Ref} (href : ref.Within V) :
    Steady V D (resolve ref) fun r => r.1.Within V ∧ r.2.Sized := by
  refine leads_get_bind fun s hs => ?_
  dsimp only
  split
  · rename_i id hid
    refine leads_pure ⟨fun i hi => ?_, hs.decls ▸ sized_refType hD _⟩
    cases hi
    exact hs.of_lookup? hid
  · exact steady_complain _ _ ⟨href, sized_invalid⟩

theorem steady_qualifier? (ref : Ref) : Steady V D (qualifier? ref) fun _ => True :=
  leads_get_bind fun _ _ => leads_pure trivial

theorem steady_readable (ref : Ref) : Steady V D (readable ref) fun _ => True :=
  leads_bind (steady_qualifier? ref) fun _ _ =>
    leads_ite (steady_complain _ _ trivial) (leads_pure trivial)

theorem steady_component (ref : Ref) (i : Int) {old : Ty} (hold : old.Sized) :
    Steady V D (component ref i old) fun r => r.1.Sized ∧ r.2.Sized := by
  refine leads_get_bind fun s _ => leads_ite (leads_pure ⟨hold, sized_invalid⟩) ?_
  refine leads_ite (steady_complain _ _ ⟨hold, sized_invalid⟩) ?_
  refine leads_ite (steady_complain _ _ ⟨hold, sized_invalid⟩) ?_
  exact leads_pure ⟨sized_one _, sized_one _⟩

/-- The type that is found is kept, and both are sized. -/
theorem steady_settle {old found : Ty} (hold : old.Sized) (hfound : found.Sized) :
    Steady V D (settle old found) Ty.Sized :=
  leads_get_bind fun s _ => leads_pure (by split <;> assumption)

theorem steady_unaryType (pos : Pos) (op : UnaryOp) {t : Ty} (ht : t.Sized) :
    Steady V D (unaryType pos op t) Ty.Sized := by
  refine leads_ite (leads_pure sized_invalid) ?_
  split
  · rename_i h
    exact leads_pure (sized_unaryResult ht h)
  · exact steady_complain _ _ sized_invalid

theorem steady_binaryType (pos : Pos) (op : BinaryOp) {l r : Ty} (hl : l.Sized) (hr : r.Sized) :
    Steady V D (binaryType pos op l r) Ty.Sized := by
  refine leads_ite (leads_pure sized_invalid) ?_
  split
  · rename_i h
    exact leads_pure (sized_binaryResult hl hr h)
  · exact steady_complain _ _ sized_invalid

theorem steady_callType (pos : Pos) (func : Bytes) (args : List Ty) :
    Steady V D (callType pos func args) Ty.Sized := by
  unfold callType
  split
  · exact steady_complain _ _ sized_invalid
  · refine leads_ite (leads_pure sized_invalid) ?_
    split
    · rename_i h
      exact leads_pure (sized_result h)
    · exact steady_complain _ _ sized_invalid

theorem steady_componentFits (type : Ty) (pos : Pos) (given : Ty) :
    Steady V D (componentFits type pos given) fun _ => True :=
  leads_ite (leads_pure trivial) (leads_ite (steady_complain _ _ trivial) (leads_pure trivial))

mutual

/-- **The check of an expression leaves it whole**: it binds names within what is in scope, and
fills in sized types. -/
theorem steady_checkExpr (hD : ∀ d ∈ D, d.type.Sized) : ∀ {e : Expr}, e.Whole V →
    Steady V D (checkExpr e) fun r => r.1.Whole V ∧ r.2.Sized
  | .int _ _, _ => by
    rw [checkExpr]
    exact leads_pure ⟨trivial, sized_one _⟩
  | .float _ _, _ => by
    rw [checkExpr]
    exact leads_pure ⟨trivial, sized_one _⟩
  | .bool _ _, _ => by
    rw [checkExpr]
    exact leads_pure ⟨trivial, sized_one _⟩
  | .var _, h => by
    rw [checkExpr]
    refine leads_whileRunning (fun _ hs => hs.stopped) ?_
    refine leads_bind (steady_resolve hD h) fun r hr => leads_ite (leads_pure hr) ?_
    exact leads_bind (steady_readable _) fun _ _ =>
      leads_ite (leads_pure hr) (leads_pure ⟨hr.1, sized_invalid⟩)
  | .index _ i old, h => by
    rw [checkExpr]
    refine leads_whileRunning (fun _ hs => hs.stopped) ?_
    refine leads_bind (steady_resolve hD h.1) fun r hr => ?_
    refine leads_ite (leads_pure ⟨⟨hr.1, h.2⟩, sized_invalid⟩) ?_
    refine leads_bind (steady_readable _) fun _ _ => ?_
    refine leads_ite ?_ (leads_pure ⟨⟨hr.1, h.2⟩, sized_invalid⟩)
    exact leads_bind (steady_component _ i h.2) fun c hc => leads_pure ⟨⟨hr.1, hc.1⟩, hc.2⟩
  | .unary pos op _ _, h => by
    rw [checkExpr]
    refine leads_bind (steady_checkExpr hD h.1) fun x hx => ?_
    refine leads_bind (steady_unaryType pos op hx.2) fun t ht => ?_
    exact leads_bind (steady_settle h.2 ht) fun t ht => leads_pure ⟨⟨hx.1, ht⟩, ht⟩
  | .binary pos op _ _ _, h => by
    rw [checkExpr]
    refine leads_bind (steady_checkExpr hD h.1) fun l hl => ?_
    refine leads_bind (steady_checkExpr hD h.2.1) fun r hr => ?_
    refine leads_bind (steady_binaryType pos op hl.2 hr.2) fun t ht => ?_
    exact leads_bind (steady_settle h.2.2 ht) fun t ht => leads_pure ⟨⟨hl.1, hr.1, ht⟩, ht⟩
  | .call pos func _ _, h => by
    rw [checkExpr]
    refine leads_bind (steady_checkArgs hD h.1) fun args hargs => ?_
    refine leads_bind (steady_callType pos func _) fun t ht => ?_
    exact leads_bind (steady_settle h.2 ht) fun t ht => leads_pure ⟨⟨hargs, ht⟩, ht⟩
  | .construct pos type _, h => by
    rw [checkExpr]
    refine leads_bind (steady_checkComponents hD type h.1) fun args hargs => ?_
    exact leads_ite (steady_complain _ _ ⟨⟨hargs, h.2⟩, h.2⟩) (leads_pure ⟨⟨hargs, h.2⟩, h.2⟩)

theorem steady_checkArgs (hD : ∀ d ∈ D, d.type.Sized) : ∀ {es : List Expr}, Expr.ListWhole V es →
    Steady V D (checkArgs es) fun r => Expr.ListWhole V r.1
  | [], _ => by
    rw [checkArgs]
    exact leads_pure trivial
  | _ :: _, h => by
    rw [checkArgs]
    exact leads_bind (steady_checkExpr hD h.1) fun e he =>
      leads_bind (steady_checkArgs hD h.2) fun es hes => leads_pure ⟨he.1, hes⟩

theorem steady_checkComponents (hD : ∀ d ∈ D, d.type.Sized) (type : Ty) : ∀ {es : List Expr},
    Expr.ListWhole V es → Steady V D (checkComponents type es) fun r => Expr.ListWhole V r.1
  | [], _ => by
    rw [checkComponents]
    exact leads_pure trivial
  | _ :: _, h => by
    rw [checkComponents]
    exact leads_bind (steady_checkExpr hD h.1) fun e he =>
      leads_bind (steady_componentFits _ _ _) fun _ _ =>
        leads_bind (steady_checkComponents hD type h.2) fun es hes => leads_pure ⟨he.1, hes⟩

end

theorem steady_checkCondition (hD : ∀ d ∈ D, d.type.Sized) (c : Conditional) {e : Expr}
    (h : e.Whole V) : Steady V D (checkCondition c e) (Expr.Whole V) :=
  leads_bind (steady_checkExpr hD h) fun _ hr =>
    leads_ite (steady_complain _ _ hr.1) (leads_pure hr.1)

theorem steady_boundName (ref : Ref) : Steady V D (boundName ref) fun _ => True :=
  leads_get_bind fun _ _ => leads_pure trivial

theorem steady_checkWrite (pos : Pos) (ref : Ref) (target value : Ty) :
    Steady V D (checkWrite pos ref target value) fun _ => True := by
  refine leads_bind (steady_qualifier? ref) fun q _ => ?_
  split
  · exact leads_bind (steady_boundName _) fun _ _ => steady_report _ _
  · exact leads_bind (steady_boundName _) fun _ _ => steady_report _ _
  · exact leads_bind (steady_boundName _) fun _ _ => steady_report _ _
  · exact leads_ite (steady_report _ _) (leads_pure trivial)

/-- The same for what is assigned to, though a target that is none is left as it is. -/
theorem steady_checkTarget (hD : ∀ d ∈ D, d.type.Sized) (pos : Pos) {target : Expr} (value : Ty)
    (h : target.Whole V) : Steady V D (checkTarget pos target value) (Expr.Whole V) := by
  refine leads_whileRunning (fun _ hs => hs.stopped) ?_
  split
  · exact leads_bind (steady_resolve hD h) fun r hr =>
      leads_bind (steady_checkWrite _ _ _ _) fun _ _ => leads_pure hr.1
  · exact leads_bind (steady_resolve hD h.1) fun r hr =>
      leads_bind (steady_component _ _ h.2) fun c hc =>
        leads_bind (steady_checkWrite _ _ _ _) fun _ _ => leads_pure ⟨hr.1, hc.1⟩
  · exact steady_complain _ _ h

end Expr

/-! ## The walk -/

/-- A check that goes on and has declared the variables before the place `next`, in an ordered table
of `size` entries of which `n` are the shader's own. -/
def Walking (n size next : Nat) (s : State) : Prop :=
  ∃ D, D.length = size ∧ Ordered n D ∧ Scoped (Known n size next) D s

section Walk

variable {n size next : Nat} {s : State}

theorem Walking.stopped : Walking n size next s → s.stopped = none
  | ⟨_, _, _, hs⟩ => hs.stopped

theorem Walking.mono {next' : Nat} (hnext : next ≤ next') :
    Walking n size next s → Walking n size next' s
  | ⟨D, hlen, hD, hs⟩ =>
    ⟨D, hlen, hD, hs.stopped, hs.decls, fun b hb p hp => (hs.scopes b hb p hp).mono hnext⟩

/-- A block that is opened has nothing in scope yet. -/
theorem Walking.push : Walking n size next s → Walking n size next s.push
  | ⟨D, hlen, hD, hs⟩ => by
    refine ⟨D, hlen, hD, hs.stopped, hs.decls, fun b hb => ?_⟩
    rcases List.mem_cons.mp hb with rfl | hb
    · intro p hp
      cases hp
    · exact hs.scopes b hb

/-- A block that is closed takes its names out of scope, and nothing else changes. -/
theorem Walking.pop : Walking n size next s → Walking n size next s.pop
  | ⟨D, hlen, hD, hs⟩ =>
    ⟨D, hlen, hD, hs.stopped, hs.decls, fun b hb => hs.scopes b (List.mem_of_mem_tail hb)⟩

/-- A declaration comes into scope, unless its name is taken. -/
theorem Scoped.declare {V : DeclId → Prop} {D : List Declaration} {id : DeclId} (h : Scoped V D s)
    (hid : V id) : Scoped V D (s.declare id) := by
  unfold State.declare
  split
  · rename_i d top outer hrun hd hscopes
    split
    · split <;> exact h.report _ _
    · refine ⟨h.stopped, h.decls, fun b hb => ?_⟩
      rcases List.mem_cons.mp hb with rfl | hb
      · intro p hp
        rcases List.mem_cons.mp hp with rfl | hp
        · exact hid
        · exact h.scopes top (by simp [hscopes]) p hp
      · exact h.scopes b (by simp [hscopes, hb])
  · exact h

theorem leads_declare {id : DeclId} (hid : Known n size next id) :
    Leads (Walking n size next) (Walking n size next) (modify (·.declare id)) fun _ => True :=
  leads_modify fun _ ⟨D, hlen, hD, hs⟩ => ⟨D, hlen, hD, hs.declare hid⟩

theorem leads_declares : ∀ {ids : List DeclId}, (∀ id ∈ ids, Known n size next id) →
    Leads (Walking n size next) (Walking n size next)
      (ids.forM fun id => modify (·.declare id)) fun _ => True
  | [], _ => leads_pure trivial
  | id :: ids, h =>
    leads_bind (leads_declare (h id (by simp))) fun _ _ =>
      leads_declares fun i hi => h i (by simp [hi])

/-- A step that adds diagnostics at most can be made anywhere on the walk. -/
theorem leads_of_steady {α : Type} {m : CheckM α} {Q : α → Prop}
    (h : ∀ D, (∀ d ∈ D, d.type.Sized) → Steady (Known n size next) D m Q) :
    Leads (Walking n size next) (Walking n size next) m Q := by
  intro s ⟨D, hlen, hD, hs⟩
  obtain ⟨hs', hq⟩ := h D hD.types s hs
  exact ⟨⟨D, hlen, hD, hs'⟩, hq⟩

/-- A declaration, whose initializer is checked while the variable is not known yet. -/
theorem leads_checkDecl {id : Nat} (hid : id < n) (hn : n ≤ size) :
    Leads (Walking n size id) (Walking n size (id + 1)) (checkDecl id) fun _ => True := by
  refine leads_whileRunning (fun _ hs => hs.stopped) ?_
  intro s ⟨D, hlen, hD, hs⟩
  rw [exec_bind, exec_get]
  dsimp only
  rw [hs.decls]
  -- what is behind the initializer
  have hend : ∀ D', D'.length = size → Ordered n D' →
      Leads (Scoped (Known n size id) D') (Walking n size (id + 1)) (modify (·.declare id))
        fun _ => True := by
    intro D' hlen' hD' s' hs'
    have hwalk : Walking n size (id + 1) s' :=
      Walking.mono (Nat.le_succ id) ⟨D', hlen', hD', hs'⟩
    exact leads_declare ⟨Nat.lt_of_lt_of_le hid hn, .inl (Nat.lt_succ_self id)⟩ s' hwalk
  refine (?_ : Leads (Scoped (Known n size id) D) (Walking n size (id + 1)) _ fun _ => True) s hs
  split
  · intro s' hs'
    exact ⟨Walking.mono (Nat.le_succ id) ⟨D, hlen, hD, hs'⟩, trivial⟩
  · rename_i d hd
    split
    · exact leads_ite (leads_bind (steady_report _ _) fun _ _ => hend D hlen hD) (hend D hlen hD)
    · rename_i init hinit
      obtain ⟨-, hwhole⟩ := hD.inits id d init hd hinit
      rw [hlen] at hwhole
      refine leads_bind (steady_checkExpr hD.types hwhole) fun r hr => ?_
      have hD' : Ordered n (D.modify id fun d => { d with init := some r.1 }) :=
        hD.setInit hid (by rw [hlen]; exact hr.1)
      have hlen' : (D.modify id fun d => { d with init := some r.1 }).length = size := by
        rw [List.length_modify, hlen]
      have hset : Leads (Scoped (Known n size id) D)
          (Scoped (Known n size id) (D.modify id fun d => { d with init := some r.1 }))
          (modify (·.setInit id r.1)) fun _ => True := by
        refine leads_modify fun s' hs' => ⟨hs'.stopped, ?_, hs'.scopes⟩
        rw [State.setInit, hs'.decls]
      refine leads_bind hset fun _ _ => ?_
      exact leads_ite (leads_bind (steady_report _ _) fun _ _ => hend _ hlen' hD')
        (hend _ hlen' hD')

/-- Declarations in order: the place of the next one moves along. -/
theorem leads_checkDecls (hn : n ≤ size) : ∀ (count next : Nat), next + count ≤ n →
    Leads (Walking n size next) (Walking n size (next + count))
      ((List.range' next count).forM checkDecl) fun _ => True
  | 0, _, _ => leads_pure trivial
  | count + 1, next, h => by
    have hrest := leads_checkDecls hn count (next + 1) (by omega)
    rw [Nat.add_right_comm] at hrest
    exact leads_bind (leads_checkDecl (by omega) hn) fun _ _ => hrest

/-- A part of a statement, behind which nothing more is known. -/
theorem leads_part {α : Type} {m : CheckM α} {e : α → Expr}
    (h : ∀ D, (∀ d ∈ D, d.type.Sized) →
      Steady (Known n size next) D m fun r => (e r).Whole (Known n size next)) :
    Leads (Walking n size next) (Walking n size next) m fun r => (e r).Whole (· < size) := by
  intro s hs
  obtain ⟨hs', hr⟩ := leads_of_steady h s hs
  exact ⟨hs', hr.mono fun _ hid => hid.1⟩

theorem leads_condition (c : Conditional) {e : Ast.Expr} (he : NamedExpr e) :
    Leads (Walking n size next) (Walking n size next) (checkCondition c (Expr.ofAst e))
      (Expr.Whole (· < size)) :=
  leads_part (e := id) fun _ hD => steady_checkCondition hD c (whole_ofAst he)

mutual

/-- **A statement leads on by the number of its declarations**, without a gap in what it leaves. -/
theorem leads_checkStmt (hn : n ≤ size) : ∀ {next : Nat} {st : Ast.Stmt}, NamedStmt st →
    next + (astDecls st).length ≤ n →
    Leads (Walking n size next) (Walking n size (next + (astDecls st).length))
      (checkStmt (Stmt.ofAst next st)) (Stmt.Whole (· < size))
  | next, .assign target value, h, _ => by
    rw [Stmt.ofAst, checkStmt, astDecls]
    refine leads_bind (leads_part (e := Prod.fst) fun D hD s hs => ?_) fun v hv => ?_
    · obtain ⟨hs', hr⟩ := steady_checkExpr hD (whole_ofAst h) s hs
      exact ⟨hs', hr.1⟩
    · exact leads_bind (leads_part (e := id) fun D hD =>
        steady_checkTarget hD _ _ (whole_ofVar target)) fun _ ht => leads_pure ⟨ht, hv⟩
  | next, .branch c yes none, h, hnext => by
    rw [Stmt.ofAst, checkStmt]
    exact leads_bind (leads_condition .branch h.1) fun _ hc =>
      leads_bind (leads_checkStmt hn h.2 hnext) fun _ hyes => leads_pure ⟨hc, hyes⟩
  | next, .branch c yes (some no), h, hnext => by
    rw [astDecls, List.length_append] at hnext
    rw [Stmt.ofAst, checkStmt, astDecls, List.length_append, ← Nat.add_assoc]
    exact leads_bind (leads_condition .branch h.1) fun _ hc =>
      leads_bind (leads_checkStmt hn h.2.1 (by omega)) fun _ hyes =>
        leads_bind (leads_checkStmt hn h.2.2 (by omega)) fun _ hno => leads_pure ⟨hc, hyes, hno⟩
  | next, .loop pos c body, h, hnext => by
    rw [Stmt.ofAst, checkStmt]
    exact leads_bind (leads_condition .loop h.1) fun _ hc =>
      leads_bind (leads_checkStmt hn h.2 hnext) fun _ hbody => leads_pure ⟨hc, hbody⟩
  | next, .scope decls stmts, h, hnext => by
    rw [astDecls, List.length_append] at hnext
    rw [Stmt.ofAst, checkStmt, astDecls, List.length_append, ← Nat.add_assoc]
    refine leads_bind (leads_modify fun _ hs => hs.push) fun _ _ => ?_
    refine leads_bind (leads_checkDecls hn _ _ (by omega)) fun _ _ => ?_
    refine leads_bind (leads_checkStmts hn h.2 (by omega)) fun _ hss => ?_
    refine leads_bind (leads_modify fun _ hs => hs.pop) fun _ _ => ?_
    refine leads_pure ⟨fun id hid => ?_, hss⟩
    have hlt : id < next + decls.length := (List.mem_range'_1.mp hid).2
    exact Nat.lt_of_lt_of_le hlt (by omega)

/-- Statements in order, each from the place that the one before has reached. -/
theorem leads_checkStmts (hn : n ≤ size) : ∀ {next : Nat} {ss : List Ast.Stmt}, NamedStmts ss →
    next + (astDeclsList ss).length ≤ n →
    Leads (Walking n size next) (Walking n size (next + (astDeclsList ss).length))
      (checkStmts (Stmt.ofAsts next ss)) (Stmt.ListWhole (· < size))
  | _, [], _, _ => by
    rw [Stmt.ofAsts, checkStmts, astDeclsList]
    exact leads_pure trivial
  | next, s :: ss, h, hnext => by
    rw [astDeclsList, List.length_append] at hnext
    rw [Stmt.ofAsts, checkStmts, astDeclsList, List.length_append, ← Nat.add_assoc]
    exact leads_bind (leads_checkStmt hn h.1 (by omega)) fun _ hs =>
      leads_bind (leads_checkStmts hn h.2 (by omega)) fun _ hss => leads_pure ⟨hs, hss⟩

end

end Walk

/-- The whole walk: the predefined variables come into scope first, though they stand behind all
others in the table. -/
theorem leads_walk {body : Ast.Scope} {n size : Nat} (h : NamedStmt body.toStmt)
    (hn : n = (astDecls body.toStmt).length) (hsize : size = n + predefinedDecls.length) :
    Leads (Walking n size 0) (Walking n size n) (walk body) (Stmt.ListWhole (· < size)) := by
  have hlen : n = body.decls.length + (astDeclsList body.stmts).length := by
    rw [hn, astDecls_toStmt, List.length_append]
  refine leads_bind (leads_modify fun _ hs => hs.push) fun _ _ => ?_
  refine leads_bind (leads_declares fun id hid => ?_) fun _ _ => ?_
  · rw [List.length_map, ← hn] at hid
    have hrange := List.mem_range'_1.mp hid
    exact ⟨hsize ▸ hrange.2, .inr hrange.1⟩
  · refine leads_bind (leads_checkDecls (by omega) body.decls.length 0 (by omega)) fun _ _ => ?_
    rw [Nat.zero_add]
    refine leads_bind (leads_checkStmts (by omega) h.2 (by omega)) fun _ hss => ?_
    rw [← hlen]
    exact leads_bind (leads_modify fun _ hs => hs.pop) fun _ _ => leads_pure hss

theorem sized_predefinedDecls : ∀ d ∈ predefinedDecls, d.type.Sized ∧ d.init = none := by
  intro d hd
  obtain ⟨h, -, rfl⟩ := List.mem_map.mp hd
  exact ⟨sized_of_named (TypeSystem.named_hardware h), rfl⟩

/-- **The walk of any tree keeps the program without gaps.** -/
theorem walking_walk {body : Ast.Scope} {n size : Nat} (h : NamedStmt body.toStmt)
    (hn : n = (astDecls body.toStmt).length) (hsize : size = n + predefinedDecls.length) :
    Walking n size n (exec (walk body) (initial body)).2 ∧
      Stmt.ListWhole (· < size) (exec (walk body) (initial body)).1 := by
  have hstart : Walking n size 0 (initial body) := by
    refine ⟨(initial body).decls, by simp [initial, hn, hsize], ?_, rfl, rfl, by simp [initial]⟩
    rw [hn]
    exact ordered_declOfAst (namedDecls_of_namedStmt h) sized_predefinedDecls
  exact leads_walk h hn hsize _ hstart

/-- The initializers of a checked table look back. -/
theorem ordered_check {body : Ast.Scope} (h : NamedStmt body.toStmt) :
    Ordered (astDecls body.toStmt).length (Program.ofAst body).check.program.decls := by
  obtain ⟨⟨D, -, hD, hs⟩, -⟩ := walking_walk h rfl rfl
  rw [check_ofAst]
  show Ordered _ (exec (walk body) (initial body)).2.decls
  rw [hs.decls]
  exact hD

/-- **The check of a text's tree passes all of it**, and leaves a program without gaps, whatever it
complains about. -/
theorem intact_check {body : Ast.Scope} (h : NamedStmt body.toStmt) :
    (Program.ofAst body).check.stopped = none ∧ (Program.ofAst body).check.program.Intact := by
  let n := (astDecls body.toStmt).length
  let size := n + predefinedDecls.length
  have htable : Ordered n (Program.ofAst body).check.program.decls := ordered_check h
  have hsize : size = n + predefinedDecls.length := rfl
  obtain ⟨⟨D, hlen, -, hs⟩, hss⟩ := walking_walk h rfl hsize
  rw [check_ofAst] at htable
  rw [check_ofAst]
  have hids : ∀ id ∈ List.range' 0 body.decls.length, id < size := by
    intro id hid
    have hlt : id < 0 + body.decls.length := (List.mem_range'_1.mp hid).2
    simp only [size, n, astDecls_toStmt, List.length_append]
    omega
  rw [← hlen] at hss hids
  refine ⟨hs.stopped, ⟨n, ?_, ?_⟩, _, rfl, ?_, ?_⟩
  · show n ≤ (exec (walk body) (initial body)).2.decls.length
    rw [hs.decls, hlen]
    exact Nat.le_add_right _ _
  · exact htable
  · show ∀ id ∈ List.range' 0 body.decls.length,
      id < (exec (walk body) (initial body)).2.decls.length
    rw [hs.decls]
    exact hids
  · show Stmt.ListWhole (· < (exec (walk body) (initial body)).2.decls.length) _
    rw [hs.decls]
    exact hss

end Checker

end Shader
