import Shader.Proofs.CheckerExact
import Shader.Symbols

/-!
# What a check leaves alone

A check binds names and types nodes. In the table of declarations it replaces initializers and
nothing else, and statements keep their declarations, in their order. This needs no assumption on
the tree: at a missing part the check stops, and that touches neither.

`Leaves view m` says that the step `m` does not change what `view` shows of the state. Expressions
leave the whole table, and statements all of it that does not show the initializers of their own
declarations.
-/

namespace Shader

theorem Declaration.isOrdinary_bare (d : Declaration) : d.bare.isOrdinary = d.isOrdinary := rfl

namespace Checker

open Program (Expr Stmt astDecls astDeclsList declOfAst predefinedDecls)

/-- A step that does not change what `view` shows of the state. -/
def Leaves {ι α : Type} (view : State → ι) (m : CheckM α) : Prop :=
  ∀ s, view (exec m s).2 = view s

/-! ## Expressions -/

/-- A report does not touch the table. -/
theorem decls_report (s : State) (pos : Pos) (c : Complaint) :
    (s.report pos c).decls = s.decls := by
  unfold State.report
  split <;> rfl

theorem decls_stop (s : State) (part : Absence) : (s.stop part).decls = s.decls := by
  unfold State.stop
  split <;> rfl

/-- **The check of an expression leaves the table**, with all that `g` shows of it. -/
theorem leaves {ι : Type} {g : List Declaration → ι} :
    Stepwise fun _ m => Leaves (fun s => g s.decls) m where
  pure _ _ := rfl
  bind hm hf s := by rw [exec_bind, hf, hm]
  look hf _ s := hf s s
  report pos c s := congrArg g (decls_report s pos c)
  stop part s := congrArg g (decls_stop s part)

theorem leaves_decls : Stepwise fun _ m => Leaves State.decls m := leaves (g := id)

/-! ## Declarations and statements -/

/-- To bring a declaration into scope does not touch its entry. -/
theorem decls_declare (s : State) (id : DeclId) : (s.declare id).decls = s.decls := by
  unfold State.declare
  split
  · split
    · split <;> exact decls_report _ _ _
    · rfl
  · rfl


/-- Whether the initializer of a declaration can be replaced unnoticed, where `g` shows something of
the table. -/
def Unnoticed {ι : Type} (g : List Declaration → ι) (id : DeclId) : Prop :=
  ∀ decls init, g (decls.modify id fun d => { d with init := some init }) = g decls

/-- Without initializers, the table looks the same whatever initializer is replaced. -/
theorem unnoticed_bare (id : DeclId) : Unnoticed (List.map Declaration.bare) id := by
  intro decls init
  refine List.ext_getElem? fun i => ?_
  rw [List.getElem?_map, List.getElem?_map, List.getElem?_modify]
  cases decls[i]? with
  | none => rfl
  | some d =>
    show some (Declaration.bare (if id = i then _ else d)) = some d.bare
    split <;> rfl

/-- The entry of one declaration looks the same whatever happens to the others. -/
theorem unnoticed_of_ne {i id : DeclId} (h : id ≠ i) : Unnoticed (·[i]?) id := fun decls _ =>
  List.getElem?_modify_ne _ decls h

section Table

variable {ι : Type} {g : List Declaration → ι}

theorem leaves_declare (id : DeclId) :
    Leaves (fun s => g s.decls) (modify (·.declare id) : CheckM Unit) :=
  fun s => congrArg g (decls_declare s id)

/-- The end of a declaration: a complaint, if there is one, and its name in scope. -/
theorem leaves_finish (b : Prop) [Decidable b] (pos : Pos) (c : Complaint) (id : DeclId) :
    Leaves (fun s => g s.decls)
      (if b then report pos c >>= fun _ => modify (·.declare id) else modify (·.declare id)) :=
  leaves.ite (leaves.bind (leaves.report pos c) fun _ => leaves_declare id) (leaves_declare id)

/-- **The check of a declaration replaces its initializer at most.** -/
theorem leaves_checkDecl {id : DeclId} (h : Unnoticed g id) :
    Leaves (fun s => g s.decls) (checkDecl id) := by
  refine leaves.whileRunning (leaves.bind (fun _ => rfl) fun s => ?_)
  split
  · exact leaves.pure ()
  · split
    · exact leaves_finish _ _ _ id
    · refine leaves.bind (leaves.checkExpr _) fun r => ?_
      refine leaves.bind (fun s => h s.decls r.1) fun _ => ?_
      exact leaves_finish _ _ _ id

/-- Declarations of which none shows leave the view alone. -/
theorem leaves_checkDecls : ∀ {ids : List DeclId}, (∀ id ∈ ids, Unnoticed g id) →
    Leaves (fun s => g s.decls) (ids.forM checkDecl)
  | [], _ => leaves.pure ()
  | id :: _, h => leaves.bind (leaves_checkDecl (h id (by simp))) fun _ =>
      leaves_checkDecls fun id hid => h id (by simp [hid])

mutual

/-- **A statement replaces the initializers of its own declarations at most.** -/
theorem leaves_checkStmt : ∀ {st : Stmt}, (∀ id, .decl id ∈ st.visits → Unnoticed g id) →
    Leaves (fun s => g s.decls) (checkStmt st)
  | .absent, _ => by
    rw [checkStmt]
    exact leaves.bind (leaves.stop _) fun _ => leaves.pure _
  | .assign pos target value, _ => by
    rw [checkStmt]
    exact leaves.bind (leaves.checkExpr value) fun _ =>
      leaves.bind (leaves.checkTarget pos target _) fun _ => leaves.pure _
  | .branch c yes none, h => by
    rw [Stmt.visits] at h
    rw [checkStmt]
    exact leaves.bind (leaves.checkCondition .branch c) fun _ =>
      leaves.bind (leaves_checkStmt h) fun _ => leaves.pure _
  | .branch c yes (some no), h => by
    simp only [Stmt.visits, List.mem_append] at h
    rw [checkStmt]
    exact leaves.bind (leaves.checkCondition .branch c) fun _ =>
      leaves.bind (leaves_checkStmt fun id hid => h id (.inl hid)) fun _ =>
        leaves.bind (leaves_checkStmt fun id hid => h id (.inr hid)) fun _ => leaves.pure _
  | .loop pos c body, h => by
    rw [Stmt.visits] at h
    rw [checkStmt]
    exact leaves.bind (leaves.checkCondition .loop c) fun _ =>
      leaves.bind (leaves_checkStmt h) fun _ => leaves.pure _
  | .scope decls stmts, h => by
    simp only [Stmt.visits, List.mem_append] at h
    rw [checkStmt]
    refine leaves.bind (fun _ => rfl) fun _ => ?_
    refine leaves.bind (leaves_checkDecls fun id hid => ?_) fun _ => ?_
    · exact h id (.inl (List.mem_map_of_mem hid))
    · refine leaves.bind (leaves_checkStmts fun id hid => h id (.inr hid)) fun _ => ?_
      exact leaves.bind (fun _ => rfl) fun _ => leaves.pure _

theorem leaves_checkStmts : ∀ {ss : List Stmt},
    (∀ id, .decl id ∈ Stmt.listVisits ss → Unnoticed g id) →
    Leaves (fun s => g s.decls) (checkStmts ss)
  | [], _ => by
    rw [checkStmts]
    exact leaves.pure _
  | s :: ss, h => by
    simp only [Stmt.listVisits, List.mem_append] at h
    rw [checkStmts]
    exact leaves.bind (leaves_checkStmt fun id hid => h id (.inl hid)) fun _ =>
      leaves.bind (leaves_checkStmts fun id hid => h id (.inr hid)) fun _ => leaves.pure _

end

end Table

mutual

/-- **A statement keeps its declarations.** -/
theorem visits_checkStmt : ∀ (st : Stmt) (s : State), (exec (checkStmt st) s).1.visits = st.visits
  | .absent, s => by
    rw [checkStmt]
    rfl
  | .assign pos target value, s => by
    rw [checkStmt, Stmt.visits]
    rfl
  | .branch c yes none, s => by
    rw [checkStmt, exec_bind, exec_bind, exec_pure, Stmt.visits, Stmt.visits, visits_checkStmt yes]
  | .branch c yes (some no), s => by
    rw [checkStmt, exec_bind, exec_bind, exec_bind, exec_pure, Stmt.visits, Stmt.visits,
      visits_checkStmt yes, visits_checkStmt no]
  | .loop pos c body, s => by
    rw [checkStmt, exec_bind, exec_bind, exec_pure, Stmt.visits, Stmt.visits, visits_checkStmt body]
  | .scope decls stmts, s => by
    rw [checkStmt, exec_bind, exec_bind, exec_bind, exec_bind, exec_pure, Stmt.visits, Stmt.visits,
      visits_checkStmts stmts]

/-- **Checked statements have the same declarations in the same order.** -/
theorem visits_checkStmts : ∀ (ss : List Stmt) (s : State),
    Stmt.listVisits (exec (checkStmts ss) s).1 = Stmt.listVisits ss
  | [], s => by
    rw [checkStmts]
    rfl
  | st :: ss, s => by
    rw [checkStmts, exec_bind, exec_bind, exec_pure, Stmt.listVisits, Stmt.listVisits,
      visits_checkStmt st, visits_checkStmts ss]

end

/-! ## Programs -/

mutual

/-- The declarations of a text have successive places. -/
theorem visits_ofAst : ∀ (next : DeclId) (st : Ast.Stmt),
    (Stmt.ofAst next st).visits = (List.range' next (astDecls st).length).map .decl
  | next, .assign target value => rfl
  | next, .branch c yes none => by
    rw [Stmt.ofAst, Stmt.visits, astDecls, visits_ofAst next yes]
  | next, .branch c yes (some no) => by
    rw [Stmt.ofAst, Stmt.visits, astDecls, visits_ofAst, visits_ofAst, ← List.map_append,
      List.range'_append_1, List.length_append]
  | next, .loop pos c body => by
    rw [Stmt.ofAst, Stmt.visits, astDecls, visits_ofAst next body]
  | next, .scope decls stmts => by
    rw [Stmt.ofAst, Stmt.visits, astDecls, visits_ofAsts, ← List.map_append,
      List.range'_append_1, List.length_append]

/-- The declarations in the tree of a text are numbered in the order in which a walk meets them. -/
theorem visits_ofAsts : ∀ (next : DeclId) (ss : List Ast.Stmt),
    Stmt.listVisits (Stmt.ofAsts next ss) = (List.range' next (astDeclsList ss).length).map .decl
  | next, [] => rfl
  | next, st :: ss => by
    rw [Stmt.ofAsts, Stmt.listVisits, astDeclsList, visits_ofAst, visits_ofAsts,
      ← List.map_append, List.range'_append_1, List.length_append]

end

/-- The walk over a program leaves all of the table but initializers. -/
theorem leaves_bare (predefined ids : List DeclId) (stmts : List Stmt) : Leaves State.bare (do
    modify State.push
    predefined.forM fun id => modify (·.declare id)
    ids.forM checkDecl
    let stmts ← checkStmts stmts
    modify State.pop
    return stmts) := by
  refine leaves.bind (fun _ => rfl) fun _ => ?_
  refine leaves.bind (leaves.forM leaves_declare _) fun _ => ?_
  refine leaves.bind (leaves_checkDecls fun id _ => unnoticed_bare id) fun _ => ?_
  refine leaves.bind (leaves_checkStmts fun id _ => unnoticed_bare id) fun _ => ?_
  exact leaves.bind (fun _ => rfl) fun _ => leaves.pure _

/-- **A checked table is that of the text but for its initializers**, with the predefined variables
behind. -/
theorem bare_check (body : Ast.Scope) :
    (Program.ofAst body).check.program.decls.map Declaration.bare =
      ((astDecls body.toStmt).map declOfAst ++ predefinedDecls).map Declaration.bare := by
  have hwalk : Leaves State.bare (walk body) := leaves_bare _ _ _
  rw [check_ofAst]
  exact hwalk (initial body)

/-- So the walk of a program meets them in this order too. -/
theorem visits_walk (body : Ast.Scope) (s : State) :
    Stmt.listVisits (exec (walk body) s).1 =
      (List.range' body.decls.length (astDeclsList body.stmts).length).map .decl := by
  rw [walk, exec_bind, exec_bind, exec_bind, exec_bind, exec_bind, exec_pure, visits_checkStmts,
    visits_ofAsts]

/-- **A checked program lists the predefined variables and then its own**, in the order of the
text. -/
theorem visits_check (body : Ast.Scope) :
    (Program.ofAst body).check.program.visits =
      (List.range' (astDecls body.toStmt).length predefinedDecls.length ++
        List.range' 0 (astDecls body.toStmt).length).map .decl := by
  have hown : List.range' 0 (astDecls body.toStmt).length = List.range' 0 body.decls.length ++
      List.range' body.decls.length (astDeclsList body.stmts).length := by
    rw [astDecls_toStmt, List.length_append, ← List.range'_append_1, Nat.zero_add]
  rw [check_ofAst, Program.visits]
  dsimp only [Option.getD_some]
  rw [Stmt.visits, visits_walk, ← List.map_append, ← List.map_append, List.length_map, hown]

end Checker

end Shader
