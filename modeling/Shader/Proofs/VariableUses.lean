import Shader.Program

/-!
# The variables that a tree reads and writes

Which declarations the names of a tree are bound to, told apart by what happens to them: an
expression reads, an assignment and the declaration of a mutable variable write. A write inside an
`if` also keeps the old value where its condition does not hold, so the variables written there are
listed once more. Nothing here looks at code.
-/

namespace Shader.Program

mutual

/-- The declarations that the names of an expression are bound to. -/
def Expr.refs : Expr → List DeclId
  | .absent | .int _ _ | .float _ _ | .bool _ _ => []
  | .var ref | .index ref _ _ => ref.decl.toList
  | .unary _ _ x _ => x.refs
  | .binary _ _ l r _ => l.refs ++ r.refs
  | .call _ _ args _ | .construct _ _ args => Expr.listRefs args

/-- The declarations that the names of expressions are bound to. -/
def Expr.listRefs : List Expr → List DeclId
  | [] => []
  | e :: es => e.refs ++ Expr.listRefs es

end

/-- The declaration at a place, if code initializes its variable, which it does not for a
constant. -/
def initialized? (decls : List Declaration) (id : DeclId) : Option Declaration :=
  decls[id]?.filter fun d => !d.isConst

theorem initialized?_eq_some {decls : List Declaration} {id : DeclId} {d : Declaration} :
    initialized? decls id = some d ↔ decls[id]? = some d ∧ d.isConst = false := by
  rw [initialized?, Option.filter_eq_some_iff, Bool.not_eq_true']

/-- What the initialization of a variable reads. -/
def declReads (decls : List Declaration) (id : DeclId) : List DeclId :=
  (((initialized? decls id).bind (·.init)).map Expr.refs).getD []

/-- What the initialization of a variable writes: the variable, unless it is a constant. -/
def declWrites (decls : List Declaration) (id : DeclId) : List DeclId :=
  ((initialized? decls id).map fun _ => id).toList

mutual

/-- The variables that a statement reads. -/
def Stmt.reads (decls : List Declaration) : Stmt → List DeclId
  | .absent => []
  | .assign _ _ value => value.refs
  | .branch cond yes none => cond.refs ++ yes.reads decls
  | .branch cond yes (some no) => cond.refs ++ (yes.reads decls ++ no.reads decls)
  | .loop _ cond body => cond.refs ++ body.reads decls
  | .scope ids ss => ids.flatMap (declReads decls) ++ Stmt.listReads decls ss

/-- The variables that statements read. -/
def Stmt.listReads (decls : List Declaration) : List Stmt → List DeclId
  | [] => []
  | s :: ss => s.reads decls ++ Stmt.listReads decls ss

end

mutual

/-- The variables that a statement writes. -/
def Stmt.writes (decls : List Declaration) : Stmt → List DeclId
  | .absent => []
  | .assign _ target _ => target.refs
  | .branch _ yes none => yes.writes decls
  | .branch _ yes (some no) => yes.writes decls ++ no.writes decls
  | .loop _ _ body => body.writes decls
  | .scope ids ss => ids.flatMap (declWrites decls) ++ Stmt.listWrites decls ss

/-- The variables that statements write. -/
def Stmt.listWrites (decls : List Declaration) : List Stmt → List DeclId
  | [] => []
  | s :: ss => s.writes decls ++ Stmt.listWrites decls ss

end

mutual

/-- The variables that a statement writes inside an `if` of its own. -/
def Stmt.kept (decls : List Declaration) : Stmt → List DeclId
  | .absent | .assign _ _ _ => []
  | .branch _ yes none => yes.writes decls
  | .branch _ yes (some no) => yes.writes decls ++ no.writes decls
  | .loop _ _ body => body.kept decls
  | .scope _ ss => Stmt.listKept decls ss

/-- The variables that statements write inside an `if`. -/
def Stmt.listKept (decls : List Declaration) : List Stmt → List DeclId
  | [] => []
  | s :: ss => s.kept decls ++ Stmt.listKept decls ss

end

mutual

theorem Stmt.kept_subset (decls : List Declaration) : ∀ st : Stmt, st.kept decls ⊆ st.writes decls
  | .absent | .assign _ _ _ => List.nil_subset _
  | .branch _ _ none | .branch _ _ (some _) => List.Subset.refl _
  | .loop _ _ body => body.kept_subset decls
  | .scope _ ss => List.subset_append_of_subset_right _ (Stmt.listKept_subset decls ss)

theorem Stmt.listKept_subset (decls : List Declaration) :
    ∀ ss : List Stmt, Stmt.listKept decls ss ⊆ Stmt.listWrites decls ss
  | [] => List.nil_subset _
  | s :: ss => List.append_subset.mpr
    ⟨List.subset_append_of_subset_left _ (s.kept_subset decls),
      List.subset_append_of_subset_right _ (Stmt.listKept_subset decls ss)⟩

end

end Shader.Program
