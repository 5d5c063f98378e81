import Shader.Proofs.FoldingOutcomes
import Shader.Proofs.SinglePrecision

/-!
# Where a number that is not finite comes from

Constants are folded in single precision, where a result can leave the range. Most steps of folding
cannot make it do so. Integer literals stay far below the largest single; negation, comparisons and
truth values keep to what they are given; an index or a constructor only passes numbers on. What is
left are decimal literals and the five operators of arithmetic, and every number that is not finite
goes back to one of these that made it out of finite ones.

That integers are small is known of the text. A walk along the derivation of its types brings the
bound to the checked program.
-/

namespace Shader

open Program (Expr Stmt Ordered)
open Number (Scalar)
open TypeSystem

/-- `Overflows env e`: folding leaves the range at `e`, a literal that is too large or an operator
on two finite numbers. -/
inductive Overflows (env : Env) : Expr → Prop
  | literal {pos : Pos} {x : Float} (h : (Scalar.ofFloat x : Float32).isFinite = false) :
      Overflows env (.float pos x)
  | operator {pos : Pos} {op : BinaryOp} {l r : Expr} {t : Ty} {ls rs : List Float32}
      {pairs : List (Float32 × Float32)} {x y z : Float32}
      (hop : op ∈ [.add, .sub, .mul, .div, .pow])
      (hl : reduce env l = .ok (some (.literal ls))) (hr : reduce env r = .ok (some (.literal rs)))
      (hpairs : Reduce.broadcast ls rs = some pairs) (hpair : (x, y) ∈ pairs)
      (hx : x.isFinite = true) (hy : y.isFinite = true)
      (hz : Reduce.component op x y = .ok (some z)) (hover : z.isFinite = false) :
      Overflows env (.binary pos op l r t)

/-- Whether an expression is folded to numbers of which one is not finite. -/
def FoldsBeyond (env : Env) (e : Expr) : Prop :=
  ∃ xs : List Float32, reduce env e = .ok (some (.literal xs)) ∧ ∃ x ∈ xs, x.isFinite = false

/-! ## The range of integers -/

namespace Program

mutual

/-- An expression whose integers are in range. -/
def Expr.Ranged : Expr → Prop
  | .int _ value => value.natAbs ≤ Number.maxInteger
  | .unary _ _ x _ => x.Ranged
  | .binary _ _ l r _ => l.Ranged ∧ r.Ranged
  | .call _ _ args _ | .construct _ _ args => Expr.ListRanged args
  | _ => True

/-- Expressions whose integers are in range. -/
def Expr.ListRanged : List Expr → Prop
  | [] => True
  | e :: es => e.Ranged ∧ Expr.ListRanged es

end

mutual

theorem Expr.Ranged.parts : ∀ {e : Expr}, e.Ranged → ∀ f ∈ e.parts, f.Ranged
  | .absent, h | .int _ _, h | .float _ _, h | .bool _ _, h | .var _, h =>
    List.forall_mem_singleton.mpr h
  | .index _ _ _, h => List.forall_mem_cons.mpr ⟨h, List.forall_mem_singleton.mpr trivial⟩
  | .unary _ _ _ _, h => List.forall_mem_cons.mpr ⟨h, Expr.Ranged.parts h⟩
  | .binary _ _ _ _ _, h =>
    List.forall_mem_cons.mpr ⟨h, List.forall_mem_append.mpr ⟨h.1.parts, h.2.parts⟩⟩
  | .call _ _ _ _, h => List.forall_mem_cons.mpr ⟨h, Expr.ListRanged.parts h⟩
  | .construct _ _ _, h => List.forall_mem_cons.mpr ⟨h, Expr.ListRanged.parts h⟩

theorem Expr.ListRanged.parts :
    ∀ {es : List Expr}, Expr.ListRanged es → ∀ f ∈ Expr.listParts es, f.Ranged
  | [], _ => fun _ hf => by cases hf
  | _ :: _, h => List.forall_mem_append.mpr ⟨h.1.parts, h.2.parts⟩

end

theorem Expr.ListRanged.of_mem {es : List Expr} (h : Expr.ListRanged es) : ∀ x ∈ es, x.Ranged := by
  induction es with
  | nil => exact List.forall_mem_nil _
  | cons e es ih => exact List.forall_mem_cons.mpr ⟨h.1, ih h.2⟩

/-- A table whose initializers have their integers in range. -/
def RangedInits (decls : List Declaration) : Prop := ∀ d ∈ decls, ∀ x, d.init = some x → x.Ranged

theorem rangedInits_append {ds es : List Declaration} (hds : RangedInits ds)
    (hes : RangedInits es) : RangedInits (ds ++ es) := List.forall_mem_append.mpr ⟨hds, hes⟩

end Program

section Range

open Program Checker

variable {Γ : Context}

theorem ranged_of_access {v : Ast.Var} {v' : Expr} {x : Variable} {t : Ty}
    (h : Access Γ v v' x t) : v'.Ranged := by
  cases h <;> trivial

mutual

/-- The parser takes no integer out of range, and the check keeps those in the tree. -/
theorem ranged_of_typed :
    ∀ {e : Ast.Expr} {e' : Expr} {t : Ty}, Typed Γ e e' t → NamedExpr e → e'.Ranged
  | _, _, _, .int, hn => hn
  | _, _, _, .float, _ => trivial
  | _, _, _, .bool, _ => trivial
  | _, _, _, .var ha _, _ => ranged_of_access ha
  | _, _, _, .unary he _, hn => by
    rw [Expr.Ranged]
    exact ranged_of_typed he hn
  | _, _, _, .binary hl hr _, hn => ⟨ranged_of_typed hl hn.1, ranged_of_typed hr hn.2⟩
  | _, _, _, .call hargs _, hn => ranged_of_typedList hargs hn
  | _, _, _, .construct _ hargs, hn => ranged_of_typedList hargs hn.2

theorem ranged_of_typedList :
    ∀ {es : List Ast.Expr} {es' : List Expr} {ts : List Ty}, TypedList Γ es es' ts →
      NamedExprs es → Expr.ListRanged es'
  | _, _, _, .nil, _ => trivial
  | _, _, _, .cons he hes, hn => ⟨ranged_of_typed he hn.1, ranged_of_typedList hes hn.2⟩

end

/-- So the initializers of the table are in range. -/
theorem rangedInits_of_declsTyped {next : DeclId} {Γ' : Context} {ds : List Ast.Decl}
    {ds' : List Declaration} (h : DeclsTyped next Γ ds ds' Γ') (hn : ∀ d ∈ ds, NamedDecl d) :
    RangedInits ds' := by
  induction h with
  | nil => exact List.forall_mem_nil _
  | cons hd _ _ ih =>
    obtain ⟨hfirst, hrest⟩ := List.forall_mem_cons.mp hn
    refine List.forall_mem_cons.mpr ⟨fun x hx => ?_, ih hrest⟩
    cases hd with
    | plain => cases hx
    | mutable _ he | const _ he =>
      cases hx
      exact ranged_of_typed he (hfirst.2 _ rfl)

mutual

/-- And the expressions of statements, with the initializers within them. -/
theorem ranged_of_stmtTyped :
    ∀ {Γ : Context} {next : DeclId} {st : Ast.Stmt} {st' : Stmt} {ds : List Declaration},
      StmtTyped Γ next st st' ds → NamedStmt st →
      (∀ f ∈ st'.exprs, f.Ranged) ∧ RangedInits ds
  | _, _, _, _, _, .assign hv _ he, hn =>
    ⟨List.forall_mem_append.mpr ⟨(ranged_of_access hv).parts, (ranged_of_typed he hn).parts⟩,
      List.forall_mem_nil _⟩
  | _, _, _, _, _, .ifThen hc hst, hn => by
    obtain ⟨hyes, hds⟩ := ranged_of_stmtTyped hst hn.2
    exact ⟨List.forall_mem_append.mpr ⟨(ranged_of_typed hc hn.1).parts, hyes⟩, hds⟩
  | _, _, _, _, _, .ifElse hc hst hno, hn => by
    obtain ⟨hyes, hds⟩ := ranged_of_stmtTyped hst hn.2.1
    obtain ⟨hno, hes⟩ := ranged_of_stmtTyped hno hn.2.2
    have hcond := (ranged_of_typed hc hn.1).parts
    exact ⟨List.forall_mem_append.mpr ⟨List.forall_mem_append.mpr ⟨hcond, hyes⟩, hno⟩,
      rangedInits_append hds hes⟩
  | _, _, _, _, _, .loop hc hst, hn => by
    obtain ⟨hbody, hds⟩ := ranged_of_stmtTyped hst hn.2
    exact ⟨List.forall_mem_append.mpr ⟨(ranged_of_typed hc hn.1).parts, hbody⟩, hds⟩
  | _, _, _, _, _, .scope hdecls hss, hn => by
    obtain ⟨hbody, hes⟩ := ranged_of_stmtsTyped hss hn.2
    exact ⟨hbody, rangedInits_append (rangedInits_of_declsTyped hdecls hn.1) hes⟩

theorem ranged_of_stmtsTyped :
    ∀ {Γ : Context} {next : DeclId} {ss : List Ast.Stmt} {ss' : List Stmt} {ds : List Declaration},
      StmtsTyped Γ next ss ss' ds → NamedStmts ss →
      (∀ f ∈ Stmt.listExprs ss', f.Ranged) ∧ RangedInits ds
  | _, _, _, _, _, .nil, _ => ⟨List.forall_mem_nil _, List.forall_mem_nil _⟩
  | _, _, _, _, _, .cons hst hss, hn => by
    obtain ⟨hfirst, hds⟩ := ranged_of_stmtTyped hst hn.1
    obtain ⟨hrest, hes⟩ := ranged_of_stmtsTyped hss hn.2
    exact ⟨List.forall_mem_append.mpr ⟨hfirst, hrest⟩, rangedInits_append hds hes⟩

end

/-- **The integers of an accepted program are in range.** -/
theorem ranged_of_elaborates {body : Ast.Scope} {p : Program} (h : Elaborates body p)
    (hn : NamedStmt body.toStmt) : RangedInits p.decls ∧ ∀ e ∈ p.exprs, e.Ranged := by
  cases h with
  | mk hdecls hstmts =>
    rw [Ast.Scope.toStmt, NamedStmt] at hn
    obtain ⟨hbody, hes⟩ := ranged_of_stmtsTyped hstmts hn.2
    have hown := rangedInits_append (rangedInits_of_declsTyped hdecls hn.1) hes
    have hpredefined : RangedInits predefinedDecls := by
      intro d hd x hx
      rw [(sized_predefinedDecls d hd).2] at hx
      cases hx
    have hinits := rangedInits_append hown hpredefined
    refine ⟨hinits, List.forall_mem_append.mpr ⟨fun e he => ?_, hbody⟩⟩
    obtain ⟨d, hd, he⟩ := List.mem_flatMap.mp he
    cases hinit : d.init with
    | none =>
      rw [hinit] at he
      cases he
    | some x =>
      rw [hinit] at he
      exact (hinits d hd x hinit).parts e he

end Range

/-- What folding calls has its integers in range, too. -/
theorem Calls.ranged {decls : List Declaration} {x e : Expr} (hx : Calls decls x e)
    (hinits : Program.RangedInits decls) (h : e.Ranged) : x.Ranged := by
  induction hx with
  | operand => exact h
  | left => exact h.1
  | right => exact h.2
  | component hx => exact Program.Expr.ListRanged.of_mem h _ hx
  | constant _ hd _ hinit => exact hinits _ (List.mem_of_getElem? hd) _ hinit
  | indexed _ ih => exact ih trivial

/-! ## Operators on numbers -/

namespace Reduce

variable {α : Type} [Scalar α]

/-- A number that an operator gives is a truth value, or comes from two numbers. -/
theorem exists_component_of_binary {op : BinaryOp} {ls rs zs : List α} {z : α}
    (h : binary op ls rs = .ok (some zs)) (hz : z ∈ zs) :
    (∃ b, z = Scalar.ofBool b) ∨ ∃ pairs x y, broadcast ls rs = some pairs ∧ (x, y) ∈ pairs ∧
      component op x y = .ok (some z) := by
  unfold binary at h
  cases op with
  | lt | le | gt | ge =>
    dsimp only at h
    split at h
    · cases h
      exact .inl ⟨_, List.mem_singleton.mp hz⟩
    · cases h
  | eq | ne =>
    dsimp only at h
    split at h
    · cases h
      exact .inl ⟨_, List.mem_singleton.mp hz⟩
    · cases h
  | _ =>
    dsimp only at h
    split at h
    · cases h
    · rename_i pairs hpairs
      obtain ⟨i, hi⟩ := List.getElem?_of_mem hz
      obtain ⟨⟨x, y⟩, hxy, hcomponent⟩ := getElem?_of_components h hi
      exact .inr ⟨pairs, x, y, hpairs, List.mem_of_getElem? hxy, hcomponent⟩

theorem exists_arg_of_scalars {lookup : Ref → Except Failure (Option (Constant α))} {x : α} :
    ∀ {es : List Expr} {xs : List α}, scalars lookup es = .ok (some xs) → x ∈ xs →
      ∃ e ∈ es, expr lookup e = .ok (some (.literal [x]))
  | [], _, h, hx => by
    rw [scalars] at h
    cases h
    cases hx
  | e :: es, _, h, hx => by
    rw [scalars] at h
    obtain ⟨c, hc, h⟩ := exists_of_bind_eq_ok h
    split at h
    · rename_i y
      obtain ⟨ys, hys, h⟩ := exists_of_bind_eq_ok h
      obtain ⟨zs, rfl, rfl⟩ := Option.map_eq_some_iff.mp (Except.ok.inj h)
      rcases List.mem_cons.mp hx with rfl | hx
      · exact ⟨e, List.mem_cons_self, hc⟩
      · obtain ⟨f, hf, hfolds⟩ := exists_arg_of_scalars hys hx
        exact ⟨f, List.mem_cons_of_mem e hf, hfolds⟩
    · cases h

end Reduce

/-! ## The first number out of range -/

section Overflow

open Reduce Number

variable {env : Env} {n m : Nat} {e : Expr}

/-- Of the operators on components only arithmetic leaves the range. -/
theorem mem_arithmetic_of_component {op : BinaryOp} {x y z : Float32} (hx : x.isFinite = true)
    (hy : y.isFinite = true) (hz : component op x y = .ok (some z)) (hover : z.isFinite = false) :
    op ∈ [.add, .sub, .mul, .div, .pow] := by
  cases op with
  | add | sub | mul | div | pow => decide
  | and =>
    cases hz
    cases (Single.isFinite_min hx hy).symm.trans hover
  | or =>
    cases hz
    cases (Single.isFinite_max hx hy).symm.trans hover
  | _ => cases hz

/-- A variable that folds to something not finite is a constant whose initializer does. -/
theorem foldsBeyond_var (hA : Accepted env n) (hD : Ordered m env.decls) {ref : Ref}
    (h : TypedSomewhere env n (.var ref)) (hover : FoldsBeyond env (.var ref)) :
    ∃ x, Calls env.decls x (.var ref) ∧ FoldsBeyond env x := by
  obtain ⟨xs, hxs, hbeyond⟩ := hover
  obtain ⟨id, d, hid, hd, -, -⟩ := h.var
  rcases hA.variable_cases hd with ⟨h, rfl⟩ | hq | ⟨hconst, x, hx, -, -⟩
  · rw [reduce_predefined hA hid hd] at hxs
    cases hxs
  · rw [reduce_mutable hid hd hq] at hxs
    cases hxs
  · have hcalls : Calls env.decls x (.var ref) := .constant hid hd hconst hx
    exact ⟨x, hcalls, xs, (reduce_constant hD hcalls).symm.trans hxs, hbeyond⟩

/-- **A number out of range is made where it stands, or it is passed on.** -/
theorem overflows_or_calls (hA : Accepted env n) (hD : Ordered m env.decls)
    (h : TypedSomewhere env n e) (hr : e.Ranged) (hover : FoldsBeyond env e) :
    Overflows env e ∨ ∃ x, Calls env.decls x e ∧ FoldsBeyond env x := by
  obtain ⟨zs, hzs, z, hz, hbeyond⟩ := hover
  cases e with
  | absent | call =>
    rw [reduce, expr] at hzs
    cases hzs
  | int pos v =>
    rw [reduce, expr] at hzs
    cases hzs
    cases List.mem_singleton.mp hz
    -- an integer in range is far below what single precision can hold
    have hv : v.natAbs < 2 ^ 64 := Nat.lt_of_le_of_lt hr (by decide)
    cases (Single.isFinite_ofInt hv).symm.trans hbeyond
  | float pos v =>
    rw [reduce, expr] at hzs
    cases hzs
    cases List.mem_singleton.mp hz
    exact .inl (.literal hbeyond)
  | bool pos b =>
    rw [reduce, expr] at hzs
    cases hzs
    cases List.mem_singleton.mp hz
    cases (Single.isFinite_ofBool b).symm.trans hbeyond
  | var ref => exact .inr (foldsBeyond_var hA hD h ⟨zs, hzs, z, hz, hbeyond⟩)
  | index ref i t =>
    obtain ⟨ys, y, hys, hy, rfl⟩ := literal_of_index hzs
    cases List.mem_singleton.mp hz
    obtain ⟨x, hx, hxbeyond⟩ :=
      foldsBeyond_var hA hD h.index.1 ⟨ys, hys, z, List.mem_of_getElem? hy, hbeyond⟩
    exact .inr ⟨x, .indexed hx, hxbeyond⟩
  | unary pos op x t =>
    obtain ⟨ys, hys, rfl⟩ := literal_of_unary hzs
    obtain ⟨y, hy, rfl⟩ := List.mem_map.mp hz
    cases hfinite : y.isFinite with
    | true => cases (Single.isFinite_neg hfinite).symm.trans hbeyond
    | false => exact .inr ⟨x, .operand, ys, hys, y, hy, hfinite⟩
  | construct pos t args =>
    rw [reduce, expr] at hzs
    obtain ⟨c, hc, hzs⟩ := exists_of_bind_eq_ok hzs
    cases c <;> cases hzs
    obtain ⟨x, hx, hfolds⟩ := exists_arg_of_scalars hc hz
    exact .inr ⟨x, .component hx, [z], hfolds, z, List.mem_singleton_self z, hbeyond⟩
  | binary pos op l r t =>
    obtain ⟨ls, rs, hl, hr, hop⟩ := literal_of_binary hzs
    rcases exists_component_of_binary hop hz with ⟨b, rfl⟩ | ⟨pairs, x, y, hpairs, hxy, hcomp⟩
    · cases (Single.isFinite_ofBool b).symm.trans hbeyond
    · obtain ⟨hx, hy⟩ := mem_of_broadcast hpairs hxy
      -- where both operands are finite it is this operator that overflows, and else one of them did
      cases hfx : x.isFinite with
      | false => exact .inr ⟨l, .left, ls, hl, x, hx, hfx⟩
      | true =>
        cases hfy : y.isFinite with
        | false => exact .inr ⟨r, .right, rs, hr, y, hy, hfy⟩
        | true =>
          have harith := mem_arithmetic_of_component hfx hfy hcomp hbeyond
          exact .inl (.operator harith hl hr hpairs hxy hfx hfy hcomp hbeyond)

/-- **A number that is not finite goes back to an overflow**, in the expression or in the
initializer of a constant that it leads to. -/
theorem exists_overflows (hA : Accepted env n) (hD : Ordered m env.decls)
    (hinits : Program.RangedInits env.decls) (hacc : Acc (Calls env.decls) e)
    (h : TypedSomewhere env n e) (hr : e.Ranged) (hover : FoldsBeyond env e) :
    ∃ f, Contains env.decls e f ∧ Overflows env f := by
  induction hacc with
  | intro e _ ih =>
    rcases overflows_or_calls hA hD h hr hover with hhere | ⟨x, hx, hbeyond⟩
    · exact ⟨e, .refl, hhere⟩
    · obtain ⟨f, hf, hoverflow⟩ := ih x hx (hx.typed hA h) (hx.ranged hinits hr) hbeyond
      exact ⟨f, hf.head hx, hoverflow⟩

end Overflow

end Shader
