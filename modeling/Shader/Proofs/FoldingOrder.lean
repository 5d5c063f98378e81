import Shader.Proofs.CheckerFrame
import Shader.Proofs.FoldingExact
import Shader.Proofs.RegisterTable
import Shader.Proofs.Robustness
import Shader.Proofs.VariableUses

/-!
# Folding comes to an end

Folding follows a name to the initializer of its declaration, wherever that stands, so it does not
go down the tree alone. In a checked tree it goes back in the table as well: the names of an
initializer are bound to variables that are listed before its own. So the calls that folding makes
are well founded, and the budget that `reduce` gives them is never used up.

Errors make no difference. The check of a text with errors leaves a tree too, in which some names
may be bound to nothing, and those that are bound look back all the same.
-/

namespace Shader

open Program (Expr Stmt Known Ordered Intact predefinedDecls astDecls declOfAst)
open Number (Scalar)

/-! ## The table of a checked program -/

theorem Declaration.bare_eq {d : Declaration} (h : d.init = none) : d.bare = d := by
  cases d
  cases h
  rfl

theorem map_bare {ds : List Declaration} (h : ∀ d ∈ ds, d.init = none) :
    ds.map Declaration.bare = ds :=
  (List.map_congr_left fun d hd => Declaration.bare_eq (h d hd)).trans (List.map_id ds)

theorem isOrdinary_declOfAst (d : Ast.Decl) : (declOfAst d).isOrdinary = true := by
  show (if d.isConst then Qualifier.const else .ordinary).isOrdinary = true
  split <;> rfl

namespace Checker

variable {body : Ast.Scope}

/-- A checked table has variables of the shader first and the predefined ones behind. -/
theorem exists_own_check (h : NamedStmt body.toStmt) :
    ∃ own, (Program.ofAst body).check.program.decls = own ++ predefinedDecls ∧
      own.length = (astDecls body.toStmt).length ∧ ∀ d ∈ own, d.isOrdinary = true := by
  let D := (Program.ofAst body).check.program.decls
  let n := (astDecls body.toStmt).length
  have hbare : D.map Declaration.bare =
      ((astDecls body.toStmt).map declOfAst).map Declaration.bare ++
        predefinedDecls.map Declaration.bare := (bare_check body).trans List.map_append
  have hn : (((astDecls body.toStmt).map declOfAst).map Declaration.bare).length = n := by
    rw [List.length_map, List.length_map]
  have hdrop : D.drop n = predefinedDecls := by
    -- no variable behind the shader's own has an initializer
    have hnone : ∀ d ∈ D.drop n, d.init = none := by
      intro d hd
      obtain ⟨i, hi⟩ := List.getElem?_of_mem hd
      rw [List.getElem?_drop] at hi
      by_contra hinit
      obtain ⟨e, he⟩ := Option.ne_none_iff_exists'.mp hinit
      have hown : n + i < n := ((ordered_check h).inits _ d e hi he).1
      omega
    rw [← map_bare hnone, List.map_drop, hbare, List.drop_left' hn]
    exact map_bare fun d hd => (sized_predefinedDecls d hd).2
  have htake : (D.take n).map Declaration.bare =
      ((astDecls body.toStmt).map declOfAst).map Declaration.bare := by
    rw [List.map_take, hbare, List.take_left' hn]
  refine ⟨D.take n, ?_, ?_, fun d hd => ?_⟩
  · rw [← hdrop, List.take_append_drop]
  · rw [← List.length_map (f := Declaration.bare), htake, hn]
  · have hmem : d.bare ∈ ((astDecls body.toStmt).map declOfAst).map Declaration.bare :=
      htake ▸ List.mem_map_of_mem hd
    rw [List.map_map] at hmem
    obtain ⟨a, -, ha⟩ := List.mem_map.mp hmem
    rw [← d.isOrdinary_bare, ← ha]
    exact isOrdinary_declOfAst a

/-- **A checked program has a symbol table**, whatever was reported: the predefined variables and
then those of the shader in the order of the text. -/
theorem exists_build_check (h : NamedStmt body.toStmt) :
    ∃ symbols, Symbols.build (Program.ofAst body).check.program = .ok symbols ∧
      symbols.entries.map (·.1) =
        List.range' (astDecls body.toStmt).length predefinedDecls.length ++
          List.range' 0 (astDecls body.toStmt).length := by
  obtain ⟨own, hdecls, hlen, hown⟩ := exists_own_check h
  -- a table is built from the entries and the order in which they are met
  obtain ⟨symbols, hbuild, -, -⟩ := exists_sound_build hown ⟨List.range' 0 own.length, []⟩
    (by rw [Stmt.visits, Stmt.listVisits, List.append_nil])
  have hvisits := visits_check body
  have hsame : Symbols.build (Program.ofAst body).check.program = .ok symbols := by
    rw [← hbuild, Symbols.build, Symbols.build, hvisits, hdecls, ← hlen]
    rw [Program.visits]
    dsimp only [Option.getD_some]
    rw [Stmt.visits, Stmt.listVisits, List.append_nil, List.map_append]
  refine ⟨symbols, hsame, ?_⟩
  have hsize : (Program.ofAst body).check.program.decls.length =
      (astDecls body.toStmt).length + predefinedDecls.length := by
    rw [hdecls, List.length_append, hlen]
  rw [Symbols.ids_build hsame, hvisits, Symbols.listed?_decls, hsize, List.filter_eq_self]
  intro id hid
  simp only [List.mem_append, List.mem_range'_1] at hid
  exact decide_eq_true (by omega)

end Checker

/-- An earlier place comes first in a table. -/
theorem pair_sublist_of_known {n size id i : Nat} (hid : id < n) (h : Known n (n + size) id i) :
    [i, id].Sublist (List.range' n size ++ List.range' 0 n) := by
  have hsingle : ∀ {i start count : Nat}, start ≤ i ∧ i < start + count →
      [i].Sublist (List.range' start count) := fun h =>
    List.singleton_sublist.mpr (List.mem_range'_1.mpr h)
  rcases h with ⟨hsize, hi | hi⟩
  · have hsplit : List.range' 0 id ++ List.range' (0 + id) (n - id) = List.range' 0 n := by
      rw [List.range'_append_1, Nat.add_sub_cancel' hid.le]
    have hpair : ([i] ++ [id]).Sublist (List.range' 0 id ++ List.range' (0 + id) (n - id)) :=
      (hsingle (by omega)).append (hsingle (by omega))
    rw [hsplit] at hpair
    exact hpair.trans (List.sublist_append_right _ _)
  · exact (hsingle (by omega)).append (hsingle (by omega))

/-! ## The calls of folding -/

/-- `Calls decls x e`: to fold `e`, folding may fold `x`. These are the operands of an operator, the
components of a constructor, and for a name the initializer of the constant it is bound to. The
arguments of a call are not folded. -/
inductive Calls (decls : List Declaration) : Expr → Expr → Prop
  | operand {pos : Pos} {op : UnaryOp} {x : Expr} {t : Ty} : Calls decls x (.unary pos op x t)
  | left {pos : Pos} {op : BinaryOp} {l r : Expr} {t : Ty} : Calls decls l (.binary pos op l r t)
  | right {pos : Pos} {op : BinaryOp} {l r : Expr} {t : Ty} : Calls decls r (.binary pos op l r t)
  | component {pos : Pos} {t : Ty} {args : List Expr} {x : Expr} (hx : x ∈ args) :
      Calls decls x (.construct pos t args)
  | constant {ref : Ref} {id : DeclId} {d : Declaration} {x : Expr} (hid : ref.decl = some id)
      (hd : decls[id]? = some d) (hconst : d.isConst = true) (hx : d.init = some x) :
      Calls decls x (.var ref)
  | indexed {ref : Ref} {x : Expr} {i : Int} {t : Ty} (h : Calls decls x (.var ref)) :
      Calls decls x (.index ref i t)

section Calls

variable {decls : List Declaration} {V : DeclId → Prop}

mutual

/-- Folding ends on an expression if it ends on the initializers of its names. -/
theorem acc_of_inits
    (hV : ∀ id d x, V id → decls[id]? = some d → d.init = some x → Acc (Calls decls) x) :
    ∀ {e : Expr}, e.Whole V → Acc (Calls decls) e
  | .int _ _, _ | .float _ _, _ | .bool _ _, _ | .call _ _ _ _, _ => ⟨_, fun _ h => by cases h⟩
  | .var ref, hw => by
    refine ⟨_, fun x h => ?_⟩
    cases h with
    | constant hid hd _ hx => exact hV _ _ x (hw _ hid) hd hx
  -- a component calls what its variable calls
  | .index ref i t, hw => by
    refine ⟨_, fun x h => ?_⟩
    cases h with
    | indexed h =>
      cases h with
      | constant hid hd _ hx => exact hV _ _ x (hw.1 _ hid) hd hx
  | .unary pos op x t, hw => by
    refine ⟨_, fun x h => ?_⟩
    cases h with
    | operand => exact acc_of_inits hV hw.1
  | .binary pos op l r t, hw => by
    refine ⟨_, fun x h => ?_⟩
    cases h with
    | left => exact acc_of_inits hV hw.1
    | right => exact acc_of_inits hV hw.2.1
  | .construct pos t args, hw => by
    refine ⟨_, fun x h => ?_⟩
    cases h with
    | component hx => exact accs_of_inits hV hw.1 x hx

theorem accs_of_inits
    (hV : ∀ id d x, V id → decls[id]? = some d → d.init = some x → Acc (Calls decls) x) :
    ∀ {es : List Expr}, Expr.ListWhole V es → ∀ x ∈ es, Acc (Calls decls) x
  | [], _ => fun _ hx => by cases hx
  | _ :: _, hw => List.forall_mem_cons.mpr ⟨acc_of_inits hV hw.1, accs_of_inits hV hw.2⟩

end

/-- **The calls of folding are well founded** where initializers look back. -/
theorem acc_calls {n : Nat} (hD : Ordered n decls) {next : Nat} :
    ∀ {e : Expr}, e.Whole (Known n decls.length next) → Acc (Calls decls) e := by
  -- the induction is on the place behind the last variable that is known
  induction next using Nat.strongRecOn with
  | ind next ih =>
    refine acc_of_inits fun id d x hid hd hx => ?_
    obtain ⟨hown, hwhole⟩ := hD.inits id d x hd hx
    exact ih id (hid.2.resolve_right (Nat.not_le.mpr hown)) hwhole

end Calls

/-! ## The budget -/

namespace Reduce

variable {α : Type} [Scalar α] {V : DeclId → Prop}
  {lookup lookup' : Ref → Except Failure (Option (Constant α))}

mutual

/-- Folding asks for the names of an expression only. -/
theorem expr_congr (hl : ∀ ref : Ref, ref.Within V → lookup ref = lookup' ref) :
    ∀ {e : Expr}, e.Whole V → expr lookup e = expr lookup' e
  | .int _ _, _ | .float _ _, _ | .bool _ _, _ | .call _ _ _ _, _ => rfl
  | .var ref, h => hl ref h
  | .index ref i t, h => by rw [expr, expr, hl ref h.1]
  | .unary pos op x t, h => by rw [expr, expr, expr_congr hl h.1]
  | .binary pos op l r t, h => by rw [expr, expr, expr_congr hl h.1, expr_congr hl h.2.1]
  | .construct pos t args, h => by rw [expr, expr, scalars_congr hl h.1]

theorem scalars_congr (hl : ∀ ref : Ref, ref.Within V → lookup ref = lookup' ref) :
    ∀ {es : List Expr}, Expr.ListWhole V es → scalars lookup es = scalars lookup' es
  | [], _ => rfl
  | _ :: _, h => by rw [scalars, scalars, expr_congr hl h.1, scalars_congr hl h.2]

end

/-- **Two budgets larger than the place of a name give it the same.** -/
theorem named_congr {env : Env} {n : Nat} (hD : Ordered n env.decls) :
    ∀ (budget budget' next : Nat) (ref : Ref), ref.Within (Known n env.decls.length next) →
      next < budget → next < budget' →
      (named env budget ref : Except Failure (Option (Constant α))) = named env budget' ref
  | budget + 1, budget' + 1, next, ref, href, hb, hb' => by
    rw [named, named]
    cases hd : ref.decl.bind (env.decls[·]?) with
    | none => rfl
    | some d =>
      obtain ⟨id, hid, hd⟩ := Option.bind_eq_some_iff.mp hd
      dsimp only
      cases hinit : d.init with
      | none => simp only
      | some init =>
        obtain ⟨hown, hwhole⟩ := hD.inits id d init hd hinit
        have hback : id < next := (href id hid).2.resolve_right (Nat.not_le.mpr hown)
        have hsame : expr (named env budget) init =
            (expr (named env budget') init : Except Failure (Option (Constant α))) :=
          expr_congr (fun ref' href' => named_congr hD budget budget' id ref' href'
            (Nat.lt_of_lt_of_le hback (Nat.lt_succ_iff.mp hb))
            (Nat.lt_of_lt_of_le hback (Nat.lt_succ_iff.mp hb'))) hwhole
        simp only [hsame]

end Reduce

section Reduce

variable {α : Type} [Scalar α] {env : Env} {n : Nat}

/-- A budget larger than the table gives what `reduce` gives. -/
theorem reduce_congr (hD : Ordered n env.decls) {e : Expr} (he : e.Whole (· < env.decls.length))
    {budget : Nat} (hbudget : env.decls.length < budget) :
    Reduce.expr (Reduce.named env budget) e =
      (reduce env e : Except Failure (Option (Constant α))) := by
  have hknown : e.Whole (Known n env.decls.length env.decls.length) :=
    he.mono fun _ hid => ⟨hid, .inl hid⟩
  exact Reduce.expr_congr (fun ref href =>
    Reduce.named_congr hD _ _ _ ref href hbudget (Nat.lt_succ_self _)) hknown

theorem reduce_ne_cycle (hD : Ordered n env.decls) {e : Expr}
    (he : e.Whole (· < env.decls.length)) (name : Bytes) :
    (reduce env e : Except Failure (Option (Constant α))) ≠ .error (.cycle name) := by
  intro h
  have hreported : Failure.Reported (.cycle name) := orderly_reduce hD he _ h
  cases hreported

end Reduce

/-! ## The expressions of a tree -/

namespace Program

section Whole

variable {V : DeclId → Prop}

mutual

theorem Expr.Whole.of_mem_refs : ∀ {e : Expr}, e.Whole V → ∀ id ∈ e.refs, V id
  | .int _ _, _ | .float _ _, _ | .bool _ _, _ => fun _ hid => by cases hid
  | .var _, h => fun id hid => h id (Option.mem_toList.mp hid)
  | .index _ _ _, h => fun id hid => h.1 id (Option.mem_toList.mp hid)
  | .unary _ _ _ _, h => h.1.of_mem_refs
  | .binary _ _ _ _ _, h => List.forall_mem_append.mpr ⟨h.1.of_mem_refs, h.2.1.of_mem_refs⟩
  | .call _ _ _ _, h => h.1.of_mem_listRefs
  | .construct _ _ _, h => h.1.of_mem_listRefs

theorem Expr.ListWhole.of_mem_listRefs :
    ∀ {es : List Expr}, Expr.ListWhole V es → ∀ id ∈ Expr.listRefs es, V id
  | [], _ => fun _ hid => by cases hid
  | _ :: _, h => List.forall_mem_append.mpr ⟨h.1.of_mem_refs, h.2.of_mem_listRefs⟩

end

mutual

theorem Expr.Whole.parts : ∀ {e : Expr}, e.Whole V → ∀ f ∈ e.parts, f.Whole V
  | .int _ _, h | .float _ _, h | .bool _ _, h | .var _, h => List.forall_mem_singleton.mpr h
  | .index _ _ _, h => List.forall_mem_cons.mpr ⟨h, List.forall_mem_singleton.mpr h.1⟩
  | .unary _ _ _ _, h => List.forall_mem_cons.mpr ⟨h, h.1.parts⟩
  | .binary _ _ _ _ _, h =>
    List.forall_mem_cons.mpr ⟨h, List.forall_mem_append.mpr ⟨h.1.parts, h.2.1.parts⟩⟩
  | .call _ _ _ _, h => List.forall_mem_cons.mpr ⟨h, h.1.parts⟩
  | .construct _ _ _, h => List.forall_mem_cons.mpr ⟨h, h.1.parts⟩

theorem Expr.ListWhole.parts :
    ∀ {es : List Expr}, Expr.ListWhole V es → ∀ f ∈ Expr.listParts es, f.Whole V
  | [], _ => fun _ hf => by cases hf
  | _ :: _, h => List.forall_mem_append.mpr ⟨h.1.parts, h.2.parts⟩

end

mutual

theorem Stmt.Whole.exprs : ∀ {st : Stmt}, st.Whole V → ∀ f ∈ st.exprs, f.Whole V
  | .assign _ _ _, h => List.forall_mem_append.mpr ⟨h.1.parts, h.2.parts⟩
  | .branch _ _ none, h => List.forall_mem_append.mpr ⟨h.1.parts, h.2.exprs⟩
  | .branch _ _ (some _), h => List.forall_mem_append.mpr
    ⟨List.forall_mem_append.mpr ⟨h.1.parts, h.2.1.exprs⟩, h.2.2.exprs⟩
  | .loop _ _ _, h => List.forall_mem_append.mpr ⟨h.1.parts, h.2.exprs⟩
  | .scope _ _, h => h.2.exprs

theorem Stmt.ListWhole.exprs :
    ∀ {ss : List Stmt}, Stmt.ListWhole V ss → ∀ f ∈ Stmt.listExprs ss, f.Whole V
  | [], _ => fun _ hf => by cases hf
  | _ :: _, h => List.forall_mem_append.mpr ⟨h.1.exprs, h.2.exprs⟩

end

end Whole

/-- The expressions of a program without gaps have none. -/
theorem Intact.exprs {p : Program} (h : p.Intact) :
    ∀ e ∈ p.exprs, e.Whole (· < p.decls.length) := by
  obtain ⟨n, -, hD⟩ := h.table
  obtain ⟨body, hbody, hwhole⟩ := h.body
  refine List.forall_mem_append.mpr ⟨fun e he => ?_, ?_⟩
  · obtain ⟨d, hd, he⟩ := List.mem_flatMap.mp he
    cases hinit : d.init with
    | none =>
      rw [hinit] at he
      cases he
    | some init =>
      rw [hinit] at he
      obtain ⟨id, hid⟩ := List.getElem?_of_mem hd
      have hinitWhole : init.Whole (· < p.decls.length) :=
        (hD.inits id d init hid hinit).2.mono fun _ h => h.1
      exact hinitWhole.parts e he
  · rw [hbody]
    exact hwhole.2.exprs

end Program

/-- **Folding ends on every expression of a checked tree**, whatever the text. A symbol table can be
built, and the names of an initializer, where they are bound, are bound to variables that are listed
strictly before the one it belongs to. So no chain of the calls that folding makes goes on for ever;
folding never finds itself in a cycle, and no budget larger than the table makes a difference. -/
theorem reduce_terminates {α : Type} [Scalar α] (source : Bytes) :
    let p := (Program.ofAst (parse source).body).check.program
    ∃ symbols, Symbols.build p = .ok symbols ∧ (symbols.entries.map (·.1)).Nodup ∧
      (∀ (id : DeclId) (d : Declaration) (init : Expr), p.decls[id]? = some d →
        d.init = some init → ∀ id' ∈ init.refs, [id', id].Sublist (symbols.entries.map (·.1))) ∧
      ∀ e ∈ p.exprs, Acc (Calls p.decls) e ∧
        (∀ name, (reduce ⟨p.decls, symbols⟩ e : Except Failure (Option (Constant α))) ≠
          .error (.cycle name)) ∧
        ∀ budget, p.decls.length < budget →
          Reduce.expr (Reduce.named ⟨p.decls, symbols⟩ budget) e =
            (reduce ⟨p.decls, symbols⟩ e : Except Failure (Option (Constant α))) := by
  intro p
  have hnamed := namedStmt_parse source
  have hD : Ordered _ p.decls := Checker.ordered_check hnamed
  have hexprs := (Checker.intact_check hnamed).2.exprs
  obtain ⟨own, hdecls, hlen, -⟩ := Checker.exists_own_check hnamed
  have hsize : p.decls.length = (astDecls (parse source).body.toStmt).length +
      predefinedDecls.length := by
    show (Program.ofAst (parse source).body).check.program.decls.length = _
    rw [hdecls, List.length_append, hlen]
  obtain ⟨symbols, hbuild, hids⟩ := Checker.exists_build_check hnamed
  refine ⟨symbols, hbuild, ?_, fun id d init hd hinit id' hid' => ?_, fun e he => ?_⟩
  · exact (Symbols.listed_build hbuild).ids_nodup
  · obtain ⟨hown, hwhole⟩ := hD.inits id d init hd hinit
    have hknown := hwhole.of_mem_refs id' hid'
    rw [hsize] at hknown
    rw [hids]
    exact pair_sublist_of_known hown hknown
  · have hwhole := hexprs e he
    refine ⟨acc_calls hD (hwhole.mono fun _ hid => ⟨hid, .inl hid⟩), reduce_ne_cycle hD hwhole, ?_⟩
    exact fun budget hbudget => reduce_congr hD hwhole hbudget

end Shader
