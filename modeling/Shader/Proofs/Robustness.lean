import Shader.Proofs.IntactPrograms
import Shader.Proofs.LoweringTotal

/-!
# Every text gets an answer

A compilation can fail in four ways. Two of them are answers: a defect of the tree, and a loop. The
other two have no message of their own: a vector of more components than a register has, and a
constant that is folded through itself. No text leads to those, checked or not and with whatever
errors, because its tree has no gaps.

`Orderly` says that a result is no failure of the second kind, and `Careful` says it of a step of
code generation. Both go through `do`.
-/

namespace Shader

open Program (Expr Stmt Known Ordered Intact)
open Number (Scalar)

/-- A failure that is an answer. -/
inductive Failure.Reported : Failure → Prop
  | internal (d : Defect) : Reported (.internal d)
  | loop (pos : Pos) : Reported (.loop pos)

/-- A result that is no failure, or one that is an answer. -/
def Orderly {β : Type} (r : Except Failure β) : Prop := ∀ e, r = .error e → e.Reported

section Orderly

variable {β γ : Type}

theorem orderly_ok (b : β) : Orderly (.ok b : Except Failure β) := by
  intro e he
  cases he

theorem orderly_internal (d : Defect) : Orderly (.error (.internal d) : Except Failure β) := by
  intro e he
  cases he
  exact .internal d

theorem Orderly.error {r : Except Failure β} {e : Failure} (h : Orderly r) (hr : r = .error e) :
    Orderly (.error e : Except Failure γ) := by
  intro e' he'
  cases he'
  exact h e hr

/-- Orderly results can be put together. -/
theorem orderly_bind {r : Except Failure β} {f : β → Except Failure γ} (hr : Orderly r)
    (hf : ∀ b, Orderly (f b)) : Orderly (r >>= f) := by
  cases r with
  | error e => exact hr.error rfl
  | ok b => exact hf b

end Orderly

/-! ## Folding -/

namespace Reduce

variable {α : Type} [Scalar α]

theorem orderly_componentOf (i : Int) : Orderly (componentOf i) := by
  unfold componentOf
  split
  · exact orderly_ok _
  · exact orderly_internal _

theorem orderly_component (op : BinaryOp) (x y : α) : Orderly (component op x y) := by
  cases op with
  | add | sub | mul | div | pow | and | or => exact orderly_ok _
  | lt | le | gt | ge | eq | ne | unknown => exact orderly_internal _

/-- Components are folded in order, up to the first without a value. -/
theorem orderly_components (op : BinaryOp) : ∀ pairs : List (α × α), Orderly (components op pairs)
  | [] => orderly_ok _
  | (x, y) :: rest => by
    refine orderly_bind (orderly_component op x y) fun z => ?_
    cases z with
    | none => exact orderly_ok _
    | some z => exact orderly_bind (orderly_components op rest) fun _ => orderly_ok _

/-- Folding an operator on numbers fails for an unknown operator at most, which is a defect of the
tree. -/
theorem orderly_binary (op : BinaryOp) (l r : List α) : Orderly (binary op l r) := by
  unfold binary
  dsimp only
  split
  -- the orders, on scalars only
  iterate 4
    · split <;> exact orderly_ok _
  -- equality and its negation, on values of one length
  iterate 2
    · split <;> exact orderly_ok _
  · split
    · exact orderly_ok _
    · exact orderly_components op _

omit [Scalar α] in
/-- An index of a register can be out of range, which is a defect as well. -/
theorem orderly_index (c : Constant α) (i : Int) : Orderly (index c i) := by
  cases c with
  | register reg path => exact orderly_bind (orderly_componentOf i) fun _ => orderly_ok _
  | literal values => exact orderly_ok _

variable {V : DeclId → Prop} {lookup : Ref → Except Failure (Option (Constant α))}

mutual

/-- **Folding a whole expression is orderly**, if folding its names is. -/
theorem orderly_expr (hl : ∀ ref : Ref, ref.Within V → Orderly (lookup ref)) :
    ∀ {e : Expr}, e.Whole V → Orderly (expr lookup e)
  | .int _ _, _ => orderly_ok _
  | .float _ _, _ => orderly_ok _
  | .bool _ _, _ => orderly_ok _
  | .var ref, h => hl ref h
  | .index ref i _, h => by
    refine orderly_bind (hl ref h.1) fun c => ?_
    cases c with
    | none => exact orderly_ok _
    | some c => exact orderly_index c i
  | .construct _ _ _, h => orderly_bind (orderly_scalars hl h.1) fun _ => orderly_ok _
  | .unary _ _ _ _, h => by
    refine orderly_bind (orderly_expr hl h.1) fun c => ?_
    split <;> exact orderly_ok _
  | .binary _ op _ _ _, h => by
    refine orderly_bind (orderly_expr hl h.1) fun c => ?_
    split
    · refine orderly_bind (orderly_expr hl h.2.1) fun c => ?_
      split
      · exact orderly_bind (orderly_binary op _ _) fun _ => orderly_ok _
      · exact orderly_ok _
    · exact orderly_ok _
  | .call _ _ _ _, _ => orderly_ok _

theorem orderly_scalars (hl : ∀ ref : Ref, ref.Within V → Orderly (lookup ref)) :
    ∀ {es : List Expr}, Expr.ListWhole V es → Orderly (scalars lookup es)
  | [], _ => orderly_ok _
  | _ :: _, h => by
    refine orderly_bind (orderly_expr hl h.1) fun c => ?_
    split
    · exact orderly_bind (orderly_scalars hl h.2) fun _ => orderly_ok _
    · exact orderly_ok _

end

/-- **A budget larger than the place of a name is enough for it.** An initializer is bound to
earlier places, and the predefined variables behind have none. -/
theorem orderly_named {env : Env} {n : Nat} (hD : Ordered n env.decls) :
    ∀ (budget next : Nat) (ref : Ref), ref.Within (Known n env.decls.length next) →
      next < budget → Orderly (named env budget ref : Except Failure (Option (Constant α)))
  | budget + 1, next, ref, href, hbudget => by
    rw [named]
    split
    · exact orderly_internal _
    · rename_i d hd
      obtain ⟨id, hid, hd⟩ := Option.bind_eq_some_iff.mp hd
      split
      · split
        · exact orderly_ok _
        · exact orderly_internal _
      · split
        · split
          · rename_i init hinit
            obtain ⟨hown, hwhole⟩ := hD.inits id d init hd hinit
            have hback : id < next := (href id hid).2.resolve_right (Nat.not_le.mpr hown)
            exact orderly_expr (fun ref' href' => orderly_named hD budget id ref' href'
              (Nat.lt_of_lt_of_le hback (Nat.lt_succ_iff.mp hbudget))) hwhole
          · exact orderly_ok _
        · exact orderly_ok _

end Reduce

section Reduce

variable {α : Type} [Scalar α] {env : Env} {n : Nat}

/-- Folding never goes through a constant twice, as initializers only look back. -/
theorem orderly_reduce (hD : Ordered n env.decls) {e : Expr}
    (he : e.Whole (· < env.decls.length)) :
    Orderly (reduce env e : Except Failure (Option (Constant α))) := by
  have hknown : e.Whole (Known n env.decls.length env.decls.length) :=
    he.mono fun _ hid => ⟨hid, .inl hid⟩
  exact Reduce.orderly_expr (fun ref href =>
    Reduce.orderly_named hD _ _ ref href (Nat.lt_succ_self _)) hknown

theorem orderly_reduceOrZero (hD : Ordered n env.decls) {e : Expr}
    (he : e.Whole (· < env.decls.length)) :
    Orderly (reduceOrZero env e : Except Failure (ParamValue α × Bool)) := by
  refine orderly_bind (orderly_reduce hD he) fun c => ?_
  cases c <;> exact orderly_ok _

end Reduce

/-! ## Code generation -/

namespace Lower

variable {α β γ : Type}

/-- A step that is orderly from every allocator. -/
def Careful (m : Lower α β) : Prop := ∀ a, Orderly (run m a)

/-- A step that always succeeds is careful. -/
theorem careful_of_yields {m : Lower α β} {P : β → Prop} (h : Yields m P) : Careful m := by
  intro a
  obtain ⟨b, code, a', hrun, -⟩ := h a
  rw [hrun]
  exact orderly_ok _

/-- Being careful goes through `do`. -/
theorem careful : Stepwise (α := α) fun _ m => Careful m where
  pure _ _ := orderly_ok _
  bind := by
    intro β γ m f hm hf a
    rw [run_bind]
    cases hrun : run m a with
    | error e => exact (hm a).error hrun
    | ok r =>
      obtain ⟨b, code, a₁⟩ := r
      dsimp only
      cases hrun' : run (f b) a₁ with
      | error e => exact (hf b a₁).error hrun'
      | ok r => exact orderly_ok _
  emit h := careful_of_yields (runs.emit h)
  temp := careful_of_yields runs.temp
  longLived := careful_of_yields runs.longLived
  reset := careful_of_yields runs.reset

theorem careful_internal (d : Defect) : Careful (fail (.internal d) : Lower α β) :=
  fun _ => orderly_internal d

theorem careful_ofExcept {r : Except Failure β} (h : Orderly r) :
    Careful (ofExcept r : Lower α β) := by
  intro a
  cases r with
  | error e => exact h.error rfl
  | ok b => exact orderly_ok _

/-! ### Expressions -/

/-- A sized type has no more components than a register. -/
theorem careful_vectorComponents {t : Ty} (ht : t.Sized) :
    Careful (ofExcept (vectorComponents t.order) : Lower α _) := by
  refine careful_ofExcept ?_
  unfold vectorComponents
  rw [if_pos ⟨ht.1, ht.2⟩]
  exact orderly_ok _

/-- The code of an operator can be emitted, or the operator is unknown. -/
theorem careful_binary (op : BinaryOp) (l r : Operand) {left right type : Ty} (hl : left.Sized)
    (hr : right.Sized) (ht : type.Sized) :
    Careful (binary op l r left right type : Lower α Operand) :=
  careful.binary op l r careful_internal (careful_vectorComponents hl)
    (careful_vectorComponents hr) (careful_vectorComponents ht)

/-- A name without a register is a defect of the tree. -/
theorem careful_register (env : Env) (ref : Ref) :
    Careful (register env ref : Lower α Operand) := by
  refine careful_ofExcept ?_
  split
  · exact orderly_ok _
  · exact orderly_internal _

theorem careful_indexed (env : Env) (ref : Ref) (i : Int) :
    Careful (indexed env ref i : Lower α Operand) :=
  careful.bind (careful_register env ref) fun _ =>
    careful.bind (careful_ofExcept (Reduce.orderly_componentOf i)) fun _ => careful.pure _

theorem careful_target (env : Env) (e : Expr) : Careful (target env e : Lower α Operand) := by
  unfold target
  split
  · exact careful_register env _
  · exact careful_indexed env _ _
  · exact careful_internal _

theorem sized_type {decls : List Declaration} (hD : ∀ d ∈ decls, d.type.Sized)
    {V : DeclId → Prop} {e : Expr} (h : e.Whole V) : (e.type decls).Sized := by
  cases e with
  | absent => exact sized_invalid
  | int | float | bool => exact sized_one _
  | var ref => exact sized_refType hD ref
  | index | unary | call | construct => exact h.2
  | binary => exact h.2.2

variable [Scalar α] {env : Env} {n : Nat}

mutual

/-- **The code of a whole expression is emitted, or a defect is found.** -/
theorem careful_expr (hD : Ordered n env.decls) : ∀ {e : Expr}, e.Whole (· < env.decls.length) →
    Careful (expr env e : Lower α Operand)
  | .int _ _, _ => careful_of_yields (runs_immediate _)
  | .float _ _, _ => careful_of_yields (runs_immediate _)
  | .bool _ _, _ => careful_of_yields (runs_immediate _)
  | .var ref, _ => careful_register env ref
  | .index ref i _, _ => careful_indexed env ref i
  | .unary _ _ _ _, h => careful.bind (careful_expr hD h.1) fun _ => careful.result _ _
  | .binary _ op _ _ _, h => careful.bind (careful_expr hD h.1) fun _ =>
      careful.bind (careful_expr hD h.2.1) fun _ =>
        careful_binary op _ _ (sized_type hD.types h.1) (sized_type hD.types h.2.1) h.2.2
  | .call _ func _ _, h => careful.bind (careful_exprs hD h.1) fun _ =>
      careful.call careful_internal func _
  | .construct pos type args, h => by
    rw [expr]
    refine careful.bind (careful_ofExcept (orderly_reduce hD h)) fun c => ?_
    split
    · exact careful_of_yields (runs_immediate _)
    · split
      · exact careful.bind (careful_exprs hD h.1) fun _ => careful.assemble _
      · exact careful_internal _

theorem careful_exprs (hD : Ordered n env.decls) : ∀ {es : List Expr},
    Expr.ListWhole (· < env.decls.length) es → Careful (exprs env es : Lower α (List Operand))
  | [], _ => careful.pure _
  | _ :: _, h => careful.bind (careful_expr hD h.1) fun _ =>
      careful.bind (careful_exprs hD h.2) fun _ => careful.pure _

end

/-! ### Statements -/

theorem careful_decl (hD : Ordered n env.decls) (cond : Option Operand) (id : DeclId) :
    Careful (decl env cond id : Lower α Unit) :=
  careful.decl cond (fun _ => careful_register env _) fun d init hd _ hinit =>
    careful_expr hD ((hD.inits id d init hd hinit).2.mono fun _ hid => hid.1)

mutual

/-- **Code generation is orderly on a statement without gaps.** -/
theorem careful_stmt (hD : Ordered n env.decls) : ∀ (cond : Option Operand) {s : Stmt},
    s.Whole (· < env.decls.length) → Careful (stmt env cond s : Lower α Unit)
  | cond, .assign _ dst _, h => careful.bind careful.beginStatement fun _ =>
      careful.bind (careful_expr hD h.2) fun _ => careful.bind (careful_target env dst) fun _ =>
        careful.write _ _ _
  | cond, .branch _ _ none, h => by
    rw [stmt]
    exact careful.bind (careful.enterIf cond (careful_expr hD h.1)) fun _ => careful_stmt hD _ h.2
  | cond, .branch _ _ (some _), h => by
    rw [stmt]
    exact careful.bind (careful.enterIf cond (careful_expr hD h.1)) fun _ =>
      careful.bind (careful_stmt hD _ h.2.1) fun _ =>
        careful.bind (careful.enterElse cond _) fun _ => careful_stmt hD _ h.2.2
  | _, .loop pos _ _, _ => by
    intro a e he
    cases he
    exact .loop pos
  | cond, .scope ids _, h =>
    careful.bind (careful.decls cond ids fun id _ => careful_decl hD cond id) fun _ =>
      careful_stmts hD cond h.2

/-- The same for statements, where a loop is found as well. -/
theorem careful_stmts (hD : Ordered n env.decls) : ∀ (cond : Option Operand) {ss : List Stmt},
    Stmt.ListWhole (· < env.decls.length) ss → Careful (stmts env cond ss : Lower α Unit)
  | _, [], _ => careful.pure _
  | cond, _ :: _, h => careful.bind (careful_stmt hD cond h.1) fun _ => careful_stmts hD cond h.2

end

end Lower

/-! ## Programs -/

namespace Compilation

variable {α : Type}

/-- The constants of a table are declared, or a defect is found in one of their initializers. -/
theorem orderly_declare [Scalar α] {env : Env} {n : Nat} (hD : Ordered n env.decls) :
    ∀ (entries : List (DeclId × Register)) (a : Assembly α), Orderly (declare env entries a).2
  | [], _ => orderly_ok _
  | (id, reg) :: rest, a => by
    rw [declare]
    split
    · exact orderly_declare hD rest a
    · rename_i d hd
      split
      · exact orderly_declare hD rest a
      · split
        · exact orderly_declare hD rest _
        · split
          · exact orderly_internal _
          · rename_i init hinit
            have hwhole := (hD.inits id d init hd hinit).2
            have hfold := orderly_reduceOrZero (α := α) hD (hwhole.mono fun _ hid => hid.1)
            split
            · rename_i e he
              exact hfold.error he
            · exact orderly_declare hD rest _

/-- A compilation that gives a program, or says where a loop is or what is wrong with the tree. -/
def Concluded (c : Compilation α) : Prop :=
  (∃ a, c.outcome = .ok a) ∨ (∃ pos, c.outcome = .error (.loop pos)) ∨
    ∃ d, c.outcome = .error (.internal d)

/-- An orderly compilation has an answer. -/
theorem concluded_of_orderly {c : Compilation α} (h : Orderly c.outcome) : c.Concluded := by
  cases hc : c.outcome with
  | ok a => exact .inl ⟨a, hc⟩
  | error e =>
    cases h e hc with
    | internal d => exact .inr (.inr ⟨d, hc⟩)
    | loop pos => exact .inr (.inl ⟨pos, hc⟩)

end Compilation

variable {α : Type} [Scalar α]

/-- **Compiling a program without gaps is orderly.** -/
theorem orderly_compile {p : Program} (h : p.Intact) :
    Orderly (p.compile : Compilation α).outcome := by
  obtain ⟨⟨n, -, hD⟩, body, hbody, hwhole⟩ := h
  unfold Program.compile
  split
  · exact orderly_internal _
  · rename_i symbols _
    have hdeclare : Orderly
        (Compilation.declare ⟨p.decls, symbols⟩ symbols.entries ({} : Assembly α)).2 :=
      Compilation.orderly_declare hD _ _
    dsimp only
    split
    · rename_i e he
      exact hdeclare.error he
    · rename_i a _
      rw [hbody, Compilation.emit]
      have hstmt : Lower.Careful (Lower.stmt ⟨p.decls, symbols⟩ none
          (.scope body.decls body.stmts) : Lower α Unit) := Lower.careful_stmt hD none hwhole
      split
      · rename_i e he
        exact (hstmt _).error he
      · exact orderly_ok _

/-- **Every text gets an answer.** Whatever errors the text has, its tree has no gaps, the check
goes through all of it and leaves it without gaps, and compiling the tree, checked or not, gives a
program or says where a loop is or what is wrong. -/
theorem concluded_source (source : Bytes) :
    let tree := Program.ofAst (parse source).body
    tree.Intact ∧ (tree.compile : Compilation α).Concluded ∧
      tree.check.stopped = none ∧
      tree.check.program.Intact ∧ (tree.check.program.compile : Compilation α).Concluded := by
  intro tree
  have hnamed := namedStmt_parse source
  have htree : tree.Intact := Checker.intact_ofAst hnamed
  obtain ⟨hstopped, hchecked⟩ := Checker.intact_check hnamed
  exact ⟨htree, Compilation.concluded_of_orderly (orderly_compile htree), hstopped, hchecked,
    Compilation.concluded_of_orderly (orderly_compile hchecked)⟩

end Shader
