import Shader.Number.Decimal
import Shader.Proofs.CheckerRuns

/-!
# Expressions and the checker

Completeness first: along a derivation every step of the check is quiet, and the run leaves the
state as it was and gives exactly the expression and type that the derivation names. Soundness then
only has to find a derivation for a quiet run; what the run gave is known from completeness.

The checker trusts the types it finds written in a tree, so soundness asks that they are types of
the language.
-/

namespace Shader.Checker

open Program (Expr)
open Typing TypeSystem

variable {Γ : Context} {s : State}

/-! ## Along a derivation of an expression -/

/-- Where a rule for the operator applies, the check finds its type and reports nothing. -/
theorem exec_unaryType {pos : Pos} {op : UnaryOp} {a t : Ty} (ha : Named a)
    (h : UnaryRule op a t) : exec (unaryType pos op a) s = (t, s) := by
  rw [unaryType, if_neg (by rw [ha.isValid]; simp), unaryResult?_eq_some_iff.mpr h]
  rfl

theorem exec_binaryType {pos : Pos} {op : BinaryOp} {l r t : Ty} (hl : Named l) (hr : Named r)
    (h : BinaryRule op l r t) : exec (binaryType pos op l r) s = (t, s) := by
  rw [binaryType, if_neg (by rw [hl.isValid, hr.isValid]; simp), binaryResult?_eq_some_iff.mpr h]
  rfl

theorem ofName?_name (f : Function) : Function.ofName? f.name = some f := by
  cases f <;> rfl

theorem all_isValid {ts : List Ty} (h : ∀ t ∈ ts, Named t) : ts.all Ty.isValid = true :=
  List.all_eq_true.mpr fun t ht => (h t ht).isValid

theorem exec_callType {pos : Pos} {f : Function} {ts : List Ty} {t : Ty}
    (hts : ∀ t ∈ ts, Named t) (h : CallRule f ts t) :
    exec (callType pos f.name ts) s = (t, s) := by
  rw [callType, ofName?_name]
  dsimp only
  rw [if_neg (by rw [all_isValid hts]; simp), result?_eq_some_iff.mpr h]
  rfl

/-- An argument of a constructor fits if it is of the type of one component. -/
theorem exec_componentFits {type : Ty} {pos : Pos} (h : Named type.scalar) :
    exec (componentFits type pos type.scalar) s = (true, s) := by
  rw [componentFits, if_neg (by rw [h.isValid]; simp), if_neg (by simp)]
  rfl

/-- As long as the check goes on, the type that was found is the one that is kept. -/
theorem exec_settle_running (hs : s.stopped = none) (old found : Ty) :
    exec (settle old found) s = (found, s) := by
  rw [exec_settle, if_pos (by rw [State.running, hs]; rfl)]

/-- A variable that the rules let an expression read is checked without a diagnostic. The name is
resolved first, then asked whether it can be read, and an index comes last. -/
theorem exec_checkVar (hΓ : Matches Γ s) {v : Ast.Var} {v' : Expr} {x : Variable} {t : Ty}
    (h : Access Γ v v' x t) (hq : x.qualifier ≠ .result) :
    exec (checkExpr (Expr.ofVar v)) s = ((v', t), s) := by
  have hvalid : t.isValid = true := (h.named hΓ.named).isValid
  cases h with
  | whole hx =>
    rw [Expr.ofVar, checkExpr, exec_whileRunning, if_pos hΓ.running, exec_bind, hΓ.exec_resolve hx]
    dsimp only
    rw [if_neg (by rw [hvalid]; simp), exec_bind, hΓ.exec_readable hx hq]
    rfl
  | component hx hv hi =>
    obtain ⟨b, hb, hmem⟩ := hx.mem
    rw [Expr.ofVar, checkExpr, exec_whileRunning, if_pos hΓ.running, exec_bind, hΓ.exec_resolve hx]
    dsimp only
    rw [if_neg (by rw [(hΓ.named b hb _ hmem).isValid]; simp), exec_bind,
      hΓ.exec_readable hx hq]
    dsimp only
    rw [if_pos rfl, exec_bind, hΓ.exec_component hx hv hi]
    rfl

mutual

/-- **A typed expression is checked without a diagnostic**, and the check fills in what the
derivation says. -/
theorem exec_checkExpr (hΓ : Matches Γ s) :
    ∀ {e : Ast.Expr} {e' : Expr} {t : Ty}, Typed Γ e e' t →
      exec (checkExpr (Expr.ofAst e)) s = ((e', t), s)
  | _, _, _, .int => by rw [Expr.ofAst, checkExpr]; rfl
  | _, _, _, .float => by rw [Expr.ofAst, checkExpr]; rfl
  | _, _, _, .bool => by rw [Expr.ofAst, checkExpr]; rfl
  | _, _, _, .var ha hq => by rw [Expr.ofAst]; exact exec_checkVar hΓ ha hq
  | _, _, _, .unary he hop => by
    rw [Expr.ofAst, checkExpr, exec_bind, exec_checkExpr hΓ he]
    dsimp only
    rw [exec_bind, exec_unaryType (he.named hΓ.named) hop]
    dsimp only
    rw [exec_bind, exec_settle_running hΓ.stopped]
    rfl
  | _, _, _, .binary he hf hop => by
    rw [Expr.ofAst, checkExpr, exec_bind, exec_checkExpr hΓ he]
    dsimp only
    rw [exec_bind, exec_checkExpr hΓ hf]
    dsimp only
    rw [exec_bind, exec_binaryType (he.named hΓ.named) (hf.named hΓ.named) hop]
    dsimp only
    rw [exec_bind, exec_settle_running hΓ.stopped]
    rfl
  | _, _, _, .call hargs hcall => by
    rw [Expr.ofAst, checkExpr, exec_bind, exec_checkArgs hΓ hargs]
    dsimp only
    rw [exec_bind, exec_callType (hargs.named hΓ.named) hcall]
    dsimp only
    rw [exec_bind, exec_settle_running hΓ.stopped]
    rfl
  | _, _, _, .construct (b := b) (n := n) ht hargs => by
    rw [Expr.ofAst, checkExpr, exec_bind,
      exec_checkComponents hΓ ⟨b, n⟩ ht.scalar (fun _ => List.eq_of_mem_replicate) hargs]
    dsimp only
    rw [if_neg (by rw [hargs.length]; simp)]
    rfl

/-- Arguments are checked from left to right, each in the state of the first. -/
theorem exec_checkArgs (hΓ : Matches Γ s) :
    ∀ {es : List Ast.Expr} {es' : List Expr} {ts : List Ty}, TypedList Γ es es' ts →
      exec (checkArgs (Expr.ofAsts es)) s = ((es', ts), s)
  | _, _, _, .nil => by rw [Expr.ofAsts, checkArgs]; rfl
  | _, _, _, .cons he hes => by
    rw [Expr.ofAsts, checkArgs, exec_bind, exec_checkExpr hΓ he]
    dsimp only
    rw [exec_bind, exec_checkArgs hΓ hes]
    rfl

/-- Arguments of a constructor all fit if each is of the type of one component. -/
theorem exec_checkComponents (hΓ : Matches Γ s) (type : Ty) (hscalar : Named type.scalar) :
    ∀ {es : List Ast.Expr} {es' : List Expr} {ts : List Ty}, (∀ t ∈ ts, t = type.scalar) →
      TypedList Γ es es' ts → exec (checkComponents type (Expr.ofAsts es)) s = ((es', true), s)
  | _, _, _, _, .nil => by rw [Expr.ofAsts, checkComponents]; rfl
  | _, _, t :: _, hts, .cons he hes => by
    rw [Expr.ofAsts, checkComponents, exec_bind, exec_checkExpr hΓ he]
    dsimp only
    rw [exec_bind, hts t (by simp), exec_componentFits hscalar]
    dsimp only
    rw [exec_bind, exec_checkComponents hΓ type hscalar (fun t ht => hts t (by simp [ht])) hes]
    rfl

end

/-! ## From a quiet run of an expression -/

mutual

/-- An expression that constructs only types of the language, and whose integers are in range. -/
def NamedExpr : Ast.Expr → Prop
  | .int _ n => n ≤ Number.maxInteger
  | .unary _ _ e => NamedExpr e
  | .binary _ _ e f => NamedExpr e ∧ NamedExpr f
  | .call _ _ args => NamedExprs args
  | .construct _ t args => Named t ∧ NamedExprs args
  | _ => True

/-- Expressions that construct only types of the language, and whose integers are in range. -/
def NamedExprs : List Ast.Expr → Prop
  | [] => True
  | e :: es => NamedExpr e ∧ NamedExprs es

end

/-- A name that is resolved quietly is in scope: otherwise the first thing that happens is a
report. -/
theorem finds_of_quiet (hΓ : Matches Γ s) {β : Type} {name : Bytes} {pos : Pos}
    {f : Ref × Ty → CheckM β} (hf : ∀ a, Grows (f a))
    (h : Quiet (resolve ⟨name, none, pos⟩ >>= f) s) : ∃ x, Γ.Finds name x := by
  have hq := (h.bind (grows.resolve _) (hf _)).1
  cases hid : s.lookup? name with
  | some id => exact hΓ.finds_of_lookup? hid
  | none =>
    -- a name that nothing is found for is reported, which a quiet step cannot do
    have hrun : exec (resolve ⟨name, none, pos⟩) s =
        exec (report pos (.undeclared name) >>= fun _ => pure (⟨name, none, pos⟩, .invalid)) s := by
      rw [resolve, exec_bind, exec_get]
      dsimp only
      rw [hid]
    rw [Quiet, hrun] at hq
    exact absurd hq (not_quiet_report hΓ.stopped (grows.pure _))

/-- A variable that is read quietly is no output. -/
theorem qualifier_of_quiet (hΓ : Matches Γ s) {name : Bytes} {x : Variable} {pos : Pos}
    (hx : Γ.Finds name x) (h : Quiet (readable ⟨name, some x.id, pos⟩) s) :
    x.qualifier ≠ .result := by
  intro hq
  have h' := h.after (hΓ.exec_qualifier? hx pos)
  rw [hq] at h'
  exact not_quiet_report hΓ.stopped (grows.pure _) h'

/-- An index that is checked quietly goes into a vector, and to a component that it has. -/
theorem index_of_quiet (hΓ : Matches Γ s) {name : Bytes} {x : Variable} {pos : Pos} {i : Nat}
    {old : Ty} (hx : Γ.Finds name x) (h : Quiet (component ⟨name, some x.id, pos⟩ i old) s) :
    1 < x.type.order ∧ i < x.type.order := by
  obtain ⟨b, hb, hmem⟩ := hx.mem
  have h' := h.after (exec_get s)
  dsimp only at h'
  rw [hΓ.refType_of_finds hx, if_neg (by rw [(hΓ.named b hb _ hmem).isValid]; simp)] at h'
  split at h'
  · exact absurd h' (not_quiet_report hΓ.stopped (grows.pure _))
  · rename_i hv
    split at h'
    · exact absurd h' (not_quiet_report hΓ.stopped (grows.pure _))
    · rename_i hi
      simp [Ty.isVector] at hv hi
      omega

/-- **A variable that is checked quietly can be read by the rules.** Each step of the check is quiet
by itself, and each gives one premise of the rule. -/
theorem access_of_quiet (hΓ : Matches Γ s) {v : Ast.Var}
    (h : Quiet (checkExpr (Expr.ofVar v)) s) :
    ∃ v' x t, Access Γ v v' x t ∧ x.qualifier ≠ .result := by
  obtain ⟨pos, name, index⟩ := v
  cases index with
  | none =>
    rw [Expr.ofVar, checkExpr, Quiet, exec_whileRunning, if_pos hΓ.running] at h
    obtain ⟨x, hx⟩ := finds_of_quiet hΓ (fun _ => grows.ite (grows.pure _) <|
      grows.bind (grows.readable _) fun _ => grows.ite (grows.pure _) (grows.pure _)) h
    obtain ⟨b, hb, hmem⟩ := hx.mem
    have h' := Quiet.after h (hΓ.exec_resolve hx pos)
    dsimp only at h'
    rw [if_neg (by rw [(hΓ.named b hb _ hmem).isValid]; simp)] at h'
    have hr := (h'.bind (grows.readable _) (grows.ite (grows.pure _) (grows.pure _))).1
    exact ⟨_, x, _, .whole hx, qualifier_of_quiet hΓ hx hr⟩
  | some i =>
    rw [Expr.ofVar, checkExpr, Quiet, exec_whileRunning, if_pos hΓ.running] at h
    have hrest : ∀ (ref : Ref), Grows (component ref (↑i) .invalid >>= fun a =>
        (pure (Expr.index ref (↑i) a.1, a.2) : CheckM (Expr × Ty))) := fun _ =>
      grows.bind (grows.component _ _ _) fun _ => grows.pure _
    obtain ⟨x, hx⟩ := finds_of_quiet hΓ (fun _ => grows.ite (grows.pure _) <|
      grows.bind (grows.readable _) fun _ => grows.ite (hrest _) (grows.pure _)) h
    obtain ⟨b, hb, hmem⟩ := hx.mem
    have h' := Quiet.after h (hΓ.exec_resolve hx pos)
    dsimp only at h'
    rw [if_neg (by rw [(hΓ.named b hb _ hmem).isValid]; simp)] at h'
    have hr := (h'.bind (grows.readable _) (grows.ite (hrest _) (grows.pure _))).1
    -- the name can be read, so the check goes on to the index
    have hq := qualifier_of_quiet hΓ hx hr
    have h'' := h'.after (hΓ.exec_readable hx hq pos)
    rw [if_pos rfl] at h''
    have hi := index_of_quiet hΓ hx (h''.bind (grows.component _ _ _) (grows.pure _)).1
    exact ⟨_, x, _, .component hx hi.1 hi.2, hq⟩

/-- A quiet check of an operator has found a rule for it, as the type is looked up in a table that
has exactly the rules. -/
theorem unaryRule_of_quiet (hs : s.stopped = none) {pos : Pos} {op : UnaryOp} {a : Ty}
    (ha : Named a) (h : Quiet (unaryType pos op a) s) : ∃ t, UnaryRule op a t := by
  rw [unaryType, if_neg (by rw [ha.isValid]; simp)] at h
  cases hr : unaryResult? op a with
  | some t => exact ⟨t, unaryResult?_eq_some_iff.mp hr⟩
  | none =>
    rw [hr] at h
    exact absurd h (not_quiet_report hs (grows.pure _))

theorem binaryRule_of_quiet (hs : s.stopped = none) {pos : Pos} {op : BinaryOp} {l r : Ty}
    (hl : Named l) (hr : Named r) (h : Quiet (binaryType pos op l r) s) :
    ∃ t, BinaryRule op l r t := by
  rw [binaryType, if_neg (by rw [hl.isValid, hr.isValid]; simp)] at h
  cases hop : binaryResult? op l r with
  | some t => exact ⟨t, binaryResult?_eq_some_iff.mp hop⟩
  | none =>
    rw [hop] at h
    exact absurd h (not_quiet_report hs (grows.pure _))

/-- A call that is checked quietly is of a function of the target, with arguments that it takes. -/
theorem callRule_of_quiet (hs : s.stopped = none) {pos : Pos} {func : Bytes} {ts : List Ty}
    (hts : ∀ t ∈ ts, Named t) (h : Quiet (callType pos func ts) s) :
    ∃ f t, func = Function.name f ∧ CallRule f ts t := by
  rw [callType] at h
  cases hf : Function.ofName? func with
  | none =>
    rw [hf] at h
    exact absurd h (not_quiet_report hs (grows.pure _))
  | some f =>
    rw [hf] at h
    dsimp only at h
    rw [if_neg (by rw [all_isValid hts]; simp)] at h
    have hname := List.find?_some hf
    cases hr : f.result? ts with
    | some t => exact ⟨f, t, (beq_iff_eq.mp hname).symm, result?_eq_some_iff.mp hr⟩
    | none =>
      rw [hr] at h
      exact absurd h (not_quiet_report hs (grows.pure _))

/-- An argument of a constructor that is checked quietly has the type of one component. -/
theorem scalar_of_quiet (hs : s.stopped = none) {type given : Ty} {pos : Pos}
    (hgiven : Named given) (h : Quiet (componentFits type pos given) s) : given = type.scalar := by
  rw [componentFits, if_neg (by rw [hgiven.isValid]; simp)] at h
  split at h
  · exact absurd h (not_quiet_report hs (grows.pure _))
  · rename_i heq
    simpa using heq

mutual

/-- **An expression that is checked without a diagnostic is typed.** -/
theorem typed_of_quiet (hΓ : Matches Γ s) :
    ∀ e : Ast.Expr, NamedExpr e → Quiet (checkExpr (Expr.ofAst e)) s → ∃ e' t, Typed Γ e e' t
  | .int _ _, _, _ => ⟨_, _, .int⟩
  | .float _ _, _, _ => ⟨_, _, .float⟩
  | .bool _ _, _, _ => ⟨_, _, .bool⟩
  | .var v, _, h => by
    rw [Expr.ofAst] at h
    obtain ⟨v', x, t, ha, hq⟩ := access_of_quiet hΓ h
    exact ⟨v', t, .var ha hq⟩
  | .unary pos op e, hn, h => by
    rw [Expr.ofAst, checkExpr] at h
    have hrest : ∀ e' a, Grows (unaryType pos op a >>= fun t => settle .invalid t >>= fun t =>
        (pure (Expr.unary pos op e' t, t) : CheckM (Expr × Ty))) := fun _ _ =>
      grows.bind (grows.unaryType _ _ _) fun _ =>
        grows.bind (grows.settle _ _) fun _ => grows.pure _
    -- the operand is quiet, so it has a type, and the operator is checked at that type
    obtain ⟨e', a, he⟩ := typed_of_quiet hΓ e hn (h.bind (grows.checkExpr _) (hrest _ _)).1
    have hop := h.after (exec_checkExpr hΓ he)
    obtain ⟨t, ht⟩ := unaryRule_of_quiet hΓ.stopped (he.named hΓ.named)
      (hop.bind (grows.unaryType _ _ _) (grows.bind (grows.settle _ _) fun _ => grows.pure _)).1
    exact ⟨_, t, .unary he ht⟩
  | .binary pos op e f, hn, h => by
    rw [Expr.ofAst, checkExpr] at h
    have hrest : ∀ e' f' l r, Grows (binaryType pos op l r >>= fun t =>
        settle .invalid t >>= fun t =>
        (pure (Expr.binary pos op e' f' t, t) : CheckM (Expr × Ty))) := fun _ _ _ _ =>
      grows.bind (grows.binaryType _ _ _ _) fun _ =>
        grows.bind (grows.settle _ _) fun _ => grows.pure _
    -- left operand, right operand and operator, each quiet because nothing behind it takes a report
    -- back
    obtain ⟨e', l, he⟩ := typed_of_quiet hΓ e hn.1
      (h.bind (grows.checkExpr _) (grows.bind (grows.checkExpr _) fun _ => hrest _ _ _ _)).1
    have h' := h.after (exec_checkExpr hΓ he)
    obtain ⟨f', r, hf⟩ := typed_of_quiet hΓ f hn.2
      (h'.bind (grows.checkExpr _) (hrest _ _ _ _)).1
    have hop := h'.after (exec_checkExpr hΓ hf)
    obtain ⟨t, ht⟩ := binaryRule_of_quiet hΓ.stopped (he.named hΓ.named) (hf.named hΓ.named)
      (hop.bind (grows.binaryType _ _ _ _) (grows.bind (grows.settle _ _) fun _ => grows.pure _)).1
    exact ⟨_, t, .binary he hf ht⟩
  | .call pos func args, hn, h => by
    rw [Expr.ofAst, checkExpr] at h
    have hrest : ∀ args' ts, Grows (callType pos func ts >>= fun t => settle .invalid t >>= fun t =>
        (pure (Expr.call pos func args' t, t) : CheckM (Expr × Ty))) := fun _ _ =>
      grows.bind (grows.callType _ _ _) fun _ => grows.bind (grows.settle _ _) fun _ => grows.pure _
    obtain ⟨args', ts, hargs⟩ := typedList_of_quiet hΓ args hn
      (h.bind (grows.checkArgs _) (hrest _ _)).1
    have hop := h.after (exec_checkArgs hΓ hargs)
    obtain ⟨f, t, rfl, ht⟩ := callRule_of_quiet hΓ.stopped (hargs.named hΓ.named)
      (hop.bind (grows.callType _ _ _) (grows.bind (grows.settle _ _) fun _ => grows.pure _)).1
    exact ⟨_, t, .call hargs ht⟩
  | .construct pos type args, hn, h => by
    rw [Expr.ofAst, checkExpr] at h
    obtain ⟨args', hargs⟩ := components_of_quiet hΓ hn.1 args hn.2
      (h.bind (grows.checkComponents _ _)
        (grows.ite (grows.bind (grows.report _ _) fun _ => grows.pure _) (grows.pure _))).1
    have hcount := h.after (exec_checkComponents hΓ type hn.1.scalar
      (fun _ => List.eq_of_mem_replicate) hargs)
    dsimp only at hcount
    -- the number of arguments is compared last
    split at hcount
    · exact absurd hcount (not_quiet_report hΓ.stopped (grows.pure _))
    · rename_i hlen
      obtain ⟨b, n⟩ := type
      have hn' : (args.length : Int) = n := by
        rw [hargs.length] at hlen
        simpa using hlen
      subst hn'
      exact ⟨_, _, .construct hn.1 hargs⟩

/-- Arguments that are checked without a diagnostic are typed. What the first of them leaves is
known from completeness, so that the others are checked in a state that matches the context too. -/
theorem typedList_of_quiet (hΓ : Matches Γ s) :
    ∀ es : List Ast.Expr, NamedExprs es → Quiet (checkArgs (Expr.ofAsts es)) s →
      ∃ es' ts, TypedList Γ es es' ts
  | [], _, _ => ⟨_, _, .nil⟩
  | e :: es, hn, h => by
    rw [Expr.ofAsts, checkArgs] at h
    obtain ⟨e', t, he⟩ := typed_of_quiet hΓ e hn.1
      (h.bind (grows.checkExpr _) (grows.bind (grows.checkArgs _) fun _ => grows.pure _)).1
    have h' := h.after (exec_checkExpr hΓ he)
    obtain ⟨es', ts, hes⟩ := typedList_of_quiet hΓ es hn.2
      (h'.bind (grows.checkArgs _) (grows.pure _)).1
    exact ⟨_, _, .cons he hes⟩

/-- Arguments of a constructor that are checked without a diagnostic all have the type of one
component. -/
theorem components_of_quiet (hΓ : Matches Γ s) {type : Ty} (ht : Named type) :
    ∀ es : List Ast.Expr, NamedExprs es → Quiet (checkComponents type (Expr.ofAsts es)) s →
      ∃ es', TypedList Γ es es' (List.replicate es.length type.scalar)
  | [], _, _ => ⟨_, .nil⟩
  | e :: es, hn, h => by
    rw [Expr.ofAsts, checkComponents] at h
    have hrest : ∀ e' : Expr, Grows (checkComponents type (Expr.ofAsts es) >>= fun a =>
        (pure (e' :: a.1, a.2) : CheckM (List Expr × Bool))) := fun _ =>
      grows.bind (grows.checkComponents _ _) fun _ => grows.pure _
    obtain ⟨e', t, he⟩ := typed_of_quiet hΓ e hn.1
      (h.bind (grows.checkExpr _) (grows.bind (grows.componentFits _ _ _) fun _ =>
        grows.bind (grows.checkComponents _ _) fun _ => grows.pure _)).1
    have h' := h.after (exec_checkExpr hΓ he)
    have hfit := scalar_of_quiet hΓ.stopped (he.named hΓ.named)
      (h'.bind (grows.componentFits _ _ _)
        (grows.bind (grows.checkComponents _ _) fun _ => grows.pure _)).1
    subst hfit
    have h'' := h'.after (exec_componentFits ht.scalar)
    obtain ⟨es', hes⟩ := components_of_quiet hΓ ht es hn.2
      (h''.bind (grows.checkComponents _ _) (grows.pure _)).1
    exact ⟨_, .cons he hes⟩

end

end Shader.Checker
