import Shader.Proofs.TypeSystem
import Shader.Typing.Check

/-!
# Runs of the checker

Two facts about a run of the checker carry the proof that it decides the type system. A run never
takes a diagnostic back, so a run that ends with as many as it began with was quiet in each of its
steps. And in a state that matches a context, a name finds what the rules find.

`Stepwise` is what a property of steps needs to hold of every check of an expression: it goes
through `do`, and a report has it.
-/

namespace Shader

/-- A declaration without its initializer. -/
def Declaration.bare (d : Declaration) : Declaration := { d with init := none }

theorem Declaration.getElem?_map_bare {α : Type} (f : Declaration → α) (hf : ∀ d, f d.bare = f d)
    (decls : List Declaration) (i : Nat) :
    (decls.map Declaration.bare)[i]?.map f = decls[i]?.map f := by
  rw [List.getElem?_map, Option.map_map]
  exact congrArg (fun g => decls[i]?.map g) (funext hf)

namespace Checker

open Program (Expr Stmt refType predefinedDecls)
open Typing TypeSystem

/-- A run of a step: its result and the state behind it. -/
def exec {α : Type} (m : CheckM α) (s : State) : α × State := StateT.run m s

section Exec

variable {α β : Type} (s : State)

/-- A run of two steps: the second begins in the state that the first leaves. -/
theorem exec_bind (m : CheckM α) (f : α → CheckM β) :
    exec (m >>= f) s = exec (f (exec m s).1) (exec m s).2 := rfl

@[simp] theorem exec_pure (a : α) : exec (pure a) s = (a, s) := rfl

@[simp] theorem exec_get : exec get s = (s, s) := rfl

@[simp] theorem exec_modify (f : State → State) : exec (modify f) s = ((), f s) := rfl

@[simp] theorem exec_report (pos : Pos) (c : Complaint) :
    exec (report pos c) s = ((), s.report pos c) := rfl

/-- Behind a part that is missing nothing is done any more. -/
theorem exec_whileRunning (a : α) (m : CheckM α) :
    exec (whileRunning a m) s = if s.running then exec m s else (a, s) := by
  show exec (if s.running = true then m else pure a) s = _
  split <;> rfl

@[simp] theorem exec_settle (old found : Ty) :
    exec (settle old found) s = (if s.running then found else old, s) := rfl

end Exec

/-! ## Steps

A check is put together from few kinds of steps. What holds of these, and goes from two steps to one
behind the other, holds of the check of every expression, by one induction.
-/

/-- The table without its initializers. -/
def State.bare (s : State) : List Declaration := s.decls.map Declaration.bare

/-- What the check of an expression looks at: all of a state but the diagnostics and the
initializers of the table. -/
def State.sight (s : State) : List Names × Option Absence × List Declaration :=
  (s.scopes, s.stopped, s.bare)

section Sight

variable {s s' : State}

theorem running_of_sight (h : s'.sight = s.sight) : s'.running = s.running :=
  congrArg (fun v => v.2.1.isNone) h

theorem lookup?_of_sight (h : s'.sight = s.sight) (name : Bytes) :
    s'.lookup? name = s.lookup? name :=
  congrArg (fun v => v.1.findSome? (·.lookup name)) h

/-- What is known of a declaration without its initializer. -/
theorem decl_of_sight {α : Type} (f : Declaration → α) (hf : ∀ d, f d.bare = f d)
    (h : s'.sight = s.sight) (o : Option DeclId) :
    (o.bind (s'.decls[·]?)).map f = (o.bind (s.decls[·]?)).map f := by
  cases o with
  | none => rfl
  | some i =>
    show s'.decls[i]?.map f = s.decls[i]?.map f
    rw [← Declaration.getElem?_map_bare f hf s'.decls, ← Declaration.getElem?_map_bare f hf s.decls]
    exact congrArg (fun v => v.2.2[i]?.map f) h

theorem refType_eq (decls : List Declaration) (ref : Ref) :
    refType decls ref = ((ref.decl.bind (decls[·]?)).map (·.type)).getD .invalid := by
  rw [refType]
  cases ref.decl.bind (decls[·]?) <;> rfl

theorem refType_of_sight (h : s'.sight = s.sight) (ref : Ref) :
    refType s'.decls ref = refType s.decls ref := by
  rw [refType_eq, refType_eq, decl_of_sight (·.type) (fun _ => rfl) h]

end Sight

/-- A property that goes from the steps of a check to the check. -/
structure Stepwise (P : ∀ α : Type, CheckM α → Prop) : Prop where
  pure : ∀ {α : Type} (a : α), P α (pure a)
  bind : ∀ {α β : Type} {m : CheckM α} {f : α → CheckM β}, P α m → (∀ a, P β (f a)) →
    P β (m >>= f)
  /-- A step may depend on what it sees of the state. -/
  look : ∀ {β : Type} {f : State → CheckM β}, (∀ s, P β (f s)) →
    (∀ s s', s'.sight = s.sight → f s' = f s) → P β (get >>= f)
  report : ∀ (pos : Pos) (c : Complaint), P Unit (report pos c)
  stop : ∀ part : Absence, P Unit (modify (·.stop part))

namespace Stepwise

variable {α : Type} {P : ∀ α : Type, CheckM α → Prop}

theorem ite (_ : Stepwise P) {c : Prop} [Decidable c] {m m' : CheckM α} (hm : P α m)
    (hm' : P α m') : P α (if c then m else m') := by
  split
  · exact hm
  · exact hm'

variable (h : Stepwise P)

include h

theorem complain (pos : Pos) (c : Complaint) (a : α) :
    P α (Checker.report pos c >>= fun _ => Pure.pure a) :=
  h.bind (h.report pos c) fun _ => h.pure a

theorem forM {γ : Type} {f : γ → CheckM Unit} (hf : ∀ a, P Unit (f a)) :
    ∀ l : List γ, P Unit (l.forM f)
  | [] => h.pure _
  | a :: l => h.bind (hf a) fun _ => forM hf l

theorem whileRunning {a : α} {m : CheckM α} (hm : P α m) : P α (whileRunning a m) :=
  h.look (fun _ => h.ite hm (h.pure a)) fun _ _ hs => by rw [running_of_sight hs]

theorem settle (old found : Ty) : P Ty (settle old found) :=
  h.look (fun _ => h.pure _) fun _ _ hs => by rw [running_of_sight hs]

/-- A name that finds nothing is reported, and nothing else is. -/
theorem resolve (ref : Ref) : P _ (resolve ref) := by
  refine h.look (fun s => ?_) fun _ _ hs => by
    simp only [lookup?_of_sight hs, refType_of_sight hs]
  dsimp only
  split
  · exact h.pure _
  · exact h.complain _ _ _

theorem qualifier? (ref : Ref) : P _ (qualifier? ref) :=
  h.look (fun _ => h.pure _) fun _ _ hs => by
    rw [decl_of_sight (·.qualifier) (fun _ => rfl) hs]

theorem readable (ref : Ref) : P _ (readable ref) :=
  h.bind (h.qualifier? ref) fun _ => h.ite (h.complain _ _ _) (h.pure _)

/-- An index is reported at most once: into what is no vector, or to a component that is not
there. -/
theorem component (ref : Ref) (i : Int) (old : Ty) : P _ (component ref i old) := by
  refine h.look (fun s => h.ite (h.pure _) ?_) fun _ _ hs => by rw [refType_of_sight hs]
  exact h.ite (h.complain _ _ _) (h.ite (h.complain _ _ _) (h.pure _))

theorem unaryType (pos : Pos) (op : UnaryOp) (t : Ty) : P _ (unaryType pos op t) := by
  refine h.ite (h.pure _) ?_
  split
  · exact h.pure _
  · exact h.complain _ _ _

theorem binaryType (pos : Pos) (op : BinaryOp) (l r : Ty) : P _ (binaryType pos op l r) := by
  refine h.ite (h.pure _) ?_
  split
  · exact h.pure _
  · exact h.complain _ _ _

/-- Of a call, the name is looked at first, then the arguments. -/
theorem callType (pos : Pos) (func : Bytes) (args : List Ty) : P _ (callType pos func args) := by
  unfold Checker.callType
  split
  · exact h.complain _ _ _
  · refine h.ite (h.pure _) ?_
    split
    · exact h.pure _
    · exact h.complain _ _ _

theorem componentFits (type : Ty) (pos : Pos) (given : Ty) : P _ (componentFits type pos given) :=
  h.ite (h.pure _) (h.ite (h.complain _ _ _) (h.pure _))

mutual

/-- **What holds of the steps holds of the check of an expression.** The induction is on the
expression, and each case is a chain of steps. -/
theorem checkExpr : ∀ e : Expr, P _ (checkExpr e)
  | .absent => by
    rw [Checker.checkExpr]
    exact h.bind (h.stop _) fun _ => h.pure _
  | .int _ _ | .float _ _ | .bool _ _ => by
    rw [Checker.checkExpr]
    exact h.pure _
  | .var ref => by
    rw [Checker.checkExpr]
    refine h.whileRunning (h.bind (h.resolve ref) fun _ => h.ite (h.pure _) ?_)
    exact h.bind (h.readable _) fun _ => h.ite (h.pure _) (h.pure _)
  | .index ref i old => by
    rw [Checker.checkExpr]
    refine h.whileRunning (h.bind (h.resolve ref) fun _ => h.ite (h.pure _) ?_)
    refine h.bind (h.readable _) fun _ => h.ite ?_ (h.pure _)
    exact h.bind (h.component _ i old) fun _ => h.pure _
  | .unary pos op x old => by
    rw [Checker.checkExpr]
    refine h.bind (checkExpr x) fun _ => h.bind (h.unaryType pos op _) fun t => ?_
    exact h.bind (h.settle old t) fun _ => h.pure _
  | .binary pos op l r old => by
    rw [Checker.checkExpr]
    refine h.bind (checkExpr l) fun _ => h.bind (checkExpr r) fun _ => ?_
    refine h.bind (h.binaryType pos op _ _) fun t => ?_
    exact h.bind (h.settle old t) fun _ => h.pure _
  | .call pos func args old => by
    rw [Checker.checkExpr]
    refine h.bind (checkArgs args) fun _ => h.bind (h.callType pos func _) fun t => ?_
    exact h.bind (h.settle old t) fun _ => h.pure _
  | .construct pos type args => by
    rw [Checker.checkExpr]
    refine h.bind (checkComponents type args) fun _ => ?_
    exact h.ite (h.complain _ _ _) (h.pure _)

theorem checkArgs : ∀ es : List Expr, P _ (checkArgs es)
  | [] => by
    rw [Checker.checkArgs]
    exact h.pure _
  | e :: es => by
    rw [Checker.checkArgs]
    exact h.bind (checkExpr e) fun _ => h.bind (checkArgs es) fun _ => h.pure _

theorem checkComponents (type : Ty) : ∀ es : List Expr, P _ (checkComponents type es)
  | [] => by
    rw [Checker.checkComponents]
    exact h.pure _
  | e :: es => by
    rw [Checker.checkComponents]
    refine h.bind (checkExpr e) fun _ => h.bind (h.componentFits type _ _) fun _ => ?_
    exact h.bind (checkComponents type es) fun _ => h.pure _

end

theorem checkCondition (c : Conditional) (e : Expr) : P _ (checkCondition c e) :=
  h.bind (h.checkExpr e) fun _ => h.ite (h.complain _ _ _) (h.pure _)

theorem boundName (ref : Ref) : P _ (boundName ref) :=
  h.look (fun _ => h.pure _) fun _ _ hs => by rw [decl_of_sight (·.name) (fun _ => rfl) hs]

/-- Of the qualifier and the type of what is assigned to, at most one is reported. -/
theorem checkWrite (pos : Pos) (ref : Ref) (target value : Ty) :
    P _ (checkWrite pos ref target value) := by
  refine h.bind (h.qualifier? ref) fun q => ?_
  split
  · exact h.bind (h.boundName ref) fun _ => h.report _ _
  · exact h.bind (h.boundName ref) fun _ => h.report _ _
  · exact h.bind (h.boundName ref) fun _ => h.report _ _
  · exact h.ite (h.report _ _) (h.pure _)

/-- A target that is neither a name nor an index is reported as a whole. -/
theorem checkTarget (pos : Pos) (target : Expr) (value : Ty) :
    P _ (checkTarget pos target value) := by
  refine h.whileRunning ?_
  split
  · exact h.bind (h.resolve _) fun _ => h.bind (h.checkWrite _ _ _ _) fun _ => h.pure _
  · exact h.bind (h.resolve _) fun _ => h.bind (h.component _ _ _) fun _ =>
      h.bind (h.checkWrite _ _ _ _) fun _ => h.pure _
  · exact h.complain _ _ _

end Stepwise

/-! ## Diagnostics are never taken back -/

/-- A step that keeps all diagnostics. -/
def Grows {α : Type} (m : CheckM α) : Prop := ∀ s, s.errors <+: (exec m s).2.errors

/-- A report goes to the end, and in a stopped state it goes nowhere. -/
theorem prefix_report (s : State) (pos : Pos) (c : Complaint) :
    s.errors <+: (s.report pos c).errors := by
  unfold State.report
  split
  · exact List.prefix_append _ _
  · exact List.prefix_rfl

theorem grows_modify {f : State → State} (h : ∀ s, s.errors <+: (f s).errors) :
    Grows (modify f : CheckM Unit) := h

/-- **The check of an expression never takes a diagnostic back**, as no step of it does. -/
theorem grows : Stepwise @Grows where
  pure _ _ := List.prefix_rfl
  bind hm hf s := (hm s).trans (hf _ _)
  look hf _ s := hf s s
  report pos c := grows_modify fun s => prefix_report s pos c
  stop part := grows_modify fun s => by
    unfold State.stop
    split <;> exact List.prefix_rfl

/-- A declaration adds at most the report of a duplicate. -/
theorem grows_declare (id : DeclId) : Grows (modify (·.declare id) : CheckM Unit) :=
  grows_modify fun s => by
    unfold State.declare
    split
    · split
      · split <;> exact prefix_report _ _ _
      · exact List.prefix_rfl
    · exact List.prefix_rfl

/-- The check of a declaration never takes a diagnostic back. -/
theorem grows_checkDecl (id : DeclId) : Grows (checkDecl id) := by
  refine grows.whileRunning (grows.bind (fun _ => List.prefix_rfl) fun s => ?_)
  split
  · exact grows.pure _
  · split
    · exact grows.ite (grows.bind (grows.report _ _) fun _ => grows_declare id) (grows_declare id)
    · exact grows.bind (grows.checkExpr _) fun _ =>
        grows.bind (grows_modify fun _ => List.prefix_rfl) fun _ =>
          grows.ite (grows.bind (grows.report _ _) fun _ => grows_declare id) (grows_declare id)

mutual

/-- **The check of a statement never takes a diagnostic back.** A scope that is closed gives up its
names, and none of its diagnostics. -/
theorem grows_checkStmt : ∀ s : Stmt, Grows (checkStmt s)
  | .absent => by
    rw [checkStmt]
    exact grows.bind (grows.stop _) fun _ => grows.pure _
  | .assign pos target value => by
    rw [checkStmt]
    exact grows.bind (grows.checkExpr value) fun _ =>
      grows.bind (grows.checkTarget _ _ _) fun _ => grows.pure _
  | .branch cond yes none => by
    rw [checkStmt]
    exact grows.bind (grows.checkCondition _ cond) fun _ =>
      grows.bind (grows_checkStmt yes) fun _ => grows.pure _
  | .branch cond yes (some no) => by
    rw [checkStmt]
    exact grows.bind (grows.checkCondition _ cond) fun _ =>
      grows.bind (grows_checkStmt yes) fun _ =>
        grows.bind (grows_checkStmt no) fun _ => grows.pure _
  | .loop pos cond body => by
    rw [checkStmt]
    exact grows.bind (grows.checkCondition _ cond) fun _ =>
      grows.bind (grows_checkStmt body) fun _ => grows.pure _
  | .scope decls stmts => by
    rw [checkStmt]
    exact grows.bind (grows_modify fun _ => List.prefix_rfl) fun _ =>
      grows.bind (grows.forM grows_checkDecl decls) fun _ =>
        grows.bind (grows_checkStmts stmts) fun _ =>
          grows.bind (grows_modify fun _ => List.prefix_rfl) fun _ => grows.pure _

theorem grows_checkStmts : ∀ ss : List Stmt, Grows (checkStmts ss)
  | [] => by rw [checkStmts]; exact grows.pure _
  | s :: ss => by
    rw [checkStmts]
    exact grows.bind (grows_checkStmt s) fun _ =>
      grows.bind (grows_checkStmts ss) fun _ => grows.pure _

end

/-! ## Quiet runs -/

/-- A run that adds no diagnostic. -/
def Quiet {α : Type} (m : CheckM α) (s : State) : Prop := (exec m s).2.errors = s.errors

section Quiet

variable {α β : Type} {s : State}

/-- Lists of which each begins the other are the same. This is how a run that adds nothing as a
whole is quiet at its start. -/
theorem prefix_antisymm {γ : Type} {l m : List γ} (h : l <+: m) (h' : m <+: l) : l = m :=
  h.eq_of_length (Nat.le_antisymm h.length_le h'.length_le)

/-- **A quiet run is quiet in each of its steps.** -/
theorem Quiet.bind {m : CheckM α} {f : α → CheckM β} (h : Quiet (m >>= f) s) (hm : Grows m)
    (hf : Grows (f (exec m s).1)) :
    Quiet m s ∧ Quiet (f (exec m s).1) (exec m s).2 := by
  have hmid : s.errors <+: (exec m s).2.errors := hm s
  have hend : (exec m s).2.errors <+: (exec (f (exec m s).1) (exec m s).2).2.errors := hf _
  have hall : (exec (f (exec m s).1) (exec m s).2).2.errors = s.errors := h
  have hq : (exec m s).2.errors = s.errors :=
    (prefix_antisymm hmid (by rw [hall] at hend; exact hend)).symm
  exact ⟨hq, hall.trans hq.symm⟩

/-- A run that starts with a known step is quiet behind that step. -/
theorem Quiet.onward {m : CheckM α} {f : α → CheckM β} {a : α} {s' : State}
    (h : Quiet (m >>= f) s) (hm : exec m s = (a, s')) (he : s'.errors = s.errors) :
    Quiet (f a) s' := by
  have hall : (exec (f (exec m s).1) (exec m s).2).2.errors = s.errors := h
  rw [hm] at hall
  exact hall.trans he.symm

/-- What follows a step with a known result that left the state alone is quiet in that state. -/
theorem Quiet.after {m : CheckM α} {f : α → CheckM β} {a : α} (h : Quiet (m >>= f) s)
    (hm : exec m s = (a, s)) : Quiet (f a) s := h.onward hm rfl

/-- Nothing that begins with a report is quiet, unless the state has stopped. -/
theorem not_quiet_report {pos : Pos} {c : Complaint} {f : Unit → CheckM β} (hs : s.stopped = none)
    (hf : Grows (f ())) : ¬ Quiet (report pos c >>= f) s := by
  intro h
  have hq : (s.report pos c).errors = s.errors := (h.bind (grows.report pos c) hf).1
  have hrun : s.running = true := by rw [State.running, hs]; rfl
  simp [State.report, hrun] at hq

end Quiet

/-! ## Contexts and states -/

/-- The variables of a block as the checker keeps them. -/
def names (b : Block) : Names := b.map fun p => (p.1, p.2.id)

/-- A state in which names mean what they mean in a context. -/
structure Matches (Γ : Context) (s : State) : Prop where
  /-- The check goes on. -/
  stopped : s.stopped = none
  /-- The open blocks are those of the context. -/
  scopes : s.scopes = Γ.map names
  /-- The variables are in the table. -/
  bound : Lists s.decls Γ
  /-- Their types are those of the language. -/
  named : Γ.Named

namespace Matches

variable {Γ : Context} {s : State}

theorem running (h : Matches Γ s) : s.running = true := by rw [State.running, h.stopped]; rfl

/-- The names of a block lead to the declarations of its variables. -/
theorem lookup_names (b : Block) (name : Bytes) :
    (names b).lookup name = (b.lookup name).map (·.id) := by
  induction b with
  | nil => rfl
  | cons p b ih =>
    obtain ⟨n, x⟩ := p
    show ((n, x.id) :: names b).lookup name = _
    rw [List.lookup_cons, List.lookup_cons]
    split
    · rfl
    · exact ih

/-- **A name finds in the state what it finds in the context.** -/
theorem lookup?_of_finds (h : Matches Γ s) {name : Bytes} {x : Variable} (hx : Γ.Finds name x) :
    s.lookup? name = some x.id := by
  rw [lookup?, h.scopes]
  clear h
  induction hx with
  | here hb =>
    rw [List.map_cons, List.findSome?_cons, lookup_names, hb]
    rfl
  | outer hb _ ih =>
    rw [List.map_cons, List.findSome?_cons, lookup_names, hb]
    exact ih

/-- A name that the checker finds is in scope by the rules. The open blocks are searched from the
inside out by both. -/
theorem finds_of_lookup? (h : Matches Γ s) {name : Bytes} {id : DeclId}
    (hid : s.lookup? name = some id) : ∃ x, Γ.Finds name x := by
  rw [lookup?, h.scopes] at hid
  clear h
  induction Γ with
  | nil => simp at hid
  | cons b Γ ih =>
    cases hb : b.lookup name with
    | some x => exact ⟨x, .here hb⟩
    | none =>
      rw [List.map_cons, List.findSome?_cons, lookup_names, hb] at hid
      obtain ⟨x, hx⟩ := ih hid
      exact ⟨x, .outer hb hx⟩

/-- What is in scope is in the table, with the type and the qualifier that the context has. -/
theorem decl_of_finds (h : Matches Γ s) {name : Bytes} {x : Variable} (hx : Γ.Finds name x) :
    ∃ d, s.decls[x.id]? = some d ∧ d.type = x.type ∧ d.qualifier = x.qualifier := by
  obtain ⟨d, hd, -, ht, hq⟩ := h.bound.decl_of_finds hx
  exact ⟨d, hd, ht, hq⟩

/-- The bound variable as it stands in a program. -/
theorem refType_of_finds (h : Matches Γ s) {name : Bytes} {x : Variable} (hx : Γ.Finds name x)
    (pos : Pos) : refType s.decls ⟨name, some x.id, pos⟩ = x.type := by
  obtain ⟨d, hd, ht, -⟩ := h.decl_of_finds hx
  simp [refType, hd, ht]

/-- A name in scope is bound to its declaration, and the state stays as it is. -/
theorem exec_resolve (h : Matches Γ s) {name : Bytes} {x : Variable} (hx : Γ.Finds name x)
    (pos : Pos) :
    exec (resolve ⟨name, none, pos⟩) s = ((⟨name, some x.id, pos⟩, x.type), s) := by
  rw [resolve, exec_bind, exec_get]
  dsimp only
  rw [h.lookup?_of_finds hx]
  dsimp only
  rw [exec_pure, h.refType_of_finds hx]

/-- The qualifier of a bound name is that of its variable. -/
theorem exec_qualifier? (h : Matches Γ s) {name : Bytes} {x : Variable} (hx : Γ.Finds name x)
    (pos : Pos) : exec (qualifier? ⟨name, some x.id, pos⟩) s = (some x.qualifier, s) := by
  obtain ⟨d, hd, -, hq⟩ := h.decl_of_finds hx
  rw [qualifier?, exec_bind, exec_get, exec_pure]
  simp [hd, hq]

theorem exec_readable (h : Matches Γ s) {name : Bytes} {x : Variable} (hx : Γ.Finds name x)
    (hq : x.qualifier ≠ .result) (pos : Pos) :
    exec (readable ⟨name, some x.id, pos⟩) s = (true, s) := by
  rw [readable, exec_bind, h.exec_qualifier? hx]
  dsimp only
  rw [if_neg (by simpa using hq), exec_pure]

/-- An index within a vector gives one component, and the state stays as it is. -/
theorem exec_component (h : Matches Γ s) {name : Bytes} {x : Variable} (hx : Γ.Finds name x)
    {i : Nat} (hv : 1 < x.type.order) (hi : i < x.type.order) (pos : Pos) (old : Ty) :
    exec (component ⟨name, some x.id, pos⟩ i old) s =
      ((⟨x.type.base, 1⟩, ⟨x.type.base, 1⟩), s) := by
  obtain ⟨b, hb, hmem⟩ := hx.mem
  rw [component, exec_bind, exec_get]
  dsimp only
  rw [h.refType_of_finds hx, if_neg (by rw [(h.named b hb _ hmem).isValid]; simp),
    if_neg (by simpa [Ty.isVector] using hv), if_neg (by simp; omega)]
  rfl

end Matches

end Checker

end Shader
