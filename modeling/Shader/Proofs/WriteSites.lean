import Shader.Proofs.Predication

/-!
# The writes of a program

The variables of a program are changed by its assignments and declarations, each by one instruction.
`Writes` lists these writes, and says of each what is around it: the code before it, the branches it
is in, and for each branch the place where the condition of its `if` was evaluated.

The list says where the writes stand in the code of a statement, and it is complete: no other
instruction changes a variable. Both hold for every tree that can be compiled.
-/

namespace Shader

open Program (Expr Stmt)
open Number (Scalar)

namespace Lower

/-! ## The writes of a statement -/

/-- A branch around a piece of code: the instructions up to where the condition of its `if` has been
evaluated, the operand that holds the value there, and whether the branch is the `else`. -/
structure Guard where
  before : List Instruction
  value : Operand
  isElse : Bool

/-- What is around a piece of code: the instructions before it, the branches it is in, the innermost
first, and their combined condition. -/
structure Around where
  before : List Instruction := []
  guards : List Guard := []
  cond : Option Operand := none

/-- The same branches behind more code. -/
def Around.behind (x : Around) (code : List Line) : Around :=
  { x with before := x.before ++ instructions code }

/-- Inside a branch of an `if` that begins where `x` is: the condition of the `if` is evaluated by
`evaluation` into `value`, the branch begins behind `code`, and its condition is in `own`. -/
def Around.inside (x : Around) (evaluation : List Line) (value : Operand) (isElse : Bool)
    (own : Operand) (code : List Line) : Around where
  before := x.before ++ instructions code
  guards := ⟨x.before ++ instructions evaluation, value, isElse⟩ :: x.guards
  cond := some own

/-- A write of a program: what is around it, where it goes and what it writes. -/
structure Site extends Around where
  dst : Operand
  written : Operand

/-- The instruction of a write. -/
def Site.instruction (w : Site) : Instruction :=
  match w.cond with
  | none => ⟨.mov, w.dst, [w.written]⟩
  | some o => ⟨.cmp, w.dst, [o, w.dst, w.written]⟩

section Sites

variable {α : Type} [Scalar α]

/-- The code of an `if` up to where its condition has been evaluated. -/
def evaluate (env : Env) (e : Expr) : Lower α Operand := do
  blank
  comment .condition
  resetSession
  expr env e

/-- `WritesDecls env x ids a w`: the write `w` initializes one of the variables `ids`, whose
declarations are around as `x` says and are compiled from the allocator `a` on. -/
inductive WritesDecls (env : Env) : Around → List DeclId → Allocator α → Site → Prop where
  | head {x : Around} {id : DeclId} {d : Declaration} {ids : List DeclId} {a a' : Allocator α}
      {o : Operand × Operand} {code : List Line} :
      env.decls[id]? = some d → d.isConst = false →
      run (declOperands env id d) a = .ok (o, code, a') →
      WritesDecls env x (id :: ids) a ⟨x.behind code, o.1, o.2⟩
  | tail {x : Around} {id : DeclId} {ids : List DeclId} {a a₁ : Allocator α} {u : Unit}
      {code : List Line} {w : Site} :
      run (decl env x.cond id) a = .ok (u, code, a₁) → WritesDecls env (x.behind code) ids a₁ w →
      WritesDecls env x (id :: ids) a w

mutual

/-- `Writes env x st a w`: `w` is a write of the statement `st`, which is around as `x` says and is
compiled from the allocator `a` on. -/
inductive Writes (env : Env) : Around → Stmt → Allocator α → Site → Prop where
  | assign {x : Around} {pos : Pos} {dst value : Expr} {a a' : Allocator α}
      {o : Operand × Operand} {code : List Line} :
      run (assignOperands env dst value) a = .ok (o, code, a') →
      Writes env x (.assign pos dst value) a ⟨x.behind code, o.1, o.2⟩
  | yes {x : Around} {e : Expr} {yes : Stmt} {no : Option Stmt} {a a₀ a₁ : Allocator α}
      {value own : Operand} {evaluation code : List Line} {w : Site} :
      run (evaluate env e) a = .ok (value, evaluation, a₀) →
      run (enterIf env x.cond e) a = .ok (own, code, a₁) →
      Writes env (x.inside evaluation value false own code) yes a₁ w →
      Writes env x (.branch e yes no) a w
  | no {x : Around} {e : Expr} {yes no : Stmt} {a a₀ a₁ a₂ a₃ : Allocator α}
      {value own : Operand} {evaluation code first turn : List Line} {u v : Unit} {w : Site} :
      run (evaluate env e) a = .ok (value, evaluation, a₀) →
      run (enterIf env x.cond e) a = .ok (own, code, a₁) →
      run (stmt env (some own) yes) a₁ = .ok (u, first, a₂) →
      run (enterElse x.cond own) a₂ = .ok (v, turn, a₃) →
      Writes env (x.inside evaluation value true own (code ++ first ++ turn)) no a₃ w →
      Writes env x (.branch e yes (some no)) a w
  | declaration {x : Around} {ids : List DeclId} {ss : List Stmt} {a : Allocator α} {w : Site} :
      WritesDecls env x ids a w → Writes env x (.scope ids ss) a w
  | statement {x : Around} {ids : List DeclId} {ss : List Stmt} {a a₁ : Allocator α} {u : Unit}
      {code : List Line} {w : Site} :
      run (decls env x.cond ids) a = .ok (u, code, a₁) →
      WritesAny env (x.behind code) ss a₁ w → Writes env x (.scope ids ss) a w

/-- A write of one of several statements. -/
inductive WritesAny (env : Env) : Around → List Stmt → Allocator α → Site → Prop where
  | head {x : Around} {s : Stmt} {ss : List Stmt} {a : Allocator α} {w : Site} :
      Writes env x s a w → WritesAny env x (s :: ss) a w
  | tail {x : Around} {s : Stmt} {ss : List Stmt} {a a₁ : Allocator α} {u : Unit}
      {code : List Line} {w : Site} :
      run (stmt env x.cond s) a = .ok (u, code, a₁) → WritesAny env (x.behind code) ss a₁ w →
      WritesAny env x (s :: ss) a w

end

end Sites

/-! ## Where the writes stand -/

section Places

variable {α : Type} {x y : Around} {code more : List Line} {w : Site}

/-- The code that begins where `x` is has the write `w` at its place. -/
def At (x : Around) (code : List Line) (w : Site) : Prop :=
  ∃ pre post, w.before = x.before ++ pre ∧ instructions code = pre ++ w.instruction :: post

/-- Code behind a piece does not move its writes. -/
theorem At.append (h : At x code w) (more : List Line) : At x (code ++ more) w := by
  obtain ⟨pre, post, hbefore, hcode⟩ := h
  refine ⟨pre, post ++ instructions more, hbefore, ?_⟩
  rw [instructions_append, hcode, List.append_assoc, List.cons_append]

/-- Code in front of a piece is in front of its writes. -/
theorem At.shift (h : At y more w) (hy : y.before = x.before ++ instructions code) :
    At x (code ++ more) w := by
  obtain ⟨pre, post, hbefore, hcode⟩ := h
  refine ⟨instructions code ++ pre, post, ?_, ?_⟩
  · rw [hbefore, hy, List.append_assoc]
  · rw [instructions_append, hcode, List.append_assoc]

theorem run_write (w : Site) (a : Allocator α) :
    run (write w.cond w.dst w.written) a = .ok ((), [.instr w.instruction], a) := by
  unfold write Site.instruction
  cases w.cond <;> rfl

theorem at_write {m : Lower α (Operand × Operand)} {o : Operand × Operand} {a a₁ a' : Allocator α}
    {u : Unit} (hm : run m a = .ok (o, code, a₁))
    (hrun : run (m >>= fun o => write x.cond o.1 o.2) a = .ok (u, more, a')) :
    At x more ⟨x.behind code, o.1, o.2⟩ := by
  obtain ⟨o', code', a₁', last, hm', hwrite, rfl⟩ := run_bind_eq_ok.mp hrun
  cases hm.symm.trans hm'
  cases hwrite.symm.trans (run_write ⟨x.behind code, o.1, o.2⟩ a₁)
  exact ⟨instructions code, [], rfl, instructions_append _ _⟩

variable [Scalar α] {env : Env}

/-- The writes of declarations stand where the list says. -/
theorem WritesDecls.placed {ids : List DeclId} {a : Allocator α} (h : WritesDecls env x ids a w) :
    ∀ {u : Unit} {code : List Line} {a' : Allocator α},
      run (decls env x.cond ids) a = .ok (u, code, a') → At x code w := by
  induction h with
  | head hd hc hm =>
    intro u code a' hrun
    obtain ⟨_, code₁, a₁, more, hdecl, -, rfl⟩ := run_bind_eq_ok.mp hrun
    rw [decl_of_mutable hd hc] at hdecl
    exact (at_write hm hdecl).append more
  | tail hdecl _ ih =>
    intro u code a' hrun
    obtain ⟨_, code₁, a₁, more, hdecl', hrest, rfl⟩ := run_bind_eq_ok.mp hrun
    cases hdecl.symm.trans hdecl'
    exact (ih hrest).shift rfl

mutual

/-- **Every write of a statement is an instruction of its code.** -/
theorem Writes.placed : ∀ {x : Around} {st : Stmt} {a : Allocator α} {w : Site},
    Writes env x st a w → ∀ {u : Unit} {code : List Line} {a' : Allocator α},
      run (stmt env x.cond st) a = .ok (u, code, a') → At x code w
  | _, _, _, _, .assign hm, u, code, a', hrun => by
    rw [stmt_assign] at hrun
    exact at_write hm hrun
  | x, .branch e yes none, a, _, .yes _ henter hw, u, code, a', hrun => by
    rw [stmt] at hrun
    -- code generation is a function, so the run that `Writes` speaks of is this one
    obtain ⟨_, code₁, a₁, more, henter', hyes, rfl⟩ := run_bind_eq_ok.mp hrun
    cases henter.symm.trans henter'
    exact (hw.placed hyes).shift rfl
  | x, .branch e yes (some no), a, _, .yes _ henter hw, u, code, a', hrun => by
    rw [stmt] at hrun
    obtain ⟨_, code₁, a₁, more, henter', hrest, rfl⟩ := run_bind_eq_ok.mp hrun
    cases henter.symm.trans henter'
    obtain ⟨_, first, a₂, rest, hyes, -, rfl⟩ := run_bind_eq_ok.mp hrest
    exact ((hw.placed hyes).append rest).shift rfl
  | x, .branch e yes (some no), a, _, .no _ henter hyes helse hw, u, code, a', hrun => by
    rw [stmt] at hrun
    obtain ⟨_, code₁, a₁, more, henter', hrest, rfl⟩ := run_bind_eq_ok.mp hrun
    cases henter.symm.trans henter'
    obtain ⟨_, first, a₂, rest, hyes', hrest, rfl⟩ := run_bind_eq_ok.mp hrest
    cases hyes.symm.trans hyes'
    obtain ⟨_, turn, a₃, last, helse', hno, rfl⟩ := run_bind_eq_ok.mp hrest
    cases helse.symm.trans helse'
    rw [← List.append_assoc, ← List.append_assoc]
    exact (hw.placed hno).shift rfl
  | _, _, _, _, .declaration hw, u, code, a', hrun => by
    rw [stmt] at hrun
    obtain ⟨_, code₁, a₁, more, hdecls, -, rfl⟩ := run_bind_eq_ok.mp hrun
    exact (hw.placed hdecls).append more
  | _, _, _, _, .statement hdecls hw, u, code, a', hrun => by
    rw [stmt] at hrun
    obtain ⟨_, code₁, a₁, more, hdecls', hrest, rfl⟩ := run_bind_eq_ok.mp hrun
    cases hdecls.symm.trans hdecls'
    exact (hw.placed hrest).shift rfl

theorem WritesAny.placed : ∀ {x : Around} {ss : List Stmt} {a : Allocator α} {w : Site},
    WritesAny env x ss a w → ∀ {u : Unit} {code : List Line} {a' : Allocator α},
      run (stmts env x.cond ss) a = .ok (u, code, a') → At x code w
  | _, _, _, _, .head hw, u, code, a', hrun => by
    rw [stmts] at hrun
    obtain ⟨_, code₁, a₁, more, hstmt, -, rfl⟩ := run_bind_eq_ok.mp hrun
    exact (hw.placed hstmt).append more
  | _, _, _, _, .tail hstmt hw, u, code, a', hrun => by
    rw [stmts] at hrun
    obtain ⟨_, code₁, a₁, more, hstmt', hrest, rfl⟩ := run_bind_eq_ok.mp hrun
    cases hstmt.symm.trans hstmt'
    exact (hw.placed hrest).shift rfl

end

end Places

/-! ## No other writes -/

section Coverage

variable {α : Type} {x y : Around} {code more : List Line} {P Q : Site → Prop}

/-- Code that begins where `x` is, and changes variables by writes in `P` only. -/
def Covered (x : Around) (code : List Line) (P : Site → Prop) : Prop :=
  ∀ pre i post, instructions code = pre ++ i :: post → IsVariable i.dst.reg →
    ∃ w, P w ∧ w.before = x.before ++ pre ∧ w.instruction = i

theorem Covered.mono (h : Covered x code P) (hPQ : ∀ w, P w → Q w) : Covered x code Q := by
  intro pre i post hcode hi
  obtain ⟨w, hw, hplace⟩ := h pre i post hcode hi
  exact ⟨w, hPQ w hw, hplace⟩

/-- Two pieces of code: an instruction of the second has all of the first in front of it. -/
theorem Covered.append (h : Covered x code P) (h' : Covered y more P)
    (hy : y.before = x.before ++ instructions code) : Covered x (code ++ more) P := by
  intro pre i post heq hi
  rw [instructions_append] at heq
  rcases List.append_eq_append_iff.mp heq with ⟨mid, hpre, hmore⟩ | ⟨mid, hcode, hpost⟩
  · obtain ⟨w, hw, hbefore, hinstr⟩ := h' mid i post hmore hi
    refine ⟨w, hw, ?_, hinstr⟩
    rw [hbefore, hy, hpre, List.append_assoc]
  · cases mid with
    -- the instruction is the first of the second part
    | nil =>
      rw [List.append_nil] at hcode
      obtain ⟨w, hw, hbefore, hinstr⟩ := h' [] i post hpost.symm hi
      refine ⟨w, hw, ?_, hinstr⟩
      rw [hbefore, hy, hcode, List.append_nil]
    | cons j mid =>
      obtain ⟨rfl, -⟩ := List.cons.inj hpost
      exact h pre i mid hcode hi

/-- Code that changes no variable has no writes. -/
theorem covered_of_emits {β : Type} {first : Nat} {m : Lower α β} {b : β} {a a' : Allocator α}
    {R : Allocator α → β → Prop} (hm : Emits (Auxiliary first) a m R)
    (hrun : run m a = .ok (b, code, a')) : Covered x code P := by
  obtain ⟨-, -, hcode, -⟩ := hm b code a' hrun
  intro pre i post heq hi
  have hmem : i ∈ instructions code := by
    rw [heq]
    simp
  exact absurd (hcode i hmem).2 (not_auxiliary_of_isVariable hi)

theorem covered_pure {β : Type} {b c : β} {a a' : Allocator α}
    (hrun : run (pure b) a = .ok (c, code, a')) : Covered x code P := by
  cases hrun
  intro pre i post heq
  simp [instructions] at heq

/-- A step that prepares a write, with the write behind it. -/
theorem covered_write {first : Nat} {m : Lower α (Operand × Operand)} {a a' : Allocator α}
    {u : Unit} {R : Allocator α → Operand × Operand → Prop} (hm : Emits (Auxiliary first) a m R)
    (hrun : run (m >>= fun o => write x.cond o.1 o.2) a = .ok (u, more, a')) :
    Covered x more fun w => ∃ o code a₁, run m a = .ok (o, code, a₁) ∧
      w = ⟨x.behind code, o.1, o.2⟩ := by
  obtain ⟨o, code, a₁, last, hprepare, hwrite, rfl⟩ := run_bind_eq_ok.mp hrun
  refine (covered_of_emits hm hprepare).append (y := x.behind code) ?_ rfl
  cases hwrite.symm.trans (run_write ⟨x.behind code, o.1, o.2⟩ a₁)
  intro pre i post hlast _
  rcases List.singleton_eq_append_iff.mp hlast with ⟨rfl, hi⟩ | ⟨-, hi⟩
  · cases hi
    exact ⟨_, ⟨o, code, _, hprepare, rfl⟩, (List.append_nil _).symm, rfl⟩
  · cases hi

variable [Scalar α] {env : Env} {a a' : Allocator α}

/-- A declaration changes its variable by the write that is listed for it. -/
theorem covered_decl (henv : Nameable env) (ha : a.Tidy) {id : DeclId} (ids : List DeclId)
    {u : Unit} (hrun : run (decl env x.cond id) a = .ok (u, code, a')) :
    Covered x code (WritesDecls env x (id :: ids) a) := by
  by_cases hmutable : ∃ d, env.decls[id]? = some d ∧ d.isConst = false
  · obtain ⟨d, hd, hc⟩ := hmutable
    rw [decl_of_mutable hd hc] at hrun
    have hemits : Emits (Auxiliary a.conditions) a (declOperands env id d) _ :=
      emits_declOperands henv ha id d
    refine (covered_write hemits hrun).mono ?_
    rintro w ⟨o, code, a₁, hm, rfl⟩
    exact .head hd hc hm
  · rw [decl_of_not_mutable hmutable] at hrun
    exact covered_pure hrun

theorem covered_decls (henv : Nameable env) (ids : List DeclId) :
    ∀ {x : Around} {a a' : Allocator α} {u : Unit} {code : List Line}, a.Tidy →
      PlainCondition x.cond → run (decls env x.cond ids) a = .ok (u, code, a') →
      Covered x code (WritesDecls env x ids a) := by
  induction ids with
  | nil =>
    intro x a a' u code ha _ hrun
    exact covered_pure hrun
  | cons id ids ih =>
    intro x a a' u code ha hcond hrun
    obtain ⟨_, code₁, a₁, more, hdecl, hrest, rfl⟩ := run_bind_eq_ok.mp hrun
    have hemits : Emits (Written a.conditions) a (decl env x.cond id) _ :=
      emits_decl henv ha hcond id
    obtain ⟨h₁, -, -, -⟩ := hemits _ _ _ hdecl
    have hothers := (ih (x := x.behind code₁) h₁ hcond hrest).mono
      fun w hw => WritesDecls.tail hdecl hw
    exact (covered_decl henv ha ids hdecl).append hothers rfl

/-- The evaluation of a condition begins with a comment and fresh scratch registers. -/
theorem run_evaluate_eq_ok {e : Expr} {value : Operand} :
    run (evaluate env e) a = .ok (value, code, a') ↔
      ∃ own, run (expr env e) a.reset = .ok (value, own, a') ∧
        code = .blank :: .comment Mark.condition.text :: own := by
  constructor
  · intro hrun
    obtain ⟨_, _, a₁, rest₁, h, hrest₁, rfl⟩ := run_bind_eq_ok.mp hrun
    cases h
    obtain ⟨_, _, a₂, rest₂, h, hrest₂, rfl⟩ := run_bind_eq_ok.mp hrest₁
    cases h
    obtain ⟨_, _, a₃, rest₃, h, hrest₃, rfl⟩ := run_bind_eq_ok.mp hrest₂
    cases h
    exact ⟨rest₃, hrest₃, rfl⟩
  · rintro ⟨own, hrun, rfl⟩
    refine run_bind_eq_ok.mpr ⟨(), _, a, _, rfl, ?_, rfl⟩
    refine run_bind_eq_ok.mpr ⟨(), _, a, _, rfl, ?_, rfl⟩
    exact run_bind_eq_ok.mpr ⟨(), _, a.reset, _, rfl, hrun, rfl⟩

/-- To enter an `if` its condition is evaluated first. -/
theorem run_evaluate_of_enterIf {cond : Option Operand} {e : Expr} {own : Operand}
    (hrun : run (enterIf env cond e) a = .ok (own, code, a')) :
    ∃ value evaluation a₀, run (evaluate env e) a = .ok (value, evaluation, a₀) := by
  obtain ⟨value, code₁, a₁, -, -, -, hvalue, -⟩ := run_enterIf_eq_ok hrun
  exact ⟨value, _, a₁, run_evaluate_eq_ok.mpr ⟨code₁, hvalue, rfl⟩⟩

mutual

/-- **The writes of a statement are all there are**: no other instruction changes a variable. -/
theorem covered_stmt (henv : Nameable env) : ∀ (st : Stmt) {x : Around} {a a' : Allocator α}
    {u : Unit} {code : List Line}, a.Tidy → PlainCondition x.cond →
    run (stmt env x.cond st) a = .ok (u, code, a') → Covered x code (Writes env x st a)
  | .absent, _, _, _, _, _, _, _, hrun => by
    rw [stmt] at hrun
    cases hrun
  | .assign pos dst value, x, a, a', u, code, ha, _, hrun => by
    rw [stmt_assign] at hrun
    have hemits : Emits (Auxiliary a.conditions) a (assignOperands env dst value) _ :=
      emits_assignOperands henv ha dst value
    refine (covered_write hemits hrun).mono ?_
    rintro w ⟨o, code, a₁, hm, rfl⟩
    exact .assign hm
  | .branch e yes none, x, a, a', u, code, ha, hcond, hrun => by
    rw [stmt] at hrun
    obtain ⟨own, code₁, a₁, more, henter, hyes, rfl⟩ := run_bind_eq_ok.mp hrun
    obtain ⟨value, evaluation, a₀, hvalue⟩ := run_evaluate_of_enterIf henter
    have hemits := emits_enterIf henv ha hcond e
    obtain ⟨h₁, -, -, k, rfl, -, -⟩ := hemits _ _ _ henter
    refine (covered_of_emits hemits henter).append ?_ rfl
      (y := x.inside evaluation value false (.of (.longLived k)) code₁)
    exact (covered_stmt henv yes h₁ (plainCondition_some (Operand.plain_of _)) hyes).mono
      fun w hw => .yes hvalue henter hw
  | .branch e yes (some no), x, a, a', u, code, ha, hcond, hrun => by
    rw [stmt] at hrun
    obtain ⟨own, code₁, a₁, more, henter, hrest, rfl⟩ := run_bind_eq_ok.mp hrun
    obtain ⟨value, evaluation, a₀, hvalue⟩ := run_evaluate_of_enterIf henter
    have hemits := emits_enterIf henv ha hcond e
    obtain ⟨h₁, -, -, k, rfl, -, -⟩ := hemits _ _ _ henter
    have hself := plainCondition_some (Operand.plain_of (.longLived k))
    obtain ⟨_, first, a₂, rest, hyes, hlast, rfl⟩ := run_bind_eq_ok.mp hrest
    obtain ⟨h₂, -, -, -⟩ := emits_stmt henv yes h₁ hself _ _ _ hyes
    obtain ⟨_, turn, a₃, last, helse, hno, rfl⟩ := run_bind_eq_ok.mp hlast
    have hturn := emits_enterElse h₂ hcond (Nat.le_refl k)
    obtain ⟨h₃, -, -, -⟩ := hturn _ _ _ helse
    -- the code is cut in four: the condition, the one branch, its negation, the other branch
    let x₁ := x.inside evaluation value false (.of (.longLived k)) code₁
    refine (covered_of_emits hemits henter).append (y := x₁) ?_ rfl
    refine Covered.append (y := x₁.behind first) ?_ ?_ rfl
    · exact (covered_stmt henv yes h₁ hself hyes).mono fun w hw => .yes hvalue henter hw
    · refine (covered_of_emits hturn helse).append ?_ ?_
        (y := x.inside evaluation value true (.of (.longLived k)) (code₁ ++ first ++ turn))
      · exact (covered_stmt henv no h₃ hself hno).mono fun w hw =>
          .no hvalue henter hyes helse hw
      · simp [x₁, Around.inside, Around.behind, instructions_append]
  | .loop _ _ _, _, _, _, _, _, _, _, hrun => by
    rw [stmt] at hrun
    cases hrun
  | .scope ids ss, x, a, a', u, code, ha, hcond, hrun => by
    rw [stmt] at hrun
    obtain ⟨_, code₁, a₁, more, hdecls, hrest, rfl⟩ := run_bind_eq_ok.mp hrun
    have hemits : Emits (Written a.conditions) a (decls env x.cond ids) _ :=
      emits_decls henv hcond ids ha
    obtain ⟨h₁, -, -, -⟩ := hemits _ _ _ hdecls
    refine Covered.append (y := x.behind code₁) ?_ ?_ rfl
    · exact (covered_decls henv ids ha hcond hdecls).mono fun w hw => .declaration hw
    · exact (covered_stmts henv ss (x := x.behind code₁) h₁ hcond hrest).mono
        fun w hw => .statement hdecls hw

theorem covered_stmts (henv : Nameable env) : ∀ (ss : List Stmt) {x : Around} {a a' : Allocator α}
    {u : Unit} {code : List Line}, a.Tidy → PlainCondition x.cond →
    run (stmts env x.cond ss) a = .ok (u, code, a') → Covered x code (WritesAny env x ss a)
  | [], _, a, _, _, _, ha, _, hrun => by
    rw [stmts] at hrun
    exact covered_pure hrun
  | s :: ss, x, a, a', u, code, ha, hcond, hrun => by
    rw [stmts] at hrun
    obtain ⟨_, code₁, a₁, more, hstmt, hrest, rfl⟩ := run_bind_eq_ok.mp hrun
    obtain ⟨h₁, -, -, -⟩ := emits_stmt henv s ha hcond _ _ _ hstmt
    refine Covered.append (y := x.behind code₁) ?_ ?_ rfl
    · exact (covered_stmt henv s ha hcond hstmt).mono fun w hw => .head hw
    · exact (covered_stmts henv ss (x := x.behind code₁) h₁ hcond hrest).mono
        fun w hw => .tail hstmt hw

end

end Coverage

end Lower

end Shader
