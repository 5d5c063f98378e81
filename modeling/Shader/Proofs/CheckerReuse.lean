import Shader.Proofs.IntactPrograms

/-!
# One checker for many programs

A checker is used for one program after another. What it has collected stays, and nothing else does:
every step of a check does the same whatever was reported before, and a block is closed again where
it was opened, also in a check that stopped at a missing part. So behind a program no block is open,
the next one finds the checker as a fresh one would be, and its diagnostics go behind the others.
-/

namespace Shader

namespace Checker

open Program (Expr Stmt refType)
open Typing

/-- A state with diagnostics that were there before all others. -/
def State.after (s : State) (es : List Diagnostic) : State := { s with errors := es ++ s.errors }

/-- A step that does the same whatever was reported before it, and keeps a view of the open
blocks. -/
structure Separate {ι α : Type} (view : List Names → ι) (m : CheckM α) : Prop where
  blind : ∀ s es, exec m (s.after es) = ((exec m s).1, (exec m s).2.after es)
  scopes : ∀ s, view (exec m s).2.scopes = view s.scopes

/-! ## Expressions -/

/-- A report goes behind all diagnostics, so earlier ones make no difference. -/
theorem report_after (s : State) (es : List Diagnostic) (pos : Pos) (c : Complaint) :
    (s.after es).report pos c = (s.report pos c).after es := by
  by_cases h : s.running = true
  · have h' : (s.after es).running = true := h
    rw [State.report, if_pos h', State.report, if_pos h]
    simp [State.after]
  · have h' : ¬(s.after es).running = true := h
    rw [State.report, if_neg h', State.report, if_neg h]

theorem stop_after (s : State) (es : List Diagnostic) (part : Absence) :
    (s.after es).stop part = (s.stop part).after es := by
  by_cases h : s.running = true
  · have h' : (s.after es).running = true := h
    rw [State.stop, if_pos h', State.stop, if_pos h]
    rfl
  · have h' : ¬(s.after es).running = true := h
    rw [State.stop, if_neg h', State.stop, if_neg h]

theorem scopes_report (s : State) (pos : Pos) (c : Complaint) :
    (s.report pos c).scopes = s.scopes := by
  unfold State.report
  split <;> rfl

section Steps

variable {ι : Type} {view : List Names → ι}

/-- A change of the state that goes along with earlier diagnostics. -/
theorem separate_modify {f : State → State} (hblind : ∀ s es, f (s.after es) = (f s).after es)
    (hscopes : ∀ s, view (f s).scopes = view s.scopes) :
    Separate view (modify f : CheckM Unit) where
  blind := by
    intro s es
    rw [exec_modify, exec_modify, hblind]
  scopes := hscopes

/-- A step may look at the state, but not at the diagnostics. -/
theorem separate_get_bind {β : Type} {f : State → CheckM β} (hf : ∀ s, Separate view (f s))
    (hview : ∀ s es, f (s.after es) = f s) : Separate view (get >>= f) where
  blind := by
    intro s es
    rw [exec_bind, exec_bind, exec_get, exec_get, hview, (hf s).blind]
  scopes := fun s => (hf s).scopes s

/-- **The check of an expression does not look at earlier diagnostics and leaves the open blocks
alone**, so every view of them is kept. -/
theorem separate : Stepwise fun _ m => Separate view m where
  pure _ := ⟨fun _ _ => rfl, fun _ => rfl⟩
  bind hm hf :=
    { blind := by
        intro s es
        rw [exec_bind, exec_bind, hm.blind, (hf _).blind]
      scopes := by
        intro s
        rw [exec_bind, (hf _).scopes, hm.scopes] }
  look hf hsight := separate_get_bind hf fun s es => hsight s (s.after es) rfl
  report pos c := separate_modify (fun s es => report_after s es pos c) fun s => by
    rw [scopes_report]
  stop part := separate_modify (fun s es => stop_after s es part) fun s => by
    unfold State.stop
    split <;> rfl

/-- The blocks around the innermost one are not changed by a declaration. -/
theorem separate_declare (id : DeclId) :
    Separate List.tail (modify (·.declare id) : CheckM Unit) := by
  refine separate_modify (fun s es => ?_) fun s => ?_
  · have hrunning : (s.after es).running = s.running := rfl
    have hdecls : (s.after es).decls = s.decls := rfl
    have hscopes : (s.after es).scopes = s.scopes := rfl
    unfold State.declare
    rw [hrunning, hdecls, hscopes]
    split
    · split
      · split
        · exact report_after s es _ _
        · exact report_after s es _ _
      · rfl
    · rfl
  · unfold State.declare
    split
    · rename_i top outer _ _ hscopes
      split
      · split <;> rw [scopes_report]
      · rw [hscopes]
        rfl
    · rfl

end Steps

/-! ## Blocks -/

/-- A declaration adds to the innermost block. The blocks around it are kept, which is why the view
is the tail. -/
theorem separate_checkDecl (id : DeclId) : Separate List.tail (checkDecl id) := by
  refine separate.whileRunning (separate_get_bind (fun s => ?_) fun _ _ => rfl)
  split
  · exact separate.pure _
  · split
    · exact separate.ite (separate.bind (separate.report _ _) fun _ => separate_declare id)
        (separate_declare id)
    · refine separate.bind (separate.checkExpr _) fun r => ?_
      refine separate.bind (separate_modify (fun _ _ => rfl) fun _ => rfl) fun _ => ?_
      exact separate.ite (separate.bind (separate.report _ _) fun _ => separate_declare id)
        (separate_declare id)

/-- What is done in a block of its own leaves all the open blocks. -/
theorem separate_block {ι α β : Type} {view : List Names → ι} {m : CheckM α} (g : α → β)
    (h : Separate List.tail m) :
    Separate view (modify State.push >>= fun _ => m >>= fun a => modify State.pop >>= fun _ =>
      pure (g a)) where
  blind := by
    intro s es
    have hpush : (s.after es).push = s.push.after es := rfl
    rw [exec_bind, exec_modify, hpush, exec_bind, h.blind]
    rfl
  scopes := by
    intro s
    have hscopes : (exec m s.push).2.scopes.tail = s.scopes := h.scopes s.push
    exact congrArg view hscopes

mutual

/-- **A statement leaves the open blocks as it found them**, whatever it reports. -/
theorem separate_checkStmt {ι : Type} {view : List Names → ι} :
    ∀ st : Stmt, Separate view (checkStmt st)
  | .absent => by
    rw [checkStmt]
    exact separate.bind (separate.stop _) fun _ => separate.pure _
  | .assign pos target value => by
    rw [checkStmt]
    exact separate.bind (separate.checkExpr value) fun _ =>
      separate.bind (separate.checkTarget _ _ _) fun _ => separate.pure _
  | .branch cond yes none => by
    rw [checkStmt]
    exact separate.bind (separate.checkCondition _ _) fun _ =>
      separate.bind (separate_checkStmt yes) fun _ => separate.pure _
  | .branch cond yes (some no) => by
    rw [checkStmt]
    exact separate.bind (separate.checkCondition _ _) fun _ =>
      separate.bind (separate_checkStmt yes) fun _ =>
        separate.bind (separate_checkStmt no) fun _ => separate.pure _
  | .loop pos cond body => by
    rw [checkStmt]
    exact separate.bind (separate.checkCondition _ _) fun _ =>
      separate.bind (separate_checkStmt body) fun _ => separate.pure _
  | .scope decls stmts => by
    rw [checkStmt]
    exact separate_block (Stmt.scope decls) (separate.bind (separate.forM separate_checkDecl decls)
      fun _ => separate_checkStmts stmts)

/-- Statements open blocks and close them again, so behind them all blocks are as before. -/
theorem separate_checkStmts {ι : Type} {view : List Names → ι} :
    ∀ ss : List Stmt, Separate view (checkStmts ss)
  | [] => by
    rw [checkStmts]
    exact separate.pure _
  | s :: ss => by
    rw [checkStmts]
    exact separate.bind (separate_checkStmt s) fun _ =>
      separate.bind (separate_checkStmts ss) fun _ => separate.pure _

end

/-! ## Programs -/

/-- The walk through a program that has its predefined variables. -/
def programWalk (p : Program) : CheckM (List Stmt) := do
  modify State.push
  (p.predefined.getD []).forM fun id => modify (·.declare id)
  (p.body.getD {}).decls.forM checkDecl
  let stmts ← checkStmts (p.body.getD {}).stmts
  modify State.pop
  return stmts

/-- The walk through a program opens one block around all, and closes it in the end, also if the
check has stopped on the way. -/
theorem separate_programWalk {ι : Type} {view : List Names → ι} (p : Program) :
    Separate view (programWalk p) :=
  separate_block id (separate.bind (separate.forM separate_declare _) fun _ =>
    separate.bind (separate.forM separate_checkDecl _) fun _ => separate_checkStmts _)

/-- What a check gives, by the outcome of the walk. -/
def outcome (p : Program) (r : List Stmt × State) : Checked where
  checker := r.2.toChecker
  program := { p with decls := r.2.decls, body := some ⟨(p.body.getD {}).decls, r.1⟩ }
  stopped := r.2.stopped

/-- A check is the walk through the program with its predefined variables, started in the state that
the checker is in. -/
theorem check_eq_outcome (c : Checker) (p : Program) :
    c.check p =
      outcome (install p)
        (exec (programWalk (install p)) { c with decls := (install p).decls }) := by
  unfold check
  dsimp only
  rw [exec, programWalk]
  generalize StateT.run _ _ = r
  rfl

/-- **A checker between two programs is as good as a fresh one**, but for what it has collected. -/
theorem check_of_scopes_eq_nil {c : Checker} (hc : c.scopes = []) (p : Program) :
    c.check p =
      { checker := { scopes := [], errors := c.errors ++ p.check.checker.errors }
        program := p.check.program
        stopped := p.check.stopped } := by
  obtain ⟨scopes, errors⟩ := c
  cases hc
  have hstart : ({ scopes := [], errors := errors, decls := (install p).decls } : State) =
      State.after { decls := (install p).decls } errors := by
    simp [State.after]
  have hseparate : Separate id (programWalk (install p)) := separate_programWalk _
  have hscopes := hseparate.scopes { decls := (install p).decls }
  rw [Program.check, check_eq_outcome, check_eq_outcome, hstart, hseparate.blind]
  generalize exec (programWalk (install p)) { decls := (install p).decls } = r at hscopes
  obtain ⟨stmts, ⟨⟨scopes, found⟩, decls, stopped⟩⟩ := r
  cases hscopes
  rfl

/-- The checks of programs by one checker, one after the other. -/
def checkAll (c : Checker) : List Program → List Checked
  | [] => []
  | p :: ps => c.check p :: (c.check p).checker.checkAll ps

/-- **The `k`th check gives the program as a fresh checker would give it**, and its checker has the
diagnostics of all programs up to there, in order. -/
theorem getElem?_checkAll (ps : List Program) :
    ∀ {c : Checker}, c.scopes = [] → ∀ k : Nat, (c.checkAll ps)[k]? = ps[k]?.map fun p =>
      ({ checker :=
          { scopes := []
            errors := c.errors ++ (ps.take (k + 1)).flatMap fun q => q.check.checker.errors }
         program := p.check.program
         stopped := p.check.stopped } : Checked) := by
  induction ps with
  | nil =>
    intro c _ k
    rfl
  | cons p ps ih =>
    intro c hc k
    have hp := check_of_scopes_eq_nil hc p
    rw [checkAll]
    cases k with
    | zero => simp [hp]
    | succ k =>
      have hnext : (c.check p).checker.scopes = [] := by rw [hp]
      rw [List.getElem?_cons_succ, List.getElem?_cons_succ, ih hnext, hp]
      simp [List.append_assoc]

end Checker

/-- **Texts are checked independently.** One checker checks the trees of texts, whatever errors they
have, one after the other. Behind the one at place `k` no block is open, the checker has the
diagnostics that a fresh one finds in each text up to there, in order, and the tree is bound and
typed, with its predefined variables, as a fresh check leaves it. No check stops before its end. -/
theorem checkAll_sources (sources : List Bytes) (k : Nat) :
    (({} : Checker).checkAll (sources.map fun source => Program.ofAst (parse source).body))[k]? =
      sources[k]?.map fun source =>
        ({ checker :=
            { scopes := []
              errors := (sources.take (k + 1)).flatMap fun text =>
                (Program.ofAst (parse text).body).check.checker.errors }
           program := (Program.ofAst (parse source).body).check.program
           stopped := none } : Checker.Checked) := by
  have hstopped : ∀ source, (Program.ofAst (parse source).body).check.stopped = none :=
    fun source => (Checker.intact_check (namedStmt_parse source)).1
  rw [Checker.getElem?_checkAll _ rfl, List.getElem?_map, Option.map_map, ← List.map_take,
    List.flatMap_map]
  refine congrArg (fun f => sources[k]?.map f) (funext fun source => ?_)
  rw [Function.comp_apply, hstopped, List.nil_append]

end Shader
