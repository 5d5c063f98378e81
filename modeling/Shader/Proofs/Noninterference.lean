import Shader.Proofs.Preservation

/-!
# The outputs depend on the inputs only

A compiled shader finds something in every register it declares: what another program has left
there. None of it may reach an output. In the source that is a matter of scope. A variable is in
scope behind its declaration, and a declaration sets all of it, so two stores that agree on what is
in scope give every expression the same value, and every `if` takes the same branches in both. The
simulation carries this over to the code.

It holds of programs whose constructors of scalars fold. The code of one that does not fold, such as
`float(env2[0])`, sets a single component of a scratch register, and a product with a vector reads
all four: see `outputs_ne_of_stale_component`.
-/

namespace Shader

open Lower Machine TypeSystem
open Program (Expr Stmt)
open Number (Scalar)

variable {α K : Type} [Scalar α] [Field K] [LinearOrder K] {F : Functions K} {value : α → K}
  {env : Env} {n next : Nat} {Γ Γ' : Context} {σ σ' : Store K}

/-- Stores that agree on the variables in scope, and on all that have a value before the program
runs: constants and predefined variables. -/
structure Agree (env : Env) (Γ : Context) (σ σ' : Store K) : Prop where
  scope : ∀ b ∈ Γ, ∀ p ∈ b, σ p.2.id = σ' p.2.id
  given : ∀ (id : DeclId) (d : Declaration), env.decls[id]? = some d → d.qualifier ≠ .ordinary →
    σ id = σ' id

section Agree

omit [Field K] [LinearOrder K]

theorem Agree.of_finds (h : Agree env Γ σ σ') {name : Bytes} {x : Variable}
    (hx : Γ.Finds name x) : σ x.id = σ' x.id := by
  obtain ⟨b, hb, hmem⟩ := hx.mem
  exact h.scope b hb _ hmem

/-- Setting a variable to one value in both stores. It may come into scope by it. -/
theorem Agree.set (h : Agree env Γ σ σ') (id : DeclId) (w : Vec K)
    (hold : ∀ b ∈ Γ', ∀ p ∈ b, p.2.id ≠ id → ∃ b' ∈ Γ, p ∈ b') :
    Agree env Γ' (Function.update σ id w) (Function.update σ' id w) where
  scope := by
    intro b hb p hp
    by_cases hid : p.2.id = id
    · rw [hid, Function.update_self, Function.update_self]
    · obtain ⟨b', hb', hp'⟩ := hold b hb p hp hid
      rw [Function.update_of_ne hid, Function.update_of_ne hid]
      exact h.scope b' hb' p hp'
  given := by
    intro id' d hd hq
    by_cases hid : id' = id
    · rw [hid, Function.update_self, Function.update_self]
    · rw [Function.update_of_ne hid, Function.update_of_ne hid]
      exact h.given id' d hd hq

theorem Agree.mono (h : Agree env Γ σ σ') (hsub : ∀ b ∈ Γ', b = [] ∨ b ∈ Γ) :
    Agree env Γ' σ σ' where
  scope := by
    intro b hb p hp
    rcases hsub b hb with rfl | hb
    · simp at hp
    · exact h.scope b hb p hp
  given := h.given

theorem Agree.ite {c : Prop} [Decidable c] {τ τ' : Store K} (h : Agree env Γ σ σ')
    (hτ : Agree env Γ τ τ') : Agree env Γ (if c then σ else τ) (if c then σ' else τ') := by
  by_cases hc : c
  · rwa [if_pos hc, if_pos hc]
  · rwa [if_neg hc, if_neg hc]

/-- Every variable of a block is in scope behind a further declaration in it. -/
theorem mem_of_declare {b : Block} {id : DeclId} {d : Declaration} :
    ∀ c ∈ b.declare id d :: Γ, ∀ p ∈ c, p.2.id ≠ id → ∃ c' ∈ b :: Γ, p ∈ c' := by
  intro c hc p hp hid
  rcases List.mem_cons.mp hc with rfl | hc
  · rcases List.mem_cons.mp hp with rfl | hp
    · exact absurd rfl hid
    · exact ⟨b, by simp, hp⟩
  · exact ⟨c, by simp [hc], hp⟩

end Agree

/-! ## Expressions -/

theorem access_eq_of_agree (h : Agree env Γ σ σ') {v : Ast.Var} {v' : Expr} {x : Variable} {t : Ty}
    (ha : Access Γ v v' x t) :
    Semantics.expr env F value σ v' = Semantics.expr env F value σ' v' := by
  cases ha with
  | whole hx =>
    rw [Semantics.expr, Semantics.expr, Semantics.variableValue, Semantics.variableValue]
    dsimp only
    rw [h.of_finds hx]
  | component hx _ _ =>
    rw [Semantics.expr, Semantics.expr, Semantics.componentValue, Semantics.componentValue]
    generalize Component.ofIndex? _ = c
    cases c with
    | none => rfl
    | some c =>
      dsimp only
      rw [h.of_finds hx]

mutual

/-- **An expression has one value** in stores that agree on what is in scope. -/
theorem expr_eq_of_agree (h : Agree env Γ σ σ') :
    ∀ {e : Ast.Expr} {e' : Expr} {t : Ty}, Typed Γ e e' t →
      Semantics.expr env F value σ e' = Semantics.expr env F value σ' e'
  | _, _, _, .int => by rw [Semantics.expr, Semantics.expr]
  | _, _, _, .float => by rw [Semantics.expr, Semantics.expr]
  | _, _, _, .bool => by rw [Semantics.expr, Semantics.expr]
  | _, _, _, .var ha _ => access_eq_of_agree h ha
  | _, _, _, .unary he _ => by rw [Semantics.expr, Semantics.expr, expr_eq_of_agree h he]
  | _, _, _, .binary he hf _ => by
    rw [Semantics.expr, Semantics.expr, expr_eq_of_agree h he, expr_eq_of_agree h hf]
  | _, _, _, .call hargs _ => by rw [Semantics.expr, Semantics.expr, exprs_eq_of_agree h hargs]
  | _, _, _, .construct _ hargs => by
    rw [Semantics.expr, Semantics.expr, exprs_eq_of_agree h hargs]

theorem exprs_eq_of_agree (h : Agree env Γ σ σ') :
    ∀ {es : List Ast.Expr} {es' : List Expr} {ts : List Ty}, TypedList Γ es es' ts →
      Semantics.exprs env F value σ es' = Semantics.exprs env F value σ' es'
  | _, _, _, .nil => by rw [Semantics.exprs, Semantics.exprs]
  | _, _, _, .cons he hes => by
    rw [Semantics.exprs, Semantics.exprs, expr_eq_of_agree h he, exprs_eq_of_agree h hes]

end

/-! ## Statements -/

omit [Field K] [LinearOrder K] in
theorem agree_assign (h : Agree env Γ σ σ') (w : Vec K) {v : Ast.Var} {v' : Expr} {x : Variable}
    {t : Ty} (ha : Access Γ v v' x t) :
    Agree env Γ (Semantics.assign σ w v') (Semantics.assign σ' w v') := by
  cases ha with
  | whole => exact h.set x.id w fun b hb p hp _ => ⟨b, hb, hp⟩
  | component hx _ _ =>
    rw [Semantics.assign, Semantics.assign]
    split
    · rw [h.of_finds hx]
      exact h.set x.id _ fun b hb p hp _ => ⟨b, hb, hp⟩
    · exact h

theorem agree_declare {b : Block} {id : DeclId} {ad : Ast.Decl} {d : Declaration}
    (h : Agree env (b :: Γ) σ σ') (hd : env.decls[id]? = some d) (hdecl : DeclTyped (b :: Γ) ad d) :
    Agree env (b.declare id d :: Γ) (Semantics.declare env F value σ id)
      (Semantics.declare env F value σ' id) := by
  rw [Semantics.declare, Semantics.declare, hd]
  cases hdecl with
  | plain => exact h.set id 0 mem_of_declare
  | mutable _ he =>
    dsimp only [Declaration.isConst]
    rw [expr_eq_of_agree h he]
    exact h.set id _ mem_of_declare
  | const =>
    refine ⟨fun c hc p hp => ?_, h.given⟩
    by_cases hid : p.2.id = id
    · rw [hid]
      exact h.given id _ hd (by simp)
    · obtain ⟨c', hc', hp'⟩ := mem_of_declare c hc p hp hid
      exact h.scope c' hc' p hp'

/-- Declarations bring variables into scope, each with one value. -/
theorem agree_declares {ds : List Ast.Decl} {ds' : List Declaration}
    (hds : DeclsTyped next Γ ds ds' Γ') (hholds : Holds env.decls next ds') :
    ∀ {σ σ' : Store K}, Agree env Γ σ σ' →
      Agree env Γ' ((List.range' next ds'.length).foldl (Semantics.declare env F value) σ)
        ((List.range' next ds'.length).foldl (Semantics.declare env F value) σ') := by
  induction hds with
  | nil => exact fun h => h
  | @cons next b Γ Γ' ad d ds ds' hd _ _ ih =>
    intro σ σ' h
    rw [List.length_cons, List.range'_succ, List.foldl_cons, List.foldl_cons]
    exact ih hholds.tail (agree_declare h (hholds 0 d rfl) hd)

mutual

/-- **A statement keeps stores in agreement**: both take the same branches. -/
theorem agree_stmt :
    ∀ {Γ : Context} {next : DeclId} {st : Ast.Stmt} {st' : Stmt} {ds : List Declaration},
      StmtTyped Γ next st st' ds → Holds env.decls next ds → ∀ {σ σ' : Store K},
      Agree env Γ σ σ' →
      Agree env Γ (Semantics.stmt env F value σ st') (Semantics.stmt env F value σ' st')
  | _, _, _, _, _, .assign hv _ he, _, _, _, h => by
    rw [Semantics.stmt, Semantics.stmt, expr_eq_of_agree h he]
    exact agree_assign h _ hv
  | _, _, _, _, _, .ifThen hc hst, hds, _, _, h => by
    rw [Semantics.stmt, Semantics.stmt, expr_eq_of_agree h hc]
    exact h.ite (agree_stmt hst hds h)
  | _, _, _, _, _, .ifElse hc hst hno, hds, _, _, h => by
    rw [Semantics.stmt, Semantics.stmt, expr_eq_of_agree h hc]
    refine Agree.ite ?hyes (agree_stmt hno hds.append.2 ?hyes)
    exact h.ite (agree_stmt hst hds.append.1 h)
  | _, _, _, _, _, .loop _ _, _, _, _, h => by
    rw [Semantics.stmt, Semantics.stmt]
    exact h
  | _, _, _, _, _, .scope hdecls hss, hds, _, _, h => by
    rw [Semantics.stmt, Semantics.stmt]
    have hopen := h.mono fun b hb => List.mem_cons.mp hb
    refine (agree_stmts hss hds.append.2 (agree_declares hdecls hds.append.1 hopen)).mono
      fun b hb => .inr ?_
    exact hdecls.mem_of_mem_tail hb

theorem agree_stmts :
    ∀ {Γ : Context} {next : DeclId} {ss : List Ast.Stmt} {ss' : List Stmt} {ds : List Declaration},
      StmtsTyped Γ next ss ss' ds → Holds env.decls next ds → ∀ {σ σ' : Store K},
      Agree env Γ σ σ' →
      Agree env Γ (Semantics.stmts env F value σ ss') (Semantics.stmts env F value σ' ss')
  | _, _, _, _, _, .nil, _, _, _, h => by
    rw [Semantics.stmts, Semantics.stmts]
    exact h
  | _, _, _, _, _, .cons hst hss, hds, _, _, h => by
    rw [Semantics.stmts, Semantics.stmts]
    exact agree_stmts hss hds.append.2 (agree_stmt hst hds.append.1 h)

end

/-! ## Programs -/

/-- Registers with the same inputs: those of the hardware. -/
def SameInputs (contents contents' : Registers K) : Prop :=
  ∀ h, contents (.hardware h) = contents' (.hardware h)

theorem qualifier_ofHardware_ne (h : Hardware) :
    (Declaration.ofHardware h).qualifier ≠ .ordinary := by
  cases h <;> simp [Declaration.ofHardware, Hardware.qualifier]

omit [LinearOrder K] in
/-- What has a value before the program runs has it from the text or from an input. -/
theorem initial_eq_of_sameInputs {contents contents' : Registers K} (hA : Accepted env n)
    (hin : SameInputs contents contents') {id : DeclId} {d : Declaration}
    (hd : env.decls[id]? = some d) (hq : d.qualifier ≠ .ordinary) :
    Semantics.initial env value contents id = Semantics.initial env value contents' id := by
  by_cases hc : d.isConst = true
  · obtain ⟨e, v, folded, hinit, hv, hsources, -⟩ := exists_constant (α := α) hA hd hc
    rw [initial_of_const hd hc hinit hv, initial_of_const hd hc hinit hv]
    refine paramValue_congr fun r hr => ?_
    obtain ⟨h, rfl⟩ := hsources r hr
    exact hin h
  · have hid : n ≤ id := by
      by_contra hlt
      obtain ⟨Γ, ad, hdecl, -⟩ := hA.own id d hd (Nat.not_le.mp hlt)
      cases hdecl with
      | plain => exact hq rfl
      | mutable => exact hq rfl
      | const => exact hc rfl
    obtain ⟨h, rfl⟩ := hA.predefined id d hd hid
    obtain ⟨r, hr, hfit⟩ := hA.listed id _ hd
    rw [eq_hardware_of_fitting hfit] at hr
    rw [Semantics.initial, Semantics.initial, hd]
    dsimp only
    rw [Bool.eq_false_iff.mpr hc, hr]
    exact hin h

omit [LinearOrder K] in
theorem agree_initial {contents contents' : Registers K} (hA : Accepted env n)
    (hΓ : Fits env.decls n 0 [predefinedBlock n]) (hin : SameInputs contents contents') :
    Agree env [predefinedBlock n] (Semantics.initial env value contents)
      (Semantics.initial env value contents') where
  given := fun _ _ hd hq => initial_eq_of_sameInputs hA hin hd hq
  scope := by
    intro b hb p hp
    have hid : n ≤ p.2.id := (hΓ.below b hb p hp).resolve_left (Nat.not_lt_zero _)
    have hsig := hΓ.lists b hb p hp
    rw [List.getElem?_map] at hsig
    obtain ⟨d, hd, -⟩ := Option.map_eq_some_iff.mp hsig
    obtain ⟨h, rfl⟩ := hA.predefined _ d hd hid
    exact initial_eq_of_sameInputs hA hin hd (qualifier_ofHardware_ne h)

/-- A program gives a predefined variable one value from registers with the same inputs. -/
theorem program_eq_of_sameInputs {contents contents' : Registers K} {body : Ast.Scope}
    {ds es : List Declaration} {stmts : List Stmt} (hA : Accepted env n)
    (hB : AcceptedBody env n body ds es Γ stmts) (hin : SameInputs contents contents')
    {id : DeclId} {h : Hardware} (hd : env.decls[id]? = some (.ofHardware h)) :
    Semantics.program env F value contents (some ⟨List.range' 0 ds.length, stmts⟩) id =
      Semantics.program env F value contents' (some ⟨List.range' 0 ds.length, stmts⟩) id := by
  obtain ⟨-, hholds, -⟩ := hB.start
  rw [Semantics.program, Semantics.program, Semantics.stmt, Semantics.stmt]
  exact (agree_stmts hB.stmts hholds (agree_declares hB.decls hB.holds.append.1
    (agree_initial hA hB.fits hin))).given id _ hd (qualifier_ofHardware_ne h)

/-- Every predefined variable is in the table of a checked program. -/
theorem exists_ofHardware {body : Ast.Scope} {p : Program} (h : Elaborates body p)
    (hw : Hardware) : ∃ id : DeclId, p.decls[id]? = some (Declaration.ofHardware hw) := by
  cases h with
  | mk =>
    refine List.getElem?_of_mem (List.mem_append_right _ (List.mem_map_of_mem ?_))
    cases hw <;> decide

/-- All components of an output count. -/
theorem mem_components_of_result {h : Hardware} (hq : h.qualifier = .result) (c : Component) :
    c ∈ h.type.components := by
  cases h <;> cases hq <;> cases c <;> decide

/-- **The outputs depend on the inputs only.** For a text without parse errors, diagnostics and
loops, in which every constructor of a scalar can be folded, the compiled program leaves the same
color and the same depth, in all components, from any two contents of the registers that agree on
those of the hardware. -/
theorem outputs_eq_of_sameInputs [IsStrictOrderedRing K] (F : Functions K) (value : α → K)
    (source : Bytes) (hparse : (parse source).errors = [])
    (hcheck : (Program.ofAst (parse source).body).check.checker.errors = [])
    (hloops : (parse source).body.toStmt.loops = [])
    (hfold : Semantics.programScalarsFold α (Program.ofAst (parse source).body).check.program =
      true) :
    ∃ a, ((Program.ofAst (parse source).body).check.program.compile : Compilation α).outcome =
        .ok a ∧
      ∀ contents contents' : Registers K, SameInputs contents contents' →
        ∃ ρ ρ', execute F value a contents = some ρ ∧ execute F value a contents' = some ρ' ∧
          ρ (.hardware .fragColor) = ρ' (.hardware .fragColor) ∧
          ρ (.hardware .fragDepth) = ρ' (.hardware .fragDepth) := by
  set p := (Program.ofAst (parse source).body).check.program with hp
  have helab : Elaborates (parse source).body p := elaborates_check hparse hcheck
  obtain ⟨symbols, n, ds, es, Γ, stmts, hbuild, hbody, hA, hB, a, ha⟩ :=
    compiled_of_elaborates (α := α) helab hloops
  obtain ⟨temps, u, lines, alloc, hrun, rfl⟩ := compile_eq_ok hbuild hbody ha
  rw [Semantics.programScalarsFold, hbuild, hbody, Bool.and_eq_true] at hfold
  obtain ⟨hdecls, hstmts⟩ := hfold
  have hinit : ∀ d ∈ p.decls, ∀ e, d.init = some e →
      Semantics.scalarsFold α ⟨p.decls, symbols⟩ e = true := by
    intro d hd e he
    have hall := List.all_eq_true.mp hdecls d hd
    rwa [he] at hall
  refine ⟨_, ha, fun contents contents' hin => ?_⟩
  obtain ⟨ρ, hρ, htracks⟩ := tracks_execute F value hA hB hinit hstmts hrun contents
  obtain ⟨ρ', hρ', htracks'⟩ := tracks_execute F value hA hB hinit hstmts hrun contents'
  -- the outputs hold what the meaning of the program says, and that depends on the inputs alone
  have hout : ∀ h : Hardware, h.qualifier = .result → ρ (.hardware h) = ρ' (.hardware h) := by
    intro h hq
    obtain ⟨id, hd⟩ := exists_ofHardware helab h
    obtain ⟨r, hr, hfit⟩ := hA.listed id _ hd
    rw [eq_hardware_of_fitting hfit] at hr
    funext c
    rw [htracks.registers id _ _ hd hr c (mem_components_of_result hq c),
      htracks'.registers id _ _ hd hr c (mem_components_of_result hq c),
      program_eq_of_sameInputs hA hB hin hd]
  exact ⟨ρ, ρ', hρ, hρ', hout .fragColor rfl, hout .fragDepth rfl⟩

/-- Scratch registers used over and over, a condition and a variable that is set in one branch
only. -/
theorem outputs_eq_of_sameInputs_branch :
    let source :=
      ascii "\x7bfloat x;vec2 v=vec2(x,env1[1]*env2[0]);if(v[1]<env3[2]){x=v[0]/v[1];}" ++
        ascii "gl_FragColor=x*env2;\x7d"
    let p := (Program.ofAst (parse source).body).check.program
    (parse source).errors = [] ∧
    (Program.ofAst (parse source).body).check.checker.errors = [] ∧
    (parse source).body.toStmt.loops = [] ∧ Semantics.programScalarsFold Float32 p = true ∧
    ∀ (F : Functions ℚ) (value : Float32 → ℚ), ∃ a,
      (p.compile : Compilation Float32).outcome = .ok a ∧
      ∀ contents contents' : Registers ℚ, SameInputs contents contents' →
        ∃ ρ ρ', execute F value a contents = some ρ ∧ execute F value a contents' = some ρ' ∧
          ρ (.hardware .fragColor) = ρ' (.hardware .fragColor) ∧
          ρ (.hardware .fragDepth) = ρ' (.hardware .fragDepth) := by
  intro source p
  have hyps : (isCompilable source && Semantics.programScalarsFold Float32 p) = true := by
    decide +kernel
  rw [Bool.and_eq_true, isCompilable_iff] at hyps
  obtain ⟨⟨hparse, hcheck, hloops⟩, hfold⟩ := hyps
  exact ⟨hparse, hcheck, hloops, hfold, fun F value =>
    outputs_eq_of_sameInputs F value _ hparse hcheck hloops hfold⟩

/-! ## A stale component

The constructor of `env1*float(env2[0])` does not fold. It fills the first component of a scratch
register, and the product reads the others as another program has left them. -/

/-- The code of `{gl_FragColor=env1*float(env2[0]);}`. -/
def staleProduct : List Instruction :=
  [⟨.mov, (Operand.of (.temp 0)).component .x, [(Operand.of (.hardware .env2)).component .x]⟩,
    ⟨.mul, .of (.temp 1), [.of (.hardware .env1), .of (.temp 0)]⟩,
    ⟨.mov, .of (.hardware .fragColor), [.of (.temp 1)]⟩]

theorem run_staleProduct (F : Functions K) (ρ : Registers K) :
    ∃ ρ', run F staleProduct ρ = some ρ' ∧
      ρ' (.hardware .fragColor) .y = ρ (.hardware .env1) .y * ρ (.temp 0) .y :=
  ⟨_, rfl, rfl⟩

/-- **A stale component of a scratch register reaches the color.** The text is accepted and has no
loop, but its constructor of a scalar cannot be folded. -/
theorem outputs_ne_of_stale_component :
    let source := ascii "{gl_FragColor=env1*float(env2[0]);}"
    let p := (Program.ofAst (parse source).body).check.program
    (parse source).errors = [] ∧
    (Program.ofAst (parse source).body).check.checker.errors = [] ∧
    (parse source).body.toStmt.loops = [] ∧
    ∀ (F : Functions ℚ) (value : Float32 → ℚ), ∃ a,
      (p.compile : Compilation Float32).outcome = .ok a ∧
      ∃ contents contents' : Registers ℚ, SameInputs contents contents' ∧
        ∃ ρ ρ', execute F value a contents = some ρ ∧ execute F value a contents' = some ρ' ∧
          ρ (.hardware .fragColor) .y ≠ ρ' (.hardware .fragColor) .y := by
  intro source p
  have hyps :
      (isCompilable source && (p.compile : Compilation Float32).outcome.toOption.any fun a =>
        a.instructions == staleProduct &&
          (a.immediates ++ a.userParams).map Param.reg == [.truth true, .truth false, .zero]) =
        true := by
    decide +kernel
  rw [Bool.and_eq_true, isCompilable_iff] at hyps
  obtain ⟨⟨hparse, hcheck, hloops⟩, hcode⟩ := hyps
  refine ⟨hparse, hcheck, hloops, fun F value => ?_⟩
  generalize (p.compile : Compilation Float32).outcome = outcome at hcode ⊢
  cases outcome with
  | error _ => cases hcode
  | ok a =>
    rw [Except.toOption, Option.any_some, Bool.and_eq_true, beq_iff_eq, beq_iff_eq] at hcode
    obtain ⟨hinstructions, hparams⟩ := hcode
    refine ⟨a, rfl, fun _ => 1, Function.update (fun _ => 1) (.temp 0) 0, fun h => rfl, ?_⟩
    -- what is read of the registers at the start is none of the constants
    have hload : ∀ (contents : Registers ℚ) r, r ∉ [Register.truth true, .truth false, .zero] →
        load value (a.immediates ++ a.userParams) contents r = contents r :=
      fun _ r hr => load_of_notMem (by rwa [← hparams] at hr)
    rw [execute, execute, hinstructions]
    obtain ⟨ρ, hρ, hcolor⟩ :=
      run_staleProduct F (load value (a.immediates ++ a.userParams) fun _ => 1)
    obtain ⟨ρ', hρ', hcolor'⟩ := run_staleProduct F
      (load value (a.immediates ++ a.userParams) (Function.update (fun _ => 1) (.temp 0) 0))
    refine ⟨ρ, ρ', hρ, hρ', ?_⟩
    rw [hcolor, hcolor', hload _ _ (by decide), hload _ _ (by decide), hload _ _ (by decide),
      hload _ _ (by decide)]
    simp

end Shader
