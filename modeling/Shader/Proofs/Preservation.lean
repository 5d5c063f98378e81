import Mathlib.Algebra.Field.Rat
import Mathlib.Algebra.Order.Ring.Rat
import Shader.Proofs.LoweringTotal
import Shader.Proofs.StmtSimulation

/-!
# A compiled program does what its source says

What is left of the simulation is its beginning. The registers a program starts from are any
contents with its constants loaded over them, and they hold the store that the source starts from:
the constants of the shader have registers of their own, and each takes its value from the text or
from a hardware register, so none is loaded over what another is taken from.
-/

namespace Shader

open Lower Machine TypeSystem
open Number (Scalar)

variable {α : Type} [Scalar α] {env : Env} {n : Nat}

/-! ## The constants of a program -/

/-- The constant register of an entry of the symbol table, if it is that of a constant. -/
def constant? (env : Env) (entry : DeclId × Register) : Option (Param α) :=
  match env.decls[entry.1]? with
  | none => none
  | some d =>
    match d.isConst, d.init with
    | true, some e =>
      match reduceOrZero env e with
      | .ok (v, _) => some ⟨entry.2, v⟩
      | .error _ => none
    | _, _ => none

/-- The constant registers of a program. -/
def constants (env : Env) : List (Param α) := env.symbols.entries.filterMap (constant? env)

theorem constant?_eq_none {id : DeclId} {r : Register} {d : Declaration}
    (hd : env.decls[id]? = some d) (hc : d.isConst = false) :
    constant? (α := α) env (id, r) = none := by
  rw [constant?]
  dsimp only
  rw [hd]
  dsimp only
  rw [hc]

theorem constant?_eq_some {entry : DeclId × Register} {p : Param α}
    (h : constant? env entry = some p) :
    p.reg = entry.2 ∧ ∃ d e folded, env.decls[entry.1]? = some d ∧ d.isConst = true ∧
      d.init = some e ∧ reduceOrZero env e = .ok (p.value, folded) := by
  rw [constant?] at h
  split at h
  · cases h
  · rename_i d hd
    split at h
    · rename_i e hc hinit
      split at h
      · rename_i v folded hv
        cases h
        exact ⟨rfl, d, e, folded, hd, hc, hinit, hv⟩
      · cases h
    · cases h

/-- The register of an entry of the symbol table, if it is that of a mutable variable of the
shader. -/
def mutable? (env : Env) (entry : DeclId × Register) : Option Register :=
  match env.decls[entry.1]? with
  | none => none
  | some d => if d.isOrdinary && !d.isConst then some entry.2 else none

/-- The registers of the mutable variables of a program. -/
def mutables (env : Env) : List Register := env.symbols.entries.filterMap (mutable? env)

/-- What declaring variables adds to a program. -/
theorem declare_eq_ok {entries : List (DeclId × Register)} {a a' : Assembly α}
    {notes : List (Note α)} (h : Compilation.declare env entries a = (notes, .ok a')) :
    a' = { a with
      userTemps := a.userTemps ++ entries.filterMap (mutable? env)
      userParams := a.userParams ++ entries.filterMap (constant? env) } := by
  induction entries generalizing a notes with
  | nil =>
    cases h
    simp
  | cons entry rest ih =>
    obtain ⟨id, reg⟩ := entry
    rw [Compilation.declare] at h
    cases hd : env.decls[id]? with
    | none =>
      rw [hd] at h
      rw [ih h]
      simp [constant?, mutable?, hd]
    | some d =>
      rw [hd] at h
      dsimp only at h
      by_cases hc : d.isConst = true
      -- a constant is one of the shader's variables, and the only kind that adds a value
      · have ho : d.isOrdinary = true := by
          rw [Declaration.isOrdinary, Qualifier.isOrdinary]
          simp [eq_of_beq hc]
        have hvar : mutable? env (id, reg) = none := by simp [mutable?, hd, hc]
        rw [ho, hc] at h
        cases hinit : d.init with
        | none =>
          rw [hinit] at h
          cases h
        | some e =>
          rw [hinit] at h
          simp only [Bool.not_true, Bool.false_eq_true, if_false] at h
          cases hv : reduceOrZero (α := α) env e with
          | error f =>
            rw [hv] at h
            cases h
          | ok v =>
            obtain ⟨v, folded⟩ := v
            rw [hv] at h
            have hentry : constant? env (id, reg) = some ⟨reg, v⟩ := by
              simp [constant?, hd, hc, hinit, hv]
            have hrest : (Compilation.declare env rest (a.declareUserParam reg v)).2 = .ok a' :=
              congrArg Prod.snd h
            rw [ih (Prod.ext rfl hrest), List.filterMap_cons, List.filterMap_cons, hentry, hvar]
            simp [Assembly.declareUserParam]
      · have hentry : constant? (α := α) env (id, reg) = none :=
          constant?_eq_none hd (Bool.eq_false_iff.mpr hc)
        rw [List.filterMap_cons, List.filterMap_cons, hentry]
        split at h
        · rename_i ho
          have hvar : mutable? env (id, reg) = none := by simp_all [mutable?]
          rw [hvar]
          exact ih h
        · rename_i ho
          have hvar : mutable? env (id, reg) = some reg := by simp_all [mutable?]
          rw [if_pos (by simp [hc])] at h
          rw [ih h, hvar]
          simp [Assembly.declareUserTemp]

/-- A constant is declared with a value that is taken from no register but those of the hardware,
and is one number if the constant is a scalar. -/
theorem exists_constant (hA : Accepted env n) {id : DeclId} {d : Declaration}
    (hd : env.decls[id]? = some d) (hc : d.isConst = true) :
    ∃ e v folded, d.init = some e ∧ reduceOrZero (α := α) env e = .ok (v, folded) ∧
      (∀ r ∈ sources v, ∃ h, r = .hardware h) ∧
      (d.type.order = 1 → ∀ {K : Type} [Field K] (value : α → K) (contents : Registers K),
        ∃ x, paramValue value contents v = .splat x) := by
  have hid : id < n := by
    by_contra hid
    obtain ⟨h, rfl⟩ := hA.predefined id d hd (Nat.not_lt.mp hid)
    cases h <;> cases hc
  obtain ⟨Γ, ad, hdecl, hΓ⟩ := hA.own id d hd hid
  cases hdecl with
  | plain => cases hc
  | mutable => cases hc
  | @const _ t _ _ e _ he =>
    obtain ⟨c, hreduce, hshape⟩ := Reduce.folds_reduce (α := α) hA hΓ (Nat.le_of_lt hid) he
    cases c with
    | none =>
      have hvalue : reduceOrZero (α := α) env e = .ok (zeroValue (e.type env.decls), false) := by
        rw [reduceOrZero, hreduce]
        rfl
      exact ⟨e, _, _, rfl, hvalue, by simp [zeroValue, sources], fun _ _ _ _ _ => ⟨0, rfl⟩⟩
    | some c =>
      have hvalue : reduceOrZero env e = .ok (.constant c, true) := by
        rw [reduceOrZero, hreduce]
        rfl
      cases c with
      | literal xs =>
        refine ⟨e, _, _, rfl, hvalue, by simp [sources], fun hone _ _ value contents => ?_⟩
        have hlen : (xs.length : Int) = t.order := hshape
        have hone : t.order = 1 := hone
        obtain ⟨x, rfl⟩ := List.length_eq_one_iff.mp (by omega : xs.length = 1)
        exact ⟨value x, rfl⟩
      | register r path =>
        obtain ⟨h, rfl, hpath⟩ := hshape
        refine ⟨e, _, _, rfl, hvalue, by simp [sources], fun hone _ _ value contents => ?_⟩
        have hone : t.order = 1 := hone
        -- a whole register has four components, so a scalar is one of them
        rcases hpath with ⟨-, hfour⟩ | ⟨c, rfl, -⟩
        · omega
        · exact ⟨contents (.hardware h) c, rfl⟩

theorem map_reg_constants_sublist (entries : List (DeclId × Register)) :
    ((entries.filterMap (constant? (α := α) env)).map (·.reg)).Sublist (entries.map (·.2)) := by
  induction entries with
  | nil => exact .slnil
  | cons entry rest ih =>
    rw [List.filterMap_cons]
    split
    · exact ih.cons _
    · rename_i p hp
      rw [List.map_cons, List.map_cons, (constant?_eq_some hp).1]
      exact ih.cons_cons _

/-- A constant register has the name of a variable of the shader. -/
theorem exists_user_of_mem_constants (hA : Accepted env n) {p : Param α} (hp : p ∈ constants env) :
    ∃ id d, env.symbols.register? id = some p.reg ∧ env.decls[id]? = some d ∧ d.isConst = true ∧
      (∃ name k, p.reg = .user name k) ∧ ∀ r ∈ sources p.value, ∃ h, r = .hardware h := by
  obtain ⟨⟨id, r⟩, hentry, hp⟩ := List.mem_filterMap.mp hp
  obtain ⟨hreg, d, e, folded, hd, hc, hinit, hv⟩ := constant?_eq_some hp
  obtain ⟨e', v, folded', hinit', hv', hsources, -⟩ := exists_constant (α := α) hA hd hc
  cases hinit.symm.trans hinit'
  have hsame : p.value = v := congrArg Prod.fst (Except.ok.inj (hv.symm.trans hv'))
  obtain ⟨d', hd', hfit⟩ := hA.sound.fitting _ hentry
  cases hd.symm.trans hd'
  refine ⟨id, d, ?_, hd, hc, ?_, hsame ▸ hsources⟩
  · rw [hreg]
    exact hA.sound.register? hentry
  · rw [hreg]
    cases hfit with
    | own k _ => exact ⟨_, k, rfl⟩
    | hardware h => cases h <;> cases hc

/-! ## The registers a program starts from -/

section Start

variable {K : Type} [Field K] {value : α → K} {contents : Registers K} {alloc : Allocator α}

omit [Scalar α] in
theorem isConstant_of_mem_immediates (ht : alloc.Tidy) {p : Param α}
    (hp : p ∈ alloc.program.immediates) : IsConstant p.reg := by
  have hmem : p.reg ∈ alloc.program.immediates.map (·.reg) := List.mem_map_of_mem hp
  rw [ht.immediates, List.mem_append, List.mem_map] at hmem
  rcases hmem with hmem | ⟨k, -, hk⟩
  · simp only [List.mem_cons, List.not_mem_nil, or_false] at hmem
    rcases hmem with h | h | h <;> rw [h]
    · exact .truth true
    · exact .truth false
    · exact .zero
  · rw [← hk]
    exact .immediate k

omit [Scalar α] in
theorem nodup_immediates (ht : alloc.Tidy) : (alloc.program.immediates.map Param.reg).Nodup := by
  rw [ht.immediates, List.nodup_append]
  refine ⟨by decide, List.Nodup.map (fun _ _ h => by cases h; rfl) List.nodup_range, ?_⟩
  intro r hr r' hr' heq
  obtain ⟨k, -, rfl⟩ := List.mem_map.mp hr'
  simp [heq] at hr

theorem nodup_params (hA : Accepted env n) (ht : alloc.Tidy) :
    ((alloc.program.immediates ++ constants env).map Param.reg).Nodup := by
  rw [List.map_append, List.nodup_append]
  refine ⟨nodup_immediates ht, (map_reg_constants_sublist _).nodup hA.sound.regs, ?_⟩
  intro r hr r' hr' heq
  obtain ⟨p, hp, rfl⟩ := List.mem_map.mp hr
  obtain ⟨q, hq, rfl⟩ := List.mem_map.mp hr'
  obtain ⟨-, -, -, -, -, ⟨name, k, hq⟩, -⟩ := exists_user_of_mem_constants hA hq
  have hconst := isConstant_of_mem_immediates ht hp
  rw [heq, hq] at hconst
  cases hconst

/-- No constant is loaded over a register that one is taken from. -/
theorem sources_params (hA : Accepted env n) (ht : alloc.Tidy) :
    ∀ p ∈ alloc.program.immediates ++ constants env, ∀ r ∈ sources p.value,
      r ∉ (alloc.program.immediates ++ constants env).map Param.reg := by
  intro p hp r hr hmem
  rcases List.mem_append.mp hp with hp | hp
  · rw [ht.closed p hp] at hr
    cases hr
  · obtain ⟨-, -, -, -, -, -, hsources⟩ := exists_user_of_mem_constants hA hp
    obtain ⟨h, rfl⟩ := hsources r hr
    obtain ⟨q, hq, hreg⟩ := List.mem_map.mp hmem
    -- neither kind of constant has a hardware register
    rcases List.mem_append.mp hq with hq | hq
    · have hconst := isConstant_of_mem_immediates ht hq
      rw [hreg] at hconst
      cases hconst
    · obtain ⟨-, -, -, -, -, ⟨name, k, hq⟩, -⟩ := exists_user_of_mem_constants hA hq
      rw [hq] at hreg
      cases hreg

theorem initial_of_const {id : DeclId} {d : Declaration} (hd : env.decls[id]? = some d)
    (hc : d.isConst = true) {e : Program.Expr} (hinit : d.init = some e) {v : ParamValue α}
    {folded : Bool} (hv : reduceOrZero env e = .ok (v, folded)) :
    Semantics.initial env value contents id = paramValue value contents v := by
  rw [Semantics.initial, hd]
  dsimp only
  rw [hc, hinit]
  dsimp only
  rw [hv]

/-- A variable starts with the value that the source says: a constant with the one it is declared
with, and any other with what is in its register. -/
theorem load_register (hA : Accepted env n) (ht : alloc.Tidy) {id : DeclId} {d : Declaration}
    {r : Register} (hd : env.decls[id]? = some d) (hr : env.symbols.register? id = some r) :
    load value (alloc.program.immediates ++ constants env) contents r =
      Semantics.initial env value contents id := by
  by_cases hc : d.isConst = true
  · obtain ⟨e, v, folded, hinit, hv, -⟩ := exists_constant (α := α) hA hd hc
    have hmem : (⟨r, v⟩ : Param α) ∈ constants env :=
      List.mem_filterMap.mpr ⟨(id, r), Symbols.mem_of_register? hr, by
        simp [constant?, hd, hc, hinit, hv]⟩
    rw [initial_of_const hd hc hinit hv]
    exact load_of_mem (nodup_params hA ht) (sources_params hA ht) (List.mem_append_right _ hmem)
  · rw [Semantics.initial, hd]
    dsimp only
    rw [Bool.eq_false_iff.mpr hc]
    dsimp only
    rw [hr]
    refine load_of_notMem fun hmem => ?_
    obtain ⟨p, hp, hreg⟩ := List.mem_map.mp hmem
    rcases List.mem_append.mp hp with hp | hp
    · have hconst := isConstant_of_mem_immediates ht hp
      have hvar := nameable_of_accepted hA _ _ hr
      rw [hreg] at hconst
      cases hvar <;> cases hconst
    -- a constant with this register would be the variable itself
    · obtain ⟨id', d', hr', hd', hc', -⟩ := exists_user_of_mem_constants hA hp
      rw [hreg] at hr'
      cases hA.sound.injective hr hr'
      cases hd.symm.trans hd'
      exact hc hc'

theorem loaded_load (hA : Accepted env n) (ht : alloc.Tidy) :
    Loaded value contents alloc.program.immediates
      (load value (alloc.program.immediates ++ constants env) contents) where
  regs := fun _ hp => isConstant_of_mem_immediates ht hp
  values := fun _ hp =>
    load_of_mem (nodup_params hA ht) (sources_params hA ht) (List.mem_append_left _ hp)

theorem tracks_load (hA : Accepted env n) (hΓ : Fits env.decls n 0 [predefinedBlock n])
    (ht : alloc.Tidy) :
    Tracks env [predefinedBlock n] (Semantics.initial env value contents)
      (load value (alloc.program.immediates ++ constants env) contents) where
  registers := by
    intro id d r hd hr c _
    rw [load_register hA ht hd hr]
  numbers := by
    -- the only predefined scalar is an output, which cannot be read
    intro b hb p hp hq hone
    have hid : n ≤ p.2.id := (hΓ.below b hb p hp).resolve_left (Nat.not_lt_zero _)
    have hsig := hΓ.lists b hb p hp
    rw [List.getElem?_map] at hsig
    obtain ⟨d, hd, hsig⟩ := Option.map_eq_some_iff.mp hsig
    obtain ⟨h, rfl⟩ := hA.predefined _ d hd hid
    simp only [signature, Prod.mk.injEq] at hsig
    rw [← hsig.2.1] at hone
    rw [← hsig.2.2] at hq
    cases h <;> first | exact absurd rfl hq | cases hone
  constants := by
    intro id d hd hc hone
    obtain ⟨e, v, folded, hinit, hv, -, hnumber⟩ := exists_constant (α := α) hA hd hc
    obtain ⟨x, hx⟩ := hnumber hone value contents
    exact ⟨x, (initial_of_const hd hc hinit hv).trans hx⟩

end Start

/-! ## Programs -/

/-- The passes of a compilation that succeeds. -/
theorem exists_emit_of_compile {p : Program} {a : Assembly α}
    (h : (p.compile : Compilation α).outcome = .ok a) :
    ∃ symbols notes declared, Symbols.build p = .ok symbols ∧
      Compilation.declare ⟨p.decls, symbols⟩ symbols.entries {} = (notes, .ok declared) ∧
      Compilation.emit ⟨p.decls, symbols⟩ p.body declared = .ok a := by
  rw [Program.compile] at h
  cases hbuild : Symbols.build p with
  | error d =>
    rw [hbuild] at h
    cases h
  | ok symbols =>
    rw [hbuild] at h
    dsimp only at h
    cases hdeclare : Compilation.declare (α := α) ⟨p.decls, symbols⟩ symbols.entries {} with
    | mk notes declared =>
      rw [hdeclare] at h
      cases declared with
      | error e => cases h
      | ok declared => exact ⟨symbols, notes, declared, rfl, hdeclare, h⟩

theorem run_of_emit {body : Program.Scope} {a a' : Assembly α}
    (h : Compilation.emit env (some body) a = .ok a') :
    ∃ u lines alloc, Lower.run (Lower.stmt env none (.scope body.decls body.stmts))
        { program := a } = .ok (u, lines, alloc) ∧ a' = alloc.program.append lines := by
  dsimp only [Compilation.emit] at h
  split at h
  · cases h
  · rename_i u lines alloc hrun
    cases h
    exact ⟨u, lines, alloc, hrun, rfl⟩

/-- What a compilation that succeeds has done: it has declared the variables, and emitted the code
of the body behind that. -/
theorem run_of_compile {p : Program} {symbols : Symbols} {body : Program.Scope} {a : Assembly α}
    (hbuild : Symbols.build p = .ok symbols) (hbody : p.body = some body)
    (h : (p.compile : Compilation α).outcome = .ok a) :
    ∃ u lines alloc, Lower.run
        (Lower.stmt ⟨p.decls, symbols⟩ none (.scope body.decls body.stmts))
        { program :=
          { userTemps := mutables ⟨p.decls, symbols⟩
            userParams := constants ⟨p.decls, symbols⟩ } } = .ok (u, lines, alloc) ∧
      a = alloc.program.append lines := by
  obtain ⟨symbols', notes, declared, hbuild', hdeclare, hemit⟩ := exists_emit_of_compile h
  cases hbuild.symm.trans hbuild'
  cases declare_eq_ok hdeclare
  rw [hbody] at hemit
  exact run_of_emit hemit

theorem compile_eq_ok {p : Program} {symbols : Symbols} {body : Program.Scope} {a : Assembly α}
    (hbuild : Symbols.build p = .ok symbols) (hbody : p.body = some body)
    (h : (p.compile : Compilation α).outcome = .ok a) :
    ∃ temps u lines alloc, Lower.run
        (Lower.stmt ⟨p.decls, symbols⟩ none (.scope body.decls body.stmts))
        { program := { userTemps := temps, userParams := constants ⟨p.decls, symbols⟩ } } =
          .ok (u, lines, alloc) ∧ a = alloc.program.append lines :=
  ⟨_, run_of_compile hbuild hbody h⟩

omit [Scalar α] in
theorem tidy_start (temps : List Register) (ps : List (Param α)) :
    ({ program := { userTemps := temps, userParams := ps } } : Allocator α).Tidy where
  temps := rfl
  position := Nat.le_refl 0
  immediates := rfl
  common := fun _ h => h
  closed := by simp [sources]

section Programs

variable {K : Type} [Field K] [LinearOrder K] [IsStrictOrderedRing K]

/-- The program of a checked tree runs to registers that hold the store after the source. -/
theorem tracks_execute (F : Functions K) (value : α → K) {body : Ast.Scope}
    {ds es : List Declaration} {Γ : Context} {stmts : List Program.Stmt} (hA : Accepted env n)
    (hB : AcceptedBody env n body ds es Γ stmts)
    (hinit : ∀ d ∈ env.decls, ∀ e, d.init = some e → Semantics.scalarsFold α env e = true)
    (hstmts : Semantics.stmtsScalarsFold α env stmts = true) {temps : List Register} {u : Unit}
    {lines : List Line} {alloc : Allocator α}
    (hrun : Lower.run (Lower.stmt env none (.scope (List.range' 0 ds.length) stmts))
      { program := { userTemps := temps, userParams := constants env } } = .ok (u, lines, alloc))
    (contents : Registers K) :
    ∃ ρ, execute F value (alloc.program.append lines) contents = some ρ ∧
      Tracks env Γ (Semantics.program env F value contents
        (some ⟨List.range' 0 ds.length, stmts⟩)) ρ := by
  obtain ⟨hfits, hholds, hcount⟩ := hB.start
  have houter : ∀ a : Allocator α, Outer a none := by
    intro a o ho
    cases ho
  have hstart := tidy_start temps (constants (α := α) env)
  have hleads : Leads F alloc.program.immediates
      (On env value contents alloc.program.immediates none [predefinedBlock n]
        (Semantics.initial env value contents))
      (fun _ => On env value contents alloc.program.immediates none Γ
        (Semantics.program env F value contents (some ⟨List.range' 0 ds.length, stmts⟩)))
      { program := { userTemps := temps, userParams := constants env } }
      (Lower.stmt env none (.scope (List.range' 0 ds.length) stmts)) fun _ _ => True := by
    rw [Lower.stmt, Semantics.program, Semantics.stmt]
    refine leads_bind (simulates_decls hA hinit hB.decls hB.fits hB.holds.append.1 ?_ hstart
      (houter _)) fun a₁ _ h₁ _ _ =>
        simulates_stmts hA hinit hB.stmts hstmts hfits hholds hcount h₁ (houter a₁)
    rw [Nat.zero_add]
    exact Nat.le_trans (Nat.le_add_right _ _) hcount
  obtain ⟨ht, hext, -, hmachine⟩ := hleads u lines alloc hrun
  have hloaded : Loaded value contents alloc.program.immediates
      (load value (alloc.program.immediates ++ constants env) contents) := loaded_load hA ht
  obtain ⟨ρ, hρ, hon⟩ := hmachine (fun _ h => h) _
    { truth := hloaded.hasTruth ht fun _ h => h
      loaded := hloaded
      live := fun _ ho => nomatch ho
      tracks := tracks_load hA hB.fits ht }
  refine ⟨ρ, ?_, hon.tracks⟩
  have huser : (alloc.program.append lines).userParams = constants env := hext.userParams
  -- declaring variables adds no line, so all instructions come from the body
  have hcode : (alloc.program.append lines).instructions = instructions lines := by
    show instructions (alloc.program.lines ++ lines) = _
    rw [hext.lines]
    rfl
  rw [execute, huser, hcode]
  exact hρ

/-- **Compiling preserves meaning.** For a text without parse errors, diagnostics and loops, in
which every constructor of a scalar can be folded, the compiled program runs from any contents of
the registers. Behind it the register of each variable holds the value the variable has after the
source, as far as its type has components; a scalar holds its number in all four. -/
theorem execute_compile (F : Functions K) (value : α → K) (source : Bytes)
    (hparse : (parse source).errors = [])
    (hcheck : (Program.ofAst (parse source).body).check.checker.errors = [])
    (hloops : (parse source).body.toStmt.loops = [])
    (hfold : Semantics.programScalarsFold α (Program.ofAst (parse source).body).check.program =
      true) :
    let p := (Program.ofAst (parse source).body).check.program
    ∃ symbols a, (p.compile : Compilation α).symbols = some symbols ∧
      (p.compile : Compilation α).outcome = .ok a ∧
      ∀ contents : Registers K, ∃ ρ, execute F value a contents = some ρ ∧
        ∀ id d, p.decls[id]? = some d → ∃ r, symbols.register? id = some r ∧
          ∀ c ∈ d.type.components,
            ρ r c = Semantics.program ⟨p.decls, symbols⟩ F value contents p.body id c := by
  intro p
  have helab : Elaborates (parse source).body p := elaborates_check hparse hcheck
  obtain ⟨symbols, n, ds, es, Γ, stmts, hbuild, hbody, hA, hB, a, ha⟩ :=
    compiled_of_elaborates (α := α) helab hloops
  obtain ⟨temps, u, lines, alloc, hrun, rfl⟩ := compile_eq_ok hbuild hbody ha
  change Semantics.programScalarsFold α p = true at hfold
  rw [Semantics.programScalarsFold, hbuild, hbody, Bool.and_eq_true] at hfold
  obtain ⟨hdecls, hstmts⟩ := hfold
  refine ⟨symbols, _, ?_, ha, fun contents => ?_⟩
  · rw [Program.compile, hbuild]
  · have hinit : ∀ d ∈ p.decls, ∀ e, d.init = some e →
        Semantics.scalarsFold α ⟨p.decls, symbols⟩ e = true := by
      intro d hd e he
      have hall := List.all_eq_true.mp hdecls d hd
      rwa [he] at hall
    -- at the end the registers track the final values of all variables, also of inner blocks
    obtain ⟨ρ, hρ, htracks⟩ := tracks_execute F value hA hB hinit hstmts hrun contents
    refine ⟨ρ, hρ, fun id d hd => ?_⟩
    obtain ⟨r, hr, -⟩ := hA.listed id d hd
    refine ⟨r, hr, fun c hc => ?_⟩
    rw [hbody]
    exact htracks.registers id d r hd hr c hc

end Programs

/-- Nested branches over a constant and the components of a vector. -/
theorem execute_compile_nested :
    let source :=
      ascii "{const int k=int(2);ivec2 w=ivec2(k,1);if(w[0]==k){if(w[1]<k)w[1]=3;}else w=w*k;}"
    let p := (Program.ofAst (parse source).body).check.program
    (parse source).errors = [] ∧
    (Program.ofAst (parse source).body).check.checker.errors = [] ∧
    (parse source).body.toStmt.loops = [] ∧ Semantics.programScalarsFold Float32 p = true ∧
    ∀ (F : Functions ℚ) (value : Float32 → ℚ), ∃ symbols a,
      (p.compile : Compilation Float32).symbols = some symbols ∧
      (p.compile : Compilation Float32).outcome = .ok a ∧
      ∀ contents : Registers ℚ, ∃ ρ, execute F value a contents = some ρ ∧
        ∀ id d, p.decls[id]? = some d → ∃ r, symbols.register? id = some r ∧
          ∀ c ∈ d.type.components,
            ρ r c = Semantics.program ⟨p.decls, symbols⟩ F value contents p.body id c := by
  intro source p
  have hyps : (isCompilable source && Semantics.programScalarsFold Float32 p) = true := by
    decide +kernel
  rw [Bool.and_eq_true, isCompilable_iff] at hyps
  obtain ⟨⟨hparse, hcheck, hloops⟩, hfold⟩ := hyps
  exact ⟨hparse, hcheck, hloops, hfold, fun F value =>
    execute_compile F value _ hparse hcheck hloops hfold⟩

end Shader
