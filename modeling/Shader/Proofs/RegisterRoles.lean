import Shader.Proofs.OutputForm

/-!
# Registers that are only read, and registers that are only written

The checker keeps a program from assigning to constants and inputs and from reading outputs. These
are rules about names. Here they become rules about registers: code writes temporaries and outputs
only.

For outputs the rule does not carry over. A write under a condition is a select between the value
and what the destination had, so an assignment to an output inside an `if` reads the output, and it
is the only thing that does.
-/

namespace Shader

open Lower Machine TypeSystem
open Program (Expr Stmt declReads declWrites initialized? initialized?_eq_some)
open Number (Scalar)

/-! ## The rules for names -/

/-- A variable that is no output. -/
def Readable (decls : List Declaration) (id : DeclId) : Prop :=
  ∃ d, decls[id]? = some d ∧ d.qualifier ≠ .result

/-- A variable that is neither a constant nor an input. -/
def Assignable (decls : List Declaration) (id : DeclId) : Prop :=
  ∃ d, decls[id]? = some d ∧ d.qualifier ∉ [.const, .varying, .uniform]

section Names

variable {decls : List Declaration} {n : Nat} {Γ : Context}

theorem refs_of_access {v : Ast.Var} {v' : Expr} {x : Variable} {t : Ty} (h : Access Γ v v' x t)
    (hΓ : Lists decls Γ) :
    v'.refs = [x.id] ∧ ∃ d, decls[x.id]? = some d ∧ d.qualifier = x.qualifier := by
  cases h with
  | whole hx | component hx =>
    obtain ⟨d, hd, -, -, hq⟩ := hΓ.decl_of_finds hx
    exact ⟨rfl, d, hd, hq⟩

mutual

theorem readable_of_typed : ∀ {e : Ast.Expr} {e' : Expr} {t : Ty}, Typed Γ e e' t →
    Lists decls Γ → ∀ id ∈ e'.refs, Readable decls id
  | _, _, _, .int, _, _, hid => by cases hid
  | _, _, _, .float, _, _, hid => by cases hid
  | _, _, _, .bool, _, _, hid => by cases hid
  | _, _, _, .var hv hq, hΓ, id, hid => by
    obtain ⟨hrefs, d, hd, heq⟩ := refs_of_access hv hΓ
    rw [hrefs, List.mem_singleton] at hid
    exact ⟨d, hid ▸ hd, heq ▸ hq⟩
  | _, _, _, .unary hx _, hΓ, id, hid => readable_of_typed hx hΓ id hid
  | _, _, _, .binary hl hr _, hΓ, id, hid => (List.mem_append.mp hid).elim
    (readable_of_typed hl hΓ id) (readable_of_typed hr hΓ id)
  | _, _, _, .call hargs _, hΓ, id, hid => readable_of_typedList hargs hΓ id hid
  | _, _, _, .construct _ hargs, hΓ, id, hid => readable_of_typedList hargs hΓ id hid

theorem readable_of_typedList : ∀ {es : List Ast.Expr} {es' : List Expr} {ts : List Ty},
    TypedList Γ es es' ts → Lists decls Γ → ∀ id ∈ Expr.listRefs es', Readable decls id
  | _, _, _, .nil, _, _, hid => by cases hid
  | _, _, _, .cons he hes, hΓ, id, hid => (List.mem_append.mp hid).elim
    (readable_of_typed he hΓ id) (readable_of_typedList hes hΓ id)

end

/-- What statements read and write is allowed. -/
structure Allowed (decls : List Declaration) (reads writes : List DeclId) : Prop where
  reads : ∀ id ∈ reads, Readable decls id
  writes : ∀ id ∈ writes, Assignable decls id

theorem Allowed.nil : Allowed decls [] [] where
  reads := fun _ hid => nomatch hid
  writes := fun _ hid => nomatch hid

theorem Allowed.append {r w r' w' : List DeclId} (h : Allowed decls r w)
    (h' : Allowed decls r' w') : Allowed decls (r ++ r') (w ++ w') where
  reads := fun id hid => (List.mem_append.mp hid).elim (h.reads id) (h'.reads id)
  writes := fun id hid => (List.mem_append.mp hid).elim (h.writes id) (h'.writes id)

theorem allowed_of_typed {e : Ast.Expr} {e' : Expr} {t : Ty} (h : Typed Γ e e' t)
    (hΓ : Lists decls Γ) : Allowed decls e'.refs [] :=
  ⟨readable_of_typed h hΓ, fun _ hid => nomatch hid⟩

variable {env : Env}

/-- The initialization of a variable of the shader's own. -/
theorem allowed_decl (hA : Accepted env n) {id : Nat} (hid : id < n) :
    Allowed env.decls (declReads env.decls id) (declWrites env.decls id) := by
  rw [declReads, declWrites]
  cases hinit : initialized? env.decls id with
  | none => exact .nil
  | some d =>
    obtain ⟨hd, hconst⟩ := initialized?_eq_some.mp hinit
    obtain ⟨Γ', a, hdecl, hfits⟩ := hA.own id d hd hid
    cases hdecl with
    | plain =>
      refine ⟨fun _ h => ?_, fun i hi => ?_⟩
      · cases h
      · cases List.mem_singleton.mp hi
        exact ⟨_, hd, by simp⟩
    | mutable _ he =>
      refine ⟨readable_of_typed he hfits.lists, fun i hi => ?_⟩
      cases List.mem_singleton.mp hi
      exact ⟨_, hd, by simp⟩
    | const => cases hconst

theorem allowed_decls (hA : Accepted env n) : ∀ (k next : Nat), next + k ≤ n →
    Allowed env.decls ((List.range' next k).flatMap (declReads env.decls))
      ((List.range' next k).flatMap (declWrites env.decls))
  | 0, _, _ => .nil
  | k + 1, next, hk => by
    rw [List.range'_succ, List.flatMap_cons, List.flatMap_cons]
    exact (allowed_decl hA (by omega)).append (allowed_decls hA k (next + 1) (by omega))

mutual

/-- **A well-typed statement reads no output, and writes no constant and no input.** -/
theorem allowed_of_stmtTyped (hA : Accepted env n) :
    ∀ {Γ : Context} {next : Nat} {st : Ast.Stmt} {st' : Stmt} {ds : List Declaration},
      StmtTyped Γ next st st' ds → Fits env.decls n next Γ → Holds env.decls next ds →
      next + ds.length ≤ n → Allowed env.decls (st'.reads env.decls) (st'.writes env.decls)
  | _, _, _, _, _, .assign hv hq he, hΓ, _, _ => by
    obtain ⟨hrefs, d, hd, heq⟩ := refs_of_access hv hΓ.lists
    refine ⟨readable_of_typed he hΓ.lists, fun id hid => ?_⟩
    rw [Stmt.writes, hrefs, List.mem_singleton] at hid
    exact ⟨d, hid ▸ hd, heq ▸ hq⟩
  | _, _, _, _, _, .ifThen hc hst, hΓ, hds, hn =>
    (allowed_of_typed hc hΓ.lists).append (allowed_of_stmtTyped hA hst hΓ hds hn)
  | _, _, _, _, _, .ifElse hc hst hno, hΓ, hds, hn => by
    rw [List.length_append] at hn
    exact (allowed_of_typed hc hΓ.lists).append
      ((allowed_of_stmtTyped hA hst hΓ hds.append.1 (by omega)).append
        (allowed_of_stmtTyped hA hno (hΓ.mono (Nat.le_add_right _ _)) hds.append.2 (by omega)))
  | _, _, _, _, _, .loop hc hst, hΓ, hds, hn =>
    (allowed_of_typed hc hΓ.lists).append (allowed_of_stmtTyped hA hst hΓ hds hn)
  | _, _, _, _, _, .scope hdecls hss, hΓ, hds, hn => by
    rw [List.length_append] at hn
    exact (allowed_decls hA _ _ (by omega)).append
      (allowed_of_stmtsTyped hA hss (Fits.declsTyped hdecls hΓ.push hds.append.1) hds.append.2
        (by omega))

theorem allowed_of_stmtsTyped (hA : Accepted env n) :
    ∀ {Γ : Context} {next : Nat} {ss : List Ast.Stmt} {ss' : List Stmt} {ds : List Declaration},
      StmtsTyped Γ next ss ss' ds → Fits env.decls n next Γ → Holds env.decls next ds →
      next + ds.length ≤ n →
      Allowed env.decls (Stmt.listReads env.decls ss') (Stmt.listWrites env.decls ss')
  | _, _, _, _, _, .nil, _, _, _ => .nil
  | _, _, _, _, _, .cons hst hss, hΓ, hds, hn => by
    rw [List.length_append] at hn
    exact (allowed_of_stmtTyped hA hst hΓ hds.append.1 (by omega)).append
      (allowed_of_stmtsTyped hA hss (hΓ.mono (Nat.le_add_right _ _)) hds.append.2 (by omega))

end

end Names

/-! ## Writes that keep -/

namespace Lower

variable {α β γ : Type} {env : Env} {ids ids' : List DeclId}

/-- `Keeps env m ids`: in all code that the step `m` emits, the registers of the variables `ids` are
read. -/
def Keeps (env : Env) (m : Lower α β) (ids : List DeclId) : Prop :=
  ∀ a b code a', run m a = .ok (b, code, a') → ∀ id ∈ ids, ∃ r, env.symbols.register? id = some r ∧
    ∃ i ∈ instructions code, ∃ o ∈ i.src, o.reg = r

theorem keeps_nil {m : Lower α β} : Keeps env m [] := fun _ _ _ _ _ _ hid => nomatch hid

theorem keeps_append {m : Lower α β} (h : Keeps env m ids) (h' : Keeps env m ids') :
    Keeps env m (ids ++ ids') := by
  intro a b code a' hrun id hid
  rcases List.mem_append.mp hid with hid | hid
  · exact h a b code a' hrun id hid
  · exact h' a b code a' hrun id hid

theorem keeps_fail {e : Failure} : Keeps env (fail e : Lower α β) ids := by
  intro a b code a' hrun
  cases hrun

theorem keeps_first {m : Lower α β} {f : β → Lower α γ} (h : Keeps env m ids) :
    Keeps env (m >>= f) ids := by
  intro a c lines a₂ hrun id hid
  obtain ⟨b, code, a₁, more, hm, -, rfl⟩ := run_bind_eq_ok.mp hrun
  obtain ⟨r, hr, i, hi, hread⟩ := h a b code a₁ hm id hid
  exact ⟨r, hr, i, by rw [instructions_append]; exact List.mem_append_left _ hi, hread⟩

/-- What follows a step keeps. The result of the step may be used. -/
theorem keeps_next {m : Lower α β} {f : β → Lower α γ}
    (h : ∀ b, (∃ a code a', run m a = .ok (b, code, a')) → Keeps env (f b) ids) :
    Keeps env (m >>= f) ids := by
  intro a c lines a₂ hrun id hid
  obtain ⟨b, code, a₁, more, hm, hf, rfl⟩ := run_bind_eq_ok.mp hrun
  obtain ⟨r, hr, i, hi, hread⟩ := h b ⟨a, code, a₁, hm⟩ a₁ c more a₂ hf id hid
  exact ⟨r, hr, i, by rw [instructions_append]; exact List.mem_append_right _ hi, hread⟩

/-- A write under a condition reads its destination. -/
theorem keeps_write {cond dst value : Operand}
    (h : ∀ id ∈ ids, env.symbols.register? id = some dst.reg) :
    Keeps env (write (α := α) (some cond) dst value) ids := by
  intro a b code a' hrun id hid
  cases hrun
  exact ⟨dst.reg, h id hid, .keeping dst cond value, List.mem_singleton.mpr rfl, dst, by
    simp [Instruction.keeping], rfl⟩

theorem register?_of_register {ref : Ref} {a a' : Allocator α} {o : Operand} {code : List Line}
    (h : run (register env ref) a = .ok (o, code, a')) :
    ∀ id ∈ ref.decl.toList, env.symbols.register? id = some o.reg := by
  intro id hid
  rw [Option.mem_toList] at hid
  obtain ⟨-, -, ⟨id', hid', hr⟩, -⟩ := uses_register (u := ⟨fun _ => True, fun _ => True,
    fun _ => True⟩) o code a' h
  rw [Option.mem_toList, hid, Option.some.injEq] at hid'
  rw [hid', hr]

theorem register?_of_target {e : Expr} {a a' : Allocator α} {o : Operand} {code : List Line}
    (h : run (target env e) a = .ok (o, code, a')) :
    ∀ id ∈ e.refs, env.symbols.register? id = some o.reg := by
  unfold target at h
  split at h
  · exact register?_of_register h
  · obtain ⟨reg, code₁, a₁, more, hreg, hindex, rfl⟩ := run_bind_eq_ok.mp h
    obtain ⟨c, code₂, a₂, more, -, hpure, rfl⟩ := run_bind_eq_ok.mp hindex
    cases hpure
    intro id hid
    exact register?_of_register hreg id hid
  · cases h

variable [Scalar α]

theorem keeps_decl (cond : Operand) (id : DeclId) :
    Keeps env (decl (α := α) env (some cond) id) (declWrites env.decls id) := by
  rw [declWrites]
  cases hinit : initialized? env.decls id with
  | none => exact keeps_nil
  | some d =>
    obtain ⟨hd, hconst⟩ := initialized?_eq_some.mp hinit
    rw [decl]
    simp only [hd, hconst, Bool.false_eq_true, if_false]
    refine keeps_next fun _ _ => ?_
    -- with an initializer or without, a write ends it
    split <;>
    · refine keeps_next fun value _ => keeps_next fun reg hreg => ?_
      obtain ⟨a, code, a', hrun⟩ := hreg
      exact keeps_write (register?_of_register hrun)

theorem keeps_decls (cond : Operand) : ∀ ids : List DeclId,
    Keeps env (decls (α := α) env (some cond) ids) (ids.flatMap (declWrites env.decls))
  | [] => keeps_nil
  | id :: ids => keeps_append (keeps_first (keeps_decl cond id))
    (keeps_next fun _ _ => keeps_decls cond ids)

/-- The branches of an `if`, which run under a condition whatever stands around. -/
theorem keeps_ifThen {cond : Option Operand} {e : Expr} {yes : Stmt}
    (hyes : ∀ c, Keeps env (stmt (α := α) env (some c) yes) ids) :
    Keeps env (stmt (α := α) env cond (.branch e yes none)) ids := by
  rw [stmt]
  exact keeps_next fun combined _ => hyes combined

theorem keeps_ifElse {cond : Option Operand} {e : Expr} {yes no : Stmt}
    (hyes : ∀ c, Keeps env (stmt (α := α) env (some c) yes) ids)
    (hno : ∀ c, Keeps env (stmt (α := α) env (some c) no) ids') :
    Keeps env (stmt (α := α) env cond (.branch e yes (some no))) (ids ++ ids') := by
  rw [stmt]
  exact keeps_next fun combined _ => keeps_append (keeps_first (hyes combined))
    (keeps_next fun _ _ => keeps_next fun _ _ => hno combined)

mutual

/-- Under a condition, the code of a statement reads every variable that the statement writes. -/
theorem keeps_writes : ∀ (st : Stmt) (cond : Operand),
    Keeps env (stmt (α := α) env (some cond) st) (st.writes env.decls)
  | .absent, _ => by rw [stmt]; exact keeps_fail
  | .assign _ dst value, _ => by
    rw [stmt]
    refine keeps_next fun _ _ => keeps_next fun value _ => keeps_next fun reg hreg => ?_
    obtain ⟨a, code, a', hrun⟩ := hreg
    exact keeps_write (register?_of_target hrun)
  | .branch _ yes none, _ => keeps_ifThen (keeps_writes yes)
  | .branch _ yes (some no), _ => keeps_ifElse (keeps_writes yes) (keeps_writes no)
  | .loop _ _ _, _ => by rw [stmt]; exact keeps_fail
  | .scope ids ss, cond => by
    rw [stmt]
    exact keeps_append (keeps_first (keeps_decls cond ids))
      (keeps_next fun _ _ => keeps_listWrites ss cond)

theorem keeps_listWrites : ∀ (ss : List Stmt) (cond : Operand),
    Keeps env (stmts (α := α) env (some cond) ss) (Stmt.listWrites env.decls ss)
  | [], _ => keeps_nil
  | s :: ss, cond => by
    rw [stmts]
    exact keeps_append (keeps_first (keeps_writes s cond))
      (keeps_next fun _ _ => keeps_listWrites ss cond)

end

mutual

/-- The code of a statement reads every variable that the statement writes inside an `if`. -/
theorem keeps_kept : ∀ (st : Stmt) (cond : Option Operand),
    Keeps env (stmt (α := α) env cond st) (st.kept env.decls)
  | .absent, _ | .assign _ _ _, _ => keeps_nil
  | .branch _ yes none, _ => keeps_ifThen (keeps_writes yes)
  | .branch _ yes (some no), _ => keeps_ifElse (keeps_writes yes) (keeps_writes no)
  | .loop _ _ _, _ => by rw [stmt]; exact keeps_fail
  | .scope _ ss, cond => by
    rw [stmt]
    exact keeps_next fun _ _ => keeps_listKept ss cond

theorem keeps_listKept : ∀ (ss : List Stmt) (cond : Option Operand),
    Keeps env (stmts (α := α) env cond ss) (Stmt.listKept env.decls ss)
  | [], _ => keeps_nil
  | s :: ss, cond => by
    rw [stmts]
    exact keeps_append (keeps_first (keeps_kept s cond))
      (keeps_next fun _ _ => keeps_listKept ss cond)

end

end Lower

/-! ## Programs -/

/-- The registers of the outputs. -/
def Register.IsOutput (r : Register) : Prop := ∃ h, r = .hardware h ∧ h.qualifier = .result

variable {α : Type}

/-- The registers that a program may write: its temporaries and the outputs. -/
def Assembly.writable (a : Assembly α) : List Register :=
  a.userTemps ++ a.temps ++ a.longLived ++
    (Hardware.all.filter (·.qualifier = .result)).map .hardware

/-- The registers that a program may only read: its constants and the inputs. -/
def Assembly.readOnly (a : Assembly α) : List Register :=
  a.userParams.map (·.reg) ++ a.immediates.map (·.reg) ++
    (Hardware.all.filter fun h => !decide (h.qualifier = .result)).map .hardware

theorem Assembly.writable_perm (a : Assembly α) :
    (a.writable ++ a.readOnly).Perm (a.declared ++ Hardware.all.map .hardware) := by
  refine List.perm_iff_count.mpr fun r => ?_
  have hsplit := ((Hardware.all.filter_append_perm fun h => h.qualifier = .result).map
    Register.hardware).count_eq r
  rw [List.map_append, List.count_append] at hsplit
  simp only [Assembly.writable, Assembly.readOnly, Assembly.declared, List.count_append]
  omega

/-- A program in which every register keeps to its role. -/
structure Assembly.Disciplined (a : Assembly α) (env : Env) : Prop where
  /-- Mutable variables are in temporaries. -/
  temporaries : ∀ r, r ∈ a.userTemps ↔ ∃ id d, env.symbols.register? id = some r ∧
    env.decls[id]? = some d ∧ d.qualifier = .ordinary
  /-- The constants of the shader are in constant registers. -/
  constants : ∀ r, r ∈ a.userParams.map (·.reg) ↔ ∃ id d, env.symbols.register? id = some r ∧
    env.decls[id]? = some d ∧ d.qualifier = .const
  /-- So are those that every program has. -/
  common : ∀ r ∈ [.truth true, .truth false, .zero], r ∈ a.immediates.map (·.reg)
  /-- All other variables are the hardware's, which says how they may be used. -/
  hardware : ∀ id d r, env.symbols.register? id = some r → env.decls[id]? = some d →
    d.isOrdinary = false → ∃ h, r = .hardware h ∧ h.qualifier = d.qualifier
  /-- Only temporaries and outputs are written. -/
  writes : ∀ i ∈ a.instructions, i.dst.reg ∈ a.writable
  /-- No destination has the name of a constant or an input. -/
  spares : ∀ i ∈ a.instructions, i.dst.reg.text ∉ a.readOnly.map Register.text

section Programs

variable [Scalar α]

/-- The code of an accepted program, with what is known of it. -/
structure Generated (env : Env) (n : Nat) (body : Stmt) (alloc : Allocator α)
    (a : Assembly α) : Prop where
  accepted : Accepted env n
  tidy : alloc.Tidy
  numbered : alloc.Numbered
  output : ∃ lines, a = alloc.program.append lines
  temporaries : alloc.program.userTemps = mutables env
  constants : alloc.program.userParams = constants env
  within : ∀ i ∈ a.instructions, i.Within (alloc.Writable env (Assignable env.decls))
    (alloc.InUse env (Readable env.decls)) (Allocator.Names env (· ∈ body.kept env.decls))
  keeps : ∀ id ∈ body.kept env.decls, ∃ r, env.symbols.register? id = some r ∧
    ∃ i ∈ a.instructions, ∃ o ∈ i.src, o.reg = r

/-- What an accepted source is compiled to. -/
theorem exists_generated {source : Bytes} (hparse : (parse source).errors = [])
    (hcheck : (Program.ofAst (parse source).body).check.checker.errors = [])
    (hloops : (parse source).body.toStmt.loops = []) :
    let p := (Program.ofAst (parse source).body).check.program
    ∃ symbols body n alloc, ∃ a : Assembly α, Symbols.build p = .ok symbols ∧
      p.body = some body ∧ p.compile.outcome = .ok a ∧
      Generated ⟨p.decls, symbols⟩ n (.scope body.decls body.stmts) alloc a := by
  intro p
  have helab : Elaborates (parse source).body p := elaborates_check hparse hcheck
  obtain ⟨symbols, n, ds, es, Γ, stmts, hbuild, hbody, hA, hB, a, ha⟩ :=
    compiled_of_elaborates (α := α) helab hloops
  obtain ⟨u, lines, alloc, hrun, rfl⟩ := run_of_compile hbuild hbody ha
  obtain ⟨ht, hext, -, -⟩ := emits_stmt (nameable_of_accepted hA) _
    (tidy_start _ (constants (α := α) ⟨p.decls, symbols⟩)) plainCondition_none u lines alloc hrun
  -- the declarations of the body and its statements
  obtain ⟨hfits, hholds, hcount⟩ := hB.start
  have hallowed := (allowed_decls hA ds.length 0 (by omega)).append
    (allowed_of_stmtsTyped hA hB.stmts hfits hholds hcount)
  have hcovers : Usage.Covers
      ⟨Readable p.decls, Assignable p.decls,
        (· ∈ (Stmt.scope (List.range' 0 ds.length) stmts).kept p.decls)⟩
      ((Stmt.scope (List.range' 0 ds.length) stmts).reads p.decls)
      ((Stmt.scope (List.range' 0 ds.length) stmts).writes p.decls)
      ((Stmt.scope (List.range' 0 ds.length) stmts).kept p.decls) none :=
    ⟨hallowed.reads, hallowed.writes, fun _ hid => hid, fun h => nomatch h⟩
  obtain ⟨hgrows, hwithin, -⟩ := within_stmt _ (usableCondition_none _ _) hcovers u lines alloc hrun
  have hinstructions : (alloc.program.append lines).instructions = instructions lines := by
    show instructions (alloc.program.lines ++ lines) = _
    rw [hext.lines]
    rfl
  refine ⟨symbols, _, n, alloc, _, hbuild, hbody, ha, ?_⟩
  exact
    { accepted := hA
      tidy := ht
      numbered := hgrows.numbered rfl
      output := ⟨lines, rfl⟩
      temporaries := hgrows.userTemps
      constants := hext.userParams
      within := by rwa [hinstructions]
      keeps := by
        rw [hinstructions]
        exact fun id hid => keeps_kept _ none _ u lines alloc hrun id hid }

variable {env : Env} {n : Nat} {body : Stmt} {alloc : Allocator α} {a : Assembly α}

/-- No two registers that a program can name share a name. -/
theorem Generated.nodup_names (h : Generated env n body alloc a) :
    ((a.writable ++ a.readOnly).map Register.text).Nodup := by
  refine (a.writable_perm.map Register.text).nodup_iff.mpr ?_
  obtain ⟨-, hkind⟩ := kinded_declared h.accepted h.tidy h.numbered h.temporaries h.constants
  obtain ⟨lines, rfl⟩ := h.output
  rw [List.map_append]
  refine List.nodup_append.mpr
    ⟨nodup_declared h.accepted h.tidy h.numbered h.temporaries h.constants, by decide +kernel, ?_⟩
  rintro t ht t' ht' rfl
  obtain ⟨r, hr, rfl⟩ := List.mem_map.mp ht
  obtain ⟨r', hr', heq⟩ := List.mem_map.mp ht'
  obtain ⟨hw, -, rfl⟩ := List.mem_map.mp hr'
  obtain ⟨i, -, hk⟩ := hkind r hr
  exact Register.text_ne_hardware hk.declarable hw heq.symm

/-- The register of a variable that is assigned to is a temporary or an output. -/
theorem Generated.writable_of_names (h : Generated env n body alloc a) {r : Register}
    (hr : Allocator.Names env (Assignable env.decls) r) : r ∈ mutables env ∨ r.IsOutput := by
  obtain ⟨id, ⟨d, hd, hq⟩, hreg⟩ := hr
  obtain ⟨d', hd', hcases⟩ := register_cases (α := α) h.accepted hreg
  cases hd.symm.trans hd'
  rcases hcases with ⟨hw, rfl, rfl⟩ | ⟨hc, -⟩ | ⟨-, hr⟩
  · refine .inr ⟨hw, rfl, ?_⟩
    cases hw <;> first | rfl | exact absurd hq (by decide)
  · exact absurd hq (by simp [hc])
  · exact .inl hr

/-- The register of a variable that is read is no output. -/
theorem Generated.not_isOutput (h : Generated env n body alloc a) {r : Register}
    (hr : alloc.InUse env (Readable env.decls) r) : ¬ r.IsOutput := by
  rintro ⟨hw, rfl, hout⟩
  cases hr with
  | symbol hr =>
    obtain ⟨id, ⟨d, hd, hq⟩, hreg⟩ := hr
    obtain ⟨d', hd', hcases⟩ := register_cases (α := α) h.accepted hreg
    cases hd.symm.trans hd'
    -- an output is not readable, and the registers of other variables are no hardware
    rcases hcases with ⟨hw', rfl, heq⟩ | ⟨-, hr⟩ | ⟨-, hr⟩
    · cases heq
      exact hq hout
    · obtain ⟨p, hp, heq⟩ := List.mem_map.mp hr
      obtain ⟨-, -, -, -, -, ⟨name, k, hreg⟩, -⟩ := exists_user_of_mem_constants h.accepted hp
      rw [hreg] at heq
      cases heq
    · obtain ⟨name, k, heq⟩ := exists_user_of_mem_mutables h.accepted hr
      cases heq
  | common hr => simp at hr
  | scratch hr =>
    rw [h.tidy.temps] at hr
    simp at hr
  | condition hr =>
    rw [h.numbered] at hr
    simp at hr
  | constant hr =>
    obtain ⟨p, hp, heq⟩ := List.mem_map.mp hr
    have hconst := isConstant_of_mem_immediates h.tidy hp
    rw [heq] at hconst
    cases hconst

/-- An output is read if and only if it is assigned to inside an `if`. -/
theorem Generated.reads_output_iff (h : Generated env n body alloc a) {hw : Hardware}
    (hout : hw.qualifier = .result) :
    (∃ i ∈ a.instructions, ∃ o ∈ i.src, o.reg = .hardware hw) ↔
      ∃ id ∈ body.kept env.decls, env.decls[id]? = some (.ofHardware hw) := by
  constructor
  · rintro ⟨i, hi, o, ho, hreg⟩
    rcases (h.within i hi).sources o ho with hread | ⟨⟨id, hid, hsymbol⟩, -⟩
    · exact absurd ⟨hw, hreg, hout⟩ (h.not_isOutput hread)
    · obtain ⟨d, hd, hfit⟩ := h.accepted.sound.fitting _ (Symbols.mem_of_register? hsymbol)
      rw [hreg] at hfit
      cases hfit
      exact ⟨id, hid, hd⟩
  · rintro ⟨id, hid, hd⟩
    obtain ⟨r, hr, i, hi, o, ho, rfl⟩ := h.keeps id hid
    obtain ⟨r', hr', hfit⟩ := h.accepted.listed id _ hd
    cases hr.symm.trans hr'
    exact ⟨i, hi, o, ho, eq_hardware_of_fitting hfit⟩

theorem Generated.mem_userTemps_iff (h : Generated env n body alloc a) (r : Register) :
    r ∈ a.userTemps ↔ ∃ id d, env.symbols.register? id = some r ∧ env.decls[id]? = some d ∧
      d.qualifier = .ordinary := by
  obtain ⟨lines, rfl⟩ := h.output
  show r ∈ alloc.program.userTemps ↔ _
  rw [h.temporaries]
  constructor
  · intro hr
    obtain ⟨entry, hentry, hr⟩ := List.mem_filterMap.mp hr
    obtain ⟨rfl, d, hd, hqual⟩ := mutable?_eq_some hr
    exact ⟨entry.1, d, h.accepted.sound.register? hentry, hd, qualifier_eq_ordinary_iff.mpr hqual⟩
  · rintro ⟨id, d, hr, hd, hq⟩
    obtain ⟨d', hd', hcases⟩ := register_cases (α := α) h.accepted hr
    cases hd.symm.trans hd'
    rcases hcases with ⟨hw, rfl, -⟩ | ⟨hq', -⟩ | ⟨-, hr⟩
    · cases hw <;> cases hq
    · cases hq.symm.trans hq'
    · exact hr

theorem Generated.mem_userParams_iff (h : Generated env n body alloc a) (r : Register) :
    r ∈ a.userParams.map (·.reg) ↔ ∃ id d, env.symbols.register? id = some r ∧
      env.decls[id]? = some d ∧ d.qualifier = .const := by
  obtain ⟨lines, rfl⟩ := h.output
  show r ∈ alloc.program.userParams.map (·.reg) ↔ _
  rw [h.constants]
  constructor
  · intro hr
    obtain ⟨p, hp, rfl⟩ := List.mem_map.mp hr
    obtain ⟨id, d, hreg, hd, hc, -⟩ := exists_user_of_mem_constants h.accepted hp
    exact ⟨id, d, hreg, hd, isConst_iff.mp hc⟩
  · rintro ⟨id, d, hr, hd, hq⟩
    obtain ⟨d', hd', hcases⟩ := register_cases (α := α) h.accepted hr
    cases hd.symm.trans hd'
    rcases hcases with ⟨hw, rfl, -⟩ | ⟨-, hr⟩ | ⟨hq', -⟩
    · cases hw <;> cases hq
    · exact hr
    · cases hq.symm.trans hq'

theorem Generated.common_mem_immediates (h : Generated env n body alloc a) :
    ∀ r ∈ [.truth true, .truth false, .zero], r ∈ a.immediates.map (·.reg) := by
  intro r hr
  obtain ⟨lines, rfl⟩ := h.output
  show r ∈ alloc.program.immediates.map (·.reg)
  rw [h.tidy.immediates]
  exact List.mem_append_left _ hr

/-- In generated code every register keeps to its role. -/
theorem Generated.disciplined (h : Generated env n body alloc a) : a.Disciplined env := by
  have hwrites : ∀ i ∈ a.instructions, i.dst.reg ∈ a.writable := by
    intro i hi
    have htarget := (h.within i hi).target
    obtain ⟨lines, rfl⟩ := h.output
    simp only [Assembly.writable, List.mem_append]
    cases htarget with
    | symbol hr =>
      rcases h.writable_of_names hr with hr | ⟨hw, heq, hout⟩
      · exact .inl (.inl (.inl (h.temporaries ▸ hr)))
      · rw [heq]
        have hmem : hw ∈ Hardware.all := by cases hw <;> decide
        exact .inr (List.mem_map_of_mem (List.mem_filter.mpr ⟨hmem, by simp [hout]⟩))
    | scratch hr => exact .inl (.inl (.inr hr))
    | condition hr => exact .inl (.inr hr)
  -- no two registers of the program have the same name, so a written one has none of the others'
  have hspares : ∀ i ∈ a.instructions, i.dst.reg.text ∉ a.readOnly.map Register.text := by
    intro i hi hmem
    have hnodup := h.nodup_names
    rw [List.map_append] at hnodup
    exact (List.nodup_append.mp hnodup).2.2 _ (List.mem_map_of_mem (hwrites i hi)) _ hmem rfl
  exact
    { temporaries := h.mem_userTemps_iff
      constants := h.mem_userParams_iff
      common := h.common_mem_immediates
      hardware := by
        intro id d r hr hd ho
        obtain ⟨d', hd', hcases⟩ := register_cases (α := α) h.accepted hr
        cases hd.symm.trans hd'
        rcases hcases with ⟨hw, rfl, rfl⟩ | ⟨hq, -⟩ | ⟨hq, -⟩
        · exact ⟨hw, rfl, rfl⟩
        · rw [Declaration.isOrdinary, hq] at ho
          cases ho
        · rw [Declaration.isOrdinary, hq] at ho
          cases ho
      writes := hwrites
      spares := hspares }

end Programs

/-- **Code writes temporaries and outputs only.** A text without parse errors, diagnostics and loops
is compiled to a program none of whose instructions has a constant or an input as its
destination. -/
theorem disciplined_compile [Scalar α] (source : Bytes) (hparse : (parse source).errors = [])
    (hcheck : (Program.ofAst (parse source).body).check.checker.errors = [])
    (hloops : (parse source).body.toStmt.loops = []) :
    let p := (Program.ofAst (parse source).body).check.program
    ∃ symbols, ∃ a : Assembly α, Symbols.build p = .ok symbols ∧ p.compile.outcome = .ok a ∧
      a.Disciplined ⟨p.decls, symbols⟩ := by
  obtain ⟨symbols, body, n, alloc, a, hbuild, -, hcompile, hgen⟩ :=
    exists_generated (α := α) hparse hcheck hloops
  exact ⟨symbols, a, hbuild, hcompile, hgen.disciplined⟩

/-- A shadowed constant and a shadowed output are assigned to, a component is, and a comparison
whose result is negated in place. -/
theorem disciplined_compile_shadowed :
    let source :=
      ascii "\x7bconst float c=2.0;float x;" ++
        ascii "\x7bvec2 c;float gl_FragColor;if(x!=env1[0])c[1]=x/env2[1];" ++
        ascii "gl_FragColor=c[1];x=gl_FragColor;\x7d" ++
        ascii "gl_FragColor=env1*x*c;\x7d"
    let p := (Program.ofAst (parse source).body).check.program
    (parse source).errors = [] ∧
    (Program.ofAst (parse source).body).check.checker.errors = [] ∧
    (parse source).body.toStmt.loops = [] ∧
    ∃ symbols, ∃ a : Assembly Float32, Symbols.build p = .ok symbols ∧ p.compile.outcome = .ok a ∧
      a.Disciplined ⟨p.decls, symbols⟩ := by
  intro source p
  obtain ⟨hparse, hcheck, hloops⟩ :=
    isCompilable_iff.mp (by decide +kernel : isCompilable source = true)
  exact ⟨hparse, hcheck, hloops, disciplined_compile _ hparse hcheck hloops⟩

/-- **An output is read to keep it under a condition, and for nothing else.** An instruction with an
output among its sources writes to that output under a condition, and its condition and value are no
outputs. There is one if and only if the text assigns to the output inside an `if`. -/
theorem output_reads_compile [Scalar α] (source : Bytes) (hparse : (parse source).errors = [])
    (hcheck : (Program.ofAst (parse source).body).check.checker.errors = [])
    (hloops : (parse source).body.toStmt.loops = []) :
    let p := (Program.ofAst (parse source).body).check.program
    ∃ body, ∃ a : Assembly α, p.body = some body ∧ p.compile.outcome = .ok a ∧
      (∀ i ∈ a.instructions, ∀ o ∈ i.src, o.reg.IsOutput → ∃ cond value,
        i = .keeping o cond value ∧ ¬ cond.reg.IsOutput ∧ ¬ value.reg.IsOutput) ∧
      ∀ hw : Hardware, hw.qualifier = .result →
        ((∃ i ∈ a.instructions, ∃ o ∈ i.src, o.reg = .hardware hw) ↔
          ∃ id ∈ (Stmt.scope body.decls body.stmts).kept p.decls,
            p.decls[id]? = some (.ofHardware hw)) := by
  obtain ⟨symbols, body, n, alloc, a, -, hbody, hcompile, hgen⟩ :=
    exists_generated (α := α) hparse hcheck hloops
  refine ⟨body, a, hbody, hcompile, fun i hi o ho hout => ?_, fun hw hq => hgen.reads_output_iff hq⟩
  rcases (hgen.within i hi).sources o ho with hread | ⟨-, cond, value, heq, hcond, hvalue⟩
  · exact absurd hout (hgen.not_isOutput hread)
  · exact ⟨cond, value, heq, hgen.not_isOutput hcond, hgen.not_isOutput hvalue⟩

/-- One output is assigned to inside an `if` and one outside. -/
theorem output_reads_compile_branch :
    let source :=
      ascii "\x7bfloat x;if(env1[0]<0.5){x=env1[1];gl_FragColor[2]=x;}else x=1.0;" ++
        ascii "gl_FragDepth=x<env2[0];\x7d"
    let p := (Program.ofAst (parse source).body).check.program
    (parse source).errors = [] ∧
    (Program.ofAst (parse source).body).check.checker.errors = [] ∧
    (parse source).body.toStmt.loops = [] ∧
    ∃ body, ∃ a : Assembly Float32, p.body = some body ∧ p.compile.outcome = .ok a ∧
      (∀ i ∈ a.instructions, ∀ o ∈ i.src, o.reg.IsOutput → ∃ cond value,
        i = .keeping o cond value ∧ ¬ cond.reg.IsOutput ∧ ¬ value.reg.IsOutput) ∧
      ∀ hw : Hardware, hw.qualifier = .result →
        ((∃ i ∈ a.instructions, ∃ o ∈ i.src, o.reg = .hardware hw) ↔
          ∃ id ∈ (Stmt.scope body.decls body.stmts).kept p.decls,
            p.decls[id]? = some (.ofHardware hw)) := by
  intro source p
  obtain ⟨hparse, hcheck, hloops⟩ :=
    isCompilable_iff.mp (by decide +kernel : isCompilable source = true)
  exact ⟨hparse, hcheck, hloops, output_reads_compile _ hparse hcheck hloops⟩

/-- **Accepted code may read an output.** The text reads none. -/
theorem reads_output_of_conditional_write :
    let source := ascii "{if(env1[0]<env2[0])gl_FragColor=env1;}"
    let p := (Program.ofAst (parse source).body).check.program
    (parse source).errors = [] ∧
    (Program.ofAst (parse source).body).check.checker.errors = [] ∧
    (parse source).body.toStmt.loops = [] ∧
    ∃ a : Assembly Float32, p.compile.outcome = .ok a ∧
      ∃ i ∈ a.instructions, ∃ o ∈ i.src, o.reg.IsOutput := by
  intro source p
  have hyps :
      (isCompilable source && (p.compile : Compilation Float32).outcome.toOption.any fun a =>
        a.instructions.any fun i => i.src.any (·.reg == .hardware .fragColor)) = true := by
    decide +kernel
  rw [Bool.and_eq_true, isCompilable_iff] at hyps
  obtain ⟨⟨hparse, hcheck, hloops⟩, hcode⟩ := hyps
  refine ⟨hparse, hcheck, hloops, ?_⟩
  generalize (p.compile : Compilation Float32).outcome = outcome at hcode ⊢
  cases outcome with
  | error _ => cases hcode
  | ok a =>
    simp only [Except.toOption, Option.any_some, List.any_eq_true, beq_iff_eq] at hcode
    obtain ⟨i, hi, o, ho, hreg⟩ := hcode
    exact ⟨a, rfl, i, hi, o, ho, .fragColor, hreg, rfl⟩

end Shader
