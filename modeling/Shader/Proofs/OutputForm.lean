import Shader.Proofs.DeclaredRegisters
import Shader.Proofs.Preservation
import Shader.Proofs.RegisterNames

/-!
# Compiled programs are well-formed

A compiled program declares its registers in five lists: mutable variables, constants of the shader,
scratch registers, registers for conditions and constants from the text. Each list comes from a
generator of its own, so no register is in two of them, and no two registers have one name. What the
code uses is in the lists or belongs to the hardware.
-/

namespace Shader

open Lower Machine TypeSystem
open Number (Scalar)

variable {α : Type}

/-- All registers that a program declares. -/
def Assembly.declared (a : Assembly α) : List Register :=
  a.userTemps ++ a.userParams.map (·.reg) ++ a.temps ++ a.longLived ++ a.immediates.map (·.reg)

/-- A program that the target accepts. -/
structure Assembly.WellFormed (a : Assembly α) : Prop where
  /-- No name is declared twice. -/
  distinct : (a.declared.map Register.text).Nodup
  /-- Every register is declared or the hardware's. -/
  declared : ∀ i ∈ a.instructions, ∀ o ∈ i.dst :: i.src,
    o.reg ∈ a.declared ∨ ∃ h, o.reg = .hardware h
  /-- Every instruction has the sources it takes. -/
  arity : ∀ i ∈ a.instructions, i.op.arity? = some i.src.length
  /-- No destination is negated. -/
  positive : ∀ i ∈ a.instructions, i.dst.negated = false
  /-- Every operand is a whole register or one component. -/
  plain : ∀ i ∈ a.instructions, ∀ o ∈ i.dst :: i.src, o.Plain
  /-- Reciprocals, roots and powers are of single components. -/
  single : ∀ i ∈ a.instructions, i.op ∈ Opcode.single → ∀ o ∈ i.src, ∃ c, o.select = .one c

/-! ## The lists of registers -/

section Lists

variable [Scalar α] {env : Env} {n : Nat} {alloc : Allocator α}

theorem mutable?_eq_some {entry : DeclId × Register} {r : Register}
    (h : mutable? env entry = some r) :
    r = entry.2 ∧ ∃ d, env.decls[entry.1]? = some d ∧ d.isOrdinary = true ∧ d.isConst = false := by
  rw [mutable?] at h
  split at h
  · cases h
  · rename_i d hd
    rw [Option.ite_none_right_eq_some, Bool.and_eq_true, Bool.not_eq_true'] at h
    exact ⟨(Option.some.inj h.2).symm, d, hd, h.1⟩

theorem mutables_sublist (entries : List (DeclId × Register)) :
    (entries.filterMap (mutable? env)).Sublist (entries.map (·.2)) := by
  induction entries with
  | nil => exact .slnil
  | cons entry rest ih =>
    rw [List.filterMap_cons]
    split
    · exact ih.cons _
    · rename_i r hr
      rw [List.map_cons, (mutable?_eq_some hr).1]
      exact ih.cons_cons _

/-- Variables and constants of the shader have registers of their own. -/
theorem nodup_user (hA : Accepted env n) :
    (mutables env ++ (constants (α := α) env).map (·.reg)).Nodup := by
  rw [List.nodup_append]
  refine ⟨(mutables_sublist _).nodup hA.sound.regs,
    (map_reg_constants_sublist _).nodup hA.sound.regs, ?_⟩
  rintro r hr r' hr' rfl
  obtain ⟨entry, hentry, hr⟩ := List.mem_filterMap.mp hr
  obtain ⟨rfl, d, hd, -, hc⟩ := mutable?_eq_some hr
  obtain ⟨p, hp, hreg⟩ := List.mem_map.mp hr'
  -- a register belongs to one declaration, which is a constant or not
  obtain ⟨id, d', hid, hd', hc', -⟩ := exists_user_of_mem_constants hA hp
  rw [hreg] at hid
  cases hA.sound.injective (hA.sound.register? hentry) hid
  cases hd.symm.trans hd'
  rw [hc] at hc'
  cases hc'

theorem exists_user_of_mem_mutables (hA : Accepted env n) {r : Register} (hr : r ∈ mutables env) :
    ∃ name k, r = .user name k := by
  obtain ⟨entry, hentry, hr⟩ := List.mem_filterMap.mp hr
  obtain ⟨rfl, d, hd, ho, -⟩ := mutable?_eq_some hr
  obtain ⟨d', hd', hfit⟩ := hA.sound.fitting entry hentry
  cases hd.symm.trans hd'
  generalize entry.2 = r at hfit
  cases hfit with
  | own k _ => exact ⟨_, k, rfl⟩
  | hardware h =>
    rw [isOrdinary_ofHardware] at ho
    cases ho

/-- The kinds of registers, one for each generator. -/
inductive Kinded : Nat → Register → Prop where
  | user (name : Bytes) (k : Nat) : Kinded 0 (.user name k)
  | temp (n : Nat) : Kinded 1 (.temp n)
  | longLived (n : Nat) : Kinded 2 (.longLived n)
  | constant {r : Register} : IsConstant r → Kinded 3 r

theorem Kinded.unique {i j : Nat} {r : Register} (h : Kinded i r) (h' : Kinded j r) : i = j := by
  cases h <;> cases h' <;> first | rfl | (rename_i h; cases h)

theorem Kinded.declarable {i : Nat} {r : Register} (h : Kinded i r) : r.Declarable := by
  cases h with
  | user | temp | longLived => exact .inl ⟨_, rfl⟩
  | constant h =>
    cases h with
    | truth b => cases b <;> exact .inr (by simp)
    | zero => exact .inr (by simp)
    | immediate n => exact .inl ⟨_, rfl⟩

/-- Registers of a further kind do not occur among those before. -/
theorem nodup_append_of_kinded {l l' : List Register} {j : Nat} (hl : l.Nodup) (hl' : l'.Nodup)
    (hkind : ∀ r ∈ l, ∃ i, i < j ∧ Kinded i r) (hkind' : ∀ r ∈ l', Kinded j r) :
    (l ++ l').Nodup ∧ ∀ r ∈ l ++ l', ∃ i, i < j + 1 ∧ Kinded i r := by
  constructor
  · refine List.nodup_append.mpr ⟨hl, hl', ?_⟩
    rintro r hr r' hr' rfl
    obtain ⟨i, hi, hr⟩ := hkind r hr
    exact absurd (hr.unique (hkind' r hr')) (Nat.ne_of_lt hi)
  · intro r hr
    rcases List.mem_append.mp hr with hr | hr
    · obtain ⟨i, hi, hr⟩ := hkind r hr
      exact ⟨i, Nat.lt_succ_of_lt hi, hr⟩
    · exact ⟨j, Nat.lt_succ_self j, hkind' r hr⟩

/-- An allocator that started from the variables of a program declares no register twice, and only
registers that its generators have handed out. -/
theorem kinded_declared (hA : Accepted env n) (ht : alloc.Tidy) (hn : alloc.Numbered)
    (hvariables : alloc.program.userTemps = mutables env)
    (hconstants : alloc.program.userParams = constants env) :
    alloc.program.declared.Nodup ∧ ∀ r ∈ alloc.program.declared, ∃ i, i < 4 ∧ Kinded i r := by
  -- each list is of one kind of register, so none of the four has a register of another
  have huser : ∀ r ∈ mutables env ++ (constants (α := α) env).map (·.reg),
      ∃ i, i < 1 ∧ Kinded i r := by
    intro r hr
    rcases List.mem_append.mp hr with hr | hr
    · obtain ⟨name, k, rfl⟩ := exists_user_of_mem_mutables hA hr
      exact ⟨0, Nat.zero_lt_one, .user name k⟩
    · obtain ⟨p, hp, rfl⟩ := List.mem_map.mp hr
      obtain ⟨-, -, -, -, -, ⟨name, k, hreg⟩, -⟩ := exists_user_of_mem_constants hA hp
      exact ⟨0, Nat.zero_lt_one, hreg ▸ .user name k⟩
  have htemps : alloc.program.temps.Nodup ∧ ∀ r ∈ alloc.program.temps, Kinded 1 r := by
    rw [ht.temps]
    refine ⟨List.Nodup.map (fun _ _ h => by cases h; rfl) List.nodup_range, fun r hr => ?_⟩
    obtain ⟨k, -, rfl⟩ := List.mem_map.mp hr
    exact .temp k
  have hconditions : alloc.program.longLived.Nodup ∧
      ∀ r ∈ alloc.program.longLived, Kinded 2 r := by
    rw [hn]
    refine ⟨List.Nodup.map (fun _ _ h => by cases h; rfl) List.nodup_range, fun r hr => ?_⟩
    obtain ⟨k, -, rfl⟩ := List.mem_map.mp hr
    exact .longLived k
  have himmediates : (alloc.program.immediates.map (·.reg)).Nodup ∧
      ∀ r ∈ alloc.program.immediates.map (·.reg), Kinded 3 r := by
    constructor
    · have hall := nodup_params (α := α) hA ht
      rw [List.map_append] at hall
      exact (List.nodup_append.mp hall).1
    · intro r hr
      obtain ⟨p, hp, rfl⟩ := List.mem_map.mp hr
      exact .constant (isConstant_of_mem_immediates ht hp)
  obtain ⟨h₁, hkind₁⟩ := nodup_append_of_kinded (nodup_user hA) htemps.1 huser htemps.2
  obtain ⟨h₂, hkind₂⟩ := nodup_append_of_kinded h₁ hconditions.1 hkind₁ hconditions.2
  rw [Assembly.declared, hvariables, hconstants]
  exact nodup_append_of_kinded h₂ himmediates.1 hkind₂ himmediates.2

/-- **No name is declared twice.** -/
theorem nodup_declared (hA : Accepted env n) (ht : alloc.Tidy) (hn : alloc.Numbered)
    (hvariables : alloc.program.userTemps = mutables env)
    (hconstants : alloc.program.userParams = constants env) :
    (alloc.program.declared.map Register.text).Nodup := by
  obtain ⟨hnodup, hkind⟩ := kinded_declared hA ht hn hvariables hconstants
  refine List.Nodup.map_on (fun r hr r' hr' heq => ?_) hnodup
  obtain ⟨i, -, hk⟩ := hkind r hr
  obtain ⟨j, -, hk'⟩ := hkind r' hr'
  exact Register.text_inj hk.declarable hk'.declarable heq

theorem isConst_iff {d : Declaration} : d.isConst = true ↔ d.qualifier = .const := by
  rw [Declaration.isConst, beq_iff_eq]

theorem qualifier_eq_ordinary_iff {d : Declaration} :
    d.qualifier = .ordinary ↔ d.isOrdinary = true ∧ d.isConst = false := by
  rw [Declaration.isOrdinary, Declaration.isConst, Qualifier.isOrdinary]
  cases d.qualifier <;> decide

/-- The register of a variable is the hardware's, or it is declared: among the constants if the
variable is one, and else among the registers that code may write. -/
theorem register_cases (hA : Accepted env n) {id : DeclId} {r : Register}
    (hr : env.symbols.register? id = some r) : ∃ d, env.decls[id]? = some d ∧
      ((∃ h, d = .ofHardware h ∧ r = .hardware h) ∨
        (d.qualifier = .const ∧ r ∈ (constants (α := α) env).map (·.reg)) ∨
        (d.qualifier = .ordinary ∧ r ∈ mutables env)) := by
  obtain ⟨d, hd, hfit⟩ := hA.sound.fitting _ (Symbols.mem_of_register? hr)
  refine ⟨d, hd, ?_⟩
  cases hfit with
  | hardware h => exact .inl ⟨h, rfl, rfl⟩
  | own k ho =>
    refine .inr ?_
    by_cases hc : d.isConst = true
    · obtain ⟨e, v, folded, hinit, hv, -⟩ := exists_constant (α := α) hA hd hc
      refine .inl ⟨isConst_iff.mp hc, List.mem_map.mpr ⟨⟨_, v⟩, ?_, rfl⟩⟩
      exact List.mem_filterMap.mpr ⟨_, Symbols.mem_of_register? hr, by
        simp [constant?, show env.decls[id]? = some d from hd, hc, hinit, hv]⟩
    · refine .inr ⟨qualifier_eq_ordinary_iff.mpr ⟨ho, by simpa using hc⟩,
        List.mem_filterMap.mpr ⟨_, Symbols.mem_of_register? hr, ?_⟩⟩
      simp [mutable?, show env.decls[id]? = some d from hd, ho, hc]

/-- What code may use is declared, or it is the hardware's. -/
theorem declared_of_inUse (hA : Accepted env n) (ht : alloc.Tidy)
    (hvariables : alloc.program.userTemps = mutables env)
    (hconstants : alloc.program.userParams = constants env) {V : DeclId → Prop} {r : Register}
    (hr : alloc.InUse env V r) : r ∈ alloc.program.declared ∨ ∃ h, r = .hardware h := by
  have hmem : ∀ {r : Register}, r ∈ mutables env ∨ r ∈ (constants (α := α) env).map (·.reg) ∨
      r ∈ alloc.program.temps ∨ r ∈ alloc.program.longLived ∨
      r ∈ alloc.program.immediates.map (·.reg) → r ∈ alloc.program.declared := by
    intro r hr
    rw [Assembly.declared, hvariables, hconstants]
    simp only [List.mem_append]
    tauto
  cases hr with
  | symbol hr =>
    obtain ⟨id, -, hr⟩ := hr
    obtain ⟨d, -, ⟨h, -, rfl⟩ | ⟨-, hr⟩ | ⟨-, hr⟩⟩ := register_cases (α := α) hA hr
    · exact .inr ⟨h, rfl⟩
    · exact .inl (hmem (.inr (.inl hr)))
    · exact .inl (hmem (.inl hr))
  | common hr =>
    refine .inl (hmem (.inr (.inr (.inr (.inr ?_)))))
    rw [ht.immediates]
    exact List.mem_append_left _ hr
  | scratch hr => exact .inl (hmem (.inr (.inr (.inl hr))))
  | condition hr => exact .inl (hmem (.inr (.inr (.inr (.inl hr)))))
  | constant hr => exact .inl (hmem (.inr (.inr (.inr (.inr hr)))))

end Lists

/-! ## Programs -/

/-- **Compiled programs are well-formed.** A text without parse errors, diagnostics and loops is
compiled to a program that declares no name twice and uses no register that is not declared, each of
whose instructions has the operands it takes. -/
theorem wellFormed_compile [Scalar α] (source : Bytes) (hparse : (parse source).errors = [])
    (hcheck : (Program.ofAst (parse source).body).check.checker.errors = [])
    (hloops : (parse source).body.toStmt.loops = []) :
    ∃ a, ((Program.ofAst (parse source).body).check.program.compile : Compilation α).outcome =
      .ok a ∧ a.WellFormed := by
  set p := (Program.ofAst (parse source).body).check.program with hp
  have helab : Elaborates (parse source).body p := elaborates_check hparse hcheck
  obtain ⟨symbols, n, ds, es, Γ, stmts, hbuild, hbody, hA, hB, a, ha⟩ :=
    compiled_of_elaborates (α := α) helab hloops
  obtain ⟨u, lines, alloc, hrun, rfl⟩ := run_of_compile hbuild hbody ha
  obtain ⟨ht, hext, hcode, -⟩ := emits_stmt (nameable_of_accepted hA) _
    (tidy_start _ (constants (α := α) ⟨p.decls, symbols⟩)) plainCondition_none u lines alloc hrun
  obtain ⟨hgrows, hover, -⟩ := uses_stmt _ (usableCondition_none _ _) u lines alloc hrun
  -- the allocator holds no lines of its own, so the code is what the statements emit
  have hinstructions : (alloc.program.append lines).instructions = instructions lines := by
    show instructions (alloc.program.lines ++ lines) = _
    rw [hext.lines]
    rfl
  have hplain : ∀ i ∈ instructions lines, ∀ o ∈ i.dst :: i.src, o.Plain := by
    intro i hi o ho
    rcases List.mem_cons.mp ho with rfl | ho
    · exact (hcode i hi).1.target
    · exact (hcode i hi).1.sources o ho
  refine ⟨_, ha, ?_⟩
  exact
    { distinct := nodup_declared hA ht (hgrows.numbered rfl) hgrows.userTemps hext.userParams
      declared := by
        rw [hinstructions]
        exact fun i hi o ho => declared_of_inUse hA ht hgrows.userTemps hext.userParams
          ((hover i hi).operands o ho)
      arity := by
        rw [hinstructions]
        exact fun i hi => (hcode i hi).1.arity
      positive := by
        rw [hinstructions]
        exact fun i hi => (hcode i hi).1.positive
      plain := by rwa [hinstructions]
      single := by
        rw [hinstructions]
        exact fun i hi => (hover i hi).single }

/-- A shadowed name, another name that ends as the copies do, and registers of all five lists. -/
theorem wellFormed_compile_copies :
    let source :=
      ascii "\x7bfloat x_1;float x=1.0;{const float x=2.0;if(env1[0]<x)x_1=x^3.0/env2[1];}" ++
        ascii "gl_FragColor=env1*x_1;\x7d"
    (parse source).errors = [] ∧
    (Program.ofAst (parse source).body).check.checker.errors = [] ∧
    (parse source).body.toStmt.loops = [] ∧
    ∃ a : Assembly Float32,
      (Program.ofAst (parse source).body).check.program.compile.outcome = .ok a ∧
      a.WellFormed := by
  intro source
  obtain ⟨hparse, hcheck, hloops⟩ :=
    isCompilable_iff.mp (by decide +kernel : isCompilable source = true)
  exact ⟨hparse, hcheck, hloops, wellFormed_compile _ hparse hcheck hloops⟩

end Shader
