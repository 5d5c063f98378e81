import Shader.Proofs.OutputForm
import Shader.Proofs.RegisterTable
import Shader.Proofs.RenamedPrograms

/-!
# Compilation does not depend on names

The names of a shader's variables reach its code as the names of their registers, and nowhere else.
A program and its renamed copy give their variables registers in the same order, so there is a map
`σ` from the registers of the one to those of the other. Each step of code generation for the copy
then does what the step for the program does, with `σ` applied to every register.
-/

namespace Shader

open TypeSystem
open Program (Expr Stmt)
open Number (Scalar)

/-! ## Renamed code -/

section Renamed

variable (σ : Register → Register)

/-- An operand with its register replaced. -/
def Operand.rename (o : Operand) : Operand := { o with reg := σ o.reg }

/-- An instruction with its registers replaced. -/
def Instruction.rename (i : Instruction) : Instruction :=
  ⟨i.op, i.dst.rename σ, i.src.map (Operand.rename σ)⟩

/-- A line of code with its registers replaced. -/
def Line.rename : Line → Line
  | .instr i => .instr (i.rename σ)
  | .comment t => .comment t
  | .blank => .blank
  | .absent => .absent

/-- A constant register replaced by another with its value. -/
def Param.rename {α : Type} (p : Param α) : Param α := ⟨σ p.reg, p.value⟩

/-- A program with the registers of its variables replaced, where they are declared and where they
are used. -/
def Assembly.rename {α : Type} (a : Assembly α) : Assembly α :=
  { a with
    userTemps := a.userTemps.map σ
    userParams := a.userParams.map (Param.rename σ)
    lines := a.lines.map (Line.rename σ) }

theorem Operand.rename_scalar (o : Operand) : o.scalar.rename σ = (o.rename σ).scalar := by
  obtain ⟨reg, select, negated⟩ := o
  cases select <;> rfl

end Renamed

theorem MovesVariables.of {σ : Register → Register} (h : MovesVariables σ) {r : Register}
    (hr : ∀ name k, r ≠ .user name k) : (Operand.of r).rename σ = .of r := by
  rw [Operand.rename, Operand.of, h r hr]

namespace Lower

/-! ## Steps -/

section Steps

variable {α β γ : Type} {σ : Register → Register}

/-- An allocator for a program with other variables. -/
def declaring (temps : List Register) (params : List (Param α)) (a : Allocator α) : Allocator α :=
  { a with program := { a.program with userTemps := temps, userParams := params } }

/-- When the step `m` succeeds, so does `m'` from the allocator of any other variables. It emits the
lines that `m` does with their registers replaced, and leaves the same allocator; and `g` says what
becomes of the result. No scratch register is one that `σ` moves. -/
def Mirrors (σ : Register → Register) (g : β → β) (m m' : Lower α β) : Prop :=
  ∀ a b code a', (∀ r ∈ a.program.temps, σ r = r) → run m a = .ok (b, code, a') →
    (∀ r ∈ a'.program.temps, σ r = r) ∧ ∀ temps params,
      run m' (declaring temps params a) =
        .ok (g b, code.map (Line.rename σ), declaring temps params a')

theorem mirrors_pure (g : β → β) (b : β) :
    Mirrors σ g (pure b : Lower α β) (pure (g b)) := by
  intro a c code a' htemps hrun
  cases hrun
  exact ⟨htemps, fun _ _ => rfl⟩

/-- Steps in sequence are mirrored by steps in sequence. -/
theorem mirrors_bind {g : β → β} {h : γ → γ} {m m' : Lower α β} {f f' : β → Lower α γ}
    (hm : Mirrors σ g m m') (hf : ∀ b, Mirrors σ h (f b) (f' (g b))) :
    Mirrors σ h (m >>= f) (m' >>= f') := by
  intro a c lines a₂ htemps hrun
  obtain ⟨b, code, a₁, more, h₁, h₂, rfl⟩ := run_bind_eq_ok.mp hrun
  obtain ⟨htemps₁, hrun₁⟩ := hm a b code a₁ htemps h₁
  obtain ⟨htemps₂, hrun₂⟩ := hf b a₁ c more a₂ htemps₁ h₂
  refine ⟨htemps₂, fun temps params => run_bind_eq_ok.mpr ?_⟩
  exact ⟨_, _, _, _, hrun₁ temps params, hrun₂ temps params, List.map_append⟩

theorem mirrors_fail (g : β → β) (e : Failure) (m' : Lower α β) : Mirrors σ g (fail e) m' := by
  intro a b code a' _ hrun
  cases hrun

/-- A computation that says the same of the renamed program. -/
theorem mirrors_ofExcept {g : β → β} {r r' : Except Failure β}
    (h : ∀ b, r = .ok b → r' = .ok (g b)) :
    Mirrors σ g (ofExcept r : Lower α β) (ofExcept r') := by
  intro a b code a' htemps hrun
  cases r with
  | error e => cases hrun
  | ok b' =>
    cases hrun
    rw [h b rfl]
    exact ⟨htemps, fun _ _ => rfl⟩

theorem mirrors_emit (lines : List Line) :
    Mirrors σ id (emit lines : Lower α Unit) (emit (lines.map (Line.rename σ))) := by
  intro a b code a' htemps hrun
  cases hrun
  exact ⟨htemps, fun _ _ => rfl⟩

theorem mirrors_instr (op : Opcode) (dst : Operand) (src : List Operand) :
    Mirrors σ id (instr op dst src : Lower α Unit)
      (instr op (dst.rename σ) (src.map (Operand.rename σ))) := mirrors_emit _

theorem mirrors_instrs {δ : Type} (ds : List δ) {f f' : δ → Instruction}
    (h : ∀ d, (f d).rename σ = f' d) :
    Mirrors σ id (emit (ds.map fun d => .instr (f d)) : Lower α Unit)
      (emit (ds.map fun d => .instr (f' d))) := by
  have hlines : (ds.map fun d => Line.instr (f d)).map (Line.rename σ) =
      ds.map fun d => .instr (f' d) := by
    rw [List.map_map]
    exact List.map_congr_left fun d _ => congrArg Line.instr (h d)
  rw [← hlines]
  exact mirrors_emit _

theorem mirrors_comment (m : Mark) : Mirrors σ id (comment m : Lower α Unit) (comment m) :=
  mirrors_emit [.comment m.text]

theorem mirrors_blank : Mirrors σ id (blank : Lower α Unit) blank := mirrors_emit [.blank]

theorem mirrors_resetSession : Mirrors σ id (resetSession : Lower α Unit) resetSession := by
  intro a b code a' htemps hrun
  cases hrun
  exact ⟨htemps, fun _ _ => rfl⟩

theorem temp_declaring (temps : List Register) (params : List (Param α)) (a : Allocator α) :
    (declaring temps params a).temp = (a.temp.1, declaring temps params a.temp.2) := by
  simp only [Allocator.temp, declaring]
  split <;> rfl

/-- The next scratch register is fixed by `σ`, whether it is new or used again. -/
theorem temp_fixed (hσ : MovesVariables σ) {a : Allocator α}
    (htemps : ∀ r ∈ a.program.temps, σ r = r) :
    σ a.temp.1 = a.temp.1 ∧ ∀ r ∈ a.temp.2.program.temps, σ r = r := by
  have hnew : ∀ n, σ (.temp n) = .temp n := fun n => hσ _ (by simp)
  -- a register is used again, or a new one is declared
  simp only [Allocator.temp]
  split
  · rename_i r hr
    exact ⟨htemps r (List.mem_of_getElem? hr), htemps⟩
  · exact ⟨hnew _, List.forall_mem_append.mpr ⟨htemps, List.forall_mem_singleton.mpr (hnew _)⟩⟩

/-- So scratch registers are mirrored by themselves. -/
theorem mirrors_temp (hσ : MovesVariables σ) :
    Mirrors σ (Operand.rename σ) (temp : Lower α Operand) temp := by
  intro a b code a' htemps hrun
  obtain ⟨hfixed, htemps'⟩ := temp_fixed hσ htemps
  have hresult : (Operand.of a.temp.1, [], a.temp.2) = (b, code, a') := Except.ok.inj hrun
  simp only [Prod.mk.injEq] at hresult
  obtain ⟨rfl, rfl, rfl⟩ := hresult
  refine ⟨htemps', fun temps params => ?_⟩
  show Except.ok (Operand.of (declaring temps params a).temp.1, [],
    (declaring temps params a).temp.2) = _
  rw [temp_declaring, Operand.rename, Operand.of, hfixed]
  rfl

theorem mirrors_longLived (hσ : MovesVariables σ) :
    Mirrors σ (Operand.rename σ) (longLived : Lower α Operand) longLived := by
  intro a b code a' htemps hrun
  cases hrun
  refine ⟨htemps, fun _ _ => ?_⟩
  rw [hσ.of (by simp)]
  rfl

/-- The register of a constant has a number and no name. -/
theorem mirrors_immediate (hσ : MovesVariables σ) (v : ParamValue α) :
    Mirrors σ (Operand.rename σ) (immediate v) (immediate v) := by
  intro a b code a' htemps hrun
  cases hrun
  refine ⟨htemps, fun _ _ => ?_⟩
  rw [hσ.of (by simp)]
  rfl

theorem mirrors_ite {c : Prop} [Decidable c] {g : β → β} {m m' k k' : Lower α β}
    (hm : Mirrors σ g m m') (hk : Mirrors σ g k k') :
    Mirrors σ g (if c then m else k) (if c then m' else k') := by
  split
  · exact hm
  · exact hk

end Steps

/-! ## Operators -/

section Operators

variable {α : Type} {σ : Register → Register} (hσ : MovesVariables σ)

include hσ

theorem rename_trueOperand : trueOperand.rename σ = trueOperand := hσ.of (by simp)

theorem rename_falseOperand : falseOperand.rename σ = falseOperand := hσ.of (by simp)

theorem mirrors_direct (op : Opcode) (l r : Operand) :
    Mirrors σ (Operand.rename σ) (direct op l r : Lower α Operand)
      (direct op (l.rename σ) (r.rename σ)) :=
  mirrors_bind (mirrors_temp hσ) fun res => mirrors_bind (mirrors_instr op res [l, r]) fun _ =>
    mirrors_pure _ res

theorem mirrors_quotient (l r : Operand) (t : Ty) :
    Mirrors σ (Operand.rename σ) (quotient l r t : Lower α Operand)
      (quotient (l.rename σ) (r.rename σ) t) := by
  refine mirrors_bind (mirrors_temp hσ) fun res => mirrors_bind (mirrors_temp hσ) fun inverse =>
    mirrors_ite ?_ ?_
  · rw [← Operand.rename_scalar]
    exact mirrors_bind (mirrors_instr .rcp inverse [r.scalar]) fun _ =>
      mirrors_bind (mirrors_instr .mul res [l, inverse]) fun _ => mirrors_pure _ res
  · exact mirrors_bind (mirrors_ofExcept fun _ h => h) fun cs =>
      mirrors_bind (mirrors_instrs cs fun _ => rfl) fun _ =>
        mirrors_bind (mirrors_instr .mul res [l, inverse]) fun _ => mirrors_pure _ res

theorem mirrors_power (l r : Operand) (t : Ty) :
    Mirrors σ (Operand.rename σ) (power l r t : Lower α Operand)
      (power (l.rename σ) (r.rename σ) t) := by
  refine mirrors_bind (mirrors_temp hσ) fun res => mirrors_ite ?_ ?_
  · rw [← Operand.rename_scalar, ← Operand.rename_scalar]
    exact mirrors_bind (mirrors_instr .pow res [l.scalar, r.scalar]) fun _ => mirrors_pure _ res
  · exact mirrors_bind (mirrors_ofExcept fun _ h => h) fun cs =>
      mirrors_bind (mirrors_instrs cs fun _ => rfl) fun _ => mirrors_pure _ res

theorem mirrors_compare (a b c d : Operand) :
    Mirrors σ (Operand.rename σ) (compare a b c d : Lower α Operand)
      (compare (a.rename σ) (b.rename σ) (c.rename σ) (d.rename σ)) :=
  mirrors_bind (mirrors_temp hσ) fun res => mirrors_bind (mirrors_temp hσ) fun difference =>
    mirrors_bind (mirrors_instr .sub difference [a, b]) fun _ =>
      mirrors_bind (mirrors_instr .cmp res [difference, c, d]) fun _ => mirrors_pure _ res

/-- The instructions of an equality depend on the type, which both programs share. -/
theorem mirrors_equal (l r : Operand) (t : Ty) :
    Mirrors σ (Operand.rename σ) (equal l r t : Lower α Operand)
      (equal (l.rename σ) (r.rename σ) t) := by
  have hdecide : ∀ res other : Operand, Mirrors σ id
      (instr .cmp res [other, falseOperand, trueOperand] : Lower α Unit)
      (instr .cmp (res.rename σ) [other.rename σ, falseOperand, trueOperand]) := by
    intro res other
    have h := mirrors_instr (α := α) (σ := σ) .cmp res [other, falseOperand, trueOperand]
    rwa [List.map_cons, List.map_cons, List.map_singleton, rename_falseOperand hσ,
      rename_trueOperand hσ] at h
  refine mirrors_bind (mirrors_temp hσ) fun res => mirrors_bind (mirrors_temp hσ) fun other =>
    mirrors_bind (mirrors_instr .sub other [l, r]) fun _ =>
      mirrors_bind (hdecide res other) fun _ =>
        mirrors_bind (mirrors_instr .sub other [r, l]) fun _ =>
          mirrors_bind (hdecide other other) fun _ =>
            mirrors_bind (mirrors_instr .min res [res, other]) fun _ => mirrors_ite ?_ ?_
  · exact mirrors_pure _ res
  · exact mirrors_bind (mirrors_ofExcept fun _ h => h) fun cs =>
      mirrors_bind (mirrors_instr .min other [res.component .x, res.component .y]) fun _ =>
        mirrors_bind (mirrors_instrs (cs.drop 2) fun _ => rfl) fun _ => mirrors_pure _ other

/-- **The code of an operator is mirrored**, on the renamed operands. -/
theorem mirrors_binary (op : BinaryOp) (l r : Operand) (left right t : Ty) :
    Mirrors σ (Operand.rename σ) (binary op l r left right t : Lower α Operand)
      (binary op (l.rename σ) (r.rename σ) left right t) := by
  have hcompare : ∀ x y : Operand, Mirrors σ (Operand.rename σ)
      (compare x y trueOperand falseOperand : Lower α Operand)
      (compare (x.rename σ) (y.rename σ) trueOperand falseOperand) := by
    intro x y
    have h := mirrors_compare (α := α) hσ x y trueOperand falseOperand
    rwa [rename_trueOperand hσ, rename_falseOperand hσ] at h
  have hexclude : ∀ x y : Operand, Mirrors σ (Operand.rename σ)
      (compare x y falseOperand trueOperand : Lower α Operand)
      (compare (x.rename σ) (y.rename σ) falseOperand trueOperand) := by
    intro x y
    have h := mirrors_compare (α := α) hσ x y falseOperand trueOperand
    rwa [rename_trueOperand hσ, rename_falseOperand hσ] at h
  cases op with
  | add | sub | mul | and | or => exact mirrors_direct hσ _ l r
  | div => exact mirrors_quotient hσ l r right
  | pow => exact mirrors_power hσ l r t
  | lt => exact hcompare l r
  | gt => exact hcompare r l
  | le => exact hexclude r l
  | ge => exact hexclude l r
  | eq => exact mirrors_equal hσ l r left
  | ne =>
    exact mirrors_bind (mirrors_equal hσ l r left) fun res =>
      mirrors_bind (mirrors_instr .mov res [res.neg]) fun _ => mirrors_pure _ res
  | unknown => exact mirrors_fail _ _ _

/-- **So is the code of a call.** -/
theorem mirrors_call (func : Bytes) (args : List Operand) :
    Mirrors σ (Operand.rename σ) (call func args : Lower α Operand)
      (call func (args.map (Operand.rename σ))) := by
  unfold call
  split
  · exact mirrors_fail _ _ _
  · split
    · rename_i x _
      rw [List.map_singleton]
      dsimp only
      rw [← Operand.rename_scalar]
      exact mirrors_bind (mirrors_temp hσ) fun res =>
        mirrors_bind (mirrors_instr .rsq res [x.scalar]) fun _ => mirrors_pure _ res
    · rename_i x y _
      exact mirrors_bind (mirrors_temp hσ) fun res =>
        mirrors_bind (mirrors_instr .dp3 res [x, y]) fun _ => mirrors_pure _ res
    · rename_i x _
      exact mirrors_bind (mirrors_temp hσ) fun res =>
        mirrors_bind (mirrors_instr .lit res [x]) fun _ => mirrors_pure _ res
    · exact mirrors_fail _ _ _

/-- And that of a constructor, whose components go to the same places. -/
theorem mirrors_assemble (args : List Operand) :
    Mirrors σ (Operand.rename σ) (assemble args : Lower α Operand)
      (assemble (args.map (Operand.rename σ))) := by
  have hmoves : ∀ res : Operand, Mirrors σ id
      (emit ((Component.all.zip args).map fun d =>
        .instr ⟨.mov, res.component d.1, [d.2.scalar]⟩) : Lower α Unit)
      (emit ((Component.all.zip (args.map (Operand.rename σ))).map fun d =>
        .instr ⟨.mov, (res.rename σ).component d.1, [d.2.scalar]⟩)) := by
    intro res
    rw [List.zip_map_right, List.map_map]
    refine mirrors_instrs (Component.all.zip args) fun d => ?_
    rw [Instruction.rename, List.map_singleton, Operand.rename_scalar]
    rfl
  exact mirrors_bind (mirrors_temp hσ) fun res => mirrors_bind (hmoves res) fun _ =>
    mirrors_pure _ res

end Operators

/-! ## Expressions -/

section Expressions

variable {α : Type} {σ : Register → Register} {env env' : Env}

/-- **A variable is mirrored by its counterpart**: both references are bound to the same
declaration. -/
theorem mirrors_register (hmaps : env.Maps σ env') {ref ref' : Ref} (h : ref.decl = ref'.decl) :
    Mirrors σ (Operand.rename σ) (register env ref : Lower α Operand) (register env' ref') := by
  refine mirrors_ofExcept fun o ho => ?_
  rw [← h]
  cases hr : env.symbols.registerOf env.decls ref.decl with
  | error d =>
    rw [hr] at ho
    cases ho
  | ok r =>
    rw [hr] at ho
    cases ho
    rw [hmaps.registerOf hr]
    rfl

theorem mirrors_indexed (hmaps : env.Maps σ env') {ref ref' : Ref} (h : ref.decl = ref'.decl)
    (i : Int) :
    Mirrors σ (Operand.rename σ) (indexed env ref i : Lower α Operand) (indexed env' ref' i) :=
  mirrors_bind (mirrors_register hmaps h) fun reg =>
    mirrors_bind (mirrors_ofExcept fun _ hc => hc) fun c => mirrors_pure _ (reg.component c)

variable [Scalar α]

mutual

/-- **The code of a renamed expression is the renamed code.** -/
theorem mirrors_expr (hmaps : env.Maps σ env') (hsound : Symbols.Sound env.decls env.symbols) :
    ∀ {e e' : Expr}, e.Alike e' → ∀ {t t' : Ty}, HasType env.decls e t →
      HasType env'.decls e' t' →
      Mirrors σ (Operand.rename σ) (expr env e : Lower α Operand) (expr env' e')
  | _, _, .absent, _, _, _, _ => by rw [expr]; exact mirrors_fail _ _ _
  | _, _, .int, _, _, _, _ => by rw [expr, expr]; exact mirrors_immediate hmaps.moves _
  | _, _, .float, _, _, _, _ => by rw [expr, expr]; exact mirrors_immediate hmaps.moves _
  | _, _, .bool, _, _, _, _ => by rw [expr, expr]; exact mirrors_immediate hmaps.moves _
  | _, _, .var hdecl, _, _, _, _ => by rw [expr, expr]; exact mirrors_register hmaps hdecl
  | _, _, .index hdecl, _, _, _, _ => by rw [expr, expr]; exact mirrors_indexed hmaps hdecl _
  | _, _, .unary hx, _, _, ht, ht' => by
    obtain ⟨-, u, hu, -⟩ := ht.unary
    obtain ⟨-, u', hu', -⟩ := ht'.unary
    rw [expr, expr]
    exact mirrors_bind (mirrors_expr hmaps hsound hx hu hu') fun value =>
      mirrors_bind (mirrors_temp hmaps.moves) fun res =>
        mirrors_bind (mirrors_instr .mov res [value.neg]) fun _ => mirrors_pure _ res
  | _, _, .binary hl hr, _, _, ht, ht' => by
    have hsame := type_unique hmaps.decls (.binary hl hr) ht ht'
    obtain ⟨rfl, u, v, hu, hv, -⟩ := ht.binary
    obtain ⟨rfl, u', v', hu', hv', -⟩ := ht'.binary
    -- the operator takes its form from types, which are those of the other expression
    cases hsame
    cases type_unique hmaps.decls hl hu hu'
    cases type_unique hmaps.decls hr hv hv'
    rw [expr, expr, hu.type_eq, hv.type_eq, hu'.type_eq, hv'.type_eq]
    exact mirrors_bind (mirrors_expr hmaps hsound hl hu hu') fun l =>
      mirrors_bind (mirrors_expr hmaps hsound hr hv hv') fun r =>
        mirrors_binary hmaps.moves _ l r _ _ _
  | _, _, .call hargs, _, _, ht, ht' => by
    obtain ⟨-, ts, -, hts, -⟩ := ht.call
    obtain ⟨-, ts', -, hts', -⟩ := ht'.call
    rw [expr, expr]
    exact mirrors_bind (mirrors_exprs hmaps hsound hargs hts hts') fun args =>
      mirrors_call hmaps.moves _ args
  | _, _, .construct hargs, _, _, ht, ht' => by
    obtain ⟨-, ts, hts⟩ := ht.construct
    obtain ⟨-, ts', hts'⟩ := ht'.construct
    rw [expr, expr]
    refine mirrors_bind (mirrors_ofExcept (g := id) fun c hc =>
      reduce_alike hmaps hsound (.construct hargs) hc) fun c => ?_
    rw [id, hargs.length_eq]
    split
    · exact mirrors_immediate hmaps.moves _
    · exact mirrors_ite
        (mirrors_bind (mirrors_exprs hmaps hsound hargs hts hts') fun args =>
          mirrors_assemble hmaps.moves args)
        (mirrors_fail _ _ _)

theorem mirrors_exprs (hmaps : env.Maps σ env') (hsound : Symbols.Sound env.decls env.symbols) :
    ∀ {es es' : List Expr}, Expr.AlikeList es es' → ∀ {ts ts' : List Ty},
      HasTypes env.decls es ts → HasTypes env'.decls es' ts' →
      Mirrors σ (List.map (Operand.rename σ)) (exprs env es : Lower α (List Operand))
        (exprs env' es')
  | _, _, .nil, _, _, _, _ => by rw [exprs, exprs]; exact mirrors_pure _ []
  | _, _, .cons he hes, _, _, ht, ht' => by
    obtain ⟨u, us, -, hu, hus⟩ := ht.cons
    obtain ⟨u', us', -, hu', hus'⟩ := ht'.cons
    rw [exprs, exprs]
    exact mirrors_bind (mirrors_expr hmaps hsound he hu hu') fun value =>
      mirrors_bind (mirrors_exprs hmaps hsound hes hus hus') fun values =>
        mirrors_pure _ (value :: values)

end

end Expressions

/-! ## Statements -/

section Statements

variable {α : Type} {σ : Register → Register} {env env' : Env}

theorem mirrors_beginStatement : Mirrors σ id (beginStatement : Lower α Unit) beginStatement :=
  mirrors_bind mirrors_blank fun _ => mirrors_resetSession

theorem mirrors_write (cond : Option Operand) (dst value : Operand) :
    Mirrors σ id (write cond dst value : Lower α Unit)
      (write (cond.map (Operand.rename σ)) (dst.rename σ) (value.rename σ)) := by
  cases cond with
  | none => exact mirrors_instr .mov dst [value]
  | some cond => exact mirrors_instr .cmp dst [cond, dst, value]

theorem mirrors_target (hmaps : env.Maps σ env') {e e' : Expr} (h : e.Alike e') :
    Mirrors σ (Operand.rename σ) (target env e : Lower α Operand) (target env' e') := by
  cases h with
  | var hdecl => exact mirrors_register hmaps hdecl
  | index hdecl => exact mirrors_indexed hmaps hdecl _
  | _ => exact mirrors_fail _ _ _

theorem mirrors_spread (hσ : MovesVariables σ) (cond : Operand) :
    Mirrors σ (Operand.rename σ) (spread cond : Lower α Operand) (spread (cond.rename σ)) := by
  refine mirrors_bind (mirrors_temp hσ) fun res =>
    mirrors_bind (mirrors_instrs Component.all fun c => ?_) fun _ => mirrors_pure _ res
  rw [Instruction.rename, List.map_singleton, Operand.rename_scalar]
  rfl

/-- How the condition of a nested `if` or `else` is taken from the one around it. -/
theorem mirrors_nest (hσ : MovesVariables σ) (combined outer own : Operand) :
    Mirrors σ id (instr .cmp combined [outer, falseOperand, own] : Lower α Unit)
      (instr .cmp (combined.rename σ) [outer.rename σ, falseOperand, own.rename σ]) := by
  have h := mirrors_instr (α := α) (σ := σ) .cmp combined [outer, falseOperand, own]
  rwa [List.map_cons, List.map_cons, List.map_singleton, rename_falseOperand hσ] at h

/-- The register of the condition is negated for the `else`. -/
theorem mirrors_enterElse (hσ : MovesVariables σ) (cond : Option Operand) (combined : Operand) :
    Mirrors σ id (enterElse cond combined : Lower α Unit)
      (enterElse (cond.map (Operand.rename σ)) (combined.rename σ)) := by
  refine mirrors_bind mirrors_blank fun _ => ?_
  cases cond with
  | none =>
    exact mirrors_bind (mirrors_comment _) fun _ => mirrors_instr .mov combined [combined.neg]
  | some outer =>
    exact mirrors_bind (mirrors_comment _) fun _ => mirrors_nest hσ combined outer combined.neg

/-- Initializers that the rules type. -/
def InitsTyped (decls : List Declaration) : Prop :=
  ∀ (id : DeclId) d e, decls[id]? = some d → d.init = some e → ∃ t, HasType decls e t

variable [Scalar α]

/-- The condition of an `if`, combined with the one around it. -/
theorem mirrors_enterIf (hmaps : env.Maps σ env')
    (hsound : Symbols.Sound env.decls env.symbols) (cond : Option Operand) {e e' : Expr}
    (h : e.Alike e') {t t' : Ty} (ht : HasType env.decls e t) (ht' : HasType env'.decls e' t') :
    Mirrors σ (Operand.rename σ) (enterIf env cond e : Lower α Operand)
      (enterIf env' (cond.map (Operand.rename σ)) e') := by
  refine mirrors_bind mirrors_blank fun _ => mirrors_bind (mirrors_comment _) fun _ =>
    mirrors_bind mirrors_resetSession fun _ =>
      mirrors_bind (mirrors_expr hmaps hsound h ht ht') fun value =>
        mirrors_bind (mirrors_spread hmaps.moves value) fun own =>
          mirrors_bind (mirrors_longLived hmaps.moves) fun combined => ?_
  cases cond with
  | none =>
    exact mirrors_bind (mirrors_comment _) fun _ =>
      mirrors_bind (mirrors_instr .mov combined [own]) fun _ => mirrors_pure _ combined
  | some outer =>
    exact mirrors_bind (mirrors_comment _) fun _ =>
      mirrors_bind (mirrors_nest hmaps.moves combined outer own) fun _ => mirrors_pure _ combined

/-- A declaration. The initializer is in the table, and those of both tables are alike. -/
theorem mirrors_decl (hmaps : env.Maps σ env') (hsound : Symbols.Sound env.decls env.symbols)
    (hinits : InitsTyped env.decls) (hinits' : InitsTyped env'.decls) (cond : Option Operand)
    (place : DeclId) :
    Mirrors σ id (decl env cond place : Lower α Unit)
      (decl env' (cond.map (Operand.rename σ)) place) := by
  unfold decl
  cases hd : env.decls[place]? with
  | none =>
    have hd' : env'.decls[place]? = none := by
      rw [List.getElem?_eq_none_iff, ← hmaps.decls.length_eq]
      exact List.getElem?_eq_none_iff.mp hd
    rw [hd']
    exact mirrors_pure _ ()
  | some d =>
    obtain ⟨d', hd', halike⟩ := exists_alike hmaps.decls hd
    rw [hd']
    dsimp only
    rw [← halike.isConst]
    refine mirrors_ite (mirrors_pure _ ()) (mirrors_bind mirrors_beginStatement fun _ => ?_)
    have hinit := halike.init
    have htyped := fun e => hinits place d e hd
    have htyped' := fun e => hinits' place d' e hd'
    -- the initializers are replaced by variables, for the case split on how they are alike
    generalize d.init = i at hinit htyped ⊢
    generalize d'.init = i' at hinit htyped' ⊢
    have hreg : Mirrors σ (Operand.rename σ)
        (register env { name := d.name, decl := some place } : Lower α Operand)
        (register env' { name := d'.name, decl := some place }) := mirrors_register hmaps rfl
    cases hinit with
    | none =>
      have hzero : Mirrors σ (Operand.rename σ) (pure (.of .zero) : Lower α Operand)
          (pure (.of .zero)) := by
        have h := mirrors_pure (α := α) (σ := σ) (Operand.rename σ) (.of .zero)
        rwa [hmaps.moves.of (by simp)] at h
      exact mirrors_bind hzero fun value => mirrors_bind hreg fun reg =>
        mirrors_write cond reg value
    | some he =>
      obtain ⟨t, ht⟩ := htyped _ rfl
      obtain ⟨t', ht'⟩ := htyped' _ rfl
      exact mirrors_bind (mirrors_expr hmaps hsound he ht ht') fun value =>
        mirrors_bind hreg fun reg => mirrors_write cond reg value

theorem mirrors_decls (hmaps : env.Maps σ env') (hsound : Symbols.Sound env.decls env.symbols)
    (hinits : InitsTyped env.decls) (hinits' : InitsTyped env'.decls) (cond : Option Operand) :
    ∀ ids : List DeclId, Mirrors σ id (decls env cond ids : Lower α Unit)
      (decls env' (cond.map (Operand.rename σ)) ids)
  | [] => mirrors_pure _ ()
  | place :: ids =>
    mirrors_bind (mirrors_decl hmaps hsound hinits hinits' cond place) fun _ =>
      mirrors_decls hmaps hsound hinits hinits' cond ids

mutual

/-- **The code of a renamed statement is the renamed code.** -/
theorem mirrors_stmt (hmaps : env.Maps σ env') (hsound : Symbols.Sound env.decls env.symbols)
    (hinits : InitsTyped env.decls) (hinits' : InitsTyped env'.decls) :
    ∀ {s s' : Stmt}, s.Alike s' → StmtHasType env.decls s → StmtHasType env'.decls s' →
      ∀ cond : Option Operand, Mirrors σ id (stmt env cond s : Lower α Unit)
        (stmt env' (cond.map (Operand.rename σ)) s')
  | _, _, .absent, _, _, _ => by rw [stmt]; exact mirrors_fail _ _ _
  | _, _, .assign htarget hvalue, ht, ht', cond => by
    obtain ⟨t, ht⟩ := ht.assign
    obtain ⟨t', ht'⟩ := ht'.assign
    rw [stmt, stmt]
    exact mirrors_bind mirrors_beginStatement fun _ =>
      mirrors_bind (mirrors_expr hmaps hsound hvalue ht ht') fun value =>
        mirrors_bind (mirrors_target hmaps htarget) fun dst => mirrors_write cond dst value
  | _, _, .ifThen hcond hyes, ht, ht', cond => by
    obtain ⟨hc, hy⟩ := ht.ifThen
    obtain ⟨hc', hy'⟩ := ht'.ifThen
    rw [stmt, stmt]
    exact mirrors_bind (mirrors_enterIf hmaps hsound cond hcond hc hc') fun combined =>
      mirrors_stmt hmaps hsound hinits hinits' hyes hy hy' (some combined)
  | _, _, .ifElse hcond hyes hno, ht, ht', cond => by
    obtain ⟨hc, hy, hn⟩ := ht.ifElse
    obtain ⟨hc', hy', hn'⟩ := ht'.ifElse
    rw [stmt, stmt]
    exact mirrors_bind (mirrors_enterIf hmaps hsound cond hcond hc hc') fun combined =>
      mirrors_bind (mirrors_stmt hmaps hsound hinits hinits' hyes hy hy' (some combined)) fun _ =>
        mirrors_bind (mirrors_enterElse hmaps.moves cond combined) fun _ =>
          mirrors_stmt hmaps hsound hinits hinits' hno hn hn' (some combined)
  | _, _, .loop _ _, _, _, _ => by rw [stmt]; exact mirrors_fail _ _ _
  | _, _, .scope hss, ht, ht', cond => by
    rw [stmt, stmt]
    exact mirrors_bind (mirrors_decls hmaps hsound hinits hinits' cond _) fun _ =>
      mirrors_stmts hmaps hsound hinits hinits' hss ht.scope ht'.scope cond

theorem mirrors_stmts (hmaps : env.Maps σ env') (hsound : Symbols.Sound env.decls env.symbols)
    (hinits : InitsTyped env.decls) (hinits' : InitsTyped env'.decls) :
    ∀ {ss ss' : List Stmt}, Stmt.AlikeList ss ss' → StmtsHaveType env.decls ss →
      StmtsHaveType env'.decls ss' → ∀ cond : Option Operand,
      Mirrors σ id (stmts env cond ss : Lower α Unit)
        (stmts env' (cond.map (Operand.rename σ)) ss')
  | _, _, .nil, _, _, _ => by rw [stmts, stmts]; exact mirrors_pure _ ()
  | _, _, .cons hs hss, ht, ht', cond => by
    rw [stmts, stmts]
    exact mirrors_bind (mirrors_stmt hmaps hsound hinits hinits' hs ht.cons.1 ht'.cons.1 cond)
      fun _ => mirrors_stmts hmaps hsound hinits hinits' hss ht.cons.2 ht'.cons.2 cond

end

end Statements

end Lower

/-! ## Corresponding registers -/

namespace Symbols

/-- The registers of a table. -/
def registers (s : Symbols) : Set Register := {r | ∃ id, s.register? id = some r}

/-- The register in the table `s'` of the variable whose register in the table `s` is `r`. Other
registers stand for themselves. -/
def counterpart (s s' : Symbols) (r : Register) : Register :=
  ((s.entries.find? fun e => e.2 == r).bind fun e => s'.register? e.1).getD r

variable {decls decls' : List Declaration} {s s' : Symbols}

/-- **The counterpart of a variable's register is its register in the other table.** No two
variables share a register, so the search in the first table finds the right one. -/
theorem counterpart_eq (hs : Sound decls s) {id : DeclId} {r r' : Register}
    (hr : s.register? id = some r) (hr' : s'.register? id = some r') :
    s.counterpart s' r = r' := by
  have hmem : (id, r) ∈ s.entries := mem_of_register? hr
  cases hfind : s.entries.find? fun e => e.2 == r with
  | none => simpa using List.find?_eq_none.mp hfind _ hmem
  | some e =>
    have hreg : e.2 = r := by simpa using List.find?_some hfind
    have hsame : e = (id, r) :=
      List.inj_on_of_nodup_map hs.regs (List.mem_of_find?_eq_some hfind) hmem hreg
    rw [counterpart, hfind, Option.bind_some, hsame, hr', Option.getD_some]

/-- Registers of no variable are their own counterparts. -/
theorem counterpart_of_not_mem {r : Register} (h : r ∉ s.registers) (hs : Sound decls s) :
    s.counterpart s' r = r := by
  cases hfind : s.entries.find? fun e => e.2 == r with
  | none => rw [counterpart, hfind, Option.bind_none, Option.getD_none]
  | some e =>
    have hreg : e.2 = r := by simpa using List.find?_some hfind
    exact absurd ⟨e.1, hs.register? (hreg ▸ List.mem_of_find?_eq_some hfind)⟩ h

/-- Tables of the same declarations have registers for the same ones. -/
theorem exists_register? (hs' : Sound decls' s')
    (hids : s.entries.map (·.1) = s'.entries.map (·.1)) {id : DeclId} {r : Register}
    (hr : s.register? id = some r) : ∃ r', s'.register? id = some r' := by
  have hmem : id ∈ s.entries.map (·.1) := List.mem_map_of_mem (mem_of_register? hr)
  rw [hids] at hmem
  obtain ⟨e, he, rfl⟩ := List.mem_map.mp hmem
  exact ⟨e.2, hs'.register? he⟩

/-- The counterpart of the register of a variable is the register of its counterpart. -/
theorem register?_counterpart (hs : Sound decls s) (hs' : Sound decls' s')
    (hids : s.entries.map (·.1) = s'.entries.map (·.1)) {id : DeclId} {r : Register}
    (hr : s.register? id = some r) : s'.register? id = some (s.counterpart s' r) := by
  obtain ⟨r', hr'⟩ := exists_register? hs' hids hr
  rw [counterpart_eq hs hr hr', hr']

/-- **Corresponding registers are in bijection.** -/
theorem bijOn_counterpart (hs : Sound decls s) (hs' : Sound decls' s')
    (hids : s.entries.map (·.1) = s'.entries.map (·.1)) :
    Set.BijOn (s.counterpart s') s.registers s'.registers := by
  refine ⟨?_, ?_, ?_⟩
  · rintro r ⟨id, hr⟩
    exact ⟨id, register?_counterpart hs hs' hids hr⟩
  · rintro r ⟨id, hr⟩ r₁ ⟨id₁, hr₁⟩ heq
    have hr' := register?_counterpart hs hs' hids hr
    have hr₁' := register?_counterpart hs hs' hids hr₁
    have heq : s.counterpart s' r = s.counterpart s' r₁ := heq
    rw [heq] at hr'
    cases hs'.injective hr' hr₁'
    exact Option.some.inj (hr.symm.trans hr₁)
  · rintro r' ⟨id, hr'⟩
    obtain ⟨r, hr⟩ := exists_register? hs hids.symm hr'
    exact ⟨r, ⟨id, hr⟩, counterpart_eq hs hr hr'⟩

/-- A table is the other with every register replaced by its counterpart. -/
theorem entries_eq (hs : Sound decls s) (hs' : Sound decls' s')
    (hids : s.entries.map (·.1) = s'.entries.map (·.1)) :
    s'.entries = s.entries.map fun e => (e.1, s.counterpart s' e.2) := by
  -- each entry is what the table says of its declaration
  have hself : s'.entries = (s'.entries.map (·.1)).map fun id =>
      (id, (s'.register? id).getD .zero) := by
    rw [List.map_map]
    refine ((List.map_congr_left fun e he => ?_).trans (List.map_id _)).symm
    simp [hs'.register? he]
  rw [hself, ← hids, List.map_map]
  refine List.map_congr_left fun e he => ?_
  simp [register?_counterpart hs hs' hids (hs.register? he)]

end Symbols

/-! ## Programs -/

section Programs

open Lower Machine

variable {α : Type} [Scalar α] {env env' : Env} {n n' : Nat} {body body' : Ast.Scope}
  {ds es ds' es' : List Declaration} {Γ Γ' : Context} {stmts stmts' : List Stmt}

/-- In an accepted program all initializers have types. -/
theorem initsTyped_of_accepted (hA : Accepted env n) : InitsTyped env.decls := by
  intro id d e hd he
  rcases Nat.lt_or_ge id n with hid | hid
  · obtain ⟨Γ, a, hdecl, hΓ⟩ := hA.own id d hd hid
    cases hdecl with
    | plain => cases he
    | mutable _ hinit | const _ hinit =>
      cases he
      exact ⟨_, Γ, _, hΓ.lists, hinit⟩
  · obtain ⟨h, rfl⟩ := hA.predefined id d hd hid
    cases he

/-- A predefined variable has one place in the tables of both programs. -/
theorem predefined_alike (hA : Accepted env n) (hB : AcceptedBody env n body ds es Γ stmts)
    (hB' : AcceptedBody env' n' body' ds' es' Γ' stmts')
    (hdecls : List.Forall₂ Declaration.Alike env.decls env'.decls) {id : DeclId} {h : Hardware}
    (hd : env.decls[id]? = some (.ofHardware h)) : env'.decls[id]? = some (.ofHardware h) := by
  have hid : n ≤ id := by
    by_contra hid
    obtain ⟨Γ, a, hdecl, -⟩ := hA.own id _ hd (Nat.lt_of_not_le hid)
    have ho := hdecl.isOrdinary
    rw [isOrdinary_ofHardware] at ho
    cases ho
  -- tables of one length that end in the same declarations
  have hlength : (ds ++ es).length = (ds' ++ es').length := by
    have hsum : (ds ++ es).length + Program.predefinedDecls.length =
        (ds' ++ es').length + Program.predefinedDecls.length := by
      rw [← List.length_append, ← List.length_append, ← hB.table, ← hB'.table, hdecls.length_eq]
    exact Nat.add_right_cancel hsum
  rw [hB.count] at hid
  rw [hB.table, getElem?_predefined hid, hlength] at hd
  rw [hlength] at hid
  rw [hB'.table, getElem?_predefined hid, hd]

/-- Renamed programs have environments that correspond. -/
theorem maps_counterpart (hA : Accepted env n) (hB : AcceptedBody env n body ds es Γ stmts)
    (hA' : Accepted env' n') (hB' : AcceptedBody env' n' body' ds' es' Γ' stmts')
    (hdecls : List.Forall₂ Declaration.Alike env.decls env'.decls)
    (hids : env.symbols.entries.map (·.1) = env'.symbols.entries.map (·.1)) :
    env.Maps (env.symbols.counterpart env'.symbols) env' where
  decls := hdecls
  registers := fun id r hr => Symbols.register?_counterpart hA.sound hA'.sound hids hr
  moves := by
    intro r hr
    by_cases hmem : r ∈ env.symbols.registers
    · obtain ⟨id, hid⟩ := hmem
      obtain ⟨d, hd, hfit⟩ := hA.sound.fitting _ (Symbols.mem_of_register? hid)
      cases hfit with
      | own k _ => exact absurd rfl (hr _ k)
      | hardware h =>
        have hd' := predefined_alike hA hB hB' hdecls hd
        obtain ⟨r', hr', hfit'⟩ := hA'.listed id _ hd'
        cases eq_hardware_of_fitting hfit'
        exact Symbols.counterpart_eq hA.sound hid hr'
    · exact Symbols.counterpart_of_not_mem hmem hA.sound

variable {σ : Register → Register}

/-- The mutable variables of renamed programs correspond, in order. -/
theorem mutables_alike (hA : Accepted env n) (hmaps : env.Maps σ env')
    (hentries : env'.symbols.entries = env.symbols.entries.map fun e => (e.1, σ e.2)) :
    mutables env' = (mutables env).map σ := by
  rw [mutables, mutables, hentries, List.filterMap_map, List.map_filterMap]
  refine List.filterMap_congr fun e he => ?_
  obtain ⟨d, hd, -⟩ := hA.sound.fitting e he
  obtain ⟨d', hd', halike⟩ := exists_alike hmaps.decls hd
  rw [Function.comp_apply, mutable?, mutable?, hd, hd']
  dsimp only
  rw [← halike.isOrdinary, ← halike.isConst]
  split <;> rfl

/-- The constants of renamed programs correspond, in order and with their values. -/
theorem constants_alike (hA : Accepted env n) (hA' : Accepted env' n') (hmaps : env.Maps σ env')
    (hentries : env'.symbols.entries = env.symbols.entries.map fun e => (e.1, σ e.2)) :
    (constants env' : List (Param α)) = (constants env).map (Param.rename σ) := by
  rw [constants, constants, hentries, List.filterMap_map, List.map_filterMap]
  refine List.filterMap_congr fun e he => ?_
  obtain ⟨d, hd, -⟩ := hA.sound.fitting e he
  obtain ⟨d', hd', halike⟩ := exists_alike hmaps.decls hd
  cases hc : d.isConst with
  | false =>
    rw [Function.comp_apply, constant?_eq_none hd hc,
      constant?_eq_none hd' (halike.isConst ▸ hc)]
    rfl
  | true =>
    -- an accepted constant has an initializer that folds, and so has its counterpart
    obtain ⟨init, v, folded, hinit, hv, -⟩ := exists_constant (α := α) hA hd hc
    have hrel := halike.init
    rw [hinit] at hrel
    obtain ⟨init', hinit', hrel⟩ : ∃ init', d'.init = some init' ∧ init.Alike init' := by
      generalize d'.init = o at hrel ⊢
      cases hrel with
      | some hrel => exact ⟨_, rfl, hrel⟩
    obtain ⟨t, ht⟩ := initsTyped_of_accepted hA e.1 d init hd hinit
    obtain ⟨t', ht'⟩ := initsTyped_of_accepted hA' e.1 d' init' hd' hinit'
    have hv' := reduceOrZero_alike hmaps hA.sound hrel ht ht' hv
    have hc' := halike.isConst ▸ hc
    rw [Function.comp_apply, constant?, constant?, hd, hd']
    dsimp only
    rw [hc, hc', hinit, hinit']
    dsimp only
    rw [hv, hv']
    rfl

/-- The code of a renamed body is the renamed code. -/
theorem mirrors_body (hA : Accepted env n) (hB : AcceptedBody env n body ds es Γ stmts)
    (hA' : Accepted env' n') (hB' : AcceptedBody env' n' body' ds' es' Γ' stmts')
    (hmaps : env.Maps σ env') (hstmts : Stmt.AlikeList stmts stmts') (ids : List DeclId) :
    Mirrors σ id (stmt env none (.scope ids stmts) : Lower α Unit)
      (stmt env' none (.scope ids stmts')) := by
  obtain ⟨hfits, hholds, -⟩ := hB.start
  obtain ⟨hfits', hholds', -⟩ := hB'.start
  have htyped : StmtsHaveType env.decls stmts := ⟨n, Γ, _, _, es, hfits, hholds, hB.stmts⟩
  have htyped' : StmtsHaveType env'.decls stmts' := ⟨n', Γ', _, _, es', hfits', hholds', hB'.stmts⟩
  have hinits := initsTyped_of_accepted hA
  have hinits' := initsTyped_of_accepted hA'
  rw [stmt, stmt]
  exact mirrors_bind (mirrors_decls hmaps hA.sound hinits hinits' none ids) fun _ =>
    mirrors_stmts hmaps hA.sound hinits hinits' hstmts htyped htyped' none

/-- Emitting code leaves the variables that were declared before. -/
theorem declarations_of_run (hA : Accepted env n) {s : Stmt} {temps : List Register}
    {params : List (Param α)} {u : Unit} {lines : List Line} {alloc : Allocator α}
    (hrun : run (stmt env none s) { program := { userTemps := temps, userParams := params } } =
      .ok (u, lines, alloc)) :
    alloc.program.userTemps = temps ∧ alloc.program.userParams = params ∧
      alloc.program.lines = [] := by
  obtain ⟨-, hext, -⟩ := emits_stmt (nameable_of_accepted hA) s (tidy_start temps params)
    plainCondition_none u lines alloc hrun
  obtain ⟨hgrows, -⟩ := uses_stmt s (usableCondition_none _ _) u lines alloc hrun
  exact ⟨hgrows.userTemps, hext.userParams, hext.lines⟩

omit [Scalar α] in
/-- A program with its code behind its declarations, renamed as a whole or in its parts. -/
theorem append_rename {alloc : Allocator α} {lines : List Line}
    (hlines : alloc.program.lines = []) :
    (declaring (alloc.program.userTemps.map σ) (alloc.program.userParams.map (Param.rename σ))
        alloc).program.append (lines.map (Line.rename σ)) =
      (alloc.program.append lines).rename σ := by
  simp [declaring, Assembly.append, Assembly.rename, hlines]

/-- A program is compiled if the code of its body can be emitted. -/
theorem compile_of_run {p : Program} {symbols : Symbols} {body : Program.Scope}
    (hbuild : Symbols.build p = .ok symbols) (hbody : p.body = some body)
    (hA : Accepted ⟨p.decls, symbols⟩ n) {u : Unit} {lines : List Line} {alloc : Allocator α}
    (hrun : run (stmt ⟨p.decls, symbols⟩ none (.scope body.decls body.stmts))
        { program :=
          { userTemps := mutables ⟨p.decls, symbols⟩
            userParams := constants ⟨p.decls, symbols⟩ } } = .ok (u, lines, alloc)) :
    (p.compile : Compilation α).symbols = some symbols ∧
      (p.compile : Compilation α).outcome = .ok (alloc.program.append lines) := by
  obtain ⟨notes, declared, hdeclare⟩ := exists_declare (α := α) hA symbols.entries {}
  cases declare_eq_ok hdeclare
  rw [Program.compile, hbuild]
  dsimp only
  rw [hdeclare, hbody]
  refine ⟨rfl, ?_⟩
  show Compilation.emit ⟨p.decls, symbols⟩ (some body)
    { userTemps := mutables ⟨p.decls, symbols⟩, userParams := constants ⟨p.decls, symbols⟩ } = _
  rw [Compilation.emit, hrun]

/-- **Compilation does not depend on names.** Let two texts have no parse errors and no diagnostics,
the first no loops, and let the second be the first with its variables renamed, so that each use
means the declaration that it meant. Then both are compiled. The map `σ` that takes the register of
each declaration to the register of its counterpart is a bijection, it moves no register but those
of the shader's variables, and the second program is the first with `σ` applied to its registers. -/
theorem compile_renamed (source source' : Bytes) (hparse : (parse source).errors = [])
    (hcheck : (Program.ofAst (parse source).body).check.checker.errors = [])
    (hloops : (parse source).body.toStmt.loops = []) (hparse' : (parse source').errors = [])
    (hcheck' : (Program.ofAst (parse source').body).check.checker.errors = [])
    (hrenamed : (Program.ofAst (parse source).body).check.program.Renamed
      (Program.ofAst (parse source').body).check.program) :
    let c : Compilation α := (Program.ofAst (parse source).body).check.program.compile
    let c' : Compilation α := (Program.ofAst (parse source').body).check.program.compile
    ∃ symbols symbols' a a' σ, c.symbols = some symbols ∧ c.outcome = .ok a ∧
      c'.symbols = some symbols' ∧ c'.outcome = .ok a' ∧
      (∀ id r, symbols.register? id = some r → symbols'.register? id = some (σ r)) ∧
      Set.BijOn σ symbols.registers symbols'.registers ∧ MovesVariables σ ∧ a' = a.rename σ := by
  set p := (Program.ofAst (parse source).body).check.program
  set p' := (Program.ofAst (parse source').body).check.program
  intro c c'
  have helab : Elaborates (parse source).body p := elaborates_check hparse hcheck
  have helab' : Elaborates (parse source').body p' := elaborates_check hparse' hcheck'
  obtain ⟨symbols, n, ds, es, Γ, stmts, hbuild, hbody, hA, hB⟩ := accepted_of_elaborates helab
  obtain ⟨symbols', n', ds', es', Γ', stmts', hbuild', hbody', hA', hB'⟩ :=
    accepted_of_elaborates helab'
  -- both tables list the declarations in the same order
  have hids : symbols.entries.map (·.1) = symbols'.entries.map (·.1) := by
    rw [Symbols.ids_build hbuild, Symbols.ids_build hbuild', hrenamed.visits,
      hrenamed.decls.length_eq]
  have hmaps := maps_counterpart hA hB hA' hB' hrenamed.decls hids
  have hentries := Symbols.entries_eq hA.sound hA'.sound hids
  have hsame := hrenamed.body
  rw [hbody, hbody'] at hsame
  obtain ⟨hscope, hstmts⟩ : Program.Scope.Alike ⟨List.range' 0 ds.length, stmts⟩
      ⟨List.range' 0 ds'.length, stmts'⟩ := by
    cases hsame with
    | some h => exact h
  -- the code of the first program, and that of the second as its mirror image
  have houtcome := outcome_of_elaborates (α := α) helab
  rw [hloops] at houtcome
  obtain ⟨a, ha⟩ := houtcome
  obtain ⟨u, lines, alloc, hrun, rfl⟩ := run_of_compile hbuild hbody ha
  obtain ⟨htemps, hparams, hlines⟩ := declarations_of_run hA hrun
  obtain ⟨-, hrun'⟩ := mirrors_body hA hB hA' hB' hmaps hstmts _ _ u lines alloc
    (List.forall_mem_nil _) hrun
  have hrun' := hrun' (mutables ⟨p'.decls, symbols'⟩) (constants ⟨p'.decls, symbols'⟩)
  rw [hscope] at hrun'
  obtain ⟨hc, -⟩ := compile_of_run hbuild hbody hA hrun
  obtain ⟨hc', ha'⟩ := compile_of_run hbuild' hbody' hA' hrun'
  refine ⟨symbols, symbols', _, _, symbols.counterpart symbols', hc, ha, hc', ha',
    hmaps.registers, Symbols.bijOn_counterpart hA.sound hA'.sound hids, hmaps.moves, ?_⟩
  rw [← append_rename hlines, htemps, hparams, mutables_alike hA hmaps hentries,
    constants_alike hA hA' hmaps hentries]

/-- Variables that shadow each other get names of their own, and one of them that of the copies of
another; a constant and a nested block are renamed along. -/
theorem compile_renamed_shadowed :
    let source :=
      ascii "\x7bint x=1;const int k=2;{int x=k;if(x<k)x=x+k;else{int x_0=x;x=x_0;}}" ++
        ascii "x=x*k;gl_FragColor=env1;\x7d"
    let source' :=
      ascii "\x7bint a=1;const int a_1=2;{int b=a_1;if(b<a_1)b=b+a_1;else{int a=b;b=a;}}" ++
        ascii "a=a*a_1;gl_FragColor=env1;\x7d"
    let p := (Program.ofAst (parse source).body).check.program
    let p' := (Program.ofAst (parse source').body).check.program
    (parse source).errors = [] ∧
    (Program.ofAst (parse source).body).check.checker.errors = [] ∧
    (parse source).body.toStmt.loops = [] ∧
    (parse source').errors = [] ∧
    (Program.ofAst (parse source').body).check.checker.errors = [] ∧
    p.Renamed p' ∧
    ∃ symbols symbols' a a' σ, (p.compile : Compilation Float32).symbols = some symbols ∧
      (p.compile : Compilation Float32).outcome = .ok a ∧
      (p'.compile : Compilation Float32).symbols = some symbols' ∧
      (p'.compile : Compilation Float32).outcome = .ok a' ∧
      (∀ id r, symbols.register? id = some r → symbols'.register? id = some (σ r)) ∧
      Set.BijOn σ symbols.registers symbols'.registers ∧ MovesVariables σ ∧ a' = a.rename σ := by
  intro source source' p p'
  have hyps : (isCompilable source && isCompilable source' && decide (p.Renamed p')) = true := by
    decide +kernel
  rw [Bool.and_eq_true, Bool.and_eq_true, isCompilable_iff, isCompilable_iff,
    decide_eq_true_eq] at hyps
  obtain ⟨⟨⟨hparse, hcheck, hloops⟩, hparse', hcheck', -⟩, hrenamed⟩ := hyps
  exact ⟨hparse, hcheck, hloops, hparse', hcheck', hrenamed,
    compile_renamed source source' hparse hcheck hloops hparse' hcheck' hrenamed⟩

end Programs

end Shader
