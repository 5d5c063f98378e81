import Shader.Proofs.Renaming
import Shader.Proofs.Traces

/-!
# Registers are written before they are read

A scratch register or the register of a condition holds nothing of use until an instruction of the
program writes it. The code of an expression and of a statement reads such a register only behind an
instruction that wrote it; the register of the condition around a statement is the exception, as it
was written before the code of the statement begins.

This is where types matter. The quotient by a vector of no components, or a constructor of no
arguments, would be a register that nothing writes.

`Feeds` says this of a step of code generation, with the registers that are written when it begins.
-/

namespace Shader

open TypeSystem
open Program (Expr Stmt)
open Number (Scalar)

namespace Lower

/-! ## Code that is fed -/

/-- Code that reads auxiliary registers only behind instructions that wrote them, but for those in
`W`. -/
def Fed (W : Register → Prop) (is : List Instruction) : Prop :=
  ∀ before i after, is = before ++ i :: after → ∀ o ∈ i.src, Auxiliary 0 o.reg →
    W o.reg ∨ ∃ j ∈ before, j.dst.reg = o.reg

/-- The registers that are written when code ends, if those in `W` are when it begins. -/
def written (W : Register → Prop) (is : List Instruction) (r : Register) : Prop :=
  W r ∨ ∃ j ∈ is, j.dst.reg = r

/-- An operand whose register is written, if it has to be. -/
def Filled (W : Register → Prop) (o : Operand) : Prop := Auxiliary 0 o.reg → W o.reg

section Fed

variable {W W' : Register → Prop} {is js : List Instruction} {o : Operand} {r : Register}

theorem written_nil : written W [] = W := by
  funext r
  simp [written]

/-- What is written behind two pieces of code is what the second adds to the first. -/
theorem written_append : written W (is ++ js) = written (written W is) js := by
  funext r
  simp only [written, List.mem_append, or_and_right, exists_or, or_assoc]

theorem fed_nil : Fed W [] := by
  intro before i after h
  cases before <;> cases h

/-- Instructions that read nothing that they write themselves. -/
theorem fed_of_filled (h : ∀ i ∈ is, ∀ o ∈ i.src, Filled W o) : Fed W is := by
  intro before i after his o ho haux
  exact .inl (h i (by rw [his]; simp) o ho haux)

/-- A member of two lists that are joined is one of the first or one of the second. -/
theorem split_of_append_eq {β : Type} {xs ys before after : List β} {x : β}
    (h : xs ++ ys = before ++ x :: after) :
    (∃ rest, xs = before ++ x :: rest) ∨
      ∃ rest, before = xs ++ rest ∧ ys = rest ++ x :: after := by
  obtain ⟨rest, rfl, hrest⟩ | ⟨rest, rfl, hrest⟩ := List.append_eq_append_iff.mp h
  · exact .inr ⟨rest, rfl, hrest⟩
  · cases rest with
    | nil => exact .inr ⟨[], by simp, hrest.symm⟩
    | cons y rest =>
      cases hrest
      exact .inl ⟨rest, rfl⟩

/-- Code behind other code may also read what that has written. -/
theorem Fed.append (his : Fed W is) (hjs : Fed (written W is) js) : Fed W (is ++ js) := by
  intro before i after h o ho haux
  rcases split_of_append_eq h with ⟨rest, rfl⟩ | ⟨rest, rfl, rfl⟩
  · exact his before i rest rfl o ho haux
  · obtain (hW | ⟨j, hj, hreg⟩) | ⟨j, hj, hreg⟩ := hjs rest i after rfl o ho haux
    · exact .inl hW
    · exact .inr ⟨j, List.mem_append_left _ hj, hreg⟩
    · exact .inr ⟨j, List.mem_append_right _ hj, hreg⟩

/-- Code that needs fewer registers written is fed when more of them are. -/
theorem Fed.mono (h : Fed W is) (hle : ∀ r, W r → W' r) : Fed W' is :=
  fun before i after his o ho haux => (h before i after his o ho haux).imp_left (hle _)

theorem Filled.mono (h : Filled W o) (hle : ∀ r, W r → W' r) : Filled W' o :=
  fun haux => hle _ (h haux)

/-- The sign of an operand and its components do not matter to what register it reads. -/
theorem Filled.neg (h : Filled W o) : Filled W o.neg := h

theorem Filled.component (h : Filled W o) (c : Component) : Filled W (o.component c) := h

theorem Filled.scalar (h : Filled W o) : Filled W o.scalar := by
  unfold Operand.scalar
  split <;> exact h

theorem filled_of_written (h : W o.reg) : Filled W o := fun _ => h

theorem filled_of_isVariable (h : IsVariable o.reg) : Filled W o :=
  fun haux => absurd haux (not_auxiliary_of_isVariable h)

theorem filled_of_isConstant (h : IsConstant o.reg) : Filled W o :=
  fun haux => absurd (.inl haux) (not_written_of_isConstant h)

theorem filled_true : Filled W trueOperand := filled_of_isConstant (.truth true)

theorem filled_false : Filled W falseOperand := filled_of_isConstant (.truth false)

end Fed

variable {α β γ : Type}

/-- `Feeds W m Q`: if the step `m` succeeds, then its code reads registers in `W` and what it has
written itself, and its result and the registers written after it satisfy `Q`. -/
def Feeds (W : Register → Prop) (m : Lower α β) (Q : (Register → Prop) → β → Prop) : Prop :=
  ∀ a b code a', run m a = .ok (b, code, a') →
    Fed W (instructions code) ∧ Q (written W (instructions code)) b

section Combinators

variable {W : Register → Prop} {P : (Register → Prop) → β → Prop}
  {Q : (Register → Prop) → γ → Prop}

theorem feeds_silent {m : Lower α β}
    (h : ∀ a b code a', run m a = .ok (b, code, a') → instructions code = [] ∧ P W b) :
    Feeds W m P := by
  intro a b code a' hrun
  obtain ⟨hcode, hb⟩ := h a b code a' hrun
  rw [hcode, written_nil]
  exact ⟨fed_nil, hb⟩

theorem feeds_pure {b : β} (h : P W b) : Feeds (α := α) W (pure b) P :=
  feeds_silent fun _ _ _ _ hrun => by
    cases hrun
    exact ⟨rfl, h⟩

/-- Steps in sequence: the second may use all that the first has written. -/
theorem feeds_bind {m : Lower α β} {f : β → Lower α γ} (hm : Feeds W m P)
    (hf : ∀ W' b, (∀ r, W r → W' r) → P W' b → Feeds W' (f b) Q) : Feeds W (m >>= f) Q := by
  intro a c lines a₂ hrun
  obtain ⟨b, code, a₁, more, h₁, h₂, rfl⟩ := run_bind_eq_ok.mp hrun
  obtain ⟨hfed₁, hb⟩ := hm a b code a₁ h₁
  obtain ⟨hfed₂, hc⟩ := hf _ b (fun r hr => .inl hr) hb a₁ c more a₂ h₂
  rw [instructions_append, written_append]
  exact ⟨hfed₁.append hfed₂, hc⟩

theorem feeds_mono {P' : (Register → Prop) → β → Prop} {m : Lower α β} (hm : Feeds W m P)
    (h : ∀ W' b, (∀ r, W r → W' r) → P W' b → P' W' b) : Feeds W m P' := by
  intro a b code a' hrun
  obtain ⟨hfed, hb⟩ := hm a b code a' hrun
  exact ⟨hfed, h _ b (fun r hr => .inl hr) hb⟩

theorem feeds_fail {e : Failure} : Feeds (α := α) W (fail e) P := by
  intro a b code a' hrun
  cases hrun

theorem feeds_ofExcept {r : Except Failure β} :
    Feeds (α := α) W (ofExcept r) fun W' b => W' = W ∧ r = .ok b :=
  feeds_silent fun _ _ _ _ hrun => by
    cases r with
    | error e => cases hrun
    | ok b' =>
      cases hrun
      exact ⟨rfl, rfl, rfl⟩

/-- A scratch register that is asked for is not written yet. -/
theorem feeds_temp_bind {f : Operand → Lower α γ} (hf : ∀ res, Feeds W (f res) Q) :
    Feeds W (temp >>= f) Q :=
  feeds_bind (P := fun W' _ => W' = W)
    (feeds_silent fun _ _ _ _ hrun => by
      cases hrun
      exact ⟨rfl, rfl⟩)
    fun _ res _ heq => heq ▸ hf res

/-- A constant register is loaded before the program begins. -/
theorem feeds_immediate {v : ParamValue α} : Feeds W (immediate v) Filled :=
  feeds_silent fun a _ _ _ hrun => by
    cases hrun
    exact ⟨rfl, filled_of_isConstant (.immediate a.constants)⟩

theorem feeds_instrs {ι : Type} (is : List ι) (f : ι → Instruction)
    (hsrc : ∀ i ∈ is, ∀ o ∈ (f i).src, Filled W o) :
    Feeds (α := α) W (emit (is.map fun i => .instr (f i))) fun W' _ =>
      ∀ i ∈ is, W' (f i).dst.reg := by
  intro a b code a' hrun
  cases hrun
  rw [instructions_map]
  refine ⟨fed_of_filled fun i hi => ?_, fun i hi => .inr ⟨f i, List.mem_map_of_mem hi, rfl⟩⟩
  obtain ⟨k, hk, rfl⟩ := List.mem_map.mp hi
  exact hsrc k hk

/-- An instruction whose sources are written has its destination written. -/
theorem feeds_instr {op : Opcode} {dst : Operand} {src : List Operand}
    (hsrc : ∀ o ∈ src, Filled W o) :
    Feeds (α := α) W (instr op dst src) fun W' _ => W' dst.reg :=
  feeds_mono (feeds_instrs [()] (fun _ => ⟨op, dst, src⟩) fun _ _ => hsrc)
    fun _ _ _ h => h () (List.mem_singleton_self ())

end Combinators

/-! ## Expressions -/

section Operators

variable {W : Register → Prop} {l r : Operand}

theorem feeds_single {op : Opcode} {src : List Operand} (hsrc : ∀ o ∈ src, Filled W o) :
    Feeds (α := α) W (temp >>= fun res => instr op res src >>= fun _ => pure res) Filled :=
  feeds_temp_bind fun _ => feeds_bind (feeds_instr hsrc) fun _ _ _ hres =>
    feeds_pure (filled_of_written hres)

theorem feeds_direct {op : Opcode} (hl : Filled W l) (hr : Filled W r) :
    Feeds (α := α) W (direct op l r) Filled := feeds_single (by simp [hl, hr])

theorem feeds_quotient {divisor : Ty} (hdivisor : divisor.isScalar = true) (hl : Filled W l)
    (hr : Filled W r) : Feeds (α := α) W (quotient l r divisor) Filled := by
  refine feeds_temp_bind fun res => feeds_temp_bind fun inverse => ?_
  rw [if_pos hdivisor]
  refine feeds_bind (feeds_instr (by simp [hr.scalar])) fun W₁ _ hle hinverse => ?_
  refine feeds_bind (feeds_instr ?_) fun W₂ _ _ hres => feeds_pure (filled_of_written hres)
  simp [hl.mono hle, filled_of_written hinverse]

/-- The exponent and the base are scalars, so one instruction does it. -/
theorem feeds_power {type : Ty} (htype : type.isScalar = true) (hl : Filled W l)
    (hr : Filled W r) : Feeds (α := α) W (power l r type) Filled := by
  refine feeds_temp_bind fun res => ?_
  rw [if_pos htype]
  exact feeds_bind (feeds_instr (by simp [hl.scalar, hr.scalar])) fun W₁ _ _ hres =>
    feeds_pure (filled_of_written hres)

theorem feeds_compare {yes no : Operand} (hl : Filled W l) (hr : Filled W r)
    (hyes : ∀ {W}, Filled W yes) (hno : ∀ {W}, Filled W no) :
    Feeds (α := α) W (compare l r yes no) Filled := by
  refine feeds_temp_bind fun res => feeds_temp_bind fun difference => ?_
  refine feeds_bind (feeds_instr (by simp [hl, hr])) fun W₁ _ _ hdifference => ?_
  refine feeds_bind (feeds_instr ?_) fun W₂ _ _ hres => feeds_pure (filled_of_written hres)
  simp [filled_of_written hdifference, hyes, hno]

/-- An equality overwrites its two scratch registers a few times, and reads each only after its
first write. Behind it the result is written whatever the type is. -/
theorem feeds_equal {type : Ty} (hl : Filled W l) (hr : Filled W r) :
    Feeds (α := α) W (equal l r type) fun W' o => W' o.reg := by
  refine feeds_temp_bind fun res => feeds_temp_bind fun other => ?_
  -- the first difference goes through the register of the second
  refine feeds_bind (feeds_instr (by simp [hl, hr])) fun W₁ _ h₁ hother₁ => ?_
  refine feeds_bind (feeds_instr (by simp [filled_of_written hother₁, filled_true, filled_false]))
    fun W₂ _ h₂ hres₂ => ?_
  have hle₂ : ∀ r, W r → W₂ r := fun r hr => h₂ r (h₁ r hr)
  refine feeds_bind (feeds_instr (by simp [hl.mono hle₂, hr.mono hle₂]))
    fun W₃ _ h₃ hother₃ => ?_
  refine feeds_bind (feeds_instr (by simp [filled_of_written hother₃, filled_true, filled_false]))
    fun W₄ _ h₄ hother₄ => ?_
  have hres₄ : W₄ res.reg := h₄ _ (h₃ _ hres₂)
  refine feeds_bind (feeds_instr (by simp [filled_of_written hother₄, filled_of_written hres₄]))
    fun W₅ _ _ hres₅ => ?_
  split
  · exact feeds_pure hres₅
  · refine feeds_bind feeds_ofExcept fun W₆ cs _ hcs => ?_
    obtain ⟨rfl, -⟩ := hcs
    have hres : ∀ c, Filled W₆ (res.component c) := fun c => (filled_of_written hres₅).component c
    refine feeds_bind (feeds_instr (by simp [hres])) fun W₇ _ h₇ hother₇ => ?_
    refine feeds_bind (feeds_instrs (cs.drop 2)
      (fun c => ⟨.min, other, [other.component .x, res.component c]⟩) fun c _ => ?_)
      fun W₈ _ h₈ _ => feeds_pure (h₈ _ hother₇)
    simp [(filled_of_written hother₇).component, (hres c).mono h₇]

/-- The code of an operator on operands of types that it takes. -/
theorem feeds_binary {op : BinaryOp} {left right type : Ty}
    (hrule : BinaryRule op left right type) (hl : Filled W l) (hr : Filled W r) :
    Feeds (α := α) W (binary op l r left right type) Filled := by
  cases op with
  | add => exact feeds_direct hl hr
  | sub => exact feeds_direct hl hr
  | mul => exact feeds_direct hl hr
  | and => exact feeds_direct hl hr
  | or => exact feeds_direct hl hr
  | div =>
    cases hrule with
    | div => exact feeds_quotient rfl hl hr
    | order hop => simp at hop
    | equate hop => simp at hop
  | pow =>
    cases hrule with
    | pow => exact feeds_power rfl hl hr
    | order hop => simp at hop
    | equate hop => simp at hop
  | lt => exact feeds_compare hl hr filled_true filled_false
  | gt => exact feeds_compare hr hl filled_true filled_false
  | le => exact feeds_compare hr hl filled_false filled_true
  | ge => exact feeds_compare hl hr filled_false filled_true
  | eq => exact feeds_mono (feeds_equal hl hr) fun _ _ _ h => filled_of_written h
  | ne =>
    refine feeds_bind (feeds_equal hl hr) fun W₁ res _ hres => ?_
    refine feeds_bind (feeds_instr (by simp [(filled_of_written hres).neg])) fun W₂ _ h₂ _ => ?_
    exact feeds_pure (filled_of_written (h₂ _ hres))
  | unknown => exact feeds_fail

/-- Each function is one instruction on its arguments. -/
theorem feeds_call {func : Bytes} {args : List Operand} (hargs : ∀ o ∈ args, Filled W o) :
    Feeds (α := α) W (call func args) Filled := by
  unfold call
  split
  · exact feeds_fail
  · split
    · exact feeds_single (by simpa using (hargs _ (by simp)).scalar)
    · exact feeds_single hargs
    · exact feeds_single hargs
    · exact feeds_fail

/-- There is a first component, so the register is written. -/
theorem feeds_assemble {args : List Operand} (hne : args ≠ []) (hargs : ∀ o ∈ args, Filled W o) :
    Feeds (α := α) W (assemble args) Filled := by
  obtain ⟨o, args, rfl⟩ := List.exists_cons_of_ne_nil hne
  refine feeds_temp_bind fun res => ?_
  refine feeds_bind (feeds_instrs (Component.all.zip (o :: args))
    (fun ca => ⟨.mov, res.component ca.1, [ca.2.scalar]⟩) fun ca hca => ?_) fun W₁ _ _ h₁ => ?_
  · simpa using (hargs ca.2 (List.of_mem_zip hca).2).scalar
  · exact feeds_pure (filled_of_written (h₁ (.x, o) (List.mem_cons_self ..)))

end Operators

section Exprs

variable {env : Env}

theorem feeds_register (henv : Nameable env) {W : Register → Prop} {ref : Ref} :
    Feeds (α := α) W (register env ref) fun W' o => W' = W ∧ IsVariable o.reg := by
  refine feeds_mono feeds_ofExcept fun W' o _ h => ?_
  obtain ⟨rfl, heq⟩ := h
  refine ⟨rfl, ?_⟩
  split at heq
  · rename_i r hr
    cases heq
    exact isVariable_of_registerOf henv hr
  · cases heq

theorem feeds_indexed (henv : Nameable env) {W : Register → Prop} {ref : Ref} {i : Int} :
    Feeds (α := α) W (indexed env ref i) fun W' o => W' = W ∧ IsVariable o.reg := by
  refine feeds_bind (feeds_register henv) fun W₁ reg _ h => ?_
  obtain ⟨rfl, hreg⟩ := h
  refine feeds_bind feeds_ofExcept fun W₂ c _ h => ?_
  obtain ⟨rfl, -⟩ := h
  exact feeds_pure ⟨rfl, hreg⟩

/-- A typed constructor has arguments. Without any, nothing would write its register. -/
theorem args_ne_nil_of_construct {decls : List Declaration} {pos : Pos} {args : List Expr}
    {s t : Ty} (h : HasType decls (.construct pos s args) t) : args ≠ [] := by
  rintro rfl
  obtain ⟨Γ, a, -, h⟩ := h
  cases h with
  | var ha _ => cases ha
  | @construct _ b n _ _ hnamed hargs =>
    have hlen := hargs.length
    rw [List.length_nil, List.length_replicate] at hlen
    subst hlen
    simp [Named] at hnamed

variable [Scalar α]

mutual

/-- **The code of an expression** is fed by what is written before it, and writes its result. -/
theorem feeds_expr (henv : Nameable env) :
    ∀ (e : Expr) {t : Ty} {W : Register → Prop}, HasType env.decls e t →
      Feeds (α := α) W (expr env e) Filled
  | .absent, _, _, _ => by rw [expr]; exact feeds_fail
  | .int _ _, _, _, _ => by rw [expr]; exact feeds_immediate
  | .float _ _, _, _, _ => by rw [expr]; exact feeds_immediate
  | .bool _ _, _, _, _ => by rw [expr]; exact feeds_immediate
  | .var _, _, _, _ => by
    rw [expr]
    exact feeds_mono (feeds_register henv) fun _ _ _ h => filled_of_isVariable h.2
  | .index _ _ _, _, _, _ => by
    rw [expr]
    exact feeds_mono (feeds_indexed henv) fun _ _ _ h => filled_of_isVariable h.2
  | .unary _ _ x _, _, _, h => by
    obtain ⟨-, u, hx, -⟩ := h.unary
    rw [expr]
    refine feeds_bind (feeds_expr henv x hx) fun W₁ value _ hvalue => ?_
    exact feeds_single (by simpa using hvalue.neg)
  | .binary _ _ l r _, _, _, h => by
    obtain ⟨rfl, u, v, hl, hr, hrule⟩ := h.binary
    rw [expr, hl.type_eq, hr.type_eq]
    refine feeds_bind (feeds_expr henv l hl) fun W₁ left _ hleft => ?_
    refine feeds_bind (feeds_expr henv r hr) fun W₂ right hle hright => ?_
    exact feeds_binary hrule (hleft.mono hle) hright
  | .call _ _ args _, _, _, h => by
    obtain ⟨f, ts, -, hargs, -⟩ := h.call
    rw [expr]
    exact feeds_bind (feeds_exprs henv args hargs) fun W₁ values _ hvalues =>
      feeds_call hvalues.2
  | .construct pos type args, _, _, h => by
    obtain ⟨-, ts, hargs⟩ := h.construct
    rw [expr]
    refine feeds_bind feeds_ofExcept fun W₁ c _ _ => ?_
    split
    · exact feeds_immediate
    · split
      · refine feeds_bind (feeds_exprs henv args hargs) fun W₂ values _ hvalues => ?_
        -- each argument writes a component, and there is at least one
        refine feeds_assemble (fun hnil => args_ne_nil_of_construct h ?_) hvalues.2
        exact List.eq_nil_of_length_eq_zero (by rw [← hvalues.1, hnil, List.length_nil])
      · exact feeds_fail

/-- Arguments from left to right: those of before stay written. -/
theorem feeds_exprs (henv : Nameable env) :
    ∀ (es : List Expr) {ts : List Ty} {W : Register → Prop}, HasTypes env.decls es ts →
      Feeds (α := α) W (exprs env es) fun W' os =>
        os.length = es.length ∧ ∀ o ∈ os, Filled W' o
  | [], _, _, _ => by
    rw [exprs]
    exact feeds_pure ⟨rfl, by simp⟩
  | e :: es, _, _, h => by
    obtain ⟨u, us, -, he, hes⟩ := h.cons
    rw [exprs]
    refine feeds_bind (feeds_expr henv e he) fun W₁ value _ hvalue => ?_
    refine feeds_bind (feeds_exprs henv es hes) fun W₂ values hle hvalues => ?_
    refine feeds_pure ⟨by rw [List.length_cons, List.length_cons, hvalues.1], ?_⟩
    exact List.forall_mem_cons.mpr ⟨hvalue.mono hle, hvalues.2⟩

end

end Exprs

/-! ## Statements -/

/-- The register of a condition, if there is one. -/
def OfCondition (cond : Option Operand) (r : Register) : Prop := ∃ o, cond = some o ∧ o.reg = r

section Stmts

variable {W : Register → Prop} {env : Env} {cond : Option Operand}

theorem feeds_target (henv : Nameable env) (e : Expr) :
    Feeds (α := α) W (target env e) fun W' o => W' = W ∧ IsVariable o.reg := by
  unfold target
  split
  · exact feeds_register henv
  · exact feeds_indexed henv
  · exact feeds_fail

/-- A write under a condition reads the register of the condition, and the variable itself to keep
its value. -/
theorem feeds_write {dst value : Operand} (hcond : ∀ r, OfCondition cond r → W r)
    (hdst : IsVariable dst.reg) (hvalue : Filled W value) :
    Feeds (α := α) W (write cond dst value) fun _ _ => True := by
  cases cond with
  | none => exact feeds_mono (feeds_instr (by simp [hvalue])) fun _ _ _ _ => trivial
  | some outer =>
    refine feeds_mono (feeds_instr ?_) fun _ _ _ _ => trivial
    have houter : Filled W outer := filled_of_written (hcond _ ⟨outer, rfl, rfl⟩)
    simp [houter, filled_of_isVariable hdst, hvalue]

theorem feeds_spread {value : Operand} (hvalue : Filled W value) :
    Feeds (α := α) W (spread value) fun W' o => W' o.reg := by
  refine feeds_temp_bind fun res => ?_
  refine feeds_bind (feeds_instrs Component.all
    (fun c => ⟨.mov, res.component c, [value.scalar]⟩) fun _ _ => ?_) fun W₁ _ _ h₁ =>
      feeds_pure (h₁ .x (by decide))
  simpa using hvalue.scalar

variable [Scalar α]

/-- The code of an assignment is fed by the register of the condition around it. -/
theorem feeds_assign (henv : Nameable env) {dst value : Expr} {t : Ty}
    (hvalue : HasType env.decls value t) :
    Feeds (α := α) (OfCondition cond) (Tracing.assign env cond dst value) fun _ _ => True := by
  refine feeds_bind (feeds_expr henv value hvalue) fun W₁ value hle hvalue => ?_
  refine feeds_bind (feeds_target henv dst) fun W₂ dst _ hdst => ?_
  obtain ⟨rfl, hdst⟩ := hdst
  exact feeds_write hle hdst hvalue

theorem feeds_setInitial (henv : Nameable env) {id : DeclId} {d : Declaration}
    (hinit : ∀ e, d.init = some e → ∃ t, HasType env.decls e t) :
    Feeds (α := α) (OfCondition cond) (Tracing.setInitial env cond id d) fun _ _ => True := by
  have hwrite : ∀ W₁ value, (∀ r, OfCondition cond r → W₁ r) → Filled W₁ value →
      Feeds (α := α) W₁ (register env { name := d.name, decl := some id } >>= fun reg =>
        write cond reg value) fun _ _ => True := by
    intro W₁ value hle hvalue
    refine feeds_bind (feeds_register henv) fun W₂ reg _ hreg => ?_
    obtain ⟨rfl, hreg⟩ := hreg
    exact feeds_write hle hreg hvalue
  unfold Tracing.setInitial
  split
  · rename_i e he
    obtain ⟨t, ht⟩ := hinit e he
    exact feeds_bind (feeds_expr henv e ht) hwrite
  · exact feeds_bind (feeds_pure (filled_of_isConstant .zero)) hwrite

/-- The condition of an `if` is in a register that its own code has written. -/
theorem feeds_ownCondition (henv : Nameable env) {e : Expr} {t : Ty} (h : HasType env.decls e t) :
    Feeds (α := α) W (Tracing.ownCondition env e) fun W' o => W' o.reg :=
  feeds_bind (feeds_expr henv e h) fun _ _ _ hvalue => feeds_spread hvalue

end Stmts

end Lower

end Shader
