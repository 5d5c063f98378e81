import Shader.Proofs.OperatorCode

/-!
# Code under a condition

The target has no branches. The code of both branches of an `if` runs, and each write in it keeps
the old value where the condition that was kept for it is negative. This file says what that code
does where it is not meant to run: under a negative condition no variable changes, whatever tree the
code was made from and whatever the registers hold.

The condition of a nested `if` is minus one where the one around it is negative, so dead code stays
dead at every depth. A condition is computed once and kept in a register of its own, so what the
branches write does not matter to it.
-/

namespace Shader

open Lower Machine
open Program (Expr Stmt)
open Number (Scalar)

namespace Lower

variable {α K : Type} [Field K] [LinearOrder K] {F : Functions K} {ρ ρ' : Registers K}
  {a a' : Allocator α} {cond : Option Operand} {code : List Line}

/-! ## Triples -/

/-- A property of registers that does not look at those in `W`. -/
def Ignores (W : Register → Prop) (I : Registers K → Prop) : Prop :=
  ∀ ρ ρ', (∀ r, ¬W r → ρ' r = ρ r) → I ρ → I ρ'

/-- `Leads F ps I J a m Q`: if the step `m` succeeds from `a`, then its result and the allocator
after it satisfy `Q`; and if its immediates are among `ps`, then its code runs, from registers in
`I` to registers in `J`. -/
def Leads (F : Functions K) (ps : List (Param α)) {β : Type} (I : Registers K → Prop)
    (J : β → Registers K → Prop) (a : Allocator α) (m : Lower α β)
    (Q : Allocator α → β → Prop) : Prop :=
  ∀ b code a', Lower.run m a = .ok (b, code, a') → a'.Tidy ∧ a.Extends a' ∧ Q a' b ∧
    (a'.program.immediates ⊆ ps → ∀ ρ, I ρ →
      ∃ ρ', Machine.run F (instructions code) ρ = some ρ' ∧ J b ρ')

/-- Code runs if its parts run one after the other. -/
theorem run_append_eq_some {is js : List Instruction} :
    Machine.run F (is ++ js) ρ = some ρ' ↔
      ∃ ρ₁, Machine.run F is ρ = some ρ₁ ∧ Machine.run F js ρ₁ = some ρ' := by
  rw [run_append]
  exact Option.bind_eq_some_iff

section Leads

variable {β γ : Type} {ps : List (Param α)} {W : Register → Prop} {I S : Registers K → Prop}
  {J : β → Registers K → Prop} {L : γ → Registers K → Prop} {m : Lower α β} {f : β → Lower α γ}
  {P : Allocator α → β → Prop} {Q : Allocator α → γ → Prop}

omit [Field K] [LinearOrder K] in
theorem Ignores.mono {W' : Register → Prop} (h : Ignores W I) (hW : ∀ r, W' r → W r) :
    Ignores W' I := fun ρ ρ' heq => h ρ ρ' fun r hr => heq r fun hr' => hr (hW r hr')

omit [Field K] [LinearOrder K] in
theorem Ignores.and (h : Ignores W I) (h' : Ignores W S) : Ignores W fun ρ => I ρ ∧ S ρ :=
  fun ρ ρ' heq hρ => ⟨h ρ ρ' heq hρ.1, h' ρ ρ' heq hρ.2⟩

theorem leads_bind (hm : Leads F ps I J a m P)
    (hf : ∀ a₁ b, a₁.Tidy → a.Extends a₁ → P a₁ b → Leads F ps (J b) L a₁ (f b) Q) :
    Leads F ps I L a (m >>= f) Q := by
  intro c lines a₂ hrun
  obtain ⟨b, code, a₁, more, h₁, h₂, rfl⟩ := run_bind_eq_ok.mp hrun
  obtain ⟨ht₁, he₁, hp, hk₁⟩ := hm b code a₁ h₁
  obtain ⟨ht₂, he₂, hq, hk₂⟩ := hf a₁ b ht₁ he₁ hp c more a₂ h₂
  refine ⟨ht₂, he₁.trans he₂, hq, fun hps ρ hρ => ?_⟩
  -- a constant of the first step is still declared behind the second
  obtain ⟨ρ₁, hm₁, hρ₁⟩ := hk₁ (fun _ h => hps (he₂.immediates h)) ρ hρ
  obtain ⟨ρ₂, hm₂, hρ₂⟩ := hk₂ hps ρ₁ hρ₁
  refine ⟨ρ₂, ?_, hρ₂⟩
  rw [instructions_append]
  exact run_append_eq_some.mpr ⟨ρ₁, hm₁, hm₂⟩

theorem leads_mono {I' : Registers K → Prop} {J' : β → Registers K → Prop}
    (hI : ∀ ρ, I' ρ → I ρ) (hm : Leads F ps I J a m P) (hJ : ∀ b ρ, J b ρ → J' b ρ) :
    Leads F ps I' J' a m P := by
  intro b code a' hrun
  obtain ⟨ht, he, hp, hk⟩ := hm b code a' hrun
  refine ⟨ht, he, hp, fun hps ρ hρ => ?_⟩
  obtain ⟨ρ', hm, hρ'⟩ := hk hps ρ (hI ρ hρ)
  exact ⟨ρ', hm, hJ b ρ' hρ'⟩

/-- What a step does not write, its code keeps. -/
theorem leads_of_emits (h : Emits W a m P) (hI : Ignores W I) :
    Leads F ps I (fun _ => I) a m P := by
  intro b code a' hrun
  obtain ⟨ht, he, hcode, hp⟩ := h b code a' hrun
  refine ⟨ht, he, hp, fun _ ρ hρ => ?_⟩
  obtain ⟨ρ', hm⟩ := exists_run (F := F) (fun i hi => (hcode i hi).1) ρ
  exact ⟨ρ', hm, hI ρ ρ' (fun r hr => h.frame hrun hm hr) hρ⟩

/-- The frame rule: what does not look at the registers that a step writes is kept. -/
theorem leads_frame {P' : Allocator α → β → Prop} (h : Leads F ps I J a m P)
    (hemits : Emits W a m P') (hS : Ignores W S) :
    Leads F ps (fun ρ => S ρ ∧ I ρ) (fun b ρ => S ρ ∧ J b ρ) a m P := by
  intro b code a' hrun
  obtain ⟨ht, he, hp, hk⟩ := h b code a' hrun
  refine ⟨ht, he, hp, fun hps ρ hρ => ?_⟩
  obtain ⟨ρ', hm, hρ'⟩ := hk hps ρ hρ.2
  exact ⟨ρ', hm, hS ρ ρ' (fun r hr => hemits.frame hrun hm hr) hρ.1, hρ'⟩

end Leads

/-! ## Conditions -/

/-- The condition around a statement: a register that was handed out before. -/
def Outer (a : Allocator α) (cond : Option Operand) : Prop :=
  ∀ o, cond = some o → ∃ k, o = .of (.longLived k) ∧ k < a.conditions

/-- Code under no condition, or under one that is not negative. -/
def Live (cond : Option Operand) (ρ : Registers K) : Prop :=
  ∀ o, cond = some o → ∃ x, read ρ o = some (.splat x) ∧ ¬x < 0

/-- Code under a condition that is negative. -/
def Dead (cond : Option Operand) (ρ : Registers K) : Prop :=
  ∃ o x, cond = some o ∧ read ρ o = some (.splat x) ∧ x < 0

theorem Outer.plain (h : Outer a cond) : PlainCondition cond := by
  intro o ho
  obtain ⟨k, rfl, -⟩ := h o ho
  exact Operand.plain_of _

/-- Registers that were handed out before stay so. -/
theorem Outer.mono {a₁ : Allocator α} (h : Outer a cond) (he : a.Extends a₁) : Outer a₁ cond := by
  intro o ho
  obtain ⟨k, rfl, hk⟩ := h o ho
  exact ⟨k, rfl, Nat.lt_of_lt_of_le hk he.conditions⟩

theorem outer_some {k : Nat} (h : k < a.conditions) : Outer a (some (.of (.longLived k))) := by
  intro o ho
  cases ho
  exact ⟨k, rfl, h⟩

omit [LinearOrder K] in
/-- What a statement may write is not the register of a condition around it. -/
theorem Outer.read_eq (h : Outer a cond) {o : Operand} (ho : cond = some o)
    (heq : ∀ r, ¬Written a.conditions r → ρ' r = ρ r) : read ρ' o = read ρ o := by
  obtain ⟨k, rfl, hk⟩ := h o ho
  refine read_congr (heq _ ?_)
  rintro ((_ | hle) | hvar)
  · exact absurd hk (Nat.not_lt.mpr hle)
  · cases hvar

/-- The code of a statement does not write the condition around it, so what is live stays live. -/
theorem Outer.ignores_live (h : Outer a cond) :
    Ignores (Written a.conditions) (Live (K := K) cond) := by
  intro ρ ρ' heq hlive o ho
  obtain ⟨x, hread, hx⟩ := hlive o ho
  exact ⟨x, (h.read_eq ho heq).trans hread, hx⟩

omit [LinearOrder K] in
theorem HasTruth.congr (h : HasTruth ρ) (heq : ∀ r, IsConstant r → ρ' r = ρ r) : HasTruth ρ' where
  yes := (heq _ (.truth true)).trans h.yes
  no := (heq _ (.truth false)).trans h.no

/-- Registers under which code is dead: its condition is negative, and the truth values are
there. -/
def Off (cond : Option Operand) (ρ : Registers K) : Prop := HasTruth ρ ∧ Dead cond ρ

/-- And what is dead stays dead. -/
theorem Outer.ignores_off (h : Outer a cond) :
    Ignores (Written a.conditions) (Off (K := K) cond) := by
  rintro ρ ρ' heq ⟨htruth, o, x, ho, hread, hx⟩
  exact ⟨htruth.congr fun r hr => heq r (not_written_of_isConstant hr), o, x, ho,
    (h.read_eq ho heq).trans hread, hx⟩

/-! ## Writes -/

omit [LinearOrder K] in
/-- Writing back what a destination holds changes nothing. -/
theorem write_read {o : Operand} {u : Vec K} (ho : IsTarget o) (h : read ρ o = some u) :
    Machine.write ρ o u = some ρ := by
  obtain ⟨r, select, negated⟩ := o
  obtain ⟨-, hplain, hpos⟩ := ho
  cases hpos
  cases select with
  | whole =>
    cases h
    exact congrArg some (Function.update_eq_self _ _)
  | one c =>
    cases h
    show some (Function.update ρ r (Function.update (ρ r) c (ρ r c))) = some ρ
    rw [Function.update_eq_self, Function.update_eq_self]
  | other t => exact absurd rfl (hplain t)

theorem run_write_allocator {dst value : Operand} {u : Unit}
    (hrun : Lower.run (write cond dst value) a = .ok (u, code, a')) : a' = a := by
  cases cond <;> cases hrun <;> rfl

/-- Under a condition that is not negative, a write writes. -/
theorem run_write_live {dst value : Operand} {v : Vec K} (hlive : Live cond ρ)
    (hdst : IsTarget dst) (hv : read ρ value = some v) {u : Unit}
    (hrun : Lower.run (write cond dst value) a = .ok (u, code, a')) :
    Machine.run F (instructions code) ρ = Machine.write ρ dst v := by
  cases cond with
  | none =>
    cases hrun
    show Machine.run F [⟨.mov, dst, [value]⟩] ρ = _
    rw [run_singleton, step, List.mapM_cons, hv, List.mapM_nil]
    rfl
  | some o =>
    cases hrun
    obtain ⟨x, hread, hx⟩ := hlive o rfl
    obtain ⟨w, hw⟩ := exists_read hdst.2.1 ρ
    show Machine.run F [⟨.cmp, dst, [o, dst, value]⟩] ρ = _
    rw [run_singleton, step, List.mapM_cons, hread, List.mapM_cons, hw, List.mapM_cons, hv,
      List.mapM_nil]
    show Machine.write ρ dst (fun c => if x < 0 then w c else v c) = _
    simp only [if_neg hx]

/-- **Under a negative one it writes back what was there.** -/
theorem run_write_dead {dst value : Operand} (hdead : Dead cond ρ) (hdst : IsTarget dst)
    (hvalue : value.Plain) {u : Unit}
    (hrun : Lower.run (write cond dst value) a = .ok (u, code, a')) :
    Machine.run F (instructions code) ρ = some ρ := by
  obtain ⟨o, x, rfl, hread, hx⟩ := hdead
  cases hrun
  obtain ⟨w, hw⟩ := exists_read hdst.2.1 ρ
  obtain ⟨v, hv⟩ := exists_read hvalue ρ
  show Machine.run F [⟨.cmp, dst, [o, dst, value]⟩] ρ = _
  rw [run_singleton, step, List.mapM_cons, hread, List.mapM_cons, hw, List.mapM_cons, hv,
    List.mapM_nil]
  show Machine.write ρ dst (fun c => if x < 0 then w c else v c) = _
  simp only [if_pos hx]
  exact write_read hdst hw

/-! ## The condition of an `if` -/

/-- The instruction that sets the condition of an `if`. -/
def combine (cond : Option Operand) (k : Nat) (own : Operand) : Instruction :=
  match cond with
  | none => ⟨.mov, .of (.longLived k), [own]⟩
  | some outer => ⟨.cmp, .of (.longLived k), [outer, falseOperand, own]⟩

/-- What entering an `if` emits. -/
theorem run_enterIf_eq_ok [Scalar α] {env : Env} {e : Expr} {o : Operand}
    (hrun : Lower.run (enterIf env cond e) a = .ok (o, code, a')) :
    ∃ v code₁ a₁ own code₂ a₂, Lower.run (expr env e) a.reset = .ok (v, code₁, a₁) ∧
      Lower.run (spread v) a₁ = .ok (own, code₂, a₂) ∧ o = .of (.longLived a₂.conditions) ∧
      a' = a₂.longLived.2 ∧ instructions code =
        instructions code₁ ++ (instructions code₂ ++ [combine cond a₂.conditions own]) := by
  -- two lines without code and a new session come first
  obtain ⟨_, _, a₁, rest₁, h, hrest₁, rfl⟩ := run_bind_eq_ok.mp hrun
  cases h
  obtain ⟨_, _, a₂, rest₂, h, hrest₂, rfl⟩ := run_bind_eq_ok.mp hrest₁
  cases h
  obtain ⟨_, _, a₃, rest₃, h, hrest₃, rfl⟩ := run_bind_eq_ok.mp hrest₂
  cases h
  obtain ⟨v, code₁, a₄, rest₄, hv, hrest₄, rfl⟩ := run_bind_eq_ok.mp hrest₃
  obtain ⟨own, code₂, a₅, rest₅, hown, hrest₅, rfl⟩ := run_bind_eq_ok.mp hrest₄
  obtain ⟨combined, _, a₆, rest₆, h, hrest₆, rfl⟩ := run_bind_eq_ok.mp hrest₅
  cases h
  refine ⟨v, code₁, a₄, own, code₂, a₅, hv, hown, ?_⟩
  cases cond with
  | none =>
    cases hrest₆
    refine ⟨rfl, rfl, ?_⟩
    show instructions (code₁ ++ (code₂ ++ _)) = _
    rw [instructions_append, instructions_append]
    rfl
  | some outer =>
    cases hrest₆
    refine ⟨rfl, rfl, ?_⟩
    show instructions (code₁ ++ (code₂ ++ _)) = _
    rw [instructions_append, instructions_append]
    rfl

/-- What entering an `else` emits. -/
theorem run_enterElse_eq_ok {k : Nat} {u : Unit}
    (hrun : Lower.run (enterElse cond (.of (.longLived k))) a = .ok (u, code, a')) :
    a' = a ∧ instructions code = [combine cond k (Operand.of (.longLived k)).neg] := by
  cases cond <;> cases hrun <;> exact ⟨rfl, rfl⟩

/-- Within live code the condition of an `if` is its own. -/
theorem step_combine_live {own : Operand} {v : Vec K} {k : Nat} (hlive : Live cond ρ)
    (hρ : HasTruth ρ) (hown : read ρ own = some v) :
    step F ρ (combine cond k own) = some (Function.update ρ (.longLived k) v) := by
  cases cond with
  | none => exact step_one hown rfl
  | some outer =>
    obtain ⟨x, hread, hx⟩ := hlive outer rfl
    refine (step_cmp hread hρ.read_false hown).trans ?_
    exact congrArg (fun w => some (Function.update ρ _ w)) (funext fun c => if_neg hx)

/-- **Within dead code it is false, whatever its own is.** -/
theorem step_combine_dead {own : Operand} {v : Vec K} {k : Nat} (hoff : Off cond ρ)
    (hown : read ρ own = some v) :
    step F ρ (combine cond k own) =
      some (Function.update ρ (.longLived k) (.splat (truth false))) := by
  obtain ⟨htruth, outer, x, rfl, hread, hx⟩ := hoff
  refine (step_cmp hread htruth.read_false hown).trans ?_
  exact congrArg (fun w => some (Function.update ρ _ w)) (funext fun c => if_pos hx)

/-- The registers a condition is made from: only scratch registers differ from before. -/
theorem frame_condition [Scalar α] {env : Env} (henv : Nameable env) (ha : a.Tidy) {e : Expr}
    {v own : Operand} {code₁ code₂ : List Line} {a₁ a₂ : Allocator α}
    (hv : Lower.run (expr env e) a.reset = .ok (v, code₁, a₁))
    (hown : Lower.run (spread v) a₁ = .ok (own, code₂, a₂)) :
    own.Plain ∧ ∀ {ρ ρ₁ ρ₂ : Registers K}, Machine.run F (instructions code₁) ρ = some ρ₁ →
      Machine.run F (instructions code₂) ρ₁ = some ρ₂ →
      ∀ r, ¬Auxiliary a.conditions r → ρ₂ r = ρ r := by
  have hvalue : Emits (Auxiliary a.conditions) a.reset (expr env e) fun _ o => o.Plain :=
    emits_value henv ha.reset e
  obtain ⟨h₁, -, -, hplain⟩ := hvalue _ _ _ hv
  have hspread := emits_spread h₁ (Nat.le_refl _) hplain
  obtain ⟨-, -, -, hleaves⟩ := hspread _ _ _ hown
  refine ⟨hleaves.2.plain, fun hm₁ hm₂ r hr => ?_⟩
  rw [hspread.frame hown hm₂ fun h => hr h.auxiliary, hvalue.frame hv hm₁ hr]

/-! ## Dead code -/

/-- A property of registers that only looks at variables. -/
def OfVariables (V : Registers K → Prop) : Prop := Ignores (fun r => ¬IsVariable r) V

/-- `Idle F ps V cond a m Q`: under a condition that is negative, the code of the step `m` keeps
what holds of the variables. -/
def Idle (F : Functions K) (ps : List (Param α)) (V : Registers K → Prop) (cond : Option Operand)
    (a : Allocator α) {β : Type} (m : Lower α β) (Q : Allocator α → β → Prop) : Prop :=
  Leads F ps (fun ρ => Off cond ρ ∧ V ρ) (fun _ ρ => Off cond ρ ∧ V ρ) a m Q

section Dead

variable {ps : List (Param α)} {V : Registers K → Prop}

/-- Code that writes no variables keeps them, under any condition. -/
theorem idle_of_emits {β : Type} {m : Lower α β} {P : Allocator α → β → Prop} (hV : OfVariables V)
    {a₀ : Allocator α} (houter : Outer a₀ cond) (h : Emits (Auxiliary a₀.conditions) a m P) :
    Idle F ps V cond a m P := by
  refine leads_of_emits h (Ignores.and ?_ ?_)
  · exact houter.ignores_off.mono fun _ h => .inl h
  · exact hV.mono fun _ h hvar => not_auxiliary_of_isVariable hvar h

/-- A write does in dead code what `run_write_dead` says. -/
theorem idle_write {dst value : Operand} (ha : a.Tidy) (hdst : IsTarget dst)
    (hvalue : value.Plain) : Idle F ps V cond a (write cond dst value) fun _ _ => True := by
  intro u code a' hrun
  obtain rfl := run_write_allocator hrun
  refine ⟨ha, .refl a', trivial, fun _ ρ hρ => ⟨ρ, ?_, hρ⟩⟩
  exact run_write_dead hρ.1.2 hdst hvalue hrun

variable [Scalar α] {env : Env}

/-- A declaration in dead code does not even set its variable. -/
theorem idle_decl (henv : Nameable env) (hV : OfVariables V) (ha : a.Tidy)
    (houter : Outer a cond) (id : DeclId) :
    Idle F ps V cond a (decl env cond id) fun _ _ => True := by
  by_cases hmutable : ∃ d, env.decls[id]? = some d ∧ d.isConst = false
  · obtain ⟨d, hd, hc⟩ := hmutable
    rw [decl_of_mutable hd hc]
    exact leads_bind (idle_of_emits hV houter (emits_declOperands henv ha id d))
      fun a₁ o h₁ _ ho => idle_write h₁ ho.1 ho.2
  · rw [decl_of_not_mutable hmutable]
    exact idle_of_emits hV houter (emits_pure ha trivial)

theorem idle_decls (henv : Nameable env) (hV : OfVariables V) :
    ∀ (ids : List DeclId) {a : Allocator α}, a.Tidy → Outer a cond →
      Idle F ps V cond a (decls env cond ids) fun _ _ => True
  | [], _, ha, houter => idle_of_emits hV houter (emits_pure ha trivial)
  | id :: ids, _, ha, houter =>
    leads_bind (idle_decl henv hV ha houter id) fun _ _ h₁ e₁ _ =>
      idle_decls henv hV ids h₁ (houter.mono e₁)

theorem idle_assign (henv : Nameable env) (hV : OfVariables V) (ha : a.Tidy)
    (houter : Outer a cond) (pos : Pos) (dst value : Expr) :
    Idle F ps V cond a (stmt env cond (.assign pos dst value)) fun _ _ => True := by
  rw [stmt_assign]
  exact leads_bind (idle_of_emits hV houter (emits_assignOperands henv ha dst value))
    fun a₁ o h₁ _ ho => idle_write h₁ ho.1 ho.2

omit [Scalar α] in
/-- A condition that is set under a negative one is negative. -/
theorem off_combine [IsStrictOrderedRing K] {k : Nat} {own : Operand} (hoff : Off cond ρ)
    (hown : own.Plain) (hm : Machine.run F [combine cond k own] ρ = some ρ')
    (htruth : HasTruth ρ') :
    Off (some (.of (.longLived k))) ρ' := by
  obtain ⟨w, hw⟩ := exists_read hown ρ
  rw [run_singleton, step_combine_dead hoff hw] at hm
  cases hm
  refine ⟨htruth, _, truth false, rfl, ?_, truth_false_lt⟩
  rw [read_of, Function.update_self]

/-- The condition of an `if` is negative under one that is, whatever its own value. -/
theorem idle_enterIf [IsStrictOrderedRing K] (henv : Nameable env) (hV : OfVariables V)
    (ha : a.Tidy) (houter : Outer a cond) (e : Expr) :
    Leads F ps (fun ρ => Off cond ρ ∧ V ρ) (fun o ρ => Off cond ρ ∧ Off (some o) ρ ∧ V ρ) a
      (enterIf env cond e) fun a' o =>
        ∃ k, o = .of (.longLived k) ∧ a.conditions ≤ k ∧ k < a'.conditions := by
  intro o code a' hrun
  have hidle : Idle F ps V cond a (enterIf env cond e) _ :=
    idle_of_emits hV houter (emits_enterIf henv ha houter.plain e)
  obtain ⟨ht, he, ho, hkeep⟩ := hidle o code a' hrun
  refine ⟨ht, he, ho, fun hps ρ hρ => ?_⟩
  obtain ⟨ρ', hm, hoff, hvar⟩ := hkeep hps ρ hρ
  refine ⟨ρ', hm, hoff, ?_, hvar⟩
  obtain ⟨v, code₁, a₁, own, code₂, a₂, hv, hown, rfl, rfl, hcode⟩ := run_enterIf_eq_ok hrun
  obtain ⟨hplain, hframe⟩ := frame_condition (F := F) henv ha hv hown
  rw [hcode] at hm
  obtain ⟨ρ₁, hm₁, hm⟩ := run_append_eq_some.mp hm
  obtain ⟨ρ₂, hm₂, hm₃⟩ := run_append_eq_some.mp hm
  -- the outer condition is still negative when the new one is set
  have hoff₂ : Off cond ρ₂ := houter.ignores_off ρ ρ₂
    (fun r hr => hframe hm₁ hm₂ r fun h => hr (.inl h)) hρ.1
  exact off_combine hoff₂ hplain hm₃ hoff.1

omit [Scalar α] in
theorem idle_enterElse [IsStrictOrderedRing K] (hV : OfVariables V) {a₀ : Allocator α} {k : Nat}
    (ha : a.Tidy) (houter : Outer a₀ cond) (hk : a₀.conditions ≤ k) :
    Leads F ps (fun ρ => Off cond ρ ∧ V ρ)
      (fun _ ρ => Off cond ρ ∧ Off (some (.of (.longLived k))) ρ ∧ V ρ) a
      (enterElse cond (.of (.longLived k))) fun a' _ => a' = a := by
  intro u code a' hrun
  have hidle : Idle F ps V cond a (enterElse cond (.of (.longLived k))) _ :=
    idle_of_emits hV houter (emits_enterElse ha houter.plain hk)
  obtain ⟨ht, he, hsame, hkeep⟩ := hidle u code a' hrun
  refine ⟨ht, he, hsame, fun hps ρ hρ => ?_⟩
  obtain ⟨ρ', hm, hoff, hvar⟩ := hkeep hps ρ hρ
  refine ⟨ρ', hm, hoff, ?_, hvar⟩
  rw [(run_enterElse_eq_ok hrun).2] at hm
  exact off_combine hρ.1 (Operand.plain_of _).neg hm hoff.1

mutual

/-- **Dead code changes no variable.** -/
theorem idle_stmt [IsStrictOrderedRing K] (henv : Nameable env) (hV : OfVariables V) :
    ∀ (st : Stmt) {cond : Option Operand} {a : Allocator α}, a.Tidy → Outer a cond →
      Idle F ps V cond a (stmt env cond st) fun _ _ => True
  | .absent, _, _, _, _ => by
    rw [stmt]
    intro _ _ _ hrun
    cases hrun
  | .assign pos dst value, _, _, ha, houter => idle_assign henv hV ha houter pos dst value
  | .branch e yes none, cond, a, ha, houter => by
    rw [stmt]
    refine leads_bind (idle_enterIf henv hV ha houter e) fun a₁ combined h₁ e₁ hcombined => ?_
    obtain ⟨k, rfl, -, hk⟩ := hcombined
    exact idle_branch henv hV yes h₁ (houter.mono e₁) (outer_some hk)
  | .branch e yes (some no), cond, a, ha, houter => by
    rw [stmt]
    refine leads_bind (idle_enterIf henv hV ha houter e) fun a₁ combined h₁ e₁ hcombined => ?_
    obtain ⟨k, rfl, hle, hk⟩ := hcombined
    -- both branches are dead, and so is the code between them
    have hinner := outer_some hk
    refine leads_bind (idle_branch henv hV yes h₁ (houter.mono e₁) hinner) fun a₂ _ h₂ e₂ _ => ?_
    refine leads_bind (idle_enterElse hV h₂ houter hle) fun a₃ _ h₃ e₃ _ => ?_
    exact idle_branch henv hV no h₃ (houter.mono ((e₁.trans e₂).trans e₃))
      (hinner.mono (e₂.trans e₃))
  | .loop _ _ _, _, _, _, _ => by
    rw [stmt]
    intro _ _ _ hrun
    cases hrun
  | .scope ids ss, _, _, ha, houter => by
    rw [stmt]
    exact leads_bind (idle_decls henv hV ids ha houter) fun _ _ h₁ e₁ _ =>
      idle_stmts henv hV ss h₁ (houter.mono e₁)

/-- A branch is dead under its own condition, and keeps the one around it. -/
theorem idle_branch [IsStrictOrderedRing K] (henv : Nameable env) (hV : OfVariables V) (st : Stmt)
    {cond inner : Option Operand} {a : Allocator α} (ha : a.Tidy) (houter : Outer a cond)
    (hinner : Outer a inner) :
    Leads F ps (fun ρ => Off cond ρ ∧ Off inner ρ ∧ V ρ) (fun _ ρ => Off cond ρ ∧ V ρ) a
      (stmt env inner st) fun _ _ => True :=
  leads_mono (fun _ h => h) (leads_frame (idle_stmt henv hV st ha hinner)
    (emits_stmt henv st ha hinner.plain) houter.ignores_off) fun _ _ h => ⟨h.1, h.2.2⟩

theorem idle_stmts [IsStrictOrderedRing K] (henv : Nameable env) (hV : OfVariables V) :
    ∀ (ss : List Stmt) {cond : Option Operand} {a : Allocator α}, a.Tidy → Outer a cond →
      Idle F ps V cond a (stmts env cond ss) fun _ _ => True
  | [], _, _, ha, houter => by
    rw [stmts]
    exact idle_of_emits hV houter (emits_pure ha trivial)
  | s :: ss, _, _, ha, houter => by
    rw [stmts]
    exact leads_bind (idle_stmt henv hV s ha houter) fun _ _ h₁ e₁ _ =>
      idle_stmts henv hV ss h₁ (houter.mono e₁)

end

end Dead

end Lower

end Shader
