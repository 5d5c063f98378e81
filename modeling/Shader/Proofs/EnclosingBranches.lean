import Shader.Proofs.Preservation
import Shader.Proofs.WriteSites

/-!
# The branches around a write

Every write of a program stands in some branches, and all that keeps it from taking effect is one
register: the condition that the innermost `if` around it has combined with those further out. This
file says that the register is exact. Where the write is reached, it holds one number in all
components, and the number is not negative just if every branch around the write is taken. What
decides a branch is the value of its condition when that was evaluated, so it does not matter what
has been written since.

Nothing here asks for a checked program. The conditions may be numbers or vectors of any kind.
-/

namespace Shader

open Lower Machine
open Program (Expr Stmt)
open Number (Scalar)

namespace Lower

/-! ## What decides a branch -/

section Conditions

variable {α K : Type} [Field K] [LinearOrder K] {F : Functions K} {ρ₀ ρ ρ' : Registers K}
  {x : Around} {g : Guard} {guards : List Guard} {cond : Option Operand} {c : K}

/-- The number that decides a branch in a run from `ρ₀`: the first component of the value that the
condition had when it was evaluated. -/
def Guard.number? (F : Functions K) (ρ₀ : Registers K) (g : Guard) : Option K := do
  let ρ ← Machine.run F g.before ρ₀
  let v ← read ρ g.value
  return v .x

/-- A branch is taken if its condition is not negative, and an `else` if the opposite is not. -/
def Guard.Taken (F : Functions K) (ρ₀ : Registers K) (g : Guard) : Prop :=
  ∃ c, g.number? F ρ₀ = some c ∧ ¬(if g.isElse then -c else c) < 0

theorem Guard.number?_eq_some {v : Vec K} (hrun : Machine.run F g.before ρ₀ = some ρ)
    (hread : read ρ g.value = some v) : g.number? F ρ₀ = some (v .x) := by
  rw [number?, hrun]
  show (read ρ g.value >>= fun v => pure (v .x)) = _
  rw [hread]
  rfl

theorem Guard.taken_iff (h : g.number? F ρ₀ = some c) :
    g.Taken F ρ₀ ↔ ¬(if g.isElse then -c else c) < 0 := by
  constructor
  · rintro ⟨c', hc', htaken⟩
    cases h.symm.trans hc'
    exact htaken
  · intro htaken
    exact ⟨c, h, htaken⟩

/-- The combined condition says whether every branch is taken. -/
def Decided (F : Functions K) (ρ₀ : Registers K) (guards : List Guard) (cond : Option Operand)
    (ρ : Registers K) : Prop :=
  (Live cond ρ ∧ ∀ g ∈ guards, g.Taken F ρ₀) ∨ (Dead cond ρ ∧ ∃ g ∈ guards, ¬g.Taken F ρ₀)

theorem Outer.ignores_dead {a : Allocator α} (h : Outer a cond) :
    Ignores (Written a.conditions) (Dead (K := K) cond) := by
  rintro ρ ρ' heq ⟨o, c, ho, hread, hc⟩
  exact ⟨o, c, ho, (h.read_eq ho heq).trans hread, hc⟩

theorem Outer.ignores_decided {a : Allocator α} (h : Outer a cond) :
    Ignores (Written a.conditions) (Decided F ρ₀ guards cond) := by
  rintro ρ ρ' heq (⟨hlive, hall⟩ | ⟨hdead, hone⟩)
  · exact .inl ⟨h.ignores_live ρ ρ' heq hlive, hall⟩
  · exact .inr ⟨h.ignores_dead ρ ρ' heq hdead, hone⟩

theorem Live.not_dead (h : Live cond ρ) : ¬Dead cond ρ := by
  rintro ⟨o, c, ho, hread, hc⟩
  obtain ⟨d, hread', hd⟩ := h o ho
  have hsame : Vec.splat d = Vec.splat c := Option.some.inj (hread'.symm.trans hread)
  have hsame : d = c := congrFun hsame .x
  exact hd (hsame ▸ hc)

/-- **One more branch.** Setting a condition under one that is exact gives an exact condition of all
branches. Under a negative one it does not matter what the new one is made from. -/
theorem exists_step_combine [IsStrictOrderedRing K] (h : Decided F ρ₀ guards cond ρ)
    (htruth : HasTruth ρ) {own : Operand} (hplain : own.Plain)
    (hown : Dead cond ρ ∨ read ρ own = some (.splat c)) (hg : g.Taken F ρ₀ ↔ ¬c < 0) (k : Nat) :
    ∃ ρ', step F ρ (combine cond k own) = some ρ' ∧
      Decided F ρ₀ (g :: guards) (some (.of (.longLived k))) ρ' ∧
      (Dead cond ρ ∨ ρ' (.longLived k) = .splat c) := by
  rcases h with ⟨hlive, hall⟩ | ⟨hdead, g', hg', hnot⟩
  · have hown := hown.resolve_left hlive.not_dead
    refine ⟨_, step_combine_live hlive htruth hown, ?_, .inr (Function.update_self _ _ _)⟩
    by_cases hc : c < 0
    · refine .inr ⟨⟨_, c, rfl, ?_, hc⟩, g, List.mem_cons_self, fun htaken => hg.mp htaken hc⟩
      rw [read_of, Function.update_self]
    · refine .inl ⟨?_, List.forall_mem_cons.mpr ⟨hg.mpr hc, hall⟩⟩
      intro o ho
      cases ho
      refine ⟨c, ?_, hc⟩
      rw [read_of, Function.update_self]
  · obtain ⟨w, hw⟩ := exists_read hplain ρ
    refine ⟨_, step_combine_dead ⟨htruth, hdead⟩ hw, ?_, .inl hdead⟩
    refine .inr ⟨⟨_, truth false, rfl, ?_, truth_false_lt⟩, g', List.mem_cons_of_mem _ hg', hnot⟩
    rw [read_of, Function.update_self]

/-! ## Reaching a place -/

/-- The run from `ρ₀` has reached the place `x` with the registers `ρ`, and there the combined
condition is exact. Code generation is at `a`. -/
structure Stands (F : Functions K) (ρ₀ : Registers K) (x : Around) (a : Allocator α)
    (ρ : Registers K) : Prop where
  reached : Machine.run F x.before ρ₀ = some ρ
  tidy : a.Tidy
  outer : Outer a x.cond
  /-- There is a condition just if there is a branch. -/
  guarded : x.cond = none ↔ x.guards = []
  truth : HasTruth ρ
  evaluated : ∀ g ∈ x.guards, g.before <+: x.before ∧ ∃ c, g.number? F ρ₀ = some c
  decided : Decided F ρ₀ x.guards x.cond ρ

variable {a a' : Allocator α} {code : List Line}

/-- Code that does not write the condition, nor any constant, leaves it exact. -/
theorem Stands.behind {β : Type} {m : Lower α β} {b : β} {Q : Allocator α → β → Prop}
    (h : Stands F ρ₀ x a ρ) (hm : Emits (Written a.conditions) a m Q)
    (hrun : run m a = .ok (b, code, a')) :
    ∃ ρ', Machine.run F (instructions code) ρ = some ρ' ∧
      (∀ r, ¬Written a.conditions r → ρ' r = ρ r) ∧ Stands F ρ₀ (x.behind code) a' ρ' := by
  obtain ⟨ht, he, hcode, -⟩ := hm b code a' hrun
  obtain ⟨ρ', hρ'⟩ := exists_run (F := F) (fun i hi => (hcode i hi).1) ρ
  have heq : ∀ r, ¬Written a.conditions r → ρ' r = ρ r := fun r hr => hm.frame hrun hρ' hr
  refine ⟨ρ', hρ', heq, ?_⟩
  exact {
    reached := run_append_eq_some.mpr ⟨ρ, h.reached, hρ'⟩
    tidy := ht
    outer := h.outer.mono he
    guarded := h.guarded
    truth := h.truth.congr fun r hr => heq r (not_written_of_isConstant hr)
    evaluated := fun g hg =>
      ⟨(h.evaluated g hg).1.trans (List.prefix_append _ _), (h.evaluated g hg).2⟩
    decided := h.outer.ignores_decided ρ ρ' heq h.decided }

/-- Entering a branch: the condition that is set for it is exact for the branches around and this
one. -/
theorem Stands.enter [IsStrictOrderedRing K] {is : List Instruction} {ρ₁ : Registers K}
    (h : Stands F ρ₀ x a ρ)
    (hnumber : g.number? F ρ₀ = some c) (hbefore : g.before <+: x.before ++ is)
    (hreached : Machine.run F (x.before ++ is) ρ₀ = some ρ₁)
    (heq : ∀ r, ¬Written a.conditions r → ρ₁ r = ρ r) {own : Operand} (hplain : own.Plain)
    (hown : Dead x.cond ρ₁ ∨ read ρ₁ own = some (.splat (if g.isElse then -c else c)))
    {k : Nat} (ht : a'.Tidy) (hk : k < a'.conditions) :
    ∃ ρ', step F ρ₁ (combine x.cond k own) = some ρ' ∧
      (Dead x.cond ρ₁ ∨ ρ' (.longLived k) = .splat (if g.isElse then -c else c)) ∧
      Stands F ρ₀ ⟨x.before ++ is ++ [combine x.cond k own], g :: x.guards,
        some (.of (.longLived k))⟩ a' ρ' := by
  have htruth : HasTruth ρ₁ := h.truth.congr fun r hr => heq r (not_written_of_isConstant hr)
  obtain ⟨ρ', hstep, hdecided, hvalue⟩ := exists_step_combine
    (h.outer.ignores_decided ρ ρ₁ heq h.decided) htruth hplain hown (Guard.taken_iff hnumber) k
  refine ⟨ρ', hstep, hvalue, ?_⟩
  -- with a condition around it or without, the combination goes to the same register
  have hdst : (combine x.cond k own).dst = .of (.longLived k) := by cases x.cond <;> rfl
  exact {
    reached := run_append_eq_some.mpr ⟨ρ₁, hreached, (run_singleton _ _).trans hstep⟩
    tidy := ht
    outer := outer_some hk
    guarded := by simp
    truth := htruth.congr fun r hr => by
      refine step_of_ne hstep ?_
      rw [hdst]
      rintro rfl
      cases hr
    evaluated := by
      refine List.forall_mem_cons.mpr ⟨⟨hbefore.trans (List.prefix_append _ _), c, hnumber⟩, ?_⟩
      intro g' hg'
      obtain ⟨hprev, hnum⟩ := h.evaluated g' hg'
      refine ⟨hprev.trans ?_, hnum⟩
      rw [List.append_assoc]
      exact List.prefix_append _ _
    decided := hdecided }

/-- The `else` of an `if`, behind the first branch. -/
theorem Stands.enterElse [IsStrictOrderedRing K] (h : Stands F ρ₀ x a ρ)
    (hnumber : g.number? F ρ₀ = some c) (hbefore : g.before <+: x.before)
    (helse : g.isElse = true) {k : Nat} (hk : k < a.conditions)
    (hkept : Dead x.cond ρ ∨ ρ (.longLived k) = .splat c) {u : Unit}
    (hrun : run (Lower.enterElse x.cond (.of (.longLived k))) a = .ok (u, code, a')) :
    ∃ ρ', Stands F ρ₀
      ⟨x.before ++ instructions code, g :: x.guards, some (.of (.longLived k))⟩ a' ρ' := by
  obtain ⟨rfl, hcode⟩ := run_enterElse_eq_ok hrun
  have hreached : Machine.run F (x.before ++ []) ρ₀ = some ρ := by
    rw [List.append_nil]
    exact h.reached
  have hown : Dead x.cond ρ ∨ read ρ (Operand.of (.longLived k)).neg =
      some (.splat (if g.isElse then -c else c)) := by
    refine hkept.imp_right fun hvalue => ?_
    rw [read_neg (read_of ρ _), hvalue, helse]
    rfl
  obtain ⟨ρ', -, -, hinside⟩ := h.enter hnumber (hbefore.trans (List.prefix_append _ _)) hreached
    (fun _ _ => rfl) (Operand.plain_of _).neg hown h.tidy hk
  rw [List.append_nil, ← hcode] at hinside
  exact ⟨ρ', hinside⟩

variable [Scalar α] {env : Env}

/-- The first branch of an `if`. Behind the code that enters it, the condition has the value of the
expression, unless the whole `if` is dead. -/
theorem Stands.enterIf [IsStrictOrderedRing K] (henv : Nameable env) (h : Stands F ρ₀ x a ρ)
    {e : Expr} {value own : Operand} {evaluation : List Line} {a₀ : Allocator α}
    (hvalue : run (evaluate env e) a = .ok (value, evaluation, a₀))
    (hrun : run (Lower.enterIf env x.cond e) a = .ok (own, code, a')) :
    ∃ k c ρ', own = .of (.longLived k) ∧ k < a'.conditions ∧
      (∀ isElse, (Guard.mk (x.before ++ instructions evaluation) value isElse).number? F ρ₀ =
        some c) ∧
      (Dead x.cond ρ' ∨ ρ' (.longLived k) = .splat c) ∧
      Stands F ρ₀ (x.behind code) a' ρ' ∧
      Stands F ρ₀ (x.inside evaluation value false own code) a' ρ' := by
  have hemits : Emits (Written a.conditions) a (Lower.enterIf env x.cond e) _ :=
    emits_mono (emits_enterIf henv h.tidy h.outer.plain e) (fun _ h => .inl h) fun _ _ h => h
  obtain ⟨ht, -, -, -⟩ := hemits _ _ _ hrun
  obtain ⟨ρ', hall, heq, hbehind⟩ := h.behind hemits hrun
  obtain ⟨_, code₁, a₁, copy, code₂, a₂, hexpr, hspread, rfl, rfl, hcode⟩ := run_enterIf_eq_ok hrun
  obtain ⟨_, hexpr', rfl⟩ := run_evaluate_eq_ok.mp hvalue
  cases hexpr.symm.trans hexpr'
  -- the condition is evaluated and copied into all components of a scratch register
  obtain ⟨h₁, -, -, hleaves⟩ := emits_expr henv e h.tidy.reset _ _ _ hexpr
  rw [hcode] at hall
  obtain ⟨ρ₁, hm₁, hall⟩ := run_append_eq_some.mp hall
  obtain ⟨ρ₂, hm₂, hm₃⟩ := run_append_eq_some.mp hall
  obtain ⟨v, hv⟩ := exists_read hleaves.2.plain ρ₁
  obtain ⟨ρ₂', hm₂', hread⟩ := computes_spread (F := F) h₁ hleaves.2 hv hspread
  cases hm₂.symm.trans hm₂'
  obtain ⟨hplain, hframe⟩ := frame_condition (F := F) henv h.tidy hexpr hspread
  have hnumber : ∀ isElse, (Guard.mk (x.before ++ instructions code₁) value isElse).number? F ρ₀ =
      some (v .x) := fun _ =>
    Guard.number?_eq_some (run_append_eq_some.mpr ⟨ρ, h.reached, hm₁⟩) hv
  have heq₂ : ∀ r, ¬Written a.conditions r → ρ₂ r = ρ r := fun r hr =>
    hframe hm₁ hm₂ r fun haux => hr (.inl haux)
  have hreached : Machine.run F (x.before ++ (instructions code₁ ++ instructions code₂)) ρ₀ =
      some ρ₂ :=
    run_append_eq_some.mpr ⟨ρ, h.reached, run_append_eq_some.mpr ⟨ρ₁, hm₁, hm₂⟩⟩
  have hbefore : x.before ++ instructions code₁ <+:
      x.before ++ (instructions code₁ ++ instructions code₂) := by
    rw [← List.append_assoc]
    exact List.prefix_append _ _
  obtain ⟨ρ₃, hstep, hkept, hinside⟩ := h.enter (hnumber false) hbefore hreached heq₂ hplain
    (.inr hread) ht (Nat.lt_succ_self a₂.conditions)
  rw [run_singleton] at hm₃
  cases hm₃.symm.trans hstep
  refine ⟨a₂.conditions, v .x, ρ', rfl, Nat.lt_succ_self _, hnumber, ?_, hbehind, ?_⟩
  · refine hkept.imp_left fun hdead => ?_
    exact h.outer.ignores_dead ρ₂ ρ' (fun r hr => (heq r hr).trans (heq₂ r hr).symm) hdead
  · rw [Around.inside, hcode, ← List.append_assoc, ← List.append_assoc, List.append_assoc x.before]
    exact hinside

/-! ## Every write is reached with an exact condition -/

/-- The run from `ρ₀` reaches the write `w` with an exact condition. -/
def Reaches (α : Type) (F : Functions K) (ρ₀ : Registers K) (w : Site) : Prop :=
  IsTarget w.dst ∧ w.written.Plain ∧ ∃ (a : Allocator α) (ρ : Registers K),
    Stands F ρ₀ w.toAround a ρ

omit [Scalar α] in
theorem Stands.reaches {m : Lower α (Operand × Operand)} {o : Operand × Operand}
    (h : Stands F ρ₀ x a ρ)
    (hm : Emits (Auxiliary a.conditions) a m fun _ o => IsTarget o.1 ∧ o.2.Plain)
    (hrun : run m a = .ok (o, code, a')) : Reaches α F ρ₀ ⟨x.behind code, o.1, o.2⟩ := by
  obtain ⟨-, -, -, hdst, hplain⟩ := hm o code a' hrun
  obtain ⟨ρ', -, -, hbehind⟩ := h.behind (emits_mono hm (fun _ h => .inl h) fun _ _ h => h) hrun
  exact ⟨hdst, hplain, a', ρ', hbehind⟩

theorem WritesDecls.reaches (henv : Nameable env) {ids : List DeclId} {w : Site}
    (h : WritesDecls env x ids a w) :
    ∀ {ρ : Registers K}, Stands F ρ₀ x a ρ → Reaches α F ρ₀ w := by
  induction h with
  | head _ _ hrun =>
    intro ρ hstands
    exact hstands.reaches (emits_declOperands henv hstands.tidy _ _) hrun
  | tail hdecl _ ih =>
    intro ρ hstands
    obtain ⟨ρ', -, -, hbehind⟩ :=
      hstands.behind (emits_decl henv hstands.tidy hstands.outer.plain _) hdecl
    exact ih hbehind

mutual

/-- **Every write of a statement is reached with an exact condition**, if the statement is. -/
theorem Writes.reaches [IsStrictOrderedRing K] (henv : Nameable env) :
    ∀ {x : Around} {st : Stmt} {a : Allocator α} {w : Site}, Writes env x st a w →
      ∀ {ρ : Registers K}, Stands F ρ₀ x a ρ → Reaches α F ρ₀ w
  | _, _, _, _, .assign hrun, ρ, h =>
    h.reaches (emits_assignOperands henv h.tidy _ _) hrun
  | _, _, _, _, .yes hvalue henter hw, ρ, h => by
    obtain ⟨k, c, ρ', -, -, -, -, -, hinside⟩ := h.enterIf henv hvalue henter
    exact hw.reaches henv hinside
  | x, .branch e yes (some no), a, w, .no hvalue henter hyes helse hw, ρ, h => by
    obtain ⟨k, c, ρ₁, rfl, hk, hnumber, hkept, hbehind, hinside⟩ := h.enterIf henv hvalue henter
    have hemits := emits_stmt henv yes hinside.tidy hinside.outer.plain
    obtain ⟨-, he, -, -⟩ := hemits _ _ _ hyes
    -- the first branch writes neither its own condition nor the one around
    obtain ⟨ρ₂, -, heq, hfirst⟩ := hbehind.behind hemits hyes
    have hkept₂ : Dead x.cond ρ₂ ∨ ρ₂ (.longLived k) = .splat c := by
      rcases hkept with hdead | hvalue
      · exact .inl (hbehind.outer.ignores_dead ρ₁ ρ₂ heq hdead)
      · have hread := (outer_some hk).read_eq rfl heq
        exact .inr (Option.some.inj (hread.trans (congrArg some hvalue)))
    have hbefore := (hinside.evaluated _ List.mem_cons_self).1
    obtain ⟨ρ₃, hturn⟩ := hfirst.enterElse (hnumber true) (hbefore.trans (List.prefix_append _ _))
      rfl (Nat.lt_of_lt_of_le hk he.conditions) hkept₂ helse
    refine hw.reaches henv (ρ := ρ₃) ?_
    simpa [Around.inside, Around.behind, instructions_append] using hturn
  | _, _, _, _, .declaration hw, ρ, h => hw.reaches henv h
  | _, _, _, _, .statement hdecls hw, ρ, h => by
    obtain ⟨ρ', -, -, hbehind⟩ := h.behind (emits_decls henv h.outer.plain _ h.tidy) hdecls
    exact hw.reaches henv hbehind

theorem WritesAny.reaches [IsStrictOrderedRing K] (henv : Nameable env) :
    ∀ {x : Around} {ss : List Stmt} {a : Allocator α} {w : Site}, WritesAny env x ss a w →
      ∀ {ρ : Registers K}, Stands F ρ₀ x a ρ → Reaches α F ρ₀ w
  | _, _, _, _, .head hw, ρ, h => hw.reaches henv h
  | _, _, _, _, .tail hstmt hw, ρ, h => by
    obtain ⟨ρ', -, -, hbehind⟩ := h.behind (emits_stmt henv _ h.tidy h.outer.plain) hstmt
    exact hw.reaches henv hbehind

end

/-- What an exact condition means for the write under it. The run from `ρ₀` has reached the write
with the registers `ρ`, and the condition is the number `c`. -/
structure Site.Exact (F : Functions K) (ρ₀ ρ : Registers K) (w : Site) (c : K) : Prop where
  /-- The number is in all components of the condition. -/
  condition : ∃ k, w.cond = some (.of (.longLived k)) ∧ ρ (.longLived k) = .splat c
  taken : ¬c < 0 ↔ ∀ g ∈ w.guards, g.Taken F ρ₀
  /-- A write that is not meant to happen changes nothing. -/
  kept : c < 0 → step F ρ w.instruction = some ρ
  done : ¬c < 0 → ∃ v, read ρ w.written = some v ∧
    step F ρ w.instruction = Machine.write ρ w.dst v

omit [Scalar α] in
theorem Stands.exists_exact {w : Site} (h : Stands F ρ₀ w.toAround a ρ) (hdst : IsTarget w.dst)
    (hplain : w.written.Plain) (hguards : w.guards ≠ []) : ∃ c, w.Exact F ρ₀ ρ c := by
  obtain ⟨o, ho⟩ := Option.ne_none_iff_exists'.mp fun hnone => hguards (h.guarded.mp hnone)
  obtain ⟨k, rfl, -⟩ := h.outer o ho
  have hinstr := run_singleton (F := F) w.instruction ρ
  rcases h.decided with ⟨hlive, hall⟩ | ⟨hdead, g, hg, hnot⟩
  · obtain ⟨c, hread, hc⟩ := hlive _ ho
    obtain ⟨v, hv⟩ := exists_read hplain ρ
    refine ⟨c, ⟨k, ho, Option.some.inj hread⟩, ⟨fun _ => hall, fun _ => hc⟩,
      fun hneg => absurd hneg hc, fun _ => ⟨v, hv, ?_⟩⟩
    exact hinstr.symm.trans (run_write_live hlive hdst hv (run_write w a))
  · have hstep := hinstr.symm.trans (run_write_dead (F := F) hdead hdst hplain (run_write w a))
    obtain ⟨o, c, ho', hread, hc⟩ := hdead
    cases ho.symm.trans ho'
    refine ⟨c, ⟨k, ho, Option.some.inj hread⟩, ⟨fun hnonneg => absurd hc hnonneg, ?_⟩,
      fun _ => hstep, fun hnonneg => absurd hc hnonneg⟩
    exact fun hall => absurd (hall g hg) hnot

end Conditions

end Lower

/-! ## Programs -/

namespace Symbols

variable {s : Symbols}

theorem isVariable_of_assign {d : Declaration} {r : Register} (h : s.assign d = .ok r) :
    IsVariable r := by
  unfold assign at h
  split at h
  · cases h
    exact .user _ _
  · split at h
    · cases h
    · split at h
      · cases h
      · cases h
        exact .hardware _

/-- The registers of any symbol table are those of variables. -/
theorem isVariable_of_build {p : Program} (h : build p = .ok s) :
    ∀ e ∈ s.entries, IsVariable e.2 := by
  refine build_induction (P := fun _ s => ∀ e ∈ s.entries, IsVariable e.2) (by simp) ?_ h
  intro vs v s s' hs hadd e he
  obtain ⟨id, -, ⟨-, rfl⟩ | ⟨d, r, -, -, hassign, rfl⟩⟩ := add_eq_ok hadd
  · exact hs e he
  · rcases List.mem_append.mp he with he | he
    · exact hs e he
    · cases List.mem_singleton.mp he
      exact isVariable_of_assign hassign

theorem nameable_of_build {p : Program} (h : build p = .ok s) : Nameable ⟨p.decls, s⟩ :=
  fun id r hr => isVariable_of_build h (id, r) (mem_of_register? hr)

end Symbols

section Programs

variable {α K : Type} [Field K] {value : α → K}

theorem hasTruth_load {alloc : Allocator α} (ht : alloc.Tidy) {ps : List (Param α)}
    (hps : ∀ p ∈ ps, IsVariable p.reg) (contents : Registers K) :
    HasTruth (load value (alloc.program.immediates ++ ps) contents) := by
  have hload : ∀ b, load value (alloc.program.immediates ++ ps) contents (.truth b) =
      .splat (truth b) := by
    intro b
    have hnot : Register.truth b ∉ ps.map (·.reg) := by
      intro hmem
      obtain ⟨p, hp, hreg⟩ := List.mem_map.mp hmem
      have hvar := hps p hp
      rw [hreg] at hvar
      cases hvar
    have hmem : (⟨.truth b, .truth b⟩ : Param α) ∈ alloc.program.immediates :=
      ht.common (by cases b <;> simp)
    rw [load, List.foldl_append, ← load, ← load, load_of_notMem hnot]
    refine load_of_mem (p := ⟨.truth b, .truth b⟩) (nodup_immediates ht) (fun p hp r hr => ?_) hmem
    rw [ht.closed p hp] at hr
    cases hr
  exact ⟨hload true, hload false⟩

variable [Scalar α]

/-- A write of a program: one of its body, compiled where the variables are declared. -/
def Program.HasWrite (α : Type) [Scalar α] (p : Program) (w : Site) : Prop :=
  ∃ symbols body notes declared, Symbols.build p = .ok symbols ∧ p.body = some body ∧
    Compilation.declare (α := α) ⟨p.decls, symbols⟩ symbols.entries {} = (notes, .ok declared) ∧
    Writes ⟨p.decls, symbols⟩ {} (.scope body.decls body.stmts) { program := declared } w

variable [LinearOrder K]

/-- A program that compiles starts where no branch is around and both truth values are loaded. -/
theorem stands_start (F : Functions K) {p : Program} {symbols : Symbols} {notes : List (Note α)}
    {declared : Assembly α} (hbuild : Symbols.build p = .ok symbols)
    (hdeclare : Compilation.declare ⟨p.decls, symbols⟩ symbols.entries {} = (notes, .ok declared))
    {alloc : Allocator α} (ht : alloc.Tidy) (hext : Allocator.Extends { program := declared } alloc)
    (contents : Registers K) :
    let ρ := load value (alloc.program.immediates ++ alloc.program.userParams) contents
    Stands F ρ {} ({ program := declared } : Allocator α) ρ := by
  intro ρ
  cases declare_eq_ok hdeclare
  have hparams : alloc.program.userParams = constants ⟨p.decls, symbols⟩ := hext.userParams
  have htruth : HasTruth ρ := by
    refine hasTruth_load ht (fun q hq => ?_) contents
    rw [hparams] at hq
    obtain ⟨entry, hentry, hq⟩ := List.mem_filterMap.mp hq
    rw [(constant?_eq_some hq).1]
    exact Symbols.isVariable_of_build hbuild entry hentry
  have hlive : Live none ρ := by
    intro o ho
    cases ho
  exact {
    reached := rfl
    tidy := tidy_start _ _
    outer := fun _ ho => by cases ho
    guarded := by simp
    truth := htruth
    evaluated := by simp
    decided := .inl ⟨hlive, by simp⟩ }

/-- **Predication is exact at every depth.** Take any tree that compiles, checked or not, and run
its code from any contents of the registers. The instructions that change a variable are just the
writes of its assignments and declarations. Each is reached, behind the places where the conditions
around it were evaluated. Under at least one branch, the condition that guards the write is one
number in all components, which is not negative if and only if every branch around the write is
taken; where it is negative, the write changes nothing. -/
theorem compile_predicates_exactly [IsStrictOrderedRing K] (F : Functions K) (value : α → K)
    {p : Program} {a : Assembly α} (h : (p.compile : Compilation α).outcome = .ok a)
    (contents : Registers K) :
    let start := load value (a.immediates ++ a.userParams) contents
    (∀ before i after, a.instructions = before ++ i :: after → IsVariable i.dst.reg →
      ∃ w, p.HasWrite α w ∧ w.before = before ∧ w.instruction = i) ∧
    ∀ w, p.HasWrite α w →
      (∃ after, a.instructions = w.before ++ w.instruction :: after) ∧
      ∃ ρ, run F w.before start = some ρ ∧
        (∀ g ∈ w.guards, g.before <+: w.before ∧ ∃ c, g.number? F start = some c) ∧
        (w.guards ≠ [] → ∃ c, w.Exact F start ρ c) := by
  intro start
  obtain ⟨symbols, notes, declared, hbuild, hdeclare, hemit⟩ := exists_emit_of_compile h
  have henv := Symbols.nameable_of_build hbuild
  have htidy : ({ program := declared } : Allocator α).Tidy := by
    cases declare_eq_ok hdeclare
    exact tidy_start _ _
  have hlines : declared.lines = [] := by
    cases declare_eq_ok hdeclare
    rfl
  cases hbody : p.body with
  | none =>
    rw [hbody] at hemit
    cases hemit
    constructor
    · intro before i after hcode
      rw [Assembly.instructions, hlines] at hcode
      simp at hcode
    · rintro w ⟨_, body, _, _, _, hbody', _⟩
      cases hbody.symm.trans hbody'
  | some body =>
    rw [hbody] at hemit
    obtain ⟨u, lines, alloc, hrun, rfl⟩ := run_of_emit hemit
    obtain ⟨ht, hext, -, -⟩ := emits_stmt henv _ htidy (fun _ ho => by cases ho) _ _ _ hrun
    -- declaring variables adds no line, so all instructions come from the body
    have hcode : (alloc.program.append lines).instructions = instructions lines := by
      show instructions (alloc.program.lines ++ lines) = _
      rw [hext.lines, hlines]
      rfl
    constructor
    · intro before i after heq hi
      rw [hcode] at heq
      obtain ⟨w, hw, hplace, hinstr⟩ := covered_stmt henv _ htidy
        (x := {}) (fun _ ho => by cases ho) hrun before i after heq hi
      exact ⟨w, ⟨symbols, body, notes, declared, hbuild, hbody, hdeclare, hw⟩, hplace, hinstr⟩
    · rintro w ⟨symbols', body', notes', declared', hbuild', hbody', hdeclare', hw⟩
      cases hbuild.symm.trans hbuild'
      cases hbody.symm.trans hbody'
      cases hdeclare.symm.trans hdeclare'
      obtain ⟨pre, post, hbefore, hplace⟩ := hw.placed hrun
      obtain ⟨hdst, hplain, a', ρ, hstands⟩ :=
        hw.reaches henv (stands_start F hbuild hdeclare ht hext contents)
      refine ⟨⟨post, ?_⟩, ρ, hstands.reached, hstands.evaluated, hstands.exists_exact hdst hplain⟩
      rw [hcode, hplace, hbefore]
      rfl

end Programs

/-- A tree that no checker accepts: an `if` with an `else`, on a vector, in an `if` on another. The
write in the `else` is under both. -/
theorem compile_predicates_exactly_nested :
    let v : Expr := .var { name := [118], decl := some 0 }
    let w : Expr := .var { name := [119], decl := some 1 }
    let p : Program :=
      { decls := [{ name := [118], type := .vec4 }, { name := [119], type := .vec4 }]
        body := some
          { decls := [0, 1]
            stmts := [.branch v (.branch w (.assign {} w v) (some (.assign {} v w))) none] } }
    ∃ a, (p.compile : Compilation Float32).outcome = .ok a ∧
      ∃ site, p.HasWrite Float32 site ∧ site.guards.map (·.isElse) = [true, false] ∧
        ∀ (F : Functions ℚ) (value : Float32 → ℚ) (contents : Registers ℚ), ∃ ρ c,
          run F site.before (load value (a.immediates ++ a.userParams) contents) = some ρ ∧
          site.Exact F (load value (a.immediates ++ a.userParams) contents) ρ c := by
  intro v w p
  obtain ⟨a, ha⟩ : ∃ a, (p.compile : Compilation Float32).outcome = .ok a := ⟨_, rfl⟩
  have hsite : ∃ site, p.HasWrite Float32 site ∧ site.guards.map (·.isElse) = [true, false] :=
    ⟨_, ⟨_, _, _, _, rfl, rfl, rfl,
      .statement rfl (.head (.yes rfl rfl (.no rfl rfl rfl rfl (.assign rfl))))⟩, rfl⟩
  obtain ⟨site, hwrite, hguards⟩ := hsite
  refine ⟨a, ha, site, hwrite, hguards, fun F value contents => ?_⟩
  obtain ⟨-, hsites⟩ := compile_predicates_exactly F value ha contents
  obtain ⟨-, ρ, hreached, -, hexact⟩ := hsites site hwrite
  have hnested : site.guards ≠ [] := by
    intro hnil
    rw [hnil] at hguards
    cases hguards
  obtain ⟨c, hexact⟩ := hexact hnested
  exact ⟨ρ, c, hreached, hexact⟩

end Shader
