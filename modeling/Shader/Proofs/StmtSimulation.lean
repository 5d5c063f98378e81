import Shader.Proofs.ExprSimulation
import Shader.Proofs.Predication

/-!
# The code of a statement does what the statement does

Under a condition that is not negative, or none, the code of a statement is live: registers that
hold the values of a store end up holding those of the store after the statement. Both branches of
an `if` are in its code. The one that runs is live under the condition of the `if`, and the other is
dead.

A declaration brings a variable into scope, and a variable that may be read must be one number if it
is a scalar. So `Tracks` has a context in it, which grows along a block and falls back behind it.
-/

namespace Shader

open Lower Machine TypeSystem
open Program (Expr Stmt)
open Number (Scalar)

variable {α K : Type} [Field K] [LinearOrder K] {F : Functions K} {ρ : Registers K} {env : Env}
  {n next : Nat} {Γ Γ' : Context} {σ σ' : Store K}

/-- The blocks around a declaration stay as they are. -/
theorem TypeSystem.DeclsTyped.mem_of_mem_tail {ds : List Ast.Decl} {ds' : List Declaration}
    (h : DeclsTyped next Γ ds ds' Γ') {b : Block} (hb : b ∈ Γ.tail) : b ∈ Γ' := by
  induction h with
  | nil => exact List.mem_of_mem_tail hb
  | cons _ _ _ ih => exact ih hb

/-! ## Stores -/

namespace Lower

section Tracks

variable {id : DeclId} {d : Declaration} {r : Register}

omit [Field K] [LinearOrder K] in
theorem ofVariables_tracks (henv : Nameable env) : OfVariables (Tracks (K := K) env Γ σ) :=
  fun _ _ heq h => h.congr henv fun r hr => heq r fun hnot => hnot hr

omit [Field K] [LinearOrder K] in
/-- Setting a variable, which may come into scope by it. -/
theorem Tracks.set (hA : Accepted env n) (h : Tracks env Γ σ ρ) (hd : env.decls[id]? = some d)
    (hr : env.symbols.register? id = some r) (hconst : d.isConst = false) {u w : Vec K}
    (hshows : Shows d.type u w) (hlists : Lists env.decls Γ')
    (hold : ∀ b ∈ Γ', ∀ p ∈ b, p.2.id ≠ id → ∃ b' ∈ Γ, p ∈ b') :
    Tracks env Γ' (Function.update σ id w) (Function.update ρ r u) where
  registers := by
    intro id' d' r' hd' hr' c hc
    by_cases hid : id' = id
    · subst hid
      cases hd.symm.trans hd'
      cases hr.symm.trans hr'
      rw [Function.update_self, Function.update_self]
      exact hshows.apply hc
    -- no two variables share a register
    · have hne : r' ≠ r := by
        rintro rfl
        exact hid (hA.sound.injective hr' hr)
      rw [Function.update_of_ne hid, Function.update_of_ne hne]
      exact h.registers id' d' r' hd' hr' c hc
  numbers := by
    intro b hb p hp hq hone
    by_cases hid : p.2.id = id
    · have hsig := hlists b hb p hp
      rw [hid, List.getElem?_map, hd] at hsig
      have ht : d.type = p.2.type := congrArg (·.2.1) (Option.some.inj hsig)
      obtain ⟨x, -, hw⟩ := hshows.splat (by rw [ht, hone])
      exact ⟨x, by rw [hid, Function.update_self, hw]⟩
    · obtain ⟨b', hb', hp'⟩ := hold b hb p hp hid
      rw [Function.update_of_ne hid]
      exact h.numbers b' hb' p hp' hq hone
  constants := by
    intro id' d' hd' hc hone
    -- what is set is no constant
    have hid : id' ≠ id := by
      rintro rfl
      cases hd.symm.trans hd'
      rw [hconst] at hc
      cases hc
    rw [Function.update_of_ne hid]
    exact h.constants id' d' hd' hc hone

omit [Field K] [LinearOrder K] in
/-- A constant comes into scope with the value it has from the start. -/
theorem Tracks.declareConst {b : Block} (h : Tracks env (b :: Γ) σ ρ)
    (hd : env.decls[id]? = some d) (hconst : d.isConst = true) :
    Tracks env (b.declare id d :: Γ) σ ρ where
  registers := h.registers
  constants := h.constants
  numbers := by
    intro c hc p hp hq hone
    rcases List.mem_cons.mp hc with rfl | hc
    · rcases List.mem_cons.mp hp with rfl | hp
      · exact h.constants id d hd hconst hone
      · exact h.numbers b (by simp) p hp hq hone
    · exact h.numbers c (by simp [hc]) p hp hq hone

omit [Field K] [LinearOrder K] in
theorem Tracks.mono (h : Tracks env Γ σ ρ) (hsub : ∀ b ∈ Γ', b = [] ∨ b ∈ Γ) :
    Tracks env Γ' σ ρ where
  registers := h.registers
  constants := h.constants
  numbers := by
    intro b hb p hp
    rcases hsub b hb with rfl | hb
    · simp at hp
    · exact h.numbers b hb p hp

omit [Field K] [LinearOrder K] in
/-- A variable or component that can be assigned to has a destination, and writing a value there is
the assignment. -/
theorem simulates_target (hA : Accepted env n) (hΓ : Fits env.decls n next Γ) {v : Ast.Var}
    {v' : Expr} {x : Variable} {t : Ty} (h : Access Γ v v' x t)
    (hq : x.qualifier ∉ [.const, .varying, .uniform]) :
    ∃ dst, target env v' = (pure dst : Lower α Operand) ∧ IsTarget dst ∧
      ∀ {σ : Store K} {ρ : Registers K} {u w : Vec K}, Tracks env Γ σ ρ → Shows t u w →
        ∃ ρ', Machine.write ρ dst u = some ρ' ∧ Tracks env Γ (Semantics.assign σ w v') ρ' := by
  have henv := nameable_of_accepted hA
  have hmutable : ∀ d : Declaration, d.qualifier = x.qualifier → d.isConst = false := by
    intro d hd
    rw [Declaration.isConst, hd, beq_eq_false_iff_ne]
    rintro hc
    exact hq (by simp [hc])
  cases h with
  | @whole pos name x hx =>
    obtain ⟨d, hd, -, ht, hdq⟩ := hΓ.lists.decl_of_finds hx
    obtain ⟨r, hr, -⟩ := hA.listed x.id d hd
    refine ⟨.of r, ?_, ⟨henv _ _ hr, Operand.plain_of _, rfl⟩, fun hσ hshows => ?_⟩
    · rw [target, register_eq_pure hr]
    · refine ⟨_, rfl, hσ.set hA hd hr (hmutable d hdq) ?_ hΓ.lists fun b hb p hp _ => ⟨b, hb, hp⟩⟩
      rw [ht]
      exact hshows
  | @component pos name x i hx hvec hi =>
    obtain ⟨d, hd, -, ht, hdq⟩ := hΓ.lists.decl_of_finds hx
    obtain ⟨r, hr, -⟩ := hA.listed x.id d hd
    have hlt := lt_four_of_finds hΓ.named hx hi
    refine ⟨(Operand.of r).component (Component.all.get ⟨i, hlt⟩), ?_,
      ⟨henv _ _ hr, Operand.plain_component _ _, rfl⟩, fun hσ hshows => ?_⟩
    · rw [target, indexed_eq_pure hr _ _ hlt]
    · obtain ⟨y, rfl, rfl⟩ := hshows.splat rfl
      rw [Semantics.assign, ofIndex?_of_lt hlt]
      -- the other components stay as they were, in the register and in the store
      refine ⟨_, rfl, hσ.set hA hd hr (hmutable d hdq) (.vector ?_ fun c hc => ?_) hΓ.lists
        fun b hb p hp _ => ⟨b, hb, hp⟩⟩
      · rw [ht]
        omega
      · have hold := hσ.registers x.id d r hd hr c hc
        simp only [Function.update_apply]
        split
        · rfl
        · exact hold

end Tracks

/-! ## Live code -/

/-- Registers under which code is live: its condition is not negative, the constants are loaded, and
the variables hold the values of a store. -/
structure On (env : Env) (value : α → K) (contents : Registers K) (ps : List (Param α))
    (cond : Option Operand) (Γ : Context) (σ : Store K) (ρ : Registers K) : Prop where
  truth : HasTruth ρ
  loaded : Loaded value contents ps ρ
  live : Live cond ρ
  tracks : Tracks env Γ σ ρ

section Live

variable {a : Allocator α} {cond : Option Operand} {value : α → K} {contents : Registers K}
  {ps : List (Param α)}

omit [LinearOrder K] in
theorem ignores_loaded {first : Nat} :
    Ignores (Written first) fun ρ => HasTruth ρ ∧ Loaded value contents ps ρ := by
  rintro ρ ρ' heq ⟨htruth, hloaded⟩
  have hconst : ∀ r, IsConstant r → ρ' r = ρ r := fun r hr => heq r (not_written_of_isConstant hr)
  exact ⟨htruth.congr hconst, hloaded.congr hconst⟩

theorem Outer.ignores_on (houter : Outer a cond) (henv : Nameable env) :
    Ignores (Auxiliary a.conditions) (On env value contents ps cond Γ σ) := by
  intro ρ ρ' heq h
  have hwritten : ∀ r, ¬Written a.conditions r → ρ' r = ρ r := fun r hr =>
    heq r fun h => hr (.inl h)
  obtain ⟨htruth, hloaded⟩ := ignores_loaded ρ ρ' hwritten ⟨h.truth, h.loaded⟩
  exact ⟨htruth, hloaded, houter.ignores_live ρ ρ' hwritten h.live,
    h.tracks.congr henv fun r hr => heq r (not_auxiliary_of_isVariable hr)⟩

theorem leads_pure {β : Type} {I : Registers K → Prop} (ha : a.Tidy) (b : β) :
    Leads F ps I (fun _ => I) a (pure b) fun a' c => a' = a ∧ c = b := by
  intro c code a' hrun
  cases hrun
  exact ⟨ha, .refl a, ⟨rfl, rfl⟩, fun _ ρ hρ => ⟨ρ, rfl, hρ⟩⟩

/-- A live write sets its destination. -/
theorem simulates_write (ha : a.Tidy) (houter : Outer a cond) {dst o : Operand}
    (hdst : IsTarget dst) {t : Ty} {w : Vec K}
    (hset : ∀ {ρ : Registers K} {u : Vec K}, Tracks env Γ σ ρ → Shows t u w →
      ∃ ρ', Machine.write ρ dst u = some ρ' ∧ Tracks env Γ' σ' ρ') :
    Leads F ps
      (fun ρ => On env value contents ps cond Γ σ ρ ∧ ∃ u, read ρ o = some u ∧ Shows t u w)
      (fun _ => On env value contents ps cond Γ' σ') a (write cond dst o) fun _ _ => True := by
  intro b code a' hrun
  obtain rfl := run_write_allocator hrun
  refine ⟨ha, .refl a', trivial, fun _ ρ ⟨hρ, u, hread, hshows⟩ => ?_⟩
  obtain ⟨ρ', hwrite, htracks⟩ := hset hρ.tracks hshows
  -- a variable is neither a constant nor a condition, so the rest of `On` stays
  have hframe : ∀ r, ¬Written a'.conditions r → ρ' r = ρ r := by
    intro r hr
    refine write_of_ne hwrite ?_
    rintro rfl
    exact hr (.inr hdst.1)
  obtain ⟨htruth, hloaded⟩ := ignores_loaded ρ ρ' hframe ⟨hρ.truth, hρ.loaded⟩
  refine ⟨ρ', ?_, htruth, hloaded, houter.ignores_live ρ ρ' hframe hρ.live, htracks⟩
  rw [run_write_live hρ.live hdst hread hrun, hwrite]

/-- A variable without initializer gets the zero that every program has. -/
theorem simulates_zero (ha : a.Tidy) {t : Ty} :
    Leads F ps (On env value contents ps cond Γ σ)
      (fun o ρ => On env value contents ps cond Γ σ ρ ∧ ∃ u, read ρ o = some u ∧ Shows t u 0)
      a (pure (.of .zero)) fun _ _ => True := by
  intro o code a' hrun
  cases hrun
  refine ⟨ha, .refl a, trivial, fun hps ρ hρ => ⟨ρ, rfl, hρ, .splat 0, ?_, ?_⟩⟩
  · rw [read_of, hρ.loaded.values ⟨.zero, .zeros 4⟩ (hps (ha.common (by simp)))]
    rfl
  · by_cases ht : t.order = 1
    · exact .scalar 0 ht
    · exact .vector ht fun _ _ => rfl

theorem simulates_initialize (hA : Accepted env n) {b : Block} {id : DeclId} {d : Declaration}
    (hΓ : Fits env.decls n id (b :: Γ)) (hd : env.decls[id]? = some d) (ht : Named d.type)
    (hconst : d.isConst = false) (ha : a.Tidy) (houter : Outer a cond) {o : Operand} {w : Vec K} :
    Leads F ps
      (fun ρ => On env value contents ps cond (b :: Γ) σ ρ ∧
        ∃ u, read ρ o = some u ∧ Shows d.type u w)
      (fun _ => On env value contents ps cond (b.declare id d :: Γ) (Function.update σ id w))
      a (register env { name := d.name, decl := some id } >>= fun reg => write cond reg o)
      fun _ _ => True := by
  obtain ⟨r, hr, -⟩ := hA.listed id d hd
  rw [register_eq_pure hr]
  refine leads_bind (leads_pure ha (Operand.of r)) fun a₁ _ h₁ e₁ heq => ?_
  obtain ⟨-, rfl⟩ := heq
  have hreg := nameable_of_accepted hA _ _ hr
  refine simulates_write h₁ (houter.mono e₁) ⟨hreg, Operand.plain_of _, rfl⟩ fun hσ hshows =>
    ⟨_, rfl, hσ.set hA hd hr hconst hshows (hΓ.declare hd ht).lists ?_⟩
  -- every other variable was in scope before
  intro c hc p hp hid
  rcases List.mem_cons.mp hc with rfl | hc
  · rcases List.mem_cons.mp hp with rfl | hp
    · exact absurd rfl hid
    · exact ⟨b, by simp, hp⟩
  · exact ⟨c, by simp [hc], hp⟩

variable [Scalar α]

theorem simulates_value [IsStrictOrderedRing K] (hA : Accepted env n)
    (hΓ : Fits env.decls n next Γ) (hn : next ≤ n) {e : Ast.Expr} {e' : Expr} {t : Ty}
    (he : Typed Γ e e' t) (hf : Semantics.scalarsFold α env e' = true) (ha : a.Tidy)
    (houter : Outer a cond) :
    Leads F ps (On env value contents ps cond Γ σ)
      (fun o ρ => On env value contents ps cond Γ σ ρ ∧
        ∃ u, read ρ o = some u ∧ Shows t u (Semantics.expr env F value σ e'))
      a (expr env e') fun _ _ => True := by
  have henv := nameable_of_accepted hA
  intro o code a' hrun
  have hemits : Emits (Auxiliary a.conditions) a (expr env e') fun _ o => o.Plain :=
    emits_value henv ha e'
  obtain ⟨ht, hext, -, -⟩ := hemits o code a' hrun
  refine ⟨ht, hext, trivial, fun hps ρ hρ => ?_⟩
  obtain ⟨u, ⟨ρ', hm, hread⟩, hshows⟩ :=
    simulates_expr (F := F) hA hΓ hn he hf ha hrun hps hρ.loaded hρ.tracks
  exact ⟨ρ', hm, houter.ignores_on henv ρ ρ' (fun r hr => hemits.frame hrun hm hr) hρ, u, hread,
    hshows⟩

theorem simulates_assign [IsStrictOrderedRing K] (hA : Accepted env n)
    (hΓ : Fits env.decls n next Γ) (hn : next ≤ n)
    {v : Ast.Var} {v' : Expr} {x : Variable} {e : Ast.Expr} {e' : Expr} {t : Ty}
    (hv : Access Γ v v' x t) (hq : x.qualifier ∉ [.const, .varying, .uniform])
    (he : Typed Γ e e' t) (hf : Semantics.scalarsFold α env e' = true) (ha : a.Tidy)
    (houter : Outer a cond) (pos : Pos) :
    Leads F ps (On env value contents ps cond Γ σ)
      (fun _ => On env value contents ps cond Γ
        (Semantics.stmt env F value σ (.assign pos v' e')))
      a (stmt env cond (.assign pos v' e')) fun _ _ => True := by
  have henv := nameable_of_accepted hA
  obtain ⟨dst, htarget, hdst, hset⟩ := simulates_target (α := α) (K := K) hA hΓ hv hq
  rw [stmt, Semantics.stmt, htarget]
  refine leads_bind (leads_of_emits (emits_beginStatement ha) (houter.ignores_on henv))
    fun a₁ _ h₁ e₁ _ => ?_
  have hout₁ := houter.mono e₁
  refine leads_bind (simulates_value hA hΓ hn he hf h₁ hout₁) fun a₂ o h₂ e₂ _ => ?_
  refine leads_bind (leads_pure h₂ dst) fun a₃ _ h₃ e₃ heq => ?_
  obtain ⟨-, rfl⟩ := heq
  exact simulates_write h₃ ((hout₁.mono e₂).mono e₃) hdst fun hσ hshows => hset hσ hshows

theorem simulates_decl [IsStrictOrderedRing K] (hA : Accepted env n) {b : Block} {id : DeclId}
    {ad : Ast.Decl} {d : Declaration} (hΓ : Fits env.decls n id (b :: Γ)) (hn : id ≤ n)
    (hd : env.decls[id]? = some d) (h : DeclTyped (b :: Γ) ad d)
    (hf : ∀ e, d.init = some e → Semantics.scalarsFold α env e = true) (ha : a.Tidy)
    (houter : Outer a cond) :
    Leads F ps (On env value contents ps cond (b :: Γ) σ)
      (fun _ => On env value contents ps cond (b.declare id d :: Γ)
        (Semantics.declare env F value σ id))
      a (decl env cond id) fun _ _ => True := by
  have henv := nameable_of_accepted hA
  rw [decl, Semantics.declare, hd]
  cases h with
  | plain ht =>
    refine leads_bind (leads_of_emits (emits_beginStatement ha) (houter.ignores_on henv))
      fun a₁ _ h₁ e₁ _ => ?_
    have hout₁ := houter.mono e₁
    exact leads_bind (simulates_zero h₁) fun a₂ o h₂ e₂ _ =>
      simulates_initialize hA hΓ hd ht rfl h₂ (hout₁.mono e₂)
  | mutable ht he =>
    refine leads_bind (leads_of_emits (emits_beginStatement ha) (houter.ignores_on henv))
      fun a₁ _ h₁ e₁ _ => ?_
    have hout₁ := houter.mono e₁
    exact leads_bind (simulates_value hA hΓ hn he (hf _ rfl) h₁ hout₁) fun a₂ o h₂ e₂ _ =>
      simulates_initialize hA hΓ hd ht rfl h₂ (hout₁.mono e₂)
  | const ht he =>
    refine leads_mono (fun _ h => h)
      (leads_of_emits (emits_pure ha trivial) (houter.ignores_on henv))
      fun _ _ h => ?_
    exact ⟨h.truth, h.loaded, h.live, h.tracks.declareConst hd rfl⟩

/-- **Declarations**: their code initializes the variables in order, and brings each into scope. -/
theorem simulates_decls [IsStrictOrderedRing K] (hA : Accepted env n)
    (hf : ∀ d ∈ env.decls, ∀ e, d.init = some e → Semantics.scalarsFold α env e = true)
    {ds : List Ast.Decl} {ds' : List Declaration} (h : DeclsTyped next Γ ds ds' Γ') :
    ∀ {a : Allocator α} {σ : Store K}, Fits env.decls n next Γ → Holds env.decls next ds' →
      next + ds'.length ≤ n → a.Tidy → Outer a cond →
      Leads F ps (On env value contents ps cond Γ σ)
        (fun _ => On env value contents ps cond Γ'
          ((List.range' next ds'.length).foldl (Semantics.declare env F value) σ))
        a (decls env cond (List.range' next ds'.length)) fun _ _ => True := by
  have henv := nameable_of_accepted hA
  induction h with
  | nil =>
    intro a σ _ _ _ ha houter
    exact leads_of_emits (emits_pure ha trivial) (houter.ignores_on henv)
  | @cons next b Γ Γ' ad d ds ds' hd hnew _ ih =>
    intro a σ hΓ hds hn ha houter
    have hentry : env.decls[next]? = some d := hds 0 d rfl
    rw [List.length_cons, Nat.add_comm ds'.length 1, ← Nat.add_assoc] at hn
    have hid : next ≤ n := Nat.le_trans (Nat.le_succ next) (Nat.le_trans (Nat.le_add_right _ _) hn)
    rw [List.length_cons, List.range'_succ, decls, List.foldl_cons]
    refine leads_bind (simulates_decl hA hΓ hid hentry hd
      (hf d (List.mem_of_getElem? hentry)) ha houter) fun a₁ _ h₁ e₁ _ => ?_
    exact ih (hΓ.declare hentry hd.named) hds.tail hn h₁ (houter.mono e₁)

/-! ## Branches -/

/-- The condition of an `if` in live code is the value of its expression. -/
theorem simulates_enterIf [IsStrictOrderedRing K] (hA : Accepted env n)
    (hΓ : Fits env.decls n next Γ) (hn : next ≤ n) {e : Ast.Expr} {e' : Expr}
    (he : Typed Γ e e' .bool) (hf : Semantics.scalarsFold α env e' = true) (ha : a.Tidy)
    (houter : Outer a cond) :
    Leads F ps (On env value contents ps cond Γ σ)
      (fun o ρ => On env value contents ps cond Γ σ ρ ∧
        read ρ o = some (.splat (Semantics.expr env F value σ e' .x)))
      a (enterIf env cond e') fun a' o =>
        ∃ k, o = .of (.longLived k) ∧ a.conditions ≤ k ∧ k < a'.conditions := by
  have henv := nameable_of_accepted hA
  intro o code a' hrun
  have hon : Leads F ps (On env value contents ps cond Γ σ) _ a (enterIf env cond e') _ :=
    leads_of_emits (emits_enterIf henv ha houter.plain e') (houter.ignores_on henv)
  obtain ⟨ht, hext, ho, hkeep⟩ := hon o code a' hrun
  refine ⟨ht, hext, ho, fun hps ρ hρ => ?_⟩
  obtain ⟨ρ', hm, hρ'⟩ := hkeep hps ρ hρ
  refine ⟨ρ', hm, hρ', ?_⟩
  -- the run is known already; what is left is the value, for which it is cut at the condition
  obtain ⟨v, code₁, a₁, own, code₂, a₂, hv, hown, rfl, rfl, hcode⟩ := run_enterIf_eq_ok hrun
  obtain ⟨h₁, -, -, hleaves⟩ := emits_expr henv e' ha.reset _ _ _ hv
  obtain ⟨-, e₂, -, -⟩ := emits_spread h₁ (Nat.le_refl _) hleaves.2.plain _ _ _ hown
  obtain ⟨u, ⟨ρ₁, hm₁, hread₁⟩, hshows⟩ := simulates_expr (F := F) hA hΓ hn he hf ha.reset hv
    (fun _ h => hps (e₂.immediates h)) hρ.loaded hρ.tracks
  obtain ⟨x, rfl, hx⟩ := hshows.splat rfl
  obtain ⟨ρ₂, hm₂, hread₂⟩ := computes_spread (F := F) h₁ hleaves.2 hread₁ hown
  have hρ₂ : On env value contents ps cond Γ σ ρ₂ :=
    houter.ignores_on henv ρ ρ₂ ((frame_condition (F := F) henv ha hv hown).2 hm₁ hm₂) hρ
  rw [hcode, run_append, hm₁, Option.bind_some, run_append, hm₂, Option.bind_some, run_singleton,
    step_combine_live hρ₂.live hρ₂.truth hread₂] at hm
  cases hm
  rw [read_of, Function.update_self, hx]

omit [Scalar α] in
/-- The condition of its `else` is the opposite. -/
theorem simulates_enterElse (henv : Nameable env) {a₀ : Allocator α} {k : Nat} {x : K}
    (ha : a.Tidy) (houter : Outer a₀ cond) (hk : a₀.conditions ≤ k) :
    Leads F ps
      (fun ρ => On env value contents ps cond Γ σ ρ ∧
        read ρ (.of (.longLived k)) = some (.splat x))
      (fun _ ρ => On env value contents ps cond Γ σ ρ ∧
        read ρ (.of (.longLived k)) = some (.splat (-x)))
      a (enterElse cond (.of (.longLived k))) fun a' _ => a' = a := by
  intro u code a' hrun
  have hon : Leads F ps (On env value contents ps cond Γ σ) _ a
      (enterElse cond (.of (.longLived k))) _ :=
    leads_of_emits (emits_enterElse ha houter.plain hk) (houter.ignores_on henv)
  obtain ⟨ht, hext, hsame, hkeep⟩ := hon u code a' hrun
  refine ⟨ht, hext, hsame, fun hps ρ hρ => ?_⟩
  obtain ⟨ρ', hm, hρ'⟩ := hkeep hps ρ hρ.1
  refine ⟨ρ', hm, hρ', ?_⟩
  rw [(run_enterElse_eq_ok hrun).2, run_singleton,
    step_combine_live hρ.1.live hρ.1.truth (read_neg hρ.2)] at hm
  cases hm
  rw [read_of, Function.update_self]
  rfl

/-- A branch of an `if` in live code runs if the value of its condition is not negative, and
otherwise leaves the store as it was. -/
theorem simulates_branch [IsStrictOrderedRing K] (henv : Nameable env) (st : Stmt) {o : Operand}
    {x : K} (ha : a.Tidy) (houter : Outer a cond) (hinner : Outer a (some o))
    (h : Leads F ps (On env value contents ps (some o) Γ σ)
      (fun _ => On env value contents ps (some o) Γ σ') a (stmt env (some o) st) fun _ _ => True) :
    Leads F ps
      (fun ρ => On env value contents ps cond Γ σ ρ ∧ read ρ o = some (.splat x))
      (fun _ ρ => On env value contents ps cond Γ (if x < 0 then σ else σ') ρ ∧
        read ρ o = some (.splat x))
      a (stmt env (some o) st) fun _ _ => True := by
  have hemits : Emits (Written a.conditions) a (stmt env (some o) st) fun _ _ => True :=
    emits_stmt henv st ha hinner.plain
  -- what the code of the branch does not touch: constants, and the conditions in and around it
  have houtside : Ignores (Written a.conditions) fun ρ =>
      (HasTruth ρ ∧ Loaded value contents ps ρ) ∧ Live cond ρ ∧ read ρ o = some (.splat x) :=
    ignores_loaded.and (houter.ignores_live.and fun ρ ρ' heq hread =>
      (hinner.read_eq rfl heq).trans hread)
  by_cases hx : x < 0
  · refine leads_mono (fun ρ hρ => ?_) (leads_frame (idle_stmt henv
      (ofVariables_tracks (Γ := Γ) (σ := σ) henv) st ha hinner) hemits houtside) fun _ ρ hρ => ?_
    · obtain ⟨hon, hread⟩ := hρ
      exact ⟨⟨⟨hon.truth, hon.loaded⟩, hon.live, hread⟩, ⟨hon.truth, o, x, rfl, hread, hx⟩,
        hon.tracks⟩
    · obtain ⟨⟨⟨htruth, hloaded⟩, hlive, hread⟩, -, htracks⟩ := hρ
      rw [if_pos hx]
      exact ⟨⟨htruth, hloaded, hlive, htracks⟩, hread⟩
  · refine leads_mono (fun ρ hρ => ?_) (leads_frame h hemits houtside) fun _ ρ hρ => ?_
    · obtain ⟨hon, hread⟩ := hρ
      refine ⟨⟨⟨hon.truth, hon.loaded⟩, hon.live, hread⟩, hon.truth, hon.loaded, ?_, hon.tracks⟩
      rintro _ ⟨⟩
      exact ⟨x, hread, hx⟩
    · obtain ⟨⟨⟨htruth, hloaded⟩, hlive, hread⟩, hinside⟩ := hρ
      rw [if_neg hx]
      exact ⟨⟨htruth, hloaded, hlive, hinside.tracks⟩, hread⟩

/-! ## Statements -/

mutual

/-- **The code of a statement does what the statement does.** -/
theorem simulates_stmt [IsStrictOrderedRing K] (hA : Accepted env n)
    (hinit : ∀ d ∈ env.decls, ∀ e, d.init = some e → Semantics.scalarsFold α env e = true) :
    ∀ {Γ : Context} {next : DeclId} {st : Ast.Stmt} {st' : Stmt} {ds : List Declaration},
      StmtTyped Γ next st st' ds → Semantics.stmtScalarsFold α env st' = true →
      Fits env.decls n next Γ → Holds env.decls next ds → next + ds.length ≤ n →
      ∀ {cond : Option Operand} {a : Allocator α} {σ : Store K}, a.Tidy → Outer a cond →
      Leads F ps (On env value contents ps cond Γ σ)
        (fun _ => On env value contents ps cond Γ (Semantics.stmt env F value σ st'))
        a (stmt env cond st') fun _ _ => True
  | _, _, _, _, _, .assign hv hq he, hf, hΓ, _, hn, _, _, _, ha, houter => by
    rw [Semantics.stmtScalarsFold] at hf
    exact simulates_assign hA hΓ hn hv hq he hf ha houter _
  | _, _, _, _, _, .ifThen hc hst, hf, hΓ, hds, hn, _, _, σ, ha, houter => by
    have henv := nameable_of_accepted hA
    have hnext := Nat.le_trans (Nat.le_add_right _ _) hn
    rw [Semantics.stmtScalarsFold, Bool.and_eq_true] at hf
    rw [stmt, Semantics.stmt]
    refine leads_bind (simulates_enterIf hA hΓ hnext hc hf.1 ha houter) fun a₁ _ h₁ e₁ hk => ?_
    obtain ⟨k, rfl, -, hk⟩ := hk
    have hinner := outer_some hk
    exact leads_mono (fun _ h => h) (simulates_branch henv _ h₁ (houter.mono e₁) hinner
      (simulates_stmt hA hinit hst hf.2 hΓ hds hn h₁ hinner)) fun _ _ h => h.1
  | _, _, _, _, _, @StmtTyped.ifElse _ _ _ _ _ _ _ _ ds es hc hst hno, hf, hΓ, hds, hn, _, _, σ, ha,
      houter => by
    have henv := nameable_of_accepted hA
    have hnext := Nat.le_trans (Nat.le_add_right _ _) hn
    rw [List.length_append, ← Nat.add_assoc] at hn
    have hyes := Nat.le_trans (Nat.le_add_right _ _) hn
    rw [Semantics.stmtScalarsFold, Bool.and_eq_true, Bool.and_eq_true] at hf
    rw [stmt, Semantics.stmt]
    refine leads_bind (simulates_enterIf hA hΓ hnext hc hf.1.1 ha houter) fun a₁ _ h₁ e₁ hk => ?_
    obtain ⟨k, rfl, hle, hk⟩ := hk
    have hinner := outer_some hk
    refine leads_bind (simulates_branch henv _ h₁ (houter.mono e₁) hinner
      (simulates_stmt hA hinit hst hf.1.2 hΓ hds.append.1 hyes h₁ hinner)) fun a₂ _ h₂ e₂ _ => ?_
    refine leads_bind (simulates_enterElse henv h₂ houter hle) fun a₃ _ h₃ e₃ _ => ?_
    have hinner₃ := hinner.mono (e₂.trans e₃)
    exact leads_mono (fun _ h => h) (simulates_branch henv _ h₃
      (houter.mono ((e₁.trans e₂).trans e₃)) hinner₃
      (simulates_stmt hA hinit hno hf.2 (hΓ.mono (Nat.le_add_right _ _)) hds.append.2 hn h₃
        hinner₃)) fun _ _ h => h.1
  | _, _, _, _, _, .loop _ _, _, _, _, _, _, _, _, _, _ => by
    rw [stmt]
    intro _ _ _ hrun
    cases hrun
  | _, next, _, _, _, @StmtTyped.scope Γ _ _ _ ds es _ _ hdecls hss, hf, hΓ, hds, hn, _, _, σ, ha,
      houter => by
    rw [Semantics.stmtScalarsFold] at hf
    rw [List.length_append, ← Nat.add_assoc] at hn
    have hown := Nat.le_trans (Nat.le_add_right _ _) hn
    have hΓ' := Fits.declsTyped hdecls hΓ.push hds.append.1
    rw [stmt, Semantics.stmt]
    refine leads_mono (fun ρ h => ?_) (leads_bind
      (simulates_decls (σ := σ) hA hinit hdecls hΓ.push hds.append.1 hown ha houter)
      fun a₁ _ h₁ e₁ _ => simulates_stmts hA hinit hss hf hΓ' hds.append.2 hn h₁ (houter.mono e₁))
      fun _ ρ h => ?_
    -- the block opens empty, and behind it only the blocks around it are in scope
    · exact ⟨h.truth, h.loaded, h.live, h.tracks.mono fun b hb => List.mem_cons.mp hb⟩
    · refine ⟨h.truth, h.loaded, h.live, h.tracks.mono fun b hb => .inr ?_⟩
      exact hdecls.mem_of_mem_tail hb

theorem simulates_stmts [IsStrictOrderedRing K] (hA : Accepted env n)
    (hinit : ∀ d ∈ env.decls, ∀ e, d.init = some e → Semantics.scalarsFold α env e = true) :
    ∀ {Γ : Context} {next : DeclId} {ss : List Ast.Stmt} {ss' : List Stmt} {ds : List Declaration},
      StmtsTyped Γ next ss ss' ds → Semantics.stmtsScalarsFold α env ss' = true →
      Fits env.decls n next Γ → Holds env.decls next ds → next + ds.length ≤ n →
      ∀ {cond : Option Operand} {a : Allocator α} {σ : Store K}, a.Tidy → Outer a cond →
      Leads F ps (On env value contents ps cond Γ σ)
        (fun _ => On env value contents ps cond Γ (Semantics.stmts env F value σ ss'))
        a (stmts env cond ss') fun _ _ => True
  | _, _, _, _, _, .nil, _, _, _, _, _, _, _, ha, houter => by
    rw [stmts, Semantics.stmts]
    exact leads_of_emits (emits_pure ha trivial) (houter.ignores_on (nameable_of_accepted hA))
  | _, _, _, _, _, @StmtsTyped.cons _ _ _ _ _ _ ds es hst hss, hf, hΓ, hds, hn, _, _, σ, ha,
      houter => by
    rw [Semantics.stmtsScalarsFold, Bool.and_eq_true] at hf
    rw [List.length_append, ← Nat.add_assoc] at hn
    have hhead := Nat.le_trans (Nat.le_add_right _ _) hn
    rw [stmts, Semantics.stmts]
    exact leads_bind (simulates_stmt hA hinit hst hf.1 hΓ hds.append.1 hhead ha houter)
      fun _ _ h₁ e₁ _ => simulates_stmts hA hinit hss hf.2 (hΓ.mono (Nat.le_add_right _ _))
        hds.append.2 hn h₁ (houter.mono e₁)

end

end Live

end Lower

end Shader
