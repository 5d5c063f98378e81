import Shader.Proofs.OperatorCode
import Shader.Proofs.SourceSemantics

/-!
# The code of an expression computes its value

If the registers of the variables hold the values of a store, then the code of a typed expression
runs and leaves the value of the expression, as far as its type has components. The code of a scalar
leaves its number in all four components: this is what `Shows` adds for scalars, and what makes it
right to read a scalar's register whole.

A constructor of a scalar that is not folded would leave the other three components as they were, so
here all of them must fold (`Semantics.scalarsFold`).
-/

namespace Shader

open Lower Machine TypeSystem
open Program (Expr)
open Number (Scalar)

/-! ## Values as far as a type goes -/

/-- `Shows t v w`: `v` has the components of the value `w` of type `t`, and if `t` is a scalar then
both are one number. -/
inductive Shows {K : Type} (t : Ty) : Vec K → Vec K → Prop where
  | scalar (x : K) : t.order = 1 → Shows t (.splat x) (.splat x)
  | vector {v w : Vec K} : t.order ≠ 1 → (∀ c ∈ t.components, v c = w c) → Shows t v w

/-- A scalar is in all four components of its register. -/
theorem mem_components_of_scalar {t : Ty} (h : t.order = 1) (c : Component) :
    c ∈ t.components := by
  rw [Ty.components, if_pos (by simp [Ty.isScalar, h])]
  cases c <;> simp [Component.all]

theorem components_of_vector {t : Ty} (h : t.order ≠ 1) :
    t.components = Component.all.take t.order.toNat := by
  rw [Ty.components, if_neg (by simp [Ty.isScalar, h])]

theorem mem_components {t : Ty} {c : Component} (h : (c.index : Int) < t.order) :
    c ∈ t.components := by
  by_cases hs : t.order = 1
  · exact mem_components_of_scalar hs c
  · rw [components_of_vector hs]
    refine List.mem_of_getElem? (i := c.index) ?_
    rw [List.getElem?_take_of_lt (by omega), Component.getElem?_all_index]

section Shows

variable {K : Type} {t : Ty} {v w : Vec K}

theorem Shows.apply (h : Shows t v w) {c : Component} (hc : c ∈ t.components) : v c = w c := by
  cases h with
  | scalar => rfl
  | vector _ heq => exact heq c hc

/-- Values of a scalar type are one number in all components. -/
theorem Shows.splat (h : Shows t v w) (ht : t.order = 1) : ∃ x, v = .splat x ∧ w = .splat x := by
  cases h with
  | scalar x => exact ⟨x, rfl, rfl⟩
  | vector hne => exact absurd ht hne

/-- Operations by components keep what is shown. -/
theorem Shows.map (f : K → K) (h : Shows t v w) :
    Shows t (fun c => f (v c)) (fun c => f (w c)) := by
  cases h with
  | scalar x ht => exact .scalar (f x) ht
  | vector ht heq => exact .vector ht fun c hc => by rw [heq c hc]

/-- An operation on each component, of operands that have the components of the result. -/
theorem Shows.map₂ {l r : Ty} {u u' v v' : Vec K} (f : K → K → K) (hu : Shows l u u')
    (hv : Shows r v v') (hl : ∀ c ∈ t.components, c ∈ l.components)
    (hr : ∀ c ∈ t.components, c ∈ r.components)
    (hs : t.order = 1 → l.order = 1 ∧ r.order = 1) :
    Shows t (fun c => f (u c) (v c)) (fun c => f (u' c) (v' c)) := by
  by_cases ht : t.order = 1
  · obtain ⟨x, rfl, rfl⟩ := hu.splat (hs ht).1
    obtain ⟨y, rfl, rfl⟩ := hv.splat (hs ht).2
    exact .scalar (f x y) ht
  · exact .vector ht fun c hc => by rw [hu.apply (hl c hc), hv.apply (hr c hc)]

/-- A list of numbers as a value, of a type with as many components. -/
theorem shows_ofList [Zero K] {xs : List K} (h : (xs.length : Int) = t.order) :
    Shows t (.ofList xs) (.ofList xs) := by
  by_cases ht : t.order = 1
  · obtain ⟨x, rfl⟩ := List.length_eq_one_iff.mp (by omega : xs.length = 1)
    exact .scalar x ht
  · exact .vector ht fun _ _ => rfl

end Shows

namespace Lower

variable {α K : Type} [Field K] [LinearOrder K] {F : Functions K}
  {ρ : Registers K} {a a' : Allocator α} {o : Operand} {code : List Line}

/-! ## Operators -/

section Operators

variable {l r : Operand} {lt rt t : Ty} {u u' v v' : Vec K}

/-- Equality of two values, in all components. -/
theorem computes_equal_shows [IsStrictOrderedRing K] (ht : Named lt) (ha : a.Tidy)
    (hρ : HasTruth ρ) (hsl : Settled a.position l) (hsr : Settled a.position r)
    (hl : read ρ l = some u) (hr : read ρ r = some v) (hu : Shows lt u u') (hv : Shows lt v v')
    (hrun : Lower.run (equal l r lt) a = .ok (o, code, a')) :
    Computes F ρ code o (Semantics.holds (∀ c ∈ lt.components, u' c = v' c)) := by
  obtain ⟨hscalar, hvector⟩ := computes_equal (F := F) ht ha hρ hsl hsr hl hr hrun
  by_cases hone : lt.order = 1
  · obtain ⟨x, rfl, rfl⟩ := hu.splat hone
    obtain ⟨y, rfl, rfl⟩ := hv.splat hone
    have hiff : (∀ c ∈ lt.components, Vec.splat x c = Vec.splat y c) ↔ x = y :=
      ⟨fun h => h .x (mem_components_of_scalar hone .x), fun h _ _ => h⟩
    rw [Semantics.holds, decide_eq_decide.mpr hiff]
    exact hscalar hone
  · have hiff : (∀ c ∈ lt.components, u' c = v' c) ↔
        ∀ c ∈ Component.all.take lt.order.toNat, u c = v c := by
      rw [← components_of_vector hone]
      exact forall₂_congr fun c hc => by rw [hu.apply hc, hv.apply hc]
    rw [Semantics.holds, decide_eq_decide.mpr hiff]
    exact hvector hone

theorem settled_truth (p : Nat) (b : Bool) : Settled p (.of (.truth b)) :=
  ⟨Operand.plain_of _, by simp [Operand.of]⟩

theorem computes_compare_shows [IsStrictOrderedRing K] {x y : K} {b : Bool} (ha : a.Tidy)
    (hρ : HasTruth ρ) (hl : read ρ l = some (.splat x)) (hr : read ρ r = some (.splat y))
    (hrun : Lower.run (compare l r (.of (.truth b)) (.of (.truth (!b)))) a = .ok (o, code, a')) :
    Computes F ρ code o (.splat (truth (decide (x < y) == b))) := by
  have hread : ∀ b, read ρ (.of (.truth b)) = some (.splat (truth b)) := by
    intro b
    cases b
    · exact hρ.read_false
    · exact hρ.read_true
  have h := computes_compare (F := F) ha (settled_truth _ _) (settled_truth _ _) hl hr
    (hread b) (hread !b) hrun
  have heq : (fun c => if Vec.splat x c - Vec.splat y c < 0 then Vec.splat (truth b) c
      else Vec.splat (truth !b) c) = Vec.splat (truth (decide (x < y) == b) : K) := by
    funext c
    simp only [Vec.splat_apply, sub_neg]
    by_cases hxy : x < y
    · rw [if_pos hxy, decide_eq_true hxy]
      simp
    · rw [if_neg hxy, decide_eq_false hxy]
      simp
  rwa [heq] at h

/-- **Operators**: the code of a typed operator computes it. -/
theorem simulates_binary [IsStrictOrderedRing K] {op : BinaryOp} (h : BinaryRule op lt rt t)
    (hlt : Named lt) (ha : a.Tidy) (hρ : HasTruth ρ) (hsl : Settled a.position l)
    (hsr : Settled a.position r) (hl : read ρ l = some u) (hr : read ρ r = some v)
    (hu : Shows lt u u') (hv : Shows rt v v')
    (hrun : Lower.run (binary op l r lt rt t) a = .ok (o, code, a')) :
    ∃ w, Computes F ρ code o w ∧ Shows t w (Semantics.binary F lt u' v' op) := by
  have hsame : ∀ f : K → K → K, lt = t → rt = t →
      Shows t (fun c => f (u c) (v c)) (fun c => f (u' c) (v' c)) := by
    intro f hl hr
    subst hl hr
    exact hu.map₂ f hv (fun _ h => h) (fun _ h => h) fun h => ⟨h, h⟩
  cases h with
  | add => exact ⟨_, computes_direct ha hl hr rfl hrun, hsame (· + ·) rfl rfl⟩
  | sub => exact ⟨_, computes_direct ha hl hr rfl hrun, hsame (· - ·) rfl rfl⟩
  | mul => exact ⟨_, computes_direct ha hl hr rfl hrun, hsame (· * ·) rfl rfl⟩
  | scaleLeft =>
    exact ⟨_, computes_direct ha hl hr rfl hrun, hu.map₂ (· * ·) hv
      (fun c _ => mem_components_of_scalar rfl c) (fun _ h => h) fun h => ⟨rfl, h⟩⟩
  | scaleRight =>
    exact ⟨_, computes_direct ha hl hr rfl hrun, hu.map₂ (· * ·) hv (fun _ h => h)
      (fun c _ => mem_components_of_scalar rfl c) fun h => ⟨h, rfl⟩⟩
  | and => exact ⟨_, computes_direct ha hl hr rfl hrun, hsame min rfl rfl⟩
  | or => exact ⟨_, computes_direct ha hl hr rfl hrun, hsame max rfl rfl⟩
  | div =>
    obtain ⟨x, rfl, rfl⟩ := hu.splat rfl
    obtain ⟨y, rfl, rfl⟩ := hv.splat rfl
    exact ⟨_, computes_quotient ha rfl hsl hl hr hrun, .scalar (x * F.rcp y) rfl⟩
  | pow =>
    obtain ⟨x, rfl, rfl⟩ := hu.splat rfl
    obtain ⟨y, rfl, rfl⟩ := hv.splat rfl
    exact ⟨_, computes_power ha rfl hl hr hrun, .scalar (F.pow x y) rfl⟩
  | order hop =>
    -- the target has `<` only: the others swap the operands, the outcomes, or both
    obtain ⟨x, rfl, rfl⟩ := hu.splat rfl
    obtain ⟨y, rfl, rfl⟩ := hv.splat rfl
    simp only [List.mem_cons, List.not_mem_nil, or_false] at hop
    rcases hop with rfl | rfl | rfl | rfl
    · refine ⟨_, computes_compare_shows ha hρ hl hr hrun, ?_⟩
      rw [beq_true]
      exact .scalar _ rfl
    · refine ⟨_, computes_compare_shows ha hρ hr hl hrun, ?_⟩
      have hle : (decide (y < x) == false) = decide (x ≤ y) := by
        rw [beq_false, ← decide_not, decide_eq_decide, not_lt]
      rw [hle]
      exact .scalar _ rfl
    · refine ⟨_, computes_compare_shows ha hρ hr hl hrun, ?_⟩
      rw [beq_true]
      exact .scalar _ rfl
    · refine ⟨_, computes_compare_shows ha hρ hl hr hrun, ?_⟩
      have hle : (decide (x < y) == false) = decide (y ≤ x) := by
        rw [beq_false, ← decide_not, decide_eq_decide, not_lt]
      rw [hle]
      exact .scalar _ rfl
  | equate hop =>
    simp only [List.mem_cons, List.not_mem_nil, or_false] at hop
    rcases hop with rfl | rfl
    · exact ⟨_, computes_equal_shows hlt ha hρ hsl hsr hl hr hu hv hrun, .scalar _ rfl⟩
    -- an inequality is the negated equality, moved to the register that it is in
    · obtain ⟨res, code₁, a₁, more, hequal, hmov, rfl⟩ := run_bind_eq_ok.mp hrun
      obtain ⟨-, -, -, -, n, rfl, -⟩ :=
        emits_equal ha (Nat.le_refl _) hsl.plain hsr.plain res code₁ a₁ hequal
      obtain ⟨ρ₁, hrun₁, hread⟩ :=
        computes_equal_shows (F := F) hlt ha hρ hsl hsr hl hr hu hv hequal
      cases hmov
      have hneg : -(Semantics.holds (∀ c ∈ lt.components, u' c = v' c) : Vec K) =
          Semantics.holds (¬∀ c ∈ lt.components, u' c = v' c) := by
        funext c
        show -truth _ = truth _
        rw [neg_truth, decide_not]
      refine ⟨_, .after hrun₁ ⟨_, run_cons (step_one (read_neg hread) rfl),
        read_update_self _⟩, ?_⟩
      rw [hneg]
      exact .scalar _ rfl

/-- Operands that hold values of given types. -/
inductive ReadsAs (ρ : Registers K) : List Operand → List Ty → List (Vec K) → Prop where
  | nil : ReadsAs ρ [] [] []
  | cons {o : Operand} {t : Ty} {v w : Vec K} {os : List Operand} {ts : List Ty}
      {ws : List (Vec K)} :
      read ρ o = some v → Shows t v w → ReadsAs ρ os ts ws →
      ReadsAs ρ (o :: os) (t :: ts) (w :: ws)

section ReadsAs

variable {os : List Operand} {ts : List Ty} {ws : List (Vec K)}

omit [LinearOrder K] in
theorem ReadsAs.length (h : ReadsAs ρ os ts ws) : os.length = ts.length := by
  induction h with
  | nil => rfl
  | cons _ _ _ ih => rw [List.length_cons, List.length_cons, ih]

omit [LinearOrder K] in
theorem ReadsAs.length_values (h : ReadsAs ρ os ts ws) : os.length = ws.length := by
  induction h with
  | nil => rfl
  | cons _ _ _ ih => rw [List.length_cons, List.length_cons, ih]

omit [LinearOrder K] in
/-- One of the arguments, with its type and its value. -/
theorem ReadsAs.getElem? (h : ReadsAs ρ os ts ws) {i : Nat} {o : Operand}
    (ho : os[i]? = some o) : ∃ t v w, ts[i]? = some t ∧ ws[i]? = some w ∧ read ρ o = some v ∧
      Shows t v w := by
  induction h generalizing i with
  | nil => simp at ho
  | cons hread hshows _ ih =>
    cases i with
    | zero =>
      cases ho
      exact ⟨_, _, _, rfl, rfl, hread, hshows⟩
    | succ i => exact ih ho

end ReadsAs

/-- **Functions**: the code of a typed call computes it. -/
theorem simulates_call {f : Function} {ts : List Ty} (h : CallRule f ts t) (ha : a.Tidy)
    {os : List Operand} {ws : List (Vec K)} (hos : ReadsAs ρ os ts ws)
    (hrun : Lower.run (call f.name os) a = .ok (o, code, a')) :
    ∃ w, Computes F ρ code o w ∧ Shows t w (Semantics.call F f ws) := by
  rw [call, Checker.ofName?_name] at hrun
  cases h with
  | rsq =>
    obtain _ | ⟨hread, hshows, _ | _⟩ := hos
    obtain ⟨x, rfl, rfl⟩ := hshows.splat rfl
    exact ⟨_, computes_single ha (step_one (read_scalar hread) rfl) hrun, .scalar (F.rsq x) rfl⟩
  | @dp3 b n _ hn =>
    obtain _ | ⟨hread₁, hshows₁, _ | ⟨hread₂, hshows₂, _ | _⟩⟩ := hos
    have hmem : ∀ c : Component, c.index < 3 → c ∈ (⟨b, n⟩ : Ty).components := fun c hc =>
      mem_components (by show (c.index : Int) < n; omega)
    have hx := hmem .x (by decide)
    have hy := hmem .y (by decide)
    have hz := hmem .z (by decide)
    refine ⟨_, computes_single ha (step_two hread₁ hread₂ rfl) hrun, ?_⟩
    rw [hshows₁.apply hx, hshows₁.apply hy, hshows₁.apply hz, hshows₂.apply hx,
      hshows₂.apply hy, hshows₂.apply hz]
    exact .scalar _ rfl
  | lit =>
    obtain _ | ⟨hread, hshows, _ | _⟩ := hos
    refine ⟨_, computes_single ha (step_one hread rfl) hrun, ?_⟩
    have heq : ∀ {v w : Vec K}, Shows .vec4 v w → v = w := fun h => funext fun c =>
      h.apply (mem_components (by cases c <;> decide))
    rw [heq hshows]
    exact .vector (by decide) fun _ _ => rfl

end Operators

/-! ## Registers and stores -/

/-- Registers in which constants are loaded. -/
structure Loaded (value : α → K) (contents : Registers K) (ps : List (Param α))
    (ρ : Registers K) : Prop where
  regs : ∀ p ∈ ps, IsConstant p.reg
  values : ∀ p ∈ ps, ρ p.reg = paramValue value contents p.value

/-- Registers that hold the values of a store. The scalars in scope are single numbers, and so are
the constants, in scope or not. -/
structure Tracks (env : Env) (Γ : Context) (σ : Store K) (ρ : Registers K) : Prop where
  registers : ∀ (id : DeclId) (d : Declaration) (r : Register), env.decls[id]? = some d →
    env.symbols.register? id = some r → ∀ c ∈ d.type.components, ρ r c = σ id c
  numbers : ∀ b ∈ Γ, ∀ p ∈ b, p.2.qualifier ≠ .result → p.2.type.order = 1 →
    ∃ x, σ p.2.id = .splat x
  constants : ∀ (id : DeclId) (d : Declaration), env.decls[id]? = some d → d.isConst = true →
    d.type.order = 1 → ∃ x, σ id = .splat x

section Registers

variable {env : Env} {Γ : Context} {σ : Store K} {value : α → K} {contents : Registers K}
  {ps : List (Param α)} {ρ' : Registers K}

omit [LinearOrder K] in
theorem Loaded.congr (h : Loaded value contents ps ρ) (heq : ∀ r, IsConstant r → ρ' r = ρ r) :
    Loaded value contents ps ρ' where
  regs := h.regs
  values := fun p hp => (heq p.reg (h.regs p hp)).trans (h.values p hp)

omit [LinearOrder K] in
/-- The constants true and false are among those that are loaded. -/
theorem Loaded.hasTruth (h : Loaded value contents ps ρ) (ha : a.Tidy)
    (hps : a.program.immediates ⊆ ps) : HasTruth ρ where
  yes := h.values ⟨.truth true, .truth true⟩ (hps (ha.common (by simp)))
  no := h.values ⟨.truth false, .truth false⟩ (hps (ha.common (by simp)))

omit [Field K] [LinearOrder K] in
/-- The values of variables are in their own registers. -/
theorem Tracks.congr (h : Tracks env Γ σ ρ) (henv : Nameable env)
    (heq : ∀ r, IsVariable r → ρ' r = ρ r) : Tracks env Γ σ ρ' where
  registers := by
    intro id d r hd hr c hc
    rw [heq r (henv id r hr)]
    exact h.registers id d r hd hr c hc
  numbers := h.numbers
  constants := h.constants

theorem not_scratchFrom_of_isConstant {p : Nat} {r : Register} (h : IsConstant r) :
    ¬ScratchFrom p r := by
  rintro ⟨n, rfl, -⟩
  cases h

theorem not_scratchFrom_of_isVariable {p : Nat} {r : Register} (h : IsVariable r) :
    ¬ScratchFrom p r := by
  rintro ⟨n, rfl, -⟩
  cases h

omit [LinearOrder K] in
/-- Code that writes scratch registers from `p` on does not change an operand of before. -/
theorem Settled.read_eq {p : Nat} (h : Settled p o)
    (heq : ∀ r, ¬ScratchFrom p r → ρ' r = ρ r) : read ρ' o = read ρ o := by
  refine read_congr (heq o.reg ?_)
  rintro ⟨n, hn, hle⟩
  exact absurd (h.below n hn) (Nat.not_lt.mpr hle)

end Registers

/-! ## Expressions -/

section Exprs

variable [Scalar α] {env : Env} {n next : Nat} {Γ : Context} {σ : Store K} {value : α → K}
  {contents : Registers K} {ps : List (Param α)}

/-- The registers of an accepted program's variables are their own. -/
theorem nameable_of_accepted (hA : Accepted env n) : Nameable env := by
  intro id r hr
  obtain ⟨d, -, hfit⟩ := hA.sound.fitting _ (Symbols.mem_of_register? hr)
  cases hfit with
  | own k _ => exact .user _ k
  | hardware h => exact .hardware h

theorem index_of_getElem? {i : Nat} {c : Component} (h : Component.all[i]? = some c) :
    c.index = i := by
  match i, h with
  | 0, h => cases h; rfl
  | 1, h => cases h; rfl
  | 2, h => cases h; rfl
  | 3, h => cases h; rfl
  | _ + 4, h => cases h

theorem index_get {i : Nat} (hi : i < 4) : (Component.all.get ⟨i, hi⟩).index = i :=
  index_of_getElem? (List.getElem?_eq_getElem hi)

/-- A variable or a component that may be read is where its register is. -/
theorem simulates_access (hA : Accepted env n) (hΓ : Fits env.decls n next Γ) {v : Ast.Var}
    {v' : Expr} {x : Variable} {t : Ty} (h : Access Γ v v' x t) (hq : x.qualifier ≠ .result)
    (hσ : Tracks env Γ σ ρ) (hrun : Lower.run (target env v') a = .ok (o, code, a')) :
    ∃ u, Computes F ρ code o u ∧ Shows t u (Semantics.expr env F value σ v') := by
  cases h with
  | @whole pos name x hx =>
    obtain ⟨d, hd, -, ht, -⟩ := hΓ.lists.decl_of_finds hx
    obtain ⟨r, hr, -⟩ := hA.listed x.id d hd
    obtain ⟨b, hb, hmem⟩ := hx.mem
    rw [target, register_eq_pure hr] at hrun
    cases hrun
    refine ⟨ρ r, ⟨ρ, rfl, read_of _ _⟩, ?_⟩
    have hregs := hσ.registers x.id d r hd hr
    have hty : Program.refType env.decls ⟨name, some x.id, pos⟩ = x.type := by
      rw [Program.refType, Option.bind_some, hd]
      exact ht
    rw [ht] at hregs
    rw [Semantics.expr, Semantics.variableValue]
    dsimp only
    rw [hty]
    -- a scalar in scope is one number, so its register holds that number four times
    by_cases hone : x.type.order = 1
    · obtain ⟨y, hy⟩ := hσ.numbers b hb _ hmem hq hone
      have hρ : ρ r = .splat y := by
        funext c
        rw [hregs c (mem_components_of_scalar hone c), hy]
      rw [if_pos (by simp [Ty.isScalar, hone]), hρ, hy]
      exact .scalar y hone
    · rw [if_neg (by simp [Ty.isScalar, hone])]
      exact .vector hone hregs
  | @component pos name x i hx hvec hi =>
    obtain ⟨d, hd, -, ht, -⟩ := hΓ.lists.decl_of_finds hx
    obtain ⟨r, hr, -⟩ := hA.listed x.id d hd
    have hlt := lt_four_of_finds hΓ.named hx hi
    rw [target, indexed_eq_pure hr _ _ hlt] at hrun
    cases hrun
    refine ⟨_, ⟨ρ, rfl, read_component_of _ _ _⟩, ?_⟩
    have hmem : Component.all.get ⟨i, hlt⟩ ∈ d.type.components :=
      mem_components (by rw [index_get, ht]; exact hi)
    rw [Semantics.expr, Semantics.componentValue, ofIndex?_of_lt hlt]
    dsimp only
    rw [hσ.registers x.id d r hd hr _ hmem]
    exact .scalar _ rfl

omit [Scalar α] in
/-- A constant register has its value when the program begins, and needs no code. -/
theorem computes_immediate {v : ParamValue α}
    (hrun : Lower.run (immediate v) a = .ok (o, code, a')) (hps : a'.program.immediates ⊆ ps)
    (hρ : Loaded value contents ps ρ) :
    Computes F ρ code o (paramValue value contents v) := by
  cases hrun
  refine ⟨ρ, rfl, ?_⟩
  have hmem : (⟨.immediate a.constants, v⟩ : Param α) ∈ ps :=
    hps (List.mem_append_right _ (List.mem_singleton.mpr rfl))
  rw [read_of]
  exact congrArg some (hρ.values _ hmem)

omit [LinearOrder K] [Scalar α] in
/-- Code that writes scratch registers only leaves constants and variables alone. -/
theorem frame_scratch (henv : Nameable env) {p : Nat} {ρ' : Registers K}
    (heq : ∀ r, ¬ScratchFrom p r → ρ' r = ρ r)
    (h : Loaded value contents ps ρ ∧ Tracks env Γ σ ρ) :
    Loaded value contents ps ρ' ∧ Tracks env Γ σ ρ' :=
  ⟨h.1.congr fun r hr => heq r (not_scratchFrom_of_isConstant hr),
    h.2.congr henv fun r hr => heq r (not_scratchFrom_of_isVariable hr)⟩

/-- The code of a unary operator, if that of its operand computes what `P` says. -/
theorem computes_operand (henv : Nameable env) (ha : a.Tidy) {pos : Pos} {op : UnaryOp} {x : Expr}
    {t : Ty} {P : Vec K → Prop}
    (hrun : Lower.run (expr env (.unary pos op x t)) a = .ok (o, code, a'))
    (hps : a'.program.immediates ⊆ ps)
    (hx : ∀ {y : Operand} {code₁ : List Line} {a₁ : Allocator α},
      Lower.run (expr env x) a = .ok (y, code₁, a₁) → a₁.program.immediates ⊆ ps →
      ∃ v, Computes F ρ code₁ y v ∧ P v) :
    ∃ v, Computes F ρ code o (-v) ∧ P v := by
  rw [expr] at hrun
  obtain ⟨y, code₁, a₁, code₂, h₁, h₂, rfl⟩ := run_bind_eq_ok.mp hrun
  obtain ⟨ht₁, -, -, hleaves⟩ := emits_expr henv _ ha _ _ _ h₁
  obtain ⟨-, he₂, -, -⟩ := emits_single rfl (plain_single hleaves.2.plain.neg) ht₁
    (Nat.le_refl _) _ _ _ h₂
  obtain ⟨v, ⟨ρ₁, hm, hread⟩, hv⟩ := hx h₁ fun _ hp => hps (he₂.immediates hp)
  exact ⟨v, .after hm (computes_single ht₁ (step_one (read_neg hread) rfl) h₂), hv⟩

/-- The code of a binary operator, if that of its operands computes what `P` and `Q` say as long as
the registers are in `I`, and that of the operator makes of it what `R` says. -/
theorem computes_operands (henv : Nameable env) (ha : a.Tidy) {pos : Pos} {op : BinaryOp}
    {l r : Expr} {t : Ty} {I : Registers K → Prop} {P Q R : Vec K → Prop}
    (hI : ∀ {p : Nat} {ρ₁ ρ₂ : Registers K}, (∀ r, ¬ScratchFrom p r → ρ₂ r = ρ₁ r) → I ρ₁ → I ρ₂)
    (hrun : Lower.run (expr env (.binary pos op l r t)) a = .ok (o, code, a'))
    (hps : a'.program.immediates ⊆ ps) (hρ : I ρ)
    (hl : ∀ {x : Operand} {code₁ : List Line} {a₁ : Allocator α},
      Lower.run (expr env l) a = .ok (x, code₁, a₁) → a₁.program.immediates ⊆ ps →
      ∃ u, Computes F ρ code₁ x u ∧ P u)
    (hr : ∀ {y : Operand} {code₂ : List Line} {a₁ a₂ : Allocator α} {ρ₁ : Registers K}, a₁.Tidy →
      Lower.run (expr env r) a₁ = .ok (y, code₂, a₂) → a₂.program.immediates ⊆ ps → I ρ₁ →
      ∃ v, Computes F ρ₁ code₂ y v ∧ Q v)
    (hop : ∀ {x y : Operand} {code₃ : List Line} {a₂ : Allocator α} {ρ₂ : Registers K}
      {u v : Vec K}, a₂.Tidy → a₂.program.immediates ⊆ ps → I ρ₂ → Settled a₂.position x →
      Settled a₂.position y → read ρ₂ x = some u → read ρ₂ y = some v → P u → Q v →
      Lower.run (binary op x y (l.type env.decls) (r.type env.decls) t) a₂ = .ok (o, code₃, a') →
      ∃ w, Computes F ρ₂ code₃ o w ∧ R w) :
    ∃ w, Computes F ρ code o w ∧ R w := by
  rw [expr] at hrun
  obtain ⟨x, code₁, a₁, rest, h₁, hrest, rfl⟩ := run_bind_eq_ok.mp hrun
  obtain ⟨y, code₂, a₂, code₃, h₂, h₃, rfl⟩ := run_bind_eq_ok.mp hrest
  obtain ⟨ht₁, -, -, hx⟩ := emits_expr henv _ ha _ _ _ h₁
  obtain ⟨ht₂, he₂, -, hy⟩ := emits_expr henv _ ht₁ _ _ _ h₂
  obtain ⟨-, he₃, -, -⟩ := emits_binary ht₂ (Nat.le_refl _) hx.2.plain hy.2.plain _ _ _ h₃
  have hps₂ : a₂.program.immediates ⊆ ps := fun _ hp => hps (he₃.immediates hp)
  obtain ⟨u, ⟨ρ₁, hm₁, hread₁⟩, hu⟩ := hl h₁ fun _ hp => hps₂ (he₂.immediates hp)
  have hρ₁ : I ρ₁ := hI (fun r hr => (emits_expr henv _ ha).frame h₁ hm₁ hr) hρ
  obtain ⟨v, ⟨ρ₂, hm₂, hread₂⟩, hv⟩ := hr ht₁ h₂ hps₂ hρ₁
  have hframe₂ : ∀ r, ¬ScratchFrom a₁.position r → ρ₂ r = ρ₁ r := fun r hr =>
    (emits_expr henv _ ht₁).frame h₂ hm₂ hr
  -- the left operand was settled before the code of the right one
  have hread₁' : read ρ₂ x = some u := by rw [hx.2.read_eq hframe₂, hread₁]
  obtain ⟨w, hcomp, hw⟩ :=
    hop ht₂ hps₂ (hI hframe₂ hρ₁) (hx.2.mono hy.1) hy.2 hread₁' hread₂ hu hv h₃
  exact ⟨w, .after hm₁ (.after hm₂ hcomp), hw⟩

omit [Scalar α] in
/-- A constructor that is not folded puts the first components of its arguments side by side. -/
theorem simulates_assemble {b : BaseType} {k : Nat} (hk : k ≠ 1) (ha : a.Tidy) {os : List Operand}
    {ws : List (Vec K)} (hos : ReadsAs ρ os (List.replicate k ⟨b, 1⟩) ws)
    (hsettled : ∀ o ∈ os, Settled a.position o)
    (hrun : Lower.run (assemble os) a = .ok (o, code, a')) :
    ∃ v, Computes F ρ code o v ∧ Shows ⟨b, k⟩ v (.ofList (ws.map (· .x))) := by
  have hlen : os.length = k := by
    have := hos.length
    rwa [List.length_replicate] at this
  have horder : (⟨b, k⟩ : Ty).order ≠ 1 := by
    show (k : Int) ≠ 1
    omega
  have hargs : ∀ q ∈ Component.all.zip os,
      read ρ q.2.scalar = some (.splat ((ws.map (· .x)).getD q.1.index 0)) ∧
        q.2.scalar.reg ≠ .temp a.position := by
    intro q hq
    obtain ⟨i, hi⟩ := List.getElem?_of_mem hq
    obtain ⟨hc, ho⟩ := List.getElem?_zip_eq_some.mp hi
    obtain ⟨t, u, w, ht, hw, hread, hshows⟩ := hos.getElem? ho
    have hone : t.order = 1 := by
      rw [List.getElem?_replicate, Option.ite_none_right_eq_some] at ht
      rw [← Option.some.inj ht.2]
    obtain ⟨x, rfl, rfl⟩ := hshows.splat hone
    refine ⟨?_, (hsettled _ (List.mem_of_getElem? ho)).scalar_reg_ne⟩
    rw [read_scalar hread, index_of_getElem? hc, List.getD_eq_getElem?_getD, List.getElem?_map, hw]
    rfl
  obtain ⟨v, hcomp, hv⟩ := computes_assemble (F := F)
    (fun c => (ws.map (· .x)).getD c.index 0) ha hargs hrun
  refine ⟨v, hcomp, .vector horder fun c hc => ?_⟩
  rw [components_of_vector horder] at hc
  rw [hv c (by rw [hlen]; exact hc), Vec.ofList]
  -- a single argument is the other way to read a list of numbers
  intro x hx
  have := congrArg List.length hx
  rw [List.length_map, ← hos.length_values, hlen] at this
  exact hk this

/-- The code of a constructor, which folds to as many numbers as it has components or is put
together from its arguments. -/
theorem run_construct_cases (hA : Accepted env n) (hΓ : Fits env.decls n next Γ) (hn : next ≤ n)
    {pos : Pos} {b : BaseType} {k : Nat} {args : List Ast.Expr} {args' : List Expr}
    (ht : Named ⟨b, k⟩) (hargs : TypedList Γ args args' (List.replicate k ⟨b, 1⟩))
    (hrun : Lower.run (expr env (.construct pos ⟨b, k⟩ args')) a = .ok (o, code, a')) :
    (∃ xs : List α, reduce env (.construct pos ⟨b, k⟩ args') = .ok (some (.literal xs)) ∧
      (xs.length : Int) = k ∧
      Lower.run (immediate (.constant (.literal xs))) a = .ok (o, code, a')) ∨
    Semantics.foldsToNumbers α env (.construct pos ⟨b, k⟩ args') = false ∧
      Lower.run (exprs env args' >>= assemble) a = .ok (o, code, a') := by
  have htyped : Typed Γ (.construct pos ⟨b, k⟩ args) (.construct pos ⟨b, k⟩ args') ⟨b, k⟩ :=
    .construct ht hargs
  obtain ⟨c, hc, hshape⟩ := Reduce.folds_reduce (α := α) hA hΓ hn htyped
  have hlen : args'.length ≤ Component.all.length := by
    rw [hargs.length, List.length_replicate]
    exact Int.ofNat_le.mp ht.2.2
  rw [expr, hc, if_pos hlen] at hrun
  obtain ⟨c', code₁, a₁, code₂, h₁, h₂, rfl⟩ := run_bind_eq_ok.mp hrun
  cases h₁
  rw [Semantics.foldsToNumbers, hc]
  rcases c with _ | xs | ⟨_, _⟩
  · exact .inr ⟨rfl, h₂⟩
  · exact .inl ⟨xs, rfl, hshape, h₂⟩
  · exact .inr ⟨rfl, h₂⟩

/-- **Constructors**: one that folds is a constant, and any other is a vector of its arguments. -/
theorem simulates_construct (hA : Accepted env n) (hΓ : Fits env.decls n next Γ) (hn : next ≤ n)
    {pos : Pos} {b : BaseType} {k : Nat} {args : List Ast.Expr} {args' : List Expr}
    (ht : Named ⟨b, k⟩) (hargs : TypedList Γ args args' (List.replicate k ⟨b, 1⟩))
    (hf : Semantics.scalarsFold α env (.construct pos ⟨b, k⟩ args') = true) (ha : a.Tidy)
    (hrun : Lower.run (expr env (.construct pos ⟨b, k⟩ args')) a = .ok (o, code, a'))
    (hps : a'.program.immediates ⊆ ps) (hρ : Loaded value contents ps ρ)
    (hvalues : ∀ {os : List Operand} {code₁ : List Line} {a₁ : Allocator α},
      Lower.run (exprs env args') a = .ok (os, code₁, a₁) → a₁.program.immediates ⊆ ps →
      ∃ ρ₁, Machine.run F (instructions code₁) ρ = some ρ₁ ∧
        ReadsAs ρ₁ os (List.replicate k ⟨b, 1⟩) (Semantics.exprs env F value σ args')) :
    ∃ v, Computes F ρ code o v ∧
      Shows ⟨b, k⟩ v (Semantics.expr env F value σ (.construct pos ⟨b, k⟩ args')) := by
  rcases run_construct_cases hA hΓ hn ht hargs hrun with ⟨xs, hxs, hlen, hrun⟩ | ⟨hfresh, hrun⟩
  · rw [Semantics.expr, hxs]
    exact ⟨_, computes_immediate hrun hps hρ, shows_ofList (by rw [List.length_map]; exact hlen)⟩
  · -- what is not folded is no scalar, by the condition on their constructors
    have hk : k ≠ 1 := by
      rintro rfl
      rw [Semantics.scalarsFold, hfresh, Bool.or_false, Bool.and_eq_true] at hf
      exact absurd hf.1 (by simp [Ty.isScalar])
    obtain ⟨os, code₁, a₁, code₂, h₁, h₂, rfl⟩ := run_bind_eq_ok.mp hrun
    obtain ⟨ht₁, -, -, hos⟩ := emits_exprs (nameable_of_accepted hA) _ ha _ _ _ h₁
    obtain ⟨-, he₂, -, -⟩ := emits_assemble ht₁ (Nat.le_refl _)
      (fun o ho => (hos.2 o ho).plain) _ _ _ h₂
    obtain ⟨ρ₁, hm, hreads⟩ := hvalues h₁ fun _ hp => hps (he₂.immediates hp)
    obtain ⟨v, hcomp, hv⟩ := simulates_assemble (F := F) hk ht₁ hreads hos.2 h₂
    refine ⟨v, .after hm hcomp, ?_⟩
    rw [Semantics.expr_construct_of_fresh hfresh]
    exact hv

mutual

/-- **The code of an expression computes its value.** -/
theorem simulates_expr [IsStrictOrderedRing K] (hA : Accepted env n)
    (hΓ : Fits env.decls n next Γ) (hn : next ≤ n) :
    ∀ {e : Ast.Expr} {e' : Expr} {t : Ty}, Typed Γ e e' t → Semantics.scalarsFold α env e' = true →
      ∀ {a a' : Allocator α} {o : Operand} {code : List Line} {ρ : Registers K}, a.Tidy →
      Lower.run (expr env e') a = .ok (o, code, a') → a'.program.immediates ⊆ ps →
      Loaded value contents ps ρ → Tracks env Γ σ ρ →
      ∃ v, Computes F ρ code o v ∧ Shows t v (Semantics.expr env F value σ e')
  | _, _, _, .int, _, _, _, _, _, _, _, hrun, hps, hρ, _ => by
    rw [expr] at hrun
    rw [Semantics.expr]
    exact ⟨_, computes_immediate hrun hps hρ, .scalar _ rfl⟩
  | _, _, _, .float, _, _, _, _, _, _, _, hrun, hps, hρ, _ => by
    rw [expr] at hrun
    rw [Semantics.expr]
    exact ⟨_, computes_immediate hrun hps hρ, .scalar _ rfl⟩
  | _, _, _, .bool, _, _, _, _, _, _, _, hrun, hps, hρ, _ => by
    rw [expr] at hrun
    rw [Semantics.expr]
    exact ⟨_, computes_immediate hrun hps hρ, .scalar _ rfl⟩
  | _, _, _, .var hacc hq, _, _, _, _, _, _, _, hrun, _, _, hσ => by
    rw [expr_access hacc] at hrun
    exact simulates_access hA hΓ hacc hq hσ hrun
  -- both operators are the sign, as truth values are one and minus one
  | _, _, _, .unary he hop, hf, _, _, _, _, _, ha, hrun, hps, hρ, hσ => by
    rw [Semantics.scalarsFold] at hf
    obtain ⟨v, hcomp, hshows⟩ := computes_operand (F := F) (nameable_of_accepted hA) ha hrun hps
      fun h₁ hps₁ => simulates_expr hA hΓ hn he hf ha h₁ hps₁ hρ hσ
    refine ⟨-v, hcomp, ?_⟩
    rw [Semantics.expr]
    cases hop with
    | neg => exact hshows.map (fun x => -x)
    | not => exact hshows.map (fun x => -x)
  | _, _, _, .binary he hf hop, hfold, _, _, _, _, _, ha, hrun, hps, hρ, hσ => by
    have henv := nameable_of_accepted hA
    rw [Semantics.scalarsFold, Bool.and_eq_true] at hfold
    -- the code of the right operand leaves the left one's register and the variables alone
    refine computes_operands henv ha (frame_scratch henv) hrun hps ⟨hρ, hσ⟩
      (fun h₁ hps₁ => simulates_expr hA hΓ hn he hfold.1 ha h₁ hps₁ hρ hσ)
      (fun ht₁ h₂ hps₂ hρ₁ => simulates_expr hA hΓ hn hf hfold.2 ht₁ h₂ hps₂ hρ₁.1 hρ₁.2) ?_
    intro x y code₃ a₂ ρ₂ u v ht₂ hps₂ hρ₂ hx hy hread₁ hread₂ hu hv h₃
    rw [type_of_typed hΓ.lists he, type_of_typed hΓ.lists hf] at h₃
    rw [Semantics.expr, type_of_typed hΓ.lists he]
    exact simulates_binary hop (he.named hΓ.named) ht₂ (hρ₂.1.hasTruth ht₂ hps₂) hx hy hread₁ hread₂
      hu hv h₃
  | _, _, _, .call hargs hcall, hf, _, _, _, _, _, ha, hrun, hps, hρ, hσ => by
    have henv := nameable_of_accepted hA
    rw [Semantics.scalarsFold] at hf
    rw [expr] at hrun
    obtain ⟨os, code₁, a₁, code₂, h₁, h₂, rfl⟩ := run_bind_eq_ok.mp hrun
    obtain ⟨ht₁, -, -, hos⟩ := emits_exprs henv _ ha _ _ _ h₁
    obtain ⟨-, he₂, -, -⟩ := emits_call ht₁ (Nat.le_refl _) (fun o ho => (hos.2 o ho).plain)
      _ _ _ h₂
    obtain ⟨ρ₁, hm, hreads⟩ := simulates_exprs hA hΓ hn hargs hf ha h₁
      (fun _ hp => hps (he₂.immediates hp)) hρ hσ
    obtain ⟨w, hcomp, hw⟩ := simulates_call (F := F) hcall ht₁ hreads h₂
    refine ⟨w, .after hm hcomp, ?_⟩
    rw [Semantics.expr, Checker.ofName?_name]
    exact hw
  | _, _, _, @Typed.construct _ pos b k args args' ht hargs, hf, _, _, _, _, _, ha, hrun, hps, hρ,
      hσ => by
    have hall : Semantics.scalarsFoldAll α env args' = true := by
      rw [Semantics.scalarsFold, Bool.and_eq_true] at hf
      exact hf.2
    exact simulates_construct hA hΓ hn ht hargs hf ha hrun hps hρ fun h₁ hps₁ =>
      simulates_exprs hA hΓ hn hargs hall ha h₁ hps₁ hρ hσ

theorem simulates_exprs [IsStrictOrderedRing K] (hA : Accepted env n)
    (hΓ : Fits env.decls n next Γ) (hn : next ≤ n) :
    ∀ {es : List Ast.Expr} {es' : List Expr} {ts : List Ty}, TypedList Γ es es' ts →
      Semantics.scalarsFoldAll α env es' = true →
      ∀ {a a' : Allocator α} {os : List Operand} {code : List Line} {ρ : Registers K}, a.Tidy →
      Lower.run (exprs env es') a = .ok (os, code, a') → a'.program.immediates ⊆ ps →
      Loaded value contents ps ρ → Tracks env Γ σ ρ →
      ∃ ρ', Machine.run F (instructions code) ρ = some ρ' ∧
        ReadsAs ρ' os ts (Semantics.exprs env F value σ es')
  | _, _, _, .nil, _, _, _, _, _, ρ, _, hrun, _, _, _ => by
    rw [exprs] at hrun
    cases hrun
    rw [Semantics.exprs]
    exact ⟨ρ, rfl, .nil⟩
  | _, _, _, .cons he hes, hf, _, _, _, _, _, ha, hrun, hps, hρ, hσ => by
    have henv := nameable_of_accepted hA
    rw [Semantics.scalarsFoldAll, Bool.and_eq_true] at hf
    rw [exprs] at hrun
    obtain ⟨o, code₁, a₁, rest, h₁, hrest, rfl⟩ := run_bind_eq_ok.mp hrun
    obtain ⟨os, code₂, a₂, code₃, h₂, h₃, rfl⟩ := run_bind_eq_ok.mp hrest
    cases h₃
    obtain ⟨ht₁, -, -, ho⟩ := emits_expr henv _ ha _ _ _ h₁
    obtain ⟨-, he₂, -, -⟩ := emits_exprs henv _ ht₁ _ _ _ h₂
    obtain ⟨v, ⟨ρ₁, hm₁, hread⟩, hshows⟩ := simulates_expr hA hΓ hn he hf.1 ha h₁
      (fun _ hp => hps (he₂.immediates hp)) hρ hσ
    -- each argument's code leaves alone the variables and the arguments before it
    obtain ⟨hρ₁, hσ₁⟩ := frame_scratch henv
      (fun r hr => (emits_expr henv _ ha).frame h₁ hm₁ hr) ⟨hρ, hσ⟩
    obtain ⟨ρ₂, hm₂, hreads⟩ := simulates_exprs hA hΓ hn hes hf.2 ht₁ h₂ hps hρ₁ hσ₁
    refine ⟨ρ₂, ?_, ?_⟩
    · rw [List.append_nil, instructions_append, run_append, hm₁]
      exact hm₂
    · rw [Semantics.exprs]
      refine .cons ?_ hshows hreads
      rw [ho.2.read_eq fun r hr => (emits_exprs henv _ ht₁).frame h₂ hm₂ hr, hread]

end

end Exprs

end Lower

end Shader
