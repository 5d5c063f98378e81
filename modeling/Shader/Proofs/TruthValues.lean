import Shader.Proofs.FoldingExact

/-!
# Truth values are one and minus one

The code looks at the sign of a condition only, and negates it for the `else`. Both are right for
one and minus one, and wrong for zero, whose opposite has the same sign. Comparisons give one or
minus one whatever they compare, and the logical operators keep to them. What can bring in another
number is a variable that was not given a value, and a constructor `bool(e)` that is not folded,
which leaves three components of its register as they were.

`Definite.expr` rules these out for one expression: what it reads is among the variables that have
been given truth values, and its constructors of this kind fold.
-/

namespace Shader

open Lower Machine TypeSystem
open Program (Expr)
open Number (Scalar)

/-! ## Numbers that are truth values -/

/-- One for true, minus one for false. -/
def IsTruth {K : Type} [Field K] (x : K) : Prop := x = 1 ∨ x = -1

section IsTruth

variable {K : Type} [Field K] {x y : K}

theorem isTruth_truth (b : Bool) : IsTruth (truth b : K) := by
  cases b
  · exact .inr rfl
  · exact .inl rfl

theorem IsTruth.neg (h : IsTruth x) : IsTruth (-x) := by
  rcases h with rfl | rfl
  · exact .inr rfl
  · exact .inl (neg_neg 1)

theorem IsTruth.ite {p : Prop} [Decidable p] (hx : IsTruth x) (hy : IsTruth y) :
    IsTruth (if p then x else y) := by
  split <;> assumption

variable [LinearOrder K]

theorem IsTruth.min (hx : IsTruth x) (hy : IsTruth y) : IsTruth (min x y) := by
  rcases min_choice x y with h | h <;> rw [h] <;> assumption

theorem IsTruth.max (hx : IsTruth x) (hy : IsTruth y) : IsTruth (max x y) := by
  rcases max_choice x y with h | h <;> rw [h] <;> assumption

end IsTruth

/-- Scalars in which the truth values of the language are those of the machine, and the logical
operators are the arithmetic ones that folding uses for them. -/
structure KeepsTruth {α K : Type} [Scalar α] [Field K] (value : α → K) : Prop where
  ofBool : ∀ b, value (Scalar.ofBool b) = truth b
  neg : ∀ b, Scalar.neg (Scalar.ofBool b : α) = Scalar.ofBool !b
  min : ∀ b c, Scalar.min (Scalar.ofBool b : α) (Scalar.ofBool c) = Scalar.ofBool (b && c)
  max : ∀ b c, Scalar.max (Scalar.ofBool b : α) (Scalar.ofBool c) = Scalar.ofBool (b || c)

theorem keepsTruth_exactScalar {K : Type} [Field K] [LinearOrder K] [IsStrictOrderedRing K]
    (F : Functions K) (ofFloat : Float → K) (defined : K → K → Bool) :
    letI := exactScalar F ofFloat defined
    KeepsTruth (id : K → K) := by
  let _ := exactScalar F ofFloat defined
  have hof : ∀ b, (Scalar.ofBool b : K) = truth b := by
    intro b
    show ((if b then 1 else -1 : Int) : K) = truth b
    cases b <;> simp [truth]
  have hle : (truth false : K) ≤ truth true := le_trans (le_of_lt truth_false_lt) zero_le_one
  refine ⟨hof, fun b => ?_, fun b c => ?_, fun b c => ?_⟩
  · rw [hof, hof]
    exact neg_truth b
  · rw [hof, hof, hof]
    exact min_truth b c
  · rw [hof, hof, hof]
    show Max.max (truth b) (truth c) = (truth (b || c) : K)
    cases b <;> cases c <;> simp [hle]

/-! ## Folded truth values -/

/-- Scalars that are truth values. -/
def Truths {α : Type} [Scalar α] (xs : List α) : Prop := ∀ x ∈ xs, ∃ b, x = Scalar.ofBool b

namespace Reduce

variable {α K : Type} [Scalar α] [Field K] {value : α → K} {env : Env} {n : Nat}

/-- A logical operator on folded truth values. -/
theorem truths_componentwise {op : BinaryOp} (hop : op ∈ componentwise)
    (hcomp : ∀ b c : Bool, ∃ d, component op (Scalar.ofBool b : α) (Scalar.ofBool c) =
      .ok (some (Scalar.ofBool d)))
    {ls rs zs : List α} (hls : Truths ls) (hrs : Truths rs) (h : binary op ls rs = .ok (some zs)) :
    Truths zs := by
  intro z hz
  rw [binary_componentwise hop] at h
  cases hb : broadcast ls rs with
  | none =>
    rw [hb] at h
    cases h
  | some pairs =>
    rw [hb] at h
    obtain ⟨i, hi⟩ := List.getElem?_of_mem hz
    obtain ⟨p, hp, hcp⟩ := getElem?_of_components h hi
    obtain ⟨hl, hr⟩ := mem_of_broadcast hb (List.mem_of_getElem? hp)
    obtain ⟨b, hb⟩ := hls _ hl
    obtain ⟨c, hc⟩ := hrs _ hr
    obtain ⟨d, hd⟩ := hcomp b c
    rw [hb, hc, hd] at hcp
    cases hcp
    exact ⟨d, rfl⟩

theorem truths_singleton (b : Bool) : Truths [(Scalar.ofBool b : α)] := by
  intro x hx
  exact ⟨b, List.mem_singleton.mp hx⟩

/-- **An operator that gives truth values folds to truth values.** -/
theorem truths_binary (hv : KeepsTruth value) {op : BinaryOp} {lt rt t : Ty}
    (h : BinaryRule op lt rt t) (ht : t.base = .bool) {ls rs zs : List α}
    (hls : lt.base = .bool → Truths ls) (hrs : rt.base = .bool → Truths rs)
    (hz : binary op ls rs = .ok (some zs)) : Truths zs := by
  cases h with
  | add ha | sub ha | mul ha | scaleLeft ha | scaleRight ha | div ha | pow ha =>
    cases ha <;> cases ht
  | and =>
    refine truths_componentwise (by simp [componentwise]) (fun b c => ⟨b && c, ?_⟩) (hls rfl)
      (hrs rfl) hz
    rw [component, hv.min]
  | or =>
    refine truths_componentwise (by simp [componentwise]) (fun b c => ⟨b || c, ?_⟩) (hls rfl)
      (hrs rfl) hz
    rw [component, hv.max]
  | order hop =>
    have hsingle : ∀ op' ∈ [BinaryOp.lt, .le, .gt, .ge], binary op' ls rs = .ok (some zs) →
        Truths zs := by
      intro op' hop' hz
      simp only [List.mem_cons, List.not_mem_nil, or_false] at hop'
      rcases hop' with rfl | rfl | rfl | rfl <;> simp only [binary] at hz <;> split at hz <;>
        cases hz <;> exact truths_singleton _
    exact hsingle op hop hz
  | equate hop =>
    simp only [List.mem_cons, List.not_mem_nil, or_false] at hop
    rcases hop with rfl | rfl <;> simp only [binary] at hz <;> split at hz <;> cases hz <;>
      exact truths_singleton _

/-- The initializer that a constant is folded by. -/
theorem exists_init_of_reduce (hA : Accepted env n) {name : Bytes} {id : DeclId} {pos : Pos}
    {xs : List α} (h : reduce env (.var ⟨name, some id, pos⟩) = .ok (some (.literal xs))) :
    ∃ d e, env.decls[id]? = some d ∧ d.isConst = true ∧ d.init = some e ∧
      reduce env e = .ok (some (.literal xs)) := by
  obtain ⟨r, hr, hmem⟩ := mem_constants_of_reduce hA h
  obtain ⟨⟨id', r'⟩, hentry, hparam⟩ := List.mem_filterMap.mp hmem
  obtain ⟨hreg, d, e, folded, hd, hc, hinit, hvalue⟩ := constant?_eq_some hparam
  -- the entry that declares the register is that of the name
  have hid : id' = id := by
    refine hA.sound.injective (hA.sound.register? hentry) ?_
    rw [hr]
    exact congrArg some hreg
  subst hid
  refine ⟨d, e, hd, hc, hinit, ?_⟩
  obtain ⟨c, hreduce, hvalue⟩ := exists_of_bind_eq_ok hvalue
  rw [hreduce]
  cases c with
  | none => cases hvalue
  | some c =>
    cases hvalue
    rfl

section Chain

variable {next : Nat} {Γ : Context}

/-- At a place of the table, expressions of truth values that fold give truth values. -/
def FoldTruths (α : Type) [Scalar α] (env : Env) (n next : Nat) : Prop :=
  ∀ {Γ : Context} {e : Ast.Expr} {e' : Expr} {t : Ty} {xs : List α}, Fits env.decls n next Γ →
    Typed Γ e e' t → t.base = .bool → reduce env e' = .ok (some (.literal xs)) → Truths xs

/-- A variable or a component of it, if constants declared before have truth values. -/
theorem truths_access (hA : Accepted env n) (hΓ : Fits env.decls n next Γ)
    (hbefore : ∀ id < next, FoldTruths α env n id)
    {v : Ast.Var} {v' : Expr} {x : Variable} {t : Ty} (h : Access Γ v v' x t)
    (ht : t.base = .bool) {xs : List α} (hxs : reduce env v' = .ok (some (.literal xs))) :
    Truths xs := by
  have hvar : ∀ {name : Bytes} {pos : Pos} {ys : List α}, Γ.Finds name x → x.type.base = .bool →
      reduce env (.var ⟨name, some x.id, pos⟩) = .ok (some (.literal ys)) → Truths ys := by
    intro name pos ys hx hb hys
    obtain ⟨d, hd, -, htype, -⟩ := hΓ.lists.decl_of_finds hx
    obtain ⟨d', e, hd', hc, hinit, hreduce⟩ := exists_init_of_reduce hA hys
    cases hd'.symm.trans hd
    obtain ⟨b, hbmem, hmem⟩ := hx.mem
    have hid : x.id < n := by
      by_contra hid
      obtain ⟨h, rfl⟩ := hA.predefined x.id d hd (Nat.not_lt.mp hid)
      cases h <;> cases hc
    have hlt : x.id < next := (hΓ.below b hbmem _ hmem).resolve_right (Nat.not_le_of_lt hid)
    obtain ⟨Γ', ad, hdecl, hΓ'⟩ := hA.own x.id d hd hid
    cases hdecl with
    | plain => cases hinit
    | mutable => cases hc
    | const _ he =>
      cases hinit
      exact hbefore x.id hlt hΓ' he (by rw [← htype] at hb; exact hb) hreduce
  cases h with
  | whole hx => exact hvar hx ht hxs
  | component hx =>
    obtain ⟨ys, y, hys, hy, rfl⟩ := literal_of_index hxs
    intro z hz
    rw [List.mem_singleton.mp hz]
    exact hvar hx ht hys y (List.mem_of_getElem? hy)

mutual

theorem truths_expr (hv : KeepsTruth value) (hA : Accepted env n) (hΓ : Fits env.decls n next Γ)
    (hbefore : ∀ id < next, FoldTruths α env n id) :
    ∀ {e : Ast.Expr} {e' : Expr} {t : Ty}, Typed Γ e e' t → t.base = .bool →
      ∀ {xs : List α}, reduce env e' = .ok (some (.literal xs)) → Truths xs
  | _, _, _, .int, ht, _, _ => by cases ht
  | _, _, _, .float, ht, _, _ => by cases ht
  | _, _, _, .bool, _, _, hxs => by
    cases hxs
    exact truths_singleton _
  | _, _, _, .var hacc _, ht, _, hxs => truths_access hA hΓ hbefore hacc ht hxs
  | _, _, _, .unary he hop, ht, _, hxs => by
    obtain ⟨ys, hys, rfl⟩ := literal_of_unary hxs
    cases hop with
    | neg harith => cases harith <;> cases ht
    | not =>
      intro z hz
      obtain ⟨y, hy, rfl⟩ := List.mem_map.mp hz
      obtain ⟨b, rfl⟩ := truths_expr hv hA hΓ hbefore he rfl hys y hy
      exact ⟨!b, hv.neg b⟩
  | _, _, _, .binary hl hr hop, ht, _, hxs => by
    obtain ⟨ls, rs, hls, hrs, hbinary⟩ := literal_of_binary hxs
    exact truths_binary hv hop ht (fun hb => truths_expr hv hA hΓ hbefore hl hb hls)
      (fun hb => truths_expr hv hA hΓ hbefore hr hb hrs) hbinary
  | _, _, _, .call _ _, _, _, hxs => by
    rw [reduce, expr] at hxs
    cases hxs
  | _, _, _, .construct _ hargs, ht, _, hxs => by
    rw [reduce, expr] at hxs
    obtain ⟨ys, hys, hxs⟩ := exists_of_bind_eq_ok hxs
    obtain ⟨zs, rfl, heq⟩ := Option.map_eq_some_iff.mp (Except.ok.inj hxs)
    cases heq
    exact truths_scalars hv hA hΓ hbefore hargs
      (fun s hs => by rw [(List.mem_replicate.mp hs).2]; exact ht) hys

theorem truths_scalars (hv : KeepsTruth value) (hA : Accepted env n)
    (hΓ : Fits env.decls n next Γ)
    (hbefore : ∀ id < next, FoldTruths α env n id) :
    ∀ {es : List Ast.Expr} {es' : List Expr} {ts : List Ty}, TypedList Γ es es' ts →
      (∀ t ∈ ts, t.base = .bool) →
      ∀ {xs : List α}, scalars (named env (env.decls.length + 1)) es' = .ok (some xs) → Truths xs
  | _, _, _, .nil, _, _, hxs => by
    rw [scalars] at hxs
    cases hxs
    intro x hx
    cases hx
  | _, _, _, .cons he hes, hts, _, hxs => by
    rw [scalars] at hxs
    obtain ⟨first, hfirst, hxs⟩ := exists_of_bind_eq_ok hxs
    rcases first with _ | (_ | ⟨y, _ | ⟨_, _⟩⟩) | ⟨_, _⟩ <;> try cases hxs
    obtain ⟨more, hmore, hxs⟩ := exists_of_bind_eq_ok hxs
    obtain ⟨ys, rfl, rfl⟩ := Option.map_eq_some_iff.mp (Except.ok.inj hxs)
    intro z hz
    rcases List.mem_cons.mp hz with rfl | hz
    · exact truths_expr hv hA hΓ hbefore he (hts _ (by simp)) hfirst z (by simp)
    · exact truths_scalars hv hA hΓ hbefore hes (fun t ht => hts t (by simp [ht])) hmore z hz

end

/-- **What folds and has truth values as its type folds to truth values.** The induction is on the
place in the table: a constant is folded by an initializer that only sees what stands before it. -/
theorem truths_of_reduce (hv : KeepsTruth value) (hA : Accepted env n) (next : Nat) :
    FoldTruths α env n next := by
  induction next using Nat.strong_induction_on with
  | _ next ih =>
    intro Γ e e' t xs hΓ h ht hxs
    exact truths_expr hv hA hΓ ih h ht hxs

end Chain

end Reduce

/-! ## Variables that have been given a value -/

namespace Definite

variable {α : Type} [Scalar α]

/-- Whether a part of an expression cannot bring in a number that is no truth value: a variable with
truth values is among those in `given`, and a constructor of a truth value folds. -/
def part (α : Type) [Scalar α] (env : Env) (given : List DeclId) : Expr → Bool
  | .var ref => (Program.refType env.decls ref).base != .bool || ref.decl.any (given.contains ·)
  | .construct pos type args =>
    type != .bool || Semantics.foldsToNumbers α env (.construct pos type args)
  | _ => true

/-- Whether no part of an expression brings in a number that is no truth value. -/
def expr (α : Type) [Scalar α] (env : Env) (given : List DeclId) (e : Expr) : Bool :=
  e.parts.all (part α env given)

theorem part_of_expr {env : Env} {given : List DeclId} {e : Expr} {es : List Expr}
    (hparts : e.parts = e :: es) (h : expr α env given e = true) :
    part α env given e = true ∧ es.all (part α env given) = true := by
  rwa [expr, hparts, List.all_cons, Bool.and_eq_true] at h

end Definite

/-- Registers in which the variables of `given` hold truth values, those of them that have such a
type. -/
def Given {K : Type} [Field K] (env : Env) (given : List DeclId) (ρ : Registers K) : Prop :=
  ∀ id ∈ given, ∀ (d : Declaration) (r : Register), env.decls[id]? = some d →
    env.symbols.register? id = some r → d.type.base = .bool → ∀ c ∈ d.type.components,
      IsTruth (ρ r c)

theorem Given.congr {K : Type} [Field K] {env : Env} {given : List DeclId} {ρ ρ' : Registers K}
    (h : Given env given ρ) (henv : Nameable env) (heq : ∀ r, IsVariable r → ρ' r = ρ r) :
    Given env given ρ' := by
  intro id hid d r hd hr hb c hc
  rw [heq r (henv id r hr)]
  exact h id hid d r hd hr hb c hc

theorem Given.mono {K : Type} [Field K] {env : Env} {given given' : List DeclId} {ρ : Registers K}
    (h : Given env given ρ) (hsub : ∀ id ∈ given', id ∈ given) : Given env given' ρ :=
  fun id hid => h id (hsub id hid)

/-- Setting a variable: the others keep what they hold. -/
theorem Given.update {K : Type} [Field K] {env : Env} {n : Nat} {given given' : List DeclId}
    {ρ : Registers K} (hA : Accepted env n) {id : DeclId} {r : Register} {w : Vec K}
    (hr : env.symbols.register? id = some r) (h : Given env given ρ)
    (hold : ∀ id' ∈ given', id' ≠ id → id' ∈ given)
    (hnew : id ∈ given' → ∀ d, env.decls[id]? = some d → d.type.base = .bool →
      ∀ c ∈ d.type.components, IsTruth (w c)) :
    Given env given' (Function.update ρ r w) := by
  intro id' hid' d r' hd hr' hb c hc
  by_cases hid : id' = id
  · subst hid
    cases hr.symm.trans hr'
    rw [Function.update_self]
    exact hnew hid' d hd hb c hc
  -- no two variables share a register
  · have hne : r' ≠ r := by
      rintro rfl
      exact hid (hA.sound.injective hr' hr)
    rw [Function.update_of_ne hne]
    exact h id' (hold id' hid' hid) d r' hd hr' hb c hc

/-! ## The code of expressions -/

namespace Lower

variable {α K : Type} [Field K] [LinearOrder K] {F : Functions K} {ρ : Registers K}
  {a a' : Allocator α} {o l r : Operand} {code : List Line}

/-- A comparison gives truth values, whatever it compares. -/
theorem truth_compare {u v : Vec K} {b : Bool} (ha : a.Tidy) (hρ : HasTruth ρ)
    (hl : read ρ l = some u) (hr : read ρ r = some v)
    (hrun : Lower.run (compare l r (.of (.truth b)) (.of (.truth (!b)))) a = .ok (o, code, a')) :
    ∃ w, Computes F ρ code o w ∧ ∀ c, IsTruth (w c) := by
  have hread : ∀ b, read ρ (.of (.truth b)) = some (.splat (truth b)) := by
    intro b
    cases b
    · exact hρ.read_false
    · exact hρ.read_true
  exact ⟨_, computes_compare ha (settled_truth _ _) (settled_truth _ _) hl hr (hread b) (hread !b)
    hrun, fun c => (isTruth_truth b).ite (isTruth_truth !b)⟩

theorem truth_equal [IsStrictOrderedRing K] {t : Ty} {u v : Vec K} (ht : Named t) (ha : a.Tidy)
    (hρ : HasTruth ρ) (hsl : Settled a.position l) (hsr : Settled a.position r)
    (hl : read ρ l = some u) (hr : read ρ r = some v)
    (hrun : Lower.run (equal l r t) a = .ok (o, code, a')) :
    ∃ w, Computes F ρ code o w ∧ ∀ c, IsTruth (w c) := by
  obtain ⟨hscalar, hvector⟩ := computes_equal (F := F) ht ha hρ hsl hsr hl hr hrun
  by_cases hone : t.order = 1
  · exact ⟨_, hscalar hone, fun c => isTruth_truth _⟩
  · exact ⟨_, hvector hone, fun c => isTruth_truth _⟩

/-- **Operators that give truth values** do so if their operands are truth values, or numbers. -/
theorem truth_binary [IsStrictOrderedRing K] {op : BinaryOp} {lt rt t : Ty} {u v : Vec K}
    (h : BinaryRule op lt rt t) (ht : t.base = .bool) (hlt : Named lt) (ha : a.Tidy)
    (hρ : HasTruth ρ) (hsl : Settled a.position l) (hsr : Settled a.position r)
    (hl : read ρ l = some u) (hr : read ρ r = some v)
    (hu : lt.base = .bool → ∀ c ∈ lt.components, IsTruth (u c))
    (hv : rt.base = .bool → ∀ c ∈ rt.components, IsTruth (v c))
    (hrun : Lower.run (binary op l r lt rt t) a = .ok (o, code, a')) :
    ∃ w, Computes F ρ code o w ∧ ∀ c ∈ t.components, IsTruth (w c) := by
  have hall : (∃ w, Computes F ρ code o w ∧ ∀ c, IsTruth (w c)) →
      ∃ w, Computes F ρ code o w ∧ ∀ c ∈ t.components, IsTruth (w c) :=
    fun ⟨w, hcomp, hw⟩ => ⟨w, hcomp, fun c _ => hw c⟩
  cases h with
  | add ha | sub ha | mul ha | scaleLeft ha | scaleRight ha | div ha | pow ha =>
    cases ha <;> cases ht
  | and =>
    exact ⟨_, computes_direct ha hl hr rfl hrun, fun c hc => (hu rfl c hc).min (hv rfl c hc)⟩
  | or =>
    exact ⟨_, computes_direct ha hl hr rfl hrun, fun c hc => (hu rfl c hc).max (hv rfl c hc)⟩
  | order hop =>
    simp only [List.mem_cons, List.not_mem_nil, or_false] at hop
    rcases hop with rfl | rfl | rfl | rfl
    · exact hall (truth_compare (b := true) ha hρ hl hr hrun)
    · exact hall (truth_compare (b := false) ha hρ hr hl hrun)
    · exact hall (truth_compare (b := true) ha hρ hr hl hrun)
    · exact hall (truth_compare (b := false) ha hρ hl hr hrun)
  | equate hop =>
    simp only [List.mem_cons, List.not_mem_nil, or_false] at hop
    rcases hop with rfl | rfl
    · exact hall (truth_equal hlt ha hρ hsl hsr hl hr hrun)
    -- an inequality negates what the equality left
    · obtain ⟨res, code₁, a₁, more, hequal, hmov, rfl⟩ := run_bind_eq_ok.mp hrun
      obtain ⟨-, -, -, -, n, rfl, -⟩ :=
        emits_equal ha (Nat.le_refl _) hsl.plain hsr.plain res code₁ a₁ hequal
      obtain ⟨w, ⟨ρ₁, hrun₁, hread⟩, hw⟩ := truth_equal (F := F) hlt ha hρ hsl hsr hl hr hequal
      cases hmov
      exact hall ⟨_, .after hrun₁ ⟨_, run_cons (step_one (read_neg hread) rfl), read_update_self _⟩,
        fun c => (hw c).neg⟩

/-- Truth values put side by side. -/
theorem truth_assemble {k : Nat} (hk : k ≠ 1) (ha : a.Tidy) {os : List Operand}
    (hlen : os.length = k)
    (hos : ∀ o ∈ os, Settled a.position o ∧ ∃ v, read ρ o = some v ∧ IsTruth (v .x))
    (hrun : Lower.run (assemble os) a = .ok (o, code, a')) :
    ∃ v, Computes F ρ code o v ∧ ∀ c ∈ (⟨.bool, k⟩ : Ty).components, IsTruth (v c) := by
  have horder : (⟨.bool, k⟩ : Ty).order ≠ 1 := by
    show (k : Int) ≠ 1
    omega
  -- the first component of each argument
  let first : Component → K := fun c => ((os[c.index]?.bind (read ρ)).getD 0) .x
  have hfirst : ∀ q ∈ Component.all.zip os, ∃ v, read ρ q.2 = some v ∧ IsTruth (v .x) ∧
      first q.1 = v .x := by
    intro q hq
    obtain ⟨i, hi⟩ := List.getElem?_of_mem hq
    obtain ⟨hc, ho⟩ := List.getElem?_zip_eq_some.mp hi
    obtain ⟨-, v, hread, hv⟩ := hos q.2 (List.mem_of_getElem? ho)
    refine ⟨v, hread, hv, ?_⟩
    show ((os[q.1.index]?.bind (read ρ)).getD 0) .x = v .x
    rw [index_of_getElem? hc, ho, Option.bind_some, hread, Option.getD_some]
  obtain ⟨v, hcomp, hv⟩ := computes_assemble (F := F) first ha (fun q hq => by
    obtain ⟨v, hread, -, hx⟩ := hfirst q hq
    refine ⟨by rw [read_scalar hread, hx], ?_⟩
    exact (hos q.2 (List.of_mem_zip hq).2).1.scalar_reg_ne) hrun
  refine ⟨v, hcomp, fun c hc => ?_⟩
  have hlt := index_lt_of_mem_components horder hc
  have hindex : c.index < os.length := by
    rw [hlen]
    simpa using hlt
  rw [components_of_vector horder] at hc
  rw [hv c (by rw [hlen]; exact hc)]
  obtain ⟨w, -, hw, hx⟩ := hfirst (c, os[c.index]) (List.mem_of_getElem? (i := c.index)
    (List.getElem?_zip_eq_some.mpr
      ⟨Component.getElem?_all_index c, List.getElem?_eq_getElem hindex⟩))
  rw [hx]
  exact hw

variable [Scalar α] {env : Env} {n next : Nat} {Γ : Context} {value : α → K}
  {contents : Registers K} {ps : List (Param α)} {given : List DeclId}

/-- The code of any expression runs and leaves something in its operand. -/
theorem exists_computes (henv : Nameable env) (ha : a.Tidy) {e : Expr}
    (hrun : Lower.run (expr env e) a = .ok (o, code, a')) : ∃ v, Computes F ρ code o v := by
  obtain ⟨-, -, hcode, hleaves⟩ := emits_expr henv e ha o code a' hrun
  obtain ⟨ρ', hm⟩ := exists_run (F := F) (fun i hi => (hcode i hi).1) ρ
  obtain ⟨v, hv⟩ := exists_read hleaves.2.plain ρ'
  exact ⟨v, ρ', hm, hv⟩

/-- An expression that has no truth value only has to be there. -/
theorem exists_computes_of_base (henv : Nameable env) (ha : a.Tidy) {e : Expr} {t : Ty}
    (hrun : Lower.run (expr env e) a = .ok (o, code, a'))
    (h : t.base = .bool → ∃ v, Computes F ρ code o v ∧ ∀ c ∈ t.components, IsTruth (v c)) :
    ∃ v, Computes F ρ code o v ∧ (t.base = .bool → ∀ c ∈ t.components, IsTruth (v c)) := by
  by_cases hb : t.base = .bool
  · obtain ⟨v, hcomp, hv⟩ := h hb
    exact ⟨v, hcomp, fun _ => hv⟩
  · obtain ⟨v, hcomp⟩ := exists_computes (F := F) (ρ := ρ) henv ha hrun
    exact ⟨v, hcomp, fun h => absurd h hb⟩

/-- A constructor that does not fold, if the code of its arguments leaves truth values. -/
theorem truth_construct (henv : Nameable env) {k : Nat} {args : List Expr} (hk : k ≠ 1)
    (hlen : args.length = k) (ha : a.Tidy)
    (hargs : ∀ {os : List Operand} {code₁ : List Line} {a₁ : Allocator α},
      Lower.run (exprs env args) a = .ok (os, code₁, a₁) →
      a₁.program.immediates ⊆ a'.program.immediates →
      ∃ ρ', Machine.run F (instructions code₁) ρ = some ρ' ∧ os.length = args.length ∧
        ∀ o ∈ os, ∃ v, read ρ' o = some v ∧ IsTruth (v .x))
    (hrun : Lower.run (exprs env args >>= assemble) a = .ok (o, code, a')) :
    ∃ v, Computes F ρ code o v ∧ ∀ c ∈ (⟨.bool, k⟩ : Ty).components, IsTruth (v c) := by
  obtain ⟨os, code₁, a₁, code₂, h₁, h₂, rfl⟩ := run_bind_eq_ok.mp hrun
  obtain ⟨ht₁, -, -, hos⟩ := emits_exprs henv _ ha _ _ _ h₁
  obtain ⟨-, he₂, -, -⟩ :=
    emits_assemble ht₁ (Nat.le_refl _) (fun o ho => (hos.2 o ho).plain) _ _ _ h₂
  obtain ⟨ρ₁, hm, hlist, hreads⟩ := hargs h₁ fun _ hp => he₂.immediates hp
  obtain ⟨v, hcomp, htruth⟩ := truth_assemble (F := F) hk ht₁ (hlist.trans hlen)
    (fun o ho => ⟨hos.2 o ho, hreads o ho⟩) h₂
  exact ⟨v, .after hm hcomp, htruth⟩

/-- A variable that was given truth values, or a component of it. -/
theorem truth_access (hA : Accepted env n) (hΓ : Fits env.decls n next Γ) {v : Ast.Var}
    {v' : Expr} {x : Variable} {t : Ty} (h : Access Γ v v' x t) (ht : t.base = .bool)
    (hdef : Definite.expr α env given v' = true) (hgiven : Given env given ρ)
    (hrun : Lower.run (target env v') a = .ok (o, code, a')) :
    ∃ u, Computes F ρ code o u ∧ ∀ c ∈ t.components, IsTruth (u c) := by
  -- the test passes a variable of truth values only if that is known to be given
  have hmem : ∀ {name : Bytes} {pos : Pos}, Γ.Finds name x → x.type.base = .bool →
      Definite.part α env given (.var ⟨name, some x.id, pos⟩) = true → x.id ∈ given := by
    intro name pos hx hb hpart
    obtain ⟨d, hd, -, htype, -⟩ := hΓ.lists.decl_of_finds hx
    rw [Definite.part, Program.refType, Option.bind_some, hd] at hpart
    dsimp only at hpart
    rw [htype, hb] at hpart
    simpa using hpart
  rw [Definite.expr, List.all_eq_true] at hdef
  cases h with
  | @whole pos name x hx =>
    obtain ⟨d, hd, -, htype, -⟩ := hΓ.lists.decl_of_finds hx
    obtain ⟨r, hr, -⟩ := hA.listed x.id d hd
    rw [target, register_eq_pure hr] at hrun
    cases hrun
    have hid := hmem hx ht (hdef _ (List.mem_singleton.mpr rfl))
    refine ⟨ρ r, ⟨ρ, rfl, read_of _ _⟩, ?_⟩
    rw [← htype] at ht ⊢
    exact hgiven x.id hid d r hd hr ht
  | @component pos name x i hx hvec hi =>
    obtain ⟨d, hd, -, htype, -⟩ := hΓ.lists.decl_of_finds hx
    obtain ⟨r, hr, -⟩ := hA.listed x.id d hd
    have hlt := lt_four_of_finds hΓ.named hx hi
    rw [target, indexed_eq_pure hr _ _ hlt] at hrun
    cases hrun
    have hid := hmem hx ht (hdef (.var ⟨name, some x.id, pos⟩) (by simp [Program.Expr.parts]))
    refine ⟨_, ⟨ρ, rfl, read_component_of _ _ _⟩, fun c _ => ?_⟩
    exact hgiven x.id hid d r hd hr (by rw [htype]; exact ht) _
      (mem_components (by rw [index_get, htype]; exact hi))

omit [LinearOrder K] in
theorem isTruth_ofList (hv : KeepsTruth value) {xs : List α} (hxs : Truths xs) {t : Ty}
    (ht : (xs.length : Int) = t.order) {c : Component} (hc : c ∈ t.components) :
    IsTruth (Vec.ofList (xs.map value) c) := by
  have hvalue : ∀ x ∈ xs, IsTruth (value x) := by
    intro x hx
    obtain ⟨b, rfl⟩ := hxs x hx
    rw [hv.ofBool]
    exact isTruth_truth b
  by_cases hone : t.order = 1
  · obtain ⟨x, rfl⟩ := List.length_eq_one_iff.mp (by omega : xs.length = 1)
    exact hvalue x (by simp)
  · have hlt := index_lt_of_mem_components hone hc
    have hx := List.getElem?_eq_getElem (by omega : c.index < xs.length)
    rw [ofList_map_apply hx]
    exact hvalue _ (List.mem_of_getElem? hx)

omit [LinearOrder K] [Scalar α] in
/-- Code that writes scratch registers only leaves constants and what was given alone. -/
theorem frame_given (henv : Nameable env) {p : Nat} {ρ' : Registers K}
    (heq : ∀ r, ¬ScratchFrom p r → ρ' r = ρ r)
    (h : Loaded value contents ps ρ ∧ Given env given ρ) :
    Loaded value contents ps ρ' ∧ Given env given ρ' :=
  ⟨h.1.congr fun r hr => heq r (not_scratchFrom_of_isConstant hr),
    h.2.congr henv fun r hr => heq r (not_scratchFrom_of_isVariable hr)⟩

mutual

/-- **The code of an expression of truth values leaves truth values**, if what it reads has been
given. -/
theorem truth_expr [IsStrictOrderedRing K] (hv : KeepsTruth value) (hA : Accepted env n)
    (hΓ : Fits env.decls n next Γ) (hn : next ≤ n) :
    ∀ {e : Ast.Expr} {e' : Expr} {t : Ty}, Typed Γ e e' t → t.base = .bool →
      Definite.expr α env given e' = true →
      ∀ {a a' : Allocator α} {o : Operand} {code : List Line} {ρ : Registers K}, a.Tidy →
      Lower.run (expr env e') a = .ok (o, code, a') → a'.program.immediates ⊆ ps →
      Loaded value contents ps ρ → Given env given ρ →
      ∃ v, Computes F ρ code o v ∧ ∀ c ∈ t.components, IsTruth (v c)
  | _, _, _, .int, ht, _, _, _, _, _, _, _, _, _, _, _ => by cases ht
  | _, _, _, .float, ht, _, _, _, _, _, _, _, _, _, _, _ => by cases ht
  | _, _, _, .bool, _, _, _, _, _, _, _, _, hrun, hps, hρ, _ => by
    rw [expr] at hrun
    exact ⟨_, computes_immediate hrun hps hρ, fun c hc =>
      isTruth_ofList hv (Reduce.truths_singleton _) rfl hc⟩
  | _, _, _, .var hacc _, ht, hdef, _, _, _, _, _, _, hrun, _, _, hgiven => by
    rw [expr_access hacc] at hrun
    exact truth_access hA hΓ hacc ht hdef hgiven hrun
  | _, _, _, .unary he hop, ht, hdef, _, _, _, _, _, ha, hrun, hps, hρ, hgiven => by
    cases hop with
    | neg harith => cases harith <;> cases ht
    | not =>
      obtain ⟨-, hpart⟩ := Definite.part_of_expr (by rw [Program.Expr.parts]) hdef
      obtain ⟨v, hcomp, htruth⟩ := computes_operand (F := F) (nameable_of_accepted hA) ha hrun hps
        fun h₁ hps₁ => truth_expr hv hA hΓ hn he rfl hpart ha h₁ hps₁ hρ hgiven
      exact ⟨-v, hcomp, fun c hc => (htruth c hc).neg⟩
  | _, _, _, .binary he hf hop, ht, hdef, _, _, _, _, _, ha, hrun, hps, hρ, hgiven => by
    have henv := nameable_of_accepted hA
    obtain ⟨-, hparts⟩ := Definite.part_of_expr (by rw [Program.Expr.parts]) hdef
    rw [List.all_append, Bool.and_eq_true] at hparts
    -- an operand of another type only has to be there
    refine computes_operands henv ha (frame_given henv) hrun hps ⟨hρ, hgiven⟩
      (fun h₁ hps₁ => exists_computes_of_base henv ha h₁ fun hb =>
        truth_expr hv hA hΓ hn he hb hparts.1 ha h₁ hps₁ hρ hgiven)
      (fun ht₁ h₂ hps₂ hρ₁ => exists_computes_of_base henv ht₁ h₂ fun hb =>
        truth_expr hv hA hΓ hn hf hb hparts.2 ht₁ h₂ hps₂ hρ₁.1 hρ₁.2) ?_
    intro x y code₃ a₂ ρ₂ u v ht₂ hps₂ hρ₂ hx hy hread₁ hread₂ hu hw h₃
    rw [type_of_typed hΓ.lists he, type_of_typed hΓ.lists hf] at h₃
    exact truth_binary hop ht (he.named hΓ.named) ht₂ (hρ₂.1.hasTruth ht₂ hps₂) hx hy hread₁ hread₂
      hu hw h₃
  | _, _, _, .call _ hcall, ht, _, _, _, _, _, _, _, _, _, _, _ => by cases hcall <;> cases ht
  | _, _, _, @Typed.construct _ pos b k args args' hnamed hargs, ht, hdef, a, a', o, _, ρ, ha, hrun,
      hps, hρ, hgiven => by
    cases ht
    obtain ⟨hself, hparts⟩ := Definite.part_of_expr (by rw [Program.Expr.parts]) hdef
    rcases run_construct_cases hA hΓ hn hnamed hargs hrun with
      ⟨xs, hxs, hlen, hrun⟩ | ⟨hfresh, hrun⟩
    · exact ⟨_, computes_immediate hrun hps hρ, fun c hc =>
        isTruth_ofList hv (Reduce.truths_of_reduce hv hA next hΓ (.construct hnamed hargs) rfl hxs)
          hlen hc⟩
    · -- a constructor of one truth value folds
      have hk : k ≠ 1 := by
        rintro rfl
        rw [Definite.part, hfresh, Bool.or_false] at hself
        exact absurd hself (by simp [Ty.bool])
      have hlen : args'.length = k := by rw [hargs.length, List.length_replicate]
      exact truth_construct (nameable_of_accepted hA) hk hlen ha (fun h₁ hmore =>
        truth_exprs hv hA hΓ hn hargs (fun t ht => (List.mem_replicate.mp ht).2) hparts ha h₁
          (fun _ hp => hps (hmore hp)) hρ hgiven) hrun

theorem truth_exprs [IsStrictOrderedRing K] (hv : KeepsTruth value) (hA : Accepted env n)
    (hΓ : Fits env.decls n next Γ) (hn : next ≤ n) :
    ∀ {es : List Ast.Expr} {es' : List Expr} {ts : List Ty}, TypedList Γ es es' ts →
      (∀ t ∈ ts, t = .bool) →
      (Program.Expr.listParts es').all (Definite.part α env given) = true →
      ∀ {a a' : Allocator α} {os : List Operand} {code : List Line} {ρ : Registers K}, a.Tidy →
      Lower.run (exprs env es') a = .ok (os, code, a') → a'.program.immediates ⊆ ps →
      Loaded value contents ps ρ → Given env given ρ →
      ∃ ρ', Machine.run F (instructions code) ρ = some ρ' ∧ os.length = es'.length ∧
        ∀ o ∈ os, ∃ v, read ρ' o = some v ∧ IsTruth (v .x)
  | _, _, _, .nil, _, _, _, _, _, _, ρ, _, hrun, _, _, _ => by
    rw [exprs] at hrun
    cases hrun
    exact ⟨ρ, rfl, rfl, by simp⟩
  | _, _, _, .cons he hes, hts, hdef, _, _, _, _, _, ha, hrun, hps, hρ, hgiven => by
    have henv := nameable_of_accepted hA
    rw [Program.Expr.listParts, List.all_append, Bool.and_eq_true] at hdef
    rw [exprs] at hrun
    obtain ⟨o, code₁, a₁, rest, h₁, hrest, rfl⟩ := run_bind_eq_ok.mp hrun
    obtain ⟨os, code₂, a₂, code₃, h₂, h₃, rfl⟩ := run_bind_eq_ok.mp hrest
    cases h₃
    obtain ⟨ht₁, -, -, ho⟩ := emits_expr henv _ ha _ _ _ h₁
    obtain ⟨-, he₂, -, -⟩ := emits_exprs henv _ ht₁ _ _ _ h₂
    obtain rfl := hts _ List.mem_cons_self
    obtain ⟨v, ⟨ρ₁, hm₁, hread⟩, htruth⟩ := truth_expr hv hA hΓ hn he rfl hdef.1 ha h₁
      (fun _ hp => hps (he₂.immediates hp)) hρ hgiven
    -- the first argument's code keeps what the others rely on, and theirs keeps its value
    obtain ⟨hρ₁, hgiven₁⟩ := frame_given henv
      (fun r hr => (emits_expr henv _ ha).frame h₁ hm₁ hr) ⟨hρ, hgiven⟩
    obtain ⟨ρ₂, hm₂, hlen, hreads⟩ := truth_exprs hv hA hΓ hn hes (fun t ht => hts t (by simp [ht]))
      hdef.2 ht₁ h₂ hps hρ₁ hgiven₁
    refine ⟨ρ₂, ?_, by rw [List.length_cons, List.length_cons, hlen], fun q hq => ?_⟩
    · rw [List.append_nil, instructions_append, run_append, hm₁]
      exact hm₂
    · rcases List.mem_cons.mp hq with rfl | hq
      · refine ⟨v, ?_, htruth .x (mem_components_of_scalar rfl .x)⟩
        rw [ho.2.read_eq fun r hr => (emits_exprs henv _ ht₁).frame h₂ hm₂ hr, hread]
      · exact hreads q hq

end

end Lower

end Shader
