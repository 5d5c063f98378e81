import Mathlib.Algebra.Order.Group.Unbundled.Basic
import Mathlib.Algebra.Order.Ring.Defs
import Shader.Proofs.EmittedCode
import Shader.Proofs.LoweringTotal

/-!
# What the code of an operator computes

Each operator is a few instructions on scratch registers. Run on a machine whose operands hold some
values, they leave the value of the operator in the operand that code generation goes on with. An
operand may share no register with the scratch registers of the operator, which `Settled` says: it
was there before.

Truth values are one and minus one. The target compares with zero only, so equality is two
differences neither of which is negative, and a vector's is the minimum over its components.
-/

namespace Shader

open Lower
open TypeSystem (Named)

namespace Machine

variable {K : Type} [Field K] [LinearOrder K] {F : Functions K} {ρ ρ' : Registers K}

/-! ## Single instructions -/

theorem step_one {op : Opcode} {d : Register} {o : Operand} {u v : Vec K}
    (ho : read ρ o = some u) (hv : apply F op [u] = some v) :
    step F ρ ⟨op, .of d, [o]⟩ = some (Function.update ρ d v) := by
  rw [step, List.mapM_cons, ho, List.mapM_nil]
  show (apply F op [u]).bind (write ρ (.of d)) = _
  rw [hv]
  rfl

theorem step_two {op : Opcode} {d : Register} {l r : Operand} {u v w : Vec K}
    (hl : read ρ l = some u) (hr : read ρ r = some v) (hw : apply F op [u, v] = some w) :
    step F ρ ⟨op, .of d, [l, r]⟩ = some (Function.update ρ d w) := by
  rw [step, List.mapM_cons, hl, List.mapM_cons, hr, List.mapM_nil]
  show (apply F op [u, v]).bind (write ρ (.of d)) = _
  rw [hw]
  rfl

/-- The comparison: where the first source is negative, it takes the second, and else the third. -/
theorem step_cmp {d : Register} {o l r : Operand} {t u v : Vec K} (ho : read ρ o = some t)
    (hl : read ρ l = some u) (hr : read ρ r = some v) :
    step F ρ ⟨.cmp, .of d, [o, l, r]⟩ =
      some (Function.update ρ d fun c => if t c < 0 then u c else v c) := by
  rw [step, List.mapM_cons, ho, List.mapM_cons, hl, List.mapM_cons, hr, List.mapM_nil]
  rfl

theorem run_cons {i : Instruction} {is : List Instruction} (h : step F ρ i = some ρ') :
    run F (i :: is) ρ = run F is ρ' := by
  rw [run, h]
  rfl

/-- Moves into single components of a register that no source is in. -/
theorem run_moves {ι : Type} (d : Register) (target : ι → Component) (source : ι → Operand)
    (x : Component → K) (is : List ι) (ρ : Registers K)
    (hread : ∀ i ∈ is, read ρ (source i) = some (.splat (x (target i))))
    (hother : ∀ i ∈ is, (source i).reg ≠ d) :
    ∃ ρ', run F (is.map fun i => ⟨.mov, (Operand.of d).component (target i), [source i]⟩) ρ =
        some ρ' ∧ ∀ c, ρ' d c = if c ∈ is.map target then x c else ρ d c := by
  induction is generalizing ρ with
  | nil => exact ⟨ρ, rfl, fun c => by simp⟩
  | cons i is ih =>
    let ρ₁ := Function.update ρ d (Function.update (ρ d) (target i) (x (target i)))
    have hstep : step F ρ ⟨.mov, (Operand.of d).component (target i), [source i]⟩ = some ρ₁ := by
      rw [step, List.mapM_cons, hread i (by simp), List.mapM_nil]
      rfl
    -- no source is the destination, so what is left to copy is still there
    have hread₁ : ∀ j ∈ is, read ρ₁ (source j) = some (.splat (x (target j))) := by
      intro j hj
      rw [read_congr (Function.update_of_ne (hother j (by simp [hj])) _ _)]
      exact hread j (by simp [hj])
    obtain ⟨ρ', hrun, hval⟩ := ih ρ₁ hread₁ fun j hj => hother j (by simp [hj])
    refine ⟨ρ', by rw [List.map_cons, run_cons hstep]; exact hrun, fun c => ?_⟩
    rw [hval c, List.map_cons]
    by_cases hmem : c ∈ is.map target
    · rw [if_pos hmem, if_pos (List.mem_cons_of_mem _ hmem)]
    · rw [if_neg hmem]
      show (Function.update ρ d (Function.update (ρ d) (target i) (x (target i)))) d c = _
      rw [Function.update_self]
      by_cases hc : c = target i
      · subst hc
        rw [Function.update_self, if_pos (by simp)]
      · rw [Function.update_of_ne hc, if_neg (by simp [hc, hmem])]

/-! ## Truth values -/

section Truth

variable [IsStrictOrderedRing K]

/-- False is negative, which is how a comparison tells it from true. -/
theorem truth_false_lt : (truth false : K) < 0 := by
  show (-1 : K) < 0
  exact neg_neg_of_pos one_pos

/-- On truth values the minimum is the conjunction. -/
theorem min_truth (p q : Bool) : min (truth p : K) (truth q) = truth (p && q) := by
  have hle : (truth false : K) ≤ truth true := by
    have h : (0 : K) ≤ truth true := zero_le_one
    exact le_trans (le_of_lt truth_false_lt) h
  cases p <;> cases q <;> simp [hle]

omit [LinearOrder K] [IsStrictOrderedRing K] in
/-- The sign is the negation. -/
theorem neg_truth (p : Bool) : -(truth p : K) = truth (!p) := by
  cases p <;> simp [truth]

/-- Two numbers are equal if neither difference is negative. -/
theorem min_differences (x y : K) :
    min (if x - y < 0 then truth false else truth true)
      (if y - x < 0 then (truth false : K) else truth true) = truth (decide (x = y)) := by
  rcases lt_trichotomy x y with h | h | h
  · rw [if_pos (sub_neg.mpr h), if_neg (not_lt.mpr (sub_nonneg.mpr h.le)), min_truth]
    simp [h.ne]
  · subst h
    simp
  · rw [if_neg (not_lt.mpr (sub_nonneg.mpr h.le)), if_pos (sub_neg.mpr h), min_truth]
    simp [h.ne']

end Truth

end Machine

namespace Lower

open Machine

variable {α K : Type} [Field K] [LinearOrder K] {F : Functions K} {ρ : Registers K}
  {a a' : Allocator α} {l r o : Operand} {u v w : Vec K} {code : List Line}

/-- Code that leaves a value in an operand. -/
def Computes (F : Functions K) (ρ : Registers K) (code : List Line) (o : Operand) (v : Vec K) :
    Prop :=
  ∃ ρ', Machine.run F (instructions code) ρ = some ρ' ∧ read ρ' o = some v

/-- Code in front that can be run leaves to compute what the rest computes from there. -/
theorem Computes.after {more : List Line} {ρ₁ : Registers K}
    (h : Machine.run F (instructions code) ρ = some ρ₁) (h' : Computes F ρ₁ more o v) :
    Computes F ρ (code ++ more) o v := by
  obtain ⟨ρ₂, hrun, hread⟩ := h'
  refine ⟨ρ₂, ?_, hread⟩
  rw [instructions_append, run_append, h]
  exact hrun

omit [LinearOrder K] in
theorem read_update_self (d : Register) : read (Function.update ρ d v) (.of d) = some v := by
  rw [read_of, Function.update_self]

omit [LinearOrder K] in
/-- A settled operand keeps its value when a later scratch register is written. -/
theorem read_update {p n : Nat} (h : Settled p o) (hn : p ≤ n) :
    read (Function.update ρ (.temp n) v) o = read ρ o := by
  refine read_congr (Function.update_of_ne (fun heq => ?_) _ _)
  exact absurd (h.below n heq) (Nat.not_lt.mpr hn)

theorem computes_single {op : Opcode} {src : List Operand} (ha : a.Tidy)
    (hstep : step F ρ ⟨op, .of (.temp a.position), src⟩ =
      some (Function.update ρ (.temp a.position) v))
    (hrun : Lower.run (temp >>= fun res => instr op res src >>= fun _ => pure res) a =
      .ok (o, code, a')) : Computes F ρ code o v := by
  rw [run_bind, run_temp ha] at hrun
  cases hrun
  exact ⟨_, run_cons hstep, read_update_self _⟩

theorem computes_direct {op : Opcode} (ha : a.Tidy) (hl : read ρ l = some u)
    (hr : read ρ r = some v) (hw : apply F op [u, v] = some w)
    (hrun : Lower.run (direct op l r) a = .ok (o, code, a')) : Computes F ρ code o w :=
  computes_single ha (step_two hl hr hw) hrun

theorem run_temp_temp {β : Type} (ha : a.Tidy) (m : Operand → Operand → Lower α β) :
    Lower.run (temp >>= fun res => temp >>= fun other => m res other) a =
      Lower.run (m (.of (.temp a.position)) (.of (.temp (a.position + 1)))) a.temp.2.temp.2 := by
  rw [run_bind, run_temp ha]
  dsimp only
  rw [run_bind, run_temp ha.temp, Allocator.position_temp]
  dsimp only
  cases Lower.run (m (.of (.temp a.position)) (.of (.temp (a.position + 1)))) a.temp.2.temp.2 with
  | error e => rfl
  | ok r => rfl

/-- A quotient is the product with a reciprocal. The reciprocal goes into the scratch register
before the product is taken, so the dividend may not live there. -/
theorem computes_quotient {divisor : Ty} (ha : a.Tidy) (hd : divisor.isScalar = true)
    (hsettled : Settled a.position l) (hl : read ρ l = some u) (hr : read ρ r = some v)
    (hrun : Lower.run (quotient l r divisor) a = .ok (o, code, a')) :
    Computes F ρ code o fun c => u c * F.rcp (v .x) := by
  rw [quotient, run_temp_temp ha, if_pos hd] at hrun
  cases hrun
  -- the reciprocal goes to a register behind the dividend's
  have hl₁ : ∀ x, read (Function.update ρ (.temp (a.position + 1)) x) l = some u := fun x =>
    (read_update hsettled (Nat.le_succ _)).trans hl
  exact ⟨_, (run_cons (step_one (read_scalar hr) rfl)).trans
    (run_cons (step_two (hl₁ _) (read_update_self _) rfl)), read_update_self _⟩

/-- The power of two scalars, in all components. -/
theorem computes_power {type : Ty} (ha : a.Tidy) (ht : type.isScalar = true)
    (hl : read ρ l = some u) (hr : read ρ r = some v)
    (hrun : Lower.run (power l r type) a = .ok (o, code, a')) :
    Computes F ρ code o (.splat (F.pow (u .x) (v .x))) := by
  rw [power, run_bind, run_temp ha] at hrun
  dsimp only at hrun
  rw [if_pos ht] at hrun
  cases hrun
  exact ⟨_, run_cons (step_two (read_scalar hl) (read_scalar hr) rfl), read_update_self _⟩

/-- A comparison is that of the difference with zero. -/
theorem computes_compare {yes no : Operand} {s t : Vec K} (ha : a.Tidy)
    (hyes : Settled a.position yes) (hno : Settled a.position no) (hl : read ρ l = some u)
    (hr : read ρ r = some v) (hs : read ρ yes = some s) (ht : read ρ no = some t)
    (hrun : Lower.run (compare l r yes no) a = .ok (o, code, a')) :
    Computes F ρ code o fun c => if u c - v c < 0 then s c else t c := by
  rw [compare, run_temp_temp ha] at hrun
  cases hrun
  -- the difference is written before the two outcomes are read
  have hs₁ : ∀ x, read (Function.update ρ (.temp (a.position + 1)) x) yes = some s := fun x =>
    (read_update hyes (Nat.le_succ _)).trans hs
  have ht₁ : ∀ x, read (Function.update ρ (.temp (a.position + 1)) x) no = some t := fun x =>
    (read_update hno (Nat.le_succ _)).trans ht
  exact ⟨_, (run_cons (step_two hl hr rfl)).trans
    (run_cons (step_cmp (read_update_self _) (hs₁ _) (ht₁ _))), read_update_self _⟩

/-! ## Equality -/

/-- The first instructions of an equality: one where the operands agree in a component, and minus
one where they do not. -/
def differences (res other : Register) (l r : Operand) : List Instruction :=
  [⟨.sub, .of other, [l, r]⟩, ⟨.cmp, .of res, [.of other, falseOperand, trueOperand]⟩,
    ⟨.sub, .of other, [r, l]⟩, ⟨.cmp, .of other, [.of other, falseOperand, trueOperand]⟩,
    ⟨.min, .of res, [.of res, .of other]⟩]

/-- Registers in which the constants true and false are loaded. -/
structure HasTruth (ρ : Registers K) : Prop where
  yes : ρ (.truth true) = .splat (truth true)
  no : ρ (.truth false) = .splat (truth false)

omit [LinearOrder K] in
/-- Scratch registers are none of those of true and false. -/
theorem HasTruth.update (h : HasTruth ρ) (n : Nat) (v : Vec K) :
    HasTruth (Function.update ρ (.temp n) v) where
  yes := by rw [Function.update_of_ne (by simp), h.yes]
  no := by rw [Function.update_of_ne (by simp), h.no]

omit [LinearOrder K] in
theorem HasTruth.read_true (h : HasTruth ρ) : read ρ trueOperand = some (.splat (truth true)) := by
  rw [trueOperand, read_of, h.yes]

omit [LinearOrder K] in
theorem HasTruth.read_false (h : HasTruth ρ) :
    read ρ falseOperand = some (.splat (truth false)) := by
  rw [falseOperand, read_of, h.no]

/-- **Behind the first instructions of an equality, the result says for each component if the
operands agree there.** Neither difference is negative exactly if both are zero. -/
theorem run_differences [IsStrictOrderedRing K] {p : Nat} (hρ : HasTruth ρ) (hsl : Settled p l)
    (hsr : Settled p r) (hl : read ρ l = some u) (hr : read ρ r = some v) :
    ∃ ρ', Machine.run F (differences (.temp p) (.temp (p + 1)) l r) ρ = some ρ' ∧
      ρ' (.temp p) = fun c => truth (decide (u c = v c)) := by
  have hne : Register.temp p ≠ .temp (p + 1) := by simp
  -- the sign of the first difference
  let ρ₁ := Function.update ρ (.temp (p + 1)) fun c => u c - v c
  have h₁ : HasTruth ρ₁ := hρ.update _ _
  have step₁ : step F ρ ⟨.sub, .of (.temp (p + 1)), [l, r]⟩ = some ρ₁ := step_two hl hr rfl
  let ρ₂ := Function.update ρ₁ (.temp p)
    fun c => if u c - v c < 0 then truth false else truth true
  have h₂ : HasTruth ρ₂ := h₁.update _ _
  have step₂ : step F ρ₁ ⟨.cmp, .of (.temp p), [.of (.temp (p + 1)), falseOperand, trueOperand]⟩ =
      some ρ₂ := step_cmp (read_update_self _) h₁.read_false h₁.read_true
  -- and that of the second
  have hl₂ : read ρ₂ l = some u := by
    rw [read_update hsl (Nat.le_refl _), read_update hsl (Nat.le_succ _), hl]
  have hr₂ : read ρ₂ r = some v := by
    rw [read_update hsr (Nat.le_refl _), read_update hsr (Nat.le_succ _), hr]
  let ρ₃ := Function.update ρ₂ (.temp (p + 1)) fun c => v c - u c
  have h₃ : HasTruth ρ₃ := h₂.update _ _
  have step₃ : step F ρ₂ ⟨.sub, .of (.temp (p + 1)), [r, l]⟩ = some ρ₃ := step_two hr₂ hl₂ rfl
  let ρ₄ := Function.update ρ₃ (.temp (p + 1))
    fun c => if v c - u c < 0 then truth false else truth true
  have step₄ : step F ρ₃ ⟨.cmp, .of (.temp (p + 1)),
      [.of (.temp (p + 1)), falseOperand, trueOperand]⟩ = some ρ₄ :=
    step_cmp (read_update_self _) h₃.read_false h₃.read_true
  -- neither is negative where the lesser of the two is one
  have hres : read ρ₄ (.of (.temp p)) =
      some fun c => if u c - v c < 0 then truth false else truth true := by
    rw [read_of]
    show some (Function.update (Function.update ρ₂ _ _) _ _ _) = _
    rw [Function.update_of_ne hne, Function.update_of_ne hne]
    show some (Function.update ρ₁ _ _ _) = _
    rw [Function.update_self]
  refine ⟨_, ((run_cons step₁).trans (run_cons step₂)).trans ((run_cons step₃).trans
    ((run_cons step₄).trans (run_cons (step_two hres (read_update_self _) rfl)))), ?_⟩
  rw [Function.update_self]
  funext c
  exact min_differences (u c) (v c)

/-- The minimum over further components, in all components of a register. -/
theorem run_minimum [IsStrictOrderedRing K] {res other : Register} (hne : res ≠ other)
    {q : Component → Bool} (cs : List Component) (b : Bool) (ρ : Registers K)
    (hres : ρ res = fun c => truth (q c)) (hother : ρ other = .splat (truth b)) :
    ∃ ρ', Machine.run F (cs.map fun c => ⟨.min, .of other,
        [(Operand.of other).component .x, (Operand.of res).component c]⟩) ρ = some ρ' ∧
      ρ' other = .splat (truth (b && cs.all q)) := by
  induction cs generalizing b ρ with
  | nil => exact ⟨ρ, rfl, by rw [List.all_nil, Bool.and_true, hother]⟩
  | cons c cs ih =>
    let ρ₁ := Function.update ρ other (.splat (truth (b && q c)))
    have hstep : step F ρ ⟨.min, .of other,
        [(Operand.of other).component .x, (Operand.of res).component c]⟩ = some ρ₁ := by
      refine (step_two (read_component_of _ _ _) (read_component_of _ _ _) rfl).trans ?_
      rw [hres, hother]
      show some (Function.update ρ other fun _ => min (truth b) (truth (q c))) = _
      rw [min_truth]
      rfl
    -- `res` is not written, so the other components of it are as at the start
    obtain ⟨ρ', hrun, hval⟩ := ih (b && q c) ρ₁
      ((Function.update_of_ne hne _ _).trans hres) (Function.update_self _ _ _)
    refine ⟨ρ', by rw [List.map_cons, run_cons hstep]; exact hrun, ?_⟩
    rw [hval, List.all_cons, Bool.and_assoc]

/-- **An equality leaves in its operand whether all components agree.** The differences are combined
by minima, over the components that the type has. -/
theorem computes_equal [IsStrictOrderedRing K] {type : Ty} (ht : Named type) (ha : a.Tidy)
    (hρ : HasTruth ρ) (hsl : Settled a.position l) (hsr : Settled a.position r)
    (hl : read ρ l = some u) (hr : read ρ r = some v)
    (hrun : Lower.run (equal l r type) a = .ok (o, code, a')) :
    (type.order = 1 → Computes F ρ code o fun c => truth (decide (u c = v c))) ∧
      (type.order ≠ 1 → Computes F ρ code o (.splat (truth (decide
        (∀ c ∈ Component.all.take type.order.toNat, u c = v c))))) := by
  obtain ⟨ρ₁, hdiff, hres⟩ : ∃ ρ', Machine.run F
      (differences (.temp a.position) (.temp (a.position + 1)) l r) ρ = some ρ' ∧
      ρ' (.temp a.position) = fun c => truth (decide (u c = v c)) :=
    run_differences hρ hsl hsr hl hr
  rw [equal, run_temp_temp ha] at hrun
  -- a number is compared by now; a vector still needs the minimum over its components
  by_cases horder : type.order ≤ 1
  · rw [if_pos horder] at hrun
    cases hrun
    refine ⟨fun _ => ⟨ρ₁, hdiff, ?_⟩, fun hne => ?_⟩
    · rw [read_of, hres]
    · have := ht.2.1
      omega
  · rw [if_neg horder, vectorComponents_ok ht] at hrun
    cases hrun
    refine ⟨fun heq => absurd (Int.le_of_eq heq) horder, fun _ => ?_⟩
    obtain ⟨k, hk⟩ : ∃ k, type.order.toNat = k + 2 := ⟨type.order.toNat - 2, by omega⟩
    have hne : Register.temp a.position ≠ .temp (a.position + 1) := by simp
    let q : Component → Bool := fun c => decide (u c = v c)
    let ρ₂ := Function.update ρ₁ (.temp (a.position + 1)) (.splat (truth (q .x && q .y)))
    have hstep : step F ρ₁ ⟨.min, .of (.temp (a.position + 1)),
        [(Operand.of (.temp a.position)).component .x,
          (Operand.of (.temp a.position)).component .y]⟩ = some ρ₂ := by
      refine (step_two (read_component_of _ _ _) (read_component_of _ _ _) rfl).trans ?_
      rw [hres]
      show some (Function.update ρ₁ _ fun _ => min (truth (q .x)) (truth (q .y))) = _
      rw [min_truth]
      rfl
    obtain ⟨ρ₃, hmin, hval⟩ : ∃ ρ', Machine.run F ((([Component.z, .w].take k).map fun c =>
        ⟨.min, .of (.temp (a.position + 1)), [(Operand.of (.temp (a.position + 1))).component .x,
          (Operand.of (.temp a.position)).component c]⟩)) ρ₂ = some ρ' ∧
        ρ' (.temp (a.position + 1)) =
          .splat (truth ((q .x && q .y) && ([Component.z, .w].take k).all q)) :=
      run_minimum hne _ _ ρ₂ ((Function.update_of_ne hne _ _).trans hres)
        (Function.update_self _ _ _)
    rw [hk]
    refine ⟨ρ₃, ?_, ?_⟩
    · show Machine.run F (differences (.temp a.position) (.temp (a.position + 1)) l r ++
        _ :: instructions (_ ++ [])) ρ = some ρ₃
      rw [List.append_nil, instructions_map, run_append, hdiff]
      exact (run_cons hstep).trans hmin
    · rw [read_of, hval]
      show some (Vec.splat (truth ((q .x && q .y) && ([Component.z, .w].take k).all q))) =
        some (Vec.splat (truth (decide
          (∀ c ∈ Component.x :: .y :: [Component.z, .w].take k, u c = v c))))
      congr 3
      rw [Bool.eq_iff_iff]
      simp [q, and_assoc]

/-! ## Registers filled by components -/

/-- An operand of before is not in the next scratch register, and neither is its first component. -/
theorem Settled.scalar_reg_ne {p : Nat} (h : Settled p o) : o.scalar.reg ≠ .temp p := by
  have hreg : o.scalar.reg = o.reg := by
    unfold Operand.scalar
    split <;> rfl
  intro heq
  exact Nat.lt_irrefl _ (h.below p (hreg ▸ heq))

/-- A value copied into all components of a scratch register. -/
theorem computes_spread (ha : a.Tidy) (hs : Settled a.position l) (hl : read ρ l = some u)
    (hrun : Lower.run (spread l) a = .ok (o, code, a')) : Computes F ρ code o (.splat (u .x)) := by
  rw [spread, run_bind, run_temp ha] at hrun
  cases hrun
  obtain ⟨ρ', hmoves, hval⟩ := run_moves (F := F) (.temp a.position) id (fun _ => l.scalar)
    (fun _ => u .x) Component.all ρ (fun _ _ => read_scalar hl) fun _ _ => hs.scalar_reg_ne
  refine ⟨ρ', ?_, ?_⟩
  · rw [List.nil_append, List.append_nil, instructions_map]
    exact hmoves
  · rw [read_of]
    congr 1
    funext c
    rw [hval c, if_pos (by cases c <;> simp [Component.all])]
    rfl

theorem map_fst_zip {β γ : Type} (l : List β) (m : List γ) :
    (l.zip m).map Prod.fst = l.take m.length := by
  induction l generalizing m with
  | nil => simp
  | cons x l ih =>
    cases m with
    | nil => rfl
    | cons y m => rw [List.zip_cons_cons, List.map_cons, ih]; rfl

/-- Values put side by side in a scratch register. -/
theorem computes_assemble {os : List Operand} (x : Component → K) (ha : a.Tidy)
    (hos : ∀ q ∈ Component.all.zip os, read ρ q.2.scalar = some (.splat (x q.1)) ∧
      q.2.scalar.reg ≠ .temp a.position)
    (hrun : Lower.run (assemble os) a = .ok (o, code, a')) :
    ∃ v, Computes F ρ code o v ∧ ∀ c ∈ Component.all.take os.length, v c = x c := by
  rw [assemble, run_bind, run_temp ha] at hrun
  cases hrun
  obtain ⟨ρ', hmoves, hval⟩ := run_moves (F := F) (.temp a.position) Prod.fst (fun q => q.2.scalar)
    x (Component.all.zip os) ρ (fun q hq => (hos q hq).1) fun q hq => (hos q hq).2
  refine ⟨ρ' (.temp a.position), ⟨ρ', ?_, read_of _ _⟩, fun c hc => ?_⟩
  · rw [List.nil_append, List.append_nil, instructions_map]
    exact hmoves
  · rw [hval c, if_pos (by rw [map_fst_zip]; exact hc)]

end Lower

end Shader
