import Shader.Proofs.Preservation

/-!
# Folding agrees with running

A constant expression can be evaluated twice. The compiler folds it, with lists of numbers and the
comparisons of its arithmetic; and it emits code for it, which takes reciprocals, looks at the signs
of differences and reads the registers of constants. Over exact numbers both give the same.

The code does not fold the operands of an operator, only constructors. So the argument goes down the
expression, and what it needs at the leaves is that a constant register holds what its initializer
folds to. That value does not depend on how much budget is left for a chain of constants
(`named_mono`).
-/

namespace Shader

open Lower Machine TypeSystem
open Program (Expr Stmt)
open Number (Scalar)

/-! ## Exact arithmetic -/

/-- Scalars that stand for the numbers of the machine: the compiler computes with them as the
machine does. -/
structure Exact {α K : Type} [Scalar α] [Field K] [LinearOrder K] (F : Functions K)
    (value : α → K) : Prop where
  ofBool : ∀ b, value (Scalar.ofBool b) = truth b
  neg : ∀ x, value (Scalar.neg x) = -value x
  add : ∀ x y, value (Scalar.add x y) = value x + value y
  sub : ∀ x y, value (Scalar.sub x y) = value x - value y
  mul : ∀ x y, value (Scalar.mul x y) = value x * value y
  div : ∀ x y, Scalar.isZero y = false → value (Scalar.div x y) = value x * F.rcp (value y)
  pow : ∀ x y z, Scalar.pow? x y = some z → value z = F.pow (value x) (value y)
  min : ∀ x y, value (Scalar.min x y) = Min.min (value x) (value y)
  max : ∀ x y, value (Scalar.max x y) = Max.max (value x) (value y)
  lt : ∀ x y, Scalar.lt x y = decide (value x < value y)
  le : ∀ x y, Scalar.le x y = decide (value x ≤ value y)
  eq : ∀ x y, Scalar.eq x y = decide (value x = value y)

/-- The arithmetic of a field. Where a power is `defined` it is that of the machine, and `ofFloat`
says which numbers the float literals are. -/
@[reducible] def exactScalar {K : Type} [Field K] [LinearOrder K] (F : Functions K)
    (ofFloat : Float → K) (defined : K → K → Bool) : Scalar K where
  ofInt n := n
  ofFloat := ofFloat
  neg x := -x
  add x y := x + y
  sub x y := x - y
  mul x y := x * y
  div x y := x / y
  pow? x y := if defined x y then some (F.pow x y) else none
  min x y := Min.min x y
  max x y := Max.max x y
  lt x y := x < y
  le x y := x ≤ y
  eq x y := x = y

theorem exact_exactScalar {K : Type} [Field K] [LinearOrder K] {F : Functions K}
    (hrcp : ∀ y, y ≠ 0 → F.rcp y = y⁻¹) (ofFloat : Float → K) (defined : K → K → Bool) :
    letI := exactScalar F ofFloat defined
    Exact F (id : K → K) := by
  let _ := exactScalar F ofFloat defined
  exact
    { ofBool := by
        intro b
        show ((if b then 1 else -1 : Int) : K) = truth b
        cases b <;> simp [truth]
      neg := fun _ => rfl
      add := fun _ _ => rfl
      sub := fun _ _ => rfl
      mul := fun _ _ => rfl
      div := by
        intro x y hy
        have hy : decide (y = ((0 : Int) : K)) = false := hy
        have hy : y ≠ 0 := by simpa using hy
        show x / y = x * F.rcp y
        rw [hrcp y hy, div_eq_mul_inv]
      pow := by
        intro x y z hz
        have hz : (if defined x y then some (F.pow x y) else none) = some z := hz
        rw [Option.ite_none_right_eq_some] at hz
        exact (Option.some.inj hz.2).symm
      min := fun _ _ => rfl
      max := fun _ _ => rfl
      lt := fun _ _ => rfl
      le := fun _ _ => rfl
      eq := fun _ _ => rfl }

/-! ## Lists of numbers -/

theorem ofList_map_apply {α K : Type} [Zero K] {value : α → K} {xs : List α} {c : Component} {x : α}
    (hx : xs[c.index]? = some x) : Vec.ofList (xs.map value) c = value x := by
  rcases xs with _ | ⟨y, _ | ⟨z, ys⟩⟩
  · cases hx
  · have hy : y = x := by
      cases c <;> cases hx
      rfl
    rw [hy]
    rfl
  · show (List.map value (y :: z :: ys)).getD c.index 0 = value x
    rw [List.getD_eq_getElem?_getD, List.getElem?_map, hx]
    rfl

theorem index_lt_of_mem_components {t : Ty} (ht : t.order ≠ 1) {c : Component}
    (hc : c ∈ t.components) : c.index < t.order.toNat := by
  rw [components_of_vector ht] at hc
  obtain ⟨i, hi⟩ := List.getElem?_of_mem hc
  rw [List.getElem?_take, Option.ite_none_right_eq_some] at hi
  rw [index_of_getElem? hi.2]
  exact hi.1

namespace Reduce

theorem exists_of_bind_eq_ok {β γ : Type} {x : Except Failure β} {f : β → Except Failure γ} {c : γ}
    (h : x >>= f = .ok c) : ∃ b, x = .ok b ∧ f b = .ok c := by
  cases x with
  | error e => cases h
  | ok b => exact ⟨b, rfl, h⟩

/-! ## Budget -/

section Budget

variable {α : Type} [Scalar α] {lookup lookup' : Ref → Except Failure (Option (Constant α))}

omit [Scalar α] in
theorem bind_mono {β γ : Type} {x x' : Except Failure β} {f f' : β → Except Failure γ} {c : γ}
    (hx : ∀ b, x = .ok b → x' = .ok b) (hf : ∀ b, f b = .ok c → f' b = .ok c)
    (h : x >>= f = .ok c) : x' >>= f' = .ok c := by
  obtain ⟨b, hb, hc⟩ := exists_of_bind_eq_ok h
  rw [hx b hb]
  exact hf b hc

mutual

/-- A look-up that folds more names folds no expression differently. -/
theorem expr_mono (h : ∀ ref c, lookup ref = .ok c → lookup' ref = .ok c) :
    ∀ (e : Expr) (c : Option (Constant α)), expr lookup e = .ok c → expr lookup' e = .ok c
  | .absent, _, hc => by rw [expr] at hc; cases hc
  | .int _ _, _, hc => by rw [expr] at hc ⊢; exact hc
  | .float _ _, _, hc => by rw [expr] at hc ⊢; exact hc
  | .bool _ _, _, hc => by rw [expr] at hc ⊢; exact hc
  | .var ref, c, hc => by
    rw [expr] at hc ⊢
    exact h ref c hc
  | .index ref _ _, _, hc => by
    rw [expr] at hc ⊢
    exact bind_mono (h ref) (fun _ h => h) hc
  | .unary _ _ x _, _, hc => by
    rw [expr] at hc ⊢
    exact bind_mono (expr_mono h x) (fun _ h => h) hc
  | .binary _ _ l r _, c, hc => by
    rw [expr] at hc ⊢
    refine bind_mono (expr_mono h l) (fun left hleft => ?_) hc
    rcases left with _ | _ | ⟨_, _⟩
    · exact hleft
    · exact bind_mono (expr_mono h r) (fun _ h => h) hleft
    · exact hleft
  | .call _ _ _ _, _, hc => by rw [expr] at hc ⊢; exact hc
  | .construct _ _ args, _, hc => by
    rw [expr] at hc ⊢
    exact bind_mono (scalars_mono h args) (fun _ h => h) hc

theorem scalars_mono (h : ∀ ref c, lookup ref = .ok c → lookup' ref = .ok c) :
    ∀ (es : List Expr) (xs : Option (List α)), scalars lookup es = .ok xs →
      scalars lookup' es = .ok xs
  | [], _, hxs => by rw [scalars] at hxs ⊢; exact hxs
  | e :: es, _, hxs => by
    rw [scalars] at hxs ⊢
    refine bind_mono (expr_mono h e) (fun first hfirst => ?_) hxs
    rcases first with _ | (_ | ⟨_, _ | ⟨_, _⟩⟩) | ⟨_, _⟩
    · exact hfirst
    · exact hfirst
    · exact bind_mono (scalars_mono h es) (fun _ h => h) hfirst
    · exact hfirst
    · exact hfirst

end

/-- **What a name folds to does not depend on the budget**, if there is enough of it. -/
theorem named_mono (env : Env) (budget : Nat) :
    ∀ (ref : Ref) (c : Option (Constant α)), named env budget ref = .ok c →
      named env (budget + 1) ref = .ok c := by
  induction budget with
  | zero =>
    intro ref c hc
    rw [named] at hc
    cases hc
  | succ budget ih =>
    intro ref c hc
    rw [named] at hc ⊢
    generalize ref.decl.bind (env.decls[·]?) = found at hc ⊢
    cases found with
    | none => exact hc
    | some d =>
      dsimp only at hc ⊢
      by_cases ho : (!d.isOrdinary) = true
      · rwa [if_pos ho] at hc ⊢
      · rw [if_neg ho] at hc ⊢
        -- only the initializer of a constant is looked at with what is left
        by_cases hconst : d.isConst = true
        · rw [if_pos hconst] at hc ⊢
          cases hinit : d.init with
          | none => rwa [hinit] at hc
          | some e =>
            rw [hinit] at hc
            exact expr_mono ih e c hc
        · rwa [if_neg hconst] at hc ⊢

end Budget

/-! ## Expressions that fold to numbers -/

section Literals

variable {α : Type} [Scalar α] {env : Env} {pos : Pos} {t : Ty} {zs : List α}

theorem literal_of_index {ref : Ref} {i : Int}
    (h : reduce env (.index ref i t) = .ok (some (.literal zs))) :
    ∃ ys y, reduce env (.var ref) = .ok (some (.literal ys)) ∧ ys[i.toNat]? = some y ∧
      zs = [y] := by
  rw [reduce, expr] at h
  rw [reduce, expr]
  obtain ⟨c, hc, h⟩ := exists_of_bind_eq_ok h
  rw [hc]
  rcases c with _ | ys | ⟨r, path⟩
  · cases h
  · have h := Except.ok.inj h
    rw [Option.ite_none_left_eq_some] at h
    obtain ⟨y, hy, heq⟩ := Option.map_eq_some_iff.mp h.2
    cases heq
    exact ⟨ys, y, rfl, hy, rfl⟩
  · obtain ⟨c, -, h⟩ := exists_of_bind_eq_ok h
    cases h

theorem literal_of_unary {op : UnaryOp} {e : Expr}
    (h : reduce env (.unary pos op e t) = .ok (some (.literal zs))) :
    ∃ ys, reduce env e = .ok (some (.literal ys)) ∧ zs = ys.map Scalar.neg := by
  rw [reduce, expr, ← reduce] at h
  obtain ⟨c, hc, h⟩ := exists_of_bind_eq_ok h
  rw [hc]
  rcases c with _ | ys | ⟨r, path⟩ <;> cases h
  exact ⟨ys, rfl, rfl⟩

theorem literal_of_binary {op : BinaryOp} {l r : Expr}
    (h : reduce env (.binary pos op l r t) = .ok (some (.literal zs))) :
    ∃ ls rs, reduce env l = .ok (some (.literal ls)) ∧ reduce env r = .ok (some (.literal rs)) ∧
      binary op ls rs = .ok (some zs) := by
  rw [reduce, expr, ← reduce, ← reduce] at h
  obtain ⟨left, hl, h⟩ := exists_of_bind_eq_ok h
  rw [hl]
  rcases left with _ | ls | ⟨_, _⟩
  · cases h
  · obtain ⟨right, hr, h⟩ := exists_of_bind_eq_ok h
    rw [hr]
    rcases right with _ | rs | ⟨_, _⟩
    · cases h
    · obtain ⟨c, hc, h⟩ := exists_of_bind_eq_ok h
      cases c <;> cases h
      exact ⟨ls, rs, rfl, rfl, hc⟩
    · cases h
  · cases h

end Literals

/-! ## Operators -/

section Operators

variable {α K : Type} [Scalar α] {value : α → K}

omit [Scalar α] in
/-- The operands of each component of a result. -/
theorem getElem?_of_broadcast [Zero K] (value : α → K) {ls rs : List α} {pairs : List (α × α)}
    (h : broadcast ls rs = some pairs) {c : Component} {p : α × α} (hp : pairs[c.index]? = some p) :
    Vec.ofList (ls.map value) c = value p.1 ∧ Vec.ofList (rs.map value) c = value p.2 := by
  unfold broadcast at h
  split at h
  · cases h
    obtain ⟨hl, hr⟩ := List.getElem?_zip_eq_some.mp hp
    exact ⟨ofList_map_apply hl, ofList_map_apply hr⟩
  · split at h
    -- a single number is the operand of every component
    · cases h
      rw [List.getElem?_map] at hp
      obtain ⟨y, hy, rfl⟩ := Option.map_eq_some_iff.mp hp
      exact ⟨rfl, ofList_map_apply hy⟩
    · cases h
      rw [List.getElem?_map] at hp
      obtain ⟨x, hx, rfl⟩ := Option.map_eq_some_iff.mp hp
      exact ⟨ofList_map_apply hx, rfl⟩
    · cases h

omit [Scalar α] in
theorem mem_of_broadcast {ls rs : List α} {pairs : List (α × α)} (h : broadcast ls rs = some pairs)
    {p : α × α} (hp : p ∈ pairs) : p.1 ∈ ls ∧ p.2 ∈ rs := by
  unfold broadcast at h
  split at h
  · cases h
    exact ⟨(List.of_mem_zip hp).1, (List.of_mem_zip hp).2⟩
  · split at h
    · cases h
      obtain ⟨y, hy, rfl⟩ := List.mem_map.mp hp
      exact ⟨List.mem_singleton.mpr rfl, hy⟩
    · cases h
      obtain ⟨x, hx, rfl⟩ := List.mem_map.mp hp
      exact ⟨hx, List.mem_singleton.mpr rfl⟩
    · cases h

theorem getElem?_of_components {op : BinaryOp} {pairs : List (α × α)} {zs : List α}
    (h : components op pairs = .ok (some zs)) {i : Nat} {z : α} (hz : zs[i]? = some z) :
    ∃ p, pairs[i]? = some p ∧ component op p.1 p.2 = .ok (some z) := by
  induction pairs generalizing zs i with
  | nil =>
    cases h
    simp at hz
  | cons p rest ih =>
    obtain ⟨x, y⟩ := p
    rw [components] at h
    obtain ⟨first, hfirst, h⟩ := exists_of_bind_eq_ok h
    cases first with
    | none => cases h
    | some first =>
      obtain ⟨more, hmore, h⟩ := exists_of_bind_eq_ok h
      cases more <;> cases h
      cases i with
      | zero =>
        cases hz
        exact ⟨(x, y), rfl, hfirst⟩
      | succ i => exact ih hmore hz

/-- An operator that works on each component by itself, and computes `f` there. -/
theorem shows_componentwise [Zero K] {op : BinaryOp} (hop : op ∈ componentwise) {f : K → K → K}
    (hf : ∀ x y z, component op x y = .ok (some z) → value z = f (value x) (value y)) {t : Ty}
    {ls rs zs : List α} (hls : 1 ≤ ls.length) (hrs : 1 ≤ rs.length)
    (hz : binary op ls rs = .ok (some zs)) (ht : (zs.length : Int) = t.order) :
    Shows t (fun c => f (Vec.ofList (ls.map value) c) (Vec.ofList (rs.map value) c))
      (.ofList (zs.map value)) := by
  rw [binary_componentwise hop] at hz
  cases hb : broadcast ls rs with
  | none =>
    rw [hb] at hz
    cases hz
  | some pairs =>
    rw [hb] at hz
    -- component by component, where a scalar stands for a vector of equal components
    have hpoint : ∀ c : Component, c.index < zs.length →
        f (Vec.ofList (ls.map value) c) (Vec.ofList (rs.map value) c) =
          Vec.ofList (zs.map value) c := by
      intro c hc
      have hzc := List.getElem?_eq_getElem hc
      obtain ⟨p, hp, hcomp⟩ := getElem?_of_components hz hzc
      obtain ⟨hl, hr⟩ := getElem?_of_broadcast value hb hp
      rw [ofList_map_apply hzc, hl, hr, hf _ _ _ hcomp]
    by_cases hone : t.order = 1
    · -- one number comes of two
      obtain ⟨r, hr, hlen⟩ := components_ok hop pairs
      have hpairs := hlen zs (Except.ok.inj (hr.symm.trans hz))
      have hmax := length_broadcast hls hrs hb
      obtain ⟨x, rfl⟩ := List.length_eq_one_iff.mp (by omega : ls.length = 1)
      obtain ⟨y, rfl⟩ := List.length_eq_one_iff.mp (by omega : rs.length = 1)
      obtain ⟨z, rfl⟩ := List.length_eq_one_iff.mp (by omega : zs.length = 1)
      have hsame : f (value x) (value y) = value z := hpoint .x (Nat.zero_lt_one)
      show Shows t (.splat (f (value x) (value y))) (.splat (value z))
      rw [hsame]
      exact .scalar _ hone
    · exact .vector hone fun c hc => hpoint c (by
        have := index_lt_of_mem_components hone hc
        omega)

variable [Field K] [LinearOrder K] {F : Functions K}

/-- Folding compares all components, as the meaning of an equality does. -/
theorem all_eq_iff (hE : Exact F value) {t : Ty} (ht : Named t) {ls rs : List α}
    (hl : (ls.length : Int) = t.order) (hr : (rs.length : Int) = t.order) :
    ((ls.zip rs).all fun p => Scalar.eq p.1 p.2) = true ↔
      ∀ c ∈ t.components, Vec.ofList (ls.map value) c = Vec.ofList (rs.map value) c := by
  have hle : t.order ≤ 4 := ht.2.2
  have hpoint : ∀ c : Component, c.index < ls.length → ∃ x y, (ls.zip rs)[c.index]? = some (x, y) ∧
      Vec.ofList (ls.map value) c = value x ∧ Vec.ofList (rs.map value) c = value y := by
    intro c hc
    have hx := List.getElem?_eq_getElem hc
    have hy := List.getElem?_eq_getElem (by omega : c.index < rs.length)
    exact ⟨_, _, List.getElem?_zip_eq_some.mpr ⟨hx, hy⟩, ofList_map_apply hx, ofList_map_apply hy⟩
  rw [List.all_eq_true]
  constructor
  · intro hall
    have hsame : ∀ c : Component, c.index < ls.length →
        Vec.ofList (ls.map value) c = Vec.ofList (rs.map value) c := by
      intro c hc
      obtain ⟨x, y, hp, hx, hy⟩ := hpoint c hc
      have heq := hall _ (List.mem_of_getElem? hp)
      rw [hE.eq, decide_eq_true_iff] at heq
      rw [hx, hy, heq]
    by_cases hone : t.order = 1
    · obtain ⟨x, rfl⟩ := List.length_eq_one_iff.mp (by omega : ls.length = 1)
      obtain ⟨y, rfl⟩ := List.length_eq_one_iff.mp (by omega : rs.length = 1)
      exact fun _ _ => hsame .x Nat.zero_lt_one
    · intro c hc
      have := index_lt_of_mem_components hone hc
      exact hsame c (by omega)
  · intro hall p hp
    obtain ⟨i, hi⟩ := List.getElem?_of_mem hp
    have hlt : i < ls.length := by
      have := (List.getElem?_eq_some_iff.mp hi).1
      rw [List.length_zip] at this
      omega
    have hi4 : i < 4 := by omega
    -- every place of the list is that of a component
    obtain ⟨x, y, hxy, hx, hy⟩ := hpoint (Component.all.get ⟨i, hi4⟩) (by rwa [index_get])
    rw [index_get, hi] at hxy
    cases hxy
    have heq := hall (Component.all.get ⟨i, hi4⟩) (mem_components (by rw [index_get]; omega))
    rw [hx, hy] at heq
    rw [hE.eq]
    exact decide_eq_true heq

/-- **A folded operator has the value of the operator on the folded operands.** -/
theorem shows_binary (hE : Exact F value) {op : BinaryOp} {lt rt t : Ty} (h : BinaryRule op lt rt t)
    (hlt : Named lt) (hrt : Named rt) {ls rs zs : List α} (hl : (ls.length : Int) = lt.order)
    (hr : (rs.length : Int) = rt.order) (hz : binary op ls rs = .ok (some zs)) :
    Shows t (Semantics.binary F lt (.ofList (ls.map value)) (.ofList (rs.map value)) op)
      (.ofList (zs.map value)) := by
  have hls : 1 ≤ ls.length := by have := hlt.2.1; omega
  have hrs : 1 ≤ rs.length := by have := hrt.2.1; omega
  obtain ⟨c, hc, hlen⟩ := binary_ok h hlt hrt hl hr
  have ht := hlen zs (Except.ok.inj (hc.symm.trans hz))
  -- one fact for the operators that go by components, and one for those that give a truth value
  have hwise : ∀ f : K → K → K, op ∈ componentwise →
      (∀ x y z, component op x y = .ok (some z) → value z = f (value x) (value y)) →
      Shows t (fun c => f (Vec.ofList (ls.map value) c) (Vec.ofList (rs.map value) c))
        (.ofList (zs.map value)) :=
    fun f hop hf => shows_componentwise hop hf hls hrs hz ht
  have hsame : ∀ (b : Bool) (p : Prop) [Decidable p], b = decide p →
      Shows .bool (Semantics.holds p : Vec K) (.splat (value (Scalar.ofBool b))) := by
    intro b p _ hb
    rw [hE.ofBool, hb]
    exact .scalar _ rfl
  cases h with
  | add => exact hwise (· + ·) (by simp [componentwise]) fun x y _ h => by cases h; exact hE.add x y
  | sub => exact hwise (· - ·) (by simp [componentwise]) fun x y _ h => by cases h; exact hE.sub x y
  | mul => exact hwise (· * ·) (by simp [componentwise]) fun x y _ h => by cases h; exact hE.mul x y
  | scaleLeft =>
    exact hwise (· * ·) (by simp [componentwise]) fun x y _ h => by cases h; exact hE.mul x y
  | scaleRight =>
    exact hwise (· * ·) (by simp [componentwise]) fun x y _ h => by cases h; exact hE.mul x y
  | and => exact hwise min (by simp [componentwise]) fun x y _ h => by cases h; exact hE.min x y
  | or => exact hwise max (by simp [componentwise]) fun x y _ h => by cases h; exact hE.max x y
  | div =>
    obtain ⟨x, rfl⟩ := List.length_eq_one_iff.mp (Int.ofNat.inj hl : ls.length = 1)
    obtain ⟨y, rfl⟩ := List.length_eq_one_iff.mp (Int.ofNat.inj hr : rs.length = 1)
    refine hwise (fun x y => x * F.rcp y) (by simp [componentwise]) fun x y z h => ?_
    have h := Except.ok.inj h
    rw [Option.ite_none_left_eq_some] at h
    rw [← Option.some.inj h.2]
    exact hE.div x y (Bool.eq_false_iff.mpr h.1)
  | pow =>
    obtain ⟨x, rfl⟩ := List.length_eq_one_iff.mp (Int.ofNat.inj hl : ls.length = 1)
    obtain ⟨y, rfl⟩ := List.length_eq_one_iff.mp (Int.ofNat.inj hr : rs.length = 1)
    exact hwise F.pow (by simp [componentwise]) fun x y z h => hE.pow x y z (Except.ok.inj h)
  | order hop =>
    obtain ⟨x, rfl⟩ := List.length_eq_one_iff.mp (Int.ofNat.inj hl : ls.length = 1)
    obtain ⟨y, rfl⟩ := List.length_eq_one_iff.mp (Int.ofNat.inj hr : rs.length = 1)
    simp only [List.mem_cons, List.not_mem_nil, or_false] at hop
    rcases hop with rfl | rfl | rfl | rfl <;> cases hz
    · exact hsame _ _ (hE.lt x y)
    · exact hsame _ _ (hE.le x y)
    · exact hsame _ _ (hE.lt y x)
    · exact hsame _ _ (hE.le y x)
  | equate hop =>
    have hall := Bool.eq_iff_iff.mpr ((all_eq_iff (F := F) hE hlt hl hr).trans
      decide_eq_true_iff.symm)
    simp only [List.mem_cons, List.not_mem_nil, or_false] at hop
    rcases hop with rfl | rfl <;> rw [binary, if_pos (by omega)] at hz <;> cases hz
    · exact hsame _ _ ((beq_true _).trans hall)
    · exact hsame _ _ (by rw [decide_not, ← hall]; exact beq_false _)

end Operators

end Reduce

/-! ## Expressions -/

section Exprs

variable {α K : Type} [Scalar α] [Field K] {env : Env} {n next : Nat} {Γ : Context}
  {value : α → K} {contents : Registers K} {ps : List (Param α)} {ρ ρ' : Registers K}

/-- Registers in which constants are loaded: those of the text in `ps`, and the shader's own. -/
structure Ready (env : Env) (value : α → K) (contents : Registers K) (ps : List (Param α))
    (ρ : Registers K) : Prop where
  text : Loaded value contents ps ρ
  own : ∀ p ∈ constants env, ρ p.reg = paramValue value contents p.value

/-- Code that writes scratch registers only leaves the constants alone. -/
theorem Ready.congr (h : Ready env value contents ps ρ) (hA : Accepted env n) {p : Nat}
    (heq : ∀ r, ¬ScratchFrom p r → ρ' r = ρ r) : Ready env value contents ps ρ' where
  text := h.text.congr fun r hr => heq r (not_scratchFrom_of_isConstant hr)
  own := by
    intro q hq
    obtain ⟨-, -, -, -, -, ⟨name, k, hreg⟩, -⟩ := exists_user_of_mem_constants hA hq
    rw [heq q.reg (by rw [hreg]; exact not_scratchFrom_of_isVariable (.user name k))]
    exact h.own q hq

omit [Field K] in
theorem length_of_literal (hA : Accepted env n) (hΓ : Fits env.decls n next Γ) (hn : next ≤ n)
    {e : Ast.Expr} {e' : Expr} {t : Ty} (h : Typed Γ e e' t) {xs : List α}
    (hxs : reduce env e' = .ok (some (.literal xs))) : (xs.length : Int) = t.order := by
  obtain ⟨c, hc, hshape⟩ := Reduce.folds_reduce (α := α) hA hΓ hn h
  cases hxs.symm.trans hc
  exact hshape

omit [Field K] in
/-- A variable that folds to numbers is a constant, declared with these numbers. -/
theorem mem_constants_of_reduce (hA : Accepted env n) {name : Bytes} {id : DeclId} {pos : Pos}
    {xs : List α} (h : reduce env (.var ⟨name, some id, pos⟩) = .ok (some (.literal xs))) :
    ∃ r, env.symbols.register? id = some r ∧
      (⟨r, .constant (.literal xs)⟩ : Param α) ∈ constants env := by
  rw [reduce, Reduce.expr, Reduce.named] at h
  cases hd : env.decls[id]? with
  | none =>
    rw [Option.bind_some, hd] at h
    cases h
  | some d =>
    rw [Option.bind_some, hd] at h
    dsimp only at h
    obtain ⟨r, hr, -⟩ := hA.listed id d hd
    refine ⟨r, hr, ?_⟩
    by_cases ho : (!d.isOrdinary) = true
    -- a predefined variable folds to its register
    · rw [if_pos ho, Symbols.registerOf, hr] at h
      cases h
    · rw [if_neg ho] at h
      by_cases hc : d.isConst = true
      · rw [if_pos hc] at h
        cases hinit : d.init with
        | none =>
          rw [hinit] at h
          cases h
        | some e =>
          rw [hinit] at h
          have hreduce : reduce env e = .ok (some (.literal xs)) := by
            exact Reduce.expr_mono (Reduce.named_mono env _) e _ h
          have hvalue : reduceOrZero env e = .ok (.constant (.literal xs), true) := by
            rw [reduceOrZero, hreduce]
            rfl
          exact List.mem_filterMap.mpr ⟨(id, r), Symbols.mem_of_register? hr, by
            simp [constant?, hd, hc, hinit, hvalue]⟩
      · rw [if_neg hc] at h
        cases h

variable [LinearOrder K] {F : Functions K} {a a' : Allocator α} {o : Operand} {code : List Line}

/-- A variable or a component that folds is in its constant register. -/
theorem folded_access (hA : Accepted env n) (hΓ : Fits env.decls n next Γ) (hn : next ≤ n)
    {v : Ast.Var} {v' : Expr} {x : Variable} {t : Ty} (h : Access Γ v v' x t)
    (hq : x.qualifier ≠ .result) {xs : List α} (hxs : reduce env v' = .ok (some (.literal xs)))
    (hρ : Ready env value contents ps ρ)
    (hrun : Lower.run (target env v') a = .ok (o, code, a')) :
    ∃ u, Computes F ρ code o u ∧ Shows t u (.ofList (xs.map value)) := by
  cases h with
  | @whole pos name x hx =>
    obtain ⟨r, hr, hmem⟩ := mem_constants_of_reduce hA hxs
    rw [target, register_eq_pure hr] at hrun
    cases hrun
    refine ⟨_, ⟨ρ, rfl, read_of _ _⟩, ?_⟩
    rw [hρ.own _ hmem]
    exact shows_ofList (by
      rw [List.length_map]
      exact length_of_literal hA hΓ hn (.var (.whole hx) hq) hxs)
  | @component pos name x i hx hvec hi =>
    have hlt := lt_four_of_finds hΓ.named hx hi
    obtain ⟨ys, y, hys, hy, rfl⟩ := Reduce.literal_of_index hxs
    obtain ⟨r, hr, hmem⟩ := mem_constants_of_reduce hA hys
    rw [target, indexed_eq_pure hr _ _ hlt] at hrun
    cases hrun
    refine ⟨_, ⟨ρ, rfl, read_component_of _ _ _⟩, ?_⟩
    rw [hρ.own _ hmem, paramValue, ofList_map_apply (by rw [index_get]; exact hy)]
    exact .scalar _ rfl

omit [Field K] [LinearOrder K] in
theorem Shows.trans {t : Ty} {u v w : Vec K} (h : Shows t u v) (h' : Shows t v w) :
    Shows t u w := by
  by_cases hone : t.order = 1
  · obtain ⟨x, rfl, rfl⟩ := h.splat hone
    obtain ⟨y, hy, rfl⟩ := h'.splat hone
    rw [hy]
    exact .scalar y hone
  · exact .vector hone fun c hc => (h.apply hc).trans (h'.apply hc)

theorem shows_neg (hE : Exact F value) {xs : List α} {t : Ty} (h : (xs.length : Int) = t.order) :
    Shows t (-Vec.ofList (xs.map value)) (.ofList ((xs.map Scalar.neg).map value)) := by
  by_cases hone : t.order = 1
  · obtain ⟨x, rfl⟩ := List.length_eq_one_iff.mp (by omega : xs.length = 1)
    show Shows t (.splat (-value x)) (.splat (value (Scalar.neg x)))
    rw [hE.neg]
    exact .scalar _ hone
  · refine .vector hone fun c hc => ?_
    have hlt := index_lt_of_mem_components hone hc
    have hx := List.getElem?_eq_getElem (by omega : c.index < xs.length)
    rw [Pi.neg_apply, ofList_map_apply hx, ← hE.neg]
    refine (ofList_map_apply ?_).symm
    rw [List.getElem?_map, hx]
    rfl

/-- **The code of an expression that folds computes what it folds to.** -/
theorem folded_expr [IsStrictOrderedRing K] (hE : Exact F value) (hA : Accepted env n)
    (hΓ : Fits env.decls n next Γ) (hn : next ≤ n) :
    ∀ {e : Ast.Expr} {e' : Expr} {t : Ty}, Typed Γ e e' t →
      ∀ {xs : List α}, reduce env e' = .ok (some (.literal xs)) →
      ∀ {a a' : Allocator α} {o : Operand} {code : List Line} {ρ : Registers K}, a.Tidy →
      Lower.run (expr env e') a = .ok (o, code, a') → a'.program.immediates ⊆ ps →
      Ready env value contents ps ρ →
      ∃ v, Computes F ρ code o v ∧ Shows t v (.ofList (xs.map value))
  | _, _, _, .int, _, hxs, _, _, _, _, _, _, hrun, hps, hρ => by
    cases hxs
    rw [expr] at hrun
    exact ⟨_, computes_immediate hrun hps hρ.text, .scalar _ rfl⟩
  | _, _, _, .float, _, hxs, _, _, _, _, _, _, hrun, hps, hρ => by
    cases hxs
    rw [expr] at hrun
    exact ⟨_, computes_immediate hrun hps hρ.text, .scalar _ rfl⟩
  | _, _, _, .bool, _, hxs, _, _, _, _, _, _, hrun, hps, hρ => by
    cases hxs
    rw [expr] at hrun
    exact ⟨_, computes_immediate hrun hps hρ.text, .scalar _ rfl⟩
  | _, _, _, .var hacc hq, _, hxs, _, _, _, _, _, _, hrun, _, hρ => by
    rw [expr_access hacc] at hrun
    exact folded_access hA hΓ hn hacc hq hxs hρ hrun
  | _, _, _, .unary he hop, _, hxs, _, _, _, _, _, ha, hrun, hps, hρ => by
    obtain ⟨ys, hys, rfl⟩ := Reduce.literal_of_unary hxs
    obtain ⟨v, hcomp, hshows⟩ := computes_operand (F := F) (nameable_of_accepted hA) ha hrun hps
      fun h₁ hps₁ => folded_expr hE hA hΓ hn he hys ha h₁ hps₁ hρ
    refine ⟨-v, hcomp, ?_⟩
    have hneg := (hshows.map fun x => -x).trans (shows_neg hE (length_of_literal hA hΓ hn he hys))
    cases hop with
    | neg => exact hneg
    | not => exact hneg
  | _, _, _, .binary he hf hop, _, hxs, _, _, _, _, _, ha, hrun, hps, hρ => by
    obtain ⟨ls, rs, hls, hrs, hbinary⟩ := Reduce.literal_of_binary hxs
    -- the code of an operator computes its meaning, and that is what folding computes
    refine computes_operands (nameable_of_accepted hA) ha (fun heq hρ => hρ.congr hA heq)
      hrun hps hρ
      (fun h₁ hps₁ => folded_expr hE hA hΓ hn he hls ha h₁ hps₁ hρ)
      (fun ht₁ h₂ hps₂ hρ₁ => folded_expr hE hA hΓ hn hf hrs ht₁ h₂ hps₂ hρ₁) ?_
    intro x y code₃ a₂ ρ₂ u v ht₂ hps₂ hρ₂ hx hy hread₁ hread₂ hu hv h₃
    rw [type_of_typed hΓ.lists he, type_of_typed hΓ.lists hf] at h₃
    obtain ⟨w, hcomp, hw⟩ := simulates_binary (F := F) hop (he.named hΓ.named) ht₂
      (hρ₂.text.hasTruth ht₂ hps₂) hx hy hread₁ hread₂ hu hv h₃
    exact ⟨w, hcomp, hw.trans (Reduce.shows_binary hE hop
      (he.named hΓ.named) (hf.named hΓ.named) (length_of_literal hA hΓ hn he hls)
      (length_of_literal hA hΓ hn hf hrs) hbinary)⟩
  -- calls are never folded
  | _, _, _, .call _ _, _, hxs, _, _, _, _, _, _, _, _, _ => by
    rw [reduce, Reduce.expr] at hxs
    cases hxs
  | _, _, _, h@(.construct _ _), _, hxs, _, _, _, _, _, _, hrun, hps, hρ => by
    rw [expr, hxs] at hrun
    obtain ⟨c', code₁, a₁, code₂, h₁, h₂, rfl⟩ := run_bind_eq_ok.mp hrun
    cases h₁
    exact ⟨_, computes_immediate h₂ hps hρ.text, shows_ofList (by
      rw [List.length_map]
      exact length_of_literal hA hΓ hn h hxs)⟩

end Exprs

/-! ## The expressions of a program -/

namespace Program

mutual

/-- An expression and the expressions in it. An index has the variable it goes into. -/
def Expr.parts : Expr → List Expr
  | .index ref i t => [.index ref i t, .var ref]
  | .unary pos op x t => .unary pos op x t :: x.parts
  | .binary pos op l r t => .binary pos op l r t :: (l.parts ++ r.parts)
  | .call pos f args t => .call pos f args t :: Expr.listParts args
  | .construct pos t args => .construct pos t args :: Expr.listParts args
  | e => [e]

def Expr.listParts : List Expr → List Expr
  | [] => []
  | e :: es => e.parts ++ Expr.listParts es

end

mutual

/-- The expressions of a statement, but for those in initializers. -/
def Stmt.exprs : Stmt → List Expr
  | .absent => []
  | .assign _ target value => target.parts ++ value.parts
  | .branch cond yes none => cond.parts ++ yes.exprs
  | .branch cond yes (some no) => cond.parts ++ yes.exprs ++ no.exprs
  | .loop _ cond body => cond.parts ++ body.exprs
  | .scope _ ss => Stmt.listExprs ss

def Stmt.listExprs : List Stmt → List Expr
  | [] => []
  | s :: ss => s.exprs ++ Stmt.listExprs ss

end

mutual

/-- What the assignments of a statement write to. -/
def Stmt.targets : Stmt → List Expr
  | .absent => []
  | .assign _ target _ => target.parts
  | .branch _ yes none => yes.targets
  | .branch _ yes (some no) => yes.targets ++ no.targets
  | .loop _ _ body => body.targets
  | .scope _ ss => Stmt.listTargets ss

def Stmt.listTargets : List Stmt → List Expr
  | [] => []
  | s :: ss => s.targets ++ Stmt.listTargets ss

end

/-- What the assignments of a program write to. -/
def targets (p : Program) : List Expr := p.body.elim [] fun b => Stmt.listTargets b.stmts

/-- The expressions of a program: in the initializers of its variables, and in its statements. -/
def exprs (p : Program) : List Expr :=
  p.decls.flatMap (fun d => d.init.elim [] Expr.parts) ++
    p.body.elim [] fun b => Stmt.listExprs b.stmts

end Program

section Parts

variable {α : Type} [Scalar α] {env : Env} {n : Nat} {Γ : Context}

theorem typed_of_mem_access {v : Ast.Var} {v' : Expr} {x : Variable} {t : Ty}
    (h : Access Γ v v' x t) (hq : x.qualifier ≠ .result) {f : Expr} (hf : f ∈ v'.parts) :
    ∃ e s, Typed Γ e f s := by
  cases h with
  | whole hx =>
    cases List.mem_singleton.mp hf
    exact ⟨_, _, .var (.whole hx) hq⟩
  | component hx hvec hi =>
    rw [Program.Expr.parts, List.mem_cons, List.mem_singleton] at hf
    rcases hf with rfl | rfl
    · exact ⟨_, _, .var (.component hx hvec hi) hq⟩
    · exact ⟨_, _, .var (.whole hx) hq⟩

mutual

/-- The expressions in a typed one are typed where it is. -/
theorem typed_of_mem_parts :
    ∀ {e : Ast.Expr} {e' : Expr} {t : Ty}, Typed Γ e e' t → ∀ f ∈ e'.parts, ∃ g s, Typed Γ g f s
  | _, _, _, h@.int, f, hf => by cases List.mem_singleton.mp hf; exact ⟨_, _, h⟩
  | _, _, _, h@.float, f, hf => by cases List.mem_singleton.mp hf; exact ⟨_, _, h⟩
  | _, _, _, h@.bool, f, hf => by cases List.mem_singleton.mp hf; exact ⟨_, _, h⟩
  | _, _, _, .var ha hq, f, hf => typed_of_mem_access ha hq hf
  | _, _, _, h@(.unary he _), f, hf => by
    rw [Program.Expr.parts, List.mem_cons] at hf
    rcases hf with rfl | hf
    · exact ⟨_, _, h⟩
    · exact typed_of_mem_parts he f hf
  | _, _, _, h@(.binary hl hr _), f, hf => by
    rw [Program.Expr.parts, List.mem_cons, List.mem_append] at hf
    rcases hf with rfl | hf | hf
    · exact ⟨_, _, h⟩
    · exact typed_of_mem_parts hl f hf
    · exact typed_of_mem_parts hr f hf
  | _, _, _, h@(.call hargs _), f, hf => by
    rw [Program.Expr.parts, List.mem_cons] at hf
    rcases hf with rfl | hf
    · exact ⟨_, _, h⟩
    · exact typed_of_mem_listParts hargs f hf
  | _, _, _, h@(.construct _ hargs), f, hf => by
    rw [Program.Expr.parts, List.mem_cons] at hf
    rcases hf with rfl | hf
    · exact ⟨_, _, h⟩
    · exact typed_of_mem_listParts hargs f hf

theorem typed_of_mem_listParts :
    ∀ {es : List Ast.Expr} {es' : List Expr} {ts : List Ty}, TypedList Γ es es' ts →
      ∀ f ∈ Program.Expr.listParts es', ∃ g s, Typed Γ g f s
  | _, _, _, .nil, f, hf => by
    rw [Program.Expr.listParts] at hf
    cases hf
  | _, _, _, .cons he hes, f, hf => by
    rw [Program.Expr.listParts, List.mem_append] at hf
    rcases hf with hf | hf
    · exact typed_of_mem_parts he f hf
    · exact typed_of_mem_listParts hes f hf

end

/-- An expression that is typed where it stands. -/
def TypedSomewhere (env : Env) (n : Nat) (f : Expr) : Prop :=
  ∃ Γ next e t, Fits env.decls n next Γ ∧ next ≤ n ∧ Typed Γ e f t

/-- An output does not fold to numbers. -/
theorem ne_result_of_literal (hA : Accepted env n) {next : Nat} (hΓ : Fits env.decls n next Γ)
    {v : Ast.Var} {v' : Expr} {x : Variable} {t : Ty} (h : Access Γ v v' x t) {f : Expr}
    (hf : f ∈ v'.parts) {xs : List α} (hxs : reduce env f = .ok (some (.literal xs))) :
    x.qualifier ≠ .result := by
  have hvar : ∀ {name : Bytes} {pos : Pos} {ys : List α}, Γ.Finds name x →
      reduce env (.var ⟨name, some x.id, pos⟩) = .ok (some (.literal ys)) →
      x.qualifier ≠ .result := by
    intro name pos ys hx hys
    obtain ⟨d, hd, -, -, hqual⟩ := hΓ.lists.decl_of_finds hx
    obtain ⟨r, hr, hmem⟩ := mem_constants_of_reduce hA hys
    obtain ⟨id, d', hr', hd', hc, -⟩ := exists_user_of_mem_constants hA hmem
    cases hA.sound.injective hr hr'
    cases hd.symm.trans hd'
    rw [← hqual]
    intro hres
    rw [Declaration.isConst, hres] at hc
    cases hc
  cases h with
  | whole hx =>
    cases List.mem_singleton.mp hf
    exact hvar hx hxs
  | component hx _ _ =>
    rw [Program.Expr.parts, List.mem_cons, List.mem_singleton] at hf
    rcases hf with rfl | rfl
    · obtain ⟨ys, -, hys, -⟩ := Reduce.literal_of_index hxs
      exact hvar hx hys
    · exact hvar hx hxs

/-- What can be assigned to, where it stands: a mutable variable, an output, or a component of
one. -/
def AssignedSomewhere (env : Env) (n : Nat) (f : Expr) : Prop :=
  ∃ Γ next v v' x t, Fits env.decls n next Γ ∧ next ≤ n ∧ Access Γ v v' x t ∧
    x.qualifier ∉ [.const, .varying, .uniform] ∧ f ∈ v'.parts

mutual

/-- The expressions of a typed statement are typed where they stand, but for those that it assigns
to. -/
theorem typed_or_target_of_mem_stmt :
    ∀ {Γ : Context} {next : DeclId} {st : Ast.Stmt} {st' : Stmt} {ds : List Declaration},
      StmtTyped Γ next st st' ds → Fits env.decls n next Γ → Holds env.decls next ds →
      next + ds.length ≤ n → ∀ f ∈ st'.exprs, TypedSomewhere env n f ∨ f ∈ st'.targets
  | Γ, next, _, _, _, .assign _ _ he, hΓ, _, hn, f, hf => by
    rw [Program.Stmt.exprs, List.mem_append] at hf
    rcases hf with hf | hf
    · rw [Program.Stmt.targets]
      exact .inr hf
    · obtain ⟨e, s, h⟩ := typed_of_mem_parts he f hf
      exact .inl ⟨Γ, next, e, s, hΓ, hn, h⟩
  | Γ, next, _, _, _, .ifThen hc hst, hΓ, hds, hn, f, hf => by
    have hnext := Nat.le_trans (Nat.le_add_right _ _) hn
    rw [Program.Stmt.exprs, List.mem_append] at hf
    rw [Program.Stmt.targets]
    rcases hf with hf | hf
    · obtain ⟨e, s, h⟩ := typed_of_mem_parts hc f hf
      exact .inl ⟨Γ, next, e, s, hΓ, hnext, h⟩
    · exact typed_or_target_of_mem_stmt hst hΓ hds hn f hf
  | Γ, next, _, _, _, .ifElse hc hst hno, hΓ, hds, hn, f, hf => by
    have hnext := Nat.le_trans (Nat.le_add_right _ _) hn
    rw [List.length_append, ← Nat.add_assoc] at hn
    rw [Program.Stmt.exprs, List.mem_append, List.mem_append] at hf
    rw [Program.Stmt.targets, List.mem_append]
    rcases hf with (hf | hf) | hf
    · obtain ⟨e, s, h⟩ := typed_of_mem_parts hc f hf
      exact .inl ⟨Γ, next, e, s, hΓ, hnext, h⟩
    · exact (typed_or_target_of_mem_stmt hst hΓ hds.append.1
        (Nat.le_trans (Nat.le_add_right _ _) hn) f hf).imp_right .inl
    · exact (typed_or_target_of_mem_stmt hno (hΓ.mono (Nat.le_add_right _ _)) hds.append.2 hn f
        hf).imp_right .inr
  | Γ, next, _, _, _, .loop hc hst, hΓ, hds, hn, f, hf => by
    have hnext := Nat.le_trans (Nat.le_add_right _ _) hn
    rw [Program.Stmt.exprs, List.mem_append] at hf
    rw [Program.Stmt.targets]
    rcases hf with hf | hf
    · obtain ⟨e, s, h⟩ := typed_of_mem_parts hc f hf
      exact .inl ⟨Γ, next, e, s, hΓ, hnext, h⟩
    · exact typed_or_target_of_mem_stmt hst hΓ hds hn f hf
  | _, _, _, _, _, .scope hdecls hss, hΓ, hds, hn, f, hf => by
    rw [List.length_append, ← Nat.add_assoc] at hn
    rw [Program.Stmt.exprs] at hf
    rw [Program.Stmt.targets]
    exact typed_or_target_of_mem_stmts hss (Fits.declsTyped hdecls hΓ.push hds.append.1)
      hds.append.2 hn f hf

theorem typed_or_target_of_mem_stmts :
    ∀ {Γ : Context} {next : DeclId} {ss : List Ast.Stmt} {ss' : List Stmt} {ds : List Declaration},
      StmtsTyped Γ next ss ss' ds → Fits env.decls n next Γ → Holds env.decls next ds →
      next + ds.length ≤ n → ∀ f ∈ Program.Stmt.listExprs ss',
      TypedSomewhere env n f ∨ f ∈ Program.Stmt.listTargets ss'
  | _, _, _, _, _, .nil, _, _, _, f, hf => by
    rw [Program.Stmt.listExprs] at hf
    cases hf
  | _, _, _, _, _, .cons hst hss, hΓ, hds, hn, f, hf => by
    rw [List.length_append, ← Nat.add_assoc] at hn
    rw [Program.Stmt.listExprs, List.mem_append] at hf
    rw [Program.Stmt.listTargets, List.mem_append]
    rcases hf with hf | hf
    · exact (typed_or_target_of_mem_stmt hst hΓ hds.append.1
        (Nat.le_trans (Nat.le_add_right _ _) hn) f hf).imp_right .inl
    · exact (typed_or_target_of_mem_stmts hss (hΓ.mono (Nat.le_add_right _ _)) hds.append.2 hn f
        hf).imp_right .inr

end

mutual

/-- What a typed statement assigns to can be assigned to. -/
theorem assigned_of_mem_stmt :
    ∀ {Γ : Context} {next : DeclId} {st : Ast.Stmt} {st' : Stmt} {ds : List Declaration},
      StmtTyped Γ next st st' ds → Fits env.decls n next Γ → Holds env.decls next ds →
      next + ds.length ≤ n → ∀ f ∈ st'.targets, AssignedSomewhere env n f
  | Γ, next, _, _, _, .assign hv hq _, hΓ, _, hn, f, hf => by
    rw [Program.Stmt.targets] at hf
    exact ⟨Γ, next, _, _, _, _, hΓ, hn, hv, hq, hf⟩
  | _, _, _, _, _, .ifThen _ hst, hΓ, hds, hn, f, hf => by
    rw [Program.Stmt.targets] at hf
    exact assigned_of_mem_stmt hst hΓ hds hn f hf
  | _, _, _, _, _, .ifElse _ hst hno, hΓ, hds, hn, f, hf => by
    rw [List.length_append, ← Nat.add_assoc] at hn
    rw [Program.Stmt.targets, List.mem_append] at hf
    rcases hf with hf | hf
    · exact assigned_of_mem_stmt hst hΓ hds.append.1 (Nat.le_trans (Nat.le_add_right _ _) hn) f hf
    · exact assigned_of_mem_stmt hno (hΓ.mono (Nat.le_add_right _ _)) hds.append.2 hn f hf
  | _, _, _, _, _, .loop _ hst, hΓ, hds, hn, f, hf => by
    rw [Program.Stmt.targets] at hf
    exact assigned_of_mem_stmt hst hΓ hds hn f hf
  | _, _, _, _, _, .scope hdecls hss, hΓ, hds, hn, f, hf => by
    rw [List.length_append, ← Nat.add_assoc] at hn
    rw [Program.Stmt.targets] at hf
    exact assigned_of_mem_stmts hss (Fits.declsTyped hdecls hΓ.push hds.append.1) hds.append.2 hn
      f hf

theorem assigned_of_mem_stmts :
    ∀ {Γ : Context} {next : DeclId} {ss : List Ast.Stmt} {ss' : List Stmt} {ds : List Declaration},
      StmtsTyped Γ next ss ss' ds → Fits env.decls n next Γ → Holds env.decls next ds →
      next + ds.length ≤ n → ∀ f ∈ Program.Stmt.listTargets ss', AssignedSomewhere env n f
  | _, _, _, _, _, .nil, _, _, _, f, hf => by
    rw [Program.Stmt.listTargets] at hf
    cases hf
  | _, _, _, _, _, .cons hst hss, hΓ, hds, hn, f, hf => by
    rw [List.length_append, ← Nat.add_assoc] at hn
    rw [Program.Stmt.listTargets, List.mem_append] at hf
    rcases hf with hf | hf
    · exact assigned_of_mem_stmt hst hΓ hds.append.1 (Nat.le_trans (Nat.le_add_right _ _) hn) f hf
    · exact assigned_of_mem_stmts hss (hΓ.mono (Nat.le_add_right _ _)) hds.append.2 hn f hf

end

/-- What stands in an initializer is typed where it stands. -/
theorem typed_of_mem_init (hA : Accepted env n) {d : Declaration} (hd : d ∈ env.decls) {f : Expr}
    (hf : f ∈ d.init.elim [] Program.Expr.parts) : TypedSomewhere env n f := by
  obtain ⟨id, hid⟩ := List.getElem?_of_mem hd
  rcases Nat.lt_or_ge id n with hlt | hge
  · obtain ⟨Γ, ad, hdecl, hΓ⟩ := hA.own id d hid hlt
    cases hdecl with
    | plain => cases hf
    | mutable _ he | const _ he =>
      obtain ⟨e, s, h⟩ := typed_of_mem_parts he f hf
      exact ⟨Γ, id, e, s, hΓ, Nat.le_of_lt hlt, h⟩
  · obtain ⟨h, rfl⟩ := hA.predefined id d hid hge
    cases hf

end Parts

section Bodies

variable {α : Type} [Scalar α] {p : Program} {symbols : Symbols} {n : Nat} {body : Ast.Scope}
  {ds es : List Declaration} {Γ : Context} {ids : List DeclId} {stmts : List Stmt} {e : Expr}

/-- The expressions of an accepted program are typed where they stand, but for those that it assigns
to. -/
theorem typed_or_target_of_mem_exprs (hA : Accepted ⟨p.decls, symbols⟩ n)
    (hB : AcceptedBody ⟨p.decls, symbols⟩ n body ds es Γ stmts)
    (hbody : p.body = some ⟨ids, stmts⟩) (he : e ∈ p.exprs) :
    TypedSomewhere ⟨p.decls, symbols⟩ n e ∨ e ∈ p.targets := by
  rw [Program.exprs, List.mem_append, hbody] at he
  rw [Program.targets, hbody]
  rcases he with he | he
  · obtain ⟨d, hd, he⟩ := List.mem_flatMap.mp he
    exact .inl (typed_of_mem_init hA hd he)
  · obtain ⟨hΓ, hholds, hn⟩ := hB.start
    exact typed_or_target_of_mem_stmts hB.stmts hΓ hholds hn e he

/-- What an accepted program assigns to can be assigned to. -/
theorem assigned_of_mem_targets (hB : AcceptedBody ⟨p.decls, symbols⟩ n body ds es Γ stmts)
    (hbody : p.body = some ⟨ids, stmts⟩) (he : e ∈ p.targets) :
    AssignedSomewhere ⟨p.decls, symbols⟩ n e := by
  rw [Program.targets, hbody] at he
  obtain ⟨hΓ, hholds, hn⟩ := hB.start
  exact assigned_of_mem_stmts hB.stmts hΓ hholds hn e he

/-- What folds to numbers in an accepted program is typed where it stands. -/
theorem typed_of_mem_exprs (hA : Accepted ⟨p.decls, symbols⟩ n)
    (hB : AcceptedBody ⟨p.decls, symbols⟩ n body ds es Γ stmts)
    (hbody : p.body = some ⟨ids, stmts⟩) (he : e ∈ p.exprs) {xs : List α}
    (hxs : reduce ⟨p.decls, symbols⟩ e = .ok (some (.literal xs))) :
    TypedSomewhere ⟨p.decls, symbols⟩ n e := by
  rcases typed_or_target_of_mem_exprs hA hB hbody he with htyped | htarget
  · exact htyped
  · obtain ⟨Γ, next, v, v', x, t, hΓ, hn, hv, -, hf⟩ := assigned_of_mem_targets hB hbody htarget
    obtain ⟨e, s, h⟩ := typed_of_mem_access hv (ne_result_of_literal hA hΓ hv hf hxs) hf
    exact ⟨Γ, next, e, s, hΓ, hn, h⟩

end Bodies

/-- **Folding agrees with running.** In a program without parse errors and diagnostics, take any
expression that folds to numbers. Its code can be emitted in any state of the allocator; and if the
constants that then exist are in their registers, it runs and leaves these numbers in its operand,
in as many components as its type has, and a single one in all of them. Both the compiler and the
machine compute exactly. -/
theorem run_expr_of_reduce_eq_literal {K : Type} [Field K] [LinearOrder K] [IsStrictOrderedRing K]
    (F : Functions K) (hrcp : ∀ y, y ≠ 0 → F.rcp y = y⁻¹) (ofFloat : Float → K)
    (defined : K → K → Bool) (source : Bytes) (hparse : (parse source).errors = [])
    (hcheck : (Program.ofAst (parse source).body).check.checker.errors = []) :
    letI := exactScalar F ofFloat defined
    let p := (Program.ofAst (parse source).body).check.program
    ∃ symbols, Symbols.build p = .ok symbols ∧
      ∀ e ∈ p.exprs, ∀ xs : List K, reduce ⟨p.decls, symbols⟩ e = .ok (some (.literal xs)) →
        (xs.length : Int) = (e.type p.decls).order ∧
        ∀ a : Allocator K, a.Tidy →
          ∃ o code a', Lower.run (expr ⟨p.decls, symbols⟩ e) a = .ok (o, code, a') ∧
            ∀ ρ : Registers K, (∀ q ∈ a'.program.immediates ++ constants ⟨p.decls, symbols⟩,
                ρ q.reg = paramValue id ρ q.value) →
              ∃ ρ' v, run F (instructions code) ρ = some ρ' ∧ read ρ' o = some v ∧
                ∀ c ∈ (e.type p.decls).components, v c = Vec.ofList xs c := by
  let _ := exactScalar F ofFloat defined
  set p := (Program.ofAst (parse source).body).check.program with hp
  have helab : Elaborates (parse source).body p := elaborates_check hparse hcheck
  obtain ⟨symbols, n, ds, es, Γ, stmts, hbuild, hbody, hA, hB⟩ := accepted_of_elaborates helab
  refine ⟨symbols, hbuild, fun e he xs hxs => ?_⟩
  obtain ⟨Γ', next, e₀, t, hΓ, hn, h⟩ := typed_of_mem_exprs hA hB hbody he hxs
  rw [type_of_typed hΓ.lists h]
  refine ⟨length_of_literal hA hΓ hn h hxs, fun a ha => ?_⟩
  -- the code exists by totality, and the registers it needs are those that are loaded
  obtain ⟨o, code, a', hrun, -⟩ := runs_expr (α := K) hA hΓ hn h a
  refine ⟨o, code, a', hrun, fun ρ hρ => ?_⟩
  obtain ⟨ha', -⟩ := emits_expr (nameable_of_accepted hA) e ha o code a' hrun
  have hready : Ready ⟨p.decls, symbols⟩ id ρ a'.program.immediates ρ :=
    { text :=
        { regs := fun _ hq => isConstant_of_mem_immediates ha' hq
          values := fun q hq => hρ q (List.mem_append_left _ hq) }
      own := fun q hq => hρ q (List.mem_append_right _ hq) }
  obtain ⟨v, ⟨ρ', hm, hread⟩, hv⟩ := folded_expr (exact_exactScalar hrcp ofFloat defined) hA hΓ hn h
    hxs ha hrun (fun _ hq => hq) hready
  refine ⟨ρ', v, hm, hread, fun c hc => ?_⟩
  rw [hv.apply hc, List.map_id]

/-- The machine over the rationals, with its division. -/
def rationalFunctions : Functions ℚ := ⟨fun y => y⁻¹, id, fun x _ => x, id⟩

/-- A comparison of vectors, one of them a multiple of constants that depend on each other. It folds
to true, and its code leaves one in every component. -/
theorem run_expr_of_reduce_eq_literal_vectors :
    letI := exactScalar rationalFunctions (fun _ => 0) fun _ _ => false
    let source := ascii "{const int k=7/2;const ivec3 v=2*ivec3(k,1,-k);bool b=v==ivec3(7,2,-7);}"
    let p := (Program.ofAst (parse source).body).check.program
    ∃ symbols e, Symbols.build p = .ok symbols ∧ e ∈ p.exprs ∧ e.type p.decls = .bool ∧
      reduce ⟨p.decls, symbols⟩ e = .ok (some (.literal [(1 : ℚ)])) ∧
      ∃ o code a', Lower.run (expr ⟨p.decls, symbols⟩ e) ({} : Allocator ℚ) = .ok (o, code, a') ∧
        ∀ ρ : Registers ℚ, (∀ q ∈ a'.program.immediates ++ constants ⟨p.decls, symbols⟩,
            ρ q.reg = paramValue id ρ q.value) →
          ∃ ρ' v, run rationalFunctions (instructions code) ρ = some ρ' ∧ read ρ' o = some v ∧
            ∀ c, v c = 1 := by
  let _ := exactScalar rationalFunctions (fun _ => 0) fun _ _ => false
  intro source p
  have hyps :
      ((parse source).errors.isEmpty &&
        (Program.ofAst (parse source).body).check.checker.errors.isEmpty &&
        (Symbols.build p).toOption.any fun symbols => p.exprs.any fun e =>
          e.type p.decls == .bool &&
            reduce ⟨p.decls, symbols⟩ e == .ok (some (.literal [(1 : ℚ)]))) = true := by
    decide +kernel
  simp only [Bool.and_eq_true, List.isEmpty_iff] at hyps
  obtain ⟨⟨hparse, hcheck⟩, hfolds⟩ := hyps
  obtain ⟨symbols, hbuild, h⟩ := run_expr_of_reduce_eq_literal rationalFunctions (fun _ _ => rfl)
    (fun _ => 0) (fun _ _ => false) _ hparse hcheck
  rw [hbuild, Except.toOption, Option.any_some, List.any_eq_true] at hfolds
  obtain ⟨e, he, hfolds⟩ := hfolds
  rw [Bool.and_eq_true, beq_iff_eq, beq_iff_eq] at hfolds
  obtain ⟨htype, hxs⟩ := hfolds
  obtain ⟨-, hcode⟩ := h e he [1] hxs
  obtain ⟨o, code, a', hrun, hruns⟩ := hcode {} (tidy_start [] [])
  refine ⟨symbols, e, hbuild, he, htype, hxs, o, code, a', hrun, fun ρ hρ => ?_⟩
  obtain ⟨ρ', v, hm, hread, hv⟩ := hruns ρ hρ
  rw [htype] at hv
  exact ⟨ρ', v, hm, hread, fun c => hv c (mem_components_of_scalar rfl c)⟩

end Shader
