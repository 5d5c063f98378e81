import Shader.Proofs.Accepted

/-!
# Folding in accepted programs

Folding a typed expression never fails, and what it gives has the shape of the type: as many numbers
as the type has components, or a hardware register of which at most one component is taken.

An initializer only sees what was declared before it. So a chain of constants goes down in the
table, and the number of declarations is budget enough for it.
-/

namespace Shader.Reduce

open Program (Expr)
open Number (Scalar)
open TypeSystem

variable {α : Type} [Scalar α]

/-- A folded value that fits a type. -/
def Shape (t : Ty) : Option (Constant α) → Prop
  | none => True
  | some (.literal values) => (values.length : Int) = t.order
  | some (.register r path) =>
    ∃ h, r = .hardware h ∧ (path = [] ∧ t.order = 4 ∨ ∃ c, path = [c] ∧ t.order = 1)

/-- Folding that does not fail and gives a value that fits a type. -/
def Folds (t : Ty) (r : Except Failure (Option (Constant α))) : Prop := ∃ c, r = .ok c ∧ Shape t c

/-! ## Operators -/

/-- The operators that work on each component by itself. -/
def componentwise : List BinaryOp := [.add, .sub, .mul, .div, .pow, .and, .or]

/-- An operator that goes by components is defined on them. -/
theorem component_ok {op : BinaryOp} (hop : op ∈ componentwise) (x y : α) :
    ∃ z, component op x y = .ok z := by
  simp only [componentwise, List.mem_cons, List.not_mem_nil, or_false] at hop
  rcases hop with rfl | rfl | rfl | rfl | rfl | rfl | rfl <;> exact ⟨_, rfl⟩

/-- All components of a result are there, or there is none. -/
theorem components_ok {op : BinaryOp} (hop : op ∈ componentwise) (pairs : List (α × α)) :
    ∃ r, components op pairs = .ok r ∧ ∀ zs, r = some zs → zs.length = pairs.length := by
  induction pairs with
  | nil => exact ⟨some [], rfl, by simp⟩
  | cons p rest ih =>
    obtain ⟨x, y⟩ := p
    obtain ⟨z, hz⟩ := component_ok hop x y
    obtain ⟨r, hr, hlen⟩ := ih
    rw [components, hz]
    cases z with
    | none => exact ⟨none, rfl, by simp⟩
    | some z =>
      refine ⟨r.map (z :: ·), ?_, ?_⟩
      · show (components op rest >>= fun r => pure (r.map (z :: ·))) = _
        rw [hr]
        rfl
      · intro zs hzs
        obtain ⟨ws, rfl, rfl⟩ := Option.map_eq_some_iff.mp hzs
        rw [List.length_cons, List.length_cons, hlen ws rfl]

omit [Scalar α] in
/-- A single component is repeated, so the longer value decides. -/
theorem length_broadcast {l r : List α} {pairs : List (α × α)} (hl : 1 ≤ l.length)
    (hr : 1 ≤ r.length) (h : broadcast l r = some pairs) :
    pairs.length = max l.length r.length := by
  unfold broadcast at h
  split at h
  · rename_i heq
    rw [← Option.some.inj h, List.length_zip, heq]
    omega
  · split at h
    · rw [← Option.some.inj h, List.length_map]
      simp only [List.length_cons, List.length_nil]
      omega
    · rw [← Option.some.inj h, List.length_map]
      simp only [List.length_cons, List.length_nil]
      omega
    · cases h

theorem binary_componentwise {op : BinaryOp} (hop : op ∈ componentwise) (l r : List α) :
    binary op l r = match broadcast l r with
      | none => .ok none
      | some pairs => components op pairs := by
  simp only [componentwise, List.mem_cons, List.not_mem_nil, or_false] at hop
  rcases hop with rfl | rfl | rfl | rfl | rfl | rfl | rfl <;> rfl

theorem binary_ok_componentwise {op : BinaryOp} (hop : op ∈ componentwise) {l r : List α}
    (hl : 1 ≤ l.length) (hr : 1 ≤ r.length) :
    ∃ c, binary op l r = .ok c ∧ ∀ zs, c = some zs → zs.length = max l.length r.length := by
  rw [binary_componentwise hop]
  cases hb : broadcast l r with
  | none => exact ⟨none, rfl, by simp⟩
  | some pairs =>
    obtain ⟨c, hc, hlen⟩ := components_ok hop pairs
    exact ⟨c, hc, fun zs hzs => (hlen zs hzs).trans (length_broadcast hl hr hb)⟩

/-- **An operator on values that fit its operand types gives one that fits its own type**, if it
gives one. -/
theorem binary_ok {op : BinaryOp} {lt rt t : Ty} (h : BinaryRule op lt rt t) (hlt : Named lt)
    (hrt : Named rt) {l r : List α} (hl : (l.length : Int) = lt.order)
    (hr : (r.length : Int) = rt.order) :
    ∃ c, binary op l r = .ok c ∧ ∀ zs, c = some zs → (zs.length : Int) = t.order := by
  have hl1 : 1 ≤ l.length := by have := hlt.2.1; omega
  have hr1 : 1 ≤ r.length := by have := hrt.2.1; omega
  -- all but the comparisons: the longer operand has the order of the result
  have hwise : op ∈ componentwise → t.order = max lt.order rt.order →
      ∃ c, binary op l r = .ok c ∧ ∀ zs, c = some zs → (zs.length : Int) = t.order := by
    intro hop ht
    obtain ⟨c, hc, hlen⟩ := binary_ok_componentwise hop hl1 hr1
    refine ⟨c, hc, fun zs hzs => ?_⟩
    rw [hlen zs hzs, ht]
    omega
  have hone := hlt.2.1
  cases h with
  | add => exact hwise (by simp [componentwise]) (by omega)
  | sub => exact hwise (by simp [componentwise]) (by omega)
  | mul => exact hwise (by simp [componentwise]) (by omega)
  | scaleLeft => exact hwise (by simp [componentwise]) (by have := hrt.2.1; simp only at *; omega)
  | scaleRight => exact hwise (by simp [componentwise]) (by simp only at *; omega)
  | div => exact hwise (by simp [componentwise]) (by simp)
  | pow => exact hwise (by simp [componentwise]) (by simp)
  | and => exact hwise (by simp [componentwise]) (by simp)
  | or => exact hwise (by simp [componentwise]) (by simp)
  | order hop _ =>
    -- only numbers are compared by order
    have hsingle : ∀ op', op' ∈ [BinaryOp.lt, .le, .gt, .ge] → ∃ c, binary op' l r = .ok c ∧
        ∀ zs, c = some zs → (zs.length : Int) = Ty.bool.order := by
      intro op' hop'
      obtain ⟨x, rfl⟩ := List.length_eq_one_iff.mp (Int.ofNat.inj hl : l.length = 1)
      obtain ⟨y, rfl⟩ := List.length_eq_one_iff.mp (Int.ofNat.inj hr : r.length = 1)
      simp only [List.mem_cons, List.not_mem_nil, or_false] at hop'
      rcases hop' with rfl | rfl | rfl | rfl <;>
        exact ⟨_, rfl, fun zs hzs => by rw [← Option.some.inj hzs]; rfl⟩
    exact hsingle op hop
  | equate hop _ =>
    have hlen : l.length = r.length := by omega
    simp only [List.mem_cons, List.not_mem_nil, or_false] at hop
    rcases hop with rfl | rfl <;> simp only [binary, if_pos hlen] <;>
      exact ⟨_, rfl, fun zs hzs => by rw [← Option.some.inj hzs]; rfl⟩

/-! ## Expressions -/

/-- A look-up that folds every variable of a context that can be read. -/
def Resolves (lookup : Ref → Except Failure (Option (Constant α))) (Γ : Context) : Prop :=
  ∀ (name : Bytes) (x : Variable) (pos : Pos), Γ.Finds name x → x.qualifier ≠ .result →
    Folds x.type (lookup ⟨name, some x.id, pos⟩)

omit [Scalar α] in
/-- A component of a constant is one number, or a component of a hardware register. -/
theorem folds_index {t : Ty} {c : Option (Constant α)} {i : Nat} (hv : 1 < t.order)
    (hi : i < t.order) (hc : Shape t c) :
    Folds ⟨t.base, 1⟩ (match c with
      | none => Except.ok none
      | some c => index c i) := by
  match c with
  | none => exact ⟨none, rfl, trivial⟩
  | some (.literal values) =>
    have hlen : (values.length : Int) = t.order := hc
    have hlt : i < values.length := by omega
    refine ⟨some (.literal [values[i]]), ?_, rfl⟩
    show index (.literal values) i = _
    rw [index, if_neg (by omega), Int.toNat_natCast, List.getElem?_eq_getElem hlt]
    rfl
  | some (.register r path) =>
    obtain ⟨h, rfl, ⟨rfl, h4⟩ | ⟨c, -, h1⟩⟩ := hc
    · -- the component exists, since no type has more than four
      have hlt : i < Component.all.length := by show i < 4; omega
      have hcomp : componentOf (i : Int) = .ok Component.all[i] := by
        rw [componentOf, Component.ofIndex?, if_neg (by omega), Int.toNat_natCast,
          List.getElem?_eq_getElem hlt]
      refine ⟨some (.register (.hardware h) [Component.all[i]]), ?_, h, rfl, .inr ⟨_, rfl, rfl⟩⟩
      show index (.register (.hardware h) []) i = _
      rw [index, hcomp]
      rfl
    · omega

/-- A variable folds as its type says, and so does a component. -/
theorem folds_access {lookup : Ref → Except Failure (Option (Constant α))} {Γ : Context}
    (hl : Resolves lookup Γ) {v : Ast.Var} {v' : Expr} {x : Variable} {t : Ty}
    (h : Access Γ v v' x t) (hq : x.qualifier ≠ .result) : Folds t (expr lookup v') := by
  cases h with
  | whole hx =>
    rw [expr]
    exact hl _ _ _ hx hq
  | component hx hv hi =>
    obtain ⟨c, hc, hshape⟩ := hl _ _ _ hx hq
    rw [expr, hc]
    exact folds_index hv hi hshape

mutual

/-- **A typed expression folds to a value of its type**, or to nothing. -/
theorem folds_expr {lookup : Ref → Except Failure (Option (Constant α))} {Γ : Context}
    (hl : Resolves lookup Γ) (hΓ : Γ.Named) :
    ∀ {e : Ast.Expr} {e' : Expr} {t : Ty}, Typed Γ e e' t → Folds t (expr lookup e')
  | _, _, _, .int => by rw [expr]; exact ⟨_, rfl, rfl⟩
  | _, _, _, .float => by rw [expr]; exact ⟨_, rfl, rfl⟩
  | _, _, _, .bool => by rw [expr]; exact ⟨_, rfl, rfl⟩
  | _, _, _, .var ha hq => folds_access hl ha hq
  | _, _, _, .unary he hop => by
    obtain ⟨c, hc, hshape⟩ := folds_expr hl hΓ he
    rw [expr, hc]
    match c with
    | none => exact ⟨none, rfl, trivial⟩
    | some (.register _ _) => exact ⟨none, rfl, trivial⟩
    | some (.literal values) =>
      refine ⟨some (.literal (values.map Scalar.neg)), rfl, ?_⟩
      have hlen : (values.length : Int) = _ := hshape
      show ((values.map Scalar.neg).length : Int) = _
      rw [List.length_map, hlen]
      cases hop <;> rfl
  | _, _, _, .binary he hf hop => by
    obtain ⟨c, hc, hshape⟩ := folds_expr hl hΓ he
    obtain ⟨d, hd, hshape'⟩ := folds_expr hl hΓ hf
    rw [expr, hc]
    match c with
    | none => exact ⟨none, rfl, trivial⟩
    | some (.register _ _) => exact ⟨none, rfl, trivial⟩
    -- the right operand is looked at only if the left one is a literal
    | some (.literal ls) =>
      show Folds _ (expr lookup _ >>= _)
      rw [hd]
      match d with
      | none => exact ⟨none, rfl, trivial⟩
      | some (.register _ _) => exact ⟨none, rfl, trivial⟩
      | some (.literal rs) =>
        obtain ⟨r, hr, hlen⟩ := binary_ok hop (he.named hΓ) (hf.named hΓ) hshape hshape'
        show Folds _ (binary _ ls rs >>= _)
        rw [hr]
        cases r with
        | none => exact ⟨none, rfl, trivial⟩
        | some zs => exact ⟨some (.literal zs), rfl, hlen zs rfl⟩
  | _, _, _, .call _ _ => by rw [expr]; exact ⟨none, rfl, trivial⟩
  | _, _, _, .construct _ hargs => by
    obtain ⟨r, hr, hlen⟩ := folds_scalars hl hΓ hargs
    rw [expr, hr]
    cases r with
    | none => exact ⟨none, rfl, trivial⟩
    | some xs =>
      refine ⟨some (.literal xs), rfl, ?_⟩
      show (xs.length : Int) = _
      rw [hlen xs rfl, hargs.length, List.length_replicate]

/-- The components of a constructor fold to as many numbers. -/
theorem folds_scalars {lookup : Ref → Except Failure (Option (Constant α))} {Γ : Context}
    (hl : Resolves lookup Γ) (hΓ : Γ.Named) :
    ∀ {es : List Ast.Expr} {es' : List Expr} {ts : List Ty}, TypedList Γ es es' ts →
      ∃ r, scalars lookup es' = .ok r ∧ ∀ xs, r = some xs → xs.length = es'.length
  | _, _, _, .nil => by rw [scalars]; exact ⟨some [], rfl, by simp⟩
  | _, _, _, .cons he hes => by
    obtain ⟨c, hc, -⟩ := folds_expr hl hΓ he
    obtain ⟨r, hr, hlen⟩ := folds_scalars hl hΓ hes
    rw [scalars, hc]
    match c with
    | some (.literal [x]) =>
      show ∃ r', (scalars lookup _ >>= _) = Except.ok r' ∧ _
      rw [hr]
      refine ⟨r.map (x :: ·), rfl, ?_⟩
      intro xs hxs
      obtain ⟨ys, rfl, rfl⟩ := Option.map_eq_some_iff.mp hxs
      rw [List.length_cons, List.length_cons, hlen ys rfl]
    | none => exact ⟨none, rfl, by simp⟩
    | some (.register _ _) => exact ⟨none, rfl, by simp⟩
    | some (.literal []) => exact ⟨none, rfl, by simp⟩
    | some (.literal (_ :: _ :: _)) => exact ⟨none, rfl, by simp⟩

end

/-! ## Names -/

omit [Scalar α] in
theorem folds_hardware {h : Hardware} (hq : h.qualifier ≠ .result) :
    Folds (α := α) h.type (.ok (some (.register (.hardware h) []))) := by
  refine ⟨_, rfl, h, rfl, .inl ⟨rfl, ?_⟩⟩
  cases h <;> first | rfl | exact absurd rfl hq

/-- **Constants do not depend on themselves**: at a place of the table with that much budget and one
more, every variable in scope folds. -/
theorem resolves_named {env : Env} {n : Nat} (hA : Accepted env n) :
    ∀ (budget next : Nat) (Γ : Context), Fits env.decls n next Γ → next + 1 ≤ budget →
      Resolves (α := α) (named env budget) Γ
  | 0, _, _, _, hb => absurd hb (by omega)
  | budget + 1, next, Γ, hΓ, hb => by
    intro name x pos hx hq
    obtain ⟨d, hd, -, ht, hqual⟩ := hΓ.lists.decl_of_finds hx
    obtain ⟨b, hbmem, hmem⟩ := hx.mem
    have hbind : (some x.id).bind (env.decls[·]?) = some d := hd
    rw [named, hbind]
    dsimp only
    rcases Nat.lt_or_ge x.id n with hid | hid
    · -- declared by the shader, so before this place
      have hlt : x.id < next := (hΓ.below b hbmem _ hmem).resolve_right (Nat.not_le_of_lt hid)
      obtain ⟨Γ', a, hdecl, hΓ'⟩ := hA.own x.id d hd hid
      rw [if_neg (by rw [hdecl.isOrdinary]; simp)]
      cases hdecl with
      | plain => exact ⟨none, rfl, trivial⟩
      | mutable => exact ⟨none, rfl, trivial⟩
      | const _ he =>
        rw [← ht]
        exact folds_expr (resolves_named hA budget x.id Γ' hΓ'
          (Nat.le_trans hlt (Nat.le_of_succ_le_succ hb))) hΓ'.named he
    · -- predefined, and no output
      obtain ⟨h, rfl⟩ := hA.predefined x.id d hd hid
      obtain ⟨r, hr, hfit⟩ := hA.listed x.id _ hd
      rw [if_pos (by rw [isOrdinary_ofHardware]; rfl), Symbols.registerOf, hr]
      rw [eq_hardware_of_fitting hfit, ← ht]
      exact folds_hardware (by rw [← hqual] at hq; exact hq)

/-- **Folding never fails in an accepted program**, and gives a value of the expression's type. -/
theorem folds_reduce {env : Env} {n next : Nat} {Γ : Context} (hA : Accepted env n)
    (hΓ : Fits env.decls n next Γ) (hn : next ≤ n) {e : Ast.Expr} {e' : Expr} {t : Ty}
    (h : Typed Γ e e' t) : Folds (α := α) t (reduce env e') := by
  have hroom := hA.room
  exact folds_expr (resolves_named hA _ next Γ hΓ (by omega)) hΓ.named h

end Shader.Reduce
