import Shader.Proofs.FoldingOrder

/-!
# What folding gives, and why it gives nothing

Folding an expression of an accepted program gives numbers, a hardware register or nothing, and the
type of the expression says how many numbers. A register is only passed on, by names and indices;
operators and constructors want numbers.

Folding gives nothing for a reason that can be pointed at: somewhere among the expressions it goes
through, in the tree and in the initializers of constants, stands an obstacle. The argument follows
the calls that folding makes, which are well founded.
-/

namespace Shader

open Program (Expr Stmt Ordered)
open Number (Scalar)
open TypeSystem

/-- The operands of an operator, or the components of a constructor. -/
def Program.Expr.operands : Expr → List Expr
  | .unary _ _ x _ => [x]
  | .binary _ _ l r _ => [l, r]
  | .construct _ _ args => args
  | _ => []

/-- An expression, or one that folding it goes through. -/
def Contains (decls : List Declaration) : Expr → Expr → Prop :=
  Relation.ReflTransGen fun e x => Calls decls x e

/-- `Reaches decls e h path`: the name or index `e` leads through constants only to the variable of
the hardware register `h`, and takes the components `path` of it. -/
inductive Reaches (decls : List Declaration) : Expr → Hardware → List Component → Prop
  | predefined {ref : Ref} {id : DeclId} {h : Hardware} (hid : ref.decl = some id)
      (hd : decls[id]? = some (.ofHardware h)) : Reaches decls (.var ref) h []
  | constant {ref : Ref} {x : Expr} {h : Hardware} {path : List Component}
      (hx : Calls decls x (.var ref)) (hr : Reaches decls x h path) :
      Reaches decls (.var ref) h path
  | component {ref : Ref} {i : Int} {t : Ty} {h : Hardware} {c : Component}
      (hr : Reaches decls (.var ref) h []) (hc : componentOf i = .ok c) :
      Reaches decls (.index ref i t) h [c]

/-- Why an expression is not folded by itself: it is a mutable variable or a component of one, or a
call; it wants numbers and has a register; or it has no finite value. -/
inductive Obstacle (env : Env) : Expr → Prop
  | mutable {ref : Ref} {id : DeclId} {d : Declaration} (hid : ref.decl = some id)
      (hd : env.decls[id]? = some d) (hq : d.qualifier = .ordinary) : Obstacle env (.var ref)
  | indexed {ref : Ref} {i : Int} {t : Ty} (h : Obstacle env (.var ref)) :
      Obstacle env (.index ref i t)
  | call {pos : Pos} {f : Bytes} {args : List Expr} {t : Ty} : Obstacle env (.call pos f args t)
  | register {e x : Expr} {r : Register} {path : List Component} (hx : x ∈ e.operands)
      (hr : reduce env x = .ok (some (.register r path : Constant Float32))) : Obstacle env e
  | division {pos : Pos} {l r : Expr} {t : Ty} {x y : Float32}
      (hl : reduce env l = .ok (some (.literal [x])))
      (hr : reduce env r = .ok (some (.literal [y])))
      (hy : y == 0) : Obstacle env (.binary pos .div l r t)
  | power {pos : Pos} {l r : Expr} {t : Ty} {x y : Float32}
      (hl : reduce env l = .ok (some (.literal [x])))
      (hr : reduce env r = .ok (some (.literal [y])))
      (hp : (Number.power (Number.toDouble (Number.ofSingle x))
        (Number.toDouble (Number.ofSingle y))).isFinite = false) :
      Obstacle env (.binary pos .pow l r t)

/-! ## Names -/

section Names

variable {α : Type} [Scalar α] {env : Env} {n m : Nat}

/-- A constant is folded as its initializer. -/
theorem reduce_constant (hD : Ordered m env.decls) {ref : Ref} {x : Expr}
    (h : Calls env.decls x (.var ref)) :
    (reduce env (.var ref) : Except Failure (Option (Constant α))) = reduce env x := by
  cases h with
  | @constant _ id d _ hid hd hconst hx =>
    obtain ⟨hown, hwhole⟩ := hD.inits id d x hd hx
    have hlt : id < env.decls.length := (List.getElem?_eq_some_iff.mp hd).1
    have hordinary : d.isOrdinary = true := by
      rw [Declaration.isConst, beq_iff_eq] at hconst
      rw [Declaration.isOrdinary, hconst]
      rfl
    have hbind : ref.decl.bind (env.decls[·]?) = some d := by rw [hid, Option.bind_some, hd]
    rw [reduce, Reduce.expr, Reduce.named, hbind]
    dsimp only
    rw [hordinary, hconst, hx]
    -- one constant less on the way leaves enough of the budget
    exact Reduce.expr_congr (fun ref' href' => Reduce.named_congr hD _ _ id ref' href' hlt
      (Nat.lt_succ_of_lt hlt)) hwhole

/-- A predefined variable is folded to its register. -/
theorem reduce_predefined (hA : Accepted env n) {ref : Ref} {id : DeclId} {h : Hardware}
    (hid : ref.decl = some id) (hd : env.decls[id]? = some (.ofHardware h)) :
    reduce env (.var ref) = .ok (some (.register (.hardware h) [] : Constant α)) := by
  obtain ⟨r, hr, hfit⟩ := hA.listed id _ hd
  have hbind : ref.decl.bind (env.decls[·]?) = some (.ofHardware h) := by
    rw [hid, Option.bind_some, hd]
  rw [reduce, Reduce.expr, Reduce.named, hbind]
  dsimp only
  rw [isOrdinary_ofHardware, hid, Symbols.registerOf, hr, eq_hardware_of_fitting hfit]
  rfl

theorem reduce_mutable {ref : Ref} {id : DeclId} {d : Declaration} (hid : ref.decl = some id)
    (hd : env.decls[id]? = some d) (hq : d.qualifier = .ordinary) :
    (reduce env (.var ref) : Except Failure (Option (Constant α))) = .ok none := by
  have hbind : ref.decl.bind (env.decls[·]?) = some d := by rw [hid, Option.bind_some, hd]
  rw [reduce, Reduce.expr, Reduce.named, hbind]
  dsimp only
  rw [Declaration.isOrdinary, Declaration.isConst, hq]
  rfl

/-- The variables of an accepted program: predefined, mutable, or a constant whose initializer is
typed and has the type of the variable. -/
theorem Accepted.variable_cases (hA : Accepted env n) {id : DeclId} {d : Declaration}
    (hd : env.decls[id]? = some d) :
    (∃ h, d = .ofHardware h) ∨ d.qualifier = .ordinary ∨
      d.isConst = true ∧ ∃ x, d.init = some x ∧ TypedSomewhere env n x ∧
        x.type env.decls = d.type := by
  rcases Nat.lt_or_ge id n with hid | hid
  · obtain ⟨Γ, a, hdecl, hΓ⟩ := hA.own id d hd hid
    cases hdecl with
    | plain => exact .inr (.inl rfl)
    | mutable => exact .inr (.inl rfl)
    | const _ he =>
      exact .inr (.inr ⟨rfl, _, rfl, ⟨Γ, id, _, _, hΓ, hid.le, he⟩,
        Lower.type_of_typed hΓ.lists he⟩)
  · exact .inl (hA.predefined id d hd hid)

end Names

/-! ## Typed expressions -/

theorem typed_of_mem_typedList {Γ : Context} {x : Expr} :
    ∀ {es : List Ast.Expr} {es' : List Expr} {ts : List Ty}, TypedList Γ es es' ts → x ∈ es' →
      ∃ e, ∃ t ∈ ts, Typed Γ e x t
  | _, _, _, .nil, hx => by cases hx
  | _, _, _, .cons he hes, hx => by
    rcases List.mem_cons.mp hx with rfl | hx
    · exact ⟨_, _, List.mem_cons_self, he⟩
    · obtain ⟨e, t, ht, h⟩ := typed_of_mem_typedList hes hx
      exact ⟨e, t, List.mem_cons_of_mem _ ht, h⟩

namespace TypedSomewhere

variable {env : Env} {n : Nat} {pos : Pos} {t : Ty}

theorem var {ref : Ref} (h : TypedSomewhere env n (.var ref)) :
    ∃ id d, ref.decl = some id ∧ env.decls[id]? = some d ∧ d.qualifier ≠ .result ∧
      (Expr.var ref).type env.decls = d.type := by
  obtain ⟨Γ, next, _, _, hΓ, -, h⟩ := h
  have htype := Lower.type_of_typed hΓ.lists h
  cases h with
  | var ha hq =>
    cases ha with
    | whole hx =>
      obtain ⟨d, hd, -, ht, hqual⟩ := hΓ.lists.decl_of_finds hx
      exact ⟨_, d, rfl, hd, hqual ▸ hq, htype.trans ht.symm⟩

theorem index {ref : Ref} {i : Int} (h : TypedSomewhere env n (.index ref i t)) :
    TypedSomewhere env n (.var ref) ∧
      t = ⟨((Expr.var ref).type env.decls).base, 1⟩ ∧ 1 < ((Expr.var ref).type env.decls).order ∧
      ∃ k : Nat, i = k ∧ k < ((Expr.var ref).type env.decls).order := by
  obtain ⟨Γ, next, _, _, hΓ, hn, h⟩ := h
  cases h with
  | @var _ _ x _ ha hq =>
    cases ha with
    | @component vpos name _ _ hx hvec hi =>
      have hwhole : Typed Γ (.var ⟨vpos, name, none⟩) (.var ⟨name, some x.id, vpos⟩) x.type :=
        .var (.whole hx) hq
      have htype := Lower.type_of_typed hΓ.lists hwhole
      rw [htype]
      exact ⟨⟨Γ, next, _, _, hΓ, hn, hwhole⟩, rfl, hvec, _, rfl, hi⟩

theorem unary {op : UnaryOp} {x : Expr} (h : TypedSomewhere env n (.unary pos op x t)) :
    TypedSomewhere env n x := by
  obtain ⟨Γ, next, _, _, hΓ, hn, h⟩ := h
  cases h with
  | var ha _ => cases ha
  | unary he _ => exact ⟨Γ, next, _, _, hΓ, hn, he⟩

theorem binary {op : BinaryOp} {l r : Expr} (h : TypedSomewhere env n (.binary pos op l r t)) :
    TypedSomewhere env n l ∧ TypedSomewhere env n r ∧
      Named (l.type env.decls) ∧ Named (r.type env.decls) ∧
      BinaryRule op (l.type env.decls) (r.type env.decls) t := by
  obtain ⟨Γ, next, _, _, hΓ, hn, h⟩ := h
  cases h with
  | var ha _ => cases ha
  | binary he hf hop =>
    rw [Lower.type_of_typed hΓ.lists he, Lower.type_of_typed hΓ.lists hf]
    exact ⟨⟨Γ, next, _, _, hΓ, hn, he⟩, ⟨Γ, next, _, _, hΓ, hn, hf⟩, he.named hΓ.named,
      hf.named hΓ.named, hop⟩

theorem construct {args : List Expr} (h : TypedSomewhere env n (.construct pos t args)) :
    ∀ x ∈ args, TypedSomewhere env n x ∧ (x.type env.decls).order = 1 := by
  obtain ⟨Γ, next, _, _, hΓ, hn, h⟩ := h
  cases h with
  | var ha _ => cases ha
  | construct _ hargs =>
    intro x hx
    obtain ⟨e, s, hs, he⟩ := typed_of_mem_typedList hargs hx
    rw [Lower.type_of_typed hΓ.lists he, List.eq_of_mem_replicate hs]
    exact ⟨⟨Γ, next, e, s, hΓ, hn, he⟩, rfl⟩

/-- Folding an expression that is typed where it stands gives a value of its type, or nothing. -/
theorem folds {α : Type} [Scalar α] (hA : Accepted env n) {e : Expr} (h : TypedSomewhere env n e) :
    Reduce.Folds (α := α) (e.type env.decls) (reduce env e) := by
  obtain ⟨Γ, next, a, s, hΓ, hn, h⟩ := h
  rw [Lower.type_of_typed hΓ.lists h]
  exact Reduce.folds_reduce hA hΓ hn h

end TypedSomewhere

/-- What folding calls is typed where it stands, too. -/
theorem Calls.typed {env : Env} {n : Nat} (hA : Accepted env n) {x e : Expr}
    (hx : Calls env.decls x e) (h : TypedSomewhere env n e) : TypedSomewhere env n x := by
  have hconst : ∀ {ref : Ref}, Calls env.decls x (.var ref) → TypedSomewhere env n x := by
    intro ref hx
    cases hx with
    | constant hid hd hconst hinit =>
      rcases hA.variable_cases hd with ⟨h, rfl⟩ | hq | ⟨-, y, hy, hy', -⟩
      · cases hinit
      · rw [Declaration.isConst, hq] at hconst
        cases hconst
      · cases hinit.symm.trans hy
        exact hy'
  cases hx with
  | operand => exact h.unary
  | left => exact h.binary.1
  | right => exact h.binary.2.1
  | component hx => exact (h.construct x hx).1
  | constant hid hd hc hinit => exact hconst (.constant hid hd hc hinit)
  | indexed hx => exact hconst hx

theorem calls_of_mem_operands {decls : List Declaration} {x e : Expr} (hx : x ∈ e.operands) :
    Calls decls x e := by
  cases e with
  | unary =>
    cases List.mem_singleton.mp hx
    exact .operand
  | binary =>
    rcases List.mem_cons.mp hx with rfl | hx
    · exact .left
    · cases List.mem_singleton.mp hx
      exact .right
  | construct => exact .component hx
  | _ => cases hx

/-! ## Operators on numbers -/

namespace Reduce

variable {α : Type} [Scalar α]

/-- An outcome of folding that has no numbers in it. -/
def Numberless (c : Option (Constant α)) : Prop := ∀ xs, c ≠ some (.literal xs)

omit [Scalar α] in
theorem numberless_iff {c : Option (Constant α)} :
    Numberless c ↔ c = none ∨ ∃ r path, c = some (.register r path) := by
  rcases c with _ | xs | ⟨r, path⟩
  · exact ⟨fun _ => .inl rfl, fun _ xs h => by cases h⟩
  · exact ⟨fun h => absurd rfl (h xs), fun h => by rcases h with h | ⟨r, path, h⟩ <;> cases h⟩
  · exact ⟨fun _ => .inr ⟨r, path, rfl⟩, fun _ xs h => by cases h⟩

/-- Only a division and a power can have no value. -/
theorem component_eq_none {op : BinaryOp} {x y : α} (h : component op x y = .ok none) :
    op = .div ∧ Scalar.isZero y = true ∨ op = .pow ∧ Scalar.pow? x y = none := by
  cases op with
  | div =>
    have h : (if Scalar.isZero y then none else some (Scalar.div x y)) = none := Except.ok.inj h
    rw [ite_eq_left_iff] at h
    refine .inl ⟨rfl, ?_⟩
    by_contra hy
    cases h hy
  | pow => exact .inr ⟨rfl, Except.ok.inj h⟩
  | _ => cases h

theorem components_eq_none {op : BinaryOp} {pairs : List (α × α)}
    (h : components op pairs = .ok none) : ∃ p ∈ pairs, component op p.1 p.2 = .ok none := by
  induction pairs with
  | nil => cases h
  | cons p rest ih =>
    rw [components] at h
    obtain ⟨z, hz, h⟩ := exists_of_bind_eq_ok h
    cases z with
    | none => exact ⟨p, List.mem_cons_self, hz⟩
    | some z =>
      obtain ⟨zs, hzs, h⟩ := exists_of_bind_eq_ok h
      have hnone : zs = none := Option.map_eq_none_iff.mp (Except.ok.inj h)
      obtain ⟨q, hq, hcomp⟩ := ih (hnone ▸ hzs)
      exact ⟨q, List.mem_cons_of_mem _ hq, hcomp⟩

omit [Scalar α] in
theorem broadcast_eq_none {ls rs : List α} (h : broadcast ls rs = none) :
    ls.length ≠ rs.length ∧ ls.length ≠ 1 ∧ rs.length ≠ 1 := by
  unfold broadcast at h
  split at h
  · cases h
  · rename_i hne
    refine ⟨hne, ?_, ?_⟩
    · intro hone
      obtain ⟨x, rfl⟩ := List.length_eq_one_iff.mp hone
      cases h
    · intro hone
      obtain ⟨y, rfl⟩ := List.length_eq_one_iff.mp hone
      split at h
      · cases h
      · cases h
      · rename_i hnot
        exact hnot y rfl

/-- An operator on components that can be paired has no value if one pair has none. -/
theorem exists_pair_of_binary_eq_none {op : BinaryOp} (hop : op ∈ componentwise) {l r : List α}
    (hlen : l.length = r.length ∨ l.length = 1 ∨ r.length = 1) (hnone : binary op l r = .ok none) :
    ∃ pairs, broadcast l r = some pairs ∧ ∃ p ∈ pairs,
      (op = .div ∧ Scalar.isZero p.2 = true ∨ op = .pow ∧ Scalar.pow? p.1 p.2 = none) := by
  rw [binary_componentwise hop] at hnone
  cases hb : broadcast l r with
  | none =>
    obtain ⟨h₁, h₂, h₃⟩ := broadcast_eq_none hb
    tauto
  | some pairs =>
    rw [hb] at hnone
    obtain ⟨p, hp, hcomp⟩ := components_eq_none hnone
    exact ⟨pairs, rfl, p, hp, component_eq_none hcomp⟩

/-- **An operator on values that fit its operand types always has a value**, but for a division by
zero and a power. -/
theorem binary_eq_none {op : BinaryOp} {lt rt t : Ty} (h : BinaryRule op lt rt t) {l r : List α}
    (hl : (l.length : Int) = lt.order) (hr : (r.length : Int) = rt.order)
    (hnone : binary op l r = .ok none) :
    ∃ x y, l = [x] ∧ r = [y] ∧
      (op = .div ∧ Scalar.isZero y = true ∨ op = .pow ∧ Scalar.pow? x y = none) := by
  -- of the operators that go by components, only a quotient and a power can have no value
  have htotal : op ∈ componentwise → op ≠ .div → op ≠ .pow →
      ¬(l.length = r.length ∨ l.length = 1 ∨ r.length = 1) := by
    intro hop hdiv hpow hlen
    obtain ⟨-, -, p, -, ⟨h, -⟩ | ⟨h, -⟩⟩ := exists_pair_of_binary_eq_none hop hlen hnone
    · exact hdiv h
    · exact hpow h
  have hsingle : lt.order = 1 → rt.order = 1 → ∃ x y, l = [x] ∧ r = [y] := by
    intro hlt hrt
    obtain ⟨x, rfl⟩ := List.length_eq_one_iff.mp (show l.length = 1 by omega)
    obtain ⟨y, rfl⟩ := List.length_eq_one_iff.mp (show r.length = 1 by omega)
    exact ⟨x, y, rfl, rfl⟩
  have hscalar : op ∈ componentwise → lt.order = 1 → rt.order = 1 →
      ∃ x y, l = [x] ∧ r = [y] ∧
        (op = .div ∧ Scalar.isZero y = true ∨ op = .pow ∧ Scalar.pow? x y = none) := by
    intro hop hlt hrt
    obtain ⟨x, y, rfl, rfl⟩ := hsingle hlt hrt
    have hlen : [x].length = [y].length := rfl
    obtain ⟨_, hpairs, p, hp, hcause⟩ := exists_pair_of_binary_eq_none hop (.inl hlen) hnone
    cases hpairs
    cases List.mem_singleton.mp hp
    exact ⟨x, y, rfl, rfl, hcause⟩
  cases h with
  | add | sub | mul =>
    exact absurd (.inl (by omega)) (htotal (by simp [componentwise]) (by simp) (by simp))
  | and | or =>
    exact absurd (.inl (by omega)) (htotal (by simp [componentwise]) (by simp) (by simp))
  | scaleLeft =>
    exact absurd (.inr (.inl (Int.ofNat.inj hl)))
      (htotal (by simp [componentwise]) (by simp) (by simp))
  | scaleRight =>
    exact absurd (.inr (.inr (Int.ofNat.inj hr)))
      (htotal (by simp [componentwise]) (by simp) (by simp))
  | div => exact hscalar (by simp [componentwise]) rfl rfl
  | pow => exact hscalar (by simp [componentwise]) rfl rfl
  | order hop _ =>
    obtain ⟨x, y, rfl, rfl⟩ := hsingle rfl rfl
    simp only [List.mem_cons, List.not_mem_nil, or_false] at hop
    rcases hop with rfl | rfl | rfl | rfl <;> cases hnone
  | equate hop _ =>
    have hlen : l.length = r.length := by omega
    simp only [List.mem_cons, List.not_mem_nil, or_false] at hop
    rcases hop with rfl | rfl <;> rw [binary, if_pos hlen] at hnone <;> cases hnone

theorem binary_single_none {op : BinaryOp} (hop : op ∈ componentwise) {x y : α}
    (h : component op x y = .ok none) : binary op [x] [y] = .ok none := by
  rw [binary_componentwise hop]
  show components op [(x, y)] = _
  rw [components, h]
  rfl

/-- Where one component has no numbers, neither has the constructor. -/
theorem scalars_eq_none {lookup : Ref → Except Failure (Option (Constant α))} {x : Expr}
    {c : Option (Constant α)} (hc : expr lookup x = .ok c) (hnum : Numberless c) :
    ∀ {es : List Expr}, (∀ e ∈ es, ∃ d, expr lookup e = .ok d) → x ∈ es →
      scalars lookup es = .ok none
  | [], _, hx => by cases hx
  | e :: es, hes, hx => by
    obtain ⟨d, hd⟩ := hes e List.mem_cons_self
    rw [scalars, hd]
    rcases List.mem_cons.mp hx with rfl | hx
    · cases hc.symm.trans hd
      rcases numberless_iff.mp hnum with rfl | ⟨r, path, rfl⟩ <;> rfl
    · have hrest := scalars_eq_none hc hnum (fun e he => hes e (List.mem_cons_of_mem _ he)) hx
      rcases d with _ | (_ | ⟨y, _ | ⟨_, _⟩⟩) | _
      · rfl
      · rfl
      · show (scalars lookup es >>= fun r => pure (r.map (y :: ·))) = _
        rw [hrest]
        rfl
      · rfl
      · rfl

/-- A constructor of single components has numbers unless one component has none. -/
theorem numberless_of_scalars_eq_none {lookup : Ref → Except Failure (Option (Constant α))} :
    ∀ {es : List Expr}, (∀ e ∈ es, ∃ d, expr lookup e = .ok d ∧
        ∀ xs, d = some (.literal xs) → xs.length = 1) → scalars lookup es = .ok none →
      ∃ x ∈ es, ∃ c, expr lookup x = .ok c ∧ Numberless c
  | [], _, h => by rw [scalars] at h; cases h
  | e :: es, hes, h => by
    obtain ⟨d, hd, hone⟩ := hes e List.mem_cons_self
    by_cases hnum : Numberless d
    · exact ⟨e, List.mem_cons_self, d, hd, hnum⟩
    · rw [Numberless, not_forall_not] at hnum
      obtain ⟨xs, rfl⟩ := hnum
      obtain ⟨y, rfl⟩ := List.length_eq_one_iff.mp (hone xs rfl)
      rw [scalars, hd] at h
      have h : (scalars lookup es >>= fun r => pure (r.map (y :: ·))) = .ok none := h
      obtain ⟨r, hr, h⟩ := exists_of_bind_eq_ok h
      have hnone : r = none := Option.map_eq_none_iff.mp (Except.ok.inj h)
      obtain ⟨x, hx, hc⟩ := numberless_of_scalars_eq_none
        (fun e he => hes e (List.mem_cons_of_mem _ he)) (hnone ▸ hr)
      exact ⟨x, List.mem_cons_of_mem _ hx, hc⟩

end Reduce

/-! ## Operands without numbers -/

section Operands

variable {α : Type} [Scalar α] {env : Env} {n : Nat} {e x : Expr}

open Reduce

theorem reduce_binary {pos : Pos} {op : BinaryOp} {l r : Expr} {t : Ty} {ls rs : List α}
    (hl : reduce env l = .ok (some (.literal ls))) (hr : reduce env r = .ok (some (.literal rs))) :
    reduce env (.binary pos op l r t) =
      (binary op ls rs >>= fun zs => pure (zs.map .literal)) := by
  rw [reduce, expr, ← reduce, ← reduce, hl]
  show (reduce env r >>= _) = _
  rw [hr]
  rfl

/-- An operator or constructor gives nothing where an operand has no numbers. -/
theorem reduce_of_numberless (hA : Accepted env n) (h : TypedSomewhere env n e)
    (hx : x ∈ e.operands) {c : Option (Constant α)} (hc : reduce env x = .ok c)
    (hnum : Numberless c) : (reduce env e : Except Failure (Option (Constant α))) = .ok none := by
  cases e with
  | unary =>
    cases List.mem_singleton.mp hx
    rw [reduce, expr, ← reduce, hc]
    rcases numberless_iff.mp hnum with rfl | ⟨r, path, rfl⟩ <;> rfl
  | binary pos op l r t =>
    obtain ⟨d, hd, -⟩ := h.binary.1.folds (α := α) hA
    rw [reduce, expr, ← reduce, ← reduce, hd]
    rcases List.mem_cons.mp hx with rfl | hx
    · cases hc.symm.trans hd
      rcases numberless_iff.mp hnum with rfl | ⟨r, path, rfl⟩ <;> rfl
    · cases List.mem_singleton.mp hx
      rcases d with _ | ls | ⟨_, _⟩
      · rfl
      · show (reduce env x >>= _) = _
        rw [hc]
        rcases numberless_iff.mp hnum with rfl | ⟨r, path, rfl⟩ <;> rfl
      · rfl
  | construct pos t args =>
    have hok : ∀ y ∈ args, ∃ d : Option (Constant α), reduce env y = .ok d := fun y hy =>
      (((h.construct y hy).1.folds hA).imp fun _ => And.left)
    rw [reduce, expr, scalars_eq_none hc hnum hok hx]
    rfl
  | _ => cases hx

end Operands

/-! ## Nothing -/

section Nothing

variable {env : Env} {n m : Nat} {e x : Expr}

open Reduce

theorem isZero_iff {y : Float32} : Scalar.isZero y = true ↔ y == 0 := Iff.rfl

theorem pow?_eq_none_iff {x y : Float32} : Scalar.pow? x y = none ↔
    (Number.power (Number.toDouble (Number.ofSingle x))
      (Number.toDouble (Number.ofSingle y))).isFinite = false := by
  show (if _ then some _ else none) = none ↔ _
  rw [ite_eq_right_iff, ← Bool.not_eq_true]
  exact ⟨fun h hf => (by cases h hf), fun h hf => absurd hf h⟩

/-- A name that is not folded is mutable, or its initializer is not folded. -/
theorem obstacle_or_calls_var (hA : Accepted env n) (hD : Ordered m env.decls) {ref : Ref}
    (h : TypedSomewhere env n (.var ref))
    (hnone : reduce env (.var ref) = .ok (none : Option (Constant Float32))) :
    Obstacle env (.var ref) ∨ ∃ x, Calls env.decls x (.var ref) ∧
      reduce env x = .ok (none : Option (Constant Float32)) := by
  obtain ⟨id, d, hid, hd, -, -⟩ := h.var
  rcases hA.variable_cases hd with ⟨h, rfl⟩ | hq | ⟨hconst, x, hx, -, -⟩
  · rw [reduce_predefined hA hid hd] at hnone
    cases hnone
  · exact .inl (.mutable hid hd hq)
  · have hcalls : Calls env.decls x (.var ref) := .constant hid hd hconst hx
    exact .inr ⟨x, hcalls, (reduce_constant hD hcalls).symm.trans hnone⟩

/-- A component that exists is folded if the variable is. -/
theorem index_ne_none {t : Ty} {c : Constant Float32} (hshape : Shape t (some c)) {k : Nat}
    (hk : k < t.order) : index c k ≠ .ok none := by
  cases c with
  | literal xs =>
    have hlen : (xs.length : Int) = t.order := hshape
    have hlt : k < xs.length := by omega
    rw [index, if_neg (by omega), Int.toNat_natCast, List.getElem?_eq_getElem hlt]
    intro h
    cases h
  | register r path =>
    intro h
    obtain ⟨_, _, h⟩ := exists_of_bind_eq_ok h
    cases h

/-- **An expression that is not folded is an obstacle, or it calls one that is not folded.** -/
theorem obstacle_or_calls (hA : Accepted env n) (hD : Ordered m env.decls)
    (h : TypedSomewhere env n e)
    (hnone : reduce env e = .ok (none : Option (Constant Float32))) :
    Obstacle env e ∨ ∃ x, Calls env.decls x e ∧
      reduce env x = .ok (none : Option (Constant Float32)) := by
  -- an operand without numbers is folded to a register, or not folded
  have hoperand : ∀ {x : Expr} {c : Option (Constant Float32)}, x ∈ e.operands →
      reduce env x = .ok c → Numberless c → Obstacle env e ∨ ∃ x, Calls env.decls x e ∧
        reduce env x = .ok (none : Option (Constant Float32)) := by
    intro x c hx hc hnum
    rcases numberless_iff.mp hnum with rfl | ⟨r, path, rfl⟩
    · exact .inr ⟨x, calls_of_mem_operands hx, hc⟩
    · exact .inl (.register hx hc)
  cases e with
  | absent | int | float | bool =>
    rw [reduce, expr] at hnone
    cases hnone
  | var ref => exact obstacle_or_calls_var hA hD h hnone
  | index ref i t =>
    obtain ⟨hvar, -, -, k, rfl, hk⟩ := h.index
    obtain ⟨c, hc, hshape⟩ := hvar.folds (α := Float32) hA
    cases c with
    | none =>
      rcases obstacle_or_calls_var hA hD hvar hc with hob | ⟨x, hx, hn⟩
      · exact .inl (.indexed hob)
      · exact .inr ⟨x, .indexed hx, hn⟩
    | some c =>
      rw [reduce, expr, show named env _ ref = _ from hc] at hnone
      exact absurd hnone (index_ne_none hshape hk)
  | call => exact .inl .call
  | unary pos op x t =>
    obtain ⟨c, hc, -⟩ := h.unary.folds (α := Float32) hA
    refine hoperand (List.mem_singleton_self x) hc ?_
    rintro xs rfl
    rw [reduce, expr, ← reduce, hc] at hnone
    cases hnone
  | construct pos t args =>
    rw [reduce, expr] at hnone
    obtain ⟨r, hr, hnone⟩ := exists_of_bind_eq_ok hnone
    cases r with
    | some xs => cases hnone
    | none =>
      obtain ⟨x, hx, c, hc, hnum⟩ := numberless_of_scalars_eq_none (fun y hy => by
        obtain ⟨hy, hone⟩ := h.construct y hy
        obtain ⟨d, hd, hshape⟩ := hy.folds (α := Float32) hA
        refine ⟨d, hd, ?_⟩
        rintro xs rfl
        have hlen : (xs.length : Int) = _ := hshape
        omega) hr
      exact hoperand hx hc hnum
  | binary pos op l r t =>
    obtain ⟨hl, hr, -, -, hop⟩ := h.binary
    obtain ⟨c, hc, hshape⟩ := hl.folds (α := Float32) hA
    obtain ⟨d, hd, hshape'⟩ := hr.folds (α := Float32) hA
    by_cases hnum : Numberless c
    · exact hoperand List.mem_cons_self hc hnum
    by_cases hnum' : Numberless d
    · exact hoperand (List.mem_cons_of_mem _ List.mem_cons_self) hd hnum'
    -- both operands have numbers, as many as their types say
    rw [Numberless, not_forall_not] at hnum hnum'
    obtain ⟨ls, rfl⟩ := hnum
    obtain ⟨rs, rfl⟩ := hnum'
    rw [reduce_binary hc hd] at hnone
    obtain ⟨z, hz, hnone⟩ := exists_of_bind_eq_ok hnone
    have hz' : z = none := Option.map_eq_none_iff.mp (Except.ok.inj hnone)
    obtain ⟨x, y, rfl, rfl, ⟨rfl, hy⟩ | ⟨rfl, hp⟩⟩ := binary_eq_none hop hshape hshape' (hz' ▸ hz)
    · exact .inl (.division hc hd (isZero_iff.mp hy))
    · exact .inl (.power hc hd (pow?_eq_none_iff.mp hp))

theorem reduce_index_none {ref : Ref} {i : Int} {t : Ty}
    (h : reduce env (.var ref) = .ok (none : Option (Constant Float32))) :
    reduce env (.index ref i t) = .ok (none : Option (Constant Float32)) := by
  rw [reduce, expr, show named env _ ref = _ from h]
  rfl

theorem reduce_of_obstacle (hA : Accepted env n) (h : TypedSomewhere env n e)
    (hob : Obstacle env e) : reduce env e = .ok (none : Option (Constant Float32)) := by
  induction hob with
  | mutable hid hd hq => exact reduce_mutable hid hd hq
  | indexed _ ih => exact reduce_index_none (ih h.index.1)
  | call => rw [reduce, expr]
  | register hx hr => exact reduce_of_numberless hA h hx hr fun _ h => by cases h
  | @division _ _ _ _ x y hl hr hy =>
    have hcomp : component .div x y = .ok none :=
      congrArg Except.ok (if_pos (isZero_iff.mpr hy))
    rw [reduce_binary hl hr, binary_single_none (by simp [componentwise]) hcomp]
    rfl
  | @power _ _ _ _ x y hl hr hp =>
    have hcomp : component .pow x y = .ok none := congrArg Except.ok (pow?_eq_none_iff.mpr hp)
    rw [reduce_binary hl hr, binary_single_none (by simp [componentwise]) hcomp]
    rfl

theorem reduce_of_calls (hA : Accepted env n) (hD : Ordered m env.decls)
    (h : TypedSomewhere env n e) (hx : Calls env.decls x e)
    (hnone : reduce env x = .ok (none : Option (Constant Float32))) :
    reduce env e = .ok (none : Option (Constant Float32)) := by
  have hoperand : x ∈ e.operands → reduce env e = .ok (none : Option (Constant Float32)) :=
    fun hx => reduce_of_numberless hA h hx hnone fun _ h => by cases h
  cases hx with
  | operand => exact hoperand (List.mem_singleton_self x)
  | left => exact hoperand List.mem_cons_self
  | right => exact hoperand (List.mem_cons_of_mem _ List.mem_cons_self)
  | component hx => exact hoperand hx
  | constant hid hd hc hinit => exact (reduce_constant hD (.constant hid hd hc hinit)).trans hnone
  | indexed hx => exact reduce_index_none ((reduce_constant hD hx).trans hnone)

/-- **Folding gives nothing exactly where it goes through an obstacle.** -/
theorem reduce_eq_none_iff (hA : Accepted env n) (hD : Ordered m env.decls)
    (hacc : Acc (Calls env.decls) e) (h : TypedSomewhere env n e) :
    reduce env e = .ok (none : Option (Constant Float32)) ↔
      ∃ f, Contains env.decls e f ∧ Obstacle env f := by
  constructor
  · intro hnone
    induction hacc with
    | intro e _ ih =>
      rcases obstacle_or_calls hA hD h hnone with hob | ⟨x, hx, hxnone⟩
      · exact ⟨e, .refl, hob⟩
      · obtain ⟨f, hf, hob⟩ := ih x hx (hx.typed hA h) hxnone
        exact ⟨f, .head hx hf, hob⟩
  · rintro ⟨f, hf, hob⟩
    -- what stands on the way is typed, and passes on that nothing comes back
    induction hf using Relation.ReflTransGen.head_induction_on with
    | refl => exact reduce_of_obstacle hA h hob
    | head hx _ ih =>
      exact reduce_of_calls hA hD h hx (ih (hacc.inv hx) (hx.typed hA h))

end Nothing

/-! ## Registers -/

section Registers

variable {α : Type} [Scalar α] {env : Env} {n m : Nat} {e : Expr}

open Reduce

/-- `Inputs env e r path`: `r` is the register of an attribute or a uniform that `e` leads to, and
the type of `e` says whether it is taken whole. -/
structure Inputs (env : Env) (e : Expr) (r : Register) (path : List Component) : Prop where
  reaches : ∃ h, r = .hardware h ∧ (h.qualifier = .varying ∨ h.qualifier = .uniform) ∧
    Reaches env.decls e h path
  type : path = [] ∧ e.type env.decls = .vec4 ∨ ∃ c, path = [c] ∧ e.type env.decls = .float

theorem qualifier_cases {h : Hardware} (hq : h.qualifier ≠ .result) :
    (h.qualifier = .varying ∨ h.qualifier = .uniform) ∧ h.type = .vec4 := by
  cases h <;> first | exact absurd rfl hq | exact ⟨.inl rfl, rfl⟩ | exact ⟨.inr rfl, rfl⟩

theorem inputs_var (hA : Accepted env n) (hD : Ordered m env.decls) {ref : Ref}
    (h : TypedSomewhere env n (.var ref)) {r : Register} {path : List Component}
    (ih : ∀ x, Calls env.decls x (.var ref) → TypedSomewhere env n x →
      reduce env x = .ok (some (.register r path : Constant α)) → Inputs env x r path)
    (hr : reduce env (.var ref) = .ok (some (.register r path : Constant α))) :
    Inputs env (.var ref) r path := by
  obtain ⟨id, d, hid, hd, hres, htype⟩ := h.var
  rcases hA.variable_cases hd with ⟨hw, rfl⟩ | hq | ⟨hconst, x, hx, hxtyped, hxtype⟩
  · rw [reduce_predefined hA hid hd] at hr
    cases hr
    obtain ⟨hq, ht⟩ := qualifier_cases hres
    exact ⟨⟨hw, rfl, hq, .predefined hid hd⟩, .inl ⟨rfl, htype.trans ht⟩⟩
  · rw [reduce_mutable hid hd hq] at hr
    cases hr
  · have hcalls : Calls env.decls x (.var ref) := .constant hid hd hconst hx
    obtain ⟨⟨hw, rfl, hq, hreach⟩, ht⟩ :=
      ih x hcalls hxtyped ((reduce_constant hD hcalls).symm.trans hr)
    rw [hxtype, ← htype] at ht
    exact ⟨⟨hw, rfl, hq, .constant hcalls hreach⟩, ht⟩

theorem reduce_binary_ne_register {pos : Pos} {op : BinaryOp} {l r : Expr} {t : Ty} {reg : Register}
    {path : List Component} :
    reduce env (.binary pos op l r t) ≠ .ok (some (.register reg path : Constant α)) := by
  rw [reduce, expr]
  intro h
  obtain ⟨c, -, h⟩ := exists_of_bind_eq_ok h
  rcases c with _ | xs | ⟨_, _⟩
  · cases h
  · obtain ⟨d, -, h⟩ := exists_of_bind_eq_ok h
    rcases d with _ | ys | ⟨_, _⟩
    · cases h
    · obtain ⟨z, -, h⟩ := exists_of_bind_eq_ok h
      cases z <;> cases h
    · cases h
  · cases h

/-- **Only names and indices are folded to a register**, and it is that of an input. -/
theorem inputs_of_reduce (hA : Accepted env n) (hD : Ordered m env.decls)
    (hacc : Acc (Calls env.decls) e) (h : TypedSomewhere env n e) {r : Register}
    {path : List Component} (hr : reduce env e = .ok (some (.register r path : Constant α))) :
    Inputs env e r path := by
  induction hacc generalizing path with
  | intro e _ ih =>
    cases e with
    | absent | int | float | bool | call =>
      rw [reduce, expr] at hr
      cases hr
    | var ref => exact inputs_var hA hD h (fun x hx hxtyped => ih x hx hxtyped) hr
    | index ref i t =>
      obtain ⟨hvar, rfl, hvec, k, rfl, hk⟩ := h.index
      obtain ⟨c, hc, -⟩ := hvar.folds (α := α) hA
      rw [reduce, expr, show named env _ ref = _ from hc] at hr
      rcases c with _ | xs | ⟨r', path'⟩
      · cases hr
      · have hr : (if (k : Int) < 0 then none
            else xs[(k : Int).toNat]?.map fun x => Constant.literal [x]) =
            some (.register r path) := Except.ok.inj hr
        rw [Option.ite_none_left_eq_some] at hr
        obtain ⟨_, _, h⟩ := Option.map_eq_some_iff.mp hr.2
        cases h
      · have hr : (componentOf k >>= fun c => pure (some (.register r' (path' ++ [c])))) =
            Except.ok (some (.register r path : Constant α)) := hr
        obtain ⟨c, hcomp, hr⟩ := exists_of_bind_eq_ok hr
        cases hr
        obtain ⟨⟨hw, rfl, hq, hreach⟩, ht⟩ := inputs_var hA hD hvar
          (fun x hx hxtyped => ih x (.indexed hx) hxtyped) hc
        -- a component has no components
        rcases ht with ⟨rfl, ht⟩ | ⟨_, -, ht⟩
        · refine ⟨⟨hw, rfl, hq, .component hreach hcomp⟩, .inr ⟨c, rfl, ?_⟩⟩
          show (⟨_, 1⟩ : Ty) = _
          rw [ht]
          rfl
        · rw [ht] at hvec
          exact absurd hvec (by decide)
    | unary pos op x t =>
      rw [reduce, expr] at hr
      obtain ⟨c, -, hr⟩ := exists_of_bind_eq_ok hr
      rcases c with _ | xs | ⟨_, _⟩ <;> cases hr
    | construct pos t args =>
      rw [reduce, expr] at hr
      obtain ⟨c, -, hr⟩ := exists_of_bind_eq_ok hr
      cases c <;> cases hr
    | binary => exact absurd hr reduce_binary_ne_register

/-- Folding a predefined variable goes through nothing else. -/
theorem not_calls_predefined {ref : Ref} {id : DeclId} {hw : Hardware} (hid : ref.decl = some id)
    (hd : env.decls[id]? = some (.ofHardware hw)) (x : Expr) : ¬Calls env.decls x (.var ref) := by
  intro hx
  cases hx with
  | constant hid' hd' hconst _ =>
    cases hid.symm.trans hid'
    cases hd.symm.trans hd'
    cases hw <;> cases hconst

theorem not_obstacle_predefined {ref : Ref} {id : DeclId} {hw : Hardware} (hid : ref.decl = some id)
    (hd : env.decls[id]? = some (.ofHardware hw)) : ¬Obstacle env (.var ref) := by
  intro hob
  cases hob with
  | mutable hid' hd' hq =>
    cases hid.symm.trans hid'
    cases hd.symm.trans hd'
    cases hw <;> cases hq
  | register hx _ => cases hx

/-- What can be assigned to is a mutable variable, an output, or a component of one. -/
theorem AssignedSomewhere.cases (hA : Accepted env n) (h : AssignedSomewhere env n e) :
    ∃ ref id d, ref.decl = some id ∧ env.decls[id]? = some d ∧
      (d.qualifier = .ordinary ∨ ∃ hw, d = .ofHardware hw ∧ hw.qualifier = .result) ∧
      (e = .var ref ∨ ∃ i c t, e = .index ref i t ∧ componentOf i = .ok c) := by
  obtain ⟨Γ, next, v, v', x, t, hΓ, -, hv, hq, he⟩ := h
  have hfound : ∀ {name : Bytes}, Γ.Finds name x → ∃ d, env.decls[x.id]? = some d ∧
      (d.qualifier = .ordinary ∨ ∃ hw, d = .ofHardware hw ∧ hw.qualifier = .result) := by
    intro name hx
    obtain ⟨d, hd, -, -, hqual⟩ := hΓ.lists.decl_of_finds hx
    rw [← hqual] at hq
    refine ⟨d, hd, ?_⟩
    rcases hA.variable_cases hd with ⟨hw, rfl⟩ | hq' | ⟨hconst, -⟩
    · refine .inr ⟨hw, rfl, ?_⟩
      by_contra hres
      rcases (qualifier_cases hres).1 with h | h <;> exact hq (by simp [Declaration.ofHardware, h])
    · exact .inl hq'
    · rw [Declaration.isConst, beq_iff_eq] at hconst
      exact absurd hq (by simp [hconst])
  cases hv with
  | whole hx =>
    cases List.mem_singleton.mp he
    obtain ⟨d, hd, hcases⟩ := hfound hx
    exact ⟨_, x.id, d, rfl, hd, hcases, .inl rfl⟩
  | @component pos name _ _ hx hvec hi =>
    obtain ⟨d, hd, hcases⟩ := hfound hx
    rw [Program.Expr.parts, List.mem_cons, List.mem_singleton] at he
    refine ⟨⟨name, some x.id, pos⟩, x.id, d, rfl, hd, hcases, ?_⟩
    rcases he with rfl | rfl
    · have hlt := Lower.lt_four_of_finds hΓ.named hx hi
      exact .inr ⟨_, _, _, rfl, Lower.componentOf_ok hlt⟩
    · exact .inl rfl

/-- What can be assigned to is not folded, being mutable, or it is folded to the register of an
output and no obstacle is met. -/
theorem AssignedSomewhere.reduce_cases (hA : Accepted env n) (h : AssignedSomewhere env n e) :
    (reduce env e = .ok (none : Option (Constant α)) ∧ Obstacle env e) ∨
      (∃ hw path, reduce env e = .ok (some (.register (.hardware hw) path : Constant α)) ∧
        Reaches env.decls e hw path ∧ hw.qualifier = .result) ∧
      ¬∃ f, Contains env.decls e f ∧ Obstacle env f := by
  obtain ⟨ref, id, d, hid, hd, hq | ⟨hw, rfl, hres⟩, hcases⟩ := h.cases hA
  · have hvar : (reduce env (.var ref) : Except Failure (Option (Constant α))) = .ok none :=
      reduce_mutable hid hd hq
    rcases hcases with rfl | ⟨i, c, t, rfl, -⟩
    · exact .inl ⟨hvar, .mutable hid hd hq⟩
    · refine .inl ⟨?_, .indexed (.mutable hid hd hq)⟩
      rw [reduce, expr, show named env _ ref = _ from hvar]
      rfl
  · refine .inr ?_
    rcases hcases with rfl | ⟨i, c, t, rfl, hc⟩
    · refine ⟨⟨hw, [], reduce_predefined hA hid hd, .predefined hid hd, hres⟩, ?_⟩
      rintro ⟨f, hf, hob⟩
      rcases Relation.ReflTransGen.cases_head hf with rfl | ⟨x, hx, -⟩
      · exact not_obstacle_predefined hid hd hob
      · exact not_calls_predefined hid hd x hx
    · refine ⟨⟨hw, [c], ?_, .component (.predefined hid hd) hc, hres⟩, ?_⟩
      · rw [reduce, expr, show named env _ ref = _ from reduce_predefined hA hid hd]
        show (componentOf i >>= _) = _
        rw [hc]
        rfl
      · rintro ⟨f, hf, hob⟩
        rcases Relation.ReflTransGen.cases_head hf with rfl | ⟨x, hx, -⟩
        · cases hob with
          | indexed hob => exact not_obstacle_predefined hid hd hob
          | register hx _ => cases hx
        · cases hx with
          | indexed hx => exact not_calls_predefined hid hd x hx

end Registers

/-- Folding an expression of a checked text calls no expression without end. -/
theorem acc_of_mem_exprs (source : Bytes) :
    ∀ e ∈ (Program.ofAst (parse source).body).check.program.exprs,
      Acc (Calls (Program.ofAst (parse source).body).check.program.decls) e := by
  intro e he
  have hnamed := namedStmt_parse source
  have hwhole := (Checker.intact_check hnamed).2.exprs e he
  exact acc_calls (Checker.ordered_check hnamed) (hwhole.mono fun _ hid => ⟨hid, .inl hid⟩)

/-- What an assignment writes to is folded as well, as if it were read: to the register of the
output that it leads to, or not at all if it is mutable. -/
theorem reduce_target {source : Bytes} (hparse : (parse source).errors = [])
    (hcheck : (Program.ofAst (parse source).body).check.checker.errors = []) :
    let p := (Program.ofAst (parse source).body).check.program
    ∃ symbols, Symbols.build p = .ok symbols ∧ ∀ e ∈ p.targets,
      reduce ⟨p.decls, symbols⟩ e = .ok (none : Option (Constant Float32)) ∨
        ∃ h path, reduce ⟨p.decls, symbols⟩ e =
            .ok (some (.register (.hardware h) path : Constant Float32)) ∧
          Reaches p.decls e h path ∧ h.qualifier = .result := by
  obtain ⟨symbols, n, ds, es, Γ, stmts, hbuild, hbody, hA, hB⟩ :=
    accepted_of_elaborates (elaborates_check hparse hcheck)
  refine ⟨symbols, hbuild, fun e he => ?_⟩
  rcases (assigned_of_mem_targets hB hbody he).reduce_cases (α := Float32) hA with
    ⟨hnone, -⟩ | ⟨houtput, -⟩
  · exact .inl hnone
  · exact .inr houtput

/-- **Folding respects types.** In a program without parse errors and diagnostics, take any
expression. Folding it does not fail. Numbers are as many as its type has components. A register,
unless an assignment writes to the expression, is that of an attribute or a uniform, whole for a
vector and one component of it for a number, and the expression is a name or an index that leads to
it through constants only. Nothing comes back exactly if folding goes through an obstacle: a mutable
variable, a call, an operator or constructor on a register, a division by zero, or a power that is
not finite. -/
theorem reduce_respects_types (source : Bytes) (hparse : (parse source).errors = [])
    (hcheck : (Program.ofAst (parse source).body).check.checker.errors = []) :
    let p := (Program.ofAst (parse source).body).check.program
    ∃ symbols, Symbols.build p = .ok symbols ∧ ∀ e ∈ p.exprs,
      ∃ outcome : Option (Constant Float32), reduce ⟨p.decls, symbols⟩ e = .ok outcome ∧
        (∀ xs, outcome = some (.literal xs) → (xs.length : Int) = (e.type p.decls).order) ∧
        (e ∉ p.targets → ∀ r path, outcome = some (.register r path) →
          ∃ h, r = .hardware h ∧ (h.qualifier = .varying ∨ h.qualifier = .uniform) ∧
            Reaches p.decls e h path ∧
            (path = [] ∧ e.type p.decls = .vec4 ∨ ∃ c, path = [c] ∧ e.type p.decls = .float)) ∧
        (outcome = none ↔ ∃ f, Contains p.decls e f ∧ Obstacle ⟨p.decls, symbols⟩ f) := by
  intro p
  have hD : Ordered _ p.decls := Checker.ordered_check (namedStmt_parse source)
  obtain ⟨symbols, n, ds, es, Γ, stmts, hbuild, hbody, hA, hB⟩ :=
    accepted_of_elaborates (elaborates_check hparse hcheck)
  refine ⟨symbols, hbuild, fun e he => ?_⟩
  -- expressions that the rules type, and those that are assigned to
  rcases typed_or_target_of_mem_exprs hA hB hbody he with htyped | htarget
  · have hacc := acc_of_mem_exprs source e he
    obtain ⟨outcome, houtcome, hshape⟩ := htyped.folds (α := Float32) hA
    refine ⟨outcome, houtcome, ?_, ?_, ?_⟩
    · rintro xs rfl
      exact hshape
    · rintro - r path rfl
      obtain ⟨⟨h, hr, hq, hreach⟩, htype⟩ := inputs_of_reduce hA hD hacc htyped houtcome
      exact ⟨h, hr, hq, hreach, htype⟩
    · rw [← reduce_eq_none_iff hA hD hacc htyped, houtcome, Except.ok.injEq]
  · have hassigned := assigned_of_mem_targets hB hbody htarget
    rcases hassigned.reduce_cases (α := Float32) hA with
      ⟨hnone, hob⟩ | ⟨⟨h, path, houtcome, -, -⟩, hclear⟩
    · exact ⟨none, hnone, fun _ h => (by cases h), fun h => absurd htarget h,
        fun _ => ⟨e, .refl, hob⟩, fun _ => rfl⟩
    · exact ⟨_, houtcome, fun _ h => (by cases h), fun h => absurd htarget h,
        fun h => (by cases h), fun h => absurd h hclear⟩

/-- An output that is assigned to is folded to its own register, which is no input. -/
theorem reduce_target_output :
    let source := ascii "\x7bgl_FragColor=env1;\x7d"
    let p := (Program.ofAst (parse source).body).check.program
    (parse source).errors = [] ∧
      (Program.ofAst (parse source).body).check.checker.errors = [] ∧
      ∃ symbols, Symbols.build p = .ok symbols ∧ ∃ e ∈ p.exprs, ∃ r path,
        reduce ⟨p.decls, symbols⟩ e = .ok (some (.register r path : Constant Float32)) ∧
          ¬∃ h, r = .hardware h ∧ (h.qualifier = .varying ∨ h.qualifier = .uniform) := by
  intro source p
  have hyps :
      ((parse source).errors.isEmpty &&
        (Program.ofAst (parse source).body).check.checker.errors.isEmpty &&
        (Symbols.build p).toOption.any fun symbols =>
          p.exprs.any fun e => reduce ⟨p.decls, symbols⟩ e ==
            .ok (some (.register (.hardware .fragColor) [] : Constant Float32))) = true := by
    decide +kernel
  simp only [Bool.and_eq_true, List.isEmpty_iff] at hyps
  obtain ⟨⟨hparse, hcheck⟩, hfolds⟩ := hyps
  obtain ⟨symbols, hbuild, -⟩ := reduce_target hparse hcheck
  rw [hbuild, Except.toOption, Option.any_some, List.any_eq_true] at hfolds
  obtain ⟨e, he, hreg⟩ := hfolds
  refine ⟨hparse, hcheck, symbols, hbuild, e, he, _, _, beq_iff_eq.mp hreg, ?_⟩
  rintro ⟨h, heq, hq⟩
  cases heq
  rcases hq with hq | hq <;> cases hq

/-- A component of a uniform that a constant stands for, and a negation of that: the first is folded
to the component, the second meets an obstacle. -/
theorem reduce_respects_types_component :
    let source := ascii "{const vec4 a=env1;const float b=a[2];const float c=-b;}"
    let p := (Program.ofAst (parse source).body).check.program
    ∃ symbols, Symbols.build p = .ok symbols ∧
      (∃ e ∈ p.exprs, Reaches p.decls e .env1 [.z] ∧ e.type p.decls = .float) ∧
      ∃ e ∈ p.exprs, ∃ f, Contains p.decls e f ∧ Obstacle ⟨p.decls, symbols⟩ f := by
  intro source p
  have hyps :
      ((parse source).errors.isEmpty &&
        (Program.ofAst (parse source).body).check.checker.errors.isEmpty && p.targets.isEmpty &&
        (Symbols.build p).toOption.any fun symbols =>
          (p.exprs.any fun e => reduce ⟨p.decls, symbols⟩ e ==
            .ok (some (.register (.hardware .env1) [.z] : Constant Float32))) &&
          p.exprs.any fun e => reduce ⟨p.decls, symbols⟩ e ==
            .ok (none : Option (Constant Float32))) = true := by
    decide +kernel
  simp only [Bool.and_eq_true, List.isEmpty_iff] at hyps
  obtain ⟨⟨⟨hparse, hcheck⟩, htargets⟩, hfolds⟩ := hyps
  obtain ⟨symbols, hbuild, h⟩ := reduce_respects_types _ hparse hcheck
  rw [hbuild, Except.toOption, Option.any_some, Bool.and_eq_true, List.any_eq_true,
    List.any_eq_true] at hfolds
  obtain ⟨⟨e, he, hreg⟩, f, hf, hnone⟩ := hfolds
  rw [beq_iff_eq] at hreg hnone
  refine ⟨symbols, hbuild, ⟨e, he, ?_⟩, f, hf, ?_⟩
  · obtain ⟨outcome, houtcome, -, hregister, -⟩ := h e he
    cases hreg.symm.trans houtcome
    have hread : e ∉ _ := htargets ▸ List.not_mem_nil
    obtain ⟨hw, hr, -, hreach, ⟨hpath, -⟩ | ⟨_, -, htype⟩⟩ := hregister hread _ _ rfl
    · cases hpath
    · cases hr
      exact ⟨hreach, htype⟩
  · obtain ⟨outcome, houtcome, -, -, hobstacle⟩ := h f hf
    cases hnone.symm.trans houtcome
    exact hobstacle.mp rfl

end Shader
