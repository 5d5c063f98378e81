import Mathlib.Data.List.Forall2
import Shader.Proofs.FoldingExact

/-!
# Programs that differ in their names

Renaming the variables of a shader leaves the shape of its tree, and if every use still means the
variable that it meant, each name of the checked program is bound to the place in the table that it
was bound to. That is `Program.Renamed`. It says nothing about names and positions, nor about the
types that the checker has filled in, as those follow from the declared types.
-/

namespace Shader

open TypeSystem
open Program (Expr Stmt)
open Number (Scalar)

/-! ## Renamed trees -/

namespace Program

mutual

/-- Expressions that are the same but for names, positions and the types filled in. What a name is
bound to is the same. -/
inductive Expr.Alike : Expr → Expr → Prop where
  | absent : Alike .absent .absent
  | int {pos pos' : Pos} {n : Int} : Alike (.int pos n) (.int pos' n)
  | float {pos pos' : Pos} {x : Float} : Alike (.float pos x) (.float pos' x)
  | bool {pos pos' : Pos} {b : Bool} : Alike (.bool pos b) (.bool pos' b)
  | var {ref ref' : Ref} : ref.decl = ref'.decl → Alike (.var ref) (.var ref')
  | index {ref ref' : Ref} {i : Int} {t t' : Ty} :
      ref.decl = ref'.decl → Alike (.index ref i t) (.index ref' i t')
  | unary {pos pos' : Pos} {op : UnaryOp} {x x' : Expr} {t t' : Ty} :
      Alike x x' → Alike (.unary pos op x t) (.unary pos' op x' t')
  | binary {pos pos' : Pos} {op : BinaryOp} {l l' r r' : Expr} {t t' : Ty} :
      Alike l l' → Alike r r' → Alike (.binary pos op l r t) (.binary pos' op l' r' t')
  | call {pos pos' : Pos} {func : Bytes} {args args' : List Expr} {t t' : Ty} :
      AlikeList args args' → Alike (.call pos func args t) (.call pos' func args' t')
  | construct {pos pos' : Pos} {t : Ty} {args args' : List Expr} :
      AlikeList args args' → Alike (.construct pos t args) (.construct pos' t args')

/-- Expressions that are alike one by one. -/
inductive Expr.AlikeList : List Expr → List Expr → Prop where
  | nil : AlikeList [] []
  | cons {e e' : Expr} {es es' : List Expr} :
      Alike e e' → AlikeList es es' → AlikeList (e :: es) (e' :: es')

end

mutual

/-- Statements that are the same but for names, positions and the types filled in. -/
inductive Stmt.Alike : Stmt → Stmt → Prop where
  | absent : Alike .absent .absent
  | assign {pos pos' : Pos} {target target' value value' : Expr} :
      target.Alike target' → value.Alike value' →
      Alike (.assign pos target value) (.assign pos' target' value')
  | ifThen {cond cond' : Expr} {yes yes' : Stmt} :
      cond.Alike cond' → Alike yes yes' → Alike (.branch cond yes none) (.branch cond' yes' none)
  | ifElse {cond cond' : Expr} {yes yes' no no' : Stmt} :
      cond.Alike cond' → Alike yes yes' → Alike no no' →
      Alike (.branch cond yes (some no)) (.branch cond' yes' (some no'))
  | loop {pos pos' : Pos} {cond cond' : Expr} {body body' : Stmt} :
      cond.Alike cond' → Alike body body' → Alike (.loop pos cond body) (.loop pos' cond' body')
  | scope {ids : List DeclId} {ss ss' : List Stmt} :
      AlikeList ss ss' → Alike (.scope ids ss) (.scope ids ss')

/-- Statements that are alike one by one. -/
inductive Stmt.AlikeList : List Stmt → List Stmt → Prop where
  | nil : AlikeList [] []
  | cons {s s' : Stmt} {ss ss' : List Stmt} :
      Alike s s' → AlikeList ss ss' → AlikeList (s :: ss) (s' :: ss')

end

/-- Blocks that are the same but for names, positions and the types filled in. -/
def Scope.Alike (b b' : Scope) : Prop := b.decls = b'.decls ∧ Stmt.AlikeList b.stmts b'.stmts

end Program

/-- Declarations that are the same but for names, positions and the types filled in. -/
structure Declaration.Alike (d d' : Declaration) : Prop where
  type : d.type = d'.type
  qualifier : d.qualifier = d'.qualifier
  init : Option.Rel Program.Expr.Alike d.init d'.init

/-- Programs that are the same but for names, positions and the types filled in. -/
structure Program.Renamed (p p' : Program) : Prop where
  decls : List.Forall₂ Declaration.Alike p.decls p'.decls
  predefined : p.predefined = p'.predefined
  body : Option.Rel Program.Scope.Alike p.body p'.body

/-! ## Comparing trees -/

namespace Program

mutual

/-- Decides `Expr.Alike`. -/
def Expr.alike : Expr → Expr → Bool
  | .absent, .absent => true
  | .int _ n, .int _ n' => decide (n = n')
  | .float _ x, .float _ x' => decide (x = x')
  | .bool _ b, .bool _ b' => decide (b = b')
  | .var ref, .var ref' => decide (ref.decl = ref'.decl)
  | .index ref i _, .index ref' i' _ => decide (ref.decl = ref'.decl) && decide (i = i')
  | .unary _ op x _, .unary _ op' x' _ => decide (op = op') && x.alike x'
  | .binary _ op l r _, .binary _ op' l' r' _ =>
    decide (op = op') && l.alike l' && r.alike r'
  | .call _ func args _, .call _ func' args' _ =>
    decide (func = func') && Expr.alikeList args args'
  | .construct _ t args, .construct _ t' args' => decide (t = t') && Expr.alikeList args args'
  | _, _ => false

/-- Decides `Expr.AlikeList`. -/
def Expr.alikeList : List Expr → List Expr → Bool
  | [], [] => true
  | e :: es, e' :: es' => e.alike e' && Expr.alikeList es es'
  | _, _ => false

end

mutual

/-- Decides `Stmt.Alike`. -/
def Stmt.alike : Stmt → Stmt → Bool
  | .absent, .absent => true
  | .assign _ target value, .assign _ target' value' => target.alike target' && value.alike value'
  | .branch cond yes none, .branch cond' yes' none => cond.alike cond' && yes.alike yes'
  | .branch cond yes (some no), .branch cond' yes' (some no') =>
    cond.alike cond' && yes.alike yes' && no.alike no'
  | .loop _ cond body, .loop _ cond' body' => cond.alike cond' && body.alike body'
  | .scope ids ss, .scope ids' ss' => decide (ids = ids') && Stmt.alikeList ss ss'
  | _, _ => false

/-- Decides `Stmt.AlikeList`. -/
def Stmt.alikeList : List Stmt → List Stmt → Bool
  | [], [] => true
  | s :: ss, s' :: ss' => s.alike s' && Stmt.alikeList ss ss'
  | _, _ => false

end

/-- The test for expressions is right where it says yes. -/
theorem Expr.alike_sound : (∀ e e' : Expr, e.alike e' = true → e.Alike e') ∧
    ∀ es es', Expr.alikeList es es' = true → Expr.AlikeList es es' := by
  apply Expr.alike.mutual_induct
  case case1 => exact fun _ => .absent
  case case2 | case3 | case4 =>
    intro pos x pos' x' h
    rw [Expr.alike, decide_eq_true_eq] at h
    subst h
    constructor
  case case5 =>
    intro ref ref' h
    rw [Expr.alike, decide_eq_true_eq] at h
    exact .var h
  case case6 =>
    intro ref i t ref' i' t' h
    rw [Expr.alike, Bool.and_eq_true, decide_eq_true_eq, decide_eq_true_eq] at h
    obtain ⟨hdecl, rfl⟩ := h
    exact .index hdecl
  case case7 =>
    intro pos op x t pos' op' x' t' ih h
    rw [Expr.alike, Bool.and_eq_true, decide_eq_true_eq] at h
    obtain ⟨rfl, hx⟩ := h
    exact .unary (ih hx)
  case case8 =>
    intro pos op l r t pos' op' l' r' t' ihl ihr h
    rw [Expr.alike, Bool.and_eq_true, Bool.and_eq_true, decide_eq_true_eq] at h
    obtain ⟨⟨rfl, hl⟩, hr⟩ := h
    exact .binary (ihl hl) (ihr hr)
  case case9 =>
    intro pos func args t pos' func' args' t' ih h
    rw [Expr.alike, Bool.and_eq_true, decide_eq_true_eq] at h
    obtain ⟨rfl, hargs⟩ := h
    exact .call (ih hargs)
  case case10 =>
    intro pos t args pos' t' args' ih h
    rw [Expr.alike, Bool.and_eq_true, decide_eq_true_eq] at h
    obtain ⟨rfl, hargs⟩ := h
    exact .construct (ih hargs)
  case case12 => exact fun _ => .nil
  case case13 =>
    intro e es e' es' ihe ihes h
    rw [Expr.alikeList, Bool.and_eq_true] at h
    exact .cons (ihe h.1) (ihes h.2)
  -- trees of different forms
  case case11 =>
    intros
    simp_all [Expr.alike]
  case case14 =>
    intros
    simp_all [Expr.alikeList]

mutual

theorem Expr.Alike.decided : ∀ {e e' : Expr}, e.Alike e' → e.alike e' = true
  | _, _, .absent => by rw [Expr.alike]
  | _, _, .int | _, _, .float | _, _, .bool => by simp [Expr.alike]
  | _, _, .var h | _, _, .index h => by simp [Expr.alike, h]
  | _, _, .unary hx => by simp [Expr.alike, hx.decided]
  | _, _, .binary hl hr => by simp [Expr.alike, hl.decided, hr.decided]
  | _, _, .call hargs | _, _, .construct hargs => by simp [Expr.alike, hargs.decided]

theorem Expr.AlikeList.decided :
    ∀ {es es' : List Expr}, Expr.AlikeList es es' → Expr.alikeList es es' = true
  | _, _, .nil => by rw [Expr.alikeList]
  | _, _, .cons he hes => by simp [Expr.alikeList, he.decided, hes.decided]

end

instance (e e' : Expr) : Decidable (e.Alike e') :=
  decidable_of_iff _ ⟨Expr.alike_sound.1 e e', Expr.Alike.decided⟩

/-- The test for statements is right where it says yes. -/
theorem Stmt.alike_sound : (∀ s s' : Stmt, s.alike s' = true → s.Alike s') ∧
    ∀ ss ss', Stmt.alikeList ss ss' = true → Stmt.AlikeList ss ss' := by
  apply Stmt.alike.mutual_induct
  case case1 => exact fun _ => .absent
  case case2 =>
    intro pos target value pos' target' value' h
    rw [Stmt.alike, Bool.and_eq_true] at h
    exact .assign (Expr.alike_sound.1 _ _ h.1) (Expr.alike_sound.1 _ _ h.2)
  case case3 =>
    intro cond yes cond' yes' ih h
    rw [Stmt.alike, Bool.and_eq_true] at h
    exact .ifThen (Expr.alike_sound.1 _ _ h.1) (ih h.2)
  case case4 =>
    intro cond yes no cond' yes' no' ihyes ihno h
    rw [Stmt.alike, Bool.and_eq_true, Bool.and_eq_true] at h
    exact .ifElse (Expr.alike_sound.1 _ _ h.1.1) (ihyes h.1.2) (ihno h.2)
  case case5 =>
    intro pos cond body pos' cond' body' ih h
    rw [Stmt.alike, Bool.and_eq_true] at h
    exact .loop (Expr.alike_sound.1 _ _ h.1) (ih h.2)
  case case6 =>
    intro ids ss ids' ss' ih h
    rw [Stmt.alike, Bool.and_eq_true, decide_eq_true_eq] at h
    obtain ⟨rfl, hss⟩ := h
    exact .scope (ih hss)
  case case8 => exact fun _ => .nil
  case case9 =>
    intro s ss s' ss' ihs ihss h
    rw [Stmt.alikeList, Bool.and_eq_true] at h
    exact .cons (ihs h.1) (ihss h.2)
  -- trees of different forms
  case case7 =>
    intros
    simp_all [Stmt.alike]
  case case10 =>
    intros
    simp_all [Stmt.alikeList]

mutual

theorem Stmt.Alike.decided : ∀ {s s' : Stmt}, s.Alike s' → s.alike s' = true
  | _, _, .absent => by rw [Stmt.alike]
  | _, _, .assign ht hv => by simp [Stmt.alike, ht.decided, hv.decided]
  | _, _, .ifThen hc hy => by simp [Stmt.alike, hc.decided, hy.decided]
  | _, _, .ifElse hc hy hn => by simp [Stmt.alike, hc.decided, hy.decided, hn.decided]
  | _, _, .loop hc hb => by simp [Stmt.alike, hc.decided, hb.decided]
  | _, _, .scope hss => by simp [Stmt.alike, hss.decided]

theorem Stmt.AlikeList.decided :
    ∀ {ss ss' : List Stmt}, Stmt.AlikeList ss ss' → Stmt.alikeList ss ss' = true
  | _, _, .nil => by rw [Stmt.alikeList]
  | _, _, .cons hs hss => by simp [Stmt.alikeList, hs.decided, hss.decided]

end

instance (b b' : Scope) : Decidable (b.Alike b') :=
  decidable_of_iff (b.decls = b'.decls ∧ Stmt.alikeList b.stmts b'.stmts = true)
    (and_congr_right fun _ => ⟨Stmt.alike_sound.2 _ _, Stmt.AlikeList.decided⟩)

end Program

/-- Decides a relation between values that may be missing. -/
instance decidableOptionRel {β : Type} {r : β → β → Prop} [∀ b b', Decidable (r b b')] :
    ∀ o o', Decidable (Option.Rel r o o')
  | none, none => isTrue .none
  | some b, some b' =>
    decidable_of_iff (r b b') ⟨.some, fun h => by cases h; assumption⟩
  | none, some _ => isFalse (by rintro ⟨⟩)
  | some _, none => isFalse (by rintro ⟨⟩)

instance (d d' : Declaration) : Decidable (d.Alike d') :=
  decidable_of_iff
    (d.type = d'.type ∧ d.qualifier = d'.qualifier ∧ Option.Rel Program.Expr.Alike d.init d'.init)
    ⟨fun ⟨ht, hq, hi⟩ => ⟨ht, hq, hi⟩, fun ⟨ht, hq, hi⟩ => ⟨ht, hq, hi⟩⟩

instance (p p' : Program) : Decidable (p.Renamed p') :=
  decidable_of_iff
    (List.Forall₂ Declaration.Alike p.decls p'.decls ∧ p.predefined = p'.predefined ∧
      Option.Rel Program.Scope.Alike p.body p'.body)
    ⟨fun ⟨hd, hp, hb⟩ => ⟨hd, hp, hb⟩, fun ⟨hd, hp, hb⟩ => ⟨hd, hp, hb⟩⟩

/-! ## Tables and walks -/

section Tables

variable {decls decls' : List Declaration}

/-- Whether a variable gets a register of its own does not depend on its name. -/
theorem Declaration.Alike.isOrdinary {d d' : Declaration} (h : d.Alike d') :
    d.isOrdinary = d'.isOrdinary := by
  rw [Declaration.isOrdinary, h.qualifier, ← Declaration.isOrdinary]

theorem Declaration.Alike.isConst {d d' : Declaration} (h : d.Alike d') :
    d.isConst = d'.isConst := by
  rw [Declaration.isConst, h.qualifier, ← Declaration.isConst]

/-- A declaration has a counterpart in the other table. -/
theorem exists_alike (h : List.Forall₂ Declaration.Alike decls decls') {id : DeclId}
    {d : Declaration} (hd : decls[id]? = some d) : ∃ d', decls'[id]? = some d' ∧ d.Alike d' := by
  induction h generalizing id with
  | nil => simp at hd
  | @cons d₀ d₀' _ _ hfirst _ ih =>
    cases id with
    | zero =>
      cases hd
      exact ⟨d₀', rfl, hfirst⟩
    | succ id => exact ih hd

theorem Program.Expr.AlikeList.length_eq :
    ∀ {es es' : List Expr}, Program.Expr.AlikeList es es' → es.length = es'.length
  | _, _, .nil => rfl
  | _, _, .cons _ hes => by rw [List.length_cons, List.length_cons, hes.length_eq]

mutual

/-- A walk meets the same declarations. -/
theorem Program.Stmt.Alike.visits :
    ∀ {s s' : Program.Stmt}, s.Alike s' → s.visits = s'.visits
  | _, _, .absent => rfl
  | _, _, .assign _ _ => by rw [Program.Stmt.visits, Program.Stmt.visits]
  | _, _, .ifThen _ hy => by rw [Program.Stmt.visits, Program.Stmt.visits, hy.visits]
  | _, _, .ifElse _ hy hn => by
    rw [Program.Stmt.visits, Program.Stmt.visits, hy.visits, hn.visits]
  | _, _, .loop _ hb => by rw [Program.Stmt.visits, Program.Stmt.visits, hb.visits]
  | _, _, .scope hss => by rw [Program.Stmt.visits, Program.Stmt.visits, hss.visits]

theorem Program.Stmt.AlikeList.visits :
    ∀ {ss ss' : List Program.Stmt}, Program.Stmt.AlikeList ss ss' →
      Program.Stmt.listVisits ss = Program.Stmt.listVisits ss'
  | _, _, .nil => rfl
  | _, _, .cons hs hss => by
    rw [Program.Stmt.listVisits, Program.Stmt.listVisits, hs.visits, hss.visits]

end

/-- Walks through renamed programs meet the same places of the table. -/
theorem Program.Renamed.visits {p p' : Program} (h : p.Renamed p') : p.visits = p'.visits := by
  rw [Program.visits, Program.visits, h.predefined]
  have hbody := h.body
  generalize p.body = b at hbody ⊢
  generalize p'.body = b' at hbody ⊢
  cases hbody with
  | none => rfl
  | @some b b' hb =>
    dsimp only
    rw [Program.Stmt.visits, Program.Stmt.visits, hb.1, hb.2.visits]

end Tables

/-! ## The types filled in -/

section Types

variable {decls decls' : List Declaration}

/-- The rules give an expression a type, in some context of variables of the table. -/
def HasType (decls : List Declaration) (e : Expr) (t : Ty) : Prop :=
  ∃ Γ a, Lists decls Γ ∧ Typed Γ a e t

/-- The rules give expressions their types, one by one. -/
def HasTypes (decls : List Declaration) (es : List Expr) (ts : List Ty) : Prop :=
  ∃ Γ as, Lists decls Γ ∧ TypedList Γ as es ts

/-- The type that is filled in is the type that the rules give. -/
theorem HasType.type_eq {e : Expr} {t : Ty} (h : HasType decls e t) : e.type decls = t := by
  obtain ⟨Γ, a, hΓ, h⟩ := h
  exact Lower.type_of_typed hΓ h

/-- The type of a variable is that of its declaration. The context is forgotten: what it says of the
variable stands in the table. -/
theorem HasType.var {ref : Ref} {t : Ty} (h : HasType decls (.var ref) t) :
    ∃ id d, ref.decl = some id ∧ decls[id]? = some d ∧ t = d.type := by
  obtain ⟨Γ, a, hΓ, h⟩ := h
  cases h with
  | var ha _ =>
    cases ha with
    | whole hx =>
      obtain ⟨d, hd, -, ht, -⟩ := hΓ.decl_of_finds hx
      exact ⟨_, d, rfl, hd, ht.symm⟩

theorem HasType.index {ref : Ref} {i : Int} {s t : Ty} (h : HasType decls (.index ref i s) t) :
    ∃ id d, ref.decl = some id ∧ decls[id]? = some d ∧ t = ⟨d.type.base, 1⟩ := by
  obtain ⟨Γ, a, hΓ, h⟩ := h
  cases h with
  | var ha _ =>
    cases ha with
    | component hx _ _ =>
      obtain ⟨d, hd, -, ht, -⟩ := hΓ.decl_of_finds hx
      exact ⟨_, d, rfl, hd, by rw [ht]⟩

/-- The types behind an operator in front of an operand, by inversion of its rule. -/
theorem HasType.unary {pos : Pos} {op : UnaryOp} {x : Expr} {s t : Ty}
    (h : HasType decls (.unary pos op x s) t) :
    s = t ∧ ∃ u, HasType decls x u ∧ UnaryRule op u t := by
  obtain ⟨Γ, a, hΓ, h⟩ := h
  cases h with
  | var ha _ => cases ha
  | unary hx hrule => exact ⟨rfl, _, ⟨Γ, _, hΓ, hx⟩, hrule⟩

theorem HasType.binary {pos : Pos} {op : BinaryOp} {l r : Expr} {s t : Ty}
    (h : HasType decls (.binary pos op l r s) t) :
    s = t ∧ ∃ u v, HasType decls l u ∧ HasType decls r v ∧ BinaryRule op u v t := by
  obtain ⟨Γ, a, hΓ, h⟩ := h
  cases h with
  | var ha _ => cases ha
  | binary hl hr hrule => exact ⟨rfl, _, _, ⟨Γ, _, hΓ, hl⟩, ⟨Γ, _, hΓ, hr⟩, hrule⟩

theorem HasType.call {pos : Pos} {func : Bytes} {args : List Expr} {s t : Ty}
    (h : HasType decls (.call pos func args s) t) :
    ∃ f ts, func = Function.name f ∧ HasTypes decls args ts ∧ CallRule f ts t := by
  obtain ⟨Γ, a, hΓ, h⟩ := h
  cases h with
  | var ha _ => cases ha
  | call hargs hrule => exact ⟨_, _, rfl, ⟨Γ, _, hΓ, hargs⟩, hrule⟩

theorem HasType.construct {pos : Pos} {args : List Expr} {s t : Ty}
    (h : HasType decls (.construct pos s args) t) : s = t ∧ ∃ ts, HasTypes decls args ts := by
  obtain ⟨Γ, a, hΓ, h⟩ := h
  cases h with
  | var ha _ => cases ha
  | construct _ hargs => exact ⟨rfl, _, Γ, _, hΓ, hargs⟩

theorem HasTypes.cons {e : Expr} {es : List Expr} {ts : List Ty}
    (h : HasTypes decls (e :: es) ts) :
    ∃ u us, ts = u :: us ∧ HasType decls e u ∧ HasTypes decls es us := by
  obtain ⟨Γ, as, hΓ, h⟩ := h
  cases h with
  | cons he hes => exact ⟨_, _, rfl, ⟨Γ, _, hΓ, he⟩, Γ, _, hΓ, hes⟩

mutual

/-- **Renamed expressions have the same type.** -/
theorem type_unique (hdecls : List.Forall₂ Declaration.Alike decls decls') :
    ∀ {e e' : Expr}, e.Alike e' → ∀ {t t' : Ty}, HasType decls e t → HasType decls' e' t' → t = t'
  | _, _, .absent, _, _, h, _ => by
    obtain ⟨Γ, a, -, h⟩ := h
    cases h with
    | var ha _ => cases ha
  | _, _, .int, _, _, h, h' | _, _, .float, _, _, h, h' | _, _, .bool, _, _, h, h' =>
    h.type_eq.symm.trans h'.type_eq
  | _, _, .var hdecl, _, _, h, h' => by
    obtain ⟨id, d, hid, hd, rfl⟩ := h.var
    obtain ⟨id', d', hid', hd', rfl⟩ := h'.var
    -- both names are bound to the same place, and the tables agree on the type there
    cases hid.symm.trans (hdecl.trans hid')
    obtain ⟨d'', hd'', halike⟩ := exists_alike hdecls hd
    cases hd'.symm.trans hd''
    exact halike.type
  | _, _, .index hdecl, _, _, h, h' => by
    obtain ⟨id, d, hid, hd, rfl⟩ := h.index
    obtain ⟨id', d', hid', hd', rfl⟩ := h'.index
    cases hid.symm.trans (hdecl.trans hid')
    obtain ⟨d'', hd'', halike⟩ := exists_alike hdecls hd
    cases hd'.symm.trans hd''
    rw [halike.type]
  | _, _, .unary hx, _, _, h, h' => by
    obtain ⟨-, u, hu, hrule⟩ := h.unary
    obtain ⟨-, u', hu', hrule'⟩ := h'.unary
    cases type_unique hdecls hx hu hu'
    -- the rules are a function of the operator and the types, which are equal by induction
    rw [← unaryResult?_eq_some_iff] at hrule hrule'
    exact Option.some.inj (hrule.symm.trans hrule')
  | _, _, .binary hl hr, _, _, h, h' => by
    obtain ⟨-, u, v, hu, hv, hrule⟩ := h.binary
    obtain ⟨-, u', v', hu', hv', hrule'⟩ := h'.binary
    cases type_unique hdecls hl hu hu'
    cases type_unique hdecls hr hv hv'
    rw [← binaryResult?_eq_some_iff] at hrule hrule'
    exact Option.some.inj (hrule.symm.trans hrule')
  | _, _, .call hargs, _, _, h, h' => by
    obtain ⟨f, ts, hf, hts, hrule⟩ := h.call
    obtain ⟨f', ts', hf', hts', hrule'⟩ := h'.call
    have hfunc : Function.ofName? f.name = Function.ofName? f'.name := by rw [← hf, hf']
    rw [Checker.ofName?_name, Checker.ofName?_name] at hfunc
    cases hfunc
    cases types_unique hdecls hargs hts hts'
    rw [← result?_eq_some_iff] at hrule hrule'
    exact Option.some.inj (hrule.symm.trans hrule')
  | _, _, .construct _, _, _, h, h' => h.construct.1.symm.trans h'.construct.1

theorem types_unique (hdecls : List.Forall₂ Declaration.Alike decls decls') :
    ∀ {es es' : List Expr}, Program.Expr.AlikeList es es' → ∀ {ts ts' : List Ty},
      HasTypes decls es ts → HasTypes decls' es' ts' → ts = ts'
  | _, _, .nil, _, _, h, h' => by
    obtain ⟨_, _, -, h⟩ := h
    obtain ⟨_, _, -, h'⟩ := h'
    cases h
    cases h'
    rfl
  | _, _, .cons he hes, _, _, h, h' => by
    obtain ⟨u, us, rfl, hu, hus⟩ := h.cons
    obtain ⟨u', us', rfl, hu', hus'⟩ := h'.cons
    rw [type_unique hdecls he hu hu', types_unique hdecls hes hus hus']

end

/-- The rules type a statement whose declarations stand in the table. -/
def StmtHasType (decls : List Declaration) (s : Stmt) : Prop :=
  ∃ n Γ next st ds, Fits decls n next Γ ∧ Holds decls next ds ∧ StmtTyped Γ next st s ds

/-- The rules type statements whose declarations stand in the table. -/
def StmtsHaveType (decls : List Declaration) (ss : List Stmt) : Prop :=
  ∃ n Γ next sts ds, Fits decls n next Γ ∧ Holds decls next ds ∧ StmtsTyped Γ next sts ss ds

/-- The parts of a typed statement are typed, one lemma for each kind of statement. -/
theorem StmtHasType.assign {pos : Pos} {target value : Expr}
    (h : StmtHasType decls (.assign pos target value)) : ∃ t, HasType decls value t := by
  obtain ⟨n, Γ, next, st, ds, hΓ, -, h⟩ := h
  cases h with
  | assign _ _ he => exact ⟨_, Γ, _, hΓ.lists, he⟩

theorem StmtHasType.ifThen {cond : Expr} {yes : Stmt}
    (h : StmtHasType decls (.branch cond yes none)) :
    HasType decls cond .bool ∧ StmtHasType decls yes := by
  obtain ⟨n, Γ, next, st, ds, hΓ, hds, h⟩ := h
  cases h with
  | ifThen hc hyes => exact ⟨⟨Γ, _, hΓ.lists, hc⟩, n, Γ, next, _, _, hΓ, hds, hyes⟩

theorem StmtHasType.ifElse {cond : Expr} {yes no : Stmt}
    (h : StmtHasType decls (.branch cond yes (some no))) :
    HasType decls cond .bool ∧ StmtHasType decls yes ∧ StmtHasType decls no := by
  obtain ⟨n, Γ, next, st, ds, hΓ, hds, h⟩ := h
  cases h with
  | ifElse hc hyes hno =>
    exact ⟨⟨Γ, _, hΓ.lists, hc⟩, ⟨n, Γ, next, _, _, hΓ, hds.append.1, hyes⟩,
      n, Γ, _, _, _, hΓ.mono (Nat.le_add_right _ _), hds.append.2, hno⟩

theorem StmtHasType.scope {ids : List DeclId} {ss : List Stmt}
    (h : StmtHasType decls (.scope ids ss)) : StmtsHaveType decls ss := by
  obtain ⟨n, Γ, next, st, ds, hΓ, hds, h⟩ := h
  cases h with
  | scope hdecls hss =>
    exact ⟨n, _, _, _, _, Fits.declsTyped hdecls hΓ.push hds.append.1, hds.append.2, hss⟩

theorem StmtsHaveType.cons {s : Stmt} {ss : List Stmt} (h : StmtsHaveType decls (s :: ss)) :
    StmtHasType decls s ∧ StmtsHaveType decls ss := by
  obtain ⟨n, Γ, next, st, ds, hΓ, hds, h⟩ := h
  cases h with
  | cons hs hss =>
    exact ⟨⟨n, Γ, next, _, _, hΓ, hds.append.1, hs⟩,
      n, Γ, _, _, _, hΓ.mono (Nat.le_add_right _ _), hds.append.2, hss⟩

end Types

/-! ## Folding -/

/-- A map of registers that moves none but those of the shader's variables. -/
def MovesVariables (σ : Register → Register) : Prop :=
  ∀ r, (∀ name k, r ≠ .user name k) → σ r = r

/-- Two environments for renamed programs: `σ` takes the register of a variable in the one to its
register in the other. -/
structure Env.Maps (σ : Register → Register) (env env' : Env) : Prop where
  decls : List.Forall₂ Declaration.Alike env.decls env'.decls
  registers : ∀ id r, env.symbols.register? id = some r → env'.symbols.register? id = some (σ r)
  moves : MovesVariables σ

/-- A reference has a register if it is bound, and its declaration has one. -/
theorem Symbols.registerOf_eq_ok_iff {s : Symbols} {decls : List Declaration}
    {decl : Option DeclId} {r : Register} :
    s.registerOf decls decl = .ok r ↔ ∃ id, decl = some id ∧ s.register? id = some r := by
  cases decl with
  | none => simp [Symbols.registerOf]
  | some id => cases hid : s.register? id <;> simp [Symbols.registerOf, hid]

/-- References that are bound to the same declaration have registers that `σ` takes to each
other. -/
theorem Env.Maps.registerOf {σ : Register → Register} {env env' : Env} (h : env.Maps σ env')
    {decl : Option DeclId} {r : Register} (hr : env.symbols.registerOf env.decls decl = .ok r) :
    env'.symbols.registerOf env'.decls decl = .ok (σ r) := by
  obtain ⟨id, rfl, hid⟩ := Symbols.registerOf_eq_ok_iff.mp hr
  exact Symbols.registerOf_eq_ok_iff.mpr ⟨id, rfl, h.registers id r hid⟩

/-- A predefined variable keeps its register. -/
theorem Env.Maps.eq_of_not_isOrdinary {σ : Register → Register} {env env' : Env}
    (h : env.Maps σ env') (hsound : Symbols.Sound env.decls env.symbols) {id : DeclId}
    {d : Declaration} (hd : env.decls[id]? = some d) (ho : d.isOrdinary = false) {r : Register}
    (hr : env.symbols.register? id = some r) : σ r = r := by
  obtain ⟨d', hd', hfit⟩ := hsound.fitting _ (Symbols.mem_of_register? hr)
  cases hd.symm.trans hd'
  cases hfit with
  | own k ho' =>
    rw [ho] at ho'
    cases ho'
  | hardware hw => exact h.moves _ (by simp)

namespace Reduce

variable {α : Type} [Scalar α] {lookup lookup' : Ref → Except Failure (Option (Constant α))}

mutual

/-- Renamed expressions fold to the same constant, if renamed names do. -/
theorem expr_alike
    (h : ∀ ref ref' c, ref.decl = ref'.decl → lookup ref = .ok c → lookup' ref' = .ok c) :
    ∀ {e e' : Expr}, e.Alike e' → ∀ c : Option (Constant α), expr lookup e = .ok c →
      expr lookup' e' = .ok c
  | _, _, .absent, _, hc => by rw [expr] at hc; cases hc
  | _, _, .int, _, hc => by rw [expr] at hc ⊢; exact hc
  | _, _, .float, _, hc => by rw [expr] at hc ⊢; exact hc
  | _, _, .bool, _, hc => by rw [expr] at hc ⊢; exact hc
  | _, _, .var hdecl, c, hc => by
    rw [expr] at hc ⊢
    exact h _ _ c hdecl hc
  | _, _, .index hdecl, _, hc => by
    rw [expr] at hc ⊢
    exact bind_mono (fun c => h _ _ c hdecl) (fun _ h => h) hc
  | _, _, .unary hx, _, hc => by
    rw [expr] at hc ⊢
    exact bind_mono (expr_alike h hx) (fun _ h => h) hc
  | _, _, .binary hl hr, c, hc => by
    rw [expr] at hc ⊢
    refine bind_mono (expr_alike h hl) (fun left hleft => ?_) hc
    rcases left with _ | _ | ⟨_, _⟩
    · exact hleft
    · exact bind_mono (expr_alike h hr) (fun _ h => h) hleft
    · exact hleft
  | _, _, .call _, _, hc => by
    rw [expr] at hc ⊢
    exact hc
  | _, _, .construct hargs, _, hc => by
    rw [expr] at hc ⊢
    exact bind_mono (scalars_alike h hargs) (fun _ h => h) hc

theorem scalars_alike
    (h : ∀ ref ref' c, ref.decl = ref'.decl → lookup ref = .ok c → lookup' ref' = .ok c) :
    ∀ {es es' : List Expr}, Program.Expr.AlikeList es es' → ∀ xs : Option (List α),
      scalars lookup es = .ok xs → scalars lookup' es' = .ok xs
  | _, _, .nil, _, hxs => by
    rw [scalars] at hxs ⊢
    exact hxs
  | _, _, .cons he hes, _, hxs => by
    rw [scalars] at hxs ⊢
    refine bind_mono (expr_alike h he) (fun first hfirst => ?_) hxs
    rcases first with _ | (_ | ⟨_, _ | ⟨_, _⟩⟩) | ⟨_, _⟩
    · exact hfirst
    · exact hfirst
    · exact bind_mono (scalars_alike h hes) (fun _ h => h) hfirst
    · exact hfirst
    · exact hfirst

end

variable {σ : Register → Register} {env env' : Env}

/-- Renamed names fold to the same constant. A predefined variable has the same register in both
programs. -/
theorem named_alike (hmaps : env.Maps σ env') (hsound : Symbols.Sound env.decls env.symbols)
    (budget : Nat) : ∀ (ref ref' : Ref) (c : Option (Constant α)), ref.decl = ref'.decl →
      named env budget ref = .ok c → named env' budget ref' = .ok c := by
  induction budget with
  | zero =>
    intro ref ref' c _ hc
    rw [named] at hc
    cases hc
  | succ budget ih =>
    intro ref ref' c hdecl hc
    rw [named] at hc ⊢
    rw [← hdecl]
    cases hid : ref.decl with
    | none =>
      rw [hid] at hc
      cases hc
    | some id =>
      rw [hid, Option.bind_some] at hc
      cases hd : env.decls[id]? with
      | none =>
        rw [hd] at hc
        cases hc
      | some d =>
        obtain ⟨d', hd', halike⟩ := exists_alike hmaps.decls hd
        rw [hd] at hc
        rw [Option.bind_some, hd']
        dsimp only at hc ⊢
        rw [← halike.isOrdinary, ← halike.isConst]
        by_cases ho : (!d.isOrdinary) = true
        · -- a predefined variable folds to its register, which `σ` leaves
          rw [if_pos ho] at hc ⊢
          cases hr : env.symbols.registerOf env.decls (some id) with
          | error defect =>
            rw [hr] at hc
            cases hc
          | ok r =>
            rw [hr] at hc
            rw [hmaps.registerOf hr]
            obtain ⟨_, heq, hid⟩ := Symbols.registerOf_eq_ok_iff.mp hr
            cases heq
            rw [hmaps.eq_of_not_isOrdinary hsound hd (by simpa using ho) hid]
            exact hc
        · rw [if_neg ho] at hc ⊢
          by_cases hconst : d.isConst = true
          · -- a constant folds to its initializer, with what is left of the budget
            rw [if_pos hconst] at hc ⊢
            have hinit := halike.init
            generalize d.init = i at hinit hc
            generalize d'.init = i' at hinit ⊢
            cases hinit with
            | none => exact hc
            | some he => exact expr_alike ih he c hc
          · rwa [if_neg hconst] at hc ⊢

end Reduce

section Constants

variable {α : Type} [Scalar α] {σ : Register → Register} {env env' : Env} {e e' : Expr}

/-- **Renamed expressions fold to the same constant.** -/
theorem reduce_alike (hmaps : env.Maps σ env') (hsound : Symbols.Sound env.decls env.symbols)
    (h : e.Alike e') {c : Option (Constant α)} (hc : reduce env e = .ok c) :
    reduce env' e' = .ok c := by
  rw [reduce] at hc ⊢
  rw [← hmaps.decls.length_eq]
  exact Reduce.expr_alike (Reduce.named_alike hmaps hsound _) h c hc

/-- Renamed constants are declared with the same value. -/
theorem reduceOrZero_alike (hmaps : env.Maps σ env')
    (hsound : Symbols.Sound env.decls env.symbols) (h : e.Alike e') {t t' : Ty}
    (ht : HasType env.decls e t) (ht' : HasType env'.decls e' t') {v : ParamValue α × Bool}
    (hv : reduceOrZero env e = .ok v) : reduceOrZero env' e' = .ok v := by
  refine Reduce.bind_mono (fun c => reduce_alike hmaps hsound h) (fun c hc => ?_) hv
  cases c with
  | none =>
    rw [ht.type_eq, type_unique hmaps.decls h ht ht', ← ht'.type_eq] at hc
    exact hc
  | some c => exact hc

end Constants

end Shader
