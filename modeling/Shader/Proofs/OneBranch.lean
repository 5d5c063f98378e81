import Shader.Proofs.TruthValues
import Shader.Proofs.VariableUses

/-!
# One branch of an `if` takes effect

The code of both branches runs, and what tells them apart is the sign of one register. `Takes`
describes a run in which that works: every condition of code that is meant to run is one or minus
one, every write there sets its destination, and everything else (the code of the other branches, of
conditions and of values) changes no variable.

Not every program runs like that. A variable of truth values that is read before it was given one
holds zero, and then both branches of an `if` on it take effect. `Definite.program` is the analysis
that rules this out: it goes along the program with the variables that have been given a value on
every way to a place.
-/

namespace Shader

open Lower Machine TypeSystem
open Program (Expr Stmt)
open Number (Scalar)

/-! ## Definite assignment -/

namespace Definite

/-- The variables with a value behind an assignment. One to a component gives the others none. -/
def assigned (given : List DeclId) : Expr → List DeclId
  | .var ref => ref.decl.elim given (· :: given)
  | _ => given

/-- The variables that have a value whichever of two ways was taken. -/
def both (l r : List DeclId) : List DeclId := l.filter (r.contains ·)

theorem mem_both {l r : List DeclId} {id : DeclId} : id ∈ both l r ↔ id ∈ l ∧ id ∈ r := by
  simp [both]

/-- The variables with a value behind a declaration. A constant has its value from the start. -/
def decl (α : Type) [Scalar α] (env : Env) (given : List DeclId) (id : DeclId) :
    Option (List DeclId) :=
  match env.decls[id]? with
  | none => some given
  | some d =>
    if d.isConst then some given
    else match d.init with
      | some e => if expr α env given e then some (id :: given) else none
      | none => some (given.filter (· != id))

mutual

/-- The variables with a value behind a statement, unless the statement may read one without. -/
def stmt (α : Type) [Scalar α] (env : Env) (given : List DeclId) : Stmt → Option (List DeclId)
  | .absent => none
  | .assign _ dst e => if expr α env given e then some (assigned given dst) else none
  | .branch e yes none =>
    if expr α env given e then (stmt α env given yes).map (both · given) else none
  | .branch e yes (some no) =>
    if expr α env given e then
      (stmt α env given yes).bind fun l => (stmt α env given no).map (both l)
    else none
  | .loop _ _ _ => none
  | .scope ids ss => (ids.foldlM (decl α env) given).bind fun own => stmts α env own ss

def stmts (α : Type) [Scalar α] (env : Env) (given : List DeclId) :
    List Stmt → Option (List DeclId)
  | [] => some given
  | s :: ss => (stmt α env given s).bind fun behind => stmts α env behind ss

end

/-- The constants whose initializers can be folded. The others are declared with zeros. -/
def constants (α : Type) [Scalar α] (env : Env) : List DeclId :=
  (List.range env.decls.length).filter fun id => env.decls[id]?.any fun d =>
    d.isConst && d.init.any (Semantics.foldsToNumbers α env)

/-- Whether a program gives every variable of truth values a value before it reads it, and folds its
constructors `bool(e)`. -/
def program (α : Type) [Scalar α] (p : Program) : Bool :=
  match Symbols.build p, p.body with
  | .ok symbols, some b =>
    (stmt α ⟨p.decls, symbols⟩ (constants α ⟨p.decls, symbols⟩) (.scope b.decls b.stmts)).isSome
  | _, _ => false

end Definite

namespace Lower

/-! ## Runs in which one branch takes effect -/

/-- Where code generation and a run of the code stand. -/
abbrev Point (α K : Type) := Allocator α × Registers K

section Takes

variable {α K : Type} [Field K] [LinearOrder K]

/-- A step of code generation whose code runs. -/
def Does (F : Functions K) {β : Type} (m : Lower α β) (s : Point α K) (b : β) (s' : Point α K) :
    Prop :=
  ∃ code, Lower.run m s.1 = .ok (b, code, s'.1) ∧
    Machine.run F (instructions code) s.2 = some s'.2

/-- A step whose code runs and changes no variable. -/
def Quiet (F : Functions K) {β : Type} (m : Lower α β) (s : Point α K) (b : β) (s' : Point α K) :
    Prop :=
  Does F m s b s' ∧ ∀ r, IsVariable r → s'.2 r = s.2 r

/-- A write that sets its destination to the value, under whatever condition. -/
def Stores (F : Functions K) (cond : Option Operand) (dst value : Operand) (s s' : Point α K) :
    Prop :=
  Does F (write cond dst value) s () s' ∧
    ∃ u, read s.2 value = some u ∧ Machine.write s.2 dst u = some s'.2

variable [Scalar α]

/-- The code of a value. What it reads of a type of truth values are truth values, and if it has
such a type then so is what it leaves. -/
structure Evaluates (F : Functions K) (env : Env) (e : Expr) (s : Point α K) (value : Operand)
    (s' : Point α K) : Prop where
  reads : Given env e.refs s.2
  code : Quiet F (expr env e) s value s'
  leaves : (e.type env.decls).base = .bool → ∃ u, read s'.2 value = some u ∧
    ∀ c ∈ (e.type env.decls).components, IsTruth (u c)

/-- A declaration that initializes its variable. -/
inductive Declares (F : Functions K) (env : Env) (cond : Option Operand) (id : DeclId) :
    Point α K → Point α K → Prop where
  | const {d : Declaration} {s : Point α K} :
      env.decls[id]? = some d → d.isConst = true → Declares F env cond id s s
  | zero {d : Declaration} {reg : Operand} {s s₁ s₂ s' : Point α K} :
      env.decls[id]? = some d → d.isConst = false → d.init = none →
      Quiet F beginStatement s () s₁ →
      Quiet F (register env { name := d.name, decl := some id }) s₁ reg s₂ →
      Stores F cond reg (.of .zero) s₂ s' → Declares F env cond id s s'
  | init {d : Declaration} {e : Expr} {value reg : Operand} {s s₁ s₂ s₃ s' : Point α K} :
      env.decls[id]? = some d → d.isConst = false → d.init = some e →
      Quiet F beginStatement s () s₁ → Evaluates F env e s₁ value s₂ →
      Quiet F (register env { name := d.name, decl := some id }) s₂ reg s₃ →
      Stores F cond reg value s₃ s' → Declares F env cond id s s'

/-- Declarations in order. -/
inductive DeclaresAll (F : Functions K) (env : Env) (cond : Option Operand) :
    List DeclId → Point α K → Point α K → Prop where
  | nil {s : Point α K} : DeclaresAll F env cond [] s s
  | cons {id : DeclId} {ids : List DeclId} {s s₁ s' : Point α K} :
      Declares F env cond id s s₁ → DeclaresAll F env cond ids s₁ s' →
      DeclaresAll F env cond (id :: ids) s s'

mutual

/-- `Takes F env cond st s s'`: the code of the statement `st`, under a condition that holds, leads
from `s` to `s'`. Every `if` in it that is reached has a condition that is one or minus one. One of
its branches is taken, as the sign says, and the other changes no variable. -/
inductive Takes (F : Functions K) (env : Env) :
    Option Operand → Stmt → Point α K → Point α K → Prop where
  | assign {cond : Option Operand} {pos : Pos} {v e : Expr} {value dst : Operand}
      {s s₁ s₂ s₃ s' : Point α K} :
      Quiet F beginStatement s () s₁ → Evaluates F env e s₁ value s₂ →
      Quiet F (target env v) s₂ dst s₃ → Stores F cond dst value s₃ s' →
      Takes F env cond (.assign pos v e) s s'
  | yes {cond : Option Operand} {e : Expr} {st : Stmt} {own : Operand} {s s₁ s' : Point α K} :
      Given env e.refs s.2 → Quiet F (enterIf env cond e) s own s₁ →
      read s₁.2 own = some (.splat 1) → Takes F env (some own) st s₁ s' →
      Takes F env cond (.branch e st none) s s'
  | skip {cond : Option Operand} {e : Expr} {st : Stmt} {own : Operand} {s s₁ s' : Point α K} :
      Given env e.refs s.2 → Quiet F (enterIf env cond e) s own s₁ →
      read s₁.2 own = some (.splat (-1)) → Quiet F (stmt env (some own) st) s₁ () s' →
      Takes F env cond (.branch e st none) s s'
  | yesElse {cond : Option Operand} {e : Expr} {st no : Stmt} {own : Operand}
      {s s₁ s₂ s₃ s' : Point α K} :
      Given env e.refs s.2 → Quiet F (enterIf env cond e) s own s₁ →
      read s₁.2 own = some (.splat 1) → Takes F env (some own) st s₁ s₂ →
      Quiet F (enterElse cond own) s₂ () s₃ → Quiet F (stmt env (some own) no) s₃ () s' →
      Takes F env cond (.branch e st (some no)) s s'
  | noElse {cond : Option Operand} {e : Expr} {st no : Stmt} {own : Operand}
      {s s₁ s₂ s₃ s' : Point α K} :
      Given env e.refs s.2 → Quiet F (enterIf env cond e) s own s₁ →
      read s₁.2 own = some (.splat (-1)) → Quiet F (stmt env (some own) st) s₁ () s₂ →
      Quiet F (enterElse cond own) s₂ () s₃ → Takes F env (some own) no s₃ s' →
      Takes F env cond (.branch e st (some no)) s s'
  | scope {cond : Option Operand} {ids : List DeclId} {ss : List Stmt} {s s₁ s' : Point α K} :
      DeclaresAll F env cond ids s s₁ → TakesAll F env cond ss s₁ s' →
      Takes F env cond (.scope ids ss) s s'

/-- Statements in order. -/
inductive TakesAll (F : Functions K) (env : Env) :
    Option Operand → List Stmt → Point α K → Point α K → Prop where
  | nil {cond : Option Operand} {s : Point α K} : TakesAll F env cond [] s s
  | cons {cond : Option Operand} {st : Stmt} {ss : List Stmt} {s s₁ s' : Point α K} :
      Takes F env cond st s s₁ → TakesAll F env cond ss s₁ s' → TakesAll F env cond (st :: ss) s s'

end

end Takes

/-! ## They are runs of the code -/

section Does

variable {α K : Type} [Field K] [LinearOrder K] {F : Functions K}

theorem Does.bind {β γ : Type} {m : Lower α β} {f : β → Lower α γ} {s s₁ s₂ : Point α K} {b : β}
    {c : γ} (h : Does F m s b s₁) (h' : Does F (f b) s₁ c s₂) : Does F (m >>= f) s c s₂ := by
  obtain ⟨code, hrun, hm⟩ := h
  obtain ⟨more, hrun', hm'⟩ := h'
  refine ⟨code ++ more, run_bind_eq_ok.mpr ⟨b, code, s₁.1, more, hrun, hrun', rfl⟩, ?_⟩
  rw [instructions_append]
  exact run_append_eq_some.mpr ⟨s₁.2, hm, hm'⟩

theorem does_pure {β : Type} (b : β) (s : Point α K) : Does F (pure b) s b s := ⟨[], rfl, rfl⟩

variable [Scalar α] {env : Env} {cond : Option Operand}

theorem Declares.does {id : DeclId} {s s' : Point α K} (h : Declares F env cond id s s') :
    Does F (decl env cond id) s () s' := by
  cases h with
  | const hd hc =>
    rw [decl, hd]
    dsimp only
    rw [if_pos hc]
    exact does_pure () _
  | zero hd hc hinit hbegin hreg hstore =>
    rw [decl, hd]
    dsimp only
    rw [if_neg (by simp [hc]), hinit]
    exact hbegin.1.bind ((does_pure _ _).bind (hreg.1.bind hstore.1))
  | init hd hc hinit hbegin heval hreg hstore =>
    rw [decl, hd]
    dsimp only
    rw [if_neg (by simp [hc]), hinit]
    exact hbegin.1.bind (heval.code.1.bind (hreg.1.bind hstore.1))

theorem DeclaresAll.does {ids : List DeclId} {s s' : Point α K}
    (h : DeclaresAll F env cond ids s s') : Does F (decls env cond ids) s () s' := by
  induction h with
  | nil => exact does_pure () _
  | cons h _ ih => exact h.does.bind ih

mutual

theorem Takes.does : ∀ {cond : Option Operand} {st : Stmt} {s s' : Point α K},
    Takes F env cond st s s' → Does F (stmt env cond st) s () s'
  | _, _, _, _, .assign hbegin heval htarget hstore => by
    rw [stmt]
    exact hbegin.1.bind (heval.code.1.bind (htarget.1.bind hstore.1))
  | _, _, _, _, .yes _ henter _ h => by
    rw [stmt]
    exact henter.1.bind h.does
  | _, _, _, _, .skip _ henter _ h => by
    rw [stmt]
    exact henter.1.bind h.1
  | _, _, _, _, .yesElse _ henter _ h helse hno => by
    rw [stmt]
    exact henter.1.bind (h.does.bind (helse.1.bind hno.1))
  | _, _, _, _, .noElse _ henter _ hyes helse h => by
    rw [stmt]
    exact henter.1.bind (hyes.1.bind (helse.1.bind h.does))
  | _, _, _, _, .scope hdecls h => by
    rw [stmt]
    exact hdecls.does.bind h.does

theorem TakesAll.does : ∀ {cond : Option Operand} {ss : List Stmt} {s s' : Point α K},
    TakesAll F env cond ss s s' → Does F (stmts env cond ss) s () s'
  | _, _, _, _, .nil => by
    rw [stmts]
    exact does_pure () _
  | _, _, _, _, .cons h hs => by
    rw [stmts]
    exact h.does.bind hs.does

end

end Does

/-! ## Values and writes -/

section Live

variable {α K : Type} [Field K] [LinearOrder K] {F : Functions K} {ρ : Registers K} {env : Env}
  {n next : Nat} {Γ Γ' : Context} {a a' : Allocator α} {cond : Option Operand} {value : α → K}
  {contents : Registers K} {ps : List (Param α)} {given given' : List DeclId} {code : List Line}
  {o : Operand}

/-- Registers under which code is live and reads truth values: its condition is not negative, the
constants are loaded, and the variables that have been given a value hold truth values. -/
structure Clear (env : Env) (value : α → K) (contents : Registers K) (ps : List (Param α))
    (cond : Option Operand) (given : List DeclId) (ρ : Registers K) : Prop where
  truth : HasTruth ρ
  loaded : Loaded value contents ps ρ
  live : Live cond ρ
  given : Given env given ρ

theorem Clear.mono (h : Clear env value contents ps cond given ρ)
    (hsub : ∀ id ∈ given', id ∈ given) : Clear env value contents ps cond given' ρ :=
  ⟨h.truth, h.loaded, h.live, h.given.mono hsub⟩

theorem Outer.ignores_clear (houter : Outer a cond) (henv : Nameable env) :
    Ignores (Auxiliary a.conditions) (Clear env value contents ps cond given) := by
  intro ρ ρ' heq h
  have hwritten : ∀ r, ¬Written a.conditions r → ρ' r = ρ r := fun r hr =>
    heq r fun h => hr (.inl h)
  obtain ⟨htruth, hloaded⟩ := ignores_loaded ρ ρ' hwritten ⟨h.truth, h.loaded⟩
  exact ⟨htruth, hloaded, houter.ignores_live ρ ρ' hwritten h.live,
    h.given.congr henv fun r hr => heq r (not_auxiliary_of_isVariable hr)⟩

/-- Code that serves code generation itself is quiet, and stays clear. -/
theorem quiet_of_emits {β : Type} {m : Lower α β} {b : β} {P : Allocator α → β → Prop}
    (henv : Nameable env) {a₀ : Allocator α} (houter : Outer a₀ cond)
    (h : Emits (Auxiliary a₀.conditions) a m P)
    (hrun : Lower.run m a = .ok (b, code, a')) (hρ : Clear env value contents ps cond given ρ) :
    ∃ ρ', Machine.run F (instructions code) ρ = some ρ' ∧ Quiet F m (a, ρ) b (a', ρ') ∧
      Clear env value contents ps cond given ρ' := by
  obtain ⟨-, -, hcode, -⟩ := h b code a' hrun
  obtain ⟨ρ', hm⟩ := exists_run (F := F) (fun i hi => (hcode i hi).1) ρ
  have hframe : ∀ r, ¬Auxiliary a₀.conditions r → ρ' r = ρ r := fun r hr => h.frame hrun hm hr
  exact ⟨ρ', hm, ⟨⟨code, hrun, hm⟩, fun r hr => hframe r (not_auxiliary_of_isVariable hr)⟩,
    houter.ignores_clear henv ρ ρ' hframe hρ⟩

omit [Field K] [LinearOrder K] in
theorem exists_write {dst : Operand} (hdst : IsTarget dst) (u : Vec K) :
    ∃ ρ', Machine.write ρ dst u = some ρ' := by
  obtain ⟨r, select, negated⟩ := dst
  obtain ⟨-, hplain, hpos⟩ := hdst
  cases hpos
  cases select with
  | whole => exact ⟨_, rfl⟩
  | one c => exact ⟨_, rfl⟩
  | other t => exact absurd rfl (hplain t)

theorem stores_write (houter : Outer a cond) {dst : Operand} (hdst : IsTarget dst) {u : Vec K}
    (hread : read ρ o = some u)
    (hset : ∀ ρ', Machine.write ρ dst u = some ρ' → Given env given' ρ') {x : Unit}
    (hrun : Lower.run (write cond dst o) a = .ok (x, code, a'))
    (hρ : Clear env value contents ps cond given ρ) :
    ∃ ρ', Stores F cond dst o (a, ρ) (a', ρ') ∧ Clear env value contents ps cond given' ρ' := by
  obtain rfl := run_write_allocator hrun
  obtain ⟨ρ', hwrite⟩ := exists_write (ρ := ρ) hdst u
  have hframe : ∀ r, ¬Written a'.conditions r → ρ' r = ρ r := by
    intro r hr
    refine write_of_ne hwrite ?_
    rintro rfl
    exact hr (.inr hdst.1)
  obtain ⟨htruth, hloaded⟩ := ignores_loaded ρ ρ' hframe ⟨hρ.truth, hρ.loaded⟩
  refine ⟨ρ', ⟨⟨code, hrun, ?_⟩, u, hread, hwrite⟩, htruth, hloaded,
    houter.ignores_live ρ ρ' hframe hρ.live, hset ρ' hwrite⟩
  exact (run_write_live hρ.live hdst hread hrun).trans hwrite

omit [LinearOrder K] in
/-- A variable or component that is assigned to has a destination, and writing there gives the
variable a value. -/
theorem given_target (hA : Accepted env n) (hΓ : Fits env.decls n next Γ) {v : Ast.Var} {v' : Expr}
    {x : Variable} {t : Ty} (h : Access Γ v v' x t) :
    ∃ dst, target env v' = (pure dst : Lower α Operand) ∧ IsTarget dst ∧
      ∀ {ρ ρ' : Registers K} {u : Vec K}, Given env given ρ →
        (t.base = .bool → ∀ c ∈ t.components, IsTruth (u c)) → Machine.write ρ dst u = some ρ' →
        Given env (Definite.assigned given v') ρ' := by
  have henv := nameable_of_accepted hA
  cases h with
  | @whole pos name x hx =>
    obtain ⟨d, hd, -, htype, -⟩ := hΓ.lists.decl_of_finds hx
    obtain ⟨r, hr, -⟩ := hA.listed x.id d hd
    refine ⟨.of r, ?_, ⟨henv _ _ hr, Operand.plain_of _, rfl⟩, fun hgiven hu hwrite => ?_⟩
    · rw [target, register_eq_pure hr]
    · cases hwrite
      refine hgiven.update hA hr (fun id' hid' hne => (List.mem_cons.mp hid').resolve_left hne) ?_
      intro _ d' hd'
      cases hd.symm.trans hd'
      rw [htype]
      exact hu
  | @component pos name x i hx hvec hi =>
    obtain ⟨d, hd, -, htype, -⟩ := hΓ.lists.decl_of_finds hx
    obtain ⟨r, hr, -⟩ := hA.listed x.id d hd
    have hlt := lt_four_of_finds hΓ.named hx hi
    refine ⟨(Operand.of r).component (Component.all.get ⟨i, hlt⟩), ?_,
      ⟨henv _ _ hr, Operand.plain_component _ _, rfl⟩, fun {ρ} _ {u} hgiven hu hwrite => ?_⟩
    · rw [target, indexed_eq_pure hr _ _ hlt]
    · cases hwrite
      refine hgiven.update hA hr (fun id' hid' _ => hid') fun hid d' hd' hb c hc => ?_
      cases hd.symm.trans hd'
      show IsTruth (Function.update (ρ r) (Component.all.get ⟨i, hlt⟩) (u _) c)
      -- the other components hold what they held
      by_cases hcomp : c = Component.all.get ⟨i, hlt⟩
      · subst hcomp
        rw [Function.update_self]
        exact hu (by rw [← htype]; exact hb) _ (mem_components_of_scalar rfl _)
      · rw [Function.update_of_ne hcomp]
        exact hgiven x.id hid d r hd hr hb c hc

variable [Scalar α]

mutual

/-- A declaration that a name in an expression is bound to: that name is a part of the
expression. -/
theorem exists_part_of_mem_refs :
    ∀ {e : Expr} {id : DeclId}, id ∈ e.refs → ∃ ref, ref.decl = some id ∧ Expr.var ref ∈ e.parts
  | .var ref, id, hid => ⟨ref, Option.mem_toList.mp hid, List.mem_singleton_self _⟩
  | .index ref _ _, id, hid =>
    ⟨ref, Option.mem_toList.mp hid, List.mem_cons_of_mem _ (List.mem_singleton_self _)⟩
  | .unary _ _ x _, id, hid => by
    obtain ⟨ref, href, hpart⟩ := exists_part_of_mem_refs (e := x) hid
    exact ⟨ref, href, List.mem_cons_of_mem _ hpart⟩
  | .binary _ _ l r _, id, hid => by
    rw [Program.Expr.refs, List.mem_append] at hid
    rw [Program.Expr.parts]
    rcases hid with hid | hid
    · obtain ⟨ref, href, hpart⟩ := exists_part_of_mem_refs hid
      exact ⟨ref, href, List.mem_cons_of_mem _ (List.mem_append_left _ hpart)⟩
    · obtain ⟨ref, href, hpart⟩ := exists_part_of_mem_refs hid
      exact ⟨ref, href, List.mem_cons_of_mem _ (List.mem_append_right _ hpart)⟩
  | .call _ _ args _, id, hid => by
    have hid : id ∈ Expr.listRefs args := hid
    obtain ⟨ref, href, hpart⟩ := exists_part_of_mem_listRefs hid
    exact ⟨ref, href, List.mem_cons_of_mem _ hpart⟩
  | .construct _ _ args, id, hid => by
    have hid : id ∈ Expr.listRefs args := hid
    obtain ⟨ref, href, hpart⟩ := exists_part_of_mem_listRefs hid
    exact ⟨ref, href, List.mem_cons_of_mem _ hpart⟩

theorem exists_part_of_mem_listRefs :
    ∀ {es : List Expr} {id : DeclId}, id ∈ Expr.listRefs es →
      ∃ ref, ref.decl = some id ∧ Expr.var ref ∈ Expr.listParts es
  | e :: es, id, hid => by
    rw [Program.Expr.listRefs, List.mem_append] at hid
    rw [Program.Expr.listParts]
    rcases hid with hid | hid
    · obtain ⟨ref, href, hpart⟩ := exists_part_of_mem_refs hid
      exact ⟨ref, href, List.mem_append_left _ hpart⟩
    · obtain ⟨ref, href, hpart⟩ := exists_part_of_mem_listRefs hid
      exact ⟨ref, href, List.mem_append_right _ hpart⟩

end

omit [LinearOrder K] in
/-- What an expression may read has been given. -/
theorem given_refs {e : Expr} (hdef : Definite.expr α env given e = true)
    (h : Given env given ρ) : Given env e.refs ρ := by
  intro id hid d r hd hr hb
  obtain ⟨ref, href, hf⟩ := exists_part_of_mem_refs hid
  rw [Definite.expr, List.all_eq_true] at hdef
  have hpart := hdef _ hf
  rw [Definite.part, Program.refType, href, Option.bind_some, hd] at hpart
  dsimp only at hpart
  rw [hb] at hpart
  exact h id (by simpa using hpart) d r hd hr hb

theorem evaluates_expr [IsStrictOrderedRing K] (hv : KeepsTruth value) (hA : Accepted env n)
    (hΓ : Fits env.decls n next Γ) (hn : next ≤ n) {e : Ast.Expr} {e' : Expr} {t : Ty}
    (he : Typed Γ e e' t) (hdef : Definite.expr α env given e' = true) (ha : a.Tidy)
    (houter : Outer a cond) (hrun : Lower.run (expr env e') a = .ok (o, code, a'))
    (hps : a'.program.immediates ⊆ ps) (hρ : Clear env value contents ps cond given ρ) :
    ∃ ρ' u, Evaluates F env e' (a, ρ) o (a', ρ') ∧ Clear env value contents ps cond given ρ' ∧
      read ρ' o = some u ∧ (t.base = .bool → ∀ c ∈ t.components, IsTruth (u c)) := by
  have henv := nameable_of_accepted hA
  obtain ⟨ρ', hm, hquiet, hρ'⟩ :=
    quiet_of_emits (F := F) henv houter (emits_value henv ha e') hrun hρ
  obtain ⟨u, ⟨ρ₁, hm₁, hread⟩, hu⟩ := exists_computes_of_base (F := F) henv ha hrun fun hb =>
    truth_expr hv hA hΓ hn he hb hdef ha hrun hps hρ.loaded hρ.given
  cases hm.symm.trans hm₁
  refine ⟨ρ', u, ⟨given_refs hdef hρ.given, hquiet, fun hb => ⟨u, hread, ?_⟩⟩, hρ', hread, hu⟩
  rw [type_of_typed hΓ.lists he] at hb ⊢
  exact hu hb

omit [Scalar α] in
/-- The beginning of a statement, and what is left to do. -/
theorem quiet_beginStatement (henv : Nameable env) (ha : a.Tidy) (houter : Outer a cond) {β : Type}
    {m : Lower α β} {b : β}
    (hrun : Lower.run (beginStatement >>= fun _ => m) a = .ok (b, code, a'))
    (hρ : Clear env value contents ps cond given ρ) :
    ∃ a₁ ρ₁ rest, a₁.Tidy ∧ Outer a₁ cond ∧ Quiet F beginStatement (a, ρ) () (a₁, ρ₁) ∧
      Clear env value contents ps cond given ρ₁ ∧ Lower.run m a₁ = .ok (b, rest, a') := by
  obtain ⟨_, _, a₁, rest, hbegin, hrest, rfl⟩ := run_bind_eq_ok.mp hrun
  have hemits : Emits (Auxiliary a.conditions) a (beginStatement : Lower α Unit) _ :=
    emits_beginStatement ha
  obtain ⟨h₁, e₁, -, -⟩ := hemits _ _ _ hbegin
  obtain ⟨ρ₁, -, hquiet, hρ₁⟩ := quiet_of_emits (F := F) henv houter hemits hbegin hρ
  exact ⟨a₁, ρ₁, rest, h₁, houter.mono e₁, hquiet, hρ₁, hrest⟩

omit [LinearOrder K] [Scalar α] in
theorem run_pure_bind {β γ : Type} {f : β → Lower α γ} {b : β} {c : γ}
    (hrun : Lower.run (pure b >>= f) a = .ok (c, code, a')) :
    Lower.run (f b) a = .ok (c, code, a') := by
  obtain ⟨_, _, a₁, rest, h, hrest, rfl⟩ := run_bind_eq_ok.mp hrun
  cases h
  exact hrest

/-- A value that is written to a variable or a component of it. -/
theorem stores_value [IsStrictOrderedRing K] (hv : KeepsTruth value) (hA : Accepted env n)
    (hΓ : Fits env.decls n next Γ) (hn : next ≤ n) {e : Ast.Expr} {e' : Expr} {t : Ty}
    (he : Typed Γ e e' t) (hdef : Definite.expr α env given e' = true) {dst : Operand}
    (hdst : IsTarget dst)
    (hset : ∀ {ρ ρ' : Registers K} {u : Vec K}, Given env given ρ →
      (t.base = .bool → ∀ c ∈ t.components, IsTruth (u c)) → Machine.write ρ dst u = some ρ' →
      Given env given' ρ')
    (ha : a.Tidy) (houter : Outer a cond) {x : Unit}
    (hrun : Lower.run (beginStatement >>= fun _ => expr env e' >>= fun value =>
      (pure dst : Lower α Operand) >>= fun dst => write cond dst value) a = .ok (x, code, a'))
    (hps : a'.program.immediates ⊆ ps) (hρ : Clear env value contents ps cond given ρ) :
    ∃ s₁ s₂ o ρ', Quiet F beginStatement (a, ρ) () s₁ ∧ Evaluates F env e' s₁ o s₂ ∧
      Stores F cond dst o s₂ (a', ρ') ∧ Clear env value contents ps cond given' ρ' := by
  have henv := nameable_of_accepted hA
  obtain ⟨a₁, ρ₁, rest, h₁, hout₁, hbegin, hρ₁, hrest⟩ :=
    quiet_beginStatement (F := F) henv ha houter hrun hρ
  obtain ⟨o, _, a₂, more, hvalue, hmore, rfl⟩ := run_bind_eq_ok.mp hrest
  have hwrite := run_pure_bind hmore
  obtain ⟨-, e₂, -, -⟩ := emits_expr henv _ h₁ _ _ _ hvalue
  obtain rfl := run_write_allocator hwrite
  obtain ⟨ρ₂, u, heval, hρ₂, hread, hu⟩ :=
    evaluates_expr (F := F) hv hA hΓ hn he hdef h₁ hout₁ hvalue hps hρ₁
  obtain ⟨ρ', hstore, hρ'⟩ := stores_write (F := F) (hout₁.mono e₂) hdst hread
    (fun ρ' => hset hρ₂.given hu) hwrite hρ₂
  exact ⟨(a₁, ρ₁), (a', ρ₂), o, ρ', hbegin, heval, hstore, hρ'⟩

/-! ## Declarations -/

theorem declares_decl [IsStrictOrderedRing K] (hv : KeepsTruth value) (hA : Accepted env n)
    {b : Block} {id : DeclId} {ad : Ast.Decl} {d : Declaration} (hΓ : Fits env.decls n id (b :: Γ))
    (hn : id ≤ n) (hd : env.decls[id]? = some d) (h : DeclTyped (b :: Γ) ad d)
    (hdef : Definite.decl α env given id = some given') (ha : a.Tidy) (houter : Outer a cond)
    {x : Unit} (hrun : Lower.run (decl env cond id) a = .ok (x, code, a'))
    (hps : a'.program.immediates ⊆ ps) (hρ : Clear env value contents ps cond given ρ) :
    ∃ ρ', Declares F env cond id (a, ρ) (a', ρ') ∧
      Clear env value contents ps cond given' ρ' := by
  have henv := nameable_of_accepted hA
  obtain ⟨r, hr, -⟩ := hA.listed id d hd
  have hreg : register env { name := d.name, decl := some id } = (pure (.of r) : Lower α Operand) :=
    register_eq_pure hr _ _
  have hquiet : ∀ s : Point α K,
      Quiet F (register env { name := d.name, decl := some id }) s (.of r) s := by
    intro s
    rw [hreg]
    exact ⟨does_pure _ _, fun _ _ => rfl⟩
  have htarget : IsTarget (.of r) := ⟨henv _ _ hr, Operand.plain_of _, rfl⟩
  rw [decl, hd] at hrun
  dsimp only at hrun
  rw [hreg] at hrun
  rw [Definite.decl, hd] at hdef
  cases h with
  | const =>
    cases hdef
    cases hrun
    exact ⟨ρ, .const hd rfl, hρ⟩
  | plain =>
    cases hdef
    obtain ⟨a₁, ρ₁, rest, h₁, hout₁, hbegin, hρ₁, hrest⟩ := quiet_beginStatement (F := F) henv ha
      houter hrun hρ
    have hwrite := run_pure_bind (run_pure_bind hrest)
    obtain rfl := run_write_allocator hwrite
    obtain ⟨u, hu⟩ := exists_read (Operand.plain_of .zero) ρ₁
    -- a variable without an initializer counts as not given, so nothing has to be known of it
    have hforget : id ∉ given.filter (· != id) := by simp
    obtain ⟨ρ', hstore, hρ'⟩ := stores_write (F := F) hout₁ htarget hu (fun ρ' hset => by
      cases hset
      exact hρ₁.given.update hA hr (fun id' (h : id' ∈ given.filter (· != id)) _ =>
        List.mem_of_mem_filter h) fun h => absurd h hforget) hwrite hρ₁
    exact ⟨ρ', .zero hd rfl rfl hbegin (hquiet _) hstore, hρ'⟩
  | mutable _ he =>
    obtain ⟨hexpr, hdef⟩ := Option.ite_none_right_eq_some.mp hdef
    cases hdef
    obtain ⟨s₁, s₂, o, ρ', hbegin, heval, hstore, hρ'⟩ := stores_value (F := F) hv hA hΓ hn he hexpr
      htarget (fun hgiven hu hset => by
        cases hset
        refine hgiven.update hA hr (fun id' h hne => (List.mem_cons.mp h).resolve_left hne) ?_
        intro _ d' hd'
        cases hd.symm.trans hd'
        exact hu) ha houter hrun hps hρ
    exact ⟨ρ', .init hd rfl rfl hbegin heval (hquiet _) hstore, hρ'⟩

/-- **Declarations** initialize their variables in order. -/
theorem declares_decls [IsStrictOrderedRing K] (hv : KeepsTruth value) (hA : Accepted env n)
    {ds : List Ast.Decl} {ds' : List Declaration} (h : DeclsTyped next Γ ds ds' Γ') :
    ∀ {a a' : Allocator α} {ρ : Registers K} {given given' : List DeclId} {code : List Line}
      {x : Unit}, Fits env.decls n next Γ → Holds env.decls next ds' → next + ds'.length ≤ n →
      (List.range' next ds'.length).foldlM (Definite.decl α env) given = some given' → a.Tidy →
      Outer a cond →
      Lower.run (decls env cond (List.range' next ds'.length)) a = .ok (x, code, a') →
      a'.program.immediates ⊆ ps → Clear env value contents ps cond given ρ →
      ∃ ρ', DeclaresAll F env cond (List.range' next ds'.length) (a, ρ) (a', ρ') ∧
        Clear env value contents ps cond given' ρ' := by
  have henv := nameable_of_accepted hA
  induction h with
  | nil =>
    intro a a' ρ given given' code x _ _ _ hdef _ _ hrun _ hρ
    cases hdef
    cases hrun
    exact ⟨ρ, .nil, hρ⟩
  | @cons next b Γ Γ' ad d ds ds' hd hnew _ ih =>
    intro a a' ρ given given' code x hΓ hds hn hdef ha houter hrun hps hρ
    have hentry : env.decls[next]? = some d := hds 0 d rfl
    rw [List.length_cons, Nat.add_comm ds'.length 1, ← Nat.add_assoc] at hn
    have hid : next ≤ n := Nat.le_trans (Nat.le_succ next) (Nat.le_trans (Nat.le_add_right _ _) hn)
    rw [List.length_cons, List.range'_succ] at hdef hrun ⊢
    rw [List.foldlM_cons] at hdef
    obtain ⟨behind, hfirst, hdef⟩ := Option.bind_eq_some_iff.mp hdef
    rw [decls] at hrun
    obtain ⟨_, _, a₁, rest, h₁, h₂, rfl⟩ := run_bind_eq_ok.mp hrun
    have hemits : Emits (Written a.conditions) a (decl env cond next) _ :=
      emits_decl henv ha houter.plain next
    obtain ⟨ht₁, e₁, -, -⟩ := hemits _ _ _ h₁
    have hmore : Emits (Written a.conditions) a₁
        (decls env cond (List.range' (next + 1) ds'.length)) _ :=
      emits_decls henv houter.plain _ ht₁
    obtain ⟨-, e₂, -, -⟩ := hmore _ _ _ h₂
    obtain ⟨ρ₁, hdecl, hρ₁⟩ := declares_decl (F := F) hv hA hΓ hid hentry hd hfirst ha houter h₁
      (fun _ hp => hps (e₂.immediates hp)) hρ
    obtain ⟨ρ', hrest, hρ'⟩ := ih (hΓ.declare hentry hd.named) hds.tail hn hdef ht₁ (houter.mono e₁)
      h₂ hps hρ₁
    exact ⟨ρ', .cons hdecl hrest, hρ'⟩

/-! ## Branches -/

/-- The condition of an `if` in live code is one or minus one, in all components of its register. -/
theorem quiet_enterIf [IsStrictOrderedRing K] (hv : KeepsTruth value) (hA : Accepted env n)
    (hΓ : Fits env.decls n next Γ) (hn : next ≤ n) {e : Ast.Expr} {e' : Expr}
    (he : Typed Γ e e' .bool) (hdef : Definite.expr α env given e' = true) (ha : a.Tidy)
    (houter : Outer a cond) (hrun : Lower.run (enterIf env cond e') a = .ok (o, code, a'))
    (hps : a'.program.immediates ⊆ ps) (hρ : Clear env value contents ps cond given ρ) :
    ∃ ρ' x, Quiet F (enterIf env cond e') (a, ρ) o (a', ρ') ∧
      Clear env value contents ps cond given ρ' ∧ IsTruth x ∧ read ρ' o = some (.splat x) := by
  have henv := nameable_of_accepted hA
  obtain ⟨ρ', hm, hquiet, hρ'⟩ := quiet_of_emits (F := F) henv houter
    (emits_enterIf henv ha houter.plain e') hrun hρ
  obtain ⟨v, code₁, a₁, own, code₂, a₂, hvalue, hown, rfl, rfl, hcode⟩ := run_enterIf_eq_ok hrun
  obtain ⟨h₁, -, -, hleaves⟩ := emits_expr henv e' ha.reset _ _ _ hvalue
  obtain ⟨-, e₂, -, -⟩ := emits_spread h₁ (Nat.le_refl _) hleaves.2.plain _ _ _ hown
  obtain ⟨u, ⟨ρ₁, hm₁, hread₁⟩, hu⟩ := truth_expr (F := F) hv hA hΓ hn he rfl hdef ha.reset hvalue
    (fun _ h => hps (e₂.immediates h)) hρ.loaded hρ.given
  obtain ⟨ρ₂, hm₂, hread₂⟩ := computes_spread (F := F) h₁ hleaves.2 hread₁ hown
  have hρ₂ : Clear env value contents ps cond given ρ₂ :=
    houter.ignores_clear henv ρ ρ₂ ((frame_condition (F := F) henv ha hvalue hown).2 hm₁ hm₂) hρ
  refine ⟨ρ', u .x, hquiet, hρ', hu .x (mem_components_of_scalar rfl .x), ?_⟩
  rw [hcode, run_append, hm₁, Option.bind_some, run_append, hm₂, Option.bind_some, run_singleton,
    step_combine_live hρ₂.live hρ₂.truth hread₂] at hm
  cases hm
  rw [read_of, Function.update_self]

omit [Scalar α] in
/-- The condition of its `else` is the opposite. -/
theorem quiet_enterElse (henv : Nameable env) {a₀ : Allocator α} {k : Nat} {x : K} (ha : a.Tidy)
    (houter : Outer a₀ cond) (hk : a₀.conditions ≤ k)
    (hread : read ρ (.of (.longLived k)) = some (.splat x)) {y : Unit}
    (hrun : Lower.run (enterElse cond (.of (.longLived k))) a = .ok (y, code, a'))
    (hρ : Clear env value contents ps cond given ρ) :
    ∃ ρ', Quiet F (enterElse cond (.of (.longLived k))) (a, ρ) () (a', ρ') ∧
      Clear env value contents ps cond given ρ' ∧
      read ρ' (.of (.longLived k)) = some (.splat (-x)) := by
  obtain ⟨ρ', hm, hquiet, hρ'⟩ := quiet_of_emits (F := F) henv houter
    (emits_enterElse ha houter.plain hk) hrun hρ
  refine ⟨ρ', hquiet, hρ', ?_⟩
  rw [(run_enterElse_eq_ok hrun).2, run_singleton,
    step_combine_live hρ.live hρ.truth (read_neg hread)] at hm
  cases hm
  rw [read_of, Function.update_self]
  rfl

/-- A branch whose condition is negative changes no variable. -/
theorem quiet_stmt [IsStrictOrderedRing K] (henv : Nameable env) (st : Stmt) {x : K} (ha : a.Tidy)
    (houter : Outer a cond) (hinner : Outer a (some o)) (hread : read ρ o = some (.splat x))
    (hx : x < 0) {y : Unit} (hrun : Lower.run (stmt env (some o) st) a = .ok (y, code, a'))
    (hps : a'.program.immediates ⊆ ps) (hρ : Clear env value contents ps cond given ρ) :
    ∃ ρ', Quiet F (stmt env (some o) st) (a, ρ) () (a', ρ') ∧
      Clear env value contents ps cond given ρ' ∧ read ρ' o = some (.splat x) := by
  have hsame : OfVariables fun ρ' : Registers K => ∀ r, IsVariable r → ρ' r = ρ r := by
    intro ρ₁ ρ₂ heq h r hr
    exact (heq r fun hnot => hnot hr).trans (h r hr)
  have hidle : Idle F ps _ (some o) a (stmt env (some o) st) _ := idle_stmt henv hsame st ha hinner
  obtain ⟨-, -, -, hkeep⟩ := hidle _ _ _ hrun
  obtain ⟨ρ', hm, -, hvars⟩ := hkeep hps ρ ⟨⟨hρ.truth, o, x, rfl, hread, hx⟩, fun _ _ => rfl⟩
  have hframe : ∀ r, ¬Written a.conditions r → ρ' r = ρ r := fun r hr =>
    (emits_stmt henv st ha hinner.plain).frame hrun hm hr
  obtain ⟨htruth, hloaded⟩ := ignores_loaded ρ ρ' hframe ⟨hρ.truth, hρ.loaded⟩
  exact ⟨ρ', ⟨⟨code, hrun, hm⟩, hvars⟩,
    ⟨htruth, hloaded, houter.ignores_live ρ ρ' hframe hρ.live, hρ.given.congr henv hvars⟩,
    (hinner.read_eq rfl hframe).trans hread⟩

/-- Behind a branch that was taken, code is live again under the condition around. -/
theorem Takes.clear (henv : Nameable env) {st : Stmt} {ρ' : Registers K} {x : K} (ha : a.Tidy)
    (houter : Outer a cond) (hinner : Outer a (some o)) (hread : read ρ o = some (.splat x))
    (h : Takes F env (some o) st (a, ρ) (a', ρ')) (hlive : Live cond ρ)
    (hρ' : Clear env value contents ps (some o) given ρ') :
    Clear env value contents ps cond given ρ' ∧ read ρ' o = some (.splat x) := by
  obtain ⟨code, hrun, hm⟩ := h.does
  have hframe : ∀ r, ¬Written a.conditions r → ρ' r = ρ r := fun r hr =>
    (emits_stmt henv st ha hinner.plain).frame hrun hm hr
  exact ⟨⟨hρ'.truth, hρ'.loaded, houter.ignores_live ρ ρ' hframe hlive, hρ'.given⟩,
    (hinner.read_eq rfl hframe).trans hread⟩

omit [Scalar α] in
/-- Code under a condition that is one is live. -/
theorem Clear.enter [IsStrictOrderedRing K] (hread : read ρ o = some (.splat 1))
    (hρ : Clear env value contents ps cond given ρ) :
    Clear env value contents ps (some o) given ρ := by
  refine ⟨hρ.truth, hρ.loaded, ?_, hρ.given⟩
  rintro _ ⟨⟩
  exact ⟨1, hread, not_lt.mpr zero_le_one⟩

/-! ## Statements -/

/-- `RunsAs value contents ps env given given' m T`: live code of `m` runs as `T` says, under any
condition. If the variables `given` have values before it, then `given'` have values behind it. -/
def RunsAs (value : α → K) (contents : Registers K) (ps : List (Param α)) (env : Env)
    (given given' : List DeclId) (m : Option Operand → Lower α Unit)
    (T : Option Operand → Point α K → Point α K → Prop) : Prop :=
  ∀ ⦃cond : Option Operand⦄ ⦃a a' : Allocator α⦄ ⦃ρ : Registers K⦄ ⦃code : List Line⦄ ⦃x : Unit⦄,
    a.Tidy → Outer a cond → Lower.run (m cond) a = .ok (x, code, a') →
    a'.program.immediates ⊆ ps → Clear env value contents ps cond given ρ →
    ∃ ρ', T cond (a, ρ) (a', ρ') ∧ Clear env value contents ps cond given' ρ'

/-- An `if` without `else`, if its branch behaves. -/
theorem takes_ifThen [IsStrictOrderedRing K] (hv : KeepsTruth value) (hA : Accepted env n)
    (hΓ : Fits env.decls n next Γ) (hn : next ≤ n) {e : Ast.Expr} {e' : Expr} {st : Stmt}
    (hc : Typed Γ e e' .bool) (hdef : Definite.stmt α env given (.branch e' st none) = some given')
    (hst : ∀ {inside : List DeclId}, Definite.stmt α env given st = some inside →
      RunsAs value contents ps env given inside (stmt env · st) (Takes F env · st)) :
    RunsAs value contents ps env given given' (stmt env · (.branch e' st none))
      (Takes F env · (.branch e' st none)) := by
  intro cond a a' ρ code x ha houter hrun hps hρ
  have henv := nameable_of_accepted hA
  rw [Definite.stmt, Option.ite_none_right_eq_some] at hdef
  obtain ⟨hexpr, hdef⟩ := hdef
  obtain ⟨inside, hyes, rfl⟩ := Option.map_eq_some_iff.mp hdef
  dsimp only at hrun
  rw [stmt] at hrun
  obtain ⟨o, _, a₁, rest, henter, hbody, rfl⟩ := run_bind_eq_ok.mp hrun
  obtain ⟨h₁, e₁, -, k, rfl, -, hk⟩ := emits_enterIf henv ha houter.plain _ _ _ _ henter
  have hinner := outer_some hk
  obtain ⟨-, e₂, -, -⟩ := emits_stmt henv _ h₁ hinner.plain _ _ _ hbody
  obtain ⟨ρ₁, x, hquiet, hρ₁, hx, hread⟩ := quiet_enterIf (F := F) hv hA hΓ hn hc hexpr ha houter
    henter (fun _ h => hps (e₂.immediates h)) hρ
  -- the condition is one or minus one: the branch is taken, or its code changes nothing
  rcases hx with rfl | rfl
  · obtain ⟨ρ', htakes, hρ'⟩ := hst hyes h₁ hinner hbody hps (hρ₁.enter hread)
    obtain ⟨hρ', -⟩ := htakes.clear henv h₁ (houter.mono e₁) hinner hread hρ₁.live hρ'
    exact ⟨ρ', .yes (given_refs hexpr hρ.given) hquiet hread htakes,
      hρ'.mono fun id hid => (Definite.mem_both.mp hid).1⟩
  · obtain ⟨ρ', hskip, hρ', -⟩ := quiet_stmt (F := F) henv _ h₁ (houter.mono e₁) hinner hread
      (neg_neg_of_pos one_pos) hbody hps hρ₁
    exact ⟨ρ', .skip (given_refs hexpr hρ.given) hquiet hread hskip,
      hρ'.mono fun id hid => (Definite.mem_both.mp hid).2⟩

/-- An `if` with an `else`, if both branches behave. -/
theorem takes_ifElse [IsStrictOrderedRing K] (hv : KeepsTruth value) (hA : Accepted env n)
    (hΓ : Fits env.decls n next Γ) (hn : next ≤ n) {e : Ast.Expr} {e' : Expr} {st no : Stmt}
    (hc : Typed Γ e e' .bool)
    (hdef : Definite.stmt α env given (.branch e' st (some no)) = some given')
    (hst : ∀ {left : List DeclId}, Definite.stmt α env given st = some left →
      RunsAs value contents ps env given left (stmt env · st) (Takes F env · st))
    (hno : ∀ {right : List DeclId}, Definite.stmt α env given no = some right →
      RunsAs value contents ps env given right (stmt env · no) (Takes F env · no)) :
    RunsAs value contents ps env given given' (stmt env · (.branch e' st (some no)))
      (Takes F env · (.branch e' st (some no))) := by
  intro cond a a' ρ code x ha houter hrun hps hρ
  have henv := nameable_of_accepted hA
  rw [Definite.stmt, Option.ite_none_right_eq_some] at hdef
  obtain ⟨hexpr, hdef⟩ := hdef
  obtain ⟨left, hleft, hdef⟩ := Option.bind_eq_some_iff.mp hdef
  obtain ⟨right, hright, rfl⟩ := Option.map_eq_some_iff.mp hdef
  dsimp only at hrun
  rw [stmt] at hrun
  obtain ⟨o, _, a₁, rest₁, henter, hrest₁, rfl⟩ := run_bind_eq_ok.mp hrun
  obtain ⟨_, _, a₂, rest₂, hyes, hrest₂, rfl⟩ := run_bind_eq_ok.mp hrest₁
  obtain ⟨_, _, a₃, rest₃, helse, hbody, rfl⟩ := run_bind_eq_ok.mp hrest₂
  obtain ⟨h₁, e₁, -, k, rfl, hle, hk⟩ := emits_enterIf henv ha houter.plain _ _ _ _ henter
  have hinner := outer_some hk
  obtain ⟨h₂, e₂, -, -⟩ := emits_stmt henv _ h₁ hinner.plain _ _ _ hyes
  obtain ⟨rfl, -⟩ := run_enterElse_eq_ok helse
  have hinner₂ := hinner.mono e₂
  have hout₂ := houter.mono (e₁.trans e₂)
  obtain ⟨-, e₃, -, -⟩ := emits_stmt henv _ h₂ hinner₂.plain _ _ _ hbody
  have hps₂ : a₃.program.immediates ⊆ ps := fun _ h => hps (e₃.immediates h)
  obtain ⟨ρ₁, x, hquiet, hρ₁, hx, hread⟩ := quiet_enterIf (F := F) hv hA hΓ hn hc hexpr ha houter
    henter (fun _ h => hps₂ (e₂.immediates h)) hρ
  have hrefs := given_refs hexpr hρ.given
  rcases hx with rfl | rfl
  -- the first branch is taken, and then the condition is negated
  · obtain ⟨ρ₂, htakes, hρ₂⟩ := hst hleft h₁ hinner hyes hps₂ (hρ₁.enter hread)
    obtain ⟨hρ₂, hread₂⟩ := htakes.clear henv h₁ (houter.mono e₁) hinner hread hρ₁.live hρ₂
    obtain ⟨ρ₃, hnegate, hρ₃, hread₃⟩ :=
      quiet_enterElse (F := F) henv h₂ houter hle hread₂ helse hρ₂
    obtain ⟨ρ', hskip, hρ', -⟩ := quiet_stmt (F := F) henv _ h₂ hout₂ hinner₂ hread₃
      (neg_neg_of_pos one_pos) hbody hps hρ₃
    exact ⟨ρ', .yesElse hrefs hquiet hread htakes hnegate hskip,
      hρ'.mono fun id hid => (Definite.mem_both.mp hid).1⟩
  -- the first is not, and the negated condition is one
  · obtain ⟨ρ₂, hskip, hρ₂, hread₂⟩ := quiet_stmt (F := F) henv _ h₁ (houter.mono e₁) hinner hread
      (neg_neg_of_pos one_pos) hyes hps₂ hρ₁
    obtain ⟨ρ₃, hnegate, hρ₃, hread₃⟩ :=
      quiet_enterElse (F := F) henv h₂ houter hle hread₂ helse hρ₂
    rw [neg_neg] at hread₃
    obtain ⟨ρ', htakes, hρ'⟩ := hno hright h₂ hinner₂ hbody hps (hρ₃.enter hread₃)
    obtain ⟨hρ', -⟩ := htakes.clear henv h₂ hout₂ hinner₂ hread₃ hρ₃.live hρ'
    exact ⟨ρ', .noElse hrefs hquiet hread hskip hnegate htakes,
      hρ'.mono fun id hid => (Definite.mem_both.mp hid).2⟩

/-- A block, if its statements behave where they stand. -/
theorem takes_scope [IsStrictOrderedRing K] (hv : KeepsTruth value) (hA : Accepted env n)
    {ds : List Ast.Decl} {ds' : List Declaration} (hdecls : DeclsTyped next Γ ds ds' Γ')
    (hΓ : Fits env.decls n next Γ) (hds : Holds env.decls next ds') (hn : next + ds'.length ≤ n)
    {ss : List Stmt}
    (hdef : Definite.stmt α env given (.scope (List.range' next ds'.length) ss) = some given')
    (hss : ∀ {own : List DeclId}, Definite.stmts α env own ss = some given' →
      RunsAs value contents ps env own given' (stmts env · ss) (TakesAll F env · ss)) :
    RunsAs value contents ps env given given' (stmt env · (.scope (List.range' next ds'.length) ss))
      (Takes F env · (.scope (List.range' next ds'.length) ss)) := by
  intro cond a a' ρ code x ha houter hrun hps hρ
  have henv := nameable_of_accepted hA
  rw [Definite.stmt] at hdef
  obtain ⟨own, hown, hdef⟩ := Option.bind_eq_some_iff.mp hdef
  dsimp only at hrun
  rw [stmt] at hrun
  obtain ⟨_, _, a₁, rest, h₁, h₂, rfl⟩ := run_bind_eq_ok.mp hrun
  have hemits : Emits (Written a.conditions) a (decls env cond (List.range' next ds'.length)) _ :=
    emits_decls henv houter.plain _ ha
  obtain ⟨ht₁, e₁, -, -⟩ := hemits _ _ _ h₁
  obtain ⟨-, e₂, -, -⟩ := emits_stmts henv _ ht₁ houter.plain _ _ _ h₂
  obtain ⟨ρ₁, hdeclares, hρ₁⟩ := declares_decls (F := F) hv hA hdecls hΓ hds hn hown ha houter h₁
    (fun _ h => hps (e₂.immediates h)) hρ
  obtain ⟨ρ', htakes, hρ'⟩ := hss hdef ht₁ (houter.mono e₁) h₂ hps hρ₁
  exact ⟨ρ', .scope hdeclares htakes, hρ'⟩

mutual

/-- **The code of a statement takes one branch of each `if`.** -/
theorem takes_stmt [IsStrictOrderedRing K] (hv : KeepsTruth value) (hA : Accepted env n) :
    ∀ {Γ : Context} {next : DeclId} {st : Ast.Stmt} {st' : Stmt} {ds : List Declaration},
      StmtTyped Γ next st st' ds → ∀ {given given' : List DeclId},
      Definite.stmt α env given st' = some given' → Fits env.decls n next Γ →
      Holds env.decls next ds → next + ds.length ≤ n →
      RunsAs value contents ps env given given' (stmt env · st') (Takes F env · st')
  | _, _, _, _, _, .assign hacc _ he, _, _, hdef, hΓ, _, hn => by
    intro cond a a' ρ code x ha houter hrun hps hρ
    dsimp only at hrun
    rw [Definite.stmt, Option.ite_none_right_eq_some] at hdef
    obtain ⟨hexpr, hdef⟩ := hdef
    cases hdef
    -- to find the target takes no code, so it may be found before the value
    obtain ⟨dst, htarget, hdst, hset⟩ := given_target (α := α) (K := K) hA hΓ hacc
    rw [stmt, htarget] at hrun
    obtain ⟨s₁, s₂, o, ρ', hbegin, heval, hstore, hρ'⟩ := stores_value (F := F) hv hA hΓ hn he hexpr
      hdst hset ha houter hrun hps hρ
    refine ⟨ρ', .assign hbegin heval ?_ hstore, hρ'⟩
    rw [htarget]
    exact ⟨does_pure _ _, fun _ _ => rfl⟩
  | _, _, _, _, _, .ifThen hc hst, _, _, hdef, hΓ, hds, hn => by
    have hnext := Nat.le_trans (Nat.le_add_right _ _) hn
    exact takes_ifThen hv hA hΓ hnext hc hdef fun hyes => takes_stmt hv hA hst hyes hΓ hds hn
  | _, _, _, _, _, .ifElse hc hst hno, _, _, hdef, hΓ, hds, hn => by
    have hnext := Nat.le_trans (Nat.le_add_right _ _) hn
    rw [List.length_append, ← Nat.add_assoc] at hn
    have hfirst := Nat.le_trans (Nat.le_add_right _ _) hn
    exact takes_ifElse hv hA hΓ hnext hc hdef
      (fun hleft => takes_stmt hv hA hst hleft hΓ hds.append.1 hfirst)
      (fun hright => takes_stmt hv hA hno hright (hΓ.mono (Nat.le_add_right _ _)) hds.append.2 hn)
  | _, _, _, _, _, .loop _ _, _, _, hdef, _, _, _ => by
    rw [Definite.stmt] at hdef
    cases hdef
  | _, _, _, _, _, .scope hdecls hss, _, _, hdef, hΓ, hds, hn => by
    rw [List.length_append, ← Nat.add_assoc] at hn
    have hown := Nat.le_trans (Nat.le_add_right _ _) hn
    exact takes_scope hv hA hdecls hΓ.push hds.append.1 hown hdef fun hdef => takes_stmts hv hA hss
      hdef (Fits.declsTyped hdecls hΓ.push hds.append.1) hds.append.2 hn

theorem takes_stmts [IsStrictOrderedRing K] (hv : KeepsTruth value) (hA : Accepted env n) :
    ∀ {Γ : Context} {next : DeclId} {ss : List Ast.Stmt} {ss' : List Stmt} {ds : List Declaration},
      StmtsTyped Γ next ss ss' ds → ∀ {given given' : List DeclId},
      Definite.stmts α env given ss' = some given' → Fits env.decls n next Γ →
      Holds env.decls next ds → next + ds.length ≤ n →
      RunsAs value contents ps env given given' (stmts env · ss') (TakesAll F env · ss')
  | _, _, _, _, _, .nil, _, _, hdef, _, _, _ => by
    intro cond a a' ρ code x _ _ hrun _ hρ
    dsimp only at hrun
    rw [Definite.stmts] at hdef
    rw [stmts] at hrun
    cases hdef
    cases hrun
    exact ⟨ρ, .nil, hρ⟩
  | _, _, _, _, _, .cons hst hss, _, _, hdef, hΓ, hds, hn => by
    intro cond a a' ρ code x ha houter hrun hps hρ
    dsimp only at hrun
    have henv := nameable_of_accepted hA
    rw [List.length_append, ← Nat.add_assoc] at hn
    rw [Definite.stmts] at hdef
    obtain ⟨behind, hfirst, hdef⟩ := Option.bind_eq_some_iff.mp hdef
    rw [stmts] at hrun
    obtain ⟨_, _, a₁, rest, h₁, h₂, rfl⟩ := run_bind_eq_ok.mp hrun
    obtain ⟨ht₁, e₁, -, -⟩ := emits_stmt henv _ ha houter.plain _ _ _ h₁
    obtain ⟨-, e₂, -, -⟩ := emits_stmts henv _ ht₁ houter.plain _ _ _ h₂
    obtain ⟨ρ₁, htakes, hρ₁⟩ := takes_stmt hv hA hst hfirst hΓ hds.append.1
      (Nat.le_trans (Nat.le_add_right _ _) hn) ha houter h₁ (fun _ h => hps (e₂.immediates h)) hρ
    obtain ⟨ρ', hrest, hρ'⟩ := takes_stmts hv hA hss hdef (hΓ.mono (Nat.le_add_right _ _))
      hds.append.2 hn ht₁ (houter.mono e₁) h₂ hps hρ₁
    exact ⟨ρ', .cons htakes hrest, hρ'⟩

end

end Live

end Lower

/-! ## Programs -/

section Programs

variable {α K : Type} [Scalar α] [Field K] {env : Env} {n : Nat} {value : α → K}

/-- Where code generation begins: the variables are declared and nothing is emitted. -/
def Lower.start (α : Type) [Scalar α] (env : Env) : Allocator α :=
  { program := { userTemps := mutables env, userParams := constants env } }

/-- The constants that fold are loaded with truth values, those of them that have such a type. -/
theorem given_load (hv : KeepsTruth value) (hA : Accepted env n) {alloc : Allocator α}
    (ht : alloc.Tidy) (contents : Registers K) :
    Given env (Definite.constants α env)
      (load value (alloc.program.immediates ++ constants env) contents) := by
  intro id hid d r hd hr hb c hc
  obtain ⟨-, hfolds⟩ := List.mem_filter.mp hid
  rw [hd, Option.any_some, Bool.and_eq_true] at hfolds
  obtain ⟨hconst, hinit⟩ := hfolds
  rw [load_register hA ht hd hr]
  have hown : id < n := by
    by_contra hown
    obtain ⟨h, rfl⟩ := hA.predefined id d hd (Nat.not_lt.mp hown)
    cases h <;> cases hconst
  obtain ⟨Γ, ad, hdecl, hΓ⟩ := hA.own id d hd hown
  cases hdecl with
  | plain => cases hconst
  | mutable => cases hconst
  | @const _ t _ _ e _ he =>
    obtain ⟨xs, hxs⟩ := Semantics.exists_literal_of_foldsToNumbers hinit
    have hvalue : reduceOrZero env e = .ok (.constant (.literal xs), true) := by
      rw [reduceOrZero, hxs]
      rfl
    rw [initial_of_const hd rfl rfl hvalue]
    exact isTruth_ofList hv (Reduce.truths_of_reduce hv hA id hΓ he hb hxs)
      (length_of_literal hA hΓ (Nat.le_of_lt hown) he hxs) hc

variable [LinearOrder K] [IsStrictOrderedRing K]

/-- The program of a checked tree runs as `Takes` says. -/
theorem takes_execute (F : Functions K) (hv : KeepsTruth value) {body : Ast.Scope}
    {ds es : List Declaration} {Γ : Context} {stmts : List Stmt} (hA : Accepted env n)
    (hB : AcceptedBody env n body ds es Γ stmts) {given : List DeclId}
    (hdef : Definite.stmt α env (Definite.constants α env)
      (.scope (List.range' 0 ds.length) stmts) = some given)
    {u : Unit} {lines : List Line} {alloc : Allocator α}
    (hrun : Lower.run (Lower.stmt env none (.scope (List.range' 0 ds.length) stmts))
      (Lower.start α env) = .ok (u, lines, alloc))
    (contents : Registers K) :
    let a := alloc.program.append lines
    ∃ ρ, execute F value a contents = some ρ ∧
      Takes F env none (.scope (List.range' 0 ds.length) stmts)
        (Lower.start α env, load value (a.immediates ++ a.userParams) contents) (alloc, ρ) := by
  intro a
  obtain ⟨hfits, hholds, hcount⟩ := hB.start
  have hstart : (Lower.start α env).Tidy := tidy_start _ _
  have houter : Outer (Lower.start α env) none := fun _ ho => nomatch ho
  obtain ⟨ht, hext, -, -⟩ := emits_stmt (nameable_of_accepted hA) _ hstart houter.plain _ _ _ hrun
  have hloaded : Loaded value contents alloc.program.immediates
      (load value (alloc.program.immediates ++ constants env) contents) := loaded_load hA ht
  obtain ⟨ρ, htakes, -⟩ := takes_scope (F := F) hv hA hB.decls hB.fits hB.holds.append.1
    (by rw [Nat.zero_add]; exact Nat.le_trans (Nat.le_add_right _ _) hcount) hdef
    (fun hdef => takes_stmts hv hA hB.stmts hdef hfits hholds hcount) hstart houter hrun
    (fun _ h => h)
    { truth := hloaded.hasTruth ht fun _ h => h
      loaded := hloaded
      live := fun _ ho => nomatch ho
      given := given_load hv hA ht contents }
  have huser : a.userParams = constants env := hext.userParams
  -- declaring variables adds no line, so all instructions come from the body
  have hcode : a.instructions = instructions lines := by
    show instructions (alloc.program.lines ++ lines) = _
    rw [hext.lines]
    rfl
  obtain ⟨code, hrun', hm⟩ := htakes.does
  cases hrun.symm.trans hrun'
  rw [execute, huser, hcode]
  exact ⟨ρ, hm, htakes⟩

/-- **One branch of every `if` takes effect.** Take a text without parse errors, diagnostics and
loops that gives its variables of truth values a value before it reads them, and in which every
`bool(e)` folds. The compiled program runs from any contents of the registers, and it runs as
`Takes` says: every condition that is reached is one or minus one, and of the branches of its `if`
the one of that sign does its writes and the other changes no variable. -/
theorem takes_one_branch (F : Functions K) (value : α → K) (hvalue : KeepsTruth value)
    (source : Bytes) (hparse : (parse source).errors = [])
    (hcheck : (Program.ofAst (parse source).body).check.checker.errors = [])
    (hloops : (parse source).body.toStmt.loops = [])
    (hdef : Definite.program α (Program.ofAst (parse source).body).check.program = true) :
    let p := (Program.ofAst (parse source).body).check.program
    ∃ symbols body a alloc, (p.compile : Compilation α).symbols = some symbols ∧
      p.body = some body ∧ (p.compile : Compilation α).outcome = .ok a ∧
      ∀ contents : Registers K, ∃ ρ, execute F value a contents = some ρ ∧
        Takes F ⟨p.decls, symbols⟩ none (.scope body.decls body.stmts)
          (Lower.start α ⟨p.decls, symbols⟩, load value (a.immediates ++ a.userParams) contents)
          (alloc, ρ) := by
  intro p
  have helab : Elaborates (parse source).body p := elaborates_check hparse hcheck
  obtain ⟨symbols, n, ds, es, Γ, stmts, hbuild, hbody, hA, hB, a, ha⟩ :=
    compiled_of_elaborates (α := α) helab hloops
  obtain ⟨u, lines, alloc, hrun, rfl⟩ := run_of_compile hbuild hbody ha
  change Definite.program α p = true at hdef
  rw [Definite.program, hbuild, hbody, Option.isSome_iff_exists] at hdef
  obtain ⟨given, hdef⟩ := hdef
  refine ⟨symbols, _, _, alloc, ?_, hbody, ha, takes_execute F hvalue hA hB hdef hrun⟩
  rw [Program.compile, hbuild]

end Programs

/-- A constant that folds, a vector that only the two branches of an `if` give a value, and nested
conditions on its components. -/
theorem takes_one_branch_nested :
    letI := exactScalar rationalFunctions (fun _ => 0) fun _ _ => false
    let source :=
      ascii "\x7bconst bool c=1<2;bvec2 v;if(c)v=bvec2(c,!c);else v=bvec2(c,c);" ++
        ascii "if(v[1]){if(v[0])v[1]=c;}\x7d"
    let p := (Program.ofAst (parse source).body).check.program
    (parse source).errors = [] ∧
    (Program.ofAst (parse source).body).check.checker.errors = [] ∧
    (parse source).body.toStmt.loops = [] ∧ Definite.program ℚ p = true ∧
    ∃ symbols body a alloc, (p.compile : Compilation ℚ).symbols = some symbols ∧
      p.body = some body ∧ (p.compile : Compilation ℚ).outcome = .ok a ∧
      ∀ contents : Registers ℚ, ∃ ρ, execute rationalFunctions id a contents = some ρ ∧
        Takes rationalFunctions ⟨p.decls, symbols⟩ none (.scope body.decls body.stmts)
          (Lower.start ℚ ⟨p.decls, symbols⟩, load id (a.immediates ++ a.userParams) contents)
          (alloc, ρ) := by
  let _ := exactScalar rationalFunctions (fun _ => 0) fun _ _ => false
  intro source p
  have hyps : (isCompilable source && Definite.program ℚ p) = true := by decide +kernel
  rw [Bool.and_eq_true, isCompilable_iff] at hyps
  obtain ⟨⟨hparse, hcheck, hloops⟩, hdef⟩ := hyps
  exact ⟨hparse, hcheck, hloops, hdef, takes_one_branch rationalFunctions id
    (keepsTruth_exactScalar rationalFunctions (fun _ => 0) fun _ _ => false) _ hparse hcheck hloops
    hdef⟩

/-! ## Both branches

Without a value of its own a variable of truth values is zero. Zero is not negative, and neither is
its opposite. -/

/-- The code of `{bool b; if (b) gl_FragColor = env1; else gl_FragDepth = true;}`. -/
def bothBranches : List Instruction :=
  [⟨.mov, .of (.user (ascii "b") 0), [.of .zero]⟩] ++
  (Component.all.map fun c => ⟨.mov, (Operand.of (.temp 0)).component c,
    [(Operand.of (.user (ascii "b") 0)).component .x]⟩) ++
  [⟨.mov, .of (.longLived 0), [.of (.temp 0)]⟩,
    ⟨.cmp, .of (.hardware .fragColor),
      [.of (.longLived 0), .of (.hardware .fragColor), .of (.hardware .env1)]⟩,
    ⟨.mov, .of (.longLived 0), [(Operand.of (.longLived 0)).neg]⟩,
    ⟨.cmp, .of (.hardware .fragDepth),
      [.of (.longLived 0), .of (.hardware .fragDepth), .of (.immediate 0)]⟩]

theorem run_bothBranches {K : Type} [Field K] [LinearOrder K] (F : Functions K) {ρ : Registers K}
    (hzero : ρ .zero = 0) :
    ∃ ρ', run F bothBranches ρ = some ρ' ∧ ρ' (.hardware .fragColor) = ρ (.hardware .env1) ∧
      ρ' (.hardware .fragDepth) = ρ (.immediate 0) := by
  have hx : ρ .zero .x = 0 := congrFun hzero .x
  refine ⟨_, rfl, ?_, ?_⟩
  · funext c
    have hset : ¬ρ .zero .x < 0 := by rw [hx]; exact lt_irrefl 0
    cases c <;> exact if_neg hset
  · funext c
    have hset : ¬-ρ .zero .x < 0 := by rw [hx, neg_zero]; exact lt_irrefl 0
    cases c <;> exact if_neg hset

/-- **Both branches of an `if` take effect** where its condition is a variable without a value. The
text is accepted and has no loop; from any contents of the registers its program sets the color, as
the one branch says, and the depth, as the other says. -/
theorem both_branches_of_undefined :
    letI := exactScalar rationalFunctions (fun _ => 0) fun _ _ => false
    let source := ascii "{bool b; if (b) gl_FragColor = env1; else gl_FragDepth = true;}"
    let p := (Program.ofAst (parse source).body).check.program
    (parse source).errors = [] ∧
    (Program.ofAst (parse source).body).check.checker.errors = [] ∧
    (parse source).body.toStmt.loops = [] ∧
    ∃ a, (p.compile : Compilation ℚ).outcome = .ok a ∧
      ∀ contents : Registers ℚ, ∃ ρ, execute rationalFunctions id a contents = some ρ ∧
        ρ (.hardware .fragColor) = contents (.hardware .env1) ∧
        ρ (.hardware .fragDepth) = .splat 1 := by
  let _ := exactScalar rationalFunctions (fun _ => 0) fun _ _ => false
  intro source p
  have hyps :
      (isCompilable source && (p.compile : Compilation ℚ).outcome.toOption.any fun a =>
        a.instructions == bothBranches &&
          a.immediates ++ a.userParams == [⟨.truth true, .truth true⟩, ⟨.truth false, .truth false⟩,
            ⟨.zero, .zeros 4⟩, ⟨.immediate 0, .constant (.literal [1])⟩]) = true := by
    decide +kernel
  rw [Bool.and_eq_true, isCompilable_iff] at hyps
  obtain ⟨⟨hparse, hcheck, hloops⟩, hcode⟩ := hyps
  refine ⟨hparse, hcheck, hloops, ?_⟩
  generalize (p.compile : Compilation ℚ).outcome = outcome at hcode ⊢
  cases outcome with
  | error _ => cases hcode
  | ok a =>
    rw [Except.toOption, Option.any_some, Bool.and_eq_true, beq_iff_eq, beq_iff_eq] at hcode
    obtain ⟨hinstructions, hparams⟩ := hcode
    refine ⟨a, rfl, fun contents => ?_⟩
    rw [execute, hinstructions, hparams]
    exact run_bothBranches rationalFunctions rfl

end Shader
