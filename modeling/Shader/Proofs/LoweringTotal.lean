import Shader.Compilation
import Shader.Proofs.CheckerExact
import Shader.Proofs.Folding

/-!
# Accepted programs can be lowered

Every step of code generation on an accepted program succeeds, but for a loop, which is where it
stops. So compiling gives a program exactly if there is no loop, and otherwise the position of the
first one in the order of the text.

`Yields` says that a step succeeds from every allocator, with a result that has a property, and it
goes through `do` like the steps themselves. `Ends` is the same for statements: success if a list of
loop positions is empty, and failure at the first of them if not.
-/

namespace Shader.Ast

mutual

/-- The positions of the loops in a statement, in the order of the text. -/
def Stmt.loops : Stmt → List Pos
  | .assign _ _ => []
  | .branch _ yes none => yes.loops
  | .branch _ yes (some no) => yes.loops ++ no.loops
  | .loop pos _ body => pos :: body.loops
  | .scope _ ss => Stmt.listLoops ss

def Stmt.listLoops : List Stmt → List Pos
  | [] => []
  | s :: ss => s.loops ++ Stmt.listLoops ss

end

end Shader.Ast

namespace Shader

/-- The lines of compiled code: instructions, comments about an `if`, and empty lines. -/
def Line.Regular : Line → Prop
  | .instr _ => True
  | .comment t => ∃ m : Lower.Mark, t = m.text
  | .blank => True
  | .absent => False

end Shader

namespace Shader.Lower

open Program (Expr Stmt)
open Number (Scalar)
open TypeSystem

/-! ## What all steps have in common

A property of steps of code generation that is closed under `do` and holds of the steps that
allocate and emit is one of all code for operators, functions and conditions.
-/

/-- A property of steps that goes through `do`, and that a step has which emits lines or takes a
register. -/
structure Stepwise {α : Type} (P : ∀ β : Type, Lower α β → Prop) : Prop where
  pure : ∀ {β : Type} (b : β), P β (pure b)
  bind : ∀ {β γ : Type} {m : Lower α β} {f : β → Lower α γ}, P β m → (∀ b, P γ (f b)) →
    P γ (m >>= f)
  emit : ∀ {lines : List Line}, (∀ l ∈ lines, l.Regular) → P Unit (emit lines)
  temp : P Operand temp
  longLived : P Operand longLived
  reset : P Unit resetSession

namespace Stepwise

variable {α : Type} {P : ∀ β : Type, Lower α β → Prop} (h : Stepwise P)

include h

theorem instr (op : Opcode) (dst : Operand) (src : List Operand) : P Unit (instr op dst src) :=
  h.emit fun l hl => by
    cases List.mem_singleton.mp hl
    trivial

theorem instrs {δ : Type} (ds : List δ) (f : δ → Instruction) :
    P Unit (Lower.emit (ds.map fun d => .instr (f d))) :=
  h.emit fun l hl => by
    obtain ⟨d, -, rfl⟩ := List.mem_map.mp hl
    trivial

theorem comment (m : Mark) : P Unit (comment m) :=
  h.emit fun l hl => by
    cases List.mem_singleton.mp hl
    exact ⟨m, rfl⟩

theorem blank : P Unit blank :=
  h.emit fun l hl => by
    cases List.mem_singleton.mp hl
    trivial

/-- An instruction into a register of its own. -/
theorem result (op : Opcode) (src : List Operand) : P Operand (do
    let res ← Lower.temp
    Lower.instr op res src
    return res) :=
  h.bind h.temp fun _ => h.bind (h.instr _ _ _) fun _ => h.pure _

theorem quotient {t : Ty} (l r : Operand)
    (ht : t.isScalar = true ∨ P _ (ofExcept (vectorComponents t.order))) :
    P Operand (quotient l r t) := by
  refine h.bind h.temp fun res => h.bind h.temp fun inverse => ?_
  have hend := h.bind (h.instr .mul res [l, inverse]) fun _ => h.pure res
  dsimp only
  split
  case isTrue => exact h.bind (h.instr _ _ _) fun _ => hend
  case isFalse hscalar =>
    exact h.bind (ht.resolve_left hscalar) fun _ => h.bind (h.instrs _ _) fun _ => hend

theorem power {t : Ty} (l r : Operand)
    (ht : t.isScalar = true ∨ P _ (ofExcept (vectorComponents t.order))) :
    P Operand (power l r t) := by
  refine h.bind h.temp fun res => ?_
  dsimp only
  split
  case isTrue => exact h.bind (h.instr _ _ _) fun _ => h.pure _
  case isFalse hscalar =>
    exact h.bind (ht.resolve_left hscalar) fun _ => h.bind (h.instrs _ _) fun _ => h.pure _

theorem compare (a b c d : Operand) : P Operand (compare a b c d) :=
  h.bind h.temp fun _ => h.bind h.temp fun _ => h.bind (h.instr _ _ _) fun _ =>
    h.bind (h.instr _ _ _) fun _ => h.pure _

theorem equal {t : Ty} (l r : Operand) (ht : P _ (ofExcept (vectorComponents t.order))) :
    P Operand (equal l r t) := by
  refine h.bind h.temp fun res => h.bind h.temp fun other =>
    h.bind (h.instr _ _ _) fun _ => h.bind (h.instr _ _ _) fun _ =>
    h.bind (h.instr _ _ _) fun _ => h.bind (h.instr _ _ _) fun _ =>
    h.bind (h.instr _ _ _) fun _ => ?_
  split
  · exact h.pure _
  · exact h.bind ht fun _ => h.bind (h.instr _ _ _) fun _ => h.bind (h.instrs _ _) fun _ =>
      h.pure _

theorem notEqual {t : Ty} (l r : Operand) (ht : P _ (ofExcept (vectorComponents t.order)))
    (left : Ty) (right : Ty) : P Operand (binary .ne l r t left right) :=
  h.bind (h.equal l r ht) fun _ => h.bind (h.instr _ _ _) fun _ => h.pure _

/-- Every operator is a few instructions, or a defect. -/
theorem binary (op : BinaryOp) (l r : Operand) {left right type : Ty}
    (hfail : ∀ d, P Operand (fail (.internal d)))
    (hl : P _ (ofExcept (vectorComponents left.order)))
    (hr : P _ (ofExcept (vectorComponents right.order)))
    (ht : P _ (ofExcept (vectorComponents type.order))) :
    P Operand (binary op l r left right type) := by
  cases op with
  | add | sub | mul | and | or => exact h.result _ _
  | div => exact h.quotient l r (.inr hr)
  | pow => exact h.power l r (.inr ht)
  | lt | gt | le | ge => exact h.compare _ _ _ _
  | eq => exact h.equal l r hl
  | ne => exact h.notEqual l r hl _ _
  | unknown => exact hfail _

/-- Every function is an instruction, or a defect. -/
theorem call (hfail : ∀ d, P Operand (fail (.internal d))) (func : Bytes) (args : List Operand) :
    P Operand (call func args) := by
  unfold Lower.call
  split
  · exact hfail _
  · split
    · exact h.result _ _
    · exact h.result _ _
    · exact h.result _ _
    · exact hfail _

theorem assemble (args : List Operand) : P Operand (assemble args) :=
  h.bind h.temp fun _ => h.bind (h.instrs _ _) fun _ => h.pure _

theorem beginStatement : P Unit beginStatement := h.bind h.blank fun _ => h.reset

theorem write (cond : Option Operand) (dst value : Operand) : P Unit (write cond dst value) := by
  cases cond <;> exact h.instr _ _ _

/-- A declaration writes its initializer, or zeros, to its register, unless it is that of a
constant. -/
theorem decl [Scalar α] {env : Env} (cond : Option Operand) {id : DeclId}
    (hreg : ∀ name, P Operand (register env { name := name, decl := some id }))
    (hinit : ∀ d init, env.decls[id]? = some d → d.isConst = false → d.init = some init →
      P Operand (expr env init)) : P Unit (decl env cond id) := by
  unfold Lower.decl
  split
  · exact h.pure _
  · rename_i d hd
    split
    · exact h.pure _
    · rename_i hconst
      have hend : ∀ value, P Unit (do
          let reg ← register env { name := d.name, decl := some id }
          Lower.write cond reg value) := fun _ => h.bind (hreg _) fun _ => h.write _ _ _
      refine h.bind h.beginStatement fun _ => ?_
      dsimp only
      split
      · rename_i init hi
        exact h.bind (hinit d init hd (Bool.eq_false_iff.mpr hconst) hi) hend
      · exact h.bind (h.pure _) hend

theorem decls [Scalar α] {env : Env} (cond : Option Operand) :
    ∀ ids : List DeclId, (∀ id ∈ ids, P Unit (Lower.decl env cond id)) →
      P Unit (decls env cond ids)
  | [], _ => h.pure _
  | id :: ids, hids => by
    obtain ⟨hid, hrest⟩ := List.forall_mem_cons.mp hids
    exact h.bind hid fun _ => decls cond ids hrest

/-- The condition of an `if` is its expression, copied into a register that lasts. -/
theorem enterIf [Scalar α] {env : Env} (cond : Option Operand) {e : Expr}
    (he : P Operand (expr env e)) : P Operand (enterIf env cond e) := by
  refine h.bind h.blank fun _ => h.bind (h.comment _) fun _ => h.bind h.reset fun _ =>
    h.bind he fun _ => h.bind (h.bind h.temp fun _ => h.bind (h.instrs _ _) fun _ => h.pure _)
      fun _ => h.bind h.longLived fun _ => ?_
  cases cond <;> exact h.bind (h.comment _) fun _ => h.bind (h.instr _ _ _) fun _ => h.pure _

theorem enterElse (cond : Option Operand) (combined : Operand) :
    P Unit (enterElse cond combined) := by
  refine h.bind h.blank fun _ => ?_
  cases cond <;> exact h.bind (h.comment _) fun _ => h.instr _ _ _

end Stepwise

/-! ## Steps that succeed -/

section Yields

variable {α β γ : Type}

/-- A step that succeeds from every allocator, with a result that has a property. -/
def Yields (m : Lower α β) (P : β → Prop) : Prop :=
  ∀ a, ∃ b code a', run m a = .ok (b, code, a') ∧ P b

/-- A step that succeeds from every allocator. -/
abbrev Runs (m : Lower α β) : Prop := Yields m fun _ => True

theorem yields_pure {b : β} {P : β → Prop} (h : P b) : Yields (pure b : Lower α β) P :=
  fun a => ⟨b, [], a, rfl, h⟩

/-- Steps that succeed can follow each other, with what is known of the first result. -/
theorem yields_bind {m : Lower α β} {f : β → Lower α γ} {P : β → Prop} {Q : γ → Prop}
    (hm : Yields m P) (hf : ∀ b, P b → Yields (f b) Q) : Yields (m >>= f) Q := by
  intro a
  obtain ⟨b, code, a₁, hrun, hb⟩ := hm a
  obtain ⟨c, more, a₂, hrun', hc⟩ := hf b hb a₁
  exact ⟨c, code ++ more, a₂, run_bind_eq_ok.mpr ⟨b, code, a₁, more, hrun, hrun', rfl⟩, hc⟩

theorem runs_bind {m : Lower α β} {f : β → Lower α γ} {Q : γ → Prop} (hm : Runs m)
    (hf : ∀ b, Yields (f b) Q) : Yields (m >>= f) Q := yields_bind hm fun b _ => hf b

theorem runs_immediate (v : ParamValue α) : Runs (immediate v) := fun _ => ⟨_, _, _, rfl, trivial⟩

/-- Emitting lines and taking registers succeeds. -/
theorem runs : Stepwise (α := α) fun _ m => Runs m where
  pure _ := yields_pure trivial
  bind := runs_bind
  emit _ _ := ⟨_, _, _, rfl, trivial⟩
  temp _ := ⟨_, _, _, rfl, trivial⟩
  longLived _ := ⟨_, _, _, rfl, trivial⟩
  reset _ := ⟨_, _, _, rfl, trivial⟩

/-- A computation that is known to succeed. -/
theorem yields_ofExcept {r : Except Failure β} {b : β} {P : β → Prop} (h : r = .ok b) (hb : P b) :
    Yields (ofExcept r : Lower α β) P := by
  intro a
  rw [h]
  exact ⟨b, [], a, rfl, hb⟩

end Yields

/-! ## Operators -/

section Operators

variable {α : Type}

/-- A type with a name has at most four components. -/
theorem vectorComponents_ok {t : Ty} (ht : Named t) :
    vectorComponents t.order = .ok (Component.all.take t.order.toNat) := by
  rw [vectorComponents, if_pos (by have := ht.2; omega)]

theorem runs_vectorComponents {t : Ty} (ht : Named t) :
    Runs (ofExcept (vectorComponents t.order) : Lower α _) :=
  yields_ofExcept (vectorComponents_ok ht) trivial

/-- **An operator whose operands have fitting types is lowered.** The cases in which code generation
gives up are those that no rule allows. -/
theorem runs_binary {op : BinaryOp} {lt rt t : Ty} (h : BinaryRule op lt rt t) (hlt : Named lt)
    (l r : Operand) : Runs (binary op l r lt rt t : Lower α Operand) := by
  cases h with
  | add => exact runs.result _ _
  | sub => exact runs.result _ _
  | mul => exact runs.result _ _
  | scaleLeft => exact runs.result _ _
  | scaleRight => exact runs.result _ _
  | div => exact runs.quotient _ _ (.inl rfl)
  | pow => exact runs.power _ _ (.inl rfl)
  | and => exact runs.result _ _
  | or => exact runs.result _ _
  | order hop =>
    simp only [List.mem_cons, List.not_mem_nil, or_false] at hop
    rcases hop with rfl | rfl | rfl | rfl <;> exact runs.compare _ _ _ _
  | equate hop =>
    simp only [List.mem_cons, List.not_mem_nil, or_false] at hop
    rcases hop with rfl | rfl
    · exact runs.equal _ _ (runs_vectorComponents hlt)
    · exact runs.notEqual _ _ (runs_vectorComponents hlt) _ _

/-- **So is a call with as many arguments as the rule of its function has.** -/
theorem runs_call {f : Function} {ts : List Ty} {t : Ty} (h : CallRule f ts t)
    {args : List Operand} (hargs : args.length = ts.length) :
    Runs (call f.name args : Lower α Operand) := by
  rw [call, Checker.ofName?_name]
  cases h with
  | rsq =>
    obtain ⟨x, rfl⟩ := List.length_eq_one_iff.mp hargs
    exact runs.result _ _
  | dp3 =>
    obtain ⟨x, y, rfl⟩ := List.length_eq_two.mp hargs
    exact runs.result _ _
  | lit =>
    obtain ⟨x, rfl⟩ := List.length_eq_one_iff.mp hargs
    exact runs.result _ _

end Operators

/-! ## Expressions -/

section Exprs

variable {α : Type} [Scalar α] {env : Env} {n next : Nat} {Γ : Context}

omit [Scalar α] in
/-- A variable with a register is lowered to it, without code. -/
theorem register_eq_pure {id : DeclId} {r : Register} (h : env.symbols.register? id = some r)
    (name : Bytes) (pos : Pos) :
    register env ⟨name, some id, pos⟩ = (pure (.of r) : Lower α Operand) := by
  rw [register, Symbols.registerOf, h]
  rfl

theorem ofIndex?_of_lt {i : Nat} (hi : i < 4) :
    Component.ofIndex? (i : Int) = some (Component.all.get ⟨i, hi⟩) := by
  rw [Component.ofIndex?, if_neg (by omega), Int.toNat_natCast]
  exact List.getElem?_eq_getElem hi

theorem componentOf_ok {i : Nat} (hi : i < 4) :
    componentOf (i : Int) = .ok (Component.all.get ⟨i, hi⟩) := by
  rw [componentOf, ofIndex?_of_lt hi]

omit [Scalar α] in
theorem indexed_eq_pure {id : DeclId} {r : Register} (h : env.symbols.register? id = some r)
    (name : Bytes) (pos : Pos) {i : Nat} (hi : i < 4) :
    indexed env ⟨name, some id, pos⟩ i =
      (pure ((Operand.of r).component (Component.all.get ⟨i, hi⟩)) : Lower α Operand) := by
  rw [indexed, register_eq_pure h, componentOf_ok hi]
  rfl

/-- The register of a variable in scope. -/
theorem exists_register (hA : Accepted env n) (hΓ : Fits env.decls n next Γ) {name : Bytes}
    {x : Variable} (hx : Γ.Finds name x) : ∃ r, env.symbols.register? x.id = some r := by
  obtain ⟨d, hd, -, -, -⟩ := hΓ.lists.decl_of_finds hx
  obtain ⟨r, hr, -⟩ := hA.listed x.id d hd
  exact ⟨r, hr⟩

/-- An index within a variable of a type with a name is that of one of the four components. -/
theorem lt_four_of_finds (hΓ : Γ.Named) {name : Bytes} {x : Variable} (hx : Γ.Finds name x)
    {i : Nat} (hi : i < x.type.order) : i < 4 := by
  obtain ⟨b, hb, hmem⟩ := hx.mem
  have hle : x.type.order ≤ 4 := (hΓ b hb _ hmem).2.2
  omega

omit [Scalar α] in
/-- What the rules let be assigned to can be lowered. -/
theorem runs_access (hA : Accepted env n) (hΓ : Fits env.decls n next Γ) {v : Ast.Var} {v' : Expr}
    {x : Variable} {t : Ty} (h : Access Γ v v' x t) :
    Runs (target env v' : Lower α Operand) := by
  cases h with
  | whole hx =>
    obtain ⟨r, hr⟩ := exists_register hA hΓ hx
    rw [target, register_eq_pure hr]
    exact yields_pure trivial
  | component hx _ hi =>
    obtain ⟨r, hr⟩ := exists_register hA hΓ hx
    rw [target, indexed_eq_pure hr _ _ (lt_four_of_finds hΓ.named hx hi)]
    exact yields_pure trivial

theorem expr_access {v : Ast.Var} {v' : Expr} {x : Variable} {t : Ty} (h : Access Γ v v' x t) :
    (expr env v' : Lower α Operand) = target env v' := by
  cases h with
  | whole => rw [expr, target]
  | component => rw [expr, target]

omit [Scalar α] in
/-- A checked expression carries the type of its derivation. -/
theorem type_of_typed {decls : List Declaration} (hl : Lists decls Γ) {e : Ast.Expr} {e' : Expr}
    {t : Ty} (h : Typed Γ e e' t) : e'.type decls = t := by
  cases h with
  | var ha hq =>
    cases ha with
    | whole hx =>
      obtain ⟨d, hd, -, ht, -⟩ := hl.decl_of_finds hx
      rw [Expr.type, Program.refType, Option.bind_some, hd]
      exact ht
    | component => rfl
  | _ => rfl

mutual

/-- **A typed expression can be lowered.** -/
theorem runs_expr (hA : Accepted env n) (hΓ : Fits env.decls n next Γ) (hn : next ≤ n) :
    ∀ {e : Ast.Expr} {e' : Expr} {t : Ty}, Typed Γ e e' t → Runs (expr env e' : Lower α Operand)
  | _, _, _, .int => by rw [expr]; exact runs_immediate _
  | _, _, _, .float => by rw [expr]; exact runs_immediate _
  | _, _, _, .bool => by rw [expr]; exact runs_immediate _
  | _, _, _, .var ha _ => by
    rw [expr_access ha]
    exact runs_access hA hΓ ha
  | _, _, _, .unary he _ => by
    rw [expr]
    exact runs_bind (runs_expr hA hΓ hn he) fun _ => runs.result _ _
  | _, _, _, .binary he hf hop => by
    rw [expr, type_of_typed hΓ.lists he, type_of_typed hΓ.lists hf]
    exact runs_bind (runs_expr hA hΓ hn he) fun l => runs_bind (runs_expr hA hΓ hn hf) fun r =>
      runs_binary hop (he.named hΓ.named) l r
  | _, _, _, .call hargs hcall => by
    rw [expr]
    exact yields_bind (yields_exprs hA hΓ hn hargs) fun os hos => runs_call hcall hos
  | _, _, _, h@(.construct ht hargs) => by
    obtain ⟨c, hc, -⟩ := Reduce.folds_reduce (α := α) hA hΓ hn h
    rw [expr]
    refine yields_bind (yields_ofExcept hc (rfl : c = c)) fun c' hc' => ?_
    split
    · exact runs_immediate _
    · have hlen := hargs.length
      rw [List.length_replicate] at hlen
      rw [if_pos (by rw [hlen]; exact Int.ofNat_le.mp ht.2.2)]
      exact yields_bind (yields_exprs hA hΓ hn hargs) fun _ _ => runs.assemble _

/-- Arguments, of which there are as many as operands. -/
theorem yields_exprs (hA : Accepted env n) (hΓ : Fits env.decls n next Γ) (hn : next ≤ n) :
    ∀ {es : List Ast.Expr} {es' : List Expr} {ts : List Ty}, TypedList Γ es es' ts →
      Yields (exprs env es' : Lower α (List Operand)) fun os => os.length = ts.length
  | _, _, _, .nil => by rw [exprs]; exact yields_pure rfl
  | _, _, _, .cons he hes => by
    rw [exprs]
    exact runs_bind (runs_expr hA hΓ hn he) fun _ =>
      yields_bind (yields_exprs hA hΓ hn hes) fun os hos => yields_pure (by simp [hos])

end

end Exprs

/-! ## Statements -/

/-- A step that succeeds if there are no loops, and stops at the first if there are. -/
def Ends {α : Type} (loops : List Pos) (m : Lower α Unit) : Prop :=
  match loops with
  | [] => Runs m
  | pos :: _ => ∀ a, run m a = .error (.loop pos)

section Ends

variable {α β : Type} {ps qs : List Pos}

/-- A step without loops in front changes nothing about where lowering ends. -/
theorem ends_bind {m : Lower α β} {f : β → Lower α Unit} (hm : Runs m) (hf : ∀ b, Ends ps (f b)) :
    Ends ps (m >>= f) := by
  cases ps with
  | nil => exact runs_bind hm hf
  | cons pos rest =>
    intro a
    obtain ⟨b, code, a', hrun, -⟩ := hm a
    rw [run_bind, hrun]
    dsimp only
    rw [hf b a']

/-- Lowering two parts ends at the first loop of the first part, or else at the first of the
second. -/
theorem ends_append {m : Lower α Unit} {f : Unit → Lower α Unit} (hm : Ends ps m)
    (hf : ∀ u, Ends qs (f u)) : Ends (ps ++ qs) (m >>= f) := by
  cases ps with
  | nil => exact ends_bind hm hf
  | cons pos rest =>
    intro a
    rw [run_bind, hm a]

end Ends

section Stmts

variable {α : Type} [Scalar α] {env : Env} {n : Nat}

theorem runs_decl (hA : Accepted env n) {id : DeclId} (hid : id < n) (cond : Option Operand) :
    Runs (decl env cond id : Lower α Unit) := by
  have hd := List.getElem?_eq_getElem (Nat.lt_trans hid hA.room)
  obtain ⟨r, hr, -⟩ := hA.listed id _ hd
  refine runs.decl cond (fun name => ?_) fun d init hd hconst hinit => ?_
  · rw [register_eq_pure hr]
    exact yields_pure trivial
  · obtain ⟨Γ, a, hdecl, hΓ⟩ := hA.own id d hd hid
    cases hdecl with
    | plain => cases hinit
    | mutable _ he =>
      cases hinit
      exact runs_expr hA hΓ (Nat.le_of_lt hid) he
    | const _ _ => cases hconst

mutual

/-- **Lowering a typed statement stops at its first loop**, and nowhere else. -/
theorem ends_stmt (hA : Accepted env n) :
    ∀ {Γ : Context} {next : DeclId} {st : Ast.Stmt} {st' : Stmt} {ds : List Declaration},
      StmtTyped Γ next st st' ds → Fits env.decls n next Γ → Holds env.decls next ds →
      next + ds.length ≤ n → ∀ cond, Ends st.loops (stmt env cond st' : Lower α Unit)
  | _, _, _, _, _, .assign hv hq he, hΓ, _, hn, cond => by
    rw [stmt, Ast.Stmt.loops]
    exact runs_bind runs.beginStatement fun _ => runs_bind (runs_expr hA hΓ hn he) fun value =>
      runs_bind (runs_access hA hΓ hv) fun dst => runs.write cond dst value
  | _, _, _, _, _, .ifThen hc hst, hΓ, hds, hn, cond => by
    have hnext := Nat.le_trans (Nat.le_add_right _ _) hn
    rw [stmt, Ast.Stmt.loops]
    exact ends_bind (runs.enterIf cond (runs_expr hA hΓ hnext hc)) fun combined =>
      ends_stmt hA hst hΓ hds hn (some combined)
  | _, next, _, _, _, @StmtTyped.ifElse _ _ _ _ _ _ _ _ ds es hc hst hno, hΓ, hds, hn, cond => by
    have hnext := Nat.le_trans (Nat.le_add_right _ _) hn
    rw [List.length_append, ← Nat.add_assoc] at hn
    have hyes := Nat.le_trans (Nat.le_add_right _ _) hn
    rw [stmt, Ast.Stmt.loops]
    exact ends_bind (runs.enterIf cond (runs_expr hA hΓ hnext hc)) fun combined =>
      ends_append (ends_stmt hA hst hΓ hds.append.1 hyes (some combined)) fun _ =>
      ends_bind (runs.enterElse cond combined) fun _ =>
        ends_stmt hA hno (hΓ.mono (Nat.le_add_right _ _)) hds.append.2 hn (some combined)
  | _, _, _, _, _, .loop _ _, _, _, _, cond => by
    rw [stmt, Ast.Stmt.loops]
    intro a
    rfl
  | _, next, _, _, _, @StmtTyped.scope _ _ _ _ ds es _ _ hdecls hss, hΓ, hds, hn, cond => by
    rw [List.length_append, ← Nat.add_assoc] at hn
    have hown := Nat.le_trans (Nat.le_add_right _ _) hn
    have hΓ' := Fits.declsTyped hdecls hΓ.push hds.append.1
    rw [stmt, Ast.Stmt.loops]
    refine ends_bind (runs.decls cond _ fun id hid => runs_decl hA ?_ cond) fun _ =>
      ends_stmts hA hss hΓ' hds.append.2 hn cond
    exact Nat.lt_of_lt_of_le (List.mem_range'_1.mp hid).2 hown

theorem ends_stmts (hA : Accepted env n) :
    ∀ {Γ : Context} {next : DeclId} {ss : List Ast.Stmt} {ss' : List Stmt} {ds : List Declaration},
      StmtsTyped Γ next ss ss' ds → Fits env.decls n next Γ → Holds env.decls next ds →
      next + ds.length ≤ n →
      ∀ cond, Ends (Ast.Stmt.listLoops ss) (stmts env cond ss' : Lower α Unit)
  | _, _, _, _, _, .nil, _, _, _, cond => by
    rw [stmts, Ast.Stmt.listLoops]
    exact yields_pure trivial
  | _, _, _, _, _, @StmtsTyped.cons _ _ _ _ _ _ ds es hst hss, hΓ, hds, hn, cond => by
    rw [List.length_append, ← Nat.add_assoc] at hn
    have hhead := Nat.le_trans (Nat.le_add_right _ _) hn
    rw [stmts, Ast.Stmt.listLoops]
    exact ends_append (ends_stmt hA hst hΓ hds.append.1 hhead cond) fun _ =>
      ends_stmts hA hss (hΓ.mono (Nat.le_add_right _ _)) hds.append.2 hn cond

end

end Stmts

end Shader.Lower

/-! ## Programs -/

namespace Shader

open Number (Scalar)
open TypeSystem

section Programs

variable {α : Type} [Scalar α] {env : Env} {n : Nat}

theorem exists_reduceOrZero (hA : Accepted env n) {next : Nat} {Γ : Context}
    (hΓ : Fits env.decls n next Γ) (hn : next ≤ n) {e : Ast.Expr} {e' : Program.Expr} {t : Ty}
    (h : Typed Γ e e' t) : ∃ value folded, reduceOrZero (α := α) env e' = .ok (value, folded) := by
  obtain ⟨c, hc, -⟩ := Reduce.folds_reduce (α := α) hA hΓ hn h
  rw [reduceOrZero, hc]
  cases c with
  | none => exact ⟨_, _, rfl⟩
  | some c => exact ⟨_, _, rfl⟩

/-- The variables of an accepted program can be declared. -/
theorem exists_declare (hA : Accepted env n) (entries : List (DeclId × Register))
    (a : Assembly α) :
    ∃ notes a', Compilation.declare env entries a = (notes, .ok a') := by
  induction entries generalizing a with
  | nil => exact ⟨[], a, rfl⟩
  | cons entry rest ih =>
    obtain ⟨id, reg⟩ := entry
    rw [Compilation.declare]
    cases hd : env.decls[id]? with
    | none => exact ih a
    | some d =>
      rcases Nat.lt_or_ge id n with hid | hid
      · obtain ⟨Γ, decl, hdecl, hΓ⟩ := hA.own id d hd hid
        cases hdecl with
        | plain => exact ih _
        | mutable => exact ih _
        | @const pos t name _ e' _ he =>
          obtain ⟨value, folded, hvalue⟩ :=
            exists_reduceOrZero (α := α) hA hΓ (Nat.le_of_lt hid) he
          obtain ⟨notes, a', hrest⟩ := ih (a.declareUserParam reg value)
          refine ⟨⟨pos, t, name, value, folded⟩ :: notes, a', ?_⟩
          dsimp only [Declaration.isOrdinary, Declaration.isConst]
          rw [hvalue]
          dsimp only
          rw [hrest]
          rfl
      · obtain ⟨h, rfl⟩ := hA.predefined id d hd hid
        dsimp only
        rw [isOrdinary_ofHardware]
        exact ih a

/-- Compiling a checked program gives an assembly, or stops at the first loop of the text. -/
theorem outcome_of_elaborates {body : Ast.Scope} {p : Program} (h : Elaborates body p) :
    match body.toStmt.loops with
    | [] => ∃ a, (p.compile : Compilation α).outcome = .ok a
    | pos :: _ => (p.compile : Compilation α).outcome = .error (.loop pos) := by
  obtain ⟨symbols, n, ds, es, Γ, stmts, hbuild, hbody, hA, hB⟩ := accepted_of_elaborates h
  obtain ⟨notes, a, hdeclare⟩ := exists_declare (α := α) hA symbols.entries {}
  obtain ⟨hfits, hholds, hcount⟩ := hB.start
  have hends : Lower.Ends body.toStmt.loops
      (Lower.stmt ⟨p.decls, symbols⟩ none (.scope (List.range' 0 ds.length) stmts) :
        Lower α Unit) := by
    rw [Lower.stmt, Ast.Scope.toStmt, Ast.Stmt.loops]
    refine Lower.ends_bind
      (Lower.runs.decls none _ fun id hid => Lower.runs_decl hA ?_ none) fun _ =>
      Lower.ends_stmts hA hB.stmts hfits hholds hcount none
    rw [List.mem_range'_1, Nat.zero_add] at hid
    exact Nat.lt_of_lt_of_le hid.2 (Nat.le_trans (Nat.le_add_right _ _) hcount)
  rw [Program.compile, hbuild]
  dsimp only
  rw [hdeclare, hbody]
  dsimp only [Compilation.emit]
  cases hloops : body.toStmt.loops with
  | nil =>
    rw [hloops] at hends
    obtain ⟨u, lines, alloc, hrun, -⟩ := hends { program := a }
    rw [hrun]
    exact ⟨_, rfl⟩
  | cons pos rest =>
    rw [hloops] at hends
    dsimp only
    rw [hends { program := a }]

/-- A checked program without loops is accepted and compiled. -/
theorem compiled_of_elaborates {body : Ast.Scope} {p : Program} (h : Elaborates body p)
    (hloops : body.toStmt.loops = []) :
    ∃ symbols n ds es Γ stmts, Symbols.build p = .ok symbols ∧
      p.body = some ⟨List.range' 0 ds.length, stmts⟩ ∧ Accepted ⟨p.decls, symbols⟩ n ∧
      AcceptedBody ⟨p.decls, symbols⟩ n body ds es Γ stmts ∧
      ∃ a, (p.compile : Compilation α).outcome = .ok a := by
  obtain ⟨symbols, n, ds, es, Γ, stmts, hbuild, hbody, hA, hB⟩ := accepted_of_elaborates h
  have houtcome := outcome_of_elaborates (α := α) h
  rw [hloops] at houtcome
  exact ⟨symbols, n, ds, es, Γ, stmts, hbuild, hbody, hA, hB, houtcome⟩

end Programs

/-- **A checked text compiles, unless it has a loop.** For a text without parse errors and without
diagnostics, compiling never meets a defect of the tree: it gives an assembly if and only if the
tree has no loop, and otherwise it stops at the first loop in the order of the text. -/
theorem compile_fails_only_at_loops {α : Type} [Scalar α] (source : Bytes)
    (hparse : (parse source).errors = [])
    (hcheck : (Program.ofAst (parse source).body).check.checker.errors = []) :
    let loops := (parse source).body.toStmt.loops
    let outcome := ((Program.ofAst (parse source).body).check.program.compile :
      Compilation α).outcome
    (∀ d, outcome ≠ .error (.internal d)) ∧
      ((∃ a, outcome = .ok a) ↔ loops = []) ∧
      ∀ pos rest, loops = pos :: rest → outcome = .error (.loop pos) := by
  have houtcome := outcome_of_elaborates (α := α) (elaborates_check hparse hcheck)
  intro loops outcome
  change match loops with
    | [] => ∃ a, outcome = .ok a
    | pos :: _ => outcome = .error (.loop pos) at houtcome
  cases hloops : loops with
  | nil =>
    rw [hloops] at houtcome
    obtain ⟨a, ha⟩ := houtcome
    refine ⟨fun d hd => ?_, ⟨fun _ => rfl, fun _ => ⟨a, ha⟩⟩, fun _ _ h => by cases h⟩
    rw [ha] at hd
    cases hd
  | cons pos rest =>
    rw [hloops] at houtcome
    refine ⟨fun d hd => ?_, ⟨?_, fun h => by cases h⟩, ?_⟩
    · rw [houtcome] at hd
      cases hd
    · rintro ⟨a, ha⟩
      rw [houtcome] at ha
      cases ha
    · intro pos' rest' h
      cases h
      exact houtcome

/-- The first of two loops, in an `else` before the second. -/
theorem compile_fails_only_at_loops_else :
    (parse (ascii
      "{int x=1;if(x<2){x=2;}else{while(x<3){x=x+1;}}while(x<4)x=4;}")).errors = [] ∧
    (Program.ofAst (parse (ascii
      "{int x=1;if(x<2){x=2;}else{while(x<3){x=x+1;}}while(x<4)x=4;}")).body).check.checker.errors =
        [] ∧
    ((Program.ofAst (parse (ascii
      "{int x=1;if(x<2){x=2;}else{while(x<3){x=x+1;}}while(x<4)x=4;}"
      )).body).check.program.compile :
        Compilation Float32).outcome = .error (.loop ⟨1, 28⟩) := by
  have hyps :
      let source := ascii "{int x=1;if(x<2){x=2;}else{while(x<3){x=x+1;}}while(x<4)x=4;}"
      ((parse source).errors.isEmpty &&
        (Program.ofAst (parse source).body).check.checker.errors.isEmpty &&
        (parse source).body.toStmt.loops == [⟨1, 28⟩, ⟨1, 47⟩]) = true := by
    decide +kernel
  simp only [Bool.and_eq_true, List.isEmpty_iff, beq_iff_eq] at hyps
  obtain ⟨⟨hparse, hcheck⟩, hloops⟩ := hyps
  exact ⟨hparse, hcheck, (compile_fails_only_at_loops _ hparse hcheck).2.2 _ _ hloops⟩

/-- Whether a text has no errors and no loops. -/
def isCompilable (source : Bytes) : Bool :=
  (parse source).errors.isEmpty &&
    (Program.ofAst (parse source).body).check.checker.errors.isEmpty &&
    (parse source).body.toStmt.loops.isEmpty

theorem isCompilable_iff {source : Bytes} :
    isCompilable source = true ↔ (parse source).errors = [] ∧
      (Program.ofAst (parse source).body).check.checker.errors = [] ∧
      (parse source).body.toStmt.loops = [] := by
  simp only [isCompilable, Bool.and_eq_true, List.isEmpty_iff, and_assoc]

end Shader
