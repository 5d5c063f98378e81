import Shader.Proofs.EmittedCode
import Shader.Proofs.VariableUses

/-!
# What the code reads and writes

An operand comes from the symbol table, or an allocator has handed it out and declared its register
then. Declarations are never taken back, so what was in use stays so, and every instruction of a
tree, checked or not, reads and writes registers that the program declares by the end.

Of the variables, code reads those that the tree reads and writes those that the tree writes. One
thing is added: a write under a condition reads its own destination, to keep what was in it.

The machine takes a reciprocal, a root or a power of one component only. So the walk also says that
each source of these selects one.
-/

namespace Shader

open Program (Expr Stmt declReads declWrites initialized? initialized?_eq_some)
open Number (Scalar)

/-! ## Growing allocators -/

namespace Allocator

variable {α : Type} {a a' a'' : Allocator α}

/-- Registers for conditions are declared in the order of their numbers. -/
def Numbered (a : Allocator α) : Prop :=
  a.program.longLived = (List.range a.conditions).map .longLived

/-- An allocator behind another: registers have only been added, and none for variables. -/
structure Grows (a a' : Allocator α) : Prop where
  userTemps : a'.program.userTemps = a.program.userTemps
  temps : a.program.temps ⊆ a'.program.temps
  longLived : a.program.longLived ⊆ a'.program.longLived
  immediates : a.program.immediates ⊆ a'.program.immediates
  numbered : a.Numbered → a'.Numbered

theorem Grows.refl (a : Allocator α) : a.Grows a :=
  ⟨rfl, fun _ h => h, fun _ h => h, fun _ h => h, id⟩

/-- Registers that were added by two steps were added by both. -/
theorem Grows.trans (h : a.Grows a') (h' : a'.Grows a'') : a.Grows a'' where
  userTemps := h'.userTemps.trans h.userTemps
  temps := fun _ hr => h'.temps (h.temps hr)
  longLived := fun _ hr => h'.longLived (h.longLived hr)
  immediates := fun _ hp => h'.immediates (h.immediates hp)
  numbered := fun hn => h'.numbered (h.numbered hn)

/-- A scratch register is declared when no earlier session has needed as many. -/
theorem grows_temp (a : Allocator α) : a.Grows a.temp.2 := by
  unfold temp
  split
  · exact ⟨rfl, fun _ h => h, fun _ h => h, fun _ h => h, id⟩
  · exact ⟨rfl, fun _ h => List.mem_append_left _ h, fun _ h => h, fun _ h => h, id⟩

/-- A scratch register that is handed out has been declared, now or by an earlier session. -/
theorem temp_mem (a : Allocator α) : a.temp.1 ∈ a.temp.2.program.temps := by
  unfold temp
  split
  · rename_i r hr
    exact List.mem_of_getElem? hr
  · exact List.mem_append_right _ (List.mem_singleton.mpr rfl)

/-- Registers for conditions are counted up, and each is declared once. -/
theorem grows_longLived (a : Allocator α) : a.Grows a.longLived.2 where
  userTemps := rfl
  temps := fun _ h => h
  longLived := fun _ h => List.mem_append_left _ h
  immediates := fun _ h => h
  numbered := by
    intro hn
    show a.program.longLived ++ [.longLived a.conditions] =
      (List.range (a.conditions + 1)).map Register.longLived
    rw [hn, List.range_succ, List.map_append]
    rfl

theorem grows_immediate (a : Allocator α) (v : ParamValue α) : a.Grows (a.immediate v).2 :=
  ⟨rfl, fun _ h => h, fun _ h => h, fun _ h => List.mem_append_left _ h, id⟩

/-- A register of one of the variables `V`. -/
def Names (env : Env) (V : DeclId → Prop) (r : Register) : Prop :=
  ∃ id, V id ∧ env.symbols.register? id = some r

/-- A register of one of some variables is one of more variables. -/
theorem Names.mono {env : Env} {V V' : DeclId → Prop} {r : Register} (h : Names env V r)
    (hV : ∀ id, V id → V' id) : Names env V' r := by
  obtain ⟨id, hid, hr⟩ := h
  exact ⟨id, hV id hid, hr⟩

/-- A register that code may use: that of a variable in `V`, a constant that every program has, or
one that the allocator has declared. -/
inductive InUse (env : Env) (V : DeclId → Prop) (a : Allocator α) : Register → Prop where
  | symbol {r : Register} : Names env V r → InUse env V a r
  | common {r : Register} : r ∈ [.truth true, .truth false, .zero] → InUse env V a r
  | scratch {r : Register} : r ∈ a.program.temps → InUse env V a r
  | condition {r : Register} : r ∈ a.program.longLived → InUse env V a r
  | constant {r : Register} : r ∈ a.program.immediates.map (·.reg) → InUse env V a r

/-- A register that code may write: that of a variable in `V`, or one that the allocator has
declared for values of the code. -/
inductive Writable (env : Env) (V : DeclId → Prop) (a : Allocator α) : Register → Prop where
  | symbol {r : Register} : Names env V r → Writable env V a r
  | scratch {r : Register} : r ∈ a.program.temps → Writable env V a r
  | condition {r : Register} : r ∈ a.program.longLived → Writable env V a r

section Registers

variable {env : Env} {V V' : DeclId → Prop} {r : Register}

/-- What is in use stays so, as no declaration is taken back. -/
theorem InUse.mono (h : a.InUse env V r) (hg : a.Grows a') : a'.InUse env V r := by
  cases h with
  | symbol h => exact .symbol h
  | common h => exact .common h
  | scratch h => exact .scratch (hg.temps h)
  | condition h => exact .condition (hg.longLived h)
  | constant h => exact .constant (List.map_subset _ hg.immediates h)

/-- What may be written stays so. -/
theorem Writable.mono (h : a.Writable env V r) (hg : a.Grows a') : a'.Writable env V r := by
  cases h with
  | symbol h => exact .symbol h
  | scratch h => exact .scratch (hg.temps h)
  | condition h => exact .condition (hg.longLived h)

/-- What may be written may also be read, if the variables may. -/
theorem Writable.inUse (h : a.Writable env V r) (hV : ∀ id, V id → V' id) : a.InUse env V' r := by
  cases h with
  | symbol h => exact .symbol (h.mono hV)
  | scratch h => exact .scratch h
  | condition h => exact .condition h

end Registers

end Allocator

/-! ## Instructions -/

/-- The operations on a single component. -/
def Opcode.single : List Opcode := [.rcp, .rsq, .pow]

/-- An instruction on registers of a set, whose sources are single components where it needs
these. -/
structure Instruction.Over (U : Register → Prop) (i : Instruction) : Prop where
  operands : ∀ o ∈ i.dst :: i.src, U o.reg
  single : i.op ∈ Opcode.single → ∀ o ∈ i.src, ∃ c, o.select = .one c

/-- A write under a condition: where the condition is negative, the destination stays. -/
def Instruction.keeping (dst cond value : Operand) : Instruction := ⟨.cmp, dst, [cond, dst, value]⟩

/-- An instruction that writes a register in `W` and reads registers in `R`. It may read its own
destination, if that is in `K`, but only to keep it under a condition. -/
structure Instruction.Within (W R K : Register → Prop) (i : Instruction) : Prop where
  target : W i.dst.reg
  sources : ∀ o ∈ i.src, R o.reg ∨ K o.reg ∧ ∃ cond value, i = .keeping o cond value ∧
    R cond.reg ∧ R value.reg
  single : i.op ∈ Opcode.single → ∀ o ∈ i.src, ∃ c, o.select = .one c

section Within

variable {W R K W' R' U : Register → Prop} {i : Instruction}

theorem Instruction.Within.mono (h : i.Within W R K) (hW : ∀ r, W r → W' r)
    (hR : ∀ r, R r → R' r) : i.Within W' R' K where
  target := hW _ h.target
  sources := by
    intro o ho
    rcases h.sources o ho with hread | ⟨hkept, cond, value, hi, hcond, hvalue⟩
    · exact .inl (hR _ hread)
    · exact .inr ⟨hkept, cond, value, hi, hR _ hcond, hR _ hvalue⟩
  single := h.single

/-- All registers of an instruction lie in a set that has those it writes and those it reads. The
destination that is kept is one that it writes. -/
theorem Instruction.Within.over (h : i.Within W R K) (hW : ∀ r, W r → U r)
    (hR : ∀ r, R r → U r) : i.Over U where
  operands := by
    intro o ho
    rcases List.mem_cons.mp ho with rfl | ho
    · exact hW _ h.target
    · rcases h.sources o ho with hread | ⟨-, cond, value, rfl, -, -⟩
      · exact hR _ hread
      · exact hW _ h.target
  single := h.single

end Within

namespace Lower

open Allocator

variable {α β γ : Type} {env : Env} {V V' : DeclId → Prop} {a : Allocator α}

/-- An operand in use that selects a whole register or one component. -/
structure Usable (env : Env) (V : DeclId → Prop) (a : Allocator α) (o : Operand) : Prop where
  inUse : a.InUse env V o.reg
  plain : o.Plain

/-- An operand that the allocator has handed out for values of the code. -/
structure Own (a : Allocator α) (o : Operand) : Prop where
  declared : o.reg ∈ a.program.temps ∨ o.reg ∈ a.program.longLived
  plain : o.Plain

/-- A variable in `V`, or one component of it. -/
structure Denotes (env : Env) (V : DeclId → Prop) (o : Operand) : Prop where
  names : Names env V o.reg
  plain : o.Plain

section Operands

variable {a' : Allocator α} {o : Operand}

theorem Usable.mono (h : Usable env V a o) (hg : a.Grows a') : Usable env V a' o :=
  ⟨h.inUse.mono hg, h.plain⟩

theorem Usable.neg (h : Usable env V a o) : Usable env V a o.neg := ⟨h.inUse, h.plain.neg⟩

theorem Usable.component (h : Usable env V a o) (c : Component) :
    Usable env V a (o.component c) :=
  ⟨h.inUse, Operand.plain_component o c⟩

theorem Usable.scalar (h : Usable env V a o) : Usable env V a o.scalar := by
  refine ⟨?_, h.plain.scalar⟩
  unfold Operand.scalar
  split <;> exact h.inUse

/-- A single component is selected of an operand that is taken as a number. -/
theorem select_scalar (h : o.Plain) : ∃ c, o.scalar.select = .one c := by
  obtain ⟨r, select, negated⟩ := o
  cases select with
  | whole => exact ⟨.x, rfl⟩
  | one c => exact ⟨c, rfl⟩
  | other t => exact absurd rfl (h t)

theorem usable_of {r : Register} (h : a.InUse env V r) : Usable env V a (.of r) :=
  ⟨h, Operand.plain_of r⟩

theorem Own.mono (h : Own a o) (hg : a.Grows a') : Own a' o :=
  ⟨h.declared.imp (fun h => hg.temps h) fun h => hg.longLived h, h.plain⟩

theorem Own.component (h : Own a o) (c : Component) : Own a (o.component c) :=
  ⟨h.declared, Operand.plain_component o c⟩

/-- What was handed out for values can be read. -/
theorem Own.usable (h : Own a o) : Usable env V a o :=
  ⟨h.declared.elim .scratch .condition, h.plain⟩

theorem Own.writable (h : Own a o) : a.Writable env V o.reg := h.declared.elim .scratch .condition

theorem Denotes.mono (h : Denotes env V o) (hV : ∀ id, V id → V' id) : Denotes env V' o :=
  ⟨h.names.mono hV, h.plain⟩

theorem Denotes.usable (h : Denotes env V o) : Usable env V a o := ⟨.symbol h.names, h.plain⟩

end Operands

/-- The variables that code may read, those it may write, and those it may write under a
condition. -/
structure Usage where
  reads : DeclId → Prop
  writes : DeclId → Prop
  kept : DeclId → Prop

/-- `Uses env u a m Q`: if the step `m` succeeds from `a`, then its instructions read and write
registers in use behind it, of the variables only as `u` has it, and its result and the allocator
after it satisfy `Q`. -/
def Uses (env : Env) (u : Usage) (a : Allocator α) (m : Lower α β)
    (Q : Allocator α → β → Prop) : Prop :=
  ∀ b code a', run m a = .ok (b, code, a') → a.Grows a' ∧
    (∀ i ∈ instructions code,
      i.Within (a'.Writable env u.writes) (a'.InUse env u.reads) (Names env u.kept)) ∧ Q a' b

section Combinators

variable {u : Usage} {P : Allocator α → β → Prop} {Q : Allocator α → γ → Prop}

theorem uses_pure {c : γ} (h : Q a c) : Uses env u a (pure c) Q := by
  intro b code a' hrun
  cases hrun
  exact ⟨.refl a, by simp [instructions], h⟩

/-- Two steps in sequence. The instructions of the first use registers that are declared behind it,
and these are still declared behind the second. -/
theorem uses_bind {m : Lower α β} {f : β → Lower α γ} (hm : Uses env u a m P)
    (hf : ∀ a₁ b, a.Grows a₁ → P a₁ b → Uses env u a₁ (f b) Q) : Uses env u a (m >>= f) Q := by
  intro c lines a₂ hrun
  obtain ⟨b, code, a₁, more, h₁, h₂, rfl⟩ := run_bind_eq_ok.mp hrun
  obtain ⟨hg₁, hc₁, hp⟩ := hm b code a₁ h₁
  obtain ⟨hg₂, hc₂, hq⟩ := hf a₁ b hg₁ hp c more a₂ h₂
  refine ⟨hg₁.trans hg₂, ?_, hq⟩
  intro i hi
  rw [instructions_append, List.mem_append] at hi
  rcases hi with hi | hi
  · exact (hc₁ i hi).mono (fun r hr => hr.mono hg₂) fun r hr => hr.mono hg₂
  · exact hc₂ i hi

/-- The condition on the result can be made weaker. -/
theorem uses_mono {P' : Allocator α → β → Prop} {m : Lower α β} (hm : Uses env u a m P)
    (hP : ∀ a' b, P a' b → P' a' b) : Uses env u a m P' := by
  intro b code a' hrun
  obtain ⟨hg, hc, hp⟩ := hm b code a' hrun
  exact ⟨hg, hc, hP a' b hp⟩

theorem uses_fail {e : Failure} : Uses env u a (fail e) P := by
  intro b code a' hrun
  cases hrun

theorem uses_ofExcept {r : Except Failure β} :
    Uses env u a (ofExcept r) fun a' b => a' = a ∧ r = .ok b := by
  intro b code a' hrun
  cases r with
  | error e => cases hrun
  | ok b' =>
    cases hrun
    exact ⟨.refl a, by simp [instructions], rfl, rfl⟩

/-- Lines that are emitted have to keep to the registers in use. -/
theorem uses_emit {lines : List Line}
    (h : ∀ i ∈ instructions lines,
      i.Within (a.Writable env u.writes) (a.InUse env u.reads) (Names env u.kept)) :
    Uses env u a (emit lines) fun a' _ => a' = a := by
  intro b code a' hrun
  cases hrun
  exact ⟨.refl a, h, rfl⟩

/-- Blank lines and comments use no register. -/
theorem uses_lines {lines : List Line} (h : instructions lines = []) :
    Uses env u a (emit lines) fun a' _ => a' = a :=
  uses_emit fun i hi => by
    rw [h] at hi
    cases hi

theorem uses_temp : Uses env u a temp fun a' o => Own a' o := by
  intro o code a' hrun
  cases hrun
  exact ⟨a.grows_temp, by simp [instructions], .inl a.temp_mem, Operand.plain_of _⟩

theorem uses_longLived : Uses env u a longLived fun a' o => Own a' o := by
  intro o code a' hrun
  cases hrun
  exact ⟨a.grows_longLived, by simp [instructions],
    .inr (List.mem_append_right _ (List.mem_singleton.mpr rfl)), Operand.plain_of _⟩

theorem uses_immediate {v : ParamValue α} :
    Uses env u a (immediate v) fun a' o => Usable env u.reads a' o := by
  intro o code a' hrun
  cases hrun
  have hmem : (⟨.immediate a.constants, v⟩ : Param α) ∈ (a.immediate v).2.program.immediates :=
    List.mem_append_right _ (List.mem_singleton.mpr rfl)
  exact ⟨a.grows_immediate v, by simp [instructions],
    usable_of (.constant (List.mem_map_of_mem hmem))⟩

theorem uses_resetSession : Uses env u a resetSession fun _ _ => True := by
  intro b code a' hrun
  cases hrun
  exact ⟨⟨rfl, fun _ h => h, fun _ h => h, fun _ h => h, id⟩, by simp [instructions], trivial⟩

theorem uses_instr {op : Opcode} {dst : Operand} {src : List Operand}
    (hdst : Own a dst) (hsrc : ∀ o ∈ src, Usable env u.reads a o)
    (hsingle : op ∈ Opcode.single → ∀ o ∈ src, ∃ c, o.select = .one c) :
    Uses env u a (instr op dst src) fun a' _ => a' = a := by
  refine uses_emit fun i hi => ?_
  cases List.mem_singleton.mp hi
  exact ⟨hdst.writable, fun o ho => .inl (hsrc o ho).inUse, hsingle⟩

/-- Instructions on registers of the code's own, one for each member of a list. -/
theorem uses_instrs {ι : Type} {op : Opcode} (dst : ι → Operand) (src : ι → List Operand)
    (is : List ι) (hdst : ∀ i ∈ is, Own a (dst i))
    (hsrc : ∀ i ∈ is, ∀ o ∈ src i, Usable env u.reads a o)
    (hsingle : op ∈ Opcode.single → ∀ i ∈ is, ∀ o ∈ src i, ∃ c, o.select = .one c) :
    Uses env u a (emit (is.map fun i => .instr ⟨op, dst i, src i⟩)) fun a' _ => a' = a := by
  refine uses_emit fun j hj => ?_
  rw [instructions_map] at hj
  obtain ⟨i, hi, rfl⟩ := List.mem_map.mp hj
  exact ⟨(hdst i hi).writable, fun o ho => .inl (hsrc i hi o ho).inUse, fun h => hsingle h i hi⟩

end Combinators

/-! ## Operators -/

section Operators

variable {u : Usage} {l r : Operand}

theorem usable_single {o : Operand} (h : Usable env V a o) : ∀ p ∈ [o], Usable env V a p := by
  intro p hp
  cases List.mem_singleton.mp hp
  exact h

theorem usable_pair (hl : Usable env V a l) (hr : Usable env V a r) :
    ∀ o ∈ [l, r], Usable env V a o := by
  intro o ho
  rcases List.mem_cons.mp ho with rfl | ho
  · exact hl
  · exact usable_single hr o ho

theorem usable_triple {o : Operand} (ho : Usable env V a o) (hl : Usable env V a l)
    (hr : Usable env V a r) : ∀ p ∈ [o, l, r], Usable env V a p := by
  intro p hp
  rcases List.mem_cons.mp hp with rfl | hp
  · exact ho
  · exact usable_pair hl hr p hp

theorem uses_single {op : Opcode} {src : List Operand}
    (hsrc : ∀ o ∈ src, Usable env u.reads a o)
    (hsingle : op ∈ Opcode.single → ∀ o ∈ src, ∃ c, o.select = .one c) :
    Uses env u a (temp >>= fun res => instr op res src >>= fun _ => pure res)
      (Usable env u.reads) := by
  refine uses_bind uses_temp fun a₁ res h₁ hres => ?_
  refine uses_bind (uses_instr hres (fun o ho => (hsrc o ho).mono h₁) hsingle) fun a₂ _ _ heq => ?_
  subst heq
  exact uses_pure hres.usable

theorem not_single {op : Opcode} {src : List Operand} (h : op ∉ Opcode.single) :
    op ∈ Opcode.single → ∀ o ∈ src, ∃ c, o.select = .one c := fun h' => absurd h' h

theorem uses_direct {op : Opcode} (hop : op ∉ Opcode.single) (hl : Usable env u.reads a l)
    (hr : Usable env u.reads a r) : Uses env u a (direct op l r) (Usable env u.reads) :=
  uses_single (usable_pair hl hr) (not_single hop)

theorem usable_truth (b : Bool) : Usable env V a (.of (.truth b)) :=
  usable_of (.common (by cases b <;> simp))

/-- A quotient is a product with a reciprocal, which is taken of one component at a time. -/
theorem uses_quotient {divisor : Ty} (hl : Usable env u.reads a l) (hr : Usable env u.reads a r) :
    Uses env u a (quotient l r divisor) (Usable env u.reads) := by
  refine uses_bind uses_temp fun a₁ res h₁ hres => ?_
  refine uses_bind uses_temp fun a₂ inverse h₂ hinverse => ?_
  have hres := hres.mono h₂
  have hl := hl.mono (h₁.trans h₂)
  have hr := hr.mono (h₁.trans h₂)
  -- both branches end with the product
  have hproduct : Uses env u a₂ (instr .mul res [l, inverse] >>= fun _ => pure res)
      (Usable env u.reads) := by
    refine uses_bind (uses_instr hres (usable_pair hl hinverse.usable) (not_single (by decide)))
      fun a₃ _ _ heq => ?_
    subst heq
    exact uses_pure hres.usable
  split
  · refine uses_bind (uses_instr hinverse (usable_single hr.scalar) fun _ o ho => ?_)
      fun a₃ _ _ heq => ?_
    · cases List.mem_singleton.mp ho
      exact select_scalar hr.plain
    · subst heq
      exact hproduct
  · refine uses_bind uses_ofExcept fun a₃ cs _ hcs => ?_
    obtain ⟨rfl, -⟩ := hcs
    refine uses_bind (uses_instrs (fun c => inverse.component c) (fun c => [r.component c]) cs
      (fun c _ => hinverse.component c) (fun c _ => usable_single (hr.component c))
      fun _ c _ o ho => ?_) fun a₄ _ _ heq => ?_
    · cases List.mem_singleton.mp ho
      exact ⟨c, rfl⟩
    · subst heq
      exact hproduct

theorem uses_power {type : Ty} (hl : Usable env u.reads a l) (hr : Usable env u.reads a r) :
    Uses env u a (power l r type) (Usable env u.reads) := by
  refine uses_bind uses_temp fun a₁ res h₁ hres => ?_
  have hl := hl.mono h₁
  have hr := hr.mono h₁
  split
  · refine uses_bind (uses_instr hres (usable_pair hl.scalar hr.scalar) fun _ o ho => ?_)
      fun a₂ _ _ heq => ?_
    · rcases List.mem_cons.mp ho with rfl | ho
      · exact select_scalar hl.plain
      · cases List.mem_singleton.mp ho
        exact select_scalar hr.plain
    · subst heq
      exact uses_pure hres.usable
  · refine uses_bind uses_ofExcept fun a₂ cs _ hcs => ?_
    obtain ⟨rfl, -⟩ := hcs
    refine uses_bind (uses_instrs (fun c => res.component c)
      (fun c => [l.component c, r.component c]) cs (fun c _ => hres.component c)
      (fun c _ => usable_pair (hl.component c) (hr.component c)) fun _ c _ o ho => ?_)
      fun a₃ _ _ heq => ?_
    · rcases List.mem_cons.mp ho with rfl | ho
      · exact ⟨c, rfl⟩
      · cases List.mem_singleton.mp ho
        exact ⟨c, rfl⟩
    · subst heq
      exact uses_pure hres.usable

/-- A comparison selects between two operands by the sign of a difference. -/
theorem uses_compare {yes no : Operand} (hl : Usable env u.reads a l) (hr : Usable env u.reads a r)
    (hyes : Usable env u.reads a yes) (hno : Usable env u.reads a no) :
    Uses env u a (compare l r yes no) (Usable env u.reads) := by
  refine uses_bind uses_temp fun a₁ res h₁ hres => ?_
  refine uses_bind uses_temp fun a₂ difference h₂ hdifference => ?_
  have hg := h₁.trans h₂
  refine uses_bind (uses_instr hdifference (usable_pair (hl.mono hg) (hr.mono hg))
    (not_single (by decide))) fun a₃ _ _ heq => ?_
  subst heq
  refine uses_bind (uses_instr (hres.mono h₂) (usable_triple hdifference.usable (hyes.mono hg)
    (hno.mono hg)) (not_single (by decide))) fun a₄ _ _ heq => ?_
  subst heq
  exact uses_pure (hres.mono h₂).usable

/-- Equality compares both ways around and adds up. For a vector the components are then added up
too, in a second scratch register. -/
theorem uses_equal {type : Ty} (hl : Usable env u.reads a l) (hr : Usable env u.reads a r) :
    Uses env u a (equal l r type) fun a' o => Own a' o := by
  refine uses_bind uses_temp fun a₁ res h₁ hres => ?_
  refine uses_bind uses_temp fun a₂ other h₂ hother => ?_
  have hres := hres.mono h₂
  have hl := hl.mono (h₁.trans h₂)
  have hr := hr.mono (h₁.trans h₂)
  -- none of these operations wants a single component
  have hplain : ∀ {op : Opcode} {dst : Operand} {src : List Operand}, op ∉ Opcode.single →
      Own a₂ dst → (∀ o ∈ src, Usable env u.reads a₂ o) →
      Uses env u a₂ (instr op dst src) fun a' _ => a' = a₂ :=
    fun hop hdst hsrc => uses_instr hdst hsrc (not_single hop)
  -- left minus right and its sign, then right minus left and its sign, and their sum
  refine uses_bind (hplain (by decide) hother (usable_pair hl hr)) fun b₁ _ _ heq => ?_
  subst heq
  refine uses_bind (hplain (by decide) hres (usable_triple hother.usable (usable_truth _)
    (usable_truth _))) fun b₂ _ _ heq => ?_
  subst heq
  refine uses_bind (hplain (by decide) hother (usable_pair hr hl)) fun b₃ _ _ heq => ?_
  subst heq
  refine uses_bind (hplain (by decide) hother (usable_triple hother.usable (usable_truth _)
    (usable_truth _))) fun b₄ _ _ heq => ?_
  subst heq
  refine uses_bind (hplain (by decide) hres (usable_pair hres.usable hother.usable))
    fun b₅ _ _ heq => ?_
  subst heq
  split
  · exact uses_pure hres
  · refine uses_bind uses_ofExcept fun b₆ cs _ hcs => ?_
    obtain ⟨rfl, -⟩ := hcs
    refine uses_bind (hplain (by decide) hother (usable_pair (hres.component _).usable
      (hres.component _).usable)) fun b₇ _ _ heq => ?_
    subst heq
    refine uses_bind (uses_instrs (fun _ => other) (fun c => [other.component .x, res.component c])
      (cs.drop 2) (fun _ _ => hother)
      (fun c _ => usable_pair (hother.component _).usable (hres.component c).usable)
      fun h => absurd h (by decide)) fun b₈ _ _ heq => ?_
    subst heq
    exact uses_pure hother

/-- **Operators between operands use only what is in use.** An inequality is an equality with its
sign turned around. -/
theorem uses_binary {op : BinaryOp} {left right type : Ty} (hl : Usable env u.reads a l)
    (hr : Usable env u.reads a r) :
    Uses env u a (binary op l r left right type) (Usable env u.reads) := by
  have htrue : Usable env u.reads a trueOperand := usable_truth true
  have hfalse : Usable env u.reads a falseOperand := usable_truth false
  cases op with
  | add | sub | mul | and | or => exact uses_direct (by decide) hl hr
  | div => exact uses_quotient hl hr
  | pow => exact uses_power hl hr
  | lt => exact uses_compare hl hr htrue hfalse
  | gt => exact uses_compare hr hl htrue hfalse
  | le => exact uses_compare hr hl hfalse htrue
  | ge => exact uses_compare hl hr hfalse htrue
  | eq => exact uses_mono (uses_equal hl hr) fun _ _ h => h.usable
  | ne =>
    refine uses_bind (uses_equal hl hr) fun a₁ res h₁ hres => ?_
    refine uses_bind (uses_instr hres (usable_single hres.usable.neg) (not_single (by decide)))
      fun a₂ _ _ heq => ?_
    subst heq
    exact uses_pure hres.usable
  | unknown => exact uses_fail

/-- A call is one instruction, with the single component that a root is taken of. -/
theorem uses_call {func : Bytes} {args : List Operand}
    (hargs : ∀ o ∈ args, Usable env u.reads a o) :
    Uses env u a (call func args) (Usable env u.reads) := by
  unfold call
  split
  · exact uses_fail
  · split
    · have hx := hargs _ (List.mem_singleton.mpr rfl)
      refine uses_single (usable_single hx.scalar) fun _ o ho => ?_
      cases List.mem_singleton.mp ho
      exact select_scalar hx.plain
    · exact uses_single hargs (not_single (by decide))
    · exact uses_single hargs (not_single (by decide))
    · exact uses_fail

/-- A constructor moves its arguments into the components of a scratch register. -/
theorem uses_assemble {args : List Operand} (hargs : ∀ o ∈ args, Usable env u.reads a o) :
    Uses env u a (assemble args) (Usable env u.reads) := by
  refine uses_bind uses_temp fun a₁ res h₁ hres => ?_
  refine uses_bind (uses_instrs (fun ca => res.component ca.1) (fun ca => [ca.2.scalar])
    (Component.all.zip args) (fun ca _ => hres.component ca.1) (fun ca hca => ?_)
    fun h => absurd h (by decide)) fun a₂ _ _ heq => ?_
  · exact usable_single ((hargs ca.2 (List.of_mem_zip hca).2).mono h₁).scalar
  · subst heq
    exact uses_pure hres.usable

end Operators

/-! ## Expressions -/

section Exprs

variable {u : Usage}

/-- A name stands for the register of the variable that it is bound to. -/
theorem uses_register {ref : Ref} :
    Uses env u a (register env ref) fun _ o => Denotes env (· ∈ ref.decl.toList) o := by
  refine uses_mono uses_ofExcept fun a' o h => ?_
  obtain ⟨rfl, heq⟩ := h
  split at heq
  · rename_i r hr
    cases heq
    unfold Symbols.registerOf at hr
    split at hr
    · cases hr
    · rename_i id hid
      split at hr
      · cases hr
        exact ⟨⟨id, by simp [hid], ‹_›⟩, Operand.plain_of _⟩
      · cases hr
  · cases heq

theorem uses_indexed {ref : Ref} {i : Int} :
    Uses env u a (indexed env ref i) fun _ o => Denotes env (· ∈ ref.decl.toList) o := by
  refine uses_bind uses_register fun a₁ reg _ hreg => ?_
  refine uses_bind uses_ofExcept fun a₂ c _ hc => ?_
  obtain ⟨rfl, -⟩ := hc
  exact uses_pure ⟨hreg.names, Operand.plain_component reg c⟩

variable [Scalar α]

mutual

/-- **The code of an expression reads the variables that occur in it**, and no others. -/
theorem uses_expr : ∀ (e : Expr) {a : Allocator α}, (∀ id ∈ e.refs, u.reads id) →
    Uses env u a (expr env e) (Usable env u.reads)
  | .absent, _, _ => by rw [expr]; exact uses_fail
  | .int _ _, _, _ => by rw [expr]; exact uses_immediate
  | .float _ _, _, _ => by rw [expr]; exact uses_immediate
  | .bool _ _, _, _ => by rw [expr]; exact uses_immediate
  | .var _, _, h => by
    rw [expr]
    exact uses_mono uses_register fun _ _ hr => (hr.mono h).usable
  | .index _ _ _, _, h => by
    rw [expr]
    exact uses_mono uses_indexed fun _ _ hr => (hr.mono h).usable
  | .unary _ _ x _, _, h => by
    rw [expr]
    exact uses_bind (uses_expr x h) fun a₁ value _ hvalue =>
      uses_single (usable_single hvalue.neg) (not_single (by decide))
  | .binary _ _ l r _, _, h => by
    rw [expr]
    exact uses_bind (uses_expr l fun id hid => h id (List.mem_append_left _ hid))
      fun a₁ left _ hleft =>
        uses_bind (uses_expr r fun id hid => h id (List.mem_append_right _ hid))
          fun a₂ right h₂ hright => uses_binary (hleft.mono h₂) hright
  | .call _ _ args _, _, h => by
    rw [expr]
    exact uses_bind (uses_exprs args h) fun a₁ values _ hvalues => uses_call hvalues
  | .construct _ _ args, _, h => by
    rw [expr]
    refine uses_bind uses_ofExcept fun a₁ c _ _ => ?_
    split
    · exact uses_immediate
    · split
      · exact uses_bind (uses_exprs args h) fun a₂ values _ hvalues => uses_assemble hvalues
      · exact uses_fail

/-- Arguments one after the other: what the first of them gave is still in use behind the last. -/
theorem uses_exprs : ∀ (es : List Expr) {a : Allocator α}, (∀ id ∈ Expr.listRefs es, u.reads id) →
    Uses env u a (exprs env es) fun a' os => ∀ o ∈ os, Usable env u.reads a' o
  | [], _, _ => by
    rw [exprs]
    exact uses_pure (by simp)
  | e :: es, _, h => by
    rw [exprs]
    refine uses_bind (uses_expr e fun id hid => h id (List.mem_append_left _ hid))
      fun a₁ value _ hvalue =>
        uses_bind (uses_exprs es fun id hid => h id (List.mem_append_right _ hid))
          fun a₂ values h₂ hvalues => uses_pure fun o ho => ?_
    rcases List.mem_cons.mp ho with rfl | ho
    · exact hvalue.mono h₂
    · exact hvalues o ho

end

end Exprs

/-! ## Statements -/

/-- The operand of a condition, if there is one, is in use, whatever variables are read. -/
def UsableCondition (env : Env) (a : Allocator α) (cond : Option Operand) : Prop :=
  ∀ o, cond = some o → ∀ V, Usable env V a o

theorem usableCondition_none (env : Env) (a : Allocator α) : UsableCondition env a none :=
  fun _ ho => nomatch ho

/-- What a statement under a condition does to variables is within a usage. Under a condition each
write keeps. -/
structure Usage.Covers (u : Usage) (r w k : List DeclId) (cond : Option Operand) : Prop where
  reads : ∀ id ∈ r, u.reads id
  writes : ∀ id ∈ w, u.writes id
  kept : ∀ id ∈ k, u.kept id
  under : cond.isSome = true → ∀ id ∈ w, u.kept id

section Stmts

variable {u : Usage} {a' : Allocator α} {cond : Option Operand} {dst value : Operand}

theorem UsableCondition.mono (h : UsableCondition env a cond) (hg : a.Grows a') :
    UsableCondition env a' cond := fun o ho V => (h o ho V).mono hg

/-- A condition in a register of the allocator can be read by any code, whatever variables that may
read. -/
theorem usableCondition_some {o : Operand} (h : Own a o) :
    UsableCondition env a (some o) := by
  intro o' ho V
  cases ho
  exact h.usable

theorem Usage.Covers.append {r w k r' w' k' : List DeclId}
    (h : u.Covers (r ++ r') (w ++ w') (k ++ k') cond) :
    u.Covers r w k cond ∧ u.Covers r' w' k' cond := by
  constructor
  · exact ⟨fun id hid => h.reads id (List.mem_append_left _ hid),
      fun id hid => h.writes id (List.mem_append_left _ hid),
      fun id hid => h.kept id (List.mem_append_left _ hid),
      fun hc id hid => h.under hc id (List.mem_append_left _ hid)⟩
  · exact ⟨fun id hid => h.reads id (List.mem_append_right _ hid),
      fun id hid => h.writes id (List.mem_append_right _ hid),
      fun id hid => h.kept id (List.mem_append_right _ hid),
      fun hc id hid => h.under hc id (List.mem_append_right _ hid)⟩

theorem uses_beginStatement : Uses env u a beginStatement fun _ _ => True :=
  uses_bind (uses_lines rfl) fun _ _ _ _ => uses_resetSession

/-- **A write.** Without a condition it reads the value only. Under one it also reads its
destination, and this is the only place where code reads a variable that it writes. -/
theorem uses_write (hcond : UsableCondition env a cond) (hdst : Denotes env u.writes dst)
    (hkept : cond.isSome = true → Denotes env u.kept dst) (hvalue : Usable env u.reads a value) :
    Uses env u a (write cond dst value) fun _ _ => True := by
  cases cond with
  | none =>
    refine uses_mono (uses_emit fun i hi => ?_) fun _ _ _ => trivial
    cases List.mem_singleton.mp hi
    refine ⟨.symbol hdst.names, fun o ho => ?_, not_single (by simp [Opcode.single])⟩
    cases List.mem_singleton.mp ho
    exact .inl hvalue.inUse
  | some c =>
    have hc := hcond c rfl u.reads
    refine uses_mono (uses_emit fun i hi => ?_) fun _ _ _ => trivial
    cases List.mem_singleton.mp hi
    refine ⟨.symbol hdst.names, fun o ho => ?_, not_single (by simp [Opcode.single])⟩
    simp only [List.mem_cons, List.not_mem_nil, or_false] at ho
    rcases ho with rfl | rfl | rfl
    · exact .inl hc.inUse
    -- the destination is read to keep it
    · exact .inr ⟨(hkept rfl).names, c, value, rfl, hc.inUse, hvalue.inUse⟩
    · exact .inl hvalue.inUse

/-- What is assigned to denotes the variable that is named there. -/
theorem uses_target (e : Expr) :
    Uses env u a (target env e) fun _ o => Denotes env (· ∈ e.refs) o := by
  unfold target
  split
  · exact uses_register
  · exact uses_indexed
  · exact uses_fail

variable [Scalar α]

/-- A declaration reads what its initializer reads, and writes its variable. A constant has no
code. -/
theorem uses_decl {id : DeclId} (hcond : UsableCondition env a cond)
    (hu : u.Covers (declReads env.decls id) (declWrites env.decls id) [] cond) :
    Uses env u a (decl env cond id) fun _ _ => True := by
  unfold decl
  split
  · exact uses_pure trivial
  · rename_i d hd
    split
    · exact uses_pure trivial
    · rename_i hconst
      have hrun : initialized? env.decls id = some d :=
        initialized?_eq_some.mpr ⟨hd, by simpa using hconst⟩
      have hwrites : id ∈ declWrites env.decls id := by simp [declWrites, hrun]
      refine uses_bind uses_beginStatement fun a₁ _ h₁ _ => ?_
      -- with an initializer and without one, the declaration ends with a write
      have hfinish : ∀ (a₂ : Allocator α) (name : Bytes) (value : Operand), a₁.Grows a₂ →
          Usable env u.reads a₂ value →
          Uses env u a₂ (register env { name := name, decl := some id } >>= fun reg =>
            write cond reg value) fun _ _ => True := by
        intro a₂ name value h₂ hvalue
        refine uses_bind uses_register fun a₃ reg h₃ hreg => ?_
        have hself : ∀ i, i ∈ (some id).toList → i = id := fun i hi => by simpa using hi
        exact uses_write (hcond.mono ((h₁.trans h₂).trans h₃))
          (hreg.mono fun i hi => hself i hi ▸ hu.writes id hwrites)
          (fun hc => hreg.mono fun i hi => hself i hi ▸ hu.under hc id hwrites) (hvalue.mono h₃)
      split
      · rename_i init hinit
        have hreads : declReads env.decls id = init.refs := by simp [declReads, hrun, hinit]
        exact uses_bind (uses_expr init fun i hi => hu.reads i (hreads ▸ hi))
          fun a₂ value h₂ hvalue => hfinish a₂ _ value h₂ hvalue
      · exact uses_bind (uses_pure (usable_of (.common (by simp)))) fun a₂ value h₂ hvalue =>
          hfinish a₂ _ value h₂ hvalue

/-- Declarations in order, each covered by what all of them read and write. -/
theorem uses_decls : ∀ (ids : List DeclId) {a : Allocator α}, UsableCondition env a cond →
    u.Covers (ids.flatMap (declReads env.decls)) (ids.flatMap (declWrites env.decls)) [] cond →
    Uses env u a (decls env cond ids) fun _ _ => True
  | [], _, _, _ => uses_pure trivial
  | id :: ids, _, hcond, hu => by
    rw [List.flatMap_cons, List.flatMap_cons] at hu
    obtain ⟨hfirst, hrest⟩ := Usage.Covers.append (k := []) hu
    exact uses_bind (uses_decl hcond hfirst) fun _ _ h₁ _ => uses_decls ids (hcond.mono h₁) hrest

omit [Scalar α] in
theorem uses_spread (hvalue : Usable env u.reads a value) :
    Uses env u a (spread value) fun a' o => Own a' o := by
  refine uses_bind uses_temp fun a₁ res h₁ hres => ?_
  refine uses_bind (uses_instrs (fun c => res.component c) (fun _ => [value.scalar]) Component.all
    (fun c _ => hres.component c) (fun _ _ => usable_single (hvalue.mono h₁).scalar)
    fun h => absurd h (by decide)) fun a₂ _ _ heq => ?_
  subst heq
  exact uses_pure hres

/-- The entry of an `if` reads what its condition reads, and leaves its own condition combined with
the one around it. -/
theorem uses_enterIf (hcond : UsableCondition env a cond) (e : Expr)
    (he : ∀ id ∈ e.refs, u.reads id) :
    Uses env u a (enterIf env cond e) fun a' o => Own a' o := by
  refine uses_bind (uses_lines rfl) fun a₁ _ h₁ _ => ?_
  refine uses_bind (uses_lines rfl) fun a₂ _ h₂ _ => ?_
  refine uses_bind uses_resetSession fun a₃ _ h₃ _ => ?_
  refine uses_bind (uses_expr e he) fun a₄ value h₄ hvalue => ?_
  refine uses_bind (uses_spread hvalue) fun a₅ own h₅ hown => ?_
  refine uses_bind uses_longLived fun a₆ combined h₆ hcombined => ?_
  have hcond := hcond.mono (((((h₁.trans h₂).trans h₃).trans h₄).trans h₅).trans h₆)
  have hown : Usable env u.reads a₆ own := (hown.mono h₆).usable
  cases cond with
  | none =>
    refine uses_bind (uses_lines rfl) fun a₇ _ _ heq => ?_
    subst heq
    refine uses_bind (uses_instr hcombined (usable_single hown) (not_single (by decide)))
      fun a₈ _ _ heq => ?_
    subst heq
    exact uses_pure hcombined
  | some c =>
    refine uses_bind (uses_lines rfl) fun a₇ _ _ heq => ?_
    subst heq
    refine uses_bind (uses_instr hcombined (usable_triple (hcond c rfl _) (usable_truth false) hown)
      (not_single (by decide))) fun a₈ _ _ heq => ?_
    subst heq
    exact uses_pure hcombined

omit [Scalar α] in
/-- An `else` negates the condition of its `if` in place. -/
theorem uses_enterElse {combined : Operand} (hcond : UsableCondition env a cond)
    (hcombined : Own a combined) :
    Uses env u a (enterElse cond combined) fun _ _ => True := by
  have hneg : Usable env u.reads a combined.neg := hcombined.usable.neg
  refine uses_bind (uses_lines rfl) fun a₁ _ _ heq => ?_
  subst heq
  cases cond with
  | none =>
    refine uses_bind (uses_lines rfl) fun a₂ _ _ heq => ?_
    subst heq
    exact uses_mono (uses_instr hcombined (usable_single hneg) (not_single (by decide)))
      fun _ _ _ => trivial
  | some c =>
    refine uses_bind (uses_lines rfl) fun a₂ _ _ heq => ?_
    subst heq
    exact uses_mono (uses_instr hcombined (usable_triple (hcond c rfl _) (usable_truth false)
      hneg) (not_single (by decide))) fun _ _ _ => trivial

omit [Scalar α] in
/-- What stands inside an `if` writes under its condition. -/
theorem Usage.Covers.enter {r w k : List DeclId} (h : u.Covers r w w cond) (hk : k ⊆ w)
    (o : Operand) : u.Covers r w k (some o) :=
  ⟨h.reads, h.writes, fun id hid => h.kept id (hk hid), fun _ => h.kept⟩

mutual

/-- **The code of a statement reads the variables that the statement reads, and writes those that it
writes.** It also reads those it writes under a condition, to keep them. -/
theorem within_stmt : ∀ (st : Stmt) {cond : Option Operand} {a : Allocator α},
    UsableCondition env a cond →
    u.Covers (st.reads env.decls) (st.writes env.decls) (st.kept env.decls) cond →
    Uses env u a (stmt env cond st) fun _ _ => True
  | .absent, _, _, _, _ => by rw [stmt]; exact uses_fail
  | .assign _ dst value, _, _, hcond, hu => by
    rw [stmt]
    exact uses_bind uses_beginStatement fun a₁ _ h₁ _ =>
      uses_bind (uses_expr value hu.reads) fun a₂ value h₂ hvalue =>
      uses_bind (uses_target dst) fun a₃ dst h₃ hdst =>
        uses_write (hcond.mono ((h₁.trans h₂).trans h₃)) (hdst.mono hu.writes)
          (fun hc => hdst.mono (hu.under hc)) (hvalue.mono h₃)
  | .branch e yes none, _, _, hcond, hu => by
    rw [stmt]
    obtain ⟨he, hyes⟩ := Usage.Covers.append (r := e.refs) (w := []) (k := []) hu
    exact uses_bind (uses_enterIf hcond e he.reads) fun a₁ combined _ hcombined =>
      within_stmt yes (usableCondition_some hcombined) (hyes.enter (yes.kept_subset env.decls) _)
  | .branch e yes (some no), _, _, hcond, hu => by
    rw [stmt]
    obtain ⟨he, hboth⟩ := Usage.Covers.append (r := e.refs) (w := []) (k := []) hu
    obtain ⟨hyes, hno⟩ := hboth.append
    exact uses_bind (uses_enterIf hcond e he.reads) fun a₁ combined h₁ hcombined =>
      uses_bind (within_stmt yes (usableCondition_some hcombined)
        (hyes.enter (yes.kept_subset env.decls) _)) fun a₂ _ h₂ _ =>
      uses_bind (uses_enterElse (hcond.mono (h₁.trans h₂)) (hcombined.mono h₂)) fun a₃ _ h₃ _ =>
        within_stmt no (usableCondition_some (hcombined.mono (h₂.trans h₃)))
          (hno.enter (no.kept_subset env.decls) _)
  | .loop _ _ _, _, _, _, _ => by rw [stmt]; exact uses_fail
  | .scope ids ss, _, _, hcond, hu => by
    rw [stmt]
    obtain ⟨hids, hss⟩ := Usage.Covers.append (k := []) hu
    exact uses_bind (uses_decls ids hcond hids) fun a₁ _ h₁ _ =>
      within_stmts ss (hcond.mono h₁) hss

theorem within_stmts : ∀ (ss : List Stmt) {cond : Option Operand} {a : Allocator α},
    UsableCondition env a cond →
    u.Covers (Stmt.listReads env.decls ss) (Stmt.listWrites env.decls ss)
      (Stmt.listKept env.decls ss) cond →
    Uses env u a (stmts env cond ss) fun _ _ => True
  | [], _, _, _, _ => by
    rw [stmts]
    exact uses_pure trivial
  | s :: ss, _, _, hcond, hu => by
    rw [stmts]
    obtain ⟨hs, hss⟩ := hu.append
    exact uses_bind (within_stmt s hcond hs) fun a₁ _ h₁ _ => within_stmts ss (hcond.mono h₁) hss

end

/-- The code of a statement uses registers that are declared. -/
theorem uses_stmt (st : Stmt) (hcond : UsableCondition env a cond) : ∀ b code a',
    run (stmt env cond st) a = .ok (b, code, a') → a.Grows a' ∧
      (∀ i ∈ instructions code, i.Over (a'.InUse env fun _ => True)) ∧ True := by
  intro b code a' hrun
  have hall : Usage.Covers ⟨fun _ => True, fun _ => True, fun _ => True⟩ (st.reads env.decls)
      (st.writes env.decls) (st.kept env.decls) cond :=
    ⟨fun _ _ => trivial, fun _ _ => trivial, fun _ _ => trivial, fun _ _ _ => trivial⟩
  obtain ⟨hgrows, hwithin, -⟩ := within_stmt st hcond hall b code a' hrun
  exact ⟨hgrows, fun i hi => (hwithin i hi).over (fun r hr => hr.inUse fun _ h => h) fun r hr => hr,
    trivial⟩

end Stmts

end Lower

end Shader
