import Shader.Lower.Stmt
import Shader.Proofs.Machine

/-!
# What the emitted code looks like

Facts about the code of every tree, checked or not, that can be read off its instructions: each has
the number of sources its operation takes, so a machine never stops at one, and each writes a
register of a known kind. The code of an expression writes scratch registers that were not handed
out before it, so what earlier code has left stays. The code of a statement writes scratch
registers, variables and the registers of its own conditions, but no constant and no condition
around it.

`Emits` says this of a step of code generation, and it goes through `do` like the steps themselves.
-/

namespace Shader

open Program (Expr Stmt)
open Number (Scalar)

/-! ## Instructions the machine can do -/

/-- The number of sources of an instruction of the machine. -/
def Opcode.arity? : Opcode → Option Nat
  | cmp => some 3
  | add | sub | mul | min | max | pow | dp3 => some 2
  | mov | rcp | rsq | lit => some 1
  | abs | unknown => none

/-- An operand that selects a whole register or one component. -/
def Operand.Plain (o : Operand) : Prop := ∀ t, o.select ≠ .other t

section Plain

variable {o : Operand}

theorem Operand.plain_of (r : Register) : (Operand.of r).Plain := fun _ => by simp [Operand.of]

theorem Operand.plain_component (o : Operand) (c : Component) : (o.component c).Plain :=
  fun _ => by simp [Operand.component]

theorem Operand.Plain.neg (h : o.Plain) : o.neg.Plain := h

theorem Operand.Plain.scalar (h : o.Plain) : o.scalar.Plain := by
  unfold Operand.scalar
  split
  · exact plain_component o .x
  · exact h

end Plain

/-- An instruction that the machine can do. -/
structure Instruction.WellFormed (i : Instruction) : Prop where
  arity : i.op.arity? = some i.src.length
  sources : ∀ o ∈ i.src, o.Plain
  target : i.dst.Plain
  positive : i.dst.negated = false

namespace Machine

variable {K : Type} [Field K] [LinearOrder K] {F : Functions K}

omit [LinearOrder K] in
/-- A plain operand can always be read. -/
theorem exists_read {o : Operand} (h : o.Plain) (ρ : Registers K) : ∃ v, read ρ o = some v := by
  have hsel : ∃ v, selected ρ o = some v := by
    unfold selected
    split
    · exact ⟨_, rfl⟩
    · exact ⟨_, rfl⟩
    · rename_i t ht
      exact absurd ht (h t)
  obtain ⟨v, hv⟩ := hsel
  exact ⟨_, by rw [read, hv, Option.map_some]⟩

omit [LinearOrder K] in
theorem exists_mapM_read {os : List Operand} (h : ∀ o ∈ os, o.Plain) (ρ : Registers K) :
    ∃ vs, os.mapM (read ρ) = some vs ∧ vs.length = os.length := by
  induction os with
  | nil => exact ⟨[], rfl, rfl⟩
  | cons o os ih =>
    obtain ⟨v, hv⟩ := exists_read (h o (by simp)) ρ
    obtain ⟨vs, hvs, hlen⟩ := ih fun o ho => h o (by simp [ho])
    refine ⟨v :: vs, ?_, by rw [List.length_cons, List.length_cons, hlen]⟩
    rw [List.mapM_cons, hv, hvs]
    rfl

/-- An operation on as many values as it takes has a result. -/
theorem exists_apply {op : Opcode} {vs : List (Vec K)} (h : op.arity? = some vs.length) :
    ∃ v, apply F op vs = some v := by
  match vs with
  | [] => cases op <;> simp [Opcode.arity?] at h
  | [a] => cases op <;> simp [Opcode.arity?] at h <;> exact ⟨_, rfl⟩
  | [a, b] => cases op <;> simp [Opcode.arity?] at h <;> exact ⟨_, rfl⟩
  | [a, b, c] =>
    cases op <;> simp [Opcode.arity?] at h
    exact ⟨_, rfl⟩
  | _ :: _ :: _ :: _ :: _ => cases op <;> simp [Opcode.arity?] at h

/-- **Progress**: the machine does not stop at well-formed code. -/
theorem exists_run {is : List Instruction} (h : ∀ i ∈ is, i.WellFormed) (ρ : Registers K) :
    ∃ ρ', run F is ρ = some ρ' := by
  induction is generalizing ρ with
  | nil => exact ⟨ρ, rfl⟩
  | cons i is ih =>
    have hi := h i (by simp)
    obtain ⟨vs, hvs, hlen⟩ := exists_mapM_read hi.sources ρ
    obtain ⟨v, hv⟩ : ∃ v, apply F i.op vs = some v := exists_apply (by rw [hlen, hi.arity])
    obtain ⟨ρ₁, hρ₁⟩ : ∃ ρ₁, write ρ i.dst v = some ρ₁ := by
      unfold write
      rw [hi.positive, if_neg Bool.false_ne_true]
      split
      · exact ⟨_, rfl⟩
      · exact ⟨_, rfl⟩
      · rename_i t ht
        exact absurd ht (hi.target t)
    obtain ⟨ρ', hρ'⟩ := ih (fun j hj => h j (by simp [hj])) ρ₁
    refine ⟨ρ', ?_⟩
    rw [run, step, hvs]
    show ((apply F i.op vs >>= fun v => write ρ i.dst v).bind (run F is)) = some ρ'
    rw [hv]
    show ((write ρ i.dst v).bind (run F is)) = some ρ'
    rw [hρ₁]
    exact hρ'

end Machine

/-! ## Allocators -/

namespace Allocator

variable {α : Type}

/-- An allocator as steps leave it: the scratch registers are numbered in order, the session is
within them, and every constant has a register of its own. -/
structure Tidy (a : Allocator α) : Prop where
  temps : a.program.temps = (List.range a.program.temps.length).map .temp
  position : a.position ≤ a.program.temps.length
  immediates : a.program.immediates.map (·.reg) =
    [.truth true, .truth false, .zero] ++ (List.range a.constants).map .immediate
  /-- The constants that every program has. -/
  common : ({} : Assembly α).immediates ⊆ a.program.immediates
  /-- No constant is taken from another register. -/
  closed : ∀ p ∈ a.program.immediates, Machine.sources p.value = []

/-- An allocator that came of another: registers for constants and conditions were only added. -/
structure Extends (a a' : Allocator α) : Prop where
  immediates : a.program.immediates ⊆ a'.program.immediates
  conditions : a.conditions ≤ a'.conditions
  userParams : a'.program.userParams = a.program.userParams
  lines : a'.program.lines = a.program.lines

variable {a a' a'' : Allocator α}

theorem Extends.refl (a : Allocator α) : a.Extends a := ⟨fun _ h => h, Nat.le_refl _, rfl, rfl⟩

theorem Extends.trans (h : a.Extends a') (h' : a'.Extends a'') : a.Extends a'' where
  immediates := fun _ hp => h'.immediates (h.immediates hp)
  conditions := Nat.le_trans h.conditions h'.conditions
  userParams := h'.userParams.trans h.userParams
  lines := h'.lines.trans h.lines

theorem Tidy.reset (h : a.Tidy) : a.reset.Tidy :=
  ⟨h.temps, Nat.zero_le _, h.immediates, h.common, h.closed⟩

/-- The scratch registers of a session are numbered from zero. -/
theorem Tidy.temp_fst (h : a.Tidy) : a.temp.1 = .temp a.position := by
  unfold temp
  split
  · rename_i r hr
    rw [h.temps, List.getElem?_map] at hr
    obtain ⟨n, hn, rfl⟩ := Option.map_eq_some_iff.mp hr
    obtain ⟨hlt, hn⟩ := List.getElem?_eq_some_iff.mp hn
    rw [← hn, List.getElem_range]
  · rename_i hr
    have hle := List.getElem?_eq_none_iff.mp hr
    rw [Nat.le_antisymm hle h.position]

/-- A scratch register is one that an earlier session has declared, or the next in the order of
numbers. -/
theorem Tidy.temp (h : a.Tidy) : a.temp.2.Tidy := by
  unfold Allocator.temp
  split
  · rename_i r hr
    exact ⟨h.temps, (List.getElem?_eq_some_iff.mp hr).1, h.immediates, h.common, h.closed⟩
  · rename_i hr
    have hlen := Nat.le_antisymm (List.getElem?_eq_none_iff.mp hr) h.position
    refine ⟨?_, ?_, h.immediates, h.common, h.closed⟩
    · show a.program.temps ++ [Register.temp a.program.temps.length] =
        (List.range (a.program.temps ++ [Register.temp a.program.temps.length]).length).map
          Register.temp
      rw [List.length_append, List.length_singleton, List.range_succ, List.map_append, ← h.temps]
      rfl
    · show a.position + 1 ≤ (a.program.temps ++ [Register.temp a.program.temps.length]).length
      rw [List.length_append, List.length_singleton, hlen]

/-- Each scratch register moves the session on by one, whether or not it had to be declared. -/
theorem position_temp (a : Allocator α) : a.temp.2.position = a.position + 1 := by
  unfold temp
  split <;> rfl

theorem extends_temp (a : Allocator α) : a.Extends a.temp.2 := by
  unfold temp
  split <;> exact ⟨fun _ h => h, Nat.le_refl _, rfl, rfl⟩

theorem Tidy.longLived (h : a.Tidy) : a.longLived.2.Tidy :=
  ⟨h.temps, h.position, h.immediates, h.common, h.closed⟩

theorem extends_longLived (a : Allocator α) : a.Extends a.longLived.2 :=
  ⟨fun _ h => h, Nat.le_succ _, rfl, rfl⟩

/-- A new constant gets the next number, so every constant keeps a register of its own. -/
theorem Tidy.immediate (h : a.Tidy) {v : ParamValue α} (hv : Machine.sources v = []) :
    (a.immediate v).2.Tidy where
  temps := h.temps
  position := h.position
  immediates := by
    show (a.program.immediates ++ [Param.mk (.immediate a.constants) v]).map Param.reg =
      [Register.truth true, .truth false, .zero] ++
        (List.range (a.constants + 1)).map Register.immediate
    rw [List.map_append, h.immediates, List.range_succ, List.map_append, List.append_assoc]
    rfl
  common := fun _ hp => List.mem_append_left _ (h.common hp)
  closed := by
    intro p hp
    rcases List.mem_append.mp hp with hp | hp
    · exact h.closed p hp
    · cases List.mem_singleton.mp hp
      exact hv

theorem extends_immediate (a : Allocator α) (v : ParamValue α) : a.Extends (a.immediate v).2 :=
  ⟨fun _ h => List.mem_append_left _ h, Nat.le_refl _, rfl, rfl⟩

end Allocator

/-- The instructions among lines. -/
def instructions (lines : List Line) : List Instruction := lines.filterMap Line.instruction?

theorem instructions_append (code more : List Line) :
    instructions (code ++ more) = instructions code ++ instructions more := List.filterMap_append

theorem instructions_map {β : Type} (f : β → Instruction) (bs : List β) :
    instructions (bs.map fun b => .instr (f b)) = bs.map f := by
  rw [instructions, List.filterMap_map]
  exact List.filterMap_eq_map (f := f) ▸ rfl

namespace Lower

/-! ## Steps in another grouping -/

section Grouping

variable {α β γ : Type}

theorem lower_bind_pure (m : Lower α β) : m >>= pure = m := by
  funext a
  show run (m >>= pure) a = run m a
  rw [run_bind]
  cases run m a with
  | error e => rfl
  | ok r => simp

theorem lower_pure_bind (b : β) (f : β → Lower α γ) : pure b >>= f = f b := by
  funext a
  show run (pure b >>= f) a = run (f b) a
  rw [run_bind, run_pure]
  dsimp only
  cases run (f b) a <;> rfl

/-- Lines are joined in order, however steps are grouped, and the first failure ends the whole in
any grouping. -/
theorem lower_bind_assoc {δ : Type} (m : Lower α β) (f : β → Lower α γ) (g : γ → Lower α δ) :
    m >>= f >>= g = m >>= fun b => f b >>= g := by
  funext a
  show run (m >>= f >>= g) a = run (m >>= fun b => f b >>= g) a
  rw [run_bind, run_bind, run_bind]
  cases run m a with
  | error e => rfl
  | ok r =>
    obtain ⟨b, code, a₁⟩ := r
    dsimp only
    rw [run_bind]
    cases run (f b) a₁ with
    | error e => rfl
    | ok r =>
      obtain ⟨c, more, a₂⟩ := r
      dsimp only
      cases run (g c) a₂ with
      | error e => rfl
      | ok r => simp

instance lawfulMonad : LawfulMonad (Lower α) :=
  LawfulMonad.mk' (Lower α) lower_bind_pure lower_pure_bind lower_bind_assoc

end Grouping

variable {α β γ : Type}

/-! ## What a step emits -/

/-- `Emits W a m Q`: if the step `m` succeeds from `a`, then its instructions are well-formed and
write registers in `W`, and its result and the allocator after it satisfy `Q`. -/
def Emits (W : Register → Prop) (a : Allocator α) (m : Lower α β) (Q : Allocator α → β → Prop) :
    Prop :=
  ∀ b code a', run m a = .ok (b, code, a') → a'.Tidy ∧ a.Extends a' ∧
    (∀ i ∈ instructions code, i.WellFormed ∧ W i.dst.reg) ∧ Q a' b

section Combinators

variable {W : Register → Prop} {a : Allocator α} {P : Allocator α → β → Prop}
  {Q : Allocator α → γ → Prop}

theorem emits_pure (ha : a.Tidy) {c : γ} (h : Q a c) : Emits W a (pure c) Q := by
  intro b code a' hrun
  cases hrun
  exact ⟨ha, .refl a, by simp [instructions], h⟩

/-- Steps in sequence. Both write within `W`, and what the first has left holds where the second
begins. -/
theorem emits_bind {m : Lower α β} {f : β → Lower α γ} (hm : Emits W a m P)
    (hf : ∀ a₁ b, a₁.Tidy → a.Extends a₁ → P a₁ b → Emits W a₁ (f b) Q) :
    Emits W a (m >>= f) Q := by
  intro c lines a₂ hrun
  obtain ⟨b, code, a₁, more, h₁, h₂, rfl⟩ := run_bind_eq_ok.mp hrun
  obtain ⟨ht₁, he₁, hc₁, hp⟩ := hm b code a₁ h₁
  obtain ⟨ht₂, he₂, hc₂, hq⟩ := hf a₁ b ht₁ he₁ hp c more a₂ h₂
  refine ⟨ht₂, he₁.trans he₂, ?_, hq⟩
  intro i hi
  rw [instructions_append, List.mem_append] at hi
  exact hi.elim (hc₁ i) (hc₂ i)

/-- More registers may be written, and less said of the result. -/
theorem emits_mono {W' : Register → Prop} {P' : Allocator α → β → Prop} {m : Lower α β}
    (hm : Emits W a m P) (hW : ∀ r, W r → W' r) (hP : ∀ a' b, P a' b → P' a' b) :
    Emits W' a m P' := by
  intro b code a' hrun
  obtain ⟨ht, he, hc, hp⟩ := hm b code a' hrun
  exact ⟨ht, he, fun i hi => ⟨(hc i hi).1, hW _ (hc i hi).2⟩, hP a' b hp⟩

theorem emits_fail {e : Failure} : Emits W a (fail e) P := by
  intro b code a' hrun
  cases hrun

theorem emits_ofExcept (ha : a.Tidy) {r : Except Failure β} :
    Emits W a (ofExcept r) fun a' b => a' = a ∧ r = .ok b := by
  intro b code a' hrun
  cases r with
  | error e => cases hrun
  | ok b' =>
    cases hrun
    exact ⟨ha, .refl a, by simp [instructions], rfl, rfl⟩

theorem emits_emit (ha : a.Tidy) {lines : List Line}
    (h : ∀ i ∈ instructions lines, i.WellFormed ∧ W i.dst.reg) :
    Emits W a (emit lines) fun a' _ => a' = a := by
  intro b code a' hrun
  cases hrun
  exact ⟨ha, .refl a, h, rfl⟩

theorem emits_instr (ha : a.Tidy) {op : Opcode} {dst : Operand} {src : List Operand}
    (h : (⟨op, dst, src⟩ : Instruction).WellFormed) (hW : W dst.reg) :
    Emits W a (instr op dst src) fun a' _ => a' = a := by
  refine emits_emit ha fun i hi => ?_
  cases List.mem_singleton.mp hi
  exact ⟨h, hW⟩

/-- In a tidy allocator the scratch register that is handed out has the number of the session's
position. -/
theorem run_temp (ha : a.Tidy) :
    run temp a = .ok (.of (.temp a.position), [], a.temp.2) := by
  show Except.ok (Operand.of a.temp.1, [], a.temp.2) = _
  rw [ha.temp_fst]

/-- A scratch register brings no code. -/
theorem emits_temp (ha : a.Tidy) :
    Emits W a temp fun a' o => o = .of (.temp a.position) ∧ a'.position = a.position + 1 := by
  intro o code a' hrun
  rw [run_temp ha] at hrun
  cases hrun
  exact ⟨ha.temp, a.extends_temp, by simp [instructions], rfl, a.position_temp⟩

/-- A register for a condition brings no code, and conditions are counted up. -/
theorem emits_longLived (ha : a.Tidy) :
    Emits W a longLived fun a' o =>
      o = .of (.longLived a.conditions) ∧ a'.conditions = a.conditions + 1 := by
  intro o code a' hrun
  cases hrun
  exact ⟨ha.longLived, a.extends_longLived, by simp [instructions], rfl, rfl⟩

/-- A constant brings no code, and does not touch the session. -/
theorem emits_immediate (ha : a.Tidy) {v : ParamValue α} (hv : Machine.sources v = []) :
    Emits W a (immediate v) fun a' o =>
      o = .of (.immediate a.constants) ∧ a'.position = a.position := by
  intro o code a' hrun
  cases hrun
  exact ⟨ha.immediate hv, a.extends_immediate v, by simp [instructions], rfl, rfl⟩

theorem emits_resetSession (ha : a.Tidy) :
    Emits W a resetSession fun a' _ => a'.position = 0 ∧ a'.conditions = a.conditions := by
  intro o code a' hrun
  cases hrun
  exact ⟨ha.reset, ⟨fun _ h => h, Nat.le_refl _, rfl, rfl⟩, by simp [instructions], rfl, rfl⟩

/-- What a step does not write keeps its contents. -/
theorem Emits.frame {K : Type} [Field K] [LinearOrder K] {F : Functions K} {ρ ρ' : Registers K}
    {m : Lower α β} (h : Emits W a m P) {b : β} {code : List Line} {a' : Allocator α}
    (hrun : run m a = .ok (b, code, a'))
    (hmachine : Machine.run F (instructions code) ρ = some ρ') {r : Register} (hr : ¬W r) :
    ρ' r = ρ r := by
  obtain ⟨-, -, hcode, -⟩ := h b code a' hrun
  refine Machine.run_of_ne hmachine fun i hi heq => hr ?_
  rw [← heq]
  exact (hcode i hi).2

end Combinators

/-! ## Expressions -/

/-- A scratch register numbered `first` or later. -/
def ScratchFrom (first : Nat) (r : Register) : Prop := ∃ n, r = .temp n ∧ first ≤ n

theorem ScratchFrom.mono {first second : Nat} (hle : first ≤ second) {r : Register}
    (h : ScratchFrom second r) : ScratchFrom first r := by
  obtain ⟨n, rfl, hn⟩ := h
  exact ⟨n, rfl, Nat.le_trans hle hn⟩

/-- An operand whose value code behind it leaves alone: if it is in a scratch register, then one
numbered before `position`. -/
structure Settled (position : Nat) (o : Operand) : Prop where
  plain : o.Plain
  below : ∀ n, o.reg = .temp n → n < position

/-- A settled operand stays settled while the session moves on. -/
theorem Settled.mono {p q : Nat} (hle : p ≤ q) {o : Operand} (h : Settled p o) : Settled q o :=
  ⟨h.plain, fun n hn => Nat.lt_of_lt_of_le (h.below n hn) hle⟩

/-- A scratch register that was handed out is settled. -/
theorem settled_temp {n p : Nat} (h : n < p) : Settled p (.of (.temp n)) where
  plain := Operand.plain_of _
  below := by
    intro k hk
    cases hk
    exact h

/-- What the code of an expression leaves behind: more of the session used, and the value in an
operand that is settled. -/
def Leaves (p : Nat) (a' : Allocator α) (o : Operand) : Prop :=
  p ≤ a'.position ∧ Settled a'.position o

section Operators

variable {p : Nat} {a : Allocator α} {l r : Operand}

theorem emits_instr_temp {n : Nat} (ha : a.Tidy) (hn : p ≤ n) {op : Opcode} {src : List Operand}
    (harity : op.arity? = some src.length) (hsrc : ∀ o ∈ src, o.Plain) :
    Emits (ScratchFrom p) a (instr op (.of (.temp n)) src) fun a' _ => a' = a :=
  emits_instr ha ⟨harity, hsrc, Operand.plain_of _, rfl⟩ ⟨n, rfl, hn⟩

/-- Instructions on single components of a scratch register. -/
theorem emits_components {ι : Type} {n : Nat} (ha : a.Tidy) (hn : p ≤ n) {op : Opcode}
    (target : ι → Component) (src : ι → List Operand) (is : List ι)
    (harity : ∀ i ∈ is, op.arity? = some (src i).length)
    (hsrc : ∀ i ∈ is, ∀ o ∈ src i, o.Plain) :
    Emits (ScratchFrom p) a
      (emit (is.map fun i => .instr ⟨op, (Operand.of (.temp n)).component (target i), src i⟩))
      fun a' _ => a' = a := by
  refine emits_emit ha fun i hi => ?_
  rw [instructions_map] at hi
  obtain ⟨c, hc, rfl⟩ := List.mem_map.mp hi
  exact ⟨⟨harity c hc, hsrc c hc, Operand.plain_component _ _, rfl⟩, n, rfl, hn⟩

theorem plain_pair (hl : l.Plain) (hr : r.Plain) : ∀ o ∈ [l, r], o.Plain := by
  intro o ho
  rcases List.mem_cons.mp ho with rfl | ho
  · exact hl
  · cases List.mem_singleton.mp ho
    exact hr

theorem plain_single (hl : l.Plain) : ∀ o ∈ [l], o.Plain := by
  intro o ho
  cases List.mem_singleton.mp ho
  exact hl

theorem plain_triple {q : Operand} (hl : l.Plain) (hr : r.Plain) (hq : q.Plain) :
    ∀ o ∈ [l, r, q], o.Plain := by
  intro o ho
  rcases List.mem_cons.mp ho with rfl | ho
  · exact hl
  · exact plain_pair hr hq o ho

/-- The result of an operator in the first scratch register it asks for. -/
theorem leaves_temp {a₁ : Allocator α} (hp : p ≤ a.position) (h : a.position < a₁.position) :
    Leaves p a₁ (.of (.temp a.position)) :=
  ⟨Nat.le_trans hp (Nat.le_of_lt h), settled_temp h⟩

theorem emits_direct {op : Opcode} (hop : op.arity? = some 2) (ha : a.Tidy) (hp : p ≤ a.position)
    (hl : l.Plain) (hr : r.Plain) : Emits (ScratchFrom p) a (direct op l r) (Leaves p) := by
  refine emits_bind (emits_temp ha) fun a₁ res h₁ _ hres => ?_
  obtain ⟨rfl, hpos⟩ := hres
  refine emits_bind (emits_instr_temp h₁ hp hop (plain_pair hl hr)) fun a₂ _ h₂ _ heq => ?_
  subst heq
  exact emits_pure h₂ (leaves_temp hp (by rw [hpos]; exact Nat.lt_succ_self _))

theorem emits_two {m : Operand → Operand → Lower α Operand} {Q : Allocator α → Operand → Prop}
    (ha : a.Tidy) (hm : ∀ a₁ : Allocator α, a₁.Tidy → a₁.position = a.position + 2 →
      Emits (ScratchFrom p) a₁ (m (.of (.temp a.position)) (.of (.temp (a.position + 1)))) Q) :
    Emits (ScratchFrom p) a (temp >>= fun res => temp >>= fun other => m res other) Q := by
  refine emits_bind (emits_temp ha) fun a₁ res h₁ _ hres => ?_
  obtain ⟨rfl, hpos₁⟩ := hres
  refine emits_bind (emits_temp h₁) fun a₂ other h₂ _ hother => ?_
  obtain ⟨rfl, hpos₂⟩ := hother
  rw [hpos₁] at hpos₂ ⊢
  exact hm a₂ h₂ hpos₂

/-- A quotient: the reciprocals first, all components of them or one, then the product. -/
theorem emits_quotient {divisor : Ty} (ha : a.Tidy) (hp : p ≤ a.position) (hl : l.Plain)
    (hr : r.Plain) : Emits (ScratchFrom p) a (quotient l r divisor) (Leaves p) := by
  refine emits_two ha fun a₁ h₁ hpos => ?_
  have hlt : a.position < a₁.position := by omega
  have hp' : p ≤ a.position + 1 := Nat.le_succ_of_le hp
  -- both branches end with the product
  have hproduct : ∀ a₂ : Allocator α, a₂.Tidy → a₂ = a₁ →
      Emits (ScratchFrom p) a₂
        (instr .mul (.of (.temp a.position)) [l, .of (.temp (a.position + 1))] >>= fun _ =>
          pure (.of (.temp a.position))) (Leaves p) := by
    intro a₂ h₂ heq
    subst heq
    refine emits_bind (emits_instr_temp h₂ hp rfl (plain_pair hl (Operand.plain_of _)))
      fun a₃ _ h₃ _ heq => ?_
    subst heq
    exact emits_pure h₃ (leaves_temp hp hlt)
  split
  · exact emits_bind (emits_instr_temp h₁ hp' rfl (plain_single hr.scalar)) fun a₂ _ h₂ _ heq =>
      hproduct a₂ h₂ heq
  · refine emits_bind (emits_ofExcept h₁) fun a₂ cs h₂ _ hcs => ?_
    obtain ⟨rfl, -⟩ := hcs
    exact emits_bind (emits_components h₂ hp' id (fun c => [r.component c]) cs
      (fun _ _ => rfl) fun c _ => plain_single (Operand.plain_component r c))
      fun a₃ _ h₃ _ heq => hproduct a₃ h₃ heq

/-- A power, one component at a time. -/
theorem emits_power {type : Ty} (ha : a.Tidy) (hp : p ≤ a.position) (hl : l.Plain)
    (hr : r.Plain) : Emits (ScratchFrom p) a (power l r type) (Leaves p) := by
  refine emits_bind (emits_temp ha) fun a₁ res h₁ _ hres => ?_
  obtain ⟨rfl, hpos⟩ := hres
  have hlt : a.position < a₁.position := by omega
  split
  · refine emits_bind (emits_instr_temp h₁ hp rfl (plain_pair hl.scalar hr.scalar))
      fun a₂ _ h₂ _ heq => ?_
    subst heq
    exact emits_pure h₂ (leaves_temp hp hlt)
  · refine emits_bind (emits_ofExcept h₁) fun a₂ cs h₂ _ hcs => ?_
    obtain ⟨rfl, -⟩ := hcs
    refine emits_bind (emits_components h₂ hp id (fun c => [l.component c, r.component c]) cs
      (fun _ _ => rfl) fun c _ =>
        plain_pair (Operand.plain_component l c) (Operand.plain_component r c))
      fun a₃ _ h₃ _ heq => ?_
    subst heq
    exact emits_pure h₃ (leaves_temp hp hlt)

/-- A comparison of numbers by the sign of their difference. -/
theorem emits_compare {yes no : Operand} (ha : a.Tidy) (hp : p ≤ a.position) (hl : l.Plain)
    (hr : r.Plain) (hyes : yes.Plain) (hno : no.Plain) :
    Emits (ScratchFrom p) a (compare l r yes no) (Leaves p) := by
  refine emits_two ha fun a₁ h₁ hpos => ?_
  refine emits_bind (emits_instr_temp h₁ (Nat.le_succ_of_le hp) rfl (plain_pair hl hr))
    fun a₂ _ h₂ _ heq => ?_
  subst heq
  refine emits_bind (emits_instr_temp h₂ hp rfl (plain_triple (Operand.plain_of _) hyes hno))
    fun a₃ _ h₃ _ heq => ?_
  subst heq
  exact emits_pure h₃ (leaves_temp hp (by omega))

theorem plain_true : trueOperand.Plain := Operand.plain_of _

theorem plain_false : falseOperand.Plain := Operand.plain_of _

/-- Equality of values. Its result is in a scratch register, so that it can be negated in place. -/
theorem emits_equal {type : Ty} (ha : a.Tidy) (hp : p ≤ a.position) (hl : l.Plain)
    (hr : r.Plain) : Emits (ScratchFrom p) a (equal l r type) fun a' o =>
      Leaves p a' o ∧ ∃ n, o = .of (.temp n) ∧ p ≤ n := by
  refine emits_two ha fun a₂ h₂ hpos => ?_
  have hp₁ : p ≤ a.position + 1 := Nat.le_succ_of_le hp
  have htemp : ∀ n, (Operand.of (.temp n)).Plain := fun n => Operand.plain_of _
  -- the signs of both differences, and the lesser of the two
  refine emits_bind (emits_instr_temp h₂ hp₁ rfl (plain_pair hl hr)) fun b₁ _ h _ heq => ?_
  subst heq
  refine emits_bind (emits_instr_temp h hp rfl (plain_triple (htemp _) plain_false plain_true))
    fun b₂ _ h _ heq => ?_
  subst heq
  refine emits_bind (emits_instr_temp h hp₁ rfl (plain_pair hr hl)) fun b₃ _ h _ heq => ?_
  subst heq
  refine emits_bind (emits_instr_temp h hp₁ rfl (plain_triple (htemp _) plain_false plain_true))
    fun b₄ _ h _ heq => ?_
  subst heq
  refine emits_bind (emits_instr_temp h hp rfl (plain_pair (htemp _) (htemp _)))
    fun b₅ _ h _ heq => ?_
  subst heq
  -- the result of a number is in the first register, that of a vector in the second
  split
  · exact emits_pure h ⟨⟨by omega, settled_temp (by omega)⟩, _, rfl, hp⟩
  · refine emits_bind (emits_ofExcept h) fun b₆ cs h _ hcs => ?_
    obtain ⟨rfl, -⟩ := hcs
    refine emits_bind (emits_instr_temp h hp₁ rfl
      (plain_pair (Operand.plain_component _ _) (Operand.plain_component _ _)))
      fun b₇ _ h _ heq => ?_
    subst heq
    refine emits_bind (emits_emit h fun i hi => ?_) fun b₈ _ h _ heq => ?_
    · rw [instructions_map] at hi
      obtain ⟨c, -, rfl⟩ := List.mem_map.mp hi
      exact ⟨⟨rfl, plain_pair (Operand.plain_component _ _) (Operand.plain_component _ _),
        Operand.plain_of _, rfl⟩, _, rfl, hp₁⟩
    · subst heq
      exact emits_pure h ⟨⟨by omega, settled_temp (by omega)⟩, _, rfl, hp₁⟩

theorem emits_binary {op : BinaryOp} {left right type : Ty} (ha : a.Tidy) (hp : p ≤ a.position)
    (hl : l.Plain) (hr : r.Plain) :
    Emits (ScratchFrom p) a (binary op l r left right type) (Leaves p) := by
  cases op with
  | add => exact emits_direct rfl ha hp hl hr
  | sub => exact emits_direct rfl ha hp hl hr
  | mul => exact emits_direct rfl ha hp hl hr
  | and => exact emits_direct rfl ha hp hl hr
  | or => exact emits_direct rfl ha hp hl hr
  | div => exact emits_quotient ha hp hl hr
  | pow => exact emits_power ha hp hl hr
  | lt => exact emits_compare ha hp hl hr plain_true plain_false
  | gt => exact emits_compare ha hp hr hl plain_true plain_false
  | le => exact emits_compare ha hp hr hl plain_false plain_true
  | ge => exact emits_compare ha hp hl hr plain_false plain_true
  | eq => exact emits_mono (emits_equal ha hp hl hr) (fun _ h => h) fun _ _ h => h.1
  | ne =>
    refine emits_bind (emits_equal ha hp hl hr) fun a₁ res h₁ _ hres => ?_
    obtain ⟨hleaves, n, rfl, hn⟩ := hres
    refine emits_bind (emits_instr_temp h₁ hn rfl (plain_single (Operand.plain_of _).neg))
      fun a₂ _ h₂ _ heq => ?_
    subst heq
    exact emits_pure h₂ hleaves
  | unknown => exact emits_fail

theorem emits_single {op : Opcode} {src : List Operand} (harity : op.arity? = some src.length)
    (hsrc : ∀ o ∈ src, o.Plain) (ha : a.Tidy) (hp : p ≤ a.position) :
    Emits (ScratchFrom p) a
      (temp >>= fun res => instr op res src >>= fun _ => pure res) (Leaves p) := by
  refine emits_bind (emits_temp ha) fun a₁ res h₁ _ hres => ?_
  obtain ⟨rfl, hpos⟩ := hres
  refine emits_bind (emits_instr_temp h₁ hp harity hsrc) fun a₂ _ h₂ _ heq => ?_
  subst heq
  exact emits_pure h₂ (leaves_temp hp (by omega))

theorem emits_call {func : Bytes} {args : List Operand} (ha : a.Tidy) (hp : p ≤ a.position)
    (hargs : ∀ o ∈ args, o.Plain) : Emits (ScratchFrom p) a (call func args) (Leaves p) := by
  unfold call
  split
  · exact emits_fail
  · split
    · exact emits_single rfl (plain_single (hargs _ (by simp)).scalar) ha hp
    · exact emits_single rfl hargs ha hp
    · exact emits_single rfl hargs ha hp
    · exact emits_fail

/-- A constructor, one move for each component. -/
theorem emits_assemble {args : List Operand} (ha : a.Tidy) (hp : p ≤ a.position)
    (hargs : ∀ o ∈ args, o.Plain) : Emits (ScratchFrom p) a (assemble args) (Leaves p) := by
  refine emits_bind (emits_temp ha) fun a₁ res h₁ _ hres => ?_
  obtain ⟨rfl, hpos⟩ := hres
  refine emits_bind (emits_components h₁ hp (·.1) (fun ca => [ca.2.scalar])
    (Component.all.zip args) (fun _ _ => rfl) fun ca hca => ?_) fun a₂ _ h₂ _ heq => ?_
  · exact plain_single (hargs ca.2 (List.of_mem_zip hca).2).scalar
  · subst heq
    exact emits_pure h₂ (leaves_temp hp (by omega))

theorem emits_constant (ha : a.Tidy) (hp : p ≤ a.position) {v : ParamValue α}
    (hv : Machine.sources v = []) :
    Emits (ScratchFrom p) a (immediate v) (Leaves p) := by
  refine emits_mono (emits_immediate ha hv) (fun _ h => h) fun a' o h => ?_
  obtain ⟨rfl, hpos⟩ := h
  exact ⟨by omega, Operand.plain_of _, by simp [Operand.of]⟩

end Operators

/-- A register of a variable. -/
inductive IsVariable : Register → Prop where
  | user (name : Bytes) (copy : Nat) : IsVariable (.user name copy)
  | hardware (h : Hardware) : IsVariable (.hardware h)

/-- A symbol table of variables. -/
def Nameable (env : Env) : Prop := ∀ id r, env.symbols.register? id = some r → IsVariable r

section Exprs

variable [Scalar α] {env : Env}

/-- What a declaration is registered under is a register of a variable. -/
theorem isVariable_of_registerOf (henv : Nameable env) {decl : Option DeclId} {r : Register}
    (h : env.symbols.registerOf env.decls decl = .ok r) : IsVariable r := by
  unfold Symbols.registerOf at h
  split at h
  · cases h
  · split at h
    · cases h
      exact henv _ _ ‹_›
    · cases h

omit [Scalar α] in
theorem emits_register {W : Register → Prop} {a : Allocator α} (henv : Nameable env)
    (ha : a.Tidy) {ref : Ref} :
    Emits W a (register env ref) fun a' o => a' = a ∧ ∃ r, o = .of r ∧ IsVariable r := by
  refine emits_mono (emits_ofExcept ha) (fun _ h => h) fun a' o h => ?_
  obtain ⟨rfl, heq⟩ := h
  refine ⟨rfl, ?_⟩
  split at heq
  · rename_i r hr
    cases heq
    exact ⟨r, rfl, isVariable_of_registerOf henv hr⟩
  · cases heq

omit [Scalar α] in
theorem emits_indexed {W : Register → Prop} {a : Allocator α} (henv : Nameable env)
    (ha : a.Tidy) {ref : Ref} {i : Int} :
    Emits W a (indexed env ref i) fun a' o =>
      a' = a ∧ ∃ r c, o = (Operand.of r).component c ∧ IsVariable r := by
  refine emits_bind (emits_register henv ha) fun a₁ reg h₁ _ hreg => ?_
  obtain ⟨rfl, r, rfl, hr⟩ := hreg
  refine emits_bind (emits_ofExcept h₁) fun a₂ c h₂ _ hc => ?_
  obtain ⟨rfl, -⟩ := hc
  exact emits_pure h₂ ⟨rfl, r, c, rfl, hr⟩

omit [Scalar α] in
/-- A variable is settled, as no expression writes one. -/
theorem leaves_variable {a : Allocator α} {p : Nat} (hp : p ≤ a.position) {r : Register}
    (hr : IsVariable r) {s : Selector} (hs : ∀ t, s ≠ .other t) :
    Leaves p a { reg := r, select := s } := by
  refine ⟨hp, hs, fun n hn => ?_⟩
  cases hr <;> cases hn

mutual

/-- **The code of an expression** writes only scratch registers that were not handed out before. -/
theorem emits_expr (henv : Nameable env) :
    ∀ (e : Expr) {a : Allocator α}, a.Tidy →
      Emits (ScratchFrom a.position) a (expr env e) (Leaves a.position)
  | .absent, a, _ => by rw [expr]; exact emits_fail
  | .int _ _, a, ha => by rw [expr]; exact emits_constant ha (Nat.le_refl _) rfl
  | .float _ _, a, ha => by rw [expr]; exact emits_constant ha (Nat.le_refl _) rfl
  | .bool _ _, a, ha => by rw [expr]; exact emits_constant ha (Nat.le_refl _) rfl
  | .var _, a, ha => by
    rw [expr]
    refine emits_mono (emits_register henv ha) (fun _ h => h) fun a' o h => ?_
    obtain ⟨rfl, r, rfl, hr⟩ := h
    exact leaves_variable (Nat.le_refl _) hr (by simp)
  | .index _ _ _, a, ha => by
    rw [expr]
    refine emits_mono (emits_indexed henv ha) (fun _ h => h) fun a' o h => ?_
    obtain ⟨rfl, r, c, rfl, hr⟩ := h
    exact leaves_variable (Nat.le_refl _) hr (by simp)
  | .unary _ _ x _, a, ha => by
    rw [expr]
    refine emits_bind (emits_expr henv x ha) fun a₁ value h₁ _ hvalue => ?_
    exact emits_single rfl (plain_single hvalue.2.plain.neg) h₁ hvalue.1
  | .binary _ _ l r _, a, ha => by
    rw [expr]
    refine emits_bind (emits_expr henv l ha) fun a₁ left h₁ _ hleft => ?_
    -- the code of the right operand writes scratch registers behind the left one's result
    refine emits_bind (emits_mono (emits_expr henv r h₁) (fun _ h => h.mono hleft.1)
      fun _ _ h => h) fun a₂ right h₂ _ hright => ?_
    exact emits_binary h₂ (Nat.le_trans hleft.1 hright.1) hleft.2.plain hright.2.plain
  | .call _ _ args _, a, ha => by
    rw [expr]
    refine emits_bind (emits_exprs henv args ha) fun a₁ values h₁ _ hvalues => ?_
    exact emits_call h₁ hvalues.1 fun o ho => (hvalues.2 o ho).plain
  | .construct pos type args, a, ha => by
    rw [expr]
    refine emits_bind (emits_ofExcept ha) fun a₁ c h₁ _ hc => ?_
    obtain ⟨rfl, -⟩ := hc
    split
    · exact emits_constant h₁ (Nat.le_refl _) rfl
    · split
      · refine emits_bind (emits_exprs henv args h₁) fun a₂ values h₂ _ hvalues => ?_
        exact emits_assemble h₂ hvalues.1 fun o ho => (hvalues.2 o ho).plain
      · exact emits_fail

/-- Arguments in order: each is evaluated in scratch registers behind those of the ones before, so
the first are still there when the last is done. -/
theorem emits_exprs (henv : Nameable env) :
    ∀ (es : List Expr) {a : Allocator α}, a.Tidy →
      Emits (ScratchFrom a.position) a (exprs env es) fun a' os =>
        a.position ≤ a'.position ∧ ∀ o ∈ os, Settled a'.position o
  | [], a, ha => by
    rw [exprs]
    exact emits_pure ha ⟨Nat.le_refl _, by simp⟩
  | e :: es, a, ha => by
    rw [exprs]
    refine emits_bind (emits_expr henv e ha) fun a₁ value h₁ _ hvalue => ?_
    refine emits_bind (emits_mono (emits_exprs henv es h₁) (fun _ h => h.mono hvalue.1)
      fun _ _ h => h) fun a₂ values h₂ _ hvalues => ?_
    refine emits_pure h₂ ⟨Nat.le_trans hvalue.1 hvalues.1, fun o ho => ?_⟩
    rcases List.mem_cons.mp ho with rfl | ho
    · exact hvalue.2.mono hvalues.1
    · exact hvalues.2 o ho

end

end Exprs

/-! ## Statements -/

/-- The registers that serve code generation itself: scratch registers, and the conditions that are
handed out from `first` on. -/
inductive Auxiliary (first : Nat) : Register → Prop where
  | scratch (n : Nat) : Auxiliary first (.temp n)
  | condition {k : Nat} : first ≤ k → Auxiliary first (.longLived k)

/-- The registers that the code of a statement may write: its own ones, and variables. -/
def Written (first : Nat) (r : Register) : Prop := Auxiliary first r ∨ IsVariable r

/-- A register of a constant. -/
inductive IsConstant : Register → Prop where
  | truth (b : Bool) : IsConstant (.truth b)
  | zero : IsConstant .zero
  | immediate (n : Nat) : IsConstant (.immediate n)

theorem not_auxiliary_of_isVariable {first : Nat} {r : Register} (h : IsVariable r) :
    ¬Auxiliary first r := by
  rintro (_ | _) <;> cases h

/-- No statement writes a constant. -/
theorem not_written_of_isConstant {first : Nat} {r : Register} (h : IsConstant r) :
    ¬Written first r := by
  rintro ((_ | _) | hvar)
  · cases h
  · cases h
  · cases hvar <;> cases h

theorem Auxiliary.mono {first second : Nat} (hle : first ≤ second) {r : Register}
    (h : Auxiliary second r) : Auxiliary first r := by
  cases h with
  | scratch n => exact .scratch n
  | condition hk => exact .condition (Nat.le_trans hle hk)

/-- What is written of conditions from a later number on is written of those from an earlier one. -/
theorem Written.mono {first second : Nat} (hle : first ≤ second) {r : Register}
    (h : Written second r) : Written first r := h.imp (·.mono hle) id

theorem ScratchFrom.auxiliary {p first : Nat} {r : Register} (h : ScratchFrom p r) :
    Auxiliary first r := by
  obtain ⟨n, rfl, -⟩ := h
  exact .scratch n

/-- The operand of a condition, if there is one. -/
def PlainCondition (cond : Option Operand) : Prop := ∀ o, cond = some o → o.Plain

theorem plainCondition_none : PlainCondition none := fun _ ho => nomatch ho

theorem plainCondition_some {o : Operand} (h : o.Plain) : PlainCondition (some o) := by
  intro o' ho
  cases ho
  exact h

section Stmts

variable {first : Nat} {a : Allocator α} {cond : Option Operand}

theorem emits_lines {W : Register → Prop} (ha : a.Tidy) {lines : List Line}
    (h : instructions lines = []) : Emits W a (emit lines) fun a' _ => a' = a :=
  emits_emit ha fun i hi => by
    rw [h] at hi
    cases hi

theorem emits_beginStatement {W : Register → Prop} (ha : a.Tidy) :
    Emits W a beginStatement fun a' _ => a'.position = 0 ∧ a'.conditions = a.conditions := by
  refine emits_bind (emits_lines ha rfl) fun a₁ _ h₁ _ heq => ?_
  subst heq
  exact emits_resetSession h₁

/-- A variable, or a component of it. -/
def IsTarget (o : Operand) : Prop := IsVariable o.reg ∧ o.Plain ∧ o.negated = false

/-- A write changes its destination only, under a condition or not. -/
theorem emits_write {dst value : Operand} (ha : a.Tidy) (hcond : PlainCondition cond)
    (hdst : IsTarget dst) (hvalue : value.Plain) :
    Emits (Written first) a (write cond dst value) fun a' _ => a' = a := by
  cases cond with
  | none =>
    exact emits_instr ha ⟨rfl, plain_single hvalue, hdst.2.1, hdst.2.2⟩ (.inr hdst.1)
  | some c =>
    exact emits_instr ha ⟨rfl, plain_triple (hcond c rfl) hdst.2.1 hvalue, hdst.2.1, hdst.2.2⟩
      (.inr hdst.1)

/-- The `else` writes the condition of its own `if` and nothing else. -/
theorem emits_enterElse {k : Nat} (ha : a.Tidy) (hcond : PlainCondition cond) (hk : first ≤ k) :
    Emits (Auxiliary first) a (enterElse cond (.of (.longLived k))) fun a' _ => a' = a := by
  have hself : (Operand.of (.longLived k)).Plain := Operand.plain_of _
  refine emits_bind (emits_lines ha rfl) fun a₁ _ h₁ _ heq => ?_
  subst heq
  cases cond with
  | none =>
    refine emits_bind (emits_lines h₁ rfl) fun a₂ _ h₂ _ heq => ?_
    subst heq
    exact emits_instr h₂ ⟨rfl, plain_single hself.neg, hself, rfl⟩ (.condition hk)
  | some c =>
    refine emits_bind (emits_lines h₁ rfl) fun a₂ _ h₂ _ heq => ?_
    subst heq
    exact emits_instr h₂ ⟨rfl, plain_triple (hcond c rfl) plain_false hself.neg, hself, rfl⟩
      (.condition hk)

theorem emits_spread {p : Nat} {value : Operand} (ha : a.Tidy) (hp : p ≤ a.position)
    (hvalue : value.Plain) : Emits (ScratchFrom p) a (spread value) (Leaves p) := by
  refine emits_bind (emits_temp ha) fun a₁ res h₁ _ hres => ?_
  obtain ⟨rfl, hpos⟩ := hres
  refine emits_bind (emits_components h₁ hp id (fun _ => [value.scalar]) Component.all
    (fun _ _ => rfl) fun _ _ => plain_single hvalue.scalar) fun a₂ _ h₂ _ heq => ?_
  subst heq
  exact emits_pure h₂ (leaves_temp hp (by omega))

variable [Scalar α] {env : Env}

omit [Scalar α] in
/-- What is assigned to is a variable or a component of one. -/
theorem emits_target (henv : Nameable env) {W : Register → Prop} (ha : a.Tidy) (e : Expr) :
    Emits W a (target env e) fun a' o => a' = a ∧ IsTarget o := by
  unfold target
  split
  · refine emits_mono (emits_register henv ha) (fun _ h => h) fun a' o h => ?_
    obtain ⟨rfl, r, rfl, hr⟩ := h
    exact ⟨rfl, hr, Operand.plain_of _, rfl⟩
  · refine emits_mono (emits_indexed henv ha) (fun _ h => h) fun a' o h => ?_
    obtain ⟨rfl, r, c, rfl, hr⟩ := h
    exact ⟨rfl, hr, Operand.plain_component _ _, rfl⟩
  · exact emits_fail

theorem emits_value (henv : Nameable env) (ha : a.Tidy) (e : Expr) :
    Emits (Auxiliary first) a (expr env e) fun _ o => o.Plain :=
  emits_mono (emits_expr henv e ha) (fun _ h => h.auxiliary) fun _ _ h => h.2.plain

/-- The code of an assignment up to its write: where the write goes and what it writes. -/
def assignOperands (env : Env) (dst value : Expr) : Lower α (Operand × Operand) := do
  beginStatement
  let value ← expr env value
  let dst ← target env dst
  return (dst, value)

/-- The code of a declaration up to its write. -/
def declOperands (env : Env) (id : DeclId) (d : Declaration) : Lower α (Operand × Operand) := do
  beginStatement
  let value ← match d.init with
    | some init => expr env init
    | none => pure (.of .zero)
  let reg ← register env { name := d.name, decl := some id }
  return (reg, value)

/-- An assignment is a write behind the code of its two sides. -/
theorem stmt_assign (env : Env) (cond : Option Operand) (pos : Pos) (dst value : Expr) :
    stmt (α := α) env cond (.assign pos dst value) =
      assignOperands env dst value >>= fun o => write cond o.1 o.2 := by
  simp only [stmt, assignOperands, bind_assoc, pure_bind]

/-- The value of a constant is part of its declaration, so it needs no code. -/
theorem decl_of_not_mutable {env : Env} {id : DeclId}
    (h : ¬∃ d, env.decls[id]? = some d ∧ d.isConst = false) (cond : Option Operand) :
    decl (α := α) env cond id = pure () := by
  unfold decl
  split
  · rfl
  · rename_i d hd
    split
    · rfl
    · rename_i hc
      exact absurd ⟨d, hd, Bool.eq_false_iff.mpr hc⟩ h

/-- A declaration is a write behind the code of its initializer. -/
theorem decl_of_mutable {env : Env} {id : DeclId} {d : Declaration}
    (hd : env.decls[id]? = some d) (hc : d.isConst = false) (cond : Option Operand) :
    decl (α := α) env cond id = declOperands env id d >>= fun o => write cond o.1 o.2 := by
  unfold decl declOperands
  rw [hd]
  dsimp only
  rw [hc, if_neg Bool.false_ne_true]
  cases d.init <;> simp only [bind_assoc, pure_bind]

/-- The code before a write leaves all variables alone. -/
theorem emits_assignOperands (henv : Nameable env) (ha : a.Tidy) (dst value : Expr) :
    Emits (Auxiliary first) a (assignOperands env dst value) fun _ o =>
      IsTarget o.1 ∧ o.2.Plain := by
  refine emits_bind (emits_beginStatement ha) fun a₁ _ h₁ _ _ => ?_
  refine emits_bind (emits_value henv h₁ value) fun a₂ value h₂ _ hvalue => ?_
  refine emits_bind (emits_target henv h₂ dst) fun a₃ dst h₃ _ hdst => ?_
  exact emits_pure h₃ ⟨hdst.2, hvalue⟩

theorem emits_assign (henv : Nameable env) (ha : a.Tidy) (hcond : PlainCondition cond) (pos : Pos)
    (dst value : Expr) :
    Emits (Written first) a (stmt env cond (.assign pos dst value)) fun _ _ => True := by
  rw [stmt_assign]
  refine emits_bind (emits_mono (emits_assignOperands henv ha dst value) (fun _ h => .inl h)
    fun _ _ h => h) fun a₁ o h₁ _ ho => ?_
  exact emits_mono (emits_write h₁ hcond ho.1 ho.2) (fun _ h => h) fun _ _ _ => trivial

theorem emits_declOperands (henv : Nameable env) (ha : a.Tidy) (id : DeclId) (d : Declaration) :
    Emits (Auxiliary first) a (declOperands env id d) fun _ o =>
      IsTarget o.1 ∧ o.2.Plain := by
  have hfinish : ∀ (a₁ : Allocator α) (ref : Ref) (value : Operand), a₁.Tidy → value.Plain →
      Emits (Auxiliary first) a₁ (register env ref >>= fun reg => pure (reg, value))
        fun _ o => IsTarget o.1 ∧ o.2.Plain := by
    intro a₁ ref value h₁ hvalue
    refine emits_bind (emits_register henv h₁) fun a₂ reg h₂ _ hreg => ?_
    obtain ⟨rfl, r, rfl, hr⟩ := hreg
    exact emits_pure h₂ ⟨⟨hr, Operand.plain_of _, rfl⟩, hvalue⟩
  refine emits_bind (emits_beginStatement ha) fun a₁ _ h₁ _ _ => ?_
  split
  · exact emits_bind (emits_value henv h₁ _) fun a₂ value h₂ _ hvalue =>
      hfinish a₂ _ value h₂ hvalue
  · exact emits_bind (emits_pure h₁ (Operand.plain_of _)) fun a₂ value h₂ _ hvalue =>
      hfinish a₂ _ value h₂ hvalue

/-- A declaration writes its variable, and scratch registers. A constant is declared without
code. -/
theorem emits_decl (henv : Nameable env) (ha : a.Tidy) (hcond : PlainCondition cond)
    (id : DeclId) : Emits (Written first) a (decl env cond id) fun _ _ => True := by
  by_cases hmutable : ∃ d, env.decls[id]? = some d ∧ d.isConst = false
  · obtain ⟨d, hd, hc⟩ := hmutable
    rw [decl_of_mutable hd hc]
    refine emits_bind (emits_mono (emits_declOperands henv ha id d) (fun _ h => .inl h)
      fun _ _ h => h) fun a₁ o h₁ _ ho => ?_
    exact emits_mono (emits_write h₁ hcond ho.1 ho.2) (fun _ h => h) fun _ _ _ => trivial
  · rw [decl_of_not_mutable hmutable]
    exact emits_pure ha trivial

theorem emits_decls (henv : Nameable env) (hcond : PlainCondition cond) :
    ∀ (ids : List DeclId) {a : Allocator α}, a.Tidy →
      Emits (Written first) a (decls env cond ids) fun _ _ => True
  | [], _, ha => emits_pure ha trivial
  | id :: ids, _, ha =>
    emits_bind (emits_decl henv ha hcond id) fun _ _ h₁ _ _ => emits_decls henv hcond ids h₁

/-- The register of a condition is a new one. -/
theorem emits_enterIf (henv : Nameable env) (ha : a.Tidy) (hcond : PlainCondition cond)
    (e : Expr) : Emits (Auxiliary a.conditions) a (enterIf env cond e) fun a' o =>
      ∃ k, o = .of (.longLived k) ∧ a.conditions ≤ k ∧ k < a'.conditions := by
  refine emits_bind (emits_lines ha rfl) fun a₁ _ h₁ _ heq => ?_
  subst heq
  refine emits_bind (emits_lines h₁ rfl) fun a₂ _ h₂ _ heq => ?_
  subst heq
  refine emits_bind (emits_resetSession h₂) fun a₃ _ h₃ e₃ _ => ?_
  refine emits_bind (emits_value henv h₃ e) fun a₄ value h₄ e₄ hvalue => ?_
  refine emits_bind (emits_mono (emits_spread h₄ (Nat.le_refl _) hvalue) (fun _ h => h.auxiliary)
    fun _ _ h => h) fun a₅ own h₅ e₅ hown => ?_
  refine emits_bind (emits_longLived h₅) fun a₆ combined h₆ _ hcombined => ?_
  obtain ⟨rfl, hnext⟩ := hcombined
  -- the register of the condition is numbered behind all that were asked for so far
  have hk : a₂.conditions ≤ a₅.conditions := ((e₃.trans e₄).trans e₅).conditions
  have hself : (Operand.of (.longLived a₅.conditions)).Plain := Operand.plain_of _
  cases cond with
  | none =>
    refine emits_bind (emits_lines h₆ rfl) fun a₇ _ h₇ _ heq => ?_
    subst heq
    refine emits_bind (emits_instr h₇ ⟨rfl, plain_single hown.2.plain, hself, rfl⟩
      (.condition hk)) fun a₈ _ h₈ _ heq => ?_
    subst heq
    exact emits_pure h₈ ⟨_, rfl, hk, by omega⟩
  | some c =>
    refine emits_bind (emits_lines h₆ rfl) fun a₇ _ h₇ _ heq => ?_
    subst heq
    refine emits_bind (emits_instr h₇ ⟨rfl, plain_triple (hcond c rfl) plain_false hown.2.plain,
      hself, rfl⟩ (.condition hk)) fun a₈ _ h₈ _ heq => ?_
    subst heq
    exact emits_pure h₈ ⟨_, rfl, hk, by omega⟩

mutual

/-- **The code of a statement** writes scratch registers, variables and its own conditions: no
constant, and no condition around it. -/
theorem emits_stmt (henv : Nameable env) :
    ∀ (st : Stmt) {cond : Option Operand} {a : Allocator α}, a.Tidy → PlainCondition cond →
      Emits (Written a.conditions) a (stmt env cond st) fun _ _ => True
  | .absent, _, a, _, _ => by rw [stmt]; exact emits_fail
  | .assign pos dst value, _, a, ha, hcond => emits_assign henv ha hcond pos dst value
  | .branch e yes none, _, a, ha, hcond => by
    rw [stmt]
    refine emits_bind (emits_mono (emits_enterIf henv ha hcond e) (fun _ h => .inl h)
      fun _ _ h => h) fun a₁ combined h₁ e₁ hcombined => ?_
    obtain ⟨k, rfl, -, -⟩ := hcombined
    exact emits_mono (emits_stmt henv yes h₁ (plainCondition_some (Operand.plain_of _)))
      (fun _ h => h.mono e₁.conditions) fun _ _ h => h
  | .branch e yes (some no), _, a, ha, hcond => by
    rw [stmt]
    refine emits_bind (emits_mono (emits_enterIf henv ha hcond e) (fun _ h => .inl h)
      fun _ _ h => h) fun a₁ combined h₁ e₁ hcombined => ?_
    obtain ⟨k, rfl, hk, -⟩ := hcombined
    have hself := plainCondition_some (Operand.plain_of (.longLived k))
    refine emits_bind (emits_mono (emits_stmt henv yes h₁ hself)
      (fun _ h => h.mono e₁.conditions) fun _ _ h => h) fun a₂ _ h₂ e₂ _ => ?_
    refine emits_bind (emits_mono (emits_enterElse h₂ hcond hk) (fun _ h => .inl h)
      fun _ _ h => h) fun a₃ _ h₃ e₃ _ => ?_
    exact emits_mono (emits_stmt henv no h₃ hself)
      (fun _ h => h.mono ((e₁.trans e₂).trans e₃).conditions) fun _ _ h => h
  | .loop _ _ _, _, a, _, _ => by rw [stmt]; exact emits_fail
  | .scope ids ss, _, a, ha, hcond => by
    rw [stmt]
    refine emits_bind (emits_decls henv hcond ids ha) fun a₁ _ h₁ e₁ _ => ?_
    exact emits_mono (emits_stmts henv ss h₁ hcond) (fun _ h => h.mono e₁.conditions)
      fun _ _ h => h

/-- Statements in order. The conditions of each are numbered behind those of the ones before. -/
theorem emits_stmts (henv : Nameable env) :
    ∀ (ss : List Stmt) {cond : Option Operand} {a : Allocator α}, a.Tidy → PlainCondition cond →
      Emits (Written a.conditions) a (stmts env cond ss) fun _ _ => True
  | [], _, a, ha, _ => by
    rw [stmts]
    exact emits_pure ha trivial
  | s :: ss, _, a, ha, hcond => by
    rw [stmts]
    refine emits_bind (emits_stmt henv s ha hcond) fun a₁ _ h₁ e₁ _ => ?_
    exact emits_mono (emits_stmts henv ss h₁ hcond) (fun _ h => h.mono e₁.conditions)
      fun _ _ h => h

end

end Stmts

end Lower

end Shader
