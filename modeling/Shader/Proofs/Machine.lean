import Mathlib.Algebra.Order.Field.Basic
import Shader.Assembly

/-!
# The machine that runs the code

A machine of registers with four components over an ordered field. A source that selects a component
reads it four times, and a destination that selects one is written there only. Instructions work
component by component, but for the reciprocal, the reciprocal square root, the power and the dot
product, which give one number in all components. What the field does not have is a parameter:
`Functions`.

The machine stops at an instruction it does not know, at one with a wrong number of sources, and at
a selection that is not a component.
-/

namespace Shader

/-- A number in each component. -/
abbrev Vec (K : Type) := Component → K

/-- The contents of all registers. -/
abbrev Registers (K : Type) := Register → Vec K

/-- The functions of the target that are no operations of a field. -/
structure Functions (K : Type) where
  rcp : K → K
  rsq : K → K
  pow : K → K → K
  lit : Vec K → Vec K

/-- The place of a component. -/
def Component.index : Component → Nat
  | x => 0
  | y => 1
  | z => 2
  | w => 3

@[simp] theorem Component.getElem?_all_index (c : Component) : all[c.index]? = some c := by
  cases c <;> rfl

namespace Vec

variable {K : Type}

/-- The same number in every component. -/
def splat (x : K) : Vec K := fun _ => x

@[simp] theorem splat_apply (x : K) (c : Component) : splat x c = x := rfl

/-- The value of a list of numbers: a single one stands in every component, and several stand in the
first ones. -/
def ofList [Zero K] : List K → Vec K
  | [x] => splat x
  | xs => fun c => xs.getD c.index 0

end Vec

namespace Machine

/-- The number that stands for a truth value. -/
def truth {K : Type} [Field K] (b : Bool) : K := if b then 1 else -1

variable {K : Type} [Field K] [LinearOrder K]

/-- The contents that an operand selects, before a negation. -/
def selected (ρ : Registers K) (o : Operand) : Option (Vec K) :=
  match o.select with
  | .whole => some (ρ o.reg)
  | .one c => some (.splat (ρ o.reg c))
  | .other _ => none

/-- The value of a source. -/
def read (ρ : Registers K) (o : Operand) : Option (Vec K) :=
  (selected ρ o).map fun v => if o.negated then -v else v

/-- The registers after a value was written to a destination. -/
def write (ρ : Registers K) (o : Operand) (v : Vec K) : Option (Registers K) :=
  if o.negated then none
  else match o.select with
    | .whole => some (Function.update ρ o.reg v)
    | .one c => some (Function.update ρ o.reg (Function.update (ρ o.reg) c (v c)))
    | .other _ => none

/-- What an instruction makes of its sources. -/
def apply (F : Functions K) : Opcode → List (Vec K) → Option (Vec K)
  | .mov, [a] => some a
  | .add, [a, b] => some fun c => a c + b c
  | .sub, [a, b] => some fun c => a c - b c
  | .mul, [a, b] => some fun c => a c * b c
  | .min, [a, b] => some fun c => min (a c) (b c)
  | .max, [a, b] => some fun c => max (a c) (b c)
  | .cmp, [a, b, d] => some fun c => if a c < 0 then b c else d c
  | .rcp, [a] => some (.splat (F.rcp (a .x)))
  | .rsq, [a] => some (.splat (F.rsq (a .x)))
  | .pow, [a, b] => some (.splat (F.pow (a .x) (b .x)))
  | .dp3, [a, b] => some (.splat (a .x * b .x + a .y * b .y + a .z * b .z))
  | .lit, [a] => some (F.lit a)
  | _, _ => none

/-- One instruction. -/
def step (F : Functions K) (ρ : Registers K) (i : Instruction) : Option (Registers K) := do
  let sources ← i.src.mapM (read ρ)
  let v ← apply F i.op sources
  write ρ i.dst v

/-- Instructions in order. -/
def run (F : Functions K) : List Instruction → Registers K → Option (Registers K)
  | [], ρ => some ρ
  | i :: is, ρ => (step F ρ i).bind (run F is)

/-! ## Programs -/

variable {α : Type}

/-- The value that a constant register is declared with. No compiled program declares one by a
text. -/
def paramValue (value : α → K) (ρ : Registers K) : ParamValue α → Vec K
  | .constant (.literal xs) => .ofList (xs.map value)
  | .constant (.register r path) => path.foldl (fun v c => .splat (v c)) (ρ r)
  | .truth b => .splat (truth b)
  | .zeros _ => .splat 0
  | .given _ => .splat 0

/-- Registers with constants loaded. -/
def load (value : α → K) (ps : List (Param α)) (ρ : Registers K) : Registers K :=
  ps.foldl (fun ρ p => Function.update ρ p.reg (paramValue value ρ p.value)) ρ

/-- Runs a program: its constants are loaded over the contents that are there, and then its
instructions are done in order. -/
def execute (F : Functions K) (value : α → K) (a : Assembly α) (contents : Registers K) :
    Option (Registers K) :=
  run F a.instructions (load value (a.immediates ++ a.userParams) contents)

/-! ## Reading and writing -/

section Read

omit [LinearOrder K]

variable {ρ ρ' : Registers K} {o : Operand} {v : Vec K}

@[simp] theorem read_of (ρ : Registers K) (r : Register) : read ρ (.of r) = some (ρ r) := rfl

@[simp] theorem read_component_of (ρ : Registers K) (r : Register) (c : Component) :
    read ρ ((Operand.of r).component c) = some (.splat (ρ r c)) := rfl

/-- What is read depends on one register. -/
theorem read_congr (h : ρ' o.reg = ρ o.reg) : read ρ' o = read ρ o := by
  rw [read, read, selected, selected, h]

theorem read_neg (h : read ρ o = some v) : read ρ o.neg = some (-v) := by
  obtain ⟨r, select, negated⟩ := o
  obtain ⟨u, hu, rfl⟩ := Option.map_eq_some_iff.mp h
  have hu : selected ρ ⟨r, select, !negated⟩ = some u := hu
  rw [read, Operand.neg, hu]
  cases negated <;> simp

/-- A single component of a source is its first, or the one it selects anyway. -/
theorem read_scalar (h : read ρ o = some v) : read ρ o.scalar = some (.splat (v .x)) := by
  obtain ⟨r, select, negated⟩ := o
  cases select with
  | whole =>
    cases negated <;> cases h <;> rfl
  | one c =>
    cases negated <;> cases h <;> rfl
  | other t => cases h

end Read

section Run

variable {F : Functions K} {ρ ρ' : Registers K}

/-- Instructions can be run in two parts. This is how the code of a step is cut into that of its
parts. -/
theorem run_append (is js : List Instruction) (ρ : Registers K) :
    run F (is ++ js) ρ = (run F is ρ).bind (run F js) := by
  induction is generalizing ρ with
  | nil => rfl
  | cons i is ih =>
    rw [List.cons_append, run, run]
    cases step F ρ i with
    | none => rfl
    | some ρ₁ => exact ih ρ₁

theorem run_singleton (i : Instruction) (ρ : Registers K) : run F [i] ρ = step F ρ i := by
  rw [run]
  cases step F ρ i <;> rfl

omit [Field K] [LinearOrder K] in
/-- A write leaves all other registers alone. -/
theorem write_of_ne {o : Operand} {v : Vec K} {r : Register} (h : write ρ o v = some ρ')
    (hr : o.reg ≠ r) : ρ' r = ρ r := by
  unfold write at h
  split at h
  · cases h
  · split at h
    · cases h
      exact Function.update_of_ne hr.symm _ _
    · cases h
      exact Function.update_of_ne hr.symm _ _
    · cases h

theorem step_of_ne {i : Instruction} {r : Register} (h : step F ρ i = some ρ')
    (hr : i.dst.reg ≠ r) : ρ' r = ρ r := by
  obtain ⟨vs, -, h⟩ := Option.bind_eq_some_iff.mp h
  obtain ⟨v, -, h⟩ := Option.bind_eq_some_iff.mp h
  exact write_of_ne h hr

/-- **Frame**: a register that no instruction writes keeps its contents. -/
theorem run_of_ne {is : List Instruction} {r : Register} (h : run F is ρ = some ρ')
    (hr : ∀ i ∈ is, i.dst.reg ≠ r) : ρ' r = ρ r := by
  induction is generalizing ρ with
  | nil =>
    cases h
    rfl
  | cons i is ih =>
    obtain ⟨ρ₁, hstep, hrest⟩ := Option.bind_eq_some_iff.mp h
    rw [ih hrest fun j hj => hr j (by simp [hj]), step_of_ne hstep (hr i (by simp))]

end Run

/-! ## Loading constants -/

section Load

omit [LinearOrder K]

variable {value : α → K} {ps : List (Param α)} {ρ : Registers K} {r : Register}

/-- A register that no constant is declared for keeps its contents. -/
theorem load_of_notMem (hr : r ∉ ps.map (·.reg)) : load value ps ρ r = ρ r := by
  induction ps generalizing ρ with
  | nil => rfl
  | cons p ps ih =>
    rw [List.map_cons, List.mem_cons, not_or] at hr
    rw [load, List.foldl_cons, ← load, ih hr.2]
    exact Function.update_of_ne hr.1 _ _

/-- The registers that a declared value is taken from. -/
def sources : ParamValue α → List Register
  | .constant (.register r _) => [r]
  | _ => []

/-- The value of a constant depends on the registers that it is taken from. -/
theorem paramValue_congr {ρ' : Registers K} {v : ParamValue α}
    (h : ∀ r ∈ sources v, ρ' r = ρ r) : paramValue value ρ' v = paramValue value ρ v := by
  cases v with
  | constant c =>
    cases c with
    | literal xs => rfl
    | register r path => rw [paramValue, paramValue, h r (by simp [sources])]
  | truth b => rfl
  | zeros n => rfl
  | given t => rfl

/-- Constants whose registers differ, and that are not taken from each other, are all loaded. -/
theorem load_of_mem (hps : (ps.map (·.reg)).Nodup)
    (hfree : ∀ p ∈ ps, ∀ r ∈ sources p.value, r ∉ ps.map (·.reg)) {p : Param α} (hp : p ∈ ps) :
    load value ps ρ p.reg = paramValue value ρ p.value := by
  induction ps generalizing ρ with
  | nil => simp at hp
  | cons q ps ih =>
    rw [List.map_cons, List.nodup_cons] at hps
    have hrest : ∀ p ∈ ps, ∀ r ∈ sources p.value, r ∉ ps.map (·.reg) := fun p hp r hr hmem =>
      hfree p (by simp [hp]) r hr (by rw [List.map_cons]; exact List.mem_cons_of_mem _ hmem)
    rw [load, List.foldl_cons, ← load]
    rcases List.mem_cons.mp hp with rfl | hp
    · rw [load_of_notMem hps.1]
      exact Function.update_self _ _ _
    · rw [ih hps.2 hrest hp]
      refine paramValue_congr fun r hr => Function.update_of_ne ?_ _ _
      rintro rfl
      exact hfree p (by simp [hp]) q.reg hr (by simp)

end Load

end Machine

end Shader
