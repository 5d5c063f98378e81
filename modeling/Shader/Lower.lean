import Shader.Assembly.Allocator
import Shader.Failure

/-!
# Steps of code generation

A step takes the allocator as it stands and gives a value, the lines it emits and the allocator
after it, or fails. Steps follow each other with `do`: their lines are joined in order, and the
first failure ends the whole.
-/

namespace Shader

/-- A step of code generation. -/
def Lower (α β : Type) : Type := Allocator α → Except Failure (β × List Line × Allocator α)

namespace Lower

variable {α β γ : Type}

/-- Runs a step. -/
def run (m : Lower α β) (a : Allocator α) : Except Failure (β × List Line × Allocator α) := m a

instance : Monad (Lower α) where
  pure b := fun a => .ok (b, [], a)
  bind m f := fun a =>
    match m a with
    | .error e => .error e
    | .ok (b, code, a) =>
      match f b a with
      | .error e => .error e
      | .ok (c, more, a) => .ok (c, code ++ more, a)

@[simp] theorem run_pure (b : β) (a : Allocator α) :
    run (pure b : Lower α β) a = .ok (b, [], a) := rfl

theorem run_bind (m : Lower α β) (f : β → Lower α γ) (a : Allocator α) :
    run (m >>= f) a =
      match run m a with
      | .error e => .error e
      | .ok (b, code, a) =>
        match run (f b) a with
        | .error e => .error e
        | .ok (c, more, a) => .ok (c, code ++ more, a) := rfl

/-- What a sequence of two steps does when it succeeds. -/
theorem run_bind_eq_ok {m : Lower α β} {f : β → Lower α γ} {a a₂ : Allocator α} {c : γ}
    {lines : List Line} :
    run (m >>= f) a = .ok (c, lines, a₂) ↔
      ∃ b code a₁ more, run m a = .ok (b, code, a₁) ∧ run (f b) a₁ = .ok (c, more, a₂) ∧
        lines = code ++ more := by
  rw [run_bind]
  constructor
  · intro h
    split at h
    · simp at h
    · rename_i b code a₁ hm
      split at h
      · simp at h
      · rename_i c' more a₂' hf
        simp only [Except.ok.injEq, Prod.mk.injEq] at h
        obtain ⟨rfl, rfl, rfl⟩ := h
        exact ⟨b, code, a₁, more, hm, hf, rfl⟩
  · rintro ⟨b, code, a₁, more, hm, hf, rfl⟩
    simp [hm, hf]

/-! ## The steps there are -/

/-- Fails. -/
def fail (e : Failure) : Lower α β := fun _ => .error e

/-- A computation that emits nothing. -/
def ofExcept (r : Except Failure β) : Lower α β := fun a => r.map fun b => (b, [], a)

/-- Emits lines. -/
def emit (lines : List Line) : Lower α Unit := fun a => .ok ((), lines, a)

/-- Emits an instruction. -/
def instr (op : Opcode) (dst : Operand) (src : List Operand) : Lower α Unit :=
  emit [.instr ⟨op, dst, src⟩]

/-- A scratch register. -/
def temp : Lower α Operand := fun a =>
  let (r, a) := a.temp
  .ok (.of r, [], a)

/-- A register for a condition. -/
def longLived : Lower α Operand := fun a =>
  let (r, a) := a.longLived
  .ok (.of r, [], a)

/-- A constant. -/
def immediate (v : ParamValue α) : Lower α Operand := fun a =>
  let (r, a) := a.immediate v
  .ok (.of r, [], a)

/-- Starts a new session of scratch registers. -/
def resetSession : Lower α Unit := fun a => .ok ((), [], a.reset)

end Lower

end Shader
