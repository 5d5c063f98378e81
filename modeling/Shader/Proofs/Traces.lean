import Shader.Proofs.Preservation

/-!
# Traces of code generation

The lines of a program do not show where a session of scratch registers ends, nor which `if` a
condition belongs to. A trace does: it is what code generation does, event by event, each line with
the part of a statement that it was emitted for. A statement is known by its address: the statements
of a scope are numbered from zero, and so are the two branches of an `if`.

Statements are generated here once more, with a trace of it. `erase` leaves nothing of a trace but
its lines, and what it leaves is the code generation that runs (`erase_stmt`).
-/

namespace Shader

open Program (Expr Stmt)
open Number (Scalar)

namespace Tracing

/-- What a line was emitted for: the evaluation of the condition of the `if` at an address, its
negation for the `else`, or something else. -/
inductive Part where
  | setup (address : Address)
  | negation (address : Address)
  | write
  deriving DecidableEq

/-- What code generation does. -/
inductive Event where
  /-- A session of scratch registers ends and another begins. -/
  | reset
  /-- The `if` at an address is given a register for its condition. -/
  | request (address : Address) (r : Register)
  | line (part : Part) (l : Line)
  deriving DecidableEq

def Event.isReset : Event → Bool
  | .reset => true
  | _ => false

def Event.request? : Event → Option (Address × Register)
  | .request address r => some (address, r)
  | _ => none

def Event.line? : Event → Option Line
  | .line _ l => some l
  | _ => none

/-- The lines of a trace. -/
def emitted (t : List Event) : List Line := t.filterMap Event.line?

/-- The instructions of a trace. -/
def code (t : List Event) : List Instruction := instructions (emitted t)

/-- The registers given to conditions, with the addresses of their `if`s. -/
def requests (t : List Event) : List (Address × Register) := t.filterMap Event.request?

/-- The stretches of a trace between resets. -/
def sessions (t : List Event) : List (List Event) := t.splitOnP Event.isReset

section Events

variable (t t' : List Event) (part : Part) (ls : List Line)

theorem emitted_append : emitted (t ++ t') = emitted t ++ emitted t' := List.filterMap_append

theorem code_append : code (t ++ t') = code t ++ code t' := by
  rw [code, emitted_append, instructions_append, code, code]

theorem requests_append : requests (t ++ t') = requests t ++ requests t' := List.filterMap_append

theorem emitted_map : emitted (ls.map (.line part)) = ls := by
  rw [emitted, List.filterMap_map]
  exact List.filterMap_some

theorem code_map : code (ls.map (.line part)) = instructions ls := by rw [code, emitted_map]

theorem requests_map : requests (ls.map (.line part)) = [] := by
  rw [requests, List.filterMap_map]
  exact List.filterMap_eq_nil_iff.mpr fun _ _ => rfl

end Events

end Tracing

/-! ## Steps with a trace -/

/-- A step of code generation that gives a trace in place of lines. -/
def Traced (α β : Type) : Type :=
  Allocator α → Except Failure (β × List Tracing.Event × Allocator α)

namespace Traced

open Tracing

variable {α β γ : Type}

instance : Monad (Traced α) where
  pure b := fun a => .ok (b, [], a)
  bind m f := fun a =>
    match m a with
    | .error e => .error e
    | .ok (b, t, a) =>
      match f b a with
      | .error e => .error e
      | .ok (c, t', a) => .ok (c, t ++ t', a)

/-- The step without the trace. -/
def erase (m : Traced α β) : Lower α β := fun a =>
  (m a).map fun r => (r.1, emitted r.2.1, r.2.2)

/-- Emits lines for a part of a statement. -/
def emits (part : Part) (m : Lower α β) : Traced α β := fun a =>
  (m a).map fun r => (r.1, r.2.1.map (.line part), r.2.2)

/-- Starts a new session of scratch registers. -/
def reset : Traced α Unit := fun a => .ok ((), [.reset], a.reset)

/-- Gives the `if` at an address a register for its condition. -/
def request (address : Address) : Traced α Operand := fun a =>
  let (r, a) := a.longLived
  .ok (.of r, [.request address r], a)

theorem bind_apply (m : Traced α β) (f : β → Traced α γ) (a : Allocator α) :
    (m >>= f) a =
      match m a with
      | .error e => .error e
      | .ok (b, t, a) =>
        match f b a with
        | .error e => .error e
        | .ok (c, t', a) => .ok (c, t ++ t', a) := rfl

/-- What a sequence of two steps does when it succeeds. -/
theorem bind_eq_ok {m : Traced α β} {f : β → Traced α γ} {a a₂ : Allocator α} {c : γ}
    {t : List Event} (h : (m >>= f) a = .ok (c, t, a₂)) :
    ∃ b t₁ a₁ t₂, m a = .ok (b, t₁, a₁) ∧ f b a₁ = .ok (c, t₂, a₂) ∧ t = t₁ ++ t₂ := by
  rw [bind_apply] at h
  split at h
  · cases h
  · rename_i b t₁ a₁ hm
    split at h
    · cases h
    · rename_i c' t₂ a₂' hf
      cases h
      exact ⟨b, t₁, a₁, t₂, hm, hf, rfl⟩

/-- Lines that were emitted for a part are all marked with it. -/
theorem emits_eq_ok {part : Part} {m : Lower α β} {a a' : Allocator α} {b : β} {t : List Event}
    (h : emits part m a = .ok (b, t, a')) :
    ∃ ls, Lower.run m a = .ok (b, ls, a') ∧ t = ls.map (.line part) := by
  unfold emits at h
  cases hm : m a with
  | error e =>
    rw [hm] at h
    cases h
  | ok r =>
    rw [hm] at h
    cases h
    exact ⟨r.2.1, hm, rfl⟩

/-- The lines of a trace are those of the step without it. -/
theorem run_erase {m : Traced α β} {a a' : Allocator α} {b : β} {t : List Event}
    (h : m a = .ok (b, t, a')) : Lower.run (erase m) a = .ok (b, emitted t, a') := by
  show (m a).map _ = _
  rw [h]
  rfl

@[simp] theorem erase_pure (b : β) : erase (pure b : Traced α β) = pure b := rfl

/-- **Erasing goes through `do`**, so that the erasure of each step below follows from those of its
parts. -/
@[simp] theorem erase_bind (m : Traced α β) (f : β → Traced α γ) :
    erase (m >>= f) = erase m >>= fun b => erase (f b) := by
  funext a
  show ((m >>= f) a).map _ = Lower.run (erase m >>= fun b => erase (f b)) a
  rw [bind_apply, Lower.run_bind]
  unfold Lower.run erase
  cases m a with
  | error e => rfl
  | ok r =>
    obtain ⟨b, t, a₁⟩ := r
    dsimp only [Except.map]
    cases f b a₁ with
    | error e => rfl
    | ok r => exact congrArg Except.ok (Prod.ext rfl (Prod.ext (emitted_append _ _) rfl))

@[simp] theorem erase_emits (part : Part) (m : Lower α β) : erase (emits part m) = m := by
  funext a
  show ((m a).map _).map _ = m a
  cases m a with
  | error e => rfl
  | ok r => exact congrArg Except.ok (Prod.ext rfl (Prod.ext (emitted_map _ _) rfl))

@[simp] theorem erase_reset : erase (reset : Traced α Unit) = Lower.resetSession := rfl

@[simp] theorem erase_request (address : Address) :
    erase (request address : Traced α Operand) = Lower.longLived := rfl

end Traced

namespace Tracing

open Lower Traced

variable {α : Type} [Scalar α]

/-! ## Statements with a trace -/

/-- Writes a value that is evaluated in a session of its own. -/
def statement (m : Lower α Unit) : Traced α Unit := do
  emits .write blank
  reset
  emits .write m

/-- The code of an assignment within its session. -/
def assign (env : Env) (cond : Option Operand) (dst value : Expr) : Lower α Unit := do
  let value ← expr env value
  let dst ← target env dst
  write cond dst value

/-- The code of a declaration within its session. -/
def setInitial (env : Env) (cond : Option Operand) (id : DeclId) (d : Declaration) :
    Lower α Unit := do
  let value ← match d.init with
    | some init => expr env init
    | none => pure (.of .zero)
  let reg ← register env { name := d.name, decl := some id }
  write cond reg value

/-- Initializes a variable. -/
def decl (env : Env) (cond : Option Operand) (id : DeclId) : Traced α Unit :=
  match env.decls[id]? with
  | none => return
  | some d => if d.isConst then return else statement (setInitial env cond id d)

/-- Initializes variables in order. -/
def decls (env : Env) (cond : Option Operand) : List DeclId → Traced α Unit
  | [] => return
  | id :: ids => do
    decl env cond id
    decls env cond ids

/-- The condition of an `if` by itself, in a scratch register. -/
def ownCondition (env : Env) (e : Expr) : Lower α Operand := do
  let value ← expr env e
  Lower.spread value

/-- Combines the condition of an `if` with the one around it. -/
def combineWith (cond : Option Operand) (combined own : Operand) : Lower α Unit :=
  match cond with
  | none => do
    comment .outerIf
    instr .mov combined [own]
  | some outer => do
    comment .nestedIf
    instr .cmp combined [outer, falseOperand, own]

/-- Evaluates the condition of the `if` at an address. -/
def enterIf (env : Env) (cond : Option Operand) (address : Address) (e : Expr) :
    Traced α Operand := do
  emits (.setup address) (do blank; comment .condition)
  reset
  let own ← emits (.setup address) (ownCondition env e)
  let combined ← request address
  emits (.setup address) (combineWith cond combined own)
  return combined

/-- Turns the condition of the `if` at an address into that of its `else`. -/
def enterElse (cond : Option Operand) (address : Address) (combined : Operand) : Traced α Unit :=
  emits (.negation address) (Lower.enterElse cond combined)

mutual

/-- Emits the code of the statement at an address, with a trace. -/
def stmt (env : Env) (cond : Option Operand) (address : Address) : Stmt → Traced α Unit
  | .absent => emits .write (fail (.internal .lowerStatement))
  | .assign _ dst value => statement (assign env cond dst value)
  | .branch e yes none => do
    let combined ← enterIf env cond address e
    stmt env (some combined) (address ++ [0]) yes
  | .branch e yes (some no) => do
    let combined ← enterIf env cond address e
    stmt env (some combined) (address ++ [0]) yes
    enterElse cond address combined
    stmt env (some combined) (address ++ [1]) no
  | .loop pos _ _ => emits .write (fail (.loop pos))
  | .scope ids ss => do
    decls env cond ids
    stmts env cond address 0 ss

/-- Emits the code of the statements of the scope at an address, from the numbered one on. -/
def stmts (env : Env) (cond : Option Operand) (address : Address) (n : Nat) :
    List Stmt → Traced α Unit
  | [] => return
  | s :: ss => do
    stmt env cond (address ++ [n]) s
    stmts env cond address (n + 1) ss

end

omit [Scalar α] in
theorem erase_statement (m : Lower α Unit) :
    erase (statement m) = beginStatement >>= fun _ => m := by
  simp only [statement, erase_bind, erase_emits, erase_reset, beginStatement, bind_assoc]

/-- A declaration is generated as it is without a trace. -/
theorem erase_decl (env : Env) (cond : Option Operand) (id : DeclId) :
    erase (decl env cond id : Traced α Unit) = Lower.decl env cond id := by
  unfold decl Lower.decl
  cases env.decls[id]? with
  | none => rfl
  | some d =>
    dsimp only
    split
    · rfl
    · exact erase_statement _

theorem erase_decls (env : Env) (cond : Option Operand) (ids : List DeclId) :
    erase (decls env cond ids : Traced α Unit) = Lower.decls env cond ids := by
  induction ids with
  | nil => rfl
  | cons id ids ih => rw [decls, Lower.decls, erase_bind, erase_decl, ih]

/-- The entry of an `if` is generated as it is without a trace. There it is one chain of steps,
which associativity takes apart. -/
theorem erase_enterIf (env : Env) (cond : Option Operand) (address : Address) (e : Expr) :
    erase (enterIf env cond address e : Traced α Operand) = Lower.enterIf env cond e := by
  unfold enterIf Lower.enterIf ownCondition combineWith
  simp only [erase_bind, erase_emits, erase_reset, erase_request, erase_pure, bind_assoc]
  cases cond <;> simp only [bind_assoc]

mutual

/-- **The trace is one of the code generation that runs.** -/
theorem erase_stmt (env : Env) :
    ∀ (st : Stmt) (cond : Option Operand) (address : Address),
      erase (stmt env cond address st : Traced α Unit) = Lower.stmt env cond st
  | .absent, _, _ => by rw [stmt, Lower.stmt, erase_emits]
  | .assign _ _ _, _, _ => by
    rw [stmt, Lower.stmt]
    exact erase_statement _
  | .branch _ yes none, _, _ => by
    rw [stmt, Lower.stmt, erase_bind, erase_enterIf]
    exact congrArg _ (funext fun combined => erase_stmt env yes (some combined) _)
  | .branch _ yes (some no), _, _ => by
    rw [stmt, Lower.stmt, erase_bind, erase_enterIf]
    refine congrArg _ (funext fun combined => ?_)
    rw [erase_bind, erase_stmt env yes, erase_bind, erase_stmt env no, enterElse, erase_emits]
  | .loop _ _ _, _, _ => by rw [stmt, Lower.stmt, erase_emits]
  | .scope _ ss, _, _ => by
    rw [stmt, Lower.stmt, erase_bind, erase_decls, erase_stmts env ss]

theorem erase_stmts (env : Env) :
    ∀ (ss : List Stmt) (cond : Option Operand) (address : Address) (n : Nat),
      erase (stmts env cond address n ss : Traced α Unit) = Lower.stmts env cond ss
  | [], _, _, _ => by rw [stmts, Lower.stmts, erase_pure]
  | s :: ss, _, _, _ => by
    rw [stmts, Lower.stmts, erase_bind, erase_stmt env s, erase_stmts env ss]

end

/-! ## What the steps of a statement leave in a trace -/

section Inversion

variable {a a' : Allocator α} {t : List Event} {u : Unit} {cond : Option Operand}
  {address : Address}

omit [Scalar α] in
/-- A statement leaves a blank line, a reset and the lines of its write. -/
theorem statement_eq_ok {m : Lower α Unit} (h : statement m a = .ok (u, t, a')) :
    ∃ ls, Lower.run m a.reset = .ok (u, ls, a') ∧
      t = [Line.blank].map (.line .write) ++ [.reset] ++ ls.map (.line .write) := by
  obtain ⟨_, t₁, a₁, rest₁, h₁, hrest₁, rfl⟩ := bind_eq_ok h
  cases h₁
  obtain ⟨_, t₂, a₂, rest₂, h₂, hrest₂, rfl⟩ := bind_eq_ok hrest₁
  cases h₂
  obtain ⟨ls, hrun, rfl⟩ := emits_eq_ok hrest₂
  exact ⟨ls, hrun, rfl⟩

omit [Scalar α] in
/-- Combining conditions takes a comment and one instruction. -/
theorem run_combineWith_eq_ok {k : Nat} {own : Operand} {ls : List Line}
    (h : Lower.run (combineWith cond (.of (.longLived k)) own) a = .ok (u, ls, a')) :
    a' = a ∧ ∃ text, ls = [.comment text, .instr (combine cond k own)] := by
  cases cond <;> cases h <;> exact ⟨rfl, _, rfl⟩

/-- **The entry of an `if` leaves one request**, between the evaluation of its condition and the
combination with the one around it. -/
theorem enterIf_eq_ok {env : Env} {e : Expr} {o : Operand}
    (h : enterIf env cond address e a = .ok (o, t, a')) :
    ∃ own ls k a₁ text, Lower.run (ownCondition env e) a.reset = .ok (own, ls, a₁) ∧
      k = a₁.conditions ∧ o = .of (.longLived k) ∧ a' = a₁.longLived.2 ∧
      t = [Line.blank, .comment (Mark.text .condition)].map (.line (.setup address)) ++ [.reset] ++
        ls.map (.line (.setup address)) ++ [.request address (.longLived k)] ++
        [Line.comment text, .instr (combine cond k own)].map (.line (.setup address)) := by
  obtain ⟨_, t₁, a₁, rest₁, h₁, hrest₁, rfl⟩ := bind_eq_ok h
  obtain ⟨marks, hmarks, rfl⟩ := emits_eq_ok h₁
  cases hmarks
  obtain ⟨_, t₂, a₂, rest₂, h₂, hrest₂, rfl⟩ := bind_eq_ok hrest₁
  cases h₂
  obtain ⟨own, t₃, a₃, rest₃, h₃, hrest₃, rfl⟩ := bind_eq_ok hrest₂
  obtain ⟨ls, hown, rfl⟩ := emits_eq_ok h₃
  obtain ⟨combined, t₄, a₄, rest₄, h₄, hrest₄, rfl⟩ := bind_eq_ok hrest₃
  cases h₄
  obtain ⟨_, t₅, a₅, rest₅, h₅, hrest₅, rfl⟩ := bind_eq_ok hrest₄
  obtain ⟨rest, hrest, rfl⟩ := emits_eq_ok h₅
  obtain ⟨rfl, text, rfl⟩ := run_combineWith_eq_ok hrest
  cases hrest₅
  refine ⟨own, ls, _, a₃, text, hown, rfl, rfl, rfl, ?_⟩
  simp only [List.append_nil, List.append_assoc]
  rfl

omit [Scalar α] in
/-- An `else` leaves one instruction, and asks for no register. -/
theorem enterElse_eq_ok {k : Nat}
    (h : enterElse cond address (.of (.longLived k)) a = .ok (u, t, a')) :
    ∃ ls, a' = a ∧ instructions ls = [combine cond k (Operand.of (.longLived k)).neg] ∧
      t = ls.map (.line (.negation address)) := by
  obtain ⟨ls, hrun, rfl⟩ := emits_eq_ok h
  obtain ⟨rfl, hcode⟩ := run_enterElse_eq_ok hrun
  exact ⟨ls, rfl, hcode, rfl⟩

end Inversion

/-! ## The `if`s of a program -/

mutual

/-- The addresses of the `if`s in the statement at an address, in the order of the text. -/
def ifs (address : Address) : Stmt → List Address
  | .absent => []
  | .assign _ _ _ => []
  | .branch _ yes none => address :: ifs (address ++ [0]) yes
  | .branch _ yes (some no) =>
    address :: (ifs (address ++ [0]) yes ++ ifs (address ++ [1]) no)
  | .loop _ _ body => ifs (address ++ [0]) body
  | .scope _ ss => listIfs address 0 ss

/-- The addresses of the `if`s in the statements of a scope, from the numbered one on. -/
def listIfs (address : Address) (n : Nat) : List Stmt → List Address
  | [] => []
  | s :: ss => ifs (address ++ [n]) s ++ listIfs address (n + 1) ss

end

/-- Two ways down through different children do not meet again. -/
theorem eq_of_step_prefix {address way : Address} {m n : Nat} (hm : address ++ [m] <+: way)
    (hn : address ++ [n] <+: way) : m = n := by
  have h := List.prefix_of_prefix_length_le hm hn (by simp)
  have heq := h.eq_of_length (by simp)
  simpa using heq

mutual

/-- The `if`s in a statement have addresses below that of the statement. -/
theorem prefix_of_mem_ifs :
    ∀ (st : Stmt) {address way : Address}, way ∈ ifs address st → address <+: way
  | .absent, _, _, h => by simp [ifs] at h
  | .assign _ _ _, _, _, h => by simp [ifs] at h
  | .branch _ yes none, _, _, h => by
    rw [ifs] at h
    rcases List.mem_cons.mp h with rfl | h
    · exact List.prefix_rfl
    · exact (List.prefix_append _ _).trans (prefix_of_mem_ifs yes h)
  | .branch _ yes (some no), _, _, h => by
    rw [ifs] at h
    rcases List.mem_cons.mp h with rfl | h
    · exact List.prefix_rfl
    · rcases List.mem_append.mp h with h | h
      · exact (List.prefix_append _ _).trans (prefix_of_mem_ifs yes h)
      · exact (List.prefix_append _ _).trans (prefix_of_mem_ifs no h)
  | .loop _ _ body, _, _, h => by
    rw [ifs] at h
    exact (List.prefix_append _ _).trans (prefix_of_mem_ifs body h)
  | .scope _ ss, _, _, h => by
    rw [ifs] at h
    obtain ⟨m, -, hm⟩ := prefix_of_mem_listIfs ss h
    exact (List.prefix_append _ _).trans hm

/-- The `if`s in the statements of a scope have addresses below those of the statements. -/
theorem prefix_of_mem_listIfs :
    ∀ (ss : List Stmt) {address way : Address} {n : Nat}, way ∈ listIfs address n ss →
      ∃ m, n ≤ m ∧ address ++ [m] <+: way
  | [], _, _, _, h => by simp [listIfs] at h
  | s :: ss, _, _, n, h => by
    rw [listIfs] at h
    rcases List.mem_append.mp h with h | h
    · exact ⟨n, Nat.le_refl n, prefix_of_mem_ifs s h⟩
    · obtain ⟨m, hm, hway⟩ := prefix_of_mem_listIfs ss h
      exact ⟨m, Nat.le_of_succ_le hm, hway⟩

end

/-- A statement is not inside one of its parts. -/
theorem notMem_ifs_of_step (address : Address) (n : Nat) (st : Stmt) :
    address ∉ ifs (address ++ [n]) st := by
  intro h
  have := (prefix_of_mem_ifs st h).length_le
  simp at this

mutual

/-- Every `if` has an address of its own. -/
theorem nodup_ifs : ∀ (st : Stmt) (address : Address), (ifs address st).Nodup
  | .absent, _ => by simp [ifs]
  | .assign _ _ _, _ => by simp [ifs]
  | .branch _ yes none, address => by
    rw [ifs]
    exact List.nodup_cons.mpr ⟨notMem_ifs_of_step address 0 yes, nodup_ifs yes _⟩
  | .branch _ yes (some no), address => by
    rw [ifs, List.nodup_cons, List.mem_append, not_or, List.nodup_append]
    refine ⟨⟨notMem_ifs_of_step address 0 yes, notMem_ifs_of_step address 1 no⟩,
      nodup_ifs yes _, nodup_ifs no _, ?_⟩
    rintro way hyes _ hno rfl
    cases eq_of_step_prefix (prefix_of_mem_ifs yes hyes) (prefix_of_mem_ifs no hno)
  | .loop _ _ body, _ => by
    rw [ifs]
    exact nodup_ifs body _
  | .scope _ ss, _ => by
    rw [ifs]
    exact nodup_listIfs ss _ 0

/-- No two `if`s of a scope have the same address. -/
theorem nodup_listIfs :
    ∀ (ss : List Stmt) (address : Address) (n : Nat), (listIfs address n ss).Nodup
  | [], _, _ => by simp [listIfs]
  | s :: ss, address, n => by
    rw [listIfs, List.nodup_append]
    refine ⟨nodup_ifs s _, nodup_listIfs ss _ _, ?_⟩
    rintro way hs _ hss rfl
    obtain ⟨m, hm, hway⟩ := prefix_of_mem_listIfs ss hss
    have := eq_of_step_prefix (prefix_of_mem_ifs s hs) hway
    omega

end

/-! ## Programs -/

/-- Emits the code of a program whose variables are declared, with a trace. -/
def emit (env : Env) (body : Option Program.Scope) (a : Assembly α) :
    Except Failure (List Event × Assembly α) :=
  match body with
  | none => .ok ([], a)
  | some body =>
    match stmt env none [] (.scope body.decls body.stmts) { program := a } with
    | .error e => .error e
    | .ok (_, t, alloc) => .ok (t, alloc.program.append (emitted t))

/-- Without its trace, code generation gives the same assembly or the same failure. -/
theorem map_emit (env : Env) (body : Option Program.Scope) (a : Assembly α) :
    (emit env body a).map (·.2) = Compilation.emit env body a := by
  cases body with
  | none => rfl
  | some body =>
    unfold emit Compilation.emit
    dsimp only
    rw [← erase_stmt env (.scope body.decls body.stmts) none []]
    unfold Lower.run erase
    cases stmt env none [] (.scope body.decls body.stmts) ({ program := a } : Allocator α) <;> rfl

end Tracing

/-- The `if`s of a program. -/
def Program.ifs (p : Program) : List Address :=
  match p.body with
  | none => []
  | some body => Tracing.ifs [] (.scope body.decls body.stmts)

/-- Compiles a program, with a trace of code generation. -/
def Program.trace {α : Type} [Scalar α] (p : Program) :
    Except Failure (List Tracing.Event × Assembly α) :=
  match Symbols.build p with
  | .error d => .error (.internal d)
  | .ok symbols =>
    match (Compilation.declare ⟨p.decls, symbols⟩ symbols.entries {}).2 with
    | .error e => .error e
    | .ok a => Tracing.emit ⟨p.decls, symbols⟩ p.body a

section Programs

variable {α : Type} [Scalar α]

/-- **A program is traced as it is compiled.** -/
theorem map_trace (p : Program) :
    (p.trace : Except Failure (List Tracing.Event × Assembly α)).map (·.2) =
      p.compile.outcome := by
  unfold Program.trace Program.compile
  cases Symbols.build p with
  | error d => rfl
  | ok symbols =>
    dsimp only
    generalize Compilation.declare ⟨p.decls, symbols⟩ symbols.entries ({} : Assembly α) = r
    obtain ⟨notes, declared⟩ := r
    cases declared with
    | error e => rfl
    | ok a => exact Tracing.map_emit _ _ a

/-- **Every compilation that succeeds has a trace.** -/
theorem exists_trace_of_compile {p : Program} {a : Assembly α}
    (h : (p.compile : Compilation α).outcome = .ok a) : ∃ t, p.trace = Except.ok (t, a) := by
  have hmap := map_trace (α := α) p
  rw [h] at hmap
  cases htrace : p.trace (α := α) with
  | error e =>
    rw [htrace] at hmap
    cases hmap
  | ok r =>
    rw [htrace] at hmap
    cases hmap
    exact ⟨r.1, rfl⟩

/-- What is behind a trace: the variables are declared, and the statements of the body follow. -/
theorem exists_stmt_of_trace {p : Program} {symbols : Symbols} {body : Program.Scope}
    {t : List Tracing.Event} {a : Assembly α} (hbuild : Symbols.build p = .ok symbols)
    (hbody : p.body = some body) (h : p.trace (α := α) = .ok (t, a)) :
    ∃ u alloc, Tracing.stmt ⟨p.decls, symbols⟩ none [] (.scope body.decls body.stmts)
        { program :=
          { userTemps := mutables ⟨p.decls, symbols⟩
            userParams := constants ⟨p.decls, symbols⟩ } } = .ok (u, t, alloc) ∧
      a = alloc.program.append (Tracing.emitted t) := by
  unfold Program.trace at h
  rw [hbuild, hbody] at h
  dsimp only at h
  cases hdeclare : Compilation.declare ⟨p.decls, symbols⟩ symbols.entries ({} : Assembly α) with
  | mk notes declared =>
    rw [hdeclare] at h
    cases declared with
    | error e => cases h
    | ok declared =>
      cases declare_eq_ok hdeclare
      dsimp only [Tracing.emit] at h
      split at h
      · cases h
      · rename_i u t' alloc hrun
        cases h
        exact ⟨u, alloc, hrun, rfl⟩

end Programs

end Shader
