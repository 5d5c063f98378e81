import Shader.Proofs.DiagnosticOrder

/-!
# Faults do not cascade

An expression is blamed once for each of its faults. A part that is at fault gets no type, and what
stands above it takes that as said: it neither has a type of its own nor complains. So two nodes
that are blamed never lie one inside the other, and an expression has a type exactly if none of its
nodes is blamed.

Nodes are told apart by their addresses, as two of them can look the same and even be at the same
position. An address lists the operands on the way down from the whole, so that a node contains
another if its address is a prefix of the other's.

Constructors are left out: one that is at fault still has the type that it names.
-/

namespace Shader

namespace Program

/-- The nodes directly below one. -/
def Expr.children : Expr → List Expr
  | .unary _ _ x _ => [x]
  | .binary _ _ l r _ => [l, r]
  | .call _ _ args _ => args
  | .construct _ _ args => args
  | _ => []

/-- The node at an address. -/
def Expr.node? (e : Expr) : Address → Option Expr
  | [] => some e
  | i :: a => e.children[i]?.bind (node? · a)

mutual

/-- Whether an expression is put together from literals, variables, their components, operators and
calls of the functions of the target. -/
def Expr.isPlain : Expr → Bool
  | .absent | .construct _ _ _ => false
  | .int _ _ | .float _ _ | .bool _ _ | .var _ | .index _ _ _ => true
  | .unary _ _ x _ => x.isPlain
  | .binary _ _ l r _ => l.isPlain && r.isPlain
  | .call _ func args _ => (Function.ofName? func).isSome && Expr.listIsPlain args

/-- Whether expressions are all so. -/
def Expr.listIsPlain : List Expr → Bool
  | [] => true
  | e :: es => e.isPlain && Expr.listIsPlain es

end

end Program

namespace Checker

open Program (Expr refType)
open Typing

/-! ## Which node a diagnostic belongs to -/

/-- The diagnostics that a step adds. -/
def added {α : Type} (m : CheckM α) (s : State) : List Diagnostic :=
  (exec m s).2.errors.drop s.errors.length

/-- Diagnostics of the node itself. -/
def here (ds : List Diagnostic) : List (Address × Diagnostic) := ds.map fun d => ([], d)

/-- What is known of an operand, seen from above. -/
def under (i : Nat) (bs : List (Address × Diagnostic)) : List (Address × Diagnostic) :=
  bs.map fun b => (i :: b.1, b.2)

mutual

/-- The diagnostics that the check of an expression adds, in order, each with the node it belongs
to. The operands are checked one after the other, and what is added behind them is the node's own. A
constructor is not taken apart. -/
def blames : Expr → State → List (Address × Diagnostic)
  | .unary pos op x _, s =>
    let x' := exec (checkExpr x) s
    under 0 (blames x s) ++ here (added (unaryType pos op x'.1.2) x'.2)
  | .binary pos op l r _, s =>
    let l' := exec (checkExpr l) s
    let r' := exec (checkExpr r) l'.2
    under 0 (blames l s) ++ under 1 (blames r l'.2) ++
      here (added (binaryType pos op l'.1.2 r'.1.2) r'.2)
  | .call pos func args _, s =>
    let args' := exec (checkArgs args) s
    operandBlames 0 args s ++ here (added (callType pos func args'.1.2) args'.2)
  | e, s => here (added (checkExpr e) s)

/-- The same for the operands from the place `i` on. -/
def operandBlames (i : Nat) : List Expr → State → List (Address × Diagnostic)
  | [], _ => []
  | e :: es, s => under i (blames e s) ++ operandBlames (i + 1) es (exec (checkExpr e) s).2

end

/-! ## What a node adds by itself -/

/-- A state with more diagnostics. -/
def State.adding (s : State) (ds : List Diagnostic) : State := { s with errors := s.errors ++ ds }

/-- Every variable in scope has a declaration with a type. -/
def State.DeclaresValid (s : State) : Prop :=
  ∀ block ∈ s.scopes, ∀ entry ∈ block,
    ∃ d, s.decls[entry.2]? = some d ∧ d.type.isValid = true

/-- How the step of a node ends that is at `pos`, `given` saying whether its operands have types. It
finds a type, or it passes on that there is none, or it blames the node. -/
inductive Judged (given : Bool) (pos : Pos) (s : State) : Ty × State → Prop where
  | typed {t : Ty} : given = true → t.isValid = true → Judged given pos s (t, s)
  | untyped : given = false → Judged given pos s (.invalid, s)
  | blamed (c : Complaint) : given = true → Judged given pos s (.invalid, s.adding [⟨pos, c⟩])

section Steps

variable {s : State}

theorem report_eq_adding (hs : s.stopped = none) (pos : Pos) (c : Complaint) :
    s.report pos c = s.adding [⟨pos, c⟩] := by
  rw [State.report, if_pos (by rw [State.running, hs]; rfl)]
  rfl

theorem adding_nil (s : State) : s.adding [] = s := by simp [State.adding]

theorem adding_adding (s : State) (ds ds' : List Diagnostic) :
    (s.adding ds).adding ds' = s.adding (ds ++ ds') := by
  simp [State.adding]

/-- The steps of nodes end by a complaint or with a value. -/
theorem judged_complain (hs : s.stopped = none) (pos : Pos) (c : Complaint) :
    Judged true pos s (exec (report pos c >>= fun _ => pure Ty.invalid) s) := by
  rw [exec_bind, exec_report, exec_pure, report_eq_adding hs]
  exact .blamed c rfl

theorem isValid_unaryResult {op : UnaryOp} {t t' : Ty} (h : unaryResult? op t = some t')
    (ht : t.isValid = true) : t'.isValid = true := by
  cases op <;> simp only [unaryResult?] at h
  · split at h <;> cases h
    exact ht
  · split at h <;> cases h
    exact ht
  · cases h

theorem isValid_binaryResult {op : BinaryOp} {l r t : Ty} (h : binaryResult? op l r = some t)
    (hl : l.isValid = true) (hr : r.isValid = true) : t.isValid = true := by
  have hbool : Ty.bool.isValid = true := by decide
  cases op <;> simp only [binaryResult?, productResult?] at h <;> repeat' split at h
  all_goals cases h
  all_goals assumption

theorem isValid_result {f : Function} {args : List Ty} {t : Ty} (h : f.result? args = some t) :
    t.isValid = true := by
  have hall : ∀ sig ∈ f.signatures, sig.2.isValid = true := by cases f <;> decide
  obtain ⟨before, behind, hsplit, -⟩ := List.lookup_eq_some_iff.mp h
  exact hall (args, t) (by rw [hsplit]; simp)

theorem judged_unaryType (hs : s.stopped = none) (pos : Pos) (op : UnaryOp) (t : Ty) :
    Judged t.isValid pos s (exec (unaryType pos op t) s) := by
  cases ht : t.isValid with
  | false =>
    rw [unaryType, if_pos (by simp [ht])]
    exact .untyped rfl
  | true =>
    rw [unaryType, if_neg (by simp [ht])]
    cases h : unaryResult? op t with
    | some t' => exact .typed rfl (isValid_unaryResult h ht)
    | none => exact judged_complain hs pos _

theorem judged_binaryType (hs : s.stopped = none) (pos : Pos) (op : BinaryOp) (l r : Ty) :
    Judged (l.isValid && r.isValid) pos s (exec (binaryType pos op l r) s) := by
  cases hlr : l.isValid && r.isValid with
  | false =>
    rw [binaryType, if_pos (by rw [← Bool.not_and, hlr]; rfl)]
    exact .untyped rfl
  | true =>
    rw [binaryType, if_neg (by rw [← Bool.not_and, hlr]; simp)]
    rw [Bool.and_eq_true] at hlr
    cases h : binaryResult? op l r with
    | some t => exact .typed rfl (isValid_binaryResult h hlr.1 hlr.2)
    | none => exact judged_complain hs pos _

/-- A function that there is complains about its arguments only if they have types. -/
theorem judged_callType (hs : s.stopped = none) (pos : Pos) {func : Bytes}
    (hfunc : (Function.ofName? func).isSome = true) (args : List Ty) :
    Judged (args.all Ty.isValid) pos s (exec (callType pos func args) s) := by
  obtain ⟨f, hf⟩ := Option.isSome_iff_exists.mp hfunc
  rw [callType, hf]
  dsimp only
  cases hargs : args.all Ty.isValid with
  | false => exact .untyped rfl
  | true =>
    simp only [Bool.not_true, Bool.false_eq_true, if_false]
    cases h : f.result? args with
    | some t => exact .typed rfl (isValid_result h)
    | none => exact judged_complain hs pos _

/-! ## Variables -/

theorem State.DeclaresValid.of_lookup? (h : s.DeclaresValid) {name : Bytes} {id : DeclId}
    (hid : s.lookup? name = some id) : ∃ d, s.decls[id]? = some d ∧ d.type.isValid = true := by
  obtain ⟨block, hblock, hlookup⟩ := List.exists_of_findSome?_eq_some hid
  obtain ⟨before, behind, hsplit, -⟩ := List.lookup_eq_some_iff.mp hlookup
  exact h block hblock (name, id) (by rw [hsplit]; simp)

/-- A name that is in scope is bound to its declaration, and any other is reported. -/
theorem exec_resolve_cases (hs : s.stopped = none) (hd : s.DeclaresValid) (ref : Ref) :
    (exec (resolve ref) s = ((ref, .invalid), s.adding [⟨ref.pos, .undeclared ref.name⟩])) ∨
    ∃ id d, s.decls[id]? = some d ∧ d.type.isValid = true ∧
      exec (resolve ref) s = (({ ref with decl := some id }, d.type), s) := by
  rw [resolve, exec_bind, exec_get]
  dsimp only
  cases hid : s.lookup? ref.name with
  | none =>
    dsimp only
    rw [exec_bind, exec_report, exec_pure, report_eq_adding hs]
    exact .inl rfl
  | some id =>
    obtain ⟨d, hget, hvalid⟩ := hd.of_lookup? hid
    refine .inr ⟨id, d, hget, hvalid, ?_⟩
    simp [refType, hget]

/-- An output is reported where it is read. -/
theorem exec_readable_cases (hs : s.stopped = none) (ref : Ref) :
    exec (readable ref) s = (false, s.adding [⟨ref.pos, .readResult ref.name⟩]) ∨
    exec (readable ref) s = (true, s) := by
  rw [readable, exec_bind]
  split
  · rw [exec_bind, exec_report, exec_pure]
    exact .inl (congrArg (Prod.mk false) (report_eq_adding hs _ _))
  · exact .inr rfl

theorem judged_var (hs : s.stopped = none) (hd : s.DeclaresValid) (ref : Ref) :
    Judged true ref.pos s
      ((exec (checkExpr (.var ref)) s).1.2, (exec (checkExpr (.var ref)) s).2) := by
  rw [checkExpr, exec_whileRunning, if_pos (by rw [State.running, hs]; rfl), exec_bind]
  rcases exec_resolve_cases hs hd ref with hr | ⟨id, d, -, hvalid, hr⟩
  · rw [hr]
    exact .blamed _ rfl
  · rw [hr]
    dsimp only
    rw [if_neg (by simp [hvalid]), exec_bind]
    rcases exec_readable_cases hs { ref with decl := some id } with hq | hq
    · rw [hq]
      exact .blamed _ rfl
    · rw [hq]
      exact .typed rfl hvalid

theorem judged_index (hs : s.stopped = none) (hd : s.DeclaresValid) (ref : Ref) (i : Int)
    (old : Ty) : Judged true ref.pos s ((exec (checkExpr (.index ref i old)) s).1.2,
      (exec (checkExpr (.index ref i old)) s).2) := by
  rw [checkExpr, exec_whileRunning, if_pos (by rw [State.running, hs]; rfl), exec_bind]
  -- each way of failing is one report at the name: unknown, unreadable, no vector, out of range
  rcases exec_resolve_cases hs hd ref with hr | ⟨id, d, hget, hvalid, hr⟩
  · rw [hr]
    exact .blamed _ rfl
  · rw [hr]
    dsimp only
    rw [if_neg (by simp [hvalid]), exec_bind]
    rcases exec_readable_cases hs { ref with decl := some id } with hq | hq
    · rw [hq]
      exact .blamed _ rfl
    · rw [hq]
      dsimp only
      rw [if_pos rfl, exec_bind, component, exec_bind, exec_get]
      have htype : refType s.decls { ref with decl := some id } = d.type := by
        simp [refType, hget]
      dsimp only
      rw [htype, if_neg (by simp [hvalid])]
      split
      · rw [exec_bind, exec_report, exec_pure, report_eq_adding hs]
        exact .blamed _ rfl
      · split
        · rw [exec_bind, exec_report, exec_pure, report_eq_adding hs]
          exact .blamed _ rfl
        · refine .typed rfl ?_
          show d.type.scalar.isValid = true
          simp only [Ty.isValid, Bool.and_eq_true] at hvalid ⊢
          exact ⟨⟨hvalid.1.1, rfl⟩, rfl⟩

end Steps

/-! ## Expressions -/

/-- Neither of two nodes contains the other. -/
def Unnested (a b : Address) : Prop := ¬ a <+: b ∧ ¬ b <+: a

/-- What is known of a check that leads from `s` to `s'` and blames nodes, `valid` saying whether a
type was found. -/
structure Verdict (bs : List (Address × Diagnostic)) (s s' : State) (valid : Bool) : Prop where
  /-- The diagnostics of these nodes are what it adds, and it changes nothing else. -/
  state : s' = s.adding (bs.map Prod.snd)
  silent : bs = [] ↔ valid = true
  unnested : bs.Pairwise fun b b' => Unnested b.1 b'.1

section Verdicts

variable {s s₁ s₂ : State} {bs bs' : List (Address × Diagnostic)} {v v' : Bool} {t : Ty} {pos : Pos}

theorem Verdict.stopped (h : Verdict bs s s₁ v) (hs : s.stopped = none) : s₁.stopped = none := by
  rw [h.state]
  exact hs

theorem Verdict.declaresValid (h : Verdict bs s s₁ v) (hd : s.DeclaresValid) :
    s₁.DeclaresValid := by
  rw [h.state]
  exact hd

theorem under_eq_nil {i : Nat} : under i bs = [] ↔ bs = [] := List.map_eq_nil_iff

theorem unnested_cons {i : Nat} {a b : Address} (h : Unnested a b) :
    Unnested (i :: a) (i :: b) := by
  simpa [Unnested, List.cons_prefix_cons] using h

/-- Different operands do not contain one another. -/
theorem unnested_of_ne {i j : Nat} (h : i ≠ j) (a b : Address) : Unnested (i :: a) (j :: b) := by
  simp [Unnested, List.cons_prefix_cons, h, h.symm]

theorem Verdict.under (i : Nat) (h : Verdict bs s s₁ v) : Verdict (under i bs) s s₁ v where
  state := by
    rw [h.state, Checker.under, List.map_map]
    rfl
  silent := under_eq_nil.trans h.silent
  unnested := List.pairwise_map.mpr (h.unnested.imp unnested_cons)

theorem verdict_nil (s : State) : Verdict [] s s true where
  state := (adding_nil s).symm
  silent := by simp
  unnested := .nil

theorem Verdict.append (h : Verdict bs s s₁ v) (h' : Verdict bs' s₁ s₂ v')
    (hne : ∀ b ∈ bs, ∀ b' ∈ bs', Unnested b.1 b'.1) : Verdict (bs ++ bs') s s₂ (v && v') where
  state := by rw [h'.state, h.state, adding_adding, List.map_append]
  silent := by rw [List.append_eq_nil_iff, h.silent, h'.silent, Bool.and_eq_true]
  unnested := List.pairwise_append.mpr ⟨h.unnested, h'.unnested, hne⟩

theorem added_eq {α : Type} {m : CheckM α} {ds : List Diagnostic}
    (h : (exec m s).2 = s.adding ds) : added m s = ds := by
  rw [added, h]
  exact List.drop_left

/-- **A node is blamed only if its operands are not.** -/
theorem Verdict.judged (h : Verdict bs s s₁ v) {α : Type} {m : CheckM α}
    (hm : Judged v pos s₁ (t, (exec m s₁).2)) :
    Verdict (bs ++ here (added m s₁)) s (exec m s₁).2 t.isValid := by
  generalize hs₂ : (exec m s₁).2 = s₂ at hm
  cases hm with
  | typed hv ht =>
    have hadded : added m s₁ = [] := added_eq (by rw [hs₂, adding_nil])
    rw [hadded, here, List.map_nil, List.append_nil, ht, ← hv]
    exact h
  | untyped hv =>
    have hadded : added m s₁ = [] := added_eq (by rw [hs₂, adding_nil])
    rw [hadded, here, List.map_nil, List.append_nil]
    rw [hv] at h
    exact h
  | blamed c hv =>
    -- the operands have types, so nothing is blamed below
    have hnil := h.silent.mpr hv
    subst hnil
    rw [added_eq hs₂, List.nil_append]
    refine ⟨?_, by simp [here, Ty.isValid, Ty.invalid], List.pairwise_singleton _ _⟩
    rw [h.state, List.map_nil, adding_nil]
    rfl

/-- Nodes of operands have addresses below those operands. -/
theorem exists_of_mem_under {i : Nat} {b : Address × Diagnostic} (h : b ∈ under i bs) :
    ∃ c ∈ bs, b = (i :: c.1, c.2) := by
  obtain ⟨c, hc, rfl⟩ := List.mem_map.mp h
  exact ⟨c, hc, rfl⟩

theorem exists_of_mem_operandBlames {b : Address × Diagnostic} :
    ∀ {es : List Expr} {i : Nat} {s : State}, b ∈ operandBlames i es s →
      ∃ j ≥ i, ∃ a, b.1 = j :: a
  | [], _, _, h => by simp [operandBlames] at h
  | e :: es, i, s, h => by
    rw [operandBlames, List.mem_append] at h
    rcases h with h | h
    · obtain ⟨c, -, rfl⟩ := exists_of_mem_under h
      exact ⟨i, Nat.le_refl i, c.1, rfl⟩
    · obtain ⟨j, hj, a, ha⟩ := exists_of_mem_operandBlames h
      exact ⟨j, Nat.le_of_succ_le hj, a, ha⟩

theorem Judged.stopped {r : Ty × State} (h : Judged v pos s r) (hs : s.stopped = none) :
    r.2.stopped = none := by
  cases h <;> exact hs

/-- The node of an operator, whose type is noted in the end. -/
theorem Verdict.noted (h : Verdict bs s s₁ v) (hs : s.stopped = none) {m : CheckM Ty}
    (hm : Judged v pos s₁ (exec m s₁)) (g : Ty → Expr) (old : Ty) :
    Verdict (bs ++ here (added m s₁)) s
      (exec (m >>= fun found => settle old found >>= fun t => pure (g t, t)) s₁).2
      (exec (m >>= fun found => settle old found >>= fun t => pure (g t, t)) s₁).1.2.isValid := by
  rw [exec_bind, exec_bind, exec_settle_running (hm.stopped (h.stopped hs))]
  exact h.judged hm

theorem verdict_leaf {e : Expr} (hblames : blames e s = here (added (checkExpr e) s))
    (h : Judged true e.pos s ((exec (checkExpr e) s).1.2, (exec (checkExpr e) s).2)) :
    Verdict (blames e s) s (exec (checkExpr e) s).2 (exec (checkExpr e) s).1.2.isValid := by
  rw [hblames]
  exact (verdict_nil s).judged h

mutual

/-- **What is blamed in an expression.** The cases are those of its outermost node, and each goes by
what the node adds behind its operands. -/
theorem verdict_checkExpr : ∀ {e : Expr} {s : State}, e.isPlain = true → s.stopped = none →
    s.DeclaresValid →
    Verdict (blames e s) s (exec (checkExpr e) s).2 (exec (checkExpr e) s).1.2.isValid
  | .absent, _, h, _, _ => by simp [Expr.isPlain] at h
  | .construct _ _ _, _, h, _, _ => by simp [Expr.isPlain] at h
  | .int pos n, s, _, _, _ => by
    refine verdict_leaf (by rw [blames] <;> simp) ?_
    rw [checkExpr]
    exact .typed rfl rfl
  | .float pos x, s, _, _, _ => by
    refine verdict_leaf (by rw [blames] <;> simp) ?_
    rw [checkExpr]
    exact .typed rfl rfl
  | .bool pos b, s, _, _, _ => by
    refine verdict_leaf (by rw [blames] <;> simp) ?_
    rw [checkExpr]
    exact .typed rfl rfl
  | .var ref, s, _, hs, hd => verdict_leaf (by rw [blames] <;> simp) (judged_var hs hd ref)
  | .index ref i old, s, _, hs, hd =>
    verdict_leaf (by rw [blames] <;> simp) (judged_index hs hd ref i old)
  | .unary pos op x old, s, h, hs, hd => by
    rw [Expr.isPlain] at h
    have hx := verdict_checkExpr h hs hd
    have hown := judged_unaryType (hx.stopped hs) pos op (exec (checkExpr x) s).1.2
    rw [blames, checkExpr, exec_bind]
    exact (hx.under 0).noted hs hown (.unary pos op _) old
  | .binary pos op l r old, s, h, hs, hd => by
    rw [Expr.isPlain, Bool.and_eq_true] at h
    have hl := verdict_checkExpr h.1 hs hd
    have hr := verdict_checkExpr h.2 (hl.stopped hs) (hl.declaresValid hd)
    -- what is blamed on the left is not within what is blamed on the right, as the addresses differ
    have hboth := (hl.under 0).append (hr.under 1) fun b hb b' hb' => by
      obtain ⟨c, -, rfl⟩ := exists_of_mem_under hb
      obtain ⟨c', -, rfl⟩ := exists_of_mem_under hb'
      exact unnested_of_ne Nat.zero_ne_one _ _
    have hown := judged_binaryType (hboth.stopped hs) pos op (exec (checkExpr l) s).1.2
      (exec (checkExpr r) (exec (checkExpr l) s).2).1.2
    rw [blames, checkExpr, exec_bind, exec_bind]
    exact hboth.noted hs hown (.binary pos op _ _) old
  | .call pos func args old, s, h, hs, hd => by
    rw [Expr.isPlain, Bool.and_eq_true] at h
    have hargs := verdict_checkArgs (i := 0) h.2 hs hd
    have hown := judged_callType (hargs.stopped hs) pos h.1 (exec (checkArgs args) s).1.2
    rw [blames, checkExpr, exec_bind]
    exact hargs.noted hs hown (.call pos func _) old

theorem verdict_checkArgs : ∀ {es : List Expr} {i : Nat} {s : State}, Expr.listIsPlain es = true →
    s.stopped = none → s.DeclaresValid →
    Verdict (operandBlames i es s) s (exec (checkArgs es) s).2
      ((exec (checkArgs es) s).1.2.all Ty.isValid)
  | [], _, s, _, _, _ => by
    rw [operandBlames, checkArgs]
    exact verdict_nil s
  | e :: es, i, s, h, hs, hd => by
    rw [Expr.listIsPlain, Bool.and_eq_true] at h
    have he := verdict_checkExpr h.1 hs hd
    have hes := verdict_checkArgs (i := i + 1) h.2 (he.stopped hs) (he.declaresValid hd)
    rw [operandBlames, checkArgs, exec_bind, exec_bind]
    refine (he.under i).append hes fun b hb b' hb' => ?_
    obtain ⟨c, -, rfl⟩ := exists_of_mem_under hb
    obtain ⟨j, hj, a, ha⟩ := exists_of_mem_operandBlames hb'
    rw [ha]
    exact unnested_of_ne (by omega) _ _

end

end Verdicts

/-! ## Nodes and positions -/

section Nodes

variable {s : State} {b : Address × Diagnostic}

/-- What a node adds by itself is at its position. -/
theorem node_of_mem_here {α : Type} {m : CheckM α} {e : Expr}
    (hm : ∀ table, Reports table [e.pos] m) (h : b ∈ here (added m s)) :
    ∃ n, e.node? b.1 = some n ∧ b.2.pos = n.pos := by
  obtain ⟨d, hd, rfl⟩ := List.mem_map.mp h
  obtain ⟨ds, hds, hfollows⟩ := (hm _ s rfl).errors
  rw [added, hds, List.drop_left] at hd
  exact ⟨e, rfl, List.mem_singleton.mp (hfollows.mem hd)⟩

/-- A node of an operand is one of the whole. -/
theorem node_of_mem_under {i : Nat} {e x : Expr} {bs : List (Address × Diagnostic)}
    (hx : e.children[i]? = some x)
    (hbs : ∀ c ∈ bs, ∃ n, x.node? c.1 = some n ∧ c.2.pos = n.pos) (h : b ∈ under i bs) :
    ∃ n, e.node? b.1 = some n ∧ b.2.pos = n.pos := by
  obtain ⟨c, hc, rfl⟩ := exists_of_mem_under h
  obtain ⟨n, hn, hpos⟩ := hbs c hc
  refine ⟨n, ?_, hpos⟩
  rw [Expr.node?, hx]
  exact hn

mutual

/-- **A diagnostic is at the position of its node.** -/
theorem node_of_mem_blames : ∀ {e : Expr} {s : State}, e.isPlain = true →
    ∀ b ∈ blames e s, ∃ n, e.node? b.1 = some n ∧ b.2.pos = n.pos
  | .absent, _, h, _, _ => by simp [Expr.isPlain] at h
  | .construct _ _ _, _, h, _, _ => by simp [Expr.isPlain] at h
  | .int pos n, _, _, b, hb => by
    rw [blames] at hb
    · exact node_of_mem_here (fun _ => reports_checkExpr (.int pos n)) hb
    all_goals simp
  | .float pos x, _, _, b, hb => by
    rw [blames] at hb
    · exact node_of_mem_here (fun _ => reports_checkExpr (.float pos x)) hb
    all_goals simp
  | .bool pos x, _, _, b, hb => by
    rw [blames] at hb
    · exact node_of_mem_here (fun _ => reports_checkExpr (.bool pos x)) hb
    all_goals simp
  | .var ref, _, _, b, hb => by
    rw [blames] at hb
    · exact node_of_mem_here (fun _ => reports_checkExpr (.var ref)) hb
    all_goals simp
  | .index ref i old, _, _, b, hb => by
    rw [blames] at hb
    · exact node_of_mem_here (fun _ => reports_checkExpr (.index ref i old)) hb
    all_goals simp
  | .unary pos op x old, s, h, b, hb => by
    rw [Expr.isPlain] at h
    rw [blames, List.mem_append] at hb
    rcases hb with hb | hb
    · exact node_of_mem_under rfl (node_of_mem_blames h) hb
    · exact node_of_mem_here (fun _ => reports_unaryType pos op _) hb
  | .binary pos op l r old, s, h, b, hb => by
    rw [Expr.isPlain, Bool.and_eq_true] at h
    rw [blames, List.mem_append, List.mem_append] at hb
    rcases hb with (hb | hb) | hb
    · exact node_of_mem_under rfl (node_of_mem_blames h.1) hb
    · exact node_of_mem_under rfl (node_of_mem_blames h.2) hb
    · exact node_of_mem_here (fun _ => reports_binaryType pos op _ _) hb
  | .call pos func args old, s, h, b, hb => by
    rw [Expr.isPlain, Bool.and_eq_true] at h
    rw [blames, List.mem_append] at hb
    rcases hb with hb | hb
    · exact node_of_mem_operandBlames (i := 0) (e := .call pos func args old) rfl h.2 hb
    · exact node_of_mem_here (fun _ => reports_callType pos func _) hb

theorem node_of_mem_operandBlames : ∀ {es : List Expr} {i : Nat} {s : State} {e : Expr},
    e.children.drop i = es → Expr.listIsPlain es = true →
    ∀ {b : Address × Diagnostic}, b ∈ operandBlames i es s →
      ∃ n, e.node? b.1 = some n ∧ b.2.pos = n.pos
  | [], _, _, _, _, _, _, hb => by simp [operandBlames] at hb
  | x :: es, i, s, e, he, h, b, hb => by
    rw [Expr.listIsPlain, Bool.and_eq_true] at h
    rw [operandBlames, List.mem_append] at hb
    have hx : e.children[i]? = some x := by rw [← List.head?_drop, he]; rfl
    have hrest : e.children.drop (i + 1) = es := by rw [← List.tail_drop, he]; rfl
    rcases hb with hb | hb
    · exact node_of_mem_under hx (node_of_mem_blames h.1) hb
    · exact node_of_mem_operandBlames hrest h.2 hb

end

end Nodes

/-- **Faults do not cascade.** An expression of literals, variables, components, operators and calls
of functions of the target is checked where all that is in scope has a type. The diagnostics that
are added each belong to a node, and are at its position; no two of them belong to nodes of which
one contains the other, and there are none exactly if the expression gets a type. -/
theorem checkExpr_blames_unnested (e : Expr) (s : State) (he : e.isPlain = true)
    (hs : s.stopped = none) (hd : s.DeclaresValid) :
    (exec (checkExpr e) s).2.errors = s.errors ++ (blames e s).map Prod.snd ∧
    ((exec (checkExpr e) s).2.errors = s.errors ↔ (exec (checkExpr e) s).1.2.isValid = true) ∧
    (∀ b ∈ blames e s, ∃ n, e.node? b.1 = some n ∧ b.2.pos = n.pos) ∧
    (blames e s).Pairwise fun b b' => Unnested b.1 b'.1 := by
  have h := verdict_checkExpr he hs hd
  have herrors : (exec (checkExpr e) s).2.errors = s.errors ++ (blames e s).map Prod.snd := by
    rw [h.state]
    rfl
  refine ⟨herrors, ?_, node_of_mem_blames he, h.unnested⟩
  rw [herrors, List.append_right_eq_self, List.map_eq_nil_iff]
  exact h.silent

/-- In `(b + 1) * dp3(v, -v[7])`, with only `v` declared, the name `b` and the component are blamed,
and neither of the operators nor the call. -/
theorem checkExpr_blames_unnested_twice :
    let v : Ref := { name := ascii "v" }
    let e : Expr := .binary {} .mul
      (.binary {} .add (.var { name := ascii "b" }) (.int {} 1) .invalid)
      (.call {} (ascii "dp3") [.var v, .unary {} .neg (.index v 7 .invalid) .invalid] .invalid)
      .invalid
    let s : State :=
      { scopes := [[(ascii "v", 0)]], decls := [{ name := ascii "v", type := .vec4 }] }
    e.isPlain = true ∧ s.stopped = none ∧ s.DeclaresValid ∧
      (blames e s).map Prod.fst = [[0, 0], [1, 1, 0]] ∧
      (exec (checkExpr e) s).2.errors = s.errors ++ (blames e s).map Prod.snd ∧
      ((exec (checkExpr e) s).2.errors = s.errors ↔ (exec (checkExpr e) s).1.2.isValid = true) ∧
      (∀ b ∈ blames e s, ∃ n, e.node? b.1 = some n ∧ b.2.pos = n.pos) ∧
      (blames e s).Pairwise fun b b' => Unnested b.1 b'.1 := by
  intro v e s
  have he : e.isPlain = true := by decide
  have hd : s.DeclaresValid := by
    intro block hblock entry hentry
    cases List.mem_singleton.mp hblock
    cases List.mem_singleton.mp hentry
    exact ⟨_, rfl, rfl⟩
  exact ⟨he, rfl, hd, by decide +kernel, checkExpr_blames_unnested e s he rfl hd⟩

end Checker

end Shader
