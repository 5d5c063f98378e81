import Shader.Proofs.CheckerExpr
import Shader.Proofs.ParserExact

/-!
# The checker decides the type system

Declarations, statements and programs. A block changes two parts of the state, the open blocks and
the table, and along a derivation both are known: `State.place` is the state with the blocks of a
context and a given table. The table is cut at the place of the next declaration, so that a step
says what it does to the entries of its own declarations and leaves the rest alone.
-/

namespace Shader.Checker

open Program (Expr Stmt predefinedDecls declOfAst astDecls astDeclsList)
open Typing TypeSystem

/-- The state with the blocks of a context and a given table. -/
def State.place (s : State) (Γ : Context) (decls : List Declaration) : State :=
  { s with scopes := Γ.map names, decls := decls }

variable {Γ Γ' : Context} {s : State} {decls : List Declaration}

theorem matches_place (hs : s.stopped = none) (hd : Lists decls Γ) (hΓ : Γ.Named) :
    Matches Γ (s.place Γ decls) := ⟨hs, rfl, hd, hΓ⟩

/-! ## Declarations -/

/-- Declaring a variable whose name is new to its block. -/
theorem declare_place {b : Block} {id : DeclId} {d : Declaration} (hs : s.stopped = none)
    (hd : decls[id]? = some d) (hnew : b.lookup d.name = none) :
    (s.place (b :: Γ) decls).declare id = s.place (b.declare id d :: Γ) decls := by
  have hrun : (s.place (b :: Γ) decls).running = true := by
    show s.stopped.isNone = true
    rw [hs]
    rfl
  have hd' : (s.place (b :: Γ) decls).decls[id]? = some d := hd
  have hscopes : (s.place (b :: Γ) decls).scopes = names b :: Γ.map names := rfl
  unfold State.declare
  rw [hrun, hd', hscopes]
  dsimp only
  rw [Matches.lookup_names, hnew]
  rfl

/-- A declaration that is not reported has a name that is new in its block. -/
theorem new_of_quiet {b : Block} {id : DeclId} {d : Declaration} (hs : s.stopped = none)
    (hl : Lists decls (b :: Γ)) (hd : decls[id]? = some d)
    (h : Quiet (modify (·.declare id)) (s.place (b :: Γ) decls)) : b.lookup d.name = none := by
  have hrun : (s.place (b :: Γ) decls).running = true := by
    show s.stopped.isNone = true
    rw [hs]
    rfl
  have hd' : (s.place (b :: Γ) decls).decls[id]? = some d := hd
  have hscopes : (s.place (b :: Γ) decls).scopes = names b :: Γ.map names := rfl
  have hq : ((s.place (b :: Γ) decls).declare id).errors = s.errors := h
  cases hx : b.lookup d.name with
  | none => rfl
  | some x =>
    exfalso
    -- the entry of the block is in the table, so the second declaration is reported
    obtain ⟨l₁, l₂, heq, -⟩ := List.lookup_eq_some_iff.mp hx
    have hbound := hl b (by simp) (d.name, x) (by rw [heq]; simp)
    rw [List.getElem?_map] at hbound
    obtain ⟨e, he, -⟩ := Option.map_eq_some_iff.mp hbound
    have he' : (s.place (b :: Γ) decls).decls[x.id]? = some e := he
    have hreport : ∀ pos c, ((s.place (b :: Γ) decls).report pos c).errors ≠ s.errors := by
      intro pos c
      rw [State.report, if_pos hrun]
      show s.errors ++ [_] ≠ s.errors
      simp
    unfold State.declare at hq
    rw [hrun, hd', hscopes] at hq
    dsimp only at hq
    rw [Matches.lookup_names, hx, Option.map_some, Option.bind_some, he'] at hq
    dsimp only at hq
    split at hq
    · exact hreport _ _ hq
    · exact hreport _ _ hq

section Table

variable {before after : List Declaration}

theorem getElem?_table (d : Declaration) :
    (before ++ d :: after)[before.length]? = some d := by
  simp

theorem setInit_place (d : Declaration) (e : Expr) :
    (s.place Γ (before ++ d :: after)).setInit before.length e =
      s.place Γ (before ++ { d with init := some e } :: after) := by
  unfold State.setInit State.place
  rw [List.modify_eq_take_drop]
  simp

/-- A declaration without an initializer is brought into scope. -/
theorem exec_checkDecl_plain {id : DeclId} {d : Declaration} (hs : s.stopped = none)
    (hd : s.decls[id]? = some d) (hinit : d.init = none) (hc : d.isConst = false) :
    exec (checkDecl id) s = ((), s.declare id) := by
  rw [checkDecl, exec_whileRunning, if_pos (by rw [State.running, hs]; rfl), exec_bind, exec_get]
  dsimp only
  rw [hd]
  dsimp only
  rw [hinit]
  dsimp only
  rw [if_neg (by rw [hc]; simp), exec_modify]

/-- One with an initializer of its type has that checked before it is brought into scope, so the
initializer does not see it. -/
theorem exec_checkDecl_init {id : DeclId} {d : Declaration} {e e' : Expr} (hs : s.stopped = none)
    (hd : s.decls[id]? = some d) (hinit : d.init = some e)
    (he : exec (checkExpr e) s = ((e', d.type), s)) :
    exec (checkDecl id) s = ((), (s.setInit id e').declare id) := by
  rw [checkDecl, exec_whileRunning, if_pos (by rw [State.running, hs]; rfl), exec_bind, exec_get]
  dsimp only
  rw [hd]
  dsimp only
  rw [hinit]
  dsimp only
  rw [exec_bind, he]
  dsimp only
  rw [exec_bind, exec_modify]
  dsimp only
  rw [if_neg (by simp), exec_modify]

/-- **A typed declaration is checked without a diagnostic**: its entry gets what the derivation
says, and from then on it is in scope. -/
theorem exec_checkDecl {b : Block} {d : Ast.Decl} {d' : Declaration} (hs : s.stopped = none)
    (hl : Lists (before ++ declOfAst d :: after) (b :: Γ)) (hΓ : Context.Named (b :: Γ))
    (h : DeclTyped (b :: Γ) d d') (hnew : b.lookup d'.name = none) :
    exec (checkDecl before.length) (s.place (b :: Γ) (before ++ declOfAst d :: after)) =
      ((), s.place (b.declare before.length d' :: Γ) (before ++ d' :: after)) := by
  have hm := matches_place (s := s) hs hl hΓ
  have hd : ∀ d, (before ++ d :: after)[before.length]? = some d := getElem?_table
  cases h with
  | plain ht =>
    rw [exec_checkDecl_plain hm.stopped (hd _) rfl rfl]
    exact congrArg (Prod.mk ()) (declare_place hs (hd _) hnew)
  | mutable ht he =>
    rw [exec_checkDecl_init hm.stopped (hd _) rfl (exec_checkExpr hm he), setInit_place]
    exact congrArg (Prod.mk ()) (declare_place hs (hd _) hnew)
  | const ht he =>
    rw [exec_checkDecl_init hm.stopped (hd _) rfl (exec_checkExpr hm he), setInit_place]
    exact congrArg (Prod.mk ()) (declare_place hs (hd _) hnew)

/-- A declaration of a type of the language. -/
def NamedDecl (d : Ast.Decl) : Prop := Named d.type ∧ ∀ e, d.init = some e → NamedExpr e

/-- **A declaration that is checked without a diagnostic is typed.** -/
theorem declTyped_of_quiet {b : Block} {d : Ast.Decl} (hs : s.stopped = none)
    (hl : Lists (before ++ declOfAst d :: after) (b :: Γ)) (hΓ : Context.Named (b :: Γ))
    (hn : NamedDecl d)
    (h : Quiet (checkDecl before.length) (s.place (b :: Γ) (before ++ declOfAst d :: after))) :
    ∃ d', DeclTyped (b :: Γ) d d' ∧ b.lookup d'.name = none := by
  have hm := matches_place (s := s) hs hl hΓ
  have hd : ∀ d, (before ++ d :: after)[before.length]? = some d := getElem?_table
  rw [checkDecl, Quiet, exec_whileRunning, if_pos hm.running] at h
  have h₁ := Quiet.after h (exec_get _)
  dsimp only at h₁
  rw [show (s.place (b :: Γ) (before ++ declOfAst d :: after)).decls[before.length]? =
    some (declOfAst d) from hd _] at h₁
  obtain ⟨pos, isConst, t, name, init⟩ := d
  cases init with
  | none =>
    dsimp only [declOfAst, Option.map_none] at h₁
    -- a constant without initializer is reported
    split at h₁
    · exact absurd h₁ (not_quiet_report hm.stopped (grows_declare _))
    · rename_i hc
      have hc : isConst = false := by
        cases isConst with
        | «false» => rfl
        | «true» => exact absurd rfl hc
      subst hc
      exact ⟨_, .plain hn.1, new_of_quiet hs hl (hd _) h₁⟩
  | some e =>
    dsimp only [declOfAst, Option.map_some] at h₁
    have hrest : ∀ type e', Grows (modify (·.setInit before.length e') >>= fun _ : Unit =>
        if (type.isValid && decide (type ≠ t)) = true then
          report pos (.initializer t name type) >>= fun _ => modify (·.declare before.length)
        else modify (·.declare before.length) : CheckM Unit) := fun _ _ =>
      grows.bind (grows_modify fun _ => List.prefix_rfl) fun _ =>
        grows.ite (grows.bind (grows.report _ _) fun _ => grows_declare _) (grows_declare _)
    -- the initializer is checked first, in the scope before the declaration
    obtain ⟨e', u, he⟩ :=
      typed_of_quiet hm e (hn.2 e rfl) (h₁.bind (grows.checkExpr _) (hrest _ _)).1
    have h₂ := h₁.after (exec_checkExpr hm he)
    have h₃ := h₂.onward (exec_modify _ _) rfl
    rw [setInit_place] at h₃
    have hu : u.isValid = true := (he.named hΓ).isValid
    have hl' : Lists (before ++ { declOfAst ⟨pos, isConst, t, name, some e⟩ with
        init := some e' } :: after) (b :: Γ) := hl.congr (by simp [signature])
    -- so is one of another type
    split at h₃
    · exact absurd h₃ (not_quiet_report hs (grows_declare _))
    · rename_i hsame
      have hsame : u = t := by simpa [hu] using hsame
      subst hsame
      have hnew := new_of_quiet hs hl' (hd _) h₃
      cases isConst with
      | «false» => exact ⟨_, .mutable hn.1 he, hnew⟩
      | «true» => exact ⟨_, .const hn.1 he, hnew⟩

theorem signature_of_declTyped {d : Ast.Decl} {d' : Declaration} (h : DeclTyped Γ d d') :
    signature d' = signature (declOfAst d) := by
  cases h <;> rfl

end Table

theorem signatures_of_declsTyped {next : DeclId} {ds : List Ast.Decl} {ds' : List Declaration}
    (h : DeclsTyped next Γ ds ds' Γ') :
    ds'.map signature = (ds.map declOfAst).map signature := by
  induction h with
  | nil => rfl
  | cons hd _ _ ih => simp only [List.map_cons, ih, signature_of_declTyped hd]

/-- **Typed declarations are checked without a report**, and leave the state of the context behind
them. -/
theorem exec_checkDecls {next : DeclId} {ds : List Ast.Decl} {ds' : List Declaration}
    (hs : s.stopped = none) (h : DeclsTyped next Γ ds ds' Γ') (before after : List Declaration)
    (hnext : before.length = next) (hl : Lists (before ++ (ds.map declOfAst ++ after)) Γ)
    (hΓ : Γ.Named) :
    exec ((List.range' next ds.length).forM checkDecl)
        (s.place Γ (before ++ (ds.map declOfAst ++ after))) =
      ((), s.place Γ' (before ++ (ds' ++ after))) ∧ Lists (before ++ (ds' ++ after)) Γ' := by
  induction h generalizing before with
  | nil => exact ⟨rfl, hl⟩
  | @cons next b Γ Γ' d d' ds ds' hd hnew hds ih =>
    subst hnext
    rw [List.map_cons, List.cons_append] at hl ⊢
    have hl₁ : Lists (before ++ (d' :: (ds.map declOfAst ++ after))) (b :: Γ) :=
      hl.congr (by simp [signature_of_declTyped hd])
    have hstep := exec_checkDecl hs hl hΓ hd hnew
    have hrest := ih (before ++ [d']) (by simp)
      (by simpa using hl₁.declare (getElem?_table d')) (hΓ.declare hd.named)
    simp only [List.append_assoc, List.singleton_append] at hrest
    refine ⟨?_, hrest.2⟩
    show exec (checkDecl before.length >>= fun _ => _) _ = _
    rw [exec_bind, hstep]
    exact hrest.1

/-- **Declarations that are checked without a report are typed.** The check of each leaves the state
in which the next is checked, so the induction goes along the list. -/
theorem declsTyped_of_quiet (hs : s.stopped = none) :
    ∀ (ds : List Ast.Decl) (b : Block) (Γ : Context) (before after : List Declaration),
      (∀ d ∈ ds, NamedDecl d) → Lists (before ++ (ds.map declOfAst ++ after)) (b :: Γ) →
      Context.Named (b :: Γ) →
      Quiet ((List.range' before.length ds.length).forM checkDecl)
        (s.place (b :: Γ) (before ++ (ds.map declOfAst ++ after))) →
      ∃ ds' Γ', DeclsTyped before.length (b :: Γ) ds ds' Γ'
  | [], _, _, _, _, _, _, _, _ => ⟨_, _, .nil⟩
  | d :: ds, b, Γ, before, after, hn, hl, hΓ, h => by
    have h : Quiet (checkDecl before.length >>= fun _ =>
        (List.range' (before.length + 1) ds.length).forM checkDecl)
        (s.place (b :: Γ) (before ++ (declOfAst d :: (ds.map declOfAst ++ after)))) := h
    obtain ⟨d', hd, hnew⟩ := declTyped_of_quiet hs hl hΓ (hn d (by simp))
      (h.bind (grows_checkDecl _) (grows.forM grows_checkDecl _)).1
    have hl₁ : Lists (before ++ (d' :: (ds.map declOfAst ++ after))) (b :: Γ) :=
      hl.congr (by simp [signature_of_declTyped hd])
    have h' := h.onward (exec_checkDecl hs hl hΓ hd hnew) rfl
    have hlen : before.length + 1 = (before ++ [d']).length := by simp
    -- as checked, the declaration belongs to those before the next one
    have hcut : before ++ d' :: (ds.map declOfAst ++ after) =
        (before ++ [d']) ++ (ds.map declOfAst ++ after) := by simp
    have hl₂ := hl₁.declare (getElem?_table d')
    rw [hcut] at hl₂ h'
    rw [hlen] at h'
    obtain ⟨ds', Γ', hds⟩ := declsTyped_of_quiet hs ds _ Γ (before ++ [d']) after
      (fun d hd => hn d (by simp [hd])) hl₂ (hΓ.declare hd.named) h'
    rw [← hlen] at hds
    exact ⟨_, _, .cons hd hnew hds⟩

/-! ## Statements -/

theorem exec_checkCondition (hΓ : Matches Γ s) {kind : Conditional} {c : Ast.Expr} {c' : Expr}
    (h : Typed Γ c c' .bool) : exec (checkCondition kind (Expr.ofAst c)) s = (c', s) := by
  rw [checkCondition, exec_bind, exec_checkExpr hΓ h]
  rfl

theorem bool_of_quiet (hΓ : Matches Γ s) {kind : Conditional} {c : Ast.Expr} (hn : NamedExpr c)
    (h : Quiet (checkCondition kind (Expr.ofAst c)) s) : ∃ c', Typed Γ c c' .bool := by
  rw [checkCondition] at h
  obtain ⟨c', t, hc⟩ := typed_of_quiet hΓ c hn (h.bind (grows.checkExpr _)
    (grows.ite (grows.bind (grows.report _ _) fun _ => grows.pure _) (grows.pure _))).1
  have h' := h.after (exec_checkExpr hΓ hc)
  dsimp only at h'
  split at h'
  · exact absurd h' (not_quiet_report hΓ.stopped (grows.pure _))
  · rename_i ht
    rw [(hc.named hΓ.named).isValid] at ht
    have ht : t = .bool := by simpa using ht
    exact ⟨c', ht ▸ hc⟩

/-- A variable that is neither a constant nor an input may be assigned to. -/
theorem exec_checkWrite (hΓ : Matches Γ s) {name : Bytes} {x : Variable} (hx : Γ.Finds name x)
    (hq : x.qualifier ∉ [.const, .varying, .uniform]) (pos pos' : Pos) (t : Ty) :
    exec (checkWrite pos ⟨name, some x.id, pos'⟩ t t) s = ((), s) := by
  rw [checkWrite, exec_bind, hΓ.exec_qualifier? hx]
  dsimp only
  split
  · rename_i heq; exact absurd (Option.some.inj heq) (by rintro h; simp [h] at hq)
  · rename_i heq; exact absurd (Option.some.inj heq) (by rintro h; simp [h] at hq)
  · rename_i heq; exact absurd (Option.some.inj heq) (by rintro h; simp [h] at hq)
  · rw [if_neg (by simp)]
    rfl

/-- What may be assigned to without a report is such a variable, of the type of the value. -/
theorem assignable_of_quiet (hΓ : Matches Γ s) {name : Bytes} {x : Variable} (hx : Γ.Finds name x)
    {pos pos' : Pos} {t u : Ty} (ht : Named t) (hu : Named u)
    (h : Quiet (checkWrite pos ⟨name, some x.id, pos'⟩ t u) s) :
    x.qualifier ∉ [.const, .varying, .uniform] ∧ t = u := by
  have hreport : ∀ c : Bytes → Complaint,
      ¬ Quiet (boundName ⟨name, some x.id, pos'⟩ >>= fun n => report pos (c n)) s := fun c hc =>
    not_quiet_report (f := pure) hΓ.stopped (grows.pure _) (hc.after (s := s) rfl)
  have h' := h.after (hΓ.exec_qualifier? hx pos')
  dsimp only at h'
  split at h'
  · exact absurd h' (hreport _)
  · exact absurd h' (hreport _)
  · exact absurd h' (hreport _)
  · rename_i hc hv hun
    refine ⟨?_, ?_⟩
    · simp only [List.mem_cons, List.not_mem_nil, or_false, not_or]
      exact ⟨fun h => hc (by rw [h]), fun h => hv (by rw [h]), fun h => hun (by rw [h])⟩
    · split at h'
      · exact absurd h' (not_quiet_report (f := pure) hΓ.stopped (grows.pure _))
      · rename_i hne
        rw [ht.isValid, hu.isValid] at hne
        simpa using hne

theorem exec_checkTarget (hΓ : Matches Γ s) {v : Ast.Var} {v' : Expr} {x : Variable} {t : Ty}
    (h : Access Γ v v' x t) (hq : x.qualifier ∉ [.const, .varying, .uniform]) (pos : Pos) :
    exec (checkTarget pos (Expr.ofVar v) t) s = (v', s) := by
  cases h with
  | whole hx =>
    rw [Expr.ofVar, checkTarget, exec_whileRunning, if_pos hΓ.running, exec_bind,
      hΓ.exec_resolve hx]
    dsimp only
    rw [exec_bind, exec_checkWrite hΓ hx hq]
    rfl
  | component hx hv hi =>
    rw [Expr.ofVar, checkTarget, exec_whileRunning, if_pos hΓ.running, exec_bind,
      hΓ.exec_resolve hx]
    dsimp only
    rw [exec_bind, hΓ.exec_component hx hv hi]
    dsimp only
    rw [exec_bind, exec_checkWrite hΓ hx hq]
    rfl

/-- A target that passes is typed by the rules for access. -/
theorem target_of_quiet (hΓ : Matches Γ s) {v : Ast.Var} {pos : Pos} {t : Ty} (ht : Named t)
    (h : Quiet (checkTarget pos (Expr.ofVar v) t) s) :
    ∃ v' x, Access Γ v v' x t ∧ x.qualifier ∉ [.const, .varying, .uniform] := by
  obtain ⟨pos', name, index⟩ := v
  cases index with
  | none =>
    rw [Expr.ofVar, checkTarget, Quiet, exec_whileRunning, if_pos hΓ.running] at h
    obtain ⟨x, hx⟩ := finds_of_quiet hΓ
      (fun _ => grows.bind (grows.checkWrite _ _ _ _) fun _ => grows.pure _) h
    have ha : Access Γ ⟨pos', name, none⟩ _ x x.type := .whole hx
    have h' := Quiet.after h (hΓ.exec_resolve hx pos')
    obtain ⟨hq, rfl⟩ := assignable_of_quiet hΓ hx (ha.named hΓ.named) ht
      (h'.bind (grows.checkWrite _ _ _ _) (grows.pure _)).1
    exact ⟨_, x, ha, hq⟩
  | some i =>
    rw [Expr.ofVar, checkTarget, Quiet, exec_whileRunning, if_pos hΓ.running] at h
    obtain ⟨x, hx⟩ := finds_of_quiet hΓ (fun _ => grows.bind (grows.component _ _ _) fun _ =>
      grows.bind (grows.checkWrite _ _ _ _) fun _ => grows.pure _) h
    have h' := Quiet.after h (hΓ.exec_resolve hx pos')
    obtain ⟨hv, hi⟩ := index_of_quiet hΓ hx (h'.bind (grows.component _ _ _)
      (grows.bind (grows.checkWrite _ _ _ _) fun _ => grows.pure _)).1
    have ha : Access Γ ⟨pos', name, some i⟩ _ x _ := .component hx hv hi
    have h'' := h'.after (hΓ.exec_component hx hv hi pos' _)
    obtain ⟨hq, rfl⟩ := assignable_of_quiet hΓ hx (ha.named hΓ.named) ht
      (h''.bind (grows.checkWrite _ _ _ _) (grows.pure _)).1
    exact ⟨_, x, ha, hq⟩

mutual

/-- The entries of a typed statement's declarations keep their names, types and qualifiers. -/
theorem signatures_of_stmtTyped :
    ∀ {Γ : Context} {next : DeclId} {st : Ast.Stmt} {st' : Stmt} {ds : List Declaration},
      StmtTyped Γ next st st' ds →
      ds.map signature = ((astDecls st).map declOfAst).map signature
  | _, _, _, _, _, .assign _ _ _ => by rw [astDecls]; rfl
  | _, _, _, _, _, .ifThen _ hs => by rw [astDecls, signatures_of_stmtTyped hs]
  | _, _, _, _, _, .ifElse _ hs ho => by
    rw [astDecls, List.map_append, List.map_append, List.map_append, signatures_of_stmtTyped hs,
      signatures_of_stmtTyped ho]
  | _, _, _, _, _, .loop _ hs => by rw [astDecls, signatures_of_stmtTyped hs]
  | _, _, _, _, _, .scope hds hss => by
    rw [astDecls, List.map_append, List.map_append, List.map_append,
      signatures_of_declsTyped hds, signatures_of_stmtsTyped hss]

/-- Typed statements have the declarations of their text, but for initializers. -/
theorem signatures_of_stmtsTyped :
    ∀ {Γ : Context} {next : DeclId} {ss : List Ast.Stmt} {ss' : List Stmt}
      {ds : List Declaration}, StmtsTyped Γ next ss ss' ds →
      ds.map signature = ((astDeclsList ss).map declOfAst).map signature
  | _, _, _, _, _, .nil => by rw [astDeclsList]; rfl
  | _, _, _, _, _, .cons hs hss => by
    rw [astDeclsList, List.map_append, List.map_append, List.map_append,
      signatures_of_stmtTyped hs, signatures_of_stmtsTyped hss]

end

theorem push_place (decls : List Declaration) : (s.place Γ decls).push = s.place ([] :: Γ) decls :=
  rfl

theorem pop_place {b : Block} (decls : List Declaration) :
    (s.place (b :: Γ) decls).pop = s.place Γ decls := rfl

/-- The blocks of a scope stand before those around it. -/
theorem cons_of_declsTyped {next : DeclId} {b : Block} {ds : List Ast.Decl}
    {ds' : List Declaration} (h : DeclsTyped next (b :: Γ) ds ds' Γ') : ∃ b', Γ' = b' :: Γ := by
  generalize hΔ : b :: Γ = Δ at h
  induction h generalizing b with
  | nil => exact ⟨b, hΔ.symm⟩
  | cons _ _ _ ih =>
    cases hΔ
    exact ih rfl

mutual

/-- **A typed statement is checked without a diagnostic**, and the check fills in what the
derivation says. -/
theorem exec_checkStmt (hs : s.stopped = none) :
    ∀ {Γ : Context} {next : DeclId} {st : Ast.Stmt} {st' : Stmt} {ds : List Declaration},
      StmtTyped Γ next st st' ds → ∀ before after : List Declaration, before.length = next →
      Lists (before ++ ((astDecls st).map declOfAst ++ after)) Γ → Γ.Named →
      exec (checkStmt (Stmt.ofAst next st))
          (s.place Γ (before ++ ((astDecls st).map declOfAst ++ after))) =
        (st', s.place Γ (before ++ (ds ++ after)))
  | _, _, _, _, _, .assign ha hq he, before, after, _, hl, hΓ => by
    have hm := matches_place (s := s) hs hl hΓ
    rw [Stmt.ofAst, checkStmt, exec_bind, exec_checkExpr hm he]
    dsimp only
    rw [exec_bind, exec_checkTarget hm ha hq, astDecls]
    rfl
  | _, _, _, _, _, .ifThen hc hst, before, after, hnext, hl, hΓ => by
    have hm := matches_place (s := s) hs hl hΓ
    rw [Stmt.ofAst, checkStmt, exec_bind, exec_checkCondition hm hc]
    dsimp only
    rw [astDecls] at hl ⊢
    rw [exec_bind, exec_checkStmt hs hst before after hnext hl hΓ]
    rfl
  | _, _, _, _, _, @StmtTyped.ifElse _ _ _ _ _ no _ _ ds _ hc hst hno, before, after, hnext, hl,
      hΓ => by
    have hm := matches_place (s := s) hs hl hΓ
    rw [Stmt.ofAst, checkStmt, exec_bind, exec_checkCondition hm hc]
    dsimp only
    rw [astDecls, List.map_append, List.append_assoc] at hl ⊢
    -- the second branch finds the entries of the first filled in, with the same signatures
    have hl' : Lists ((before ++ ds) ++ ((astDecls no).map declOfAst ++ after)) _ :=
      hl.congr (by simp only [List.map_append, signatures_of_stmtTyped hst, List.append_assoc])
    have hno' := exec_checkStmt hs hno (before ++ ds) after
      (by rw [List.length_append, hnext]) hl' hΓ
    rw [List.append_assoc, List.append_assoc] at hno'
    rw [exec_bind, exec_checkStmt hs hst before _ hnext hl hΓ]
    dsimp only
    rw [exec_bind, ← hst.length, hno', List.append_assoc]
    rfl
  | _, _, _, _, _, .loop hc hst, before, after, hnext, hl, hΓ => by
    have hm := matches_place (s := s) hs hl hΓ
    rw [Stmt.ofAst, checkStmt, exec_bind, exec_checkCondition hm hc]
    dsimp only
    rw [astDecls] at hl ⊢
    rw [exec_bind, exec_checkStmt hs hst before after hnext hl hΓ]
    rfl
  | _, _, _, _, _, @StmtTyped.scope _ _ _ _ ds _ _ _ hds hss, before, after, hnext, hl, hΓ => by
    rw [Stmt.ofAst, checkStmt, exec_bind, exec_modify, push_place]
    rw [astDecls, List.map_append, List.append_assoc] at hl ⊢
    obtain ⟨hrun, hl'⟩ := exec_checkDecls hs hds before _ hnext hl.push hΓ.push
    rw [exec_bind, hrun]
    dsimp only
    obtain ⟨b, rfl⟩ := cons_of_declsTyped hds
    rw [← List.append_assoc] at hl'
    have hrest := exec_checkStmts hs hss (before ++ ds) after
      (by rw [List.length_append, hnext]) hl' (hds.named hΓ.push)
    rw [List.append_assoc, List.append_assoc] at hrest
    rw [exec_bind, ← hds.length, hrest]
    dsimp only
    rw [exec_bind, exec_modify, pop_place, List.append_assoc]
    rfl

/-- **Typed statements are checked without a report.** -/
theorem exec_checkStmts (hs : s.stopped = none) :
    ∀ {Γ : Context} {next : DeclId} {ss : List Ast.Stmt} {ss' : List Stmt}
      {ds : List Declaration},
      StmtsTyped Γ next ss ss' ds → ∀ before after : List Declaration, before.length = next →
      Lists (before ++ ((astDeclsList ss).map declOfAst ++ after)) Γ → Γ.Named →
      exec (checkStmts (Stmt.ofAsts next ss))
          (s.place Γ (before ++ ((astDeclsList ss).map declOfAst ++ after))) =
        (ss', s.place Γ (before ++ (ds ++ after)))
  | _, _, _, _, _, .nil, before, after, _, _, _ => by
    rw [Stmt.ofAsts, checkStmts, astDeclsList]
    rfl
  | _, _, _, _, _, @StmtsTyped.cons _ _ _ _ ss _ ds _ hst hss, before, after, hnext, hl, hΓ => by
    rw [astDeclsList, List.map_append, List.append_assoc] at hl ⊢
    have hl' : Lists ((before ++ ds) ++ ((astDeclsList ss).map declOfAst ++ after)) _ :=
      hl.congr (by simp only [List.map_append, signatures_of_stmtTyped hst, List.append_assoc])
    have hrest := exec_checkStmts hs hss (before ++ ds) after
      (by rw [List.length_append, hnext]) hl' hΓ
    rw [List.append_assoc, List.append_assoc] at hrest
    rw [Stmt.ofAsts, checkStmts, exec_bind, exec_checkStmt hs hst before _ hnext hl hΓ]
    dsimp only
    rw [exec_bind, ← hst.length, hrest, List.append_assoc]
    rfl

end

mutual

/-- A statement that declares and constructs only types of the language. -/
def NamedStmt : Ast.Stmt → Prop
  | .assign _ e => NamedExpr e
  | .branch c yes none => NamedExpr c ∧ NamedStmt yes
  | .branch c yes (some no) => NamedExpr c ∧ NamedStmt yes ∧ NamedStmt no
  | .loop _ c body => NamedExpr c ∧ NamedStmt body
  | .scope decls stmts => (∀ d ∈ decls, NamedDecl d) ∧ NamedStmts stmts

/-- Statements that declare and construct only types of the language. -/
def NamedStmts : List Ast.Stmt → Prop
  | [] => True
  | s :: ss => NamedStmt s ∧ NamedStmts ss

end

mutual

/-- **A statement that is checked without a diagnostic is typed.** -/
theorem stmtTyped_of_quiet (hs : s.stopped = none) :
    ∀ (st : Ast.Stmt) (Γ : Context) (before after : List Declaration), NamedStmt st →
      Lists (before ++ ((astDecls st).map declOfAst ++ after)) Γ → Γ.Named →
      Quiet (checkStmt (Stmt.ofAst before.length st))
        (s.place Γ (before ++ ((astDecls st).map declOfAst ++ after))) →
      ∃ st' ds, StmtTyped Γ before.length st st' ds
  | .assign v e, Γ, before, after, hn, hl, hΓ, h => by
    have hm := matches_place (s := s) hs hl hΓ
    rw [NamedStmt] at hn
    rw [Stmt.ofAst, checkStmt] at h
    -- the value is checked before the target
    obtain ⟨e', t, he⟩ := typed_of_quiet hm e hn (h.bind (grows.checkExpr _)
      (grows.bind (grows.checkTarget _ _ _) fun _ => grows.pure _)).1
    have h' := h.after (exec_checkExpr hm he)
    obtain ⟨v', x, ha, hq⟩ := target_of_quiet hm (he.named hΓ)
      (h'.bind (grows.checkTarget _ _ _) (grows.pure _)).1
    exact ⟨_, _, .assign ha hq he⟩
  | .branch c yes none, Γ, before, after, hn, hl, hΓ, h => by
    have hm := matches_place (s := s) hs hl hΓ
    rw [NamedStmt] at hn
    rw [Stmt.ofAst, checkStmt] at h
    obtain ⟨c', hc⟩ := bool_of_quiet hm hn.1 (h.bind (grows.checkCondition _ _)
      (grows.bind (grows_checkStmt _) fun _ => grows.pure _)).1
    have h' := h.after (exec_checkCondition hm hc)
    rw [astDecls] at hl h'
    obtain ⟨yes', ds, hyes⟩ := stmtTyped_of_quiet hs yes Γ before after hn.2 hl hΓ
      (h'.bind (grows_checkStmt _) (grows.pure _)).1
    exact ⟨_, _, .ifThen hc hyes⟩
  | .branch c yes (some no), Γ, before, after, hn, hl, hΓ, h => by
    have hm := matches_place (s := s) hs hl hΓ
    rw [NamedStmt] at hn
    rw [Stmt.ofAst, checkStmt] at h
    obtain ⟨c', hc⟩ := bool_of_quiet hm hn.1 (h.bind (grows.checkCondition _ _)
      (grows.bind (grows_checkStmt _) fun _ =>
        grows.bind (grows_checkStmt _) fun _ => grows.pure _)).1
    have h' := h.after (exec_checkCondition hm hc)
    rw [astDecls, List.map_append, List.append_assoc] at hl h'
    obtain ⟨yes', ds, hyes⟩ := stmtTyped_of_quiet hs yes Γ before _ hn.2.1 hl hΓ
      (h'.bind (grows_checkStmt _) (grows.bind (grows_checkStmt _) fun _ => grows.pure _)).1
    -- a typed branch leaves a known state, so the rest is quiet from there
    have h'' := h'.onward (exec_checkStmt hs hyes before _ rfl hl hΓ) rfl
    have hl' : Lists ((before ++ ds) ++ ((astDecls no).map declOfAst ++ after)) Γ :=
      hl.congr (by simp only [List.map_append, signatures_of_stmtTyped hyes, List.append_assoc])
    rw [← hyes.length, ← List.length_append, ← List.append_assoc] at h''
    obtain ⟨no', es, hno⟩ := stmtTyped_of_quiet hs no Γ (before ++ ds) after hn.2.2 hl' hΓ
      (h''.bind (grows_checkStmt _) (grows.pure _)).1
    rw [List.length_append] at hno
    exact ⟨_, _, .ifElse hc hyes hno⟩
  | .loop pos c body, Γ, before, after, hn, hl, hΓ, h => by
    have hm := matches_place (s := s) hs hl hΓ
    rw [NamedStmt] at hn
    rw [Stmt.ofAst, checkStmt] at h
    obtain ⟨c', hc⟩ := bool_of_quiet hm hn.1 (h.bind (grows.checkCondition _ _)
      (grows.bind (grows_checkStmt _) fun _ => grows.pure _)).1
    have h' := h.after (exec_checkCondition hm hc)
    rw [astDecls] at hl h'
    obtain ⟨body', ds, hbody⟩ := stmtTyped_of_quiet hs body Γ before after hn.2 hl hΓ
      (h'.bind (grows_checkStmt _) (grows.pure _)).1
    exact ⟨_, _, .loop hc hbody⟩
  | .scope decls stmts, Γ, before, after, hn, hl, hΓ, h => by
    rw [NamedStmt] at hn
    rw [Stmt.ofAst, checkStmt] at h
    have h₁ := h.onward (exec_modify _ _) rfl
    rw [push_place] at h₁
    rw [astDecls, List.map_append, List.append_assoc] at hl h₁
    obtain ⟨ds, Γ', hds⟩ := declsTyped_of_quiet hs decls [] Γ before _ hn.1 hl.push hΓ.push
      (h₁.bind (grows.forM grows_checkDecl _) (grows.bind (grows_checkStmts _) fun _ =>
        grows.bind (grows_modify fun _ => List.prefix_rfl) fun _ => grows.pure _)).1
    -- and so do typed declarations
    obtain ⟨hrun, hl'⟩ := exec_checkDecls hs hds before _ rfl hl.push hΓ.push
    have h₂ := h₁.onward hrun rfl
    rw [← List.append_assoc] at hl'
    rw [← hds.length, ← List.length_append, ← List.append_assoc] at h₂
    obtain ⟨stmts', es, hss⟩ := stmtsTyped_of_quiet hs stmts Γ' (before ++ ds) after hn.2 hl'
      (hds.named hΓ.push) (h₂.bind (grows_checkStmts _)
        (grows.bind (grows_modify fun _ => List.prefix_rfl) fun _ => grows.pure _)).1
    rw [List.length_append] at hss
    exact ⟨_, _, .scope hds hss⟩

/-- **Statements that are checked without a report are typed.** -/
theorem stmtsTyped_of_quiet (hs : s.stopped = none) :
    ∀ (ss : List Ast.Stmt) (Γ : Context) (before after : List Declaration), NamedStmts ss →
      Lists (before ++ ((astDeclsList ss).map declOfAst ++ after)) Γ → Γ.Named →
      Quiet (checkStmts (Stmt.ofAsts before.length ss))
        (s.place Γ (before ++ ((astDeclsList ss).map declOfAst ++ after))) →
      ∃ ss' ds, StmtsTyped Γ before.length ss ss' ds
  | [], _, _, _, _, _, _, _ => ⟨_, _, .nil⟩
  | st :: ss, Γ, before, after, hn, hl, hΓ, h => by
    rw [NamedStmts] at hn
    rw [Stmt.ofAsts, checkStmts] at h
    rw [astDeclsList, List.map_append, List.append_assoc] at hl h
    obtain ⟨st', ds, hst⟩ := stmtTyped_of_quiet hs st Γ before _ hn.1 hl hΓ
      (h.bind (grows_checkStmt _) (grows.bind (grows_checkStmts _) fun _ => grows.pure _)).1
    have h' := h.onward (exec_checkStmt hs hst before _ rfl hl hΓ) rfl
    have hl' : Lists ((before ++ ds) ++ ((astDeclsList ss).map declOfAst ++ after)) Γ :=
      hl.congr (by simp only [List.map_append, signatures_of_stmtTyped hst, List.append_assoc])
    rw [← hst.length, ← List.length_append, ← List.append_assoc] at h'
    obtain ⟨ss', es, hss⟩ := stmtsTyped_of_quiet hs ss Γ (before ++ ds) after hn.2 hl' hΓ
      (h'.bind (grows_checkStmts _) (grows.pure _)).1
    rw [List.length_append] at hss
    exact ⟨_, _, .cons hst hss⟩

end

/-! ## Programs -/

/-- The predefined variables are brought into scope, one after another, as no two have the same
name. -/
theorem exec_declareAll (hs : s.stopped = none) :
    ∀ (ds : List Declaration) (b : Block) (before after : List Declaration),
      (∀ d ∈ ds, b.lookup d.name = none) → (ds.map (·.name)).Nodup →
      Lists (before ++ (ds ++ after)) (b :: Γ) →
      exec ((List.range' before.length ds.length).forM fun id => modify (·.declare id))
          (s.place (b :: Γ) (before ++ (ds ++ after))) =
        ((), s.place (b.declareAll before.length ds :: Γ) (before ++ (ds ++ after))) ∧
      Lists (before ++ (ds ++ after)) (b.declareAll before.length ds :: Γ)
  | [], _, _, _, _, _, hl => ⟨rfl, hl⟩
  | d :: ds, b, before, after, hnew, hnodup, hl => by
    rw [List.map_cons, List.nodup_cons] at hnodup
    have hd : (before ++ (d :: ds ++ after))[before.length]? = some d := getElem?_table d
    have hnew' : ∀ e ∈ ds, (b.declare before.length d).lookup e.name = none := by
      intro e he
      have hne : (e.name == d.name) = false := by
        refine beq_eq_false_iff_ne.mpr fun heq => hnodup.1 ?_
        rw [← heq]
        exact List.mem_map_of_mem he
      rw [Block.declare, List.lookup_cons, hne]
      exact hnew e (by simp [he])
    -- the declaration moves from those that are to come to those that are done
    have hcut : before ++ (d :: ds ++ after) = (before ++ [d]) ++ (ds ++ after) := by simp
    have hlen : before.length + 1 = (before ++ [d]).length := by simp
    have hl' := hl.declare hd
    have hstep := declare_place (Γ := Γ) hs hd (hnew d (by simp))
    rw [hcut] at hl' hstep ⊢
    have hrest := exec_declareAll hs ds _ (before ++ [d]) after hnew' hnodup.2 hl'
    rw [← hlen] at hrest
    refine ⟨?_, hrest.2⟩
    show exec (modify (·.declare before.length) >>= fun _ => _) _ = _
    rw [exec_bind, exec_modify, hstep]
    exact hrest.1

/-- The state in which the check of a text's tree begins. -/
def initial (body : Ast.Scope) : State :=
  { decls := (astDecls body.toStmt).map declOfAst ++ predefinedDecls }

/-- The walk through a text's tree. -/
def walk (body : Ast.Scope) : CheckM (List Stmt) := do
  modify State.push
  (List.range' ((astDecls body.toStmt).map declOfAst).length predefinedDecls.length).forM
    fun id => modify (·.declare id)
  (List.range' 0 body.decls.length).forM checkDecl
  let stmts ← checkStmts (Stmt.ofAsts body.decls.length body.stmts)
  modify State.pop
  return stmts

/-- The check of a text's tree is its walk from the initial state. -/
theorem check_ofAst (body : Ast.Scope) :
    (Program.ofAst body).check =
      { checker := (exec (walk body) (initial body)).2.toChecker
        program :=
          { decls := (exec (walk body) (initial body)).2.decls
            predefined := some (List.range' ((astDecls body.toStmt).map declOfAst).length
              predefinedDecls.length)
            body := some ⟨List.range' 0 body.decls.length, (exec (walk body) (initial body)).1⟩ }
        stopped := (exec (walk body) (initial body)).2.stopped } := by
  unfold Program.check check
  dsimp only [install, Program.ofAst, Option.getD_some]
  rw [exec, walk, initial]
  generalize StateT.run _ _ = r
  rfl

theorem nodup_predefinedDecls : (predefinedDecls.map (·.name)).Nodup := by
  decide +kernel

theorem astDecls_toStmt (body : Ast.Scope) :
    astDecls body.toStmt = body.decls ++ astDeclsList body.stmts := by
  rw [Ast.Scope.toStmt, astDecls]

/-- The walk with the predefined variables declared. -/
theorem exec_predefined (body : Ast.Scope) :
    exec (walk body) (initial body) =
        exec (do
          (List.range' 0 body.decls.length).forM checkDecl
          let stmts ← checkStmts (Stmt.ofAsts body.decls.length body.stmts)
          modify State.pop
          return stmts)
        ((initial body).place [predefinedBlock (astDecls body.toStmt).length]
          ((astDecls body.toStmt).map declOfAst ++ predefinedDecls)) ∧
      Lists ((astDecls body.toStmt).map declOfAst ++ predefinedDecls)
        [predefinedBlock (astDecls body.toStmt).length] := by
  have hl : Lists ((astDecls body.toStmt).map declOfAst ++ (predefinedDecls ++ [])) [[]] := by
    intro b hb p hp
    simp_all
  obtain ⟨hrun, hl'⟩ := exec_declareAll (s := initial body) rfl predefinedDecls []
    ((astDecls body.toStmt).map declOfAst) [] (fun _ _ => rfl) nodup_predefinedDecls hl
  rw [List.append_nil, List.length_map] at hrun hl'
  refine ⟨?_, hl'⟩
  rw [walk, exec_bind, exec_modify]
  dsimp only
  rw [show (initial body).push = (initial body).place [[]]
    ((astDecls body.toStmt).map declOfAst ++ predefinedDecls) from rfl, List.length_map, exec_bind,
    hrun]
  rfl

/-- **A well-typed tree is checked without a diagnostic**, and the check gives the program that the
derivation describes. -/
theorem check_of_elaborates {body : Ast.Scope} {p : Program} (h : Elaborates body p) :
    (Program.ofAst body).check = { checker := {}, program := p, stopped := none } := by
  obtain ⟨hpre, hl⟩ := exec_predefined body
  cases h with
  | @mk decls stmts Γ ds es stmts' hds hss =>
    have hn : (ds ++ es).length = (astDecls (Ast.Scope.toStmt ⟨decls, stmts⟩)).length := by
      rw [astDecls_toStmt, List.length_append, List.length_append, hds.length, hss.length]
    have htable : (astDecls (Ast.Scope.toStmt ⟨decls, stmts⟩)).map declOfAst ++ predefinedDecls =
        [] ++ (decls.map declOfAst ++ ((astDeclsList stmts).map declOfAst ++ predefinedDecls)) := by
      rw [astDecls_toStmt, List.map_append, List.append_assoc, List.nil_append]
    rw [htable, ← hn] at hl hpre
    obtain ⟨hdecls, hl'⟩ := exec_checkDecls (s := initial ⟨decls, stmts⟩) rfl hds [] _ rfl hl
      (named_predefinedBlock _)
    obtain ⟨b, rfl⟩ := cons_of_declsTyped hds
    have hstmts := exec_checkStmts (s := initial ⟨decls, stmts⟩) rfl hss ds predefinedDecls rfl hl'
      (hds.named (named_predefinedBlock _))
    have hrun : exec (walk ⟨decls, stmts⟩) (initial ⟨decls, stmts⟩) =
        (stmts', (initial ⟨decls, stmts⟩).place [] (ds ++ (es ++ predefinedDecls))) := by
      rw [hpre, exec_bind, hdecls]
      dsimp only
      rw [List.nil_append, exec_bind, ← hds.length, hstmts]
      rfl
    rw [check_ofAst, hrun, List.length_map, ← hn, ← hds.length, List.append_assoc]
    rfl

/-- **A tree that is checked without a diagnostic is well-typed.** -/
theorem wellTyped_of_errors_eq_nil {body : Ast.Scope} (hn : NamedStmt body.toStmt)
    (h : (Program.ofAst body).check.checker.errors = []) : WellTyped body := by
  -- the table is cut into the outer declarations, those of inner blocks, and the predefined ones
  obtain ⟨hpre, hl⟩ := exec_predefined body
  obtain ⟨decls, stmts⟩ := body
  rw [Ast.Scope.toStmt, NamedStmt] at hn
  have htable : (astDecls (Ast.Scope.toStmt ⟨decls, stmts⟩)).map declOfAst ++ predefinedDecls =
      [] ++ (decls.map declOfAst ++ ((astDeclsList stmts).map declOfAst ++ predefinedDecls)) := by
    rw [astDecls_toStmt, List.map_append, List.append_assoc, List.nil_append]
  rw [check_ofAst, hpre] at h
  dsimp only at h
  rw [htable] at hl h
  have h₀ : Quiet _ _ := h
  obtain ⟨ds, Γ, hds⟩ := declsTyped_of_quiet rfl decls _ [] [] _ hn.1 hl (named_predefinedBlock _)
    (h₀.bind (grows.forM grows_checkDecl _) (grows.bind (grows_checkStmts _) fun _ =>
      grows.bind (grows_modify fun _ => List.prefix_rfl) fun _ => grows.pure _)).1
  obtain ⟨hdecls, hl'⟩ := exec_checkDecls (s := initial ⟨decls, stmts⟩) rfl hds [] _ rfl hl
    (named_predefinedBlock _)
  have h₁ := h₀.onward hdecls rfl
  rw [List.nil_append, ← hds.length] at h₁
  obtain ⟨stmts', es, hss⟩ := stmtsTyped_of_quiet rfl stmts Γ ds predefinedDecls hn.2 hl'
    (hds.named (named_predefinedBlock _)) (h₁.bind (grows_checkStmts _)
      (grows.bind (grows_modify fun _ => List.prefix_rfl) fun _ => grows.pure _)).1
  have hlen : (astDecls (Ast.Scope.toStmt ⟨decls, stmts⟩)).length = (ds ++ es).length := by
    rw [astDecls_toStmt, List.length_append, List.length_append, hds.length, hss.length]
  rw [hlen] at hds
  exact ⟨_, .mk hds hss⟩

/-! ## The types of a text -/

open Grammar

mutual

/-- The types that an expression of a text names are those of its tokens. -/
theorem namedExpr_of_exprOf :
    ∀ {n : Nat} {ts : List Token} {e : Ast.Expr}, ExprOf n ts e → NamedExpr e
  | _, _, _, .binary _ hl hr => by
    rw [NamedExpr]
    exact ⟨namedExpr_of_exprOf hl, namedExpr_of_exprOf hr⟩
  | _, _, _, .tighter _ he => namedExpr_of_exprOf he
  | _, _, _, .unary _ he => by
    rw [NamedExpr]
    exact namedExpr_of_exprOf he
  | _, _, _, .power _ hb hx => by
    rw [NamedExpr]
    exact ⟨namedExpr_of_exprOf hb, namedExpr_of_exprOf hx⟩
  | _, _, _, .int ht => by
    rw [NamedExpr]
    exact ht.le_maxInteger
  | _, _, _, .float _ _ => by simp [NamedExpr]
  | _, _, _, .true _ => by simp [NamedExpr]
  | _, _, _, .false _ => by simp [NamedExpr]
  | _, _, _, .var _ => by simp [NamedExpr]
  | _, _, _, .call _ hargs => by
    rw [NamedExpr]
    exact namedExprs_of_argsOf hargs
  | _, _, _, .construct ht hargs => by
    rw [NamedExpr]
    exact ⟨named_of_type? ht, namedExprs_of_argsOf hargs⟩
  | _, _, _, .parens _ he _ => namedExpr_of_exprOf he

theorem namedExprs_of_argsOf :
    ∀ {ts : List Token} {es : List Ast.Expr}, ArgsOf ts es → NamedExprs es
  | _, _, .none _ _ => trivial
  | _, _, .some _ hlist _ => namedExprs_of_listOf hlist

theorem namedExprs_of_listOf :
    ∀ {ts : List Token} {es : List Ast.Expr}, ListOf ts es → NamedExprs es
  | _, _, .one he => ⟨namedExpr_of_exprOf he, trivial⟩
  | _, _, .more he _ hes => ⟨namedExpr_of_exprOf he, namedExprs_of_listOf hes⟩

end

/-- The grammar has no declarations but of types of the language. -/
theorem namedDecl_of_declOf {ts : List Token} {d : Ast.Decl} (h : DeclOf ts d) : NamedDecl d := by
  have hinit : ∀ {us : List Token} {init : Option Ast.Expr}, InitOf us init →
      ∀ e, init = some e → NamedExpr e := by
    intro us init hi e he
    cases hi with
    | none => cases he
    | some _ hexpr =>
      cases he
      exact namedExpr_of_exprOf hexpr
  cases h with
  | mutable ht _ hi _ => exact ⟨named_of_type? ht, hinit hi⟩
  | const _ ht _ hi _ => exact ⟨named_of_type? ht, hinit hi⟩

theorem namedDecls_of_declsOf {ts : List Token} {ds : List Ast.Decl} (h : DeclsOf ts ds) :
    ∀ d ∈ ds, NamedDecl d := by
  induction h with
  | nil => simp
  | cons hd _ ih =>
    intro d hmem
    rcases List.mem_cons.mp hmem with rfl | hmem
    · exact namedDecl_of_declOf hd
    · exact ih d hmem

theorem namedStmts_append {ss ss' : List Ast.Stmt} (h : NamedStmts ss) (h' : NamedStmts ss') :
    NamedStmts (ss ++ ss') := by
  induction ss with
  | nil => exact h'
  | cons st ss ih =>
    rw [NamedStmts] at h
    rw [List.cons_append, NamedStmts]
    exact ⟨h.1, ih h.2⟩

theorem namedExpr_of_condOf {ts : List Token} {e : Ast.Expr} (h : CondOf ts e) : NamedExpr e := by
  cases h with
  | mk _ he _ => exact namedExpr_of_exprOf he

theorem namedStmt_bodyOf {o : Option Ast.Stmt} (h : NamedStmts o.toList) :
    NamedStmt (bodyOf o) := by
  cases o with
  | none => simp [bodyOf, NamedStmt, NamedStmts]
  | some st => exact h.1

theorem namedStmt_branch {c : Ast.Expr} {yes : Ast.Stmt} {no : Option Ast.Stmt} (hc : NamedExpr c)
    (hyes : NamedStmt yes) (hno : NamedStmts no.toList) : NamedStmt (.branch c yes no) := by
  cases no with
  | none => exact ⟨hc, hyes⟩
  | some st => exact ⟨hc, hyes, hno.1⟩

mutual

/-- The types that a statement of a text names are those of its tokens. -/
theorem namedStmts_of_stmtOf {nearest : Bool} :
    ∀ {dangling : Bool} {ts : List Token} {o : Option Ast.Stmt},
      StmtOf nearest dangling ts o → NamedStmts o.toList
  | _, _, _, .assign _ _ he _ => by
    rw [Option.toList_some, NamedStmts, NamedStmt]
    exact ⟨namedExpr_of_exprOf he, trivial⟩
  | _, _, _, .ifThen _ hc hs => by
    rw [Option.toList_some, NamedStmts]
    exact ⟨namedStmt_branch (namedExpr_of_condOf hc) (namedStmt_bodyOf (namedStmts_of_stmtOf hs))
      trivial, trivial⟩
  | _, _, _, .ifElse _ hc hs _ _ ho => by
    rw [Option.toList_some, NamedStmts]
    exact ⟨namedStmt_branch (namedExpr_of_condOf hc) (namedStmt_bodyOf (namedStmts_of_stmtOf hs))
      (namedStmts_of_stmtOf ho), trivial⟩
  | _, _, _, .loop _ hc hs => by
    rw [Option.toList_some, NamedStmts, NamedStmt]
    exact ⟨⟨namedExpr_of_condOf hc, namedStmt_bodyOf (namedStmts_of_stmtOf hs)⟩, trivial⟩
  | _, _, _, .block hb => by
    rw [Option.toList_some, NamedStmts]
    exact ⟨namedStmt_of_blockOf hb, trivial⟩
  | _, _, _, .empty _ => trivial

theorem namedStmt_of_blockOf {nearest : Bool} :
    ∀ {ts : List Token} {b : Ast.Scope}, BlockOf nearest ts b → NamedStmt b.toStmt
  | _, _, .mk _ hds hss _ => by
    rw [Ast.Scope.toStmt, NamedStmt]
    exact ⟨namedDecls_of_declsOf hds, namedStmts_of_stmtsOf hss⟩

theorem namedStmts_of_stmtsOf {nearest : Bool} :
    ∀ {ts : List Token} {ss : List Ast.Stmt}, StmtsOf nearest ts ss → NamedStmts ss
  | _, _, .nil => trivial
  | _, _, .cons hs hss =>
    namedStmts_append (namedStmts_of_stmtOf hs) (namedStmts_of_stmtsOf hss)

end

end Shader.Checker

namespace Shader

open Checker TypeSystem

/-- The checked program of a text without errors is the one its derivation describes. -/
theorem elaborates_check {source : Bytes} (hparse : (parse source).errors = [])
    (hcheck : (Program.ofAst (parse source).body).check.checker.errors = []) :
    Elaborates (parse source).body (Program.ofAst (parse source).body).check.program := by
  obtain ⟨p, hp⟩ :=
    wellTyped_of_errors_eq_nil (namedStmt_of_blockOf (treeOf_parse hparse)) hcheck
  rw [check_of_elaborates hp]
  exact hp

/-- **The checker decides the type system.** For a text without parse errors there are no
diagnostics if and only if its tree is well-scoped and well-typed, and then the checked program is
the one its derivation describes: every name is bound to the declaration it means, and every
expression has the type of the rules. -/
theorem check_errors_eq_nil_iff_wellTyped (source : Bytes) (h : (parse source).errors = []) :
    ((Program.ofAst (parse source).body).check.checker.errors = [] ↔
        WellTyped (parse source).body) ∧
      ((Program.ofAst (parse source).body).check.checker.errors = [] →
        Elaborates (parse source).body (Program.ofAst (parse source).body).check.program) := by
  have hn : NamedStmt (parse source).body.toStmt := namedStmt_of_blockOf (treeOf_parse h)
  refine ⟨⟨wellTyped_of_errors_eq_nil hn, ?_⟩, elaborates_check h⟩
  rintro ⟨p, hp⟩
  rw [check_of_elaborates hp]

theorem check_errors_eq_nil_iff_wellTyped_shadow :
    (parse (ascii "{int x=1;{ivec2 x=ivec2(x,2);x[1]=x[0];}}")).errors = [] ∧
      WellTyped (parse (ascii "{int x=1;{ivec2 x=ivec2(x,2);x[1]=x[0];}}")).body := by
  have hparse : (parse (ascii "{int x=1;{ivec2 x=ivec2(x,2);x[1]=x[0];}}")).errors = [] :=
    List.isEmpty_iff.mp (by decide +kernel)
  have hcheck : (Program.ofAst (parse (ascii
      "{int x=1;{ivec2 x=ivec2(x,2);x[1]=x[0];}}")).body).check.checker.errors = [] :=
    List.isEmpty_iff.mp (by decide +kernel)
  exact ⟨hparse, (check_errors_eq_nil_iff_wellTyped _ hparse).1.mp hcheck⟩

end Shader
