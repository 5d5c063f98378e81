import Shader.Proofs.CheckerExact
import Shader.Proofs.TokenPlaces

/-!
# The order of diagnostics

The checker complains about a construct when it is done with the parts of it. So its diagnostics are
in postorder: what stands behind the token of an operator, a call, an assignment or a declaration is
blamed first, and then the construct itself, although it starts earlier in the text. Otherwise the
diagnostics are in the order of the text.

`Reports` says of a step of the checker that its diagnostics are about the places of a list, in the
order of the list. It is proved of every function of the checker, along its recursion.
-/

namespace Shader

/-! ## Postorder -/

namespace Outline

/-- The positions in the order in which parts are complete: each behind all that belongs to it. -/
def postorder : Outline → List Pos
  | empty => []
  | part before pos behind => before.postorder ++ behind.postorder ++ [pos]
  | both first second => first.postorder ++ second.postorder

/-- Postorder has the places of the text in another order. -/
theorem postorder_perm (o : Outline) : o.postorder.Perm o.places := by
  induction o with
  | empty => exact .refl _
  | part before pos behind hbefore hbehind =>
    rw [postorder, places, List.append_assoc]
    exact hbefore.append ((hbehind.append_right _).trans (List.perm_append_singleton _ _))
  | both first second hfirst hsecond => exact hfirst.append hsecond

theorem pair_sublist_append {p q : Pos} {ps qs : List Pos} (h : [p, q].Sublist (ps ++ qs)) :
    [p, q].Sublist ps ∨ p ∈ ps ∧ q ∈ qs ∨ [p, q].Sublist qs := by
  obtain ⟨l, l', hl, hps, hqs⟩ := List.sublist_append_iff.mp h
  match l, hl, hps with
  | [], hl, _ => exact .inr (.inr (by rw [hl]; exact hqs))
  | [_], hl, hps =>
    obtain ⟨rfl, rfl⟩ : p = _ ∧ [q] = l' := by simpa using hl
    exact .inr (.inl ⟨List.singleton_sublist.mp hps, List.singleton_sublist.mp hqs⟩)
  | _ :: _ :: l, hl, hps =>
    obtain ⟨rfl, rfl, rfl, rfl⟩ : p = _ ∧ q = _ ∧ l = [] ∧ l' = [] := by simpa using hl
    exact .inl hps

theorem pair_sublist {p q : Pos} {ps qs : List Pos} (hp : p ∈ ps) (hq : q ∈ qs) :
    [p, q].Sublist (ps ++ qs) :=
  (List.singleton_sublist.mpr hp).append (List.singleton_sublist.mpr hq)

/-- Two members of a list without repetition stand in one order only. -/
theorem not_sublist_swap {p q : Pos} {ps : List Pos} (hps : ps.Nodup)
    (h : [p, q].Sublist ps) : ¬ [q, p].Sublist ps := by
  induction ps with
  | nil => cases h
  | cons a ps ih =>
    obtain ⟨ha, hps⟩ := List.nodup_cons.mp hps
    intro h'
    have hmem : ∀ {x y : Pos}, [x, y].Sublist ps → y ∈ ps := fun hxy => hxy.subset (by simp)
    cases h with
    | cons _ h =>
      cases h' with
      | cons _ h' => exact ih hps h h'
      | cons_cons _ h' => exact ha (hmem h)
    | cons_cons _ h =>
      cases h' with
      | cons _ h' => exact ha (hmem h')
      | cons_cons _ h' => exact ha (List.singleton_sublist.mp h)

/-- What a part reaches is behind it in the text. -/
theorem Reaches.sublist_places {o : Outline} {p q : Pos} (h : o.Reaches p q) :
    [p, q].Sublist o.places := by
  induction o with
  | empty => exact h.elim
  | part before pos behind hbefore hbehind =>
    rcases h with ⟨rfl, hq⟩ | h | h
    · exact ((List.singleton_sublist.mpr hq).cons_cons _).trans (List.sublist_append_right _ _)
    · exact (hbefore h).trans (List.sublist_append_left _ _)
    · exact ((hbehind h).trans (List.sublist_cons_self _ _)).trans (List.sublist_append_right _ _)
  | both first second hfirst hsecond =>
    rcases h with h | h
    · exact (hfirst h).trans (List.sublist_append_left _ _)
    · exact (hsecond h).trans (List.sublist_append_right _ _)

/-- What a part reaches is complete before it. -/
theorem Reaches.sublist_postorder {o : Outline} {p q : Pos} (h : o.Reaches p q) :
    [q, p].Sublist o.postorder := by
  induction o with
  | empty => exact h.elim
  | part before pos behind hbefore hbehind =>
    rw [postorder]
    rcases h with ⟨rfl, hq⟩ | h | h
    · exact pair_sublist (List.mem_append_right _ (behind.postorder_perm.mem_iff.mpr hq))
        (List.mem_singleton_self _)
    · exact ((hbefore h).trans (List.sublist_append_left _ _)).trans (List.sublist_append_left _ _)
    · exact ((hbehind h).trans (List.sublist_append_right _ _)).trans (List.sublist_append_left _ _)
  | both first second hfirst hsecond =>
    rcases h with h | h
    · exact (hfirst h).trans (List.sublist_append_left _ _)
    · exact (hsecond h).trans (List.sublist_append_right _ _)

/-- What is complete first is first in the text too, unless the other reaches it. -/
theorem sublist_places_or_reaches {o : Outline} {p q : Pos} (h : [p, q].Sublist o.postorder) :
    [p, q].Sublist o.places ∨ o.Reaches q p := by
  have hmem : ∀ {o : Outline} {r : Pos}, r ∈ o.postorder → r ∈ o.places := fun {o} {_} hr =>
    o.postorder_perm.mem_iff.mp hr
  induction o with
  | empty => cases h
  | part before pos behind hbefore hbehind =>
    rw [places]
    rcases pair_sublist_append h with h | ⟨hp, hq⟩ | h
    -- both are below the node, or the node is the second and stands before what is behind it
    · rcases pair_sublist_append h with h | ⟨hp, hq⟩ | h
      · exact (hbefore h).imp (fun h => h.trans (List.sublist_append_left _ _))
          fun h => .inr (.inl h)
      · exact .inl (pair_sublist (hmem hp) (List.mem_cons_of_mem _ (hmem hq)))
      · refine (hbehind h).imp (fun h => ?_) fun h => .inr (.inr h)
        exact (h.trans (List.sublist_cons_self _ _)).trans (List.sublist_append_right _ _)
    · obtain rfl := List.mem_singleton.mp hq
      rcases List.mem_append.mp hp with hp | hp
      · exact .inl (pair_sublist (hmem hp) List.mem_cons_self)
      · exact .inr (.inl ⟨rfl, hmem hp⟩)
    · exact absurd h.length_le (by simp)
  | both first second hfirst hsecond =>
    rw [places]
    rcases pair_sublist_append h with h | ⟨hp, hq⟩ | h
    · exact (hfirst h).imp (fun h => h.trans (List.sublist_append_left _ _)) .inl
    · exact .inl (pair_sublist (hmem hp) (hmem hq))
    · exact (hsecond h).imp (fun h => h.trans (List.sublist_append_right _ _)) .inr

end Outline

/-! ## Diagnostics that follow places -/

/-- Diagnostics about some of the places of a list, in the order of the list, any number about
each. -/
inductive Follows : List Pos → List Diagnostic → Prop
  | done : Follows [] []
  | pass {p : Pos} {ps : List Pos} {ds : List Diagnostic} : Follows ps ds → Follows (p :: ps) ds
  | blame {d : Diagnostic} {p : Pos} {ps : List Pos} {ds : List Diagnostic} :
      d.pos = p → Follows (p :: ps) ds → Follows (p :: ps) (d :: ds)

namespace Follows

variable {p : Pos} {ps qs : List Pos} {ds es : List Diagnostic}

theorem nil : ∀ ps : List Pos, Follows ps []
  | [] => .done
  | _ :: ps => .pass (nil ps)

/-- Diagnostics about one list and then about another are about the two in a row. -/
theorem append (h : Follows ps ds) (h' : Follows qs es) : Follows (ps ++ qs) (ds ++ es) := by
  induction h with
  | done => exact h'
  | pass _ ih => exact .pass ih
  | blame hd _ ih => exact .blame hd ih

/-- More about the last place. -/
theorem again (h : Follows (ps ++ [p]) ds) (h' : Follows [p] es) :
    Follows (ps ++ [p]) (ds ++ es) := by
  generalize hqs : ps ++ [p] = qs at h
  induction h generalizing ps with
  | done => simp at hqs
  | @pass q qs ds h ih =>
    cases ps with
    | nil =>
      obtain ⟨rfl, rfl⟩ : p = q ∧ [] = qs := by simpa using hqs
      cases h
      exact h'
    | cons r ps =>
      obtain ⟨rfl, rfl⟩ : r = q ∧ ps ++ [p] = qs := by simpa using hqs
      exact .pass (ih rfl)
  | blame hd _ ih => exact .blame hd (ih hqs)

/-- A diagnostic is about one of the places. -/
theorem mem (h : Follows ps ds) {d : Diagnostic} (hd : d ∈ ds) : d.pos ∈ ps := by
  induction h with
  | done => cases hd
  | pass _ ih => exact List.mem_cons_of_mem _ (ih hd)
  | blame hp _ ih =>
    rcases List.mem_cons.mp hd with rfl | hd
    · exact hp ▸ List.mem_cons_self
    · exact ih hd

/-- Of two diagnostics the places are in the order of the list. -/
theorem pairwise (h : Follows ps ds) :
    ds.Pairwise fun d d' => d.pos = d'.pos ∨ [d.pos, d'.pos].Sublist ps := by
  induction h with
  | done => exact .nil
  | pass _ ih => exact ih.imp fun h => h.imp_right fun h => h.trans (List.sublist_cons_self _ _)
  | @blame d p ps ds hd h ih =>
    refine List.pairwise_cons.mpr ⟨fun d' hd' => ?_, ih⟩
    rcases List.mem_cons.mp (h.mem hd') with heq | hmem
    · exact .inl (hd.trans heq.symm)
    · rw [hd]
      exact .inr ((List.singleton_sublist.mpr hmem).cons_cons _)

end Follows

/-! ## Programs in postorder -/

namespace Program

mutual

/-- The positions of an expression, its own last. -/
def Expr.postorder : Expr → List Pos
  | .unary pos _ x _ => x.postorder ++ [pos]
  | .binary pos _ l r _ => l.postorder ++ r.postorder ++ [pos]
  | .call pos _ args _ => Expr.postorders args ++ [pos]
  | .construct pos _ args => Expr.postorders args ++ [pos]
  | e => [e.pos]

/-- The positions of expressions in a row. -/
def Expr.postorders : List Expr → List Pos
  | [] => []
  | e :: es => e.postorder ++ Expr.postorders es

end

/-- The position of an expression comes last. -/
theorem Expr.exists_postorder_eq (e : Expr) : ∃ ps, e.postorder = ps ++ [e.pos] := by
  cases e <;> simp [Expr.postorder, Expr.pos, -List.append_assoc]

mutual

/-- The positions of a tree are those of its text. -/
theorem Expr.postorder_ofAst :
    ∀ e : Ast.Expr, (Expr.ofAst e).postorder = e.outline.postorder
  | .int _ _ => rfl
  | .float _ _ => rfl
  | .bool _ _ => rfl
  | .var v => by
    rw [Expr.ofAst, Expr.ofVar]
    split <;> rfl
  | .unary _ _ x => by
    rw [Expr.ofAst, Expr.postorder, Expr.postorder_ofAst x]
    rfl
  | .binary _ _ l r => by
    rw [Expr.ofAst, Expr.postorder, Expr.postorder_ofAst l, Expr.postorder_ofAst r]
    rfl
  | .call _ _ args => by
    rw [Expr.ofAst, Expr.postorder, Expr.postorders_ofAsts args]
    rfl
  | .construct _ _ args => by
    rw [Expr.ofAst, Expr.postorder, Expr.postorders_ofAsts args]
    rfl

theorem Expr.postorders_ofAsts :
    ∀ es : List Ast.Expr, Expr.postorders (Expr.ofAsts es) = (Ast.Expr.outlines es).postorder
  | [] => rfl
  | e :: es => by
    rw [Expr.ofAsts, Expr.postorders, Expr.postorder_ofAst e, Expr.postorders_ofAsts es]
    rfl

end

end Program

/-- The positions of a declaration, its own behind those of its initializer. -/
def Declaration.postorder (d : Declaration) : List Pos :=
  d.init.elim [] Program.Expr.postorder ++ [d.pos]

theorem Declaration.postorder_ofAst (d : Ast.Decl) :
    (Program.declOfAst d).postorder = d.outline.postorder := by
  obtain ⟨pos, isConst, type, name, _ | init⟩ := d
  · rfl
  · exact congrArg (· ++ [pos]) (Program.Expr.postorder_ofAst init)

/-! ## What a check reports -/

namespace Checker

open Program (Expr Stmt declOfAst astDecls astDeclsList)

/-- From one state of a check to another, with diagnostics that follow `ps`. The declarations of the
table keep their places. -/
structure Adds (ps : List Pos) (s s' : State) : Prop where
  errors : ∃ ds, s'.errors = s.errors ++ ds ∧ Follows ps ds
  table : s'.decls.map Declaration.postorder = s.decls.map Declaration.postorder

namespace Adds

variable {p : Pos} {ps qs : List Pos} {s s' s'' : State}

theorem refl (ps : List Pos) (s : State) : Adds ps s s :=
  ⟨⟨[], (List.append_nil _).symm, .nil ps⟩, rfl⟩

/-- Steps in sequence report on their places in sequence. -/
theorem trans (h : Adds ps s s') (h' : Adds qs s' s'') : Adds (ps ++ qs) s s'' := by
  obtain ⟨⟨ds, hds, hf⟩, ht⟩ := h
  obtain ⟨⟨es, hes, hf'⟩, ht'⟩ := h'
  exact ⟨⟨ds ++ es, by rw [hes, hds, List.append_assoc], hf.append hf'⟩, ht'.trans ht⟩

theorem again (h : Adds (ps ++ [p]) s s') (h' : Adds [p] s' s'') : Adds (ps ++ [p]) s s'' := by
  obtain ⟨⟨ds, hds, hf⟩, ht⟩ := h
  obtain ⟨⟨es, hes, hf'⟩, ht'⟩ := h'
  exact ⟨⟨ds ++ es, by rw [hes, hds, List.append_assoc], hf.again hf'⟩, ht'.trans ht⟩

theorem report (s : State) (pos : Pos) (c : Complaint) : Adds [pos] s (s.report pos c) := by
  unfold State.report
  split
  · exact ⟨⟨[⟨pos, c⟩], rfl, .blame rfl (.nil _)⟩, rfl⟩
  · exact .refl _ s

end Adds

/-- A step that reports on `ps`, while the declarations of the table have the places `table`. -/
def Reports {α : Type} (table : List (List Pos)) (ps : List Pos) (m : CheckM α) : Prop :=
  ∀ s, s.decls.map Declaration.postorder = table → Adds ps s (exec m s).2

namespace Reports

variable {α β : Type} {table : List (List Pos)} {p : Pos} {ps qs : List Pos} {m : CheckM α}
  {f : α → CheckM β}

theorem pure (a : α) : Reports table ps (pure a : CheckM α) := fun s _ => .refl ps s

theorem get_bind {f : State → CheckM β}
    (hf : ∀ s, s.decls.map Declaration.postorder = table → Adds ps s (exec (f s) s).2) :
    Reports table ps (get >>= f) := hf

theorem bind (hm : Reports table ps m) (hf : ∀ s, Reports table qs (f (exec m s).1)) :
    Reports table (ps ++ qs) (m >>= f) := by
  intro s hs
  have h := hm s hs
  exact h.trans (hf s _ (h.table.trans hs))

/-- A step behind another that reports on the last place again. -/
theorem bind_again (hm : Reports table (ps ++ [p]) m)
    (hf : ∀ s, Reports table [p] (f (exec m s).1)) : Reports table (ps ++ [p]) (m >>= f) := by
  intro s hs
  have h := hm s hs
  exact h.again (hf s _ (h.table.trans hs))

theorem bind_same (hm : Reports table [p] m) (hf : ∀ s, Reports table [p] (f (exec m s).1)) :
    Reports table [p] (m >>= f) := by
  rw [← List.nil_append [p]] at hm ⊢
  exact hm.bind_again hf

theorem bind_silent (hm : Reports table ps m) (hf : ∀ s, Reports table [] (f (exec m s).1)) :
    Reports table ps (m >>= f) := by
  simpa using hm.bind hf

theorem silent_bind (hm : Reports table [] m) (hf : ∀ s, Reports table ps (f (exec m s).1)) :
    Reports table ps (m >>= f) := hm.bind hf

theorem ite {c : Prop} [Decidable c] {m' : CheckM α} (h : Reports table ps m)
    (h' : Reports table ps m') : Reports table ps (if c then m else m') := by
  split
  · exact h
  · exact h'

theorem report (pos : Pos) (c : Complaint) : Reports table [pos] (report pos c) :=
  fun s _ => .report s pos c

theorem whileRunning {a : α} (h : Reports table ps m) : Reports table ps (whileRunning a m) := by
  intro s hs
  rw [exec_whileRunning]
  split
  · exact h s hs
  · exact .refl ps s

theorem report_pure (pos : Pos) (c : Complaint) (a : α) :
    Reports table [pos] (do Checker.report pos c; return a) :=
  (report pos c).bind_silent fun _ => .pure a

end Reports

section Steps

variable {α : Type} {table : List (List Pos)}

/-- To bind a name does not move it. -/
theorem pos_resolve (ref : Ref) (s : State) : (exec (resolve ref) s).1.1.pos = ref.pos := by
  rw [resolve, exec_bind]
  dsimp only [exec_get]
  split <;> rfl

theorem reports_resolve (ref : Ref) : Reports table [ref.pos] (resolve ref) :=
  .get_bind fun s hs => by
    dsimp only
    split
    · exact .refl _ s
    · exact Reports.report_pure _ _ _ s hs

/-- All that follows from a name is reported at the name. -/
theorem reports_resolve_bind {ref : Ref} {f : Ref × Ty → CheckM α}
    (hf : ∀ r : Ref × Ty, r.1.pos = ref.pos → Reports table [ref.pos] (f r)) :
    Reports table [ref.pos] (resolve ref >>= f) :=
  (reports_resolve ref).bind_same fun s => hf _ (pos_resolve ref s)

theorem reports_qualifier? (ref : Ref) : Reports table [] (qualifier? ref) :=
  .get_bind fun s _ => .refl _ s

theorem reports_readable (ref : Ref) : Reports table [ref.pos] (readable ref) :=
  (reports_qualifier? ref).silent_bind fun _ => .ite (.report_pure _ _ _) (.pure _)

theorem reports_component (ref : Ref) (i : Int) (old : Ty) :
    Reports table [ref.pos] (component ref i old) :=
  .get_bind fun s hs =>
    Reports.ite (.pure _)
      (.ite (.report_pure _ _ _) (.ite (.report_pure _ _ _) (.pure _))) s hs

theorem reports_unaryType (pos : Pos) (op : UnaryOp) (t : Ty) :
    Reports table [pos] (unaryType pos op t) := by
  refine .ite (.pure _) ?_
  split
  · exact .pure _
  · exact .report_pure _ _ _

theorem reports_binaryType (pos : Pos) (op : BinaryOp) (l r : Ty) :
    Reports table [pos] (binaryType pos op l r) := by
  refine .ite (.pure _) ?_
  split
  · exact .pure _
  · exact .report_pure _ _ _

theorem reports_callType (pos : Pos) (func : Bytes) (args : List Ty) :
    Reports table [pos] (callType pos func args) := by
  unfold callType
  split
  · exact .report_pure _ _ _
  · refine .ite (.pure _) ?_
    split
    · exact .pure _
    · exact .report_pure _ _ _

theorem reports_componentFits (type : Ty) (pos : Pos) (given : Ty) :
    Reports table [pos] (componentFits type pos given) :=
  .ite (.pure _) (.ite (.report_pure _ _ _) (.pure _))

/-- A node gets its type and is put together again. -/
theorem reports_settle {pos : Pos} {m : CheckM Ty} (hm : Reports table [pos] m) (old : Ty)
    (f : Ty → α) :
    Reports table [pos] (do let type ← settle old (← m); return f type) :=
  hm.bind_silent fun _ => Reports.get_bind fun s _ => .refl _ s

end Steps

section Expr

mutual

/-- The checker keeps the places of an expression. -/
theorem postorder_checkExpr : ∀ (e : Expr) (s : State),
    (exec (checkExpr e) s).1.1.postorder = e.postorder
  | .absent, s => by rw [checkExpr]; rfl
  | .int _ _, s => by rw [checkExpr]; rfl
  | .float _ _, s => by rw [checkExpr]; rfl
  | .bool _ _, s => by rw [checkExpr]; rfl
  | .var ref, s => by
    -- to bind a name keeps its position, and the list has nothing else of it
    have hvar : ∀ r : Ref, r.pos = ref.pos → (Expr.var r).postorder = (Expr.var ref).postorder :=
      fun r hr => congrArg (fun p => [p]) hr
    rw [checkExpr, exec_whileRunning]
    split
    · rw [exec_bind]
      have hpos := pos_resolve ref s
      generalize exec (resolve ref) s = r at hpos
      dsimp only
      split
      · exact hvar _ hpos
      · rw [exec_bind]
        split <;> exact hvar _ hpos
    · rfl
  | .index ref i old, s => by
    have hindex : ∀ (r : Ref) (t : Ty), r.pos = ref.pos →
        (Expr.index r i t).postorder = (Expr.index ref i old).postorder :=
      fun r _ hr => congrArg (fun p => [p]) hr
    rw [checkExpr, exec_whileRunning]
    split
    · rw [exec_bind]
      have hpos := pos_resolve ref s
      generalize exec (resolve ref) s = r at hpos
      dsimp only
      split
      · exact hindex _ _ hpos
      · rw [exec_bind]
        split <;> exact hindex _ _ hpos
    · rfl
  | .unary pos op x old, s => by
    rw [checkExpr]
    exact congrArg (· ++ [pos]) (postorder_checkExpr x s)
  | .binary pos op l r old, s => by
    rw [checkExpr]
    exact congrArg₂ (· ++ · ++ [pos]) (postorder_checkExpr l s) (postorder_checkExpr r _)
  | .call pos func args old, s => by
    rw [checkExpr]
    exact congrArg (· ++ [pos]) (postorders_checkArgs args s)
  | .construct pos type args, s => by
    rw [checkExpr, exec_bind]
    dsimp only
    split <;> exact congrArg (· ++ [pos]) (postorders_checkComponents type args s)

theorem postorders_checkArgs : ∀ (es : List Expr) (s : State),
    Expr.postorders (exec (checkArgs es) s).1.1 = Expr.postorders es
  | [], s => by rw [checkArgs]; rfl
  | e :: es, s => by
    rw [checkArgs]
    exact congrArg₂ (· ++ ·) (postorder_checkExpr e s) (postorders_checkArgs es _)

theorem postorders_checkComponents (type : Ty) : ∀ (es : List Expr) (s : State),
    Expr.postorders (exec (checkComponents type es) s).1.1 = Expr.postorders es
  | [], s => by rw [checkComponents]; rfl
  | e :: es, s => by
    rw [checkComponents]
    exact congrArg₂ (· ++ ·) (postorder_checkExpr e s) (postorders_checkComponents type es _)

end

variable {table : List (List Pos)}

theorem pos_checkExpr (e : Expr) (s : State) : (exec (checkExpr e) s).1.1.pos = e.pos := by
  obtain ⟨ps, hps⟩ := Expr.exists_postorder_eq (exec (checkExpr e) s).1.1
  obtain ⟨qs, hqs⟩ := e.exists_postorder_eq
  rw [postorder_checkExpr, hqs] at hps
  exact (List.singleton_inj.mp (List.append_inj' hps rfl).2).symm

/-- A step behind an expression that reports on the expression itself. -/
theorem Reports.checkExpr_bind {α : Type} {e : Expr} {f : Expr × Ty → CheckM α}
    (he : Reports table e.postorder (checkExpr e))
    (hf : ∀ r : Expr × Ty, r.1.pos = e.pos → Reports table [e.pos] (f r)) :
    Reports table e.postorder (checkExpr e >>= f) := by
  obtain ⟨ps, hps⟩ := e.exists_postorder_eq
  rw [hps] at he ⊢
  exact he.bind_again fun s => hf _ (pos_checkExpr e s)

mutual

/-- **The check of an expression reports in postorder**: on its parts first and then on itself. -/
theorem reports_checkExpr : ∀ e : Expr, Reports table e.postorder (checkExpr e)
  | .absent => by
    rw [checkExpr]
    intro s _
    show Adds _ s (s.stop .expression)
    unfold State.stop
    split
    · exact ⟨⟨[], (List.append_nil _).symm, .nil _⟩, rfl⟩
    · exact .refl _ s
  | .int _ _ => by rw [checkExpr]; exact .pure _
  | .float _ _ => by rw [checkExpr]; exact .pure _
  | .bool _ _ => by rw [checkExpr]; exact .pure _
  | .var ref => by
    rw [checkExpr]
    refine .whileRunning (reports_resolve_bind fun r hr => .ite (.pure _) ?_)
    rw [← hr]
    exact (reports_readable r.1).bind_silent fun _ => .ite (.pure _) (.pure _)
  | .index ref i old => by
    rw [checkExpr]
    refine .whileRunning (reports_resolve_bind fun r hr => .ite (.pure _) ?_)
    rw [← hr]
    exact (reports_readable r.1).bind_same fun _ =>
      .ite ((reports_component r.1 i old).bind_silent fun _ => .pure _) (.pure _)
  | .unary pos op x old => by
    rw [checkExpr]
    exact (reports_checkExpr x).bind fun _ => reports_settle (reports_unaryType _ _ _) _ _
  | .binary pos op l r old => by
    rw [checkExpr, Expr.postorder, List.append_assoc]
    exact (reports_checkExpr l).bind fun _ => (reports_checkExpr r).bind fun _ =>
      reports_settle (reports_binaryType _ _ _ _) _ _
  | .call pos func args old => by
    rw [checkExpr]
    exact (reports_checkArgs args).bind fun _ => reports_settle (reports_callType _ _ _) _ _
  | .construct pos type args => by
    rw [checkExpr]
    exact (reports_checkComponents type args).bind fun _ =>
      .ite (.report_pure _ _ _) (.pure _)

theorem reports_checkArgs : ∀ es : List Expr, Reports table (Expr.postorders es) (checkArgs es)
  | [] => by rw [checkArgs]; exact .pure _
  | e :: es => by
    rw [checkArgs]
    exact (reports_checkExpr e).bind fun _ => (reports_checkArgs es).bind_silent fun _ => .pure _

theorem reports_checkComponents (type : Ty) :
    ∀ es : List Expr, Reports table (Expr.postorders es) (checkComponents type es)
  | [] => by rw [checkComponents]; exact .pure _
  | e :: es => by
    rw [checkComponents]
    intro s hs
    -- the expression, then the complaint about it as a component, then the others
    have he : Adds e.postorder s (exec (checkExpr e) s).2 := reports_checkExpr e s hs
    generalize hr : exec (checkExpr e) s = r at he
    obtain ⟨ps, hps⟩ : ∃ ps, e.postorder = ps ++ [r.1.1.pos] := by
      rw [← hr, pos_checkExpr]
      exact e.exists_postorder_eq
    have hfits := reports_componentFits type r.1.1.pos r.1.2 r.2 (he.table.trans hs)
    rw [hps] at he
    have hboth := he.again hfits
    rw [← hps] at hboth
    have hrest := reports_checkComponents type es _ (hboth.table.trans hs)
    rw [exec_bind, hr]
    exact hboth.trans hrest

end

end Expr

section Stmt

variable {table : List (List Pos)}

/-- A checked initializer has its positions, so the table keeps its places. -/
theorem map_postorder_setInit (s : State) {id : DeclId} {d : Declaration} {init : Expr}
    (hid : s.decls[id]? = some d) (h : init.postorder ++ [d.pos] = d.postorder) :
    (s.setInit id init).decls.map Declaration.postorder = s.decls.map Declaration.postorder := by
  refine List.ext_getElem? fun i => ?_
  rw [State.setInit, List.getElem?_map, List.getElem?_map, List.getElem?_modify]
  split
  · rename_i heq
    subst heq
    rw [hid]
    exact congrArg some h
  · simp

/-- A name that is taken is reported at its new declaration. -/
theorem adds_declare (s : State) {id : DeclId} {d : Declaration} (hid : s.decls[id]? = some d) :
    Adds [d.pos] s (s.declare id) := by
  have hscopes : ∀ scopes, Adds [d.pos] s { s with scopes := scopes } := fun _ =>
    ⟨⟨[], (List.append_nil _).symm, .nil _⟩, rfl⟩
  unfold State.declare
  split
  · rename_i hid' _
    obtain rfl := Option.some.inj (hid.symm.trans hid')
    split
    · split <;> exact .report _ _ _
    · exact hscopes _
  · exact .refl _ s

theorem exists_decl {s : State} (hs : s.decls.map Declaration.postorder = table) {id : DeclId}
    {ps : List Pos} (hid : table[id]? = some ps) :
    ∃ d, s.decls[id]? = some d ∧ d.postorder = ps := by
  rw [← hs, List.getElem?_map] at hid
  exact Option.map_eq_some_iff.mp hid

/-- A declaration is blamed behind its initializer. -/
theorem reports_checkDecl {id : DeclId} {ps : List Pos} (hid : table[id]? = some ps) :
    Reports table ps (checkDecl id) := by
  refine .whileRunning (.get_bind fun s hs => ?_)
  obtain ⟨d, hd, rfl⟩ := exists_decl hs hid
  have hlast : ∀ {d' : Declaration}, d'.postorder = d.postorder → d'.pos = d.pos := fun h =>
    List.singleton_inj.mp (List.append_inj' h rfl).2
  -- what is said about the declaration itself, in whichever state
  have hself : ∀ {c : Prop} [Decidable c] (complaint : Complaint),
      Reports table [d.pos] (do
        if c then report d.pos complaint
        modify (·.declare id)) := by
    intro c _ complaint s hs
    have hdeclare : Reports table [d.pos] (modify (·.declare id)) := by
      intro s hs
      obtain ⟨d', hd', hsame⟩ := exists_decl hs hid
      exact hlast hsame ▸ adds_declare s hd'
    exact Reports.ite ((Reports.report _ _).bind_same fun _ => hdeclare) hdeclare s hs
  rw [hd]
  dsimp only
  split
  · rename_i hinit
    rw [Declaration.postorder, hinit]
    exact hself _ s hs
  · rename_i init hinit
    have hset : ∀ init' : Expr, init'.postorder = init.postorder →
        Reports table [] (modify (·.setInit id init')) := by
      intro init' h s hs
      obtain ⟨d', hd', hsame⟩ := exists_decl hs hid
      refine ⟨⟨[], (List.append_nil _).symm, .nil _⟩, map_postorder_setInit s hd' ?_⟩
      rw [h, hlast hsame, hsame, Declaration.postorder, hinit]
      rfl
    rw [Declaration.postorder, hinit]
    exact Reports.bind (reports_checkExpr init)
      (fun s => (hset _ (postorder_checkExpr init s)).silent_bind fun _ => hself _) s hs

theorem prefix_drop_append {next : DeclId} {ds es : List Ast.Decl}
    (h : (ds ++ es).map (·.outline.postorder) <+: table.drop next) :
    ds.map (·.outline.postorder) <+: table.drop next ∧
      es.map (·.outline.postorder) <+: table.drop (next + ds.length) := by
  rw [List.map_append] at h
  refine ⟨(List.prefix_append _ _).trans h, ?_⟩
  obtain ⟨rest, hrest⟩ := h
  refine ⟨rest, ?_⟩
  rw [← List.drop_drop, ← hrest, List.append_assoc]
  exact (List.drop_left' (List.length_map _)).symm

theorem reports_checkDecls : ∀ (next : DeclId) (ds : List Ast.Decl),
    ds.map (·.outline.postorder) <+: table.drop next →
      Reports table (Outline.row Ast.Decl.outline ds).postorder
        ((List.range' next ds.length).forM checkDecl)
  | _, [], _ => .pure _
  | next, d :: ds, h => by
    have hrow : ([d] ++ ds).map (·.outline.postorder) <+: table.drop next := h
    obtain ⟨⟨rest, hrest⟩, hds⟩ := prefix_drop_append hrow
    have hd : table[next]? = some d.outline.postorder := by
      rw [← List.head?_drop, ← hrest]
      rfl
    rw [List.length_cons, List.range'_succ]
    exact (reports_checkDecl hd).bind fun _ => reports_checkDecls (next + 1) ds hds

/-- A condition is blamed behind its parts. -/
theorem reports_checkCondition (statement : Conditional) (cond : Expr) :
    Reports table cond.postorder (checkCondition statement cond) := by
  refine (reports_checkExpr cond).checkExpr_bind fun r hr => ?_
  rw [← hr]
  exact .ite (.report_pure _ _ _) (.pure _)

theorem reports_boundName_bind {ref : Ref} {pos : Pos} {c : Bytes → Complaint} :
    Reports table [pos] (do report pos (c (← boundName ref))) :=
  .get_bind fun s hs => Reports.report _ _ s hs

/-- What is wrong with an assignment as a whole is reported at its position. -/
theorem reports_checkWrite (pos : Pos) (ref : Ref) (target value : Ty) :
    Reports table [pos] (checkWrite pos ref target value) := by
  refine (reports_qualifier? ref).silent_bind fun _ => ?_
  split
  · exact reports_boundName_bind
  · exact reports_boundName_bind
  · exact reports_boundName_bind
  · exact .ite (.report _ _) (.pure _)

/-- What is wrong with a target is said of its name. -/
theorem reports_checkTarget (target : Expr) (value : Ty) :
    Reports table [target.pos] (checkTarget target.pos target value) := by
  refine .whileRunning ?_
  split
  · rename_i ref
    show Reports table [ref.pos] _
    exact reports_resolve_bind fun _ _ => (reports_checkWrite _ _ _ _).bind_silent fun _ => .pure _
  · rename_i ref i old
    show Reports table [ref.pos] _
    refine reports_resolve_bind fun r hr => ?_
    have hcomponent : Reports table [r.1.pos] (component r.1 i old) := reports_component _ _ _
    rw [hr] at hcomponent
    exact hcomponent.bind_same fun _ => (reports_checkWrite _ _ _ _).bind_silent fun _ => .pure _
  · exact .report_pure _ _ _

theorem pos_ofVar (v : Ast.Var) : (Expr.ofVar v).pos = v.pos := by
  rw [Expr.ofVar]
  split <;> rfl

/-- The declarations of a block, then its statements. -/
theorem reports_block {α : Type} {next : DeclId} {decls : List Ast.Decl} {stmts : List Ast.Stmt}
    {m : CheckM α}
    (hdecls : decls.map (·.outline.postorder) <+: table.drop next)
    (hm : Reports table (Ast.Stmt.outlines stmts).postorder m) :
    Reports table (Ast.Stmt.scope decls stmts).outline.postorder (do
      (List.range' next decls.length).forM checkDecl
      let r ← m
      modify State.pop
      return r) :=
  (reports_checkDecls next decls hdecls).bind fun _ => hm.bind_silent fun _ =>
    .silent_bind (fun _ _ => ⟨⟨[], (List.append_nil _).symm, .nil _⟩, rfl⟩) fun _ => .pure _

mutual

/-- **Statements are blamed in postorder**: the declarations they stand for are in the table from
`next` on. -/
theorem reports_checkStmt : ∀ (next : DeclId) (st : Ast.Stmt),
    (astDecls st).map (·.outline.postorder) <+: table.drop next →
      Reports table st.outline.postorder (checkStmt (Stmt.ofAst next st))
  | next, .assign target value, _ => by
    rw [Stmt.ofAst, checkStmt, Ast.Stmt.outline, Outline.postorder, ← Expr.postorder_ofAst,
      ← pos_ofVar]
    exact (reports_checkExpr _).bind fun _ =>
      (reports_checkTarget _ _).bind_silent fun _ => .pure _
  | next, .branch cond yes none, h => by
    rw [astDecls] at h
    rw [Stmt.ofAst, checkStmt, Ast.Stmt.outline, Outline.postorder, ← Expr.postorder_ofAst]
    exact (reports_checkCondition _ _).bind fun _ =>
      (reports_checkStmt next yes h).bind_silent fun _ => .pure _
  | next, .branch cond yes (some no), h => by
    rw [astDecls] at h
    obtain ⟨hyes, hno⟩ := prefix_drop_append h
    rw [Stmt.ofAst, checkStmt, Ast.Stmt.outline, Outline.postorder, Outline.postorder,
      ← Expr.postorder_ofAst]
    exact (reports_checkCondition _ _).bind fun _ => (reports_checkStmt next yes hyes).bind fun _ =>
      (reports_checkStmt _ no hno).bind_silent fun _ => .pure _
  | next, .loop pos cond body, h => by
    rw [astDecls] at h
    rw [Stmt.ofAst, checkStmt, Ast.Stmt.outline, Outline.postorder, ← Expr.postorder_ofAst]
    exact (reports_checkCondition _ _).bind fun _ =>
      (reports_checkStmt next body h).bind_silent fun _ => .pure _
  | next, .scope decls stmts, h => by
    rw [astDecls] at h
    obtain ⟨hdecls, hstmts⟩ := prefix_drop_append h
    rw [Stmt.ofAst, checkStmt]
    refine .silent_bind (fun _ _ => ⟨⟨[], (List.append_nil _).symm, .nil _⟩, rfl⟩) fun _ => ?_
    exact reports_block hdecls (reports_checkStmts _ stmts hstmts)

theorem reports_checkStmts : ∀ (next : DeclId) (ss : List Ast.Stmt),
    (astDeclsList ss).map (·.outline.postorder) <+: table.drop next →
      Reports table (Ast.Stmt.outlines ss).postorder (checkStmts (Stmt.ofAsts next ss))
  | _, [], _ => by
    rw [Stmt.ofAsts, checkStmts]
    exact .pure _
  | next, st :: ss, h => by
    rw [astDeclsList] at h
    obtain ⟨hst, hss⟩ := prefix_drop_append h
    rw [Stmt.ofAsts, checkStmts, Ast.Stmt.outlines, Outline.postorder]
    exact (reports_checkStmt next st hst).bind fun _ =>
      (reports_checkStmts _ ss hss).bind_silent fun _ => .pure _

end

end Stmt

end Checker

open Checker Program in
/-- **The diagnostics of a program are about the parts of its tree, in postorder.** -/
theorem follows_check (body : Ast.Scope) :
    Follows body.toStmt.outline.postorder (Program.ofAst body).check.checker.errors := by
  obtain ⟨hpre, -⟩ := exec_predefined body
  rw [check_ofAst, hpre]
  generalize hs : (initial body).place _ _ = s
  have hdecls : s.decls = (astDecls body.toStmt).map declOfAst ++ predefinedDecls := by
    rw [← hs]
    rfl
  have hnone : s.errors = [] := by rw [← hs]; rfl
  -- the declarations of the text are first in the table
  have htable : (astDecls body.toStmt).map (·.outline.postorder) <+:
      (s.decls.map Declaration.postorder).drop 0 := by
    rw [hdecls, List.map_append, List.map_map, List.drop_zero]
    refine ⟨_, congrArg (· ++ _) (List.map_congr_left fun d _ => ?_)⟩
    exact (Declaration.postorder_ofAst d).symm
  rw [astDecls_toStmt] at htable
  obtain ⟨hown, hstmts⟩ := prefix_drop_append htable
  rw [Nat.zero_add] at hstmts
  obtain ⟨ds, hds, hf⟩ := (reports_block hown (reports_checkStmts _ _ hstmts) s rfl).errors
  rw [hnone, List.nil_append] at hds
  exact hds ▸ hf

/-- **Every diagnostic is about a part of the tree.** -/
theorem mem_places_of_mem_errors {body : Ast.Scope} {d : Diagnostic}
    (h : d ∈ (Program.ofAst body).check.checker.errors) : d.pos ∈ body.toStmt.outline.places :=
  (Outline.postorder_perm _).mem_iff.mp ((follows_check body).mem h)

/-- **Diagnostics are in the order of the text but for constructs that reach behind their token.** A
diagnostic about an operator, a call, a constructor, an assignment or a declaration never stands
before one about what the construct has behind its token. And of two diagnostics the first is later
in the text exactly if the second is about a construct that has it behind its token. -/
theorem errors_in_order_but_for_reaching (source : Bytes) :
    (Program.ofAst (parse source).body).check.checker.errors.Pairwise fun d d' =>
      ¬ (parse source).body.toStmt.outline.Reaches d.pos d'.pos ∧
        (d'.pos < d.pos ↔ (parse source).body.toStmt.outline.Reaches d'.pos d.pos) := by
  have hplaces := pairwise_places_parse source
  have hfollows := follows_check (parse source).body
  generalize (parse source).body.toStmt.outline = o at hplaces hfollows
  have hlt : ∀ {p q : Pos}, [p, q].Sublist o.places → p < q := fun h =>
    List.rel_of_pairwise_cons (hplaces.sublist h) (List.mem_singleton_self _)
  have hnodup : o.postorder.Nodup :=
    o.postorder_perm.nodup_iff.mpr (hplaces.imp fun h => ne_of_lt h)
  refine hfollows.pairwise.imp fun {d d'} h => ?_
  have hback : o.Reaches d'.pos d.pos → d'.pos < d.pos := fun h => hlt h.sublist_places
  rcases h with heq | hsub
  · rw [heq] at hback ⊢
    have hself : ¬ o.Reaches d'.pos d'.pos := fun h => lt_irrefl _ (hback h)
    exact ⟨hself, fun h => absurd h (lt_irrefl _), fun h => absurd h hself⟩
  · refine ⟨fun h => Outline.not_sublist_swap hnodup hsub h.sublist_postorder, fun h => ?_, hback⟩
    exact (Outline.sublist_places_or_reaches hsub).resolve_left fun h' => lt_asymm h (hlt h')

/-- An assignment is checked from its value to its target: with neither declared, the diagnostic
about the value comes first, so the diagnostics are not in the order of the text. -/
theorem errors_not_in_order_assignment :
    (parse (ascii "{x=y;}")).errors = [] ∧
      ¬ (Program.ofAst (parse (ascii "{x=y;}")).body).check.checker.errors.Pairwise
        fun d d' => d.pos ≤ d'.pos := by
  refine ⟨by decide +kernel, fun h => ?_⟩
  have hpos : (Program.ofAst (parse (ascii "{x=y;}")).body).check.checker.errors.map (·.pos) =
      [⟨1, 4⟩, ⟨1, 2⟩] := by decide +kernel
  rw [← List.pairwise_map, hpos] at h
  have hle : (⟨1, 4⟩ : Pos) ≤ ⟨1, 2⟩ := List.rel_of_pairwise_cons h (List.mem_singleton_self _)
  have hlt : (⟨1, 2⟩ : Pos) < ⟨1, 4⟩ := Pos.lt_iff.mpr (.inr ⟨rfl, by decide⟩)
  exact hle.not_gt hlt

end Shader
