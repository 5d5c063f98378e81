import Shader.Proofs.CheckerFrame
import Shader.Proofs.CheckerReuse

/-!
# A second check changes nothing

The check fills in the tree that it reads, so a second one reads what the first has left: names that
are bound, nodes that have types, and on nodes that are at fault whatever was found before the
fault. None of it makes a difference. Names are looked up again and lead to the same declarations,
and a node that gets no type keeps the one it has.

The two checks go side by side. At each point they have the same blocks open and the same
diagnostics (`State.view`), but the table of the second has all initializers as the first will leave
them. A declaration is visited once, so what the first leaves at its visit is what the second finds
there.
-/

namespace Shader

open Program (Expr Stmt Visit astDeclsList refType)

/-! ## What both checks see -/

namespace Checker

/-- All of a state but the initializers of the table. -/
def State.view (s : State) : Checker × Option Absence × List Declaration :=
  (s.toChecker, s.stopped, s.bare)

/-- Outcomes that are the same but for the initializers of the table. -/
def Agree {α : Type} (r r' : α × State) : Prop := r'.1 = r.1 ∧ r'.2.view = r.2.view

/-- A step that does not look at initializers. -/
def Blind {α : Type} (m : CheckM α) : Prop :=
  ∀ s s', s'.view = s.view → Agree (exec m s) (exec m s')

section View

variable {s s' : State}

theorem sight_of_view (h : s'.view = s.view) : s'.sight = s.sight :=
  congrArg (fun v => (v.1.scopes, v.2)) h

/-- Declarations that differ in their initializers at most. -/
theorem exists_decl_of_view (h : s'.view = s.view) {o : Option DeclId} {d : Declaration}
    (hd : o.bind (s.decls[·]?) = some d) :
    ∃ d', o.bind (s'.decls[·]?) = some d' ∧ d'.bare = d.bare := by
  have hsame := decl_of_sight Declaration.bare (fun _ => rfl) (sight_of_view h) o
  rw [hd, Option.map_some, Option.map_eq_some_iff] at hsame
  exact hsame

theorem no_decl_of_view (h : s'.view = s.view) {o : Option DeclId}
    (hd : o.bind (s.decls[·]?) = none) : o.bind (s'.decls[·]?) = none := by
  have hsame := decl_of_sight Declaration.bare (fun _ => rfl) (sight_of_view h) o
  rwa [hd, Option.map_none, Option.map_eq_none_iff] at hsame

/-- A report depends on names and types alone. -/
theorem view_report (h : s'.view = s.view) (pos : Pos) (c : Complaint) :
    (s'.report pos c).view = (s.report pos c).view := by
  obtain ⟨⟨scopes, errors⟩, decls, stopped⟩ := s
  obtain ⟨⟨scopes', errors'⟩, decls', stopped'⟩ := s'
  simp only [State.view, State.bare, Prod.mk.injEq, Checker.mk.injEq] at h
  obtain ⟨⟨rfl, rfl⟩, rfl, hbare⟩ := h
  unfold State.report
  cases stopped' <;> simp [State.view, State.bare, State.running, hbare]

/-- The open blocks can be changed alike. -/
theorem view_rescope (h : s'.view = s.view) (f : List Names → List Names) :
    ({ s' with scopes := f s'.scopes } : State).view =
      ({ s with scopes := f s.scopes } : State).view :=
  congrArg (fun v => (({ scopes := f v.1.scopes, errors := v.1.errors } : Checker), v.2)) h

theorem view_stop (h : s'.view = s.view) (part : Absence) :
    (s'.stop part).view = (s.stop part).view := by
  obtain ⟨⟨scopes, errors⟩, decls, stopped⟩ := s
  obtain ⟨⟨scopes', errors'⟩, decls', stopped'⟩ := s'
  simp only [State.view, State.bare, Prod.mk.injEq, Checker.mk.injEq] at h
  obtain ⟨⟨rfl, rfl⟩, rfl, hbare⟩ := h
  unfold State.stop
  cases stopped' <;> simp [State.view, State.bare, State.running, hbare]

end View

section Blind

variable {α β : Type}

theorem Agree.bind {m n : CheckM α} {f g : α → CheckM β} {s s' : State}
    (h : Agree (exec m s) (exec n s'))
    (hfg : ∀ s₂, s₂.view = (exec m s).2.view →
      Agree (exec (f (exec m s).1) (exec m s).2) (exec (g (exec m s).1) s₂)) :
    Agree (exec (m >>= f) s) (exec (n >>= g) s') := by
  rw [exec_bind, exec_bind, h.1]
  exact hfg _ h.2

/-- **The steps of a check are blind.** -/
theorem blind : Stepwise @Blind where
  pure _ _ _ h := ⟨rfl, h⟩
  bind hm hf s s' h := (hm s s' h).bind fun _ h₂ => hf _ _ _ h₂
  look hf hsight s s' h := by
    rw [exec_bind, exec_bind, exec_get, exec_get, hsight s s' (sight_of_view h)]
    exact hf s s s' h
  report pos c _ _ h := ⟨rfl, view_report h pos c⟩
  stop part _ _ h := ⟨rfl, view_stop h part⟩

end Blind

/-! ## Expressions again -/

section Again

variable {s s' : State}

/-- A bound name is bound to the same declaration again, and one that is not declared stays as it
is. -/
theorem again_resolve (h : s'.view = s.view) (ref : Ref) :
    Agree (exec (resolve ref) s) (exec (resolve (exec (resolve ref) s).1.1) s') := by
  rw [resolve, resolve, exec_bind, exec_bind, exec_get, exec_get]
  dsimp only
  cases hid : s.lookup? ref.name with
  | some id =>
    dsimp only
    rw [exec_pure, lookup?_of_sight (sight_of_view h), hid]
    dsimp only
    rw [exec_pure, refType_of_sight (sight_of_view h)]
    exact ⟨rfl, h⟩
  | none =>
    dsimp only
    rw [exec_bind, exec_report, exec_pure, lookup?_of_sight (sight_of_view h), hid]
    exact blind.complain _ _ _ s s' h

/-- A node keeps the type that it got, or had before a fault. -/
theorem again_component (h : s'.view = s.view) (ref : Ref) (i : Int) (old : Ty) :
    Agree (exec (component ref i old) s)
      (exec (component ref i (exec (component ref i old) s).1.1) s') := by
  rw [component, component, exec_bind, exec_bind, exec_get, exec_get]
  dsimp only
  rw [refType_of_sight (sight_of_view h)]
  split
  · exact ⟨rfl, h⟩
  · split
    · exact blind.complain _ _ _ s s' h
    · split
      · exact blind.complain _ _ _ s s' h
      · exact ⟨rfl, h⟩

/-- **A type that was found is found again, and one that was not is kept.** -/
theorem again_settle (h : s'.view = s.view) (old found : Ty) :
    Agree (exec (settle old found) s)
      (exec (settle (exec (settle old found) s).1 found) s') := by
  rw [exec_settle, exec_settle, running_of_sight (sight_of_view h)]
  split
  · exact ⟨rfl, h⟩
  · exact ⟨rfl, h⟩

/-- The end of the check of an operator: the type that was noted is noted again. -/
theorem again_noted {m n : CheckM Ty} (h : Agree (exec m s) (exec n s')) (g : Ty → Expr)
    (old : Ty) :
    Agree (exec (m >>= fun found => settle old found >>= fun t => pure (g t, t)) s)
      (exec (n >>= fun found => settle (exec (settle old (exec m s).1) (exec m s).2).1 found >>=
        fun t => pure (g t, t)) s') :=
  h.bind fun _ h₂ => (again_settle h₂ old _).bind fun _ h₃ => ⟨rfl, h₃⟩

/-- A check that has stopped does nothing more. -/
theorem exec_of_not_running {α : Type} {a : α} {m : CheckM α} (h : ¬ s.running = true) :
    exec (whileRunning a m) s = (a, s) := by
  rw [exec_whileRunning, if_neg h]

theorem exec_of_running {α : Type} {a : α} {m : CheckM α} (h : s.running = true) :
    exec (whileRunning a m) s = exec m s := by
  rw [exec_whileRunning, if_pos h]

/-- A name is bound to the declaration that it was bound to. -/
theorem again_var (h : s'.view = s.view) (ref : Ref) :
    Agree (exec (checkExpr (.var ref)) s)
      (exec (checkExpr (exec (checkExpr (.var ref)) s).1.1) s') := by
  by_cases hrun : s.running = true
  · have hfirst : (exec (checkExpr (.var ref)) s).1.1 = .var (exec (resolve ref) s).1.1 := by
      rw [checkExpr, exec_of_running hrun, exec_bind]
      dsimp only
      split
      · rfl
      · rw [exec_bind]
        split <;> rfl
    rw [hfirst, checkExpr, checkExpr, exec_of_running hrun,
      exec_of_running (running_of_sight (sight_of_view h) ▸ hrun)]
    refine (again_resolve h ref).bind fun s₂ h₂ => ?_
    refine blind.ite (blind.pure _) (blind.bind (blind.readable _) fun _ => ?_) _ _ h₂
    exact blind.ite (blind.pure _) (blind.pure _)
  · have hstop : ¬ s'.running = true := by rwa [running_of_sight (sight_of_view h)]
    rw [checkExpr, exec_of_not_running hrun, checkExpr, exec_of_not_running hstop]
    exact ⟨rfl, h⟩

/-- What follows when the name of a component is bound. -/
def checkComponent (i : Int) (old : Ty) (r : Ref × Ty) : CheckM (Expr × Ty) := do
  if !r.2.isValid then return (.index r.1 i old, .invalid)
  else if ← readable r.1 then
    let (carried, type) ← component r.1 i old
    return (.index r.1 i carried, type)
  else return (.index r.1 i old, .invalid)

/-- The type of a component may have been filled in or not. Either way the second check leaves what
the first has. -/
theorem again_checkComponent (h : s'.view = s.view) (i : Int) (old : Ty) (r : Ref × Ty) :
    ∃ carried, (exec (checkComponent i old r) s).1.1 = .index r.1 i carried ∧
      Agree (exec (checkComponent i old r) s) (exec (checkComponent i carried r) s') := by
  unfold checkComponent
  by_cases ht : (!r.2.isValid) = true
  · rw [if_pos ht]
    refine ⟨old, rfl, ?_⟩
    rw [if_pos ht]
    exact ⟨rfl, h⟩
  · have hread := blind.readable r.1 s s' h
    rw [if_neg ht]
    by_cases hok : (exec (readable r.1) s).1 = true
    · refine ⟨(exec (component r.1 i old) (exec (readable r.1) s).2).1.1, ?_, ?_⟩
      · rw [exec_bind, if_pos hok]
        rfl
      · rw [if_neg ht]
        refine hread.bind fun s₂ h₂ => ?_
        rw [if_pos hok, if_pos hok]
        exact (again_component h₂ r.1 i old).bind fun _ h₃ => ⟨rfl, h₃⟩
    · refine ⟨old, ?_, ?_⟩
      · rw [exec_bind, if_neg hok]
        rfl
      · rw [if_neg ht]
        refine hread.bind fun s₂ h₂ => ?_
        rw [if_neg hok]
        exact ⟨rfl, h₂⟩

/-- A component of a variable: its name is looked up again, and then its type is found again. -/
theorem again_index (h : s'.view = s.view) (ref : Ref) (i : Int) (old : Ty) :
    Agree (exec (checkExpr (.index ref i old)) s)
      (exec (checkExpr (exec (checkExpr (.index ref i old)) s).1.1) s') := by
  have hcheck : ∀ (ref : Ref) (old : Ty), checkExpr (.index ref i old) =
      whileRunning (.index ref i old, .invalid) (resolve ref >>= checkComponent i old) := by
    intro ref old
    rw [checkExpr]
    rfl
  rw [hcheck]
  by_cases hrun : s.running = true
  · have hrun' : s'.running = true := by rwa [running_of_sight (sight_of_view h)]
    have hresolve := again_resolve h ref
    rw [exec_of_running hrun, exec_bind]
    obtain ⟨carried, hindex, hagree⟩ :=
      again_checkComponent hresolve.2 i old (exec (resolve ref) s).1
    rw [hindex, hcheck, exec_of_running hrun', exec_bind, hresolve.1]
    exact hagree
  · have hrun' : ¬ s'.running = true := by rwa [running_of_sight (sight_of_view h)]
    rw [exec_of_not_running hrun, hcheck, exec_of_not_running hrun']
    exact ⟨rfl, h⟩

mutual

/-- **The check of an expression finds again what it found.** -/
theorem again_checkExpr : ∀ (e : Expr) {s s' : State}, s'.view = s.view →
    Agree (exec (checkExpr e) s) (exec (checkExpr (exec (checkExpr e) s).1.1) s')
  | .absent, s, s', h => by
    rw [checkExpr, exec_bind, exec_modify, exec_pure, checkExpr, exec_bind, exec_modify, exec_pure]
    exact ⟨rfl, view_stop h _⟩
  | .int _ _, s, s', h => by
    rw [checkExpr, exec_pure, checkExpr]
    exact ⟨rfl, h⟩
  | .float _ _, s, s', h => by
    rw [checkExpr, exec_pure, checkExpr]
    exact ⟨rfl, h⟩
  | .bool _ _, s, s', h => by
    rw [checkExpr, exec_pure, checkExpr]
    exact ⟨rfl, h⟩
  | .var ref, s, s', h => again_var h ref
  | .index ref i old, s, s', h => again_index h ref i old
  | .unary pos op x old, s, s', h => by
    rw [checkExpr]
    show Agree _ (exec (checkExpr (.unary pos op (exec (checkExpr x) s).1.1 _)) s')
    rw [checkExpr]
    exact (again_checkExpr x h).bind fun s₂ h₂ =>
      again_noted (blind.unaryType pos op _ _ _ h₂) (.unary pos op _) old
  | .binary pos op l r old, s, s', h => by
    rw [checkExpr]
    show Agree _ (exec (checkExpr (.binary pos op (exec (checkExpr l) s).1.1
      (exec (checkExpr r) (exec (checkExpr l) s).2).1.1 _)) s')
    rw [checkExpr]
    exact (again_checkExpr l h).bind fun s₂ h₂ => (again_checkExpr r h₂).bind fun s₃ h₃ =>
      again_noted (blind.binaryType pos op _ _ _ _ h₃) (.binary pos op _ _) old
  | .call pos func args old, s, s', h => by
    rw [checkExpr]
    show Agree _ (exec (checkExpr (.call pos func (exec (checkArgs args) s).1.1 _)) s')
    rw [checkExpr]
    exact (again_checkArgs args h).bind fun s₂ h₂ =>
      again_noted (blind.callType pos func _ _ _ h₂) (.call pos func _) old
  | .construct pos type args, s, s', h => by
    -- whether the number of components fits or not, the node that is left is the same
    have hfirst : (exec (checkExpr (.construct pos type args)) s).1.1 =
        .construct pos type (exec (checkComponents type args) s).1.1 := by
      rw [checkExpr, exec_bind]
      dsimp only
      split <;> rfl
    rw [hfirst, checkExpr, checkExpr]
    exact (again_checkComponents type args h).bind fun s₂ h₂ =>
      blind.ite (blind.complain _ _ _) (blind.pure _) _ _ h₂

theorem again_checkArgs : ∀ (es : List Expr) {s s' : State}, s'.view = s.view →
    Agree (exec (checkArgs es) s) (exec (checkArgs (exec (checkArgs es) s).1.1) s')
  | [], s, s', h => by
    rw [checkArgs, exec_pure, checkArgs]
    exact ⟨rfl, h⟩
  | e :: es, s, s', h => by
    rw [checkArgs]
    show Agree _ (exec (checkArgs ((exec (checkExpr e) s).1.1 ::
      (exec (checkArgs es) (exec (checkExpr e) s).2).1.1)) s')
    rw [checkArgs]
    exact (again_checkExpr e h).bind fun s₂ h₂ =>
      (again_checkArgs es h₂).bind fun s₃ h₃ => ⟨rfl, h₃⟩

theorem again_checkComponents (type : Ty) : ∀ (es : List Expr) {s s' : State}, s'.view = s.view →
    Agree (exec (checkComponents type es) s)
      (exec (checkComponents type (exec (checkComponents type es) s).1.1) s')
  | [], s, s', h => by
    rw [checkComponents, exec_pure, checkComponents]
    exact ⟨rfl, h⟩
  | e :: es, s, s', h => by
    rw [checkComponents]
    show Agree _ (exec (checkComponents type ((exec (checkExpr e) s).1.1 ::
      (exec (checkComponents type es) _).1.1)) s')
    rw [checkComponents]
    exact (again_checkExpr e h).bind fun s₂ h₂ =>
      (blind.componentFits type _ _ _ _ h₂).bind fun s₃ h₃ =>
        (again_checkComponents type es h₃).bind fun s₄ h₄ => ⟨rfl, h₄⟩

end

/-! ## Parts of statements again -/

theorem again_checkCondition (h : s'.view = s.view) (c : Conditional) (e : Expr) :
    Agree (exec (checkCondition c e) s)
      (exec (checkCondition c (exec (checkCondition c e) s).1) s') := by
  have hfirst : (exec (checkCondition c e) s).1 = (exec (checkExpr e) s).1.1 := by
    rw [checkCondition, exec_bind]
    dsimp only
    split <;> rfl
  rw [hfirst]
  exact (again_checkExpr e h).bind fun s₂ h₂ =>
    blind.ite (blind.complain _ _ _) (blind.pure _) _ _ h₂

theorem again_checkTarget (h : s'.view = s.view) (pos : Pos) (target : Expr) (value : Ty) :
    Agree (exec (checkTarget pos target value) s)
      (exec (checkTarget pos (exec (checkTarget pos target value) s).1 value) s') := by
  unfold checkTarget
  by_cases hrun : s.running = true
  · have hrun' : s'.running = true := by rwa [running_of_sight (sight_of_view h)]
    rw [exec_of_running hrun, exec_of_running hrun']
    cases target with
    | var ref =>
      exact (again_resolve h ref).bind fun _ h₂ =>
        (blind.checkWrite pos _ _ value _ _ h₂).bind fun _ h₃ => ⟨rfl, h₃⟩
    | index ref i old =>
      exact (again_resolve h ref).bind fun _ h₂ => (again_component h₂ _ i old).bind fun _ h₃ =>
        (blind.checkWrite pos _ _ value _ _ h₃).bind fun _ h₄ => ⟨rfl, h₄⟩
    | _ => exact blind.complain _ _ _ s s' h
  · have hrun' : ¬ s'.running = true := by rwa [running_of_sight (sight_of_view h)]
    rw [exec_of_not_running hrun, exec_of_not_running hrun']
    exact ⟨rfl, h⟩

/-- Declaring a variable takes no notice of initializers. -/
theorem view_declare (h : s'.view = s.view) (id : DeclId) :
    (s'.declare id).view = (s.declare id).view := by
  have hscopes : s'.scopes = s.scopes := congrArg (fun v => v.1.scopes) h
  unfold State.declare
  rw [running_of_sight (sight_of_view h), hscopes]
  cases s.running with
  | false => exact h
  | true =>
    cases hd : s.decls[id]? with
    | none =>
      have hd' : s'.decls[id]? = none := no_decl_of_view (o := some id) h hd
      rw [hd']
      exact h
    | some d =>
      -- name, type and position are those of the declaration without its initializer
      obtain ⟨d', hd', hbare⟩ := exists_decl_of_view (o := some id) h hd
      rw [Option.bind_some] at hd'
      have hname : d'.name = d.name := congrArg (·.name) hbare
      have htype : d'.type = d.type := congrArg (·.type) hbare
      have hpos : d'.pos = d.pos := congrArg (·.pos) hbare
      rw [hd']
      cases s.scopes with
      | nil => exact h
      | cons top outer =>
        dsimp only
        rw [hname, htype, hpos]
        cases hold : (top.lookup d.name).bind (s.decls[·]?) with
        | none =>
          rw [no_decl_of_view h hold]
          exact view_rescope h fun _ => ((d.name, id) :: top) :: outer
        | some previous =>
          -- the same of the declaration that has the name already, which the report mentions
          obtain ⟨previous', hold', hprevious⟩ := exists_decl_of_view h hold
          have hname : previous'.name = previous.name := congrArg (·.name) hprevious
          have hordinary : previous'.isOrdinary = previous.isOrdinary :=
            congrArg (·.isOrdinary) hprevious
          have hpos : previous'.pos = previous.pos := congrArg (·.pos) hprevious
          rw [hold']
          dsimp only
          rw [hname, hordinary, hpos]
          split
          · exact view_report h _ _
          · exact view_report h _ _

end Again

/-! ## Declarations and statements again -/

/-- The state of a second check with the table `decls`, where the first one is at `s`. -/
structure Follows (decls : List Declaration) (s s' : State) : Prop where
  view : s'.view = s.view
  table : s'.decls = decls

/-- Outcomes that are the same, where the second check leaves its table. -/
def Redone {α : Type} (decls : List Declaration) (r r' : α × State) : Prop :=
  r'.1 = r.1 ∧ Follows decls r.2 r'.2

/-- Whether a table has at some visits what a state has there. -/
def Foresees (decls : List Declaration) (visits : List Visit) (s : State) : Prop :=
  ∀ i, .decl i ∈ visits → decls[i]? = s.decls[i]?

section Redone

variable {α β : Type} {decls : List Declaration} {s s' : State} {vs ws : List Visit}

/-- A step that leaves the table alone is redone if its outcomes agree. -/
theorem Agree.redone {m n : CheckM α} (h : Agree (exec m s) (exec n s')) (hn : Leaves State.decls n)
    (hs : s'.decls = decls) : Redone decls (exec m s) (exec n s') :=
  ⟨h.1, h.2, (hn s').trans hs⟩

/-- Steps that are redone one after the other. -/
theorem Redone.bind {m n : CheckM α} {f g : α → CheckM β}
    (h : Redone decls (exec m s) (exec n s'))
    (hfg : ∀ s₂, Follows decls (exec m s).2 s₂ →
      Redone decls (exec (f (exec m s).1) (exec m s).2) (exec (g (exec m s).1) s₂)) :
    Redone decls (exec (m >>= f) s) (exec (n >>= g) s') := by
  rw [exec_bind, exec_bind, h.1]
  exact hfg _ h.2

theorem Follows.rescope (h : Follows decls s s') (f : List Names → List Names) :
    Follows decls { s with scopes := f s.scopes } { s' with scopes := f s'.scopes } :=
  ⟨view_rescope h.view f, h.table⟩

/-- A visit to one declaration does not show at those that are visited elsewhere. -/
theorem unnoticed_of_nodup (hn : (vs ++ ws).Nodup) {i : DeclId} (hi : .decl i ∈ vs) (id : DeclId)
    (hid : .decl id ∈ ws) : Unnoticed (·[i]?) id := by
  refine unnoticed_of_ne fun h => ?_
  subst h
  exact (List.nodup_append.1 hn).2.2 _ hi _ hid rfl

theorem Foresees.left (h : Foresees decls (vs ++ ws) s) : Foresees decls vs s :=
  fun i hi => h i (List.mem_append_left _ hi)

theorem Foresees.right (h : Foresees decls (vs ++ ws) s) : Foresees decls ws s :=
  fun i hi => h i (List.mem_append_right _ hi)

/-- What is seen behind a step that leaves it is seen before. -/
theorem Foresees.before {m : CheckM α} (h : Foresees decls vs (exec m s).2)
    (hm : ∀ i, .decl i ∈ vs → Leaves (fun s => s.decls[i]?) m) : Foresees decls vs s :=
  fun i hi => (h i hi).trans (hm i hi s)

end Redone

section Parts

variable {decls : List Declaration} {s s' : State}

theorem redone_checkExpr (h : Follows decls s s') (e : Expr) :
    Redone decls (exec (checkExpr e) s) (exec (checkExpr (exec (checkExpr e) s).1.1) s') :=
  (again_checkExpr e h.view).redone (leaves_decls.checkExpr _) h.table

theorem redone_checkCondition (h : Follows decls s s') (c : Conditional) (e : Expr) :
    Redone decls (exec (checkCondition c e) s)
      (exec (checkCondition c (exec (checkCondition c e) s).1) s') :=
  (again_checkCondition h.view c e).redone (leaves_decls.checkCondition _ _) h.table

theorem redone_checkTarget (h : Follows decls s s') (pos : Pos) (target : Expr) (value : Ty) :
    Redone decls (exec (checkTarget pos target value) s)
      (exec (checkTarget pos (exec (checkTarget pos target value) s).1 value) s') :=
  (again_checkTarget h.view pos target value).redone (leaves_decls.checkTarget _ _ _) h.table

end Parts

section Decl

variable {decls : List Declaration} {s s' : State} {id : DeclId} {d : Declaration} {e : Expr}

theorem redone_declare (h : Follows decls s s') (id : DeclId) :
    Redone decls (exec (modify (·.declare id)) s) (exec (modify (·.declare id)) s') :=
  ⟨rfl, view_declare h.view id, (decls_declare s' id).trans h.table⟩

/-- The end of the check of a declaration, with a complaint or without. -/
theorem redone_finish (h : Follows decls s s') (b : Prop) [Decidable b] (pos : Pos)
    (c : Complaint) :
    Redone decls
      (exec
        (if b then report pos c >>= fun _ => modify (·.declare id) else modify (·.declare id)) s)
      (exec (if b then report pos c >>= fun _ => modify (·.declare id) else modify (·.declare id))
        s') := by
  split
  · exact Redone.bind ((blind.report pos c s s' h.view).redone (leaves_decls.report pos c) h.table)
      fun _ h₂ => redone_declare h₂ id
  · exact redone_declare h id

/-- A checked initializer is put in its place. -/
theorem getElem?_setInit (hd : s.decls[id]? = some d) (e : Expr) :
    (s.setInit id e).decls[id]? = some { d with init := some e } := by
  rw [State.setInit, List.getElem?_modify, hd]
  simp

/-- A declaration that has its initializer gets it again. -/
theorem setInit_eq (hd : s.decls[id]? = some d) (hinit : d.init = some e) : s.setInit id e = s := by
  have hdecls : s.decls.modify id (fun d => { d with init := some e }) = s.decls := by
    refine List.ext_getElem? fun i => ?_
    rw [List.getElem?_modify]
    by_cases hi : id = i
    · subst hi
      rw [hd]
      simp [← hinit]
    · simp [hi]
  rw [State.setInit, hdecls]

theorem view_setInit (s : State) (id : DeclId) (e : Expr) : (s.setInit id e).view = s.view := by
  have hbare : (s.setInit id e).bare = s.bare := unnoticed_bare id s.decls e
  rw [State.view, State.view, hbare]
  rfl

/-- **A declaration is checked again with the initializer that the first check left.** -/
theorem redone_checkDecl (h : Follows decls s s')
    (hf : decls[id]? = (exec (checkDecl id) s).2.decls[id]?) :
    Redone decls (exec (checkDecl id) s) (exec (checkDecl id) s') := by
  unfold checkDecl at hf ⊢
  by_cases hrun : s.running = true
  · have hrun' : s'.running = true := by rwa [running_of_sight (sight_of_view h.view)]
    rw [exec_of_running hrun, exec_bind, exec_get] at hf ⊢
    rw [exec_of_running hrun', exec_bind, exec_get]
    dsimp only at hf ⊢
    rw [h.table]
    cases hd : s.decls[id]? with
    | none =>
      rw [hd] at hf
      have hd' : decls[id]? = none := hf.trans hd
      rw [hd']
      exact ⟨rfl, h⟩
    | some d =>
      rw [hd] at hf
      dsimp only at hf ⊢
      cases hinit : d.init with
      | none =>
        rw [hinit] at hf
        dsimp only at hf ⊢
        have hd' : decls[id]? = some d :=
          (hf.trans (leaves_finish (g := (·[id]?)) _ _ _ id s)).trans hd
        rw [hd']
        dsimp only
        rw [hinit]
        exact redone_finish h _ _ _
      | some e =>
        rw [hinit] at hf
        dsimp only at hf ⊢
        -- what the second check finds is the initializer that the first one has checked
        have hd₁ : (exec (checkExpr e) s).2.decls[id]? = some d :=
          ((leaves (g := (·[id]?))).checkExpr e s).trans hd
        have hd' : decls[id]? = some { d with init := some (exec (checkExpr e) s).1.1 } :=
          (hf.trans (leaves_finish (g := (·[id]?)) _ _ _ id _)).trans (getElem?_setInit hd₁ _)
        rw [hd']
        dsimp only
        refine (redone_checkExpr h e).bind fun s₂ h₂ => ?_
        refine Redone.bind ⟨rfl, ?_⟩ fun s₃ h₃ => redone_finish h₃ _ _ _
        have hd₂ : s₂.decls[id]? = some { d with init := some (exec (checkExpr e) s).1.1 } := by
          rwa [h₂.table]
        rw [exec_modify, exec_modify, setInit_eq hd₂ rfl]
        exact ⟨h₂.view.trans (view_setInit _ _ _).symm, h₂.table⟩
  · have hrun' : ¬ s'.running = true := by rwa [running_of_sight (sight_of_view h.view)]
    rw [exec_of_not_running hrun, exec_of_not_running hrun']
    exact ⟨rfl, h⟩

/-- A declaration behind others leaves what they have left. -/
theorem redone_checkDecls : ∀ {ids : List DeclId} {s s' : State}, Follows decls s s' →
    (ids.map Visit.decl).Nodup →
    Foresees decls (ids.map .decl) (exec (ids.forM checkDecl) s).2 →
    Redone decls (exec (ids.forM checkDecl) s) (exec (ids.forM checkDecl) s')
  | [], s, s', h, _, _ => ⟨rfl, h⟩
  | id :: ids, s, s', h, hn, hf => by
    have hn' : ([Visit.decl id] ++ ids.map Visit.decl).Nodup := hn
    have hf' : Foresees decls ([Visit.decl id] ++ ids.map .decl)
      (exec (ids.forM checkDecl) (exec (checkDecl id) s).2).2 := hf
    have hfirst : Foresees decls [.decl id] (exec (checkDecl id) s).2 :=
      Foresees.before hf'.left fun i hi => leaves_checkDecls fun id hid =>
        unnoticed_of_nodup hn' hi id (List.mem_map_of_mem hid)
    exact (redone_checkDecl h (hfirst id (by simp))).bind fun _ h₂ =>
      redone_checkDecls h₂ (List.nodup_append.1 hn').2.1 hf'.right

end Decl

mutual

/-- **A statement is checked again on the table that the first check leaves.** -/
theorem redone_checkStmt {decls : List Declaration} : ∀ (st : Stmt) {s s' : State},
    Follows decls s s' → st.visits.Nodup → Foresees decls st.visits (exec (checkStmt st) s).2 →
    Redone decls (exec (checkStmt st) s) (exec (checkStmt (exec (checkStmt st) s).1) s')
  | .absent, s, s', h, _, _ => by
    rw [checkStmt]
    show Redone decls _ (exec (checkStmt .absent) s')
    rw [checkStmt]
    exact ⟨rfl, view_stop h.view _, (decls_stop s' _).trans h.table⟩
  | .assign pos target value, s, s', h, _, _ => by
    rw [checkStmt]
    show Redone decls _ (exec (checkStmt (.assign pos
      (exec (checkTarget pos target (exec (checkExpr value) s).1.2) (exec (checkExpr value) s).2).1
      (exec (checkExpr value) s).1.1)) s')
    rw [checkStmt]
    exact (redone_checkExpr h value).bind fun s₂ h₂ =>
      (redone_checkTarget h₂ pos target _).bind fun s₃ h₃ => ⟨rfl, h₃⟩
  | .branch c yes none, s, s', h, hn, hf => by
    rw [Stmt.visits] at hn hf
    rw [checkStmt] at hf ⊢
    show Redone decls _ (exec (checkStmt (.branch (exec (checkCondition .branch c) s).1
      (exec (checkStmt yes) (exec (checkCondition .branch c) s).2).1 none)) s')
    rw [checkStmt]
    refine (redone_checkCondition h .branch c).bind fun s₂ h₂ => ?_
    exact (redone_checkStmt yes h₂ hn hf).bind fun s₃ h₃ => ⟨rfl, h₃⟩
  | .branch c yes (some no), s, s', h, hn, hf => by
    rw [Stmt.visits] at hn hf
    rw [checkStmt] at hf ⊢
    show Redone decls _ (exec (checkStmt (.branch (exec (checkCondition .branch c) s).1
      (exec (checkStmt yes) (exec (checkCondition .branch c) s).2).1
      (some (exec (checkStmt no) (exec (checkStmt yes)
        (exec (checkCondition .branch c) s).2).2).1))) s')
    rw [checkStmt]
    refine (redone_checkCondition h .branch c).bind fun s₂ h₂ => ?_
    -- the other branch leaves what the first check left here
    have hyes : Foresees decls yes.visits
        (exec (checkStmt yes) (exec (checkCondition .branch c) s).2).2 :=
      Foresees.before hf.left fun i hi => leaves_checkStmt (unnoticed_of_nodup hn hi)
    refine (redone_checkStmt yes h₂ (List.nodup_append.1 hn).1 hyes).bind fun s₃ h₃ => ?_
    exact (redone_checkStmt no h₃ (List.nodup_append.1 hn).2.1 hf.right).bind
      fun s₄ h₄ => ⟨rfl, h₄⟩
  | .loop pos c body, s, s', h, hn, hf => by
    rw [Stmt.visits] at hn hf
    rw [checkStmt] at hf ⊢
    show Redone decls _ (exec (checkStmt (.loop pos (exec (checkCondition .loop c) s).1
      (exec (checkStmt body) (exec (checkCondition .loop c) s).2).1)) s')
    rw [checkStmt]
    refine (redone_checkCondition h .loop c).bind fun s₂ h₂ => ?_
    exact (redone_checkStmt body h₂ hn hf).bind fun s₃ h₃ => ⟨rfl, h₃⟩
  | .scope ids stmts, s, s', h, hn, hf => by
    rw [Stmt.visits] at hn hf
    rw [checkStmt] at hf ⊢
    show Redone decls _ (exec (checkStmt (.scope ids
      (exec (checkStmts stmts) (exec (ids.forM checkDecl) s.push).2).1)) s')
    rw [checkStmt]
    have hids : Foresees decls (ids.map .decl) (exec (ids.forM checkDecl) s.push).2 :=
      Foresees.before hf.left fun i hi => leaves_checkStmts (unnoticed_of_nodup hn hi)
    refine Redone.bind ⟨rfl, h.rescope _⟩ fun s₂ h₂ => ?_
    refine (redone_checkDecls h₂ (List.nodup_append.1 hn).1 hids).bind fun s₃ h₃ => ?_
    refine (redone_checkStmts stmts h₃ (List.nodup_append.1 hn).2.1 hf.right).bind fun s₄ h₄ => ?_
    exact Redone.bind ⟨rfl, h₄.rescope _⟩ fun s₅ h₅ => ⟨rfl, h₅⟩

/-- Statements in order. What the table foresees of all of them it foresees of each, since no
declaration is visited twice. -/
theorem redone_checkStmts {decls : List Declaration} : ∀ (ss : List Stmt) {s s' : State},
    Follows decls s s' → (Stmt.listVisits ss).Nodup →
    Foresees decls (Stmt.listVisits ss) (exec (checkStmts ss) s).2 →
    Redone decls (exec (checkStmts ss) s) (exec (checkStmts (exec (checkStmts ss) s).1) s')
  | [], s, s', h, _, _ => by
    rw [checkStmts, exec_pure, checkStmts]
    exact ⟨rfl, h⟩
  | st :: ss, s, s', h, hn, hf => by
    rw [Stmt.listVisits] at hn hf
    rw [checkStmts] at hf ⊢
    show Redone decls _ (exec (checkStmts ((exec (checkStmt st) s).1 ::
      (exec (checkStmts ss) (exec (checkStmt st) s).2).1)) s')
    rw [checkStmts]
    have hst : Foresees decls st.visits (exec (checkStmt st) s).2 :=
      Foresees.before hf.left fun i hi => leaves_checkStmts (unnoticed_of_nodup hn hi)
    refine (redone_checkStmt st h (List.nodup_append.1 hn).1 hst).bind fun s₂ h₂ => ?_
    exact (redone_checkStmts ss h₂ (List.nodup_append.1 hn).2.1 hf.right).bind
      fun s₃ h₃ => ⟨rfl, h₃⟩

end

/-! ## Programs -/

theorem redone_declares {decls : List Declaration} : ∀ (ids : List DeclId) {s s' : State},
    Follows decls s s' → Redone decls (exec (ids.forM fun id => modify (·.declare id)) s)
      (exec (ids.forM fun id => modify (·.declare id)) s')
  | [], _, _, h => ⟨rfl, h⟩
  | id :: ids, _, _, h => (redone_declare h id).bind fun _ h₂ => redone_declares ids h₂

/-- The declarations of a program that a check visits. -/
def bodyVisits (p : Program) : List Visit :=
  (p.body.getD {}).decls.map .decl ++ Stmt.listVisits (p.body.getD {}).stmts

/-- **A walk through a program is redone**, if the table of the second is what the first has
left. -/
theorem redone_programWalk {decls : List Declaration} (p : Program) {s s' : State}
    (h : Follows decls s s') (hn : (bodyVisits p).Nodup)
    (hf : Foresees decls (bodyVisits p) (exec (programWalk p) s).2) :
    Redone decls (exec (programWalk p) s)
      (exec (programWalk { p with
        decls := decls
        body := some ⟨(p.body.getD {}).decls, (exec (programWalk p) s).1⟩ }) s') := by
  have hids : Foresees decls ((p.body.getD {}).decls.map .decl)
      (exec ((p.body.getD {}).decls.forM checkDecl)
        (exec ((p.predefined.getD []).forM fun id => modify (·.declare id)) s.push).2).2 :=
    Foresees.before hf.left fun i hi => leaves_checkStmts (unnoticed_of_nodup hn hi)
  refine Redone.bind ⟨rfl, h.rescope _⟩ fun s₂ h₂ => ?_
  refine (redone_declares _ h₂).bind fun s₃ h₃ => ?_
  refine (redone_checkDecls h₃ (List.nodup_append.1 hn).1 hids).bind fun s₄ h₄ => ?_
  refine (redone_checkStmts _ h₄ (List.nodup_append.1 hn).2.1 hf.right).bind fun s₅ h₅ => ?_
  exact Redone.bind ⟨rfl, h₅.rescope _⟩ fun s₆ h₆ => ⟨rfl, h₆⟩

/-- The predefined variables are there already when the check begins for the second time. -/
theorem install_outcome (p : Program) (r : List Stmt × State) :
    install (outcome (install p) r).program = (outcome (install p) r).program := by
  have hpredefined : ∃ ids, (install p).predefined = some ids := by
    unfold install
    split
    · exact ⟨_, ‹_›⟩
    · exact ⟨_, rfl⟩
  obtain ⟨ids, hids⟩ := hpredefined
  rw [install, outcome]
  dsimp only
  rw [hids]
  rfl

theorem outcome_of_redone (p : Program) {r r' : List Stmt × State} (h : Redone r.2.decls r r') :
    outcome (outcome p r).program r' = outcome p r := by
  have hchecker : r'.2.toChecker = r.2.toChecker := congrArg (·.1) h.2.view
  have hstopped : r'.2.stopped = r.2.stopped := congrArg (·.2.1) h.2.view
  rw [outcome, hchecker, hstopped, h.1, h.2.table]
  rfl

/-- **A program whose declarations are visited once is the same after a second check.** -/
theorem check_check {p : Program} (hn : (bodyVisits (install p)).Nodup) :
    p.check.program.check = p.check := by
  have hfirst := check_eq_outcome {} p
  generalize hr : exec (programWalk (install p)) { decls := (install p).decls } = r at hfirst
  have hwalk : Leaves State.bare (programWalk (install p)) := leaves_bare _ _ _
  have hbare : r.2.bare = (install p).decls.map Declaration.bare := by
    rw [← hr]
    exact hwalk _
  -- the tables differ in initializers alone, so both checks start with one view
  have hstart : Follows r.2.decls { decls := (install p).decls } { decls := r.2.decls } :=
    ⟨congrArg (({} : Checker), none, ·) hbare, rfl⟩
  have hredone := redone_programWalk (install p) hstart hn (by rw [hr]; exact fun _ _ => rfl)
  rw [hr] at hredone
  have hsecond := check_eq_outcome {} (outcome (install p) r).program
  rw [install_outcome] at hsecond
  rw [Program.check, Program.check, hfirst, hsecond]
  exact outcome_of_redone (install p) hredone

/-- In the program of a text each declaration has one place, and is visited there only. -/
theorem nodup_bodyVisits_ofAst (body : Ast.Scope) :
    (bodyVisits (install (Program.ofAst body))).Nodup := by
  show ((List.range' 0 body.decls.length).map Visit.decl ++
    Stmt.listVisits (Stmt.ofAsts body.decls.length body.stmts)).Nodup
  have hplaces : List.range' 0 body.decls.length ++
      List.range' body.decls.length (astDeclsList body.stmts).length =
        List.range' 0 (body.decls.length + (astDeclsList body.stmts).length) := by
    rw [← List.range'_append_1, Nat.zero_add]
  rw [visits_ofAsts, ← List.map_append, hplaces]
  exact List.Pairwise.map _ (fun _ _ hne h => hne (Visit.decl.inj h)) List.nodup_range'

end Checker

/-- **A checked program is the same after a second check.** The second one, whatever the first has
found, has the same diagnostics and leaves the same tree: the predefined variables, what the names
are bound to and the types of the nodes. -/
theorem check_program_check_source (source : Bytes) :
    (Program.ofAst (parse source).body).check.program.check =
      (Program.ofAst (parse source).body).check :=
  Checker.check_check (Checker.nodup_bodyVisits_ofAst _)

end Shader
