import Shader.Proofs.IntactPrograms

/-!
# The parser makes progress

Each round of a loop of the parser takes a token, whatever the text: a declaration takes its first
word even if it is refused, a statement its first token, and recovery after an error stops only
behind a semicolon, at a closing brace or at the end. So the tokens left bound how deep the descent
goes.

The budget of the descent is bookkeeping then. Two runs whose budgets cover the tokens left agree,
which is what termination comes to for a function with a budget: the outcome does not depend on it.
-/

namespace Shader

namespace Parser

open Ast Grammar

variable {α β : Type} {s s' : State}

/-! ## Taking tokens -/

/-- A token at least is taken on the way from `s` to `s'`. -/
def Takes (s s' : State) : Prop := s'.rest.length < s.rest.length

/-- A token that was taken stays so. -/
theorem Takes.moves {s'' : State} (h : Takes s s') (hm : Moves s' s'') : Takes s s'' :=
  Nat.lt_of_le_of_lt hm.rest.length_le h

/-- To pass a token takes it, unless it is the end. -/
theorem takes_advance (hs : Ended s) (hk : s.current.kind ≠ .eof) : Takes s s.advance := by
  obtain ⟨t, ts, hr, -, -⟩ := hs.rest_of_current rfl hk
  rw [Takes, advance_of_rest hr, hr]
  exact Nat.lt_succ_self _

theorem ended_of_moves (hs : Ended s) (h : Moves s s') : Ended s' :=
  (congrArg Token.kind h.last).trans hs

theorem ne_eof_of_startsDecl {k : Kind} (h : startsDecl k = true) : k ≠ .eof := by
  rintro rfl
  cases h

/-- A declaration takes its first word even if what follows is refused. -/
theorem takes_declaration (hs : Ended s) (h : startsDecl s.current.kind = true) :
    Takes s (exec declaration s).2 := by
  refine (takes_advance hs (ne_eof_of_startsDecl h)).moves ?_
  rw [exec_declaration]
  split
  · exact onward_declarationFrom _ _ _
  · rename_i hconst
    have htype : s.current.kind.type?.isSome = true := by
      rw [Kind.isSome_type?]
      simpa [startsDecl, hconst] using h
    obtain ⟨type, htype⟩ := Option.isSome_iff_exists.mp htype
    rw [exec_declarationFrom_eq, htype]
    exact onward_declarator _ _ _ _

/-- A round of the loop over declarations. -/
theorem takes_recovering_declaration (hs : Ended s) (h : startsDecl s.current.kind = true) :
    Takes s (StateT.run (recovering declaration) s).2 := by
  rw [run_recovering]
  split
  · exact (takes_declaration hs h).moves (onward_recover _)
  · exact takes_declaration hs h

/-- Recovery drops tokens up to a semicolon, a closing brace or the end, and the semicolon too. -/
theorem run_recover (s : State) :
    (StateT.run recover s).2 =
      let stop := s.seek (s.rest.dropWhile fun t => t.kind != .semicolon && t.kind != .rbrace)
      if stop.current.kind = .semicolon then stop.advance else stop := rfl

/-- **Recovery takes a token, or stands at a brace or at the end.** Otherwise it stands behind a
semicolon, which it has taken. -/
theorem recover_progress (hs : Ended s) : Takes s (StateT.run recover s).2 ∨
    (StateT.run recover s).2.current.kind = .rbrace ∨
    (StateT.run recover s).2.current.kind = .eof := by
  have hlen : (s.rest.dropWhile fun t => t.kind != .semicolon && t.kind != .rbrace).length ≤
      s.rest.length := (List.dropWhile_suffix _).length_le
  rw [run_recover]
  cases hrest : s.rest.dropWhile fun t => t.kind != .semicolon && t.kind != .rbrace with
  | nil =>
    refine .inr (.inr ?_)
    have hlast : s.last.kind ≠ .semicolon := by rw [hs]; simp
    dsimp only
    rw [State.current_seek_nil, if_neg hlast]
    exact hs
  | cons t ts =>
    have hstop :=
      List.head?_dropWhile_not (fun t => t.kind != .semicolon && t.kind != .rbrace) s.rest
    rw [hrest] at hlen hstop
    dsimp only
    rw [State.current_seek_cons]
    split
    · exact .inl hlen
    · rename_i hsemi
      refine .inr (.inl ?_)
      simpa [hsemi] using hstop

/-- Recovery from the first word of a declaration takes that word. -/
theorem takes_recover (hs : Ended s) (h : startsDecl s.current.kind = true) :
    Takes s (StateT.run recover s).2 := by
  obtain ⟨t, ts, hr, hc, -⟩ := hs.rest_of_current rfl (ne_eof_of_startsDecl h)
  have hdrop : (t.kind != .semicolon && t.kind != .rbrace) = true := by
    rw [← hc]
    generalize s.current.kind = k at h
    cases k <;> first | rfl | cases h
  have hlen : (s.rest.dropWhile fun t => t.kind != .semicolon && t.kind != .rbrace).length <
      s.rest.length := by
    rw [hr, List.dropWhile_cons, if_pos hdrop]
    exact Nat.lt_succ_of_le (List.dropWhile_suffix _).length_le
  have hseek : Takes s
      (s.seek (s.rest.dropWhile fun t => t.kind != .semicolon && t.kind != .rbrace)) := hlen
  rw [run_recover]
  dsimp only
  split
  · exact hseek.moves (moves_advance _)
  · exact hseek

/-- **A statement takes its first token**, whatever the token is. -/
theorem takes_statement (hs : Ended s) (hk : s.current.kind ≠ .eof) (b : Nat) :
    Takes s (exec (statement (b + 2)) s).2 := by
  have hfirst := takes_advance hs hk
  rw [exec_statement_eq]
  split
  · -- an assignment takes the name it starts with
    have hassign : Takes s (exec assignment s).2 := by
      refine hfirst.moves ?_
      have hname : Moves s.advance (exec variableRef s).2 := by
        rw [exec_variableRef_eq]
        exact onward_subscript _ _
      -- what is read behind the name can only move on
      have hbehind : ∀ v, Onward (exec (do
          expect .assign
          let value ← expression
          return Stmt.assign v value)) := fun _ =>
        onward_bind (onward_expect _) fun _ => onward_bind onward_expression fun _ => onward_pure _
      unfold assignment
      rw [exec_bind]
      generalize exec variableRef s = r at hname
      rcases r with ⟨_ | v, s'⟩
      · exact hname
      · exact hname.trans (hbehind v s')
    have hrecover : Takes s (StateT.run (recovering assignment) s).2 := by
      rw [run_recovering]
      split
      · exact hassign.moves (onward_recover _)
      · exact hassign
    dsimp only
    split
    · exact hrecover.moves (onward_bind (onward_expect _) (fun _ => onward_pure _) _)
    · exact hrecover
  · exact hfirst.moves (onward_branchFrom (onward_statement _) _)
  · exact hfirst.moves (onward_loopFrom _ (onward_statement _) _)
  · refine hfirst.moves ?_
    dsimp only
    rw [run_scope]
    exact (onward_declarations _ _).trans ((onward_statements _ _).trans (onward_expect _ _))
  · exact hfirst
  · exact hfirst

/-! ## The budget is bookkeeping -/

/-- The state with another budget. -/
def State.fund (s : State) (n : Nat) : State := { s with budget := n }

@[simp] theorem State.budget_fund (s : State) (n : Nat) : (s.fund n).budget = n := rfl

@[simp] theorem State.rest_fund (s : State) (n : Nat) : (s.fund n).rest = s.rest := rfl

@[simp] theorem State.current_fund (s : State) (n : Nat) : (s.fund n).current = s.current := rfl

@[simp] theorem State.advance_fund (s : State) (n : Nat) :
    (s.fund n).advance = s.advance.fund n := rfl

@[simp] theorem State.report_fund (s : State) (n : Nat) (c : Refusal) :
    (s.fund n).report c = (s.report c).fund n := rfl

/-- The same result but for the budget, which is `n` in the second. -/
def Alike (n : Nat) (r r' : α × State) : Prop := r' = (r.1, r.2.fund n)

section Alike

variable {n : Nat}

/-- Two runs that agree go on from the same token, with the budgets that they had. -/
theorem alike_bind {p p' : Parser α} {f f' : α → Parser β} (hm : Onward (exec p))
    (hp : Alike n (exec p s) (exec p' (s.fund n)))
    (hf : ∀ a s', exec p s = (some a, s') → Moves s s' →
      Alike n (exec (f a) s') (exec (f' a) (s'.fund n))) :
    Alike n (exec (p >>= f) s) (exec (p' >>= f') (s.fund n)) := by
  have hm := hm s
  rw [exec_bind, exec_bind, hp]
  rcases hr : exec p s with ⟨_ | a, s'⟩
  · rfl
  · rw [hr] at hm
    exact hf a s' hr hm

theorem alike_current_bind {f f' : Token → Parser β}
    (hf : Alike n (exec (f s.current) s) (exec (f' s.current) (s.fund n))) :
    Alike n (exec (current >>= f) s) (exec (current >>= f') (s.fund n)) := hf

theorem alike_kind_bind {f f' : Kind → Parser β}
    (hf : Alike n (exec (f s.current.kind) s) (exec (f' s.current.kind) (s.fund n))) :
    Alike n (exec (kind >>= f) s) (exec (kind >>= f') (s.fund n)) := hf

theorem alike_advance_bind {f f' : Unit → Parser β}
    (hf : Alike n (exec (f ()) s.advance) (exec (f' ()) (s.advance.fund n))) :
    Alike n (exec (advance >>= f) s) (exec (advance >>= f') (s.fund n)) := hf

/-- A primitive does not look at the budget. -/
theorem alike_expect (want : Kind) (s : State) :
    Alike n (exec (expect want) s) (exec (expect want) (s.fund n)) := by
  refine alike_kind_bind ?_
  split <;> rfl

/-- Behind a fixed token, which is taken. -/
theorem alike_expect_bind {want : Kind} (hs : Ended s) (hw : want ≠ .eof) {f f' : Unit → Parser β}
    (hf : ∀ s', Moves s s' → Takes s s' → Alike n (exec (f ()) s') (exec (f' ()) (s'.fund n))) :
    Alike n (exec (expect want >>= f) s) (exec (expect want >>= f') (s.fund n)) := by
  refine alike_bind (onward_expect want) (alike_expect want s) fun _ s' hr hm => hf s' hm ?_
  rw [exec_expect] at hr
  split at hr
  · rename_i hk
    cases hr
    exact takes_advance hs (hk ▸ hw)
  · cases hr

theorem alike_expect_pure (want : Kind) (a : α) (s : State) :
    Alike n (exec (expect want >>= fun _ => pure a) s)
      (exec (expect want >>= fun _ => pure a) (s.fund n)) :=
  alike_bind (onward_expect want) (alike_expect want s) fun _ _ _ _ => rfl

theorem alike_variableRef (s : State) :
    Alike n (exec variableRef s) (exec variableRef (s.fund n)) := by
  refine alike_current_bind (alike_advance_bind (alike_kind_bind ?_))
  split
  · refine alike_advance_bind (alike_current_bind ?_)
    split
    · split
      · exact alike_advance_bind (alike_expect_pure _ _ _)
      · rfl
    · rfl
  · rfl

theorem ne_eof_of_binary? {k : Kind} {o : BinaryOp × Nat} (h : k.binary? = some o) : k ≠ .eof := by
  rintro rfl
  cases h

theorem ne_eof_of_unary? {k : Kind} {op : UnaryOp} (h : k.unary? = some op) : k ≠ .eof := by
  rintro rfl
  cases h

theorem ne_eof_of_type? {k : Kind} {type : Ty} (h : k.type? = some type) : k ≠ .eof := by
  rintro rfl
  cases h

mutual

/-- **Two budgets that cover the tokens left give the same expression.** The proof goes along both
runs at once; each level of the descent costs one, and a token pays for five levels. -/
theorem alike_binary : ∀ (b b' floor : Nat) (s : State), Ended s →
    5 * s.rest.length + 4 ≤ b → 5 * s.rest.length + 4 ≤ b' →
    Alike n (exec (binary b floor) s) (exec (binary b' floor) (s.fund n))
  | 0, _, _, _, _, hb, _ => by omega
  | _ + 1, 0, _, _, _, _, hb' => by omega
  | b + 1, b' + 1, floor, s, hs, hb, hb' => by
    rw [binary, binary]
    refine alike_bind (onward_unary b) (alike_unary b b' s hs (by omega) (by omega)) ?_
    intro left s' _ hm
    have hlen := hm.rest.length_le
    exact alike_binaryRest b b' floor left s' (ended_of_moves hs hm) (by omega) (by omega)

/-- The loop of a level, with the left operand that both runs have read. -/
theorem alike_binaryRest : ∀ (b b' floor : Nat) (left : Expr) (s : State), Ended s →
    5 * s.rest.length + 1 ≤ b → 5 * s.rest.length + 1 ≤ b' →
    Alike n (exec (binaryRest b floor left) s) (exec (binaryRest b' floor left) (s.fund n))
  | 0, _, _, _, _, _, hb, _ => by omega
  | _ + 1, 0, _, _, _, _, _, hb' => by omega
  | b + 1, b' + 1, floor, left, s, hs, hb, hb' => by
    rw [binaryRest, binaryRest]
    refine alike_current_bind ?_
    split
    · rename_i op level hop
      split
      · have hs' : Ended s.advance := hs
        have htake : s.advance.rest.length < s.rest.length :=
          takes_advance hs (ne_eof_of_binary? hop)
        refine alike_advance_bind (alike_bind (onward_binary b level)
          (alike_binary b b' level s.advance hs' (by omega) (by omega)) ?_)
        intro right s' _ hm
        have hlen := hm.rest.length_le
        exact alike_binaryRest b b' floor _ s' (ended_of_moves hs' hm) (by omega) (by omega)
      · rfl
    · rfl

theorem alike_unary : ∀ (b b' : Nat) (s : State), Ended s →
    5 * s.rest.length + 3 ≤ b → 5 * s.rest.length + 3 ≤ b' →
    Alike n (exec (unary b) s) (exec (unary b') (s.fund n))
  | 0, _, _, _, hb, _ => by omega
  | _ + 1, 0, _, _, _, hb' => by omega
  | b + 1, b' + 1, s, hs, hb, hb' => by
    rw [unary, unary]
    refine alike_current_bind ?_
    split
    · rename_i op hop
      have htake : s.advance.rest.length < s.rest.length :=
        takes_advance hs (ne_eof_of_unary? hop)
      exact alike_advance_bind (alike_bind (onward_unary b)
        (alike_unary b b' s.advance hs (by omega) (by omega)) fun _ _ _ _ => rfl)
    · exact alike_power b b' s hs (by omega) (by omega)

theorem alike_power : ∀ (b b' : Nat) (s : State), Ended s →
    5 * s.rest.length + 2 ≤ b → 5 * s.rest.length + 2 ≤ b' →
    Alike n (exec (power b) s) (exec (power b') (s.fund n))
  | 0, _, _, _, hb, _ => by omega
  | _ + 1, 0, _, _, _, hb' => by omega
  | b + 1, b' + 1, s, hs, hb, hb' => by
    rw [power, power]
    refine alike_bind (onward_primary b) (alike_primary b b' s hs (by omega) (by omega)) ?_
    intro base s' _ hm
    have hs' := ended_of_moves hs hm
    have hlen := hm.rest.length_le
    refine alike_current_bind ?_
    split
    · rename_i hk
      have htake : s'.advance.rest.length < s'.rest.length :=
        takes_advance hs' (by rw [hk]; simp)
      exact alike_advance_bind (alike_bind (onward_unary b)
        (alike_unary b b' s'.advance hs' (by omega) (by omega)) fun _ _ _ _ => rfl)
    · rfl

/-- Operands without operators. A call, a constructor and parentheses take a token before they go
down again. -/
theorem alike_primary : ∀ (b b' : Nat) (s : State), Ended s →
    5 * s.rest.length + 1 ≤ b → 5 * s.rest.length + 1 ≤ b' →
    Alike n (exec (primary b) s) (exec (primary b') (s.fund n))
  | 0, _, _, _, hb, _ => by omega
  | _ + 1, 0, _, _, _, hb' => by omega
  | b + 1, b' + 1, s, hs, hb, hb' => by
    -- behind any token but the end, there is budget for arguments and for an expression
    have htake : s.current.kind ≠ .eof → s.advance.rest.length < s.rest.length := takes_advance hs
    have hargs : s.current.kind ≠ .eof →
        Alike n (exec (arguments b) s.advance) (exec (arguments b') (s.advance.fund n)) :=
      fun hk => alike_arguments b b' s.advance hs (by have := htake hk; omega)
        (by have := htake hk; omega)
    rw [primary, primary]
    refine alike_current_bind ?_
    split
    · split <;> rfl
    · split <;> rfl
    · rfl
    · rfl
    · rename_i hk
      show Alike n (exec (if s.peek.kind = .lparen then _ else _) s)
        (exec (if s.peek.kind = .lparen then _ else _) (s.fund n))
      split
      · exact alike_advance_bind (alike_bind (onward_arguments b) (hargs (by rw [hk]; simp))
          fun _ _ _ _ => rfl)
      · exact alike_bind onward_variableRef (alike_variableRef s) fun _ _ _ _ => rfl
    · rename_i hk
      have hlen := htake (by rw [hk]; simp)
      exact alike_advance_bind (alike_bind (onward_binary b 0)
        (alike_binary b b' 0 s.advance hs (by omega) (by omega))
        fun e s' _ _ => alike_expect_pure _ e s')
    · split
      · rename_i htype
        exact alike_advance_bind (alike_bind (onward_arguments b) (hargs (ne_eof_of_type? htype))
          fun _ _ _ _ => rfl)
      · rfl

theorem alike_arguments : ∀ (b b' : Nat) (s : State), Ended s →
    5 * s.rest.length + 1 ≤ b → 5 * s.rest.length + 1 ≤ b' →
    Alike n (exec (arguments b) s) (exec (arguments b') (s.fund n))
  | 0, _, _, _, hb, _ => by omega
  | _ + 1, 0, _, _, _, hb' => by omega
  | b + 1, b' + 1, s, hs, hb, hb' => by
    rw [arguments, arguments]
    refine alike_expect_bind hs (by simp) ?_
    intro s' hm htake
    have hs' := ended_of_moves hs hm
    have htake : s'.rest.length < s.rest.length := htake
    refine alike_kind_bind ?_
    split
    · rfl
    · exact alike_bind (onward_argumentList b)
        (alike_argumentList b b' s' hs' (by omega) (by omega))
        fun args s'' _ _ => alike_expect_pure _ args s''

theorem alike_argumentList : ∀ (b b' : Nat) (s : State), Ended s →
    5 * s.rest.length + 5 ≤ b → 5 * s.rest.length + 5 ≤ b' →
    Alike n (exec (argumentList b) s) (exec (argumentList b') (s.fund n))
  | 0, _, _, _, hb, _ => by omega
  | _ + 1, 0, _, _, _, hb' => by omega
  | b + 1, b' + 1, s, hs, hb, hb' => by
    rw [argumentList, argumentList]
    refine alike_bind (onward_binary b 0) (alike_binary b b' 0 s hs (by omega) (by omega)) ?_
    intro arg s' _ hm
    have hs' := ended_of_moves hs hm
    have hlen := hm.rest.length_le
    refine alike_kind_bind ?_
    split
    · rename_i hk
      have htake : s'.advance.rest.length < s'.rest.length :=
        takes_advance hs' (by rw [hk]; simp)
      exact alike_advance_bind (alike_bind (onward_argumentList b)
        (alike_argumentList b b' s'.advance hs' (by omega) (by omega)) fun _ _ _ _ => rfl)
    · rfl

end

/-- A state from which both budgets, its own and `n`, cover all tokens left. -/
structure Backed (n : Nat) (s : State) : Prop where
  ended : Ended s
  own : Funded s
  other : Funded (s.fund n)

/-- Budgets that cover some tokens cover those that are left of them. -/
theorem Backed.moves (h : Backed n s) (hm : Moves s s') : Backed n s' := by
  have hlen := hm.rest.length_le
  refine ⟨ended_of_moves h.ended hm, ?_, ?_⟩
  · have hown : 5 * s.rest.length + 4 ≤ s.budget := h.own
    rw [Funded, hm.budget]
    omega
  · have hother : 5 * s.rest.length + 4 ≤ n := h.other
    show 5 * s'.rest.length + 4 ≤ n
    omega

/-- An expression, with the budget of the state. -/
theorem alike_expression (h : Backed n s) :
    Alike n (exec expression s) (exec expression (s.fund n)) :=
  alike_binary s.budget n 0 s h.ended h.own h.other

theorem alike_declarator (h : Backed n s) (pos : Pos) (isConst : Bool) (type : Ty) :
    Alike n (exec (declarator pos isConst type) s)
      (exec (declarator pos isConst type) (s.fund n)) := by
  refine alike_current_bind ?_
  split
  · refine alike_advance_bind (alike_kind_bind ?_)
    split
    · have hexpr := alike_expression ((h.moves (moves_advance s)).moves
        ((moves_advance s.advance)))
      rw [map_eq_pure_bind]
      refine alike_advance_bind (alike_bind
        (onward_bind onward_expression fun _ => onward_pure _)
        (alike_bind onward_expression hexpr fun _ _ _ _ => rfl) ?_)
      intro init s' _ _
      exact alike_expect_pure _ _ s'
    · exact alike_expect_pure _ _ _
  · rfl

theorem alike_declarationFrom (h : Backed n s) (pos : Pos) (isConst : Bool) :
    Alike n (exec (declarationFrom pos isConst) s)
      (exec (declarationFrom pos isConst) (s.fund n)) := by
  refine alike_kind_bind ?_
  split
  · rfl
  · exact alike_advance_bind (alike_declarator (h.moves (moves_advance s)) pos isConst _)

theorem alike_declaration (h : Backed n s) :
    Alike n (exec declaration s) (exec declaration (s.fund n)) := by
  rw [exec_declaration, exec_declaration, State.current_fund]
  split
  · exact alike_declarationFrom (h.moves (moves_advance s)) _ _
  · exact alike_declarationFrom h _ _

/-- Recovery does not look at the budget. -/
theorem alike_recover (s : State) :
    Alike n (StateT.run recover s) (StateT.run recover (s.fund n)) := by
  refine Prod.ext rfl ?_
  show (StateT.run recover (s.fund n)).2 = (StateT.run recover s).2.fund n
  rw [run_recover, run_recover, State.rest_fund]
  show (if (s.seek _).current.kind = .semicolon then _ else _) = _
  dsimp only
  split <;> rfl

/-- So two runs that agree also agree behind it. -/
theorem alike_recovering {p p' : Parser α} (h : Alike n (exec p s) (exec p' (s.fund n))) :
    Alike n (StateT.run (recovering p) s) (StateT.run (recovering p') (s.fund n)) := by
  rw [run_recovering, run_recovering, h]
  dsimp only
  split
  · rw [alike_recover]
    rfl
  · rfl

/-- The loop over declarations: each round takes a token, so both budgets cover the next round. -/
theorem alike_declarations : ∀ (b b' : Nat) (s : State), Backed n s → s.rest.length < b →
    s.rest.length < b' →
    Alike n (StateT.run (declarations b) s) (StateT.run (declarations b') (s.fund n))
  | 0, _, _, _, hb, _ => by omega
  | _ + 1, 0, _, _, _, hb' => by omega
  | b + 1, b' + 1, s, h, hb, hb' => by
    rw [run_declarations, run_declarations, State.current_fund]
    split
    · rename_i hk
      have hfirst := alike_recovering (alike_declaration h)
      have htake : (StateT.run (recovering declaration) s).2.rest.length < s.rest.length :=
        takes_recovering_declaration h.ended hk
      have hothers := alike_declarations b b' (StateT.run (recovering declaration) s).2
        (h.moves (onward_recovering onward_declaration s)) (by omega) (by omega)
      rw [hfirst]
      dsimp only
      rw [hothers]
      rfl
    · rfl

theorem alike_assignment (h : Backed n s) :
    Alike n (exec assignment s) (exec assignment (s.fund n)) := by
  refine alike_bind onward_variableRef (alike_variableRef s) ?_
  intro target s' _ hm
  refine alike_bind (onward_expect _) (alike_expect _ s') ?_
  intro _ s'' _ hm'
  exact alike_bind onward_expression (alike_expression (h.moves (hm.trans hm')))
    fun _ _ _ _ => rfl

theorem alike_condition (h : Backed n s) :
    Alike n (exec condition s) (exec condition (s.fund n)) := by
  refine alike_bind (onward_expect _) (alike_expect _ s) ?_
  intro _ s' _ hm
  exact alike_bind onward_expression (alike_expression (h.moves hm))
    fun cond s'' _ _ => alike_expect_pure _ cond s''

/-- An attempt that fails in one run fails in the other, at the same token. -/
theorem alike_attempt_bind {p p' : Parser α} {f f' : Option α → Parser β}
    (hp : Alike n (exec p s) (exec p' (s.fund n)))
    (hf : Alike n (exec (f (exec p s).1) (exec p s).2)
      (exec (f' (exec p s).1) ((exec p s).2.fund n))) :
    Alike n (exec (attempt p >>= f) s) (exec (attempt p' >>= f') (s.fund n)) := by
  rw [exec_attempt_bind, exec_attempt_bind, hp]
  exact hf

/-- Behind the word `if`, given that a statement there does not depend on the budget. -/
theorem alike_branchFrom {b b' : Nat} (h : Backed n s)
    (hstmt : ∀ s', Moves s s' → Alike n (exec (statement b) s') (exec (statement b') (s'.fund n))) :
    Alike n (exec (branchFrom b) s) (exec (branchFrom b') (s.fund n)) := by
  refine alike_bind onward_condition (alike_condition h) ?_
  intro cond s' _ hm
  have hm' := hm.trans (onward_statement b s')
  refine alike_attempt_bind (hstmt s' hm) (alike_kind_bind ?_)
  dsimp only
  split
  · exact alike_advance_bind (alike_attempt_bind (hstmt _ hm'.advance) rfl)
  · rfl

theorem alike_loopFrom {b b' : Nat} (pos : Pos) (h : Backed n s)
    (hstmt : ∀ s', Moves s s' → Alike n (exec (statement b) s') (exec (statement b') (s'.fund n))) :
    Alike n (exec (loopFrom pos b) s) (exec (loopFrom pos b') (s.fund n)) := by
  refine alike_bind onward_condition (alike_condition h) ?_
  intro cond s' _ hm
  exact alike_attempt_bind (hstmt s' hm) rfl

mutual

/-- **Two budgets that cover the tokens left give the same statement.** A statement may go down
through a block to the next statement, which costs three and takes a token. -/
theorem alike_statement : ∀ (b b' : Nat) (s : State), Backed n s → 3 * s.rest.length + 2 ≤ b →
    3 * s.rest.length + 2 ≤ b' →
    Alike n (exec (statement b) s) (exec (statement b') (s.fund n))
  | 0, _, _, _, hb, _ => by omega
  | _ + 1, 0, _, _, _, hb' => by omega
  | b + 1, b' + 1, s, h, hb, hb' => by
    have hinner : s.current.kind ≠ .eof → ∀ s', Moves s.advance s' →
        Alike n (exec (statement b) s') (exec (statement b') (s'.fund n)) := by
      intro hk s' hm
      have htake : s'.rest.length < s.rest.length := (takes_advance h.ended hk).moves hm
      exact alike_statement b b' s' (h.moves ((moves_advance s).trans hm)) (by omega) (by omega)
    rw [exec_statement_eq, exec_statement_eq, State.current_fund]
    split
    · rw [alike_recovering (alike_assignment h)]
      dsimp only
      split
      · exact alike_expect_pure _ _ _
      · rfl
    · rename_i hk
      exact alike_branchFrom (h.moves (moves_advance s)) (hinner (by rw [hk]; simp))
    · rename_i hk
      exact alike_loopFrom _ (h.moves (moves_advance s)) (hinner (by rw [hk]; simp))
    · rename_i hk
      rw [alike_scope b b' s h (by rw [hk]; simp) (by omega) (by omega)]
      rfl
    · rfl
    · rfl

/-- The loop over statements, with the round in which a late declaration is skipped. -/
theorem alike_statements : ∀ (b b' : Nat) (s : State), Backed n s → 3 * s.rest.length + 3 ≤ b →
    3 * s.rest.length + 3 ≤ b' →
    Alike n (StateT.run (statements b) s) (StateT.run (statements b') (s.fund n))
  | 0, _, _, _, hb, _ => by omega
  | _ + 1, 0, _, _, _, hb' => by omega
  | b + 1, b' + 1, s, h, hb, hb' => by
    rw [run_statements, run_statements, State.current_fund]
    split
    · rfl
    · rename_i hk
      split
      · rename_i hdecl
        have hreport := moves_report s .lateDeclaration
        have htake : (StateT.run recover (s.report .lateDeclaration)).2.rest.length <
            s.rest.length := takes_recover (s := s.report .lateDeclaration) h.ended hdecl
        have hrecover := alike_recover (n := n) (s.report .lateDeclaration)
        have hothers := alike_statements b b' _
          (h.moves (hreport.trans (onward_recover _))) (by omega) (by omega)
        rw [State.report_fund, hrecover]
        exact hothers
      · obtain ⟨c, rfl⟩ : ∃ c, b = c + 2 := ⟨b - 2, by omega⟩
        have hfirst := alike_statement (c + 2) b' s h (by omega) (by omega)
        have htake : (exec (statement (c + 2)) s).2.rest.length < s.rest.length :=
          takes_statement h.ended (fun heof => hk (.inr heof)) c
        have hothers := alike_statements (c + 2) b' (exec (statement (c + 2)) s).2
          (h.moves (onward_statement _ s)) (by omega) (by omega)
        rw [hfirst]
        dsimp only
        rw [hothers]
        rfl

/-- A block. Its brace has paid for the levels down to its statements. -/
theorem alike_scope : ∀ (b b' : Nat) (s : State), Backed n s → s.current.kind ≠ .eof →
    3 * s.rest.length + 1 ≤ b → 3 * s.rest.length + 1 ≤ b' →
    Alike n (StateT.run (scope b) s) (StateT.run (scope b') (s.fund n))
  | 0, _, _, _, _, hb, _ => by omega
  | _ + 1, 0, _, _, _, _, hb' => by omega
  | b + 1, b' + 1, s, h, hk, hb, hb' => by
    have hown : 5 * s.rest.length + 4 ≤ s.budget := h.own
    have hother : 5 * s.rest.length + 4 ≤ n := h.other
    have htake : s.advance.rest.length < s.rest.length := takes_advance h.ended hk
    have hback := h.moves (moves_advance s)
    have hm := onward_declarations s.budget s.advance
    have hlen := hm.rest.length_le
    have hdecls := alike_declarations s.budget n s.advance hback (by omega) (by omega)
    have hstmts := alike_statements b b' (StateT.run (declarations s.budget) s.advance).2
      (hback.moves hm) (by omega) (by omega)
    rw [run_scope, run_scope, State.advance_fund, State.budget_fund, hdecls]
    dsimp only
    rw [hstmts, alike_expect]
    rfl

end

theorem alike_program (h : Backed n s) :
    Alike n (StateT.run program s) (StateT.run program (s.fund n)) := by
  have hown : 5 * s.rest.length + 4 ≤ s.budget := h.own
  have hother : 5 * s.rest.length + 4 ≤ n := h.other
  rw [run_program, run_program, State.current_fund]
  split
  · rename_i hk
    rw [State.budget_fund, alike_scope s.budget n s h (by rw [hk]; simp) (by omega) (by omega)]
    dsimp only
    rw [State.current_fund]
    split <;> rfl
  · rfl

end Alike

/-! ## Every text is read to its end -/

/-- What reading does at a state: no round of a loop, no statement and no declaration leaves the
token it starts with, and recovery stays only where a block or the text ends. -/
structure Progress (s : State) : Prop where
  declaration : startsDecl s.current.kind = true → Takes s (exec declaration s).2
  /-- A round of the loop over declarations. -/
  declarations : startsDecl s.current.kind = true →
    Takes s (StateT.run (recovering Parser.declaration) s).2
  statement : s.current.kind = .eof ∨ ∀ b ≥ 2, Takes s (exec (statement b) s).2
  /-- A declaration met by the loop over statements; all else is a statement there. -/
  lateDeclaration : startsDecl s.current.kind = true →
    Takes s (StateT.run recover (s.report .lateDeclaration)).2
  recover : Takes s (StateT.run recover s).2 ∨
    (StateT.run Parser.recover s).2.current.kind = .rbrace ∨
    (StateT.run Parser.recover s).2.current.kind = .eof

/-- **At every state of a text reading makes progress.** -/
theorem progress_of_ended (hs : Ended s) : Progress s where
  declaration := takes_declaration hs
  declarations := takes_recovering_declaration hs
  statement := by
    by_cases hk : s.current.kind = .eof
    · exact .inl hk
    · refine .inr fun b hb => ?_
      obtain ⟨c, rfl⟩ : ∃ c, b = c + 2 := ⟨b - 2, by omega⟩
      exact takes_statement hs hk c
  lateDeclaration h := takes_recover (s := s.report .lateDeclaration) hs h
  recover := recover_progress hs

end Parser

open Shader.Parser

/-- **The parser makes progress on every text, and ends**: at each state that reading can come to, a
token is taken or a block or the text ends; the outcome is the same for any budget that covers the
tokens; and the tree has no gaps, whatever errors were met. -/
theorem parse_progress (source : Bytes) :
    (∀ s, Moves (start source) s → Progress s) ∧
    (∀ budget ≥ 5 * (scan source).1.length + 4,
      let run := StateT.run program { rest := (scan source).1, last := (scan source).2, budget }
      parse source = ⟨run.1, run.2.errors⟩) ∧
    (Program.ofAst (parse source).body).Intact := by
  refine ⟨fun s hm => progress_of_ended (ended_of_moves (ended_start source) hm), ?_,
    Checker.intact_ofAst (namedStmt_parse source)⟩
  intro budget hbudget
  have h : Alike budget (StateT.run program (start source))
      (StateT.run program ((start source).fund budget)) :=
    alike_program ⟨ended_start source, funded_start source, hbudget⟩
  have hrun :
      StateT.run program { rest := (scan source).1, last := (scan source).2, budget } = _ := h
  rw [hrun, parse_eq]
  rfl

end Shader
