import Shader.Proofs.ParserSound

/-!
# What is in the grammar, the parser reads

A derivation tells the parser what to do: from the tokens of the derivation and anything that may
follow, the parser of the same level reads exactly those tokens, with the tree of the derivation and
without an error.

The left-associative levels need a statement about the loop and not about its result. A derivation
of level `n` says that the loop of any looser level, started in front of it, comes to stand behind
it with its tree as left operand (`ReadsLoop`). What the loop does next depends on the token there.

Integer literals are the one place where tokens have to come from a text: a token of that kind must
consist of digits.
-/

namespace Shader.Grammar

open Ast

/-- An integer token consists of digits. -/
def Numeral (t : Token) : Prop :=
  t.kind = .int → t.literal ≠ [] ∧ t.literal.all Text.isDigit = true

/-- An integer of the grammar can be read, if its token consists of digits. -/
theorem IntegerOf.read {t : Token} {n : Nat} (h : IntegerOf t n) (ht : Numeral t) :
    Number.readInteger? t.literal = some n := by
  obtain ⟨hk, hn, hle⟩ := h
  obtain ⟨hne, hall⟩ := ht hk
  unfold Number.readInteger?
  rw [if_pos ⟨hne, hall, by rw [← hn]; exact hle⟩, hn]

/-- An operator between operands ends each of the tighter levels. -/
theorem OperatorAt.ne_lparen {n : Nat} {k : Kind} {op : BinaryOp} (h : OperatorAt n k op) :
    k ≠ .lparen ∧ k ≠ .lbracket ∧ k ≠ .caret := by
  cases h <;> simp

/-- What stands by itself does not start with an operator. -/
theorem ExprOf.head_primary {ts : List Token} {e : Expr} (h : ExprOf 8 ts e) :
    ∃ t us, ts = t :: us ∧ t.kind.unary? = none := by
  cases h with
  | binary hop _ _ => exact absurd hop.le_five (by omega)
  | tighter hn _ => omega
  | int hi => exact ⟨_, _, rfl, by rw [hi.1]; rfl⟩
  | float hk _ => exact ⟨_, _, rfl, by rw [hk]; rfl⟩
  | «true» hk => exact ⟨_, _, rfl, by rw [hk]; rfl⟩
  | «false» hk => exact ⟨_, _, rfl, by rw [hk]; rfl⟩
  | var hv =>
    cases hv with
    | plain hk => exact ⟨_, _, rfl, by rw [hk]; rfl⟩
    | indexed hk _ _ _ => exact ⟨_, _, rfl, by rw [hk]; rfl⟩
  | call hk _ => exact ⟨_, _, rfl, by rw [hk]; rfl⟩
  | @construct t _ _ _ ht _ =>
    refine ⟨_, _, rfl, ?_⟩
    cases hk : t.kind <;> rw [hk] at ht <;> simp [Kind.type?] at ht <;> rfl
  | parens hk _ _ => exact ⟨_, _, rfl, by rw [hk]; rfl⟩

theorem ExprOf.head_power {ts : List Token} {e : Expr} (h : ExprOf 7 ts e) :
    ∃ t us, ts = t :: us ∧ t.kind.unary? = none := by
  cases h with
  | binary hop _ _ => exact absurd hop.le_five (by omega)
  | tighter _ h => exact h.head_primary
  | power _ hb _ =>
    obtain ⟨t, us, rfl, ht⟩ := hb.head_primary
    exact ⟨t, _, rfl, ht⟩

/-- No expression begins with a closing parenthesis, so one that follows the opening one means that
there are no arguments. -/
theorem ExprOf.head_ne_rparen {n : Nat} {ts : List Token} {e : Expr} :
    ExprOf n ts e → ∃ t us, ts = t :: us ∧ t.kind ≠ .rparen
  | .binary _ hl _ => by
    obtain ⟨t, us, rfl, ht⟩ := hl.head_ne_rparen
    exact ⟨t, _, rfl, ht⟩
  | .tighter _ h => h.head_ne_rparen
  | .unary hk _ => ⟨_, _, rfl, fun he => by rw [he] at hk; cases hk⟩
  | .power _ hb _ => by
    obtain ⟨t, us, rfl, ht⟩ := hb.head_ne_rparen
    exact ⟨t, _, rfl, ht⟩
  | .int hi => ⟨_, _, rfl, by rw [hi.1]; simp⟩
  | .float hk _ => ⟨_, _, rfl, by rw [hk]; simp⟩
  | .true hk => ⟨_, _, rfl, by rw [hk]; simp⟩
  | .false hk => ⟨_, _, rfl, by rw [hk]; simp⟩
  | .var hv => by
    cases hv with
    | plain hk => exact ⟨_, _, rfl, by rw [hk]; simp⟩
    | indexed hk _ _ _ => exact ⟨_, _, rfl, by rw [hk]; simp⟩
  | .call hk _ => ⟨_, _, rfl, by rw [hk]; simp⟩
  | .construct ht _ => ⟨_, _, rfl, fun he => by rw [he] at ht; simp [Kind.type?] at ht⟩
  | .parens hk _ _ => ⟨_, _, rfl, by rw [hk]; simp⟩

theorem ListOf.head_ne_rparen {ts : List Token} {es : List Expr} (h : ListOf ts es) :
    ∃ t us, ts = t :: us ∧ t.kind ≠ .rparen := by
  cases h with
  | one he => exact he.head_ne_rparen
  | more he _ _ =>
    obtain ⟨t, us, rfl, ht⟩ := he.head_ne_rparen
    exact ⟨t, _, rfl, ht⟩

end Shader.Grammar

namespace Shader.Parser

open Ast Grammar

/-! ## Variables -/

/-- A variable of the grammar is read, if no bracket follows that would make an index of it. -/
theorem exec_variableRef {ts : List Token} {v : Var} (h : VarOf ts v)
    (hn : ∀ t ∈ ts, Numeral t) (s : State) (rest : List Token)
    (hnext : (s.seek rest).current.kind ≠ .lbracket) :
    exec variableRef (s.seek (ts ++ rest)) = (some v, s.seek rest) := by
  cases h with
  | @plain x hx =>
    unfold variableRef
    rw [List.singleton_append, exec_current_bind, State.current_seek_cons, exec_advance_bind,
      State.advance_seek_cons, exec_kind_bind, if_neg hnext]
    rfl
  | @indexed x l i r n hx hl hi hr =>
    have hread := hi.read (hn i (by simp))
    unfold variableRef
    rw [List.cons_append, exec_current_bind, State.current_seek_cons, exec_advance_bind,
      State.advance_seek_cons, exec_kind_bind, List.cons_append, State.current_seek_cons,
      if_pos hl, exec_advance_bind, State.advance_seek_cons, exec_current_bind, List.cons_append,
      State.current_seek_cons, if_pos hi.1, hread]
    dsimp only
    rw [exec_advance_bind, State.advance_seek_cons, List.singleton_append,
      exec_bind_some (exec_expect_cons hr _ _)]
    rfl

/-! ## Expressions, level by level -/

/-- The parser of what stands by itself reads `ts` as `e`, if neither a parenthesis nor a bracket
follows. -/
def ReadsPrimary (ts : List Token) (e : Expr) : Prop :=
  ∀ (s : State) (rest : List Token) (b : Nat), 5 * ts.length + 1 ≤ b →
    (s.seek rest).current.kind ≠ .lparen → (s.seek rest).current.kind ≠ .lbracket →
    exec (primary b) (s.seek (ts ++ rest)) = (some e, s.seek rest)

/-- The parser of powers reads `ts` as `e`, if no power follows either. -/
def ReadsPower (ts : List Token) (e : Expr) : Prop :=
  ∀ (s : State) (rest : List Token) (b : Nat), 5 * ts.length + 2 ≤ b →
    (s.seek rest).current.kind ≠ .lparen → (s.seek rest).current.kind ≠ .lbracket →
    (s.seek rest).current.kind ≠ .caret →
    exec (power b) (s.seek (ts ++ rest)) = (some e, s.seek rest)

/-- The parser of operands with operators before them reads `ts` as `e`. -/
def ReadsUnary (ts : List Token) (e : Expr) : Prop :=
  ∀ (s : State) (rest : List Token) (b : Nat), 5 * ts.length + 3 ≤ b →
    (s.seek rest).current.kind ≠ .lparen → (s.seek rest).current.kind ≠ .lbracket →
    (s.seek rest).current.kind ≠ .caret →
    exec (unary b) (s.seek (ts ++ rest)) = (some e, s.seek rest)

/-- The loop of each level looser than `n` goes over `ts` and stands behind it with `e` as its left
operand, if no operator tighter than `n` follows. -/
def ReadsLoop (n : Nat) (ts : List Token) (e : Expr) : Prop :=
  ∀ (s : State) (rest : List Token) (b floor : Nat), 5 * ts.length + 4 ≤ b → floor < n →
    (s.seek rest).current.kind ≠ .lparen → (s.seek rest).current.kind ≠ .lbracket →
    (s.seek rest).current.kind ≠ .caret → Fence n (s.seek rest) →
    ∃ b', b ≤ b' + ts.length ∧
      exec (binary b floor) (s.seek (ts ++ rest)) = exec (binaryRest b' floor e) (s.seek rest)

/-- The parser of arguments reads `ts` as `args`. -/
def ReadsArgs (ts : List Token) (args : List Expr) : Prop :=
  ∀ (s : State) (rest : List Token) (b : Nat), 5 * ts.length + 1 ≤ b →
    exec (arguments b) (s.seek (ts ++ rest)) = (some args, s.seek rest)

/-- The parser of a list reads `ts` as `args`, if the closing parenthesis follows. -/
def ReadsList (ts : List Token) (args : List Expr) : Prop :=
  ∀ (s : State) (rest : List Token) (b : Nat), 5 * ts.length + 5 ≤ b →
    (s.seek rest).current.kind = .rparen →
    exec (argumentList b) (s.seek (ts ++ rest)) = (some args, s.seek rest)

/-- The loop stops where no operator of its level follows. -/
theorem exec_binaryRest_stop {b floor : Nat} {s : State} (hb : 0 < b) (h : Fence floor s)
    (e : Expr) : exec (binaryRest b floor e) s = (some e, s) := by
  cases b with
  | zero => omega
  | succ b =>
    rw [binaryRest, exec_current_bind]
    split
    · rename_i op level hop
      have := h level op (operatorAt_iff.mp hop)
      rw [if_neg (by omega)]
      rfl
    · rfl

/-- A loop that goes over an expression reads it, if nothing of its level follows. -/
theorem ReadsLoop.exec_binary {n floor b : Nat} {ts : List Token} {e : Expr}
    (h : ReadsLoop n ts e) (s : State) (rest : List Token) (hb : 5 * ts.length + 4 ≤ b)
    (hfloor : floor < n) (h₁ : (s.seek rest).current.kind ≠ .lparen)
    (h₂ : (s.seek rest).current.kind ≠ .lbracket) (h₃ : (s.seek rest).current.kind ≠ .caret)
    (hf : Fence floor (s.seek rest)) :
    exec (binary b floor) (s.seek (ts ++ rest)) = (some e, s.seek rest) := by
  obtain ⟨b', hb', heq⟩ := h s rest b floor hb hfloor h₁ h₂ h₃
    fun m op hop => Nat.le_trans (hf m op hop) (Nat.le_of_lt hfloor)
  rw [heq, exec_binaryRest_stop (by omega) hf]

theorem readsPower_of_primary {ts : List Token} {e : Expr} (h : ReadsPrimary ts e) :
    ReadsPower ts e := by
  intro s rest b hb h₁ h₂ h₃
  cases b with
  | zero => omega
  | succ b =>
    rw [power, exec_bind_some (h s rest b (by omega) h₁ h₂), exec_current_bind, if_neg h₃]
    rfl

/-- A power: the exponent is read with the operators in front of it. -/
theorem readsPower_power {t : Token} {ts us : List Token} {l r : Expr} (ht : t.kind = .caret)
    (hl : ReadsPrimary ts l) (hr : ReadsUnary us r) :
    ReadsPower (ts ++ t :: us) (.binary t.pos .pow l r) := by
  intro s rest b hb h₁ h₂ h₃
  rw [List.length_append, List.length_cons] at hb
  cases b with
  | zero => omega
  | succ b =>
    have hbase := hl s (t :: (us ++ rest)) b (by omega)
      (by rw [State.current_seek_cons, ht]; simp) (by rw [State.current_seek_cons, ht]; simp)
    rw [power, List.append_assoc, List.cons_append, exec_bind_some hbase, exec_current_bind,
      State.current_seek_cons, if_pos ht, exec_advance_bind, State.advance_seek_cons,
      exec_bind_some (hr s rest b (by omega) h₁ h₂ h₃)]
    rfl

theorem readsUnary_of_power {ts : List Token} {e : Expr} (h : ReadsPower ts e)
    (hts : ∃ t us, ts = t :: us ∧ t.kind.unary? = none) : ReadsUnary ts e := by
  intro s rest b hb h₁ h₂ h₃
  obtain ⟨t, us, rfl, ht⟩ := hts
  cases b with
  | zero => omega
  | succ b =>
    rw [unary, exec_current_bind, List.cons_append, State.current_seek_cons, ht,
      ← List.cons_append]
    exact h s rest b (by omega) h₁ h₂ h₃

/-- An operator in front of an operand takes all that the operand takes. -/
theorem readsUnary_unary {t : Token} {op : UnaryOp} {ts : List Token} {e : Expr}
    (ht : OperatorBefore t.kind op) (h : ReadsUnary ts e) :
    ReadsUnary (t :: ts) (.unary t.pos op e) := by
  intro s rest b hb h₁ h₂ h₃
  rw [List.length_cons] at hb
  cases b with
  | zero => omega
  | succ b =>
    rw [unary, exec_current_bind, List.cons_append, State.current_seek_cons,
      operatorBefore_iff.mpr ht]
    dsimp only
    rw [exec_advance_bind, State.advance_seek_cons,
      exec_bind_some (h s rest b (by omega) h₁ h₂ h₃)]
    rfl

/-- The loop of any level begins with an operand of the tightest one. -/
theorem readsLoop_of_unary {ts : List Token} {e : Expr} (h : ReadsUnary ts e)
    (hts : ts ≠ []) : ReadsLoop 6 ts e := by
  intro s rest b floor hb _ h₁ h₂ h₃ _
  have hpos := List.length_pos_iff.mpr hts
  cases b with
  | zero => omega
  | succ b =>
    refine ⟨b, by omega, ?_⟩
    rw [binary, exec_bind_some (h s rest b (by omega) h₁ h₂ h₃)]

/-- What is read by the loops of all levels looser than `n + 1` is read by those looser than `n`. -/
theorem ReadsLoop.loosen {n : Nat} {ts : List Token} {e : Expr} (h : ReadsLoop (n + 1) ts e) :
    ReadsLoop n ts e := by
  intro s rest b floor hb hfloor h₁ h₂ h₃ hf
  exact h s rest b floor hb (by omega) h₁ h₂ h₃ fun m op hop => Nat.le_succ_of_le (hf m op hop)

/-- **An operator between operands.** The loop comes to stand behind the left operand, with that as
its own. It then takes the operator, since its level is above the floor, and reads the right operand
with the loop of the operator's level. What is left of the budget is enough, as every token has paid
for its round. -/
theorem readsLoop_binary {n : Nat} {t : Token} {op : BinaryOp} {ts us : List Token} {l r : Expr}
    (ht : OperatorAt n t.kind op) (hl : ReadsLoop n ts l) (hr : ReadsLoop (n + 1) us r) :
    ReadsLoop n (ts ++ t :: us) (.binary t.pos op l r) := by
  intro s rest b floor hb hfloor h₁ h₂ h₃ hf
  rw [List.length_append, List.length_cons] at hb
  obtain ⟨k₁, k₂, k₃⟩ := ht.ne_lparen
  obtain ⟨b₁, hb₁, heq⟩ := hl s (t :: (us ++ rest)) b floor (by omega) hfloor k₁ k₂ k₃ (by
    intro m op' hop
    rw [State.current_seek_cons] at hop
    have h := (operatorAt_iff.mpr hop).symm.trans (operatorAt_iff.mpr ht)
    injection h with h
    injection h with _ h
    omega)
  cases b₁ with
  | zero => omega
  | succ b₁ =>
    refine ⟨b₁, by rw [List.length_append, List.length_cons]; omega, ?_⟩
    have hright := hr.exec_binary (b := b₁) s rest (by omega) (Nat.lt_succ_self n) h₁ h₂ h₃ hf
    rw [List.append_assoc, List.cons_append, heq, binaryRest, exec_current_bind,
      State.current_seek_cons, operatorAt_iff.mpr ht]
    dsimp only
    rw [if_pos hfloor, exec_advance_bind, State.advance_seek_cons, exec_bind_some hright]

theorem readsPrimary_int {t : Token} {n : Nat} (h : IntegerOf t n) (ht : Numeral t) :
    ReadsPrimary [t] (.int t.pos n) := by
  intro s rest b hb _ _
  cases b with
  | zero => omega
  | succ b =>
    rw [primary, exec_current_bind, List.singleton_append, State.current_seek_cons, h.1]
    dsimp only
    rw [h.read ht]
    rfl

theorem readsPrimary_float {t : Token} {x : Float} (h : t.kind = .float)
    (hx : Number.readFloat? t.literal = some x) : ReadsPrimary [t] (.float t.pos x) := by
  intro s rest b hb _ _
  cases b with
  | zero => omega
  | succ b =>
    rw [primary, exec_current_bind, List.singleton_append, State.current_seek_cons, h]
    dsimp only
    rw [hx]
    rfl

theorem readsPrimary_bool {t : Token} {x : Bool}
    (h : t.kind = if x then .trueWord else .falseWord) : ReadsPrimary [t] (.bool t.pos x) := by
  intro s rest b hb _ _
  cases b with
  | zero => omega
  | succ b =>
    rw [primary, exec_current_bind, List.singleton_append, State.current_seek_cons, h]
    cases x <;> rfl

/-- A variable is told from a call by the token behind its name. -/
theorem readsPrimary_var {ts : List Token} {v : Var} (h : VarOf ts v)
    (hn : ∀ t ∈ ts, Numeral t) : ReadsPrimary ts (.var v) := by
  intro s rest b hb h₁ h₂
  have hvar := exec_variableRef h hn s rest h₂
  -- no parenthesis behind the name, with an index or without
  have hhead : ∃ t us, ts ++ rest = t :: us ∧ t.kind = .ident ∧
      (s.seek us).current.kind ≠ .lparen := by
    cases h with
    | plain hx => exact ⟨_, _, rfl, hx, h₁⟩
    | indexed hx hl _ _ =>
      refine ⟨_, _, rfl, hx, fun hp => ?_⟩
      exact absurd (hl.symm.trans hp) (by simp)
  obtain ⟨t, us, heq, ht, hp⟩ := hhead
  cases b with
  | zero => omega
  | succ b =>
    rw [heq] at hvar ⊢
    rw [primary, exec_current_bind, State.current_seek_cons, ht]
    dsimp only
    rw [exec_get_bind, State.peek_seek_cons, if_neg hp, exec_bind_some hvar]
    rfl

/-- A call, told from a variable by its parenthesis. -/
theorem readsPrimary_call {t : Token} {ts : List Token} {args : List Expr} (ht : t.kind = .ident)
    (hargs : ArgsOf ts args) (h : ReadsArgs ts args) :
    ReadsPrimary (t :: ts) (.call t.pos t.literal args) := by
  intro s rest b hb _ _
  rw [List.length_cons] at hb
  have hp : (s.seek (ts ++ rest)).current.kind = .lparen := by
    cases hargs with
    | none hl _ => exact hl
    | some hl _ _ => exact hl
  cases b with
  | zero => omega
  | succ b =>
    rw [primary, exec_current_bind, List.cons_append, State.current_seek_cons, ht]
    dsimp only
    rw [exec_get_bind, State.peek_seek_cons, if_pos hp, exec_advance_bind,
      State.advance_seek_cons, exec_bind_some (h s rest b (by omega))]
    rfl

theorem readsPrimary_construct {t : Token} {type : Ty} {ts : List Token} {args : List Expr}
    (ht : t.kind.type? = some type) (h : ReadsArgs ts args) :
    ReadsPrimary (t :: ts) (.construct t.pos type args) := by
  intro s rest b hb _ _
  rw [List.length_cons] at hb
  cases b with
  | zero => omega
  | succ b =>
    rw [primary, exec_current_bind, List.cons_append, State.current_seek_cons]
    split
    case h_7 =>
      rw [ht]
      dsimp only
      rw [exec_advance_bind, State.advance_seek_cons, exec_bind_some (h s rest b (by omega))]
      rfl
    -- the other kinds name no type
    all_goals rename_i hk; rw [hk] at ht; simp [Kind.type?] at ht

/-- Parentheses begin at the loosest level again, and a parenthesis ends every level. -/
theorem readsPrimary_parens {l r : Token} {ts : List Token} {e : Expr} (hl : l.kind = .lparen)
    (h : ReadsLoop 1 ts e) (hr : r.kind = .rparen) : ReadsPrimary (l :: (ts ++ [r])) e := by
  intro s rest b hb _ _
  rw [List.length_cons, List.length_append] at hb
  cases b with
  | zero => omega
  | succ b =>
    have hinner := h.exec_binary (b := b) s (r :: rest) (by omega) Nat.zero_lt_one
      (by rw [State.current_seek_cons, hr]; simp) (by rw [State.current_seek_cons, hr]; simp)
      (by rw [State.current_seek_cons, hr]; simp)
      (by intro m op hop; rw [State.current_seek_cons, hr] at hop; cases hop)
    rw [primary, exec_current_bind, List.cons_append, State.current_seek_cons, hl]
    dsimp only
    rw [exec_advance_bind, State.advance_seek_cons, List.append_assoc, List.singleton_append,
      exec_bind_some hinner, exec_bind_some (exec_expect_cons hr _ _)]
    rfl

theorem readsArgs_none {l r : Token} (hl : l.kind = .lparen) (hr : r.kind = .rparen) :
    ReadsArgs [l, r] [] := by
  intro s rest b hb
  cases b with
  | zero => omega
  | succ b =>
    rw [arguments, List.cons_append, exec_bind_some (exec_expect_cons hl _ _),
      exec_kind_bind, List.singleton_append, State.current_seek_cons,
      if_pos hr]
    rfl

/-- Arguments between parentheses, told from none by their first token. -/
theorem readsArgs_some {l r : Token} {ts : List Token} {args : List Expr} (hl : l.kind = .lparen)
    (h : ReadsList ts args) (hr : r.kind = .rparen)
    (hts : ∃ t us, ts = t :: us ∧ t.kind ≠ .rparen) : ReadsArgs (l :: (ts ++ [r])) args := by
  intro s rest b hb
  rw [List.length_cons, List.length_append] at hb
  obtain ⟨t, us, rfl, ht⟩ := hts
  cases b with
  | zero => omega
  | succ b =>
    have hlist := h s (r :: rest) b (by omega) hr
    rw [arguments, List.cons_append, exec_bind_some (exec_expect_cons hl _ _),
      exec_kind_bind, List.append_assoc, List.singleton_append,
      List.cons_append, State.current_seek_cons, if_neg ht, ← List.cons_append,
      exec_bind_some hlist, exec_bind_some (exec_expect_cons hr _ _)]
    rfl

theorem readsList_one {ts : List Token} {e : Expr} (h : ReadsLoop 1 ts e) :
    ReadsList ts [e] := by
  intro s rest b hb hr
  cases b with
  | zero => omega
  | succ b =>
    have harg := h.exec_binary (b := b) s rest (by omega) Nat.zero_lt_one
      (by rw [hr]; simp) (by rw [hr]; simp) (by rw [hr]; simp)
      (by intro m op hop; rw [hr] at hop; cases hop)
    rw [argumentList, exec_bind_some harg, exec_kind_bind, if_neg (by rw [hr]; simp)]
    rfl

/-- An argument ends at a comma, as no expression goes on there. -/
theorem readsList_more {c : Token} {ts us : List Token} {e : Expr} {es : List Expr}
    (h : ReadsLoop 1 ts e) (hc : c.kind = .comma) (hs : ReadsList us es) :
    ReadsList (ts ++ c :: us) (e :: es) := by
  intro s rest b hb hr
  rw [List.length_append, List.length_cons] at hb
  cases b with
  | zero => omega
  | succ b =>
    have harg := h.exec_binary (b := b) s (c :: (us ++ rest)) (by omega) Nat.zero_lt_one
      (by rw [State.current_seek_cons, hc]; simp) (by rw [State.current_seek_cons, hc]; simp)
      (by rw [State.current_seek_cons, hc]; simp)
      (by intro m op hop; rw [State.current_seek_cons, hc] at hop; cases hop)
    rw [argumentList, List.append_assoc, List.cons_append, exec_bind_some harg, exec_kind_bind,
      State.current_seek_cons, if_pos hc, exec_advance_bind, State.advance_seek_cons,
      exec_bind_some (hs s rest b (by omega) hr)]
    rfl

/-- What a derivation of a level says about the parser of that level. -/
def Reads (n : Nat) (ts : List Token) (e : Expr) : Prop :=
  if n = 8 then ReadsPrimary ts e
  else if n = 7 then ReadsPower ts e
  else if n = 6 then ReadsUnary ts e
  else ReadsLoop n ts e

/-- Of the levels with a loop, what a derivation says is about the loop. -/
theorem Reads.loop {n : Nat} {ts : List Token} {e : Expr} (h : Reads n ts e) (hn : n ≤ 6)
    (hts : ts ≠ []) : ReadsLoop n ts e := by
  unfold Reads at h
  rw [if_neg (by omega), if_neg (by omega)] at h
  split at h
  · rename_i h6
    subst h6
    exact readsLoop_of_unary h hts
  · exact h

theorem reads_of_loop {n : Nat} {ts : List Token} {e : Expr} (h : ReadsLoop n ts e)
    (hn : n ≤ 5) : Reads n ts e := by
  unfold Reads
  rwa [if_neg (by omega), if_neg (by omega), if_neg (by omega)]

/-- A derivation of a tighter level is read by the parser of the next looser one. -/
theorem Reads.loosen {n : Nat} {ts : List Token} {e : Expr} (he : ExprOf (n + 1) ts e)
    (h : Reads (n + 1) ts e) (hn : n < 8) : Reads n ts e := by
  rcases Nat.lt_or_ge n 6 with h5 | h6
  · exact reads_of_loop (h.loop (by omega) he.ne_nil).loosen (by omega)
  · rcases Nat.lt_or_ge n 7 with h6' | h7
    · obtain rfl : n = 6 := by omega
      exact readsUnary_of_power h he.head_power
    · obtain rfl : n = 7 := by omega
      exact readsPower_of_primary h

mutual

/-- **The parser of a level reads every derivation of it.** -/
theorem reads_of_exprOf {n : Nat} {ts : List Token} {e : Expr} :
    ExprOf n ts e → (∀ t ∈ ts, Numeral t) → Reads n ts e
  | .binary hop hl hr, hn => by
    have h5 := hop.le_five
    refine reads_of_loop (readsLoop_binary hop ?_ ?_) h5
    · exact (reads_of_exprOf hl fun t ht => hn t (by simp [ht])).loop (by omega) hl.ne_nil
    · exact (reads_of_exprOf hr fun t ht => hn t (by simp [ht])).loop (by omega) hr.ne_nil
  | .tighter hlt h, hn => (reads_of_exprOf h hn).loosen h hlt
  | .unary hop h, hn => readsUnary_unary hop (reads_of_exprOf h fun t ht => hn t (by simp [ht]))
  | .power hk hb hx, hn =>
    readsPower_power hk (reads_of_exprOf hb fun t ht => hn t (by simp [ht]))
      (reads_of_exprOf hx fun t ht => hn t (by simp [ht]))
  | .int hi, hn => readsPrimary_int hi (hn _ (by simp))
  | .float hk hx, _ => readsPrimary_float hk hx
  | .true hk, _ => readsPrimary_bool hk
  | .false hk, _ => readsPrimary_bool hk
  | .var hv, hn => readsPrimary_var hv hn
  | .call hk ha, hn => readsPrimary_call hk ha (reads_of_argsOf ha fun t ht => hn t (by simp [ht]))
  | .construct hk ha, hn =>
    readsPrimary_construct hk (reads_of_argsOf ha fun t ht => hn t (by simp [ht]))
  | .parens hl h hr, hn =>
    readsPrimary_parens hl
      ((reads_of_exprOf h fun t ht => hn t (by simp [ht])).loop (by omega) h.ne_nil) hr

theorem reads_of_argsOf {ts : List Token} {args : List Expr} :
    ArgsOf ts args → (∀ t ∈ ts, Numeral t) → ReadsArgs ts args
  | .none hl hr, _ => readsArgs_none hl hr
  | .some hl h hr, hn =>
    readsArgs_some hl (reads_of_listOf h fun t ht => hn t (by simp [ht])) hr h.head_ne_rparen

theorem reads_of_listOf {ts : List Token} {args : List Expr} :
    ListOf ts args → (∀ t ∈ ts, Numeral t) → ReadsList ts args
  | .one h, hn => readsList_one ((reads_of_exprOf h hn).loop (by omega) h.ne_nil)
  | .more h hc hs, hn =>
    readsList_more ((reads_of_exprOf h fun t ht => hn t (by simp [ht])).loop (by omega) h.ne_nil)
      hc (reads_of_listOf hs fun t ht => hn t (by simp [ht]))

end

/-- An expression is read up to a token that cannot go on with it. -/
theorem exec_expression {ts : List Token} {e : Expr} (h : ExprOf 1 ts e)
    (hn : ∀ t ∈ ts, Numeral t) (s : State) (hb : 5 * ts.length + 4 ≤ s.budget) {t : Token}
    (rest : List Token) (ht : t.kind = .semicolon ∨ t.kind = .rparen) :
    exec expression (s.seek (ts ++ t :: rest)) = (some e, s.seek (t :: rest)) := by
  have hloop := (reads_of_exprOf h hn).loop (by omega) h.ne_nil
  unfold expression
  rw [exec_get_bind, State.seek_budget]
  refine hloop.exec_binary s (t :: rest) hb Nat.zero_lt_one ?_ ?_ ?_ ?_
  · rw [State.current_seek_cons]; rcases ht with ht | ht <;> rw [ht] <;> simp
  · rw [State.current_seek_cons]; rcases ht with ht | ht <;> rw [ht] <;> simp
  · rw [State.current_seek_cons]; rcases ht with ht | ht <;> rw [ht] <;> simp
  · intro m op hop
    rw [State.current_seek_cons] at hop
    rcases ht with ht | ht <;> rw [ht] at hop <;> cases hop

/-! ## Declarations -/

theorem exec_declarationFrom {t x e : Token} {type : Ty} {us : List Token} {init : Option Expr}
    (ht : t.kind.type? = some type) (hx : x.kind = .ident) (hi : InitOf us init)
    (he : e.kind = .semicolon) (hn : ∀ t ∈ us, Numeral t) (s : State)
    (hb : 5 * us.length + 4 ≤ s.budget) (rest : List Token) (pos : Pos) (isConst : Bool) :
    exec (declarationFrom pos isConst) (s.seek (t :: x :: (us ++ e :: rest))) =
      (some ⟨pos, isConst, type, x.literal, init⟩, s.seek rest) := by
  unfold declarationFrom
  rw [exec_kind_bind, State.current_seek_cons, ht]
  dsimp only
  rw [exec_advance_bind, State.advance_seek_cons, exec_current_bind, State.current_seek_cons,
    if_pos hx, exec_advance_bind, State.advance_seek_cons, exec_kind_bind]
  cases hi with
  | none =>
    rw [List.nil_append, State.current_seek_cons, if_neg (by rw [he]; simp), pure_bind,
      exec_bind_some (exec_expect_cons he _ _)]
    rfl
  | @some a ts init ha hinit =>
    rw [List.length_cons] at hb
    have hexpr := exec_expression hinit (fun t ht => hn t (by simp [ht])) s (by omega) rest
      (.inl he)
    rw [List.cons_append, State.current_seek_cons, if_pos ha, exec_advance_bind,
      State.advance_seek_cons, map_eq_pure_bind, bind_assoc, exec_bind_some hexpr, pure_bind,
      exec_bind_some (exec_expect_cons he _ _)]
    rfl

/-- **A declaration of the grammar is read without an error.** -/
theorem exec_declaration_of_declOf {ts : List Token} {d : Decl} (h : DeclOf ts d)
    (hn : ∀ t ∈ ts, Numeral t) (s : State) (hb : 5 * ts.length + 4 ≤ s.budget)
    (rest : List Token) : exec declaration (s.seek (ts ++ rest)) = (some d, s.seek rest) := by
  rw [exec_declaration]
  cases h with
  | @mutable t x e type us init ht hx hi he =>
    have hk : t.kind ≠ .constWord := fun hc => by rw [hc] at ht; simp [Kind.type?] at ht
    rw [List.length_cons, List.length_cons, List.length_append] at hb
    rw [List.cons_append, State.current_seek_cons, if_neg hk, List.cons_append, List.append_assoc,
      List.singleton_append]
    exact exec_declarationFrom ht hx hi he (fun t ht => hn t (by simp [ht])) s (by omega) rest _ _
  | @const c t x e type us init hc ht hx hi he =>
    rw [List.length_cons, List.length_cons, List.length_cons, List.length_append] at hb
    rw [List.cons_append, State.current_seek_cons, if_pos hc, State.advance_seek_cons,
      List.cons_append, List.cons_append, List.append_assoc, List.singleton_append]
    exact exec_declarationFrom ht hx hi he (fun t ht => hn t (by simp [ht])) s (by omega) rest _ _

/-- The loop over declarations goes on at each of them. -/
theorem startsDecl_of_declOf {ts : List Token} {d : Decl} (h : DeclOf ts d) :
    ∃ t us, ts = t :: us ∧ startsDecl t.kind = true := by
  have htype : ∀ {t : Token} {type : Ty}, t.kind.type? = some type → startsDecl t.kind = true := by
    intro t type ht
    unfold startsDecl
    rw [← Kind.isSome_type?, ht]
    simp
  cases h with
  | mutable ht _ _ _ => exact ⟨_, _, rfl, htype ht⟩
  | const hc _ _ _ _ => exact ⟨_, _, rfl, by rw [hc]; rfl⟩

/-- Declarations are read up to the first token that starts none. -/
theorem run_declarations_of_declsOf {ts : List Token} {ds : List Decl} (h : DeclsOf ts ds) :
    (∀ t ∈ ts, Numeral t) → ∀ (s : State), 5 * ts.length + 4 ≤ s.budget → ∀ (rest : List Token),
    startsDecl (s.seek rest).current.kind = false → ∀ b : Nat, ts.length < b →
    StateT.run (declarations b) (s.seek (ts ++ rest)) = (ds, s.seek rest) := by
  induction h with
  | nil =>
    intro _ s _ rest hstop b hb
    cases b with
    | zero => omega
    | succ b => rw [run_declarations, List.nil_append, hstop]; rfl
  | @cons ts us d ds hd hds ih =>
    intro hn s hbud rest hstop b hb
    rw [List.length_append] at hbud hb
    have hpos := List.length_pos_iff.mpr hd.ne_nil
    have hone := exec_declaration_of_declOf hd (fun t ht => hn t (by simp [ht])) s (by omega)
      (us ++ rest)
    obtain ⟨t, ws, hts, hstart⟩ := startsDecl_of_declOf hd
    cases b with
    | zero => omega
    | succ b =>
      have hcur : (s.seek (ts ++ us ++ rest)).current = t := by rw [hts]; rfl
      rw [run_declarations, hcur, if_pos hstart, run_recovering, List.append_assoc, hone]
      dsimp only [Option.isNone_some, Bool.false_eq_true, if_false]
      rw [if_neg (by simp),
        ih (fun t ht => hn t (by simp [ht])) s (by omega) rest hstop b (by omega)]
      rfl

/-! ## Statements -/

/-- A statement starts with none of the tokens that end a block, an `if` or its declarations. -/
theorem head_of_stmtOf {dangling : Bool} {ts : List Token} {o : Option Stmt}
    (h : StmtOf true dangling ts o) :
    ∃ t us, ts = t :: us ∧ t.kind ≠ .rbrace ∧ t.kind ≠ .eof ∧ t.kind ≠ .elseWord ∧
      startsDecl t.kind = false := by
  have key : ∀ {t : Token} {us : List Token} {k : Kind}, t.kind = k →
      k ≠ .rbrace ∧ k ≠ .eof ∧ k ≠ .elseWord ∧ startsDecl k = false →
      ∃ t' us', t :: us = t' :: us' ∧ t'.kind ≠ .rbrace ∧ t'.kind ≠ .eof ∧
        t'.kind ≠ .elseWord ∧ startsDecl t'.kind = false := by
    intro t us k hk h
    exact ⟨t, us, rfl, hk ▸ h⟩
  cases h with
  | assign hv _ _ _ =>
    cases hv with
    | plain hk => exact key hk (by decide)
    | indexed hk _ _ _ => exact key hk (by decide)
  | ifThen hk _ _ => exact key hk (by decide)
  | ifElse hk _ _ _ _ _ => exact key hk (by decide)
  | loop hk _ _ => exact key hk (by decide)
  | block hb => cases hb with | mk hk _ _ _ => exact key hk (by decide)
  | empty hk => exact key hk (by decide)

theorem exec_condition {ts : List Token} {e : Expr} (h : CondOf ts e) (hn : ∀ t ∈ ts, Numeral t)
    (s : State) (hb : 5 * ts.length + 4 ≤ s.budget) (rest : List Token) :
    exec condition (s.seek (ts ++ rest)) = (some e, s.seek rest) := by
  cases h with
  | @mk l r ts e hl he hr =>
    rw [List.length_cons, List.length_append] at hb
    have hexpr := exec_expression he (fun t ht => hn t (by simp [ht])) s (by omega) rest (.inr hr)
    unfold condition
    rw [List.cons_append, exec_bind_some (exec_expect_cons hl _ _), List.append_assoc,
      List.singleton_append, exec_bind_some hexpr, exec_bind_some (exec_expect_cons hr _ _)]
    rfl

/-- An assignment, up to its semicolon. -/
theorem exec_assignment {ts us : List Token} {a m : Token} {v : Var} {e : Expr}
    (hv : VarOf ts v) (ha : a.kind = .assign) (he : ExprOf 1 us e) (hm : m.kind = .semicolon)
    (hn : ∀ t ∈ ts ++ us, Numeral t) (s : State) (hb : 5 * us.length + 4 ≤ s.budget)
    (rest : List Token) :
    exec assignment (s.seek (ts ++ a :: (us ++ m :: rest))) =
      (some (.assign v e), s.seek (m :: rest)) := by
  have hvar := exec_variableRef hv (fun t ht => hn t (by simp [ht])) s (a :: (us ++ m :: rest))
    (by rw [State.current_seek_cons, ha]; simp)
  have hexpr := exec_expression he (fun t ht => hn t (by simp [ht])) s hb rest (.inl hm)
  unfold assignment
  rw [exec_bind_some hvar, exec_bind_some (exec_expect_cons ha _ _), exec_bind_some hexpr]
  rfl

mutual

/-- A statement is read as its derivation says, unless an `else` follows that it could take. -/
theorem exec_statement {dangling : Bool} {ts : List Token} {o : Option Stmt} :
    StmtOf true dangling ts o → (∀ t ∈ ts, Numeral t) → ∀ (s : State) (rest : List Token) (b : Nat),
    5 * ts.length + 4 ≤ s.budget → 3 * ts.length + 2 ≤ b →
    (dangling = true → (s.seek rest).current.kind ≠ .elseWord) →
    exec (statement b) (s.seek (ts ++ rest)) = (o, s.seek rest)
  | _, _, _, _, 0, _, hb, _ => by omega
  | @StmtOf.assign _ a m ts us v e hv ha he hm, hn, s, rest, b + 1, hbud, hb, _ => by
    -- the parser decides by the first token, which is a name with an index or without
    obtain ⟨x, ws, hx, hk⟩ : ∃ x ws, ts = x :: ws ∧ x.kind = .ident := by
      cases hv with
      | plain hk => exact ⟨_, _, rfl, hk⟩
      | indexed hk _ _ _ => exact ⟨_, _, rfl, hk⟩
    simp only [List.length_append, List.length_cons] at hbud
    have hassign := exec_assignment hv ha he hm (fun t ht => hn t
      (by rcases List.mem_append.mp ht with h | h <;> simp [h])) s (by omega) rest
    have hcur : (s.seek (ts ++ a :: (us ++ m :: rest))).current.kind = .ident := by
      rw [hx]; exact hk
    rw [List.append_assoc, List.cons_append, List.append_assoc, List.singleton_append, statement,
      exec_current_bind, hcur]
    dsimp only
    rw [exec_lift_bind, run_recovering, hassign]
    dsimp only
    rw [if_neg (by simp), exec_bind_some (exec_expect_cons hm _ _)]
    rfl
  | @StmtOf.ifThen _ i ts us d e st hi hc hst, hn, s, rest, b + 1, hbud, hb, hopen => by
    simp only [List.length_append, List.length_cons] at hbud hb
    have hcond := exec_condition hc (fun t ht => hn t (by simp [ht])) s (by omega) (us ++ rest)
    have hyes := exec_statement hst (fun t ht => hn t (by simp [ht])) s rest b (by omega)
      (by omega) (fun _ => hopen rfl)
    rw [statement, exec_current_bind, List.cons_append, State.current_seek_cons, hi]
    dsimp only
    rw [exec_advance_bind, State.advance_seek_cons, List.append_assoc, exec_bind_some hcond,
      exec_attempt_bind, hyes, exec_kind_bind]
    dsimp only
    -- what follows is no `else`, which this `if` would have taken
    rw [if_neg (hopen rfl)]
    rfl
  | @StmtOf.ifElse _ i l ts us ws d d' e st st' hi hc hst hd hl hst', hn, s, rest, b + 1, hbud, hb,
      hopen => by
    simp only [List.length_append, List.length_cons] at hbud hb
    have hcond := exec_condition hc (fun t ht => hn t (by simp [ht])) s (by omega)
      (us ++ l :: (ws ++ rest))
    -- the first branch does not end in an `if` that could take the `else`
    have hyes := exec_statement hst (fun t ht => hn t (by simp [ht])) s (l :: (ws ++ rest)) b
      (by omega) (by omega) (fun h => by rw [hd rfl] at h; simp at h)
    have hno := exec_statement hst' (fun t ht => hn t (by simp [ht])) s rest b (by omega)
      (by omega) hopen
    rw [statement, exec_current_bind, List.cons_append, State.current_seek_cons, hi]
    dsimp only
    rw [exec_advance_bind, State.advance_seek_cons, List.append_assoc, List.append_assoc,
      List.cons_append, exec_bind_some hcond, exec_attempt_bind, hyes, exec_kind_bind]
    dsimp only
    rw [State.current_seek_cons, if_pos hl, exec_advance_bind, State.advance_seek_cons,
      exec_attempt_bind, hno]
    rfl
  | @StmtOf.loop _ w ts us d e st hw hc hst, hn, s, rest, b + 1, hbud, hb, hopen => by
    simp only [List.length_append, List.length_cons] at hbud hb
    have hcond := exec_condition hc (fun t ht => hn t (by simp [ht])) s (by omega) (us ++ rest)
    have hbody := exec_statement hst (fun t ht => hn t (by simp [ht])) s rest b (by omega)
      (by omega) hopen
    rw [statement, exec_current_bind, List.cons_append, State.current_seek_cons, hw]
    dsimp only
    rw [exec_advance_bind, State.advance_seek_cons, List.append_assoc, exec_bind_some hcond,
      exec_attempt_bind, hbody]
    rfl
  | @StmtOf.block _ ts sc hblock, hn, s, rest, b + 1, hbud, hb, _ => by
    have hscope := run_scope_of_blockOf hblock hn s rest b hbud (by omega)
    have hcur : (s.seek (ts ++ rest)).current.kind = .lbrace := by
      cases hblock with | mk hl _ _ _ => exact hl
    rw [statement, exec_current_bind, hcur]
    dsimp only
    show exec (OptionT.lift (scope b) >>= _) _ = _
    rw [exec_lift_bind, hscope]
    rfl
  | @StmtOf.empty _ m hm, hn, s, rest, b + 1, _, _, _ => by
    rw [statement, exec_current_bind, List.singleton_append, State.current_seek_cons, hm]
    rfl

/-- A block. No declaration starts at its first statement, so the loop over declarations ends
there. -/
theorem run_scope_of_blockOf {ts : List Token} {sc : Scope} :
    BlockOf true ts sc → (∀ t ∈ ts, Numeral t) → ∀ (s : State) (rest : List Token) (b : Nat),
    5 * ts.length + 4 ≤ s.budget → 3 * ts.length + 1 ≤ b →
    StateT.run (scope b) (s.seek (ts ++ rest)) = (sc, s.seek rest)
  | _, _, _, _, 0, _, hb => by omega
  | @BlockOf.mk _ l r ts us ds ss hl hds hss hr, hn, s, rest, b + 1, hbud, hb => by
    simp only [List.length_append, List.length_cons, List.length_nil] at hbud hb
    -- the declarations end where no type stands: before a statement or the brace
    have hstop : startsDecl (s.seek (us ++ r :: rest)).current.kind = false := by
      cases hss with
      | nil => rw [List.nil_append, State.current_seek_cons, hr]; rfl
      | cons hst _ =>
        obtain ⟨t, vs, rfl, _, _, _, ht⟩ := head_of_stmtOf hst
        exact ht
    have hdecls := run_declarations_of_declsOf hds (fun t ht => hn t (by simp [ht])) s (by omega)
      (us ++ r :: rest) hstop s.budget (by omega)
    have hstmts := run_statements_of_stmtsOf hss (fun t ht => hn t (by simp [ht])) s (r :: rest) b
      (by omega) (by omega) hr
    rw [run_scope, List.cons_append, State.advance_seek_cons, State.seek_budget, List.append_assoc,
      List.append_assoc, List.singleton_append, hdecls]
    dsimp only
    rw [hstmts, exec_expect_cons hr]

/-- Statements are read up to the closing brace. An empty one leaves nothing in the tree. -/
theorem run_statements_of_stmtsOf {ts : List Token} {ss : List Stmt} :
    StmtsOf true ts ss → (∀ t ∈ ts, Numeral t) → ∀ (s : State) (rest : List Token) (b : Nat),
    5 * ts.length + 4 ≤ s.budget → 3 * ts.length + 3 ≤ b →
    (s.seek rest).current.kind = .rbrace →
    StateT.run (statements b) (s.seek (ts ++ rest)) = (ss, s.seek rest)
  | _, _, _, _, 0, _, hb, _ => by omega
  | .nil, _, s, rest, b + 1, _, _, hr => by
    rw [run_statements, List.nil_append, if_pos (.inl hr)]
  | @StmtsOf.cons _ ts us d o ss hst hss, hn, s, rest, b + 1, hbud, hb, hr => by
    rw [List.length_append] at hbud hb
    have hpos := List.length_pos_iff.mpr hst.ne_nil
    -- behind a statement stands another one or the closing brace, and no `else`
    have hnext : (s.seek (us ++ rest)).current.kind ≠ .elseWord := by
      cases hss with
      | nil => rw [List.nil_append, hr]; simp
      | cons hst' _ =>
        obtain ⟨t, vs, rfl, _, _, ht, _⟩ := head_of_stmtOf hst'
        exact ht
    have hone := exec_statement hst (fun t ht => hn t (by simp [ht])) s (us ++ rest) b (by omega)
      (by omega) (fun _ => hnext)
    have hothers := run_statements_of_stmtsOf hss (fun t ht => hn t (by simp [ht])) s rest b
      (by omega) (by omega) hr
    obtain ⟨t, vs, hts, h₁, h₂, _, h₃⟩ := head_of_stmtOf hst
    have hcur : (s.seek (ts ++ (us ++ rest))).current = t := by rw [hts]; rfl
    rw [run_statements, List.append_assoc, hcur, if_neg (by simp [h₁, h₂]), if_neg (by simp [h₃]),
      hone]
    dsimp only
    rw [hothers]

end

end Shader.Parser
