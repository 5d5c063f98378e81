import Shader.Proofs.Grammar
import Shader.Proofs.ParserRuns

/-!
# What the parser reads is in the grammar

With a budget in proportion to the tokens left, every expression parser reads a derivation of the
grammar or adds to the errors: it never gives up in silence. The budget is what makes this true,
since a parser whose budget runs out gives up and says nothing.

Precedence climbing is sound because of what a finished operand leaves behind. The loop of a level
keeps its left operand at the level `k` of the last operator, and the token behind it is no operator
tighter than `k`: the right operand has taken all of those.
-/

namespace Shader.Grammar

open Ast

/-! ## The tables of the parser are those of the grammar -/

/-- The operators between operands and their levels are those of the grammar. -/
theorem operatorAt_iff {k : Kind} {op : BinaryOp} {n : Nat} :
    k.binary? = some (op, n) ↔ OperatorAt n k op := by
  constructor
  · intro h
    cases k <;> simp [Kind.binary?] at h <;> obtain ⟨rfl, rfl⟩ := h <;> constructor
  · intro h
    cases h <;> rfl

/-- The operators in front of an operand are those of the grammar. -/
theorem operatorBefore_iff {k : Kind} {op : UnaryOp} :
    k.unary? = some op ↔ OperatorBefore k op := by
  constructor
  · intro h
    cases k <;> simp [Kind.unary?] at h <;> subst h <;> constructor
  · intro h
    cases h <;> rfl

theorem OperatorAt.le_five {n : Nat} {k : Kind} {op : BinaryOp} (h : OperatorAt n k op) :
    n ≤ 5 := by
  cases h <;> omega

/-- An integer that can be read is one of the grammar: its digits denote it, and it is in range. -/
theorem integerOf_of_read {t : Token} {n : Nat} (hk : t.kind = .int)
    (h : Number.readInteger? t.literal = some n) : IntegerOf t n := by
  unfold Number.readInteger? at h
  split at h
  · rename_i hc
    have hn := Option.some.inj h
    refine ⟨hk, hn.symm, ?_⟩
    have hle := hc.2.2
    rw [hn] at hle
    exact hle
  · simp at h

theorem IntegerOf.le_maxInteger {t : Token} {n : Nat} (h : IntegerOf t n) :
    n ≤ Number.maxInteger := h.2.2

/-! ## Derivations of expressions -/

theorem VarOf.ne_nil {ts : List Token} {v : Var} (h : VarOf ts v) : ts ≠ [] := by
  cases h <;> simp

/-- An expression has a token. So the parser has moved on behind each operand, and what is left of
the budget is enough for the tokens that are left. -/
theorem ExprOf.ne_nil {n : Nat} {ts : List Token} {e : Expr} : ExprOf n ts e → ts ≠ []
  | .binary _ _ _ => by simp
  | .tighter _ h => h.ne_nil
  | .unary _ _ => by simp
  | .power _ _ _ => by simp
  | .int _ => by simp
  | .float _ _ => by simp
  | .true _ => by simp
  | .false _ => by simp
  | .var h => h.ne_nil
  | .call _ _ => by simp
  | .construct _ _ => by simp
  | .parens _ _ _ => by simp

theorem DeclOf.ne_nil {ts : List Token} {d : Decl} (h : DeclOf ts d) : ts ≠ [] := by
  cases h <;> simp

/-- A statement has a token, even the empty one. -/
theorem StmtOf.ne_nil {nearest dangling : Bool} {ts : List Token} {s : Option Stmt}
    (h : StmtOf nearest dangling ts s) : ts ≠ [] := by
  cases h with
  | block hb => cases hb; simp
  | _ => simp

/-- An expression of a level is one of every looser level. -/
theorem ExprOf.loosen {m n : Nat} {ts : List Token} {e : Expr} (h : ExprOf n ts e)
    (hm : m ≤ n) (hn : n ≤ 8) : ExprOf m ts e := by
  obtain ⟨d, rfl⟩ := Nat.exists_eq_add_of_le hm
  induction d with
  | zero => exact h
  | succ d ih => exact ih (.tighter (by omega) h) (by omega) (by omega)

end Shader.Grammar

namespace Shader.Parser

open Ast Grammar

/-! ## Variables -/

/-- A name, with an index in brackets if one follows, is a variable of the grammar. -/
theorem variableRef_outcome {s : State} (hs : Ended s) {x : Token} {ts : List Token}
    (hr : s.rest = x :: ts) (hx : x.kind = .ident) :
    Outcome s (fun us _ v => VarOf us v) (exec variableRef s) := by
  unfold variableRef
  rw [exec_current_bind, exec_advance_bind, exec_kind_bind, current_of_rest hr,
    advance_of_rest hr]
  refine .cons hr ?_
  split
  · rename_i hl
    obtain ⟨l, us, hus, _, hlk⟩ := (ended_seek.mpr hs).rest_of_current hl (by simp)
    rw [exec_advance_bind, advance_of_rest hus, State.seek_seek, exec_current_bind]
    refine .cons hus ?_
    rw [State.seek_seek]
    split
    · rename_i hi
      obtain ⟨i, ws, hws, hc, hik⟩ := (ended_seek.mpr hs).rest_of_current hi (by simp)
      rw [hc]
      split
      · rename_i n hn
        rw [exec_advance_bind, advance_of_rest hws, State.seek_seek]
        refine .cons hws ?_
        rw [State.seek_seek]
        refine .bind (expect_outcome (ended_seek.mpr hs) (by simp)) ?_
        rintro _ rest _ - ⟨r, hrk, rfl⟩
        exact .pure (.indexed hx hlk (integerOf_of_read hik hn) hrk)
      · exact .refuse _
    · exact .refuse _
  · exact .pure (.plain hx)

/-! ## Expressions -/

/-- No operator tighter than `floor` is next. -/
def Fence (floor : Nat) (s : State) : Prop :=
  ∀ (n : Nat) (op : BinaryOp), OperatorAt n s.current.kind op → n ≤ floor

/-- Behind an operand of the tightest level any operator may stand. -/
theorem fence_six (s : State) : Fence 6 s := fun _ _ h => by have := h.le_five; omega

mutual

/-- The levels above `floor`: an operand, and then the operators that follow it. -/
theorem binary_outcome : ∀ (b floor : Nat) (s : State), Ended s →
    5 * s.rest.length + 4 ≤ b → floor ≤ 5 →
    Outcome s (fun ts rest e => ExprOf (floor + 1) ts e ∧ Fence floor (s.seek rest))
      (exec (binary b floor) s)
  | 0, _, _, _, hb, _ => by omega
  | b + 1, floor, s, hs, hb, hf => by
    rw [binary]
    refine .bind (unary_outcome b s hs (by omega)) ?_
    intro ts rest left hts hleft
    have hpos := List.length_pos_iff.mpr hleft.ne_nil
    have hlen : s.rest.length = ts.length + rest.length := by rw [hts, List.length_append]
    exact binaryRest_outcome b floor 6 ts left (s.seek rest) hs
      (by rw [State.seek_rest]; omega) (by omega) (by omega) hleft (fence_six _)

/-- **The loop of precedence climbing.** Its left operand is of the level `k`, and no operator
tighter than `k` follows. An operator above `floor` takes its right operand from the levels above
its own, and the two make a new left operand of that operator's level. So `k` only becomes smaller,
and the tree leans to the left. -/
theorem binaryRest_outcome : ∀ (b floor k : Nat) (us : List Token) (left : Expr) (s : State),
    Ended s → 5 * s.rest.length + 1 ≤ b → floor < k → k ≤ 6 → ExprOf k us left → Fence k s →
    Outcome s (fun ts rest e => ExprOf (floor + 1) (us ++ ts) e ∧ Fence floor (s.seek rest))
      (exec (binaryRest b floor left) s)
  | 0, _, _, _, _, _, _, hb, _, _, _, _ => by omega
  | b + 1, floor, k, us, left, s, hs, hb, hfk, hk, hleft, hfence => by
    have hstay : ExprOf (floor + 1) (us ++ []) left := by
      rw [List.append_nil]
      exact hleft.loosen hfk (by omega)
    rw [binaryRest, exec_current_bind]
    split
    · rename_i op level hop
      have hat := operatorAt_iff.mp hop
      split
      · rename_i hlt
        -- the operator is no tighter than the last one, since that has taken all that are
        have hlk := hfence level op hat
        have hne : s.current.kind ≠ .eof := fun he => by rw [he] at hat; cases hat
        obtain ⟨t, ts, hr, hc, -⟩ := hs.rest_of_current rfl hne
        have hlen : s.rest.length = ts.length + 1 := by rw [hr, List.length_cons]
        rw [hc] at hat ⊢
        rw [exec_advance_bind, advance_of_rest hr]
        refine .cons hr ?_
        refine .bind (binary_outcome b level (s.seek ts) hs
          (by rw [State.seek_rest]; omega) hat.le_five) ?_
        rintro vs rest right hvs ⟨hright, hrf⟩
        rw [State.seek_rest] at hvs
        have hlen' : ts.length = vs.length + rest.length := by rw [hvs, List.length_append]
        -- the new left operand is one of the operator's own level
        have hnew : ExprOf level (us ++ t :: vs) (.binary t.pos op left right) :=
          .binary hat (hleft.loosen hlk (by omega)) hright
        refine (binaryRest_outcome b floor level (us ++ t :: vs) _ ((s.seek ts).seek rest) hs
          ?_ hlt (by have := hat.le_five; omega) hnew hrf).mono ?_
        · rw [State.seek_rest]; omega
        · rintro ws rest' e - ⟨he, hef⟩
          refine ⟨?_, hef⟩
          rw [List.append_assoc, List.cons_append] at he
          exact he
      -- an operator of this floor or below is left for the caller
      · rename_i hnlt
        refine .pure ⟨hstay, ?_⟩
        intro n op' hat'
        have heq := (operatorAt_iff.mpr hat').symm.trans hop
        injection heq with heq
        injection heq with _ heq
        omega
    · rename_i hnone
      refine .pure ⟨hstay, ?_⟩
      intro n op' hat'
      have heq := (operatorAt_iff.mpr hat').symm.trans hnone
      exact absurd heq (by simp)

/-- Operators in front of an operand, and the powers behind them. -/
theorem unary_outcome : ∀ (b : Nat) (s : State), Ended s → 5 * s.rest.length + 3 ≤ b →
    Outcome s (fun ts _ e => ExprOf 6 ts e) (exec (unary b) s)
  | 0, _, _, hb => by omega
  | b + 1, s, hs, hb => by
    rw [unary, exec_current_bind]
    split
    · rename_i op hop
      have hbefore := operatorBefore_iff.mp hop
      have hne : s.current.kind ≠ .eof := fun he => by rw [he] at hbefore; cases hbefore
      obtain ⟨t, ts, hr, hc, -⟩ := hs.rest_of_current rfl hne
      have hlen : s.rest.length = ts.length + 1 := by rw [hr, List.length_cons]
      rw [hc] at hbefore ⊢
      rw [exec_advance_bind, advance_of_rest hr]
      refine .cons hr ?_
      refine .bind (unary_outcome b (s.seek ts) hs (by rw [State.seek_rest]; omega)) ?_
      intro us rest e _ he
      refine .pure ?_
      rw [List.append_nil]
      exact .unary hbefore he
    · exact (power_outcome b s hs (by omega)).mono fun _ _ _ _ he => he.loosen (by omega) (by omega)

/-- A power takes an operand with its own prefix operators as its exponent, so that it leans to the
right. -/
theorem power_outcome : ∀ (b : Nat) (s : State), Ended s → 5 * s.rest.length + 2 ≤ b →
    Outcome s (fun ts _ e => ExprOf 7 ts e) (exec (power b) s)
  | 0, _, _, hb => by omega
  | b + 1, s, hs, hb => by
    rw [power]
    refine .bind (primary_outcome b s hs (by omega)) ?_
    intro ts rest base hts hbase
    rw [exec_current_bind]
    split
    · rename_i hk
      obtain ⟨t, us, hr, hc, ht⟩ := (ended_seek.mpr hs).rest_of_current hk (by simp)
      have hlen : s.rest.length = ts.length + (us.length + 1) := by
        rw [hts, List.length_append, ← List.length_cons, ← hr, State.seek_rest]
      rw [exec_advance_bind, advance_of_rest hr, hc]
      refine .cons hr ?_
      refine .bind (unary_outcome b _ hs (by rw [State.seek_rest]; omega)) ?_
      intro vs rest' x _ hx
      refine .pure ?_
      rw [List.append_nil]
      exact .power ht hbase hx
    · refine .pure ?_
      rw [List.append_nil]
      exact hbase.loosen (by omega) (by omega)

/-- Operands without operators. The first token decides which one it is. -/
theorem primary_outcome : ∀ (b : Nat) (s : State), Ended s → 5 * s.rest.length + 1 ≤ b →
    Outcome s (fun ts _ e => ExprOf 8 ts e) (exec (primary b) s)
  | 0, _, _, hb => by omega
  | b + 1, s, hs, hb => by
    rw [primary, exec_current_bind]
    split
    -- an integer, if it is in range
    · rename_i hk
      obtain ⟨t, ts, hr, hc, ht⟩ := hs.rest_of_current hk (by simp)
      rw [hc]
      split
      · rename_i n hn
        rw [exec_advance_bind, advance_of_rest hr]
        exact .cons hr (.pure (.int (integerOf_of_read ht hn)))
      · exact .refuse _
    -- a number with a point
    · rename_i hk
      obtain ⟨t, ts, hr, hc, ht⟩ := hs.rest_of_current hk (by simp)
      rw [hc]
      split
      · rename_i x hx
        rw [exec_advance_bind, advance_of_rest hr]
        exact .cons hr (.pure (.float ht hx))
      · exact .refuse _
    -- the two truth values
    · rename_i hk
      obtain ⟨t, ts, hr, hc, ht⟩ := hs.rest_of_current hk (by simp)
      rw [hc, exec_advance_bind, advance_of_rest hr]
      exact .cons hr (.pure (.true ht))
    · rename_i hk
      obtain ⟨t, ts, hr, hc, ht⟩ := hs.rest_of_current hk (by simp)
      rw [hc, exec_advance_bind, advance_of_rest hr]
      exact .cons hr (.pure (.false ht))
    -- a name: of a function if a parenthesis follows, and of a variable if not
    · rename_i hk
      obtain ⟨t, ts, hr, hc, ht⟩ := hs.rest_of_current hk (by simp)
      have hlen : s.rest.length = ts.length + 1 := by rw [hr, List.length_cons]
      rw [exec_get_bind]
      split
      · rw [hc, exec_advance_bind, advance_of_rest hr]
        refine .cons hr ?_
        refine .bind (arguments_outcome b (s.seek ts) hs (by rw [State.seek_rest]; omega)) ?_
        intro us rest args _ hargs
        refine .pure ?_
        rw [List.append_nil]
        exact .call ht hargs
      · refine .bind (variableRef_outcome hs hr ht) ?_
        intro us rest v _ hv
        refine .pure ?_
        rw [List.append_nil]
        exact .var hv
    -- an expression in parentheses
    · rename_i hk
      obtain ⟨l, ts, hr, hc, hl⟩ := hs.rest_of_current hk (by simp)
      have hlen : s.rest.length = ts.length + 1 := by rw [hr, List.length_cons]
      rw [exec_advance_bind, advance_of_rest hr]
      refine .cons hr ?_
      refine .bind (binary_outcome b 0 (s.seek ts) hs (by rw [State.seek_rest]; omega)
        (by omega)) ?_
      rintro us rest e _ ⟨he, -⟩
      refine .bind (expect_outcome (ended_seek.mpr (ended_seek.mpr hs)) (by simp)) ?_
      rintro _ rest' _ _ ⟨r, hrk, rfl⟩
      refine .pure ?_
      rw [List.append_nil]
      exact .parens hl he hrk
    -- the name of a type: a constructor. No other token starts an expression
    · split
      · rename_i type htype
        have hne : s.current.kind ≠ .eof := by
          intro he
          rw [he] at htype
          simp [Kind.type?] at htype
        obtain ⟨t, ts, hr, hc, ht⟩ := hs.rest_of_current rfl hne
        have hlen : s.rest.length = ts.length + 1 := by rw [hr, List.length_cons]
        rw [hc] at htype ⊢
        rw [exec_advance_bind, advance_of_rest hr]
        refine .cons hr ?_
        refine .bind (arguments_outcome b (s.seek ts) hs (by rw [State.seek_rest]; omega)) ?_
        intro us rest args _ hargs
        refine .pure ?_
        rw [List.append_nil]
        exact .construct htype hargs
      · exact .refuse _

/-- Arguments in parentheses, of which there may be none. -/
theorem arguments_outcome : ∀ (b : Nat) (s : State), Ended s → 5 * s.rest.length + 1 ≤ b →
    Outcome s (fun ts _ args => ArgsOf ts args) (exec (arguments b) s)
  | 0, _, _, hb => by omega
  | b + 1, s, hs, hb => by
    rw [arguments]
    refine .bind (expect_outcome hs (by simp)) ?_
    rintro _ rest _ hts ⟨l, hl, rfl⟩
    have hlen : s.rest.length = rest.length + 1 := by rw [hts]; rfl
    rw [exec_kind_bind]
    split
    · rename_i hk
      obtain ⟨r, us, hr, hc, hrk⟩ := (ended_seek.mpr hs).rest_of_current hk (by simp)
      rw [exec_advance_bind, advance_of_rest hr]
      exact .cons hr (.pure (.none hl hrk))
    · refine .bind (argumentList_outcome b (s.seek rest) hs (by rw [State.seek_rest]; omega)) ?_
      intro us rest' args _ hargs
      refine .bind (expect_outcome (ended_seek.mpr (ended_seek.mpr hs)) (by simp)) ?_
      rintro _ rest'' _ _ ⟨r, hrk, rfl⟩
      refine .pure ?_
      rw [List.append_nil]
      exact .some hl hargs hrk

/-- Arguments with commas between them, at least one. -/
theorem argumentList_outcome : ∀ (b : Nat) (s : State), Ended s → 5 * s.rest.length + 5 ≤ b →
    Outcome s (fun ts _ args => ListOf ts args) (exec (argumentList b) s)
  | 0, _, _, hb => by omega
  | b + 1, s, hs, hb => by
    rw [argumentList]
    refine .bind (binary_outcome b 0 s hs (by omega) (by omega)) ?_
    rintro ts rest e hts ⟨he, -⟩
    rw [exec_kind_bind]
    split
    · rename_i hk
      obtain ⟨c, us, hr, _, hc⟩ := (ended_seek.mpr hs).rest_of_current hk (by simp)
      have hlen : s.rest.length = ts.length + (us.length + 1) := by
        rw [hts, List.length_append, ← List.length_cons, ← hr, State.seek_rest]
      rw [exec_advance_bind, advance_of_rest hr]
      refine .cons hr ?_
      refine .bind (argumentList_outcome b _ hs (by rw [State.seek_rest]; omega)) ?_
      intro vs rest' args _ hargs
      refine .pure ?_
      rw [List.append_nil]
      exact .more he hc hargs
    · refine .pure ?_
      rw [List.append_nil]
      exact .one he

end

/-- A budget that is enough for any expression in the tokens left. -/
def Funded (s : State) : Prop := 5 * s.rest.length + 4 ≤ s.budget

/-- Tokens that have been read need no budget any more. -/
theorem Funded.seek {s : State} (h : Funded s) {ts rest : List Token} (hts : s.rest = ts ++ rest) :
    Funded (s.seek rest) := by
  have hlen : s.rest.length = ts.length + rest.length := by rw [hts, List.length_append]
  unfold Funded at h ⊢
  rw [State.seek_rest, State.seek_budget]
  omega

/-- **An expression parser reads an expression of the grammar, or adds to the errors.** -/
theorem expression_outcome {s : State} (hs : Ended s) (hf : Funded s) :
    Outcome s (fun ts _ e => ExprOf 1 ts e) (exec expression s) := by
  unfold expression
  rw [exec_get_bind]
  exact (binary_outcome _ 0 s hs hf (by omega)).mono fun _ _ _ _ h => h.1

/-! ## Declarations -/

/-- A declaration behind the word `const`, if it has one. -/
theorem declarationFrom_outcome {s : State} (hs : Ended s) (hf : Funded s) (pos : Pos)
    (isConst : Bool) :
    Outcome s (fun ts _ d => ∃ (t x e : Token) (type : Ty) (us : List Token) (init : Option Expr),
        t.kind.type? = some type ∧ x.kind = .ident ∧ InitOf us init ∧ e.kind = .semicolon ∧
        ts = t :: x :: (us ++ [e]) ∧ d = ⟨pos, isConst, type, x.literal, init⟩)
      (exec (declarationFrom pos isConst) s) := by
  unfold declarationFrom
  rw [exec_kind_bind]
  split
  · exact .refuse _
  · rename_i type htype
    have hne : s.current.kind ≠ .eof := fun he => by rw [he] at htype; simp [Kind.type?] at htype
    obtain ⟨t, ts, hr, hc, -⟩ := hs.rest_of_current rfl hne
    rw [hc] at htype
    rw [exec_advance_bind, advance_of_rest hr]
    refine .cons hr ?_
    rw [exec_current_bind]
    -- the name behind the type
    split
    · rename_i hx
      obtain ⟨x, us, hux, hxc, hx⟩ := (ended_seek.mpr hs).rest_of_current hx (by simp)
      have hus : s.rest = [t, x] ++ us := by rw [hr, ← State.seek_rest s ts, hux]; rfl
      rw [exec_advance_bind, advance_of_rest hux, State.seek_seek, hxc]
      refine .cons hux ?_
      rw [State.seek_seek, exec_kind_bind]
      -- an initializer, if there is one
      split
      · rename_i ha
        obtain ⟨a, vs, hva, _, ha⟩ := (ended_seek.mpr hs).rest_of_current ha (by simp)
        have hvs : s.rest = [t, x, a] ++ vs := by rw [hus, ← State.seek_rest s us, hva]; rfl
        rw [exec_advance_bind, advance_of_rest hva, State.seek_seek, map_eq_pure_bind,
          bind_assoc]
        refine .cons hva ?_
        rw [State.seek_seek]
        refine .bind (expression_outcome (ended_seek.mpr hs) (hf.seek hvs)) ?_
        intro ws rest e _ he
        rw [pure_bind]
        refine .bind (expect_outcome (ended_seek.mpr (ended_seek.mpr hs)) (by simp)) ?_
        rintro _ rest' _ _ ⟨m, hm, rfl⟩
        refine .pure ⟨t, x, m, type, a :: ws, some e, htype, hx, .some ha he, hm, ?_, rfl⟩
        rw [List.append_nil, List.cons_append]
      · rw [pure_bind]
        refine .bind (expect_outcome (ended_seek.mpr hs) (by simp)) ?_
        rintro _ rest' _ _ ⟨m, hm, rfl⟩
        exact .pure ⟨t, x, m, type, [], none, htype, hx, .none, hm, rfl, rfl⟩
    · exact .refuse _

/-- A declaration of the grammar is read, or the errors grow. -/
theorem declaration_outcome {s : State} (hs : Ended s) (hf : Funded s) :
    Outcome s (fun ts _ d => DeclOf ts d) (exec declaration s) := by
  rw [exec_declaration]
  split
  · rename_i hk
    obtain ⟨c, ts, hr, hc, hck⟩ := hs.rest_of_current hk (by simp)
    rw [advance_of_rest hr, hc]
    have hr' : s.rest = [c] ++ ts := hr
    refine .cons hr ((declarationFrom_outcome (ended_seek.mpr hs) (hf.seek hr') _ _).mono ?_)
    rintro us rest d _ ⟨t, x, e, type, vs, init, ht, hx, hi, he, rfl, rfl⟩
    exact .const hck ht hx hi he
  · refine (declarationFrom_outcome hs hf _ _).mono ?_
    rintro us rest d hus ⟨t, x, e, type, vs, init, ht, hx, hi, he, rfl, rfl⟩
    rw [current_of_rest hus]
    exact .mutable ht hx hi he

/-- A run of declarations ends at the first token that starts none. If it adds no error, then each
of them has been read as a whole and nothing was skipped. -/
theorem declarations_clean : ∀ (b : Nat) (s : State), Ended s → Funded s → s.rest.length < b →
    Clean s (fun ts _ ds => DeclsOf ts ds) (StateT.run (declarations b) s)
  | 0, _, _, _, hb => by omega
  | b + 1, s, hs, hf, hb => by
    rw [run_declarations]
    split
    · refine (declaration_outcome hs hf).recovering.bind (onward_recovering onward_declaration s)
        (onward_declarations b _) ?_
      rintro ts rest hts hs' ⟨d, hd, hdecl⟩
      have hpos := List.length_pos_iff.mpr hdecl.ne_nil
      have hlen : s.rest.length = ts.length + rest.length := by rw [hts, List.length_append]
      have ih := declarations_clean b (s.seek rest) hs (hf.seek hts)
        (by rw [State.seek_rest]; omega)
      dsimp only
      rw [hs', hd]
      intro he
      obtain ⟨us, rest', hus, hs'', hds⟩ := ih he
      exact ⟨us, rest', hus, hs'', .cons hdecl hds⟩
    · exact .pure .nil

/-! ## Statements -/

theorem assignment_outcome {s : State} (hs : Ended s) (hf : Funded s) {x : Token}
    {ts : List Token} (hr : s.rest = x :: ts) (hx : x.kind = .ident) :
    Outcome s (fun us _ st => ∃ (vs ws : List Token) (a : Token) (v : Var) (e : Expr),
        VarOf vs v ∧ a.kind = .assign ∧ ExprOf 1 ws e ∧ us = vs ++ a :: ws ∧ st = .assign v e)
      (exec assignment s) := by
  unfold assignment
  refine .bind (variableRef_outcome hs hr hx) ?_
  intro vs rest v hvs hv
  refine .bind (expect_outcome (ended_seek.mpr hs) (by simp)) ?_
  rintro _ rest' _ has ⟨a, ha, rfl⟩
  refine .bind (expression_outcome (ended_seek.mpr (ended_seek.mpr hs))
    ((hf.seek hvs).seek has)) ?_
  intro ws rest'' e _ he
  refine .pure ⟨vs, ws, a, v, e, hv, ha, he, ?_, rfl⟩
  rw [List.append_nil, List.singleton_append]

theorem condition_outcome {s : State} (hs : Ended s) (hf : Funded s) :
    Outcome s (fun ts _ e => CondOf ts e) (exec condition s) := by
  unfold condition
  refine .bind (expect_outcome hs (by simp)) ?_
  rintro _ rest _ hl ⟨l, hlk, rfl⟩
  refine .bind (expression_outcome (ended_seek.mpr hs) (hf.seek hl)) ?_
  intro us rest' e _ he
  refine .bind (expect_outcome (ended_seek.mpr (ended_seek.mpr hs)) (by simp)) ?_
  rintro _ rest'' _ _ ⟨r, hrk, rfl⟩
  refine .pure ?_
  rw [List.append_nil, List.singleton_append]
  exact .mk hlk he hrk

/-- A statement of the grammar that no `else` behind it could have gone on with. -/
def Closed (s : State) (ts rest : List Token) (o : Option Stmt) : Prop :=
  ∃ dangling, StmtOf true dangling ts o ∧
    (dangling = true → (s.seek rest).current.kind ≠ .elseWord)

theorem Closed.ne_nil {s : State} {ts rest : List Token} {o : Option Stmt}
    (h : Closed s ts rest o) : ts ≠ [] := by
  obtain ⟨_, h, -⟩ := h
  exact h.ne_nil

/-- Statements are read as the grammar has them, with a budget that covers the tokens left. -/
def ReadsStatements (b : Nat) : Prop :=
  ∀ s : State, Ended s → Funded s → 3 * s.rest.length + 2 ≤ b →
    Clean s (Closed s) (exec (statement b) s)

/-- An assignment. Its own parser recovers, so only its last token can be missing. -/
theorem assignmentStatement_clean {s : State} (hs : Ended s) (hf : Funded s)
    (hk : s.current.kind = .ident) (b : Nat) :
    Clean s (Closed s) (exec (statement (b + 1)) s) := by
  obtain ⟨x, ts, hr, -, hx⟩ := hs.rest_of_current hk (by simp)
  rw [exec_statement_eq, hk]
  dsimp only
  refine (assignment_outcome hs hf hr hx).recovering.bind
    (onward_recovering onward_assignment s) ?_ ?_
  · split
    · exact onward_bind (onward_expect _) (fun _ => onward_pure _) _
    · exact .refl _
  · rintro us rest hus hs' ⟨st, hst, vs, ws, a, v, e, hv, ha, he, rfl, rfl⟩
    rw [hst, hs']
    refine (Outcome.bind_clean (expect_outcome (ended_seek.mpr hs) (by simp)) ?_)
    rintro _ rest' _ _ ⟨m, hm, rfl⟩
    refine .pure ⟨false, ?_, by simp⟩
    rw [List.append_nil, List.append_assoc, List.cons_append]
    exact .assign hv ha he hm

/-- What stands behind the word `if`, and then perhaps an `else`. -/
theorem branchFrom_clean {b : Nat} (ih : ReadsStatements b) {i : Token} (hi : i.kind = .ifWord)
    {s : State} (hs : Ended s) (hf : Funded s) (hb : 3 * s.rest.length + 2 ≤ b) :
    Clean s (fun ts rest o => Closed s (i :: ts) rest o) (exec (branchFrom b) s) := by
  refine (condition_outcome hs hf).bind_clean ?_
  intro us rest cond hus hcond
  have hlen : s.rest.length = us.length + rest.length := by rw [hus, List.length_append]
  have hfr : Funded (s.seek rest) := hf.seek hus
  refine (ih (s.seek rest) hs hfr (by rw [State.seek_rest]; omega)).attempt_bind
    (onward_statement b) ?_ ?_
  · intro o
    refine onward_kind_bind fun k => ?_
    dsimp only
    split
    · exact onward_bind onward_advance fun _ =>
        onward_attempt_bind (onward_statement b) fun no => onward_pure _
    · exact onward_pure _
  rintro vs rest' yes hvs ⟨dangling, hyes, hopen⟩
  rw [State.seek_rest] at hvs
  have hlen' : rest.length = vs.length + rest'.length := by rw [hvs, List.length_append]
  rw [exec_kind_bind]
  dsimp only
  split
  · rename_i hl
    obtain ⟨l, ws, hw, -, hlk⟩ := (ended_seek.mpr hs).rest_of_current hl (by simp)
    have hws : rest' = l :: ws := hw
    -- the statement before this `else` did not end in an `if` that could have taken it
    have hfalse : dangling = false := by
      cases dangling with
      | false => rfl
      | true => exact absurd hl (hopen rfl)
    rw [exec_advance_bind, State.seek_seek, advance_of_rest hw]
    refine .cons hw ?_
    refine (ih (s.seek ws) hs
      (hfr.seek (show (s.seek rest).rest = (vs ++ [l]) ++ ws by
        rw [State.seek_rest, hvs, hws, List.append_assoc, List.singleton_append]))
      (by rw [State.seek_rest]; rw [hws, List.length_cons] at hlen'; omega)).attempt_bind
      (onward_statement b) (fun _ => onward_pure _) ?_
    rintro xs rest'' no _ ⟨dangling', hno, hopen'⟩
    refine .pure ⟨dangling', ?_, hopen'⟩
    rw [List.append_nil]
    exact .ifElse hi hcond hyes (fun _ => hfalse) hlk hno
  · rename_i hl
    rw [pure_bind]
    refine .pure ⟨true, ?_, fun _ => hl⟩
    rw [List.append_nil]
    exact .ifThen hi hcond hyes

/-- What stands behind the word `while`. -/
theorem loopFrom_clean {b : Nat} (ih : ReadsStatements b) {w : Token} (hw : w.kind = .whileWord)
    {s : State} (hs : Ended s) (hf : Funded s) (hb : 3 * s.rest.length + 2 ≤ b) :
    Clean s (fun ts rest o => Closed s (w :: ts) rest o) (exec (loopFrom w.pos b) s) := by
  refine (condition_outcome hs hf).bind_clean ?_
  intro us rest cond hus hcond
  have hlen : s.rest.length = us.length + rest.length := by rw [hus, List.length_append]
  refine (ih (s.seek rest) hs (hf.seek hus) (by rw [State.seek_rest]; omega)).attempt_bind
    (onward_statement b) (fun _ => onward_pure _) ?_
  rintro vs rest' body _ ⟨dangling, hbody, hopen⟩
  refine .pure ⟨dangling, ?_, hopen⟩
  rw [List.append_nil]
  exact .loop hw hcond hbody

mutual

/-- **A statement that adds no error is one of the grammar.** The induction is on the budget, and
each kind of statement has a lemma of its own with the smaller statements as a hypothesis. -/
theorem statement_clean : ∀ b : Nat, ReadsStatements b
  | 0, _, _, _, hb => by omega
  | b + 1, s, hs, hf, hb => by
    by_cases hident : s.current.kind = .ident
    · exact assignmentStatement_clean hs hf hident b
    rw [exec_statement_eq]
    split
    · contradiction
    · rename_i hk
      obtain ⟨i, ts, hr, -, hi⟩ := hs.rest_of_current hk (by simp)
      have hlen : s.rest.length = ts.length + 1 := by rw [hr, List.length_cons]
      rw [advance_of_rest hr]
      exact .cons hr (branchFrom_clean (statement_clean b) hi (ended_seek.mpr hs)
        (hf.seek (show s.rest = [i] ++ ts from hr)) (by rw [State.seek_rest]; omega))
    · rename_i hk
      obtain ⟨w, ts, hr, hc, hw⟩ := hs.rest_of_current hk (by simp)
      have hlen : s.rest.length = ts.length + 1 := by rw [hr, List.length_cons]
      rw [advance_of_rest hr, hc]
      exact .cons hr (loopFrom_clean (statement_clean b) hw (ended_seek.mpr hs)
        (hf.seek (show s.rest = [w] ++ ts from hr)) (by rw [State.seek_rest]; omega))
    -- a block
    · rename_i hk
      obtain ⟨l, ts, hr, -, hl⟩ := hs.rest_of_current hk (by simp)
      intro he
      obtain ⟨us, rest, hus, hs', hblock⟩ := scope_clean b s hs hf (by omega) hr hl he
      exact ⟨us, rest, hus, hs', false, .block hblock, by simp⟩
    -- a semicolon by itself
    · rename_i hk
      obtain ⟨m, ts, hr, -, hm⟩ := hs.rest_of_current hk (by simp)
      rw [advance_of_rest hr]
      exact .cons hr (.pure ⟨false, .empty hm, by simp⟩)
    · exact .report (moves_advance _)

/-- Statements up to a closing brace. Between them the parser recovers from errors, which a run
without errors never has to do. -/
theorem statements_clean : ∀ (b : Nat) (s : State), Ended s → Funded s →
    3 * s.rest.length + 3 ≤ b →
    Clean s (fun ts _ ss => StmtsOf true ts ss) (StateT.run (statements b) s)
  | 0, _, _, _, hb => by omega
  | b + 1, s, hs, hf, hb => by
    rw [run_statements]
    split
    · exact .pure .nil
    · split
      · exact .report ((onward_recover _).trans (onward_statements b _))
      · refine (statement_clean b s hs hf (by omega)).bind (onward_statement b s)
          (onward_statements b _) ?_
        rintro ts rest hts hs' hstmt
        have hpos := List.length_pos_iff.mpr hstmt.ne_nil
        have hlen : s.rest.length = ts.length + rest.length := by rw [hts, List.length_append]
        have ih := statements_clean b (s.seek rest) hs (hf.seek hts)
          (by rw [State.seek_rest]; omega)
        obtain ⟨_, hstmt, -⟩ := hstmt
        dsimp only
        rw [hs']
        intro he
        obtain ⟨us, rest', hus, hs'', hss⟩ := ih he
        exact ⟨us, rest', hus, hs'', .cons hstmt hss⟩

/-- A block: its declarations, then its statements, in braces. -/
theorem scope_clean : ∀ (b : Nat) (s : State), Ended s → Funded s → 3 * s.rest.length + 1 ≤ b →
    ∀ {l : Token} {ts : List Token}, s.rest = l :: ts → l.kind = .lbrace →
    Clean s (fun ts _ sc => BlockOf true ts sc) (StateT.run (scope b) s)
  | 0, _, _, _, hb, _, _, _, _ => by omega
  | b + 1, s, hs, hf, hb, l, ts, hr, hl => by
    have hlen : s.rest.length = ts.length + 1 := by rw [hr, List.length_cons]
    have hft : Funded (s.seek ts) := hf.seek (show s.rest = [l] ++ ts from hr)
    rw [run_scope, advance_of_rest hr]
    refine .cons hr ?_
    have hd := declarations_clean s.budget (s.seek ts) hs hft
      (by unfold Funded at hf; rw [State.seek_rest]; omega)
    refine hd.bind (onward_declarations _ _)
      ((onward_statements b _).trans (onward_expect _ _)) ?_
    intro us rest hus hs' hds
    rw [State.seek_rest] at hus
    have hlen' : ts.length = us.length + rest.length := by rw [hus, List.length_append]
    dsimp only
    rw [hs', State.seek_seek]
    refine (statements_clean b (s.seek rest) hs (hft.seek hus)
      (by rw [State.seek_rest]; omega)).bind (onward_statements b _) (onward_expect _ _) ?_
    intro vs rest' hvs hs'' hss
    rw [hs'', State.seek_seek]
    intro he
    obtain ⟨ws, rest'', hws, hs3, _, _, r, hrk, rfl⟩ :=
      (expect_outcome (ended_seek.mpr hs) (by simp)).clean he
    exact ⟨[r], rest'', hws, hs3, .mk hl hds hss hrk⟩

end

end Shader.Parser
