import Mathlib.Data.Prod.Lex
import Shader.Proofs.Tiling

/-!
# A tree is in the order of its tokens

The parts of a tree have positions: an operator that of its token, all else that of its first. Read
from left to right, these are positions of tokens of the text, each token giving one at most. This
is so for every text, since a parser only takes tokens from the front, and what it gives up is left
out.

`Outline` is what is needed of a tree for that: its parts with their positions, and which of them
stand before and behind the token of another.
-/

namespace Shader

/-! ## The order of positions -/

/-- Positions are ordered as in the text: by lines, and in a line by columns. -/
instance : LinearOrder Pos :=
  LinearOrder.lift' (fun p => toLex (p.line, p.column)) fun p q h => by
    cases p
    cases q
    simpa using h

theorem Pos.lt_iff {p q : Pos} :
    p < q ↔ p.line < q.line ∨ p.line = q.line ∧ p.column < q.column := Prod.Lex.toLex_lt_toLex

/-- A byte moves the position on. -/
theorem Pos.lt_step (p : Pos) (b : UInt8) : p < p.step b := by
  rw [Pos.lt_iff, Pos.step]
  split
  · exact .inl (Int.lt_succ _)
  · exact .inr ⟨rfl, Int.lt_succ _⟩

theorem Pos.le_advance (p : Pos) (t : Bytes) : p ≤ p.advance t := by
  induction t generalizing p with
  | nil => exact le_rfl
  | cons b t ih => exact (p.lt_step b).le.trans (ih _)

theorem Pos.lt_advance {p : Pos} {t : Bytes} (h : t ≠ []) : p < p.advance t := by
  cases t with
  | nil => exact absurd rfl h
  | cons b t => exact (p.lt_step b).trans_le (Pos.le_advance _ t)

/-- A place of a text has one position. -/
theorem Pos.IsAt.unique {p q : Pos} {t : Bytes} {b : Nat} (hp : p.IsAt t b) (hq : q.IsAt t b) :
    p = q := by
  have hline : p.line = q.line := hp.line.trans hq.line.symm
  have hmem : ∀ {j : Nat}, j < b → t[j]? = some (byte '\n') → byte '\n' ∈ t.take b := by
    intro j hj hnew
    exact List.mem_of_getElem? (i := j) (by rw [List.getElem?_take_of_lt hj, hnew])
  have hcolumn : p.column = q.column := by
    rcases hp.column with ⟨hnone, hcol⟩ | ⟨j, hj, hnew, hlast, hcol⟩ <;>
      rcases hq.column with ⟨hnone', hcol'⟩ | ⟨j', hj', hnew', hlast', hcol'⟩
    · rw [hcol, hcol']
    · exact absurd (hmem hj' hnew') hnone
    · exact absurd (hmem hj hnew) hnone'
    · -- both are the last newline
      have hjj : j = j' := by
        rcases Nat.lt_trichotomy j j' with hlt | heq | hlt
        · exact absurd hnew' (hlast j' hlt hj')
        · exact heq
        · exact absurd hnew (hlast' j hlt hj)
      rw [hcol, hcol', hjj]
  cases p
  cases q
  simp_all

/-- **Positions are ordered as the bytes are.** -/
theorem Pos.IsAt.lt {p q : Pos} {t : Bytes} {b c : Nat} (hp : p.IsAt t b) (hq : q.IsAt t c)
    (hbc : b < c) (hc : c ≤ t.length) : p < q := by
  rw [hp.unique (Pos.isAt_advance (by omega)), hq.unique (Pos.isAt_advance hc)]
  have hsplit : t.take c = t.take b ++ (t.drop b).take (c - b) := by
    rw [← List.take_add, Nat.add_sub_cancel' hbc.le]
  rw [hsplit, Pos.advance_append]
  refine Pos.lt_advance fun hnil => ?_
  have := congrArg List.length hnil
  rw [List.length_take, List.length_drop, List.length_nil] at this
  omega

/-- A token of a text is at a span of it. -/
theorem exists_span {t : Bytes} {tokens : List Token} {spans : List Span}
    (h : List.Forall₂ (fun tok s => tok.IsAt t s) tokens spans) {tok : Token}
    (htok : tok ∈ tokens) :
    ∃ s ∈ spans, tok.IsAt t s := by
  induction h with
  | nil => cases htok
  | cons hat _ ih =>
    rcases List.mem_cons.mp htok with rfl | htok
    · exact ⟨_, List.mem_cons_self, hat⟩
    · obtain ⟨s, hs, hat⟩ := ih htok
      exact ⟨s, List.mem_cons_of_mem _ hs, hat⟩

/-- The tokens lie side by side in the text. -/
theorem exists_tiling (source : Bytes) :
    ∃ spans, Tiling (visible source) 0 (scan source).1 spans := by
  obtain ⟨spans, h, -⟩ := tiling_scan (Nat.zero_le (visible source).length)
  exact ⟨spans, h⟩

/-- **The positions of the tokens of a text increase.** -/
theorem pairwise_pos_scan (source : Bytes) :
    ((scan source).1.map Token.pos).Pairwise (· < ·) := by
  obtain ⟨spans, heach, hinside, hordered, -, -⟩ := exists_tiling source
  generalize (scan source).1 = tokens at heach
  induction heach with
  | nil => exact .nil
  | @cons tok s tokens spans htok hrest ih =>
    rw [List.pairwise_cons] at hordered
    rw [List.map_cons, List.pairwise_cons]
    refine ⟨fun q hq => ?_, ih (fun s' hs' => hinside s' (by simp [hs'])) hordered.2⟩
    obtain ⟨tok', htok', rfl⟩ := List.mem_map.mp hq
    obtain ⟨s', hs', hat⟩ := exists_span hrest htok'
    obtain ⟨-, hs₁, hs₂⟩ := hinside s (by simp)
    obtain ⟨-, hs₁', hs₂'⟩ := hinside s' (by simp [hs'])
    have hbefore : s.stop ≤ s'.start := hordered.1 s' hs'
    exact htok.position.lt hat.position (by omega) (by omega)

/-! ## Outlines -/

/-- The positions of a tree: its parts, each with what belongs to it before and behind its own
token. -/
inductive Outline where
  | empty
  | part (before : Outline) (pos : Pos) (behind : Outline)
  | both (first second : Outline)

namespace Outline

/-- The positions from left to right. -/
def places : Outline → List Pos
  | empty => []
  | part before pos behind => before.places ++ pos :: behind.places
  | both first second => first.places ++ second.places

/-- Whether the part at `p` goes on to `q`: a part at `p` has `q` behind its token. -/
def Reaches : Outline → Pos → Pos → Prop
  | empty, _, _ => False
  | part before pos behind, p, q =>
    (p = pos ∧ q ∈ behind.places) ∨ before.Reaches p q ∨ behind.Reaches p q
  | both first second, p, q => first.Reaches p q ∨ second.Reaches p q

/-- A part that has nothing in it. -/
def leaf (pos : Pos) : Outline := part empty pos empty

/-- Outlines in a row. -/
def row {α : Type} (o : α → Outline) : List α → Outline
  | [] => empty
  | a :: as => both (o a) (row o as)

end Outline

namespace Ast

open Outline

mutual

/-- The positions of an expression. -/
def Expr.outline : Expr → Outline
  | .int pos _ | .float pos _ | .bool pos _ => leaf pos
  | .var v => leaf v.pos
  | .unary pos _ x => part empty pos x.outline
  | .binary pos _ l r => part l.outline pos r.outline
  | .call pos _ args => part empty pos (Expr.outlines args)
  | .construct pos _ args => part empty pos (Expr.outlines args)

/-- The positions of expressions in a row. -/
def Expr.outlines : List Expr → Outline
  | [] => empty
  | e :: es => both e.outline (Expr.outlines es)

end

/-- The positions of a declaration. -/
def Decl.outline (d : Decl) : Outline := part empty d.pos (d.init.elim empty Expr.outline)

mutual

/-- The positions of a statement. -/
def Stmt.outline : Stmt → Outline
  | .assign target value => part empty target.pos value.outline
  | .branch cond yes none => both cond.outline yes.outline
  | .branch cond yes (some no) => both cond.outline (both yes.outline no.outline)
  | .loop _ cond body => both cond.outline body.outline
  | .scope decls stmts => both (row Decl.outline decls) (Stmt.outlines stmts)

/-- The positions of statements in a row. -/
def Stmt.outlines : List Stmt → Outline
  | [] => empty
  | s :: ss => both s.outline (Stmt.outlines ss)

end

end Ast

/-! ## What a parser collects -/

namespace Parser

open Ast

variable {α β : Type} {pre : List Pos} {s : State}

theorem Ended.of_last {s' : State} (hs : Ended s) (h : s'.last = s.last) : Ended s' :=
  (congrArg Token.kind h).trans hs

/-- From `s`, where the positions `pre` have been met, tokens are taken from the front. What is
given has the positions `o`, which are among `pre` and those of the tokens, in their order. -/
def Collects (pre : List Pos) (s : State) (r : Option α × State) (o : α → List Pos) : Prop :=
  ∃ ts, s.rest = ts ++ r.2.rest ∧ r.2.last = s.last ∧
    ∀ a, r.1 = some a → (o a).Sublist (pre ++ ts.map Token.pos)

namespace Collects

variable {o : α → List Pos} {o' : β → List Pos}

theorem pure {a : α} (h : (o a).Sublist pre) : Collects pre s (some a, s) o := by
  refine ⟨[], rfl, rfl, fun a' ha => ?_⟩
  cases ha
  simpa using h

theorem vacant {a : α} {o : α → Outline} (h : (o a).places = []) :
    Collects pre s (some a, s) fun a => pre ++ (o a).places := by
  refine .pure ?_
  rw [h, List.append_nil]

/-- Where a parser gives up nothing is collected. -/
theorem none {s' : State} (h : Moves s s') : Collects pre s (.none, s') o := by
  obtain ⟨ts, hts⟩ := h.rest
  exact ⟨ts, hts.symm, h.last, fun a ha => by cases ha⟩

/-- What is collected behind some tokens, when all that was met before is among them. -/
theorem after {s' : State} {ts : List Token} {pre' : List Pos} {r : Option α × State}
    (hts : s.rest = ts ++ s'.rest) (hlast : s'.last = s.last)
    (hpre : pre'.Sublist (pre ++ ts.map Token.pos)) (h : Collects pre' s' r o) :
    Collects pre s r o := by
  obtain ⟨us, hus, hlast', ho⟩ := h
  refine ⟨ts ++ us, by rw [hts, hus, List.append_assoc], hlast'.trans hlast, fun a ha => ?_⟩
  rw [List.map_append, ← List.append_assoc]
  exact (ho a ha).trans (hpre.append (List.Sublist.refl _))

theorem skip {s' : State} {r : Option α × State} (hm : Moves s s') (h : Collects pre s' r o) :
    Collects pre s r o := by
  obtain ⟨ts, hts⟩ := hm.rest
  exact .after hts.symm hm.last (List.sublist_append_left _ _) h

/-- A token whose position is kept. -/
theorem token (hs : Ended s) (hk : s.current.kind ≠ .eof) {r : Option α × State}
    (h : Collects (pre ++ [s.current.pos]) s.advance r o) : Collects pre s r o := by
  obtain ⟨t, ts, hrest, hcur, -⟩ := hs.rest_of_current rfl hk
  have hsplit : s.rest = [t] ++ s.advance.rest := by
    rw [hrest, advance_of_rest hrest]
    rfl
  rw [hcur] at h
  exact .after hsplit rfl (List.Sublist.refl _) h

theorem bind {p : Parser α} {f : α → Parser β} (hs : Ended s) (hp : Collects pre s (exec p s) o)
    (hf : ∀ a s', Ended s' → Collects (o a) s' (exec (f a) s') o') :
    Collects pre s (exec (p >>= f) s) o' := by
  obtain ⟨ts, hts, hlast, ho⟩ := hp
  rw [exec_bind]
  generalize exec p s = r at hts hlast ho
  rcases r with ⟨_ | a, s'⟩
  · exact ⟨ts, hts, hlast, fun a ha => by cases ha⟩
  · exact .after hts hlast (ho a rfl) (hf a s' (hs.of_last hlast))

/-- A step whose result has no positions. -/
theorem next {p : Parser α} {f : α → Parser β} (hs : Ended s) (hp : Onward (exec p))
    (hf : ∀ a s', Ended s' → Collects pre s' (exec (f a) s') o') :
    Collects pre s (exec (p >>= f) s) o' := by
  obtain ⟨ts, hts⟩ := (hp s).rest
  refine .bind (o := fun _ => pre) hs ⟨ts, hts.symm, (hp s).last, fun _ _ => ?_⟩ hf
  exact List.sublist_append_left _ _

theorem attempt_bind {p : Parser α} {f : Option α → Parser β} (hs : Ended s)
    (hp : Collects pre s (exec p s) o)
    (hsome : ∀ a s', Ended s' → Collects (o a) s' (exec (f (some a)) s') o')
    (hnone : ∀ s', Ended s' → Collects pre s' (exec (f .none) s') o') :
    Collects pre s (exec (attempt p >>= f) s) o' := by
  obtain ⟨ts, hts, hlast, ho⟩ := hp
  rw [exec_attempt_bind]
  generalize exec p s = r at hts hlast ho
  rcases r with ⟨_ | a, s'⟩
  · exact .after hts hlast (List.sublist_append_left _ _) (hnone s' (hs.of_last hlast))
  · exact .after hts hlast (ho a rfl) (hsome a s' (hs.of_last hlast))

end Collects

/-- A parser whose results are in the order of the tokens it takes. -/
def InOrder (p : Parser α) (o : α → Outline) : Prop :=
  ∀ pre s, Ended s → Collects pre s (exec p s) fun a => pre ++ (o a).places

section Expr

theorem Collects.variableRef (hs : Ended s) (hk : s.current.kind = .ident) :
    Collects pre s (exec variableRef s) fun v => pre ++ [v.pos] := by
  unfold Parser.variableRef
  rw [exec_current_bind, exec_advance_bind]
  refine .token hs (by rw [hk]; simp) ?_
  generalize s.current = name
  have hs' : Ended s.advance := hs
  generalize s.advance = s at hs'
  rw [exec_kind_bind]
  split
  · refine .next hs' onward_advance fun _ s hs => ?_
    rw [exec_current_bind]
    split
    · split
      · exact .next hs onward_advance fun _ s hs => .next hs (onward_expect _) fun _ s hs =>
          .pure (List.Sublist.refl _)
      · exact .none (moves_report _ _)
    · exact .none (moves_report _ _)
  · exact .pure (List.Sublist.refl _)

mutual

theorem inOrder_binary : ∀ b floor : Nat, InOrder (binary b floor) Expr.outline
  | 0, _ => fun _ s _ => .none (.refl s)
  | b + 1, floor => fun pre s hs =>
    .bind hs (inOrder_unary b pre s hs) fun left s hs => collects_binaryRest b floor left pre s hs

/-- The loop of a level: the operator stands behind its left operand and before its right one. -/
theorem collects_binaryRest : ∀ (b floor : Nat) (left : Expr) (pre : List Pos) (s : State),
    Ended s → Collects (pre ++ left.outline.places) s (exec (binaryRest b floor left) s)
      fun e => pre ++ e.outline.places
  | 0, _, _, _, s, _ => .none (.refl s)
  | b + 1, floor, left, pre, s, hs => by
    rw [binaryRest, exec_current_bind]
    split
    · rename_i op level hop
      split
      · rw [exec_advance_bind]
        refine .token hs (fun hk => by rw [hk] at hop; cases hop) ?_
        refine .bind (s := s.advance) hs (inOrder_binary b level _ _ hs) fun right s' hs' => ?_
        have hrest := collects_binaryRest b floor (.binary s.current.pos op left right) pre s' hs'
        simpa [Expr.outline, Outline.places] using hrest
      · exact .pure (List.Sublist.refl _)
    · exact .pure (List.Sublist.refl _)

theorem inOrder_unary : ∀ b : Nat, InOrder (unary b) Expr.outline
  | 0 => fun _ s _ => .none (.refl s)
  | b + 1 => by
    intro pre s hs
    rw [unary, exec_current_bind]
    split
    · rename_i op hop
      rw [exec_advance_bind]
      refine .token hs (fun hk => by rw [hk] at hop; cases hop) ?_
      refine .bind (s := s.advance) hs (inOrder_unary b _ _ hs) fun x s' _ => .pure ?_
      simp [Expr.outline, Outline.places]
    · exact inOrder_power b pre s hs

theorem inOrder_power : ∀ b : Nat, InOrder (power b) Expr.outline
  | 0 => fun _ s _ => .none (.refl s)
  | b + 1 => by
    intro pre s hs
    rw [power]
    refine .bind hs (inOrder_primary b pre s hs) fun base s hs => ?_
    rw [exec_current_bind]
    split
    · rename_i hk
      rw [exec_advance_bind]
      refine .token hs (by rw [hk]; simp) ?_
      refine .bind (s := s.advance) hs (inOrder_unary b _ _ hs) fun x s' _ => .pure ?_
      simp [Expr.outline, Outline.places]
    · exact .pure (List.Sublist.refl _)

/-- Each kind of operand begins with the token that it is at. -/
theorem inOrder_primary : ∀ b : Nat, InOrder (primary b) Expr.outline
  | 0 => fun _ s _ => .none (.refl s)
  | b + 1 => by
    intro pre s hs
    -- what stands behind the token of a literal
    have hleaf : ∀ e : Expr, e.outline.places = [s.current.pos] → s.current.kind ≠ .eof →
        Collects pre s (exec (do advance; return e) s) fun e => pre ++ e.outline.places := by
      intro e he hk
      rw [exec_advance_bind]
      exact .token hs hk (.pure (by rw [he]))
    -- and behind that of a call or a constructor
    have hcall : ∀ f : List Expr → Expr,
        (∀ args, (f args).outline.places = s.current.pos :: (Expr.outlines args).places) →
        s.current.kind ≠ .eof →
        Collects pre s (exec (do advance; let args ← arguments b; return f args) s)
          fun e => pre ++ e.outline.places := by
      intro f hf hk
      rw [exec_advance_bind]
      refine .token hs hk (.bind (s := s.advance) hs (inOrder_arguments b _ _ hs) ?_)
      intro args s' _
      exact .pure (by rw [hf, List.append_assoc]; rfl)
    rw [primary, exec_current_bind]
    split
    · rename_i hk
      split
      · exact hleaf _ rfl (by rw [hk]; simp)
      · exact .none (moves_report _ _)
    · rename_i hk
      split
      · exact hleaf _ rfl (by rw [hk]; simp)
      · exact .none (moves_report _ _)
    · rename_i hk
      exact hleaf _ rfl (by rw [hk]; simp)
    · rename_i hk
      exact hleaf _ rfl (by rw [hk]; simp)
    · rename_i hk
      rw [exec_get_bind]
      split
      · exact hcall _ (fun _ => rfl) (by rw [hk]; simp)
      · exact .bind hs (Collects.variableRef hs hk) fun v s _ => .pure (List.Sublist.refl _)
    · refine .next hs onward_advance fun _ s hs => ?_
      refine .bind hs (inOrder_binary b 0 pre s hs) fun e s hs => ?_
      exact .next hs (onward_expect _) fun _ s hs => .pure (List.Sublist.refl _)
    · split
      · rename_i hty
        exact hcall _ (fun _ => rfl) (fun hk => by rw [hk] at hty; cases hty)
      · exact .none (moves_report _ _)

theorem inOrder_arguments : ∀ b : Nat, InOrder (arguments b) Expr.outlines
  | 0 => fun _ s _ => .none (.refl s)
  | b + 1 => by
    intro pre s hs
    rw [arguments]
    refine .next hs (onward_expect _) fun _ s hs => ?_
    rw [exec_kind_bind]
    split
    · exact .next hs onward_advance fun _ s hs => .vacant rfl
    · refine .bind hs (inOrder_argumentList b pre s hs) fun args s hs => ?_
      exact .next hs (onward_expect _) fun _ s hs => .pure (List.Sublist.refl _)

theorem inOrder_argumentList : ∀ b : Nat, InOrder (argumentList b) Expr.outlines
  | 0 => fun _ s _ => .none (.refl s)
  | b + 1 => by
    intro pre s hs
    rw [argumentList]
    refine .bind hs (inOrder_binary b 0 pre s hs) fun arg s hs => ?_
    rw [exec_kind_bind]
    split
    · refine .next hs onward_advance fun _ s hs => ?_
      refine .bind hs (inOrder_argumentList b _ s hs) fun args s hs => .pure ?_
      simp [Expr.outlines, Outline.places]
    · exact .pure (by simp [Expr.outlines, Outline.places])

end

theorem inOrder_expression : InOrder expression Expr.outline :=
  fun pre s hs => inOrder_binary s.budget 0 pre s hs

theorem inOrder_condition : InOrder condition Expr.outline := by
  intro pre s hs
  refine .next hs (onward_expect _) fun _ s hs => ?_
  refine .bind hs (inOrder_expression pre s hs) fun c s hs => ?_
  exact .next hs (onward_expect _) fun _ s hs => .pure (List.Sublist.refl _)

end Expr

section Stmt

/-- A declaration from its type on, where its position is that of a token met before or of the type
itself. -/
theorem Collects.declarationFrom {front : List Pos} {pos : Pos} {isConst : Bool} (hs : Ended s)
    (htype : ∀ r : Option Decl × State, s.current.kind ≠ .eof →
      Collects (front ++ [pos]) s.advance r (fun d => front ++ d.outline.places) →
      Collects pre s r fun d => front ++ d.outline.places) :
    Collects pre s (exec (Parser.declarationFrom pos isConst) s)
      fun d => front ++ d.outline.places := by
  unfold Parser.declarationFrom
  rw [exec_kind_bind]
  split
  · exact .none (moves_report _ _)
  · rename_i type hty
    rw [exec_advance_bind]
    refine htype _ (fun hk => by rw [hk] at hty; cases hty) ?_
    have hs' : Ended s.advance := hs
    generalize s.advance = s at hs'
    -- behind the initializer
    have hend : ∀ (name : Token) (init : Option Expr) (s : State), Ended s →
        Collects (front ++ pos :: (init.elim .empty Expr.outline).places) s (exec (do
          expect .semicolon
          return (⟨pos, isConst, type, name.literal, init⟩ : Decl)) s)
          fun d => front ++ d.outline.places :=
      fun _ _ s hs => .next hs (onward_expect _) fun _ s _ => .pure (List.Sublist.refl _)
    rw [exec_current_bind]
    generalize s.current = name
    split
    · refine .next hs' onward_advance fun _ s hs => ?_
      rw [exec_kind_bind]
      split
      · refine .next hs onward_advance fun _ s hs => ?_
        rw [map_eq_pure_bind, bind_assoc]
        refine .bind hs (inOrder_expression _ s hs) fun init s hs => ?_
        rw [List.append_assoc]
        exact hend name (some init) s hs
      · exact hend name Option.none s hs
    · exact .none (moves_report _ _)

/-- A declaration is at its name, which stands before the initializer. -/
theorem inOrder_declaration : InOrder declaration Decl.outline := by
  intro pre s hs
  rw [exec_declaration]
  split
  · rename_i hk
    refine .token hs (by rw [hk]; simp) (.declarationFrom (s := s.advance) hs fun r _ h => ?_)
    exact .skip (moves_advance _) h
  · exact .declarationFrom hs fun r hk h => .token hs hk h

/-- After a recovery nothing is collected either. -/
theorem Collects.recovering {p : Parser α} {o : α → List Pos} (h : Collects pre s (exec p s) o) :
    Collects pre s (StateT.run (recovering p) s) o := by
  obtain ⟨ts, hts, hlast, ho⟩ := h
  rw [run_recovering]
  generalize exec p s = r at hts hlast ho
  rcases r with ⟨_ | a, s'⟩
  · exact .after hts hlast (List.sublist_append_left _ _) (.none (onward_recover s'))
  · exact ⟨ts, hts, hlast, ho⟩

/-- A list whose first part is read, or left out, and whose others follow. -/
theorem Collects.cons {o : α → Outline} {r : Option α × State} {others : List α × State}
    (hs : Ended s) (h : Collects pre s r fun a => pre ++ (o a).places)
    (hothers : ∀ pre', Ended r.2 →
      Collects pre' r.2 (some others.1, others.2) fun as => pre' ++ (Outline.row o as).places) :
    Collects pre s (some (r.1.toList ++ others.1), others.2)
      fun as => pre ++ (Outline.row o as).places := by
  obtain ⟨ts, hts, hlast, ho⟩ := h
  obtain ⟨x, s'⟩ := r
  cases x with
  | none => exact .after hts hlast (List.sublist_append_left _ _) (hothers pre (hs.of_last hlast))
  | some a =>
    have hrest := hothers (pre ++ (o a).places) (hs.of_last hlast)
    refine .after hts hlast (ho a rfl) ?_
    obtain ⟨us, hus, hlast', ho'⟩ := hrest
    refine ⟨us, hus, hlast', fun as has => ?_⟩
    cases has
    have hall := ho' others.1 rfl
    dsimp only at hall
    rw [List.append_assoc] at hall
    exact hall

/-- Declarations in the order of the text. One that could not be read leaves nothing. -/
theorem collects_declarations : ∀ (b : Nat) (pre : List Pos) (s : State), Ended s →
    Collects pre s
      (some (StateT.run (declarations b) s).1, (StateT.run (declarations b) s).2)
      fun ds => pre ++ (Outline.row Decl.outline ds).places
  | 0, _, _, _ => .vacant rfl
  | b + 1, pre, s, hs => by
    rw [run_declarations]
    split
    · exact .cons hs (inOrder_declaration pre s hs).recovering fun pre' hs' =>
        collects_declarations b pre' _ hs'
    · exact .vacant rfl

theorem Collects.assignment (hs : Ended s) (hk : s.current.kind = .ident) :
    Collects pre s (exec assignment s) fun st => pre ++ st.outline.places := by
  unfold Parser.assignment
  refine .bind hs (.variableRef hs hk) fun v s hs => ?_
  refine .next hs (onward_expect _) fun _ s hs => ?_
  refine .bind hs (inOrder_expression _ s hs) fun value s hs => .pure ?_
  simp [Stmt.outline, Outline.places]

/-- Where a body is missing an empty block stands, which has no positions. -/
theorem places_getD (o : Option Stmt) :
    (o.getD (.scope [] [])).outline.places = (o.elim .empty Stmt.outline).places := by
  cases o <;> rfl

theorem places_branch (cond : Expr) (yes : Stmt) (no : Option Stmt) :
    (Stmt.branch cond yes no).outline.places =
      cond.outline.places ++ yes.outline.places ++ (no.elim .empty Stmt.outline).places := by
  cases no <;> simp [Stmt.outline, Outline.places]

theorem outlines_eq_row : ∀ ss : List Stmt, Stmt.outlines ss = Outline.row Stmt.outline ss
  | [] => rfl
  | s :: ss => by rw [Stmt.outlines, Outline.row, outlines_eq_row ss]

mutual

/-- **The places of a statement are in the order of the text**, also where the parser has skipped a
part of it. -/
theorem inOrder_statement : ∀ b : Nat, InOrder (statement b) Stmt.outline
  | 0 => fun _ s _ => .none (.refl s)
  | b + 1 => by
    intro pre s hs
    rw [statement, exec_current_bind]
    split
    · rename_i hk
      rw [exec_lift_bind]
      have hassign : Collects pre s (exec assignment s) fun st => pre ++ st.outline.places :=
        .assignment hs hk
      obtain ⟨ts, hts, hlast, ho⟩ := hassign.recovering
      generalize StateT.run (recovering assignment) s = r at hts hlast ho
      rcases r with ⟨_ | st, s'⟩
      · exact ⟨ts, hts, hlast, fun a ha => by cases ha⟩
      · refine .after hts hlast (ho st rfl) ?_
        exact .next (hs.of_last hlast) (onward_expect _) fun _ s hs => .pure (List.Sublist.refl _)
    · refine .next hs onward_advance fun _ s hs => ?_
      refine .bind hs (inOrder_condition pre s hs) fun cond s hs => ?_
      -- the rest, behind the statement that is done if the condition holds
      have helse : ∀ (yes : Option Stmt) (s : State), Ended s →
          Collects (pre ++ cond.outline.places ++ (yes.elim .empty Stmt.outline).places) s
            (exec (do
              let no ← if (← kind) = .elseWord then
                  advance
                  attempt (statement b)
                else pure none
              return Stmt.branch cond (yes.getD (.scope [] [])) no) s)
            fun st => pre ++ st.outline.places := by
        intro yes s hs
        have hend : ∀ (no : Option Stmt) (s : State),
            Collects (pre ++ cond.outline.places ++ (yes.elim .empty Stmt.outline).places ++
                (no.elim .empty Stmt.outline).places) s
              (exec (pure (Stmt.branch cond (yes.getD (.scope [] [])) no)) s)
              fun st => pre ++ st.outline.places := by
          intro no s
          refine .pure ?_
          rw [places_branch, places_getD, ← List.append_assoc, ← List.append_assoc]
        have hnone := hend none
        rw [Option.elim_none, Outline.places, List.append_nil] at hnone
        rw [exec_kind_bind]
        dsimp only
        split
        · refine .next hs onward_advance fun _ s hs => ?_
          exact .attempt_bind hs (inOrder_statement b _ s hs) (fun no s _ => hend (some no) s)
            fun s _ => hnone s
        · exact hnone s
      refine .attempt_bind hs (inOrder_statement b _ s hs)
        (fun yes s hs => helse (some yes) s hs) ?_
      intro s hs
      have := helse none s hs
      simpa [Outline.places] using this
    · refine .next hs onward_advance fun _ s hs => ?_
      refine .bind hs (inOrder_condition pre s hs) fun cond s hs => ?_
      refine .attempt_bind hs (inOrder_statement b _ s hs) (fun body s _ => ?_) fun s _ => ?_
      · exact .pure (by simp [Stmt.outline, Outline.places])
      · exact .pure (by simp [Stmt.outline, Stmt.outlines, Outline.row, Outline.places])
    · obtain ⟨ts, hts, hlast, ho⟩ := collects_scope b pre s hs
      refine ⟨ts, hts, hlast, fun st hst => ?_⟩
      cases hst
      exact ho _ rfl
    · exact .none ((moves_advance _).trans (.refl _))
    · exact .none ((moves_report s _).trans (moves_advance _))

theorem collects_statements : ∀ (b : Nat) (pre : List Pos) (s : State), Ended s →
    Collects pre s (some (StateT.run (statements b) s).1, (StateT.run (statements b) s).2)
      fun ss => pre ++ (Outline.row Stmt.outline ss).places
  | 0, _, _, _ => .vacant rfl
  | b + 1, pre, s, hs => by
    rw [run_statements]
    split
    · exact .vacant rfl
    · split
      · have hm := (moves_report s .lateDeclaration).trans (onward_recover _)
        exact .skip hm (collects_statements b pre _ (hs.of_last hm.last))
      · exact .cons hs (inOrder_statement b pre s hs) fun pre' hs' =>
          collects_statements b pre' _ hs'

/-- A block: its declarations stand before its statements. -/
theorem collects_scope : ∀ (b : Nat) (pre : List Pos) (s : State), Ended s →
    Collects pre s (some (StateT.run (scope b) s).1, (StateT.run (scope b) s).2)
      fun sc => pre ++ sc.toStmt.outline.places
  | 0, _, _, _ => .vacant rfl
  | b + 1, pre, s, hs => by
    rw [run_scope]
    dsimp only
    have hdecls := collects_declarations s.budget pre s.advance hs
    generalize StateT.run (declarations s.budget) s.advance = decls at hdecls
    obtain ⟨ts, hts, hlast, ho⟩ := hdecls
    have hs' : Ended decls.2 := Ended.of_last (s := s) hs hlast
    have hstmts := collects_statements b (pre ++ (Outline.row Decl.outline decls.1).places) _ hs'
    generalize StateT.run (statements b) decls.2 = stmts at hstmts
    obtain ⟨us, hus, hlast', ho'⟩ := hstmts
    refine .skip (moves_advance s) (.after hts hlast (ho _ rfl) (.after hus hlast' (ho' _ rfl) ?_))
    refine .skip (onward_expect .rbrace stmts.2) (.pure ?_)
    rw [Scope.toStmt, Stmt.outline, outlines_eq_row, Outline.places, ← List.append_assoc]

end

end Stmt

end Parser

/-- **The positions of a tree are those of tokens, in the order of the text**, whatever errors the
text has. -/
theorem places_parse (source : Bytes) :
    (parse source).body.toStmt.outline.places.Sublist ((scan source).1.map Token.pos) := by
  rw [Parser.parse_eq, Parser.run_program]
  split
  · obtain ⟨ts, hts, -, ho⟩ := Parser.collects_scope (Parser.start source).budget []
      (Parser.start source) (Parser.ended_start source)
    have hrest : (scan source).1 = ts ++ _ := hts
    rw [hrest, List.map_append]
    exact (ho _ rfl).trans (List.sublist_append_left _ _)
  · exact List.nil_sublist _

/-- **The positions of a tree increase from left to right.** -/
theorem pairwise_places_parse (source : Bytes) :
    (parse source).body.toStmt.outline.places.Pairwise (· < ·) :=
  (pairwise_pos_scan source).sublist (places_parse source)

end Shader
