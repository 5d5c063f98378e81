import Shader.Proofs.CheckerExact
import Shader.Proofs.ParserExact

/-!
# What the parser keeps of any text

A text with errors has a tree too: what could be read before and behind them. Of such a tree less is
known than of one that follows the grammar, but its types still come from words of the language, in
each declaration and each constructor that was kept.
-/

namespace Shader.Parser

open Ast Checker TypeSystem

variable {α β : Type} {P : α → Prop} {Q : β → Prop}

/-- What a parser gives, where it gives something, satisfies `Q`. -/
def Gives (p : Parser β) (Q : β → Prop) : Prop := ∀ s b, (exec p s).1 = some b → Q b

theorem gives_pure {b : β} (h : Q b) : Gives (pure b) Q := by
  intro s b' hb
  cases hb
  exact h

theorem gives_failure : Gives (failure : Parser β) Q := by
  intro s b hb
  cases hb

theorem gives_refuse (c : Refusal) : Gives (refuse c : Parser β) Q := by
  intro s b hb
  cases hb

/-- Of two parsers in sequence the second sees only what the first gave. -/
theorem gives_bind {p : Parser α} {f : α → Parser β} (hp : Gives p P)
    (hf : ∀ a, P a → Gives (f a) Q) : Gives (p >>= f) Q := by
  intro s b hb
  have h := hp s
  rw [exec_bind] at hb
  generalize exec p s = r at h hb
  rcases r with ⟨_ | a, s'⟩
  · cases hb
  · exact hf a (h a rfl) s' b hb

theorem gives_next {p : Parser α} {f : α → Parser β} (hf : ∀ a, Gives (f a) Q) :
    Gives (p >>= f) Q := by
  have htrue : Gives p fun _ => True := fun _ _ _ => trivial
  exact gives_bind htrue fun a _ => hf a

/-- What a parser gave may be missing behind an attempt, and is in order where it is not. -/
theorem gives_attempt_bind {p : Parser α} {f : Option α → Parser β} (hp : Gives p P)
    (hf : ∀ o, (∀ a, o = some a → P a) → Gives (f o) Q) : Gives (attempt p >>= f) Q := by
  intro s b hb
  rw [exec_attempt_bind] at hb
  exact hf _ (hp s) _ b hb

/-- To skip behind an error changes nothing of what was read. -/
theorem run_recovering_fst (p : Parser α) (s : State) :
    (StateT.run (recovering p) s).1 = (exec p s).1 := by
  show (StateT.run (if (exec p s).1.isNone then recover >>= _ else pure _) (exec p s).2).1 = _
  split <;> rfl

/-! ## Expressions -/

mutual

theorem gives_binary : ∀ b floor : Nat, Gives (binary b floor) NamedExpr
  | 0, _ => gives_failure
  | b + 1, floor => gives_bind (gives_unary b) fun left => gives_binaryRest b floor left

/-- The loop of precedence climbing puts operands together that are in order. -/
theorem gives_binaryRest : ∀ (b floor : Nat) (left : Expr), NamedExpr left →
    Gives (binaryRest b floor left) NamedExpr
  | 0, _, _, _ => gives_failure
  | b + 1, floor, left, hleft => by
    rw [binaryRest]
    refine gives_next fun token => ?_
    split
    · split
      · exact gives_next fun _ => gives_bind (gives_binary b _) fun right hright =>
          gives_binaryRest b floor _ ⟨hleft, hright⟩
      · exact gives_pure hleft
    · exact gives_pure hleft

theorem gives_unary : ∀ b : Nat, Gives (unary b) NamedExpr
  | 0 => gives_failure
  | b + 1 => by
    rw [unary]
    refine gives_next fun token => ?_
    split
    · exact gives_next fun _ => gives_bind (gives_unary b) fun x hx => gives_pure hx
    · exact gives_power b

theorem gives_power : ∀ b : Nat, Gives (power b) NamedExpr
  | 0 => gives_failure
  | b + 1 => by
    rw [power]
    refine gives_bind (gives_primary b) fun base hbase => gives_next fun token => ?_
    split
    · exact gives_next fun _ => gives_bind (gives_unary b) fun x hx => gives_pure ⟨hbase, hx⟩
    · exact gives_pure hbase

/-- Of the operands, an integer has been checked for its range and the type of a constructor comes
from a word. -/
theorem gives_primary : ∀ b : Nat, Gives (primary b) NamedExpr
  | 0 => gives_failure
  | b + 1 => by
    rw [primary]
    refine gives_next fun token => ?_
    split
    · rename_i hk
      split
      · rename_i hread
        have hint := Grammar.integerOf_of_read hk hread
        exact gives_next fun _ => gives_pure hint.le_maxInteger
      · exact gives_refuse _
    · split
      · exact gives_next fun _ => gives_pure trivial
      · exact gives_refuse _
    · exact gives_next fun _ => gives_pure trivial
    · exact gives_next fun _ => gives_pure trivial
    · refine gives_next fun s => ?_
      split
      · exact gives_next fun _ => gives_bind (gives_arguments b) fun args hargs => gives_pure hargs
      · exact gives_next fun _ => gives_pure trivial
    · exact gives_next fun _ => gives_bind (gives_binary b 0) fun e he =>
        gives_next fun _ => gives_pure he
    · split
      · -- the one place where an expression names a type
        rename_i ht
        exact gives_next fun _ => gives_bind (gives_arguments b) fun args hargs =>
          gives_pure ⟨named_of_type? ht, hargs⟩
      · exact gives_refuse _

theorem gives_arguments : ∀ b : Nat, Gives (arguments b) NamedExprs
  | 0 => gives_failure
  | b + 1 => by
    rw [arguments]
    refine gives_next fun _ => gives_next fun k => ?_
    split
    · exact gives_next fun _ => gives_pure trivial
    · exact gives_bind (gives_argumentList b) fun args hargs => gives_next fun _ => gives_pure hargs

theorem gives_argumentList : ∀ b : Nat, Gives (argumentList b) NamedExprs
  | 0 => gives_failure
  | b + 1 => by
    rw [argumentList]
    refine gives_bind (gives_binary b 0) fun arg harg => gives_next fun k => ?_
    split
    · exact gives_next fun _ => gives_bind (gives_argumentList b) fun args hargs =>
        gives_pure ⟨harg, hargs⟩
    · exact gives_pure ⟨harg, trivial⟩

end

theorem gives_expression : Gives expression NamedExpr := gives_next fun s => gives_binary s.budget 0

theorem gives_condition : Gives condition NamedExpr :=
  gives_next fun _ => gives_bind gives_expression fun _ hc => gives_next fun _ => gives_pure hc

/-! ## Declarations and statements -/

/-- The type of a declaration comes from a word of the language, and its initializer is in order. -/
theorem gives_declarationFrom (pos : Pos) (isConst : Bool) :
    Gives (declarationFrom pos isConst) NamedDecl := by
  refine gives_next fun k => ?_
  split
  · exact gives_refuse _
  · rename_i type ht
    have hend : ∀ (name : Token) (init : Option Expr), (∀ e, init = some e → NamedExpr e) →
        Gives (do
          expect .semicolon
          return (⟨pos, isConst, type, name.literal, init⟩ : Decl)) NamedDecl :=
      fun _ _ hinit => gives_next fun _ => gives_pure ⟨named_of_type? ht, hinit⟩
    refine gives_next fun _ => gives_next fun name => ?_
    split
    · refine gives_next fun _ => gives_next fun k => ?_
      split
      · refine gives_next fun _ => ?_
        rw [map_eq_pure_bind]
        have hinit : Gives (expression >>= fun e => pure (some e)) fun init =>
            ∀ e, init = some e → NamedExpr e := by
          refine gives_bind gives_expression fun e he => gives_pure fun e' heq => ?_
          cases heq
          exact he
        exact gives_bind hinit fun init hi => hend name init hi
      · exact hend name none fun _ heq => by cases heq
    · exact gives_refuse _

theorem gives_declaration : Gives declaration NamedDecl := by
  intro s d hd
  rw [exec_declaration] at hd
  split at hd
  · exact gives_declarationFrom _ _ _ d hd
  · exact gives_declarationFrom _ _ _ d hd

/-- Declarations that fail are left out, and the others are in order. -/
theorem named_declarations : ∀ (b : Nat) (s : State),
    ∀ d ∈ (StateT.run (declarations b) s).1, NamedDecl d
  | 0, _ => fun _ hd => by cases hd
  | b + 1, s => by
    intro d hd
    rw [run_declarations] at hd
    split at hd
    · rcases List.mem_append.mp hd with hd | hd
      · rw [run_recovering_fst, Option.mem_toList] at hd
        exact gives_declaration s d hd
      · exact named_declarations b _ d hd
    · cases hd

theorem gives_assignment : Gives assignment NamedStmt :=
  gives_next fun _ => gives_next fun _ => gives_bind gives_expression fun _ he => gives_pure he

theorem namedStmt_empty : NamedStmt (.scope [] []) := by simp [NamedStmt, NamedStmts]

theorem namedStmt_getD {o : Option Stmt} (h : ∀ st, o = some st → NamedStmt st) :
    NamedStmt (o.getD (.scope [] [])) := by
  cases o with
  | none => exact namedStmt_empty
  | some st => exact h st rfl

mutual

/-- **A statement that is kept has only types of the language**, whatever errors were found in it. A
body that could not be read is an empty block. -/
theorem gives_statement : ∀ b : Nat, Gives (statement b) NamedStmt
  | 0 => gives_failure
  | b + 1 => by
    rw [statement]
    refine gives_next fun token => ?_
    split
    · intro s st hst
      rw [exec_lift_bind, run_recovering_fst] at hst
      have hassign := gives_assignment s
      generalize (exec assignment s).1 = o at hassign hst
      cases o with
      | none => cases hst
      | some st' =>
        exact gives_next (fun _ => gives_pure (hassign st' rfl)) _ st hst
    · refine gives_next fun _ => gives_bind gives_condition fun cond hcond =>
        gives_attempt_bind (gives_statement b) fun yes hyes => gives_next fun k => ?_
      -- with an `else` or without one, the branches are as good as the statements read for them
      have hend : ∀ no : Option Stmt, (∀ st, no = some st → NamedStmt st) →
          Gives (pure (.branch cond (yes.getD (.scope [] [])) no)) NamedStmt := by
        intro no hno
        refine gives_pure ?_
        cases no with
        | none => exact ⟨hcond, namedStmt_getD hyes⟩
        | some st => exact ⟨hcond, namedStmt_getD hyes, hno st rfl⟩
      dsimp only
      split
      · exact gives_next fun _ => gives_attempt_bind (gives_statement b) fun no hno => hend no hno
      · exact hend none fun _ heq => by cases heq
    · exact gives_next fun _ => gives_bind gives_condition fun cond hcond =>
        gives_attempt_bind (gives_statement b) fun body hbody =>
          gives_pure ⟨hcond, namedStmt_getD hbody⟩
    · intro s st hst
      cases hst
      exact named_scope b s
    · exact gives_next fun _ => gives_failure
    · exact gives_next fun _ => gives_next fun _ => gives_failure

/-- Statements that fail are left out, and the others are in order. -/
theorem named_statements : ∀ (b : Nat) (s : State), NamedStmts (StateT.run (statements b) s).1
  | 0, _ => trivial
  | b + 1, s => by
    rw [run_statements]
    split
    · trivial
    · split
      · exact named_statements b _
      · have hfirst := gives_statement b s
        dsimp only
        generalize (exec (statement b) s).1 = o at hfirst
        cases o with
        | none => exact named_statements b _
        | some st => exact ⟨hfirst st rfl, named_statements b _⟩

theorem named_scope : ∀ (b : Nat) (s : State), NamedStmt (StateT.run (scope b) s).1.toStmt
  | 0, _ => namedStmt_empty
  | b + 1, s => by
    rw [run_scope]
    exact ⟨named_declarations _ _, named_statements b _⟩

end

/-- **So has the tree of any text.** -/
theorem named_program (s : State) : NamedStmt (StateT.run program s).1.toStmt := by
  rw [run_program]
  split
  · exact named_scope s.budget s
  · exact namedStmt_empty

end Shader.Parser

namespace Shader

/-- **The tree of any text names only types of the language**, whatever errors the text has. -/
theorem namedStmt_parse (source : Bytes) : Checker.NamedStmt (parse source).body.toStmt :=
  Parser.named_program _

end Shader
