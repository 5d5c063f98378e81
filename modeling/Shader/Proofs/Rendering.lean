import Mathlib.Data.List.Chain
import Shader.Proofs.ParserExact
import Shader.Proofs.Layout
import Shader.Proofs.RegisterNames
import Shader.Proofs.TypeSystem

/-!
# Expressions written out

An expression tree written as the tokens of a text, with parentheses only where the order of the
operators asks for them, is read back as the same tree. So every tree that the language can express
has a text, and the rules for parentheses here are those of the parser.

There are two sides to it. The tokens are found again in their text, even with nothing between them,
because no two kinds that come together in an expression would run into one another
(`Kind.beside`). And they are an expression of the grammar, of the level that its outermost operator
has (`exprOf_render`).
-/

namespace Shader

open Text

/-! ## Tokens side by side -/

namespace Kind

/-- Whether tokens of the kind are words or numbers. -/
def isWord (k : Kind) : Bool := k ∈ [ident, int, float] ++ keywords

/-- A byte that a token of the kind can begin with. For words and numbers a letter stands for
all. -/
def front (k : Kind) : UInt8 := if k.isWord then byte 'a' else k.name.headD 0

/-- Whether a token of the kind `k` may be followed by one of the kind `k'` with nothing between
them. -/
def beside (k k' : Kind) : Bool := !joins k.front k'.front

theorem isWord_ofWord (w : Bytes) : (ofWord w).isWord = true := by
  unfold ofWord
  cases h : keywords.find? (fun k => k.name == w) with
  | none => rfl
  | some k =>
    have hmem : k ∈ keywords := List.mem_of_find?_eq_some h
    exact decide_eq_true (List.mem_append_right _ hmem)

end Kind

/-- The bytes that words and numbers begin with. -/
def isWordFront (b : UInt8) : Bool := isWordByte b || b == byte '.'

theorem isWordFront_of_isDigit {b : UInt8} (h : isDigit b = true) : isWordFront b = true := by
  simp [isWordFront, isWordByte_of_isDigit h]

/-- The bytes that words and numbers are made of. -/
def IsWordPart (b : UInt8) : Prop := isWordFront b = true ∨ b = byte '+' ∨ b = byte '-'

theorem Exponent.parts {x : Bytes} (h : Exponent x) : ∀ b ∈ x, IsWordPart b := by
  intro b hb
  have hmark : ∀ {e : UInt8}, e = byte 'e' ∨ e = byte 'E' → IsWordPart e := by
    rintro e (rfl | rfl) <;> exact .inl (by decide)
  cases h with
  | none => cases hb
  | plain he _ hdigits =>
    rcases List.mem_cons.mp hb with rfl | hb
    · exact hmark he
    · exact .inl (isWordFront_of_isDigit (hdigits b hb))
  | signed he hs hdigits =>
    rcases List.mem_cons.mp hb with rfl | hb
    · exact hmark he
    · rcases List.mem_cons.mp hb with rfl | hb
      · exact .inr hs
      · exact .inl (isWordFront_of_isDigit (hdigits b hb))

/-- A word or a number has no bytes but those of words and signs. -/
theorem Lexeme.parts {k : Kind} {w : Bytes} (h : Lexeme k w) (hk : k.isWord = true) :
    ∀ b ∈ w, IsWordPart b := by
  have hdigit : ∀ {w : Bytes}, (∀ b ∈ w, isDigit b = true) → ∀ b ∈ w, IsWordPart b :=
    fun hw b hb => .inl (isWordFront_of_isDigit (hw b hb))
  cases h with
  | single hb =>
    have hall : ∀ e ∈ singles, e.2.isWord = false := by decide
    rw [hall _ hb] at hk
    cases hk
  | pair hp =>
    have hall : ∀ p ∈ pairings, p.both.isWord = false := by decide
    rw [hall _ hp] at hk
    cases hk
  | alone hp =>
    have hall : ∀ p ∈ pairings, p.alone.isWord = false := by decide
    rw [hall _ hp] at hk
    cases hk
  | word hb hrest =>
    intro c hc
    rcases List.mem_cons.mp hc with rfl | hc
    · exact .inl (by simp [isWordFront, isWordByte, hb])
    · exact .inl (by simp [isWordFront, hrest c hc])
  | int _ hdigits => exact hdigit hdigits
  | float _ hwhole hfraction hexponent =>
    intro c hc
    simp only [List.mem_append, List.mem_cons] at hc
    rcases hc with hc | rfl | hc | hc
    · exact hdigit hwhole c hc
    · exact .inl (by decide)
    · exact hdigit hfraction c hc
    · exact hexponent.parts c hc
  | stray => cases hk

/-- What a word or a number is gone on with does not depend on its first byte. -/
theorem joins_of_isWordFront {a : UInt8} (ha : isWordFront a = true) (b : UInt8) :
    joins a b = isWordFront b := by
  have hne : ∀ {c : UInt8}, isWordFront c = false → c ≠ a := by
    rintro c hc rfl
    rw [ha] at hc
    cases hc
  have hfirst : ∀ p ∈ pairings, isWordFront p.first = false := by decide
  have hslash : (a == byte '/') = false := beq_eq_false_iff_ne.mpr (hne (by decide)).symm
  show ((isWordFront a && isWordFront b) || _ || _) = _
  rw [ha, no_pairing fun p hp heq => absurd heq (hne (hfirst p hp)), hslash]
  simp

/-- What goes on with a word or a number does not depend on the first byte of that. -/
theorem joins_isWordFront {b : UInt8} (hb : isWordFront b = true) (a : UInt8) :
    joins a b = isWordFront a := by
  have hne : ∀ {c : UInt8}, isWordFront c = false → c ≠ b := by
    rintro c hc rfl
    rw [hb] at hc
    cases hc
  have hsecond : ∀ p ∈ pairings, isWordFront p.second = false := by decide
  have hslash : (b == byte '/') = false := beq_eq_false_iff_ne.mpr (hne (by decide)).symm
  have hstar : (b == byte '*') = false := beq_eq_false_iff_ne.mpr (hne (by decide)).symm
  show ((isWordFront a && isWordFront b) || _ || _) = _
  rw [hb, no_pairing fun p hp _ => hne (hsecond p hp), hslash, hstar]
  simp

section Beside

variable {k k' : Kind} {w w' : Bytes}

/-- A token of the language begins as its kind says. -/
theorem Lexeme.front_cases (h : Lexeme k w) (hk : k ≠ .illegal) : ∃ a rest, w = a :: rest ∧
    (a = k.front ∨ isWordFront a = true ∧ isWordFront k.front = true) := by
  have hletter : isWordFront (byte 'a') = true := by decide
  cases h with
  | @single b _ hb =>
    have hall : ∀ e ∈ singles, e.1 = e.2.front := by decide
    exact ⟨b, [], rfl, .inl (hall _ hb)⟩
  | @pair p hp =>
    have hall : ∀ p ∈ pairings, p.first = p.both.front := by decide
    exact ⟨_, _, rfl, .inl (hall p hp)⟩
  | @alone p hp =>
    have hall : ∀ p ∈ pairings, p.alone ≠ .illegal → p.first = p.alone.front := by decide
    exact ⟨_, _, rfl, .inl (hall p hp hk)⟩
  | @word b rest hb hrest =>
    have hfront : (Kind.ofWord (b :: rest)).front = byte 'a' := if_pos (Kind.isWord_ofWord _)
    exact ⟨b, rest, rfl,
      .inr ⟨by simp [isWordFront, isWordByte, hb], by rw [hfront]; exact hletter⟩⟩
  | @int _ hne hdigits =>
    obtain ⟨b, rest, rfl⟩ := List.exists_cons_of_ne_nil hne
    have hb : isWordByte b = true := isWordByte_of_isDigit (hdigits b (by simp))
    exact ⟨b, rest, rfl, .inr ⟨by simp [isWordFront, hb], hletter⟩⟩
  | @float whole fraction exponent hne hwhole hfraction _ =>
    obtain ⟨b, rest, heq, hb⟩ := exists_front_float hne hwhole hfraction exponent
    have hb : isWordByte b = true ∨ b = byte '.' := hb.imp isWordByte_of_isDigit And.left
    exact ⟨b, rest, heq, .inr ⟨by simpa [isWordFront] using hb, hletter⟩⟩
  | stray hb => exact absurd rfl hk

/-- A word or a number begins with no sign. -/
theorem Lexeme.isWordFront_head (h : Lexeme k w) (hk : k.isWord = true) :
    ∃ a rest, w = a :: rest ∧ isWordFront a = true := by
  have hfront : k.front = byte 'a' := if_pos hk
  obtain ⟨a, rest, heq, ha⟩ := h.front_cases (by rintro rfl; cases hk)
  rw [hfront] at ha
  rcases ha with rfl | ⟨ha, -⟩
  · exact ⟨_, rest, heq, by decide⟩
  · exact ⟨a, rest, heq, ha⟩

/-- **Kinds that may stand side by side keep their tokens apart.** -/
theorem apart_of_beside (h : Lexeme k w) (hk : k ≠ .illegal) (h' : Lexeme k' w')
    (hk' : k' ≠ .illegal) (hbeside : k.beside k' = true) : Apart w w' := by
  obtain ⟨a, rest, rfl, ha⟩ := h.front_cases hk
  obtain ⟨b, rest', rfl, hb⟩ := h'.front_cases hk'
  have hfront : joins k.front k'.front = false := by simpa [Kind.beside] using hbeside
  have hleft : joins a k'.front = joins k.front k'.front := by
    rcases ha with rfl | ⟨ha, hka⟩
    · rfl
    · rw [joins_of_isWordFront ha, joins_of_isWordFront hka]
  have hright : joins a b = joins a k'.front := by
    rcases hb with rfl | ⟨hb, hkb⟩
    · rfl
    · rw [joins_isWordFront hb, joins_isWordFront hkb]
  intro a' ha' b' hb'
  cases ha'
  cases hb'
  rw [hright, hleft, hfront]

end Beside

/-- Tokens of the language in a row, each of which may stand beside the next, from a kind in `P` to
a kind in `Q`. -/
structure Row (P Q : List Kind) (fs : List (Kind × Bytes)) : Prop where
  first : ∃ f ∈ fs.head?, f.1 ∈ P
  last : ∃ f ∈ fs.getLast?, f.1 ∈ Q
  beside : fs.IsChain fun f g => f.1.beside g.1 = true
  lexemes : ∀ f ∈ fs, Lexeme f.1 f.2 ∧ f.1 ≠ .illegal

section Row

variable {P P' Q Q' : List Kind} {fs gs : List (Kind × Bytes)}

theorem row_single {k : Kind} {w : Bytes} (h : Lexeme k w) (hk : k ≠ .illegal) (hP : k ∈ P)
    (hQ : k ∈ Q) : Row P Q [(k, w)] where
  first := ⟨_, rfl, hP⟩
  last := ⟨_, rfl, hQ⟩
  beside := List.isChain_singleton _
  lexemes := List.forall_mem_singleton.mpr ⟨h, hk⟩

theorem Row.append (h : Row P Q fs) (h' : Row P' Q' gs)
    (hbeside : ∀ k ∈ Q, ∀ k' ∈ P', k.beside k' = true) : Row P Q' (fs ++ gs) where
  first := by
    obtain ⟨f, hf, hP⟩ := h.first
    exact ⟨f, List.mem_head?_append_of_mem_head? hf, hP⟩
  last := by
    obtain ⟨f, hf, hQ⟩ := h'.last
    exact ⟨f, List.mem_getLast?_append_of_mem_getLast? hf, hQ⟩
  beside := by
    obtain ⟨f, hf, hQ⟩ := h.last
    obtain ⟨g, hg, hP⟩ := h'.first
    refine List.isChain_append.mpr ⟨h.beside, h'.beside, fun f' hf' g' hg' => ?_⟩
    cases Option.mem_unique hf hf'
    cases Option.mem_unique hg hg'
    exact hbeside _ hQ _ hP
  lexemes := List.forall_mem_append.mpr ⟨h.lexemes, h'.lexemes⟩

end Row

/-- Tokens in a row are set apart by nothing or by any spacing. -/
theorem setApart_of_isChain : ∀ {fs : List (Kind × Bytes)} {gaps : List Bytes},
    (∀ f ∈ fs, Lexeme f.1 f.2 ∧ f.1 ≠ .illegal) →
    (fs.IsChain fun f g => f.1.beside g.1 = true) → (∀ g ∈ gaps, g = [] ∨ Spacing g) →
    SetApart (fs.map (·.2)) gaps
  | [], _, _, _, _ => trivial
  | f :: fs, gaps, hfs, hchain, hgaps => by
    obtain ⟨hnext, hchain⟩ := List.isChain_cons.mp hchain
    refine ⟨?_, setApart_of_isChain (fun g hg => hfs g (List.mem_cons_of_mem _ hg)) hchain
      fun g hg => hgaps g (List.mem_of_mem_tail hg)⟩
    have happart : Apart f.2 ((fs.map (·.2)).headD []) := by
      cases fs with
      | nil => exact apart_nil _
      | cons g fs =>
        have hf := hfs f (by simp)
        have hg := hfs g (by simp)
        exact apart_of_beside hf.1 hf.2 hg.1 hg.2 (hnext g rfl)
    cases gaps with
    | nil => exact .inr ⟨rfl, happart⟩
    | cons g gaps => exact (hgaps g (by simp)).elim (fun hg => .inr ⟨hg, happart⟩) .inl

/-! ## Trees without places -/

namespace Ast

/-- A variable without its place. -/
def Var.unplaced (v : Var) : Var := { v with pos := {} }

mutual

/-- An expression without its places. -/
def Expr.unplaced : Expr → Expr
  | .int _ n => .int {} n
  | .float _ x => .float {} x
  | .bool _ b => .bool {} b
  | .var v => .var v.unplaced
  | .unary _ op x => .unary {} op x.unplaced
  | .binary _ op l r => .binary {} op l.unplaced r.unplaced
  | .call _ f args => .call {} f (Expr.listUnplaced args)
  | .construct _ type args => .construct {} type (Expr.listUnplaced args)

/-- Expressions without their places. -/
def Expr.listUnplaced : List Expr → List Expr
  | [] => []
  | e :: es => e.unplaced :: Expr.listUnplaced es

end

/-- The level of the grammar that an expression is of. -/
def Expr.level : Expr → Nat
  | .binary _ op _ _ => op.precedence?.getD 7
  | .unary _ _ _ => 6
  | _ => 8

/-- Whether an expression is an operator between two operands, other than a power. -/
def Expr.isInfix : Expr → Bool
  | .binary _ op _ _ => op != .pow
  | _ => false

/-- Whether an expression stands by itself. -/
def Expr.isPrimary : Expr → Bool
  | .binary _ _ _ _ | .unary _ _ _ => false
  | _ => true

theorem Expr.level_bounds (e : Expr) : 1 ≤ e.level ∧ e.level ≤ 8 := by
  cases e with
  | binary _ op _ _ => cases op <;> simp [level, BinaryOp.precedence?]
  | _ => simp [level]

theorem Expr.six_le_level {e : Expr} (h : e.isInfix = false) : 6 ≤ e.level := by
  cases e with
  | binary _ op _ _ =>
    have hpow : op = .pow := by simpa [isInfix] using h
    simp [level, hpow, BinaryOp.precedence?]
  | _ => simp [level]

theorem Expr.level_of_isPrimary {e : Expr} (h : e.isPrimary = true) : e.level = 8 := by
  cases e with
  | binary _ _ _ _ => cases h
  | unary _ _ _ => cases h
  | _ => rfl

end Ast

/-! ## The tokens of an expression -/

open Ast

/-- The kind of an operator between two operands. -/
def BinaryOp.kind : BinaryOp → Kind
  | .add => .plus
  | .sub => .minus
  | .mul => .star
  | .div => .slash
  | .pow => .caret
  | .and => .and
  | .or => .or
  | .eq => .eq
  | .ne => .ne
  | .lt => .lt
  | .le => .le
  | .gt => .gt
  | .ge => .ge
  | .unknown => .illegal

/-- The kind of an operator before an operand. -/
def UnaryOp.kind : UnaryOp → Kind
  | .neg => .minus
  | .not => .not
  | .unknown => .illegal

/-- A token whose kind has one text. -/
def Kind.sign (k : Kind) : Kind × Bytes := (k, k.name)

/-- A word of the language. -/
def wordForm (w : Bytes) : Kind × Bytes := (.ofWord w, w)

/-- Tokens in parentheses, if they are needed. -/
def enclose (needed : Bool) (fs : List (Kind × Bytes)) : List (Kind × Bytes) :=
  if needed then Kind.lparen.sign :: (fs ++ [Kind.rparen.sign]) else fs

namespace Ast

/-- The tokens of a variable. -/
def Var.render (v : Var) : List (Kind × Bytes) :=
  match v.index with
  | none => [(.ident, v.name)]
  | some i => [(.ident, v.name), Kind.lbracket.sign, (.int, decimal i), Kind.rbracket.sign]

mutual

/-- The tokens of an expression, with no more parentheses than needed. The left operand of an
operator is in parentheses if it binds looser than that, and the right one if it does not bind
tighter. The operand of a prefix operator and an exponent are if they are an infix operator other
than the power, and the base of a power is if it does not stand by itself.

A float has many texts. Which one is taken is up to `spell`, for each place anew. -/
def Expr.render (spell : Pos → Float → Bytes) : Expr → List (Kind × Bytes)
  | .int _ n => [(.int, decimal n)]
  | .float pos x => [(.float, spell pos x)]
  | .bool _ b => [wordForm (if b then ascii "true" else ascii "false")]
  | .var v => v.render
  | .unary _ op x => op.kind.sign :: enclose x.isInfix (x.render spell)
  | .binary _ op l r =>
    match op.precedence? with
    | some n => enclose (l.level < n) (l.render spell) ++
        op.kind.sign :: enclose (r.level ≤ n) (r.render spell)
    | none => enclose (!l.isPrimary) (l.render spell) ++
        op.kind.sign :: enclose r.isInfix (r.render spell)
  | .call _ f args =>
    (.ident, f) :: Kind.lparen.sign :: (Expr.renderList spell args ++ [Kind.rparen.sign])
  | .construct _ type args =>
    wordForm type.name :: Kind.lparen.sign :: (Expr.renderList spell args ++ [Kind.rparen.sign])

/-- The tokens of expressions with commas between them. -/
def Expr.renderList (spell : Pos → Float → Bytes) : List Expr → List (Kind × Bytes)
  | [] => []
  | [e] => e.render spell
  | e :: e' :: es => e.render spell ++ Kind.comma.sign :: Expr.renderList spell (e' :: es)

end

/-- A variable whose name is an identifier, with an index that can be written if it has one. -/
def Var.Expressible (v : Var) : Prop :=
  Lexeme .ident v.name ∧ ∀ i, v.index = some i → i ≤ Number.maxInteger

mutual

/-- An expression of the language: its operators and types are those of the language, its names are
identifiers, its integers can be written, and its floats have the value of their text. -/
def Expr.Expressible (spell : Pos → Float → Bytes) : Expr → Prop
  | .int _ n => n ≤ Number.maxInteger
  | .float pos x => Lexeme .float (spell pos x) ∧ Number.readFloat? (spell pos x) = some x
  | .bool _ _ => True
  | .var v => v.Expressible
  | .unary _ op x => op ≠ .unknown ∧ x.Expressible spell
  | .binary _ op l r => op ≠ .unknown ∧ l.Expressible spell ∧ r.Expressible spell
  | .call _ f args => Lexeme .ident f ∧ Expr.ListExpressible spell args
  | .construct _ type args => TypeSystem.Named type ∧ Expr.ListExpressible spell args

/-- Expressions of the language. -/
def Expr.ListExpressible (spell : Pos → Float → Bytes) : List Expr → Prop
  | [] => True
  | e :: es => e.Expressible spell ∧ Expr.ListExpressible spell es

end

end Ast

/-! ## The tokens in a row -/

/-- Whether the kind is one of operators, parentheses and the like, which have one text. -/
def Kind.isSign (k : Kind) : Bool := !k.isWord && k != .eof && k != .illegal

theorem Kind.ne_illegal_of_isSign {k : Kind} (h : k.isSign = true) : k ≠ .illegal := by
  rintro rfl
  cases h

theorem lexeme_sign {k : Kind} (h : k.isSign = true) : Lexeme k k.name := by
  have hall : ∀ k ∈ Kind.all, k.isSign = true →
      (∃ e ∈ singles, k = e.2 ∧ k.name = [e.1]) ∨
      (∃ p ∈ pairings, k = p.both ∧ k.name = [p.first, p.second]) ∨
      ∃ p ∈ pairings, k = p.alone ∧ k.name = [p.first] := by decide +kernel
  have hmem : k ∈ Kind.all := by cases k <;> decide
  rcases hall k hmem h with ⟨e, he, rfl, hname⟩ | ⟨p, hp, rfl, hname⟩ | ⟨p, hp, rfl, hname⟩
  · rw [hname]
    exact .single he
  · rw [hname]
    exact .pair hp
  · rw [hname]
    exact .alone hp

section Rows

variable {P Q : List Kind} {fs : List (Kind × Bytes)} {k : Kind}

theorem row_sign (hk : k.isSign = true) : Row [k] [k] [k.sign] :=
  row_single (lexeme_sign hk) (Kind.ne_illegal_of_isSign hk) (by simp) (by simp)

/-- A sign before tokens in a row. -/
theorem Row.cons (h : Row P Q fs) (hk : k.isSign = true) (hbeside : ∀ k' ∈ P, k.beside k' = true) :
    Row [k] Q (k.sign :: fs) :=
  Row.append (row_sign hk) h (List.forall_mem_singleton.mpr hbeside)

/-- A sign behind tokens in a row. -/
theorem Row.concat (h : Row P Q fs) (hk : k.isSign = true)
    (hbeside : ∀ k' ∈ Q, k'.beside k = true) : Row P [k] (fs ++ [k.sign]) :=
  h.append (row_sign hk) fun k' hk' => List.forall_mem_singleton.mpr (hbeside k' hk')

theorem Row.mono {P' Q' : List Kind} (h : Row P Q fs) (hP : P ⊆ P') (hQ : Q ⊆ Q') :
    Row P' Q' fs where
  first := by
    obtain ⟨f, hf, hk⟩ := h.first
    exact ⟨f, hf, hP hk⟩
  last := by
    obtain ⟨f, hf, hk⟩ := h.last
    exact ⟨f, hf, hQ hk⟩
  beside := h.beside
  lexemes := h.lexemes

/-- The kinds that an expression begins with. -/
def opening : List Kind :=
  [.ident, .int, .float, .trueWord, .falseWord, .lparen, .minus, .not] ++ Kind.typeWords

/-- The kinds that an expression ends with. -/
def closing : List Kind :=
  [.ident, .int, .float, .trueWord, .falseWord, .rparen, .rbracket]

theorem row_parens (h : Row opening closing fs) :
    Row [.lparen] [.rparen] (Kind.lparen.sign :: (fs ++ [Kind.rparen.sign])) :=
  (h.concat rfl (by decide)).cons rfl (by decide)

theorem row_enclose (needed : Bool) (h : Row opening closing fs) :
    Row opening closing (enclose needed fs) := by
  cases needed with
  | false => exact h
  | true => exact (row_parens h).mono (by decide) (by decide)

/-- The operators of the language may stand between operands. -/
theorem BinaryOp.beside_kind {op : BinaryOp} (h : op ≠ .unknown) : op.kind.isSign = true ∧
    (∀ k ∈ closing, k.beside op.kind = true) ∧ ∀ k ∈ opening, op.kind.beside k = true := by
  cases op with
  | unknown => exact absurd rfl h
  | _ => decide

theorem row_infix {gs : List (Kind × Bytes)} {op : BinaryOp} (hop : op ≠ .unknown)
    (h : Row opening closing fs) (h' : Row opening closing gs) :
    Row opening closing (fs ++ op.kind.sign :: gs) := by
  obtain ⟨hsign, hbehind, hbefore⟩ := BinaryOp.beside_kind hop
  exact h.append (h'.cons hsign hbefore) fun k hk => List.forall_mem_singleton.mpr (hbehind k hk)

/-- A word before parentheses, in which there may be nothing. -/
theorem row_applied {w : Bytes} (hw : Lexeme k w) (hk : k ∈ .ident :: Kind.typeWords)
    (h : fs ≠ [] → Row opening closing fs) :
    Row opening closing ((k, w) :: Kind.lparen.sign :: (fs ++ [Kind.rparen.sign])) := by
  have hkind : k ≠ .illegal ∧ k ∈ opening ∧ k.beside .lparen = true := by
    have hall : ∀ k ∈ .ident :: Kind.typeWords,
        k ≠ .illegal ∧ k ∈ opening ∧ k.beside .lparen = true := by decide
    exact hall k hk
  have hargs : Row [.lparen] [.rparen] (Kind.lparen.sign :: (fs ++ [Kind.rparen.sign])) := by
    by_cases hnil : fs = []
    · rw [hnil, List.nil_append]
      exact (row_sign rfl).cons rfl (by decide)
    · exact row_parens (h hnil)
  have hword : Row opening [k] [(k, w)] := row_single hw hkind.1 hkind.2.1 (by simp)
  refine (hword.append hargs ?_).mono (List.Subset.refl _) (by decide)
  exact List.forall_mem_singleton.mpr (List.forall_mem_singleton.mpr hkind.2.2)

theorem lexeme_decimal (n : Nat) : Lexeme .int (decimal n) :=
  .int (decimal_ne_nil n) fun _ hb => isDigit_of_mem_decimal hb

theorem lexeme_ofWord {w : Bytes} (hfront : w.head?.any isLetter = true)
    (hw : w.all isWordByte = true) : Lexeme (.ofWord w) w := by
  cases w with
  | nil => cases hfront
  | cons b rest => exact .word hfront (List.all_eq_true.mp (Bool.and_eq_true_iff.mp hw).2)

/-- The name of a type is a word of the language, which names it. -/
theorem lexeme_type {t : Ty} (h : TypeSystem.Named t) :
    Lexeme (.ofWord t.name) t.name ∧ (Kind.ofWord t.name).type? = some t := by
  obtain ⟨base, order⟩ := t
  obtain ⟨hbase, hlow, hhigh⟩ := h
  dsimp only at hbase hlow hhigh
  have horder : order = 1 ∨ order = 2 ∨ order = 3 ∨ order = 4 := by omega
  rcases hbase with rfl | rfl | rfl <;> rcases horder with rfl | rfl | rfl | rfl <;>
    exact ⟨lexeme_ofWord (by decide) (by decide), by decide⟩

theorem Kind.mem_typeWords {k : Kind} {t : Ty} (h : k.type? = some t) : k ∈ Kind.typeWords := by
  have hisType := k.isSome_type?
  rw [h] at hisType
  exact of_decide_eq_true hisType.symm

theorem row_var {v : Var} (h : v.Expressible) : Row [.ident] closing v.render := by
  have hname : Row [.ident] [.ident] [(.ident, v.name)] :=
    row_single h.1 (by decide) (by simp) (by simp)
  unfold Var.render
  split
  · exact hname.mono (List.Subset.refl _) (by decide)
  · rename_i i _
    have hindex : Row [.int] [.int] [(.int, decimal i)] :=
      row_single (lexeme_decimal i) (by decide) (by simp) (by simp)
    have hbrackets : Row [.lbracket] [.rbracket]
        [Kind.lbracket.sign, (.int, decimal i), Kind.rbracket.sign] :=
      (hindex.concat rfl (by decide)).cons rfl (by decide)
    exact (hname.append hbrackets (by decide)).mono (List.Subset.refl _) (by decide)

end Rows

namespace Ast

variable {spell : Pos → Float → Bytes}

mutual

/-- **The tokens of an expression are in a row.** -/
theorem Expr.row_render : ∀ {e : Expr}, e.Expressible spell →
    Row opening closing (e.render spell)
  | .int _ n, _ => row_single (lexeme_decimal n) (by decide) (by decide) (by decide)
  | .float _ _, h => row_single h.1 (by decide) (by decide) (by decide)
  | .bool _ b, _ => by
    cases b with
    | false =>
      exact row_single (lexeme_ofWord (by decide) (by decide)) (by decide) (by decide) (by decide)
    | true =>
      exact row_single (lexeme_ofWord (by decide) (by decide)) (by decide) (by decide) (by decide)
  | .var _, h => (row_var h).mono (by decide) (List.Subset.refl _)
  | .unary _ op x, h => by
    have hx := row_enclose x.isInfix (row_render h.2)
    have hop : op.kind.isSign = true ∧ (∀ k ∈ opening, op.kind.beside k = true) ∧
        [op.kind] ⊆ opening := by
      cases op with
      | unknown => exact absurd rfl h.1
      | _ => decide
    exact (hx.cons hop.1 hop.2.1).mono hop.2.2 (List.Subset.refl _)
  | .binary _ op l r, h => by
    have hl := row_render h.2.1
    have hr := row_render h.2.2
    rw [Expr.render]
    split
    · exact row_infix h.1 (row_enclose _ hl) (row_enclose _ hr)
    · exact row_infix h.1 (row_enclose _ hl) (row_enclose _ hr)
  | .call _ _ args, h =>
    row_applied h.1 (by simp) fun hne => row_renderList h.2 (mt (congrArg _) hne)
  | .construct _ type args, h => by
    obtain ⟨hword, htype⟩ := lexeme_type h.1
    exact row_applied hword (List.mem_cons_of_mem _ (Kind.mem_typeWords htype)) fun hne =>
      row_renderList h.2 (mt (congrArg _) hne)

theorem Expr.row_renderList : ∀ {es : List Expr}, Expr.ListExpressible spell es →
    es ≠ [] → Row opening closing (Expr.renderList spell es)
  | [], _, hne => absurd rfl hne
  | [_], h, _ => row_render h.1
  | e :: e' :: es, h, _ => by
    have hmore := row_renderList h.2 (List.cons_ne_nil e' es)
    rw [Expr.renderList]
    exact (row_render h.1).append (hmore.cons (k := .comma) rfl (by decide)) (by decide)

end

end Ast

/-! ## The tokens in the grammar -/

namespace Grammar

variable {spell : Pos → Float → Bytes} {ts : List Token}

theorem operatorAt_kind {op : BinaryOp} {n : Nat} (h : op.precedence? = some n) :
    OperatorAt n op.kind op := by
  cases op <;> cases h <;> constructor

theorem operatorBefore_kind {op : UnaryOp} (h : op ≠ .unknown) : OperatorBefore op.kind op := by
  cases op with
  | neg => exact .neg
  | not => exact .not
  | unknown => exact absurd rfl h

theorem integerOf_decimal {t : Token} {n : Nat} (ht : t.form = (.int, decimal n))
    (hn : n ≤ Number.maxInteger) : IntegerOf t n := by
  obtain ⟨hkind, hliteral⟩ := Prod.mk.inj ht
  exact ⟨hkind, by rw [hliteral, digitsValue_decimal], hn⟩

theorem varOf_render {v : Var} (h : v.Expressible) (hts : ts.map Token.form = v.render) :
    ∃ v', VarOf ts v' ∧ v'.unplaced = v.unplaced := by
  obtain ⟨pos, name, index⟩ := v
  cases index with
  | none =>
    obtain ⟨t, rfl, ht⟩ := List.map_eq_singleton_iff.mp hts
    obtain ⟨hkind, hliteral⟩ := Prod.mk.inj ht
    exact ⟨_, .plain hkind, by rw [hliteral]; rfl⟩
  | some i =>
    obtain ⟨t, us, rfl, ht, hts⟩ := List.map_eq_cons_iff.mp hts
    obtain ⟨l, us, rfl, hl, hts⟩ := List.map_eq_cons_iff.mp hts
    obtain ⟨n, us, rfl, hn, hts⟩ := List.map_eq_cons_iff.mp hts
    obtain ⟨r, rfl, hr⟩ := List.map_eq_singleton_iff.mp hts
    obtain ⟨hkind, hliteral⟩ := Prod.mk.inj ht
    refine ⟨_, .indexed hkind (Prod.mk.inj hl).1 (integerOf_decimal hn (h.2 i rfl))
      (Prod.mk.inj hr).1, ?_⟩
    rw [hliteral]
    rfl

/-- An operand of a level, in parentheses unless it is of that level by itself. -/
theorem exprOf_enclose {e : Expr} {n : Nat} {needed : Bool} (hn : n ≤ 8)
    (hneeded : needed = false → n ≤ e.level)
    (ih : ∀ {ts : List Token}, ts.map Token.form = e.render spell →
      ∃ e', ExprOf e.level ts e' ∧ e'.unplaced = e.unplaced)
    (hts : ts.map Token.form = enclose needed (e.render spell)) :
    ∃ e', ExprOf n ts e' ∧ e'.unplaced = e.unplaced := by
  obtain ⟨hlow, hhigh⟩ := e.level_bounds
  cases needed with
  | false =>
    obtain ⟨e', he', hsame⟩ := ih hts
    exact ⟨e', he'.loosen (hneeded rfl) hhigh, hsame⟩
  | true =>
    obtain ⟨l, us, rfl, hl, hts⟩ := List.map_eq_cons_iff.mp hts
    obtain ⟨us, rs, rfl, hus, hrs⟩ := List.map_eq_append_iff.mp hts
    obtain ⟨r, rfl, hr⟩ := List.map_eq_singleton_iff.mp hrs
    obtain ⟨e', he', hsame⟩ := ih hus
    -- in parentheses, an expression of any level stands by itself
    have hparens : ExprOf 8 (l :: (us ++ [r])) e' :=
      .parens (Prod.mk.inj hl).1 (he'.loosen hlow hhigh) (Prod.mk.inj hr).1
    exact ⟨e', hparens.loosen hn (by omega), hsame⟩

theorem argsOf_render {es : List Expr}
    (ih : ∀ {ts : List Token}, es ≠ [] → ts.map Token.form = Expr.renderList spell es →
      ∃ es', ListOf ts es' ∧ Expr.listUnplaced es' = Expr.listUnplaced es)
    (hts : ts.map Token.form =
      Kind.lparen.sign :: (Expr.renderList spell es ++ [Kind.rparen.sign])) :
    ∃ es', ArgsOf ts es' ∧ Expr.listUnplaced es' = Expr.listUnplaced es := by
  obtain ⟨l, us, rfl, hl, hts⟩ := List.map_eq_cons_iff.mp hts
  obtain ⟨us, rs, rfl, hus, hrs⟩ := List.map_eq_append_iff.mp hts
  obtain ⟨r, rfl, hr⟩ := List.map_eq_singleton_iff.mp hrs
  by_cases hne : es = []
  · subst hne
    rw [List.map_eq_nil_iff.mp hus]
    exact ⟨[], .none (Prod.mk.inj hl).1 (Prod.mk.inj hr).1, rfl⟩
  · obtain ⟨es', hes', hsame⟩ := ih hne hus
    exact ⟨es', .some (Prod.mk.inj hl).1 hes' (Prod.mk.inj hr).1, hsame⟩

mutual

/-- **The tokens of an expression are an expression of its level**, with the same tree. -/
theorem exprOf_render : ∀ {e : Expr} {ts : List Token}, e.Expressible spell →
    ts.map Token.form = e.render spell → ∃ e', ExprOf e.level ts e' ∧ e'.unplaced = e.unplaced
  | .int _ n, _, h, hts => by
    obtain ⟨t, rfl, ht⟩ := List.map_eq_singleton_iff.mp hts
    exact ⟨_, .int (integerOf_decimal ht h), rfl⟩
  | .float _ x, _, h, hts => by
    obtain ⟨t, rfl, ht⟩ := List.map_eq_singleton_iff.mp hts
    obtain ⟨hkind, hliteral⟩ := Prod.mk.inj ht
    exact ⟨_, .float hkind (by rw [hliteral]; exact h.2), rfl⟩
  | .bool _ b, _, _, hts => by
    obtain ⟨t, rfl, ht⟩ := List.map_eq_singleton_iff.mp hts
    cases b with
    | false => exact ⟨_, .false (Prod.mk.inj ht).1, rfl⟩
    | true => exact ⟨_, .true (Prod.mk.inj ht).1, rfl⟩
  | .var v, _, h, hts => by
    obtain ⟨v', hv', hsame⟩ := varOf_render h hts
    exact ⟨_, .var hv', congrArg Expr.var hsame⟩
  | .unary _ op x, _, h, hts => by
    obtain ⟨t, us, rfl, ht, hus⟩ := List.map_eq_cons_iff.mp hts
    obtain ⟨x', hx', hsame⟩ := exprOf_enclose (by omega) Expr.six_le_level (exprOf_render h.2) hus
    have hop : OperatorBefore t.kind op := by
      rw [(Prod.mk.inj ht).1]
      exact operatorBefore_kind h.1
    exact ⟨_, .unary hop hx', by rw [Expr.unplaced, Expr.unplaced, hsame]⟩
  | .binary _ op l r, _, h, hts => by
    rw [Expr.render] at hts
    cases hprec : op.precedence? with
    | some n =>
      rw [hprec] at hts
      obtain ⟨us, vs, rfl, hus, hvs⟩ := List.map_eq_append_iff.mp hts
      obtain ⟨t, vs, rfl, ht, hvs⟩ := List.map_eq_cons_iff.mp hvs
      have hop : OperatorAt n t.kind op := by
        rw [(Prod.mk.inj ht).1]
        exact operatorAt_kind hprec
      have hfive := hop.le_five
      -- operators of one level associate to the left, so the right operand is of the next
      obtain ⟨l', hl', hsame⟩ := exprOf_enclose (n := n) (by omega)
        (fun hc => Nat.not_lt.mp (of_decide_eq_false hc)) (exprOf_render h.2.1) hus
      obtain ⟨r', hr', hsame'⟩ := exprOf_enclose (n := n + 1) (by omega)
        (fun hc => Nat.not_le.mp (of_decide_eq_false hc)) (exprOf_render h.2.2) hvs
      refine ⟨.binary t.pos op l' r', ?_, by rw [Expr.unplaced, Expr.unplaced, hsame, hsame']⟩
      rw [Expr.level, hprec]
      exact .binary hop hl' hr'
    | none =>
      -- the only operator of the language without a precedence
      have hpow : op = .pow := by
        cases op with
        | pow => rfl
        | unknown => exact absurd rfl h.1
        | _ => cases hprec
      subst hpow
      rw [hprec] at hts
      obtain ⟨us, vs, rfl, hus, hvs⟩ := List.map_eq_append_iff.mp hts
      obtain ⟨t, vs, rfl, ht, hvs⟩ := List.map_eq_cons_iff.mp hvs
      obtain ⟨b', hb', hsame⟩ := exprOf_enclose (n := 8) (by omega)
        (fun hc => (Expr.level_of_isPrimary (by simpa using hc)).ge) (exprOf_render h.2.1) hus
      obtain ⟨x', hx', hsame'⟩ := exprOf_enclose (by omega) Expr.six_le_level
        (exprOf_render h.2.2) hvs
      exact ⟨_, .power (Prod.mk.inj ht).1 hb' hx',
        by rw [Expr.unplaced, Expr.unplaced, hsame, hsame']⟩
  | .call _ f args, _, h, hts => by
    obtain ⟨t, us, rfl, ht, hus⟩ := List.map_eq_cons_iff.mp hts
    obtain ⟨args', hargs, hsame⟩ := argsOf_render (listOf_render h.2) hus
    obtain ⟨hkind, hliteral⟩ := Prod.mk.inj ht
    exact ⟨_, .call hkind hargs, by rw [Expr.unplaced, Expr.unplaced, hsame, hliteral]⟩
  | .construct _ type args, _, h, hts => by
    obtain ⟨t, us, rfl, ht, hus⟩ := List.map_eq_cons_iff.mp hts
    obtain ⟨args', hargs, hsame⟩ := argsOf_render (listOf_render h.2) hus
    have htype : t.kind.type? = some type := by
      rw [(Prod.mk.inj ht).1]
      exact (lexeme_type h.1).2
    exact ⟨_, .construct htype hargs, by rw [Expr.unplaced, Expr.unplaced, hsame]⟩

theorem listOf_render : ∀ {es : List Expr} {ts : List Token}, Expr.ListExpressible spell es →
    es ≠ [] → ts.map Token.form = Expr.renderList spell es →
    ∃ es', ListOf ts es' ∧ Expr.listUnplaced es' = Expr.listUnplaced es
  | [], _, _, hne, _ => absurd rfl hne
  | [e], _, h, _, hts => by
    obtain ⟨e', he', hsame⟩ := exprOf_render h.1 hts
    obtain ⟨hlow, hhigh⟩ := e.level_bounds
    exact ⟨_, .one (he'.loosen hlow hhigh), by rw [Expr.listUnplaced, hsame]; rfl⟩
  | e :: e' :: es, _, h, _, hts => by
    obtain ⟨us, vs, rfl, hus, hvs⟩ := List.map_eq_append_iff.mp hts
    obtain ⟨c, vs, rfl, hc, hvs⟩ := List.map_eq_cons_iff.mp hvs
    obtain ⟨x, hx, hsame⟩ := exprOf_render h.1 hus
    obtain ⟨xs, hxs, hsame'⟩ := listOf_render h.2 (List.cons_ne_nil e' es) hvs
    obtain ⟨hlow, hhigh⟩ := e.level_bounds
    refine ⟨_, .more (hx.loosen hlow hhigh) (Prod.mk.inj hc).1 hxs, ?_⟩
    rw [Expr.listUnplaced, hsame, hsame']
    rfl

end

end Grammar

/-! ## Reading the tokens back -/

open Grammar

theorem scan_spread {P Q : List Kind} {fs : List (Kind × Bytes)} {gaps : List Bytes}
    (h : Row P Q fs) (hgaps : ∀ g ∈ gaps, g = [] ∨ Spacing g) :
    (scan (spread (fs.map (·.2)) gaps)).1.map Token.form = fs := by
  have hforms := forms_spread (fun f hf => (h.lexemes f hf).1)
    (setApart_of_isChain h.lexemes h.beside hgaps)
  have hliteral : ∀ f ∈ fs, (f.1, literalOf f.1 f.2) = f := fun f hf =>
    Prod.ext rfl (if_neg (h.lexemes f hf).2)
  have hliterals : (fs.map fun f => (f.1, literalOf f.1 f.2)) = fs :=
    (List.map_congr_left hliteral).trans (List.map_id' fs)
  rw [hliterals, forms, List.map_append] at hforms
  exact List.append_inj_left' hforms rfl

/-- The tokens of a block in which an expression is assigned to a variable. -/
def assignment (spell : Pos → Float → Bytes) (v : Var) (e : Expr) : List (Kind × Bytes) :=
  Kind.lbrace.sign :: (v.render ++ Kind.assign.sign ::
    (e.render spell ++ [Kind.semicolon.sign, Kind.rbrace.sign]))

section Assignment

variable {spell : Pos → Float → Bytes} {v : Var} {e : Expr}

theorem row_assignment (hv : v.Expressible) (he : e.Expressible spell) :
    Row [.lbrace] [.rbrace] (assignment spell v e) := by
  have hend : Row [.semicolon] [.rbrace] [Kind.semicolon.sign, Kind.rbrace.sign] :=
    (row_sign rfl).cons rfl (by decide)
  have hvalue := ((Expr.row_render he).append hend (by decide)).cons (k := .assign) rfl (by decide)
  exact ((row_var hv).append hvalue (by decide)).cons rfl (by decide)

theorem treeOf_assignment {ts : List Token} (hv : v.Expressible) (he : e.Expressible spell)
    (hts : ts.map Token.form = assignment spell v e) :
    ∃ v' e', TreeOf ts ⟨[], [.assign v' e']⟩ ∧ v'.unplaced = v.unplaced ∧
      e'.unplaced = e.unplaced := by
  obtain ⟨l, us, rfl, hl, hts⟩ := List.map_eq_cons_iff.mp hts
  obtain ⟨us, rest, rfl, hus, hts⟩ := List.map_eq_append_iff.mp hts
  obtain ⟨a, rest, rfl, ha, hts⟩ := List.map_eq_cons_iff.mp hts
  obtain ⟨vs, rest, rfl, hvs, hts⟩ := List.map_eq_append_iff.mp hts
  obtain ⟨s, rest, rfl, hs, hts⟩ := List.map_eq_cons_iff.mp hts
  obtain ⟨r, rfl, hr⟩ := List.map_eq_singleton_iff.mp hts
  obtain ⟨v', hv', hsame⟩ := varOf_render hv hus
  obtain ⟨e', he', hsame'⟩ := exprOf_render he hvs
  obtain ⟨hlow, hhigh⟩ := e.level_bounds
  have hstmt : StmtOf true false (us ++ a :: (vs ++ [s])) (some (.assign v' e')) :=
    .assign hv' (Prod.mk.inj ha).1 (he'.loosen hlow hhigh) (Prod.mk.inj hs).1
  have hblock := BlockOf.mk (Prod.mk.inj hl).1 .nil (.cons hstmt .nil) (Prod.mk.inj hr).1
  refine ⟨v', e', ?_, hsame, hsame'⟩
  show BlockOf true _ _
  simpa using hblock

/-- **An expression that is written out is read back.** Its tokens, laid out with nothing or with
any spacing between them, are read without an error as the value of an assignment, and the tree is
the same but for places. -/
theorem parse_assignment {gaps : List Bytes} (hv : v.Expressible) (he : e.Expressible spell)
    (hgaps : ∀ g ∈ gaps, g = [] ∨ Spacing g) :
    ∃ v' e', parse (spread ((assignment spell v e).map (·.2)) gaps) =
        ⟨⟨[], [.assign v' e']⟩, []⟩ ∧
      v'.unplaced = v.unplaced ∧ e'.unplaced = e.unplaced := by
  obtain ⟨v', e', htree, hsame⟩ :=
    treeOf_assignment hv he (scan_spread (row_assignment hv he) hgaps)
  exact ⟨v', e', parse_of_treeOf htree, hsame⟩

/-- Operands of every kind, with and without parentheses, and nothing between the tokens. -/
theorem parse_assignment_operators :
    let x := (Number.readFloat? (ascii "1.5")).getD 0
    let a (name : String) : Expr := .var ⟨{}, ascii name, none⟩
    let value : Expr :=
      .binary {} .or
        (.binary {} .le
          (.binary {} .div
            (.binary {} .mul (.unary {} .neg (.binary {} .pow (a "b") (.unary {} .neg (a "c"))))
              (.construct {} ⟨.float, 2⟩ [.float {} x, .call {} (ascii "f") [.bool {} true]]))
            (.binary {} .sub (a "d") (.binary {} .sub (a "e") (.int {} 7))))
          (.unary {} .not (.binary {} .pow (.unary {} .neg (a "y")) (.int {} 2))))
        (.call {} (ascii "g") [])
    let source := ascii "\x7bx[1]=-b^-c*vec2(1.5,f(true))/(d-(e-7))<=!(-y)^2||g();\x7d"
    ∃ v' e', parse source = ⟨⟨[], [.assign v' e']⟩, []⟩ ∧
      v'.unplaced = ⟨{}, ascii "x", some 1⟩ ∧ e'.unplaced = value.unplaced := by
  intro x a value source
  let spell : Pos → Float → Bytes := fun _ _ => ascii "1.5"
  have hname : ∀ {w : Bytes}, w.head?.any isLetter = true ∧ w.all isWordByte = true ∧
      Kind.ofWord w = .ident → Lexeme .ident w := fun h => h.2.2 ▸ lexeme_ofWord h.1 h.2.1
  have hvar : ∀ {name : String}, Lexeme .ident (ascii name) → (a name).Expressible spell :=
    fun h => ⟨h, fun _ hi => by cases hi⟩
  have hfloat : Lexeme .float (ascii "1" ++ byte '.' :: (ascii "5" ++ [])) :=
    .float (.inl (by decide)) (List.all_eq_true.mp (by decide)) (List.all_eq_true.mp (by decide))
      .none
  have hx : Number.readFloat? (ascii "1.5") = some x := by
    have hsome : (Number.readFloat? (ascii "1.5")).isSome = true := by decide +kernel
    obtain ⟨y, hy⟩ := Option.isSome_iff_exists.mp hsome
    show _ = some ((Number.readFloat? (ascii "1.5")).getD 0)
    rw [hy]
    rfl
  -- the value can be written, part by part
  have hpower : (Expr.unary {} .neg (.binary {} .pow (a "b")
      (.unary {} .neg (a "c")))).Expressible spell :=
    ⟨by decide, by decide, hvar (hname (by decide)), by decide, hvar (hname (by decide))⟩
  have hpair : (Expr.construct {} ⟨.float, 2⟩
      [.float {} x, .call {} (ascii "f") [.bool {} true]]).Expressible spell :=
    ⟨⟨by decide, by decide⟩, ⟨hfloat, hx⟩, ⟨hname (by decide), trivial, trivial⟩, trivial⟩
  have hdifference : (Expr.binary {} .sub (a "d")
      (.binary {} .sub (a "e") (.int {} 7))).Expressible spell :=
    ⟨by decide, hvar (hname (by decide)), by decide, hvar (hname (by decide)),
      (by decide : 7 ≤ Number.maxInteger)⟩
  have hsquare : (Expr.unary {} .not (.binary {} .pow (.unary {} .neg (a "y"))
      (.int {} 2))).Expressible spell :=
    ⟨by decide, by decide, ⟨by decide, hvar (hname (by decide))⟩,
      (by decide : 2 ≤ Number.maxInteger)⟩
  have hvalue : value.Expressible spell :=
    ⟨by decide, ⟨by decide, ⟨by decide, ⟨by decide, hpower, hpair⟩, hdifference⟩, hsquare⟩,
      hname (by decide), trivial⟩
  have hsource : source =
      spread ((assignment spell ⟨{}, ascii "x", some 1⟩ value).map (·.2)) [] := by
    decide +kernel
  rw [hsource]
  exact parse_assignment ⟨hname (by decide), by decide⟩ hvalue (by simp)

end Assignment

end Shader
