import Shader.Text

/-!
# Nested lists in a text

A dump is a list of words and lists, and how it is spread over lines does not matter. Here a text is
read without its layout, as the parentheses and words that stand in it (`Text.pieces`), and these
say which nested list it is: `Nested.pieces` is a prefix code, so what stands before is no part of
what follows.
-/

namespace Shader

open Text

/-! ## Parentheses and words -/

/-- A parenthesis or a word. -/
inductive Piece where
  | left
  | right
  | word (w : Bytes)
  deriving DecidableEq

namespace Text

/-- The bytes that end a word. -/
def isBreak (b : UInt8) : Bool := b == byte '(' || b == byte ')' || isSpace b

/-- What a byte that ends a word says itself. -/
def pieceOf (b : UInt8) : List Piece :=
  if b = byte '(' then [.left] else if b = byte ')' then [.right] else []

/-- A word, if there is one, and then pieces. -/
def piecesAfter (w : Bytes) (ms : List Piece) : List Piece := if w = [] then ms else .word w :: ms

/-- The word at the front of a text, which may be empty, and the pieces behind it. -/
def cut : Bytes → Bytes × List Piece
  | [] => ([], [])
  | b :: t =>
    if isBreak b then ([], pieceOf b ++ piecesAfter (cut t).1 (cut t).2)
    else (b :: (cut t).1, (cut t).2)

/-- The parentheses and words of a text. -/
def pieces (t : Bytes) : List Piece := piecesAfter (cut t).1 (cut t).2

/-- A word as a whole: it is there, and nothing ends it. -/
def IsUnbroken (w : Bytes) : Prop := w ≠ [] ∧ w.all (!isBreak ·) = true

instance decidableIsUnbroken (w : Bytes) : Decidable (IsUnbroken w) :=
  inferInstanceAs (Decidable (_ ∧ _))

/-- No word goes on in the text. -/
def Ends (t : Bytes) : Prop := ∀ b ∈ t.head?, isBreak b = true

section Marks

variable {b : UInt8} {w t : Bytes}

theorem ends_cons (hb : isBreak b = true) (t : Bytes) : Ends (b :: t) := by
  rintro _ ⟨⟩
  exact hb

/-- A byte that ends a word is read by itself, and what stands before it can be forgotten. -/
theorem pieces_cons (hb : isBreak b = true) (t : Bytes) :
    pieces (b :: t) = pieceOf b ++ pieces t := by
  rw [pieces, cut, if_pos hb]
  rfl

theorem pieces_left (t : Bytes) : pieces (byte '(' :: t) = .left :: pieces t :=
  pieces_cons (by decide) t

theorem pieces_right (t : Bytes) : pieces (byte ')' :: t) = .right :: pieces t :=
  pieces_cons (by decide) t

theorem pieces_space (t : Bytes) : pieces (byte ' ' :: t) = pieces t := pieces_cons (by decide) t

theorem pieces_newline (t : Bytes) : pieces (byte '\n' :: t) = pieces t := pieces_cons (by decide) t

theorem pieces_blanks (n : Nat) (t : Bytes) : pieces (blanks n ++ t) = pieces t := by
  induction n with
  | zero => rfl
  | succ n ih => exact (pieces_space _).trans ih

/-- Where no word goes on, the word at the front is empty. -/
theorem cut_of_ends (h : Ends t) : (cut t).1 = [] := by
  cases t with
  | nil => rfl
  | cons b t => rw [cut, if_pos (h b rfl)]

/-- The bytes of a word are put in front of the word that is cut off behind them. -/
theorem cut_append (hw : w.all (!isBreak ·) = true) (t : Bytes) :
    cut (w ++ t) = (w ++ (cut t).1, (cut t).2) := by
  induction w with
  | nil => rfl
  | cons b w ih =>
    rw [List.all_cons, Bool.and_eq_true, Bool.not_eq_true'] at hw
    rw [List.cons_append, cut, if_neg (by rw [hw.1]; simp), ih hw.2]
    rfl

theorem pieces_word (hw : IsUnbroken w) (ht : Ends t) : pieces (w ++ t) = .word w :: pieces t := by
  have hend := cut_of_ends ht
  rw [pieces, cut_append hw.2, hend, List.append_nil, pieces, hend, piecesAfter, if_neg hw.1]
  rfl

/-- A word and a space: the word is read as a whole, and the space says nothing. -/
theorem pieces_word_space (hw : IsUnbroken w) (t : Bytes) :
    pieces (w ++ byte ' ' :: t) = .word w :: pieces t := by
  rw [pieces_word hw (ends_cons (by decide) t), pieces_space]

theorem pieces_word_newline (hw : IsUnbroken w) (t : Bytes) :
    pieces (w ++ byte '\n' :: t) = .word w :: pieces t := by
  rw [pieces_word hw (ends_cons (by decide) t), pieces_newline]

theorem pieces_word_right (hw : IsUnbroken w) (t : Bytes) :
    pieces (w ++ byte ')' :: t) = .word w :: .right :: pieces t := by
  rw [pieces_word hw (ends_cons (by decide) t), pieces_right]

end Marks

end Text

/-! ## Nested lists -/

/-- A word, or a list of such. -/
inductive Nested where
  | word (w : Bytes)
  | list (items : List Nested)

namespace Nested

mutual

/-- The parentheses and words that a nested list is written with. -/
def pieces : Nested → List Piece
  | .word w => [.word w]
  | .list items => .left :: (listPieces items ++ [.right])

/-- The parentheses and words of the items of a list. -/
def listPieces : List Nested → List Piece
  | [] => []
  | x :: xs => x.pieces ++ listPieces xs

end

/-- A nested list never begins with a closing parenthesis. This is what tells the end of a list from
its next item. -/
theorem head?_pieces (x : Nested) (ms : List Piece) : (x.pieces ++ ms).head? ≠ some .right := by
  cases x <;> simp [pieces]

mutual

/-- **What is written says which list it is**, whatever follows. -/
theorem pieces_append_inj : ∀ {x y : Nested} {ms ns : List Piece}, x.pieces ++ ms = y.pieces ++ ns →
    x = y ∧ ms = ns
  | .word w, .word w', ms, ns, h => by
    simp only [pieces, List.cons_append, List.nil_append, List.cons.injEq, Piece.word.injEq] at h
    exact ⟨by rw [h.1], h.2⟩
  | .word w, .list ys, ms, ns, h => by
    simp [pieces] at h
  | .list xs, .word w, ms, ns, h => by
    simp [pieces] at h
  | .list xs, .list ys, ms, ns, h => by
    simp only [pieces, List.cons_append, List.append_assoc, List.nil_append, List.cons.injEq,
      true_and] at h
    obtain ⟨rfl, hrest⟩ := listPieces_append_inj h
    exact ⟨rfl, hrest⟩

/-- The items of a list end at the parenthesis that closes it. -/
theorem listPieces_append_inj : ∀ {xs ys : List Nested} {ms ns : List Piece},
    listPieces xs ++ .right :: ms = listPieces ys ++ .right :: ns → xs = ys ∧ ms = ns
  | [], [], ms, ns, h => by
    simp only [listPieces, List.nil_append, List.cons.injEq, true_and] at h
    exact ⟨rfl, h⟩
  | [], y :: ys, ms, ns, h => by
    rw [listPieces, listPieces, List.nil_append, List.append_assoc] at h
    exact absurd (congrArg List.head? h).symm (head?_pieces y _)
  | x :: xs, [], ms, ns, h => by
    rw [listPieces, listPieces, List.nil_append, List.append_assoc] at h
    exact absurd (congrArg List.head? h) (head?_pieces x _)
  | x :: xs, y :: ys, ms, ns, h => by
    rw [listPieces, listPieces, List.append_assoc, List.append_assoc] at h
    obtain ⟨rfl, hitems⟩ := pieces_append_inj h
    obtain ⟨rfl, hrest⟩ := listPieces_append_inj hitems
    exact ⟨rfl, hrest⟩

end

/-- **A nested list can be read off its pieces.** -/
theorem pieces_injective {x y : Nested} (h : x.pieces = y.pieces) : x = y := by
  have h' : x.pieces ++ [] = y.pieces ++ [] := by rw [h]
  exact (pieces_append_inj h').1

end Nested

end Shader
