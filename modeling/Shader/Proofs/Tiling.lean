import Mathlib.Data.List.Forall2
import Shader.Proofs.ParserExact

/-!
# Tokens and separators tile a text

Every byte of a text belongs to one token or to one separator, a separator being a space, a newline
or a whole comment. Where a token stands, its bytes are what it says and its line and column are
those of its first byte, counted from the start of the text.

The scanner works with lengths and with positions that it moves along. Here both are brought back to
places in the text: a cursor that has passed `n` bytes is `Cursor.past t n`, whatever it has read on
the way.
-/

namespace Shader

open Text

/-! ## Separators -/

/-- The bytes that close a block comment. -/
def closer : Bytes := [byte '*', byte '/']

/-- `Separator s after`: the text `s` separates tokens, where `after` follows it. A comment ends as
soon as it can. -/
inductive Separator : Bytes → Bytes → Prop where
  | space {b : UInt8} {after : Bytes} :
      b ∈ [byte ' ', byte '\t', byte '\r', byte '\n'] → Separator [b] after
  | line {body after : Bytes} : byte '\n' ∉ body → after = [] ∨ after.head? = some (byte '\n') →
      Separator (byte '/' :: byte '/' :: body) after
  | block {body after : Bytes} : ¬ closer <:+: body →
      Separator (byte '/' :: byte '*' :: (body ++ closer)) after
  | unclosed {body : Bytes} : ¬ closer <:+: body → Separator (byte '/' :: byte '*' :: body) []

/-- Separators one after the other. -/
inductive Separators : Bytes → Bytes → Prop where
  | nil {after : Bytes} : Separators [] after
  | cons {s gap after : Bytes} :
      Separator s (gap ++ after) → Separators gap after → Separators (s ++ gap) after

/-- A text that has no separator at its front. -/
def Unseparated (t : Bytes) : Prop := ∀ s after, t = s ++ after → ¬ Separator s after

section Gaps

theorem isSpace_iff {b : UInt8} :
    isSpace b = true ↔ b ∈ [byte ' ', byte '\t', byte '\r', byte '\n'] := by
  simp only [isSpace, Bool.or_eq_true, beq_iff_eq, List.mem_cons, List.not_mem_nil, or_false]
  grind

/-- A comment of one line ends before the newline, which is a separator by itself. -/
theorem length_line (r : Bytes) : ∃ body after, r = body ++ after ∧ byte '\n' ∉ body ∧
    (after = [] ∨ after.head? = some (byte '\n')) ∧
    Gap.line.length r = body.length + gapLength after := by
  induction r with
  | nil => exact ⟨[], [], rfl, by simp, .inl rfl, rfl⟩
  | cons b r ih =>
    by_cases hb : b = byte '\n'
    · subst hb
      exact ⟨[], byte '\n' :: r, rfl, by simp, .inr rfl, (Nat.zero_add _).symm⟩
    · obtain ⟨body, after, rfl, hbody, hafter, hlen⟩ := ih
      refine ⟨b :: body, after, rfl, ?_, hafter, ?_⟩
      · simp [hbody, Ne.symm hb]
      · rw [Gap.length, Gap.step, if_neg hb]
        simp only [hlen, List.length_cons]
        omega

/-- A block comment ends at the first closer, or it has none and takes all. -/
theorem length_block (r : Bytes) :
    (∃ body after, r = body ++ (closer ++ after) ∧ ¬ closer <:+: body ∧
      Gap.block.length r = body.length + 2 + gapLength after) ∨
    (¬ closer <:+: r ∧ Gap.block.length r = r.length) := by
  induction r with
  | nil => exact .inr ⟨by simp [closer], rfl⟩
  | cons b r ih =>
    by_cases hb : b = byte '*' ∧ r.head? = some (byte '/')
    · obtain ⟨rfl, hr⟩ := hb
      -- the comment is closed here
      obtain ⟨after, rfl⟩ : ∃ after, r = byte '/' :: after := by
        cases r with
        | nil => cases hr
        | cons c after => exact ⟨after, by rw [Option.some.inj hr]⟩
      refine .inl ⟨[], after, rfl, by simp [closer], ?_⟩
      rw [Gap.length, Gap.step, if_pos ⟨rfl, rfl⟩]
      show gapLength after + 1 + 1 = _
      simp only [List.length_nil]
      omega
    · -- a closer of the whole stands in the rest
      have hlater : ∀ {body : Bytes}, body <+: r → closer <:+: b :: body → closer <:+: body := by
        intro body hbody hinfix
        rcases List.infix_cons_iff.mp hinfix with hprefix | hinfix
        · obtain ⟨hstar, hslash⟩ := List.cons_prefix_cons.mp hprefix
          obtain ⟨tail, rfl⟩ := hslash.trans hbody
          exact absurd ⟨hstar.symm, rfl⟩ hb
        · exact hinfix
      have hstep : Gap.block.length (b :: r) = Gap.block.length r + 1 := by
        rw [Gap.length, Gap.step, if_neg hb]
      rcases ih with ⟨body, after, rfl, hbody, hlen⟩ | ⟨hr, hlen⟩
      · refine .inl ⟨b :: body, after, rfl, fun h => hbody (hlater ⟨_, rfl⟩ h), ?_⟩
        rw [hstep, hlen, List.length_cons]
        omega
      · refine .inr ⟨fun h => hr (hlater (List.prefix_refl r) h), ?_⟩
        rw [hstep, hlen, List.length_cons]

/-- A separator starts with a space or opens a comment. -/
theorem unseparated_of_step {b : UInt8} {rest : Bytes} (h : Gap.plain.step b rest = none) :
    Unseparated (b :: rest) := by
  simp only [Gap.step] at h
  split at h
  · cases h
  · rename_i hspace
    intro s after heq hs
    cases hs with
    | space hb =>
      cases heq
      exact hspace (isSpace_iff.mpr hb)
    | line _ _ =>
      cases heq
      simp at h
    | block _ =>
      cases heq
      simp [byte] at h
    | unclosed _ =>
      cases heq
      simp [byte] at h

theorem Separator.ne_nil {s after : Bytes} (h : Separator s after) : s ≠ [] := by
  cases h <;> simp

theorem gapLength_line (r : Bytes) :
    gapLength (byte '/' :: byte '/' :: r) = Gap.line.length r + 2 := rfl

theorem gapLength_block (r : Bytes) :
    gapLength (byte '/' :: byte '*' :: r) = Gap.block.length r + 2 := rfl

/-- A text starts with a separator, which is passed over, or with none. -/
theorem gap_cases (t : Bytes) : (gapLength t = 0 ∧ Unseparated t) ∨
    ∃ s u, t = s ++ u ∧ Separator s u ∧ gapLength t = s.length + gapLength u := by
  cases t with
  | nil =>
    refine .inl ⟨rfl, fun s after heq hs => ?_⟩
    exact hs.ne_nil (List.append_eq_nil_iff.mp heq.symm).1
  | cons b r =>
    cases hstep : Gap.plain.step b r with
    | none => exact .inl ⟨by rw [gapLength, Gap.length, hstep], unseparated_of_step hstep⟩
    | some g =>
      refine .inr ?_
      simp only [Gap.step] at hstep
      split at hstep
      -- a blank
      · rename_i hspace
        refine ⟨[b], r, rfl, .space (isSpace_iff.mp hspace), ?_⟩
        rw [gapLength, Gap.length, Gap.step, if_pos hspace, Nat.add_comm]
        rfl
      · split at hstep
        · rename_i hslash
          subst hslash
          obtain ⟨c, r, rfl⟩ : ∃ c r', r = c :: r' := by
            cases r with
            | nil => cases hstep
            | cons c r => exact ⟨c, r, rfl⟩
          split at hstep
          · rename_i hc
            cases Option.some.inj hc
            -- a comment up to the end of the line
            obtain ⟨body, after, rfl, hbody, hafter, hline⟩ := length_line r
            refine ⟨byte '/' :: byte '/' :: body, after, rfl, .line hbody hafter, ?_⟩
            rw [gapLength_line, hline, List.length_cons, List.length_cons]
            omega
          · split at hstep
            · rename_i hc
              cases Option.some.inj hc
              -- a comment up to its closing mark, or to the end of the text if there is none
              rcases length_block r with ⟨body, after, rfl, hbody, hblock⟩ | ⟨hbody, hblock⟩
              · refine ⟨byte '/' :: byte '*' :: (body ++ closer), after, by simp, .block hbody, ?_⟩
                rw [gapLength_block, hblock]
                simp only [List.length_cons, List.length_append, closer, List.length_nil]
                omega
              · refine ⟨byte '/' :: byte '*' :: r, [], by simp, .unclosed hbody, ?_⟩
                rw [gapLength_block, hblock]
                rfl
            · cases hstep
        · cases hstep

/-- **What is passed over before a token are separators, and the token is at no further one.** -/
theorem separators_gap (t : Bytes) : ∃ gap rest, t = gap ++ rest ∧ gap.length = gapLength t ∧
    Separators gap rest ∧ Unseparated rest := by
  -- a comment may be long, so the induction is on the length of what is left
  induction hn : t.length using Nat.strongRecOn generalizing t with
  | ind n ih =>
    subst hn
    rcases gap_cases t with ⟨hzero, hfree⟩ | ⟨s, u, rfl, hs, hlen⟩
    · exact ⟨[], t, rfl, hzero.symm, .nil, hfree⟩
    · have hpos := List.length_pos_iff.mpr hs.ne_nil
      obtain ⟨gap, rest, hu, hgap, hseps, hfree⟩ :=
        ih u.length (by rw [List.length_append]; omega) u rfl
      refine ⟨s ++ gap, rest, by rw [hu, List.append_assoc], ?_, .cons (hu ▸ hs) hseps, hfree⟩
      rw [List.length_append, hgap, hlen]

end Gaps

/-! ## Spans -/

/-- The bytes of a text from `start` on and before `stop`. -/
structure Span where
  start : Nat
  stop : Nat
  deriving DecidableEq, Repr

namespace Span

/-- The bytes themselves. -/
def text (s : Span) (t : Bytes) : Bytes := (t.drop s.start).take (s.stop - s.start)

instance : Membership Nat Span := ⟨fun s i => s.start ≤ i ∧ i < s.stop⟩

/-- A span that ends before another begins. -/
def Before (s s' : Span) : Prop := s.stop ≤ s'.start

end Span

/-- Every byte of a gap is in one of its separators. -/
theorem Separators.covers {gap after : Bytes} (h : Separators gap after) {i : Nat}
    (hi : i < gap.length) : ∃ g : Span, i ∈ g ∧ g.stop ≤ gap.length ∧
      Separator (g.text (gap ++ after)) ((gap ++ after).drop g.stop) := by
  induction h generalizing i with
  | nil => exact absurd hi (by simp)
  | @cons s gap after hs hseps ih =>
    rcases Nat.lt_or_ge i s.length with hlt | hge
    · refine ⟨⟨0, s.length⟩, ⟨Nat.zero_le i, hlt⟩, by simp, ?_⟩
      simpa [Span.text, List.append_assoc] using hs
    · rw [List.length_append] at hi
      obtain ⟨g, ⟨hstart, hstop⟩, hle, hg⟩ := ih (i := i - s.length) (by omega)
      refine ⟨⟨s.length + g.start, s.length + g.stop⟩, ⟨by simp; omega, by simp; omega⟩, ?_, ?_⟩
      · rw [List.length_append]
        exact Nat.add_le_add_left hle _
      · have htext : Span.text ⟨s.length + g.start, s.length + g.stop⟩ (s ++ gap ++ after) =
            g.text (gap ++ after) := by
          simp only [Span.text, List.append_assoc]
          rw [List.drop_append, List.drop_eq_nil_of_le (Nat.le_add_right _ _), List.nil_append,
            Nat.add_sub_cancel_left, Nat.add_sub_add_left]
        rw [htext, List.append_assoc, List.drop_append,
          List.drop_eq_nil_of_le (Nat.le_add_right _ _), List.nil_append, Nat.add_sub_cancel_left]
        exact hg

/-! ## Positions -/

/-- The line and the column of the byte at `b`: lines count the newlines before it, and columns the
bytes since the last one. -/
structure Pos.IsAt (p : Pos) (t : Bytes) (b : Nat) : Prop where
  line : p.line = 1 + (t.take b).count (byte '\n')
  column : (byte '\n' ∉ t.take b ∧ p.column = b + 1) ∨
    ∃ j < b, t[j]? = some (byte '\n') ∧ (∀ k, j < k → k < b → t[k]? ≠ some (byte '\n')) ∧
      p.column = b - j

theorem Pos.isAt_step {p : Pos} {t : Bytes} {b : Nat} {c : UInt8} (h : p.IsAt t b)
    (hc : t[b]? = some c) : (p.step c).IsAt t (b + 1) := by
  have htake : t.take (b + 1) = t.take b ++ [c] := by
    rw [List.take_add_one, hc]
    rfl
  by_cases hnew : c = byte '\n'
  · rw [Pos.step, if_pos hnew]
    constructor
    · rw [htake, List.count_append, hnew, h.line]
      simp only [List.count_singleton_self]
      omega
    · refine .inr ⟨b, Nat.lt_succ_self b, hnew ▸ hc, fun k hk hk' => by omega, ?_⟩
      show (1 : Int) = ((b + 1 : Nat) : Int) - b
      omega
  · rw [Pos.step, if_neg hnew]
    constructor
    · rw [htake, List.count_append, List.count_singleton, if_neg (by simpa using hnew), h.line]
      rfl
    -- still on the first line, or behind the same newline as before
    · rcases h.column with ⟨hnone, hcol⟩ | ⟨j, hj, hjn, hlast, hcol⟩
      · refine .inl ⟨?_, ?_⟩
        · rw [htake]
          simp [hnone, Ne.symm hnew]
        · simp only [hcol]
          omega
      · refine .inr ⟨j, by omega, hjn, fun k hk hk' => ?_, ?_⟩
        · rcases Nat.lt_succ_iff_lt_or_eq.mp hk' with hlt | rfl
          · exact hlast k hk hlt
          · rw [hc]
            exact fun heq => hnew (Option.some.inj heq)
        · simp only [hcol]
          omega

/-- The position that is reached by moving along a text is that of the place reached. -/
theorem Pos.isAt_advance {t : Bytes} {b : Nat} (h : b ≤ t.length) :
    (Pos.start.advance (t.take b)).IsAt t b := by
  induction b with
  | zero => exact ⟨rfl, .inl ⟨by simp, rfl⟩⟩
  | succ b ih =>
    have hc : t[b]? = some t[b] := List.getElem?_eq_getElem h
    rw [List.take_add_one, hc, Pos.advance_append]
    exact Pos.isAt_step (ih (Nat.le_of_lt h)) hc

/-! ## Lexemes -/

theorem runLength_le (p : UInt8 → Bool) (t : Bytes) : runLength p t ≤ t.length :=
  (List.takeWhile_sublist p).length_le

theorem exponentLength_le (t : Bytes) : exponentLength t ≤ t.length := by
  unfold exponentLength
  split
  · rename_i e c rest
    have hdigits := runLength_le isDigit (c :: rest)
    have hrest := runLength_le isDigit rest
    simp only [List.length_cons] at hdigits ⊢
    repeat' split
    all_goals omega
  · exact Nat.zero_le _

theorem number_le (t : Bytes) : (number t).2 ≤ t.length := by
  have hwhole := runLength_le isDigit t
  unfold number
  dsimp only
  split
  · rename_i c rest hrest
    have hlen := congrArg List.length hrest
    have hfraction := runLength_le isDigit rest
    have hexponent := exponentLength_le (rest.drop (runLength isDigit rest))
    simp only [List.length_drop, List.length_cons] at hlen hexponent
    split
    · dsimp only
      omega
    · exact hwhole
  · exact hwhole

theorem number_ne_illegal (t : Bytes) : (number t).1 ≠ .illegal := by
  unfold number
  dsimp only
  split
  · split <;> simp
  · simp

theorem Kind.ofWord_ne_illegal (w : Bytes) : Kind.ofWord w ≠ .illegal := by
  unfold Kind.ofWord
  cases h : Kind.keywords.find? (fun k => k.name == w) with
  | none => simp
  | some k =>
    have hk := List.mem_of_find?_eq_some h
    rintro rfl
    revert hk
    decide

/-- A lexeme is at the front of its text, and one that is no token of the language is one byte. -/
theorem lexeme?_length {t : Bytes} {kind : Kind} {n : Nat} (h : lexeme? t = some (kind, n)) :
    n ≤ t.length ∧ (kind = .illegal → n = 1) := by
  cases t with
  | nil => cases h
  | cons b rest =>
    simp only [lexeme?] at h
    split at h
    · cases h
      exact ⟨by simp, fun _ => rfl⟩
    · split at h
      · rename_i p hp
        -- a byte that may be the first of two: no pair is illegal, but the first may be by itself
        have hboth : ∀ p ∈ pairings, p.both ≠ .illegal := by decide
        split at h
        · rename_i hsecond
          cases h
          refine ⟨?_, fun hi => absurd hi (hboth p (List.mem_of_find?_eq_some hp))⟩
          cases rest with
          | nil => cases hsecond
          | cons c rest => simp
        · cases h
          exact ⟨by simp, fun _ => rfl⟩
      · split at h
        · cases h
          refine ⟨?_, fun hi => absurd hi (Kind.ofWord_ne_illegal _)⟩
          have := runLength_le isWordByte rest
          rw [List.length_cons]
          omega
        · split at h
          · have hnumber := Option.some.inj h
            refine ⟨?_, fun hi => absurd ?_ (number_ne_illegal (b :: rest))⟩
            · have := number_le (b :: rest)
              rwa [hnumber] at this
            · rw [hnumber]
              exact hi
          · cases h
            exact ⟨by simp, fun _ => rfl⟩

theorem eq_nil_of_lexeme? {t : Bytes} (h : lexeme? t = none) : t = [] := by
  cases t with
  | nil => rfl
  | cons b rest =>
    simp only [lexeme?] at h
    repeat' split at h
    all_goals cases h

/-- The two bytes of a character above 127 are those of its encoding. -/
theorem utf8_eq (b : UInt8) : utf8 b = String.utf8EncodeChar (Char.ofNat b.toNat) := by
  have hall : ∀ n < 256, utf8 (UInt8.ofNat n) =
      String.utf8EncodeChar (Char.ofNat (UInt8.ofNat n).toNat) := by decide +kernel
  have := hall b.toNat b.toNat_lt
  rwa [UInt8.ofNat_toNat] at this

/-! ## Cursors -/

namespace Cursor

/-- The cursor of a text that has passed `n` bytes. -/
def past (t : Bytes) (n : Nat) : Cursor := ⟨Pos.start.advance (t.take n), t.drop n⟩

theorem skip_past (t : Bytes) (n k : Nat) : (Cursor.past t n).skip k = Cursor.past t (n + k) := by
  rw [Cursor.past, Cursor.skip, ← Pos.advance_append, ← List.take_add, List.drop_drop]
  rfl

theorem next_of_none {c : Cursor} (h : lexeme? c.skipGap.rest = none) :
    c.next = (⟨.eof, [], c.skipGap.pos⟩, c.skipGap) := by
  simp only [next, h]

theorem next_of_some {c : Cursor} {kind : Kind} {n : Nat}
    (h : lexeme? c.skipGap.rest = some (kind, n)) :
    c.next = (⟨kind, literalOf kind (c.skipGap.rest.take n), c.skipGap.pos⟩, c.skipGap.skip n) := by
  simp only [next, h]

/-- The cursor behind `k` tokens. -/
def after (c : Cursor) : Nat → Cursor
  | 0 => c
  | k + 1 => c.next.2.after k

end Cursor

/-! ## Tilings -/

/-- A token at a span of a text. What it says are the bytes there; if they are no token of the
language, they are one byte, and the token says the character of that code. -/
structure Token.IsAt (tok : Token) (t : Bytes) (s : Span) : Prop where
  literal : tok.kind ≠ .illegal → tok.literal = s.text t
  illegal : tok.kind = .illegal → ∃ b, s.text t = [b] ∧
    tok.literal = String.utf8EncodeChar (Char.ofNat b.toNat)
  position : tok.pos.IsAt t s.start
  proper : tok.kind ≠ .eof

/-- The spans of tokens in a text, from a place on. -/
structure Tiling (t : Bytes) (first : Nat) (tokens : List Token) (spans : List Span) : Prop where
  /-- There is one span for each token, in order. -/
  each : List.Forall₂ (fun tok s => tok.IsAt t s) tokens spans
  /-- They are not empty, and inside the text. -/
  inside : ∀ s ∈ spans, first ≤ s.start ∧ s.start < s.stop ∧ s.stop ≤ t.length
  /-- They follow each other. -/
  ordered : spans.Pairwise Span.Before
  /-- Every byte is in one of them or in a separator, and the separator meets none of them. -/
  covered : ∀ i, first ≤ i → i < t.length → (∃ s ∈ spans, i ∈ s) ∨
    ∃ g : Span, i ∈ g ∧ first ≤ g.start ∧ g.stop ≤ t.length ∧
      Separator (g.text t) (t.drop g.stop) ∧ ∀ s ∈ spans, g.Before s ∨ s.Before g
  /-- None of them begins with a separator. -/
  unseparated : ∀ s ∈ spans, Unseparated (t.drop s.start)

section Tilings

variable {t : Bytes} {first b e : Nat} {tok : Token} {tokens : List Token} {spans : List Span}

/-- Between two places of a text there are separators only. -/
def OnlySeparators (t : Bytes) (first b : Nat) : Prop :=
  ∃ gap, t.drop first = gap ++ t.drop b ∧ first + gap.length = b ∧ Separators gap (t.drop b)

/-- The separators before a place, as spans of the text. -/
theorem exists_separator (h : OnlySeparators t first b) {i : Nat} (hi : first ≤ i) (hib : i < b) :
    ∃ g : Span, i ∈ g ∧ first ≤ g.start ∧ g.stop ≤ b ∧
      Separator (g.text t) (t.drop g.stop) := by
  obtain ⟨gap, hsplit, hlen, hseps⟩ := h
  obtain ⟨g, ⟨hstart, hstop⟩, hle, hg⟩ := hseps.covers (i := i - first) (by omega)
  refine ⟨⟨first + g.start, first + g.stop⟩, ⟨by simp; omega, by simp; omega⟩, by simp,
    by simp; omega, ?_⟩
  rw [← hsplit, List.drop_drop] at hg
  have htext : Span.text ⟨first + g.start, first + g.stop⟩ t = g.text (t.drop first) := by
    simp only [Span.text, List.drop_drop, Nat.add_sub_add_left]
  rw [htext]
  exact hg

theorem Tiling.nil (h : OnlySeparators t first t.length) : Tiling t first [] [] where
  each := .nil
  inside := by simp
  ordered := .nil
  covered := by
    intro i hi hlt
    obtain ⟨g, hig, hstart, hstop, hg⟩ := exists_separator h hi hlt
    exact .inr ⟨g, hig, hstart, hstop, hg, by simp⟩
  unseparated := by simp

theorem Tiling.cons (h : OnlySeparators t first b) (hfree : Unseparated (t.drop b)) (hbe : b < e)
    (he : e ≤ t.length) (htok : tok.IsAt t ⟨b, e⟩) (hrest : Tiling t e tokens spans) :
    Tiling t first (tok :: tokens) (⟨b, e⟩ :: spans) := by
  have hfirst : first ≤ b := by
    obtain ⟨gap, -, hlen, -⟩ := h
    omega
  have hafter : ∀ s ∈ spans, e ≤ s.start := fun s hs => (hrest.inside s hs).1
  refine ⟨.cons htok hrest.each, ?_, ?_, ?_, ?_⟩
  · intro s hs
    rcases List.mem_cons.mp hs with rfl | hs
    · exact ⟨hfirst, hbe, he⟩
    · obtain ⟨hs₁, hs₂⟩ := hrest.inside s hs
      exact ⟨by omega, hs₂⟩
  · exact List.pairwise_cons.mpr ⟨hafter, hrest.ordered⟩
  · intro i hi hlt
    -- before the first token, in it, or behind it
    rcases Nat.lt_or_ge i b with hib | hbi
    · obtain ⟨g, hig, hstart, hstop, hg⟩ := exists_separator h hi hib
      refine .inr ⟨g, hig, hstart, by omega, hg, fun s hs => .inl ?_⟩
      rcases List.mem_cons.mp hs with rfl | hs
      · exact hstop
      · have := hafter s hs
        show g.stop ≤ s.start
        omega
    · rcases Nat.lt_or_ge i e with hie | hei
      · exact .inl ⟨⟨b, e⟩, by simp, hbi, hie⟩
      · rcases hrest.covered i hei hlt with ⟨s, hs, his⟩ | ⟨g, hig, hstart, hstop, hg, hapart⟩
        · exact .inl ⟨s, List.mem_cons_of_mem _ hs, his⟩
        · refine .inr ⟨g, hig, by omega, hstop, hg, fun s hs => ?_⟩
          rcases List.mem_cons.mp hs with rfl | hs
          · exact .inr hstart
          · exact hapart s hs
  · intro s hs
    rcases List.mem_cons.mp hs with rfl | hs
    · exact hfree
    · exact hrest.unseparated s hs

/-- The gap at a place of a text ends at a place of it. -/
theorem exists_gap (hfirst : first ≤ t.length) :
    ∃ b ≤ t.length, b = first + gapLength (t.drop first) ∧ Unseparated (t.drop b) ∧
      OnlySeparators t first b := by
  obtain ⟨gap, rest, hsplit, hlen, hseps, hfree⟩ := separators_gap (t.drop first)
  have hrest : t.drop (first + gap.length) = rest := by
    rw [← List.drop_drop, hsplit, List.drop_left]
  have hle := congrArg List.length hsplit
  rw [List.length_drop, List.length_append] at hle
  refine ⟨first + gap.length, by omega, by rw [hlen], hrest ▸ hfree, gap, ?_, rfl, hrest ▸ hseps⟩
  rw [hrest, hsplit]

/-- The token at a place of a text. -/
theorem isAt_of_lexeme? {kind : Kind} {n : Nat} (hb : b ≤ t.length)
    (h : lexeme? (t.drop b) = some (kind, n)) :
    Token.IsAt ⟨kind, literalOf kind ((t.drop b).take n), (Cursor.past t b).pos⟩ t ⟨b, b + n⟩ := by
  have htext : Span.text ⟨b, b + n⟩ t = (t.drop b).take n := by
    rw [Span.text, Nat.add_sub_cancel_left]
  obtain ⟨hle, hone⟩ := lexeme?_length h
  refine ⟨fun hk => ?_, fun hk => ?_, Pos.isAt_advance hb, (lexeme?_kind h).1⟩
  · rw [htext]
    exact if_neg hk
  · cases hone hk
    obtain ⟨c, hc⟩ := List.length_eq_one_iff.mp (show ((t.drop b).take 1).length = 1 by
      rw [List.length_take]; omega)
    refine ⟨c, htext.trans hc, ?_⟩
    show literalOf kind ((t.drop b).take 1) = _
    rw [literalOf, if_pos hk, hc, List.flatMap_singleton, utf8_eq]

/-- A step from a place of a text: at the end of the text if only separators are left, and else
behind a token. -/
theorem next_past (hfirst : first ≤ t.length) :
    (OnlySeparators t first t.length ∧ (Cursor.past t first).next =
      (⟨.eof, [], (Cursor.past t t.length).pos⟩, Cursor.past t t.length)) ∨
    ∃ b e tok, OnlySeparators t first b ∧ Unseparated (t.drop b) ∧ b < e ∧ e ≤ t.length ∧
      Token.IsAt tok t ⟨b, e⟩ ∧ (Cursor.past t first).next = (tok, Cursor.past t e) := by
  obtain ⟨b, hb, rfl, hfree, hgap⟩ := exists_gap hfirst
  have hskip : (Cursor.past t first).skipGap =
      Cursor.past t (first + gapLength (t.drop first)) := Cursor.skip_past t first _
  generalize first + gapLength (t.drop first) = b at *
  have hrest : (Cursor.past t first).skipGap.rest = t.drop b := by rw [hskip]; rfl
  cases hl : lexeme? (t.drop b) with
  | none =>
    have hend : b = t.length :=
      Nat.le_antisymm hb (List.drop_eq_nil_iff.mp (eq_nil_of_lexeme? hl))
    subst hend
    refine .inl ⟨hgap, ?_⟩
    rw [Cursor.next_of_none (hrest ▸ hl), hskip]
  | some kn =>
    obtain ⟨kind, n⟩ := kn
    have hlen := (lexeme?_length hl).1
    have hpos := lexeme?_pos hl
    rw [List.length_drop] at hlen
    refine .inr ⟨b, b + n, _, hgap, hfree, by omega, by omega, isAt_of_lexeme? hb hl, ?_⟩
    rw [Cursor.next_of_some (hrest ▸ hl), hskip, Cursor.skip_past]
    rfl

theorem scan_of_eof {c : Cursor} (h : c.next.1.kind = .eof) : c.scan = ([], c.next.1) := by
  rw [Cursor.scan, if_pos h]

theorem scan_of_ne_eof {c : Cursor} (h : c.next.1.kind ≠ .eof) :
    c.scan = (c.next.1 :: c.next.2.scan.1, c.next.2.scan.2) := by
  rw [Cursor.scan, if_neg h]

/-- The end of a text is not left. -/
theorem next_end (t : Bytes) (k : Nat) : ((Cursor.past t t.length).after k).next =
    (⟨.eof, [], (Cursor.past t t.length).pos⟩, Cursor.past t t.length) := by
  have hstay : (Cursor.past t t.length).next =
      (⟨.eof, [], (Cursor.past t t.length).pos⟩, Cursor.past t t.length) := by
    rcases next_past (Nat.le_refl t.length) with
      ⟨-, hnext⟩ | ⟨b, e, tok, ⟨gap, -, hlen, -⟩, -, hbe, he, -⟩
    · exact hnext
    · omega
  induction k with
  | zero => exact hstay
  | succ k ih =>
    rw [Cursor.after, hstay]
    exact ih

/-- **The tokens from a place of a text on tile the rest of it.** -/
theorem tiling_scan (hfirst : first ≤ t.length) :
    ∃ spans, Tiling t first (Cursor.past t first).scan.1 spans ∧
      (Cursor.past t first).scan.2 = ⟨.eof, [], (Cursor.past t t.length).pos⟩ ∧
      ∀ k, ((Cursor.past t first).after k).next.1 =
        (Cursor.past t first).scan.1[k]?.getD (Cursor.past t first).scan.2 := by
  -- each token leaves less of the text
  induction hn : t.length - first using Nat.strongRecOn generalizing first with
  | ind n ih =>
    subst hn
    rcases next_past hfirst with ⟨hgap, hnext⟩ | ⟨b, e, tok, hgap, hfree, hbe, he, htok, hnext⟩
    · rw [scan_of_eof (by rw [hnext]), hnext]
      refine ⟨[], .nil hgap, rfl, fun k => ?_⟩
      cases k with
      | zero => rw [Cursor.after, hnext]; rfl
      | succ k =>
        rw [Cursor.after, hnext, next_end]
        rfl
    · have hfirst' : first ≤ b := by
        obtain ⟨gap, -, hlen, -⟩ := hgap
        omega
      rw [scan_of_ne_eof (by rw [hnext]; exact htok.proper), hnext]
      obtain ⟨spans, htiling, hlast, hcalls⟩ := ih (t.length - e) (by omega) he rfl
      refine ⟨⟨b, e⟩ :: spans, .cons hgap hfree hbe he htok htiling, hlast, fun k => ?_⟩
      cases k with
      | zero => rw [Cursor.after, hnext]; rfl
      | succ k =>
        rw [Cursor.after, hnext, hcalls k]
        rfl

end Tilings

/-! ## Texts -/

/-- The token that is read from a text behind `k` others. -/
def tokenAfter (source : Bytes) (k : Nat) : Token := ((Cursor.ofSource source).after k).next.1

/-- A text is read up to its first zero byte. -/
theorem visible_cases (source : Bytes) : 0 ∉ visible source ∧
    (source = visible source ∨ ∃ tail, source = visible source ++ 0 :: tail) := by
  induction source with
  | nil => exact ⟨by simp [visible], .inl rfl⟩
  | cons b source ih =>
    by_cases hb : b = 0
    · subst hb
      exact ⟨by simp [visible], .inr ⟨source, by simp [visible]⟩⟩
    · have hstep : visible (b :: source) = b :: visible source :=
        List.takeWhile_cons_of_pos (by simpa using hb)
      rw [hstep]
      refine ⟨by simp [Ne.symm hb, ih.1], ih.2.imp (congrArg (b :: ·)) ?_⟩
      rintro ⟨tail, htail⟩
      exact ⟨tail, congrArg (b :: ·) htail⟩

theorem visible_append {t : Bytes} (h : 0 ∉ t) (tail : Bytes) : visible (t ++ 0 :: tail) = t := by
  have hall : ∀ b ∈ t, (b != 0) = true := by
    intro b hb
    rw [bne_iff_ne]
    rintro rfl
    exact h hb
  rw [visible, List.takeWhile_append_of_pos hall, List.takeWhile_cons_of_neg (by simp),
    List.append_nil]

/-- **Tokens and separators tile a text, and positions are exact.** The tokens that are read one
after the other stand at spans of the text before its first zero byte; each byte outside of them
belongs to a separator. Behind them the end token is read, again and again and at one position. What
stands behind a zero byte has no effect. -/
theorem tiling_source (source : Bytes) : ∃ t spans,
    (0 ∉ t ∧ (source = t ∨ ∃ tail, source = t ++ 0 :: tail)) ∧
    Tiling t 0 (scan source).1 spans ∧
    ((scan source).2.kind = .eof ∧ (scan source).2.pos.IsAt t t.length) ∧
    (∀ k, tokenAfter source k = (scan source).1[k]?.getD (scan source).2) ∧
    ∀ tail k, tokenAfter (t ++ 0 :: tail) k = tokenAfter source k := by
  obtain ⟨hzero, hsource⟩ := visible_cases source
  obtain ⟨spans, htiling, hlast, hcalls⟩ := tiling_scan (Nat.zero_le (visible source).length)
  refine ⟨visible source, spans, ⟨hzero, hsource⟩, htiling, ?_, hcalls, fun tail k => ?_⟩
  · rw [show (scan source).2 = _ from hlast]
    exact ⟨rfl, Pos.isAt_advance (Nat.le_refl _)⟩
  · rw [tokenAfter, Cursor.ofSource, visible_append hzero]
    rfl

end Shader
