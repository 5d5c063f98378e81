import Shader.Proofs.Tiling

/-!
# What a token looks like

The scanner finds out how long a token is while it reads on, so what it takes depends on what
follows. Here tokens are given by rules for their own bytes, and the scanner is shown to read by
them: it takes a lexeme of the rules from every text, and it takes a given lexeme whenever the byte
behind it could not have become a part of it. For the latter only the first byte of the lexeme
matters (`joins`).
-/

namespace Shader

open Text

/-! ## Lexemes -/

/-- The exponent part of a float. A sign is enough for one, even without digits. -/
inductive Exponent : Bytes → Prop where
  | none : Exponent []
  | plain {e : UInt8} {digits : Bytes} : e = byte 'e' ∨ e = byte 'E' → digits ≠ [] →
      (∀ b ∈ digits, isDigit b = true) → Exponent (e :: digits)
  | signed {e s : UInt8} {digits : Bytes} : e = byte 'e' ∨ e = byte 'E' →
      s = byte '+' ∨ s = byte '-' → (∀ b ∈ digits, isDigit b = true) → Exponent (e :: s :: digits)

/-- A byte that begins no token of the language and is between none, and does not end the text. -/
def isStray (b : UInt8) : Bool :=
  (singles.lookup b).isNone && (pairings.find? fun p => p.first == b).isNone && !isLetter b &&
    !isDigit b && !isSpace b && b != 0

/-- `Lexeme k w`: the bytes `w` are a token of the kind `k`. -/
inductive Lexeme : Kind → Bytes → Prop where
  | single {b : UInt8} {k : Kind} : (b, k) ∈ singles → Lexeme k [b]
  | pair {p : Pairing} : p ∈ pairings → Lexeme p.both [p.first, p.second]
  | alone {p : Pairing} : p ∈ pairings → Lexeme p.alone [p.first]
  | word {b : UInt8} {rest : Bytes} : isLetter b = true → (∀ c ∈ rest, isWordByte c = true) →
      Lexeme (.ofWord (b :: rest)) (b :: rest)
  | int {digits : Bytes} : digits ≠ [] → (∀ b ∈ digits, isDigit b = true) → Lexeme .int digits
  | float {whole fraction exponent : Bytes} : whole ≠ [] ∨ fraction ≠ [] →
      (∀ b ∈ whole, isDigit b = true) → (∀ b ∈ fraction, isDigit b = true) → Exponent exponent →
      Lexeme .float (whole ++ byte '.' :: (fraction ++ exponent))
  | stray {b : UInt8} : isStray b = true → Lexeme .illegal [b]

/-- Whether a token that begins with `a` could go on with `b`, or opens a comment with it. Words and
numbers are not told apart here. -/
def joins (a b : UInt8) : Bool :=
  ((isWordByte a || a == byte '.') && (isWordByte b || b == byte '.')) ||
    (pairings.any fun p => p.first == a && p.second == b) ||
    (a == byte '/' && (b == byte '/' || b == byte '*'))

/-- The text `after` does not go on what `w` begins. -/
def Apart (w after : Bytes) : Prop := ∀ a ∈ w.head?, ∀ b ∈ after.head?, joins a b = false

/-! ## Runs of bytes -/

theorem byte_forall {P : UInt8 → Prop} (h : ∀ n < 256, P (UInt8.ofNat n)) (b : UInt8) : P b := by
  have hb := h b.toNat b.toNat_lt
  rwa [UInt8.ofNat_toNat] at hb

section Runs

variable {p : UInt8 → Bool} {w after : Bytes}

theorem runLength_append (hw : ∀ b ∈ w, p b = true) (hafter : ∀ b ∈ after.head?, p b = false) :
    runLength p (w ++ after) = w.length := by
  rw [runLength, List.takeWhile_append_of_pos hw]
  cases after with
  | nil => simp
  | cons b after =>
    have hb : p b = false := hafter b (by simp)
    rw [List.takeWhile_cons_of_neg (by simp [hb]), List.append_nil]

end Runs

/-! ## Numbers -/

theorem isDigit_of_sign {s : UInt8} (h : s = byte '+' ∨ s = byte '-') : isDigit s = false := by
  rcases h with rfl | rfl <;> decide

theorem isWordByte_of_isDigit {b : UInt8} (h : isDigit b = true) : isWordByte b = true := by
  simp [isWordByte, h]

theorem isDigit_of_not_isWordByte {b : UInt8} (h : isWordByte b = false) : isDigit b = false := by
  simp only [isWordByte, Bool.or_eq_false_iff] at h
  exact h.2

theorem exponent_take (t : Bytes) : Exponent (t.take (exponentLength t)) := by
  unfold exponentLength
  split
  · rename_i e c rest
    split
    · rename_i he
      split
      · rename_i hc
        rw [Nat.add_comm, List.take_succ_cons, take_runLength]
        refine .plain he ?_ (List.all_eq_true.mp List.all_takeWhile)
        rw [List.takeWhile_cons_of_pos hc]
        simp
      · split
        · rename_i hs
          rw [Nat.add_comm, List.take_succ_cons, List.take_succ_cons, take_runLength]
          exact .signed he hs (List.all_eq_true.mp List.all_takeWhile)
        · exact .none
    · exact .none
  · exact .none

/-- An exponent is taken whole, and no further. -/
theorem exponentLength_append {x after : Bytes} (h : Exponent x)
    (hafter : ∀ b ∈ after.head?, isWordByte b = false) :
    exponentLength (x ++ after) = x.length := by
  have hdigit : ∀ b ∈ after.head?, isDigit b = false := fun b hb =>
    isDigit_of_not_isWordByte (hafter b hb)
  cases h with
  | none =>
    rw [List.nil_append]
    unfold exponentLength
    split
    · rename_i e c rest
      have he : isWordByte e = false := hafter e (by simp)
      rw [if_neg]
      · rfl
      · rintro (rfl | rfl) <;> exact absurd he (by decide)
    · rfl
  | @plain e digits he hne hdigits =>
    obtain ⟨c, rest, rfl⟩ := List.exists_cons_of_ne_nil hne
    have hrun := runLength_append hdigits hdigit
    rw [List.cons_append] at hrun
    simp only [List.cons_append, exponentLength]
    rw [if_pos he, if_pos (hdigits c (by simp)), hrun, Nat.add_comm]
    rfl
  | @signed e s digits he hs hdigits =>
    simp only [List.cons_append, exponentLength]
    rw [if_pos he, if_neg (by rw [isDigit_of_sign hs]; simp), if_pos hs,
      runLength_append hdigits hdigit, List.length_cons, List.length_cons]
    omega

theorem Exponent.not_digit {x after : Bytes} (h : Exponent x)
    (hafter : ∀ b ∈ after.head?, isWordByte b = false) :
    ∀ b ∈ (x ++ after).head?, isDigit b = false := by
  intro b hb
  cases h with
  | none => exact isDigit_of_not_isWordByte (hafter b hb)
  | plain he _ _ | signed he _ _ =>
    cases hb
    rcases he with rfl | rfl <;> decide

/-- The bytes at the front that are in a class, and those behind them. -/
theorem exists_front (p : UInt8 → Bool) (t : Bytes) : ∃ w after, t = w ++ after ∧
    (∀ b ∈ w, p b = true) ∧ ∀ b ∈ after.head?, p b = false := by
  refine ⟨t.takeWhile p, t.dropWhile p, List.takeWhile_append_dropWhile.symm,
    List.all_eq_true.mp List.all_takeWhile, fun b hb => ?_⟩
  have h := List.head?_dropWhile_not p t
  rw [Option.mem_def.mp hb] at h
  simpa using h

section Number

variable {whole fraction tail : Bytes}

theorem number_digits (hwhole : ∀ b ∈ whole, isDigit b = true)
    (htail : ∀ b ∈ tail.head?, isDigit b = false ∧ b ≠ byte '.') :
    number (whole ++ tail) = (.int, whole.length) := by
  simp only [number, runLength_append hwhole fun b hb => (htail b hb).1, List.drop_left]
  cases tail with
  | nil => rfl
  | cons c tail => exact if_neg (htail c (by simp)).2

theorem number_point (hwhole : ∀ b ∈ whole, isDigit b = true)
    (hfraction : ∀ b ∈ fraction, isDigit b = true)
    (htail : ∀ b ∈ tail.head?, isDigit b = false) :
    number (whole ++ byte '.' :: (fraction ++ tail)) =
      (.float, whole.length + 1 + fraction.length + exponentLength tail) := by
  have hpoint : ∀ b ∈ (byte '.' :: (fraction ++ tail)).head?, isDigit b = false := by
    intro b hb
    cases hb
    decide
  simp only [number, runLength_append hwhole hpoint, List.drop_left,
    runLength_append hfraction htail, if_true]

theorem lexeme_number {b : UInt8} {rest : Bytes}
    (h : isDigit b = true ∨ (b = byte '.' ∧ rest.head?.any isDigit = true)) :
    Lexeme (number (b :: rest)).1 ((b :: rest).take (number (b :: rest)).2) := by
  obtain ⟨whole, behind, hsplit, hwhole, hbehind⟩ := exists_front isDigit (b :: rest)
  -- without a digit in front the first byte is the point
  have hfront : whole = [] → behind = byte '.' :: rest ∧ rest.head?.any isDigit = true := by
    rintro rfl
    rw [List.nil_append] at hsplit
    subst hsplit
    have hb : isDigit b = false := hbehind b (by simp)
    obtain ⟨rfl, hrest⟩ := h.resolve_left (by simp [hb])
    exact ⟨rfl, hrest⟩
  rw [hsplit]
  by_cases hpoint : behind.head? = some (byte '.')
  · obtain ⟨behind, rfl⟩ := List.head?_eq_some_iff.mp hpoint
    obtain ⟨fraction, tail, rfl, hfraction, htail⟩ := exists_front isDigit behind
    rw [number_point hwhole hfraction htail]
    have htake : (whole ++ byte '.' :: (fraction ++ tail)).take
        (whole.length + 1 + fraction.length + exponentLength tail) =
          whole ++ byte '.' :: (fraction ++ tail.take (exponentLength tail)) := by
      rw [Nat.add_assoc, Nat.add_assoc, List.take_length_add_append, Nat.add_comm 1,
        Nat.add_comm _ 1, Nat.add_comm 1, List.take_succ_cons, List.take_length_add_append]
    dsimp only
    rw [htake]
    refine .float ?_ hwhole hfraction (exponent_take tail)
    by_cases hnil : whole = []
    · obtain ⟨heq, hfirst⟩ := hfront hnil
      cases heq
      refine .inr fun hempty => ?_
      subst hempty
      rw [List.nil_append] at hfirst
      cases hc : tail.head? with
      | none =>
        rw [hc] at hfirst
        cases hfirst
      | some c =>
        rw [hc] at hfirst
        exact absurd hfirst (by simp [htail c hc])
    · exact .inl hnil
  · rw [number_digits hwhole fun b hb => ⟨hbehind b hb, fun heq => hpoint (heq ▸ hb)⟩]
    dsimp only
    rw [List.take_left]
    exact .int (fun hnil => hpoint (by rw [(hfront hnil).1]; rfl)) hwhole

end Number

/-! ## The scanner reads by the rules -/

/-- **What is taken from a text is a lexeme.** -/
theorem lexeme_of_lexeme? {t : Bytes} {k : Kind} {n : Nat} (h : lexeme? t = some (k, n))
    (hgap : gapLength t = 0) (hzero : 0 ∉ t) : Lexeme k (t.take n) := by
  cases t with
  | nil => cases h
  | cons b rest =>
    simp only [lexeme?] at h
    split at h
    -- an operator of one byte
    · rename_i kind hb
      cases h
      obtain ⟨l₁, l₂, heq, -⟩ := List.lookup_eq_some_iff.mp hb
      exact .single (by simp [heq])
    · rename_i hsingle
      split at h
      · rename_i p hp
        -- an operator of one byte or two, as the next byte says
        have hmem := List.mem_of_find?_eq_some hp
        have hfirst : p.first = b := by simpa using List.find?_some hp
        subst hfirst
        split at h
        · rename_i hsecond
          cases h
          obtain ⟨rest, rfl⟩ := List.head?_eq_some_iff.mp hsecond
          exact .pair hmem
        · cases h
          exact .alone hmem
      · rename_i hpair
        split at h
        · rename_i hletter
          cases h
          rw [Nat.add_comm, List.take_succ_cons, take_runLength]
          exact .word hletter (List.all_eq_true.mp List.all_takeWhile)
        · rename_i hletter
          split at h
          · rename_i hnumber
            have heq := Option.some.inj h
            have hlex := lexeme_number hnumber
            rwa [heq] at hlex
          · rename_i hnumber
            cases h
            -- a byte that begins nothing: it is neither the end of the text nor a blank
            have hne : b ≠ 0 := fun heq => hzero (by simp [heq])
            have hdigit : ¬isDigit b = true := fun hb => hnumber (.inl hb)
            have hspace : ¬isSpace b = true := fun hb => by
              rw [gapLength, Gap.length, Gap.step, if_pos hb] at hgap
              cases hgap
            exact .stray (by simp [isStray, hsingle, hpair, hletter, hdigit, hspace, hne])

section Joins

variable {a b : UInt8}

/-- Behind a word or a number there is no byte of one. -/
theorem not_word_of_joins (ha : isWordByte a = true ∨ a = byte '.') (h : joins a b = false) :
    isWordByte b = false ∧ b ≠ byte '.' := by
  have ha : (isWordByte a || a == byte '.') = true := by simpa using ha
  simp only [joins, ha, Bool.true_and, Bool.or_eq_false_iff, beq_eq_false_iff_ne] at h
  exact h.1.1

theorem ne_second_of_joins {p : Pairing} (hp : p ∈ pairings) (h : joins p.first b = false) :
    b ≠ p.second := by
  rintro rfl
  have hany : (pairings.any fun q => q.first == p.first && q.second == p.second) = true :=
    List.any_eq_true.mpr ⟨p, hp, by simp⟩
  simp [joins, hany] at h

theorem not_comment_of_joins (h : joins (byte '/') b = false) : b ≠ byte '/' ∧ b ≠ byte '*' := by
  simp only [joins, Bool.or_eq_false_iff, Bool.and_eq_false_iff, beq_self_eq_true,
    Bool.true_eq_false, false_or, beq_eq_false_iff_ne] at h
  exact h.2

theorem no_pairing (h : ∀ p ∈ pairings, p.first = a → p.second ≠ b) :
    (pairings.any fun p => p.first == a && p.second == b) = false := by
  rw [List.any_eq_false]
  intro p hp hmatch
  rw [Bool.and_eq_true, beq_iff_eq, beq_iff_eq] at hmatch
  exact h p hp hmatch.1 hmatch.2

theorem lookup_single {k : Kind} (h : (b, k) ∈ singles) : singles.lookup b = some k := by
  have hall : ∀ e ∈ singles, singles.lookup e.1 = some e.2 := by decide
  exact hall _ h

theorem find?_pairing {p : Pairing} (h : p ∈ pairings) :
    singles.lookup p.first = none ∧ (pairings.find? fun q => q.first == p.first) = some p := by
  simp only [pairings, List.mem_cons, List.not_mem_nil, or_false] at h
  rcases h with rfl | rfl | rfl | rfl | rfl | rfl <;> exact ⟨rfl, rfl⟩

/-- The bytes of words and numbers begin no operator. -/
theorem no_operator (h : isWordByte b = true ∨ b = byte '.') :
    singles.lookup b = none ∧ (pairings.find? fun p => p.first == b) = none := by
  have hsingles : ∀ e ∈ singles, isWordByte e.1 = false ∧ e.1 ≠ byte '.' := by decide
  have hpairings : ∀ p ∈ pairings, isWordByte p.first = false ∧ p.first ≠ byte '.' := by decide
  have hne : ∀ c, isWordByte c = false ∧ c ≠ byte '.' → b ≠ c := by
    rintro c ⟨hc, hc'⟩ rfl
    rcases h with h | h
    · rw [hc] at h
      cases h
    · exact hc' h
  constructor
  · rw [List.lookup_eq_none_iff]
    exact fun e he => bne_iff_ne.mpr (hne _ (hsingles e he))
  · rw [List.find?_eq_none]
    intro p hp heq
    exact hne _ (hpairings p hp) (by simpa using heq : p.first = b).symm

end Joins

/-- What is read at the byte of a number or of a point before a digit. -/
theorem lexeme?_of_number {b : UInt8} {rest : Bytes}
    (h : isDigit b = true ∨ (b = byte '.' ∧ rest.head?.any isDigit = true)) :
    lexeme? (b :: rest) = some (number (b :: rest)) := by
  obtain ⟨hsingle, hpair⟩ := no_operator (h.imp isWordByte_of_isDigit And.left)
  have hletter : isLetter b = false := by
    rcases h with h | ⟨rfl, -⟩
    · exact byte_forall (P := fun b => isDigit b = true → isLetter b = false)
        (by decide +kernel) b h
    · decide
  simp only [lexeme?, hsingle, hpair, hletter, Bool.false_eq_true, if_false]
  rw [if_pos h]

/-- A float begins with a digit, or with its point and a digit. -/
theorem exists_front_float {whole fraction : Bytes} (hne : whole ≠ [] ∨ fraction ≠ [])
    (hwhole : ∀ b ∈ whole, isDigit b = true) (hfraction : ∀ b ∈ fraction, isDigit b = true)
    (tail : Bytes) : ∃ b rest, whole ++ byte '.' :: (fraction ++ tail) = b :: rest ∧
      (isDigit b = true ∨ (b = byte '.' ∧ rest.head?.any isDigit = true)) := by
  cases whole with
  | cons b whole => exact ⟨b, _, rfl, .inl (hwhole b (by simp))⟩
  | nil =>
    obtain ⟨c, fraction, rfl⟩ := List.exists_cons_of_ne_nil (hne.resolve_left (by simp))
    exact ⟨byte '.', _, rfl, .inr ⟨rfl, hfraction c (by simp)⟩⟩

/-- **A lexeme is taken from every text that does not go on it.** -/
theorem lexeme?_of_lexeme {k : Kind} {w after : Bytes} (h : Lexeme k w) (hafter : Apart w after) :
    lexeme? (w ++ after) = some (k, w.length) := by
  cases h with
  | @single b _ hb => simp [lexeme?, lookup_single hb]
  | @pair p hp =>
    obtain ⟨hsingle, hpair⟩ := find?_pairing hp
    simp [lexeme?, hsingle, hpair]
  | @alone p hp =>
    obtain ⟨hsingle, hpair⟩ := find?_pairing hp
    -- what follows is not the second byte of a pair, or it would have been read with the first
    have hsecond : after.head? ≠ some p.second := fun hb =>
      ne_second_of_joins hp (hafter p.first (by simp) _ hb) rfl
    simp [lexeme?, hsingle, hpair, hsecond]
  | @word b rest hb hrest =>
    have hbyte : isWordByte b = true := by simp [isWordByte, hb]
    obtain ⟨hsingle, hpair⟩ := no_operator (.inl hbyte)
    have hrun : runLength isWordByte (rest ++ after) = rest.length :=
      runLength_append hrest fun c hc =>
        (not_word_of_joins (.inl hbyte) (hafter b (by simp) c hc)).1
    simp [lexeme?, hsingle, hpair, hb, hrun, Nat.add_comm 1]
  | @int _ hne hdigits =>
    obtain ⟨b, rest, rfl⟩ := List.exists_cons_of_ne_nil hne
    have hb := hdigits b (by simp)
    -- a point behind the digits would make a float of them
    have hend : ∀ c ∈ after.head?, isDigit c = false ∧ c ≠ byte '.' := by
      intro c hc
      have hword := not_word_of_joins (.inl (isWordByte_of_isDigit hb)) (hafter b (by simp) c hc)
      exact ⟨isDigit_of_not_isWordByte hword.1, hword.2⟩
    have hnumber := number_digits hdigits hend
    rw [List.cons_append] at hnumber ⊢
    rw [lexeme?_of_number (.inl hb), hnumber]
  | @float whole fraction exponent hne hwhole hfraction hexponent =>
    obtain ⟨b, rest, heq, hb⟩ := exists_front_float hne hwhole hfraction (exponent ++ after)
    have hword : ∀ c ∈ after.head?, isWordByte c = false := by
      intro c hc
      have hfirst : b ∈ (whole ++ byte '.' :: (fraction ++ exponent)).head? := by
        cases whole <;> exact (congrArg List.head? heq)
      exact (not_word_of_joins (hb.imp isWordByte_of_isDigit And.left) (hafter b hfirst c hc)).1
    have hnumber := number_point hwhole hfraction (hexponent.not_digit hword)
    rw [exponentLength_append hexponent hword] at hnumber
    rw [List.append_assoc, List.cons_append, List.append_assoc, heq, lexeme?_of_number hb, ← heq,
      hnumber]
    simp only [List.length_append, List.length_cons]
    congr 2
    omega
  | @stray b hb =>
    simp only [isStray, Bool.and_eq_true, Option.isNone_iff_eq_none, Bool.not_eq_eq_eq_not,
      Bool.not_true] at hb
    obtain ⟨⟨⟨⟨⟨hsingle, hpair⟩, hletter⟩, hdigit⟩, -⟩, -⟩ := hb
    -- the only stray byte that can begin a number is the point
    have hpoint : ¬(b = byte '.' ∧ after.head?.any isDigit = true) := by
      rintro ⟨rfl, hnext⟩
      cases hc : after.head? with
      | none =>
        rw [hc] at hnext
        cases hnext
      | some c =>
        rw [hc] at hnext
        have hword := not_word_of_joins (.inr rfl) (hafter _ (by simp) c hc)
        exact absurd hnext (by simp [isDigit_of_not_isWordByte hword.1])
    simp [lexeme?, hsingle, hpair, hletter, hdigit, hpoint]

/-! ## What lexemes do not hold -/

/-- The bytes of words and numbers are no spaces, no zeros and no slashes. -/
theorem word_byte {b : UInt8} (h : isWordByte b = true ∨ b = byte '.') :
    b ≠ 0 ∧ isSpace b = false ∧ b ≠ byte '/' := by
  rcases h with h | rfl
  · exact byte_forall (P := fun b => isWordByte b = true → b ≠ 0 ∧ isSpace b = false ∧ b ≠ byte '/')
      (by decide +kernel) b h
  · decide

theorem Exponent.no_zero {x : Bytes} (h : Exponent x) : 0 ∉ x := by
  have hdigit : ∀ {digits : Bytes}, (∀ b ∈ digits, isDigit b = true) → 0 ∉ digits :=
    fun hd hmem => absurd (hd 0 hmem) (by decide)
  intro hmem
  cases h with
  | none => cases hmem
  | plain he _ hd =>
    rcases List.mem_cons.mp hmem with heq | hmem
    · rcases he with rfl | rfl <;> exact absurd heq (by decide)
    · exact hdigit hd hmem
  | signed he hs hd =>
    rcases List.mem_cons.mp hmem with heq | hmem
    · rcases he with rfl | rfl <;> exact absurd heq (by decide)
    · rcases List.mem_cons.mp hmem with heq | hmem
      · rcases hs with rfl | rfl <;> exact absurd heq (by decide)
      · exact hdigit hd hmem

theorem Lexeme.no_zero {k : Kind} {w : Bytes} (h : Lexeme k w) : 0 ∉ w := by
  have hword : ∀ {w : Bytes}, (∀ b ∈ w, isWordByte b = true) → 0 ∉ w :=
    fun hw hmem => (word_byte (.inl (hw 0 hmem))).1 rfl
  have hdigit : ∀ {w : Bytes}, (∀ b ∈ w, isDigit b = true) → 0 ∉ w :=
    fun hw => hword fun b hb => isWordByte_of_isDigit (hw b hb)
  cases h with
  | single hb =>
    have hall : ∀ e ∈ singles, e.1 ≠ 0 := by decide
    exact fun hmem => hall _ hb (List.mem_singleton.mp hmem).symm
  | pair hp =>
    have hall : ∀ p ∈ pairings, 0 ∉ [p.first, p.second] := by decide
    exact hall _ hp
  | alone hp =>
    have hall : ∀ p ∈ pairings, 0 ∉ [p.first] := by decide
    exact hall _ hp
  | @word b rest hb hrest =>
    refine hword fun c hc => ?_
    rcases List.mem_cons.mp hc with rfl | hc
    · simp [isWordByte, hb]
    · exact hrest c hc
  | int _ hd => exact hdigit hd
  | float _ hwhole hfraction hexponent =>
    have hpoint : (0 : UInt8) ≠ byte '.' := by decide
    simp [hdigit hwhole, hdigit hfraction, hexponent.no_zero, hpoint]
  | stray hb =>
    simp only [isStray, Bool.and_eq_true, bne_iff_ne, ne_eq] at hb
    exact fun hmem => hb.2 (List.mem_singleton.mp hmem).symm

/-- A lexeme does not begin with a space, and one that begins with a slash is the slash. -/
theorem Lexeme.front {k : Kind} {w : Bytes} (h : Lexeme k w) :
    ∃ b rest, w = b :: rest ∧ isSpace b = false ∧ (b = byte '/' → rest = []) := by
  cases h with
  | @single b _ hb =>
    have hall : ∀ e ∈ singles, isSpace e.1 = false := by decide
    exact ⟨b, [], rfl, hall _ hb, fun _ => rfl⟩
  | @pair p hp =>
    have hall : ∀ p ∈ pairings, isSpace p.first = false ∧ p.first ≠ byte '/' := by decide
    exact ⟨_, _, rfl, (hall _ hp).1, fun heq => absurd heq (hall _ hp).2⟩
  | @alone p hp =>
    have hall : ∀ p ∈ pairings, isSpace p.first = false := by decide
    exact ⟨_, _, rfl, hall _ hp, fun _ => rfl⟩
  | @word b rest hb hrest =>
    obtain ⟨-, hspace, hslash⟩ := word_byte (b := b) (.inl (by simp [isWordByte, hb]))
    exact ⟨_, _, rfl, hspace, fun heq => absurd heq hslash⟩
  | @int _ hne hdigits =>
    obtain ⟨b, rest, rfl⟩ := List.exists_cons_of_ne_nil hne
    obtain ⟨-, hspace, hslash⟩ := word_byte (.inl (isWordByte_of_isDigit (hdigits b (by simp))))
    exact ⟨_, _, rfl, hspace, fun heq => absurd heq hslash⟩
  | @float whole fraction exponent hne hwhole hfraction _ =>
    obtain ⟨b, rest, heq, hb⟩ := exists_front_float hne hwhole hfraction exponent
    obtain ⟨-, hspace, hslash⟩ := word_byte (hb.imp isWordByte_of_isDigit And.left)
    exact ⟨b, rest, heq, hspace, fun heq => absurd heq hslash⟩
  | @stray b hb =>
    simp only [isStray, Bool.and_eq_true, Bool.not_eq_eq_eq_not, Bool.not_true] at hb
    exact ⟨_, _, rfl, hb.1.2, fun _ => rfl⟩

theorem Lexeme.ne_nil {k : Kind} {w : Bytes} (h : Lexeme k w) : w ≠ [] := by
  obtain ⟨b, rest, rfl, -⟩ := h.front
  simp

/-- No separator is passed over at a lexeme. -/
theorem gapLength_lexeme {k : Kind} {w after : Bytes} (h : Lexeme k w) (hafter : Apart w after) :
    gapLength (w ++ after) = 0 := by
  obtain ⟨b, rest, rfl, hspace, hslash⟩ := h.front
  have hstep : Gap.plain.step b (rest ++ after) = none := by
    simp only [Gap.step, hspace, Bool.false_eq_true, if_false]
    split
    · rename_i hb
      subst hb
      rw [hslash rfl, List.nil_append]
      have hnext : ∀ c ∈ after.head?, c ≠ byte '/' ∧ c ≠ byte '*' := fun c hc =>
        not_comment_of_joins (hafter (byte '/') (by simp) c hc)
      have hline : after.head? ≠ some (byte '/') := fun hc => (hnext _ hc).1 rfl
      have hblock : after.head? ≠ some (byte '*') := fun hc => (hnext _ hc).2 rfl
      rw [if_neg hline, if_neg hblock]
    · rfl
  rw [List.cons_append, gapLength, Gap.length, hstep]

end Shader
