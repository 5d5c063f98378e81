import Shader.Ast.Parser

/-!
# Running a parser

`Parser.exec` runs a parser from a state and gives back what it read, if it read anything, and the
state behind it. This file says what each primitive does under `exec`, so that nothing later opens
the monad.

Three promises follow. `Onward` holds of every parser, whatever its budget and the text: it only
passes tokens and reports errors at the token to read. `Outcome` is what a parser without recovery
promises: it reads some tokens and changes nothing else, or it gives up having added to the errors.
`Clean` is what remains of that for a parser with recovery: if it adds no error, it has read some
tokens and changed nothing else.
-/

namespace Shader.Parser

variable {α β : Type}

/-- Runs a parser from a state. -/
def exec (p : Parser α) (s : State) : Option α × State := StateT.run (OptionT.run p) s

namespace State

/-- The state with other tokens left. -/
def seek (s : State) (rest : List Token) : State := { s with rest }

@[simp] theorem seek_rest (s : State) (ts : List Token) : (s.seek ts).rest = ts := rfl

@[simp] theorem seek_last (s : State) (ts : List Token) : (s.seek ts).last = s.last := rfl

@[simp] theorem seek_budget (s : State) (ts : List Token) : (s.seek ts).budget = s.budget := rfl

@[simp] theorem seek_errors (s : State) (ts : List Token) : (s.seek ts).errors = s.errors := rfl

@[simp] theorem seek_seek (s : State) (ts us : List Token) : (s.seek ts).seek us = s.seek us := rfl

@[simp] theorem seek_self (s : State) : s.seek s.rest = s := rfl

@[simp] theorem current_seek_cons (s : State) (t : Token) (ts : List Token) :
    (s.seek (t :: ts)).current = t := rfl

@[simp] theorem current_seek_nil (s : State) : (s.seek []).current = s.last := rfl

@[simp] theorem advance_seek_cons (s : State) (t : Token) (ts : List Token) :
    (s.seek (t :: ts)).advance = s.seek ts := rfl

@[simp] theorem advance_seek_nil (s : State) : (s.seek []).advance = s.seek [] := rfl

@[simp] theorem peek_seek_cons (s : State) (t : Token) (ts : List Token) :
    (s.seek (t :: ts)).peek = (s.seek ts).current := rfl

@[simp] theorem report_errors (s : State) (c : Refusal) :
    (s.report c).errors = s.errors ++ [⟨s.current.pos, c⟩] := rfl

@[simp] theorem report_rest (s : State) (c : Refusal) : (s.report c).rest = s.rest := rfl

end State

/-! ## What the primitives do -/

@[simp] theorem exec_pure (a : α) (s : State) : exec (pure a) s = (some a, s) := rfl

/-- A run of two parsers: the second reads on from where the first has stopped, unless that has
given up. -/
theorem exec_bind (p : Parser α) (f : α → Parser β) (s : State) :
    exec (p >>= f) s =
      match exec p s with
      | (some a, s') => exec (f a) s'
      | (none, s') => (none, s') := by
  unfold exec
  rw [OptionT.run_bind, Option.elimM, StateT.run_bind]
  rcases StateT.run (OptionT.run p) s with ⟨_ | a, s'⟩ <;> rfl

/-- Behind a parser that has read something, the rest is run on that. -/
theorem exec_bind_some {p : Parser α} {s s' : State} {a : α} (h : exec p s = (some a, s'))
    (f : α → Parser β) : exec (p >>= f) s = exec (f a) s' := by
  rw [exec_bind, h]

/-- Behind a parser that gives up nothing is run. -/
theorem exec_bind_none {p : Parser α} {s s' : State} (h : exec p s = (none, s'))
    (f : α → Parser β) : exec (p >>= f) s = (none, s') := by
  rw [exec_bind, h]

@[simp] theorem exec_current_bind (f : Token → Parser β) (s : State) :
    exec (current >>= f) s = exec (f s.current) s := rfl

@[simp] theorem exec_kind_bind (f : Kind → Parser β) (s : State) :
    exec (kind >>= f) s = exec (f s.current.kind) s := rfl

@[simp] theorem exec_get_bind (f : State → Parser β) (s : State) :
    exec (get >>= f) s = exec (f s) s := rfl

@[simp] theorem exec_advance (s : State) : exec advance s = (some (), s.advance) := rfl

@[simp] theorem exec_advance_bind (f : Unit → Parser β) (s : State) :
    exec (advance >>= f) s = exec (f ()) s.advance := rfl

@[simp] theorem exec_failure (s : State) : exec (failure : Parser α) s = (none, s) := rfl

@[simp] theorem exec_refuse (c : Refusal) (s : State) :
    exec (refuse c : Parser α) s = (none, s.report c) := rfl

/-- A token that is wanted is passed, and any other is reported and left. -/
theorem exec_expect (want : Kind) (s : State) :
    exec (expect want) s =
      if s.current.kind = want then (some (), s.advance)
      else (none, s.report (.expected want s.current.kind)) := by
  unfold expect
  rw [exec_kind_bind]
  split <;> rfl

/-- With the wanted token in front, nothing is reported. -/
theorem exec_expect_cons {want : Kind} {t : Token} (h : t.kind = want) (s : State)
    (ts : List Token) : exec (expect want) (s.seek (t :: ts)) = (some (), s.seek ts) := by
  rw [exec_expect, State.current_seek_cons, if_pos h, State.advance_seek_cons]

@[simp] theorem exec_lift_bind (m : StateM State α) (f : α → Parser β) (s : State) :
    exec (OptionT.lift m >>= f) s = exec (f (m.run s).1) (m.run s).2 := rfl

@[simp] theorem exec_attempt_bind (p : Parser α) (f : Option α → Parser β) (s : State) :
    exec (attempt p >>= f) s = exec (f (exec p s).1) (exec p s).2 := rfl

/-! ## Onward only -/

/-- What any parser may do to a state: pass tokens, and report errors at the token to read. -/
inductive Moves : State → State → Prop where
  | refl (s : State) : Moves s s
  | advance {s s' : State} : Moves s s' → Moves s s'.advance
  | report {s s' : State} (c : Refusal) : Moves s s' → Moves s (s'.report c)

namespace Moves

/-- Moves can be put together. -/
theorem trans {s₁ s₂ s₃ : State} (h : Moves s₁ s₂) (h' : Moves s₂ s₃) : Moves s₁ s₃ := by
  induction h' with
  | refl => exact h
  | advance _ ih => exact ih.advance
  | report c _ ih => exact ih.report c

theorem rest {s s' : State} (h : Moves s s') : s'.rest <:+ s.rest := by
  induction h with
  | refl => exact List.suffix_refl _
  | advance _ ih => exact (List.tail_suffix _).trans ih
  | report _ _ ih => exact ih

/-- The end token never changes. -/
theorem last {s s' : State} (h : Moves s s') : s'.last = s.last := by
  induction h with
  | refl => rfl
  | advance _ ih => exact ih
  | report _ _ ih => exact ih

/-- Neither does the budget, which is only ever passed down. -/
theorem budget {s s' : State} (h : Moves s s') : s'.budget = s.budget := by
  induction h with
  | refl => rfl
  | advance _ ih => exact ih
  | report _ _ ih => exact ih

/-- Errors are added at the end. -/
theorem errors {s s' : State} (h : Moves s s') : s.errors <+: s'.errors := by
  induction h with
  | refl => exact List.prefix_refl _
  | advance _ ih => exact ih
  | report _ _ ih => exact ih.trans (List.prefix_append _ _)

end Moves

theorem moves_advance (s : State) : Moves s s.advance := (Moves.refl s).advance

theorem moves_report (s : State) (c : Refusal) : Moves s (s.report c) := (Moves.refl s).report c

/-- All tokens before a suffix may be passed. -/
theorem moves_seek (s : State) (ts rest : List Token) :
    Moves (s.seek (ts ++ rest)) (s.seek rest) := by
  induction ts with
  | nil => exact .refl _
  | cons t ts ih => exact (moves_advance _).trans ih

/-- Whatever the state, only what `Moves` allows is done to it. -/
def Onward (f : State → α × State) : Prop := ∀ s, Moves s (f s).2

theorem onward_pure (a : α) : Onward (exec (pure a)) := fun s => .refl s

theorem onward_failure : Onward (exec (failure : Parser α)) := fun s => .refl s

theorem onward_advance : Onward (exec advance) := moves_advance

theorem onward_refuse (c : Refusal) : Onward (exec (refuse c : Parser α)) :=
  fun s => moves_report s c

/-- Parsers that only go onward can follow each other. -/
theorem onward_bind {p : Parser α} {f : α → Parser β} (hp : Onward (exec p))
    (hf : ∀ a, Onward (exec (f a))) : Onward (exec (p >>= f)) := by
  intro s
  have h := hp s
  rw [exec_bind]
  generalize exec p s = r at h
  rcases r with ⟨_ | a, s'⟩
  · exact h
  · exact h.trans (hf a s')

theorem onward_current_bind {f : Token → Parser β} (hf : ∀ t, Onward (exec (f t))) :
    Onward (exec (current >>= f)) := fun s => hf s.current s

theorem onward_kind_bind {f : Kind → Parser β} (hf : ∀ k, Onward (exec (f k))) :
    Onward (exec (kind >>= f)) := fun s => hf s.current.kind s

theorem onward_get_bind {f : State → Parser β} (hf : ∀ s, Onward (exec (f s))) :
    Onward (exec (get >>= f)) := fun s => hf s s

/-- The token is passed, or reported and left. -/
theorem onward_expect (want : Kind) : Onward (exec (expect want)) := by
  intro s
  rw [exec_expect]
  split
  · exact moves_advance s
  · exact moves_report s _

/-- An attempt that fails has gone onward too, as nothing is taken back. -/
theorem onward_attempt_bind {p : Parser α} {f : Option α → Parser β} (hp : Onward (exec p))
    (hf : ∀ o, Onward (exec (f o))) : Onward (exec (attempt p >>= f)) := by
  intro s
  rw [exec_attempt_bind]
  exact (hp s).trans (hf _ _)

/-- Recovery skips tokens, one at a time. -/
theorem onward_recover : Onward (StateT.run recover) := by
  intro s
  show Moves s (if _ then _ else _)
  have h : Moves s (s.seek
      (s.rest.dropWhile fun t => t.kind != .semicolon && t.kind != .rbrace)) := by
    have hpass := moves_seek s (s.rest.takeWhile fun t => t.kind != .semicolon && t.kind != .rbrace)
      (s.rest.dropWhile fun t => t.kind != .semicolon && t.kind != .rbrace)
    rwa [List.takeWhile_append_dropWhile, State.seek_self] at hpass
  split
  · exact h.advance
  · exact h

theorem onward_recovering {p : Parser α} (hp : Onward (exec p)) :
    Onward (StateT.run (recovering p)) := by
  intro s
  have h := hp s
  show Moves s (StateT.run (if (exec p s).1.isNone then recover >>= _ else pure _)
    (exec p s).2).2
  split
  · exact h.trans (onward_recover _)
  · exact h

/-! ## Reading or refusing -/

/-- What a parser does from `s`: it reads the tokens `ts` as `a` with `Q ts rest a`, where `rest` is
left, and changes nothing else; or it gives up with more errors than before. -/
inductive Outcome (s : State) (Q : List Token → List Token → α → Prop) :
    Option α × State → Prop where
  | read {ts rest : List Token} {a : α} :
      s.rest = ts ++ rest → Q ts rest a → Outcome s Q (some a, s.seek rest)
  | refused {s' : State} :
      s.errors <+: s'.errors → s.errors ≠ s'.errors → Outcome s Q (none, s')

namespace Outcome

variable {s : State} {Q : List Token → List Token → α → Prop}

theorem mono {R : List Token → List Token → α → Prop} {r : Option α × State}
    (h : Outcome s Q r) (hQR : ∀ ts rest a, s.rest = ts ++ rest → Q ts rest a → R ts rest a) :
    Outcome s R r := by
  cases h with
  | read hts hq => exact .read hts (hQR _ _ _ hts hq)
  | refused hp hn => exact .refused hp hn

theorem pure {a : α} (h : Q [] s.rest a) : Outcome s Q (some a, s) := by
  rw [← State.seek_self s]
  exact .read (List.nil_append _).symm h

/-- To report and give up is one of the outcomes. -/
theorem refuse (c : Refusal) : Outcome s Q (none, s.report c) := by
  refine .refused (by simp) ?_
  intro h
  have := congrArg List.length h
  simp at this

/-- One step after the other: what the second reads stands behind what the first read. -/
theorem bind {R : List Token → List Token → β → Prop} {p : Parser α} {f : α → Parser β}
    (hp : Outcome s Q (exec p s))
    (hf : ∀ ts rest a, s.rest = ts ++ rest → Q ts rest a →
      Outcome (s.seek rest) (fun us rest' b => R (ts ++ us) rest' b) (exec (f a) (s.seek rest))) :
    Outcome s R (exec (p >>= f) s) := by
  generalize hr : exec p s = r at hp
  cases hp with
  | @read ts rest a hts hq =>
    rw [exec_bind_some hr]
    have h := hf ts rest a hts hq
    generalize hr' : exec (f a) (s.seek rest) = r' at h
    cases h with
    | @read us rest' b hus hr =>
      rw [State.seek_rest] at hus
      rw [State.seek_seek]
      exact .read (by rw [hts, hus, List.append_assoc]) hr
    | refused hpre hne => exact .refused hpre hne
  | refused hpre hne =>
    rw [exec_bind_none hr]
    exact .refused hpre hne

/-- Behind a token that was looked at and passed. -/
theorem cons {t : Token} {ts : List Token} {R : List Token → List Token → β → Prop}
    {r : Option β × State} (hs : s.rest = t :: ts)
    (h : Outcome (s.seek ts) (fun us rest b => R (t :: us) rest b) r) : Outcome s R r := by
  cases h with
  | @read us rest b hus hr =>
    rw [State.seek_rest] at hus
    rw [State.seek_seek]
    exact .read (by rw [hs, hus, List.cons_append]) hr
  | refused hpre hne => exact .refused hpre hne

end Outcome

/-! ## Reading or leaving an error -/

/-- What a parser with recovery does from `s`: unless it adds an error, it reads the tokens `ts` as
`a` with `Q ts rest a`, where `rest` is left, and changes nothing else. -/
def Clean (s : State) (Q : List Token → List Token → α → Prop) (r : α × State) : Prop :=
  r.2.errors = s.errors → ∃ ts rest, s.rest = ts ++ rest ∧ r.2 = s.seek rest ∧ Q ts rest r.1

namespace Clean

variable {s : State} {Q : List Token → List Token → α → Prop}

theorem pure {a : α} (h : Q [] s.rest a) : Clean s Q (a, s) :=
  fun _ => ⟨[], s.rest, rfl, rfl, h⟩

theorem of_error {r : α × State} {s' : State} (hs : s.errors <+: s'.errors)
    (hne : s.errors ≠ s'.errors) (hm : Moves s' r.2) : Clean s Q r := by
  intro he
  have hm' := hm.errors
  rw [he] at hm'
  exact absurd (hs.eq_of_length_le hm'.length_le) hne

theorem report {r : α × State} {c : Refusal} (hm : Moves (s.report c) r.2) : Clean s Q r :=
  .of_error (by simp) (by simp) hm

/-- One step after the other, if the second only adds errors. -/
theorem bind {R : List Token → List Token → β → Prop} {r : α × State} {r' : β × State}
    (h : Clean s Q r) (hm : Moves s r.2) (hm' : Moves r.2 r'.2)
    (hf : ∀ ts rest, s.rest = ts ++ rest → r.2 = s.seek rest → Q ts rest r.1 →
      Clean (s.seek rest) (fun us rest' b => R (ts ++ us) rest' b) r') : Clean s R r' := by
  intro he
  have hmid : r.2.errors = s.errors :=
    ((hm.errors.eq_of_length_le (he ▸ hm'.errors).length_le)).symm
  obtain ⟨ts, rest, hts, hs', hq⟩ := h hmid
  obtain ⟨us, rest', hus, hs'', hr⟩ := hf ts rest hts hs' hq he
  rw [State.seek_rest] at hus
  refine ⟨ts ++ us, rest', ?_, ?_, hr⟩
  · rw [hts, hus, List.append_assoc]
  · rw [hs'', State.seek_seek]

/-- Behind a token that was looked at and passed. -/
theorem cons {t : Token} {ts : List Token} {R : List Token → List Token → β → Prop}
    {r : β × State} (hs : s.rest = t :: ts)
    (h : Clean (s.seek ts) (fun us rest b => R (t :: us) rest b) r) : Clean s R r := by
  intro he
  obtain ⟨us, rest, hus, hs', hr⟩ := h he
  rw [State.seek_rest] at hus
  exact ⟨t :: us, rest, by rw [hs, hus, List.cons_append], hs', hr⟩

/-- Behind a parser that may give up, and whose result is kept either way. -/
theorem attempt_bind {Q : List Token → List Token → Option α → Prop}
    {R : List Token → List Token → Option β → Prop} {p : Parser α} {f : Option α → Parser β}
    (hp : Clean s Q (exec p s)) (hm : Onward (exec p)) (hm' : ∀ o, Onward (exec (f o)))
    (hf : ∀ ts rest o, s.rest = ts ++ rest → Q ts rest o →
      Clean (s.seek rest) (fun us rest' b => R (ts ++ us) rest' b) (exec (f o) (s.seek rest))) :
    Clean s R (exec (attempt p >>= f) s) := by
  rw [exec_attempt_bind]
  refine hp.bind (hm s) (hm' _ _) ?_
  intro ts rest hts hs' hq
  rw [hs']
  exact hf ts rest _ hts hq

end Clean

/-- A parser without recovery keeps the weaker promise too. -/
theorem Outcome.clean {s : State} {Q : List Token → List Token → α → Prop}
    {r : Option α × State} (h : Outcome s Q r) :
    Clean s (fun ts rest o => ∃ a, o = some a ∧ Q ts rest a) r := by
  cases h with
  | read hts hq => exact fun _ => ⟨_, _, hts, rfl, _, rfl, hq⟩
  | refused hp hne => exact fun he => absurd he.symm hne

/-- Behind a parser without recovery, one with recovery keeps the weaker promise of both. If the
first gives up there is an error, and nothing more is promised. -/
theorem Outcome.bind_clean {s : State} {Q : List Token → List Token → α → Prop}
    {R : List Token → List Token → Option β → Prop} {p : Parser α} {f : α → Parser β}
    (hp : Outcome s Q (exec p s))
    (hf : ∀ ts rest a, s.rest = ts ++ rest → Q ts rest a →
      Clean (s.seek rest) (fun us rest' b => R (ts ++ us) rest' b) (exec (f a) (s.seek rest))) :
    Clean s R (exec (p >>= f) s) := by
  generalize hr : exec p s = r at hp
  cases hp with
  | @read ts rest a hts hq =>
    rw [exec_bind_some hr]
    intro he
    obtain ⟨us, rest', hus, hs', hr⟩ := hf ts rest a hts hq he
    rw [State.seek_rest] at hus
    exact ⟨ts ++ us, rest', by rw [hts, hus, List.append_assoc], hs', hr⟩
  | refused hpre hne =>
    rw [exec_bind_none hr]
    exact fun he => absurd he.symm hne

/-- A parser that recovers gives what it gave before, and skips tokens only if that was nothing. -/
theorem run_recovering (p : Parser α) (s : State) :
    StateT.run (recovering p) s =
      ((exec p s).1, if (exec p s).1.isNone then (StateT.run recover (exec p s).2).2
        else (exec p s).2) := by
  show StateT.run (if (exec p s).1.isNone then recover >>= _ else pure _) (exec p s).2 = _
  split <;> rfl

/-- Recovery is never needed where no error is added. -/
theorem Outcome.recovering {s : State} {Q : List Token → List Token → α → Prop} {p : Parser α}
    (h : Outcome s Q (exec p s)) :
    Clean s (fun ts rest o => ∃ a, o = some a ∧ Q ts rest a) (StateT.run (recovering p) s) := by
  rw [run_recovering]
  generalize exec p s = r at h
  cases h with
  | read hts hq => exact fun _ => ⟨_, _, hts, rfl, _, rfl, hq⟩
  | @refused s' hp hne => exact .of_error hp hne (onward_recover s')

/-- A state whose end token is one. -/
def Ended (s : State) : Prop := s.last.kind = .eof

@[simp] theorem ended_seek {s : State} {ts : List Token} : Ended (s.seek ts) ↔ Ended s := Iff.rfl

/-- The token to read is a token of the text unless it is the end token. -/
theorem Ended.rest_of_current {s : State} (h : Ended s) {k : Kind} (hk : s.current.kind = k)
    (hne : k ≠ .eof) : ∃ t ts, s.rest = t :: ts ∧ s.current = t ∧ t.kind = k := by
  cases hr : s.rest with
  | nil =>
    have hc : s.current = s.last := by unfold State.current; rw [hr]; rfl
    rw [hc, h] at hk
    exact absurd hk.symm hne
  | cons t ts =>
    have hc : s.current = t := by unfold State.current; rw [hr]; rfl
    exact ⟨t, ts, rfl, hc, by rw [← hc]; exact hk⟩

theorem current_of_rest {s : State} {t : Token} {ts : List Token} (h : s.rest = t :: ts) :
    s.current = t := by
  unfold State.current
  rw [h]
  rfl

/-- Passing a token that is there leaves the others. -/
theorem advance_of_rest {s : State} {t : Token} {ts : List Token} (h : s.rest = t :: ts) :
    s.advance = s.seek ts := by
  unfold State.advance State.seek
  rw [h]
  rfl

/-- A fixed token is read, or its absence reported. -/
theorem expect_outcome {s : State} (h : Ended s) {want : Kind} (hw : want ≠ .eof) :
    Outcome s (fun ts _ _ => ∃ t : Token, t.kind = want ∧ ts = [t]) (exec (expect want) s) := by
  rw [exec_expect]
  split
  · rename_i hk
    obtain ⟨t, ts, hr, _, ht⟩ := h.rest_of_current hk hw
    rw [advance_of_rest hr]
    exact .read hr ⟨t, ht, rfl⟩
  · exact .refuse _

/-! ## Every parser of the language goes onward -/

open Ast

/-- A variable behind its name. -/
def subscript (name : Token) : Parser Var := do
  if (← kind) = .lbracket then
    advance
    let index ← current
    if index.kind = .int then
      match Number.readInteger? index.literal with
      | some i =>
        advance
        expect .rbracket
        return ⟨name.pos, name.literal, some i⟩
      | none => refuse (.badIndex index.literal)
    else refuse (.noIndex index.kind)
  else return ⟨name.pos, name.literal, none⟩

theorem exec_variableRef_eq (s : State) :
    exec variableRef s = exec (subscript s.current) s.advance := rfl

theorem onward_subscript (name : Token) : Onward (exec (subscript name)) := by
  refine onward_kind_bind fun k => ?_
  split
  · refine onward_bind onward_advance fun _ => onward_current_bind fun index => ?_
    split
    · split
      · exact onward_bind onward_advance fun _ => onward_bind (onward_expect _) fun _ =>
          onward_pure _
      · exact onward_refuse _
    · exact onward_refuse _
  · exact onward_pure _

theorem onward_variableRef : Onward (exec variableRef) := fun s => by
  rw [exec_variableRef_eq]
  exact (moves_advance s).trans (onward_subscript _ _)

mutual

/-- **Every expression parser goes onward only**, by induction on the budget. Each of them passes
tokens itself, calls the others with a smaller budget, and reports at most once before it gives
up. -/
theorem onward_binary : ∀ b floor : Nat, Onward (exec (binary b floor))
  | 0, _ => onward_failure
  | b + 1, floor => onward_bind (onward_unary b) fun left => onward_binaryRest b floor left

/-- The loop over the operators of a level. -/
theorem onward_binaryRest : ∀ (b floor : Nat) (left : Expr),
    Onward (exec (binaryRest b floor left))
  | 0, _, _ => onward_failure
  | b + 1, floor, left => by
    rw [binaryRest]
    refine onward_current_bind fun token => ?_
    split
    · split
      · exact onward_bind onward_advance fun _ => onward_bind (onward_binary b _) fun _ =>
          onward_binaryRest b floor _
      · exact onward_pure _
    · exact onward_pure _

theorem onward_unary : ∀ b : Nat, Onward (exec (unary b))
  | 0 => onward_failure
  | b + 1 => by
    rw [unary]
    refine onward_current_bind fun token => ?_
    split
    · exact onward_bind onward_advance fun _ => onward_bind (onward_unary b) fun _ =>
        onward_pure _
    · exact onward_power b

theorem onward_power : ∀ b : Nat, Onward (exec (power b))
  | 0 => onward_failure
  | b + 1 => by
    rw [power]
    refine onward_bind (onward_primary b) fun base => onward_current_bind fun token => ?_
    split
    · exact onward_bind onward_advance fun _ => onward_bind (onward_unary b) fun _ =>
        onward_pure _
    · exact onward_pure _

/-- Operands without operators, by the kind of their first token. -/
theorem onward_primary : ∀ b : Nat, Onward (exec (primary b))
  | 0 => onward_failure
  | b + 1 => by
    rw [primary]
    refine onward_current_bind fun token => ?_
    split
    · split
      · exact onward_bind onward_advance fun _ => onward_pure _
      · exact onward_refuse _
    · split
      · exact onward_bind onward_advance fun _ => onward_pure _
      · exact onward_refuse _
    · exact onward_bind onward_advance fun _ => onward_pure _
    · exact onward_bind onward_advance fun _ => onward_pure _
    · refine onward_get_bind fun s => ?_
      split
      · exact onward_bind onward_advance fun _ => onward_bind (onward_arguments b) fun _ =>
          onward_pure _
      · exact onward_bind onward_variableRef fun _ => onward_pure _
    · exact onward_bind onward_advance fun _ => onward_bind (onward_binary b 0) fun _ =>
        onward_bind (onward_expect _) fun _ => onward_pure _
    · split
      · exact onward_bind onward_advance fun _ => onward_bind (onward_arguments b) fun _ =>
          onward_pure _
      · exact onward_refuse _

theorem onward_arguments : ∀ b : Nat, Onward (exec (arguments b))
  | 0 => onward_failure
  | b + 1 => by
    rw [arguments]
    refine onward_bind (onward_expect _) fun _ => onward_kind_bind fun k => ?_
    split
    · exact onward_bind onward_advance fun _ => onward_pure _
    · exact onward_bind (onward_argumentList b) fun _ => onward_bind (onward_expect _) fun _ =>
        onward_pure _

theorem onward_argumentList : ∀ b : Nat, Onward (exec (argumentList b))
  | 0 => onward_failure
  | b + 1 => by
    rw [argumentList]
    refine onward_bind (onward_binary b 0) fun arg => onward_kind_bind fun k => ?_
    split
    · exact onward_bind onward_advance fun _ => onward_bind (onward_argumentList b) fun _ =>
        onward_pure _
    · exact onward_pure _

end

theorem onward_expression : Onward (exec expression) :=
  onward_get_bind fun s => onward_binary s.budget 0

/-! ## Declarations and statements -/

/-- A declaration from its type on. -/
def declarationFrom (pos : Pos) (isConst : Bool) : Parser Decl := do
  let typeWord ← kind
  match typeWord.type? with
  | none => refuse (.noType typeWord)
  | some type =>
    advance
    let name ← current
    if name.kind = .ident then
      advance
      let init ← if (← kind) = .assign then
          advance
          some <$> expression
        else pure none
      expect .semicolon
      return ⟨pos, isConst, type, name.literal, init⟩
    else refuse (.noName name.kind)

/-- A declaration is one from its type on, behind `const` if that comes first. -/
theorem exec_declaration (s : State) :
    exec declaration s =
      if s.current.kind = .constWord then exec (declarationFrom s.current.pos true) s.advance
      else exec (declarationFrom s.current.pos false) s := by
  unfold declaration
  rw [exec_current_bind]
  dsimp only
  split
  · rename_i hk
    rw [decide_eq_true hk]
    rfl
  · rename_i hk
    rw [decide_eq_false hk]
    rfl

/-- A declaration behind its type. -/
def declarator (pos : Pos) (isConst : Bool) (type : Ty) : Parser Decl := do
  let name ← current
  if name.kind = .ident then
    advance
    let init ← if (← kind) = .assign then
        advance
        some <$> expression
      else pure none
    expect .semicolon
    return ⟨pos, isConst, type, name.literal, init⟩
  else refuse (.noName name.kind)

/-- What is done behind the type of a declaration stands alone, so that a declaration without a type
is refused before anything is passed. -/
theorem exec_declarationFrom_eq (pos : Pos) (isConst : Bool) (s : State) :
    exec (declarationFrom pos isConst) s =
      match s.current.kind.type? with
      | none => (none, s.report (.noType s.current.kind))
      | some type => exec (declarator pos isConst type) s.advance := by
  unfold declarationFrom
  rw [exec_kind_bind]
  split <;> rfl

/-- The name of a declaration, its initializer and its semicolon. -/
theorem onward_declarator (pos : Pos) (isConst : Bool) (type : Ty) :
    Onward (exec (declarator pos isConst type)) := by
  have hend : ∀ (name : Token) (init : Option Expr), Onward (exec (do
      expect .semicolon
      return (⟨pos, isConst, type, name.literal, init⟩ : Decl))) :=
    fun _ _ => onward_bind (onward_expect _) fun _ => onward_pure _
  refine onward_current_bind fun name => ?_
  split
  · refine onward_bind onward_advance fun _ => onward_kind_bind fun k => ?_
    split
    · refine onward_bind onward_advance fun _ => ?_
      rw [map_eq_pure_bind]
      exact onward_bind (onward_bind onward_expression fun _ => onward_pure _) fun init =>
        hend name init
    · exact hend name none
  · exact onward_refuse _

theorem onward_declarationFrom (pos : Pos) (isConst : Bool) :
    Onward (exec (declarationFrom pos isConst)) := by
  intro s
  rw [exec_declarationFrom_eq]
  split
  · exact moves_report s _
  · exact (moves_advance s).trans (onward_declarator _ _ _ _)

theorem onward_declaration : Onward (exec declaration) := by
  intro s
  rw [exec_declaration]
  split
  · exact (moves_advance s).trans (onward_declarationFrom _ _ _)
  · exact onward_declarationFrom _ _ _

/-- A round of the loop over declarations: one of them, read with recovery, and then the next
round. -/
theorem run_declarations (b : Nat) (s : State) :
    StateT.run (declarations (b + 1)) s =
      if startsDecl s.current.kind then
        let first := StateT.run (recovering declaration) s
        let others := StateT.run (declarations b) first.2
        (first.1.toList ++ others.1, others.2)
      else ([], s) := by
  rw [declarations]
  show StateT.run (if startsDecl s.current.kind = true then _ else _) s = _
  split <;> rfl

theorem onward_declarations : ∀ b : Nat, Onward (StateT.run (declarations b))
  | 0 => fun s => .refl s
  | b + 1 => by
    intro s
    rw [run_declarations]
    split
    · exact (onward_recovering onward_declaration s).trans (onward_declarations b _)
    · exact .refl s

theorem onward_assignment : Onward (exec assignment) :=
  onward_bind onward_variableRef fun _ => onward_bind (onward_expect _) fun _ =>
    onward_bind onward_expression fun _ => onward_pure _

theorem onward_condition : Onward (exec condition) :=
  onward_bind (onward_expect _) fun _ => onward_bind onward_expression fun _ =>
    onward_bind (onward_expect _) fun _ => onward_pure _

/-- A round of the loop over statements. It ends at a brace or at the end of the text; a declaration
is reported there and skipped. -/
theorem run_statements (b : Nat) (s : State) :
    StateT.run (statements (b + 1)) s =
      if s.current.kind = .rbrace ∨ s.current.kind = .eof then ([], s)
      else if startsDecl s.current.kind then
        StateT.run (statements b) (StateT.run recover (s.report .lateDeclaration)).2
      else
        let first := exec (statement b) s
        let others := StateT.run (statements b) first.2
        (first.1.toList ++ others.1, others.2) := by
  rw [statements]
  show StateT.run (if s.current.kind = Kind.rbrace ∨ s.current.kind = Kind.eof then _
    else if startsDecl s.current.kind = true then _ else _) s = _
  split
  · rfl
  · split <;> rfl

/-- A block reads its declarations, then its statements, and wants its closing brace. -/
theorem run_scope (b : Nat) (s : State) :
    StateT.run (scope (b + 1)) s =
      let decls := StateT.run (declarations s.budget) s.advance
      let stmts := StateT.run (statements b) decls.2
      (⟨decls.1, stmts.1⟩, (exec (expect .rbrace) stmts.2).2) := by
  rw [scope]
  rfl

/-- A statement behind the word `if`. -/
def branchFrom (b : Nat) : Parser Stmt := do
  let cond ← condition
  let yes ← attempt (statement b)
  let no ← if (← kind) = .elseWord then
      advance
      attempt (statement b)
    else pure none
  return .branch cond (yes.getD (.scope [] [])) no

/-- A statement behind the word `while`. -/
def loopFrom (pos : Pos) (b : Nat) : Parser Stmt := do
  let cond ← condition
  let body ← attempt (statement b)
  return .loop pos cond (body.getD (.scope [] []))

/-- What a statement does, by the kind of its first token. -/
theorem exec_statement_eq (b : Nat) (s : State) :
    exec (statement (b + 1)) s =
      match s.current.kind with
      | .ident =>
        let r := StateT.run (recovering assignment) s
        match r.1 with
        | some stmt => exec (do expect .semicolon; return stmt) r.2
        | none => (none, r.2)
      | .ifWord => exec (branchFrom b) s.advance
      | .whileWord => exec (loopFrom s.current.pos b) s.advance
      | .lbrace =>
        let r := StateT.run (scope b) s
        (some r.1.toStmt, r.2)
      | .semicolon => (none, s.advance)
      | got => (none, (s.report (.noStatement got)).advance) := by
  rw [statement, exec_current_bind]
  generalize s.current.kind = k
  cases k with
  | ident =>
    show exec (OptionT.lift (recovering assignment) >>= _) s = _
    rw [exec_lift_bind]
    rcases StateT.run (recovering assignment) s with ⟨_ | _, _⟩ <;> rfl
  | _ => rfl

/-- A statement behind the word `if`, if smaller statements only go onward. -/
theorem onward_branchFrom {b : Nat} (h : Onward (exec (statement b))) :
    Onward (exec (branchFrom b)) := by
  refine onward_bind onward_condition fun cond => onward_attempt_bind h fun yes =>
    onward_kind_bind fun k => ?_
  dsimp only
  split
  · exact onward_bind onward_advance fun _ => onward_attempt_bind h fun no => onward_pure _
  · exact onward_pure _

theorem onward_loopFrom {b : Nat} (pos : Pos) (h : Onward (exec (statement b))) :
    Onward (exec (loopFrom pos b)) :=
  onward_bind onward_condition fun _ => onward_attempt_bind h fun _ => onward_pure _

mutual

/-- **Every statement parser goes onward only.** -/
theorem onward_statement : ∀ b : Nat, Onward (exec (statement b))
  | 0 => onward_failure
  | b + 1 => by
    intro s
    rw [exec_statement_eq]
    split
    · refine (onward_recovering onward_assignment s).trans ?_
      dsimp only
      split
      · exact onward_bind (onward_expect _) (fun _ => onward_pure _) _
      · exact .refl _
    · exact (moves_advance s).trans (onward_branchFrom (onward_statement b) _)
    · exact (moves_advance s).trans (onward_loopFrom _ (onward_statement b) _)
    · exact onward_scope b s
    · exact moves_advance s
    · exact (moves_report s _).advance

theorem onward_statements : ∀ b : Nat, Onward (StateT.run (statements b))
  | 0 => fun s => .refl s
  | b + 1 => by
    intro s
    rw [run_statements]
    split
    · exact .refl s
    · split
      · exact (moves_report s _).trans ((onward_recover _).trans (onward_statements b _))
      · exact (onward_statement b s).trans (onward_statements b _)

theorem onward_scope : ∀ b : Nat, Onward (StateT.run (scope b))
  | 0 => fun s => .refl s
  | b + 1 => by
    intro s
    rw [run_scope]
    exact (moves_advance s).trans ((onward_declarations _ _).trans
      ((onward_statements b _).trans (onward_expect _ _)))

end

end Shader.Parser
