import Shader.Proofs.TokenPlaces

/-!
# Parse errors are in the order of the text

A parser reports where it stands, and it only goes onward. So the positions of the errors so far and
those of the tokens ahead, one list behind the other, are in the order of the text: passing a token
takes one out of the middle, and reporting an error puts the first of those ahead there once more.
-/

namespace Shader

theorem Pos.le_iff {p q : Pos} :
    p ≤ q ↔ p.line < q.line ∨ p.line = q.line ∧ p.column ≤ q.column := Prod.Lex.toLex_le_toLex

/-- The end token stands behind all others. -/
theorem pos_lt_last_scan {source : Bytes} {tok : Token} (htok : tok ∈ (scan source).1) :
    tok.pos < (scan source).2.pos := by
  obtain ⟨spans, htiling, hlast, -⟩ := tiling_scan (Nat.zero_le (visible source).length)
  obtain ⟨s, hs, hat⟩ := exists_span htiling.each htok
  obtain ⟨-, hpos, hstop⟩ := htiling.inside s hs
  have hend : (scan source).2.pos.IsAt (visible source) (visible source).length := by
    rw [show (scan source).2 = _ from hlast]
    exact Pos.isAt_advance (Nat.le_refl _)
  exact hat.position.lt hend (by omega) (Nat.le_refl _)

namespace Parser

/-- The positions of the tokens ahead, the end token's behind them. -/
def State.ahead (s : State) : List Pos := (s.rest ++ [s.last]).map Token.pos

theorem State.ahead_eq (s : State) : ∃ ps, s.ahead = s.current.pos :: ps ∧
    (s.advance.ahead = ps ∨ s.advance.ahead = s.ahead) := by
  unfold ahead current advance
  cases s.rest with
  | nil => exact ⟨[], rfl, .inr rfl⟩
  | cons t ts => exact ⟨(ts ++ [s.last]).map Token.pos, rfl, .inl rfl⟩

/-- The positions of the errors so far, and of the tokens ahead. -/
def State.trail (s : State) : List Pos := s.errors.map ParseError.pos ++ s.ahead

/-- Passing a token and reporting an error leave the positions in order, and add none to them. -/
theorem Moves.trail {s s' : State} (h : Moves s s') (hs : s.trail.Pairwise (· ≤ ·)) :
    s'.trail.Pairwise (· ≤ ·) ∧ s'.trail ⊆ s.trail := by
  induction h with
  | refl => exact ⟨hs, List.Subset.refl _⟩
  | @advance s' _ ih =>
    obtain ⟨ps, hps, hadvance⟩ := s'.ahead_eq
    have hsub : s'.advance.trail.Sublist s'.trail := by
      refine (List.Sublist.refl _).append ?_
      rcases hadvance with heq | heq
      · rw [heq, hps]
        exact List.sublist_cons_self _ _
      · rw [heq]
    exact ⟨ih.1.sublist hsub, List.Subset.trans hsub.subset ih.2⟩
  | @report s' c _ ih =>
    obtain ⟨ps, hps, -⟩ := s'.ahead_eq
    have hold : s'.trail = s'.errors.map ParseError.pos ++ s'.current.pos :: ps := by
      rw [State.trail, hps]
    -- the token to read stays ahead, and its position is now among the errors too
    have hnew : (s'.report c).trail =
        s'.errors.map ParseError.pos ++ s'.current.pos :: s'.current.pos :: ps := by
      rw [State.trail, State.report_errors, List.map_append, List.append_assoc]
      exact congrArg (_ ++ ·) (congrArg (_ :: ·) hps)
    rw [hold] at ih
    rw [hnew]
    refine ⟨?_, ?_⟩
    · have hpair := ih.1
      simp only [List.pairwise_append, List.pairwise_cons, List.mem_cons] at hpair ⊢
      grind
    · refine List.Subset.trans (fun p hp => ?_) ih.2
      simp only [List.mem_append, List.mem_cons] at hp ⊢
      tauto

theorem trail_start (source : Bytes) : (start source).trail.Pairwise (· ≤ ·) := by
  show (((scan source).1 ++ [(scan source).2]).map Token.pos).Pairwise (· ≤ ·)
  rw [List.map_append, List.map_singleton, List.pairwise_append]
  refine ⟨(pairwise_pos_scan source).imp le_of_lt, List.pairwise_singleton _ _, ?_⟩
  intro p hp q hq
  obtain ⟨tok, htok, rfl⟩ := List.mem_map.mp hp
  rw [List.mem_singleton.mp hq]
  exact (pos_lt_last_scan htok).le

theorem onward_program : Onward (StateT.run program) := by
  intro s
  rw [run_program]
  split
  · have hscope := onward_scope s.budget s
    dsimp only
    split
    · exact hscope.report _
    · exact hscope
  · exact moves_report s _

end Parser

/-- **Parse errors come in the order of the text**, by lines and in a line by columns. Each is at a
token of the text or at its end. -/
theorem pairwise_errors_parse (source : Bytes) :
    (parse source).errors.Pairwise (fun e e' => e.pos.line < e'.pos.line ∨
      e.pos.line = e'.pos.line ∧ e.pos.column ≤ e'.pos.column) ∧
    ∀ e ∈ (parse source).errors, ∃ tok ∈ (scan source).1 ++ [(scan source).2], e.pos = tok.pos := by
  obtain ⟨hordered, hsub⟩ :=
    (Parser.onward_program (Parser.start source)).trail (Parser.trail_start source)
  rw [Parser.State.trail, List.pairwise_append] at hordered
  refine ⟨?_, fun e he => ?_⟩
  · rw [Parser.parse_eq]
    exact (List.pairwise_map.mp hordered.1).imp Pos.le_iff.mp
  · have hpos : e.pos ∈ (Parser.start source).trail :=
      hsub (List.mem_append_left _ (List.mem_map_of_mem he))
    obtain ⟨tok, htok, heq⟩ := List.mem_map.mp hpos
    exact ⟨tok, htok, heq.symm⟩

end Shader
