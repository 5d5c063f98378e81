import Mathlib.Data.List.Nodup
import Shader.Assembly.Allocator
import Shader.Proofs.RegisterNames

/-!
# Runs of the allocator

Whatever is asked of an allocator and in whatever order, its answers follow from what was asked
before. Scratch registers are counted from zero in each session, so a session gets the registers of
every session before it, and as many are declared as the longest session needs. All other registers
are handed out once, and the program lists them in the order in which they were.

What links the two counts for scratch registers is that the session never stands behind the end of
the list that longer sessions have left.
-/

namespace Shader

namespace Allocator

variable {α : Type}

/-! ## Calls -/

/-- What an allocator can be asked for. -/
inductive Request (α : Type) where
  | temp
  | longLived
  | immediate (v : ParamValue α)
  /-- A new session. -/
  | reset

/-- Answers a request. All but a new session get a register. -/
def answer (a : Allocator α) : Request α → Option Register × Allocator α
  | .temp => (some a.temp.1, a.temp.2)
  | .longLived => (some a.longLived.1, a.longLived.2)
  | .immediate v => (some (a.immediate v).1, (a.immediate v).2)
  | .reset => (none, a.reset)

/-- A request, and the answer it got. -/
structure Call (α : Type) where
  request : Request α
  answer : Option Register

/-- Answers requests in order. -/
def serve (a : Allocator α) : List (Request α) → List (Call α) × Allocator α
  | [] => ([], a)
  | r :: rs =>
    let (answer, a) := a.answer r
    let (calls, a) := a.serve rs
    (⟨r, answer⟩ :: calls, a)

namespace Call

/-- Whether a call asks for a scratch register. -/
def asksTemp : Call α → Bool
  | ⟨.temp, _⟩ => true
  | _ => false

/-- Whether a call starts a session. -/
def isReset : Call α → Bool
  | ⟨.reset, _⟩ => true
  | _ => false

/-- The scratch register that a call got. -/
def scratch? : Call α → Option Register
  | ⟨.temp, answer⟩ => answer
  | _ => none

/-- The register for a condition that a call got. -/
def condition? : Call α → Option Register
  | ⟨.longLived, answer⟩ => answer
  | _ => none

/-- The constant that a call got, with the value it was asked for. -/
def constant? : Call α → Option (Param α)
  | ⟨.immediate v, answer⟩ => answer.map (⟨·, v⟩)
  | _ => none

end Call

/-- The calls of each session. -/
def sessions (cs : List (Call α)) : List (List (Call α)) := cs.splitOnP Call.isReset

/-- The number of scratch registers that calls ask for. -/
def demand (cs : List (Call α)) : Nat := cs.countP Call.asksTemp

/-- The largest number of scratch registers that one session asks for. -/
def longest (cs : List (Call α)) : Nat := ((sessions cs).map demand).foldr max 0

/-! ## Sessions -/

/-- Lists that are joined are split as before, but for the parts that meet. -/
theorem exists_splitOnP_append {β : Type} (p : β → Bool) (xs ys : List β) :
    ∃ init last head tail, xs.splitOnP p = init ++ [last] ∧ ys.splitOnP p = head :: tail ∧
      (xs ++ ys).splitOnP p = init ++ (last ++ head) :: tail := by
  induction xs with
  | nil =>
    obtain ⟨head, tail, h⟩ := List.exists_cons_of_ne_nil (List.splitOnP_ne_nil p ys)
    exact ⟨[], [], head, tail, rfl, h, h⟩
  | cons x xs ih =>
    obtain ⟨init, last, head, tail, hxs, hys, happend⟩ := ih
    rw [List.cons_append, List.splitOnP_cons_eq_if_modifyHead,
      List.splitOnP_cons_eq_if_modifyHead, hxs, happend]
    by_cases hx : p x = true
    · rw [if_pos hx, if_pos hx]
      exact ⟨[] :: init, last, head, tail, rfl, hys, rfl⟩
    · rw [if_neg hx, if_neg hx]
      cases init with
      | nil => exact ⟨[], x :: last, head, tail, rfl, hys, rfl⟩
      | cons i init => exact ⟨(x :: i) :: init, last, head, tail, rfl, hys, rfl⟩

theorem foldr_max_concat (ns : List Nat) (n : Nat) :
    (ns ++ [n]).foldr max 0 = max (ns.foldr max 0) n := by
  induction ns with
  | nil => simp
  | cons m ns ih => rw [List.cons_append, List.foldr_cons, List.foldr_cons, ih, Nat.max_assoc]

theorem demand_concat (cs : List (Call α)) (c : Call α) :
    demand (cs ++ [c]) = demand cs + if c.asksTemp then 1 else 0 := by
  rw [demand, List.countP_append, List.countP_singleton, demand]

theorem exists_sessions (cs : List (Call α)) : ∃ init last, sessions cs = init ++ [last] := by
  obtain ⟨init, last, -, -, h, -⟩ := exists_splitOnP_append Call.isReset cs []
  exact ⟨init, last, h⟩

/-- A call that starts no session belongs to the last one. -/
theorem exists_sessions_concat (cs : List (Call α)) {c : Call α} (hc : c.isReset = false) :
    ∃ init last, sessions cs = init ++ [last] ∧ sessions (cs ++ [c]) = init ++ [last ++ [c]] := by
  obtain ⟨init, last, head, tail, hcs, hone, happend⟩ :=
    exists_splitOnP_append Call.isReset cs [c]
  rw [List.splitOnP_eq_singleton (by simpa using hc)] at hone
  cases hone
  exact ⟨init, last, hcs, happend⟩

/-! ## Scratch registers -/

/-- The scratch registers behind the calls `cs`: each session has got the first ones, the longest
has got all, and the allocator stands where the last session does. -/
structure Reused (cs : List (Call α)) (a : Allocator α) : Prop where
  scratch : ∀ s ∈ sessions cs, s.filterMap Call.scratch? = (List.range (demand s)).map .temp
  temps : a.program.temps = (List.range (longest cs)).map .temp
  position : (sessions cs).getLast?.map demand = some a.position
  numbered : ∀ r ∈ cs.filterMap Call.scratch?, ∃ n, r = .temp n

namespace Reused

variable {cs : List (Call α)} {c : Call α} {a a' : Allocator α}

theorem nil : Reused [] ({} : Allocator α) where
  scratch := by
    intro s hs
    cases List.mem_singleton.mp hs
    rfl
  temps := rfl
  position := rfl
  numbered := by simp

theorem demand_eq (h : Reused cs a) {init : List (List (Call α))} {last : List (Call α)}
    (hs : sessions cs = init ++ [last]) : demand last = a.position := by
  have hposition := h.position
  rwa [hs, List.getLast?_concat, Option.map_some, Option.some.injEq] at hposition

theorem position_le (h : Reused cs a) : a.position ≤ longest cs := by
  obtain ⟨init, last, hs⟩ := exists_sessions cs
  rw [longest, hs, List.map_append, List.map_singleton, foldr_max_concat, h.demand_eq hs]
  exact Nat.le_max_right _ _

/-- One more call of the last session. -/
theorem concat (h : Reused cs a) (hc : c.isReset = false)
    (hnew : c.scratch? = if c.asksTemp then some (.temp a.position) else none)
    (hposition : a'.position = a.position + if c.asksTemp then 1 else 0)
    (htemps : a'.program.temps = (List.range (max (longest cs) a'.position)).map .temp) :
    Reused (cs ++ [c]) a' := by
  obtain ⟨init, last, hs, hconcat⟩ := exists_sessions_concat cs hc
  have hlast := h.demand_eq hs
  have hdemand : demand (last ++ [c]) = a'.position := by rw [demand_concat, hlast, hposition]
  -- the answer belongs to the last session, so the longest one grows only if that overtakes it
  have hlongest : longest (cs ++ [c]) = max (longest cs) a'.position := by
    rw [longest, longest, hs, hconcat, List.map_append, List.map_append, List.map_singleton,
      List.map_singleton, foldr_max_concat, foldr_max_concat, hdemand, hlast]
    omega
  refine ⟨?_, by rw [htemps, hlongest], ?_, ?_⟩
  · intro s hmem
    rw [hconcat, List.mem_append, List.mem_singleton] at hmem
    rcases hmem with hmem | rfl
    · exact h.scratch s (by rw [hs]; exact List.mem_append_left _ hmem)
    · rw [List.filterMap_append, h.scratch last (by rw [hs]; simp), hdemand, hlast, hposition]
      simp only [List.filterMap_cons, hnew, List.filterMap_nil]
      cases c.asksTemp
      · simp
      · simp [List.range_succ]
  · rw [hconcat, List.getLast?_concat, Option.map_some, hdemand]
  · intro r hr
    rw [List.filterMap_append, List.mem_append] at hr
    rcases hr with hr | hr
    · exact h.numbered r hr
    · simp only [List.filterMap_cons, hnew, List.filterMap_nil] at hr
      cases hasks : c.asksTemp
      · simp [hasks] at hr
      · exact ⟨a.position, by simpa [hasks] using hr⟩

theorem aside (h : Reused cs a) (hc : c.isReset = false) (hnew : c.asksTemp = false)
    (hscratch : c.scratch? = none) (hposition : a'.position = a.position)
    (htemps : a'.program.temps = a.program.temps) : Reused (cs ++ [c]) a' := by
  refine h.concat hc ?_ ?_ ?_
  · rw [hscratch, hnew]
    rfl
  · rw [hposition, hnew]
    rfl
  · rw [htemps, h.temps, hposition, Nat.max_eq_left h.position_le]

/-- The next scratch register is the one at the place of the session, and a new one is declared only
if no session before has got that far. -/
theorem temp_eq (h : Reused cs a) :
    a.temp.1 = .temp a.position ∧ a.temp.2.position = a.position + 1 ∧
      a.temp.2.program.temps = (List.range (max (longest cs) (a.position + 1))).map .temp := by
  have hlen : a.program.temps.length = longest cs := by
    rw [h.temps, List.length_map, List.length_range]
  unfold Allocator.temp
  split
  · rename_i r hr
    obtain ⟨hlt, hr⟩ := List.getElem?_eq_some_iff.mp hr
    rw [hlen] at hlt
    refine ⟨by simpa [h.temps] using hr.symm, rfl, ?_⟩
    show a.program.temps = _
    rw [Nat.max_eq_left hlt, h.temps]
  · rename_i hr
    have heq : a.position = longest cs :=
      Nat.le_antisymm h.position_le (hlen ▸ List.getElem?_eq_none_iff.mp hr)
    refine ⟨by rw [hlen, heq], rfl, ?_⟩
    show a.program.temps ++ [Register.temp a.program.temps.length] = _
    rw [heq, Nat.max_eq_right (Nat.le_succ _), List.range_succ, List.map_append, ← h.temps, hlen]
    rfl

theorem reset (h : Reused cs a) : Reused (cs ++ [⟨.reset, none⟩]) a.reset := by
  have hsessions : sessions (cs ++ [⟨.reset, none⟩]) = sessions cs ++ [[]] :=
    List.splitOnP_append_cons cs [] rfl
  refine ⟨?_, ?_, ?_, ?_⟩
  · intro s hs
    rw [hsessions, List.mem_append, List.mem_singleton] at hs
    rcases hs with hs | rfl
    · exact h.scratch s hs
    · rfl
  · rw [longest, hsessions, List.map_append, List.map_singleton, foldr_max_concat]
    exact (Nat.max_zero _).symm ▸ h.temps
  · rw [hsessions, List.getLast?_concat]
    rfl
  · rw [List.filterMap_append]
    simpa [Call.scratch?] using h.numbered

/-- **Scratch registers are used again by position**, one request after the other. -/
theorem step (h : Reused cs a) (r : Request α) :
    Reused (cs ++ [⟨r, (a.answer r).1⟩]) (a.answer r).2 := by
  cases r with
  | temp =>
    obtain ⟨hreg, hposition, htemps⟩ := h.temp_eq
    exact h.concat rfl (congrArg some hreg) hposition (by rw [answer, hposition]; exact htemps)
  | longLived => exact h.aside rfl rfl rfl rfl rfl
  | immediate v => exact h.aside rfl rfl rfl rfl rfl
  | reset => exact h.reset

end Reused

/-! ## Registers that are handed out once -/

/-- The other registers behind the calls `cs`: they are numbered, and listed in the order of the
calls. -/
structure Listed (cs : List (Call α)) (a : Allocator α) : Prop where
  conditions : cs.filterMap Call.condition? = (List.range a.conditions).map .longLived
  longLived : a.program.longLived = cs.filterMap Call.condition?
  constants : (cs.filterMap Call.constant?).map (·.reg) = (List.range a.constants).map .immediate
  immediates : a.program.immediates =
    ({} : Assembly α).immediates ++ cs.filterMap Call.constant?

namespace Listed

variable {cs : List (Call α)} {a a' : Allocator α}

theorem nil : Listed [] ({} : Allocator α) := ⟨rfl, rfl, rfl, rfl⟩

theorem aside (h : Listed cs a) {c : Call α} (hcondition : c.condition? = none)
    (hconstant : c.constant? = none) (hconditions : a'.conditions = a.conditions)
    (hconstants : a'.constants = a.constants)
    (hlongLived : a'.program.longLived = a.program.longLived)
    (himmediates : a'.program.immediates = a.program.immediates) : Listed (cs ++ [c]) a' := by
  have hcs : (cs ++ [c]).filterMap Call.condition? = cs.filterMap Call.condition? := by
    simp [hcondition]
  have hcs' : (cs ++ [c]).filterMap Call.constant? = cs.filterMap Call.constant? := by
    simp [hconstant]
  exact ⟨by rw [hcs, hconditions, h.conditions], by rw [hcs, hlongLived, h.longLived],
    by rw [hcs', hconstants, h.constants], by rw [hcs', himmediates, h.immediates]⟩

/-- **Other registers are new with each request.** -/
theorem step (h : Listed cs a) (r : Request α) :
    Listed (cs ++ [⟨r, (a.answer r).1⟩]) (a.answer r).2 := by
  cases r with
  | temp =>
    have hothers : a.temp.2.conditions = a.conditions ∧ a.temp.2.constants = a.constants ∧
        a.temp.2.program.longLived = a.program.longLived ∧
        a.temp.2.program.immediates = a.program.immediates := by
      unfold Allocator.temp
      split <;> exact ⟨rfl, rfl, rfl, rfl⟩
    obtain ⟨hconditions, hconstants, hlongLived, himmediates⟩ := hothers
    exact h.aside rfl rfl hconditions hconstants hlongLived himmediates
  | longLived =>
    refine ⟨?_, ?_, ?_, ?_⟩
    · rw [List.filterMap_append, h.conditions]
      exact ((congrArg _ List.range_succ).trans List.map_append).symm
    · rw [List.filterMap_append, ← h.longLived]
      rfl
    · rw [List.filterMap_append]
      exact (congrArg _ (List.append_nil _)).trans h.constants
    · rw [List.filterMap_append]
      exact h.immediates.trans (congrArg _ (List.append_nil _).symm)
  | immediate v =>
    refine ⟨?_, ?_, ?_, ?_⟩
    · rw [List.filterMap_append]
      exact (List.append_nil _).trans h.conditions
    · rw [List.filterMap_append]
      exact h.longLived.trans (List.append_nil _).symm
    · rw [List.filterMap_append, List.map_append, h.constants]
      exact ((congrArg _ List.range_succ).trans List.map_append).symm
    · rw [List.filterMap_append, ← List.append_assoc, ← h.immediates]
      rfl
  | reset => exact h.aside rfl rfl rfl rfl rfl rfl

end Listed

/-! ## Runs -/

section Runs

variable {cs : List (Call α)} {a : Allocator α}

theorem requests_serve (a : Allocator α) (rs : List (Request α)) :
    (a.serve rs).1.map (·.request) = rs := by
  induction rs generalizing a with
  | nil => rfl
  | cons r rs ih => exact congrArg (r :: ·) (ih _)

theorem answer_eq_none_iff (a : Allocator α) (r : Request α) :
    (a.answer r).1 = none ↔ (Call.mk r (a.answer r).1).isReset = true := by
  cases r <;> simp [answer, Call.isReset]

theorem answered_serve (rs : List (Request α)) :
    ∀ {a : Allocator α}, ∀ c ∈ (a.serve rs).1, c.answer = none ↔ c.isReset = true := by
  induction rs with
  | nil => intro a c hc; cases hc
  | cons r rs ih =>
    intro a c hc
    rcases List.mem_cons.mp hc with rfl | hc
    · exact a.answer_eq_none_iff r
    · exact ih c hc

/-- What one request keeps, a run of requests keeps. -/
theorem serve_induction {P : List (Call α) → Allocator α → Prop}
    (hstep : ∀ {cs a}, P cs a → ∀ r, P (cs ++ [⟨r, (a.answer r).1⟩]) (a.answer r).2)
    (h : P cs a) (rs : List (Request α)) : P (cs ++ (a.serve rs).1) (a.serve rs).2 := by
  induction rs generalizing cs a with
  | nil =>
    rw [serve, List.append_nil]
    exact h
  | cons r rs ih =>
    have hrest := ih (hstep h r)
    rwa [List.append_assoc, List.singleton_append] at hrest

/-- The registers that calls get for good. -/
def lasting (cs : List (Call α)) : List Register :=
  cs.filterMap Call.condition? ++ (cs.filterMap Call.constant?).map (·.reg)

theorem Listed.lasting_eq (h : Listed cs a) : lasting cs =
    (List.range a.conditions).map .longLived ++ (List.range a.constants).map .immediate := by
  rw [lasting, h.conditions, h.constants]

theorem Listed.stem_of_mem (h : Listed cs a) {r : Register} (hr : r ∈ lasting cs) :
    (∃ p, r.stem? = some p) ∧ ∀ n, r ≠ .temp n := by
  rw [h.lasting_eq, List.mem_append, List.mem_map, List.mem_map] at hr
  rcases hr with ⟨n, -, rfl⟩ | ⟨n, -, rfl⟩
  · exact ⟨⟨_, rfl⟩, fun _ heq => by cases heq⟩
  · exact ⟨⟨_, rfl⟩, fun _ heq => by cases heq⟩

theorem Listed.nodup_lasting (h : Listed cs a) : ((lasting cs).map Register.text).Nodup := by
  refine List.Nodup.map_on (fun r hr r' hr' heq => ?_) ?_
  · exact Register.text_inj (.inl (h.stem_of_mem hr).1) (.inl (h.stem_of_mem hr').1) heq
  · rw [h.lasting_eq, List.nodup_append]
    refine ⟨List.nodup_range.map fun _ _ heq => Register.longLived.inj heq,
      List.nodup_range.map fun _ _ heq => Register.immediate.inj heq, ?_⟩
    intro r hr r' hr' heq
    obtain ⟨n, -, rfl⟩ := List.mem_map.mp hr
    obtain ⟨m, -, rfl⟩ := List.mem_map.mp hr'
    cases heq

theorem text_temps (n : Nat) : ((List.range n).map Register.temp).map Register.text =
    (List.range n).map fun k => ascii "__$temp_" ++ Text.decimal k := List.map_map

/-- What calls on a fresh program have got, and what they leave behind. -/
structure Ledger (cs : List (Call α)) (a : Allocator α) : Prop where
  /-- Every request gets a register, but for that of a new session. -/
  answered : ∀ c ∈ cs, c.answer = none ↔ c.isReset = true
  /-- The scratch registers of a session are numbered from zero, in the order of its calls. -/
  scratch : ∀ s ∈ sessions cs, (s.filterMap Call.scratch?).map Register.text =
    (List.range (demand s)).map fun n => ascii "__$temp_" ++ Text.decimal n
  /-- As many are declared as the longest session asks for. -/
  temps : a.program.temps.map Register.text =
    (List.range (longest cs)).map fun n => ascii "__$temp_" ++ Text.decimal n
  /-- The session stands where its calls have got. -/
  position : (sessions cs).getLast?.map demand = some a.position
  /-- No two calls get one of the other registers. -/
  distinct : ((lasting cs).map Register.text).Nodup
  /-- None of them is handed out as a scratch register. -/
  apart : ∀ r ∈ lasting cs, ∀ t ∈ cs.filterMap Call.scratch?, r.text ≠ t.text
  /-- Registers for conditions are listed in the order of the calls. -/
  longLived : a.program.longLived = cs.filterMap Call.condition?
  /-- So are constants, with their values, behind those that every program has. -/
  immediates : a.program.immediates =
    [⟨.truth true, .truth true⟩, ⟨.truth false, .truth false⟩, ⟨.zero, .zeros 4⟩] ++
      cs.filterMap Call.constant?

/-- **Every run of an allocator keeps to its discipline**, whatever is asked for in whatever
order. -/
theorem ledger_serve (rs : List (Request α)) :
    (serve {} rs).1.map (·.request) = rs ∧ Ledger (serve {} rs).1 (serve {} rs).2 := by
  refine ⟨requests_serve {} rs, ?_⟩
  have hreused := serve_induction Reused.step Reused.nil rs
  have hlisted := serve_induction Listed.step Listed.nil rs
  rw [List.nil_append] at hreused hlisted
  exact
    { answered := answered_serve rs
      scratch := fun s hs => by rw [hreused.scratch s hs, text_temps]
      temps := by rw [hreused.temps, text_temps]
      position := hreused.position
      distinct := hlisted.nodup_lasting
      apart := by
        intro r hr t ht heq
        obtain ⟨n, rfl⟩ := hreused.numbered t ht
        obtain ⟨hstem, hne⟩ := hlisted.stem_of_mem hr
        exact hne n (Register.text_inj (.inl hstem) (.inl ⟨_, rfl⟩) heq)
      longLived := hlisted.longLived
      immediates := hlisted.immediates }

/-- A short session behind a longer one, with other registers in between. -/
example :
    let rs : List (Request Nat) := [.temp, .longLived, .temp, .reset, .immediate (.zeros 1), .temp]
    (serve {} rs).1.map (·.answer) =
      [some (.temp 0), some (.longLived 0), some (.temp 1), none, some (.immediate 0),
        some (.temp 0)] ∧
    (serve {} rs).2.program.temps = [.temp 0, .temp 1] ∧ (serve {} rs).2.position = 1 := by
  decide

end Runs

end Allocator

end Shader
