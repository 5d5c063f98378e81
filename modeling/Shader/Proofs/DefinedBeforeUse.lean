import Shader.Proofs.AllocatorRuns
import Shader.Proofs.DefinedSources

/-!
# Definition before use, session by session

A scratch register is handed out anew in each session, so what one session writes is of no use to
the next. The register of a condition outlives its session, but it belongs to one `if`: the code of
that `if` writes it, first from the condition and then once more for the `else`, and no other code
does.

Both are shown of the trace of a program. `SessionsFed` goes through a trace piece by piece, as a
piece either reads no scratch register or begins with a reset. `Owned` says of a piece of a trace
which `if`s were given registers in it and who writes and reads them, where the conditions around
the piece are taken as set.
-/

namespace Shader

open TypeSystem
open Program (Expr Stmt)
open Number (Scalar)

namespace Tracing

open Lower Traced

/-! ## Scratch registers -/

/-- A register that lasts longer than a session. -/
def Lasting (r : Register) : Prop := ∀ n, r ≠ .temp n

/-- In every session scratch registers are read behind instructions that wrote them. -/
def SessionsFed (t : List Event) : Prop := ∀ s ∈ sessions t, Fed Lasting (code s)

theorem SessionsFed.append {t t' : List Event} (h : SessionsFed t) (h' : SessionsFed t') :
    SessionsFed (t ++ t') := by
  obtain ⟨init, last, head, tail, ht, ht', happend⟩ :=
    Allocator.exists_splitOnP_append Event.isReset t t'
  have hmem : ∀ s ∈ init ++ [last], Fed Lasting (code s) := fun s hs => h s (by rwa [sessions, ht])
  have hmem' : ∀ s ∈ head :: tail, Fed Lasting (code s) :=
    fun s hs => h' s (by rwa [sessions, ht'])
  intro s hs
  rw [sessions, happend, List.mem_append, List.mem_cons] at hs
  rcases hs with hs | rfl | hs
  · exact hmem s (List.mem_append_left _ hs)
  · rw [code_append]
    exact (hmem last (by simp)).append ((hmem' head (by simp)).mono fun _ => .inl)
  · exact hmem' s (List.mem_cons_of_mem _ hs)

theorem sessionsFed_reset : SessionsFed [.reset] := by
  intro s hs
  have : s = [] := by simpa [sessions, List.splitOnP_cons_eq_if_modifyHead, Event.isReset] using hs
  subst this
  exact fed_nil

/-- A piece within one session. -/
theorem sessionsFed_of_fed {t : List Event} (hquiet : ∀ e ∈ t, e.isReset = false)
    (h : Fed Lasting (code t)) : SessionsFed t := by
  intro s hs
  rw [sessions, List.splitOnP_eq_singleton (by simpa using hquiet), List.mem_singleton] at hs
  rwa [hs]

theorem sessionsFed_map {ls : List Line} (part : Part) (h : Fed Lasting (instructions ls)) :
    SessionsFed (ls.map (.line part)) := by
  refine sessionsFed_of_fed (fun e he => ?_) (by rwa [code_map])
  obtain ⟨l, -, rfl⟩ := List.mem_map.mp he
  rfl

/-! ## Registers of conditions -/

/-- A register that the `if` it was given to has set, in the code for its condition. -/
def SetIn (t : List Event) (r : Register) : Prop :=
  ∃ address i, .request address r ∈ t ∧ .line (.setup address) (.instr i) ∈ t ∧ i.dst.reg = r

/-- Lines for the condition of the `if` that a register was given to, or for its `else`. -/
def BelongsTo (t : List Event) (r : Register) (part : Part) : Prop :=
  ∃ address, .request address r ∈ t ∧ (part = .setup address ∨ part = .negation address)

/-- A piece of a trace in which `ifs` are given the registers of their conditions, numbered from
`lo` and below `hi`, where the registers in `O` are those of conditions around it. -/
structure Owned (ifs : List Address) (lo hi : Nat) (O : Register → Prop) (t : List Event) :
    Prop where
  asked : (requests t).map (·.1) = ifs
  given : ∀ x ∈ requests t, ∃ k, x.2 = .longLived k ∧ lo ≤ k ∧ k < hi
  once : ((requests t).map (·.2)).Nodup
  writes : ∀ part i, .line part (.instr i) ∈ t → ∀ k, i.dst.reg = .longLived k →
    BelongsTo t (.longLived k) part
  reads : ∀ before part i after, t = before ++ .line part (.instr i) :: after →
    ∀ o ∈ i.src, ∀ k, o.reg = .longLived k → O o.reg ∨ SetIn before o.reg

theorem SetIn.mono {t t' : List Event} {r : Register} (h : SetIn t r) (hle : t ⊆ t') :
    SetIn t' r := by
  obtain ⟨address, i, hrequest, hline, hdst⟩ := h
  exact ⟨address, i, hle hrequest, hle hline, hdst⟩

theorem BelongsTo.mono {t t' : List Event} {r : Register} {part : Part} (h : BelongsTo t r part)
    (hle : t ⊆ t') : BelongsTo t' r part := by
  obtain ⟨address, hrequest, hpart⟩ := h
  exact ⟨address, hle hrequest, hpart⟩

section Owned

variable {ifs ifs' : List Address} {lo mid hi : Nat} {O O' : Register → Prop}
  {t t' : List Event}

theorem mem_code {part : Part} {i : Instruction} (h : .line part (.instr i) ∈ t) : i ∈ code t :=
  List.mem_filterMap.mpr ⟨.instr i, List.mem_filterMap.mpr ⟨_, h, rfl⟩, rfl⟩

/-- A piece without instructions. -/
theorem owned_of_silent (hrequests : requests t = []) (hcode : code t = []) :
    Owned [] lo hi O t where
  asked := by rw [hrequests, List.map_nil]
  given := by simp [hrequests]
  once := by simp [hrequests]
  writes := by
    intro part i hi
    have h := mem_code hi
    rw [hcode] at h
    cases h
  reads := by
    intro before part i after heq
    have h : i ∈ code t := mem_code (by rw [heq]; exact List.mem_append_right _ List.mem_cons_self)
    rw [hcode] at h
    cases h

theorem owned_request (address : Address) (k : Nat) :
    Owned [address] k (k + 1) O [.request address (.longLived k)] := by
  constructor <;> simp [requests, Event.request?, List.singleton_eq_append_iff]

theorem Owned.append (h : Owned ifs lo mid O t) (h' : Owned ifs' mid hi O' t') (hlo : lo ≤ mid)
    (hhi : mid ≤ hi) (hO : ∀ r, O' r → O r ∨ SetIn t r) :
    Owned (ifs ++ ifs') lo hi O (t ++ t') where
  asked := by rw [requests_append, List.map_append, h.asked, h'.asked]
  given := by
    intro x hx
    rw [requests_append, List.mem_append] at hx
    rcases hx with hx | hx
    · obtain ⟨k, hk, hle, hlt⟩ := h.given x hx
      exact ⟨k, hk, hle, Nat.lt_of_lt_of_le hlt hhi⟩
    · obtain ⟨k, hk, hle, hlt⟩ := h'.given x hx
      exact ⟨k, hk, Nat.le_trans hlo hle, hlt⟩
  once := by
    rw [requests_append, List.map_append, List.nodup_append]
    refine ⟨h.once, h'.once, ?_⟩
    intro r hr r' hr' heq
    obtain ⟨x, hx, rfl⟩ := List.mem_map.mp hr
    obtain ⟨y, hy, rfl⟩ := List.mem_map.mp hr'
    -- the first part has numbers below `mid`, the second from there on
    obtain ⟨k, hk, -, hlt⟩ := h.given x hx
    obtain ⟨m, hm, hle, -⟩ := h'.given y hy
    rw [hk, hm] at heq
    cases heq
    omega
  writes := by
    intro part i hi k hk
    rcases List.mem_append.mp hi with hi | hi
    · exact (h.writes part i hi k hk).mono (List.subset_append_left _ _)
    · exact (h'.writes part i hi k hk).mono (List.subset_append_right _ _)
  reads := by
    intro before part i after heq o ho k hk
    rcases split_of_append_eq heq with ⟨rest, rfl⟩ | ⟨rest, rfl, rfl⟩
    · exact h.reads before part i rest rfl o ho k hk
    · rcases h'.reads rest part i after rfl o ho k hk with hO' | hset
      · exact (hO _ hO').imp_right (·.mono (List.subset_append_left _ _))
      · exact .inr (hset.mono (List.subset_append_right _ _))

/-- Lines that write no condition but one that their `if` was given before. -/
theorem Owned.lines (h : Owned ifs lo hi O t) (part : Part) {ls : List Line}
    (hwrites : ∀ i ∈ instructions ls, ∀ k, i.dst.reg = .longLived k →
      BelongsTo t (.longLived k) part)
    (hreads : ∀ i ∈ instructions ls, ∀ o ∈ i.src, ∀ k, o.reg = .longLived k →
      O o.reg ∨ SetIn t o.reg) : Owned ifs lo hi O (t ++ ls.map (.line part)) := by
  have hmem : ∀ part' i, .line part' (.instr i) ∈ ls.map (Event.line part) →
      part' = part ∧ i ∈ instructions ls := by
    intro part' i hi
    obtain ⟨l, hl, heq⟩ := List.mem_map.mp hi
    cases heq
    exact ⟨rfl, List.mem_filterMap.mpr ⟨_, hl, rfl⟩⟩
  have hrequests : requests (t ++ ls.map (.line part)) = requests t := by
    rw [requests_append, requests_map, List.append_nil]
  refine ⟨by rw [hrequests, h.asked], by rw [hrequests]; exact h.given,
    by rw [hrequests]; exact h.once, ?_, ?_⟩
  · intro part' i hi k hk
    rcases List.mem_append.mp hi with hi | hi
    · exact (h.writes part' i hi k hk).mono (List.subset_append_left _ _)
    · obtain ⟨rfl, hcode⟩ := hmem part' i hi
      exact (hwrites i hcode k hk).mono (List.subset_append_left _ _)
  · intro before part' i after heq o ho k hk
    rcases split_of_append_eq heq with ⟨rest, rfl⟩ | ⟨rest, rfl, hrest⟩
    · exact h.reads before part' i rest rfl o ho k hk
    · obtain ⟨-, hcode⟩ := hmem part' i (by rw [hrest]; simp)
      exact (hreads i hcode o ho k hk).imp_right (·.mono (List.subset_append_left _ _))

/-- Lines that write no condition at all. -/
theorem Owned.plain (h : Owned ifs lo hi O t) (part : Part) {ls : List Line}
    (hdst : ∀ i ∈ instructions ls, ∀ k, i.dst.reg ≠ .longLived k)
    (hsrc : ∀ i ∈ instructions ls, ∀ o ∈ i.src, ∀ k, o.reg = .longLived k → O o.reg) :
    Owned ifs lo hi O (t ++ ls.map (.line part)) :=
  h.lines part (fun i hi k hk => absurd hk (hdst i hi k)) fun i hi o ho k hk =>
    .inl (hsrc i hi o ho k hk)

end Owned

/-! ## Steps of statements -/

/-- A piece of a trace as code generation leaves it. -/
structure Orderly (ifs : List Address) (lo hi : Nat) (O : Register → Prop) (t : List Event) :
    Prop where
  fed : SessionsFed t
  owned : Owned ifs lo hi O t

section Orderly

variable {ifs ifs' : List Address} {lo mid hi : Nat} {O O' : Register → Prop}
  {t t' : List Event}

theorem orderly_nil : Orderly [] lo hi O [] :=
  ⟨sessionsFed_of_fed (by simp) fed_nil, owned_of_silent rfl rfl⟩

theorem Orderly.append (h : Orderly ifs lo mid O t) (h' : Orderly ifs' mid hi O' t')
    (hlo : lo ≤ mid) (hhi : mid ≤ hi) (hO : ∀ r, O' r → O r ∨ SetIn t r) :
    Orderly (ifs ++ ifs') lo hi O (t ++ t') :=
  ⟨h.fed.append h'.fed, h.owned.append h'.owned hlo hhi hO⟩

/-- The lines before a session. -/
theorem orderly_begin {marks : List Line} (part : Part) (h : instructions marks = []) :
    Orderly [] lo hi O (marks.map (.line part) ++ [.reset]) where
  fed := (sessionsFed_map part (by rw [h]; exact fed_nil)).append sessionsFed_reset
  owned := owned_of_silent (by rw [requests_append, requests_map]; rfl)
    (by rw [code_append, code_map, h]; rfl)

end Orderly

/-- A condition in the register of an `if`. -/
def InRegister (cond : Option Operand) : Prop := ∀ o, cond = some o → ∃ k, o = .of (.longLived k)

theorem inRegister_some (k : Nat) : InRegister (some (.of (.longLived k))) := by
  intro o ho
  cases ho
  exact ⟨k, rfl⟩

section Steps

variable {cond : Option Operand} {k : Nat} {own : Operand}

theorem InRegister.plain (h : InRegister cond) : PlainCondition cond := by
  intro o ho
  obtain ⟨k, rfl⟩ := h o ho
  exact Operand.plain_of _

theorem InRegister.lasting (h : InRegister cond) {r : Register} (hr : OfCondition cond r) :
    Lasting r := by
  obtain ⟨o, ho, rfl⟩ := hr
  obtain ⟨k, rfl⟩ := h o ho
  exact fun n hn => by cases hn

theorem dst_combine : (combine cond k own).dst.reg = .longLived k := by
  cases cond <;> rfl

theorem src_combine {o : Operand} (h : o ∈ (combine cond k own).src) :
    OfCondition cond o.reg ∨ IsConstant o.reg ∨ o = own := by
  cases cond with
  | none => exact .inr (.inr (List.mem_singleton.mp h))
  | some outer =>
    simp only [combine, List.mem_cons, List.not_mem_nil, or_false] at h
    rcases h with rfl | rfl | rfl
    · exact .inl ⟨o, rfl, rfl⟩
    · exact .inr (.inl (.truth false))
    · exact .inr (.inr rfl)

/-- The code of a combined condition reads the conditions around it and the one it is made of. -/
theorem fed_combine {W : Register → Prop} (hcond : ∀ r, OfCondition cond r → W r)
    (hown : Filled W own) : Fed W [combine cond k own] := by
  refine fed_of_filled fun i hi o ho => ?_
  cases List.mem_singleton.mp hi
  rcases src_combine ho with ho | ho | rfl
  · exact filled_of_written (hcond _ ho)
  · exact filled_of_isConstant ho
  · exact hown

/-- The combined condition goes to the register of the `if` that it is the condition of. -/
theorem Owned.combine {ifs : List Address} {lo hi : Nat} {t : List Event}
    (h : Owned ifs lo hi (OfCondition cond) t) {part : Part} {ls : List Line}
    (hpart : BelongsTo t (.longLived k) part) (hcode : instructions ls = [combine cond k own])
    (hown : ∀ n, own.reg = .longLived n → SetIn t own.reg) :
    Owned ifs lo hi (OfCondition cond) (t ++ ls.map (.line part)) := by
  refine h.lines part (fun i hi n hn => ?_) fun i hi o ho n hn => ?_
  all_goals
    rw [hcode] at hi
    cases List.mem_singleton.mp hi
  · cases dst_combine.symm.trans hn
    exact hpart
  · rcases src_combine ho with ho | ho | rfl
    · exact .inl ho
    · rw [hn] at ho
      cases ho
    · exact .inr (hown n hn)

/-- Code that writes no condition reads none but those that are written before it. -/
theorem longLived_of_fed {W : Register → Prop} {is : List Instruction} (h : Fed W is)
    (hdst : ∀ i ∈ is, ∀ k, i.dst.reg ≠ .longLived k) :
    ∀ i ∈ is, ∀ o ∈ i.src, ∀ k, o.reg = .longLived k → W o.reg := by
  intro i hi o ho k hk
  obtain ⟨before, after, rfl⟩ := List.append_of_mem hi
  have haux : Auxiliary 0 o.reg := by
    rw [hk]
    exact .condition (Nat.zero_le k)
  rcases h before i after rfl o ho haux with hW | ⟨j, hj, hreg⟩
  · exact hW
  · exact absurd (hreg.trans hk) (hdst j (List.mem_append_left _ hj) k)

theorem ne_longLived_of_written {r : Register} (h : ∀ first, Written first r) (k : Nat) :
    r ≠ .longLived k := by
  rintro rfl
  rcases h (k + 1) with hr | hr
  · cases hr with
    | condition hle => omega
  · cases hr

variable {α β : Type} {a a' : Allocator α} {t : List Event} {lo hi : Nat} {u : Unit}

/-- What is known of the code of a step is known of its trace. -/
theorem emits_trace {m : Traced α β} {m' : Lower α β} (herase : erase m = m')
    {W : Register → Prop} {Q : Allocator α → β → Prop} {b : β} (h : Emits W a m' Q)
    (hm : m a = .ok (b, t, a')) :
    a'.Tidy ∧ a.Extends a' ∧ (∀ i ∈ code t, i.WellFormed ∧ W i.dst.reg) ∧ Q a' b :=
  h b (emitted t) a' (herase ▸ run_erase hm)

theorem orderly_statement {m : Lower α Unit} {Q : (Register → Prop) → Unit → Prop}
    (hcond : InRegister cond) (hfeeds : Feeds (OfCondition cond) m Q)
    (hdst : ∀ i ∈ code t, ∀ first, Written first i.dst.reg)
    (h : statement m a = .ok (u, t, a')) : Orderly [] lo hi (OfCondition cond) t := by
  obtain ⟨ls, hrun, rfl⟩ := statement_eq_ok h
  obtain ⟨hfed, -⟩ := hfeeds _ _ _ _ hrun
  have hcode : ∀ i ∈ instructions ls, ∀ k, i.dst.reg ≠ .longLived k := fun i hi =>
    ne_longLived_of_written
      (hdst i (by rw [code_append, code_map]; exact List.mem_append_right _ hi))
  have hbegin : Orderly [] lo hi (OfCondition cond) ([Line.blank].map (.line .write) ++ [.reset]) :=
    orderly_begin .write rfl
  exact ⟨hbegin.fed.append (sessionsFed_map .write (hfed.mono fun _ => hcond.lasting)),
    hbegin.owned.plain .write hcode (longLived_of_fed hfed hcode)⟩

/-- The condition of an `else`, behind code that has set the one of its `if`. -/
theorem Orderly.negate {ifs : List Address} {address : Address}
    (h : Orderly ifs lo hi (OfCondition cond) t) (hcond : InRegister cond)
    (hrequest : .request address (.longLived k) ∈ t) (hset : SetIn t (.longLived k))
    {t' : List Event} (helse : enterElse cond address (.of (.longLived k)) a = .ok (u, t', a')) :
    Orderly ifs lo hi (OfCondition cond) (t ++ t') := by
  obtain ⟨ls, -, hcode, rfl⟩ := enterElse_eq_ok helse
  refine ⟨h.fed.append (sessionsFed_map _ ?_),
    h.owned.combine ⟨address, hrequest, .inr rfl⟩ hcode fun _ _ => hset⟩
  rw [hcode]
  refine fed_combine (fun r => hcond.lasting) (filled_of_written fun n hn => ?_)
  cases hn

variable [Scalar α] {env : Env}

theorem emits_ownCondition (henv : Nameable env) (ha : a.Tidy) (e : Expr) :
    Emits (ScratchFrom 0) a (ownCondition env e) fun _ _ => True := by
  refine emits_bind (emits_mono (emits_expr henv e ha) (fun _ h => h.mono (Nat.zero_le _))
    fun _ _ h => h) fun a₁ value h₁ _ hvalue => ?_
  exact emits_mono (emits_spread h₁ (Nat.zero_le _) hvalue.2.plain) (fun _ h => h)
    fun _ _ _ => trivial

/-- The condition of an `if`. Its register is the one that the `if` is given, and it is set. -/
theorem orderly_enterIf (henv : Nameable env) (ha : a.Tidy) (hcond : InRegister cond)
    {address : Address} {e : Expr} {ty : Ty} (he : HasType env.decls e ty) {o : Operand}
    (h : enterIf env cond address e a = .ok (o, t, a')) :
    ∃ k, o = .of (.longLived k) ∧ .request address (.longLived k) ∈ t ∧ SetIn t (.longLived k) ∧
      Orderly [address] a.conditions a'.conditions (OfCondition cond) t := by
  obtain ⟨own, ls, k, a₁, text, hrun, hk, rfl, rfl, rfl⟩ := enterIf_eq_ok h
  obtain ⟨-, hext, hcode, -⟩ := emits_ownCondition henv ha.reset e _ _ _ hrun
  obtain ⟨hfed, hwritten⟩ := feeds_ownCondition (W := fun _ => False) henv he _ _ _ _ hrun
  obtain ⟨j, hj, hown⟩ : ∃ j ∈ instructions ls, j.dst.reg = own.reg := hwritten.resolve_left id
  -- the condition by itself has to do with scratch registers only
  have hdst : ∀ i ∈ instructions ls, ∀ k, i.dst.reg ≠ .longLived k := by
    intro i hi k hlong
    obtain ⟨n, hn, -⟩ := (hcode i hi).2
    cases hn.symm.trans hlong
  have hsrc := longLived_of_fed hfed hdst
  subst hk
  have hbegin : Orderly [] a.conditions a₁.conditions (OfCondition cond)
      ([Line.blank, .comment (Mark.text .condition)].map (.line (.setup address)) ++ [.reset]) :=
    orderly_begin _ rfl
  refine ⟨_, rfl, by simp,
    ⟨address, combine cond a₁.conditions own, by simp, by simp, dst_combine⟩, ?_, ?_⟩
  · rw [List.append_assoc, List.append_assoc]
    refine hbegin.fed.append (sessionsFed_of_fed (fun ev hev => ?_) ?_)
    · simp only [List.mem_append, List.mem_map, List.mem_singleton] at hev
      rcases hev with ⟨l, -, rfl⟩ | rfl | ⟨l, -, rfl⟩ <;> rfl
    · rw [code_append, code_append, code_map, code_map]
      refine (hfed.mono fun _ => False.elim).append ?_
      exact fed_combine (fun r hr => .inl (hcond.lasting hr))
        (filled_of_written (.inr ⟨j, hj, hown⟩))
  · have hrequested := (hbegin.owned.plain (.setup address) hdst fun i hi o ho n hn =>
      (hsrc i hi o ho n hn).elim).append (owned_request address _) hext.conditions
        (Nat.le_succ _) fun _ => .inl
    exact hrequested.combine ⟨address, by simp, .inl rfl⟩ rfl fun n hn =>
      absurd (hown.trans hn) (hdst j hj n)

/-! ## Statements -/

theorem orderly_decl (henv : Nameable env) (hinits : InitsTyped env.decls) (ha : a.Tidy)
    (hcond : InRegister cond) {id : DeclId} (h : decl env cond id a = .ok (u, t, a')) :
    Orderly [] lo hi (OfCondition cond) t := by
  have hdst : ∀ i ∈ code t, ∀ first, Written first i.dst.reg := fun i hi first =>
    ((emits_trace (erase_decl env cond id) (emits_decl henv ha hcond.plain id) h).2.2.1 i hi).2
  unfold decl at h
  cases hd : env.decls[id]? with
  | none =>
    rw [hd] at h
    cases h
    exact orderly_nil
  | some d =>
    rw [hd] at h
    dsimp only at h
    by_cases hc : d.isConst = true
    · rw [if_pos hc] at h
      cases h
      exact orderly_nil
    · rw [if_neg hc] at h
      exact orderly_statement hcond (feeds_setInitial henv fun e he => hinits id d e hd he) hdst h

theorem orderly_decls (henv : Nameable env) (hinits : InitsTyped env.decls)
    (hcond : InRegister cond) :
    ∀ (ids : List DeclId) {a a' : Allocator α} {t : List Event}, a.Tidy →
      decls env cond ids a = .ok (u, t, a') →
        Orderly [] a.conditions a'.conditions (OfCondition cond) t
  | [], _, _, _, _, h => by
    cases h
    exact orderly_nil
  | id :: ids, a, a', _, ha, h => by
    obtain ⟨_, t₁, a₁, t₂, h₁, h₂, rfl⟩ := bind_eq_ok h
    have hdecl : Emits (Written 0) a (Lower.decl env cond id) fun _ _ => True :=
      emits_decl henv ha hcond.plain id
    obtain ⟨ha₁, hext₁, -⟩ := emits_trace (erase_decl env cond id) hdecl h₁
    have hdecls : Emits (Written 0) a₁ (Lower.decls env cond ids) fun _ _ => True :=
      emits_decls henv hcond.plain ids ha₁
    obtain ⟨-, hext₂, -⟩ := emits_trace (erase_decls env cond ids) hdecls h₂
    exact (orderly_decl henv hinits ha hcond h₁).append (orderly_decls henv hinits hcond ids ha₁ h₂)
      hext₁.conditions hext₂.conditions fun _ => .inl

end Steps

section Stmts

variable {α : Type} [Scalar α] {env : Env}

theorem tidy_enterIf (henv : Nameable env) {cond : Option Operand} (hcond : InRegister cond)
    {address : Address} {e : Expr} {a a' : Allocator α} {t : List Event} {o : Operand}
    (ha : a.Tidy) (h : enterIf env cond address e a = .ok (o, t, a')) :
    a'.Tidy ∧ a.conditions ≤ a'.conditions := by
  obtain ⟨ht, hext, -⟩ := emits_trace (erase_enterIf env cond address e)
    (emits_enterIf henv ha hcond.plain e) h
  exact ⟨ht, hext.conditions⟩

theorem tidy_stmt (henv : Nameable env) {cond : Option Operand} (hcond : InRegister cond)
    {address : Address} {st : Stmt} {a a' : Allocator α} {t : List Event} {u : Unit}
    (ha : a.Tidy) (h : stmt env cond address st a = .ok (u, t, a')) :
    a'.Tidy ∧ a.conditions ≤ a'.conditions := by
  obtain ⟨ht, hext, -⟩ := emits_trace (erase_stmt env st cond address)
    (emits_stmt henv st ha hcond.plain) h
  exact ⟨ht, hext.conditions⟩

/-- In a branch, the condition around is the one that its `if` has set. -/
theorem SetIn.around {t : List Event} {k : Nat} (h : SetIn t (.longLived k))
    (O : Register → Prop) (r : Register) (hr : OfCondition (some (.of (.longLived k))) r) :
    O r ∨ SetIn t r := by
  obtain ⟨o, ho, rfl⟩ := hr
  cases ho
  exact .inr h

theorem orderly_scope (henv : Nameable env) (hinits : InitsTyped env.decls)
    {cond : Option Operand} {address : Address} {ids : List DeclId} {ss : List Stmt}
    {a a' : Allocator α} {t : List Event} {u : Unit} (ha : a.Tidy) (hcond : InRegister cond)
    (hss : ∀ {a₁ : Allocator α} {t₂ : List Event}, a₁.Tidy →
      stmts env cond address 0 ss a₁ = .ok (u, t₂, a') →
        Orderly (listIfs address 0 ss) a₁.conditions a'.conditions (OfCondition cond) t₂ ∧
          a₁.conditions ≤ a'.conditions)
    (h : stmt env cond address (.scope ids ss) a = .ok (u, t, a')) :
    Orderly (ifs address (.scope ids ss)) a.conditions a'.conditions (OfCondition cond) t := by
  rw [stmt] at h
  rw [ifs]
  obtain ⟨_, t₁, a₁, t₂, h₁, h₂, rfl⟩ := bind_eq_ok h
  have hdecls : Emits (Written 0) a (Lower.decls env cond ids) fun _ _ => True :=
    emits_decls henv hcond.plain ids ha
  obtain ⟨ha₁, hext₁, -⟩ := emits_trace (erase_decls env cond ids) hdecls h₁
  obtain ⟨hrest, hle₂⟩ := hss ha₁ h₂
  exact (orderly_decls henv hinits hcond ids ha h₁).append hrest hext₁.conditions hle₂
    fun _ => .inl

mutual

/-- **The code of a statement** reads scratch registers behind what wrote them in their session, and
conditions behind the `if` that has set them. -/
theorem orderly_stmt (henv : Nameable env) (hinits : InitsTyped env.decls) :
    ∀ (st : Stmt) {cond : Option Operand} {address : Address} {a a' : Allocator α}
      {t : List Event} {u : Unit}, StmtHasType env.decls st → a.Tidy → InRegister cond →
      stmt env cond address st a = .ok (u, t, a') →
        Orderly (ifs address st) a.conditions a'.conditions (OfCondition cond) t
  | .absent, _, _, _, _, _, _, _, _, _, h => by
    rw [stmt] at h
    cases h
  | .assign pos dst value, cond, address, _, _, _, _, hty, ha, hcond, h => by
    obtain ⟨ty, hvalue⟩ := hty.assign
    have hdst : ∀ i ∈ code _, ∀ first, Written first i.dst.reg := fun i hi first =>
      ((emits_trace (erase_stmt env _ cond address)
        (emits_assign henv ha hcond.plain pos dst value) h).2.2.1 i hi).2
    rw [stmt] at h
    rw [ifs]
    exact orderly_statement hcond (feeds_assign henv hvalue) hdst h
  | .branch e yes none, _, _, _, _, _, _, hty, ha, hcond, h => by
    obtain ⟨he, hyes⟩ := hty.ifThen
    rw [stmt] at h
    rw [ifs]
    obtain ⟨o, t₁, a₁, t₂, h₁, h₂, rfl⟩ := bind_eq_ok h
    obtain ⟨ha₁, hle₁⟩ := tidy_enterIf henv hcond ha h₁
    obtain ⟨k, rfl, -, hset, hif⟩ := orderly_enterIf henv ha hcond he h₁
    have hown := inRegister_some k
    exact hif.append (orderly_stmt henv hinits yes hyes ha₁ hown h₂) hle₁
      (tidy_stmt henv hown ha₁ h₂).2 (hset.around _)
  | .branch e yes (some no), _, _, _, _, _, _, hty, ha, hcond, h => by
    obtain ⟨he, hyes, hno⟩ := hty.ifElse
    rw [stmt] at h
    rw [ifs]
    obtain ⟨o, t₁, a₁, rest₁, h₁, hrest₁, rfl⟩ := bind_eq_ok h
    obtain ⟨_, t₂, a₂, rest₂, h₂, hrest₂, rfl⟩ := bind_eq_ok hrest₁
    obtain ⟨_, t₃, a₃, t₄, h₃, h₄, rfl⟩ := bind_eq_ok hrest₂
    obtain ⟨ha₁, hle₁⟩ := tidy_enterIf henv hcond ha h₁
    obtain ⟨k, rfl, hrequest, hset, hif⟩ := orderly_enterIf henv ha hcond he h₁
    have hown := inRegister_some k
    obtain ⟨ha₂, hle₂⟩ := tidy_stmt henv hown ha₁ h₂
    -- the register of the condition is set before the branches, and stays set up to the `else`
    have hthen := hif.append (orderly_stmt henv hinits yes hyes ha₁ hown h₂) hle₁ hle₂
      (hset.around _)
    have hset₂ := hset.mono (List.subset_append_left t₁ t₂)
    have helse := hthen.negate hcond (List.mem_append_left t₂ hrequest) hset₂ h₃
    obtain ⟨_, rfl, -⟩ := enterElse_eq_ok h₃
    have hset₃ := hset₂.mono (List.subset_append_left _ t₃)
    have hall := helse.append (orderly_stmt henv hinits no hno ha₂ hown h₄)
      (Nat.le_trans hle₁ hle₂) (tidy_stmt henv hown ha₂ h₄).2 (hset₃.around _)
    simpa only [List.append_assoc, List.cons_append, List.nil_append] using hall
  | .loop _ _ _, _, _, _, _, _, _, _, _, _, h => by
    rw [stmt] at h
    cases h
  | .scope _ ss, _, _, _, _, _, _, hty, ha, hcond, h =>
    orderly_scope henv hinits ha hcond
      (fun ha₁ h₂ => orderly_stmts henv hinits ss hty.scope ha₁ hcond h₂) h

theorem orderly_stmts (henv : Nameable env) (hinits : InitsTyped env.decls) :
    ∀ (ss : List Stmt) {cond : Option Operand} {address : Address} {n : Nat}
      {a a' : Allocator α} {t : List Event} {u : Unit}, StmtsHaveType env.decls ss → a.Tidy →
      InRegister cond → stmts env cond address n ss a = .ok (u, t, a') →
        Orderly (listIfs address n ss) a.conditions a'.conditions (OfCondition cond) t ∧
          a.conditions ≤ a'.conditions
  | [], _, _, _, _, _, _, _, _, _, _, h => by
    rw [stmts] at h
    cases h
    exact ⟨by rw [listIfs]; exact orderly_nil, Nat.le_refl _⟩
  | s :: ss, _, _, _, _, _, _, _, hty, ha, hcond, h => by
    obtain ⟨hs, hss⟩ := hty.cons
    rw [stmts] at h
    rw [listIfs]
    obtain ⟨_, t₁, a₁, t₂, h₁, h₂, rfl⟩ := bind_eq_ok h
    obtain ⟨ha₁, hle₁⟩ := tidy_stmt henv hcond ha h₁
    obtain ⟨hrest, hle₂⟩ := orderly_stmts henv hinits ss hss ha₁ hcond h₂
    exact ⟨(orderly_stmt henv hinits s hs ha hcond h₁).append hrest hle₁ hle₂ fun _ => .inl,
      Nat.le_trans hle₁ hle₂⟩

end

end Stmts

/-! ## Programs -/

/-- The registers of code generation are defined before they are used. -/
structure DefinedBeforeUse (ifs : List Address) (t : List Event) : Prop where
  /-- A scratch register is read behind an instruction of the same session that wrote it. -/
  scratch : ∀ s ∈ sessions t, ∀ before i after, code s = before ++ i :: after →
    ∀ o ∈ i.src, ∀ n, o.reg = .temp n → ∃ j ∈ before, j.dst.reg = .temp n
  /-- Every `if` is given one register for its condition. -/
  asked : (requests t).map (·.1) = ifs ∧ ifs.Nodup
  /-- No two are given the same register. -/
  given : ((requests t).map (·.2)).Nodup
  /-- Such a register is read behind an instruction that wrote it, for the condition of the `if`
  that it was given to. -/
  set : ∀ before part i after, t = before ++ .line part (.instr i) :: after →
    ∀ o ∈ i.src, ∀ k, o.reg = .longLived k → SetIn before o.reg
  /-- It is written for the condition of that `if` or for the `else`, and for nothing else. -/
  owned : ∀ part i, .line part (.instr i) ∈ t → ∀ k, i.dst.reg = .longLived k →
    BelongsTo t (.longLived k) part

theorem Orderly.definedBeforeUse {ifs : List Address} {lo hi : Nat} {t : List Event}
    (h : Orderly ifs lo hi (OfCondition none) t) (hifs : ifs.Nodup) : DefinedBeforeUse ifs t where
  scratch := by
    intro s hs before i after heq o ho n hn
    have haux : Auxiliary 0 o.reg := by
      rw [hn]
      exact .scratch n
    rw [← hn]
    exact (h.fed s hs before i after heq o ho haux).resolve_left fun hlasting => hlasting n hn
  asked := ⟨h.owned.asked, hifs⟩
  given := h.owned.once
  set := by
    intro before part i after heq o ho k hk
    refine (h.owned.reads before part i after heq o ho k hk).resolve_left ?_
    rintro ⟨_, hnone, -⟩
    cases hnone
  owned := h.owned.writes

end Tracing

open Lower Tracing in
/-- **Registers are defined before they are used.** An accepted shader without loops compiles, and
the code that comes out is that of a trace in which every scratch register that is read was written
before in its session, and every condition that is read was written before by its own `if`, which
alone ever writes it. -/
theorem definedBeforeUse_compile {α : Type} [Scalar α] (source : Bytes)
    (hparse : (parse source).errors = [])
    (hcheck : (Program.ofAst (parse source).body).check.checker.errors = [])
    (hloops : (parse source).body.toStmt.loops = []) :
    let p := (Program.ofAst (parse source).body).check.program
    ∃ t, ∃ a : Assembly α, p.compile.outcome = .ok a ∧ p.trace = .ok (t, a) ∧ a.lines = emitted t ∧
      DefinedBeforeUse p.ifs t := by
  intro p
  have helab : Elaborates (parse source).body p := elaborates_check hparse hcheck
  obtain ⟨symbols, n, ds, es, Γ, stmts, hbuild, hbody, hA, hB, a, ha⟩ :=
    compiled_of_elaborates (α := α) helab hloops
  obtain ⟨t, htrace⟩ := exists_trace_of_compile ha
  obtain ⟨u, alloc, hrun, rfl⟩ := exists_stmt_of_trace hbuild hbody htrace
  obtain ⟨hfits, hholds, -⟩ := hB.start
  have henv := nameable_of_accepted hA
  have htidy := tidy_start (mutables ⟨p.decls, symbols⟩) (constants (α := α) ⟨p.decls, symbols⟩)
  have hnone : InRegister none := by
    rintro o ⟨⟩
  have hlines : alloc.program.lines = [] :=
    (emits_trace (erase_stmt _ _ none []) (emits_stmt henv _ htidy hnone.plain) hrun).2.1.lines
  have horderly := orderly_scope henv (initsTyped_of_accepted hA) htidy hnone
    (fun ha₁ h₂ => orderly_stmts henv (initsTyped_of_accepted hA) stmts
      ⟨n, Γ, _, _, es, hfits, hholds, hB.stmts⟩ ha₁ hnone h₂) hrun
  refine ⟨t, _, ha, htrace, ?_, ?_⟩
  · show alloc.program.lines ++ emitted t = emitted t
    rw [hlines, List.nil_append]
  · rw [Program.ifs, hbody]
    exact horderly.definedBeforeUse (nodup_ifs _ [])

open Tracing in
/-- An `if` within another, both with an `else`, around values that take several instructions. -/
theorem definedBeforeUse_compile_nested :
    let source :=
      ascii "\x7bfloat x;if(env1==env2){if(x<env1[0])x=x/env2[1];else x=-x;}else x=1.0;" ++
        ascii "gl_FragColor=vec4(x,1.0,x,env1[1]);\x7d"
    let p := (Program.ofAst (parse source).body).check.program
    (parse source).errors = [] ∧
    (Program.ofAst (parse source).body).check.checker.errors = [] ∧
    (parse source).body.toStmt.loops = [] ∧ p.ifs = [[0], [0, 0, 0]] ∧
    ∃ t, ∃ a : Assembly Float32, p.compile.outcome = .ok a ∧ p.trace = .ok (t, a) ∧
      a.lines = emitted t ∧ DefinedBeforeUse p.ifs t := by
  intro source p
  have hyps : (isCompilable source && p.ifs == [[0], [0, 0, 0]]) = true := by decide +kernel
  rw [Bool.and_eq_true, isCompilable_iff, beq_iff_eq] at hyps
  obtain ⟨⟨hparse, hcheck, hloops⟩, hifs⟩ := hyps
  exact ⟨hparse, hcheck, hloops, hifs, definedBeforeUse_compile _ hparse hcheck hloops⟩

end Shader
