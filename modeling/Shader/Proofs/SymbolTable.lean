import Mathlib.Data.List.Nodup
import Mathlib.Data.List.Perm.Subperm
import Shader.Symbols

/-!
# The registers of a table

Building a symbol table visits declarations one by one, and looks for a free register for each. What
it finds can be told without the search: a variable of the shader has the number of its namesakes
before it. `Listed` says so, entry by entry, and that no two entries share a declaration or a
register is by induction on it.

As long as no declaration is visited twice and the predefined ones are those of the hardware, each
visit succeeds, and every register is of the kind that its declaration calls for.
-/

namespace Shader

namespace Program

/-- How many of the declarations `ids` are variables of the shader that are called `name`. -/
def namesakes (decls : List Declaration) (ids : List DeclId) (name : Bytes) : Nat :=
  ids.countP fun id => (decls[id]?).any fun d => d.isOrdinary && d.name == name

end Program

namespace Symbols

open Program (Visit namesakes)

/-! ## The search -/

theorem isTaken_iff {s : Symbols} {r : Register} :
    s.isTaken r = true ↔ r ∈ s.entries.map (·.2) := by
  simp [isTaken]

/-- The numbers a search passes are taken, and so is the one it stops at if it has run out. -/
theorem seek_spec (s : Symbols) (name : Bytes) (budget n : Nat)
    (hn : ∀ k < n, .user name k ∈ s.entries.map (·.2)) :
    (∀ k < s.seek name budget n, .user name k ∈ s.entries.map (·.2)) ∧
      (.user name (s.seek name budget n) ∈ s.entries.map (·.2) →
        s.seek name budget n = n + budget) := by
  induction budget generalizing n with
  | zero => exact ⟨hn, fun _ => rfl⟩
  | succ budget ih =>
    rw [seek]
    split
    · rename_i htaken
      have hnext : ∀ k < n + 1, .user name k ∈ s.entries.map (·.2) := by
        intro k hk
        rcases Nat.lt_or_eq_of_le (Nat.lt_succ_iff.mp hk) with hlt | rfl
        · exact hn k hlt
        · exact isTaken_iff.mp htaken
      obtain ⟨hpassed, hend⟩ := ih (n + 1) hnext
      exact ⟨hpassed, fun hmem => by rw [hend hmem]; omega⟩
    · rename_i hfree
      exact ⟨hn, fun hmem => absurd (isTaken_iff.mpr hmem) hfree⟩

/-- **The search finds the first number that is free**, in any table: its budget is not used up,
since a table has no more numbers than entries. -/
theorem firstFree_spec (s : Symbols) (name : Bytes) :
    .user name (s.firstFree name) ∉ s.entries.map (·.2) ∧
      ∀ k < s.firstFree name, .user name k ∈ s.entries.map (·.2) := by
  obtain ⟨hpassed, hend⟩ := seek_spec s name s.entries.length 0 (by simp)
  refine ⟨fun hmem => ?_, hpassed⟩
  have hlen : s.firstFree name = s.entries.length := (hend hmem).trans (Nat.zero_add _)
  -- all numbers up to the count of the entries would be taken, which is one more than there are
  have hsub : (List.range (s.entries.length + 1)).map (Register.user name) ⊆
      s.entries.map (·.2) := by
    intro r hr
    obtain ⟨k, hk, rfl⟩ := List.mem_map.mp hr
    rcases Nat.lt_or_eq_of_le (Nat.lt_succ_iff.mp (List.mem_range.mp hk)) with hlt | rfl
    · exact hpassed k (Nat.lt_of_lt_of_eq hlt hlen.symm)
    · exact hlen ▸ hmem
  have hnodup : ((List.range (s.entries.length + 1)).map (Register.user name)).Nodup :=
    List.nodup_range.map fun _ _ h => (Register.user.inj h).2
  have hle := (hnodup.subperm hsub).length_le
  rw [List.length_map, List.length_range, List.length_map] at hle
  omega

/-! ## Visits -/

/-- The table with one more entry. -/
def extend (s : Symbols) (id : DeclId) (r : Register) : Symbols := ⟨s.entries ++ [(id, r)]⟩

theorem register?_eq_none_iff {s : Symbols} {id : DeclId} :
    s.register? id = none ↔ id ∉ s.entries.map (·.1) := by
  rw [register?, List.lookup_eq_none_iff]
  constructor
  · intro h hmem
    obtain ⟨e, he, rfl⟩ := List.mem_map.mp hmem
    simpa using h e he
  · intro h e he
    refine bne_iff_ne.mpr fun heq => h ?_
    rw [heq]
    exact List.mem_map_of_mem he

/-- What a visit that succeeds has done: it has listed a declaration for the first time, or met a
place of no declaration. -/
theorem add_eq_ok {decls : List Declaration} {s s' : Symbols} {v : Visit}
    (h : add decls s v = .ok s') :
    ∃ id, v = .decl id ∧ ((decls[id]? = none ∧ s' = s) ∨
      ∃ d r, decls[id]? = some d ∧ id ∉ s.entries.map (·.1) ∧ s.assign d = .ok r ∧
        s' = s.extend id r) := by
  cases v with
  | absent => cases h
  | decl id =>
    refine ⟨id, rfl, ?_⟩
    rw [add] at h
    split at h
    · rename_i hd
      cases h
      exact .inl ⟨hd, rfl⟩
    · rename_i d hd
      split at h
      · cases h
      · rename_i hnone
        have hnew : id ∉ s.entries.map (·.1) :=
          register?_eq_none_iff.mp (Option.not_isSome_iff_eq_none.mp hnone)
        cases hassign : s.assign d with
        | error e =>
          rw [hassign] at h
          cases h
        | ok r =>
          rw [hassign] at h
          cases h
          exact .inr ⟨d, r, hd, hnew, hassign, rfl⟩

/-- A declaration that is not listed yet is, with the register that it is assigned. -/
theorem add_of_assign {decls : List Declaration} {s : Symbols} {id : DeclId} {d : Declaration}
    {r : Register} (hid : id ∉ s.entries.map (·.1)) (hd : decls[id]? = some d)
    (hr : s.assign d = .ok r) : add decls s (.decl id) = .ok (s.extend id r) := by
  rw [add, hd]
  dsimp only
  rw [if_neg (by rw [register?_eq_none_iff.mpr hid]; simp), hr]
  rfl

/-- What holds along a walk, by what each visit does. -/
theorem foldlM_add_induction {decls : List Declaration} {P : List Visit → Symbols → Prop}
    (hstep : ∀ vs v s s', P vs s → add decls s v = .ok s' → P (vs ++ [v]) s') (vs : List Visit) :
    ∀ {us : List Visit} {s s' : Symbols}, P us s → vs.foldlM (add decls) s = .ok s' →
      P (us ++ vs) s' := by
  induction vs with
  | nil =>
    intro us s s' hs h
    cases h
    rw [List.append_nil]
    exact hs
  | cons v vs ih =>
    intro us s s' hs h
    rw [List.foldlM_cons] at h
    cases hadd : add decls s v with
    | error e =>
      rw [hadd] at h
      cases h
    | ok s₁ =>
      rw [hadd] at h
      have hrest := ih (hstep us v s s₁ hs hadd) h
      rwa [List.append_assoc, List.singleton_append] at hrest

/-- A symbol table is what the visits of its program have made of an empty one. -/
theorem build_induction {p : Program} {P : List Visit → Symbols → Prop} (hempty : P [] {})
    (hstep : ∀ vs v s s', P vs s → add p.decls s v = .ok s' → P (vs ++ [v]) s') {s : Symbols}
    (h : build p = .ok s) : P p.visits s :=
  foldlM_add_induction hstep p.visits hempty h

/-! ## The entries of a table -/

/-- A list of entries in which each follows from those before it: a variable of the shader has the
number of its namesakes before it, and any other has the hardware register of its name, which none
before it has. -/
inductive Listed (decls : List Declaration) : List (DeclId × Register) → Prop where
  | nil : Listed decls []
  | own {l : List (DeclId × Register)} {id : DeclId} {d : Declaration} :
      Listed decls l → id ∉ l.map (·.1) → decls[id]? = some d → d.isOrdinary = true →
      Listed decls (l ++ [(id, .user d.name (namesakes decls (l.map (·.1)) d.name))])
  | hardware {l : List (DeclId × Register)} {id : DeclId} {d : Declaration} {h : Hardware} :
      Listed decls l → id ∉ l.map (·.1) → decls[id]? = some d → d.isOrdinary = false →
      Hardware.ofName? d.name = some h → .hardware h ∉ l.map (·.2) →
      Listed decls (l ++ [(id, .hardware h)])

section Listed

variable {decls : List Declaration} {l : List (DeclId × Register)} {s s' : Symbols}

theorem namesakes_append (ids ids' : List DeclId) (name : Bytes) :
    namesakes decls (ids ++ ids') name = namesakes decls ids name + namesakes decls ids' name :=
  List.countP_append

theorem namesakes_own {id : DeclId} {d : Declaration} (hd : decls[id]? = some d)
    (ho : d.isOrdinary = true) (name : Bytes) :
    namesakes decls [id] name = if d.name == name then 1 else 0 := by
  simp [namesakes, List.countP_cons, hd, ho]

theorem namesakes_other {id : DeclId} {d : Declaration} (hd : decls[id]? = some d)
    (ho : d.isOrdinary = false) (name : Bytes) : namesakes decls [id] name = 0 := by
  simp [namesakes, hd, ho]

/-- **The numbers of a name have no gaps**: those that are taken are those below its count. -/
theorem Listed.user_mem_iff (h : Listed decls l) (name : Bytes) (k : Nat) :
    .user name k ∈ l.map (·.2) ↔ k < namesakes decls (l.map (·.1)) name := by
  induction h with
  | nil => simp [namesakes]
  | @own l id d _ _ hd ho ih =>
    rw [List.map_append, List.map_append, List.mem_append, ih, namesakes_append, List.map_singleton,
      List.map_singleton, List.mem_singleton, namesakes_own hd ho, Register.user.injEq]
    by_cases hname : d.name = name
    · subst hname
      simp only [true_and, beq_self_eq_true, if_true]
      omega
    · simp [hname, Ne.symm hname]
  | @hardware l id d h _ _ hd ho _ _ ih =>
    rw [List.map_append, List.map_append, List.mem_append, ih, namesakes_append, List.map_singleton,
      List.map_singleton, List.mem_singleton, namesakes_other hd ho]
    simp

/-- What the search finds is the count of the namesakes. -/
theorem Listed.firstFree (h : Listed decls s.entries) (name : Bytes) :
    s.firstFree name = namesakes decls (s.entries.map (·.1)) name := by
  obtain ⟨hfree, htaken⟩ := firstFree_spec s name
  rw [h.user_mem_iff] at hfree
  refine Nat.le_antisymm (Nat.not_lt.mp fun hlt => ?_) (Nat.not_lt.mp hfree)
  exact Nat.lt_irrefl _ ((h.user_mem_iff name _).mp (htaken _ hlt))

/-- A visit lists by the rules. -/
theorem Listed.add (hs : Listed decls s.entries) {v : Visit}
    (h : Symbols.add decls s v = .ok s') : Listed decls s'.entries := by
  obtain ⟨id, rfl, ⟨hd, rfl⟩ | ⟨d, r, hd, hnew, hr, rfl⟩⟩ := add_eq_ok h
  · exact hs
  · rw [assign] at hr
    split at hr
    · rename_i ho
      cases hr
      rw [hs.firstFree]
      exact .own hs hnew hd ho
    · rename_i ho
      split at hr
      · cases hr
      · rename_i hw hname
        split at hr
        · cases hr
        · rename_i hfree
          cases hr
          exact .hardware hs hnew hd (by simpa using ho) hname fun hmem =>
            hfree (isTaken_iff.mpr hmem)

theorem listed_build {p : Program} (h : build p = .ok s) : Listed p.decls s.entries :=
  build_induction (P := fun _ s => Listed p.decls s.entries) .nil
    (fun _ _ _ _ hs hadd => hs.add hadd) h

/-- No declaration is listed twice. -/
theorem Listed.ids_nodup (h : Listed decls l) : (l.map (·.1)).Nodup := by
  induction h with
  | nil => exact List.nodup_nil
  | own _ hnew _ _ ih | hardware _ hnew _ _ _ _ ih =>
    rw [List.map_append, List.map_singleton]
    refine List.nodup_append.mpr ⟨ih, by simp, ?_⟩
    simpa using fun e he => ne_of_mem_of_not_mem he hnew

/-- No register is given twice. -/
theorem Listed.regs_nodup (h : Listed decls l) : (l.map (·.2)).Nodup := by
  have hsnoc : ∀ {l : List Register} {r : Register}, l.Nodup → r ∉ l → (l ++ [r]).Nodup :=
    fun hl hr => List.nodup_append.mpr
      ⟨hl, by simp, by simpa using fun e he => ne_of_mem_of_not_mem he hr⟩
  induction h with
  | nil => exact List.nodup_nil
  | @own l id d hl _ _ _ ih =>
    rw [List.map_append, List.map_singleton]
    refine hsnoc ih fun hmem => ?_
    exact Nat.lt_irrefl _ ((hl.user_mem_iff d.name _).mp hmem)
  | hardware _ _ _ _ _ hnew ih =>
    rw [List.map_append, List.map_singleton]
    exact hsnoc ih hnew

end Listed

/-! ## Sound tables -/

/-- The kind of register a declaration has: a variable of the shader one of its own name, and a
predefined variable that of its hardware. -/
inductive Fitting : Declaration → Register → Prop where
  | own {d : Declaration} (k : Nat) : d.isOrdinary = true → Fitting d (.user d.name k)
  | hardware (h : Hardware) : Fitting (.ofHardware h) (.hardware h)

/-- A table that was built by the rules, in which each register fits its declaration. -/
structure Sound (decls : List Declaration) (s : Symbols) : Prop where
  listed : Listed decls s.entries
  /-- Each register fits its declaration. -/
  fitting : ∀ e ∈ s.entries, ∃ d, decls[e.1]? = some d ∧ Fitting d e.2

theorem sound_empty (decls : List Declaration) : Sound decls {} where
  listed := .nil
  fitting := by simp

section Step

variable {decls : List Declaration} {s : Symbols} {id : DeclId}

theorem Sound.ids (hs : Sound decls s) : (s.entries.map (·.1)).Nodup := hs.listed.ids_nodup

theorem Sound.regs (hs : Sound decls s) : (s.entries.map (·.2)).Nodup := hs.listed.regs_nodup

/-- A visit that assigns a fitting register keeps a table sound. -/
theorem Sound.add {d : Declaration} {r : Register} (hs : Sound decls s)
    (hid : id ∉ s.entries.map (·.1)) (hd : decls[id]? = some d) (hr : s.assign d = .ok r)
    (hfit : Fitting d r) :
    ∃ s', Symbols.add decls s (.decl id) = .ok s' ∧ Sound decls s' ∧
      s'.entries.map (·.1) = s.entries.map (·.1) ++ [id] := by
  have hadd := add_of_assign hid hd hr
  refine ⟨s.extend id r, hadd, ⟨hs.listed.add hadd, fun e he => ?_⟩, by simp [extend]⟩
  rcases List.mem_append.mp he with he | he
  · exact hs.fitting e he
  · cases List.mem_singleton.mp he
    exact ⟨d, hd, hfit⟩

/-- A variable of the shader gets the next copy of its name. -/
theorem Sound.add_own {d : Declaration} (hs : Sound decls s) (hid : id ∉ s.entries.map (·.1))
    (hd : decls[id]? = some d) (ho : d.isOrdinary = true) :
    ∃ s', Symbols.add decls s (.decl id) = .ok s' ∧ Sound decls s' ∧
      s'.entries.map (·.1) = s.entries.map (·.1) ++ [id] :=
  hs.add hid hd (by rw [assign, if_pos ho]) (.own _ ho)

/-- A predefined variable gets its hardware register. -/
theorem Sound.add_hardware {h : Hardware} (hs : Sound decls s) (hid : id ∉ s.entries.map (·.1))
    (hd : decls[id]? = some (.ofHardware h))
    (honly : ∀ id', decls[id']? = some (.ofHardware h) → id' = id) :
    ∃ s', Symbols.add decls s (.decl id) = .ok s' ∧ Sound decls s' ∧
      s'.entries.map (·.1) = s.entries.map (·.1) ++ [id] := by
  have ho : (Declaration.ofHardware h).isOrdinary = false := by cases h <;> rfl
  have hname : Hardware.ofName? (Declaration.ofHardware h).name = some h := by cases h <;> rfl
  have hnew : ¬s.isTaken (.hardware h) = true := by
    rw [isTaken_iff]
    intro hmem
    obtain ⟨e, he, heq⟩ := List.mem_map.mp hmem
    obtain ⟨d, hd', hfit⟩ := hs.fitting e he
    rw [heq] at hfit
    cases hfit
    exact hid (honly _ hd' ▸ List.mem_map_of_mem he)
  refine hs.add hid hd ?_ (.hardware h)
  rw [assign, if_neg (by rw [ho]; simp), hname]
  dsimp only
  rw [if_neg hnew]

end Step

/-- **Declarations visited once each all get registers**, in the order of the visits. -/
theorem exists_sound_foldlM {decls : List Declaration}
    (hkind : ∀ (id : DeclId) (d : Declaration), decls[id]? = some d → d.isOrdinary = true ∨
      ∃ h, d = .ofHardware h ∧ ∀ id' : DeclId, decls[id']? = some (.ofHardware h) → id' = id) :
    ∀ (ids : List DeclId) (s : Symbols), Sound decls s → (s.entries.map (·.1) ++ ids).Nodup →
      (∀ id ∈ ids, id < decls.length) →
      ∃ s', (ids.map Visit.decl).foldlM (add decls) s = .ok s' ∧ Sound decls s' ∧
        s'.entries.map (·.1) = s.entries.map (·.1) ++ ids
  | [], s, hs, _, _ => ⟨s, rfl, hs, by simp⟩
  | id :: ids, s, hs, hnodup, hlt => by
    have hid : id ∉ s.entries.map (·.1) := fun hmem =>
      (List.nodup_append.mp hnodup).2.2 id hmem id (by simp) rfl
    have hd := List.getElem?_eq_getElem (hlt id (by simp))
    have hstep : ∃ s', add decls s (.decl id) = .ok s' ∧ Sound decls s' ∧
        s'.entries.map (·.1) = s.entries.map (·.1) ++ [id] := by
      rcases hkind id _ hd with ho | ⟨h, heq, honly⟩
      · exact hs.add_own hid hd ho
      · exact hs.add_hardware hid (heq ▸ hd) honly
    obtain ⟨s₁, hadd, hs₁, hids₁⟩ := hstep
    obtain ⟨s₂, hrest, hs₂, hids₂⟩ := exists_sound_foldlM hkind ids s₁ hs₁
      (by rw [hids₁, List.append_assoc]; exact hnodup) fun i hi => hlt i (by simp [hi])
    refine ⟨s₂, ?_, hs₂, by rw [hids₂, hids₁, List.append_assoc]; rfl⟩
    rw [List.map_cons, List.foldlM_cons, hadd]
    exact hrest

/-! ## Looking up registers -/

/-- What stands in a list with distinct keys is found in it. -/
theorem lookup_of_mem {β γ : Type} [BEq β] [LawfulBEq β] {l : List (β × γ)} {b : β} {c : γ}
    (hl : (l.map (·.1)).Nodup) (h : (b, c) ∈ l) : l.lookup b = some c := by
  induction l with
  | nil => simp at h
  | cons e l ih =>
    obtain ⟨b', c'⟩ := e
    rw [List.map_cons, List.nodup_cons] at hl
    rw [List.lookup_cons]
    rcases List.mem_cons.mp h with heq | h
    · simp only [Prod.mk.injEq] at heq
      rw [heq.1, heq.2, beq_self_eq_true]
    · have hne : (b == b') = false := by
        refine beq_eq_false_iff_ne.mpr fun heq => hl.1 ?_
        exact List.mem_map.mpr ⟨(b, c), h, heq⟩
      rw [hne]
      exact ih hl.2 h

/-- A register that is found is that of an entry. -/
theorem mem_of_register? {s : Symbols} {id : DeclId} {r : Register}
    (h : s.register? id = some r) : (id, r) ∈ s.entries := by
  obtain ⟨l₁, l₂, heq, -⟩ := List.lookup_eq_some_iff.mp h
  rw [heq]
  simp

variable {decls : List Declaration} {s : Symbols}

theorem Sound.register? (hs : Sound decls s) {id : DeclId} {r : Register}
    (h : (id, r) ∈ s.entries) : s.register? id = some r := lookup_of_mem hs.ids h

/-- No two declarations share a register. -/
theorem Sound.injective (hs : Sound decls s) {id id' : DeclId} {r : Register}
    (h : s.register? id = some r) (h' : s.register? id' = some r) : id = id' := by
  have hsame : (id, r) = (id', r) :=
    List.inj_on_of_nodup_map hs.regs (mem_of_register? h) (mem_of_register? h') rfl
  exact congrArg Prod.fst hsame

end Symbols

end Shader
