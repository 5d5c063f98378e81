import Shader.Proofs.SymbolTable
import Shader.Proofs.TypeSystem
import Shader.Reduce

/-!
# What is known of an accepted program

The derivation of a program speaks of contexts, and code generation of the table and of registers.
`Accepted` is what lies between them: every declaration has a register of its own, the initializer
of a variable was typed in a context of variables declared before it, and behind the shader's own
declarations stand the predefined ones.

That an initializer only sees what was declared before it is why constants do not depend on
themselves.
-/

namespace Shader

open TypeSystem

namespace TypeSystem

/-- A context as it stands where the declaration at `next` is read: its variables are in the table,
and each of them is predefined, at `n` or behind, or was declared before. -/
structure Fits (decls : List Declaration) (n next : Nat) (Γ : Context) : Prop where
  named : Γ.Named
  lists : Lists decls Γ
  below : ∀ b ∈ Γ, ∀ p ∈ b, p.2.id < next ∨ n ≤ p.2.id

/-- A table that has given entries from a place on. -/
def Holds (decls : List Declaration) (next : Nat) (ds : List Declaration) : Prop :=
  ∀ (i : Nat) (d : Declaration), ds[i]? = some d → decls[next + i]? = some d

section Fits

variable {decls : List Declaration} {n next : Nat} {Γ Γ' : Context}

/-- A table with entries in a row has each part of the row in its place. -/
theorem Holds.append {ds es : List Declaration} (h : Holds decls next (ds ++ es)) :
    Holds decls next ds ∧ Holds decls (next + ds.length) es := by
  constructor
  · intro i d hd
    have hi : i < ds.length := (List.getElem?_eq_some_iff.mp hd).1
    exact h i d (by rw [List.getElem?_append_left hi, hd])
  · intro i d hd
    rw [Nat.add_assoc]
    exact h (ds.length + i) d (by rw [List.getElem?_append_right (by omega)]; simpa using hd)

theorem Holds.tail {d : Declaration} {ds : List Declaration} (h : Holds decls next (d :: ds)) :
    Holds decls (next + 1) ds := by
  intro i e he
  rw [Nat.add_assoc, Nat.add_comm 1 i]
  exact h (i + 1) e he

theorem Fits.mono {next' : Nat} (h : Fits decls n next Γ) (hle : next ≤ next') :
    Fits decls n next' Γ where
  named := h.named
  lists := h.lists
  below := fun b hb p hp => (h.below b hb p hp).imp (fun hlt => Nat.lt_of_lt_of_le hlt hle) id

theorem Fits.push (h : Fits decls n next Γ) : Fits decls n next ([] :: Γ) where
  named := h.named.push
  lists := h.lists.push
  below := by
    intro b hb p hp
    rcases List.mem_cons.mp hb with rfl | hb
    · simp at hp
    · exact h.below b hb p hp

/-- A declaration puts its variable into the context, and what is read next may see it. -/
theorem Fits.declare {b : Block} {d : Declaration} (h : Fits decls n next (b :: Γ))
    (hd : decls[next]? = some d) (ht : Named d.type) :
    Fits decls n (next + 1) (b.declare next d :: Γ) where
  named := h.named.declare ht
  lists := h.lists.declare hd
  below := by
    intro c hc p hp
    rcases List.mem_cons.mp hc with rfl | hc
    · rcases List.mem_cons.mp hp with rfl | hp
      · exact .inl (Nat.lt_succ_self next)
      · exact (h.below b (by simp) p hp).imp Nat.lt_succ_of_lt id
    · exact (h.below c (by simp [hc]) p hp).imp Nat.lt_succ_of_lt id

/-- The predefined variables stand at `n` and behind, and may be seen from everywhere. -/
theorem Fits.declareAll {b : Block} {id : Nat} {ds : List Declaration}
    (h : Fits decls n next (b :: Γ)) (hds : Holds decls id ds) (hn : n ≤ id)
    (ht : ∀ d ∈ ds, Named d.type) : Fits decls n next (b.declareAll id ds :: Γ) := by
  induction ds generalizing b id with
  | nil => exact h
  | cons d ds ih =>
    have hd : decls[id]? = some d := hds 0 d rfl
    have hstep : Fits decls n next (b.declare id d :: Γ) :=
      { named := h.named.declare (ht d (by simp))
        lists := h.lists.declare hd
        below := by
          intro c hc p hp
          rcases List.mem_cons.mp hc with rfl | hc
          · rcases List.mem_cons.mp hp with rfl | hp
            · exact .inr hn
            · exact h.below b (by simp) p hp
          · exact h.below c (by simp [hc]) p hp }
    have hrest : Holds decls (id + 1) ds := hds.tail
    exact ih hstep hrest (by omega) fun d hd => ht d (by simp [hd])

/-- Behind declarations in a row the context has all of them. -/
theorem Fits.declsTyped {ds : List Ast.Decl} {ds' : List Declaration}
    (h : DeclsTyped next Γ ds ds' Γ') (hΓ : Fits decls n next Γ) (hds : Holds decls next ds') :
    Fits decls n (next + ds'.length) Γ' := by
  induction h with
  | nil => exact hΓ
  | @cons next b Γ Γ' d d' ds ds' hd hnew _ ih =>
    have hrest : Holds decls (next + 1) ds' := hds.tail
    have hfit := ih (hΓ.declare (hds 0 d' rfl) hd.named) hrest
    rw [List.length_cons, Nat.add_comm ds'.length 1, ← Nat.add_assoc]
    exact hfit

/-- An entry of the table that was typed in a context of what was declared before it. -/
def Derived (decls : List Declaration) (n id : Nat) (d : Declaration) : Prop :=
  ∃ Γ a, DeclTyped Γ a d ∧ Fits decls n id Γ

/-- **Each of these declarations was typed by what stands before it**: its context is the one that
the induction has come to. -/
theorem derived_of_declsTyped {ds : List Ast.Decl} {ds' : List Declaration}
    (h : DeclsTyped next Γ ds ds' Γ') (hΓ : Fits decls n next Γ) (hds : Holds decls next ds')
    {i : Nat} {d : Declaration} (hi : ds'[i]? = some d) : Derived decls n (next + i) d := by
  induction h generalizing i with
  | nil => simp at hi
  | @cons next b Γ Γ' a d' ds ds' hd hnew _ ih =>
    cases i with
    | zero =>
      cases hi
      exact ⟨_, a, hd, hΓ⟩
    | succ i =>
      have hrest : Holds decls (next + 1) ds' := hds.tail
      have hi : ds'[i]? = some d := hi
      rw [Nat.add_comm i 1, ← Nat.add_assoc]
      exact ih (hΓ.declare (hds 0 d' rfl) hd.named) hrest hi

mutual

/-- Every declaration of a typed statement was typed in a context of what was declared before it. -/
theorem derived_of_stmtTyped :
    ∀ {Γ : Context} {next : DeclId} {st : Ast.Stmt} {st' : Program.Stmt} {ds : List Declaration},
      StmtTyped Γ next st st' ds → Fits decls n next Γ → Holds decls next ds →
      ∀ (i : Nat) (d : Declaration), ds[i]? = some d → Derived decls n (next + i) d
  | _, _, _, _, _, .assign _ _ _, _, _, _, _, hd => by simp at hd
  | _, _, _, _, _, .ifThen _ hst, hΓ, hds, i, d, hd => derived_of_stmtTyped hst hΓ hds i d hd
  | _, next, _, _, _, @StmtTyped.ifElse _ _ _ _ _ _ _ _ ds _ _ hst hno, hΓ, hds, i, d, hd => by
    rcases Nat.lt_or_ge i ds.length with hi | hi
    · rw [List.getElem?_append_left hi] at hd
      exact derived_of_stmtTyped hst hΓ hds.append.1 i d hd
    · rw [List.getElem?_append_right hi] at hd
      have hrest := derived_of_stmtTyped hno (hΓ.mono (Nat.le_add_right _ _)) hds.append.2 _ d hd
      rwa [Nat.add_assoc, Nat.add_sub_cancel' hi] at hrest
  | _, _, _, _, _, .loop _ hst, hΓ, hds, i, d, hd => derived_of_stmtTyped hst hΓ hds i d hd
  | _, _, _, _, _, @StmtTyped.scope _ _ _ _ ds _ _ _ hdecls hss, hΓ, hds, i, d, hd => by
    rcases Nat.lt_or_ge i ds.length with hi | hi
    · rw [List.getElem?_append_left hi] at hd
      exact derived_of_declsTyped hdecls hΓ.push hds.append.1 hd
    · rw [List.getElem?_append_right hi] at hd
      have hrest := derived_of_stmtsTyped hss (Fits.declsTyped hdecls hΓ.push hds.append.1)
        hds.append.2 _ d hd
      rwa [Nat.add_assoc, Nat.add_sub_cancel' hi] at hrest

theorem derived_of_stmtsTyped :
    ∀ {Γ : Context} {next : DeclId} {ss : List Ast.Stmt} {ss' : List Program.Stmt}
      {ds : List Declaration},
      StmtsTyped Γ next ss ss' ds → Fits decls n next Γ → Holds decls next ds →
      ∀ (i : Nat) (d : Declaration), ds[i]? = some d → Derived decls n (next + i) d
  | _, _, _, _, _, .nil, _, _, _, _, hd => by simp at hd
  | _, _, _, _, _, @StmtsTyped.cons _ _ _ _ _ _ ds _ hst hss, hΓ, hds, i, d, hd => by
    rcases Nat.lt_or_ge i ds.length with hi | hi
    · rw [List.getElem?_append_left hi] at hd
      exact derived_of_stmtTyped hst hΓ hds.append.1 i d hd
    · rw [List.getElem?_append_right hi] at hd
      have hrest := derived_of_stmtsTyped hss (hΓ.mono (Nat.le_add_right _ _)) hds.append.2 _ d hd
      rwa [Nat.add_assoc, Nat.add_sub_cancel' hi] at hrest

end

end Fits

/-! ## The order of the table -/

open Program (Visit)

theorem map_range'_append (f : Nat → Visit) (next k m : Nat) :
    (List.range' next k).map f ++ (List.range' (next + k) m).map f =
      (List.range' next (k + m)).map f := by
  rw [← List.map_append, List.range'_append_1]

mutual

/-- A walk meets the declarations of a checked statement in the order of the table. -/
theorem visits_of_stmtTyped :
    ∀ {Γ : Context} {next : DeclId} {st : Ast.Stmt} {st' : Program.Stmt} {ds : List Declaration},
      StmtTyped Γ next st st' ds → st'.visits = (List.range' next ds.length).map .decl
  | _, _, _, _, _, .assign _ _ _ => by rw [Program.Stmt.visits]; rfl
  | _, _, _, _, _, .ifThen _ hst => by rw [Program.Stmt.visits, visits_of_stmtTyped hst]
  | _, _, _, _, _, .ifElse _ hst hno => by
    rw [Program.Stmt.visits, visits_of_stmtTyped hst, visits_of_stmtTyped hno, map_range'_append,
      List.length_append]
  | _, _, _, _, _, .loop _ hst => by rw [Program.Stmt.visits, visits_of_stmtTyped hst]
  | _, _, _, _, _, .scope _ hss => by
    rw [Program.Stmt.visits, visits_of_stmtsTyped hss, map_range'_append, List.length_append]

/-- A walk through typed statements meets their declarations in the order of the table. -/
theorem visits_of_stmtsTyped :
    ∀ {Γ : Context} {next : DeclId} {ss : List Ast.Stmt} {ss' : List Program.Stmt}
      {ds : List Declaration},
      StmtsTyped Γ next ss ss' ds →
      Program.Stmt.listVisits ss' = (List.range' next ds.length).map .decl
  | _, _, _, _, _, .nil => by rw [Program.Stmt.listVisits]; rfl
  | _, _, _, _, _, .cons hst hss => by
    rw [Program.Stmt.listVisits, visits_of_stmtTyped hst, visits_of_stmtsTyped hss,
      map_range'_append, List.length_append]

end

theorem DeclTyped.isOrdinary {Γ : Context} {a : Ast.Decl} {d : Declaration}
    (h : DeclTyped Γ a d) : d.isOrdinary = true := by
  cases h <;> rfl

end TypeSystem

/-! ## Accepted programs -/

/-- What code generation may rely on. The shader's own declarations are those before `n`. -/
structure Accepted (env : Env) (n : Nat) : Prop where
  /-- No register is given twice. -/
  sound : Symbols.Sound env.decls env.symbols
  /-- Every declaration has a register. -/
  listed : ∀ (id : DeclId) (d : Declaration), env.decls[id]? = some d →
    ∃ r, env.symbols.register? id = some r ∧ Symbols.Fitting d r
  /-- The shader's own declarations are typed by what stands before them. -/
  own : ∀ (id : DeclId) (d : Declaration), env.decls[id]? = some d → id < n →
    Derived env.decls n id d
  /-- The others are the predefined ones. -/
  predefined : ∀ (id : DeclId) (d : Declaration), env.decls[id]? = some d → n ≤ id →
    ∃ h, d = .ofHardware h
  /-- There are predefined ones. -/
  room : n < env.decls.length

/-- The body of an accepted program: its declarations `ds`, and statements with declarations
`es`. -/
structure AcceptedBody (env : Env) (n : Nat) (body : Ast.Scope) (ds es : List Declaration)
    (Γ : Context) (stmts : List Program.Stmt) : Prop where
  decls : DeclsTyped 0 [predefinedBlock n] body.decls ds Γ
  stmts : StmtsTyped Γ ds.length body.stmts stmts es
  holds : Holds env.decls 0 (ds ++ es)
  fits : Fits env.decls n 0 [predefinedBlock n]
  /-- The shader's own declarations are these and no others. -/
  count : n = (ds ++ es).length
  /-- The predefined ones stand behind them. -/
  table : env.decls = (ds ++ es) ++ Program.predefinedDecls

/-- Where the statements of the body begin. -/
theorem AcceptedBody.start {env : Env} {n : Nat} {body : Ast.Scope} {ds es : List Declaration}
    {Γ : Context} {stmts : List Program.Stmt} (h : AcceptedBody env n body ds es Γ stmts) :
    Fits env.decls n ds.length Γ ∧ Holds env.decls ds.length es ∧ ds.length + es.length ≤ n := by
  have hfits := Fits.declsTyped h.decls h.fits h.holds.append.1
  have hholds := h.holds.append.2
  rw [Nat.zero_add] at hfits hholds
  exact ⟨hfits, hholds, Nat.le_of_eq (by rw [h.count, List.length_append])⟩

theorem holds_append (before ds after : List Declaration) :
    Holds (before ++ (ds ++ after)) before.length ds := by
  intro i d hd
  have hi : i < ds.length := (List.getElem?_eq_some_iff.mp hd).1
  rw [List.getElem?_append_right (by omega), Nat.add_sub_cancel_left,
    List.getElem?_append_left hi, hd]

theorem ofHardware_injective {h h' : Hardware} (heq : Declaration.ofHardware h = .ofHardware h') :
    h = h' := by
  have hname : h.varName = h'.varName := congrArg Declaration.name heq
  have hof : ∀ hw : Hardware, Hardware.ofName? hw.varName = some hw := by
    intro hw
    cases hw <;> decide +kernel
  exact Option.some.inj (by rw [← hof h, ← hof h', hname])

theorem isOrdinary_ofHardware (h : Hardware) : (Declaration.ofHardware h).isOrdinary = false := by
  cases h <;> rfl

/-- The register of a predefined variable is the hardware register that it is about. -/
theorem eq_hardware_of_fitting {h : Hardware} {r : Register}
    (hfit : Symbols.Fitting (.ofHardware h) r) : r = .hardware h := by
  generalize hd : Declaration.ofHardware h = d at hfit
  cases hfit with
  | own k ho =>
    rw [← hd, isOrdinary_ofHardware] at ho
    cases ho
  | hardware h' => rw [ofHardware_injective hd]

/-- The predefined declarations are those of the hardware registers, in order. -/
theorem hardware_of_predefinedDecls {i : Nat} {d : Declaration}
    (h : Program.predefinedDecls[i]? = some d) :
    ∃ hw, Hardware.all[i]? = some hw ∧ d = .ofHardware hw := by
  rw [Program.predefinedDecls, List.getElem?_map] at h
  obtain ⟨hw, hall, rfl⟩ := Option.map_eq_some_iff.mp h
  exact ⟨hw, hall, rfl⟩

/-- A hardware register has one place among the predefined variables. -/
theorem predefinedDecls_unique {i j : Nat} {hw : Hardware}
    (hi : Program.predefinedDecls[i]? = some (.ofHardware hw))
    (hj : Program.predefinedDecls[j]? = some (.ofHardware hw)) : i = j := by
  obtain ⟨h₁, hall₁, heq₁⟩ := hardware_of_predefinedDecls hi
  obtain ⟨h₂, hall₂, heq₂⟩ := hardware_of_predefinedDecls hj
  have hsame : h₁ = h₂ := (ofHardware_injective heq₁).symm.trans (ofHardware_injective heq₂)
  have hlt : i < Hardware.all.length := (List.getElem?_eq_some_iff.mp hall₁).1
  exact (List.getElem?_inj hlt (by decide)).mp (by rw [hall₁, hall₂, hsame])

section Table

variable {own : List Declaration}

/-- The places of the table are the shader's own and behind them the predefined ones. -/
theorem getElem?_own {id : Nat} (hid : id < own.length) :
    (own ++ Program.predefinedDecls)[id]? = own[id]? := List.getElem?_append_left hid

theorem getElem?_predefined {id : Nat} (hid : own.length ≤ id) :
    (own ++ Program.predefinedDecls)[id]? = Program.predefinedDecls[id - own.length]? :=
  List.getElem?_append_right hid

/-- The declarations of a program in the order of the walk have registers. -/
theorem exists_sound_build (hown : ∀ d ∈ own, d.isOrdinary = true) (body : Program.Scope)
    (hvisits : (Program.Stmt.scope body.decls body.stmts).visits =
      (List.range' 0 own.length).map .decl) :
    ∃ symbols, Symbols.build
        { decls := own ++ Program.predefinedDecls
          predefined := some (List.range' own.length Program.predefinedDecls.length)
          body := some body } = .ok symbols ∧
      Symbols.Sound (own ++ Program.predefinedDecls) symbols ∧
      ∀ id < (own ++ Program.predefinedDecls).length, id ∈ symbols.entries.map (·.1) := by
  -- every place of the table is a variable of the shader or the only one of its hardware
  have hkind : ∀ (id : DeclId) (d : Declaration), (own ++ Program.predefinedDecls)[id]? = some d →
      d.isOrdinary = true ∨ ∃ h, d = .ofHardware h ∧ ∀ id' : DeclId,
        (own ++ Program.predefinedDecls)[id']? = some (.ofHardware h) → id' = id := by
    intro id d hd
    rcases Nat.lt_or_ge id own.length with hid | hid
    · rw [getElem?_own hid] at hd
      exact .inl (hown d (List.mem_of_getElem? hd))
    · rw [getElem?_predefined hid] at hd
      obtain ⟨hw, -, rfl⟩ := hardware_of_predefinedDecls hd
      refine .inr ⟨hw, rfl, fun id' hd' => ?_⟩
      rcases Nat.lt_or_ge id' own.length with hid' | hid'
      · rw [getElem?_own hid'] at hd'
        have := hown _ (List.mem_of_getElem? hd')
        rw [isOrdinary_ofHardware] at this
        cases this
      · rw [getElem?_predefined hid'] at hd'
        have hplace := predefinedDecls_unique hd' hd
        rw [← Nat.sub_add_cancel hid', hplace, Nat.sub_add_cancel hid]
  have hmem : ∀ id : Nat, id ∈ List.range' own.length Program.predefinedDecls.length ++
      List.range' 0 own.length ↔ id < (own ++ Program.predefinedDecls).length := by
    intro id
    simp only [List.mem_append, List.mem_range'_1, List.length_append]
    omega
  have hnodup : (List.range' own.length Program.predefinedDecls.length ++
      List.range' 0 own.length).Nodup := by
    refine List.nodup_append.mpr ⟨List.nodup_range', List.nodup_range', ?_⟩
    intro i hi j hj heq
    have hi := List.mem_range'_1.mp hi
    have hj := List.mem_range'_1.mp hj
    omega
  -- the walk meets the predefined variables first
  obtain ⟨symbols, hrun, hsound, hids⟩ := Symbols.exists_sound_foldlM hkind
    (List.range' own.length Program.predefinedDecls.length ++ List.range' 0 own.length) {}
    (Symbols.sound_empty _) hnodup fun id hid => (hmem id).mp hid
  refine ⟨symbols, ?_, hsound, fun id hid => ?_⟩
  · rw [List.map_append, ← hvisits] at hrun
    exact hrun
  · rw [hids]
    exact (hmem id).mpr hid

end Table

/-- **A checked program is accepted**: it has a symbol table, and its declarations are where code
generation looks for them. -/
theorem accepted_of_elaborates {body : Ast.Scope} {p : Program} (h : Elaborates body p) :
    ∃ symbols n ds es Γ stmts, Symbols.build p = .ok symbols ∧
      p.body = some ⟨List.range' 0 ds.length, stmts⟩ ∧ Accepted ⟨p.decls, symbols⟩ n ∧
      AcceptedBody ⟨p.decls, symbols⟩ n body ds es Γ stmts := by
  cases h with
  | @mk decls stmts Γ ds es stmts' hds hss =>
    have hholds : Holds ((ds ++ es) ++ Program.predefinedDecls) 0 (ds ++ es) :=
      holds_append [] (ds ++ es) _
    have hpre : Holds ((ds ++ es) ++ Program.predefinedDecls) (ds ++ es).length
        Program.predefinedDecls := by
      have := holds_append (ds ++ es) Program.predefinedDecls []
      rwa [List.append_nil] at this
    have hempty : Fits ((ds ++ es) ++ Program.predefinedDecls) (ds ++ es).length 0 [[]] := by
      constructor <;> intro b hb p hp <;> simp_all
    have hfits := hempty.declareAll hpre (Nat.le_refl _) named_predefinedDecls
    -- an entry belongs to the outermost block or to one of its statements
    have hderived : ∀ (id : DeclId) (d : Declaration), (ds ++ es)[id]? = some d →
        Derived ((ds ++ es) ++ Program.predefinedDecls) (ds ++ es).length id d := by
      intro id d hd
      rcases Nat.lt_or_ge id ds.length with hid | hid
      · rw [List.getElem?_append_left hid] at hd
        have := derived_of_declsTyped hds hfits hholds.append.1 hd
        rwa [Nat.zero_add] at this
      · rw [List.getElem?_append_right hid] at hd
        have hΓ := Fits.declsTyped hds hfits hholds.append.1
        have hes := hholds.append.2
        rw [Nat.zero_add] at hΓ hes
        have := derived_of_stmtsTyped hss hΓ hes _ d hd
        rwa [Nat.add_sub_cancel' hid] at this
    have hown : ∀ d ∈ ds ++ es, d.isOrdinary = true := by
      intro d hd
      obtain ⟨i, hi⟩ := List.getElem?_of_mem hd
      obtain ⟨Γ', a, hdecl, -⟩ := hderived i d hi
      exact hdecl.isOrdinary
    have hvisits : (Program.Stmt.scope (List.range' 0 ds.length) stmts').visits =
        (List.range' 0 (ds ++ es).length).map .decl := by
      have := map_range'_append .decl 0 ds.length es.length
      rw [Nat.zero_add] at this
      rw [Program.Stmt.visits, visits_of_stmtsTyped hss, this, List.length_append]
    -- a walk over the body meets the entries in the order of the table
    obtain ⟨symbols, hbuild, hsound, hlisted⟩ := exists_sound_build hown
      ⟨List.range' 0 ds.length, stmts'⟩ hvisits
    refine ⟨symbols, (ds ++ es).length, ds, es, Γ, stmts', hbuild, rfl, ?_,
      ⟨hds, hss, hholds, hfits, rfl, rfl⟩⟩
    exact
      { sound := hsound
        listed := by
          intro id d hd
          obtain ⟨e, he, rfl⟩ := List.mem_map.mp (hlisted id (List.getElem?_eq_some_iff.mp hd).1)
          obtain ⟨d', hd', hfit⟩ := hsound.fitting e he
          have hsame : d' = d := Option.some.inj (hd'.symm.trans hd)
          exact ⟨e.2, hsound.register? he, hsame ▸ hfit⟩
        own := by
          intro id d hd hid
          exact hderived id d ((getElem?_own hid).symm.trans hd)
        predefined := by
          intro id d hd hid
          obtain ⟨hw, -, heq⟩ :=
            hardware_of_predefinedDecls ((getElem?_predefined hid).symm.trans hd)
          exact ⟨hw, heq⟩
        room := by
          show (ds ++ es).length < ((ds ++ es) ++ Program.predefinedDecls).length
          have hpos : 0 < Program.predefinedDecls.length := by decide
          simp only [List.length_append]
          omega }

end Shader
