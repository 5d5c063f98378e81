import Shader.Proofs.RegisterNames
import Shader.Proofs.SymbolTable

/-!
# A table is a bijection

The table of a program, checked or not and with whatever names, lists every declaration once, and a
declaration and the name of its register say each other. The name can be told without the table: the
variable `x` that has `k` namesakes before it is `$x_k`.

A table grows by one entry at a time, and what an entry is depends on those before it only, so the
front of a table is a table. The point of the numbers is that they have no gaps: those of a name
that are taken are those below the count of its declarations, so the count is the first that is
free.
-/

namespace Shader

namespace Program

mutual

/-- The declarations of a statement in preorder: a block's own, and then those of its statements; of
an `if`, those of the branch before those of the `else`. -/
def Stmt.declared : Stmt → List DeclId
  | .absent | .assign _ _ _ => []
  | .branch _ yes none => yes.declared
  | .branch _ yes (some no) => yes.declared ++ no.declared
  | .loop _ _ body => body.declared
  | .scope decls stmts => decls ++ Stmt.listDeclared stmts

/-- The declarations of statements in preorder. -/
def Stmt.listDeclared : List Stmt → List DeclId
  | [] => []
  | s :: ss => s.declared ++ Stmt.listDeclared ss

end

/-- The declarations of a program: the predefined ones, and then those of its body. A place that the
program's table does not have is no declaration. -/
def declared (p : Program) : List DeclId :=
  (p.predefined.getD [] ++
      (p.body.map fun b => (Stmt.scope b.decls b.stmts).declared).getD []).filter
    (· < p.decls.length)

end Program

namespace Symbols

open Program (Visit Stmt namesakes)

/-! ## The order of a table -/

/-- The declaration that a visit lists, in a table of the given size. -/
def listed? (size : Nat) : Visit → Option DeclId
  | .decl id => if id < size then some id else none
  | .absent => none

theorem ids_add {decls : List Declaration} {s s' : Symbols} {v : Visit}
    (h : add decls s v = .ok s') :
    s'.entries.map (·.1) = s.entries.map (·.1) ++ (listed? decls.length v).toList := by
  obtain ⟨id, rfl, ⟨hd, rfl⟩ | ⟨d, r, hd, -, -, rfl⟩⟩ := add_eq_ok h
  · rw [listed?, if_neg (Nat.not_lt.mpr (List.getElem?_eq_none_iff.mp hd))]
    simp
  · rw [listed?, if_pos (List.getElem?_eq_some_iff.mp hd).1]
    simp [Symbols.extend]

/-- A table lists the declarations in the order of the walk. -/
theorem ids_build {p : Program} {s : Symbols} (h : build p = .ok s) :
    s.entries.map (·.1) = p.visits.filterMap (listed? p.decls.length) := by
  refine build_induction (P := fun vs s =>
    s.entries.map (·.1) = vs.filterMap (listed? p.decls.length)) rfl ?_ h
  intro vs v s s' hs hadd
  rw [ids_add hadd, hs, List.filterMap_append]
  cases hv : listed? p.decls.length v <;> simp [hv]

section Order

variable {size : Nat}

theorem listed?_decls (ids : List DeclId) :
    (ids.map Visit.decl).filterMap (listed? size) = ids.filter (· < size) := by
  induction ids with
  | nil => rfl
  | cons id ids ih =>
    rw [List.map_cons, List.filterMap_cons, List.filter_cons, ih, listed?]
    by_cases hid : id < size <;> simp [hid]

mutual

/-- The walk through a statement is in preorder. -/
theorem listed?_visits : ∀ st : Stmt,
    st.visits.filterMap (listed? size) = st.declared.filter (· < size)
  | .absent | .assign _ _ _ => rfl
  | .branch _ yes none => by
    rw [Stmt.visits, Stmt.declared, listed?_visits yes]
  | .branch _ yes (some no) => by
    rw [Stmt.visits, Stmt.declared, List.filterMap_append, List.filter_append, listed?_visits yes,
      listed?_visits no]
  | .loop _ _ body => by
    rw [Stmt.visits, Stmt.declared, listed?_visits body]
  | .scope decls stmts => by
    rw [Stmt.visits, Stmt.declared, List.filterMap_append, List.filter_append, listed?_decls,
      listed?_listVisits stmts]

theorem listed?_listVisits : ∀ ss : List Stmt,
    (Stmt.listVisits ss).filterMap (listed? size) = (Stmt.listDeclared ss).filter (· < size)
  | [] => rfl
  | st :: ss => by
    rw [Stmt.listVisits, Stmt.listDeclared, List.filterMap_append, List.filter_append,
      listed?_visits st, listed?_listVisits ss]

end

end Order

/-- **A table lists the declarations of its program in preorder.** -/
theorem ids_eq_declared {p : Program} {s : Symbols} (h : build p = .ok s) :
    s.entries.map (·.1) = p.declared := by
  rw [ids_build h, Program.visits, Program.declared, List.filterMap_append, List.filter_append,
    listed?_decls]
  cases p.body with
  | none => rfl
  | some body => exact congrArg _ (listed?_visits _)

/-! ## The entries of a table -/

section Listed

variable {decls : List Declaration} {l : List (DeclId × Register)} {s s' : Symbols}

theorem Listed.take (h : Listed decls l) (i : Nat) : Listed decls (l.take i) := by
  induction h with
  | nil => rw [List.take_nil]; exact .nil
  | @own l id d hl hnew hd ho ih =>
    by_cases hi : i ≤ l.length
    · rwa [List.take_append_of_le_length hi]
    · rw [List.take_of_length_le (by simp; omega)]
      exact .own hl hnew hd ho
  | @hardware l id d h hl hnew hd ho hname hfree ih =>
    by_cases hi : i ≤ l.length
    · rwa [List.take_append_of_le_length hi]
    · rw [List.take_of_length_le (by simp; omega)]
      exact .hardware hl hnew hd ho hname hfree

theorem Listed.last {id : DeclId} {r : Register} (h : Listed decls (l ++ [(id, r)])) :
    ∃ d, decls[id]? = some d ∧
      ((d.isOrdinary = true ∧ r = .user d.name (namesakes decls (l.map (·.1)) d.name)) ∨
        d.isOrdinary = false ∧ ∃ hw, r = .hardware hw) := by
  generalize hl : l ++ [(id, r)] = l' at h
  cases h with
  | nil => simp at hl
  | own _ _ hd ho =>
    obtain ⟨rfl, heq⟩ := List.append_inj' hl rfl
    cases heq
    exact ⟨_, hd, .inl ⟨ho, rfl⟩⟩
  | hardware _ _ hd ho _ _ =>
    obtain ⟨rfl, heq⟩ := List.append_inj' hl rfl
    cases heq
    exact ⟨_, hd, .inr ⟨ho, _, rfl⟩⟩

theorem Listed.entry_at (h : Listed decls l) {i : Nat} {id : DeclId} {r : Register}
    (hi : l[i]? = some (id, r)) : ∃ d, decls[id]? = some d ∧
      ((d.isOrdinary = true ∧ r = .user d.name (namesakes decls ((l.take i).map (·.1)) d.name)) ∨
        d.isOrdinary = false ∧ ∃ hw, r = .hardware hw) := by
  have htake := h.take (i + 1)
  rw [List.take_add_one, hi] at htake
  exact htake.last

/-! ## The names of the registers -/

/-- The registers of variables. -/
def Variable (r : Register) : Prop := (∃ name k, r = .user name k) ∨ ∃ h, r = .hardware h

theorem Listed.variable (h : Listed decls l) : ∀ r ∈ l.map (·.2), Variable r := by
  intro r hr
  obtain ⟨⟨id, r⟩, he, rfl⟩ := List.mem_map.mp hr
  obtain ⟨i, hi⟩ := List.mem_iff_getElem?.mp he
  obtain ⟨d, -, ⟨-, heq⟩ | ⟨-, heq⟩⟩ := h.entry_at hi
  · exact .inl ⟨_, _, heq⟩
  · exact .inr heq

theorem hardware_text_inj {h h' : Hardware} (heq : h.text = h'.text) : h = h' := by
  revert heq
  cases h <;> cases h' <;> decide

/-- The register of a variable can be told by its name. -/
theorem Variable.text_inj {r r' : Register} (hr : Variable r) (hr' : Variable r')
    (heq : r.text = r'.text) : r = r' := by
  have hown : ∀ name k, Register.Declarable (.user name k) := fun _ _ => .inl ⟨_, rfl⟩
  rcases hr with ⟨name, k, rfl⟩ | ⟨h, rfl⟩ <;> rcases hr' with ⟨name', k', rfl⟩ | ⟨h', rfl⟩
  · exact Register.text_inj (hown _ _) (hown _ _) heq
  · exact absurd heq (Register.text_ne_hardware (hown _ _) h')
  · exact absurd heq.symm (Register.text_ne_hardware (hown _ _) h)
  · rw [hardware_text_inj heq]

/-- **A declaration and the name of its register say each other.** -/
theorem Listed.register?_iff (h : Listed decls s.entries) (id : DeclId) (name : Bytes) :
    (s.register? id).map Register.text = some name ↔ s.declaration? name = some id := by
  constructor
  · intro hid
    obtain ⟨r, hr, rfl⟩ := Option.map_eq_some_iff.mp hid
    have hmem : (id, r) ∈ s.entries := mem_of_register? hr
    cases hfind : s.entries.find? fun e => e.2.text == r.text with
    | none => simpa using List.find?_eq_none.mp hfind _ hmem
    | some e =>
      have he := List.mem_of_find?_eq_some hfind
      have htext : e.2.text = r.text := by simpa using List.find?_some hfind
      have hreg : e.2 = r := Variable.text_inj (h.variable _ (List.mem_map_of_mem he))
        (h.variable _ (List.mem_map_of_mem hmem)) htext
      have hsame : e = (id, r) := List.inj_on_of_nodup_map h.regs_nodup he hmem hreg
      rw [declaration?, hfind, hsame]
      rfl
  · intro hname
    obtain ⟨e, hfind, rfl⟩ := Option.map_eq_some_iff.mp hname
    have htext : e.2.text = name := by simpa using List.find?_some hfind
    rw [register?, lookup_of_mem h.ids_nodup (List.mem_of_find?_eq_some hfind), Option.map_some,
      htext]

theorem Listed.register?_of_mem (h : Listed decls s.entries) {e : DeclId × Register}
    (he : e ∈ s.entries) : s.register? e.1 = some e.2 := lookup_of_mem h.ids_nodup he

/-- The register of a variable of the shader is of its own name. -/
theorem Listed.register?_own (h : Listed decls s.entries) {id : DeclId} {d : Declaration}
    {r : Register} (hd : decls[id]? = some d) (ho : d.isOrdinary = true)
    (hr : s.register? id = some r) : ∃ k, r = .user d.name k := by
  obtain ⟨i, hi⟩ := List.mem_iff_getElem?.mp (mem_of_register? hr)
  obtain ⟨d', hd', ⟨-, heq⟩ | ⟨ho', -⟩⟩ := h.entry_at hi
  · cases hd.symm.trans hd'
    exact ⟨_, heq⟩
  · cases hd.symm.trans hd'
    rw [ho] at ho'
    cases ho'

/-- The names of a variable that are taken by the first entries are those below its count there. -/
theorem Listed.taken_iff (h : Listed decls s.entries) (i : Nat) (name : Bytes) (n : Nat) :
    n < namesakes decls ((s.entries.take i).map (·.1)) name ↔
      ∃ id ∈ (s.entries.take i).map (·.1),
        (s.register? id).map Register.text = some (Register.text (.user name n)) := by
  rw [← (h.take i).user_mem_iff]
  constructor
  · intro hmem
    obtain ⟨e, he, heq⟩ := List.mem_map.mp hmem
    refine ⟨e.1, List.mem_map_of_mem he, ?_⟩
    rw [h.register?_of_mem (List.mem_of_mem_take he), heq]
    rfl
  · rintro ⟨id, hid, htext⟩
    obtain ⟨e, he, rfl⟩ := List.mem_map.mp hid
    rw [h.register?_of_mem (List.mem_of_mem_take he)] at htext
    have hreg : e.2 = .user name n :=
      Variable.text_inj ((h.take i).variable _ (List.mem_map_of_mem he)) (.inl ⟨_, _, rfl⟩)
        (Option.some.inj htext)
    exact List.mem_map.mpr ⟨e, he, hreg⟩

end Listed

/-- **The symbol table is a bijection with names that can be told.** For every program that has a
table, with whatever names:

* the table lists the declarations of the program in preorder, the predefined ones first, and none
  twice;
* just the declarations that are listed have registers, and a declaration and the name of its
  register say each other;
* a variable `x` of the shader is `$x_k`, where `k` counts those called `x` that are listed before,
  and that is the first of the names `$x_0`, `$x_1`, … that none before it has;
* no variable of the shader has the name of a hardware register. -/
theorem bijection_build {p : Program} {s : Symbols} (h : build p = .ok s) :
    (s.entries.map (·.1) = p.declared ∧ p.declared.Nodup) ∧
    ((∀ id, id ∈ p.declared ↔ (s.register? id).isSome) ∧
      ∀ id name, (s.register? id).map Register.text = some name ↔ s.declaration? name = some id) ∧
    (∀ i id d, p.declared[i]? = some id → p.decls[id]? = some d → d.isOrdinary = true →
      let k := namesakes p.decls (p.declared.take i) d.name
      (s.register? id).map Register.text =
          some (ascii "$" ++ d.name ++ ascii "_" ++ Text.decimal k) ∧
        ∀ n, n < k ↔ ∃ id' ∈ p.declared.take i, (s.register? id').map Register.text =
          some (ascii "$" ++ d.name ++ ascii "_" ++ Text.decimal n)) ∧
    ∀ id d r, p.decls[id]? = some d → d.isOrdinary = true → s.register? id = some r →
      ∀ hw : Hardware, r.text ≠ hw.text := by
  have hl := listed_build h
  rw [← ids_eq_declared h]
  refine ⟨⟨rfl, hl.ids_nodup⟩, ⟨fun id => ⟨fun hid => ?_, fun hid => ?_⟩, hl.register?_iff⟩, ?_, ?_⟩
  · obtain ⟨e, he, rfl⟩ := List.mem_map.mp hid
    rw [hl.register?_of_mem he]
    rfl
  · obtain ⟨r, hr⟩ := Option.isSome_iff_exists.mp hid
    exact List.mem_map_of_mem (mem_of_register? hr)
  · intro i id d hi hd ho k
    rw [List.getElem?_map] at hi
    obtain ⟨⟨id, r⟩, hentry, rfl⟩ := Option.map_eq_some_iff.mp hi
    have hreg : s.register? id = some r :=
      hl.register?_of_mem (e := (id, r)) (List.mem_of_getElem? hentry)
    obtain ⟨d', hd', hkind⟩ := hl.entry_at hentry
    cases hd.symm.trans hd'
    -- an ordinary variable has a register with its name and the number of those before it
    obtain ⟨-, rfl⟩ := hkind.resolve_right fun hother => by simp [ho] at hother
    have htaken := hl.taken_iff i d.name
    simp only [List.map_take] at hreg htaken
    exact ⟨by rw [hreg]; rfl, htaken⟩
  · intro id d r hd ho hr hw
    obtain ⟨k, rfl⟩ := hl.register?_own hd ho hr
    exact Register.text_ne_hardware (.inl ⟨_, rfl⟩) hw

/-- A program that is not checked, in which a name is another one with a number behind it: the first
`a` is `$a_0` and the first `a_0` is `$a_0_0`. The `else` is listed behind the branch. -/
theorem bijection_build_suffixed :
    let float (name : String) : Declaration := { name := ascii name, type := .float }
    let p : Program :=
      { decls := [float "a_0", float "a", float "a", float "a", .ofHardware .env1]
        predefined := some [4]
        body := some ⟨[1], [.branch (.bool {} true) (.scope [0, 2] []) (some (.scope [3] []))]⟩ }
    let s : Symbols :=
      ⟨[(4, .hardware .env1), (1, .user (ascii "a") 0), (0, .user (ascii "a_0") 0),
        (2, .user (ascii "a") 1), (3, .user (ascii "a") 2)]⟩
    build p = .ok s ∧ p.declared = [4, 1, 0, 2, 3] ∧ s.declaration? (ascii "$a_0") = some 1 ∧
      s.declaration? (ascii "$a_0_0") = some 0 ∧ s.declaration? (ascii "$a_2") = some 3 := by
  intro float p s
  have hbuild : build p = .ok s := rfl
  obtain ⟨⟨hids, -⟩, ⟨-, hinverse⟩, -⟩ := bijection_build hbuild
  exact ⟨hbuild, hids.symm, (hinverse 1 _).mp rfl, (hinverse 0 _).mp rfl, (hinverse 3 _).mp rfl⟩

end Symbols

end Shader
