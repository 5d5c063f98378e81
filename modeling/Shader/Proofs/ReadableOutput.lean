import Shader.Proofs.AssemblyReader
import Shader.Proofs.FoldingExact
import Shader.Proofs.OutputForm

/-!
# Compiled programs can be read back

The text of a compiled program says all about it. The names in it are those of registers, and a
register of a variable has a name of letters and digits, as the scanner takes no other bytes into a
name. The comments are those that mark the code of an `if`. The values are numbers, or hardware
registers. None of these has a byte in it that ends a field or a line.
-/

namespace Shader

open Text
open Grammar (DeclOf DeclsOf StmtOf BlockOf StmtsOf bodyOf)
open Program (Expr Stmt astDecls astDeclsList declOfAst)
open Number (Scalar)
open Lower (IsConstant Mark)

/-! ## Names of variables -/

/-- A text of letters and digits. -/
def IsWord (t : Bytes) : Prop := ∀ b ∈ t, isWordByte b = true

theorem number_ne_ident (t : Bytes) : (number t).1 ≠ .ident := by
  unfold number
  dsimp only
  split
  · split <;> simp
  · simp

/-- A lexeme that is a name is a word. -/
theorem isWord_of_lexeme? {t : Bytes} {n : Nat} (h : lexeme? t = some (.ident, n)) :
    IsWord (t.take n) := by
  have hsingles : ∀ p ∈ singles, p.2 ≠ .ident := by decide
  have hpairings : ∀ p ∈ pairings, p.both ≠ .ident ∧ p.alone ≠ .ident := by decide
  cases t with
  | nil => cases h
  | cons b rest =>
    simp only [lexeme?] at h
    split at h
    · rename_i kind hkind
      obtain ⟨l₁, l₂, hsplit, -⟩ := List.lookup_eq_some_iff.mp hkind
      cases h
      exact absurd rfl (hsingles (b, .ident) (by rw [hsplit]; simp))
    · split at h
      · rename_i p hp
        have hkinds := hpairings p (List.mem_of_find?_eq_some hp)
        split at h <;> rw [Option.some.injEq, Prod.mk.injEq] at h
        · exact absurd h.1 hkinds.1
        · exact absurd h.1 hkinds.2
      · split at h
        · rename_i hletter
          -- the first byte is a letter, and the run behind it is of word bytes
          rw [Option.some.injEq, Prod.mk.injEq] at h
          intro c hc
          rw [← h.2, Nat.add_comm, List.take_succ_cons, runLength, List.mem_cons] at hc
          rcases hc with rfl | hc
          · rw [isWordByte, hletter]
            rfl
          · have hrun := List.takeWhile_prefix isWordByte (l := rest)
            rw [← List.prefix_iff_eq_take.mp hrun] at hc
            exact List.mem_takeWhile_imp hc
        · split at h
          · have hnumber := Option.some.inj h
            exact absurd (congrArg Prod.fst hnumber) (number_ne_ident _)
          · cases h

/-- **An identifier is a word**: the scanner ends it at the first byte that is no letter, digit or
underscore. -/
theorem isWord_of_next {c : Cursor} (h : c.next.1.kind = .ident) : IsWord c.next.1.literal := by
  unfold Cursor.next at h ⊢
  dsimp only at h ⊢
  split at h
  · cases h
  · rename_i kind n hl
    dsimp only at h ⊢
    subst h
    rw [literalOf, if_neg (by simp)]
    exact isWord_of_lexeme? hl

/-- **The names in a text are words.** -/
theorem isWord_of_mem_scan {c : Cursor} {tok : Token} (h : tok ∈ c.scan.1)
    (hk : tok.kind = .ident) : IsWord tok.literal := by
  induction c using Cursor.scan.induct with
  | case1 c heof =>
    rw [scan_of_eof heof] at h
    cases h
  | case2 c hne _ _ _ ih =>
    rw [scan_of_ne_eof hne] at h
    rcases List.mem_cons.mp h with rfl | h
    · exact isWord_of_next hk
    · exact ih h

/-- Declarations whose names are among tokens. -/
def NamedIn (ts : List Token) (ds : List Ast.Decl) : Prop :=
  ∀ d ∈ ds, ∃ t ∈ ts, t.kind = .ident ∧ t.literal = d.name

section Grammar

variable {ts us : List Token} {ds es : List Ast.Decl}

theorem NamedIn.nil : NamedIn ts [] := fun _ hd => by cases hd

theorem NamedIn.mono (h : NamedIn ts ds) (hsub : ts ⊆ us) : NamedIn us ds := by
  intro d hd
  obtain ⟨t, ht, hname⟩ := h d hd
  exact ⟨t, hsub ht, hname⟩

theorem NamedIn.append (h : NamedIn ts ds) (h' : NamedIn ts es) : NamedIn ts (ds ++ es) := by
  intro d hd
  exact (List.mem_append.mp hd).elim (h d) (h' d)

/-- A declaration has its name from one of its tokens. -/
theorem namedIn_of_declOf {d : Ast.Decl} (h : DeclOf ts d) : NamedIn ts [d] := by
  intro d' hd'
  cases List.mem_singleton.mp hd'
  cases h with
  | mutable _ hx _ _ => exact ⟨_, by simp, hx, rfl⟩
  | const _ _ hx _ _ => exact ⟨_, by simp, hx, rfl⟩

theorem namedIn_of_declsOf (h : DeclsOf ts ds) : NamedIn ts ds := by
  induction h with
  | nil => exact .nil
  | @cons ts us d ds hd _ ih =>
    have hfirst := (namedIn_of_declOf hd).mono (List.subset_append_left ts us)
    exact hfirst.append (ih.mono (List.subset_append_right ts us))

theorem astDeclsList_append (ss ss' : List Ast.Stmt) :
    astDeclsList (ss ++ ss') = astDeclsList ss ++ astDeclsList ss' := by
  induction ss with
  | nil => rfl
  | cons s ss ih => rw [List.cons_append, astDeclsList, astDeclsList, ih, List.append_assoc]

theorem astDeclsList_singleton (s : Ast.Stmt) : astDeclsList [s] = astDecls s := List.append_nil _

theorem astDecls_bodyOf (o : Option Ast.Stmt) : astDecls (bodyOf o) = astDeclsList o.toList := by
  cases o with
  | none => rfl
  | some s => exact (astDeclsList_singleton s).symm

theorem astDecls_branch (c : Ast.Expr) (yes : Ast.Stmt) (no : Option Ast.Stmt) :
    astDecls (.branch c yes no) = astDecls yes ++ astDeclsList no.toList := by
  cases no with
  | none => exact (List.append_nil _).symm
  | some s =>
    rw [astDecls, Option.toList_some, astDeclsList_singleton]

variable {nearest : Bool}

mutual

/-- The declarations of a statement have names of its tokens. -/
theorem namedIn_of_stmtOf : ∀ {dangling : Bool} {ts : List Token} {o : Option Ast.Stmt},
    StmtOf nearest dangling ts o → NamedIn ts (astDeclsList o.toList)
  | _, _, _, .assign _ _ _ _ => .nil
  | _, _, _, .ifThen _ _ hs => by
    rw [Option.toList_some, astDeclsList_singleton, astDecls_branch, astDecls_bodyOf]
    exact ((namedIn_of_stmtOf hs).mono fun t ht => by simp [ht]).append .nil
  | _, _, _, .ifElse _ _ hs _ _ ho => by
    rw [Option.toList_some, astDeclsList_singleton, astDecls_branch, astDecls_bodyOf]
    exact ((namedIn_of_stmtOf hs).mono fun t ht => by simp [ht]).append
      ((namedIn_of_stmtOf ho).mono fun t ht => by simp [ht])
  | _, _, _, .loop _ _ hs => by
    rw [Option.toList_some, astDeclsList_singleton, astDecls, astDecls_bodyOf]
    exact (namedIn_of_stmtOf hs).mono fun t ht => by simp [ht]
  | _, _, _, .block hb => by
    rw [Option.toList_some, astDeclsList_singleton]
    exact namedIn_of_blockOf hb
  | _, _, _, .empty _ => .nil

theorem namedIn_of_blockOf : ∀ {ts : List Token} {b : Ast.Scope},
    BlockOf nearest ts b → NamedIn ts (astDecls b.toStmt)
  | _, _, .mk _ hds hss _ => by
    rw [Checker.astDecls_toStmt]
    exact ((namedIn_of_declsOf hds).mono fun t ht => by simp [ht]).append
      ((namedIn_of_stmtsOf hss).mono fun t ht => by simp [ht])

/-- The declarations within statements have their names from the tokens. -/
theorem namedIn_of_stmtsOf : ∀ {ts : List Token} {ss : List Ast.Stmt},
    StmtsOf nearest ts ss → NamedIn ts (astDeclsList ss)
  | _, _, .nil => .nil
  | _, _, .cons hs hss => by
    rw [astDeclsList_append]
    exact ((namedIn_of_stmtOf hs).mono fun t ht => by simp [ht]).append
      ((namedIn_of_stmtsOf hss).mono fun t ht => by simp [ht])

end

end Grammar

/-- **The declarations of a text have words for names.** -/
theorem isWord_of_mem_astDecls {source : Bytes} (h : (parse source).errors = []) {d : Ast.Decl}
    (hd : d ∈ astDecls (parse source).body.toStmt) : IsWord d.name := by
  obtain ⟨t, ht, hk, hname⟩ := namedIn_of_blockOf (treeOf_parse h) d hd
  exact hname ▸ isWord_of_mem_scan ht hk

/-- The variables of the shader have words for names. -/
theorem isWord_of_accepted {source : Bytes} (hparse : (parse source).errors = []) {env : Env}
    {n : Nat} {ds es : List Declaration} {Γ : TypeSystem.Context} {stmts : List Stmt}
    (hA : Accepted env n) (hB : AcceptedBody env n (parse source).body ds es Γ stmts)
    {id : DeclId} {d : Declaration} (hd : env.decls[id]? = some d) (ho : d.isOrdinary = true) :
    IsWord d.name := by
  have hid : id < n := by
    refine Nat.lt_of_not_le fun hle => ?_
    obtain ⟨h, rfl⟩ := hA.predefined id d hd hle
    rw [isOrdinary_ofHardware] at ho
    cases ho
  -- its entry comes of a declaration of the text
  have hentry : (ds ++ es)[id]? = some d := by
    have hlt : id < (ds ++ es).length := hB.count ▸ hid
    have hget : (ds ++ es)[id]? = some _ := List.getElem?_eq_getElem hlt
    have := hB.holds id _ hget
    rw [Nat.zero_add] at this
    rw [hget, ← this, hd]
  have hsignatures : (ds ++ es).map TypeSystem.signature =
      ((astDecls (parse source).body.toStmt).map declOfAst).map TypeSystem.signature := by
    rw [Checker.astDecls_toStmt, List.map_append, List.map_append, List.map_append,
      Checker.signatures_of_declsTyped hB.decls, Checker.signatures_of_stmtsTyped hB.stmts]
  have hmem : TypeSystem.signature d ∈ (ds ++ es).map TypeSystem.signature :=
    List.mem_map_of_mem (List.mem_of_getElem? hentry)
  rw [hsignatures, List.map_map] at hmem
  obtain ⟨a, ha, hsame⟩ := List.mem_map.mp hmem
  have hname : a.name = d.name := congrArg Prod.fst hsame
  exact hname ▸ isWord_of_mem_astDecls hparse ha

/-! ## Names of registers -/

section Registers

theorem not_mem_fieldEnds_of_digit {b : UInt8} (h : 48 ≤ b.toNat ∧ b.toNat ≤ 57) :
    b ∉ fieldEnds := by
  intro hb
  simp only [fieldEnds, List.mem_cons, List.not_mem_nil, or_false] at hb
  rcases hb with rfl | rfl | rfl | rfl <;> exact absurd h (by decide)

/-- No byte of a word ends a field. -/
theorem not_mem_fieldEnds_of_word {b : UInt8} (h : isWordByte b = true) : b ∉ fieldEnds := by
  intro hb
  simp only [fieldEnds, List.mem_cons, List.not_mem_nil, or_false] at hb
  rcases hb with rfl | rfl | rfl | rfl <;> exact absurd h (by decide)

/-- A register with a number is readable if what stands before the number is. -/
theorem readable_of_stem {r : Register} {p : Bytes × Nat} (h : r.stem? = some p)
    (hstem : Avoids fieldEnds p.1) : r.Readable := by
  refine ⟨.inl (.inl ⟨p, h⟩), fun b hb => ?_⟩
  rw [Register.text_of_stem h, numbered, List.mem_append, List.mem_cons] at hb
  rcases hb with hb | rfl | hb
  · exact hstem b hb
  · decide
  · exact not_mem_fieldEnds_of_digit (digit_of_mem_decimal hb)

/-- The register of a variable whose name is a word can be read back. -/
theorem readable_user {name : Bytes} (h : IsWord name) (k : Nat) :
    (Register.user name k).Readable := by
  refine readable_of_stem rfl fun b hb => ?_
  rcases List.mem_cons.mp hb with rfl | hb
  · decide
  · exact not_mem_fieldEnds_of_word (h b hb)

theorem readable_hardware (h : Hardware) : (Register.hardware h).Readable := by
  refine ⟨.inr ⟨h, rfl⟩, ?_⟩
  cases h <;> decide +kernel

theorem readable_temp (n : Nat) : (Register.temp n).Readable := by
  have hstem : Avoids fieldEnds (ascii "__$temp") := by decide
  exact readable_of_stem rfl hstem

theorem readable_longLived (n : Nat) : (Register.longLived n).Readable := by
  have hstem : Avoids fieldEnds (ascii "__$templl") := by decide
  exact readable_of_stem rfl hstem

/-- So can a register for a constant, whose name has nothing in it but a number. -/
theorem readable_isConstant {r : Register} (h : IsConstant r) : r.Readable := by
  cases h with
  | truth b => cases b <;> exact ⟨.inl (.inr (by simp)), by decide⟩
  | zero => exact ⟨.inl (.inr (by simp)), by decide⟩
  | immediate n =>
    have hstem : Avoids fieldEnds (ascii "__$param") := by decide
    exact readable_of_stem rfl hstem

end Registers

/-! ## Emitted lines -/

namespace Lower

variable {α β γ : Type}

/-- A step that emits regular lines, and declares no constants but literals whose numbers are in
`P`. -/
def Regular (P : List α → Prop) (m : Lower α β) : Prop :=
  ∀ a b code a', run m a = .ok (b, code, a') → (∀ l ∈ code, l.Regular) ∧
    ∀ p ∈ a'.program.immediates,
      p ∈ a.program.immediates ∨ ∃ xs, p.value = .constant (.literal xs) ∧ P xs

variable {P : List α → Prop}

section Combinators

/-- Being regular goes through `do`. -/
theorem regular : Stepwise fun _ m => Regular P m where
  pure _ := by
    rintro a b code a' ⟨⟩
    exact ⟨by simp, fun p hp => .inl hp⟩
  bind := by
    intro β γ m f hm hf a c lines a₂ hrun
    obtain ⟨b, code, a₁, more, h₁, h₂, rfl⟩ := run_bind_eq_ok.mp hrun
    obtain ⟨hcode, hparams⟩ := hm a b code a₁ h₁
    obtain ⟨hmore, hparams'⟩ := hf b a₁ c more a₂ h₂
    refine ⟨fun l hl => (List.mem_append.mp hl).elim (hcode l) (hmore l), fun p hp => ?_⟩
    rcases hparams' p hp with hp | hp
    · exact hparams p hp
    · exact .inr hp
  emit h := by
    rintro a b code a' ⟨⟩
    exact ⟨h, fun p hp => .inl hp⟩
  temp := by
    rintro a b code a' ⟨⟩
    refine ⟨by simp, fun p hp => .inl ?_⟩
    split at hp <;> exact hp
  longLived := by
    rintro a b code a' ⟨⟩
    exact ⟨by simp, fun p hp => .inl hp⟩
  reset := by
    rintro a b code a' ⟨⟩
    exact ⟨by simp, fun p hp => .inl hp⟩

theorem regular_fail (e : Failure) : Regular P (fail e : Lower α β) := by
  intro a b code a' hrun
  cases hrun

theorem regular_ofExcept (r : Except Failure β) : Regular P (ofExcept r : Lower α β) := by
  intro a b code a' hrun
  cases r with
  | error e => cases hrun
  | ok b' =>
    cases hrun
    exact ⟨by simp, fun p hp => .inl hp⟩

/-- Behind a result that is known. -/
theorem regular_ofExcept_bind {r : Except Failure β} {f : β → Lower α γ}
    (hf : ∀ b, r = .ok b → Regular P (f b)) : Regular P (ofExcept r >>= f) := by
  intro a c lines a₂ hrun
  obtain ⟨b, code, a₁, more, h₁, h₂, rfl⟩ := run_bind_eq_ok.mp hrun
  cases r with
  | error e => cases h₁
  | ok b' =>
    cases h₁
    exact hf b rfl a c more a₂ h₂

/-- A constant is declared for a literal whose numbers are in `P`. -/
theorem regular_immediate {xs : List α} (h : P xs) :
    Regular P (immediate (.constant (.literal xs)) : Lower α Operand) := by
  intro a b code a' hrun
  cases hrun
  refine ⟨by simp, fun p hp => ?_⟩
  rcases List.mem_append.mp hp with hp | hp
  · exact .inl hp
  · cases List.mem_singleton.mp hp
    exact .inr ⟨xs, rfl, h⟩

end Combinators

section Expr

theorem regular_register (env : Env) (ref : Ref) : Regular P (register env ref : Lower α Operand) :=
  regular_ofExcept _

theorem regular_indexed (env : Env) (ref : Ref) (i : Int) :
    Regular P (indexed env ref i : Lower α Operand) :=
  regular.bind (regular_register _ _) fun _ => regular.bind (regular_ofExcept _) fun _ =>
    regular.pure _

variable [Scalar α]

/-- The numbers that expressions are folded to are in `P`. -/
def Folded (env : Env) (P : List α → Prop) (es : List Expr) : Prop :=
  ∀ e ∈ es, ∀ xs, reduce env e = .ok (some (.literal xs)) → P xs

theorem folded_append {env : Env} {es fs : List Expr} :
    Folded env P (es ++ fs) ↔ Folded env P es ∧ Folded env P fs := List.forall_mem_append

theorem folded_cons {env : Env} {e : Expr} {es : List Expr} (h : Folded env P (e :: es)) :
    Folded env P es := (List.forall_mem_cons.mp h).2

mutual

/-- **The code of an expression is regular**, and constants are declared for what its parts are
folded to. -/
theorem regular_expr (env : Env) :
    ∀ e : Expr, Folded env P e.parts → Regular P (expr env e : Lower α Operand)
  | .absent, _ => by rw [expr]; exact regular_fail _
  | .int pos value, h => by
    rw [expr]
    exact regular_immediate
      (h (.int pos value) (List.mem_singleton_self _) _ (by rw [reduce, Reduce.expr]))
  | .float pos value, h => by
    rw [expr]
    exact regular_immediate
      (h (.float pos value) (List.mem_singleton_self _) _ (by rw [reduce, Reduce.expr]))
  | .bool pos value, h => by
    rw [expr]
    exact regular_immediate
      (h (.bool pos value) (List.mem_singleton_self _) _ (by rw [reduce, Reduce.expr]))
  | .var ref, _ => by rw [expr]; exact regular_register _ _
  | .index ref i _, _ => by rw [expr]; exact regular_indexed _ _ _
  | .unary _ _ x _, h => by
    rw [expr]
    exact regular.bind (regular_expr env x (folded_cons h)) fun _ => regular.result _ _
  | .binary _ op l r _, h => by
    obtain ⟨hl, hr⟩ := folded_append.mp (folded_cons h)
    rw [expr]
    exact regular.bind (regular_expr env l hl) fun _ =>
      regular.bind (regular_expr env r hr) fun _ =>
      regular.binary _ _ _ (fun _ => regular_fail _) (regular_ofExcept _) (regular_ofExcept _)
        (regular_ofExcept _)
  | .call _ func args _, h => by
    rw [expr]
    exact regular.bind (regular_exprs env args (folded_cons h)) fun _ =>
      regular.call (fun _ => regular_fail _) _ _
  | .construct pos type args, h => by
    rw [expr]
    refine regular_ofExcept_bind fun c hc => ?_
    split
    · exact regular_immediate (h _ List.mem_cons_self _ hc)
    · split
      · exact regular.bind (regular_exprs env args (folded_cons h)) fun _ => regular.assemble _
      · exact regular_fail _

theorem regular_exprs (env : Env) : ∀ es : List Expr, Folded env P (Program.Expr.listParts es) →
    Regular P (exprs env es : Lower α (List Operand))
  | [], _ => by rw [exprs]; exact regular.pure _
  | e :: es, h => by
    obtain ⟨he, hes⟩ := folded_append.mp h
    rw [exprs]
    exact regular.bind (regular_expr env e he) fun _ =>
      regular.bind (regular_exprs env es hes) fun _ => regular.pure _

end

end Expr

section Stmt

theorem regular_target (env : Env) (e : Expr) : Regular P (target env e : Lower α Operand) := by
  unfold target
  split
  · exact regular_register _ _
  · exact regular_indexed _ _ _
  · exact regular_fail _

variable [Scalar α]

/-- The initializers of a table. -/
def inits (decls : List Declaration) : List Expr :=
  decls.flatMap fun d => d.init.elim [] Program.Expr.parts

/-- A declaration sets its variable to the initializer of the table, which is why the initializers
are assumed to fold into `P`. -/
theorem regular_decl {env : Env} (h : Folded env P (inits env.decls)) (cond : Option Operand)
    (id : DeclId) : Regular P (decl env cond id : Lower α Unit) := by
  refine regular.decl cond (fun _ => regular_register _ _) fun d e hd _ he => ?_
  have hparts : Folded env P e.parts := fun f hf => h f (List.mem_flatMap.mpr
    ⟨d, List.mem_of_getElem? hd, by rw [he]; exact hf⟩)
  exact regular_expr _ _ hparts

mutual

/-- **The code of a statement has regular lines**, and its immediates are folded from it. -/
theorem regular_stmt {env : Env} (h : Folded env P (inits env.decls)) :
    ∀ (cond : Option Operand) (s : Stmt), Folded env P s.exprs →
      Regular P (stmt env cond s : Lower α Unit)
  | _, .absent, _ => by rw [stmt]; exact regular_fail _
  | cond, .assign _ dst value, hs => by
    rw [stmt]
    exact regular.bind regular.beginStatement fun _ =>
      regular.bind (regular_expr _ _ (folded_append.mp hs).2) fun _ =>
        regular.bind (regular_target _ _) fun _ => regular.write _ _ _
  | cond, .branch e yes none, hs => by
    obtain ⟨he, hyes⟩ := folded_append.mp hs
    rw [stmt]
    exact regular.bind (regular.enterIf _ (regular_expr _ _ he)) fun _ => regular_stmt h _ yes hyes
  | cond, .branch e yes (some no), hs => by
    obtain ⟨hs, hno⟩ := folded_append.mp hs
    obtain ⟨he, hyes⟩ := folded_append.mp hs
    rw [stmt]
    exact regular.bind (regular.enterIf _ (regular_expr _ _ he)) fun _ =>
      regular.bind (regular_stmt h _ yes hyes) fun _ =>
        regular.bind (regular.enterElse _ _) fun _ => regular_stmt h _ no hno
  | _, .loop _ _ _, _ => by rw [stmt]; exact regular_fail _
  | cond, .scope ids ss, hs => by
    rw [stmt]
    exact regular.bind (regular.decls cond ids fun id _ => regular_decl h cond id) fun _ =>
      regular_stmts h cond ss hs

/-- **The code of statements is regular.** -/
theorem regular_stmts {env : Env} (h : Folded env P (inits env.decls)) :
    ∀ (cond : Option Operand) (ss : List Stmt), Folded env P (Program.Stmt.listExprs ss) →
      Regular P (stmts env cond ss : Lower α Unit)
  | _, [], _ => by rw [stmts]; exact regular.pure _
  | cond, s :: ss, hs => by
    obtain ⟨hs, hss⟩ := folded_append.mp hs
    rw [stmts]
    exact regular.bind (regular_stmt h cond s hs) fun _ => regular_stmts h cond ss hss

end

end Stmt

end Lower

/-! ## Values -/

section Values

theorem avoids_append {bytes t u : Bytes} (ht : Avoids bytes t) (hu : Avoids bytes u) :
    Avoids bytes (t ++ u) :=
  List.forall_mem_append.mpr ⟨ht, hu⟩

/-- What neither the separator nor the parts have in them, the joined text has not. -/
theorem avoids_join {bytes sep : Bytes} (hsep : Avoids bytes sep) {ts : List Bytes}
    (h : ∀ t ∈ ts, Avoids bytes t) : Avoids bytes (join sep ts) := by
  fun_induction join sep ts with
  | case1 => exact List.forall_mem_nil _
  | case2 t => exact h t (List.mem_singleton_self t)
  | case3 t u ts ih =>
    have ht : Avoids bytes t := h t List.mem_cons_self
    exact avoids_append (avoids_append ht hsep) (ih fun v hv => h v (List.mem_cons_of_mem t hv))

theorem unbroken_braces {t : Bytes} (h : Unbroken t) :
    Unbroken (ascii "\x7b" ++ t ++ ascii "\x7d") :=
  avoids_append (avoids_append (by decide) h) (by decide)

theorem unbroken_decimal (n : Nat) : Unbroken (decimal n) := by
  intro b hb hmem
  have hends : [byte ' ', byte '\n'] ⊆ fieldEnds := by decide
  exact not_mem_fieldEnds_of_digit (digit_of_mem_decimal hb) (hends hmem)

theorem unbroken_fixedText (n : Nat) : Unbroken (Number.fixedText n) := by
  have hdigits : ∀ k, Unbroken (List.replicate k (byte '0') ++ decimal n) := fun k =>
    avoids_append (fun b hb => by rw [List.eq_of_mem_replicate hb]; decide) (unbroken_decimal n)
  refine avoids_append (fun b hb => hdigits _ b (List.mem_of_mem_take hb))
    (List.forall_mem_cons.mpr ⟨by decide, fun b hb => hdigits _ b (List.mem_of_mem_drop hb)⟩)

/-- The text of a number is digits, with a point, a sign or the letters of a special value. -/
theorem unbroken_number (v : Number.Value) : Unbroken v.text := by
  cases v with
  | nan => decide
  | infinite negative => cases negative <;> decide
  | finite negative mantissa exponent =>
    exact avoids_append (by cases negative <;> decide) (unbroken_fixedText _)

/-- A vector is written without blanks behind its commas. -/
theorem unbroken_literal (xs : List Float32) :
    Unbroken ((Constant.literal xs).text singleText) := by
  have hnumbers : ∀ t ∈ xs.map singleText, Unbroken t := by
    intro t ht
    obtain ⟨x, -, rfl⟩ := List.mem_map.mp ht
    exact unbroken_number _
  unfold Constant.text
  split
  · exact unbroken_number _
  · rename_i heq
    cases heq
    exact unbroken_braces (avoids_join (by decide) hnumbers)
  · rename_i heq
    cases heq

/-- A hardware register with components behind it. -/
theorem unbroken_hardware (h : Hardware) (path : List Component) :
    Unbroken ((Constant.register (α := Float32) (.hardware h) path).text singleText) := by
  refine avoids_append (by cases h <;> decide +kernel) fun b hb => ?_
  obtain ⟨c, -, hb⟩ := List.mem_flatMap.mp hb
  have hc : Unbroken (ascii "." ++ c.text) := by cases c <;> decide
  exact hc b hb

theorem unbroken_repeated (n : Nat) {t : Bytes} (h : Unbroken t) :
    Unbroken (ParamValue.repeated n t) :=
  unbroken_braces (avoids_join (by decide) fun u hu => List.eq_of_mem_replicate hu ▸ h)

/-- The values that the constants of a shader are declared with. -/
theorem readable_of_reduceOrZero {env : Env} {e : Expr} {v : ParamValue Float32} {folded : Bool}
    (h : reduceOrZero env e = .ok (v, folded))
    (hsources : ∀ r ∈ Machine.sources v, ∃ h, r = .hardware h) : v.Readable singleText := by
  unfold reduceOrZero at h
  cases hreduce : reduce (α := Float32) env e with
  | error e =>
    rw [hreduce] at h
    cases h
  | ok c =>
    rw [hreduce] at h
    cases c with
    | none =>
      cases h
      exact unbroken_repeated _ (by decide)
    | some c =>
      cases h
      cases c with
      | literal xs => exact unbroken_literal xs
      | register r path =>
        obtain ⟨h, rfl⟩ := hsources r (List.mem_singleton_self r)
        exact unbroken_hardware h path

/-- The values of the constants that every program has. -/
theorem readable_common {p : Param Float32} (hp : p ∈ ({} : Assembly Float32).immediates) :
    p.value.Readable singleText := by
  simp only [List.mem_cons, List.not_mem_nil, or_false] at hp
  rcases hp with rfl | rfl | rfl
  · exact unbroken_repeated _ (by decide)
  · exact unbroken_repeated _ (by decide)
  · exact unbroken_repeated _ (by decide)

end Values

/-! ## Programs -/

section Programs

open Lower Machine TypeSystem

variable {source : Bytes} {env : Env} {n : Nat} {ds es : List Declaration} {Γ : Context}
  {stmts : List Stmt}

/-- The register of a variable is readable. -/
theorem readable_of_register? (hparse : (parse source).errors = []) (hA : Accepted env n)
    (hB : AcceptedBody env n (parse source).body ds es Γ stmts) {id : DeclId} {r : Register}
    (hr : env.symbols.register? id = some r) : r.Readable := by
  obtain ⟨d, hd, hfit⟩ := hA.sound.fitting _ (Symbols.mem_of_register? hr)
  cases hfit with
  | own k ho => exact readable_user (isWord_of_accepted hparse hA hB hd ho) k
  | hardware h => exact readable_hardware h

theorem mem_all_of_arity? {op : Opcode} {k : Nat} (h : op.arity? = some k) : op ∈ Opcode.all := by
  cases op <;> first | decide | cases h

theorem newline_not_mem_mark (m : Mark) : byte '\n' ∉ m.text := by
  cases m <;> decide +kernel

/-- The variables of a shader have readable registers. -/
theorem readable_of_mem_mutables (hparse : (parse source).errors = []) (hA : Accepted env n)
    (hB : AcceptedBody env n (parse source).body ds es Γ stmts) {r : Register}
    (hr : r ∈ mutables env) : r.Readable := by
  obtain ⟨⟨id, r⟩, hentry, hr⟩ := List.mem_filterMap.mp hr
  obtain ⟨rfl, -⟩ := mutable?_eq_some hr
  exact readable_of_register? hparse hA hB (hA.sound.register? hentry)

/-- The constants of a shader have readable registers and values. -/
theorem readable_of_mem_constants (hparse : (parse source).errors = []) (hA : Accepted env n)
    (hB : AcceptedBody env n (parse source).body ds es Γ stmts) {p : Param Float32}
    (hp : p ∈ constants env) : p.reg.Readable ∧ p.value.Readable singleText := by
  obtain ⟨id, d, hr, -, -, -, hsources⟩ := exists_user_of_mem_constants hA hp
  obtain ⟨entry, -, hentry⟩ := List.mem_filterMap.mp hp
  obtain ⟨-, d', e, folded, -, -, -, hv⟩ := constant?_eq_some hentry
  exact ⟨readable_of_register? hparse hA hB hr, readable_of_reduceOrZero hv hsources⟩

/-- The registers of a program are those it declares in its five lists. -/
theorem readable_of_mem_declared {α : Type} {number : α → Bytes} {a : Assembly α}
    (hregisters : ∀ r ∈ a.userTemps ++ a.temps ++ a.longLived, r.Readable)
    (hparams : ∀ p ∈ a.userParams ++ a.immediates, p.reg.Readable ∧ p.value.Readable number)
    {r : Register} (hr : r ∈ a.declared) : r.Readable := by
  simp only [Assembly.declared, List.mem_append, List.mem_map] at hr hregisters hparams
  rcases hr with (((hr | ⟨p, hp, rfl⟩) | hr) | hr) | ⟨p, hp, rfl⟩
  · exact hregisters r (.inl (.inl hr))
  · exact (hparams p (.inl hp)).1
  · exact hregisters r (.inl (.inr hr))
  · exact hregisters r (.inr hr)
  · exact (hparams p (.inr hp)).1

/-- A regular line is readable if its operands are. -/
theorem Line.Regular.readable {l : Line} (h : l.Regular)
    (hinstr : ∀ i, l = .instr i → i.WellFormed ∧ ∀ o ∈ i.dst :: i.src, o.reg.Readable) :
    l.Readable := by
  cases l with
  | instr i =>
    obtain ⟨hi, hregs⟩ := hinstr i rfl
    refine ⟨mem_all_of_arity? hi.arity, List.forall_mem_cons.mpr ⟨?_, fun o ho => ?_⟩⟩
    · exact ⟨hi.target, hregs _ List.mem_cons_self⟩
    · exact ⟨hi.sources o ho, hregs o (List.mem_cons_of_mem _ ho)⟩
  | comment t =>
    obtain ⟨m, rfl⟩ := h
    exact newline_not_mem_mark m
  | blank => trivial
  | absent => exact h

/-- **What is compiled can be read.** -/
theorem exists_readable (hparse : (parse source).errors = [])
    (hcheck : (Program.ofAst (parse source).body).check.checker.errors = [])
    (hloops : (parse source).body.toStmt.loops = []) :
    ∃ a, (Program.ofAst (parse source).body).check.program.compile.outcome = .ok a ∧
      a.Readable singleText := by
  set p := (Program.ofAst (parse source).body).check.program
  have helab : Elaborates (parse source).body p := elaborates_check hparse hcheck
  obtain ⟨symbols, n, ds, es, Γ, stmts, hbuild, hbody, hA, hB, a, ha⟩ :=
    compiled_of_elaborates (α := Float32) helab hloops
  obtain ⟨u, lines, alloc, hrun, rfl⟩ := run_of_compile hbuild hbody ha
  obtain ⟨ht, hext, hcode, -⟩ := emits_stmt (nameable_of_accepted hA) _
    (tidy_start _ (constants ⟨p.decls, symbols⟩)) plainCondition_none u lines alloc hrun
  obtain ⟨hgrows, hover, -⟩ := uses_stmt _ (usableCondition_none _ _) u lines alloc hrun
  have hany : ∀ fs, Folded (α := Float32) ⟨p.decls, symbols⟩ (fun _ => True) fs :=
    fun _ _ _ _ _ => trivial
  obtain ⟨hlines, himmediates⟩ := regular_stmt (hany _) _ _ (hany _) _ u lines alloc hrun
  have hregisters : ∀ r ∈ alloc.program.userTemps ++ alloc.program.temps ++
      alloc.program.longLived, r.Readable := by
    rw [hgrows.userTemps, ht.temps, hgrows.numbered rfl]
    refine List.forall_mem_append.mpr ⟨List.forall_mem_append.mpr ⟨?_, ?_⟩, ?_⟩
    · exact fun r hr => readable_of_mem_mutables hparse hA hB hr
    · exact List.forall_mem_map.mpr fun k _ => readable_temp k
    · exact List.forall_mem_map.mpr fun k _ => readable_longLived k
  have hparams : ∀ p ∈ alloc.program.userParams ++ alloc.program.immediates,
      p.reg.Readable ∧ p.value.Readable singleText := by
    rw [hext.userParams]
    refine List.forall_mem_append.mpr ⟨fun p hp => readable_of_mem_constants hparse hA hB hp, ?_⟩
    intro p hp
    refine ⟨readable_isConstant (isConstant_of_mem_immediates ht hp), ?_⟩
    rcases himmediates p hp with hp | ⟨xs, hxs, -⟩
    · exact readable_common hp
    · exact hxs ▸ unbroken_literal xs
  refine ⟨_, ha, hregisters, hparams, ?_⟩
  -- an operand of the code is declared, or it is the hardware's
  show ∀ l ∈ alloc.program.lines ++ lines, l.Readable
  rw [hext.lines]
  intro l hl
  refine (hlines l hl).readable fun i hi => ?_
  have hi : i ∈ instructions lines := List.mem_filterMap.mpr ⟨l, hl, hi ▸ rfl⟩
  refine ⟨(hcode i hi).1, fun o ho => ?_⟩
  rcases declared_of_inUse hA ht hgrows.userTemps hext.userParams ((hover i hi).operands o ho)
    with hr | ⟨h, hr⟩
  · exact readable_of_mem_declared hregisters hparams hr
  · exact hr ▸ readable_hardware h

/-- **Assembly can be read back.** A text without parse errors, diagnostics and loops is compiled to
a program that `Assembly.read` finds again in the program's own text: its declarations in all five
lists, with the values as they are written, and its lines. So programs with one text are one
program. -/
theorem read_text_of_compile (source : Bytes) (hparse : (parse source).errors = [])
    (hcheck : (Program.ofAst (parse source).body).check.checker.errors = [])
    (hloops : (parse source).body.toStmt.loops = []) :
    ∃ a, (Program.ofAst (parse source).body).check.program.compile.outcome = .ok a ∧
      Assembly.read (a.text singleText) = some (a.written singleText) ∧
      ∀ source' a', (parse source').errors = [] →
        (Program.ofAst (parse source').body).check.checker.errors = [] →
        (parse source').body.toStmt.loops = [] →
        (Program.ofAst (parse source').body).check.program.compile.outcome = .ok a' →
        a'.text singleText = a.text singleText → a'.written singleText = a.written singleText := by
  obtain ⟨a, ha, hreadable⟩ := exists_readable hparse hcheck hloops
  have hread := Assembly.read_text hreadable
  refine ⟨a, ha, hread, ?_⟩
  intro source' a' hparse' hcheck' hloops' ha' htext
  obtain ⟨b, hb, hreadable'⟩ := exists_readable hparse' hcheck' hloops'
  cases ha'.symm.trans hb
  have hread' := Assembly.read_text hreadable'
  rw [htext, hread] at hread'
  exact (Option.some.inj hread').symm

/-- Names with underscores and digits at their ends, a hardware register as a value, and comments of
both kinds. -/
theorem read_text_of_compile_nested :
    let source :=
      ascii "\x7bfloat x_1;const float t_0=2.0;const vec4 e=env1;bool b=true;" ++
        ascii "if(env1[0]<t_0){x_1=-e[2];if(b)x_1=t_0/x_1;else x_1=x_1^0.5;}" ++
        ascii "gl_FragColor=env1*x_1;\x7d"
    (parse source).errors = [] ∧
    (Program.ofAst (parse source).body).check.checker.errors = [] ∧
    (parse source).body.toStmt.loops = [] ∧
    ∃ a, (Program.ofAst (parse source).body).check.program.compile.outcome = .ok a ∧
      Assembly.read (a.text singleText) = some (a.written singleText) ∧
      ∀ source' a', (parse source').errors = [] →
        (Program.ofAst (parse source').body).check.checker.errors = [] →
        (parse source').body.toStmt.loops = [] →
        (Program.ofAst (parse source').body).check.program.compile.outcome = .ok a' →
        a'.text singleText = a.text singleText → a'.written singleText = a.written singleText := by
  intro source
  obtain ⟨hparse, hcheck, hloops⟩ :=
    isCompilable_iff.mp (by decide +kernel : isCompilable source = true)
  exact ⟨hparse, hcheck, hloops, read_text_of_compile _ hparse hcheck hloops⟩

end Programs

end Shader
