import Shader.Proofs.FoldedNumbers
import Shader.Proofs.ReadableOutput

/-!
# The values of constant registers

A constant register is declared with a number, with one to four numbers in braces, or with an input
register of which one component may be selected. That holds of every program, because what folding
gives has the type of what is folded.

It leaves one thing open: how the numbers are written. A finite number is a decimal, and one that is
not finite is a word. So a value is well formed exactly if its numbers are finite, and they are
unless folding leaves the range of single precision.
-/

namespace Shader

open Program (Expr Stmt Ordered)
open Number (Scalar)
open Text

/-! ## The form of a value -/

/-- A decimal number: digits on both sides of a point, and a minus sign before a negative one. -/
def IsNumeral (t : Bytes) : Prop :=
  ∃ sign whole places, sign ∈ [[], ascii "-"] ∧ whole ≠ [] ∧ places ≠ [] ∧
    (∀ b ∈ whole ++ places, isDigit b = true) ∧ t = sign ++ whole ++ ascii "." ++ places

/-- How the numbers that are not finite are written. -/
def notFinite : List Bytes := [ascii "NaN", ascii "+Inf", ascii "-Inf"]

/-- `ValueText N t`: `t` is the text of a value whose numbers are written as `N` says. -/
inductive ValueText (N : Bytes → Prop) : Bytes → Prop
  | number {t : Bytes} (h : N t) : ValueText N t
  | list {ts : List Bytes} (hsome : ts ≠ []) (hlen : ts.length ≤ 4) (h : ∀ t ∈ ts, N t) :
      ValueText N (ascii "\x7b" ++ join (ascii ",") ts ++ ascii "\x7d")
  | register {h : Hardware} (hq : h.qualifier = .varying ∨ h.qualifier = .uniform) :
      ValueText N h.text
  | component {h : Hardware} (hq : h.qualifier = .varying ∨ h.qualifier = .uniform)
      (c : Component) : ValueText N (h.text ++ ascii "." ++ c.text)

section Numerals

theorem isNumeral_fixedText {sign : Bytes} (hsign : sign ∈ [[], ascii "-"]) (n : Nat) :
    IsNumeral (sign ++ Number.fixedText n) := by
  unfold Number.fixedText
  set digits := List.replicate (Number.places + 1 - (decimal n).length) (byte '0') ++ decimal n
    with hdigits
  have hlen : Number.places < digits.length := by
    rw [hdigits, List.length_append, List.length_replicate]
    omega
  have hall : ∀ b ∈ digits, isDigit b = true :=
    List.forall_mem_append.mpr
      ⟨fun b hb => List.eq_of_mem_replicate hb ▸ (by decide), fun b => isDigit_of_mem_decimal⟩
  refine ⟨sign, digits.take (digits.length - Number.places),
    digits.drop (digits.length - Number.places), hsign, ?_, ?_, ?_, ?_⟩
  · exact List.ne_nil_of_length_pos (by rw [List.length_take]; omega)
  · have hplaces : 0 < Number.places := by decide
    exact List.ne_nil_of_length_pos (by rw [List.length_drop]; omega)
  · rwa [List.take_append_drop]
  · rw [List.append_assoc, List.append_assoc]
    rfl

/-- A finite number is written as a decimal. -/
theorem isNumeral_singleText {x : Float32} (hx : x.isFinite = true) : IsNumeral (singleText x) := by
  obtain ⟨negative, mantissa, exponent, h⟩ := (Number.Single.isFinite_iff_ofSingle x).mp hx
  rw [singleText, h]
  exact isNumeral_fixedText (by cases negative <;> decide) _

/-- Any other number is written as a word. -/
theorem singleText_mem_notFinite {x : Float32} (hx : x.isFinite = false) :
    singleText x ∈ notFinite := by
  rw [singleText]
  cases h : Number.ofSingle x with
  | nan => decide
  | infinite negative => cases negative <;> decide
  | finite =>
    have hfinite := (Number.Single.isFinite_iff_ofSingle x).mpr ⟨_, _, _, h⟩
    cases hfinite.symm.trans hx

end Numerals

/-! ## Telling the words from numerals

The words have a capital letter `I` or `N`, and no well-formed value has. -/

section Letters

/-- The capital letters of the words. -/
def capitals : Bytes := [byte 'I', byte 'N']

theorem avoids_numeral {t : Bytes} (h : IsNumeral t) : Avoids capitals t := by
  obtain ⟨sign, whole, places, hsign, -, -, hdigits, rfl⟩ := h
  have hsigns : ∀ s ∈ [[], ascii "-"], Avoids capitals s := by decide
  have hdigit : ∀ b, isDigit b = true → b ∉ capitals := by
    intro b hb hmem
    rcases List.mem_pair.mp hmem with rfl | rfl <;> exact absurd hb (by decide)
  obtain ⟨hwhole, hplaces⟩ := List.forall_mem_append.mp hdigits
  exact avoids_append (avoids_append (avoids_append (hsigns sign hsign)
    fun b hb => hdigit b (hwhole b hb)) (by decide)) fun b hb => hdigit b (hplaces b hb)

theorem avoids_hardware (h : Hardware) : Avoids capitals h.text := by
  cases h <;> decide +kernel

theorem avoids_valueText {t : Bytes} (h : ValueText IsNumeral t) : Avoids capitals t := by
  cases h with
  | number h => exact avoids_numeral h
  | list _ _ h =>
    have hlist : Avoids capitals (join (ascii ",") _) :=
      avoids_join (by decide) fun t ht => avoids_numeral (h t ht)
    exact avoids_append (avoids_append (by decide) hlist) (by decide)
  | register => exact avoids_hardware _
  | component _ c =>
    exact avoids_append (avoids_append (avoids_hardware _) (by decide)) (by cases c <;> decide)

theorem not_avoids_of_mem_notFinite {t : Bytes} (h : t ∈ notFinite) : ¬Avoids capitals t := by
  have hwords : ∀ t ∈ notFinite, ¬Avoids capitals t := by decide
  exact hwords t h

end Letters

/-! ## Values that are declared -/

/-- The numbers of a value. -/
def ParamValue.numbers {α : Type} : ParamValue α → List α
  | .constant (.literal xs) => xs
  | _ => []

/-- The values that a program declares: at most four numbers, or an input with at most one component
selected. -/
inductive ParamValue.Declarable {α : Type} : ParamValue α → Prop
  | literal {xs : List α} (hsome : xs ≠ []) (hlen : xs.length ≤ 4) :
      Declarable (.constant (.literal xs))
  | register {h : Hardware} (hq : h.qualifier = .varying ∨ h.qualifier = .uniform) :
      Declarable (.constant (.register (.hardware h) []))
  | component {h : Hardware} (hq : h.qualifier = .varying ∨ h.qualifier = .uniform)
      (c : Component) : Declarable (.constant (.register (.hardware h) [c]))
  | truth (b : Bool) : Declarable (.truth b)
  | zeros {n : Nat} (hsome : n ≠ 0) (hlen : n ≤ 4) : Declarable (.zeros n)

namespace ParamValue

theorem valueText_repeated {N : Bytes → Prop} {t : Bytes} (ht : N t) {n : Nat} (hsome : n ≠ 0)
    (hlen : n ≤ 4) : ValueText N (repeated n t) := by
  refine .list (List.ne_nil_of_length_pos ?_) ?_ fun u hu => List.eq_of_mem_replicate hu ▸ ht
  · rw [List.length_replicate]
    omega
  · rwa [List.length_replicate]

theorem isNumeral_fixed : ∀ t ∈ [ascii "1.0", ascii "-1.0", ascii "0.0"], IsNumeral t := by
  have hdigits : ∀ sign ∈ [[], ascii "-"], ∀ d ∈ [ascii "1", ascii "0"],
      IsNumeral (sign ++ d ++ ascii "." ++ ascii "0") := by
    intro sign hsign d hd
    refine ⟨sign, d, ascii "0", hsign, ?_, by decide, ?_, rfl⟩
    all_goals rcases List.mem_pair.mp hd with rfl | rfl
    · decide
    · decide
    · exact List.all_eq_true.mp (by decide)
    · exact List.all_eq_true.mp (by decide)
  intro t ht
  simp only [List.mem_cons, List.not_mem_nil, or_false] at ht
  rcases ht with rfl | rfl | rfl
  · exact hdigits [] (by decide) (ascii "1") (by decide)
  · exact hdigits (ascii "-") (by decide) (ascii "1") (by decide)
  · exact hdigits [] (by decide) (ascii "0") (by decide)

/-- **A value has its form**, whatever its numbers are. -/
theorem Declarable.valueText {N : Bytes → Prop} {v : ParamValue Float32} (h : v.Declarable)
    (hN : ∀ t, IsNumeral t → N t) (hnumbers : ∀ x ∈ v.numbers, N (singleText x)) :
    ValueText N (v.text singleText) := by
  cases h with
  | @literal xs hsome hlen =>
    rcases xs with _ | ⟨x, _ | ⟨y, zs⟩⟩
    · exact absurd rfl hsome
    · exact .number (hnumbers x (List.mem_singleton_self x))
    · have hlist : ((x :: y :: zs).map singleText).length ≤ 4 := by rwa [List.length_map]
      exact .list (List.cons_ne_nil _ _) hlist (List.forall_mem_map.mpr hnumbers)
  | register hq =>
    rw [text, Constant.text, List.flatMap_nil, List.append_nil]
    exact .register hq
  | component hq c =>
    rw [text, Constant.text, List.flatMap_singleton, ← List.append_assoc]
    exact .component hq c
  | truth b =>
    refine valueText_repeated (hN _ (isNumeral_fixed _ ?_)) (by decide) (by decide)
    cases b <;> decide
  | zeros hsome hlen => exact valueText_repeated (hN _ (isNumeral_fixed _ (by decide))) hsome hlen

theorem mem_join {sep t : Bytes} {b : UInt8} (hb : b ∈ t) {ts : List Bytes} (ht : t ∈ ts) :
    b ∈ join sep ts := by
  fun_induction join sep ts with
  | case1 => cases ht
  | case2 u =>
    cases List.mem_singleton.mp ht
    exact hb
  | case3 u v ts ih =>
    rcases List.mem_cons.mp ht with rfl | ht
    · exact List.mem_append_left _ (List.mem_append_left _ hb)
    · exact List.mem_append_right _ (ih ht)

/-- The text of each number is in the text of the value. -/
theorem mem_text_of_mem_numbers {v : ParamValue Float32} {x : Float32} (hx : x ∈ v.numbers)
    {b : UInt8} (hb : b ∈ singleText x) : b ∈ v.text singleText := by
  rcases v with (xs | ⟨r, path⟩) | _ | _ | _
  · rw [text]
    unfold Constant.text
    split
    · rename_i heq
      cases heq
      cases List.mem_singleton.mp hx
      exact hb
    · rename_i heq
      cases heq
      exact List.mem_append_left _ (List.mem_append_right _
        (mem_join hb (List.mem_map_of_mem hx)))
    · rename_i heq
      cases heq
  all_goals cases hx

/-- **A value is well formed exactly if its numbers are finite.** -/
theorem Declarable.valueText_iff {v : ParamValue Float32} (h : v.Declarable) :
    ValueText IsNumeral (v.text singleText) ↔ ∀ x ∈ v.numbers, x.isFinite = true := by
  constructor
  · intro htext x hx
    have hplain := avoids_valueText htext
    cases hfinite : x.isFinite with
    | true => rfl
    | false =>
      have hword := not_avoids_of_mem_notFinite (singleText_mem_notFinite hfinite)
      exact absurd (fun b hb => hplain b (mem_text_of_mem_numbers hx hb)) hword
  · exact fun hfinite =>
      h.valueText (fun _ ht => ht) fun x hx => isNumeral_singleText (hfinite x hx)

end ParamValue

/-! ## What programs declare -/

section Programs

open Lower Machine Reduce TypeSystem

variable {env : Env} {n m : Nat} {e : Expr}

theorem TypedSomewhere.named (h : TypedSomewhere env n e) : Named (e.type env.decls) := by
  obtain ⟨Γ, next, a, t, hΓ, -, h⟩ := h
  rw [type_of_typed hΓ.lists h]
  exact h.named hΓ.named

/-- Numbers that folding gives can be declared. -/
theorem declarable_literal (hA : Accepted env n) (h : TypedSomewhere env n e) {xs : List Float32}
    (hxs : reduce env e = .ok (some (.literal xs))) :
    (ParamValue.constant (.literal xs)).Declarable := by
  obtain ⟨c, hc, hshape⟩ := h.folds (α := Float32) hA
  cases hxs.symm.trans hc
  have hlen : (xs.length : Int) = (e.type env.decls).order := hshape
  obtain ⟨-, hone, hfour⟩ := h.named
  exact .literal (List.ne_nil_of_length_pos (by omega)) (by omega)

theorem declarable_of_reduceOrZero (hA : Accepted env n) (hD : Ordered m env.decls)
    (hacc : Acc (Calls env.decls) e) (h : TypedSomewhere env n e) {v : ParamValue Float32}
    {folded : Bool} (hv : reduceOrZero env e = .ok (v, folded)) :
    v.Declarable ∧ (v.numbers = [] ∨ reduce env e = .ok (some (.literal v.numbers))) := by
  obtain ⟨c, hc, hv⟩ := exists_of_bind_eq_ok hv
  rcases c with _ | xs | ⟨r, path⟩
  · cases hv
    obtain ⟨-, hone, hfour⟩ := h.named
    exact ⟨.zeros (by omega) (by omega), .inl rfl⟩
  · cases hv
    exact ⟨declarable_literal hA h hc, .inr hc⟩
  · cases hv
    obtain ⟨⟨hw, rfl, hq, -⟩, ⟨rfl, -⟩ | ⟨c, rfl, -⟩⟩ := inputs_of_reduce hA hD hacc h hc
    · exact ⟨.register hq, .inl rfl⟩
    · exact ⟨.component hq c, .inl rfl⟩

theorem Program.Expr.mem_parts_self (e : Expr) : e ∈ e.parts := by
  cases e <;> exact List.mem_cons_self

/-- `Yields p symbols n xs`: some expression of the program is folded to the numbers `xs`. -/
def Yields (p : Program) (symbols : Symbols) (n : Nat) (xs : List Float32) : Prop :=
  ∃ e ∈ p.exprs, TypedSomewhere ⟨p.decls, symbols⟩ n e ∧
    reduce ⟨p.decls, symbols⟩ e = .ok (some (.literal xs))

variable {p : Program} {symbols : Symbols} {q : Param Float32}

/-- The constants of the shader. -/
theorem declarable_of_mem_constants (hA : Accepted ⟨p.decls, symbols⟩ n) (hD : Ordered m p.decls)
    (hacc : ∀ e ∈ p.exprs, Acc (Calls p.decls) e) (hq : q ∈ constants ⟨p.decls, symbols⟩) :
    q.value.Declarable ∧ (q.value.numbers = [] ∨ Yields p symbols n q.value.numbers) := by
  obtain ⟨entry, -, hentry⟩ := List.mem_filterMap.mp hq
  obtain ⟨-, d, e, folded, hd, -, hinit, hv⟩ := constant?_eq_some hentry
  have hd : d ∈ p.decls := List.mem_of_getElem? hd
  have hself : e ∈ d.init.elim [] Program.Expr.parts := by
    rw [hinit]
    exact e.mem_parts_self
  have htyped : TypedSomewhere ⟨p.decls, symbols⟩ n e := typed_of_mem_init hA hd hself
  have he : e ∈ p.exprs := List.mem_append_left _ (List.mem_flatMap.mpr ⟨d, hd, hself⟩)
  obtain ⟨hdeclarable, hnumbers⟩ := declarable_of_reduceOrZero hA hD (hacc e he) htyped hv
  exact ⟨hdeclarable, hnumbers.imp_right fun h => ⟨e, he, htyped, h⟩⟩

/-- The constants that every program has. -/
theorem declarable_common (hq : q ∈ ({} : Assembly Float32).immediates) :
    q.value.Declarable ∧ q.value.numbers = [] := by
  simp only [List.mem_cons, List.not_mem_nil, or_false] at hq
  rcases hq with rfl | rfl | rfl
  · exact ⟨.truth _, rfl⟩
  · exact ⟨.truth _, rfl⟩
  · exact ⟨.zeros (by decide) (by decide), rfl⟩

/-- Numbers that an expression of the program is folded to, in its table or in its statements. -/
theorem folded_yields {body : Ast.Scope} {ds es : List Declaration} {Γ : Context}
    {ids : List DeclId} {stmts : List Stmt} (hA : Accepted ⟨p.decls, symbols⟩ n)
    (hB : AcceptedBody ⟨p.decls, symbols⟩ n body ds es Γ stmts)
    (hbody : p.body = some ⟨ids, stmts⟩) :
    Folded ⟨p.decls, symbols⟩ (Yields p symbols n) (inits p.decls) ∧
      Folded ⟨p.decls, symbols⟩ (Yields p symbols n) (Program.Stmt.listExprs stmts) := by
  have hexprs : p.exprs = inits p.decls ++ Program.Stmt.listExprs stmts := by
    rw [Program.exprs, hbody]
    rfl
  rw [← folded_append, ← hexprs]
  intro e he xs hxs
  exact ⟨e, he, typed_of_mem_exprs hA hB hbody he hxs, hxs⟩

/-- **The declared values of an accepted program.** Each has its form, and its numbers are those
that an expression of the program is folded to. -/
theorem exists_declarable {source : Bytes} (hparse : (parse source).errors = [])
    (hcheck : (Program.ofAst (parse source).body).check.checker.errors = [])
    (hloops : (parse source).body.toStmt.loops = []) :
    let p := (Program.ofAst (parse source).body).check.program
    ∃ symbols n, ∃ a : Assembly Float32, Symbols.build p = .ok symbols ∧
      Accepted ⟨p.decls, symbols⟩ n ∧ p.compile.outcome = .ok a ∧
      ∀ q ∈ a.userParams ++ a.immediates, q.value.Declarable ∧
        (q.value.numbers = [] ∨ Yields p symbols n q.value.numbers) := by
  intro p
  have hD : Ordered _ p.decls := Checker.ordered_check (namedStmt_parse source)
  have helab : Elaborates (parse source).body p := elaborates_check hparse hcheck
  obtain ⟨symbols, n, ds, es, Γ, stmts, hbuild, hbody, hA, hB, a, ha⟩ :=
    compiled_of_elaborates (α := Float32) helab hloops
  refine ⟨symbols, n, a, hbuild, hA, ha, ?_⟩
  obtain ⟨u, lines, alloc, hrun, rfl⟩ := run_of_compile hbuild hbody ha
  obtain ⟨-, hext, -, -⟩ := emits_stmt (nameable_of_accepted hA) _
    (tidy_start _ (constants ⟨p.decls, symbols⟩)) plainCondition_none u lines alloc hrun
  obtain ⟨hinits, hstmts⟩ := folded_yields hA hB hbody
  obtain ⟨-, himmediates⟩ := regular_stmt hinits none (.scope _ stmts) hstmts _ u lines alloc hrun
  refine List.forall_mem_append.mpr ⟨fun q hq => ?_, fun q hq => ?_⟩
  · have hparams : (alloc.program.append lines).userParams = constants ⟨p.decls, symbols⟩ :=
      hext.userParams
    rw [hparams] at hq
    exact declarable_of_mem_constants hA hD (acc_of_mem_exprs source) hq
  · rcases himmediates q hq with hq | ⟨xs, hxs, hyields⟩
    · obtain ⟨hdeclarable, hnumbers⟩ := declarable_common hq
      exact ⟨hdeclarable, .inl hnumbers⟩
    · obtain ⟨e, he, htyped, hfolds⟩ := hyields
      rw [hxs]
      exact ⟨declarable_literal hA htyped hfolds, .inr ⟨e, he, htyped, hfolds⟩⟩

/-- **Values are well formed as far as their numbers are finite.** A text without parse errors,
diagnostics and loops is compiled to a program in which every constant register is declared with a
number, one to four numbers in braces, or an input register of which a component may be selected.
Its numbers are decimals exactly if all are finite. If not, they are what folding makes of an
expression that leads to an overflow: a decimal literal past the range, or an operator of arithmetic
whose operands are finite and whose result is not. -/
theorem valueText_of_compile (source : Bytes) (hparse : (parse source).errors = [])
    (hcheck : (Program.ofAst (parse source).body).check.checker.errors = [])
    (hloops : (parse source).body.toStmt.loops = []) :
    let p := (Program.ofAst (parse source).body).check.program
    ∃ symbols a, Symbols.build p = .ok symbols ∧ p.compile.outcome = .ok a ∧
      ∀ q ∈ a.userParams ++ a.immediates,
        ValueText (fun t => IsNumeral t ∨ t ∈ notFinite) (q.value.text singleText) ∧
        (ValueText IsNumeral (q.value.text singleText) ↔
          ∀ x ∈ q.value.numbers, x.isFinite = true) ∧
        (¬ValueText IsNumeral (q.value.text singleText) →
          ∃ e ∈ p.exprs, reduce ⟨p.decls, symbols⟩ e = .ok (some (.literal q.value.numbers)) ∧
            ∃ f, Contains p.decls e f ∧ Overflows ⟨p.decls, symbols⟩ f) := by
  intro p
  have hnamed := namedStmt_parse source
  have hD : Ordered _ p.decls := Checker.ordered_check hnamed
  obtain ⟨hinits, hranged⟩ := ranged_of_elaborates (elaborates_check hparse hcheck) hnamed
  obtain ⟨symbols, n, a, hbuild, hA, ha, hparams⟩ := exists_declarable hparse hcheck hloops
  refine ⟨symbols, a, hbuild, ha, fun q hq => ?_⟩
  obtain ⟨hdeclarable, hnumbers⟩ := hparams q hq
  have hiff := hdeclarable.valueText_iff
  refine ⟨hdeclarable.valueText (fun _ ht => .inl ht) fun x _ => ?_, hiff, fun hill => ?_⟩
  · cases hx : x.isFinite with
    | true => exact .inl (isNumeral_singleText hx)
    | false => exact .inr (singleText_mem_notFinite hx)
  · rw [hiff] at hill
    push Not at hill
    obtain ⟨x, hx, hover⟩ := hill
    -- a value with a number in it is what some expression folds to
    rcases hnumbers with hnone | ⟨e, he, htyped, hfolds⟩
    · rw [hnone] at hx
      cases hx
    · have hacc := acc_of_mem_exprs source e he
      have hbeyond : FoldsBeyond ⟨p.decls, symbols⟩ e :=
        ⟨_, hfolds, x, hx, Bool.eq_false_iff.mpr hover⟩
      exact ⟨e, he, hfolds, exists_overflows hA hD hinits hacc htyped (hranged e he) hbeyond⟩

/-- A product of two constants that are in range, declared as a word, among values of all other
kinds: the overflow is found behind the name of the constant. -/
theorem valueText_of_compile_product :
    let source :=
      ascii "\x7bconst float a=1.0e38;const float b=a*10.0;const vec2 v=vec2(-a,b);" ++
        ascii "const float c=env1[2];bool d=true;gl_FragColor=vec4(a,b,c,0.5);\x7d"
    let p := (Program.ofAst (parse source).body).check.program
    (parse source).errors = [] ∧
    (Program.ofAst (parse source).body).check.checker.errors = [] ∧
    (parse source).body.toStmt.loops = [] ∧
    ∃ symbols, ∃ a : Assembly Float32, Symbols.build p = .ok symbols ∧ p.compile.outcome = .ok a ∧
      (∃ q ∈ a.userParams, q.value.text singleText = ascii "program.env[1].z" ∧
        ValueText IsNumeral (q.value.text singleText)) ∧
      ∃ q ∈ a.userParams, q.value.text singleText = ascii "+Inf" ∧
        ∃ e ∈ p.exprs, ∃ f, Contains p.decls e f ∧ Overflows ⟨p.decls, symbols⟩ f := by
  intro source p
  have hyps :
      (isCompilable source && p.compile.outcome.toOption.any fun a =>
          (a.userParams.any fun q => q.value.text singleText == ascii "program.env[1].z" &&
            q.value.numbers.isEmpty) &&
          a.userParams.any fun q => q.value.text singleText == ascii "+Inf") = true := by
    decide +kernel
  rw [Bool.and_eq_true, isCompilable_iff] at hyps
  obtain ⟨⟨hparse, hcheck, hloops⟩, hany⟩ := hyps
  obtain ⟨symbols, a, hbuild, ha, hparams⟩ := valueText_of_compile _ hparse hcheck hloops
  rw [ha, Except.toOption, Option.any_some, Bool.and_eq_true, List.any_eq_true,
    List.any_eq_true] at hany
  obtain ⟨⟨q, hq, hregister⟩, r, hr, hword⟩ := hany
  rw [Bool.and_eq_true, beq_iff_eq, List.isEmpty_iff] at hregister
  rw [beq_iff_eq] at hword
  refine ⟨hparse, hcheck, hloops, symbols, a, hbuild, ha, ⟨q, hq, hregister.1, ?_⟩,
    r, hr, hword, ?_⟩
  · refine (hparams q (List.mem_append_left _ hq)).2.1.mpr ?_
    rw [hregister.2]
    exact List.forall_mem_nil _
  · have hill : ¬ValueText IsNumeral (r.value.text singleText) := fun hvalue => by
      have hplain := avoids_valueText hvalue
      rw [hword] at hplain
      exact absurd hplain (by decide)
    obtain ⟨e, he, -, hoverflow⟩ := (hparams r (List.mem_append_left _ hr)).2.2 hill
    exact ⟨e, he, hoverflow⟩

/-- The literal is too large for single precision, and the constant is declared with a word. -/
theorem value_of_large_literal :
    let source := ascii "{const float f=1.0e39;}"
    (parse source).errors = [] ∧
    (Program.ofAst (parse source).body).check.checker.errors = [] ∧
    (parse source).body.toStmt.loops = [] ∧
    ∃ a, (Program.ofAst (parse source).body).check.program.compile.outcome = .ok a ∧
      ∃ q ∈ a.userParams, q.value.text singleText = ascii "+Inf" ∧
        ¬ValueText IsNumeral (q.value.text singleText) := by
  intro source
  have hyps :
      (isCompilable source &&
        (Program.ofAst (parse source).body).check.program.compile.outcome.toOption.any fun a =>
          a.userParams.any fun q => q.value.text singleText == ascii "+Inf") = true := by
    decide +kernel
  rw [Bool.and_eq_true, isCompilable_iff] at hyps
  obtain ⟨⟨hparse, hcheck, hloops⟩, hany⟩ := hyps
  obtain ⟨-, -, a, -, -, ha, -⟩ := exists_declarable hparse hcheck hloops
  rw [ha, Except.toOption, Option.any_some] at hany
  obtain ⟨q, hq, htext⟩ := List.any_eq_true.mp hany
  have htext : q.value.text singleText = ascii "+Inf" := beq_iff_eq.mp htext
  refine ⟨hparse, hcheck, hloops, a, ha, q, hq, htext, fun hvalue => ?_⟩
  have hword : ¬Avoids capitals (ascii "+Inf") := by decide
  exact hword (htext ▸ avoids_valueText hvalue)

end Programs

end Shader
