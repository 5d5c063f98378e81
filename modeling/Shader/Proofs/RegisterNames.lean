import Mathlib.Data.List.Basic
import Mathlib.Logic.Function.Basic
import Shader.Assembly.Register
import Shader.Number.Decimal

/-!
# No two registers share a name

Names of registers are put together from what a shader calls its variables, from fixed texts and
from numbers. Names of variables start with a dollar sign and the compiler's own with an underscore,
so neither can be taken for the other, whatever a shader chooses. In a name with a number, the
number is behind the last underscore, as decimals have none. So the name tells which register it is,
among all that a program can declare.
-/

namespace Shader

namespace Text

theorem isDigit_of_mem {n : Nat} {c : Char} (h : c ∈ Nat.toDigits 10 n) : c.isDigit = true :=
  Nat.isDigit_of_mem_toDigits (by decide) (by decide) h

theorem toNat_byte_of_isDigit {c : Char} (h : c.isDigit = true) :
    (byte c).toNat = c.toNat ∧ 48 ≤ c.toNat ∧ c.toNat ≤ 57 := by
  have hrange : 48 ≤ c.toNat ∧ c.toNat ≤ 57 := Char.isDigit_iff_toNat.mp h
  refine ⟨?_, hrange⟩
  rw [byte, UInt8.toNat_ofNat']
  exact Nat.mod_eq_of_lt (by omega)

/-- The bytes of a decimal number are digits. -/
theorem digit_of_mem_decimal {n : Nat} {b : UInt8} (h : b ∈ decimal n) :
    48 ≤ b.toNat ∧ b.toNat ≤ 57 := by
  obtain ⟨c, hc, rfl⟩ := List.mem_map.mp h
  obtain ⟨heq, hle⟩ := toNat_byte_of_isDigit (isDigit_of_mem hc)
  rwa [heq]

theorem isDigit_of_mem_decimal {n : Nat} {b : UInt8} (h : b ∈ decimal n) : isDigit b = true := by
  simp only [isDigit, Bool.and_eq_true, decide_eq_true_eq, UInt8.le_iff_toNat_le]
  exact digit_of_mem_decimal h

/-- A decimal number stands for the number. -/
theorem digitsValue_decimal (n : Nat) : Number.digitsValue (decimal n) = n := by
  rw [Number.digitsValue, decimal, List.foldl_map]
  refine Eq.trans (List.foldl_ext _ _ _ fun m c hc => ?_) (Nat.ofDigitChars_ten_toDigits (n := n))
  rw [(toNat_byte_of_isDigit (isDigit_of_mem hc)).1]
  rfl

theorem decimal_injective : Function.Injective decimal := by
  refine Function.LeftInverse.injective
    (g := fun bs => Nat.ofDigitChars 10 (bs.map fun b => Char.ofNat b.toNat) 0) fun n => ?_
  have hchars : (decimal n).map (fun b => Char.ofNat b.toNat) = Nat.toDigits 10 n := by
    rw [decimal, List.map_map]
    refine (List.map_congr_left fun c hc => ?_).trans (List.map_id _)
    rw [Function.comp_apply, (toNat_byte_of_isDigit (isDigit_of_mem hc)).1, Char.ofNat_toNat]
    rfl
  show Nat.ofDigitChars 10 ((decimal n).map fun b => Char.ofNat b.toNat) 0 = n
  rw [hchars]
  exact Nat.ofDigitChars_ten_toDigits

theorem decimal_ne_nil (n : Nat) : decimal n ≠ [] := by
  rw [decimal, ne_eq, List.map_eq_nil_iff]
  exact Nat.toDigits_ne_nil

/-- A name behind which a number stands. -/
def numbered (name : Bytes) (n : Nat) : Bytes := name ++ byte '_' :: decimal n

theorem not_underscore_of_mem_decimal {n : Nat} {b : UInt8} (h : b ∈ decimal n) :
    (b != byte '_') = true := by
  have hb := digit_of_mem_decimal h
  rw [bne_iff_ne]
  rintro rfl
  exact absurd hb (by decide)

/-- The number is behind the last underscore. -/
theorem takeWhile_reverse_numbered (name : Bytes) (n : Nat) :
    (numbered name n).reverse.takeWhile (· != byte '_') = (decimal n).reverse := by
  rw [numbered, List.reverse_append, List.reverse_cons, List.append_assoc,
    List.takeWhile_append_of_pos fun b hb =>
      not_underscore_of_mem_decimal (List.mem_reverse.mp hb)]
  simp

theorem dropWhile_reverse_numbered (name : Bytes) (n : Nat) :
    (numbered name n).reverse.dropWhile (· != byte '_') = byte '_' :: name.reverse := by
  rw [numbered, List.reverse_append, List.reverse_cons, List.append_assoc,
    List.dropWhile_append_of_pos fun b hb =>
      not_underscore_of_mem_decimal (List.mem_reverse.mp hb)]
  simp

/-- So a numbered name can be taken apart. -/
theorem numbered_inj {name name' : Bytes} {n n' : Nat}
    (h : numbered name n = numbered name' n') : name = name' ∧ n = n' := by
  have hn : n = n' := by
    refine decimal_injective (List.reverse_injective ?_)
    rw [← takeWhile_reverse_numbered name, ← takeWhile_reverse_numbered name', h]
  subst hn
  exact ⟨List.append_cancel_right h, rfl⟩

/-- A numbered name ends in a digit. -/
theorem getLast?_numbered (name : Bytes) (n : Nat) :
    ∃ b, (numbered name n).getLast? = some b ∧ 48 ≤ b.toNat ∧ b.toNat ≤ 57 := by
  have hne := decimal_ne_nil n
  refine ⟨(decimal n).getLast hne, ?_, digit_of_mem_decimal (List.getLast_mem hne)⟩
  rw [numbered, List.getLast?_append_cons, List.getLast?_cons, List.getLast?_eq_some_getLast hne]
  rfl

end Text

namespace Register

open Text

/-- The parts of a numbered register's name. -/
def stem? : Register → Option (Bytes × Nat)
  | .user name copy => some (ascii "$" ++ name, copy)
  | .temp n => some (ascii "__$temp", n)
  | .longLived n => some (ascii "__$templl", n)
  | .immediate n => some (ascii "__$param", n)
  | _ => none

theorem text_of_stem {r : Register} {p : Bytes × Nat} (h : r.stem? = some p) :
    r.text = numbered p.1 p.2 := by
  cases r <;> cases h
  · rw [text, numbered, List.append_assoc]
    rfl
  all_goals rfl

theorem stem?_inj {r r' : Register} {p : Bytes × Nat} (h : r.stem? = some p)
    (h' : r'.stem? = some p) : r = r' := by
  -- the first byte sets variables apart from the rest
  have huser : ∀ {name s : Bytes}, ascii "$" ++ name = byte '_' :: s → False := fun heq =>
    absurd (List.cons.inj heq).1 (by decide)
  obtain ⟨stem, n⟩ := p
  cases r <;> cases h <;> cases r' <;>
    simp only [stem?, Option.some.injEq, Prod.mk.injEq, reduceCtorEq] at h' <;>
    obtain ⟨hstem, rfl⟩ := h'
  case user.refl.user => rw [List.append_cancel_left hstem]
  case temp.refl.temp | longLived.refl.longLived | immediate.refl.immediate => rfl
  all_goals first
    | exact (huser hstem).elim
    | exact (huser hstem.symm).elim
    | exact absurd hstem (by decide)

/-- The registers that a program can declare. -/
def Declarable (r : Register) : Prop :=
  (∃ p, r.stem? = some p) ∨ r ∈ [.truth true, .truth false, .zero]

theorem getLast?_text_of_common {r : Register} (h : r ∈ [.truth true, .truth false, .zero]) :
    r.text.getLast? = some (byte 'e') ∨ r.text.getLast? = some (byte 'o') := by
  simp only [List.mem_cons, List.not_mem_nil, or_false] at h
  rcases h with rfl | rfl | rfl <;> decide

/-- **The name of a register says which it is.** -/
theorem text_inj {r r' : Register} (hr : r.Declarable) (hr' : r'.Declarable)
    (h : r.text = r'.text) : r = r' := by
  -- the common constants have no number
  have hmixed : ∀ {r r' : Register} {p : Bytes × Nat}, r.stem? = some p →
      r' ∈ [.truth true, .truth false, .zero] → r.text ≠ r'.text := by
    intro r r' p hp hcommon heq
    obtain ⟨b, hb, hle, hge⟩ := getLast?_numbered p.1 p.2
    rw [← text_of_stem hp, heq] at hb
    rcases getLast?_text_of_common hcommon with hlast | hlast <;> rw [hlast] at hb <;> cases hb
    · exact absurd hge (by decide)
    · exact absurd hge (by decide)
  rcases hr with ⟨p, hp⟩ | hr <;> rcases hr' with ⟨p', hp'⟩ | hr'
  · rw [text_of_stem hp, text_of_stem hp'] at h
    obtain ⟨hstem, hn⟩ := numbered_inj h
    exact stem?_inj hp (by rw [hp', Prod.ext hstem hn])
  · exact absurd h (hmixed hp hr')
  · exact absurd h.symm (hmixed hp' hr)
  · simp only [List.mem_cons, List.not_mem_nil, or_false] at hr hr'
    rcases hr with rfl | rfl | rfl <;> rcases hr' with rfl | rfl | rfl <;>
      first | rfl | exact absurd h (by decide)

/-- The first byte sets declared registers apart from those of the hardware. -/
theorem text_ne_hardware {r : Register} (hr : r.Declarable) (h : Hardware) : r.text ≠ h.text := by
  have hhead : r.text.head? = some (byte '$') ∨ r.text.head? = some (byte '_') := by
    rcases hr with ⟨p, hp⟩ | hr
    · cases r <;> cases hp
      · exact .inl rfl
      · exact .inr rfl
      · exact .inr rfl
      · exact .inr rfl
    · simp only [List.mem_cons, List.not_mem_nil, or_false] at hr
      rcases hr with rfl | rfl | rfl <;> exact .inr rfl
  intro heq
  rw [heq] at hhead
  revert hhead
  cases h <;> decide

end Register

end Shader
