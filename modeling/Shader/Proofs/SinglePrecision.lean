import Mathlib
import Shader.Number.Scalar

/-!
# Numbers that stay finite

Which operations of single precision lead out of the finite numbers. A number is finite if its
exponent field is not full. Negation, the minimum, the maximum and the truth values do not touch a
field that is not full, and an integer of 64 bits is far from filling it. All other operations
round, and may fill it.
-/

namespace Shader.Number

open Float.Model (UnpackedFloat)
open Float.Model.UnpackedFloat

namespace Single

/-! ## The exponent field -/

/-- The bits of the exponent. -/
def field (b : UInt32) : BitVec 8 := @unpackExponent .binary32 b.toBitVec

/-- A number whose exponent leaves the field room, and so is not packed to an infinity. -/
def Fits : UnpackedFloat → Prop
  | .infinity _ | .notANumber => False
  | .zero _ => True
  | .finite _ _ e _ => e + 150 < 255

theorem fits_neg (u : UnpackedFloat) : Fits u.neg ↔ Fits u := by
  cases u <;> exact Iff.rfl

/-- A number is finite exactly if its exponent field is not full. -/
theorem isFinite_unpack_iff (b : UInt32) :
    (unpack .binary32 b.toBitVec).isFinite = true ↔ field b ≠ -1#8 := by
  unfold unpack
  dsimp only
  by_cases hfull : @unpackExponent .binary32 b.toBitVec = -1#8
  · rw [if_pos hfull]
    refine ⟨fun h => ?_, fun h => absurd hfull h⟩
    split at h <;> cases h
  · rw [if_neg hfull]
    refine ⟨fun _ => hfull, fun _ => ?_⟩
    split
    · split <;> rfl
    · rfl

/-- What is unpacked from a field that is not full leaves the field room. -/
theorem fits_unpack {b : UInt32} (h : field b ≠ -1#8) : Fits (unpack .binary32 b.toBitVec) := by
  have hlt : (field b).toNat < 255 := by
    have hne : (field b).toNat ≠ 255 := fun heq => h (BitVec.eq_of_toNat_eq heq)
    have := (field b).isLt
    omega
  have hfull : @unpackExponent .binary32 b.toBitVec ≠ -1#8 := h
  unfold unpack
  dsimp only
  rw [if_neg hfull]
  split
  · split
    · trivial
    · rename_i hzero _
      show ((@unpackExponent .binary32 b.toBitVec).toNat : Int) - (127 + 23) + 1 + 150 < 255
      rw [hzero]
      decide
  · show ((field b).toNat : Int) - (127 + 23) + 150 < 255
    omega

/-- And what leaves it room is packed without filling it. -/
theorem field_pack {u : UnpackedFloat} (h : Fits u) :
    unpackExponent (pack .binary32 u) ≠ -1#8 := by
  cases u with
  | infinity s => exact h.elim
  | notANumber => exact h.elim
  | zero s =>
    show unpackExponent (packComponents .binary32 s 0 0) ≠ -1#8
    rw [unpackExponent_packComponents]
    decide
  | finite s m e hm =>
    have h : e + 150 < 255 := h
    unfold pack
    dsimp only
    rw [if_neg (by show ¬256 ≤ (e + 127 + 23).toNat + 1; omega)]
    split
    · rw [unpackExponent_packComponents]
      intro heq
      have hnat : (e + 127 + 23).toNat % 256 = 255 := congrArg BitVec.toNat heq
      omega
    · rw [unpackExponent_packComponents]
      decide

/-! ## Finite numbers -/

theorem isFinite_iff_field (x : Float32) : x.isFinite = true ↔ field x.toBits ≠ -1#8 :=
  isFinite_unpack_iff x.toBits

/-- What fits is packed to a finite number. -/
theorem isFinite_of_fits {u : UnpackedFloat} (h : Fits u) :
    (Float32.ofModel (.pack u)).isFinite = true :=
  (isFinite_iff_field _).mpr (field_pack h)

theorem isFinite_neg {x : Float32} (h : x.isFinite = true) : (-x).isFinite = true :=
  isFinite_of_fits ((fits_neg _).mpr (fits_unpack ((isFinite_iff_field x).mp h)))

theorem isFinite_ofBits {b : UInt32} (h : field b ≠ -1#8) : (Float32.ofBits b).isFinite = true :=
  isFinite_of_fits (fits_unpack h)

theorem isNaN_eq_false {x : Float32} (h : x.isFinite = true) : x.isNaN = false := by
  have h : x.toModel.unpack.isFinite = true := h
  show x.toModel.unpack.isNaN = false
  generalize x.toModel.unpack = u at h
  cases u with
  | notANumber => cases h
  | _ => rfl

theorem field_of_beq_zero {x : Float32} (h : (x == 0) = true) : field x.toBits = 0#8 := by
  have hcompare : (x.toModel.unpack.compare (.zero .positive) == some .eq) = true := h
  have hzero : ∃ s, unpack .binary32 x.toBits.toBitVec = .zero s := by
    show ∃ s, x.toModel.unpack = .zero s
    generalize x.toModel.unpack = u at hcompare
    cases u with
    | zero s => exact ⟨s, rfl⟩
    | notANumber => cases hcompare
    | infinity s => cases s <;> cases hcompare
    | finite s m e hm => cases s <;> cases hcompare
  obtain ⟨s, hs⟩ := hzero
  unfold unpack at hs
  dsimp only at hs
  split at hs
  · split at hs <;> cases hs
  · split at hs
    · rename_i hempty
      exact hempty
    · cases hs

theorem field_or (b c : UInt32) : field (b ||| c) = field b ||| field c := by
  unfold field unpackExponent
  rw [UInt32.toBitVec_or, BitVec.extractLsb_or]
  rfl

theorem field_and (b c : UInt32) : field (b &&& c) = field b &&& field c := by
  unfold field unpackExponent
  rw [UInt32.toBitVec_and, BitVec.extractLsb_and]
  rfl

/-- The minimum is one of its operands, or, of two zeros, the one that their bits give. -/
theorem isFinite_min {x y : Float32} (hx : x.isFinite = true) (hy : y.isFinite = true) :
    (Single.min x y).isFinite = true := by
  unfold Single.min
  rw [isNaN_eq_false hx, isNaN_eq_false hy]
  split
  · contradiction
  · split
    · rename_i hzero
      rw [Bool.and_eq_true] at hzero
      refine isFinite_ofBits ?_
      rw [field_or, field_of_beq_zero hzero.1, field_of_beq_zero hzero.2]
      decide
    · split
      · exact hx
      · exact hy

theorem isFinite_max {x y : Float32} (hx : x.isFinite = true) (hy : y.isFinite = true) :
    (Single.max x y).isFinite = true := by
  unfold Single.max
  rw [isNaN_eq_false hx, isNaN_eq_false hy]
  split
  · contradiction
  · split
    · rename_i hzero
      rw [Bool.and_eq_true] at hzero
      refine isFinite_ofBits ?_
      rw [field_and, field_of_beq_zero hzero.1, field_of_beq_zero hzero.2]
      decide
    · split
      · exact hy
      · exact hx

/-! ## The bits as a number -/

/-- The field as a number, for the arithmetic on bits below. -/
theorem toNat_field (b : UInt32) : (field b).toNat = b.toNat / 2 ^ 23 % 2 ^ 8 := by
  unfold field unpackExponent
  rw [BitVec.toNat_cast, BitVec.extractLsb_toNat, Nat.shiftRight_eq_div_pow]
  rfl

/-- The field is full from the magnitude of infinity on. -/
theorem field_ne_iff (b : UInt32) :
    field b ≠ -1#8 ↔ b.toNat % Format.binary32.signBit < Format.binary32.infinity := by
  have hfield := toNat_field b
  have hfull : field b = -1#8 ↔ (field b).toNat = 255 :=
    ⟨fun h => by rw [h]; rfl, fun h => BitVec.eq_of_toNat_eq h⟩
  have hsign : Format.binary32.signBit = 2147483648 := rfl
  have hinf : Format.binary32.infinity = 2139095040 := rfl
  rw [Ne, hfull, hfield, hsign, hinf]
  omega

/-- A bit pattern below infinity stands for a finite value. -/
theorem exists_decode_iff {f : Format} {bits : Nat} :
    (∃ negative mantissa exponent, f.decode bits = .finite negative mantissa exponent) ↔
      bits % f.signBit < f.infinity := by
  unfold Format.decode
  dsimp only
  split
  · rename_i h
    rw [h]
    exact ⟨fun ⟨_, _, _, h⟩ => (by cases h), fun h => absurd h (Nat.lt_irrefl _)⟩
  · split
    · rename_i h
      exact ⟨fun ⟨_, _, _, h⟩ => (by cases h), fun h' => absurd h (Nat.lt_asymm h')⟩
    · have hlt : bits % f.signBit < f.infinity := by omega
      refine ⟨fun _ => hlt, fun _ => ?_⟩
      split
      · exact ⟨_, _, _, rfl⟩
      · exact ⟨_, _, _, rfl⟩

/-- **A number is finite if it is written as one.** -/
theorem isFinite_iff_ofSingle (x : Float32) : x.isFinite = true ↔
    ∃ negative mantissa exponent, ofSingle x = .finite negative mantissa exponent := by
  rw [isFinite_iff_field, field_ne_iff]
  exact exists_decode_iff.symm

/-! ## Integers -/

/-- Rounding adds one at most. -/
theorem roundDiv_le (num den : Nat) : roundDiv num den ≤ num / den + 1 := by
  unfold roundDiv
  dsimp only
  split
  · omega
  · split
    · omega
    · split <;> omega

/-- The exponent of a whole number is its binary logarithm. -/
theorem floorLog2_one {k : Nat} (hk : k ≠ 0) : Format.floorLog2 k 1 = k.log2 := by
  unfold Format.floorLog2
  have hlog : Nat.log2 1 = 0 := by decide
  have hle : 2 ^ k.log2 ≤ k := Nat.log2_self_le hk
  dsimp only
  rw [hlog, if_neg]
  · simp
  · rw [show (-((k.log2 : Int) - (0 : Nat))).toNat = 0 by omega,
      show ((k.log2 : Int) - (0 : Nat)).toNat = k.log2 by omega]
    show ¬k * 1 < 1 * 2 ^ k.log2
    omega

/-- An integer is cut to 24 digits, or to one more if these round up. -/
theorem roundDiv_log2_le {k : Nat} :
    roundDiv (k * Nat.pow 2 (-((k.log2 : Int) - 23)).toNat)
      (1 * Nat.pow 2 ((k.log2 : Int) - 23).toNat) ≤ 2 ^ 24 := by
  have hlt : k < 2 ^ (k.log2 + 1) := Nat.lt_log2_self
  refine Nat.le_trans (roundDiv_le _ _) ?_
  rw [Nat.one_mul]
  show k * 2 ^ _ / 2 ^ _ < 2 ^ 24
  rcases Nat.lt_or_ge k.log2 23 with hsmall | hlarge
  · rw [show (-((k.log2 : Int) - 23)).toNat = 23 - k.log2 by omega,
      show ((k.log2 : Int) - 23).toNat = 0 by omega, Nat.pow_zero, Nat.div_one]
    calc k * 2 ^ (23 - k.log2) < 2 ^ (k.log2 + 1) * 2 ^ (23 - k.log2) :=
          Nat.mul_lt_mul_of_pos_right hlt (Nat.two_pow_pos _)
      _ = 2 ^ 24 := by rw [← Nat.pow_add]; congr 1; omega
  · rw [show (-((k.log2 : Int) - 23)).toNat = 0 by omega,
      show ((k.log2 : Int) - 23).toNat = k.log2 - 23 by omega, Nat.pow_zero, Nat.mul_one]
    refine Nat.div_lt_of_lt_mul ?_
    calc k < 2 ^ (k.log2 + 1) := hlt
      _ = 2 ^ (k.log2 - 23) * 2 ^ 24 := by rw [← Nat.pow_add]; congr 1; omega

/-- An integer of 64 bits is rounded to a number with room in its field. -/
theorem roundMagnitude_le {k : Nat} (hk : k < 2 ^ 64) :
    Format.binary32.roundMagnitude k 1 ≤ 191 * 2 ^ 23 := by
  unfold Format.roundMagnitude
  split
  · omega
  · rename_i hne
    dsimp only
    have hlog : k.log2 < 64 := (Nat.log2_lt hne).mpr hk
    have hquantum : Max.max ((k.log2 : Int) - Format.binary32.fraction) Format.binary32.least =
        k.log2 - 23 := by
      show Max.max ((k.log2 : Int) - 23) (-149) = _
      omega
    rw [floorLog2_one hne, hquantum]
    refine Nat.le_trans (Nat.min_le_left _ _) ?_
    have hmantissa := roundDiv_log2_le (k := k)
    have hexponent : ((k.log2 : Int) - 23 - Format.binary32.least).toNat ≤ 189 := by
      show ((k.log2 : Int) - 23 - (-149)).toNat ≤ 189
      omega
    have hscaled : ((k.log2 : Int) - 23 - Format.binary32.least).toNat *
        Nat.pow 2 Format.binary32.fraction ≤ 189 * 2 ^ 23 := Nat.mul_le_mul_right _ hexponent
    omega

/-- **Integer literals are finite.** -/
theorem isFinite_ofInt {z : Int} (hz : z.natAbs < 2 ^ 64) :
    (toSingle (Number.ofInt z)).isFinite = true := by
  refine isFinite_ofBits ((field_ne_iff _).mpr ?_)
  have hmag := roundMagnitude_le hz
  have hbits : Format.binary32.encode (Number.ofInt z) =
      (if z < 0 then Format.binary32.signBit else 0) +
        Format.binary32.roundMagnitude z.natAbs 1 := by
    show (if (decide (z < 0)) = true then _ else 0) +
      Format.binary32.roundMagnitude (z.natAbs * 1) 1 = _
    rw [Nat.mul_one]
    simp only [decide_eq_true_eq]
  have hsign : Format.binary32.signBit = 2147483648 := rfl
  have hinf : Format.binary32.infinity = 2139095040 := rfl
  rw [hbits, hsign, hinf]
  generalize Format.binary32.roundMagnitude z.natAbs 1 = m at hmag
  have hcast : ∀ v : Nat, v < 2 ^ 32 → (v.toUInt32).toNat = v := fun v hv =>
    UInt32.toNat_ofNat_of_lt' hv
  split
  · rw [hcast _ (by omega)]
    omega
  · rw [hcast _ (by omega)]
    omega

theorem isFinite_ofBool (b : Bool) : (Scalar.ofBool b : Float32).isFinite = true := by
  cases b <;> exact isFinite_ofInt (by decide)

end Single

end Shader.Number
