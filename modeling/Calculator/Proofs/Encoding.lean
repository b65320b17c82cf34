import Mathlib
import Calculator.Binary64

/-!
# Calculator.Proofs.Encoding — floats and their bits

A float is a pattern of 64 bits: a sign, an exponent and a fraction. `Encodes` lists which patterns stand for which
numbers. A float is determined by the number that it stands for (`ofModel_pack_unpack`), and the significand of a
finite float fills its 53 bits unless the exponent is the least one (`Canonical`).
-/

namespace Calculator
namespace Binary64

open Float.Model hiding unpack pack
open Float.Model.UnpackedFloat

/-- The bit pattern `b` stands for the number `u`. -/
inductive Encodes (b : BitVec 64) : UnpackedFloat → Prop where
  | infinity {s : Sign} : packComponents .binary64 s (-1#11) 0#52 = b → Encodes b (.infinity s)
  /-- There is one pattern for what is not a number. -/
  | notANumber : (Format.binary64.Valid b → packedNaN .binary64 = b) → Encodes b .notANumber
  | zero {s : Sign} : packComponents .binary64 s 0#11 0#52 = b → Encodes b (.zero s)
  | subnormal {s : Sign} {f : BitVec 52} (hf : 0 < f.toNat) :
      packComponents .binary64 s 0#11 f = b → Encodes b (.finite s f.toNat leastExponent hf)
  | normal {s : Sign} {k : BitVec 11} {f : BitVec 52} (hf : 0 < (1#1 ++ f).toNat) : k ≠ -1#11 → k ≠ 0#11 →
      packComponents .binary64 s k f = b → Encodes b (.finite s (1#1 ++ f).toNat (k.toNat - 1075) hf)

/-! ## Taking floats apart -/

theorem encodes_unpack (b : BitVec 64) : Encodes b (unpack .binary64 b) := by
  have hb := @packComponents_unpackSign_unpackExponent_unpackMantissa .binary64 b
  unfold unpack
  dsimp only
  split
  · next hk =>
    split
    · next hf => exact .infinity (hk ▸ hf ▸ hb)
    · next hf => exact .notANumber fun hvalid => (hvalid.eq_packedNaN hk hf).symm
  · next hmax =>
    split
    · next hk =>
      split
      · next hf => exact .zero (hk ▸ hf ▸ hb)
      · next hf =>
        rw [hk] at hb
        simp only [hk]
        exact .subnormal _ hb
    · next hk => exact .normal _ hmax hk hb

/-! ## Putting floats together -/

theorem pack_finite (s : Sign) (m : Nat) (e : Int) (hm : 0 < m) :
    pack .binary64 (.finite s m e hm) =
      if 2 ^ 11 ≤ (e + 1023 + 52).toNat + 1 then packedInfinity .binary64 s
      else if m.log2 + 1 = 53 then
        packComponents .binary64 s (BitVec.ofNat 11 (e + 1023 + 52).toNat) (BitVec.ofNat 52 m)
      else packComponents .binary64 s 0#11 (BitVec.ofNat 52 m) := rfl

theorem leastNormal_eq : leastNormal = 2 ^ 52 := rfl

/-- The significand of a float with the fraction `f` that is not subnormal. -/
theorem toNat_implicit_append (f : BitVec 52) : (1#1 ++ f).toNat = leastNormal + f.toNat := by
  rw [BitVec.toNat_append, ← Nat.shiftLeft_add_eq_or_of_lt f.isLt]
  simp [Nat.shiftLeft_eq, leastNormal_eq]

/-- Nothing is lost when a float is taken apart. -/
theorem ofModel_pack_unpack (x : Float) : Float.ofModel (.pack x.toModel.unpack) = x := by
  obtain ⟨bits, hvalid⟩ := x
  have hbits : pack .binary64 (unpack .binary64 bits.toBitVec) = bits.toBitVec :=
    pack_unpack_of_valid hvalid
  simp only [Float.Model.pack, Float.Model.unpack, hbits]

theorem unpack_packComponents_normal (s : Sign) {k : BitVec 11} (f : BitVec 52) (hmax : k ≠ -1#11) (hk : k ≠ 0#11) :
    unpack .binary64 (packComponents .binary64 s k f) = .finite s (1#1 ++ f).toNat (k.toNat - 1075)
      (by rw [toNat_implicit_append]; exact Nat.add_pos_left (by decide) _) := by
  have hsign : Sign.ofBitVec (@unpackSign .binary64 (packComponents .binary64 s k f)) = s := by
    rw [unpackSign_packComponents, Sign.ofBitVec_toBitVec]
  unfold unpack
  simp only [unpackExponent_packComponents, unpackMantissa_packComponents, hsign]
  rw [if_neg hmax, if_neg hk]
  rfl

/-! ## Significands -/

/-- The significand and the exponent of a finite float. -/
structure Canonical (m : Nat) (e : Int) : Prop where
  pos : 0 < m
  lt : m < 2 * leastNormal
  leastExponent_le : leastExponent ≤ e
  normal : leastNormal ≤ m ∨ e = leastExponent

theorem canonical_of_unpack {x : Float} {s : Sign} {m : Nat} {e : Int} {hm : 0 < m}
    (h : x.toModel.unpack = .finite s m e hm) : Canonical m e := by
  have hx : Encodes x.toModel.toBits.toBitVec (.finite s m e hm) := h ▸ encodes_unpack _
  cases hx with
  | @subnormal _ f hf _ =>
    have hlt : f.toNat < leastNormal := f.isLt
    exact ⟨hf, by omega, Int.le_refl _, Or.inr rfl⟩
  | @normal _ k f hf _ hk _ =>
    have hlt : f.toNat < leastNormal := f.isLt
    have happend := toNat_implicit_append f
    have hpos : k.toNat ≠ 0 := fun h0 => hk (BitVec.eq_of_toNat_eq h0)
    refine ⟨hf, by omega, ?_, Or.inl (by omega)⟩
    rw [leastExponent]
    omega

/-- The greatest exponent of a finite float. -/
def greatestExponent : Int := 971

/-- Nothing is lost when a significand of 53 bits is put together with the exponent of a finite float. -/
theorem unpack_pack_of_normal {s : Sign} {m : Nat} {e : Int} (hc : Canonical m e) (hlow : leastNormal ≤ m)
    (he : e ≤ greatestExponent) : unpack .binary64 (pack .binary64 (.finite s m e hc.pos)) = .finite s m e hc.pos := by
  have hleast := hc.leastExponent_le
  have hhigh := hc.lt
  rw [leastNormal_eq] at hlow hhigh
  rw [leastExponent] at hleast
  rw [greatestExponent] at he
  have hlog : m.log2 = 52 := by
    rw [Nat.log2_eq_iff (by omega)]
    omega
  have hk : (BitVec.ofNat 11 (e + 1023 + 52).toNat).toNat = (e + 1023 + 52).toNat := by
    rw [BitVec.toNat_ofNat]
    omega
  have hmax : BitVec.ofNat 11 (e + 1023 + 52).toNat ≠ -1#11 := by
    intro h
    have hall : (-1#11).toNat = 2 ^ 11 - 1 := rfl
    rw [← h, hk] at hall
    omega
  have hzero : BitVec.ofNat 11 (e + 1023 + 52).toNat ≠ 0#11 := by
    intro h
    have hnil : (0#11).toNat = 0 := rfl
    rw [← h, hk] at hnil
    omega
  rw [pack_finite, if_neg (by omega), if_pos (by omega), unpack_packComponents_normal s _ hmax hzero]
  congr 1
  · rw [toNat_implicit_append, BitVec.toNat_ofNat, leastNormal_eq]
    omega
  · rw [hk]
    omega

end Binary64
end Calculator
