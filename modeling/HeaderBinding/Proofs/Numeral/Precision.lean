import HeaderBinding.Numeral.Precision
import Mathlib

namespace HeaderBinding.Numeral

open Float.Model (Format UnpackedFloat totalExponent)
open Float.Model.UnpackedFloat (ExtendedMantissa Sign pack unpack packComponents)

variable {format : Format} {s : Sign} {m : Nat} {e : Int}

structure Settled (format : Format) (m : Nat) (e : Int) : Prop where
  pos : 0 < m
  target : format.targetExponent (totalExponent m e) = e

theorem log2_shiftLeft (hm : 0 < m) (k : Nat) : (m <<< k).log2 = m.log2 + k := by
  induction k with
  | zero => rfl
  | succ k ih =>
    have hne : m <<< k ≠ 0 := by
      rw [Nat.shiftLeft_eq]
      exact (Nat.mul_pos hm (Nat.two_pow_pos k)).ne'
    rw [Nat.shiftLeft_succ, Nat.log2_two_mul hne, ih, Nat.add_assoc]

theorem totalExponent_shiftLeft (hm : 0 < m) (e : Int) (k : Nat) :
    totalExponent (m <<< k) (e - k) = totalExponent m e := by
  unfold totalExponent
  rw [log2_shiftLeft hm]
  omega

theorem shiftLeft_shiftRight_exact (m k : Nat) :
    (⟨m <<< k, false, false⟩ : ExtendedMantissa) >>> k = ⟨m, false, false⟩ := by
  change Nat.repeat ExtendedMantissa.shiftRightOne k ⟨m <<< k, false, false⟩ = _
  induction k generalizing m with
  | zero => rfl
  | succ k ih =>
    have hlast : ExtendedMantissa.shiftRightOne ⟨m <<< 1, false, false⟩ = ⟨m, false, false⟩ := by
      simp [ExtendedMantissa.shiftRightOne, Nat.shiftLeft_eq]
    rw [Nat.repeat, Nat.add_comm k 1, Nat.shiftLeft_add, ih, hlast]

theorem shiftToTargetExponent_exact (h : Settled format m e) (k : Nat) :
    UnpackedFloat.shiftToTargetExponent format (m <<< k) (e - k) .exact = (⟨m, false, false⟩, e) := by
  have hamount : (e - (e - k)).toNat = k := by omega
  unfold UnpackedFloat.shiftToTargetExponent UnpackedFloat.shiftToExponent
  simp only [totalExponent_shiftLeft h.pos, h.target, hamount, ExtendedMantissa.ofMantissaAndAccuracy,
    shiftLeft_shiftRight_exact]
  simp

theorem roundWithAccuracy_exact (h : Settled format m e) (k : Nat) :
    UnpackedFloat.roundWithAccuracy format s (m <<< k) (e - k) .exact = .finite s m e h.pos := by
  have hsettled := shiftToTargetExponent_exact h 0
  simp only [Nat.shiftLeft_zero, Int.natCast_zero, Int.sub_zero] at hsettled
  unfold UnpackedFloat.roundWithAccuracy
  simp only [shiftToTargetExponent_exact h k, ExtendedMantissa.roundedMantissa, ExtendedMantissa.accuracy,
    UnpackedFloat.Accuracy.roundToNearestEven, hsettled]
  rw [dif_neg h.pos.ne']

theorem round_shiftLeft (h : Settled format m e) (k : Nat) :
    UnpackedFloat.round format s (m <<< k) (e - k) = .finite s m e h.pos := by
  have hamount : (e - k - e).toNat = 0 := by omega
  unfold UnpackedFloat.round UnpackedFloat.decreaseExponent
  simp only [totalExponent_shiftLeft h.pos, h.target, hamount, Nat.shiftLeft_zero, Int.natCast_zero, Int.sub_zero]
  exact roundWithAccuracy_exact h k

theorem round_of_shiftLeft (hm : 0 < m) {k : Nat} (h : Settled format (m <<< k) (e - k)) :
    UnpackedFloat.round format s m e = .finite s (m <<< k) (e - k) h.pos := by
  have htarget : format.targetExponent (totalExponent m e) = e - k := by
    rw [← totalExponent_shiftLeft hm e k, h.target]
  have hamount : (e - (e - k)).toNat = k := by omega
  have hrounded := roundWithAccuracy_exact (s := s) h 0
  simp only [Nat.shiftLeft_zero, Int.natCast_zero, Int.sub_zero] at hrounded
  unfold UnpackedFloat.round UnpackedFloat.decreaseExponent
  simp only [htarget, hamount]
  exact hrounded

theorem toNat_implicit_append {n : Nat} (mantissa : BitVec n) : (1#1 ++ mantissa).toNat = 2 ^ n + mantissa.toNat := by
  rw [BitVec.toNat_append, ← Nat.shiftLeft_add_eq_or_of_lt mantissa.isLt]
  simp [Nat.shiftLeft_eq]

theorem targetExponent_single (m : Nat) (e : Int) :
    Format.binary32.targetExponent (totalExponent m e) = max (m.log2 + e - 23) (-149) := by
  unfold Format.targetExponent totalExponent
  have hbits : Format.binary32.mantissaBits = 24 := rfl
  have hmin : Format.binary32.minExponent = -149 := rfl
  rw [hbits, hmin]
  omega

theorem targetExponent_double (m : Nat) (e : Int) :
    Format.binary64.targetExponent (totalExponent m e) = max (m.log2 + e - 52) (-1074) := by
  unfold Format.targetExponent totalExponent
  have hbits : Format.binary64.mantissaBits = 53 := rfl
  have hmin : Format.binary64.minExponent = -1074 := rfl
  rw [hbits, hmin]
  omega

theorem settled_unpack_single {b : BitVec Format.binary32.numBits} {hm : 0 < m}
    (h : unpack .binary32 b = .finite s m e hm) : Settled .binary32 m e ∧ m.log2 ≤ 23 ∧ -149 ≤ e ∧ e ≤ 104 := by
  have hbias : Format.binary32.exponentBias = 127 := rfl
  unfold unpack at h
  dsimp only at h
  rw [hbias] at h
  split at h
  · split at h <;> cases h
  · rename_i hnotMax
    have hmantissa : (UnpackedFloat.unpackMantissa b).toNat < 2 ^ 23 := (UnpackedFloat.unpackMantissa b).isLt
    have hexponent : (UnpackedFloat.unpackExponent b).toNat < 255 := by
      have hlt : (UnpackedFloat.unpackExponent b).toNat < 256 := (UnpackedFloat.unpackExponent b).isLt
      have hne : (UnpackedFloat.unpackExponent b).toNat ≠ 255 := fun heq => hnotMax (BitVec.eq_of_toNat_eq heq)
      omega
    split at h
    · rename_i hzero
      split at h
      · cases h
      · cases h
        have hlog : (UnpackedFloat.unpackMantissa b).toNat.log2 < 23 := (Nat.log2_lt hm.ne').mpr hmantissa
        have hbiased : (UnpackedFloat.unpackExponent b).toNat = 0 := by
          rw [hzero]
          rfl
        refine ⟨⟨hm, ?_⟩, by omega, by omega, by omega⟩
        rw [targetExponent_single]
        omega
    · rename_i hpositive
      cases h
      have hbiased : 0 < (UnpackedFloat.unpackExponent b).toNat :=
        Nat.pos_of_ne_zero fun heq => hpositive (BitVec.eq_of_toNat_eq heq)
      have hlog : (1#1 ++ UnpackedFloat.unpackMantissa b).toNat.log2 = 23 := by
        rw [Nat.log2_eq_iff hm.ne', toNat_implicit_append]
        dsimp only
        omega
      refine ⟨⟨hm, ?_⟩, by omega, by omega, by omega⟩
      rw [targetExponent_single, hlog]
      omega

theorem unpack_pack_double (hm : 0 < m) (hlog : m.log2 = 52) (hlow : -1074 ≤ e) (hhigh : e ≤ 971) :
    unpack .binary64 (pack .binary64 (.finite s m e hm)) = .finite s m e hm := by
  have hbias : Format.binary64.exponentBias = 1023 := rfl
  have hbits : Format.binary64.mantissaBits = 53 := rfl
  obtain ⟨hlower, hupper⟩ := (Nat.log2_eq_iff hm.ne').mp hlog
  obtain ⟨biased, hbiased⟩ : ∃ n : Nat, e + (1023 : Nat) + (52 : Nat) = n := ⟨(e + 1023 + 52).toNat, by omega⟩
  have hpack : pack .binary64 (.finite s m e hm) =
      packComponents .binary64 s (BitVec.ofNat 11 biased) (BitVec.ofNat 52 m) := by
    have hsmall : ¬2 ^ 11 ≤ biased + 1 := by omega
    unfold pack
    simp only [hbias, hbits, hlog, hbiased, Int.toNat_natCast, if_neg hsmall, if_true]
  have hexponent : (BitVec.ofNat 11 biased).toNat = biased := by
    rw [BitVec.toNat_ofNat, Nat.mod_eq_of_lt (by omega)]
  have hmantissa : (1#1 ++ BitVec.ofNat 52 m).toNat = m := by
    rw [toNat_implicit_append, BitVec.toNat_ofNat]
    omega
  have hnotMax : BitVec.ofNat 11 biased ≠ -1#11 := by
    intro heq
    have hmax : biased = 2047 := by rw [← hexponent, heq]; rfl
    omega
  have hnotZero : BitVec.ofNat 11 biased ≠ 0#11 := by
    intro heq
    have hzero : biased = 0 := by rw [← hexponent, heq]; rfl
    omega
  rw [hpack]
  unfold unpack
  simp only [UnpackedFloat.unpackMantissa_packComponents, UnpackedFloat.unpackExponent_packComponents,
    UnpackedFloat.unpackSign_packComponents, Sign.ofBitVec_toBitVec, if_neg hnotMax, if_neg hnotZero, hexponent,
    hmantissa, hbias, UnpackedFloat.finite.injEq, true_and]
  omega

theorem pack_unpack_single (x : Float32.Model) : Float32.Model.pack x.unpack = x := by
  obtain ⟨bits, hvalid⟩ := x
  have hbits : pack .binary32 (unpack .binary32 bits.toBitVec) = bits.toBitVec :=
    UnpackedFloat.pack_unpack_of_valid hvalid
  unfold Float32.Model.pack Float32.Model.unpack
  simp only [hbits]

theorem roundTo_unpack_pack {b : BitVec Format.binary32.numBits} (h : (unpack .binary32 b).isFinite = true) :
    roundTo .binary32 (unpack .binary64 (pack .binary64 (roundTo .binary64 (unpack .binary32 b)))) =
      unpack .binary32 b := by
  cases hu : unpack .binary32 b with
  | infinity s =>
    rw [hu] at h
    cases h
  | notANumber =>
    rw [hu] at h
    cases h
  | zero s =>
    have hzero : unpack .binary64 (pack .binary64 (.zero s)) = .zero s := UnpackedFloat.unpack_packedZero
    simp only [roundTo, hzero]
  | finite s m e hm =>
    obtain ⟨hsettled, hlog, hlow, hhigh⟩ := settled_unpack_single hu
    obtain ⟨k, hk⟩ : ∃ k : Nat, m.log2 + k = 52 := ⟨52 - m.log2, by omega⟩
    have hwide : Settled .binary64 (m <<< k) (e - k) := by
      refine ⟨by rw [Nat.shiftLeft_eq]; exact Nat.mul_pos hm (Nat.two_pow_pos k), ?_⟩
      rw [targetExponent_double, log2_shiftLeft hm]
      omega
    have hwidened : roundTo .binary64 (.finite s m e hm) = .finite s (m <<< k) (e - k) hwide.pos :=
      round_of_shiftLeft hm hwide
    have hunpacked := unpack_pack_double (s := s) hwide.pos (by rw [log2_shiftLeft hm, hk])
      (show -1074 ≤ e - k by omega) (by omega)
    rw [hwidened, hunpacked]
    exact round_shiftLeft hsettled k

theorem narrow_widen {x : Float32} (h : x.isFinite = true) : narrow (widen x) = x := by
  obtain ⟨model⟩ := x
  have hround := roundTo_unpack_pack (b := model.toBits.toBitVec) h
  exact congrArg Float32.ofModel ((congrArg Float32.Model.pack hround).trans (pack_unpack_single model))

end HeaderBinding.Numeral
