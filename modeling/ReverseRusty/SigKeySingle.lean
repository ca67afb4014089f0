import ReverseRusty.SigKey
import Mathlib

/-!
# ReverseRusty.SigKeySingle

The keys of single features.  The fold of a key loses information in
general, but not on one feature: the avalanche and the multiplications have
inverses, and the shifted copy mixed in between only touches the lowest 19
bits.

`sigKey_singleton_injective` is the result: a feature that reaches a posting
through its own key is the feature the row was posted under.
-/

namespace ReverseRusty

/-! ## the steps of a round have inverses -/

variable {x y : UInt64}

/-- A word is recovered from its sum with its own upper half. -/
theorem xorShift_injective (h : x ^^^ (x >>> 33) = y ^^^ (y >>> 33)) : x = y := by
  have hbits : ∀ z : UInt64, ∀ j, (z ^^^ (z >>> 33)).toBitVec.getLsbD j =
      (z.toBitVec.getLsbD j ^^ z.toBitVec.getLsbD (33 + j)) := fun z j => by simp
  have hbit : ∀ j, (x.toBitVec.getLsbD j ^^ x.toBitVec.getLsbD (33 + j)) =
      (y.toBitVec.getLsbD j ^^ y.toBitVec.getLsbD (33 + j)) := fun j => by
    rw [← hbits, ← hbits, h]
  have hhigh : ∀ j, 31 ≤ j → x.toBitVec.getLsbD j = y.toBitVec.getLsbD j := fun j hj => by
    have hover : ∀ z : UInt64, z.toBitVec.getLsbD (33 + j) = false := fun z =>
      BitVec.getLsbD_of_ge _ _ (by omega)
    have hj' := hbit j
    rwa [hover, hover, Bool.xor_false, Bool.xor_false] at hj'
  refine UInt64.eq_of_toBitVec_eq (BitVec.eq_of_getLsbD_eq fun j _ => ?_)
  have hj := hbit j
  rw [hhigh (33 + j) (by omega)] at hj
  exact (Bool.xor_left_inj).mp hj

theorem mul_injective_of_inverse {c c' : UInt64} (hc : c * c' = 1) (h : x * c = y * c) : x = y := by
  rw [← UInt64.mul_one x, ← UInt64.mul_one y, ← hc, ← UInt64.mul_assoc, ← UInt64.mul_assoc, h]

theorem avalancheSig_injective (h : avalancheSig x = avalancheSig y) : x = y :=
  xorShift_injective (mul_injective_of_inverse (show _ * 0x4f74430c22a54005 = 1 by decide)
    (xorShift_injective h))

/-! ## one round from the basis -/

def basisLow (f : FeatureId) : Nat := fnvBasis.toNat % 2 ^ 32 ^^^ f.toNat

theorem basisLow_lt (f : FeatureId) : basisLow f < 2 ^ 32 :=
  Nat.xor_lt_two_pow (by decide) f.toNat_lt

variable {f g : FeatureId}

theorem basisLow_injective (h : basisLow f = basisLow g) : f = g :=
  UInt32.toNat_inj.mp (Nat.xor_right_injective h)

theorem toNat_basis_xor (f : FeatureId) :
    (fnvBasis ^^^ f.toUInt64).toNat = 3421674724 * 2 ^ 32 + basisLow f := by
  have hlow : (fnvBasis.toNat ^^^ f.toNat) % 2 ^ 32 = basisLow f := by
    rw [Nat.xor_mod_two_pow, Nat.mod_eq_of_lt (b := 2 ^ 32) f.toNat_lt]
    rfl
  have hhigh : (fnvBasis.toNat ^^^ f.toNat) / 2 ^ 32 = 3421674724 := by
    rw [← Nat.shiftRight_eq_div_pow, Nat.shiftRight_xor_distrib, Nat.shiftRight_eq_div_pow f.toNat,
      Nat.div_eq_of_lt f.toNat_lt]
    rfl
  rw [UInt64.toNat_xor, UInt32.toNat_toUInt64, ← hlow, ← hhigh]
  exact (Nat.div_add_mod' _ _).symm

theorem exists_mixed (f : FeatureId) : ∃ k : Nat,
    (3421674724 * 2 ^ 32 + basisLow f) * 1099511628211 =
      ((fnvBasis ^^^ f.toUInt64) * fnvPrime).toNat + 2 ^ 64 * k := by
  refine ⟨(3421674724 * 2 ^ 32 + basisLow f) * 1099511628211 / 2 ^ 64, ?_⟩
  rw [UInt64.toNat_mul, toNat_basis_xor, show fnvPrime.toNat = 1099511628211 from rfl]
  exact (Nat.mod_add_div _ _).symm

theorem toNat_shift (f : FeatureId) : (f.toUInt64 >>> 13).toNat < 2 ^ 19 := by
  have hf := f.toNat_lt
  have hshift : (f.toUInt64 >>> 13).toNat = f.toNat / 2 ^ 13 := by
    rw [UInt64.toNat_shiftRight, UInt32.toNat_toUInt64, Nat.shiftRight_eq_div_pow]
    rfl
  omega

/-- A multiple of the prime is below `2 ^ 19` only at zero, among the
differences of two lower halves. -/
theorem eq_zero_of_mul_prime {d e k : Int} (hd : d < 2 ^ 32) (hd' : -2 ^ 32 < d) (he : e < 2 ^ 19)
    (he' : -2 ^ 19 < e) (h : d * 1099511628211 = e + 2 ^ 64 * k) : d = 0 := by
  -- the prime is `2 ^ 40 + 435`
  have hcarry : 435 * d = e + 2 ^ 40 * (2 ^ 24 * k - d) := by omega
  obtain hm | hm | hm : 2 ^ 24 * k - d = -1 ∨ 2 ^ 24 * k - d = 0 ∨ 2 ^ 24 * k - d = 1 := by omega
  · omega
  · omega
  · omega

/-- No multiple of the prime by the basis with a feature mixed in is below
`2 ^ 19`. -/
theorem mul_prime_ne {x u k : Int} (hx : 0 ≤ x) (hx' : x < 2 ^ 32) (hu : 0 ≤ u) (hu' : u < 2 ^ 19) :
    (3421674724 * 2 ^ 32 + x) * 1099511628211 ≠ u + 2 ^ 64 * k := by
  intro h
  generalize ha : 3421674724 * 2 ^ 32 + x = a at h
  have hcarry : 435 * a = u + 2 ^ 40 * (2 ^ 24 * k - a) := by omega
  obtain hm | hm | hm : 2 ^ 24 * k - a = 5814173847 ∨ 2 ^ 24 * k - a = 5814173848 ∨
      2 ^ 24 * k - a = 5814173849 := by omega
  · omega
  · omega
  · omega

theorem mixFeature_ne_zero (f : FeatureId) : mixFeature fnvBasis f ≠ 0 := by
  intro h
  have hzero : (fnvBasis ^^^ f.toUInt64) * fnvPrime ^^^ (f.toUInt64 >>> 13) = 0 :=
    mul_injective_of_inverse (show fnvPrime * 0xce965057aff6957b = 1 by decide)
      (h.trans (UInt64.zero_mul).symm)
  have hsame : (fnvBasis ^^^ f.toUInt64) * fnvPrime = f.toUInt64 >>> 13 :=
    UInt64.xor_eq_zero_iff.mp hzero
  obtain ⟨k, hk⟩ := exists_mixed f
  rw [hsame] at hk
  have hx := basisLow_lt f
  have hu := toNat_shift f
  exact @mul_prime_ne (basisLow f) (f.toUInt64 >>> 13).toNat k (by omega) (by omega) (by omega)
    (by omega) (by omega)

theorem mixFeature_injective (h : mixFeature fnvBasis f = mixFeature fnvBasis g) : f = g := by
  have hmixed : (fnvBasis ^^^ f.toUInt64) * fnvPrime ^^^ (f.toUInt64 >>> 13) =
      (fnvBasis ^^^ g.toUInt64) * fnvPrime ^^^ (g.toUInt64 >>> 13) :=
    mul_injective_of_inverse (show fnvPrime * 0xce965057aff6957b = 1 by decide) h
  -- the last step of the round only touches the lowest 19 bits
  have hupper : ((fnvBasis ^^^ f.toUInt64) * fnvPrime).toNat / 2 ^ 19 =
      ((fnvBasis ^^^ g.toUInt64) * fnvPrime).toNat / 2 ^ 19 := by
    have hshift := congrArg (fun w : UInt64 => w.toNat >>> 19) hmixed
    simp only [UInt64.toNat_xor (_ * _), Nat.shiftRight_xor_distrib] at hshift
    simp only [Nat.shiftRight_eq_div_pow] at hshift
    rwa [Nat.div_eq_of_lt (toNat_shift f), Nat.div_eq_of_lt (toNat_shift g), Nat.xor_zero,
      Nat.xor_zero] at hshift
  obtain ⟨k, hk⟩ := exists_mixed f
  obtain ⟨k', hk'⟩ := exists_mixed g
  have hx := basisLow_lt f
  have hy := basisLow_lt g
  have hdiff : ((basisLow f : Int) - basisLow g) = 0 := by
    refine @eq_zero_of_mul_prime _ (((fnvBasis ^^^ f.toUInt64) * fnvPrime).toNat -
      ((fnvBasis ^^^ g.toUInt64) * fnvPrime).toNat) (k - k') ?_ ?_ ?_ ?_ ?_ <;> omega
  exact basisLow_injective (by omega)

/-- Nor does any multiple of that kind agree with the word in front of the
basis in the bits above the lowest 19. -/
theorem mul_prime_ne_basis {x u k : Int} (hx : 0 ≤ x) (hx' : x < 2 ^ 32) (hu : 0 ≤ u)
    (hu' : u < 2 ^ 19) :
    (3421674724 * 2 ^ 32 + x) * 1099511628211 ≠ 3994426756461 * 2 ^ 19 + u + 2 ^ 64 * k := by
  intro h
  generalize ha : 3421674724 * 2 ^ 32 + x = a at h
  have hcarry : 435 * a = 3994426756461 * 2 ^ 19 + u + 2 ^ 40 * (2 ^ 24 * k - a) := by omega
  obtain hm | hm | hm : 2 ^ 24 * k - a = 5812269156 ∨ 2 ^ 24 * k - a = 5812269157 ∨
      2 ^ 24 * k - a = 5812269158 := by omega
  · omega
  · omega
  · omega

/-- The round of a single feature never ends where it began. -/
theorem mixFeature_ne_basis (f : FeatureId) : mixFeature fnvBasis f ≠ fnvBasis := by
  intro h
  have hback : (fnvBasis ^^^ f.toUInt64) * fnvPrime ^^^ (f.toUInt64 >>> 13) = 0x1d10331a6b696bc7 :=
    mul_injective_of_inverse (show fnvPrime * 0xce965057aff6957b = 1 by decide)
      (h.trans (by decide))
  have hupper : ((fnvBasis ^^^ f.toUInt64) * fnvPrime).toNat / 2 ^ 19 = 3994426756461 := by
    have hshift := congrArg (fun w : UInt64 => w.toNat >>> 19) hback
    simp only [UInt64.toNat_xor (_ * _), Nat.shiftRight_xor_distrib] at hshift
    simp only [Nat.shiftRight_eq_div_pow] at hshift
    rwa [Nat.div_eq_of_lt (toNat_shift f), Nat.xor_zero] at hshift
  obtain ⟨k, hk⟩ := exists_mixed f
  have hx := basisLow_lt f
  exact @mul_prime_ne_basis (basisLow f) (((fnvBasis ^^^ f.toUInt64) * fnvPrime).toNat % 2 ^ 19) k
    (by omega) (by omega) (by omega) (by omega) (by omega)

/-! ## keys -/

theorem avalancheSig_mixFeature_ne (f : FeatureId) : avalancheSig (mixFeature fnvBasis f) ≠ 0 :=
  fun hf => mixFeature_ne_zero f (avalancheSig_injective (hf.trans (by decide)))

theorem sigKey_singleton (f : FeatureId) : sigKey [f] = avalancheSig (mixFeature fnvBasis f) :=
  if_neg (avalancheSig_mixFeature_ne f)

/-- **Single features have different keys.** -/
theorem sigKey_singleton_injective (h : sigKey [f] = sigKey [g]) : f = g := by
  rw [sigKey_singleton, sigKey_singleton] at h
  exact mixFeature_injective (avalancheSig_injective h)

/-- **Keys tell single features apart**, from each other, from the vacant
slot of a frozen table and from the key of the always-candidates. -/
theorem sigKey_distinguishes :
    (∀ f g : FeatureId, f ≠ g → sigKey [f] ≠ sigKey [g]) ∧
    (∀ features : List FeatureId, sigKey features ≠ 0) ∧
    ∀ f : FeatureId, sigKey [f] ≠ universalSig := by
  refine ⟨fun f g hne h => hne (sigKey_singleton_injective h), sigKey_ne_zero, fun f h => ?_⟩
  have huniversal : universalSig = avalancheSig fnvBasis := by decide
  rw [sigKey_singleton, huniversal] at h
  exact mixFeature_ne_basis f (avalancheSig_injective h)

end ReverseRusty
