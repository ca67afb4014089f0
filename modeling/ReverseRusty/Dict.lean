import ReverseRusty.SigKey

/-!
# ReverseRusty.Dict

The feature dictionary (`dict.rs`): names interned to dense ids, their
query frequencies, and the common mask — the 64 bits given once, by
`finalizeMask`, to the most frequent features.

The structure carries what every constructor keeps: the columns are
parallel, a mask bit is at most the `noMaskBit` sentinel, and no bit is
given to two features.
-/

namespace ReverseRusty

open List

/-- The sentinel bit of a feature outside the common mask. -/
def noMaskBit : Nat := 64

/-- Largest `u32`: where the frequency counter saturates. -/
def u32Max : Nat := 2 ^ 32 - 1

/-- The feature dictionary: per id a name, a frequency and a mask bit. -/
structure Dict where
  names : List String
  freqs : List Nat
  maskBits : List Nat
  finalized : Bool
  length_freqs : freqs.length = names.length
  length_maskBits : maskBits.length = names.length
  maskBit_le : ∀ b ∈ maskBits, b ≤ noMaskBit
  maskBit_unique : ∀ i j b : Nat, maskBits[i]? = some b → maskBits[j]? = some b →
    b ≠ noMaskBit → i = j

namespace Dict

/-- The empty dictionary. -/
def new : Dict where
  names := []
  freqs := []
  maskBits := []
  finalized := false
  length_freqs := rfl
  length_maskBits := rfl
  maskBit_le := by simp
  maskBit_unique := by simp

/-- Query frequency of a feature; `0` for an id outside the dictionary. -/
def freq (d : Dict) (f : FeatureId) : Nat := d.freqs.getD f.toNat 0

def maskBit (d : Dict) (f : FeatureId) : Nat := d.maskBits.getD f.toNat noMaskBit

def isHot (d : Dict) (f : FeatureId) : Bool := d.maskBit f != noMaskBit

theorem maskBit_le_noMaskBit (d : Dict) (f : FeatureId) : d.maskBit f ≤ noMaskBit := by
  unfold maskBit
  rw [getD_eq_getElem?_getD]
  cases h : d.maskBits[f.toNat]? with
  | none => simp
  | some b => exact d.maskBit_le b (mem_of_getElem? h)

variable {d : Dict} {f : FeatureId}

theorem isHot_iff : d.isHot f = true ↔ d.maskBit f < 64 := by
  have hle := d.maskBit_le_noMaskBit f
  unfold isHot noMaskBit at *
  simp only [bne_iff_ne, ne_eq]
  omega

theorem maskBits_of_isHot (h : d.isHot f = true) : d.maskBits[f.toNat]? = some (d.maskBit f) := by
  unfold isHot maskBit at *
  rw [getD_eq_getElem?_getD] at *
  cases hb : d.maskBits[f.toNat]? with
  | none => simp [hb] at h
  | some b => simp

theorem eq_of_maskBit_eq {g : FeatureId} (hf : d.isHot f = true) (h : d.maskBit f = d.maskBit g) :
    f = g := by
  have hg : d.isHot g = true := by
    unfold isHot at *
    rwa [← h]
  have hi := d.maskBit_unique _ _ _ (maskBits_of_isHot hf)
    (h ▸ maskBits_of_isHot hg) (by simpa [isHot] using hf)
  exact UInt32.toNat_inj.mp hi

/-! ## interning and counting -/

/-- Intern a name: its existing id, or the next dense id with frequency
zero and no mask bit. -/
def intern (d : Dict) (name : String) : FeatureId × Dict :=
  match d.names.idxOf? name with
  | some i => (UInt32.ofNat i, d)
  | none =>
    (UInt32.ofNat d.names.length,
      { names := d.names ++ [name]
        freqs := d.freqs ++ [0]
        maskBits := d.maskBits ++ [noMaskBit]
        finalized := d.finalized
        length_freqs := by simp [d.length_freqs]
        length_maskBits := by simp [d.length_maskBits]
        maskBit_le := by
          intro b hb
          rcases mem_append.mp hb with hb | hb
          · exact d.maskBit_le b hb
          · exact (mem_singleton.mp hb).le
        maskBit_unique := by
          intro i j b hi hj hb
          have key : ∀ k : Nat, (d.maskBits ++ [noMaskBit])[k]? = some b → d.maskBits[k]? = some b := by
            intro k hk
            rw [getElem?_append] at hk
            split at hk
            · exact hk
            · simp only [getElem?_singleton] at hk
              split at hk
              · exact absurd (Option.some.inj hk).symm hb
              · contradiction
          exact d.maskBit_unique i j b (key i hi) (key j hj) hb })

/-- Count one more compiled query that references `f`, saturating. -/
def bumpFreq (d : Dict) (f : FeatureId) : Dict :=
  { d with
    freqs := d.freqs.modify f.toNat (fun n => min (n + 1) u32Max)
    length_freqs := by simp [d.length_freqs] }

/-! ## the common mask -/

/-- Feature indices, most frequent first. -/
def byFreqDesc (d : Dict) : List Nat :=
  (List.range d.names.length).insertionSort (fun i j => d.freqs.getD j 0 ≤ d.freqs.getD i 0)

/-- The bit the ranking gives to index `i`: its rank when below 64. -/
def rankBit (ranking : List Nat) (i : Nat) : Nat :=
  if (ranking.take 64).idxOf i < (ranking.take 64).length then (ranking.take 64).idxOf i
  else noMaskBit

theorem rankBit_le (ranking : List Nat) (i : Nat) : rankBit ranking i ≤ noMaskBit := by
  unfold rankBit noMaskBit
  split
  · next h =>
    have : (ranking.take 64).length ≤ 64 := by simp
    omega
  · exact le_rfl

theorem eq_of_rankBit {ranking : List Nat} {i j : Nat}
    (h : rankBit ranking i = rankBit ranking j) (hi : rankBit ranking i ≠ noMaskBit) :
    i = j := by
  have hj := h ▸ hi
  unfold rankBit at h hi hj
  split at hi
  · next hilt =>
    split at hj
    · next hjlt =>
      rw [if_pos hilt, if_pos hjlt] at h
      have ei := getElem_idxOf hilt
      have ej := getElem_idxOf hjlt
      simp only [h] at ei
      exact ei.symm.trans ej
    · contradiction
  · contradiction

/-- Give the 64 most frequent features their mask bits.  Happens once: a
finalized dictionary is left as it is. -/
def finalizeMask (d : Dict) : Dict :=
  if d.finalized then d
  else
    { d with
      maskBits := (List.range d.names.length).map (rankBit d.byFreqDesc)
      finalized := true
      length_maskBits := by simp
      maskBit_le := by
        intro b hb
        obtain ⟨i, -, rfl⟩ := mem_map.mp hb
        exact rankBit_le _ i
      maskBit_unique := by
        intro i j b hi hj hb
        simp only [getElem?_map, Option.map_eq_some_iff] at hi hj
        obtain ⟨i', hi', rfl⟩ := hi
        obtain ⟨j', hj', hji⟩ := hj
        have hij := eq_of_rankBit hji.symm hb
        obtain ⟨_, hi'⟩ := List.getElem?_eq_some_iff.mp hi'
        obtain ⟨_, hj'⟩ := List.getElem?_eq_some_iff.mp hj'
        rw [getElem_range] at hi' hj'
        rw [hi', hj', hij] }

/-- Which feature holds mask bit `b`, if any. -/
def maskInverse (d : Dict) (b : Nat) : Option FeatureId :=
  if b ≠ noMaskBit then ((List.range d.names.length).map UInt32.ofNat).find? (d.maskBit · = b)
  else none

theorem maskBit_of_maskInverse {b : Nat} (h : d.maskInverse b = some f) :
    d.maskBit f = b ∧ d.isHot f = true := by
  unfold maskInverse at h
  split at h
  · next hb =>
    have hbit : d.maskBit f = b := by simpa using find?_some h
    exact ⟨hbit, by simpa [isHot, hbit] using hb⟩
  · contradiction

theorem maskInverse_ne_none (h : d.isHot f = true) : d.maskInverse (d.maskBit f) ≠ none := by
  have hlt : f.toNat < d.names.length := by
    rw [← d.length_maskBits]
    exact (List.getElem?_eq_some_iff.mp (maskBits_of_isHot h)).1
  have hbit : d.maskBit f ≠ noMaskBit := by simpa [isHot] using h
  rw [maskInverse, if_pos hbit, Ne, find?_eq_none]
  intro hall
  refine hall f (mem_map.mpr ⟨f.toNat, mem_range.mpr hlt, ?_⟩) (decide_eq_true rfl)
  exact UInt32.ofNat_toNat

theorem maskInverse_maskBit (h : d.isHot f = true) : d.maskInverse (d.maskBit f) = some f := by
  obtain ⟨g, hg⟩ := Option.ne_none_iff_exists'.mp (maskInverse_ne_none h)
  rw [hg, eq_of_maskBit_eq h (maskBit_of_maskInverse hg).1.symm]

/-! ## the mask is assigned once -/

/-- `d` is an earlier state of the dictionary whose mask is `final`'s:
either its mask is not assigned yet, or it already is the final one. -/
def MaskFrozen (d final : Dict) : Prop :=
  (∀ f, d.maskBit f = noMaskBit) ∨ (∀ f, d.maskBit f = final.maskBit f)

theorem MaskFrozen.refl (d : Dict) : MaskFrozen d d := .inr fun _ => rfl

variable {final : Dict}

theorem MaskFrozen.maskBit_eq (h : MaskFrozen d final) (hf : d.isHot f = true) :
    d.maskBit f = final.maskBit f := by
  rcases h with h | h
  · simp [Dict.isHot, h f] at hf
  · exact h f

theorem MaskFrozen.isHot (h : MaskFrozen d final) (hf : d.isHot f = true) :
    final.isHot f = true := by
  rw [Dict.isHot, ← h.maskBit_eq hf]
  exact hf

end Dict

end ReverseRusty
