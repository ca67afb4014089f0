import ReverseRusty.Lib.Slice

/-!
# ReverseRusty.Filter

The anchor filter of a sealed segment (`filter.rs`): a blocked Bloom filter
over signature keys.  The result about it is the one the matcher needs, that
it never rejects a key it was built from (`mayContain_build`).
-/

namespace ReverseRusty

open List

def wordsPerBlock : Nat := 8

def numProbes : Nat := 6

def blockOffset (key mask : UInt64) : Nat := ((key >>> 32) &&& mask).toNat * wordsPerBlock

/-- The bit position of a key's `i`-th probe within its block. -/
def probeBit (key : UInt64) (i : Nat) : UInt32 :=
  let lo := key.toUInt32
  let h1 := lo &&& 0x1FF
  let h2 := (lo >>> 9) ||| 1
  (h1 + UInt32.ofNat i * h2) &&& 0x1FF

def probeWord (key : UInt64) (i : Nat) : Nat := (probeBit key i >>> 6).toNat

def probeMask (key : UInt64) (i : Nat) : UInt64 := 1 <<< (probeBit key i &&& 63).toUInt64

def setBits (key : UInt64) (start : Nat) (is : List Nat) (data : List UInt64) : List UInt64 :=
  is.foldl (fun data i => data.modify (start + probeWord key i) (· ||| probeMask key i)) data

def setProbes (data : List UInt64) (start : Nat) (key : UInt64) : List UInt64 :=
  setBits key start (List.range numProbes) data

/-- Whether all of a key's bits are set in a block. -/
def checkProbes (data : List UInt64) (start : Nat) (key : UInt64) : Bool :=
  (List.range numProbes).all fun i =>
    data.getD (start + probeWord key i) 0 &&& probeMask key i ≠ 0

/-- A blocked Bloom filter of the keys of a segment. -/
structure SegmentFilter where
  data : List UInt64
  numBlocks : Nat
  mask : UInt64
deriving DecidableEq, Repr

namespace SegmentFilter

/-- Blocks for about ten bits a key, rounded up to a power of two. -/
def blocksFor (keys : List UInt64) : Nat := (max (keys.length / 51) 1).nextPowerOfTwo

/-- Set the bits of every key in an all-zero filter of `numBlocks` blocks. -/
def fill (numBlocks : Nat) (keys : List UInt64) : SegmentFilter where
  data := keys.foldl (fun data k => setProbes data (blockOffset k (.ofNat (numBlocks - 1))) k)
    (List.replicate (numBlocks * wordsPerBlock) 0)
  numBlocks := numBlocks
  mask := .ofNat (numBlocks - 1)

def build (keys : List UInt64) : SegmentFilter :=
  if keys.isEmpty then ⟨[], 0, 0⟩ else fill (blocksFor keys) keys

end SegmentFilter

/-- Membership in a filter given by its raw words. -/
def bloomCheck (key : UInt64) (data : List UInt64) (mask : UInt64) : Bool :=
  if data.isEmpty then false else checkProbes data (blockOffset key mask) key

def SegmentFilter.mayContain (f : SegmentFilter) (key : UInt64) : Bool :=
  bloomCheck key f.data f.mask

/-! ## no false negatives -/

theorem probeWord_lt (key : UInt64) (i : Nat) : probeWord key i < wordsPerBlock := by
  have hle : (probeBit key i).toNat ≤ 511 := by
    rw [probeBit, UInt32.toNat_and]
    exact Nat.and_le_right
  have hshift : (probeBit key i >>> 6).toNat = (probeBit key i).toNat / 64 := by
    rw [UInt32.toNat_shiftRight]
    exact Nat.shiftRight_eq_div_pow _ 6
  rw [probeWord, hshift, wordsPerBlock]
  omega

theorem probeMask_ne_zero (key : UInt64) (i : Nat) : probeMask key i ≠ 0 := by
  have hbits : ∀ b < 64, (1 : UInt64) <<< UInt64.ofNat b ≠ 0 := by decide
  have hlt : (probeBit key i &&& 63).toNat < 64 := by
    rw [UInt32.toNat_and]
    exact Nat.lt_succ_of_le Nat.and_le_right
  rw [probeMask, ← UInt64.ofNat_uInt32ToNat]
  exact hbits _ hlt

variable {key : UInt64}

theorem blockOffset_lt {numBlocks : Nat} (h : 0 < numBlocks) :
    blockOffset key (UInt64.ofNat (numBlocks - 1)) + wordsPerBlock ≤ numBlocks * wordsPerBlock := by
  have hle : ((key >>> 32) &&& UInt64.ofNat (numBlocks - 1)).toNat ≤ numBlocks - 1 := by
    rw [UInt64.toNat_and]
    calc _ ≤ (UInt64.ofNat (numBlocks - 1)).toNat := Nat.and_le_right
      _ = (numBlocks - 1) % 2 ^ 64 := rfl
      _ ≤ numBlocks - 1 := Nat.mod_le _ _
  rw [blockOffset, wordsPerBlock]
  omega

variable {m : UInt64}

theorem or_and_eq_zero {a b : UInt64} : (a ||| b) &&& m = 0 ↔ a &&& m = 0 ∧ b &&& m = 0 := by
  have hdistrib : (a ||| b) &&& m = (a &&& m) ||| (b &&& m) := by
    apply UInt64.toBitVec_inj.mp
    simp only [UInt64.toBitVec_and, UInt64.toBitVec_or]
    rw [BitVec.and_comm, BitVec.and_or_distrib_left, BitVec.and_comm m.toBitVec a.toBitVec,
      BitVec.and_comm m.toBitVec b.toBitVec]
  rw [hdistrib, UInt64.or_eq_zero_iff]

/-- Whether a word of the filter has one of the bits of a mask. -/
def HasBit (data : List UInt64) (k : Nat) (bit : UInt64) : Prop := data.getD k 0 &&& bit ≠ 0

variable {data : List UInt64} {k : Nat} {bit : UInt64}

theorem HasBit.modify {j : Nat} (h : HasBit data k bit) :
    HasBit (data.modify j (· ||| m)) k bit := by
  unfold HasBit at *
  rw [getD_eq_getElem?_getD] at *
  rw [getElem?_modify]
  cases hget : data[k]? with
  | none => simp [hget] at h
  | some w =>
    by_cases hj : j = k
    · simp only [hget, hj, if_true, Option.map_eq_map, Option.map_some, Option.getD_some] at h ⊢
      intro hzero
      exact h (or_and_eq_zero.mp hzero).1
    · simpa [hget, hj] using h

theorem hasBit_modify_self (hbit : bit ≠ 0) (hk : k < data.length) :
    HasBit (data.modify k (· ||| bit)) k bit := by
  rw [HasBit, getD_eq_getElem?_getD, getElem?_modify, getElem?_eq_getElem hk]
  simp only [if_true, Option.map_eq_map, Option.map_some, Option.getD_some]
  intro hzero
  have hself := (or_and_eq_zero.mp hzero).2
  rw [UInt64.and_self] at hself
  exact hbit hself

theorem length_setBits (key : UInt64) (start : Nat) (is : List Nat) (data : List UInt64) :
    (setBits key start is data).length = data.length := by
  induction is generalizing data with
  | nil => rfl
  | cons i is ih =>
    rw [setBits, foldl_cons, ← setBits, ih, length_modify]

theorem HasBit.setBits (h : HasBit data k bit) (key : UInt64) (start : Nat) (is : List Nat) :
    HasBit (setBits key start is data) k bit := by
  induction is generalizing data with
  | nil => exact h
  | cons i is ih => exact ih h.modify

variable {start : Nat}

theorem hasBit_setBits {i : Nat} {is : List Nat} (hlen : start + wordsPerBlock ≤ data.length)
    (hi : i ∈ is) :
    HasBit (setBits key start is data) (start + probeWord key i) (probeMask key i) := by
  induction is generalizing data with
  | nil => simp at hi
  | cons j is ih =>
    rcases mem_cons.mp hi with rfl | hi
    · have hlt : start + probeWord key i < data.length := by
        have := probeWord_lt key i
        omega
      exact (hasBit_modify_self (probeMask_ne_zero key i) hlt).setBits key start is
    · exact ih (by rwa [length_modify]) hi

theorem checkProbes_iff :
    checkProbes data start key = true ↔
      ∀ i ∈ List.range numProbes, HasBit data (start + probeWord key i) (probeMask key i) := by
  simp [checkProbes, HasBit]

variable {mask : UInt64} {keys : List UInt64}

theorem checkProbes_foldl (hlen : ∀ key, blockOffset key mask + wordsPerBlock ≤ data.length)
    (hkey : key ∈ keys) :
    checkProbes (keys.foldl (fun data k => setProbes data (blockOffset k mask) k) data)
      (blockOffset key mask) key = true := by
  -- the bits of `key` are set at its turn, and no later turn clears them
  rw [checkProbes_iff]
  intro i hi
  have hkeep : ∀ (ks : List UInt64) {data : List UInt64},
      HasBit data (blockOffset key mask + probeWord key i) (probeMask key i) →
        HasBit (ks.foldl (fun data k => setProbes data (blockOffset k mask) k) data)
          (blockOffset key mask + probeWord key i) (probeMask key i) := by
    intro ks
    induction ks with
    | nil => exact id
    | cons k ks ih => exact fun h => ih (h.setBits k _ _)
  induction keys generalizing data with
  | nil => simp at hkey
  | cons k keys ih =>
    rcases mem_cons.mp hkey with rfl | hkey
    · exact hkeep keys (hasBit_setBits (hlen key) hi)
    · refine ih (fun key' => ?_) hkey
      have hkept : (setProbes data (blockOffset k mask) k).length = data.length :=
        length_setBits k _ _ data
      exact hkept ▸ hlen key'

theorem bloomCheck_of_checkProbes (h : checkProbes data (blockOffset key mask) key = true) :
    bloomCheck key data mask = true := by
  cases data with
  | nil => exact absurd (checkProbes_iff.mp h 0 (by decide)) (by simp [HasBit])
  | cons w ws => exact h

theorem SegmentFilter.mask_build (keys : List UInt64) :
    (build keys).mask = .ofNat ((build keys).numBlocks - 1) := by
  unfold build
  split
  · rfl
  · rfl

theorem SegmentFilter.length_data_build (keys : List UInt64) :
    (build keys).data.length = (build keys).numBlocks * wordsPerBlock := by
  unfold build
  split
  · rfl
  · have hfold : ∀ (ks : List UInt64) (data : List UInt64) (mask : UInt64),
        (ks.foldl (fun data k => setProbes data (blockOffset k mask) k) data).length =
          data.length := by
      intro ks data mask
      induction ks generalizing data with
      | nil => rfl
      | cons k ks ih => rw [foldl_cons, ih, setProbes, length_setBits]
    rw [fill, hfold, length_replicate]

/-- **No false negatives**: a filter accepts every key it was built from. -/
theorem SegmentFilter.mayContain_build (h : key ∈ keys) : (build keys).mayContain key = true := by
  have hne : ¬ keys.isEmpty := by
    rw [List.isEmpty_iff]
    exact ne_nil_of_mem h
  have hpos : 0 < blocksFor keys := Nat.pos_of_isPowerOfTwo (Nat.isPowerOfTwo_nextPowerOfTwo _)
  rw [build, if_neg hne]
  refine bloomCheck_of_checkProbes (checkProbes_foldl (fun key' => ?_) h)
  rw [length_replicate]
  exact blockOffset_lt hpos

end ReverseRusty
