import Mathlib

/-!
# ReverseRusty.Lib.Bitmap

Bitmaps as runs of 64-bit words: the loops that fill one, merge one into
another word by word, and set one bit, each with its meaning bit by bit.

Merging also says whether a bit is left, from the words it wrote.
-/

namespace ReverseRusty

open List

abbrev BitmapWord := BitVec 64

variable {dst src : List BitmapWord} {t : Nat}

/-- Bit `t` of a bitmap. -/
def bitAt (bm : List BitmapWord) (t : Nat) : Bool := (bm[t / 64]?.getD 0).getLsbD (t % 64)

variable {bm : List BitmapWord}

theorem bitAt_of_le (h : 64 * bm.length ≤ t) : bitAt bm t = false := by
  rw [bitAt, getElem?_eq_none (by omega)]
  exact BitVec.getLsbD_zero

theorem bitAt_of_lt (h : t < 64 * bm.length) :
    ∃ w, bm[t / 64]? = some w ∧ bitAt bm t = w.getLsbD (t % 64) := by
  have hlt : t / 64 < bm.length := by omega
  exact ⟨bm[t / 64], getElem?_eq_getElem hlt, by rw [bitAt, getElem?_eq_getElem hlt]; rfl⟩

/-! ## filling -/

def fillWith (w : BitmapWord) (bm : List BitmapWord) : List BitmapWord := bm.map fun _ => w

@[simp] theorem length_fillWith (w : BitmapWord) (bm : List BitmapWord) :
    (fillWith w bm).length = bm.length := length_map _

@[simp] theorem bitAt_fillWith_zero (bm : List BitmapWord) (t : Nat) :
    bitAt (fillWith 0 bm) t = false := by
  rw [bitAt, fillWith, getElem?_map]
  cases bm[t / 64]? with
  | none => exact BitVec.getLsbD_zero
  | some w => exact BitVec.getLsbD_zero

theorem bitAt_fillWith_ones (h : t < 64 * bm.length) :
    bitAt (fillWith (BitVec.allOnes 64) bm) t = true := by
  rw [bitAt, fillWith, getElem?_map, getElem?_eq_getElem (by omega)]
  simp only [Option.map_some, Option.getD_some, BitVec.getLsbD_allOnes, decide_eq_true_eq]
  omega

/-! ## merging -/

/-- Merge one bitmap into another, word by word as far as both go, and collect
the words written. -/
def mergeInto (f : BitmapWord → BitmapWord → BitmapWord) :
    List BitmapWord → List BitmapWord → List BitmapWord × BitmapWord
  | d :: ds, s :: ss =>
    let rest := mergeInto f ds ss
    (f d s :: rest.1, f d s ||| rest.2)
  | ds, _ => (ds, 0)

section Merge

variable {f : BitmapWord → BitmapWord → BitmapWord}

@[simp] theorem length_mergeInto (f : BitmapWord → BitmapWord → BitmapWord)
    (dst src : List BitmapWord) : (mergeInto f dst src).1.length = dst.length := by
  induction dst generalizing src with
  | nil =>
    cases src with
    | nil => rfl
    | cons s ss => rfl
  | cons d ds ih =>
    cases src with
    | nil => rfl
    | cons s ss => simp [mergeInto, ih]

theorem mergeInto_eq (h : dst.length = src.length) :
    (mergeInto f dst src).1 = List.zipWith f dst src := by
  induction dst generalizing src with
  | nil => simp [mergeInto, length_eq_zero_iff.mp h.symm]
  | cons d ds ih =>
    cases src with
    | nil => simp at h
    | cons s ss => simp [mergeInto, ih (by simpa using h)]

theorem bitAt_mergeInto {g : Bool → Bool → Bool}
    (hf : ∀ a b i, i < 64 → (f a b).getLsbD i = g (a.getLsbD i) (b.getLsbD i))
    (h : dst.length = src.length) (ht : t < 64 * dst.length) :
    bitAt (mergeInto f dst src).1 t = g (bitAt dst t) (bitAt src t) := by
  obtain ⟨a, ha, hbit⟩ := bitAt_of_lt ht
  obtain ⟨b, hb, hbit'⟩ := bitAt_of_lt (h ▸ ht)
  rw [hbit, hbit', ← hf a b _ (Nat.mod_lt _ (by decide)), bitAt, mergeInto_eq h,
    getElem?_zipWith, ha, hb]
  rfl

theorem mergeInto_eq_zero_iff (h : dst.length = src.length) :
    (mergeInto f dst src).2 = 0 ↔ ∀ t, bitAt (mergeInto f dst src).1 t = false := by
  have hwords : (mergeInto f dst src).2 = 0 ↔ ∀ w ∈ (mergeInto f dst src).1, w = 0 := by
    induction dst generalizing src with
    | nil => simp [mergeInto]
    | cons d ds ih =>
      cases src with
      | nil => simp at h
      | cons s ss =>
        rw [mergeInto, forall_mem_cons, ← ih (by simpa using h)]
        exact BitVec.or_eq_zero_iff
  rw [hwords]
  constructor
  · intro hzero t
    rw [bitAt]
    cases hw : (mergeInto f dst src).1[t / 64]? with
    | none => exact BitVec.getLsbD_zero
    | some w =>
      rw [Option.getD_some, hzero w (mem_of_getElem? hw)]
      exact BitVec.getLsbD_zero
  · intro hbits w hw
    obtain ⟨i, hi, rfl⟩ := getElem_of_mem hw
    refine BitVec.eq_of_getLsbD_eq fun j hj => ?_
    have hbit := hbits (64 * i + j)
    rw [bitAt, show (64 * i + j) / 64 = i by omega, show (64 * i + j) % 64 = j by omega,
      getElem?_eq_getElem hi] at hbit
    exact hbit.trans BitVec.getLsbD_zero.symm

end Merge

/-! ## the operations merged with -/

/-- Keep the bits not in the other word. -/
def andNot (a b : BitmapWord) : BitmapWord := a &&& ~~~b

theorem getLsbD_andNot (a b : BitmapWord) (i : Nat) (hi : i < 64) :
    (andNot a b).getLsbD i = (a.getLsbD i && !b.getLsbD i) := by
  simp [andNot, hi]

theorem bitAt_orInto (h : dst.length = src.length) (ht : t < 64 * dst.length) :
    bitAt (mergeInto (· ||| ·) dst src).1 t = (bitAt dst t || bitAt src t) :=
  bitAt_mergeInto (fun _ _ _ _ => BitVec.getLsbD_or) h ht

theorem bitAt_andInto (h : dst.length = src.length) (ht : t < 64 * dst.length) :
    bitAt (mergeInto (· &&& ·) dst src).1 t = (bitAt dst t && bitAt src t) :=
  bitAt_mergeInto (fun _ _ _ _ => BitVec.getLsbD_and) h ht

theorem bitAt_andNotInto (h : dst.length = src.length) (ht : t < 64 * dst.length) :
    bitAt (mergeInto andNot dst src).1 t = (bitAt dst t && !bitAt src t) :=
  bitAt_mergeInto (g := fun a b => a && !b) getLsbD_andNot h ht

/-! ## single bits -/

/-- Set bit `t`, when its word is there. -/
def setBit (bm : List BitmapWord) (t : Nat) : Option (List BitmapWord) :=
  bm[t / 64]?.map fun w => bm.set (t / 64) (w ||| BitVec.twoPow 64 (t % 64))

theorem setBit_of_lt {bm : List BitmapWord} (h : t < 64 * bm.length) :
    ∃ bm', setBit bm t = some bm' ∧ bm'.length = bm.length ∧
      ∀ u, bitAt bm' u = (bitAt bm u || decide (u = t)) := by
  obtain ⟨w, hw, -⟩ := bitAt_of_lt h
  refine ⟨_, by rw [setBit, hw]; rfl, by simp, fun u => ?_⟩
  by_cases hu : t / 64 = u / 64
  · have hlt : u / 64 < bm.length := by omega
    have hw' : bm[u / 64]? = some w := hu ▸ hw
    rw [bitAt, bitAt, ← hu, getElem?_set_self (by omega), hw, Option.getD_some,
      Option.getD_some, BitVec.getLsbD_or, BitVec.getLsbD_twoPow]
    congr 1
    rw [Bool.eq_iff_iff, Bool.and_eq_true, decide_eq_true_eq, decide_eq_true_eq]
    simp only [decide_eq_true_eq]
    omega
  · have hne : u ≠ t := fun heq => hu (by rw [heq])
    rw [bitAt, bitAt, getElem?_set_ne hu, decide_eq_false hne, Bool.or_false]

end ReverseRusty
