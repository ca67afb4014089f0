import Mathlib

/-!
# ReverseRusty.Lib.Slice

Sorted slices over an arbitrary linear order: the binary search, the
sort-then-dedup canonical form and the disjointness helpers that the
rest of the development uses at its own element types.

Nothing here mentions the program; a reader can lift the module out.
The searches are structurally recursive (on an explicit fuel that the
wrapper sets to the slice length), so closed instances evaluate.
-/

namespace ReverseRusty

open List

/-! ## machine words as linear orders -/

instance linearOrderUInt32 : LinearOrder UInt32 where
  le_refl := UInt32.le_refl
  le_trans _ _ _ := UInt32.le_trans
  lt_iff_le_not_ge a b := by
    simp only [UInt32.lt_iff_toNat_lt, UInt32.le_iff_toNat_le]
    omega
  le_antisymm _ _ := UInt32.le_antisymm
  le_total := UInt32.le_total
  toDecidableLE := inferInstance
  toDecidableEq := inferInstance
  toDecidableLT := inferInstance
  min_def _ _ := rfl
  max_def _ _ := rfl

instance linearOrderUInt64 : LinearOrder UInt64 where
  le_refl := UInt64.le_refl
  le_trans _ _ _ := UInt64.le_trans
  lt_iff_le_not_ge a b := by
    simp only [UInt64.lt_iff_toNat_lt, UInt64.le_iff_toNat_le]
    omega
  le_antisymm _ _ := UInt64.le_antisymm
  le_total := UInt64.le_total
  toDecidableLE := inferInstance
  toDecidableEq := inferInstance
  toDecidableLT := inferInstance
  min_def _ _ := rfl
  max_def _ _ := rfl

/-! ## binary search -/

section Search

variable {α : Type*} [LinearOrder α]

/-- Halving search for `x`: compare with the middle element, continue in
the half that can still hold `x`.  The fuel bounds the halvings. -/
def searchHalves : Nat → List α → α → Bool
  | 0, _, _ => false
  | fuel + 1, xs, x =>
    match xs.drop (xs.length / 2) with
    | [] => false
    | y :: ys =>
      if x = y then true
      else if x < y then searchHalves fuel (xs.take (xs.length / 2)) x
      else searchHalves fuel ys x

/-- Whether a binary search of `xs` finds `x`. -/
def binarySearch (xs : List α) (x : α) : Bool := searchHalves xs.length xs x

theorem mem_of_searchHalves {fuel : Nat} {xs : List α} {x : α}
    (h : searchHalves fuel xs x = true) : x ∈ xs := by
  induction fuel generalizing xs with
  | zero => simp [searchHalves] at h
  | succ fuel ih =>
    simp only [searchHalves] at h
    split at h
    · contradiction
    · next y ys hdrop =>
      have hsub : ∀ z ∈ y :: ys, z ∈ xs := fun z hz =>
        mem_of_mem_drop (hdrop ▸ hz)
      split at h
      · next heq => exact hsub x (heq ▸ mem_cons_self)
      · split at h
        · exact mem_of_mem_take (ih h)
        · exact hsub x (mem_cons_of_mem y (ih h))

/-- A hit is always a member, sorted or not. -/
theorem mem_of_binarySearch {xs : List α} {x : α} (h : binarySearch xs x = true) :
    x ∈ xs :=
  mem_of_searchHalves h

theorem searchHalves_of_mem {fuel : Nat} {xs : List α} {x : α}
    (hfuel : xs.length ≤ fuel) (hs : xs.Pairwise (· ≤ ·)) (hx : x ∈ xs) :
    searchHalves fuel xs x = true := by
  induction fuel generalizing xs with
  | zero =>
    have : xs = [] := length_eq_zero_iff.mp (by omega)
    simp [this] at hx
  | succ fuel ih =>
    have hpos : 0 < xs.length := length_pos_of_mem hx
    have hsplit : xs.take (xs.length / 2) ++ xs.drop (xs.length / 2) = xs :=
      take_append_drop _ _
    simp only [searchHalves]
    split
    · next hdrop =>
      have hlen := congrArg List.length hdrop
      simp only [length_drop, length_nil] at hlen
      omega
    · next y ys hdrop =>
      have hlen := congrArg List.length hdrop
      simp only [length_drop, length_cons] at hlen
      rw [hdrop] at hsplit
      rw [← hsplit] at hs
      obtain ⟨htake, hcons, hcross⟩ := pairwise_append.mp hs
      obtain ⟨hy, hys⟩ := pairwise_cons.mp hcons
      split
      · rfl
      · next hne =>
        have hmem : x ∈ xs.take (xs.length / 2) ∨ x ∈ ys := by
          rw [← hsplit, mem_append, mem_cons] at hx
          tauto
        split
        · next hlt =>
          apply ih
          · simp only [length_take]
            omega
          · exact htake
          · rcases hmem with hm | hm
            · exact hm
            · exact absurd (hy x hm) (not_le.mpr hlt)
        · next hge =>
          apply ih
          · omega
          · exact hys
          · rcases hmem with hm | hm
            · have hle := hcross x hm y mem_cons_self
              exact absurd (lt_of_le_of_ne hle hne) hge
            · exact hm

/-- **Binary search decides membership** on a sorted slice. -/
theorem binarySearch_iff_mem {xs : List α} {x : α} (hs : xs.Pairwise (· ≤ ·)) :
    binarySearch xs x = true ↔ x ∈ xs :=
  ⟨mem_of_binarySearch, searchHalves_of_mem le_rfl hs⟩

end Search

/-! ## sort, then drop repeats -/

section SortDedup

variable {α : Type*} [LinearOrder α]

/-- Sort and drop consecutive repeats. -/
def sortDedup (xs : List α) : List α :=
  (xs.insertionSort (· ≤ ·)).destutter (· ≠ ·)

theorem destutter'_ne_mem {a x : α} {l : List α} :
    x ∈ l.destutter' (· ≠ ·) a ↔ x = a ∨ x ∈ l := by
  induction l generalizing a with
  | nil => simp [List.destutter']
  | cons b l ih =>
    by_cases h : a ≠ b
    · simp [List.destutter', h, ih]
    · have hab : a = b := not_not.mp h
      subst hab
      simp only [List.destutter', ne_eq, not_true_eq_false, if_false, mem_cons, ih]
      tauto

theorem pairwise_lt_destutter' {a : α} {l : List α} (h : (a :: l).Pairwise (· ≤ ·)) :
    (l.destutter' (· ≠ ·) a).Pairwise (· < ·) := by
  induction l generalizing a with
  | nil => simp [List.destutter']
  | cons b l ih =>
    obtain ⟨ha, hbl⟩ := pairwise_cons.mp h
    by_cases hab : a ≠ b
    · simp only [List.destutter', hab, ne_eq, not_false_eq_true, if_true,
        pairwise_cons]
      refine ⟨fun x hx => ?_, ih hbl⟩
      have hlt : a < b := lt_of_le_of_ne (ha b mem_cons_self) hab
      rcases destutter'_ne_mem.mp hx with rfl | hx
      · exact hlt
      · exact lt_of_lt_of_le hlt ((pairwise_cons.mp hbl).1 x hx)
    · have hab : a = b := not_not.mp hab
      subst hab
      simp only [List.destutter', ne_eq, not_true_eq_false, if_false]
      exact ih hbl

@[simp] theorem mem_sortDedup {x : α} {xs : List α} : x ∈ sortDedup xs ↔ x ∈ xs := by
  have hsort : x ∈ xs.insertionSort (· ≤ ·) ↔ x ∈ xs := mem_insertionSort (· ≤ ·)
  rw [← hsort, sortDedup]
  cases xs.insertionSort (· ≤ ·) with
  | nil => simp
  | cons a l => simp [List.destutter, destutter'_ne_mem]

/-- The canonical form is strictly increasing. -/
theorem pairwise_sortDedup (xs : List α) : (sortDedup xs).Pairwise (· < ·) := by
  unfold sortDedup
  have hs := pairwise_insertionSort (· ≤ ·) xs
  cases hxs : xs.insertionSort (· ≤ ·) with
  | nil => simp
  | cons a l => exact pairwise_lt_destutter' (hxs ▸ hs)

theorem nodup_sortDedup (xs : List α) : (sortDedup xs).Nodup :=
  (pairwise_sortDedup xs).imp ne_of_lt

/-- A strictly increasing slice is its own canonical form. -/
theorem sortDedup_eq_self {xs : List α} (h : xs.Pairwise (· < ·)) : sortDedup xs = xs := by
  have hperm : (sortDedup xs).Perm xs :=
    (perm_ext_iff_of_nodup (nodup_sortDedup xs) (h.imp ne_of_lt)).mpr
      (fun _ => mem_sortDedup)
  exact hperm.eq_of_pairwise (fun a b _ _ hab hba => absurd hab (lt_asymm hba))
    (pairwise_sortDedup xs) h

/-- Sorting and dropping repeats twice is doing it once. -/
@[simp] theorem sortDedup_sortDedup (xs : List α) : sortDedup (sortDedup xs) = sortDedup xs :=
  sortDedup_eq_self (pairwise_sortDedup xs)

/-- The canonical form depends on the elements only. -/
theorem sortDedup_congr {xs ys : List α} (h : ∀ x, x ∈ xs ↔ x ∈ ys) : sortDedup xs = sortDedup ys := by
  have hperm : (sortDedup xs).Perm (sortDedup ys) :=
    (perm_ext_iff_of_nodup (nodup_sortDedup xs) (nodup_sortDedup ys)).mpr fun x => by
      rw [mem_sortDedup, mem_sortDedup, h]
  exact hperm.eq_of_pairwise (fun a b _ _ hab hba => absurd (lt_trans hab hba) (lt_irrefl a))
    (pairwise_sortDedup xs) (pairwise_sortDedup ys)

theorem sortDedup_ne_nil {xs : List α} : sortDedup xs ≠ [] ↔ xs ≠ [] := by
  simp [eq_nil_iff_forall_not_mem]

/-- Normalizing each element, dropping the vacuous ones and sorting leaves a
list of normal elements. -/
theorem sortDedup_normal {f : α → α} {p : α → Bool} (hf : ∀ a, f (f a) = f a) (xs : List α) :
    sortDedup (((sortDedup ((xs.map f).filter p)).map f).filter p) =
      sortDedup ((xs.map f).filter p) := by
  have hmem : ∀ a ∈ sortDedup ((xs.map f).filter p), f a = a ∧ p a = true := by
    intro a ha
    obtain ⟨ha, hp⟩ := mem_filter.mp (mem_sortDedup.mp ha)
    obtain ⟨b, -, rfl⟩ := mem_map.mp ha
    exact ⟨hf b, hp⟩
  have hmap : (sortDedup ((xs.map f).filter p)).map f = sortDedup ((xs.map f).filter p) :=
    (map_congr_left (g := id) fun a ha => (hmem a ha).1).trans (map_id _)
  rw [hmap, filter_eq_self.mpr fun a ha => (hmem a ha).2, sortDedup_sortDedup]

example : sortDedup [3, 1, 3, 2, 1] = [1, 2, 3] := by decide

end SortDedup

/-! ## partition points -/

section Partition

variable {α : Type*}

/-- Halve a window of `size` elements from `base` on, moving its start to
the middle while the predicate holds there. -/
def halveWindow (p : α → Bool) (xs : List α) : Nat → Nat → Nat → Nat
  | 0, base, _ => base
  | fuel + 1, base, size =>
    if size ≤ 1 then base
    else
      halveWindow p xs fuel (if xs[base + size / 2]?.any p then base + size / 2 else base)
        (size - size / 2)

/-- Where a predicate stops holding, on a list it partitions: the halving
search of the standard library.  On other lists it is still a position of
the list or its end. -/
def partitionPoint (p : α → Bool) (xs : List α) : Nat :=
  let base := halveWindow p xs xs.length 0 xs.length
  if xs[base]?.any p then base + 1 else base

variable {p q : α → Bool} {xs : List α} {fuel base base' size k : Nat}

/-- On a partitioned list the window keeps the partition point. -/
theorem halveWindow_spec (hp : ∀ i < xs.length, xs[i]?.any p = decide (i < k)) (hk : k ≤ xs.length)
    (hsize : 0 < size) (hfuel : size ≤ fuel + 1) (hbase : base ≤ k) (hend : k ≤ base + size)
    (hlen : base + size ≤ xs.length) :
    halveWindow p xs fuel base size ≤ k ∧ k ≤ halveWindow p xs fuel base size + 1 ∧
      halveWindow p xs fuel base size < xs.length := by
  induction fuel generalizing base size with
  | zero =>
    have hone : size = 1 := by omega
    subst hone
    exact ⟨hbase, hend, by rw [halveWindow]; omega⟩
  | succ fuel ih =>
    rw [halveWindow]
    by_cases hsmall : size ≤ 1
    · rw [if_pos hsmall]
      exact ⟨hbase, by omega, by omega⟩
    · rw [if_neg hsmall, hp _ (by omega)]
      by_cases hmid : base + size / 2 < k
      · simp only [decide_eq_true hmid, if_true]
        exact ih (by omega) (by omega) (by omega) (by omega) (by omega)
      · simp only [decide_eq_false hmid, Bool.false_eq_true, if_false]
        exact ih (by omega) (by omega) (by omega) (by omega) (by omega)

/-- **The search finds the partition point of a partitioned list.** -/
theorem partitionPoint_eq (hp : ∀ i < xs.length, xs[i]?.any p = decide (i < k))
    (hk : k ≤ xs.length) : partitionPoint p xs = k := by
  unfold partitionPoint
  by_cases hempty : xs.length = 0
  · have hnil : xs = [] := length_eq_zero_iff.mp hempty
    subst hnil
    simpa [halveWindow] using (Nat.le_zero.mp hk).symm
  · obtain ⟨hle, hge, hlt⟩ := @halveWindow_spec _ _ _ xs.length 0 xs.length _ hp hk (by omega)
      (by omega) (by omega) (by omega) (by omega)
    simp only [hp _ hlt]
    by_cases hbefore : halveWindow p xs xs.length 0 xs.length < k
    · rw [decide_eq_true hbefore, if_pos rfl]
      omega
    · rw [decide_eq_false hbefore, if_neg (by simp)]
      omega

/-- A predicate that holds of a front of the list and of nothing behind it
partitions the list at the end of that front. -/
theorem partitionPoint_eq_takeWhile
    (h : ∀ x ∈ xs.drop (xs.takeWhile p).length, p x = false) :
    partitionPoint p xs = (xs.takeWhile p).length := by
  refine partitionPoint_eq (fun i hi => ?_) ( takeWhile_prefix p).length_le
  have hget : xs[i]? = some xs[i] := getElem?_eq_getElem hi
  by_cases hbefore : i < (xs.takeWhile p).length
  · have hmem : xs[i] ∈ xs.takeWhile p := by
      have hpre := ( takeWhile_prefix p : xs.takeWhile p <+: xs).getElem hbefore
      rw [← hpre]
      exact getElem_mem _
    rw [hget, decide_eq_true hbefore, Option.any_some]
    exact mem_takeWhile_imp hmem
  · have hmem : xs[i] ∈ xs.drop (xs.takeWhile p).length := by
      rw [mem_iff_getElem?]
      refine ⟨i - (xs.takeWhile p).length, ?_⟩
      rw [getElem?_drop, ← hget]
      congr 1
      omega
    rw [hget, decide_eq_false hbefore]
    exact h _ hmem

/-- On a sorted list, a predicate that holds below where it holds. -/
theorem partitionPoint_eq_of_sorted [Preorder α] (hsorted : xs.Pairwise (· ≤ ·))
    (hp : ∀ a b, a ≤ b → p b = true → p a = true) :
    partitionPoint p xs = (xs.takeWhile p).length := by
  refine partitionPoint_eq_takeWhile ?_
  induction xs with
  | nil => simp
  | cons x xs ih =>
    obtain ⟨hx, hxs⟩ := pairwise_cons.mp hsorted
    by_cases hpx : p x = true
    · simpa [takeWhile_cons_of_pos hpx] using ih hxs
    · rw [takeWhile_cons_of_neg hpx]
      intro y hy
      rcases mem_cons.mp hy with rfl | hy
      · exact Bool.eq_false_iff.mpr hpx
      · exact Bool.eq_false_iff.mpr fun hpy => hpx (hp x y (hx y hy) hpy)

theorem halveWindow_lt (hsize : 0 < size) (hlen : base + size ≤ xs.length) :
    halveWindow p xs fuel base size < xs.length := by
  induction fuel generalizing base size with
  | zero => rw [halveWindow]; omega
  | succ fuel ih =>
    rw [halveWindow]
    split
    · omega
    · split
      · exact ih (by omega) (by omega)
      · exact ih (by omega) (by omega)

theorem partitionPoint_le : partitionPoint p xs ≤ xs.length := by
  unfold partitionPoint
  by_cases hempty : xs.length = 0
  · have hnil : xs = [] := length_eq_zero_iff.mp hempty
    subst hnil
    simp [halveWindow]
  · have hlt := @halveWindow_lt _ p xs xs.length 0 xs.length (by omega) (by omega)
    simp only
    split
    · omega
    · omega

theorem halveWindow_lt_of_fails {c : Nat} (hc : xs[c]?.any p = false) (hbase : base < c)
    (hend : base + size ≤ c + 1) : halveWindow p xs fuel base size < c := by
  induction fuel generalizing base size with
  | zero => rw [halveWindow]; exact hbase
  | succ fuel ih =>
    rw [halveWindow]
    split
    · exact hbase
    · split
      · next hmid =>
        have hne : base + size / 2 ≠ c := by
          intro heq
          rw [heq, hc] at hmid
          contradiction
        exact ih (by omega) (by omega)
      · exact ih hbase (by omega)

theorem le_halveWindow : base ≤ halveWindow q xs fuel base size := by
  induction fuel generalizing base size with
  | zero => rw [halveWindow]
  | succ fuel ih =>
    rw [halveWindow]
    split
    · rfl
    · split
      · exact (Nat.le_add_right _ _).trans ih
      · exact ih

/-- **A weaker predicate is partitioned no earlier**, on any list. -/
theorem partitionPoint_mono (h : ∀ x ∈ xs, p x = true → q x = true) :
    partitionPoint p xs ≤ partitionPoint q xs := by
  have hany : ∀ i : Nat, xs[i]?.any p = true → xs[i]?.any q = true := by
    intro i hi
    cases hx : xs[i]? with
    | none => rw [hx] at hi; contradiction
    | some x =>
      rw [hx] at hi
      exact h x (mem_of_getElem? hx) hi
  -- the two searches agree until the weaker predicate alone moves on
  have hstep : ∀ fuel base size, halveWindow p xs fuel base size = halveWindow q xs fuel base size ∨
      ∃ c, xs[c]?.any p = false ∧ halveWindow p xs fuel base size < c ∧
        c ≤ halveWindow q xs fuel base size := by
    intro fuel
    induction fuel with
    | zero => exact fun _ _ => .inl rfl
    | succ fuel ih =>
      intro base size
      rw [halveWindow, halveWindow]
      by_cases hsmall : size ≤ 1
      · simp [hsmall]
      · simp only [if_neg hsmall]
        cases hpm : xs[base + size / 2]?.any p with
        | true =>
          simp only [hany _ hpm, if_true]
          exact ih _ _
        | false =>
          cases hqm : xs[base + size / 2]?.any q with
          | false => exact ih _ _
          | true =>
            simp only [Bool.false_eq_true, if_false, if_true]
            refine .inr ⟨base + size / 2, hpm, ?_, le_halveWindow⟩
            exact halveWindow_lt_of_fails hpm (by omega) (by omega)
  unfold partitionPoint
  rcases hstep xs.length 0 xs.length with heq | ⟨c, hc, hlt, hle⟩
  · simp only [heq]
    cases hpm : xs[halveWindow q xs xs.length 0 xs.length]?.any p with
    | true => rw [hany _ hpm]
    | false =>
      simp only [Bool.false_eq_true, if_false]
      split
      · omega
      · omega
  · simp only
    split
    · split
      · omega
      · omega
    · split
      · omega
      · omega

theorem partitionPoint_congr (h : ∀ x ∈ xs, p x = q x) : partitionPoint p xs = partitionPoint q xs :=
  Nat.le_antisymm (partitionPoint_mono fun x hx hp => h x hx ▸ hp)
    (partitionPoint_mono fun x hx hq => (h x hx).symm ▸ hq)

end Partition

/-! ## pointwise relations -/

/-- Replacing an element by one with the same relations keeps a pairwise
relation. -/
theorem pairwise_set {α : Type*} {r : α → α → Prop} {xs : List α} {i : Nat} {a b : α}
    (h : xs.Pairwise r) (hget : xs[i]? = some a) (hleft : ∀ x, r x a → r x b)
    (hright : ∀ x, r a x → r b x) : (xs.set i b).Pairwise r := by
  induction xs generalizing i with
  | nil => exact .nil
  | cons x xs ih =>
    rw [pairwise_cons] at h
    cases i with
    | zero =>
      obtain rfl : x = a := by simpa using hget
      exact .cons (fun y hy => hright y (h.1 y hy)) h.2
    | succ i =>
      rw [set_cons_succ]
      refine .cons (fun y hy => ?_) (ih h.2 (by simpa using hget))
      rcases mem_or_eq_of_mem_set hy with hy | rfl
      · exact h.1 y hy
      · exact hleft x (h.1 a (mem_of_getElem? (by simpa using hget)))

end ReverseRusty
