import Mathlib

/-!
# ReverseRusty.Lib.TopK

The first `k` elements of a list in a total order.

`topK` sorts and cuts; `keepBest` is the step of a bounded collector, which
holds at most `k` elements and gives up its worst one for a better one.  A
collector that was fed `xs` holds `topK k xs` (`keepBest_topK`), and the
first `k` of several lists are the first `k` of what is first in each
(`topK_flatten_map`).
-/

namespace ReverseRusty

open List

variable {α : Type*} (r : α → α → Prop) [DecidableRel r]

/-- The first `k` of a list in the order. -/
def topK (k : Nat) (xs : List α) : List α :=
  (xs.insertionSort r).take k

/-- Keep the best `k` of an ordered list and one more element: there is room
for it, or it takes the place of the last one, or it is dropped. -/
def keepBest (k : Nat) (kept : List α) (x : α) : List α :=
  if kept.length < k then kept.orderedInsert r x
  else
    match kept.getLast? with
    | none => kept
    | some worst => if r worst x then kept else kept.dropLast.orderedInsert r x

/-! ## cutting an ordered insertion -/

variable {r}

theorem take_orderedInsert (k : Nat) (x : α) (ys : List α) :
    (ys.orderedInsert r x).take k = ((ys.take k).orderedInsert r x).take k := by
  induction ys generalizing k with
  | nil => simp
  | cons y ys ih =>
    cases k with
    | zero => simp
    | succ k =>
      by_cases hxy : r x y
      · cases k with
        | zero => simp [hxy]
        | succ k => simp [hxy, take_take]
      · simp [hxy, ih k]

theorem take_foldr_orderedInsert (k : Nat) (xs ys : List α) :
    (xs.foldr (List.orderedInsert r) ys).take k =
      (xs.foldr (List.orderedInsert r) (ys.take k)).take k := by
  induction xs with
  | nil => simp [take_take]
  | cons x xs ih => rw [foldr_cons, foldr_cons, take_orderedInsert, ih,
      ← take_orderedInsert]

/-- An element after all others goes to the end. -/
theorem orderedInsert_eq_append {x : α} {ys : List α} (h : ∀ y ∈ ys, ¬r x y) :
    ys.orderedInsert r x = ys ++ [x] := by
  induction ys with
  | nil => rfl
  | cons y ys ih =>
    rw [orderedInsert_of_not_le r ys (h y mem_cons_self),
      ih fun z hz => h z (mem_cons_of_mem _ hz), cons_append]

/-- An element before the last one leaves it last. -/
theorem orderedInsert_append_singleton {x worst : α} (h : r x worst) (ys : List α) :
    (ys ++ [worst]).orderedInsert r x = ys.orderedInsert r x ++ [worst] := by
  induction ys with
  | nil => simp [h]
  | cons y ys ih =>
    by_cases hxy : r x y
    · simp [hxy]
    · simp [hxy, ih]

theorem length_topK (k : Nat) (xs : List α) : (topK r k xs).length = min k xs.length := by
  rw [topK, length_take, length_insertionSort]

section Total

variable [Std.Total r] [IsTrans α r]

theorem pairwise_topK (k : Nat) (xs : List α) : (topK r k xs).Pairwise r :=
  (pairwise_insertionSort r xs).sublist (take_sublist _ _)

theorem topK_append_topK (k : Nat) (xs ys : List α) :
    topK r k (xs ++ topK r k ys) = topK r k (xs ++ ys) := by
  have hfoldr : ∀ zs, (xs ++ zs).insertionSort r =
      xs.foldr (List.orderedInsert r) (zs.insertionSort r) := fun zs => by
    rw [List.insertionSort, foldr_append]
  have hsorted := (pairwise_topK (r := r) k ys).insertionSort_eq
  unfold topK at hsorted ⊢
  rw [hfoldr, hfoldr, hsorted]
  exact (take_foldr_orderedInsert k xs (ys.insertionSort r)).symm

/-- What is not among the first `k` comes after all of them. -/
theorem rel_of_notMem_topK {k : Nat} {xs : List α} {x y : α} (hx : x ∈ xs)
    (hno : x ∉ topK r k xs) (hy : y ∈ topK r k xs) : r y x := by
  have hsorted := pairwise_insertionSort r xs
  rw [← take_append_drop k (xs.insertionSort r), pairwise_append] at hsorted
  have hmem : x ∈ (xs.insertionSort r).take k ++ (xs.insertionSort r).drop k := by
    rw [take_append_drop, mem_insertionSort]
    exact hx
  exact hsorted.2.2 y hy x ((mem_append.mp hmem).resolve_left hno)

/-- An element that was given up before is given up again. -/
theorem keepBest_topK_of_mem {k : Nat} {xs : List α} {x : α} (hx : x ∈ xs)
    (hno : x ∉ topK r k xs) : keepBest r k (topK r k xs) x = topK r k xs := by
  have hlen : ¬(topK r k xs).length < k := by
    intro hlt
    rw [length_topK] at hlt
    refine hno ?_
    rw [topK, take_of_length_le (by rw [length_insertionSort]; omega)]
    exact (mem_insertionSort r).mpr hx
  rw [keepBest, if_neg hlen]
  split
  · rfl
  next worst hworst =>
  exact if_pos (rel_of_notMem_topK hx hno (mem_of_getLast? hworst))

end Total

section Linear

variable [Std.Total r] [IsTrans α r] [Std.Antisymm r]

theorem insertionSort_congr {xs ys : List α} (h : xs.Perm ys) :
    xs.insertionSort r = ys.insertionSort r := by
  refine List.Perm.eq_of_pairwise' (pairwise_insertionSort r xs)
    (pairwise_insertionSort r ys) ?_
  exact (perm_insertionSort r xs).trans (h.trans (perm_insertionSort r ys).symm)

theorem topK_congr {xs ys : List α} (h : xs.Perm ys) (k : Nat) : topK r k xs = topK r k ys := by
  rw [topK, topK, insertionSort_congr h]

/-- **The first `k` of several lists** are the first `k` of what is first in
each. -/
theorem topK_flatten_map (k : Nat) (parts : List (List α)) :
    topK r k (parts.map (topK r k)).flatten = topK r k parts.flatten := by
  induction parts with
  | nil => rfl
  | cons part parts ih =>
    rw [map_cons, flatten_cons, flatten_cons]
    calc topK r k (topK r k part ++ (parts.map (topK r k)).flatten)
        = topK r k ((parts.map (topK r k)).flatten ++ topK r k part) :=
          topK_congr perm_append_comm k
      _ = topK r k ((parts.map (topK r k)).flatten ++ part) := topK_append_topK k _ _
      _ = topK r k (part ++ (parts.map (topK r k)).flatten) :=
          topK_congr perm_append_comm k
      _ = topK r k (part ++ topK r k (parts.map (topK r k)).flatten) :=
          (topK_append_topK k _ _).symm
      _ = topK r k (part ++ parts.flatten) := by rw [ih, topK_append_topK]

theorem keepBest_eq_take {k : Nat} {kept : List α} {x : α} (hsorted : kept.Pairwise r)
    (hlen : kept.length ≤ k) (hx : x ∉ kept) :
    keepBest r k kept x = (kept.orderedInsert r x).take k := by
  unfold keepBest
  split
  · rw [take_of_length_le]
    rw [orderedInsert_length]
    omega
  next hfull =>
  have hk : kept.length = k := by omega
  split
  next hnone =>
    rw [getLast?_eq_none_iff] at hnone
    subst hnone
    simp [← hk]
  next worst hworst =>
  obtain ⟨init, rfl⟩ := getLast?_eq_some_iff.mp hworst
  have hinit : ∀ y ∈ init, r y worst := fun y hy =>
    (pairwise_append.mp hsorted).2.2 y hy worst (mem_singleton.mpr rfl)
  have hne : ∀ y ∈ init ++ [worst], y ≠ x := fun y hy heq => hx (heq ▸ hy)
  split
  next hrel =>
    -- the new element comes after all others
    have hafter : ∀ y ∈ init ++ [worst], ¬r x y := by
      intro y hy hxy
      refine hne y hy (Std.Antisymm.antisymm y x ?_ hxy)
      rcases mem_append.mp hy with hy | hy
      · exact IsTrans.trans y worst x (hinit y hy) hrel
      · exact mem_singleton.mp hy ▸ hrel
    rw [orderedInsert_eq_append hafter, take_append_of_le_length (by omega),
      take_of_length_le hlen]
  next hrel =>
    have hxw : r x worst := (Std.Total.total x worst).resolve_right hrel
    have hcut : (init.orderedInsert r x).length = k := by
      rw [orderedInsert_length]
      simpa using hk
    rw [dropLast_concat, orderedInsert_append_singleton hxw,
      take_append_of_le_length (by omega), take_of_length_le (by omega)]

/-- **A bounded collector** holds the first `k` of what it was fed. -/
theorem keepBest_topK (k : Nat) {xs : List α} {x : α} (hx : x ∉ xs) :
    keepBest r k (topK r k xs) x = topK r k (x :: xs) := by
  have hno : x ∉ topK r k xs := fun hmem =>
    hx ((mem_insertionSort r).mp (mem_of_mem_take hmem))
  rw [keepBest_eq_take (pairwise_topK k xs) (by rw [length_topK]; omega) hno, topK, topK,
    insertionSort_cons, ← take_orderedInsert]

end Linear

end ReverseRusty
