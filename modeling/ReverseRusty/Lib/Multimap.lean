import Mathlib

/-!
# ReverseRusty.Lib.Multimap

Finite maps from keys to append-only lists of values, with an absent key
read as the empty list.
-/

namespace ReverseRusty

open List

/-- Keys to lists of values. -/
abbrev Multimap (κ ν : Type*) := AList fun _ : κ => List ν

namespace Multimap

variable {κ ν : Type*} [DecidableEq κ]

def valuesOf (m : Multimap κ ν) (k : κ) : List ν := (m.lookup k).getD []

/-- Append a value under a key. -/
def push (m : Multimap κ ν) (k : κ) (x : ν) : Multimap κ ν := AList.insert k (m.valuesOf k ++ [x]) m

@[simp] theorem valuesOf_empty (k : κ) : valuesOf (∅ : Multimap κ ν) k = [] := rfl

theorem valuesOf_push (m : Multimap κ ν) (k k' : κ) (x : ν) :
    (m.push k x).valuesOf k' = if k' = k then m.valuesOf k ++ [x] else m.valuesOf k' := by
  by_cases hk : k' = k
  · subst hk
    rw [push, valuesOf, AList.lookup_insert, Option.getD_some, if_pos rfl]
  · rw [push, valuesOf, AList.lookup_insert_ne hk, if_neg hk, valuesOf]

@[simp] theorem mem_valuesOf_push {m : Multimap κ ν} {k k' : κ} {x y : ν} :
    y ∈ (m.push k x).valuesOf k' ↔ y ∈ m.valuesOf k' ∨ (k' = k ∧ y = x) := by
  rw [valuesOf_push]
  split
  · next hk => simp [hk]
  · next hk => simp [hk]

theorem valuesOf_of_entries_eq_nil {m : Multimap κ ν} (h : m.entries = []) (k : κ) :
    m.valuesOf k = [] := by
  have hm : m = ∅ := AList.ext h
  rw [hm, valuesOf_empty]

theorem filter_pairs {γ : Type*} (m : Multimap κ ν) (k : κ) (f : κ → ν → γ) (p : γ → Bool)
    (hp : ∀ k' x, p (f k' x) = decide (k' = k)) :
    (m.entries.flatMap fun e => e.2.map (f e.1)).filter p = (m.valuesOf k).map (f k) := by
  obtain ⟨entries, hnodup⟩ := m
  unfold valuesOf AList.lookup
  simp only
  induction entries with
  | nil => rfl
  | cons e entries ih =>
    rw [nodupKeys_cons] at hnodup
    have hrest := ih hnodup.2
    have hhead : (e.2.map (f e.1)).filter p = if e.1 = k then e.2.map (f k) else [] := by
      split
      · next hk =>
        rw [filter_eq_self.mpr, hk]
        intro y hy
        obtain ⟨x, -, rfl⟩ := mem_map.mp hy
        simp [hp, hk]
      · next hk =>
        rw [filter_eq_nil_iff]
        intro y hy
        obtain ⟨x, -, rfl⟩ := mem_map.mp hy
        simp [hp, hk]
    rw [flatMap_cons, filter_append, hrest, hhead]
    by_cases hk : e.1 = k
    · obtain ⟨key, values⟩ := e
      simp only at hk
      subst hk
      have hnone : List.dlookup key entries = none := by
        rw [dlookup_eq_none]
        exact hnodup.1
      simp [hnone]
    · rw [if_neg hk, nil_append, dlookup_cons_ne _ e (Ne.symm hk)]

end Multimap

/-! ## lists in which no two elements have one key -/

section Keyed

variable {α κ : Type} [DecidableEq κ] {f : α → κ} {xs : List α}

theorem find?_key_eq_some_iff (h : (xs.map f).Nodup) {k : κ} {x : α} :
    xs.find? (fun y => f y = k) = some x ↔ x ∈ xs ∧ f x = k := by
  refine ⟨fun hfind => ⟨mem_of_find?_eq_some hfind, by simpa using find?_some hfind⟩, ?_⟩
  rintro ⟨hmem, rfl⟩
  cases hfind : xs.find? (fun y => f y = f x) with
  | none => simpa using find?_eq_none.mp hfind x hmem
  | some y =>
    have hkey : f y = f x := by simpa using find?_some hfind
    rw [inj_on_of_nodup_map h (mem_of_find?_eq_some hfind) hmem hkey]

section Replace

variable (h : (xs.map f).Nodup) (x : α) (le : α → α → Bool)

include h

theorem nodup_replace :
    ((((xs.filter fun y => f y ≠ f x) ++ [x]).mergeSort le).map f).Nodup := by
  refine ((mergeSort_perm _ le).map f).nodup_iff.mpr ?_
  rw [map_append, nodup_append]
  refine ⟨(filter_sublist.map f).nodup h, nodup_singleton _, ?_⟩
  rintro _ hk _ hx rfl
  obtain ⟨y, hy, hkey⟩ := mem_map.mp hk
  have hne := (mem_filter.mp hy).2
  simp [hkey, mem_singleton.mp hx] at hne

/-- After a replacement, a search finds the new element under its key and what
it found before under any other. -/
theorem find?_replace (k : κ) :
    (((xs.filter fun y => f y ≠ f x) ++ [x]).mergeSort le).find? (fun y => f y = k) =
      if k = f x then some x else xs.find? fun y => f y = k := by
  ext y
  rw [find?_key_eq_some_iff (nodup_replace h x le), mem_mergeSort, mem_append, mem_filter,
    mem_singleton]
  split
  · next heq =>
    subst heq
    constructor
    · rintro ⟨⟨-, hne⟩ | rfl, hkey⟩
      · simp [hkey] at hne
      · rfl
    · rintro ⟨⟩
      exact ⟨.inr rfl, rfl⟩
  · next hne =>
    rw [find?_key_eq_some_iff h]
    constructor
    · rintro ⟨⟨hmem, -⟩ | rfl, hkey⟩
      · exact ⟨hmem, hkey⟩
      · exact absurd hkey.symm hne
    · rintro ⟨hmem, rfl⟩
      exact ⟨.inl ⟨hmem, by simpa using hne⟩, rfl⟩

end Replace

end Keyed

end ReverseRusty
