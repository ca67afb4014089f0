import Mathlib

/-!
# ReverseRusty.Lib.Links

Binary trees laid out in a list: a node holds the places of its two children
or none, and the first node is the root.  The links of an arbitrary list need
not form a tree; `isTree_iff` says when they do by counting links, and
`length_lt_of_follow` bounds the depth of a tree by its size.
-/

namespace ReverseRusty

open List

/-- The two links of each node, none at a leaf. -/
abbrev Links := List (Option (Nat × Nat))

namespace Links

variable {ls : Links} {i j : Nat} {side : Bool} {p q : List Bool}

/-- The node on one side of a node. -/
def next (ls : Links) (i : Nat) (side : Bool) : Option Nat :=
  ls[i]?.join.map fun k => if side then k.2 else k.1

/-- The node at the end of a path. -/
def follow (ls : Links) (i : Nat) : List Bool → Option Nat
  | [] => some i
  | side :: p => (ls.next i side).bind fun j => follow ls j p

/-- The nodes along a path, both ends included. -/
def along (ls : Links) (i : Nat) : List Bool → List Nat
  | [] => [i]
  | side :: p => i :: (ls.next i side).elim [] fun j => along ls j p

def targets (ls : Links) : List Nat := ls.flatMap fun k => k.elim [] fun k => [k.1, k.2]

theorem follow_append (i : Nat) (p q : List Bool) :
    ls.follow i (p ++ q) = (ls.follow i p).bind fun j => ls.follow j q := by
  induction p generalizing i with
  | nil => rfl
  | cons side p ih =>
    rw [cons_append, follow, follow, Option.bind_assoc]
    exact congrArg _ (funext ih)

theorem follow_concat (i : Nat) (p : List Bool) (side : Bool) :
    ls.follow i (p ++ [side]) = (ls.follow i p).bind fun j => ls.next j side := by
  rw [follow_append]
  refine congrArg _ (funext fun j => ?_)
  cases hj : ls.next j side <;> simp [follow, hj]

theorem next_eq_some_iff : ls.next i side = some j ↔
    ∃ k, ls[i]? = some (some k) ∧ (if side then k.2 else k.1) = j := by
  simp [next, Option.map_eq_some_iff, Option.join_eq_some_iff]

theorem mem_targets : j ∈ ls.targets ↔ ∃ i side, ls.next i side = some j := by
  simp only [targets, mem_flatMap, next_eq_some_iff]
  constructor
  · rintro ⟨_ | ⟨l, r⟩, hk, hj⟩
    · contradiction
    · obtain ⟨i, hi⟩ := mem_iff_getElem?.mp hk
      rw [Option.elim_some, mem_pair] at hj
      rcases hj with rfl | rfl
      · exact ⟨i, false, _, hi, rfl⟩
      · exact ⟨i, true, _, hi, rfl⟩
  · rintro ⟨i, side, k, hi, rfl⟩
    refine ⟨some k, mem_of_getElem? hi, ?_⟩
    cases side <;> simp

theorem mem_elim_iff {i : Nat} {k : Option (Nat × Nat)} (hk : ls[i]? = some k) {j : Nat} :
    (j ∈ k.elim [] fun k => [k.1, k.2]) ↔ ∃ side, ls.next i side = some j := by
  simp only [next_eq_some_iff, hk, Option.some.injEq]
  cases k with
  | none => simp
  | some k => simp [eq_comm]

/-- No node is linked twice exactly when a link is known by its target. -/
theorem nodup_targets_iff : ls.targets.Nodup ↔ ∀ i side i' side' j, ls.next i side = some j →
    ls.next i' side' = some j → i = i' ∧ side = side' := by
  rw [targets, nodup_flatMap, pairwise_iff_getElem]
  constructor
  · rintro ⟨hown, hdisjoint⟩ i side i' side' j h h'
    obtain ⟨k, hk, hj⟩ := next_eq_some_iff.mp h
    obtain ⟨k', hk', hj'⟩ := next_eq_some_iff.mp h'
    obtain ⟨hi, hget⟩ := List.getElem?_eq_some_iff.mp hk
    obtain ⟨hi', hget'⟩ := List.getElem?_eq_some_iff.mp hk'
    have hmem := (mem_elim_iff hk).mpr ⟨side, h⟩
    have hmem' := (mem_elim_iff hk').mpr ⟨side', h'⟩
    rcases Nat.lt_trichotomy i i' with hlt | rfl | hlt
    · have hd := hdisjoint i i' hi hi' hlt
      simp only [Function.onFun, hget, hget'] at hd
      exact absurd hmem' (hd hmem)
    · rw [hk] at hk'
      cases hk'
      have hne := hown _ (mem_of_getElem? hk)
      simp only [Option.elim_some, nodup_cons, mem_singleton] at hne
      grind
    · have hd := hdisjoint i' i hi' hi hlt
      simp only [Function.onFun, hget, hget'] at hd
      exact absurd hmem (hd hmem')
  · intro h
    refine ⟨fun k hk => ?_, fun i i' hi hi' hlt => ?_⟩
    · obtain ⟨i, hi⟩ := mem_iff_getElem?.mp hk
      cases k with
      | none => exact nodup_nil
      | some k =>
        have hne : k.1 ≠ k.2 := fun heq => by
          have hsides := h i false i true k.2 (next_eq_some_iff.mpr ⟨k, hi, heq⟩)
            (next_eq_some_iff.mpr ⟨k, hi, rfl⟩)
          exact absurd hsides.2 Bool.false_ne_true
        simpa using hne
    · intro j hj hj'
      obtain ⟨side, hside⟩ := (mem_elim_iff (getElem?_eq_getElem hi)).mp hj
      obtain ⟨side', hside'⟩ := (mem_elim_iff (getElem?_eq_getElem hi')).mp hj'
      have heq := (h i side i' side' j hside hside').1
      omega

/-! ## trees -/

/-- There is a root, links stay inside, and every node is at the end of
exactly one path from the root. -/
structure IsTree (ls : Links) : Prop where
  rooted : ls ≠ []
  inside : ∀ j ∈ ls.targets, j < ls.length
  unique : ∀ i < ls.length, ∃! p, ls.follow 0 p = some i

/-- A node at the end of a path is a node of the list. -/
theorem lt_of_follow (hroot : ls ≠ []) (hinside : ∀ j ∈ ls.targets, j < ls.length)
    (h : ls.follow 0 p = some i) : i < ls.length := by
  rcases eq_nil_or_concat p with rfl | ⟨p, side, rfl⟩
  · cases h
    exact length_pos_iff.mpr hroot
  · rw [concat_eq_append, follow_concat, Option.bind_eq_some_iff] at h
    obtain ⟨j, -, hnext⟩ := h
    exact hinside i (mem_targets.mpr ⟨j, side, hnext⟩)

/-- Without a node linked twice and links to the root, a path is known by
its end. -/
theorem path_unique (hnodup : ls.targets.Nodup) (hroot : 0 ∉ ls.targets)
    (hp : ls.follow 0 p = some i) (hq : ls.follow 0 q = some i) : p = q := by
  have hlast : ∀ {p : List Bool} {side : Bool}, ls.follow 0 (p ++ [side]) = some 0 → False := by
    intro p side h
    rw [follow_concat, Option.bind_eq_some_iff] at h
    obtain ⟨j, -, hnext⟩ := h
    exact hroot (mem_targets.mpr ⟨j, side, hnext⟩)
  induction p using List.reverseRecOn generalizing q i with
  | nil =>
    cases hp
    rcases eq_nil_or_concat q with rfl | ⟨q, side, rfl⟩
    · rfl
    · rw [concat_eq_append] at hq
      exact (hlast hq).elim
  | append_singleton p side ih =>
    rcases eq_nil_or_concat q with rfl | ⟨q, side', rfl⟩
    · cases hq
      exact (hlast hp).elim
    · rw [concat_eq_append] at hq ⊢
      rw [follow_concat, Option.bind_eq_some_iff] at hp hq
      obtain ⟨j, hj, hnext⟩ := hp
      obtain ⟨j', hj', hnext'⟩ := hq
      obtain ⟨rfl, rfl⟩ := nodup_targets_iff.mp hnodup j side j' side' i hnext hnext'
      rw [ih hj hj']

/-- **The links form a tree exactly when they stay inside, no node is linked
twice, the root is not linked and every node is reached.** -/
theorem isTree_iff : ls.IsTree ↔ ls ≠ [] ∧ (∀ j ∈ ls.targets, j < ls.length) ∧
    ls.targets.Nodup ∧ 0 ∉ ls.targets ∧ ∀ i < ls.length, ∃ p, ls.follow 0 p = some i := by
  constructor
  · intro h
    -- a link extends the path to its node
    have hextend : ∀ j side c, ls.next j side = some c →
        ∃ p, ls.follow 0 p = some j ∧ ls.follow 0 (p ++ [side]) = some c := by
      intro j side c hnext
      obtain ⟨k, hk, -⟩ := next_eq_some_iff.mp hnext
      obtain ⟨p, hp, -⟩ := h.unique j (List.getElem?_eq_some_iff.mp hk).1
      exact ⟨p, hp, by rw [follow_concat, hp, Option.bind_some, hnext]⟩
    refine ⟨h.rooted, h.inside, nodup_targets_iff.mpr ?_, ?_, fun i hi => (h.unique i hi).exists⟩
    · intro i side i' side' j hnext hnext'
      obtain ⟨p, hp, hpj⟩ := hextend i side j hnext
      obtain ⟨q, hq, hqj⟩ := hextend i' side' j hnext'
      have heq := (h.unique j (h.inside j (mem_targets.mpr ⟨i, side, hnext⟩))).unique hpj hqj
      obtain ⟨rfl, hside⟩ := append_inj' heq rfl
      rw [hp] at hq
      exact ⟨Option.some.inj hq, singleton_inj.mp hside⟩
    · intro hzero
      obtain ⟨j, side, hnext⟩ := mem_targets.mp hzero
      obtain ⟨p, -, hp⟩ := hextend j side 0 hnext
      have hempty : ls.follow 0 [] = some 0 := rfl
      have heq := (h.unique 0 (length_pos_iff.mpr h.rooted)).unique hp hempty
      simp at heq
  · rintro ⟨hroot, hinside, hnodup, hzero, hreach⟩
    refine ⟨hroot, hinside, fun i hi => ?_⟩
    obtain ⟨p, hp⟩ := hreach i hi
    exact ⟨p, hp, fun q hq => path_unique hnodup hzero hq hp⟩

/-- **A path of a tree is shorter than the tree has nodes.** -/
theorem IsTree.length_lt_of_follow (h : ls.IsTree) (hp : ls.follow 0 p = some i) :
    p.length < ls.length := by
  -- the nodes on the way are distinct, for each is at the end of its own path
  have hnode : ∀ k : Fin (p.length + 1), ∃ j : Fin ls.length, ls.follow 0 (p.take k) = some j := by
    intro k
    rw [← take_append_drop k p, follow_append, Option.bind_eq_some_iff] at hp
    obtain ⟨j, hj, -⟩ := hp
    exact ⟨⟨j, lt_of_follow h.rooted h.inside hj⟩, hj⟩
  choose node hnode using hnode
  have hinj : Function.Injective node := by
    intro k k' heq
    have hk' := hnode k'
    rw [← heq] at hk'
    have htake := (h.unique _ (node k).isLt).unique (hnode k) hk'
    have hlen := congrArg List.length htake
    rw [length_take, length_take] at hlen
    exact Fin.ext (by omega)
  have hcard := Fintype.card_le_of_injective node hinj
  rwa [Fintype.card_fin, Fintype.card_fin] at hcard

end Links

end ReverseRusty
