import ReverseRusty.Control
import ReverseRusty.Lib.Bytes
import ReverseRusty.Lib.Multimap
import ReverseRusty.Lib.TopK
import ReverseRusty.SigKey

/-!
# ReverseRusty.Allocator

The placement of shard positions on nodes (`cluster/allocator.rs`).

For each position the nodes are ranked by a hash of the pair, and the first
ones are taken: the first is the primary.  A list without nodes has no plan
(the source panics there), and a replication factor of zero counts as one.

Main result: `allocation_moves_little`.
-/

namespace ReverseRusty

open List

/-! ## the plan -/

def hrwWeight (position : Nat) (node : NodeId) : UInt64 :=
  fnv1a64 (leBytes 4 position ++ leBytes 8 node.toNat)

/-- The rank of a node for a position: heavier nodes come first, of equal ones
the smaller id. -/
def hrwRank (position : Nat) (node : NodeId) : UInt64ᵒᵈ ×ₗ NodeId :=
  toLex (OrderDual.toDual (hrwWeight position node), node)

def RanksBefore (position : Nat) (a b : NodeId) : Prop := hrwRank position a ≤ hrwRank position b

instance (position : Nat) : DecidableRel (RanksBefore position) := fun _ _ =>
  inferInstanceAs (Decidable (_ ≤ _))

def rankedNodes (nodes : List NodeId) (rf position : Nat) : List NodeId :=
  topK (RanksBefore position) (max 1 (min rf (max nodes.length 1))) nodes

def planPosition (nodes : List NodeId) (rf position : Nat) : Except String ShardAssignment :=
  match rankedNodes nodes rf position with
  | [] => .error "index out of bounds"
  | primary :: replicas => .ok ⟨position, primary, replicas⟩

def planAssignments (nodes : List NodeId) (numShards rf : Nat) :
    Except String (List ShardAssignment) :=
  (List.range numShards).mapM (planPosition nodes rf)

def changedAssignments (current desired : List ShardAssignment) : List ShardAssignment :=
  desired.filter fun d => current.find? (fun c => c.position = d.position) ≠ some d

def ShardAssignment.members (a : ShardAssignment) : List NodeId := a.primary :: a.replicas

/-! ## ranks -/

instance (position : Nat) : Std.Total (RanksBefore position) where
  total _ _ := le_total _ _

instance (position : Nat) : IsTrans NodeId (RanksBefore position) where
  trans _ _ _ := le_trans

instance (position : Nat) : Std.Antisymm (RanksBefore position) where
  antisymm _ _ hab hba := congrArg (fun rank => (ofLex rank).2) (le_antisymm hab hba)

/-! ## one position -/

section Position

variable {nodes nodes' : List NodeId} {rf position : Nat} {x : NodeId} {a a' : ShardAssignment}

/-- The clamp of the replication factor at the number of nodes changes
nothing. -/
theorem rankedNodes_eq (nodes : List NodeId) (rf position : Nat) :
    rankedNodes nodes rf position = topK (RanksBefore position) (max rf 1) nodes := by
  have hlen := length_insertionSort (RanksBefore position) nodes
  rw [rankedNodes, topK, topK, take_eq_take_iff, hlen]
  omega

theorem length_rankedNodes (nodes : List NodeId) (rf position : Nat) :
    (rankedNodes nodes rf position).length = min (max rf 1) nodes.length := by
  rw [rankedNodes_eq, length_topK]

theorem planPosition_eq_ok_iff : planPosition nodes rf position = .ok a ↔
    a.position = position ∧ a.members = rankedNodes nodes rf position := by
  unfold planPosition ShardAssignment.members
  obtain ⟨p, primary, replicas⟩ := a
  cases rankedNodes nodes rf position with
  | nil => simp
  | cons first rest => simp [eq_comm]

theorem exists_planPosition (hne : nodes ≠ []) (rf position : Nat) :
    ∃ a, planPosition nodes rf position = .ok a := by
  unfold planPosition
  cases hranked : rankedNodes nodes rf position with
  | cons primary replicas => exact ⟨_, rfl⟩
  | nil =>
    have hlen := length_rankedNodes nodes rf position
    have hpos := length_pos_iff.mpr hne
    rw [hranked, length_nil] at hlen
    omega

theorem planPosition_congr (h : nodes'.Perm nodes) :
    planPosition nodes' rf position = planPosition nodes rf position := by
  unfold planPosition
  rw [rankedNodes_eq, rankedNodes_eq, topK_congr h]

/-- What one more node does to a position: nothing, or it enters, and where
there is no room the member of the lowest rank leaves. -/
def Joins (rf : Nat) (x : NodeId) (a a' : ShardAssignment) : Prop :=
  a' = a ∨ a'.position = a.position ∧
    (a.members.length < max rf 1 ∧ a'.members.Perm (x :: a.members) ∨
      a.members.length = max rf 1 ∧ a'.members.Perm (x :: a.members.dropLast))

theorem joins_of_planPosition (hx : x ∉ nodes) (ha : planPosition nodes rf position = .ok a)
    (ha' : planPosition (x :: nodes) rf position = .ok a') : Joins rf x a a' := by
  obtain ⟨hpos, hmembers⟩ := planPosition_eq_ok_iff.mp ha
  obtain ⟨hpos', hmembers'⟩ := planPosition_eq_ok_iff.mp ha'
  have hlen := length_rankedNodes nodes rf position
  have hmin := Nat.min_le_left (max rf 1) nodes.length
  rw [rankedNodes_eq, ← keepBest_topK _ hx, ← rankedNodes_eq, ← hmembers] at hmembers'
  rw [← hmembers] at hlen
  unfold keepBest at hmembers'
  split at hmembers'
  · next hroom =>
    exact .inr ⟨hpos'.trans hpos.symm, .inl ⟨hroom, hmembers' ▸ perm_orderedInsert ..⟩⟩
  · next hfull =>
    have hsame : a'.members = a.members → a' = a := by
      obtain ⟨p, primary, replicas⟩ := a
      obtain ⟨p', primary', replicas'⟩ := a'
      intro heq
      obtain ⟨rfl, rfl⟩ := List.cons.inj heq
      rw [ShardAssignment.mk.injEq]
      exact ⟨hpos'.trans hpos.symm, rfl, rfl⟩
    split at hmembers'
    · exact .inl (hsame hmembers')
    · split at hmembers'
      · exact .inl (hsame hmembers')
      · exact .inr ⟨hpos'.trans hpos.symm, .inr ⟨by omega, hmembers' ▸ perm_orderedInsert ..⟩⟩

/-- A position that does not use a node is the same without it. -/
theorem Joins.eq_of_notMem (h : Joins rf x a a') (hx : x ∉ a'.members) : a' = a := by
  rcases h with h | ⟨-, ⟨-, h⟩ | ⟨-, h⟩⟩
  · exact h
  · exact absurd (h.mem_iff.mpr mem_cons_self) hx
  · exact absurd (h.mem_iff.mpr mem_cons_self) hx

end Position

/-! ## applying the changes -/

section Apply

variable {s : ClusterState} {changes desired : List ShardAssignment} {a : ShardAssignment}

theorem mem_foldl_replaceAssignment (hnodup : (changes.map ShardAssignment.position).Nodup) :
    a ∈ (changes.foldl ClusterState.replaceAssignment s).assignments ↔
      a ∈ changes ∨ a ∈ s.assignments ∧ a.position ∉ changes.map ShardAssignment.position := by
  induction changes generalizing s with
  | nil => simp
  | cons c changes ih =>
    obtain ⟨hc, hnodup⟩ := nodup_cons.mp hnodup
    rw [foldl_cons, ih hnodup]
    simp only [ClusterState.replaceAssignment, mem_mergeSort, mem_append,
      mem_filter, mem_cons, not_mem_nil, or_false, decide_eq_true_eq, map_cons,
      not_or]
    constructor
    · rintro (h | ⟨⟨h, hne⟩ | rfl, hnot⟩)
      · exact .inl (.inr h)
      · exact .inr ⟨h, hne, hnot⟩
      · exact .inl (.inl rfl)
    · rintro ((rfl | h) | ⟨h, hne, hnot⟩)
      · exact .inr ⟨.inr rfl, hc⟩
      · exact .inl h
      · exact .inr ⟨.inl ⟨h, hne⟩, hnot⟩

theorem nodup_foldl_replaceAssignment (h : (s.assignments.map ShardAssignment.position).Nodup) :
    ((changes.foldl ClusterState.replaceAssignment s).assignments.map
      ShardAssignment.position).Nodup := by
  refine List.foldlRecOn (motive := fun s : ClusterState =>
    (s.assignments.map ShardAssignment.position).Nodup) changes _ h fun s h c _ => ?_
  exact nodup_replace h c _

theorem changedAssignments_exact
    (hcurrent : (s.assignments.map ShardAssignment.position).Perm
      (desired.map ShardAssignment.position))
    (hnodup : (desired.map ShardAssignment.position).Nodup) :
    ((changedAssignments s.assignments desired).foldl ClusterState.replaceAssignment s).assignments.Perm
        desired ∧
      ∀ d ∈ changedAssignments s.assignments desired, d ∉ s.assignments := by
  have hnodup' := hcurrent.nodup_iff.mpr hnodup
  have hchanged : ∀ d, d ∈ changedAssignments s.assignments desired ↔
      d ∈ desired ∧ d ∉ s.assignments := by
    intro d
    rw [changedAssignments, mem_filter, decide_eq_true_eq, Ne, find?_key_eq_some_iff hnodup',
      and_iff_left rfl]
  refine ⟨?_, fun d hd => ((hchanged d).mp hd).2⟩
  refine (perm_ext_iff_of_nodup (nodup_foldl_replaceAssignment hnodup').of_map
    hnodup.of_map).mpr fun a => ?_
  have hdistinct : ((changedAssignments s.assignments desired).map ShardAssignment.position).Nodup :=
    (filter_sublist.map _).nodup hnodup
  rw [mem_foldl_replaceAssignment hdistinct, hchanged]
  constructor
  · rintro (⟨h, -⟩ | ⟨h, hnot⟩)
    · exact h
    · -- the desired assignment of this position is not a change, so it is this one
      obtain ⟨d, hd, hpos⟩ := mem_map.mp (hcurrent.mem_iff.mp (mem_map_of_mem h))
      have hmem : d ∈ s.assignments := by
        by_contra hno
        exact hnot (mem_map.mpr ⟨d, (hchanged d).mpr ⟨hd, hno⟩, hpos⟩)
      rwa [← inj_on_of_nodup_map hnodup' hmem h hpos]
  · intro h
    by_cases hmem : a ∈ s.assignments
    · refine .inr ⟨hmem, fun hin => ?_⟩
      obtain ⟨d, hd, hpos⟩ := mem_map.mp hin
      obtain ⟨hdesired, hno⟩ := (hchanged d).mp hd
      exact hno (inj_on_of_nodup_map hnodup hdesired h hpos ▸ hmem)
    · exact .inl ⟨h, hmem⟩

end Apply

/-! ## the whole plan -/

theorem forall₂_of_common {α β γ : Type*} {R : α → β → Prop} {R' : α → γ → Prop} {S : β → γ → Prop}
    {xs : List α} {ys : List β} {zs : List γ} (h : List.Forall₂ R xs ys) (h' : List.Forall₂ R' xs zs)
    (hs : ∀ x y z, R x y → R' x z → S y z) : List.Forall₂ S ys zs := by
  induction h generalizing zs with
  | nil =>
    cases h'
    exact .nil
  | cons hxy _ ih =>
    cases h' with
    | cons hxz hrest => exact .cons (hs _ _ _ hxy hxz) (ih hrest)

theorem exists_planAssignments {nodes : List NodeId} (hne : nodes ≠ []) (numShards rf : Nat) :
    ∃ plan, planAssignments nodes numShards rf = .ok plan ∧
      List.Forall₂ (fun position a => planPosition nodes rf position = .ok a)
        (List.range numShards) plan := by
  refine exists_mapM fun position _ => ?_
  obtain ⟨a, ha⟩ := exists_planPosition hne rf position
  exact ⟨a, ha, ha⟩

theorem planAssignments_congr {nodes nodes' : List NodeId} (h : nodes'.Perm nodes) (numShards rf : Nat) :
    planAssignments nodes' numShards rf = planAssignments nodes numShards rf := by
  have hposition : planPosition nodes' rf = planPosition nodes rf :=
    funext fun position => planPosition_congr h
  rw [planAssignments, planAssignments, hposition]

/-- **The allocator moves as little as possible.**  Over distinct nodes, at
least one, every position gets as many as the replication factor asks for
and there are, whatever the order of the list.  One more node enters a
position or not, and takes the place of its member of the lowest rank where
there is no room; one node less changes only the positions that used it.
Assigning what differs from a map with one entry per position makes it the
plan. -/
theorem allocation_moves_little (nodes : List NodeId) (hne : nodes ≠ []) (hnodup : nodes.Nodup)
    (numShards rf : Nat) :
    ∃ plan, planAssignments nodes numShards rf = .ok plan ∧
      plan.map ShardAssignment.position = List.range numShards ∧
      (∀ a ∈ plan, a.members.length = min (max rf 1) nodes.length ∧ a.members.Nodup ∧
        a.members ⊆ nodes) ∧
      (∀ nodes', nodes'.Perm nodes → planAssignments nodes' numShards rf = .ok plan) ∧
      (∀ x ∉ nodes, ∀ nodes', nodes'.Perm (x :: nodes) →
        ∃ plan', planAssignments nodes' numShards rf = .ok plan' ∧
          List.Forall₂ (Joins rf x) plan plan') ∧
      (∀ x rest, nodes.Perm (x :: rest) → rest ≠ [] →
        ∃ plan', planAssignments rest numShards rf = .ok plan' ∧
          List.Forall₂ (fun a a' => x ∉ a.members → a' = a) plan plan') ∧
      ∀ s : ClusterState, (s.assignments.map ShardAssignment.position).Perm (List.range numShards) →
        ((changedAssignments s.assignments plan).foldl
          ClusterState.replaceAssignment s).assignments.Perm plan ∧
        ∀ d ∈ changedAssignments s.assignments plan, d ∉ s.assignments := by
  obtain ⟨plan, hplan, hall⟩ := exists_planAssignments hne numShards rf
  have hpositions : plan.map ShardAssignment.position = List.range numShards := by
    rw [← forall₂_eq_eq_eq, forall₂_map_left_iff]
    exact hall.flip.imp fun a position ha => (planPosition_eq_ok_iff.mp ha).1
  refine ⟨plan, hplan, hpositions, ?_, fun nodes' h => ?_, fun x hx nodes' h => ?_,
    fun x rest h hrest => ?_, fun s hs => ?_⟩
  · refine ((forall₂_and_left _ _).mp (hall.flip.imp fun a position ha => ⟨?_, ha⟩)).1
    obtain ⟨-, hmembers⟩ := planPosition_eq_ok_iff.mp ha
    have hperm := perm_insertionSort (RanksBefore position) nodes
    have hsub : (rankedNodes nodes rf position).Sublist _ := take_sublist _ _
    rw [hmembers]
    exact ⟨length_rankedNodes nodes rf position, hsub.nodup (hperm.nodup_iff.mpr hnodup),
      fun n hn => hperm.mem_iff.mp (hsub.subset hn)⟩
  · rw [planAssignments_congr h, hplan]
  · obtain ⟨plan', hplan', hall'⟩ := exists_planAssignments (cons_ne_nil x nodes) numShards rf
    exact ⟨plan', (planAssignments_congr h numShards rf).trans hplan',
      forall₂_of_common hall hall' fun _ _ _ ha ha' => joins_of_planPosition hx ha ha'⟩
  · have hx : x ∉ rest := (nodup_cons.mp (h.nodup_iff.mp hnodup)).1
    obtain ⟨plan', hplan', hall'⟩ := exists_planAssignments hrest numShards rf
    refine ⟨plan', hplan', forall₂_of_common hall hall' fun position a a' ha ha' hmem => ?_⟩
    rw [planPosition_congr h] at ha
    exact ((joins_of_planPosition hx ha' ha).eq_of_notMem hmem).symm
  · exact changedAssignments_exact (hpositions ▸ hs) (hpositions ▸ nodup_range)

/-- A replication factor of zero places one copy, and no node has no plan. -/
theorem no_copies_refused :
    planAssignments [7] 1 0 = .ok [⟨0, 7, []⟩] ∧
      planAssignments [] 1 1 = .error "index out of bounds" :=
  ⟨rfl, rfl⟩

theorem two_nodes_allocated :
    ∃ plan, planAssignments [1, 2] 2 2 = .ok plan ∧
      ∃ plan', planAssignments [3, 1, 2] 2 2 = .ok plan' ∧ List.Forall₂ (Joins 2 3) plan plan' := by
  obtain ⟨plan, hplan, -, -, -, hjoin, -, -⟩ :=
    allocation_moves_little [1, 2] (by decide) (by decide) 2 2
  exact ⟨plan, hplan, hjoin 3 (by decide) _ (List.Perm.refl _)⟩

end ReverseRusty
