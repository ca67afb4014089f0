import ReverseRusty.Equivalence
import ReverseRusty.Lib.Components

/-!
# ReverseRusty.VocabEquivalences

The equivalence groups of a vocabulary (`vocab/methods.rs`): forms resolve
to features, overlapping groups are merged, and each member is mapped to its
whole group.
-/

namespace ReverseRusty

open List

/-! ## merging groups -/

def overlaps (g r : List FeatureId) : Bool := g.any r.contains

def mergeGroup (result : List (List FeatureId)) (g : List FeatureId) : List (List FeatureId) :=
  if (result.filter (overlaps g)).isEmpty then result ++ [g]
  else result.filter (fun r => !overlaps g r)
    ++ [sortDedup (g ++ (result.filter (overlaps g)).reverse.flatten)]

/-- **Merge groups that share any member**, transitively. -/
def mergeOverlappingGroups (groups : List (List FeatureId)) : List (List FeatureId) :=
  groups.foldl mergeGroup []

section Merge

variable {groups result : List (List FeatureId)} {g : List FeatureId}

/-- What a merge leaves: the groups it does not overlap, and one with its own
members and those of the groups it does. -/
theorem mergeGroup_spec (result : List (List FeatureId)) (g : List FeatureId) :
    ∃ merged, (∀ x, x ∈ merged ↔ x ∈ g ∨ ∃ r ∈ result, overlaps g r = true ∧ x ∈ r) ∧
      mergeGroup result g = result.filter (fun r => !overlaps g r) ++ [merged] := by
  unfold mergeGroup
  split
  · next hnone =>
    rw [List.isEmpty_iff, filter_eq_nil_iff] at hnone
    refine ⟨g, fun x => ?_, ?_⟩
    · refine ⟨.inl, fun h => h.elim id ?_⟩
      rintro ⟨r, hr, hover, -⟩
      exact absurd hover (hnone r hr)
    · rw [filter_eq_self.mpr fun r hr => ?_]
      simpa using hnone r hr
  · refine ⟨_, fun x => ?_, rfl⟩
    simp [and_assoc]

theorem overlaps_iff {r : List FeatureId} : overlaps g r = true ↔ ∃ x ∈ g, x ∈ r := by
  simp [overlaps, any_eq_true]

theorem nil_mem_of_mergeGroup (h : [] ∈ mergeGroup result g) : [] ∈ result ∨ g = [] := by
  obtain ⟨merged, hmerged, heq⟩ := mergeGroup_spec result g
  rw [heq, mem_append, mem_singleton] at h
  refine h.imp mem_of_mem_filter fun hnil => eq_nil_iff_forall_not_mem.mpr fun x hx => ?_
  have hin := (hmerged x).mpr (.inl hx)
  rw [← hnil] at hin
  contradiction

theorem nil_mem_of_mergeOverlappingGroups (h : [] ∈ mergeOverlappingGroups groups) :
    [] ∈ groups := by
  have hrun : ∀ result, [] ∈ groups.foldl mergeGroup result → [] ∈ result ∨ [] ∈ groups := by
    clear h
    induction groups with
    | nil => exact fun result h => .inl h
    | cons g groups ih =>
      intro result h
      rcases ih _ h with hstep | hrest
      · exact (nil_mem_of_mergeGroup hstep).imp_right fun hg => mem_cons.mpr (.inl hg.symm)
      · exact .inr (mem_cons_of_mem g hrest)
  exact (hrun [] h).resolve_left not_mem_nil

theorem Components.mergeGroup (h : Components groups result) (g : List FeatureId) :
    Components (groups ++ [g]) (mergeGroup result g) := by
  obtain ⟨merged, hmerged, heq⟩ := mergeGroup_spec result g
  -- the merged group has what the new one touches
  have htouch : ∀ x, x ∈ merged ↔ Touches groups g x := by
    intro x
    rw [hmerged, Touches]
    refine or_congr_right ⟨?_, ?_⟩
    · rintro ⟨r, hr, hover, hx⟩
      obtain ⟨y, hy, hyr⟩ := overlaps_iff.mp hover
      exact ⟨y, hy, (h.joined x y).mp ⟨r, hr, hx, hyr⟩⟩
    · rintro ⟨y, hy, hxy⟩
      obtain ⟨r, hr, hx, hyr⟩ := (h.joined x y).mpr hxy
      exact ⟨r, hr, overlaps_iff.mpr ⟨y, hy, hyr⟩, hx⟩
  rw [heq]
  constructor
  · rw [pairwise_append]
    refine ⟨h.disjoint.filter _, pairwise_singleton _ _, ?_⟩
    intro r hr merged' hmerged' x hx hx'
    rw [mem_singleton.mp hmerged', htouch] at hx'
    obtain ⟨hr, hno⟩ := mem_filter.mp hr
    have hno : ¬∃ y ∈ g, y ∈ r := by
      rw [← overlaps_iff]
      simpa using hno
    rcases hx' with hx' | ⟨y, hy, hxy⟩
    · exact hno ⟨x, hx', hx⟩
    · exact hno ⟨y, hy, (h.mem_iff hr hx y).mpr hxy⟩
  · intro a b
    rw [connected_append, together_append, htouch, htouch, ← h.joined]
    constructor
    · rintro (⟨r, hr, hab⟩ | hab)
      · exact .inl ⟨r, mem_of_mem_filter hr, hab⟩
      · exact .inr hab
    · rintro (⟨r, hr, ha, hb⟩ | hab)
      · cases hover : overlaps g r with
        | false => exact .inl ⟨r, mem_filter.mpr ⟨hr, by simp [hover]⟩, ha, hb⟩
        | true =>
          have htouches : ∀ x ∈ r, Touches groups g x := fun x hx =>
            (htouch x).mp ((hmerged x).mpr (.inr ⟨r, hr, hover, hx⟩))
          exact .inr ⟨htouches a ha, htouches b hb⟩
      · exact .inr hab

/-- **Merging yields the connected components.** -/
theorem components_mergeOverlappingGroups (groups : List (List FeatureId)) :
    Components groups (mergeOverlappingGroups groups) := by
  have hrun : ∀ rest done result, Components done result →
      Components (done ++ rest) (rest.foldl ReverseRusty.mergeGroup result) := by
    intro rest
    induction rest with
    | nil => exact fun done result h => by simpa using h
    | cons g rest ih =>
      intro done result h
      have hnext := ih (done ++ [g]) _ (h.mergeGroup g)
      simpa using hnext
  refine hrun groups [] [] ⟨List.Pairwise.nil, fun a b => ?_⟩
  have hnone : ¬Connected ([] : List (List FeatureId)) a b := by
    intro h
    induction h with
    | single h => obtain ⟨_, hg, -⟩ := h; contradiction
    | tail _ _ ih => exact ih
  exact iff_of_false (fun ⟨_, hr, _⟩ => absurd hr not_mem_nil) hnone

theorem pairwise_mergeOverlappingGroups (hsorted : ∀ g ∈ groups, g.Pairwise (· < ·)) :
    ∀ r ∈ mergeOverlappingGroups groups, r.Pairwise (· < ·) := by
  have hstep : ∀ result, (∀ r ∈ result, r.Pairwise (· < ·)) → ∀ g : List FeatureId,
      g.Pairwise (· < ·) → ∀ r ∈ mergeGroup result g, r.Pairwise (· < ·) := by
    intro result hresult g hg r hr
    unfold mergeGroup at hr
    split at hr <;> rcases mem_append.mp hr with hr | hr
    · exact hresult r hr
    · rwa [mem_singleton.mp hr]
    · exact hresult r (mem_of_mem_filter hr)
    · rw [mem_singleton.mp hr]
      exact pairwise_sortDedup _
  exact List.foldlRecOn (motive := fun result => ∀ r ∈ result, r.Pairwise (· < ·)) groups mergeGroup
    (fun _ hr => absurd hr not_mem_nil) fun result hresult g hg =>
      hstep result hresult g (hsorted g hg)

end Merge

/-! ## resolving a vocabulary -/

/-- The classes by feature and the same classes by the hash of a name. -/
structure Equivalences where
  byFeature : EquivMap
  byName : AList fun _ : UInt64 => List UInt64

section Resolve

variable (named : String → List (FeatureId × UInt64)) (groups : List (List String))

def resolveForm (form : String) : Option FeatureId :=
  match named form with
  | [] => none
  | (feature, _) :: _ =>
    if (named form).any (fun other => other.1 ≠ feature) then none else some feature

def resolveGroup (group : List String) : List FeatureId := group.filterMap (resolveForm named)

def namesOf (feature : FeatureId) : List UInt64 :=
  (groups.flatten.flatMap fun form =>
    if resolveForm named form = some feature then (named form).map Prod.snd else []).eraseDups

def mergedGroups : List (List FeatureId) :=
  mergeOverlappingGroups ((groups.map fun group => sortDedup (resolveGroup named group)).filter
    fun feats => 2 ≤ feats.length)

def insertAll {κ ν : Type} [DecidableEq κ] (map : AList fun _ : κ => ν) (keys : List κ) (value : ν) :
    AList fun _ : κ => ν :=
  keys.foldl (fun map key => map.insert key value) map

/-- **Resolve the equivalence groups of a vocabulary.** -/
def resolveEquivalences : Equivalences where
  byFeature := (mergedGroups named groups).foldl (fun map g => insertAll map g g) ∅
  byName := (mergedGroups named groups).foldl (fun map g =>
    insertAll map (sortDedup (g.flatMap (namesOf named groups)))
      (sortDedup (g.flatMap (namesOf named groups)))) ∅

end Resolve

section Lookup

variable {named : String → List (FeatureId × UInt64)} {groups : List (List String)}

theorem lookup_insertAll {κ ν : Type} [DecidableEq κ] (map : AList fun _ : κ => ν) (keys : List κ)
    (value : ν) (key : κ) :
    (insertAll map keys value).lookup key = if key ∈ keys then some value else map.lookup key := by
  induction keys generalizing map with
  | nil => simp [insertAll]
  | cons k keys ih =>
    rw [insertAll, foldl_cons, ← insertAll, ih]
    by_cases hkeys : key ∈ keys
    · rw [if_pos hkeys, if_pos (mem_cons_of_mem k hkeys)]
    · rw [if_neg hkeys]
      by_cases hk : key = k
      · rw [hk, AList.lookup_insert, if_pos mem_cons_self]
      · rw [AList.lookup_insert_ne hk, if_neg (by simp [hk, hkeys])]

theorem lookup_foldl_insertAll {merged : List (List FeatureId)}
    (hdisjoint : merged.Pairwise List.Disjoint) (f : FeatureId) (c : List FeatureId) :
    (merged.foldl (fun map g => insertAll map g g) (∅ : EquivMap)).lookup f = some c ↔
      c ∈ merged ∧ f ∈ c := by
  have hrun : ∀ map : EquivMap, (∀ g ∈ merged, f ∈ g → map.lookup f = none) →
      ((merged.foldl (fun map g => insertAll map g g) map).lookup f = some c ↔
        map.lookup f = some c ∨ c ∈ merged ∧ f ∈ c) := by
    induction merged with
    | nil => exact fun map _ => by simp
    | cons g merged ih =>
      intro map hmap
      rw [pairwise_cons] at hdisjoint
      have hlookup := lookup_insertAll map g g f
      rw [foldl_cons, ih hdisjoint.2 (insertAll map g g) fun g' hg' hf => ?_, hlookup]
      · by_cases hf : f ∈ g
        · have hnone := hmap g mem_cons_self hf
          have hother : ¬(c ∈ merged ∧ f ∈ c) := fun hc => hdisjoint.1 c hc.1 hf hc.2
          rw [if_pos hf, hnone]
          simp only [hother, Option.some.injEq, or_false, reduceCtorEq, false_or, mem_cons]
          grind
        · rw [if_neg hf]
          grind
      · rw [hlookup, if_neg fun hg => hdisjoint.1 g' hg' hg hf]
        exact hmap g' (mem_cons_of_mem g hg') hf
  have hempty : (∅ : EquivMap).lookup f = none := AList.lookup_empty f
  rw [hrun ∅ fun _ _ _ => hempty, hempty]
  simp

variable {a : FeatureId}

theorem two_le_length_iff {feats : List FeatureId} (hnodup : feats.Nodup) (ha : a ∈ feats) :
    2 ≤ feats.length ↔ ∃ x ∈ feats, x ≠ a := by
  match feats with
  | [y] => simp [mem_singleton.mp ha]
  | y :: z :: rest =>
    have hyz : y ≠ z := fun h => (nodup_cons.mp hnodup).1 (h ▸ mem_cons_self)
    refine iff_of_true (by simp) ?_
    by_cases hy : y = a
    · exact ⟨z, by simp, fun hz => hyz (hy.trans hz.symm)⟩
    · exact ⟨y, by simp, hy⟩

variable {gs : List (List FeatureId)} {b : FeatureId}

theorem together_filter_iff :
    Together ((gs.map sortDedup).filter fun feats => 2 ≤ feats.length) a b ↔
      ∃ g ∈ gs, a ∈ g ∧ b ∈ g ∧ ∃ x ∈ g, x ≠ a := by
  simp only [Together, mem_filter, mem_map, decide_eq_true_eq]
  constructor
  · rintro ⟨_, ⟨⟨g, hg, rfl⟩, hlen⟩, ha, hb⟩
    obtain ⟨x, hx, hxa⟩ := (two_le_length_iff (nodup_sortDedup g) ha).mp hlen
    rw [mem_sortDedup] at ha hb hx
    exact ⟨g, hg, ha, hb, x, hx, hxa⟩
  · rintro ⟨g, hg, ha, hb, x, hx, hxa⟩
    rw [← mem_sortDedup] at ha hb hx
    exact ⟨_, ⟨⟨g, hg, rfl⟩, (two_le_length_iff (nodup_sortDedup g) ha).mpr ⟨x, hx, hxa⟩⟩, ha, hb⟩

/-- Two features are joined through groups with two features exactly when
they are joined at all and the first is joined to another feature. -/
theorem connected_filter_iff :
    Connected ((gs.map sortDedup).filter fun feats => 2 ≤ feats.length) a b ↔
      Connected gs a b ∧ ∃ x, x ≠ a ∧ Connected gs a x := by
  constructor
  · intro h
    refine ⟨h.mono fun a b hab => ?_, ?_⟩
    · obtain ⟨g, hg, ha, hb, -⟩ := together_filter_iff.mp hab
      exact ⟨g, hg, ha, hb⟩
    · induction h with
      | single h =>
        obtain ⟨g, hg, ha, -, x, hx, hxa⟩ := together_filter_iff.mp h
        exact ⟨x, hxa, .single ⟨g, hg, ha, hx⟩⟩
      | tail _ _ ih => exact ih
  · -- a chain without its idle steps uses groups with two features only
    have hchain : ∀ c, Connected gs a c → a = c ∨
        Connected ((gs.map sortDedup).filter fun feats => 2 ≤ feats.length) a c := by
      intro c h
      have hstep : ∀ {b c}, Together gs b c → b ≠ c →
          Together ((gs.map sortDedup).filter fun feats => 2 ≤ feats.length) b c := by
        rintro b c ⟨g, hg, hb, hc⟩ hne
        exact together_filter_iff.mpr ⟨g, hg, hb, hc, c, hc, hne.symm⟩
      induction h with
      | @single c h =>
        by_cases hac : a = c
        · exact .inl hac
        · exact .inr (.single (hstep h hac))
      | @tail b c _ h ih =>
        by_cases hbc : b = c
        · rwa [← hbc]
        · rcases ih with rfl | ih
          · exact .inr (.single (hstep h hbc))
          · exact .inr (.tail ih (hstep h hbc))
    rintro ⟨hab, x, hxa, hax⟩
    have hax' := (hchain x hax).resolve_left hxa.symm
    rcases hchain b hab with rfl | hab
    · exact hax'.trans hax'.symm
    · exact hab

/-- **What the map of a vocabulary says**: a feature joined to another is
mapped to its sorted component, every other feature to nothing. -/
theorem lookup_resolveEquivalences (f : FeatureId) (c : List FeatureId) :
    (resolveEquivalences named groups).byFeature.lookup f = some c ↔
      c.Pairwise (· < ·) ∧ (∃ x, x ≠ f ∧ Connected (groups.map (resolveGroup named)) f x) ∧
        ∀ x, x ∈ c ↔ Connected (groups.map (resolveGroup named)) f x := by
  have hcomp := components_mergeOverlappingGroups
    ((groups.map fun group => sortDedup (resolveGroup named group)).filter
      fun feats => 2 ≤ feats.length)
  have hsorted := @pairwise_mergeOverlappingGroups
    ((groups.map fun group => sortDedup (resolveGroup named group)).filter
      fun feats => 2 ≤ feats.length) fun g hg => by
      obtain ⟨group, -, rfl⟩ := mem_map.mp (mem_of_mem_filter hg)
      exact pairwise_sortDedup _
  have hmap : (groups.map fun group => sortDedup (resolveGroup named group)) =
      (groups.map (resolveGroup named)).map sortDedup := by
    rw [map_map]
    rfl
  rw [resolveEquivalences, mergedGroups, lookup_foldl_insertAll hcomp.disjoint]
  constructor
  · rintro ⟨hc, hf⟩
    have hmem := hcomp.mem_iff hc hf
    have hself := (hmem f).mp hf
    rw [hmap, connected_filter_iff] at hself
    refine ⟨hsorted c hc, hself.2, fun x => (hmem x).trans ?_⟩
    rw [hmap, connected_filter_iff, and_iff_left hself.2]
  · rintro ⟨hpair, ⟨x, hxf, hfx⟩, hmem⟩
    have hself : Connected ((groups.map fun group => sortDedup (resolveGroup named group)).filter
        fun feats => 2 ≤ feats.length) f f := by
      rw [hmap, connected_filter_iff]
      exact ⟨hfx.trans hfx.symm, x, hxf, hfx⟩
    obtain ⟨r, hr, hfr, -⟩ := (hcomp.joined f f).mpr hself
    have hsame : ∀ y, y ∈ c ↔ y ∈ r := by
      intro y
      rw [hmem, hcomp.mem_iff hr hfr, hmap, connected_filter_iff, and_iff_left ⟨x, hxf, hfx⟩]
    have heq : c = r := by
      rw [← sortDedup_eq_self hpair, ← sortDedup_eq_self (hsorted r hr)]
      exact sortDedup_congr hsame
    rw [heq]
    exact ⟨hr, hfr⟩

theorem lookup_resolveEquivalences_congr {groups' : List (List String)}
    (h : Reordered groups groups') (f : FeatureId) :
    (resolveEquivalences named groups).byFeature.lookup f =
      (resolveEquivalences named groups').byFeature.lookup f := by
  have hsame : ∀ a b, Connected (groups.map (resolveGroup named)) a b ↔
      Connected (groups'.map (resolveGroup named)) a b := fun a b =>
    connected_congr (h.map fun _ _ hp => hp.filterMap _).together_iff
  refine Option.ext fun c => ?_
  simp only [lookup_resolveEquivalences, hsame]

end Lookup

/-- **Equivalence groups are connected components.**  However groups come,
merging them leaves disjoint groups, every member of one has exactly its
component there, no group is empty unless one came empty, and another order of
groups or members leaves the same components.  A vocabulary maps every feature that is joined to another to
its sorted component and no other feature, in whatever order its groups and
forms come. -/
theorem equivalence_groups_are_components :
    (∀ groups : List (List FeatureId),
      (mergeOverlappingGroups groups).Pairwise List.Disjoint ∧
      (∀ g ∈ groups, ∀ f ∈ g, ∃ r ∈ mergeOverlappingGroups groups, f ∈ r) ∧
      (∀ r ∈ mergeOverlappingGroups groups, ∀ f ∈ r, ∀ x, x ∈ r ↔ Connected groups f x) ∧
      ([] ∈ mergeOverlappingGroups groups → [] ∈ groups) ∧
      ∀ groups', Reordered groups groups' → ∀ r ∈ mergeOverlappingGroups groups, ∀ f ∈ r,
        ∃ r' ∈ mergeOverlappingGroups groups', ∀ x, x ∈ r ↔ x ∈ r') ∧
    ∀ (named : String → List (FeatureId × UInt64)) (groups : List (List String)) (f : FeatureId),
      (∀ c, (resolveEquivalences named groups).byFeature.lookup f = some c ↔
        c.Pairwise (· < ·) ∧ (∃ x, x ≠ f ∧ Connected (groups.map (resolveGroup named)) f x) ∧
          ∀ x, x ∈ c ↔ Connected (groups.map (resolveGroup named)) f x) ∧
      ∀ groups', Reordered groups groups' →
        (resolveEquivalences named groups).byFeature.lookup f =
          (resolveEquivalences named groups').byFeature.lookup f := by
  refine ⟨fun groups => ?_, fun named groups f =>
    ⟨lookup_resolveEquivalences f, fun groups' h => lookup_resolveEquivalences_congr h f⟩⟩
  have hcomp := components_mergeOverlappingGroups groups
  refine ⟨hcomp.disjoint, fun g hg f hf => hcomp.exists_mem hg hf,
    fun r hr f hf => hcomp.mem_iff hr hf, nil_mem_of_mergeOverlappingGroups,
    fun groups' h r hr f hf => ?_⟩
  have hcomp' := components_mergeOverlappingGroups groups'
  have hsame : ∀ x, Connected groups f x ↔ Connected groups' f x := fun x =>
    connected_congr h.together_iff
  have hself := (hsame f).mp ((hcomp.mem_iff hr hf f).mp hf)
  obtain ⟨r', hr', hfr', -⟩ := (hcomp'.joined f f).mpr hself
  refine ⟨r', hr', fun x => ?_⟩
  rw [hcomp.mem_iff hr hf, hsame, hcomp'.mem_iff hr' hfr']

theorem equivalence_groups_are_components_bridge :
    mergeOverlappingGroups [[1, 2], [3, 4], [3, 2]] = [[1, 2, 3, 4]] ∧
    ∃ r' ∈ mergeOverlappingGroups [[2, 3], [4, 3], [1, 2]], ∀ x, x ∈ [1, 2, 3, 4] ↔ x ∈ r' := by
  have hmerged : mergeOverlappingGroups [[1, 2], [3, 4], [3, 2]] = [[1, 2, 3, 4]] := by
    decide +kernel
  have hreordered : Reordered [[1, 2], [3, 4], [3, 2]] [[(2 : FeatureId), 3], [4, 3], [1, 2]] :=
    ⟨[[1, 2], [4, 3], [2, 3]], .cons (.refl _) (.cons (.swap _ _ _) (.cons (.swap _ _ _) .nil)),
      by decide⟩
  exact ⟨hmerged, (equivalence_groups_are_components.1 _).2.2.2.2 _ hreordered [1, 2, 3, 4]
    (by rw [hmerged]; exact mem_singleton_self _) 1 mem_cons_self⟩

end ReverseRusty
