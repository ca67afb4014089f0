import Mathlib
import ReverseRusty.Acceptance
import ReverseRusty.Lib.Components

/-!
# ReverseRusty.Equivalence

Expansion of a query by the equivalence groups of its dictionary
(`compile.rs`, `dict.rs`).  A grouped required feature becomes an any-of over
its group; any-of groups, requirements of compound members and the labels of
required quoted graphs are widened in place; nothing forbidden is touched.
-/

namespace ReverseRusty

open List

/-! ## equivalence groups -/

/-- Each grouped feature with its whole group. -/
abbrev EquivMap := AList fun _ : FeatureId => List FeatureId

def EquivMap.classOf (equiv : EquivMap) (f : FeatureId) : List FeatureId :=
  match equiv.lookup f with
  | some group => group
  | none => [f]

/-- Groups that partition the grouped features, each sorted. -/
structure EquivGroups where
  map : EquivMap
  sorted : ∀ {f group}, map.lookup f = some group → group.Pairwise (· < ·)
  self : ∀ {f group}, map.lookup f = some group → f ∈ group
  whole : ∀ {f group}, map.lookup f = some group → ∀ g ∈ group, map.lookup g = some group

theorem EquivGroups.classes (e : EquivGroups) : Classes e.map.classOf where
  self f := by
    unfold EquivMap.classOf
    split
    · exact e.self ‹_›
    · exact mem_singleton_self f
  same {a b} hb := by
    unfold EquivMap.classOf at hb ⊢
    cases ha : e.map.lookup a with
    | some group => rw [ha] at hb; rw [e.whole ha b hb]
    | none =>
      rw [ha, mem_singleton] at hb
      rw [hb, ha]

/-! ## the expansion -/

def EquivMap.widen (equiv : EquivMap) (alternatives : List FeatureId) : List FeatureId :=
  sortDedup (widened equiv.classOf alternatives)

def AnyOfMember.widen (equiv : EquivMap) (m : AnyOfMember) : AnyOfMember :=
  ⟨m.requirements.map equiv.widen⟩

def AnyOfPredicate.widen (equiv : EquivMap) (p : AnyOfPredicate) : AnyOfPredicate :=
  ⟨p.members.map (AnyOfMember.widen equiv)⟩

def PhraseArc.widen (equiv : EquivMap) (a : PhraseArc) : PhraseArc :=
  { a with alternatives := equiv.widen a.alternatives }

def PhraseGraph.widen (equiv : EquivMap) (g : PhraseGraph) : PhraseGraph :=
  { g with arcs := g.arcs.map (PhraseArc.widen equiv) }

/-- Every positive clause widened, the grouped required features moved to
any-of groups of their own. -/
def Extracted.widen (equiv : EquivMap) (ex : Extracted) : Extracted :=
  let groups := ex.required.filterMap equiv.lookup
  let added := min groups.length u32Max
  { ex with
    required := ex.required.filter fun f => (equiv.lookup f).isNone
    anyof := (ex.anyof ++ groups).map equiv.widen
    semanticAnyofGroups := satAdd ex.semanticAnyofGroups added
    semanticAnyofTerms := satAdd ex.semanticAnyofTerms added
    anyofPredicates := ex.anyofPredicates.map (AnyOfPredicate.widen equiv)
    requiredPhrases := ex.requiredPhrases.map (PhraseGraph.widen equiv) }

/-- **Equivalence expansion.** -/
def Extracted.expandEquivalences (ex : Extracted) (equiv : EquivMap) : Extracted :=
  if equiv.entries.isEmpty then ex.canonicalize else (ex.widen equiv).canonicalize

/-! ## titles closed under the groups -/

def EquivMap.closeArcs (equiv : EquivMap) (arcs : List PositionArc) : List PositionArc :=
  arcs.flatMap fun a => (equiv.classOf a.feature).map fun f => { a with feature := f }

variable {equiv : EquivMap} {arcs : List PositionArc}

theorem EquivMap.mem_closeArcs {b : PositionArc} :
    b ∈ equiv.closeArcs arcs ↔
      ∃ a ∈ arcs, b.feature ∈ equiv.classOf a.feature ∧ b.start = a.start ∧ b.end = a.end := by
  simp only [closeArcs, mem_flatMap, mem_map]
  constructor
  · rintro ⟨a, ha, f, hf, rfl⟩
    exact ⟨a, ha, hf, rfl, rfl⟩
  · rintro ⟨a, ha, hf, hs, he⟩
    obtain ⟨f, s, e⟩ := b
    exact ⟨a, ha, f, hf, by simp_all⟩

theorem EquivMap.starts_closeArcs (h : arcs.Pairwise fun a b => a.start ≤ b.start) :
    (equiv.closeArcs arcs).Pairwise fun a b => a.start ≤ b.start := by
  rw [closeArcs, pairwise_flatMap]
  refine ⟨fun a _ => ?_, h.imp fun {a b} hab x hx y hy => ?_⟩
  · exact pairwise_map.mpr (pairwise_of_forall fun _ _ => le_rfl)
  · obtain ⟨_, -, rfl⟩ := mem_map.mp hx
    obtain ⟨_, -, rfl⟩ := mem_map.mp hy
    exact hab

/-- The title with its positive features and positive labels closed under the
groups. -/
def AnalyzedTitle.close (equiv : EquivMap) (t : AnalyzedTitle) : AnalyzedTitle :=
  { t with
    pos := equiv.widen t.pos
    pos_sorted := pairwise_sortDedup _
    posGraph :=
      { t.posGraph with
        arcs := equiv.closeArcs t.posGraph.arcs
        starts := EquivMap.starts_closeArcs t.posGraph.starts } }

/-! ## the expanded query on a title, the query on the closed title -/

section Expansion

variable {e : EquivGroups} {ex : Extracted}

variable {alternatives : List FeatureId} {f : FeatureId}

variable {equiv : EquivMap}

theorem EquivMap.mem_widen :
    f ∈ equiv.widen alternatives ↔ ∃ a ∈ alternatives, f ∈ equiv.classOf a := by
  rw [widen, mem_sortDedup, mem_widened]

variable {pos : List FeatureId}

/-- Widened alternatives meet a title's features exactly when the
alternatives meet the closed features. -/
theorem EquivGroups.widen_meets (e : EquivGroups) :
    (∃ f ∈ e.map.widen alternatives, f ∈ pos) ↔ ∃ f ∈ alternatives, f ∈ e.map.widen pos := by
  simp only [EquivMap.widen, mem_sortDedup]
  exact e.classes.meets_widened.trans (by simp only [mem_widened])

theorem EquivGroups.widen_ne_nil (e : EquivGroups) (h : alternatives ≠ []) :
    e.map.widen alternatives ≠ [] := by
  obtain ⟨f, hf⟩ := exists_mem_of_ne_nil _ h
  exact ne_nil_of_mem (EquivMap.mem_widen.mpr ⟨f, hf, e.classes.self f⟩)

/-- A feature is in the closed features when one of its class is in the
title's. -/
theorem EquivGroups.mem_widen_iff (e : EquivGroups) :
    f ∈ e.map.widen pos ↔ ∃ a ∈ e.map.classOf f, a ∈ pos := by
  rw [EquivMap.mem_widen]
  constructor
  · rintro ⟨a, ha, hf⟩
    exact ⟨a, e.classes.symm hf, ha⟩
  · rintro ⟨a, ha, hpos⟩
    exact ⟨a, hpos, e.classes.symm ha⟩

/-- An ungrouped feature is in the closed features only if the title has it. -/
theorem EquivGroups.mem_widen_of_none (e : EquivGroups) (h : e.map.lookup f = none) :
    f ∈ e.map.widen pos ↔ f ∈ pos := by
  have hclass : e.map.classOf f = [f] := by rw [EquivMap.classOf, h]
  simp [e.mem_widen_iff, hclass]

theorem EquivGroups.mem_widen_of_some (e : EquivGroups) {group : List FeatureId}
    (h : e.map.lookup f = some group) : f ∈ e.map.widen pos ↔ ∃ a ∈ e.map.widen group, a ∈ pos := by
  have hclass : e.map.classOf f = group := by rw [EquivMap.classOf, h]
  rw [e.widen_meets]
  constructor
  · exact fun hf => ⟨f, e.self h, hf⟩
  · rintro ⟨a, ha, hpos⟩
    obtain ⟨b, hb, hab⟩ := EquivMap.mem_widen.mp hpos
    have hfa : f ∈ e.map.classOf a := e.classes.symm (hclass ▸ ha)
    exact EquivMap.mem_widen.mpr ⟨b, hb, e.classes.same hab ▸ hfa⟩

theorem EquivGroups.widen_flatHolds (e : EquivGroups) {neg : List FeatureId} :
    (ex.widen e.map).FlatHolds pos neg ↔ ex.FlatHolds (e.map.widen pos) neg := by
  constructor
  · intro ⟨hreq, hforb, hany, hcomp, hconj⟩
    refine ⟨fun f hf => ?_, hforb, fun g hg => ?_, fun p hp => ?_, hconj⟩
    · cases hl : e.map.lookup f with
      | none =>
        exact (e.mem_widen_of_none hl).mpr (hreq f (mem_filter.mpr ⟨hf, by simp [hl]⟩))
      | some group =>
        exact (e.mem_widen_of_some hl).mpr (hany _ (mem_map_of_mem
          (mem_append_right _ (mem_filterMap.mpr ⟨f, hf, hl⟩))))
    · exact e.widen_meets.mp (hany _ (mem_map_of_mem (mem_append_left _ hg)))
    · obtain ⟨_, hw, h⟩ := hcomp _ (mem_map_of_mem hp)
      obtain ⟨m, hm, rfl⟩ := mem_map.mp hw
      exact ⟨m, hm, fun r hr => e.widen_meets.mp (h _ (mem_map_of_mem hr))⟩
  · intro ⟨hreq, hforb, hany, hcomp, hconj⟩
    refine ⟨fun f hf => ?_, hforb, fun wide hwide => ?_, fun wide hwide => ?_, hconj⟩
    · obtain ⟨hreqd, hl⟩ := mem_filter.mp hf
      exact (e.mem_widen_of_none (by simpa using hl)).mp (hreq f hreqd)
    · obtain ⟨g, hg, rfl⟩ := mem_map.mp hwide
      rcases mem_append.mp hg with hg | hg
      · exact e.widen_meets.mpr (hany g hg)
      · obtain ⟨f, hf, hl⟩ := mem_filterMap.mp hg
        exact (e.mem_widen_of_some hl).mp (hreq f hf)
    · obtain ⟨p, hp, rfl⟩ := mem_map.mp hwide
      obtain ⟨m, hm, h⟩ := hcomp p hp
      refine ⟨_, mem_map_of_mem hm, fun wider hwider => ?_⟩
      obtain ⟨r, hr, rfl⟩ := mem_map.mp hwider
      exact e.widen_meets.mpr (h r hr)

theorem EquivGroups.widen_full (e : EquivGroups) (h : ex.Full) : (ex.widen e.map).Full where
  compound wide hwide := by
    obtain ⟨p, hp, rfl⟩ := mem_map.mp hwide
    have hfull := h.compound p hp
    refine ⟨by simpa [AnyOfPredicate.widen] using hfull.members, fun wm hwm => ?_,
      fun wm hwm wr hwr => ?_⟩
    · obtain ⟨m, hm, rfl⟩ := mem_map.mp hwm
      simpa [AnyOfMember.widen] using hfull.requirements m hm
    · obtain ⟨m, hm, rfl⟩ := mem_map.mp hwm
      obtain ⟨r, hr, rfl⟩ := mem_map.mp hwr
      exact e.widen_ne_nil (hfull.alternatives m hm r hr)
  conjunctions := h.conjunctions

variable {g : PhraseGraph}

theorem EquivGroups.mem_widen_arcs (e : EquivGroups) (hg : g.canonicalize = g) {a : PhraseArc} :
    a ∈ (g.widen e.map).canonicalize.arcs ↔ ∃ b ∈ g.arcs, a = b.widen e.map := by
  have hin : ∀ b ∈ g.arcs, b.inGraph g.positions = true := by
    intro b hb
    rw [← congrArg PhraseGraph.arcs hg] at hb
    exact (mem_filter.mp (mem_sortDedup.mp hb)).2
  simp only [PhraseGraph.canonicalize, PhraseGraph.widen, mem_sortDedup, mem_filter,
    mem_map, map_map, Function.comp_def, PhraseArc.widen, EquivMap.widen,
    sortDedup_sortDedup]
  constructor
  · rintro ⟨⟨b, hb, rfl⟩, -⟩
    exact ⟨b, hb, rfl⟩
  · rintro ⟨b, hb, rfl⟩
    refine ⟨⟨b, hb, rfl⟩, ?_⟩
    have hb := hin b hb
    simp only [PhraseArc.inGraph, Bool.and_eq_true, decide_eq_true_eq] at hb ⊢
    exact ⟨hb.1, e.widen_ne_nil hb.2⟩

theorem EquivGroups.widen_spells (e : EquivGroups) (hg : g.canonicalize = g) (t : AnalyzedTitle) :
    t.posGraph.Spells (g.widen e.map).canonicalize ↔ (t.close e.map).posGraph.Spells g := by
  have hpos : g.positions = (g.widen e.map).canonicalize.positions := rfl
  constructor
  · rintro ⟨s, hs, path, hpath⟩
    refine ⟨s, hs, hpath.transfer hpos fun qa hqa ta hta hlabel => ?_⟩
    obtain ⟨b, hb, rfl⟩ := (e.mem_widen_arcs hg).mp hqa
    obtain ⟨f, hf, hclass⟩ := EquivMap.mem_widen.mp hlabel
    exact ⟨b, hb, { ta with feature := f },
      EquivMap.mem_closeArcs.mpr ⟨ta, hta, e.classes.symm hclass, rfl, rfl⟩, hf, rfl, rfl, rfl, rfl⟩
  · rintro ⟨s, hs, path, hpath⟩
    refine ⟨s, hs, hpath.transfer hpos.symm fun qa hqa ta hta hlabel => ?_⟩
    obtain ⟨a, ha, hclass, hstart, hend⟩ := EquivMap.mem_closeArcs.mp hta
    exact ⟨_, (e.mem_widen_arcs hg).mpr ⟨qa, hqa, rfl⟩, a, ha,
      EquivMap.mem_widen.mpr ⟨ta.feature, hlabel, e.classes.symm hclass⟩, rfl, rfl,
      hstart.symm, hend.symm⟩

theorem Extracted.Canonical.graph (hex : ex.Canonical) (hg : g ∈ ex.requiredPhrases) :
    g.canonicalize = g ∧ g.positions ≠ 0 ∧ g.arcs ≠ [] := by
  rw [← congrArg Extracted.requiredPhrases hex] at hg
  obtain ⟨hmem, hne⟩ := mem_filter.mp (mem_sortDedup.mp hg)
  obtain ⟨g', -, rfl⟩ := mem_map.mp hmem
  exact ⟨g'.canonicalize_canonicalize, of_decide_eq_true hne⟩

theorem EquivGroups.mem_widen_phrases (e : EquivGroups) (hex : ex.Canonical) :
    g ∈ (ex.widen e.map).canonicalize.requiredPhrases ↔
      ∃ g' ∈ ex.requiredPhrases, g = (g'.widen e.map).canonicalize := by
  simp only [Extracted.canonicalize, canonicalizePhrases, Extracted.widen, mem_sortDedup,
    mem_filter, mem_map, map_map, Function.comp_def, decide_eq_true_eq]
  constructor
  · rintro ⟨⟨g', hg', rfl⟩, -⟩
    exact ⟨g', hg', rfl⟩
  · rintro ⟨g', hg', rfl⟩
    obtain ⟨hcanon, hpos, harcs⟩ := hex.graph hg'
    obtain ⟨a, ha⟩ := exists_mem_of_ne_nil _ harcs
    exact ⟨⟨g', hg', rfl⟩, hpos,
      ne_nil_of_mem ((e.mem_widen_arcs hcanon).mpr ⟨a, ha, rfl⟩)⟩

theorem EquivGroups.widen_holds (e : EquivGroups) (hex : ex.Canonical) (t : AnalyzedTitle) :
    (ex.widen e.map).canonicalize.Holds t ↔ ex.Holds (t.close e.map) := by
  have hflat : (ex.widen e.map).canonicalize.FlatHolds t.pos t.neg ↔
      ex.FlatHolds (t.close e.map).pos t.neg :=
    (e.widen_full hex.full).canonicalize_flatHolds.trans e.widen_flatHolds
  have hforb : (ex.widen e.map).canonicalize.forbiddenPhrases = ex.forbiddenPhrases :=
    show ex.canonicalize.forbiddenPhrases = ex.forbiddenPhrases by rw [hex]
  constructor
  · intro ⟨hf, hp, hn⟩
    refine ⟨hflat.mp hf, fun hc g hg => ?_, hforb ▸ hn⟩
    exact (e.widen_spells (hex.graph hg).1 t).mp
      (hp hc _ ((e.mem_widen_phrases hex).mpr ⟨g, hg, rfl⟩))
  · intro ⟨hf, hp, hn⟩
    refine ⟨hflat.mpr hf, fun hc wide hwide => ?_, hforb.symm ▸ hn⟩
    obtain ⟨g, hg, rfl⟩ := (e.mem_widen_phrases hex).mp hwide
    exact (e.widen_spells (hex.graph hg).1 t).mpr (hp hc g hg)

theorem AnalyzedTitle.close_of_isEmpty (h : equiv.entries.isEmpty = true) (t : AnalyzedTitle) :
    t.close equiv = t := by
  have hclass : equiv.classOf = fun f => [f] := by
    funext f
    rw [EquivMap.classOf, show equiv.lookup f = none by
      rw [AList.lookup, List.isEmpty_iff.mp h, dlookup_nil]]
  have harcs : equiv.closeArcs t.posGraph.arcs = t.posGraph.arcs := by
    simp [EquivMap.closeArcs, hclass]
  have hpos : equiv.widen t.pos = t.pos := by
    rw [EquivMap.widen, widened, hclass, flatMap_singleton', sortDedup_eq_self t.pos_sorted]
  simp only [AnalyzedTitle.close, hpos, harcs]

theorem EquivGroups.expandEquivalences_holds (e : EquivGroups) (hex : ex.Canonical)
    (t : AnalyzedTitle) :
    (ex.expandEquivalences e.map).Holds t ↔ ex.Holds (t.close e.map) := by
  rw [Extracted.expandEquivalences]
  split
  · next hempty => rw [AnalyzedTitle.close_of_isEmpty hempty, hex]
  · exact e.widen_holds hex t

theorem Extracted.canonical_expandEquivalences (ex : Extracted) (equiv : EquivMap) :
    (ex.expandEquivalences equiv).Canonical := by
  rw [expandEquivalences]
  split
  · exact ex.canonical_canonicalize
  · exact (ex.widen equiv).canonical_canonicalize

variable {t : AnalyzedTitle}

theorem Extracted.Holds.mono {t' : AnalyzedTitle} (h : ex.Holds t) (hpos : t.pos ⊆ t'.pos)
    (harcs : t.posGraph.arcs ⊆ t'.posGraph.arcs)
    (hcomplete : t'.posGraph.complete = t.posGraph.complete)
    (hpositions : t'.posGraph.positions = t.posGraph.positions) (hneg : t'.neg = t.neg)
    (hnegGraph : t'.negGraph = t.negGraph) : ex.Holds t' where
  flat :=
    { required := fun f hf => hpos (h.flat.required f hf)
      forbidden := hneg ▸ h.flat.forbidden
      anyof := fun g hg => (h.flat.anyof g hg).imp fun _ hf => ⟨hf.1, hpos hf.2⟩
      compound := fun p hp => (h.flat.compound p hp).imp fun _ hm =>
        ⟨hm.1, fun r hr => (hm.2 r hr).imp fun _ hf => ⟨hf.1, hpos hf.2⟩⟩
      conjunctions := hneg ▸ h.flat.conjunctions }
  phrases hc g hg := by
    obtain ⟨s, hs, path, hpath⟩ := h.phrases (hcomplete ▸ hc) g hg
    exact ⟨s, hpositions.symm ▸ hs, hpath.transfer rfl fun qa hqa ta hta hlabel =>
      ⟨qa, hqa, ta, harcs hta, hlabel, rfl, rfl, rfl, rfl⟩⟩
  noPhrases := hnegGraph ▸ h.noPhrases

/-- A title meets in its closure what it meets itself. -/
theorem EquivGroups.holds_close (e : EquivGroups) (h : ex.Holds t) : ex.Holds (t.close e.map) :=
  h.mono (fun f hf => EquivMap.mem_widen.mpr ⟨f, hf, e.classes.self f⟩)
    (fun a ha => EquivMap.mem_closeArcs.mpr ⟨a, ha, e.classes.self _, rfl, rfl⟩) rfl rfl rfl rfl

theorem EquivGroups.holds_close_close (e : EquivGroups) (t : AnalyzedTitle) :
    ex.Holds ((t.close e.map).close e.map) ↔ ex.Holds (t.close e.map) := by
  refine ⟨fun h => h.mono (fun f hf => ?_) (fun a ha => ?_) rfl rfl rfl rfl, e.holds_close⟩
  · obtain ⟨g, hg, hf⟩ := EquivMap.mem_widen.mp hf
    obtain ⟨k, hk, hg⟩ := EquivMap.mem_widen.mp hg
    exact EquivMap.mem_widen.mpr ⟨k, hk, e.classes.same hg ▸ hf⟩
  · obtain ⟨b, hb, hclass, hs, he⟩ := EquivMap.mem_closeArcs.mp ha
    obtain ⟨c, hc, hclass', hs', he'⟩ := EquivMap.mem_closeArcs.mp hb
    exact EquivMap.mem_closeArcs.mpr
      ⟨c, hc, e.classes.same hclass' ▸ hclass, hs.trans hs', he.trans he'⟩

end Expansion

/-- **Expansion only widens the positive side.**  An expanded query accepts
every title the query accepts, and accepts a title exactly when the query
accepts it with its positive features and labels closed under the groups.
What the query forbids is unchanged, and expanding again changes no answer. -/
theorem Extracted.expansion_closes_titles (ex : Extracted) (hex : ex.Canonical)
    (e : EquivGroups) :
    (∀ t, ex.matchesUnbounded t = true → (ex.expandEquivalences e.map).matchesUnbounded t = true) ∧
    (∀ t, (ex.expandEquivalences e.map).matchesUnbounded t =
      ex.matchesUnbounded (t.close e.map)) ∧
    (ex.expandEquivalences e.map).forbidden = ex.forbidden ∧
    (ex.expandEquivalences e.map).forbiddenConjunctions = ex.forbiddenConjunctions ∧
    (ex.expandEquivalences e.map).forbiddenPhrases = ex.forbiddenPhrases ∧
    ∀ t, ((ex.expandEquivalences e.map).expandEquivalences e.map).matchesUnbounded t =
      (ex.expandEquivalences e.map).matchesUnbounded t := by
  have hcanon := ex.canonical_expandEquivalences e.map
  have hclosed : ∀ t, (ex.expandEquivalences e.map).matchesUnbounded t = true ↔
      ex.Holds (t.close e.map) := fun t =>
    (matchesUnbounded_iff hcanon t).trans (e.expandEquivalences_holds hex t)
  have hforb : ∀ {α : Type} (field : Extracted → α), field (ex.widen e.map).canonicalize =
      field ex.canonicalize → field (ex.expandEquivalences e.map) = field ex := by
    intro α field hfield
    rw [expandEquivalences]
    split
    · rw [hex]
    · rw [hfield, hex]
  refine ⟨fun t ht => ?_, fun t => ?_, hforb _ rfl, hforb _ rfl, hforb _ rfl, fun t => ?_⟩
  · exact (hclosed t).mpr (e.holds_close ((matchesUnbounded_iff hex t).mp ht))
  · rw [Bool.eq_iff_iff, hclosed, matchesUnbounded_iff hex]
  · rw [Bool.eq_iff_iff, hclosed, matchesUnbounded_iff (canonical_expandEquivalences _ _),
      e.expandEquivalences_holds hcanon, e.expandEquivalences_holds hex, e.holds_close_close]

theorem eq_of_lookup_pair {a b f : FeatureId} {group : List FeatureId}
    (hl : (((∅ : EquivMap).insert a [a, b]).insert b [a, b]).lookup f = some group) :
    (f = a ∨ f = b) ∧ [a, b] = group := by
  by_cases hb : f = b
  · subst hb
    rw [AList.lookup_insert] at hl
    exact ⟨.inr rfl, Option.some.inj hl⟩
  · rw [AList.lookup_insert_ne hb] at hl
    by_cases ha : f = a
    · subst ha
      rw [AList.lookup_insert] at hl
      exact ⟨.inl rfl, Option.some.inj hl⟩
    · rw [AList.lookup_insert_ne ha, AList.lookup_empty] at hl
      cases hl

/-- Two features taken for each other. -/
def pairGroup (a b : FeatureId) (h : a < b) : EquivGroups where
  map := ((∅ : EquivMap).insert a [a, b]).insert b [a, b]
  sorted {f group} hl := by
    obtain ⟨-, rfl⟩ := eq_of_lookup_pair hl
    simpa using h
  self {f group} hl := by
    obtain ⟨hf, rfl⟩ := eq_of_lookup_pair hl
    simpa using hf
  whole {f group} hl g hg := by
    obtain ⟨-, rfl⟩ := eq_of_lookup_pair hl
    rcases mem_pair.mp hg with rfl | rfl
    · rw [AList.lookup_insert_ne (ne_of_lt h), AList.lookup_insert]
    · rw [AList.lookup_insert]

theorem Extracted.pair_expansion_closes_titles :
    ∃ t, Extracted.matchesUnbounded { required := [1] } t = false ∧
      (Extracted.expandEquivalences { required := [1] } (pairGroup 1 2 (by decide)).map).matchesUnbounded t
        = true := by
  refine ⟨⟨[2], [], ⟨⟨0, [], true⟩, .nil⟩, ⟨⟨0, [], true⟩, .nil⟩, by decide, by decide⟩, by decide, ?_⟩
  rw [(Extracted.expansion_closes_titles { required := [1] } (by decide)
    (pairGroup 1 2 (by decide))).2.1]
  decide

end ReverseRusty
