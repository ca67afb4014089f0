import ReverseRusty.BaseBatch
import ReverseRusty.Lib.Epoch

/-!
# ReverseRusty.MatchView

One title against a snapshot (`segment/snapshot/view.rs`): the base segments
in order and the memtable last, each scanned with its own buffer of stamps
from a scratch that is reused from match to match.

`scan_eq` frees the scan from its scratch: on a new epoch every probed
source evaluates the distinct candidates of its stream, each once, whatever
the buffers held before.
-/

namespace ReverseRusty

open List

/-! ## the candidates of a source -/

/-- Whether a segment with this union of tags may hold a row passing the
filter: no group of the filter is disjoint from it. -/
def TagPredicate.mayMatch (pred : TagPredicate) (ids : List TagId) : Bool :=
  pred.groups.all (sortedIntersects ids)

theorem exists_of_sortedIntersects {a b : List TagId} (h : sortedIntersects a b = true) :
    ∃ t ∈ a, t ∈ b := by
  unfold sortedIntersects at h
  split at h <;> obtain ⟨t, ht, hsearch⟩ := any_eq_true.mp h
  · exact ⟨t, ht, mem_of_binarySearch hsearch⟩
  · exact ⟨t, mem_of_binarySearch hsearch, ht⟩

theorem sortedIntersects_of_mem {a b : List TagId} {t : TagId} (ha : a.Pairwise (· < ·))
    (hb : b.Pairwise (· < ·)) (hta : t ∈ a) (htb : t ∈ b) : sortedIntersects a b = true := by
  unfold sortedIntersects
  split
  · exact any_eq_true.mpr ⟨t, hta, (binarySearch_iff_mem (hb.imp le_of_lt)).mpr htb⟩
  · exact any_eq_true.mpr ⟨t, htb, (binarySearch_iff_mem (ha.imp le_of_lt)).mpr hta⟩

/-- **Skipping is sound**: a segment that may not match by its union of tags
holds no row that passes the filter. -/
theorem TagPredicate.mayMatch_of_matches {pred : TagPredicate} {tags ids : List TagId}
    (hgroups : ∀ g ∈ pred.groups, g.Pairwise (· < ·)) (hids : ids.Pairwise (· < ·))
    (hsub : tags ⊆ ids) (h : pred.matches tags = true) : pred.mayMatch ids = true := by
  refine all_eq_true.mpr fun g hg => ?_
  obtain ⟨t, ht, htg⟩ := exists_of_sortedIntersects (all_eq_true.mp h g hg)
  exact sortedIntersects_of_mem hids (hgroups g hg) (hsub ht) htg

namespace BaseSegment

def tagSummaryMayMatch (pred : TagPredicate) : BaseSegment → Bool
  | memory s => s.tagSummary.all pred.mayMatch
  | mmap m => pred.mayMatch m.tagSummary

def probeIds : BaseSegment → ProbeLane → UInt64 → List Nat
  | memory s => fun lane => (s.index lane).postings
  | mmap m => m.probeIds

def candidates (b : BaseSegment) (v : TitleView) (d : Dict) (lanes : ProbeLanes) : List Nat :=
  (v.keys d .main).flatMap (b.probeIds .main)
    ++ (if lanes.includeHot then (v.keys d .hot).flatMap (b.probeIds .hot) else [])
    ++ (if lanes.includeBroad then (v.keys d .broad).flatMap (b.probeIds .broad) else [])

def emitCandidate : BaseSegment → TitleView → TagPredicate → (QueryPlacement → Bool) → Nat → List Nat
  | memory s => s.emitGroup
  | mmap m => m.emitRow

section Attached

variable {b : BaseSegment} {d₀ d : Dict} {v : TitleView} {lanes : ProbeLanes} {pred : TagPredicate}
  {emission : QueryPlacement → Bool}

theorem candidates_mapped {seg : Segment} (hg : seg.Grouped) (hk : seg.Kept) (ha : seg.Addressable) :
    (mmap seg.mapped).candidates v d lanes = seg.carriedCandidates v d lanes := by
  have hlane : ∀ lane, (v.keys d lane).flatMap (seg.mapped.probeIds lane) = seg.carriedIds v d lane :=
    fun lane => flatMap_congr fun key hkey =>
      Segment.probeIds_mapped hg hk ha (ne_zero_of_mem_keys hkey)
  simp only [candidates, probeIds, hlane, Segment.carriedCandidates]

theorem Attached.matchCollect_eq (h : b.Attached d₀) (epoch : UInt32) (seen : List UInt32) :
    b.matchCollect v d epoch lanes pred emission seen =
      visitAll epoch (b.emitCandidate v pred emission) ⟨seen, []⟩ (b.candidates v d lanes) := by
  obtain ⟨seg, hseg, rfl | ⟨ha, rfl⟩⟩ := h.backing
  · exact (hseg.valid (.refl d₀)).grouped.matchCollect_eq seen
  · have hvalid := hseg.valid (.refl d₀)
    rw [candidates_mapped hvalid.grouped hvalid.kept ha]
    exact Segment.matchCollect_mapped_eq hvalid.grouped hvalid.kept ha seen

theorem Attached.candidates_lt (h : b.Attached d₀) : ∀ i ∈ b.candidates v d lanes, i < b.length := by
  intro i hi
  obtain ⟨seg, hseg, rfl | ⟨ha, rfl⟩⟩ := h.backing
  · obtain ⟨lane, -, key, -, hposted⟩ := Segment.mem_candidates.mp hi
    obtain ⟨e, he, -⟩ := (hseg.valid (.refl d₀)).grouped.posted lane key i hposted
    exact (List.getElem?_eq_some_iff.mp he).1
  · have hvalid := hseg.valid (.refl d₀)
    rw [candidates_mapped hvalid.grouped hvalid.kept ha] at hi
    obtain ⟨e, he, -⟩ := hvalid.grouped.mem_carriedCandidates.mp hi
    exact (List.getElem?_eq_some_iff.mp he).1

theorem mem_group_memory {seg : Segment} (hg : seg.Grouped) {l i : Nat} {e : Entry}
    (he : seg.entries[l]? = some e) (hlead : e.dupOf = l) :
    i ∈ (memory seg).rowView.group l ↔ ∃ e, seg.entries[i]? = some e ∧ e.dupOf = l := by
  show (i ∈ l :: if seg.hasDupGroups then seg.membersOf l else []) ↔ _
  cases hdups : seg.hasDupGroups with
  | true => exact hg.mem_group he hlead
  | false =>
    rw [if_neg Bool.false_ne_true, mem_singleton]
    constructor
    · rintro rfl
      exact ⟨e, he, hlead⟩
    · rintro ⟨e', he', rfl⟩
      exact (hg.dupOf_eq hdups he').symm

theorem Attached.emitted_eq (h : b.Attached d₀) : b.emitted v d lanes pred emission =
    (b.candidates v d lanes).eraseDups.flatMap (b.emitCandidate v pred emission) := by
  have hin : ∀ i ∈ b.candidates v d lanes, i < (List.replicate b.length (0 : UInt32)).length := by
    rw [length_replicate]
    exact h.candidates_lt
  rw [emitted, h.matchCollect_eq, visitAll_fresh hin (one_notMem_replicate _), nil_append]

/-- **What a source emits**: the live, verified, passing rows of the groups
its candidates lead, each once. -/
theorem Attached.mem_emitted (h : b.Attached d₀) :
    (b.emitted v d lanes pred emission).Nodup ∧
    ∀ i, i ∈ b.emitted v d lanes pred emission ↔
      b.rowView.alive i = true ∧ (b.rowView.row i).verify v pred = true ∧
        emission (b.rowView.row i).placement = true ∧
          ∃ l ∈ b.candidates v d lanes, i ∈ b.rowView.group l := by
  obtain ⟨seg, hseg, rfl | ⟨ha, rfl⟩⟩ := h.backing
  · have hg := (hseg.valid (.refl d₀)).grouped
    obtain ⟨hnodup, hmem⟩ := @mem_emitted_memory seg hg v d lanes pred emission
    refine ⟨hnodup, fun i => (hmem i).trans ⟨?_, ?_⟩⟩
    · rintro ⟨e, he, halive, hverify, hemis, hreach⟩
      have hl := Segment.mem_candidates.mpr hreach
      obtain ⟨lane, -, key, -, hposted⟩ := hreach
      obtain ⟨leader, hleader, hlead, -⟩ := hg.posted lane key _ hposted
      simp only [rowView, Segment.row_rowView he, Segment.alive_rowView he]
      exact ⟨halive, hverify, hemis, e.dupOf, hl,
        (mem_group_memory hg hleader hlead).mpr ⟨e, he, rfl⟩⟩
    · rintro ⟨halive, hverify, hemis, l, hl, hi⟩
      obtain ⟨lane, -, key, -, hposted⟩ := Segment.mem_candidates.mp hl
      obtain ⟨e', he', hlead, -⟩ := hg.posted lane key _ hposted
      obtain ⟨e, he, rfl⟩ := (mem_group_memory hg he' hlead).mp hi
      simp only [rowView, Segment.row_rowView he, Segment.alive_rowView he] at halive hverify hemis
      exact ⟨e, he, halive, hverify, hemis, Segment.mem_candidates.mp hl⟩
  · have hvalid := hseg.valid (.refl d₀)
    have hseen : seg.length ≤ (List.replicate seg.length (0 : UInt32)).length := by
      rw [length_replicate]
    obtain ⟨hnodup, hmem⟩ := @Segment.mem_matchCollect_mapped seg v d 1 lanes pred emission
      hvalid.grouped hvalid.kept ha _ hseen (one_notMem_replicate _)
    refine ⟨hnodup, fun i => (hmem i).trans ?_⟩
    rw [candidates_mapped hvalid.grouped hvalid.kept ha]
    constructor
    · rintro ⟨e, he, halive, hverify, hemis, hreach⟩
      simp only [rowView, MmapSegment.rowView, Segment.row_mapped he hvalid.kept ha,
        Segment.isAlive_mapped he]
      exact ⟨halive, hverify, hemis, i,
        hvalid.grouped.mem_carriedCandidates.mpr ⟨e, he, hreach⟩, mem_cons_self⟩
    · rintro ⟨halive, hverify, hemis, l, hl, hi⟩
      obtain rfl : i = l := mem_singleton.mp hi
      obtain ⟨e, he, hreach⟩ := hvalid.grouped.mem_carriedCandidates.mp hl
      simp only [rowView, MmapSegment.rowView, Segment.row_mapped he hvalid.kept ha,
        Segment.isAlive_mapped he] at halive hverify hemis
      exact ⟨e, he, halive, hverify, hemis, hreach⟩

end Attached

end BaseSegment

/-! ## a snapshot and a title -/

/-- What the normalizer makes of a title: the canonical features, and with
multi-word aliases or quoted queries the overlapping ones, the probed ones
and the arcs of both.  Features are sorted and each listed once. -/
structure NormalizedTitle where
  feats : List FeatureId
  featsPos : List FeatureId
  probeFeats : List FeatureId
  phraseArcs : List PositionArc
  phraseArcsPos : List PositionArc
  phrasePositions : UInt32
  posGraphComplete : Bool
  sorted : feats.Pairwise (· < ·)
  sortedPos : featsPos.Pairwise (· < ·)
deriving DecidableEq, Repr

/-- The state a match reads. -/
structure MatchView where
  dict : Dict
  segments : List BaseSegment
  memtable : Segment
  hasMultiwordAliases : Bool
  hasPhrasePredicates : Bool
  tagSegmentSkipping : Bool
  pred : TagPredicate

structure Hit where
  source : Nat
  localId : Nat
  logical : UInt64
deriving DecidableEq, Repr

def BaseSegment.hits (b : BaseSegment) (source : Nat) (rows : List Nat) : List Hit :=
  rows.filterMap fun i => (b.row i).map fun row => ⟨source, i, row.logical⟩

namespace MatchView

variable (mv : MatchView)

def titleView (t : NormalizedTitle) : TitleView :=
  if mv.hasPhrasePredicates then
    .dualPositioned t.probeFeats (titleMask mv.dict t.featsPos) t.featsPos
      ⟨t.phrasePositions, t.phraseArcsPos, t.posGraphComplete⟩
      (titleMask mv.dict t.feats) t.feats ⟨t.phrasePositions, t.phraseArcs, true⟩
  else if mv.hasMultiwordAliases then
    .dual (titleMask mv.dict t.featsPos) t.featsPos (titleMask mv.dict t.feats) t.feats
  else .single (titleMask mv.dict t.feats) t.feats

def lens : List Nat := mv.segments.map BaseSegment.length ++ [mv.memtable.length]

def skips (b : BaseSegment) : Bool :=
  mv.tagSegmentSkipping && !mv.pred.isEmpty && !b.tagSummaryMayMatch mv.pred

/-- The sources a match probes, with the places of their buffers: the base
segments that are not skipped, and the memtable. -/
def sources : List (BaseSegment × Nat) :=
  (mv.segments.zipIdx.filter fun source : BaseSegment × Nat => !mv.skips source.1)
    ++ [(.memory mv.memtable, mv.segments.length)]

section Scan

variable (v : TitleView) (lanes : ProbeLanes) (emission : QueryPlacement → Bool)

def probeSource (r : Stamps × List Hit) (source : BaseSegment × Nat) : Stamps × List Hit :=
  let visit := source.1.matchCollect v mv.dict r.1.epoch lanes mv.pred emission (r.1.buf source.2)
  (r.1.put source.2 visit.stamps, r.2 ++ source.1.hits source.2 visit.out)

/-- Match the sources in turn. -/
def scan (s : Stamps) : Stamps × List Hit :=
  mv.sources.foldl (mv.probeSource v lanes emission) (s, [])

/-- The hits of a source without stamps: every candidate is evaluated once,
in the order of arrival. -/
def sourceHits (source : BaseSegment × Nat) : List Hit :=
  source.1.hits source.2 ((source.1.candidates v mv.dict lanes).eraseDups.flatMap
    (source.1.emitCandidate v mv.pred emission))

def scanHits : List Hit := mv.sources.flatMap (mv.sourceHits v lanes emission)

end Scan

/-- **Match one title** with the scratch of earlier matches. -/
def matchTitleCollect (t : NormalizedTitle) (includeBroad : Bool) (emission : QueryPlacement → Bool)
    (s : Stamps) : Stamps × List Hit :=
  mv.scan (mv.titleView t) ⟨includeBroad, true⟩ emission (s.ensure mv.lens).nextEpoch

def matchTitle (t : NormalizedTitle) (includeBroad : Bool) (emission : QueryPlacement → Bool)
    (s : Stamps) : Stamps × List UInt64 :=
  ((mv.matchTitleCollect t includeBroad emission s).1,
    sortDedup ((mv.matchTitleCollect t includeBroad emission s).2.map Hit.logical))

end MatchView

/-! ## scanning on a new epoch -/

/-- The sources of a view were built under its dictionary. -/
structure MatchView.Built (mv : MatchView) : Prop where
  segments : ∀ b ∈ mv.segments, b.Attached mv.dict
  memtable : Segment.Produced mv.dict mv.memtable

namespace MatchView

section Scan

variable {mv : MatchView} {v : TitleView} {lanes : ProbeLanes} {emission : QueryPlacement → Bool}

theorem nodup_sources : (mv.sources.map Prod.snd).Nodup := by
  have hzip : (mv.segments.zipIdx.map Prod.snd).Nodup := by
    rw [zipIdx_map_snd]
    exact nodup_range'
  have hlt : ∀ source ∈ mv.segments.zipIdx, source.2 < mv.segments.length := fun source hs =>
    (List.getElem?_eq_some_iff.mp (mem_zipIdx_iff_getElem?.mp hs)).1
  rw [sources, map_append, nodup_append']
  refine ⟨hzip.sublist (filter_sublist.map _), nodup_singleton _, fun i hi hlast => ?_⟩
  obtain ⟨source, hs, rfl⟩ := mem_map.mp hi
  have hi := hlt source (mem_of_mem_filter hs)
  rw [map_singleton, mem_singleton] at hlast
  omega

theorem Built.source (h : mv.Built) {source : BaseSegment × Nat} (hs : source ∈ mv.sources) :
    source.1.Attached mv.dict ∧ mv.lens[source.2]? = some source.1.length := by
  rw [sources, mem_append, mem_singleton] at hs
  rcases hs with hs | rfl
  · have hget := mem_zipIdx_iff_getElem?.mp (mem_of_mem_filter hs)
    have hlt := (List.getElem?_eq_some_iff.mp hget).1
    refine ⟨h.segments _ (mem_of_getElem? hget), ?_⟩
    rw [lens, getElem?_append_left (by rwa [length_map]), getElem?_map, hget]
    rfl
  · refine ⟨.memory h.memtable, ?_⟩
    rw [lens, getElem?_append_right (by rw [length_map])]
    simp [BaseSegment.length]

theorem probeSource_eq (hmv : mv.Built) {source : BaseSegment × Nat} (hs : source ∈ mv.sources)
    {r : Stamps × List Hit} (hbounded : r.1.Bounded) (hfits : r.1.Fits mv.lens)
    (hfresh : r.1.epoch ∉ r.1.buf source.2) :
    (mv.probeSource v lanes emission r source).2 =
        r.2 ++ mv.sourceHits v lanes emission source ∧
      (mv.probeSource v lanes emission r source).1.Bounded ∧
      (mv.probeSource v lanes emission r source).1.Fits mv.lens := by
  obtain ⟨hb, hlen⟩ := hmv.source hs
  obtain ⟨hk, hbuf⟩ := hfits _ _ hlen
  have hin : ∀ i ∈ source.1.candidates v mv.dict lanes, i < (r.1.buf source.2).length :=
    fun i hi => lt_of_lt_of_le (hb.candidates_lt i hi) hbuf
  obtain ⟨hlength, hstamps⟩ := @stamps_visitAll _ _ _ r.1.epoch
    (source.1.emitCandidate v mv.pred emission) ⟨r.1.buf source.2, []⟩
    (source.1.candidates v mv.dict lanes)
  refine ⟨?_, ?_, ?_⟩
  · rw [probeSource, sourceHits, hb.matchCollect_eq, visitAll_fresh hin hfresh, nil_append]
  · rw [probeSource, hb.matchCollect_eq]
    exact hbounded.put hstamps
  · rw [probeSource, hb.matchCollect_eq]
    exact hfits.put hlength.ge

theorem probeSources_eq (hmv : mv.Built) {rest : List (BaseSegment × Nat)}
    (hrest : ∀ source ∈ rest, source ∈ mv.sources) (hnodup : (rest.map Prod.snd).Nodup)
    {r : Stamps × List Hit} (hbounded : r.1.Bounded) (hfits : r.1.Fits mv.lens)
    (hfresh : ∀ source ∈ rest, r.1.epoch ∉ r.1.buf source.2) :
    (rest.foldl (mv.probeSource v lanes emission) r).2 =
        r.2 ++ rest.flatMap (mv.sourceHits v lanes emission) ∧
      (rest.foldl (mv.probeSource v lanes emission) r).1.Bounded ∧
      (rest.foldl (mv.probeSource v lanes emission) r).1.Fits mv.lens := by
  induction rest generalizing r with
  | nil => exact ⟨by simp, hbounded, hfits⟩
  | cons source rest ih =>
    rw [map_cons, nodup_cons] at hnodup
    obtain ⟨hout, hbounded, hfits⟩ := @probeSource_eq mv v lanes emission hmv source
      (hrest source mem_cons_self) r hbounded hfits (hfresh source mem_cons_self)
    -- the other sources have other buffers
    have hfresh' : ∀ other ∈ rest, (mv.probeSource v lanes emission r source).1.epoch ∉
        (mv.probeSource v lanes emission r source).1.buf other.2 := by
      intro other hother
      have hne : source.2 ≠ other.2 := fun heq =>
        hnodup.1 (heq ▸ mem_map_of_mem hother)
      rw [probeSource, Stamps.epoch_put, Stamps.buf_put_of_ne hne]
      exact hfresh other (mem_cons_of_mem source hother)
    obtain ⟨hrun, hkeep⟩ := ih (fun other hother => hrest other (mem_cons_of_mem source hother))
      hnodup.2 hbounded hfits hfresh'
    refine ⟨?_, hkeep⟩
    rw [foldl_cons, hrun, hout, flatMap_cons, append_assoc]

theorem sourceHits_eq (hmv : mv.Built) {source : BaseSegment × Nat} (hs : source ∈ mv.sources) :
    mv.sourceHits v lanes emission source =
      source.1.hits source.2 (source.1.emitted v mv.dict lanes mv.pred emission) := by
  rw [sourceHits, (hmv.source hs).1.emitted_eq]

theorem nodup_scanHits (hmv : mv.Built) : (mv.scanHits v lanes emission).Nodup := by
  have hsource : ∀ source : BaseSegment × Nat, ∀ hit ∈ mv.sourceHits v lanes emission source,
      hit.source = source.2 := by
    intro source hit hhit
    obtain ⟨i, -, hrow⟩ := mem_filterMap.mp hhit
    obtain ⟨row, -, rfl⟩ := Option.map_eq_some_iff.mp hrow
    rfl
  rw [scanHits, nodup_flatMap]
  refine ⟨fun source hs => ?_, ?_⟩
  · rw [sourceHits_eq hmv hs, BaseSegment.hits]
    refine (hmv.source hs).1.mem_emitted.1.filterMap fun i j hit hi hj => ?_
    obtain ⟨row, -, rfl⟩ := Option.map_eq_some_iff.mp hi
    obtain ⟨row', -, heq⟩ := Option.map_eq_some_iff.mp hj
    exact (congrArg Hit.localId heq).symm
  · have hne : mv.sources.Pairwise fun source other => source.2 ≠ other.2 :=
      pairwise_map.mp nodup_sources
    refine hne.imp fun hne => ?_
    intro hit hhit hother
    exact hne ((hsource _ hit hhit).symm.trans (hsource _ hit hother))

/-- **A scan on a new epoch is a function of the sources and the title.** -/
theorem scan_eq (hmv : mv.Built) {s : Stamps} (hs : s.Bounded) (hfits : s.Fits mv.lens) :
    (mv.scan v lanes emission s.nextEpoch).2 = mv.scanHits v lanes emission ∧
      (mv.scan v lanes emission s.nextEpoch).1.Bounded ∧
      (mv.scan v lanes emission s.nextEpoch).1.Fits mv.lens := by
  have hfresh : ∀ source ∈ mv.sources, s.nextEpoch.epoch ∉ s.nextEpoch.buf source.2 := by
    intro source _ hmem
    obtain ⟨buf, hbuf, hmem⟩ := Stamps.mem_buf hmem
    exact hs.nextEpoch.2 buf hbuf hmem
  exact @probeSources_eq mv v lanes emission hmv mv.sources (fun _ h => h) nodup_sources
    (s.nextEpoch, []) hs.nextEpoch.1 hfits.nextEpoch hfresh

/-- **A match does not depend on what its scratch was used for.** -/
theorem matchTitleCollect_eq (hmv : mv.Built) (t : NormalizedTitle) (includeBroad : Bool)
    {s : Stamps} (hs : s.Bounded) :
    (mv.matchTitleCollect t includeBroad emission s).2 =
        mv.scanHits (mv.titleView t) ⟨includeBroad, true⟩ emission ∧
      (mv.matchTitleCollect t includeBroad emission s).1.Bounded := by
  obtain ⟨hout, hbounded, -⟩ := @scan_eq mv (mv.titleView t) ⟨includeBroad, true⟩ emission hmv _
    (hs.ensure mv.lens) (Stamps.fits_ensure s mv.lens)
  exact ⟨hout, hbounded⟩

end Scan

end MatchView

end ReverseRusty
