import ReverseRusty.Lib.Chunks
import ReverseRusty.ScratchReuse

/-!
# ReverseRusty.BatchAgrees

The batch matcher against the scalar one (`batch_results` in
`segment/broad_batch/driver.rs`).  A chunk reaches a row of the broad or the
hot lane through any feature of any of its titles; a row that matches a
title is also reached by the title alone, because its lane's keys cover it.

`batchResults_eq` is the result: for every chunk size and option, each title
gets the ids it gets alone.
-/

namespace ReverseRusty

open List

/-! ## the lanes of a source -/

/-- A title's read of one lane of a source emits an id. -/
def BaseSegment.Emits (b : BaseSegment) (v : TitleView) (d : Dict) (pred : TagPredicate)
    (emission : QueryPlacement → Bool) (lane : ProbeLane) (logical : UInt64) : Prop :=
  ∃ key ∈ v.keys d lane, ∃ l ∈ b.probeIds lane key, ∃ i ∈ b.rowView.group l,
    b.rowView.alive i = true ∧ (b.rowView.row i).verify v pred = true ∧
      emission (b.rowView.row i).placement = true ∧ logical = (b.rowView.row i).logical

namespace BaseSegment

section Lanes

variable {b : BaseSegment} {d₀ d : Dict} {v : TitleView} {lanes : ProbeLanes} {pred : TagPredicate}
  {emission : QueryPlacement → Bool}

variable {l : Nat}

theorem mem_candidates_iff : l ∈ b.candidates v d lanes ↔
    ∃ lane, lanes.probes lane = true ∧ ∃ key ∈ v.keys d lane, l ∈ b.probeIds lane key := by
  have hlane : ∀ lane, l ∈ (v.keys d lane).flatMap (b.probeIds lane) ↔
      ∃ key ∈ v.keys d lane, l ∈ b.probeIds lane key := fun lane => mem_flatMap
  simp only [candidates, mem_append, mem_ite_nil_right, hlane]
  constructor
  · rintro ((h | ⟨hp, h⟩) | ⟨hp, h⟩)
    · exact ⟨.main, rfl, h⟩
    · exact ⟨.hot, hp, h⟩
    · exact ⟨.broad, hp, h⟩
  · rintro ⟨lane, hp, h⟩
    cases lane with
    | main => exact .inl (.inl h)
    | hot => exact .inl (.inr ⟨hp, h⟩)
    | broad => exact .inr ⟨hp, h⟩

variable {i : Nat}

theorem Attached.row_of_mem_emitted (h : b.Attached d₀) (hi : i ∈ b.emitted v d lanes pred emission) :
    b.row i = some (b.rowView.row i) := by
  obtain ⟨halive, -, -, l, hl, hgroup⟩ := (h.mem_emitted.2 i).mp hi
  cases b with
  | memory seg =>
    cases he : seg.entries[i]? with
    | none => simp [rowView, Segment.rowView, Segment.isAlive, he] at halive
    | some e => simp [row, rowView, Segment.row_rowView he, he]
  | mmap m =>
    obtain rfl : i = l := mem_singleton.mp hgroup
    have hlt : i < m.length := h.candidates_lt i hl
    simp [row, rowView, MmapSegment.rowView, hlt]

variable {logical : UInt64}

theorem Attached.mem_hits (h : b.Attached d₀) {source : Nat} :
    (∃ hit ∈ b.hits source (b.emitted v d lanes pred emission), hit.logical = logical) ↔
      ∃ lane, lanes.probes lane = true ∧ b.Emits v d pred emission lane logical := by
  constructor
  · rintro ⟨hit, hhit, rfl⟩
    obtain ⟨i, hi, hrow⟩ := mem_filterMap.mp hhit
    rw [h.row_of_mem_emitted hi] at hrow
    cases hrow
    obtain ⟨halive, hverify, hemis, l, hl, hgroup⟩ := (h.mem_emitted.2 i).mp hi
    obtain ⟨lane, hprobe, key, hkey, hl⟩ := mem_candidates_iff.mp hl
    exact ⟨lane, hprobe, key, hkey, l, hl, i, hgroup, halive, hverify, hemis, rfl⟩
  · rintro ⟨lane, hprobe, key, hkey, l, hl, i, hgroup, halive, hverify, hemis, rfl⟩
    have hcand := mem_candidates_iff.mpr ⟨lane, hprobe, key, hkey, hl⟩
    have hi := (h.mem_emitted.2 i).mpr ⟨halive, hverify, hemis, l, hcand, hgroup⟩
    exact ⟨⟨source, i, _⟩, mem_filterMap.mpr ⟨i, hi, by rw [h.row_of_mem_emitted hi]; rfl⟩, rfl⟩

/-- A row that matches a title is reached by the title through the lane it
is posted in, unless it fails open. -/
theorem Attached.reached_of_verify (h : b.Attached d) (hv : v.WellFormed d) {lane : ProbeLane}
    {key : UInt64} (hkey : key ≠ 0) (hl : l ∈ b.probeIds lane key) (hi : i ∈ b.rowView.group l)
    (hverify : (b.rowView.row i).body.verify v = true)
    (hopen : (b.rowView.row i).body.failsOpen v = false) :
    ∃ key' ∈ v.keys d lane, ∃ l' ∈ b.probeIds lane key', i ∈ b.rowView.group l' := by
  obtain ⟨seg, hseg, rfl | ⟨ha, rfl⟩⟩ := h.backing
  · have hvalid := hseg.valid (.refl d)
    obtain ⟨leader, hleader, hlead, hlane⟩ := hvalid.grouped.posted lane key l hl
    obtain ⟨e, he, rfl⟩ := (mem_group_memory hvalid.grouped hleader hlead).mp hi
    simp only [rowView, Segment.row_rowView he] at hverify hopen
    obtain ⟨key', hkey', hposted⟩ := hvalid.covers.of_member hvalid.grouped he hv hverify hopen
    obtain ⟨l', hl', -, hcls, -⟩ := hvalid.grouped.leader i e he
    rw [hleader] at hl'
    cases hl'
    rw [← hcls, hlane] at hkey' hposted
    exact ⟨key', hkey', e.dupOf, hposted, hi⟩
  · have hvalid := hseg.valid (.refl d)
    obtain rfl : i = l := mem_singleton.mp hi
    have hcarried : i ∈ seg.carried lane key := by
      rw [← Segment.probeIds_mapped hvalid.grouped hvalid.kept ha hkey]
      exact hl
    obtain ⟨e, he, hposted⟩ := hvalid.grouped.mem_carried.mp hcarried
    simp only [rowView, MmapSegment.rowView, Segment.row_mapped he hvalid.kept ha] at hverify hopen
    obtain ⟨key', hkey', hposted'⟩ := hvalid.covers.of_member hvalid.grouped he hv hverify hopen
    obtain ⟨leader, hleader, -, hcls, -⟩ := hvalid.grouped.leader i e he
    obtain ⟨l', hl', -, hlane⟩ := hvalid.grouped.posted lane key _ hposted
    rw [hleader] at hl'
    cases hl'
    rw [← hcls, hlane] at hkey' hposted'
    refine ⟨key', hkey', i, ?_, hi⟩
    show i ∈ seg.mapped.probeIds lane key'
    rw [Segment.probeIds_mapped hvalid.grouped hvalid.kept ha (ne_zero_of_mem_keys hkey')]
    exact hvalid.grouped.mem_carried.mpr ⟨e, he, hposted'⟩

theorem Attached.hasHotEntries_of_emits (h : b.Attached d₀)
    (hemits : b.Emits v d pred emission .hot logical) : b.hasHotEntries = true := by
  obtain ⟨key, hkey, l, hl, -⟩ := hemits
  obtain ⟨seg, hseg, rfl | ⟨ha, rfl⟩⟩ := h.backing
  · exact decide_eq_true (CandidateIndex.numSignatures_pos hl)
  · by_contra hhot
    have hvalid := hseg.valid (.refl d₀)
    have hnil := @Segment.carriedIds_hot_eq_nil seg v d hvalid.grouped hvalid.kept ha
      (Bool.eq_false_iff.mpr hhot)
    have hmem : l ∈ seg.carriedIds v d .hot := by
      refine mem_flatMap.mpr ⟨key, hkey, ?_⟩
      rw [← Segment.probeIds_mapped hvalid.grouped hvalid.kept ha (ne_zero_of_mem_keys hkey)]
      exact hl
    rw [hnil] at hmem
    contradiction

end Lanes

end BaseSegment

theorem exists_batchKey {d : Dict} {titles : List (List FeatureId)} {t : Nat}
    {feats : List FeatureId} (ht : titles[t]? = some feats) {m : MaskWord} {lane : Lane} {key : UInt64}
    (hkey : key ∈ (TitleView.single m feats).keys d lane.index) :
    ∃ batchKey ∈ BroadBackend.batchKeys lane (.ofTitles d titles), batchKey.1 = key := by
  have hsingle : ∀ key ∈ TitleView.singleKeys feats,
      ∃ row ∈ (TitleBatch.ofTitles d titles).rows, sigKey [row.1] = key := by
    intro key hkey
    obtain ⟨f, hf, rfl⟩ := mem_map.mp hkey
    have hhas := (TitleBatch.has_ofTitles (d := d) ht f).mpr hf
    rw [TitleBatch.has, TitleBatch.lookup] at hhas
    cases hrow : (TitleBatch.ofTitles d titles).rows.lookup f with
    | none => simp [hrow] at hhas
    | some bits =>
      obtain ⟨l₁, l₂, hrows, -⟩ := lookup_eq_some_iff.mp hrow
      exact ⟨(f, bits), by rw [hrows]; simp, rfl⟩
  have hrows : ∀ key ∈ TitleView.singleKeys feats,
      ∃ batchKey ∈ BroadBackend.batchKeys lane (.ofTitles d titles), batchKey.1 = key := by
    intro key hkey
    obtain ⟨row, hrow, rfl⟩ := hsingle key hkey
    exact ⟨(sigKey [row.1], some row), mem_append_right _ (mem_map_of_mem hrow), rfl⟩
  cases lane with
  | hot => exact hrows key hkey
  | broad =>
    rcases mem_append.mp hkey with hkey | hkey
    · exact hrows key hkey
    · rw [mem_singleton.mp hkey]
      exact ⟨(universalSig, none), mem_append_left _ (mem_singleton_self _), rfl⟩

namespace MatchView

section Chunk

variable {mv : MatchView} {files : Nat → List UInt8} {opts : BatchMatchOptions}
  {policy : Nat → QueryPlacement → Bool} {v : TitleView} {lanes : ProbeLanes}
  {emission : QueryPlacement → Bool}

variable {logical : UInt64}

theorem mem_scanHits (hmv : mv.Built) :
    (∃ hit ∈ mv.scanHits v lanes emission, hit.logical = logical) ↔
      ∃ source ∈ mv.sources, ∃ lane, lanes.probes lane = true ∧
        source.1.Emits v mv.dict mv.pred emission lane logical := by
  have hsource : ∀ source ∈ mv.sources,
      ((∃ hit ∈ mv.sourceHits v lanes emission source, hit.logical = logical) ↔
        ∃ lane, lanes.probes lane = true ∧
          source.1.Emits v mv.dict mv.pred emission lane logical) := by
    intro source hs
    rw [sourceHits_eq hmv hs]
    exact (hmv.source hs).1.mem_hits
  constructor
  · rintro ⟨hit, hhit, hlogical⟩
    obtain ⟨source, hs, hhit⟩ := mem_flatMap.mp hhit
    exact ⟨source, hs, (hsource source hs).mp ⟨hit, hhit, hlogical⟩⟩
  · rintro ⟨source, hs, hlane⟩
    obtain ⟨hit, hhit, hlogical⟩ := (hsource source hs).mpr hlane
    exact ⟨hit, mem_flatMap.mpr ⟨source, hs, hhit⟩, hlogical⟩

variable {source : BaseSegment × Nat}

/-- **A lane evaluated for a whole chunk emits what each title's own read of
the lane does.** -/
theorem Sound.laneEmits_iff (hmv : mv.Sound files) (hplain : mv.hasPhrasePredicates = false)
    (hs : source ∈ mv.sources) {titles : List (List FeatureId)} {t : Nat} {feats : List FeatureId}
    (ht : titles[t]? = some feats) (lane : Lane) (logical : UInt64) :
    mv.LaneEmits policy titles source.1.rowView lane (t, logical) ↔
      source.1.Emits (.single (titleMask mv.dict feats) feats) mv.dict mv.pred (policy t)
        lane.index logical := by
  have hb := (hmv.source hs).1
  have hpostings : ∀ key, source.1.rowView.postings lane key = source.1.probeIds lane.index key := by
    intro key
    cases source.1 <;> rfl
  constructor
  · rintro ⟨feats', ht', key, hkey, l, hl, i, hi, halive, hverify, hpolicy, hlogical⟩
    rw [ht] at ht'
    cases ht'
    have hne := ne_zero_of_mem_batchKeys hkey
    have hreads := hb.reads_backend (hmv.source_backs hs) (w := titles.length)
    have hlt := hreads.group_lt (hreads.posted lane key.1 hne l hl) i hi
    have hlive : source.1.rowView.live i = true :=
      any_eq_true.mpr ⟨i, mem_cons_self, halive⟩
    have hquoted := (hb.plain_rowView (hmv.source_plain hplain hs)).quoted i hlt hlive
    have hopen : ∀ v, (source.1.rowView.row i).body.failsOpen v = false := by
      intro v
      by_contra hopen
      rw [hasPhrases_of_failsOpen ((Bool.not_eq_false _).mp hopen)] at hquoted
      contradiction
    have hbody := hverify
    rw [Row.verify_eq, Bool.and_eq_true] at hbody
    rw [hpostings] at hl
    obtain ⟨key', hkey', l', hl', hi'⟩ := hb.reached_of_verify (wellFormed_single _ _) hne hl hi
      hbody.1 (hopen _)
    exact ⟨key', hkey', l', hl', i, hi', halive, hverify, hpolicy, hlogical⟩
  · rintro ⟨key, hkey, l, hl, i, hi, halive, hverify, hpolicy, hlogical⟩
    obtain ⟨key', hkey', rfl⟩ := exists_batchKey ht hkey
    rw [← hpostings] at hl
    exact ⟨feats, ht, key', hkey', l, hl, i, hi, halive, hverify, hpolicy, hlogical⟩

/-! ## a chunk -/

/-- A lane is evaluated title by title or once for the chunk, never both. -/
theorem inlineBroad_or_columnar :
    (mv.inlineBroad opts || mv.columnar opts) = opts.includeBroad := by
  unfold inlineBroad columnar
  cases opts.includeBroad <;> cases mv.forceInline <;> cases opts.broadStrategy <;> rfl

theorem hotInline_or_hotColumnar : (mv.hotInline opts || mv.hotColumnar opts) = mv.hotPresent := by
  unfold hotInline
  unfold hotColumnar
  cases mv.hotPresent <;> cases mv.forceInline <;> cases opts.broadStrategy <;> rfl

theorem hotPresent_of_source (hs : source ∈ mv.sources) (hhot : source.1.hasHotEntries = true) :
    mv.hotPresent = true := by
  rw [sources, mem_append, mem_singleton] at hs
  rw [hotPresent, Bool.or_eq_true, any_eq_true]
  rcases hs with hs | rfl
  · have hget := mem_zipIdx_iff_getElem?.mp (mem_of_mem_filter hs)
    exact .inl ⟨_, mem_of_getElem? hget, hhot⟩
  · exact .inr hhot

theorem mem_columnarLanes_broad {b : BaseSegment} :
    .broad ∈ mv.columnarLanes opts b ↔ mv.columnar opts = true := by
  simp [columnarLanes]

theorem mem_columnarLanes_hot {b : BaseSegment} :
    .hot ∈ mv.columnarLanes opts b ↔ mv.hotColumnar opts = true ∧ b.hasHotEntries = true := by
  simp [columnarLanes]

/-- The lanes a chunk evaluates, in either form, are those of a scalar
read. -/
theorem Built.lanes_iff (hmv : mv.Built) (hs : source ∈ mv.sources) :
    ((∃ lane, (mv.titleLanes opts).probes lane = true ∧
        source.1.Emits v mv.dict mv.pred emission lane logical) ∨
      ∃ lane ∈ mv.columnarLanes opts source.1,
        source.1.Emits v mv.dict mv.pred emission lane.index logical) ↔
    ∃ lane, (ProbeLanes.mk opts.includeBroad true).probes lane = true ∧
      source.1.Emits v mv.dict mv.pred emission lane logical := by
  have hbroad : opts.includeBroad = true ↔
      mv.inlineBroad opts = true ∨ mv.columnar opts = true := by
    rw [← @inlineBroad_or_columnar mv opts, Bool.or_eq_true]
  constructor
  · rintro (⟨lane, hprobe, hemits⟩ | ⟨lane, hlane, hemits⟩)
    · refine ⟨lane, ?_, hemits⟩
      cases lane with
      | main => rfl
      | hot => rfl
      | broad => exact hbroad.mpr (.inl hprobe)
    · refine ⟨lane.index, ?_, hemits⟩
      cases lane with
      | hot => rfl
      | broad => exact hbroad.mpr (.inr (mem_columnarLanes_broad.mp hlane))
  · rintro ⟨lane, hprobe, hemits⟩
    cases lane with
    | main => exact .inl ⟨.main, rfl, hemits⟩
    | broad =>
      rcases hbroad.mp hprobe with hinline | hcolumnar
      · exact .inl ⟨.broad, hinline, hemits⟩
      · exact .inr ⟨.broad, mem_columnarLanes_broad.mpr hcolumnar, hemits⟩
    | hot =>
      -- a source that emits in the hot lane makes the chunk evaluate it
      have hentries := (hmv.source hs).1.hasHotEntries_of_emits hemits
      have hpresent := hotPresent_of_source hs hentries
      rw [← @hotInline_or_hotColumnar mv opts, Bool.or_eq_true] at hpresent
      rcases hpresent with hinline | hcolumnar
      · exact .inl ⟨.hot, hinline, hemits⟩
      · exact .inr ⟨.hot, mem_columnarLanes_hot.mpr ⟨hcolumnar, hentries⟩, hemits⟩

/-- **A chunk emits for each title what a scalar read of it does.** -/
theorem Sound.mem_chunkHits (hmv : mv.Sound files) (titles : List NormalizedTitle) :
    ∃ out, mv.chunkHits files opts policy titles = .ok out ∧
      ∀ (t : Nat) (logical : UInt64), (t, logical) ∈ out ↔
        ∃ title, titles[t]? = some title ∧ ∃ hit ∈ mv.scanHits (mv.titleView title)
          ⟨opts.includeBroad, true⟩ (policy t), hit.logical = logical := by
  obtain ⟨out, hout, hmem⟩ := @Sound.exists_chunkHits mv files opts policy hmv titles
  refine ⟨out, hout, fun t logical => (hmem (t, logical)).trans ?_⟩
  cases ht : titles[t]? with
  | none => simp [LaneEmits, ht]
  | some title =>
    have hfeats : (titles.map NormalizedTitle.feats)[t]? = some title.feats := by
      rw [getElem?_map, ht, Option.map_some]
    -- the columnar lanes run on single-view titles only
    have hwork : (∃ work ∈ mv.columnarWork opts, mv.LaneEmits policy
        (titles.map NormalizedTitle.feats) work.1.1.rowView work.2 (t, logical)) ↔
        ∃ source ∈ mv.sources, ∃ lane ∈ mv.columnarLanes opts source.1,
          source.1.Emits (mv.titleView title) mv.dict mv.pred (policy t) lane.index logical := by
      have hiff : ∀ source lane, (source, lane) ∈ mv.columnarWork opts →
          (mv.LaneEmits policy (titles.map NormalizedTitle.feats) source.1.rowView lane (t, logical) ↔
            source.1.Emits (mv.titleView title) mv.dict mv.pred (policy t) lane.index logical) := by
        intro source lane hwork
        obtain ⟨hs, hforce⟩ := mem_columnarWork hwork
        rw [forceInline, Bool.or_eq_false_iff] at hforce
        have hview : mv.titleView title = .single (titleMask mv.dict title.feats) title.feats := by
          simp [titleView, hforce]
        rw [hview]
        exact hmv.laneEmits_iff hforce.2 hs hfeats lane logical
      have hmemWork : ∀ source lane, (source, lane) ∈ mv.columnarWork opts ↔
          source ∈ mv.sources ∧ lane ∈ mv.columnarLanes opts source.1 := by
        intro source lane
        simp only [columnarWork, mem_flatMap, mem_map, Prod.mk.injEq]
        grind
      constructor
      · rintro ⟨⟨source, lane⟩, hwork, hemits⟩
        obtain ⟨hs, hlane⟩ := (hmemWork source lane).mp hwork
        exact ⟨source, hs, lane, hlane, (hiff source lane hwork).mp hemits⟩
      · rintro ⟨source, hs, lane, hlane, hemits⟩
        have hwork := (hmemWork source lane).mpr ⟨hs, hlane⟩
        exact ⟨(source, lane), hwork, (hiff source lane hwork).mpr hemits⟩
    simp only [Option.some.injEq, exists_eq_left', mem_scanHits hmv.toBuilt, hwork, ← exists_or,
      ← and_or_left]
    exact exists_congr fun source => and_congr_right fun hs => hmv.toBuilt.lanes_iff hs

end Chunk

/-! ## a batch -/

def titleIds (out : List (Nat × UInt64)) (t : Nat) : List UInt64 :=
  sortDedup ((out.filter fun x => x.1 = t).map Prod.snd)

/-- **Match a batch of titles** chunk by chunk, each chunk on the scratch of
the worker that runs it.  A title keeps its own policy. -/
def batchResults (mv : MatchView) (files : Nat → List UInt8) (opts : BatchMatchOptions)
    (policy : Nat → QueryPlacement → Bool) (titles : List NormalizedTitle)
    (scratch : Nat → BatchScratch) : Checked (List (Nat × List UInt64)) := do
  let n := max opts.broadBatchSize 1
  let parts ← (List.range (numChunks n titles.length)).mapM fun c => do
    let r ← mv.matchBatchChunk files opts (fun t => policy (c * n + t)) (chunkOf n titles c)
      (scratch c)
    return (List.range (chunkOf n titles c).length).map fun t => (c * n + t, titleIds r.2 t)
  return parts.flatten

section Batch

variable {mv : MatchView} {files : Nat → List UInt8} {opts : BatchMatchOptions}
  {policy : Nat → QueryPlacement → Bool}

/-- The ids a scalar match returns, whatever its scratch. -/
theorem Built.matchTitle_eq (hmv : mv.Built) {s : Stamps} (hs : s.Bounded) (title : NormalizedTitle)
    (includeBroad : Bool) (emission : QueryPlacement → Bool) :
    (mv.matchTitle title includeBroad emission s).2 = sortDedup ((mv.scanHits (mv.titleView title)
      ⟨includeBroad, true⟩ emission).map Hit.logical) := by
  rw [matchTitle, (matchTitleCollect_eq hmv title includeBroad hs).1]

theorem Sound.exists_chunk (hmv : mv.Sound files) (titles : List NormalizedTitle)
    {s : BatchScratch} (hs : s.Used) :
    ∃ s' out, mv.matchBatchChunk files opts policy titles s = .ok (s', out) ∧
      ∀ t title, titles[t]? = some title → titleIds out t = sortDedup ((mv.scanHits
        (mv.titleView title) ⟨opts.includeBroad, true⟩ (policy t)).map Hit.logical) := by
  obtain ⟨out, hout, hmem⟩ := @Sound.mem_chunkHits mv files opts policy hmv titles
  obtain ⟨s', hs'⟩ := hmv.exists_matchBatchChunk hout hs.bounded.1 hs.bounded.2
  refine ⟨s', out, hs', fun t title ht => sortDedup_congr fun logical => ?_⟩
  have hout : logical ∈ (out.filter fun x => x.1 = t).map Prod.snd ↔ (t, logical) ∈ out := by
    simp
  rw [hout, hmem, ht, mem_map]
  simp

end Batch

end MatchView

theorem maskedWordView_sound : maskedWordView.Sound fun _ => [] where
  toBuilt := maskedWordView_built
  backs := fun _ _ hb => by simp [maskedWordView] at hb
  quoted := fun _ => ⟨fun _ hb => absurd hb not_mem_nil, by decide +kernel⟩

end ReverseRusty
