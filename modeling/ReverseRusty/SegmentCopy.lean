import ReverseRusty.SegmentReopen

/-!
# ReverseRusty.SegmentCopy

The copy of a reopened segment in memory.  It has the rows, classes and
liveness of the segment that was written, every row leading itself, and it
is again a segment as the write path builds them.
-/

namespace ReverseRusty

open List

/-! ## thawing an index -/

namespace CandidateIndex

variable {idx : CandidateIndex} {key k : UInt64}

variable {ids : List Nat}

theorem mem_postings_insertRun {i : Nat} :
    i ∈ (idx.insertRun key ids).postings k ↔ i ∈ idx.postings k ∨ (k = key ∧ i ∈ ids) := by
  unfold insertRun
  induction ids generalizing idx with
  | nil => simp
  | cons id ids ih =>
    rw [foldl_cons, ih, mem_postings_insertId, mem_cons]
    grind

theorem mem_keys_insertId {id : Nat} : k ∈ (idx.insertId key id).keys ↔ k = key ∨ k ∈ idx.keys := by
  rw [← AList.mem_keys, ← AList.mem_keys]
  unfold insertId
  split <;> exact AList.mem_insert _

theorem mem_keys_insertRun (h : k ∈ (idx.insertRun key ids).keys) : k = key ∨ k ∈ idx.keys := by
  unfold insertRun at h
  induction ids generalizing idx with
  | nil => exact .inr h
  | cons id ids ih =>
    rw [foldl_cons] at h
    rcases ih h with rfl | h
    · exact .inl rfl
    · exact mem_keys_insertId.mp h

end CandidateIndex

namespace FrozenIndex

def runOf (f : FrozenIndex) (s : FrozenSlot) : List Nat :=
  (sliceAt f.blob s.offset.toNat s.len.toNat).map UInt32.toNat

variable {f : FrozenIndex}

theorem mem_postings_thaw {k : UInt64} {i : Nat} :
    i ∈ f.thaw.postings k ↔
      ∃ s ∈ f.slots.filter fun s => s.key ≠ 0, k = s.key ∧ i ∈ f.runOf s := by
  have hfold : ∀ (slots : List FrozenSlot) (idx : CandidateIndex),
      i ∈ (slots.foldl (fun idx s => idx.insertRun s.key (f.runOf s)) idx).postings k ↔
        i ∈ idx.postings k ∨ ∃ s ∈ slots, k = s.key ∧ i ∈ f.runOf s := by
    intro slots
    induction slots with
    | nil => simp
    | cons s slots ih =>
      intro idx
      rw [foldl_cons, ih, CandidateIndex.mem_postings_insertRun, exists_mem_cons_iff,
        or_assoc]
  exact (hfold _ _).trans (by simp)

theorem ne_zero_of_mem_keys_thaw {k : UInt64} (h : k ∈ f.thaw.keys) : k ≠ 0 := by
  have hfold : ∀ (slots : List FrozenSlot) (idx : CandidateIndex),
      k ∈ (slots.foldl (fun idx s => idx.insertRun s.key (f.runOf s)) idx).keys →
        k ∈ idx.keys ∨ ∃ s ∈ slots, k = s.key := by
    intro slots
    induction slots with
    | nil => exact fun idx h => .inl h
    | cons s slots ih =>
      intro idx h
      rw [foldl_cons] at h
      rcases ih _ h with h | ⟨s', hs', hk⟩
      · rcases CandidateIndex.mem_keys_insertRun h with rfl | h
        · exact .inr ⟨s, mem_cons_self, rfl⟩
        · exact .inl h
      · exact .inr ⟨s', mem_cons_of_mem s hs', hk⟩
  rcases hfold _ _ h with h | ⟨s, hs, rfl⟩
  · simp [CandidateIndex.new] at h
  · simpa using (mem_filter.mp hs).2

/-- **Thawing gives back the runs a table was frozen from.** -/
theorem mem_postings_thaw_freeze {runs : List (UInt64 × List UInt32)}
    (hkeys : ∀ r ∈ runs, r.1 ≠ 0) (hnodup : (runs.map Prod.fst).Nodup)
    (hblob : (freeze runs).blob.length < 2 ^ 32) {key : UInt64} {i : Nat} :
    i ∈ (freeze runs).thaw.postings key ↔ ∃ ids, (key, ids) ∈ runs ∧ i ∈ ids.map UInt32.toNat := by
  have hrun : ∀ (j : Nat) (key : UInt64) (ids : List UInt32), runs[j]? = some (key, ids) →
      (freeze runs).runOf ⟨key, UInt32.ofNat (rowStart (runs.map Prod.snd) j),
        UInt32.ofNat ids.length⟩ = ids.map UInt32.toNat := by
    intro j key ids hj
    obtain ⟨hstart, hlen, -, hslice⟩ := span_slotsOf hblob hj
    rw [runOf, hstart, hlen, hslice]
  rw [mem_postings_thaw]
  constructor
  · rintro ⟨s, hs, rfl, hi⟩
    have hs' := (filled_freeze hkeys hnodup).stored.mem_iff.mp hs
    obtain ⟨j, hj⟩ := mem_iff_getElem?.mp hs'
    have hlt : j < runs.length := length_slotsOf runs ▸ (List.getElem?_eq_some_iff.mp hj).1
    have hget := getElem?_eq_getElem hlt
    rw [getElem?_slotsOf hget] at hj
    cases hj
    rw [hrun j _ _ hget] at hi
    exact ⟨_, mem_of_getElem? hget, hi⟩
  · rintro ⟨ids, hmem, hi⟩
    obtain ⟨j, hj⟩ := mem_iff_getElem?.mp hmem
    have hslot := mem_of_getElem? (getElem?_slotsOf hj)
    refine ⟨_, (filled_freeze hkeys hnodup).stored.mem_iff.mpr hslot, rfl, ?_⟩
    rw [hrun j key ids hj]
    exact hi

end FrozenIndex

namespace Segment

/-! ## the reverse index of a copy -/

theorem valuesOf_liveLogicalIndex (entries : List Entry) (id : UInt64) :
    (liveLogicalIndex entries).valuesOf id =
      (entries.zipIdx.filter fun e => e.1.alive && decide (e.1.row.logical = id)).map Prod.snd := by
  have hfold : ∀ (es : List (Entry × Nat)) (idx : Multimap UInt64 Nat),
      (es.foldl (fun idx e => if e.1.alive then idx.push e.1.row.logical e.2 else idx)
        idx).valuesOf id =
        idx.valuesOf id ++
          (es.filter fun e => e.1.alive && decide (e.1.row.logical = id)).map Prod.snd := by
    intro es
    induction es with
    | nil => simp
    | cons e es ih =>
      intro idx
      rw [foldl_cons, ih]
      cases halive : e.1.alive with
      | false => simp [halive]
      | true =>
        by_cases hid : e.1.row.logical = id
        · simp [halive, hid, Multimap.valuesOf_push]
        · simp [halive, hid, Multimap.valuesOf_push, Ne.symm hid]
  exact (hfold _ _).trans (by simp)

theorem mem_valuesOf_liveLogicalIndex {entries : List Entry} {id : UInt64} {i : Nat} :
    i ∈ (liveLogicalIndex entries).valuesOf id ↔
      ∃ e, entries[i]? = some e ∧ e.alive = true ∧ e.row.logical = id := by
  rw [valuesOf_liveLogicalIndex, mem_map]
  constructor
  · rintro ⟨⟨e, j⟩, hmem, rfl⟩
    obtain ⟨hzip, hlive⟩ := mem_filter.mp hmem
    rw [Bool.and_eq_true, decide_eq_true_eq] at hlive
    exact ⟨e, mem_zipIdx_iff_getElem?.mp hzip, hlive⟩
  · rintro ⟨e, he, halive, hid⟩
    refine ⟨(e, i), mem_filter.mpr ⟨mem_zipIdx_iff_getElem?.mpr he, ?_⟩, rfl⟩
    simp [halive, hid]

theorem pairwise_valuesOf_liveLogicalIndex (entries : List Entry) (id : UInt64) :
    ((liveLogicalIndex entries).valuesOf id).Pairwise (· < ·) := by
  have hindices : (entries.zipIdx.map Prod.snd).Pairwise (· < ·) := by
    rw [zipIdx_map_snd]
    exact pairwise_lt_range'
  rw [valuesOf_liveLogicalIndex]
  exact hindices.sublist (filter_sublist.map _)

/-! ## assembling a segment from parts -/

section FromParts

variable {main broad hot : CandidateIndex} {rows : List (Row × CostClass × Bool)}

theorem getElem?_fromParts (i : Nat) :
    (fromParts main broad hot rows).entries[i]? =
      rows[i]?.map fun r => ⟨r.1, r.2.1, r.2.2, i⟩ := by
  show (rows.zipIdx.map fun r => (⟨r.1.1, r.1.2.1, r.1.2.2, r.2⟩ : Entry))[i]? = _
  rw [getElem?_map, getElem?_zipIdx, Option.map_map, Nat.zero_add]
  rfl

theorem exists_of_getElem?_fromParts {i : Nat} {e : Entry}
    (h : (fromParts main broad hot rows).entries[i]? = some e) :
    rows[i]? = some (e.row, e.cls, e.alive) ∧ e.dupOf = i := by
  rw [getElem?_fromParts] at h
  obtain ⟨r, hr, rfl⟩ := Option.map_eq_some_iff.mp h
  exact ⟨hr, rfl⟩

/-- A segment assembled from parts is well grouped, each row leading
itself, when the indexes post rows in the lane of their class. -/
theorem grouped_fromParts
    (hposted : ∀ lane key i, i ∈ ((fromParts main broad hot rows).index lane).postings key →
      ∃ r, rows[i]? = some r ∧ r.2.1.lane = lane)
    (hprogram : ∀ r ∈ rows, KnownVersion r.1.body.predicate) :
    (fromParts main broad hot rows).Grouped where
  leader i e he := by
    obtain ⟨-, hself⟩ := exists_of_getElem?_fromParts he
    exact ⟨e, hself ▸ he, rfl, rfl, bodiesEqual_refl _⟩
  nodup l := nodup_nil
  member l m := by
    constructor
    · intro hm
      contradiction
    · rintro ⟨hne, e, he, rfl⟩
      exact absurd (exists_of_getElem?_fromParts he).2.symm hne
  posted lane key i hi := by
    obtain ⟨r, hr, hlane⟩ := hposted lane key i hi
    refine ⟨⟨r.1, r.2.1, r.2.2, i⟩, ?_, rfl, hlane⟩
    rw [getElem?_fromParts, hr]
    rfl
  program i e he := hprogram _ (mem_of_getElem? (exists_of_getElem?_fromParts he).1)
  bodyLeader sig l hl := by contradiction
  filtered f hf lane key i hi := by
    cases hf
    have hkey := CandidateIndex.mem_keys_of_postings hi
    refine SegmentFilter.mayContain_build ?_
    simp only [mem_append]
    cases lane with
    | main => exact .inl (.inl hkey)
    | broad => exact .inl (.inr hkey)
    | hot => exact .inr hkey

theorem kept_fromParts (hsound : ∀ r ∈ rows, r.1.Sound)
    (hkeys : ∀ lane key, key ∈ ((fromParts main broad hot rows).index lane).keys → key ≠ 0) :
    (fromParts main broad hot rows).Kept where
  sound i e he := hsound _ (mem_of_getElem? (exists_of_getElem?_fromParts he).1)
  quoted := rfl
  keys := hkeys
  alive := rfl
  phrases := by
    show (if (fromParts main broad hot rows).entries.any (fun e => e.row.hasPhrases) then _ else 0)
      = (fromParts main broad hot rows).entries.countP _
    split
    · rfl
    · next hnone =>
      symm
      rw [countP_eq_zero]
      intro e he hphrases
      rw [Bool.and_eq_true] at hphrases
      exact hnone (any_eq_true.mpr ⟨e, he, hphrases.2⟩)
  ascending id := pairwise_valuesOf_liveLogicalIndex _ id
  logical id i hi := by
    obtain ⟨e, he, -, hid⟩ := mem_valuesOf_liveLogicalIndex.mp hi
    exact ⟨e, he, hid⟩
  listed i e he halive := mem_valuesOf_liveLogicalIndex.mpr ⟨e, he, halive, rfl⟩
  semantics := le_refl _
  blocks f hf := by
    cases hf
    exact ⟨SegmentFilter.length_data_build _, SegmentFilter.mask_build _⟩

end FromParts

section Semantics

variable {seg : Segment} (version : UInt32)

theorem index_withSemantics (lane : ProbeLane) :
    { seg with compilerSemanticsVersion := version }.index lane = seg.index lane := by
  cases lane <;> rfl

theorem Grouped.withSemantics (h : seg.Grouped) :
    { seg with compilerSemanticsVersion := version }.Grouped where
  leader := h.leader
  nodup := h.nodup
  member := h.member
  posted lane := index_withSemantics version lane ▸ h.posted lane
  program := h.program
  bodyLeader := h.bodyLeader
  filtered f hf lane := index_withSemantics version lane ▸ h.filtered f hf lane

theorem Kept.withSemantics (h : seg.Kept) (hversion : version ≤ currentCompilerSemanticsVersion) :
    { seg with compilerSemanticsVersion := version }.Kept where
  sound := h.sound
  quoted := h.quoted
  keys lane := index_withSemantics version lane ▸ h.keys lane
  alive := h.alive
  phrases := h.phrases
  ascending := h.ascending
  logical := h.logical
  listed := h.listed
  semantics := hversion
  blocks := h.blocks

end Semantics

/-! ## the copy -/

/-- The row a copy holds in place of `r`. -/
def copiedRow (seg : Segment) (tagDict : TagDict) (r : Row) : Row :=
  { r with
    priority :=
      if seg.mapped.cols.priority.isEmpty then tagDict.legacyPriorityForTags r.tags
      else r.priority }

def copy (seg : Segment) (tagDict : TagDict) : Segment := seg.mapped.toMemorySegment tagDict

section Copy

variable {seg : Segment} (hk : seg.Kept) (ha : seg.Addressable) (tagDict : TagDict)

theorem index_copy (lane : ProbeLane) :
    (seg.copy tagDict).index lane = (seg.mapped.index lane).thaw := by
  cases lane <;> rfl

theorem length_copy : (seg.copy tagDict).length = seg.length := by
  show ((seg.mapped.copyRows tagDict).zipIdx.map _).length = seg.length
  rw [length_map, length_zipIdx, MmapSegment.copyRows, length_map,
    length_range]
  rfl

include hk ha

theorem getElem?_copyRows (i : Nat) :
    (seg.mapped.copyRows tagDict)[i]? =
      seg.entries[i]?.map fun e => (seg.copiedRow tagDict e.row, e.cls, e.alive) := by
  rw [MmapSegment.copyRows, getElem?_map]
  cases he : seg.entries[i]? with
  | none =>
    have hlen : seg.mapped.numQueries ≤ i := List.getElem?_eq_none_iff.mp he
    rw [getElem?_eq_none (by rw [length_range]; exact hlen)]
    rfl
  | some e =>
    have hlt : i < seg.mapped.numQueries := (List.getElem?_eq_some_iff.mp he).1
    rw [getElem?_range hlt, Option.map_some]
    simp only [row_mapped he hk ha, classOf_mapped he, isAlive_mapped he]
    rfl

/-- **The rows of a copy.** -/
theorem getElem?_copy (i : Nat) :
    (seg.copy tagDict).entries[i]? =
      seg.entries[i]?.map fun e => ⟨seg.copiedRow tagDict e.row, e.cls, e.alive, i⟩ := by
  have hparts : (seg.copy tagDict).entries[i]? =
      (seg.mapped.copyRows tagDict)[i]?.map fun r => ⟨r.1, r.2.1, r.2.2, i⟩ :=
    @getElem?_fromParts seg.mapped.main.thaw seg.mapped.broad.thaw seg.mapped.hot.thaw _ i
  rw [hparts, getElem?_copyRows hk ha, Option.map_map]
  rfl

variable {i : Nat}

theorem of_getElem?_copy {e' : Entry} (h : (seg.copy tagDict).entries[i]? = some e') :
    ∃ e, seg.entries[i]? = some e ∧
      e' = ⟨seg.copiedRow tagDict e.row, e.cls, e.alive, i⟩ := by
  rw [getElem?_copy hk ha] at h
  obtain ⟨e, he, rfl⟩ := Option.map_eq_some_iff.mp h
  exact ⟨e, he, rfl⟩

variable {e : Entry}

omit hk ha in
theorem effectivePriority_copiedRow (h : seg.entries[i]? = some e) :
    tagDict.effectivePriority (seg.copiedRow tagDict e.row) = tagDict.effectivePriority e.row := by
  unfold copiedRow
  cases hcol : seg.mapped.cols.priority.isEmpty with
  | false => rfl
  | true =>
    have hpriority : e.row.priority = 0 := by
      rcases seg.leavesDefaults.priority with hversion | hzero
      · have hmem : e.row.priority ∈ seg.mapped.cols.priority := by
          simp only [mapped, ExactColumns.atVersion, if_pos hversion]
          exact mem_map_of_mem (mem_of_getElem? (getElem?_rows h))
        rw [List.isEmpty_iff.mp hcol] at hmem
        contradiction
      · exact hzero e.row (mem_of_getElem? (getElem?_rows h))
    simp only [TagDict.effectivePriority, hpriority, if_true]
    split
    · rfl
    · rfl

variable (hg : seg.Grouped)

include hg

theorem mem_postings_copy {lane : ProbeLane} {key : UInt64} :
    i ∈ ((seg.copy tagDict).index lane).postings key ↔ i ∈ seg.carried lane key := by
  have hfrozen : i ∈ (seg.freezeIndex lane).thaw.postings key ↔ i ∈ seg.carried lane key := by
    have hthaw := @FrozenIndex.mem_postings_thaw_freeze (seg.frozenRuns lane)
      (fun _ => key_ne_zero_of_mem_frozenRuns hk) (seg.nodup_frozenRuns lane)
      (blob_lt_of_addressable ha lane) key i
    refine hthaw.trans ?_
    rw [← map_toNat_carried hg ha]
    constructor
    · rintro ⟨ids, hmem, hi⟩
      obtain ⟨e, he, heq⟩ := mem_map.mp hmem
      cases heq
      have hget : (seg.index lane).get e.1 = some e.2 := AList.mem_lookup_iff.mpr he
      rw [carried, hget]
      exact hi
    · intro hi
      unfold carried at hi
      cases hget : (seg.index lane).get key with
      | none => simp [hget] at hi
      | some p =>
        rw [hget] at hi
        exact ⟨_, mem_frozenRuns_of_get hget, hi⟩
  rw [index_copy]
  cases lane with
  | main => exact hfrozen
  | broad => exact hfrozen
  | hot =>
    cases hhot : seg.hasHotClass with
    | true =>
      rw [MmapSegment.index, mapped, hhot]
      exact hfrozen
    | false =>
      rw [MmapSegment.index, mapped, hhot, carried_hot_eq_nil hg hhot]
      rfl

/-- **A copy is well grouped.** -/
theorem grouped_copy : (seg.copy tagDict).Grouped := by
  refine Grouped.withSemantics _ (grouped_fromParts (fun lane key i hi => ?_) fun r hr => ?_)
  · have hi' : i ∈ ((seg.copy tagDict).index lane).postings key := by cases lane <;> exact hi
    obtain ⟨e, he, hpost⟩ := hg.mem_carried.mp ((mem_postings_copy hk ha tagDict hg).mp hi')
    obtain ⟨l, hl, -, hcls, -⟩ := hg.leader i e he
    obtain ⟨l', hl', -, hlane⟩ := hg.posted lane key _ hpost
    rw [hl] at hl'
    cases hl'
    refine ⟨_, (getElem?_copyRows hk ha tagDict i).trans (by rw [he]; rfl), ?_⟩
    rw [← hlane, hcls]
  · obtain ⟨i, hi⟩ := mem_iff_getElem?.mp hr
    rw [getElem?_copyRows hk ha] at hi
    obtain ⟨e, he, rfl⟩ := Option.map_eq_some_iff.mp hi
    exact hg.program i e he

omit hg in
/-- **A copy keeps its books.** -/
theorem kept_copy : (seg.copy tagDict).Kept := by
  refine Kept.withSemantics _ (kept_fromParts (fun r hr => ?_) fun lane key hkey => ?_)
    hk.semantics
  · obtain ⟨i, hi⟩ := mem_iff_getElem?.mp hr
    rw [getElem?_copyRows hk ha] at hi
    obtain ⟨e, he, rfl⟩ := Option.map_eq_some_iff.mp hi
    exact ⟨(hk.sound i e he).body, (hk.sound i e he).tags⟩
  · cases lane <;> exact FrozenIndex.ne_zero_of_mem_keys_thaw hkey

theorem reaches_copy {v : TitleView} {d : Dict} {lanes : ProbeLanes} (he : seg.entries[i]? = some e) :
    (seg.copy tagDict).Reaches v d lanes i ↔ seg.Reaches v d lanes e.dupOf := by
  have hposting : ∀ lane key, i ∈ ((seg.copy tagDict).index lane).postings key ↔
      e.dupOf ∈ (seg.index lane).postings key := by
    intro lane key
    rw [mem_postings_copy hk ha tagDict hg, hg.mem_carried, he]
    simp
  simp only [Reaches, hposting]

/-- **A copy covers its rows.** -/
theorem covers_copy {dt : Dict} (hc : seg.Covers dt) : (seg.copy tagDict).Covers dt := by
  intro i e' hi _ v hv hverify hopen
  obtain ⟨e, he, rfl⟩ := of_getElem?_copy hk ha tagDict hi
  obtain ⟨key, hkey, hpost⟩ := hc.of_member hg he hv hverify hopen
  exact ⟨key, hkey, (mem_postings_copy hk ha tagDict hg).mpr (hg.mem_carried.mpr ⟨e, he, hpost⟩)⟩

/-- **A copy emits the rows the segment does.** -/
theorem matchCollect_copy_perm {v : TitleView} {d : Dict} {epoch : UInt32} {lanes : ProbeLanes}
    {pred : TagPredicate} {emission : QueryPlacement → Bool} {seen : List UInt32}
    (hseen : seg.length ≤ seen.length) (hfresh : epoch ∉ seen) :
    ((seg.copy tagDict).matchCollect v d epoch lanes pred emission seen).out.Perm
      (seg.matchCollect v d epoch lanes pred emission seen).out := by
  have hg' := grouped_copy hk ha tagDict hg
  have hlen : (seg.copy tagDict).length ≤ seen.length := by rwa [length_copy]
  obtain ⟨hnodup, hmem⟩ := @Grouped.mem_matchCollect _ v d epoch lanes pred emission hg'
    seen hlen hfresh
  obtain ⟨hnodup', hmem'⟩ := @Grouped.mem_matchCollect seg v d epoch lanes pred emission hg
    seen hseen hfresh
  rw [perm_ext_iff_of_nodup hnodup hnodup']
  intro i
  rw [hmem, hmem', getElem?_copy hk ha]
  cases he : seg.entries[i]? with
  | none => simp
  | some e =>
    have hverify : (seg.copiedRow tagDict e.row).verify v pred = e.row.verify v pred := rfl
    have hplace : (seg.copiedRow tagDict e.row).placement = e.row.placement := rfl
    simp [hverify, hplace, reaches_copy hk ha tagDict hg he]

end Copy

end Segment

end ReverseRusty
