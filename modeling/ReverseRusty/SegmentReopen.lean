import ReverseRusty.SegmentRoundTrip

/-!
# ReverseRusty.SegmentReopen

What a reopened segment answers.  A segment written to its file and opened
again has the rows, classes, liveness and reverse index it was written
with, and a match over it emits the same rows: the frozen postings list the
members of a group beside its leader, so a row is reached exactly when its
leader was.
-/

namespace ReverseRusty

open List

namespace Segment

/-! ## rows -/

section Rows

variable {seg : Segment} {i : Nat} {e : Entry} (h : seg.entries[i]? = some e)

include h

theorem getElem?_rows : seg.rows[i]? = some e.row := by
  rw [rows, getElem?_map, h]
  rfl

/-- **A reopened segment has the rows it was written with.** -/
theorem row_mapped (hk : seg.Kept) (ha : seg.Addressable) : seg.mapped.row i = e.row := by
  exact ExactColumns.rowAt_ofRows ha.exact (getElem?_rows h) (hk.sound i e h).body.fits
    (hk.sound i e h).tags seg.leavesDefaults
    ha.tags

theorem classOf_mapped : seg.mapped.classOf i = e.cls := by
  simp [MmapSegment.classOf, mapped, h, CostClass.ofByte_toByte]

theorem isAlive_mapped : seg.mapped.isAlive i = e.alive := by
  simp [MmapSegment.isAlive, mapped, h]

end Rows

/-! ## the reverse index -/

theorem pairwise_logicalPairs (seg : Segment) :
    seg.logicalPairs.Pairwise fun p q => (ofLex p).1 ≤ (ofLex q).1 := by
  have hsorted : seg.logicalPairs.Pairwise (· ≤ ·) := pairwise_insertionSort (· ≤ ·) _
  refine hsorted.imp fun {p q} hpq => ?_
  rcases Prod.Lex.le_iff.mp hpq with hlt | ⟨heq, -⟩
  · exact hlt.le
  · exact heq.le

theorem filter_logicalPairs {seg : Segment} (hk : seg.Kept) (id : UInt64) :
    seg.logicalPairs.filter (fun p => (ofLex p).1 = id) =
      (seg.localsForLogical id).map fun i => toLex (id, i) := by
  have hperm : (seg.logicalPairs.filter fun p => (ofLex p).1 = id).Perm
      ((seg.localsForLogical id).map fun i => toLex (id, i)) := by
    have hfilter := Multimap.filter_pairs seg.logicalIndex id (fun k i => toLex (k, i))
      (fun p => decide ((ofLex p).1 = id)) (fun _ _ => rfl)
    have hsorted := ((perm_insertionSort (· ≤ ·) (seg.logicalIndex.entries.flatMap
      fun e => e.2.map fun i => toLex (e.1, i))).filter fun p => decide ((ofLex p).1 = id))
    rw [hfilter] at hsorted
    exact hsorted
  have hleft : (seg.logicalPairs.filter fun p => (ofLex p).1 = id).Pairwise (· ≤ ·) :=
    (pairwise_insertionSort (· ≤ ·) _).filter _
  have hright : ((seg.localsForLogical id).map fun i => toLex (id, i)).Pairwise (· ≤ ·) := by
    rw [pairwise_map]
    refine (hk.ascending id).imp fun {i j} hij => ?_
    exact Prod.Lex.toLex_le_toLex.mpr (.inr ⟨rfl, hij.le⟩)
  exact hperm.eq_of_pairwise (fun _ _ _ _ => le_antisymm) hleft hright

theorem length_lt_of_addressable {seg : Segment} (ha : seg.Addressable) :
    seg.length < 2 ^ 32 := by
  have hclasses := ha.classes
  simp only [metaColumns, columnsFit_cons, length_map] at hclasses
  exact hclasses.1

theorem blob_lt_of_addressable {seg : Segment} (ha : seg.Addressable) (lane : ProbeLane) :
    (seg.freezeIndex lane).blob.length < 2 ^ 32 := by
  have hfit := ha.index lane
  simp only [FrozenIndex.columns, columnsFit_cons] at hfit
  exact hfit.2.1

/-- Local ids survive their `u32` column. -/
theorem map_toNat_ofNat {ids : List Nat} (h : ∀ i ∈ ids, i < 2 ^ 32) :
    (ids.map UInt32.ofNat).map UInt32.toNat = ids := by
  rw [map_map]
  conv_rhs => rw [← map_id ids]
  exact map_congr_left fun i hi => UInt32.toNat_ofNat_of_lt' (h i hi)

/-- **The reverse index is read back.** -/
theorem localsForLogical_mapped {seg : Segment} (hk : seg.Kept) (ha : seg.Addressable)
    (id : UInt64) :
    (seg.mapped.localsForLogical id).map UInt32.toNat = seg.localsForLogical id := by
  have hslice := sliceAt_partition (fun p : UInt64 ×ₗ Nat => (ofLex p).1) id
    seg.pairwise_logicalPairs
  have hsorted : seg.mapped.logicalIds.Pairwise (· ≤ ·) :=
    pairwise_map.mpr seg.pairwise_logicalPairs
  have hlocals : seg.mapped.localsForLogical id =
      (seg.localsForLogical id).map UInt32.ofNat := by
    rw [MmapSegment.localsForLogical,
      partitionPoint_eq_of_sorted hsorted (by simpa using fun a b => lt_of_le_of_lt),
      partitionPoint_eq_of_sorted hsorted (by simpa using fun a b => le_trans)]
    simp only [mapped, takeWhile_map, length_map, sliceAt_map, Function.comp_def]
    refine (congrArg (List.map _) hslice).trans ?_
    rw [filter_logicalPairs hk, map_map]
    rfl
  rw [hlocals]
  refine map_toNat_ofNat fun i hi => ?_
  obtain ⟨e, he, -⟩ := hk.logical id i hi
  exact Nat.lt_trans (List.getElem?_eq_some_iff.mp he).1 (length_lt_of_addressable ha)

/-! ## frozen postings -/

def carried (seg : Segment) (lane : ProbeLane) (key : UInt64) : List Nat :=
  match (seg.index lane).get key with
  | some p => seg.frozenRun p
  | none => []

theorem mem_frozenRun {seg : Segment} {p : Posting} {i : Nat} :
    i ∈ seg.frozenRun p ↔ ∃ l ∈ p.ids, i ∈ l :: seg.membersOf l := by
  unfold frozenRun
  cases hdups : seg.hasDupGroups with
  | true =>
    rw [if_pos rfl]
    exact ((perm_insertionSort (· ≤ ·) _).mem_iff).trans mem_flatMap
  | false =>
    have hnil : seg.dupMembers.entries = [] := by
      rw [hasDupGroups, Bool.not_eq_false', List.isEmpty_iff] at hdups
      exact hdups
    simp [membersOf, Multimap.valuesOf_of_entries_eq_nil hnil]

/-- **A file lists a row under the keys of its leader.** -/
theorem Grouped.mem_carried {seg : Segment} (hg : seg.Grouped) {lane : ProbeLane} {key : UInt64}
    {i : Nat} :
    i ∈ seg.carried lane key ↔
      ∃ e, seg.entries[i]? = some e ∧ e.dupOf ∈ (seg.index lane).postings key := by
  have hcarried : i ∈ seg.carried lane key ↔
      ∃ l ∈ (seg.index lane).postings key, i ∈ l :: seg.membersOf l := by
    unfold carried CandidateIndex.postings
    cases (seg.index lane).get key with
    | some p => exact mem_frozenRun
    | none => simp
  rw [hcarried]
  constructor
  · rintro ⟨l, hl, hi⟩
    obtain ⟨e, he, hlead, -⟩ := hg.posted lane key l hl
    obtain ⟨m, hm, rfl⟩ := (hg.mem_group he hlead).mp hi
    exact ⟨m, hm, hl⟩
  · rintro ⟨m, hm, hl⟩
    obtain ⟨e, he, hlead, -⟩ := hg.posted lane key _ hl
    exact ⟨_, hl, (hg.mem_group he hlead).mpr ⟨m, hm, rfl⟩⟩

section Frozen

variable {seg : Segment} (hg : seg.Grouped) (hk : seg.Kept) (ha : seg.Addressable)

theorem map_fst_frozenRuns (seg : Segment) (lane : ProbeLane) :
    (seg.frozenRuns lane).map Prod.fst = (seg.index lane).keys := by
  rw [frozenRuns, map_map]
  rfl

theorem nodup_frozenRuns (seg : Segment) (lane : ProbeLane) :
    ((seg.frozenRuns lane).map Prod.fst).Nodup := by
  rw [map_fst_frozenRuns]
  exact (seg.index lane).keys_nodup

variable {lane : ProbeLane}

include hk in
theorem key_ne_zero_of_mem_frozenRuns {r : UInt64 × List UInt32} (h : r ∈ seg.frozenRuns lane) :
    r.1 ≠ 0 := by
  refine hk.keys lane r.1 ?_
  rw [← map_fst_frozenRuns]
  exact mem_map_of_mem h

variable {key : UInt64}

theorem mem_frozenRuns_of_get {p : Posting} (h : (seg.index lane).get key = some p) :
    (key, (seg.frozenRun p).map UInt32.ofNat) ∈ seg.frozenRuns lane := by
  exact mem_map.mpr ⟨⟨key, p⟩, AList.mem_lookup_iff.mp h, rfl⟩

theorem notMem_frozenRuns_of_get (h : (seg.index lane).get key = none) :
    key ∉ (seg.frozenRuns lane).map Prod.fst := by
  rw [map_fst_frozenRuns, ← AList.mem_keys, ← AList.lookup_isSome]
  rw [CandidateIndex.get] at h
  simp [h]

include hg ha in
theorem map_toNat_carried (lane : ProbeLane) (key : UInt64) :
    ((seg.carried lane key).map UInt32.ofNat).map UInt32.toNat = seg.carried lane key := by
  refine map_toNat_ofNat fun i hi => ?_
  obtain ⟨e, he, -⟩ := hg.mem_carried.mp hi
  exact Nat.lt_trans (List.getElem?_eq_some_iff.mp he).1 (length_lt_of_addressable ha)

include hk ha in
theorem probe_freezeIndex {lane : ProbeLane} {key : UInt64} (hkey : key ≠ 0) :
    ((seg.freezeIndex lane).probe key).getD [] = (seg.carried lane key).map UInt32.ofNat := by
  have hkeys : ∀ r ∈ seg.frozenRuns lane, r.1 ≠ 0 := fun _ => key_ne_zero_of_mem_frozenRuns hk
  unfold carried
  cases hget : (seg.index lane).get key with
  | some p =>
    have hprobe := FrozenIndex.probe_freeze hkeys (seg.nodup_frozenRuns lane)
      (blob_lt_of_addressable ha lane) (mem_frozenRuns_of_get hget)
    rw [freezeIndex, hprobe]
    rfl
  | none =>
    rw [freezeIndex, FrozenIndex.probe_freeze_eq_none hkeys (seg.nodup_frozenRuns lane) hkey
      (notMem_frozenRuns_of_get hget)]
    rfl

include hg in
theorem carried_hot_eq_nil (h : seg.hasHotClass = false) (key : UInt64) :
    seg.carried .hot key = [] := by
  rw [eq_nil_iff_forall_not_mem]
  intro i hi
  obtain ⟨e, -, hpost⟩ := hg.mem_carried.mp hi
  obtain ⟨l, hl, -, hlane⟩ := hg.posted .hot key _ hpost
  rw [hasHotClass, any_eq_false] at h
  have hcls := h l (mem_of_getElem? hl)
  cases hc : l.cls <;> simp [hc, CostClass.lane] at hlane hcls

include hg hk ha

theorem probe_mapped (hkey : key ≠ 0) :
    (((seg.mapped.index lane).probe key).getD []).map UInt32.toNat = seg.carried lane key := by
  have hfrozen := @probe_freezeIndex seg hk ha lane key hkey
  have hcarried := map_toNat_carried hg ha lane key
  cases lane with
  | main => rw [← hcarried, ← hfrozen]; rfl
  | broad => rw [← hcarried, ← hfrozen]; rfl
  | hot =>
    cases hhot : seg.hasHotClass with
    | true =>
      rw [← hcarried, ← hfrozen, MmapSegment.index, mapped, hhot]
      rfl
    | false =>
      rw [carried_hot_eq_nil hg hhot, MmapSegment.index, mapped, hhot]
      rfl

omit hk ha in
theorem mayContain_mapped {i : Nat} (hi : i ∈ seg.carried lane key) :
    seg.mapped.mayContain key = true := by
  obtain ⟨e, -, hpost⟩ := hg.mem_carried.mp hi
  unfold MmapSegment.mayContain
  split
  · rfl
  · next hblocks =>
    cases hf : seg.filter with
    | none => simp [mapped, hf] at hblocks
    | some f =>
      have hmay := hg.filtered f hf lane key _ hpost
      rw [mapped, hf]
      exact hmay

/-- **A probe of the file visits the rows its key carries.** -/
theorem probeIds_mapped (hkey : key ≠ 0) : seg.mapped.probeIds lane key = seg.carried lane key := by
  unfold MmapSegment.probeIds
  split
  · exact probe_mapped hg hk ha hkey
  · next hmiss =>
    symm
    rw [eq_nil_iff_forall_not_mem]
    exact fun i hi => hmiss (mayContain_mapped hg hi)

end Frozen

/-! ## matching -/

section Match

variable {seg : Segment} {v : TitleView} {d : Dict} {epoch : UInt32} {lanes : ProbeLanes}
  {pred : TagPredicate} {emission : QueryPlacement → Bool}

def carriedIds (seg : Segment) (v : TitleView) (d : Dict) (lane : ProbeLane) : List Nat :=
  (v.keys d lane).flatMap (seg.carried lane)

/-- The stream of rows a read of the file visits. -/
def carriedCandidates (seg : Segment) (v : TitleView) (d : Dict) (lanes : ProbeLanes) :
    List Nat :=
  seg.carriedIds v d .main ++ (if lanes.includeHot then seg.carriedIds v d .hot else [])
    ++ (if lanes.includeBroad then seg.carriedIds v d .broad else [])

theorem Grouped.mem_carriedCandidates (hg : seg.Grouped) {i : Nat} :
    i ∈ seg.carriedCandidates v d lanes ↔
      ∃ e, seg.entries[i]? = some e ∧ seg.Reaches v d lanes e.dupOf := by
  have hlane : ∀ lane, i ∈ seg.carriedIds v d lane ↔
      ∃ e, seg.entries[i]? = some e ∧ e.dupOf ∈ seg.laneIds v d lane := by
    intro lane
    simp only [carriedIds, laneIds, mem_flatMap, hg.mem_carried]
    grind
  have hif : ∀ (b : Bool) lane, (i ∈ if b then seg.carriedIds v d lane else []) ↔
      ∃ e, seg.entries[i]? = some e ∧ e.dupOf ∈ if b then seg.laneIds v d lane else [] := by
    intro b lane
    cases b with
    | true => exact hlane lane
    | false => simp
  simp only [← mem_candidates, carriedCandidates, candidates, mem_append, hlane, hif]
  grind

section Visit

variable (hg : seg.Grouped) (hk : seg.Kept) (ha : seg.Addressable)

include hg hk ha

theorem probeAll_mapped (lane : ProbeLane) (s : Visit UInt32 Nat) :
    seg.mapped.probeAll v epoch pred emission lane (v.keys d lane) s =
      visitAll epoch (seg.mapped.emitRow v pred emission) s (seg.carriedIds v d lane) := by
  rw [carriedIds, ← foldl_visitAll, MmapSegment.probeAll]
  refine foldl_ext _ _ _ fun s key hkey => ?_
  rw [probeIds_mapped hg hk ha (ne_zero_of_mem_keys hkey)]

theorem carriedIds_hot_eq_nil (h : seg.mapped.hasHotEntries = false) :
    seg.carriedIds v d .hot = [] := by
  have hslots : seg.mapped.hot.slots = [] := by
    rw [MmapSegment.hasHotEntries, decide_eq_false_iff_not, Nat.not_lt, Nat.le_zero] at h
    exact eq_nil_of_length_eq_zero h
  rw [carriedIds, flatMap_eq_nil_iff]
  intro key hkey
  rw [← probe_mapped hg hk ha (ne_zero_of_mem_keys hkey), MmapSegment.index, FrozenIndex.probe,
    hslots]
  rfl

theorem matchCollect_mapped_eq (seen : List UInt32) :
    seg.mapped.matchCollect v d epoch lanes pred emission seen =
      visitAll epoch (seg.mapped.emitRow v pred emission) ⟨seen, []⟩
        (seg.carriedCandidates v d lanes) := by
  simp only [MmapSegment.matchCollect, probeAll_mapped hg hk ha]
  exact visitLanes_eq (carriedIds_hot_eq_nil hg hk ha) _

/-- **What a match over the file emits**: the rows the segment emits. -/
theorem mem_matchCollect_mapped {seen : List UInt32} (hseen : seg.length ≤ seen.length)
    (hfresh : epoch ∉ seen) :
    (seg.mapped.matchCollect v d epoch lanes pred emission seen).out.Nodup ∧
    ∀ i, i ∈ (seg.mapped.matchCollect v d epoch lanes pred emission seen).out ↔
      ∃ e, seg.entries[i]? = some e ∧ e.alive = true ∧ e.row.verify v pred = true ∧
        emission e.row.placement = true ∧ seg.Reaches v d lanes e.dupOf := by
  have hin : ∀ i ∈ seg.carriedCandidates v d lanes, i < seen.length := by
    intro i hi
    obtain ⟨e, he, -⟩ := hg.mem_carriedCandidates.mp hi
    exact lt_of_lt_of_le (List.getElem?_eq_some_iff.mp he).1 hseen
  obtain ⟨fresh, hnodup, hmem, hout⟩ := @visitAll_out _ _ _ epoch
    (seg.mapped.emitRow v pred emission) ⟨seen, []⟩ (seg.carriedCandidates v d lanes) hin
  have hmem' : ∀ i, i ∈ fresh ↔
      ∃ e, seg.entries[i]? = some e ∧ seg.Reaches v d lanes e.dupOf := by
    intro i
    rw [hmem, hg.mem_carriedCandidates, and_iff_left]
    exact fun hstamp => hfresh (mem_of_getElem? hstamp)
  have hemit : ∀ (i : Nat) (e : Entry), seg.entries[i]? = some e →
      seg.mapped.emitRow v pred emission i =
        if e.alive && e.row.verify v pred && emission e.row.placement then [i] else [] := by
    intro i e he
    rw [MmapSegment.emitRow, isAlive_mapped he, row_mapped he hk ha]
  have hout' : (seg.mapped.matchCollect v d epoch lanes pred emission seen).out =
      fresh.filter fun i => seg.entries[i]?.any fun e =>
        e.alive && e.row.verify v pred && emission e.row.placement := by
    rw [matchCollect_mapped_eq hg hk ha, hout, nil_append, ← flatMap_guard]
    refine flatMap_congr fun i hi => ?_
    obtain ⟨e, he, -⟩ := (hmem' i).mp hi
    rw [hemit i e he, he]
    rfl
  rw [hout']
  refine ⟨hnodup.filter _, fun i => ?_⟩
  rw [mem_filter, hmem']
  simp only [Option.any_eq_true, Bool.and_eq_true]
  grind

theorem matchCollect_mapped_perm {seen : List UInt32} (hseen : seg.length ≤ seen.length)
    (hfresh : epoch ∉ seen) :
    (seg.mapped.matchCollect v d epoch lanes pred emission seen).out.Perm
      (seg.matchCollect v d epoch lanes pred emission seen).out := by
  obtain ⟨hnodup, hmem⟩ := @mem_matchCollect_mapped seg v d epoch lanes pred emission hg hk ha
    seen hseen hfresh
  obtain ⟨hnodup', hmem'⟩ := @Grouped.mem_matchCollect seg v d epoch lanes pred emission hg
    seen hseen hfresh
  rw [perm_ext_iff_of_nodup hnodup hnodup']
  intro i
  rw [hmem, hmem']

end Visit

end Match

/-! ## a frozen index on its own -/

theorem perm_frozenRun (seg : Segment) (p : Posting) :
    (seg.frozenRun p).Perm (p.ids.flatMap fun id => id :: seg.membersOf id) := by
  unfold frozenRun
  split
  · exact perm_insertionSort _ _
  · next hgroups =>
    have hnone : ∀ id, seg.membersOf id = [] := fun id => by
      have hempty : seg.dupMembers.entries = [] := by simpa [hasDupGroups] using hgroups
      simp [membersOf, Multimap.valuesOf, AList.lookup, hempty]
    simp [hnone]

/-- How many ids a posting has with the members of their groups. -/
def expandedLength (seg : Segment) (p : Posting) : Nat :=
  (p.ids.map fun id => (seg.membersOf id).length + 1).sum

/-- How many ids come before the posting of the `i`-th key. -/
def expandedBefore (seg : Segment) (lane : ProbeLane) (i : Nat) : Nat :=
  (((seg.index lane).entries.take i).map fun e => seg.expandedLength e.2).sum

theorem length_frozenRun (seg : Segment) (p : Posting) :
    (seg.frozenRun p).length = seg.expandedLength p := by
  rw [(seg.perm_frozenRun p).length_eq, length_flatMap]
  rfl

theorem rowStart_frozenRuns (seg : Segment) (lane : ProbeLane) (i : Nat) :
    rowStart ((seg.frozenRuns lane).map Prod.snd) i = seg.expandedBefore lane i := by
  rw [rowStart, ← map_take, frozenRuns, ← map_take, map_map, length_flatten, map_map,
    expandedBefore]
  refine congrArg List.sum (map_congr_left fun e _ => ?_)
  simp [length_frozenRun]

/-- **What a frozen index answers.**  It always has a vacant slot and finds
nothing under a key that is not in the index.  A key whose posting starts
within the first `2 ^ 32` ids of the blob is answered, with the members of the
groups, exactly when the posting has fewer than `2 ^ 32` ids with them. -/
theorem freezeIndex_answers {seg : Segment} {lane : ProbeLane}
    (hkeys : ∀ key ∈ (seg.index lane).keys, key ≠ 0) :
    (∃ s ∈ (seg.freezeIndex lane).slots, s.key = 0) ∧
    (∀ key, (seg.index lane).get key = none →
      ((seg.freezeIndex lane).probe key).getD [] = [] ∧
      (key ≠ 0 → (seg.freezeIndex lane).probe key = none)) ∧
    ∀ i key p, (seg.index lane).entries[i]? = some ⟨key, p⟩ → seg.expandedBefore lane i < 2 ^ 32 →
      (seg.frozenRun p).Perm (p.ids.flatMap fun id => id :: seg.membersOf id) ∧
      ((seg.freezeIndex lane).probe key = some ((seg.frozenRun p).map UInt32.ofNat) ↔
        seg.expandedLength p < 2 ^ 32) := by
  have hruns : ∀ r ∈ seg.frozenRuns lane, r.1 ≠ 0 := fun r hr =>
    hkeys r.1 (map_fst_frozenRuns seg lane ▸ mem_map_of_mem hr)
  have hnodup := seg.nodup_frozenRuns lane
  refine ⟨FrozenIndex.exists_vacant_freeze hruns hnodup, fun key hget => ?_,
    fun i key p hi hstart => ⟨seg.perm_frozenRun p, ?_⟩⟩
  · have hnone (hkey : key ≠ 0) : (seg.freezeIndex lane).probe key = none :=
      FrozenIndex.probe_freeze_eq_none hruns hnodup hkey (notMem_frozenRuns_of_get hget)
    refine ⟨?_, hnone⟩
    by_cases hkey : key = 0
    · rw [hkey]
      exact FrozenIndex.probe_freeze_zero hruns
    · rw [hnone hkey]
      rfl
  · have hrun : (seg.frozenRuns lane)[i]? = some (key, (seg.frozenRun p).map UInt32.ofNat) := by
      rw [frozenRuns, getElem?_map, hi]
      rfl
    rw [← rowStart_frozenRuns] at hstart
    rw [freezeIndex, FrozenIndex.probe_freeze_iff hruns hnodup hrun hstart, length_map,
      length_frozenRun]

/-- Three keys with one home position, posted under one row. -/
def collidingKeys : Segment := { new with main := CandidateIndex.new.insertAll [1, 9, 17] 3 }

theorem collidingKeys_answered :
    (collidingKeys.freezeIndex .main).probe 17 = some [3] ∧
      (collidingKeys.freezeIndex .main).probe 25 = none := by
  have hkeys : (collidingKeys.index .main).keys = [17, 9, 1] := by decide +kernel
  have h := @freezeIndex_answers collidingKeys .main (by simp [hkeys])
  exact ⟨(h.2.2 0 17 (.new 3) (by decide +kernel) (by decide)).2.mpr (by decide),
    (h.2.1 25 (by decide +kernel)).2 (by decide)⟩

/-- One key, with a given posting. -/
def onePosting (p : Posting) : Segment := { new with main := AList.insert 1 p CandidateIndex.new }

/-- The length of a posting of `2 ^ 32` ids wraps to zero. -/
theorem probe_onePosting {p : Posting} (hlen : p.ids.length = 2 ^ 32) :
    ((onePosting p).freezeIndex .main).probe 1 = some [] := by
  have hslots : FrozenIndex.slotsOf ((onePosting p).frozenRuns .main) =
      [⟨1, 0, UInt32.ofNat (p.ids.map UInt32.ofNat).length⟩] := rfl
  have hwraps : UInt32.ofNat (p.ids.map UInt32.ofNat).length = 0 := by
    rw [length_map, hlen]
    decide
  have hcap : FrozenIndex.capacity ((onePosting p).frozenRuns .main).length = 4 := by
    change FrozenIndex.capacity 1 = 4
    norm_num [FrozenIndex.capacity]
  have htable : ((onePosting p).freezeIndex .main).slots =
      [.vacant, ⟨1, 0, 0⟩, .vacant, .vacant] := by
    rw [freezeIndex, FrozenIndex.freeze, hslots, hwraps, hcap]
    change freezeTable FrozenSlot.key 0 (FrozenIndex.home 4) .vacant 4 [⟨1, 0, 0⟩] = _
    decide
  have hfound : probeFrom FrozenSlot.key 0 (fun i => (i + 1) &&& 3) 4
      [.vacant, ⟨1, 0, 0⟩, .vacant, .vacant] (FrozenIndex.home 4 1) 1 = some ⟨1, 0, 0⟩ := by decide
  rw [FrozenIndex.probe, htable]
  simp only [length_cons, length_nil, Nat.reduceAdd, Nat.reduceSub, hfound]
  rfl

theorem full_posting_lost : ∃ p : Posting, p.ids.Pairwise (· < ·) ∧ (∀ id ∈ p.ids, id < 2 ^ 32) ∧
    (onePosting p).main.get 1 = some p ∧
    ((onePosting p).freezeIndex .main).probe 1 ≠
      some (((onePosting p).frozenRun p).map UInt32.ofNat) := by
  obtain ⟨ids, hsorted, hbound, hlen⟩ : ∃ ids : List Nat, ids.Pairwise (· < ·) ∧
      (∀ id ∈ ids, id < 2 ^ 32) ∧ ids.length = 2 ^ 32 :=
    ⟨range (2 ^ 32), pairwise_lt_range, fun _ => mem_range.mp, length_range⟩
  refine ⟨.roaring ids, hsorted, hbound, AList.lookup_insert _, fun h => ?_⟩
  rw [@probe_onePosting (.roaring ids) hlen] at h
  have hnone := congrArg List.length (Option.some.inj h)
  have hrun : (onePosting (.roaring ids)).frozenRun (.roaring ids) = ids := rfl
  rw [hrun, length_map, hlen] at hnone
  simp at hnone

/-! ## the filter of a file -/

theorem filter_of_openSegment {path : String} {data : List UInt8} {m : MmapSegment} {off : Nat}
    {f : SegmentFilter} (hopen : openSegment path data = .ok m) (hoff : readOffset data 40 = .ok off)
    (hfilter : readFilter data off = .ok f) : m.filter = f := by
  simp only [openSegment, bind_eq_ok, hoff, hfilter, Except.ok.injEq, exists_eq_left'] at hopen
  obtain ⟨_, -, _, -, _, -, _, -, _, -, _, -, _, -, _, -, _, -, _, -, _, -, _, -, _, -, _, -, _, -,
    hopen⟩ := hopen
  rw [← Except.ok.inj hopen]

/-- **The filter of a file is the one it was written with**: no key it was
built from is rejected, its bits answer every key alike, and a mapped segment
answers with them unless there are none. -/
theorem filter_reopened (keys : List UInt64) :
    (∀ key ∈ keys, (SegmentFilter.build keys).mayContain key = true) ∧
    ∀ (seg : Segment) (path : String) (m : MmapSegment), seg.filter = some (.build keys) →
      (SegmentFilter.build keys).numBlocks < 2 ^ 32 → seg.writeSegment.length < 2 ^ 64 →
      openSegment path seg.writeSegment = .ok m → ∀ key,
        bloomCheck key m.filter.data m.filter.mask = (SegmentFilter.build keys).mayContain key ∧
        m.mayContain key = (keys.isEmpty || (SegmentFilter.build keys).mayContain key) := by
  refine ⟨fun key => SegmentFilter.mayContain_build, fun seg path m hf hblocks hfile hopen key => ?_⟩
  have hfilter : m.filter = SegmentFilter.build keys := by
    have hread := @readFilter_writeSegment seg (by
      rw [hf]
      rintro f ⟨⟩
      exact ⟨SegmentFilter.length_data_build keys, hblocks⟩)
    rw [mapped, hf] at hread
    exact filter_of_openSegment hopen (seg.readOffset_header hfile (k := 3) (by omega)) hread
  refine ⟨by rw [hfilter]; rfl, ?_⟩
  rw [MmapSegment.mayContain, hfilter]
  cases keys with
  | nil => rfl
  | cons k ks =>
    have hpos : (SegmentFilter.build (k :: ks)).numBlocks ≠ 0 :=
      (Nat.pos_of_isPowerOfTwo (Nat.isPowerOfTwo_nextPowerOfTwo _)).ne'
    rw [if_neg hpos]
    rfl

def filteredBy (keys : List UInt64) : Segment := { new with filter := some (.build keys) }

theorem addressable_filteredBy {keys : List UInt64} (hkeys : keys = [] ∨ keys = [5, 9]) :
    (filteredBy keys).Addressable where
  exact := by rcases hkeys with rfl | rfl <;> decide
  index lane := by rcases hkeys with rfl | rfl <;> cases lane <;> decide
  blocks f hf := by rcases hkeys with rfl | rfl <;> cases hf <;> decide +kernel
  classes := by rcases hkeys with rfl | rfl <;> decide
  logical := by rcases hkeys with rfl | rfl <;> decide
  tags := by rcases hkeys with rfl | rfl <;> decide
  file := by
    rw [length_writeSegment, length_content]
    rcases hkeys with rfl | rfl <;> decide +kernel

theorem openSegment_filteredBy {keys : List UInt64} (hkeys : keys = [] ∨ keys = [5, 9]) :
    openSegment "" (filteredBy keys).writeSegment = .ok (filteredBy keys).mapped := by
  have hk : (filteredBy keys).Kept :=
    { kept_new with
      blocks := by
        rintro f ⟨⟩
        exact ⟨SegmentFilter.length_data_build keys, SegmentFilter.mask_build keys⟩ }
  exact openSegment_writeSegment hk (addressable_filteredBy hkeys) ""

theorem filter_reopened_five : ∀ key ∈ ([5, 9] : List UInt64),
    (filteredBy [5, 9]).mapped.mayContain key = true := by
  intro key hkey
  have ha := @addressable_filteredBy [5, 9] (.inr rfl)
  have h := ((filter_reopened [5, 9]).2 (filteredBy [5, 9]) "" _ rfl (ha.blocks _ rfl) ha.file
    (openSegment_filteredBy (.inr rfl)) key).2
  rw [h, (filter_reopened [5, 9]).1 key hkey, Bool.or_true]

/-- A filter of no keys rejects every key, and the segment read back with it
rejects none. -/
theorem empty_filter_reopened :
    openSegment "" (filteredBy []).writeSegment = .ok (filteredBy []).mapped ∧
      (SegmentFilter.build []).mayContain 5 = false ∧ (filteredBy []).mapped.mayContain 5 = true :=
  ⟨openSegment_filteredBy (.inl rfl), rfl, rfl⟩

end Segment

end ReverseRusty
