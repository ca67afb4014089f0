import ReverseRusty.MmapOpened

/-!
# ReverseRusty.MmapSafety

Whether the reads of an opened segment file stay in range.  Opening checks
the offset columns and the stored programs, but not everything the readers
rely on: `Consistent` lists the rest, and under it every checked read
answers as the unchecked one of `ReverseRusty.MmapSegment` does.
-/

namespace ReverseRusty

open List

namespace MmapSegment

/-- The last filter block a key can select: keys select by their upper 32
bits under the stored mask. -/
def lastBlock (m : MmapSegment) : Nat := m.filter.mask.toNat % 2 ^ 32

/-- What the readers rely on beyond the checks of opening. -/
structure Consistent (data : List UInt8) (m : MmapSegment) : Prop where
  masks : m.numQueries ≤ m.cols.reqMask.length ∧ m.numQueries ≤ m.cols.forbMask.length
  identity : m.numQueries ≤ m.cols.version.length ∧ m.numQueries ≤ m.cols.logical.length
  state : m.numQueries ≤ m.classes.length ∧ m.numQueries ≤ m.alive.length
  /-- occupied slots point into their blob, at rows of the segment -/
  postings : ∀ lane, ∀ s ∈ (m.index lane).slots, s.key ≠ 0 →
    s.offset.toNat + s.len.toNat ≤ (m.index lane).blob.length ∧
      ∀ id ∈ sliceAt (m.index lane).blob s.offset.toNat s.len.toNat, id.toNat < m.numQueries
  /-- the blocks a key can select are counted and lie in the file -/
  filter : 0 < m.filter.numBlocks → m.lastBlock < m.filter.numBlocks ∧
    filterStart data + 16 + 64 * (m.lastBlock + 1) ≤ data.length
  reverse : ∀ id ∈ m.logicalIds, ∀ row ∈ m.localsForLogical id, row.toNat < m.numQueries

/-! ## rows -/

section Rows

variable {m : MmapSegment} {i : Nat}

variable {α : Type}

theorem cell_eq {column : List α} (h : m.numQueries ≤ column.length) (hi : i < m.numQueries)
    (default : α) : m.cell column i = .ok (column.getD i default) := by
  have hlt : i < column.length := by omega
  rw [cell, if_pos hi, getElem?_eq_getElem hlt, getD_eq_getElem _ _ hlt]
  rfl

theorem getD_map {β : Type} {xs : List α} (f : α → β) (hi : i < xs.length) (default : α)
    (default' : β) : (xs[i]?.map f).getD default' = f (xs.getD i default) := by
  rw [getElem?_eq_getElem hi, getD_eq_getElem _ _ hi]
  rfl

theorem checkedSlice_eq {blob : List α} {off len : Nat} (h : off + len ≤ blob.length) :
    checkedSlice blob off len = .ok (sliceAt blob off len) := if_pos h

variable {ω : Type}

theorem optionalSpan_eq {c : Count ω} {s : Spans ω} (h : c.fits s i = true) :
    optionalSpan c s i = .ok (c.rowAt s i) := by
  rw [Count.fits, decide_eq_true_eq] at h
  exact checkedSlice_eq h

theorem checkedSpan_eq [Inhabited ω] {c : Count ω} {s : Spans ω}
    (hlens : m.numQueries ≤ s.off.length ∧ m.numQueries ≤ s.len.length) (hi : i < m.numQueries)
    (h : c.fits s i = true) : m.checkedSpan c s i = .ok (c.rowAt s i) := by
  rw [← optionalSpan_eq h, checkedSpan, cell_eq hlens.1 hi 0, cell_eq hlens.2 hi default,
    optionalSpan, getD_map UInt32.toNat (by omega) 0, getD_map c.toNat (by omega) default]
  rfl

/-- The stored program is short enough to be read back. -/
theorem length_predicate_lt (m : MmapSegment) (i : Nat) :
    (m.row i).body.predicate.length < 2 ^ 32 := by
  change (Count.u32.rowAt m.cols.predicate i).length < 2 ^ 32
  rw [Count.rowAt, sliceAt, length_take]
  refine Nat.lt_of_le_of_lt (Nat.min_le_left _ _) ?_
  cases m.cols.predicate.len[i]? with
  | none => simp
  | some len => exact len.toNat_lt

variable (ho : m.Opened)

include ho

theorem checkedGroup_eq {k : Nat} (hk : k < m.cols.groups.off.length) :
    m.checkedGroup k = .ok (Count.u16.rowAt m.cols.groups k) := by
  have hlen : k < m.cols.groups.len.length := ho.groupColumns ▸ hk
  rw [← optionalSpan_eq (ho.groupFits k hk), checkedGroup, getElem?_eq_getElem hk,
    getElem?_eq_getElem hlen, optionalSpan, getElem?_eq_getElem hk,
    getElem?_eq_getElem hlen]
  rfl

variable (hi : i < m.numQueries)

include hi

theorem checkedGroups_eq : m.checkedGroups i = .ok (m.cols.groupsAt i) := by
  have hwindow := ho.groupWindow i hi
  rw [getD_map UInt32.toNat (Nat.lt_of_lt_of_le hi ho.group.1) 0,
    getD_map UInt16.toNat (Nat.lt_of_lt_of_le hi ho.group.2) 0] at hwindow
  rw [checkedGroups, cell_eq ho.group.1 hi 0, cell_eq ho.group.2 hi 0, ok_bind, ok_bind,
    ExactColumns.groupsAt, getD_map UInt32.toNat (Nat.lt_of_lt_of_le hi ho.group.1) 0,
    getD_map UInt16.toNat (Nat.lt_of_lt_of_le hi ho.group.2) 0]
  refine mapM_eq_ok_map fun k hk => checkedGroup_eq ho ?_
  rw [mem_range] at hk
  omega

theorem checkedTags_eq : m.checkedTags i = .ok (m.row i).tags := optionalSpan_eq (ho.tagFits i hi)

theorem checkedPlacement_eq : m.checkedPlacement i = .ok (m.row i).placement := by
  change _ = Except.ok (m.placements.getD i .standalone)
  rcases ho.placements with hnil | hlen
  · simp [checkedPlacement, hnil]
  · have hlt : i < m.placements.length := by omega
    have hne : m.placements.isEmpty = false := by
      rw [isEmpty_eq_false_iff, ne_eq, ← length_eq_zero_iff]
      omega
    rw [checkedPlacement, hne, getElem?_eq_getElem hlt, getD_eq_getElem _ _ hlt]
    rfl

theorem checkedVerify_body_eq (v : TitleView) :
    (m.row i).body.checkedVerify v = .ok ((m.row i).body.verify v) := by
  obtain ⟨answer, hanswer⟩ :=
    exists_verifyPredicate?_of_validate (ho.program i hi) (length_predicate_lt m i) v
  have hprogram : verifyPredicate? (m.row i).body.predicate v = some answer := hanswer
  have hsplit : (m.row i).body.verify v =
      (({ (m.row i).body with predicate := [] } : Body).verify v && answer) := by
    simp only [Body.verify, verifyPredicate, hprogram, Option.getD_some, isEmpty_nil,
      Bool.true_or, Bool.and_true]
    cases hempty : (m.row i).body.predicate.isEmpty with
    | false => rw [Bool.false_or]
    | true =>
      rw [List.isEmpty_iff] at hempty
      rw [hempty] at hprogram
      cases hprogram
      rfl
  rw [Body.checkedVerify, hsplit, hprogram]
  cases ({ (m.row i).body with predicate := [] } : Body).verify v with
  | true => rfl
  | false => rfl

variable {data : List UInt8} (hc : m.Consistent data)

include hc

theorem checkedBody_eq : m.checkedBody i = .ok (m.row i).body := by
  simp only [checkedBody, cell_eq hc.masks.1 hi 0, cell_eq hc.masks.2 hi 0,
    checkedSpan_eq ho.req hi (ho.reqFits i hi), checkedSpan_eq ho.forb hi (ho.forbFits i hi),
    checkedGroups_eq ho hi, optionalSpan_eq (ho.predicateFits i hi), ok_bind]
  rfl

omit ho in
theorem checkedLogical_eq : m.checkedLogical i = .ok (m.row i).logical := cell_eq hc.identity.2 hi 0

omit ho in
theorem checkedAlive_eq : m.checkedAlive i = .ok (m.isAlive i) := by
  have hlt : i < m.alive.length := by have := hc.state.2; omega
  rw [checkedAlive, isAlive, getElem?_eq_getElem hlt, getD_eq_getElem _ _ hlt]
  rfl

theorem checkedVerify_eq (v : TitleView) (pred : TagPredicate) :
    m.checkedVerify v pred i = .ok ((m.row i).verify v pred) := by
  simp only [checkedVerify, checkedBody_eq ho hi hc, checkedVerify_body_eq ho hi,
    checkedTags_eq ho hi, ok_bind, Row.verify]
  cases (m.row i).body.verify v with
  | false => rfl
  | true =>
    cases pred.isEmpty with
    | true => rfl
    | false => rfl

theorem checkedEmit_eq (v : TitleView) (pred : TagPredicate) (emission : QueryPlacement → Bool) :
    m.checkedEmit v pred emission i = .ok (m.emitRow v pred emission i) := by
  simp only [checkedEmit, checkedAlive_eq hi hc, checkedVerify_eq ho hi hc,
    checkedPlacement_eq ho hi, checkedLogical_eq hi hc, ok_bind, emitRow]
  cases m.isAlive i with
  | false => rfl
  | true =>
    cases (m.row i).verify v pred with
    | false => rfl
    | true =>
      cases emission (m.row i).placement with
      | false => rfl
      | true => rfl

/-- Row `i` is read as a copy in memory keeps it. -/
theorem checkedRow_eq (tagDict : TagDict) :
    m.checkedRow tagDict i = .ok ({ m.row i with priority :=
      if m.cols.priority.isEmpty then tagDict.legacyPriorityForTags (m.row i).tags
      else (m.row i).priority }, m.classOf i, m.isAlive i) := by
  simp only [checkedRow, checkedBody_eq ho hi hc, cell_eq hc.identity.1 hi 0,
    checkedLogical_eq hi hc, checkedTags_eq ho hi, checkedPlacement_eq ho hi,
    cell_eq hc.state.1 hi 0, checkedAlive_eq hi hc, ok_bind]
  rfl

end Rows

/-! ## postings -/

theorem mapM_rowNumber {n : Nat} {ids : List UInt32} (h : ∀ id ∈ ids, id.toNat < n) :
    ids.mapM (rowNumber n) = .ok (ids.map UInt32.toNat) :=
  mapM_eq_ok_map fun id hid => if_pos (h id hid)

section Postings

variable {m : MmapSegment} {data : List UInt8} (hc : m.Consistent data)

include hc

theorem filterWord_eq (hpos : 0 < m.filter.numBlocks) (key : UInt64) (i : Nat) :
    m.filterWord data (blockOffset key m.filter.mask + probeWord key i) =
      .ok (m.filter.data.getD (blockOffset key m.filter.mask + probeWord key i) 0) := by
  obtain ⟨hlast, hfile⟩ := hc.filter hpos
  have hword := probeWord_lt key i
  have hblock : ((key >>> 32) &&& m.filter.mask).toNat ≤ m.lastBlock := by
    have hhigh : (key >>> 32).toNat < 2 ^ 32 := by
      rw [UInt64.toNat_shiftRight]
      have := key.toNat_lt
      simp only [UInt64.reduceToNat, Nat.reduceMod]
      rw [Nat.shiftRight_eq_div_pow]
      omega
    rw [UInt64.toNat_and, lastBlock, ← Nat.and_two_pow_sub_one_eq_mod,
      ← Nat.mod_eq_of_lt hhigh, ← Nat.and_two_pow_sub_one_eq_mod]
    calc (key >>> 32).toNat &&& (2 ^ 32 - 1) &&& m.filter.mask.toNat
        = (key >>> 32).toNat &&& (m.filter.mask.toNat &&& (2 ^ 32 - 1)) := by
          rw [Nat.land_assoc, Nat.land_comm (2 ^ 32 - 1)]
      _ ≤ m.filter.mask.toNat &&& (2 ^ 32 - 1) := Nat.and_le_right
  rw [filterWord, if_pos]
  rw [blockOffset, wordsPerBlock] at *
  omega

theorem checkedProbes_eq (hpos : 0 < m.filter.numBlocks) (key : UInt64) (is : List Nat) :
    m.checkedProbes data key is = .ok (is.all fun i =>
      m.filter.data.getD (blockOffset key m.filter.mask + probeWord key i) 0 &&& probeMask key i
        ≠ 0) := by
  induction is with
  | nil => rfl
  | cons i is ih =>
    rw [checkedProbes, filterWord_eq hc hpos, ok_bind, all_cons]
    by_cases hmiss : m.filter.data.getD (blockOffset key m.filter.mask + probeWord key i) 0 &&&
        probeMask key i = 0
    · simp only [hmiss, if_true, ne_eq, not_true_eq_false, decide_false, Bool.false_and]
      rfl
    · simp only [hmiss, if_false, ih, ne_eq, not_false_eq_true, decide_true, Bool.true_and]

theorem checkedMayContain_eq (ho : m.Opened) (key : UInt64) :
    m.checkedMayContain data key = .ok (m.mayContain key) := by
  rw [checkedMayContain, mayContain]
  by_cases hzero : m.filter.numBlocks = 0
  · rw [if_pos hzero, if_pos hzero]
  · have hne : m.filter.data.isEmpty = false := by
      rw [isEmpty_eq_false_iff, ← length_pos_iff, ho.filter, wordsPerBlock]
      omega
    rw [if_neg hzero, if_neg hzero, checkedProbes_eq hc (by omega), bloomCheck, hne]
    rfl

variable {key : UInt64}

theorem probe_lt (lane : ProbeLane) (hkey : key ≠ 0) :
    ∀ id ∈ ((m.index lane).probe key).getD [], id.toNat < m.numQueries := by
  intro id hid
  rw [FrozenIndex.probe] at hid
  cases hslot : probeFrom FrozenSlot.key 0 (fun i => (i + 1) &&& ((m.index lane).slots.length - 1))
      (m.index lane).slots.length (m.index lane).slots
      (FrozenIndex.home (m.index lane).slots.length key) key with
  | none => simp [hslot] at hid
  | some slot =>
    obtain ⟨hmem, hslotKey⟩ := mem_of_probeFrom hslot
    obtain ⟨hfits, hids⟩ := hc.postings lane slot hmem (by rw [hslotKey]; exact hkey)
    simp only [hslot, Option.bind_eq_bind, Option.bind_some, if_pos hfits, Option.getD_some] at hid
    exact hids id hid

theorem probeIds_lt (lane : ProbeLane) (hkey : key ≠ 0) :
    ∀ i ∈ m.probeIds lane key, i < m.numQueries := by
  intro i hi
  rw [probeIds] at hi
  split at hi
  · obtain ⟨id, hid, rfl⟩ := mem_map.mp hi
    exact probe_lt hc lane hkey id hid
  · contradiction

theorem checkedPosting_eq (ho : m.Opened) (lane : ProbeLane) (hkey : key ≠ 0) :
    m.checkedPosting data lane key = .ok (m.probeIds lane key) := by
  rw [checkedPosting, checkedMayContain_eq hc ho, probeIds, ok_bind]
  cases m.mayContain key with
  | false => rfl
  | true => exact mapM_rowNumber (probe_lt hc lane hkey)

theorem checkedThaw_eq (lane : ProbeLane) :
    (m.index lane).checkedThaw m.numQueries = .ok (m.index lane).thaw := by
  refine (foldlM_eq_ok_foldl (P := fun _ => True) (fun idx _ s hs => ⟨?_, trivial⟩) trivial).1
  rw [mem_filter, decide_eq_true_eq] at hs
  obtain ⟨hfits, hids⟩ := hc.postings lane s hs.1 hs.2
  rw [checkedSlice_eq hfits, ok_bind, mapM_rowNumber hids]
  rfl

theorem checkedToMemorySegment_eq (ho : m.Opened) (tagDict : TagDict) :
    m.checkedToMemorySegment tagDict = .ok (m.toMemorySegment tagDict) := by
  have hrows := mapM_eq_ok_map fun i (hi : i ∈ List.range m.numQueries) =>
    checkedRow_eq ho (mem_range.mp hi) hc tagDict
  have hmain := checkedThaw_eq hc .main
  have hbroad := checkedThaw_eq hc .broad
  have hhot := checkedThaw_eq hc .hot
  simp only [index] at hmain hbroad hhot
  rw [checkedToMemorySegment, hrows, hmain, hbroad, hhot]
  rfl

theorem checkedClassOf_eq (i : Nat) :
    ∃ cls, m.checkedClassOf i = .ok cls := by
  rw [checkedClassOf]
  by_cases hi : i < m.numQueries
  · rw [if_pos hi, cell_eq hc.state.1 hi 0]
    exact ⟨_, rfl⟩
  · rw [if_neg hi]
    exact ⟨_, rfl⟩

theorem checkedLocals_eq (ho : m.Opened) (logical : UInt64) :
    m.checkedLocals logical = .ok ((m.localsForLogical logical).map UInt32.toNat) := by
  have hle : partitionPoint (· < logical) m.logicalIds ≤
      partitionPoint (· ≤ logical) m.logicalIds :=
    partitionPoint_mono fun id _ hid => by
      simp only [decide_eq_true_eq] at hid ⊢
      exact UInt64.le_of_lt hid
  have hend : partitionPoint (· ≤ logical) m.logicalIds ≤ m.logicalIds.length := partitionPoint_le
  have hreverse := ho.reverse
  simp only [checkedLocals, if_pos hle]
  rw [checkedSlice_eq (by omega), ok_bind]
  refine mapM_rowNumber fun row hrow => ?_
  by_cases hmem : logical ∈ m.logicalIds
  · exact hc.reverse logical hmem row hrow
  · -- an id the column does not hold has an empty run
    have hsame : partitionPoint (· < logical) m.logicalIds =
        partitionPoint (· ≤ logical) m.logicalIds :=
      partitionPoint_congr fun id hid => by
        rw [decide_eq_decide]
        constructor
        · exact UInt64.le_of_lt
        · intro hle'
          exact UInt64.lt_of_le_of_ne hle' fun heq => hmem (heq ▸ hid)
    rw [hsame, Nat.sub_self, sliceAt, take_zero] at hrow
    contradiction

end Postings

/-! ## matching -/

theorem checkedVisit_eq {epoch : UInt32} {emit : Nat → List Nat} {emit' : Nat → Checked (List Nat)}
    {s : Visit UInt32 Nat} {i : Nat} (hi : i < s.stamps.length) (hemit : emit' i = .ok (emit i)) :
    checkedVisit epoch emit' s i = .ok (visitOne epoch emit s i) ∧
      (visitOne epoch emit s i).stamps.length = s.stamps.length := by
  simp only [checkedVisit, visitOne, getElem?_eq_getElem hi, Option.some.injEq, hemit]
  by_cases hstamp : s.stamps[i] = epoch
  · simp [hstamp]
  · simp only [hstamp, if_false, length_set, and_true]
    rfl

section Match

variable {m : MmapSegment} {data : List UInt8} (ho : m.Opened) (hc : m.Consistent data)
  (v : TitleView) (d : Dict) (epoch : UInt32) (lanes : ProbeLanes) (pred : TagPredicate)
  (emission : QueryPlacement → Bool)

include ho hc

theorem checkedProbeAll_eq (lane : ProbeLane) {keys : List UInt64} (hkeys : ∀ key ∈ keys, key ≠ 0)
    {s : Visit UInt32 Nat} (hs : m.numQueries ≤ s.stamps.length) :
    m.checkedProbeAll data v epoch pred emission lane keys s =
        .ok (m.probeAll v epoch pred emission lane keys s) ∧
      m.numQueries ≤ (m.probeAll v epoch pred emission lane keys s).stamps.length := by
  refine foldlM_eq_ok_foldl (P := fun s : Visit UInt32 Nat => m.numQueries ≤ s.stamps.length) ?_ hs
  intro s hs key hkey
  rw [checkedPosting_eq hc ho lane (hkeys key hkey), ok_bind]
  refine foldlM_eq_ok_foldl (P := fun s : Visit UInt32 Nat => m.numQueries ≤ s.stamps.length) ?_ hs
  intro s hs i hi
  have hlt := probeIds_lt hc lane (hkeys key hkey) i hi
  obtain ⟨hvisit, hlen⟩ := @checkedVisit_eq epoch _ _ s i (Nat.lt_of_lt_of_le hlt hs)
    (checkedEmit_eq ho hlt hc v pred emission)
  exact ⟨hvisit, hlen ▸ hs⟩

/-- **Matching a title against a consistent file stays in range.** -/
theorem checkedMatchCollect_eq {seen : List UInt32} (hseen : m.numQueries ≤ seen.length) :
    m.checkedMatchCollect data v d epoch lanes pred emission seen =
      .ok (m.matchCollect v d epoch lanes pred emission seen) := by
  have hprobe := fun lane (s : Visit UInt32 Nat) (hs : m.numQueries ≤ s.stamps.length) =>
    checkedProbeAll_eq ho hc v epoch pred emission lane
      (fun key (hkey : key ∈ v.keys d lane) => ne_zero_of_mem_keys hkey) hs
  obtain ⟨hmain, hlen⟩ := hprobe .main ⟨seen, []⟩ hseen
  rw [checkedMatchCollect, hmain, ok_bind, matchCollect]
  cases hhot : lanes.includeHot && m.hasHotEntries with
  | true =>
    obtain ⟨hrun, hlen⟩ := hprobe .hot _ hlen
    simp only [if_true, hrun, ok_bind]
    cases lanes.includeBroad with
    | true => exact (hprobe .broad _ hlen).1
    | false => rfl
  | false =>
    simp only [Bool.false_eq_true, if_false]
    cases lanes.includeBroad with
    | true => exact (hprobe .broad _ hlen).1
    | false => rfl

end Match

end MmapSegment

end ReverseRusty
