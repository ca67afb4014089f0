import ReverseRusty.MmapAccess

/-!
# ReverseRusty.MmapOpened

What opening a segment file establishes (`storage/segment/mmap/open.rs`,
`validate_columns` of `storage/segment/mmap.rs`), read off the checks: the
offset columns reach every row, their windows lie within the blobs, the
stored programs are well formed.

`opened_of_openSegment` collects it.
-/

namespace ReverseRusty

open List
open ReverseRusty.Count (u16 u32)

/-! ## successful readers -/

section Scan

variable {α : Type} {data : List UInt8} {off : Nat}

theorem scanAt_eq_ok {p : Scan α} {a : α} :
    scanAt p data off = .ok a ↔ ∃ off', p data off = .ok (a, off') := by
  unfold scanAt
  rw [ReverseRusty.bind_eq_ok]
  constructor
  · rintro ⟨⟨a', off'⟩, ha, hr⟩
    cases hr
    exact ⟨off', ha⟩
  · rintro ⟨off', ha⟩
    exact ⟨_, ha, rfl⟩

end Scan

variable {formatVersion numQueries off' : Nat}

variable {placements : List QueryPlacement}

theorem length_placements {data : List UInt8} {off : Nat} {c : PlacementColumns}
    (h : scanPlacement formatVersion numQueries data off = .ok ((c, placements), off')) :
    placements = [] ∨ placements.length = numQueries := by
  unfold scanPlacement at h
  split at h
  · simp only [Scan.bind_eq_ok, Scan.pure_eq_ok, Scan.check_eq_ok] at h
    obtain ⟨generation, _, -, numShards, _, -, mode, _, -, positions, _, -, -, _, -, placements', _,
      ⟨hplacements, -⟩, heq⟩ := h
    cases heq
    right
    rw [← (mapM_eq_ok_iff.mp hplacements).length_eq, length_range]
  · rw [Scan.pure_eq_ok] at h
    cases h
    exact .inl rfl

/-- A file before the program column has no programs. -/
theorem predicate_eq_none {data : List UInt8} {off : Nat} {s : Spans UInt32}
    (h : scanPredicate formatVersion data off = .ok (s, off')) (hv : formatVersion < 9) :
    s = .none := by
  rw [scanPredicate, if_neg (by omega), Scan.pure_eq_ok] at h
  exact congrArg Prod.fst h

variable {c : ExactColumns}

theorem scanExact_eq_ok {data : List UInt8} {off : Nat}
    (h : scanExact formatVersion numQueries data off = .ok ((c, placements), off')) :
    (placements = [] ∨ placements.length = numQueries) ∧
      (formatVersion < 9 → c.predicate = .none) := by
  simp only [scanExact, Scan.bind_eq_ok, Scan.pure_eq_ok, Prod.exists] at h
  obtain ⟨_, _, -, _, _, -, _, _, -, _, _, -, _, _, -, _, _, -, _, _, -, _, _, -, _, _, -, _, _, -,
    placement, placements', _, hplacement, _, _, -, predicate, _, hpredicate, heq⟩ := h
  cases heq
  exact ⟨length_placements hplacement, predicate_eq_none hpredicate⟩

/-! ## the opened segment -/

/-- What the open checks say of a parsed file. -/
structure MmapSegment.Opened (m : MmapSegment) : Prop where
  req : m.numQueries ≤ m.cols.req.off.length ∧ m.numQueries ≤ m.cols.req.len.length
  forb : m.numQueries ≤ m.cols.forb.off.length ∧ m.numQueries ≤ m.cols.forb.len.length
  group : m.numQueries ≤ m.cols.groupStart.length ∧ m.numQueries ≤ m.cols.groupCount.length
  reqFits : ∀ i < m.numQueries, u16.fits m.cols.req i = true
  forbFits : ∀ i < m.numQueries, u16.fits m.cols.forb i = true
  groupWindow : ∀ i < m.numQueries, (m.cols.groupStart[i]?.map UInt32.toNat).getD 0
    + (m.cols.groupCount[i]?.map UInt16.toNat).getD 0 ≤ m.cols.groups.off.length
  groupColumns : m.cols.groups.off.length = m.cols.groups.len.length
  groupFits : ∀ k < m.cols.groups.off.length, u16.fits m.cols.groups k = true
  tagFits : ∀ i < m.numQueries, u16.fits m.tags i = true
  predicateFits : ∀ i < m.numQueries, u32.fits m.cols.predicate i = true
  program : ∀ i < m.numQueries,
    validatePredicate (u32.rowAt m.cols.predicate i) = .ok ()
  placements : m.placements = [] ∨ m.placements.length = m.numQueries
  reverse : m.logicalIds.length = m.logicalLocals.length
  filter : m.filter.data.length = m.filter.numBlocks * wordsPerBlock
  /-- the count of live quoted rows -/
  phrases : 0 < m.numQueries → m.livePhrasePredicates =
    (List.range m.numQueries).countP fun i => m.isAlive i && (m.row i).hasPhrases
  /-- no program lies beyond the rows -/
  beyond : 0 < m.numQueries → ∀ i, m.numQueries ≤ i → (m.row i).hasPhrases = false

variable {tags : Spans UInt16}

variable {u : Unit}

theorem validateRow_eq_ok {i : Nat} (h : validateRow formatVersion c tags i = .ok u) :
    u16.fits c.req i = true ∧ u16.fits c.forb i = true ∧
      ((c.groupStart[i]?.map UInt32.toNat).getD 0 + (c.groupCount[i]?.map UInt16.toNat).getD 0
        ≤ c.groups.off.length) ∧
      (3 ≤ formatVersion → u16.fits tags i = true) ∧
      (9 ≤ formatVersion → u32.fits c.predicate i = true ∧
        validatePredicate (u32.rowAt c.predicate i) = .ok ()) := by
  simp only [validateRow, bind_eq_ok, ensure_eq_ok, Bool.and_eq_true, decide_eq_true_eq,
    Bool.or_eq_true] at h
  obtain ⟨-, hreq, -, hforb, -, ⟨hgroup, -⟩, -, htags, hrest⟩ := h
  refine ⟨hreq, hforb, hgroup, fun hv => htags.resolve_left (by omega), fun hv => ?_⟩
  rw [if_pos hv] at hrest
  simp only [bind_eq_ok, ensure_eq_ok] at hrest
  obtain ⟨_, hfits, _, hprogram, -⟩ := hrest
  exact ⟨hfits, hprogram⟩

theorem validateColumns_eq_ok (h : validateColumns formatVersion numQueries c tags = .ok u) :
    (numQueries ≤ c.req.off.length ∧ numQueries ≤ c.req.len.length ∧
      numQueries ≤ c.forb.off.length ∧ numQueries ≤ c.forb.len.length ∧
      numQueries ≤ c.groupStart.length ∧ numQueries ≤ c.groupCount.length) ∧
    (9 ≤ formatVersion → 0 < numQueries →
      c.predicate.off.length = numQueries ∧ c.predicate.len.length = numQueries) ∧
    (∀ i < numQueries, validateRow formatVersion c tags i = .ok ()) ∧
    c.groups.off.length = c.groups.len.length ∧
    ∀ k < c.groups.off.length, u16.fits c.groups k = true := by
  simp only [validateColumns, bind_eq_ok, ensure_eq_ok, Bool.and_eq_true, decide_eq_true_eq,
    Bool.or_eq_true, forM_eq_ok_iff, mem_range, all_eq_true, and_assoc] at h
  obtain ⟨-, hroff, hrlen, hfoff, hflen, hgs, hgc, -, -, -, hpred, -, hrows, -, -, -, hgroups,
    hfits⟩ := h
  refine ⟨⟨hroff, hrlen, hfoff, hflen, hgs, hgc⟩, fun hv hn => ?_, hrows, hgroups, hfits⟩
  exact hpred.resolve_left (by omega)

theorem readLogical_eq_ok {logical : List UInt64} {data : List UInt8} {ids : List UInt64}
    {locals : List UInt32}
    (h : readLogical formatVersion numQueries logical data = .ok (ids, locals)) :
    ids.length = locals.length := by
  unfold readLogical at h
  split at h
  · simp only [bind_eq_ok, scanAt_eq_ok, scanLogical, Scan.bind_eq_ok, Scan.pure_eq_ok,
      Scan.check_eq_ok, ensure_eq_ok, decide_eq_true_eq] at h
    obtain ⟨_, -, _, ids', _, -, locals', _, -, _, _, ⟨hlen, -⟩, heq⟩ := h
    cases heq
    exact hlen
  · cases h
    rw [length_map, length_map]

theorem readTags_eq_ok {data : List UInt8} (h : readTags formatVersion data = .ok tags)
    (hv : formatVersion < 3) : tags = .none := by
  rw [readTags, if_neg (by omega)] at h
  exact (Except.ok.inj h).symm

theorem readFilter_eq_ok {data : List UInt8} {off : Nat} {f : SegmentFilter}
    (h : readFilter data off = .ok f) : f.data.length = f.numBlocks * wordsPerBlock := by
  simp only [readFilter, bind_eq_ok] at h
  obtain ⟨numBlocks, -, mask, -, heq⟩ := h
  cases heq
  exact length_decodeRun _ _

/-- **What opening a file establishes.** -/
theorem opened_of_openSegment {path : String} {data : List UInt8} {m : MmapSegment}
    (h : openSegment path data = .ok m) : m.Opened := by
  simp only [openSegment, bind_eq_ok, Prod.exists, scanAt_eq_ok] at h
  obtain ⟨formatVersion, semantics, -, count, -, exactOff, -, mainOff, -, broadOff, -, filterOff, -,
    metaOff, -, cols, placements, ⟨_, hexact⟩, main, -, broad, -, hot, -, filter, hfilter, classes,
    aliveBytes, -, -, -, ids, locals, hlogical, tags, htags, _, hcols, hm⟩ := h
  cases hm
  obtain ⟨hplacements, hnone⟩ := scanExact_eq_ok hexact
  obtain ⟨⟨hroff, hrlen, hfoff, hflen, hgs, hgc⟩, hpredicate, hrows, hgroups, hgroupFits⟩ :=
    validateColumns_eq_ok hcols
  have hrow := fun i hi => validateRow_eq_ok (hrows i hi)
  -- before the columns existed, every row reads as empty
  have hprogram : ∀ i < count.toNat, u32.fits cols.predicate i = true ∧
      validatePredicate (u32.rowAt cols.predicate i) = .ok () := by
    intro i hi
    by_cases hv : 9 ≤ formatVersion
    · exact (hrow i hi).2.2.2.2 hv
    · rw [hnone (by omega)]
      exact ⟨rfl, rfl⟩
  refine {
    req := ⟨hroff, hrlen⟩
    forb := ⟨hfoff, hflen⟩
    group := ⟨hgs, hgc⟩
    reqFits := fun i hi => (hrow i hi).1
    forbFits := fun i hi => (hrow i hi).2.1
    groupWindow := fun i hi => (hrow i hi).2.2.1
    groupColumns := hgroups
    groupFits := hgroupFits
    tagFits := fun i hi => ?_
    predicateFits := fun i hi => (hprogram i hi).1
    program := fun i hi => (hprogram i hi).2
    placements := hplacements
    reverse := readLogical_eq_ok hlogical
    filter := readFilter_eq_ok hfilter
    phrases := fun hn => ?_
    beyond := fun hn i hi => ?_ }
  · by_cases hv : 3 ≤ formatVersion
    · exact (hrow i hi).2.2.2.1 hv
    · rw [readTags_eq_ok htags (by omega)]
      rfl
  · by_cases hv : 9 ≤ formatVersion
    · simp only [(hpredicate hv hn).1]
      rfl
    · have hpred := hnone (by omega)
      simp only [hpred]
      rw [countP_eq_zero.mpr (by simp [Spans.none]), eq_comm, countP_eq_zero]
      simp [MmapSegment.row, ExactColumns.rowAt, ExactColumns.bodyAt, hpred, Row.hasPhrases,
        Count.rowAt_none, predicateHasPhrases]
  · have hrow : u32.rowAt cols.predicate i = [] := by
      by_cases hv : 9 ≤ formatVersion
      · have hnone' : cols.predicate.len[i]? = none :=
          getElem?_eq_none ((hpredicate hv hn).2.symm ▸ hi)
        rw [Count.rowAt, hnone']
        rfl
      · rw [hnone (by omega), Count.rowAt_none]
    show predicateHasPhrases (u32.rowAt cols.predicate i) = false
    rw [hrow]
    rfl

end ReverseRusty
