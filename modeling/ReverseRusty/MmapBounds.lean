import ReverseRusty.BaseSegment
import ReverseRusty.MmapSafety
import ReverseRusty.SegmentBatch

/-!
# ReverseRusty.MmapBounds

The reads of an opened segment file, taken together.  `InBounds` says that
matching, verification, batch evaluation, the lookups and the copy into
memory answer without leaving a column or blob; `inBounds_iff_consistent`
says for which accepted files that holds, also after rows were marked dead.
-/

namespace ReverseRusty

open List

namespace MmapSegment

/-! ## batches -/

def rowView (m : MmapSegment) : RowView where
  size := m.numQueries
  row := m.row
  alive := m.isAlive
  grouped := false
  members _ := []
  postings lane key := m.probeIds lane.index key

section Batch

variable {m : MmapSegment} {data : List UInt8} (ho : m.Opened) (hc : m.Consistent data) {w : Nat}

include ho hc

theorem reads_backend : (m.backend data : BroadBackend w).Reads m.rowView where
  posting lane _ hkey := checkedPosting_eq hc ho lane.index hkey
  posted lane _ hkey := probeIds_lt hc lane.index hkey
  alive _ hi := checkedAlive_eq hi hc
  grouped := rfl
  members := rfl
  member _ _ _ hm := by contradiction
  vacuous i hi lane f := by
    simp only [backend, checkedBody_eq ho hi hc, ok_bind]
    rfl
  logicalId _ hi := checkedLogical_eq hi hc
  placement _ hi := checkedPlacement_eq ho hi
  tags i hi pred := by
    simp only [backend, checkedTags_eq ho hi, ok_bind]
    rfl
  canMatch i hi b := by
    simp only [backend, checkedBody_eq ho hi hc, ok_bind]
    rfl
  eval i hi b pred := by
    simp only [backend, checkedBody_eq ho hi hc, checkedTags_eq ho hi, ok_bind]
    rfl

omit hc in
theorem plain_of_hasPhrasePredicates (hplain : m.hasPhrasePredicates = false) {i : Nat}
    (hi : i < m.numQueries) (halive : m.isAlive i = true) :
    predicateHasPhrases (m.row i).body.predicate = false := by
  have hcount := ho.phrases (Nat.zero_lt_of_lt hi)
  have hzero : m.livePhrasePredicates = 0 := by simpa [hasPhrasePredicates] using hplain
  rw [hzero, eq_comm, countP_eq_zero] at hcount
  simpa [halive, Row.hasPhrases] using hcount i (mem_range.mpr hi)

omit ho hc in
@[simp] theorem live_rowView (i : Nat) : m.rowView.live i = m.isAlive i := Bool.or_false _

omit hc in
theorem plain_rowView (hplain : m.hasPhrasePredicates = false) : m.rowView.Plain where
  checked i hi _ := ho.program i hi
  fits i _ _ := length_predicate_lt m i
  quoted i hi hlive := plain_of_hasPhrasePredicates ho hplain hi (live_rowView i ▸ hlive)

/-- **The columnar kernel answers on a consistent file** without live quoted
rows. -/
theorem exists_evalOneSegment_backend (hplain : m.hasPhrasePredicates = false) (lane : Lane)
    (b : TitleBatch w) (opts : KernelOptions) (pred : TagPredicate)
    (policy : Nat → QueryPlacement → Bool) (epoch : UInt32) {seen : List UInt32}
    (hseen : m.numQueries ≤ seen.length) :
    ∃ out, (m.backend data).evalOneSegment lane b opts pred policy epoch seen = .ok out := by
  obtain ⟨-, out, hout, -⟩ := (reads_backend ho hc).exists_of_plain (plain_rowView ho hplain) lane b
    opts pred policy epoch hseen
  exact ⟨out, hout⟩

end Batch

/-! ## tombstones -/

section Tombstone

variable {m : MmapSegment}

theorem tombstone_eq (m : MmapSegment) (i : Nat) : ∃ counter quoted, m.tombstone i = { m with
    alive := m.alive.set i false, aliveCounter := counter, livePhrasePredicates := quoted } := by
  rw [tombstone]
  cases halive : m.alive[i]? with
  | none =>
    refine ⟨m.aliveCounter, m.livePhrasePredicates, ?_⟩
    rw [set_eq_of_length_le (List.getElem?_eq_none_iff.mp halive)]
  | some alive => exact ⟨_, _, rfl⟩

theorem Consistent.tombstone {data : List UInt8} (hc : m.Consistent data) (i : Nat) :
    (m.tombstone i).Consistent data := by
  obtain ⟨counter, quoted, heq⟩ := m.tombstone_eq i
  rw [heq]
  exact { hc with state := ⟨hc.state.1, by simpa using hc.state.2⟩ }

theorem Opened.tombstone (ho : m.Opened) (i : Nat) : (m.tombstone i).Opened := by
  rw [MmapSegment.tombstone]
  cases halive : m.alive[i]? with
  | none => exact ho
  | some alive =>
    refine { ho with phrases := fun hn => ?_ }
    have hlt := (List.getElem?_eq_some_iff.mp halive).1
    have hget : m.alive.getD i false = alive := by
      rw [getD_eq_getElem?_getD, halive, Option.getD_some]
    have hcount := @Segment.countP_range_set m.alive (fun j => (m.row j).hasPhrases) i m.numQueries hlt
    have hrow : (i < m.numQueries && alive && (m.row i).hasPhrases) =
        (alive && (m.row i).hasPhrases) := by
      by_cases hi : i < m.numQueries
      · simp [hi]
      · simp [ho.beyond hn i (Nat.le_of_not_lt hi)]
    rw [hget, hrow] at hcount
    show (if alive && (m.row i).hasPhrases then m.livePhrasePredicates - 1
      else m.livePhrasePredicates) = (List.range m.numQueries).countP fun j =>
        (m.alive.set i false).getD j false && (m.row j).hasPhrases
    have hphrases : m.livePhrasePredicates = (List.range m.numQueries).countP fun j =>
      m.alive.getD j false && (m.row j).hasPhrases := ho.phrases hn
    rw [← hcount] at hphrases
    rw [hphrases]
    cases alive && (m.row i).hasPhrases with
    | true => rfl
    | false => rfl

end Tombstone

/-! ## all reads -/

/-- Every read of the file stays within the rows, columns and blobs.  The
stamps a match or batch is given have one slot per row at least, and batches
are evaluated on segments that count no live quoted row. -/
structure InBounds (data : List UInt8) (m : MmapSegment) : Prop where
  matching : ∀ v d epoch lanes pred emission, ∀ seen : List UInt32, m.numQueries ≤ seen.length →
    ∃ out, m.checkedMatchCollect data v d epoch lanes pred emission seen = .ok out
  verify : ∀ v pred, ∀ i < m.numQueries, ∃ answer, m.checkedVerify v pred i = .ok answer
  batch : m.hasPhrasePredicates = false → ∀ (w : Nat) (lane : Lane) (b : TitleBatch w) opts pred
    policy epoch, ∀ seen : List UInt32, m.numQueries ≤ seen.length →
      ∃ out, (m.backend data).evalOneSegment lane b opts pred policy epoch seen = .ok out
  classOf : ∀ i, ∃ cls, m.checkedClassOf i = .ok cls
  filter : ∀ key, ∃ answer, m.checkedMayContain data key = .ok answer
  locals : ∀ logical, ∃ rows, m.checkedLocals logical = .ok rows
  toMemory : ∀ tagDict, ∃ seg, m.checkedToMemorySegment tagDict = .ok seg

theorem Consistent.inBounds {m : MmapSegment} {data : List UInt8} (hc : m.Consistent data)
    (ho : m.Opened) : m.InBounds data where
  matching v d epoch lanes pred emission _ hseen :=
    ⟨_, checkedMatchCollect_eq ho hc v d epoch lanes pred emission hseen⟩
  verify v pred _ hi := ⟨_, checkedVerify_eq ho hi hc v pred⟩
  batch hplain _ lane b opts pred policy epoch _ hseen :=
    exists_evalOneSegment_backend ho hc hplain lane b opts pred policy epoch hseen
  classOf := checkedClassOf_eq hc
  filter key := ⟨_, checkedMayContain_eq hc ho key⟩
  locals logical := ⟨_, checkedLocals_eq hc ho logical⟩
  toMemory tagDict := ⟨_, checkedToMemorySegment_eq hc ho tagDict⟩

/-! ## what the reads rely on -/

section Converse

variable {m : MmapSegment} {data : List UInt8}

variable {n i : Nat}

theorem rowNumber_eq_ok {id : UInt32} (h : rowNumber n id = .ok i) : id.toNat < n := by
  by_contra hnot
  rw [rowNumber, if_neg hnot] at h
  contradiction

variable {α : Type}

theorem checkedSlice_eq_ok {blob out : List α} {off len : Nat}
    (h : checkedSlice blob off len = .ok out) :
    off + len ≤ blob.length ∧ out = sliceAt blob off len := by
  by_cases hfits : off + len ≤ blob.length
  · rw [checkedSlice, if_pos hfits] at h
    exact ⟨hfits, (Except.ok.inj h).symm⟩
  · rw [checkedSlice, if_neg hfits] at h
    contradiction

theorem ofOption_eq_ok {x : Option α} {a : α} (h : Checked.ofOption x = .ok a) : x = some a := by
  cases x with
  | none => contradiction
  | some b => exact congrArg some (Except.ok.inj h)

theorem cell_eq_ok {column : List α} {a : α} (h : m.cell column i = .ok a) :
    column[i]? = some a := by
  rw [cell] at h
  split at h
  · exact ofOption_eq_ok h
  · contradiction

theorem le_length_of_getElem? {column : List α} (h : ∀ i < n, ∃ a, column[i]? = some a) :
    n ≤ column.length := by
  by_contra hshort
  obtain ⟨a, ha⟩ := h column.length (by omega)
  rw [getElem?_eq_none (Nat.le_refl _)] at ha
  contradiction

theorem cells_of_checkedRow {tagDict : TagDict} {r : Row × CostClass × Bool}
    (h : m.checkedRow tagDict i = .ok r) :
    ((∃ a, m.cols.reqMask[i]? = some a) ∧ ∃ a, m.cols.forbMask[i]? = some a) ∧
    ((∃ a, m.cols.version[i]? = some a) ∧ ∃ a, m.cols.logical[i]? = some a) ∧
    (∃ a, m.classes[i]? = some a) ∧ ∃ a, m.alive[i]? = some a := by
  simp only [checkedRow, checkedBody, bind_eq_ok] at h
  obtain ⟨_, ⟨_, hreq, _, hforb, -⟩, _, hversion, _, hlogical, _, -, _, -, _, hcls, _, halive, -⟩ := h
  exact ⟨⟨⟨_, cell_eq_ok hreq⟩, _, cell_eq_ok hforb⟩, ⟨⟨_, cell_eq_ok hversion⟩, _,
    cell_eq_ok hlogical⟩, ⟨_, cell_eq_ok hcls⟩, _, ofOption_eq_ok halive⟩

theorem slot_of_checkedThaw {f : FrozenIndex} {idx : CandidateIndex} (h : f.checkedThaw n = .ok idx)
    {s : FrozenSlot} (hs : s ∈ f.slots) (hkey : s.key ≠ 0) :
    s.offset.toNat + s.len.toNat ≤ f.blob.length ∧
      ∀ id ∈ sliceAt f.blob s.offset.toNat s.len.toNat, id.toNat < n := by
  obtain ⟨_, _, hstep⟩ := exists_of_foldlM h (mem_filter.mpr ⟨hs, by simpa using hkey⟩)
  simp only [bind_eq_ok] at hstep
  obtain ⟨ids, hids, rows, hrows, -⟩ := hstep
  obtain ⟨hfits, rfl⟩ := checkedSlice_eq_ok hids
  refine ⟨hfits, fun id hid => ?_⟩
  obtain ⟨i, hi⟩ := exists_of_mapM hrows hid
  exact rowNumber_eq_ok hi

def lastWordKey : UInt64 := 0xFFFFFFFF000001C0

theorem filterWord_lastWordKey (mask : UInt64) :
    blockOffset lastWordKey mask + probeWord lastWordKey 0 = mask.toNat % 2 ^ 32 * 8 + 7 := by
  have hblock : (lastWordKey >>> 32 &&& mask).toNat = mask.toNat % 2 ^ 32 := by
    rw [UInt64.toNat_and, ← Nat.and_two_pow_sub_one_eq_mod, Nat.land_comm]
    rfl
  rw [blockOffset, hblock]
  rfl

theorem InBounds.consistent (hb : m.InBounds data) : m.Consistent data := by
  obtain ⟨seg, hseg⟩ := hb.toMemory ⟨[]⟩
  simp only [checkedToMemorySegment, bind_eq_ok] at hseg
  obtain ⟨rows, hrows, main, hmain, broad, hbroad, hot, hhot, -⟩ := hseg
  have hcells := fun i (hi : i < m.numQueries) =>
    cells_of_checkedRow (exists_of_mapM hrows (mem_range.mpr hi)).choose_spec
  refine ⟨⟨le_length_of_getElem? fun i hi => (hcells i hi).1.1,
    le_length_of_getElem? fun i hi => (hcells i hi).1.2⟩,
    ⟨le_length_of_getElem? fun i hi => (hcells i hi).2.1.1,
      le_length_of_getElem? fun i hi => (hcells i hi).2.1.2⟩,
    ⟨le_length_of_getElem? fun i hi => (hcells i hi).2.2.1,
      le_length_of_getElem? fun i hi => (hcells i hi).2.2.2⟩,
    ?_, fun hblocks => ?_, fun id _ row hmem => ?_⟩
  · intro lane s hs hkey
    cases lane with
    | main => exact slot_of_checkedThaw hmain hs hkey
    | broad => exact slot_of_checkedThaw hbroad hs hkey
    | hot => exact slot_of_checkedThaw hhot hs hkey
  · obtain ⟨answer, hanswer⟩ := hb.filter lastWordKey
    rw [checkedMayContain, if_neg (by omega), numProbes, range_succ_eq_map, checkedProbes,
      bind_eq_ok] at hanswer
    obtain ⟨word, hword, -⟩ := hanswer
    rw [filterWord_lastWordKey] at hword
    by_contra hnot
    rw [filterWord, if_neg ?_] at hword
    · contradiction
    · rw [lastBlock] at hnot
      rw [wordsPerBlock]
      omega
  · obtain ⟨locals, hlocals⟩ := hb.locals id
    simp only [checkedLocals] at hlocals
    split at hlocals
    · simp only [bind_eq_ok] at hlocals
      obtain ⟨ids, hids, hlocals⟩ := hlocals
      obtain ⟨-, rfl⟩ := checkedSlice_eq_ok hids
      obtain ⟨i, hi⟩ := exists_of_mapM hlocals hmem
      exact rowNumber_eq_ok hi
    · contradiction

end Converse

end MmapSegment

/-! ## files the engine writes -/

namespace Segment

section Written

variable {seg : Segment} (hg : seg.Grouped) (hk : seg.Kept) (ha : seg.Addressable)

include hg hk ha

theorem slot_freezeIndex {lane : ProbeLane} {s : FrozenSlot}
    (hs : s ∈ (seg.freezeIndex lane).slots) (hkey : s.key ≠ 0) :
    s.offset.toNat + s.len.toNat ≤ (seg.freezeIndex lane).blob.length ∧
      ∀ id ∈ sliceAt (seg.freezeIndex lane).blob s.offset.toNat s.len.toNat,
        id.toNat < seg.length := by
  obtain ⟨hend, hrun⟩ := FrozenIndex.span_of_mem_slots
    (fun _ => key_ne_zero_of_mem_frozenRuns hk) (seg.nodup_frozenRuns lane)
    (blob_lt_of_addressable ha lane) hs hkey
  refine ⟨hend, fun id hid => ?_⟩
  obtain ⟨⟨key, p⟩, hentry, heq⟩ := mem_map.mp hrun
  rw [freezeIndex, ← (Prod.mk.inj heq).2] at hid
  obtain ⟨i, hi, rfl⟩ := mem_map.mp hid
  have hcarried : i ∈ seg.carried lane key := by
    have hget : (seg.index lane).get key = some p := AList.mem_lookup_iff.mpr hentry
    rw [carried, hget]
    exact hi
  obtain ⟨e, he, -⟩ := hg.mem_carried.mp hcarried
  have hlt : i < seg.length := (List.getElem?_eq_some_iff.mp he).1
  rwa [UInt32.toNat_ofNat_of_lt' (Nat.lt_trans hlt (length_lt_of_addressable ha))]

omit hg in
theorem filter_writeSegment (hpos : 0 < seg.mapped.filter.numBlocks) :
    seg.mapped.lastBlock < seg.mapped.filter.numBlocks ∧
      filterStart seg.writeSegment + 16 + 64 * (seg.mapped.lastBlock + 1) ≤
        seg.writeSegment.length := by
  obtain ⟨hholds, hle⟩ := @holdsAt_block seg 3 (filterBytes seg.filter) rfl
  have hend := hholds.end_le hle
  have hstart : filterStart seg.writeSegment = seg.sectionOffsets.getD 3 0 := by
    have hoff : readOffset seg.writeSegment 40 = .ok (seg.sectionOffsets.getD 3 0) :=
      seg.readOffset_header ha.file (k := 3) (by omega)
    rw [filterStart, hoff]
  cases hf : seg.filter with
  | none => simp [mapped, hf] at hpos
  | some f =>
    obtain ⟨hdata, hmask⟩ := hk.blocks f hf
    have hblocks := ha.blocks f hf
    have hfilter : seg.mapped.filter = f := by simp [mapped, hf]
    have hlast : seg.mapped.lastBlock = f.numBlocks - 1 := by
      rw [MmapSegment.lastBlock, hfilter, hmask, UInt64.toNat_ofNat']
      omega
    rw [hf, length_filterBytes_some, hdata, wordsPerBlock] at hend
    rw [hfilter] at hpos
    rw [hlast, hfilter, hstart]
    omega

/-- **A file the engine writes is consistent.** -/
theorem consistent_mapped : seg.mapped.Consistent seg.writeSegment where
  masks := by simp [mapped, ExactColumns.atVersion, ExactColumns.ofRows, rows, length]
  identity := by simp [mapped, ExactColumns.atVersion, ExactColumns.ofRows, rows, length]
  state := by simp [mapped, length]
  postings lane s hs hkey := by
    cases lane with
    | main => exact slot_freezeIndex hg hk ha hs hkey
    | broad => exact slot_freezeIndex hg hk ha hs hkey
    | hot =>
      rw [MmapSegment.index, mapped] at hs ⊢
      cases hhot : seg.hasHotClass with
      | true =>
        simp only [hhot, if_true] at hs ⊢
        exact slot_freezeIndex hg hk ha hs hkey
      | false => simp [hhot] at hs
  filter hpos := filter_writeSegment hk ha hpos
  reverse id _ row hrow := by
    have hmem : row.toNat ∈ seg.localsForLogical id :=
      localsForLogical_mapped hk ha id ▸ mem_map_of_mem hrow
    obtain ⟨e, he, -⟩ := hk.logical id _ hmem
    exact (List.getElem?_eq_some_iff.mp he).1

end Written

end Segment

/-! ## accepted files -/

namespace MmapSegment

/-- **The accepted files whose reads stay in range**, however many rows were
marked dead since: exactly the consistent ones. -/
theorem inBounds_iff_consistent {path : String} {data : List UInt8} {m : MmapSegment}
    (h : openSegment path data = .ok m) :
    (∀ dead : List Nat, (dead.foldl tombstone m).InBounds data) ↔ m.Consistent data := by
  have ho := opened_of_openSegment h
  constructor
  · intro hb
    exact (hb []).consistent
  · intro hc dead
    -- marking a row dead keeps what opening and the readers rely on
    have hkept : (dead.foldl tombstone m).Consistent data ∧ (dead.foldl tombstone m).Opened :=
      List.foldlRecOn (motive := fun m => m.Consistent data ∧ m.Opened) dead tombstone ⟨hc, ho⟩
        fun _ hm i _ => ⟨hm.1.tombstone i, hm.2.tombstone i⟩
    exact hkept.1.inBounds hkept.2

theorem inBounds_iff_consistent_taggedWord :
    ∃ m, openSegment "seg_000001.seg" Segment.taggedWordSegment.writeSegment = .ok m ∧
      0 < m.numQueries ∧
      ∀ dead : List Nat,
        (dead.foldl tombstone m).InBounds Segment.taggedWordSegment.writeSegment := by
  have hvalid := Segment.taggedWordSegment_produced.valid (.refl _)
  have hopen := Segment.openSegment_writeSegment hvalid.kept Segment.taggedWordSegment_addressable
    "seg_000001.seg"
  refine ⟨_, hopen, by decide, (inBounds_iff_consistent hopen).mpr ?_⟩
  exact Segment.consistent_mapped hvalid.grouped hvalid.kept Segment.taggedWordSegment_addressable

def strayPosting : Segment :=
  { Segment.new with main := CandidateIndex.new.insertId (sigKey [0]) 0 }

theorem strayPosting_kept : strayPosting.Kept where
  sound i e h := by simp [strayPosting, Segment.new] at h
  quoted := rfl
  keys lane key h := by
    cases lane with
    | main =>
      have hkey : key = sigKey [0] := by
        have hkeys : (strayPosting.index .main).keys = [sigKey [0]] := rfl
        rw [hkeys] at h
        exact mem_singleton.mp h
      rw [hkey]
      exact sigKey_ne_zero [0]
    | broad => exact absurd h not_mem_nil
    | hot => exact absurd h not_mem_nil
  alive := rfl
  phrases := rfl
  ascending id := List.Pairwise.nil
  logical id i h := by simp [Segment.localsForLogical, strayPosting, Segment.new] at h
  listed i e h := by simp [strayPosting, Segment.new] at h
  semantics := le_refl _
  blocks f h := by simp [strayPosting, Segment.new] at h

theorem strayPosting_addressable : strayPosting.Addressable where
  exact := by decide
  index lane := by cases lane <;> decide
  blocks f hf := by contradiction
  classes := by decide
  logical := by decide
  tags := by decide
  file := by
    rw [Segment.length_writeSegment, Segment.length_content]
    decide +kernel

/-- **A file whose checksum is right and whose columns pass is opened although
it posts a row it does not have**; a title with that feature then reads past
the columns. -/
theorem openSegment_accepts_strayPosting :
    openSegment "seg_000001.seg" strayPosting.writeSegment = .ok strayPosting.mapped ∧
      strayPosting.mapped.numQueries = 0 ∧
      strayPosting.mapped.probeIds .main (sigKey [0]) = [0] ∧
      ¬strayPosting.mapped.InBounds strayPosting.writeSegment := by
  refine ⟨Segment.openSegment_writeSegment strayPosting_kept strayPosting_addressable _, rfl,
    by decide +kernel, fun hb => ?_⟩
  obtain ⟨out, hout⟩ := hb.matching (.single 0 [0]) Segment.oneWordDict 1 ⟨true, true⟩ .empty
    (fun _ => true) [] (Nat.le_refl 0)
  have hfail : (strayPosting.mapped.checkedMatchCollect strayPosting.writeSegment (.single 0 [0])
    Segment.oneWordDict 1 ⟨true, true⟩ .empty (fun _ => true) []).isOk = false := by decide +kernel
  rw [hout] at hfail
  contradiction

end MmapSegment

end ReverseRusty
