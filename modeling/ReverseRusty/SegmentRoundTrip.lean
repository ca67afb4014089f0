import ReverseRusty.MmapSegment

/-!
# ReverseRusty.SegmentRoundTrip

Writing a segment and opening the file gives the segment back, as its
parsed form (`openSegment_writeSegment`).
-/

namespace ReverseRusty

open List
open ReverseRusty.Count (u16 u32 fits_layOut blob_lt_of_columnsFit)

namespace Segment

/-- Every column is addressed by `u32` offsets and lengths, and the file by
a `u64` one. -/
structure Addressable (seg : Segment) : Prop where
  exact : ColumnsFit ((ExactColumns.ofRows seg.rows).columns seg.formatVersion)
  index : ∀ lane, ColumnsFit (seg.freezeIndex lane).columns
  blocks : ∀ f, seg.filter = some f → f.numBlocks < 2 ^ 32
  classes : ColumnsFit seg.metaColumns
  logical : ColumnsFit seg.logicalColumns
  tags : ColumnsFit (u16.columns seg.tagSpans)
  file : seg.writeSegment.length < 2 ^ 64

/-- The parsed form of a segment's file. -/
def mapped (seg : Segment) : MmapSegment where
  formatVersion := seg.formatVersion
  compilerSemanticsVersion := seg.compilerSemanticsVersion
  numQueries := seg.length
  cols := (ExactColumns.ofRows seg.rows).atVersion seg.formatVersion
  placements := if 7 ≤ seg.formatVersion then seg.rows.map Row.placement else []
  tags := seg.tagSpans
  main := seg.freezeIndex .main
  broad := seg.freezeIndex .broad
  hot := if seg.hasHotClass then seg.freezeIndex .hot else ⟨[], []⟩
  filter := seg.filter.getD ⟨[], 0, 0⟩
  classes := seg.entries.map fun e => e.cls.toByte
  alive := seg.entries.map Entry.alive
  aliveCounter := (seg.entries.map Entry.alive).count true
  livePhrasePredicates :=
    let predicate := ((ExactColumns.ofRows seg.rows).atVersion seg.formatVersion).predicate
    (List.range predicate.off.length).countP fun i =>
      (seg.entries.map Entry.alive).getD i false
        && predicateHasPhrases (u32.rowAt predicate i)
  tagSummary := sortDedup seg.tagSpans.blob
  logicalIds := seg.logicalPairs.map fun p => (ofLex p).1
  logicalLocals := seg.logicalPairs.map fun p => UInt32.ofNat (ofLex p).2

/-! ## versions -/

theorem laneFormatVersion_le (seg : Segment) : seg.laneFormatVersion ≤ 5 := by
  unfold laneFormatVersion
  split
  · exact le_refl 5
  · split <;> omega

theorem three_le_formatVersion (seg : Segment) : 3 ≤ seg.formatVersion := by
  have h : 3 ≤ seg.exactLayout.formatVersion := by
    cases seg.exactLayout <;> decide
  exact Nat.le_trans h (Nat.le_max_left _ _)

theorem formatVersion_le (seg : Segment) : seg.formatVersion ≤ 10 := by
  have hlayout : seg.exactLayout.formatVersion ≤ 10 := by
    cases seg.exactLayout <;> decide
  have hlane := seg.laneFormatVersion_le
  unfold formatVersion
  omega

theorem le_formatVersion_iff (seg : Segment) {n : Nat} (hn : 6 ≤ n) :
    n ≤ seg.formatVersion ↔ n ≤ seg.exactLayout.formatVersion := by
  have hlane := seg.laneFormatVersion_le
  unfold formatVersion
  omega

theorem columns_formatVersion (seg : Segment) (c : ExactColumns) :
    c.columns seg.exactLayout.formatVersion = c.columns seg.formatVersion := by
  simp only [ExactColumns.columns, seg.le_formatVersion_iff (n := 6) (by omega),
    seg.le_formatVersion_iff (n := 7) (by omega),
    seg.le_formatVersion_iff (n := 8) (by omega),
    seg.le_formatVersion_iff (n := 9) (by omega)]

/-! ## the header -/

/-- Everything before the checksum. -/
def content (seg : Segment) : List UInt8 :=
  seg.header seg.sectionOffsets ++ seg.sectionBlocks.flatten

theorem writeSegment_eq_content (seg : Segment) :
    seg.writeSegment = seg.content ++ Codec.u32.enc (crc32 seg.content) := seg.writeSegment_eq

theorem length_content (seg : Segment) :
    seg.content.length = headerSize + seg.sectionBlocks.flatten.length := by
  rw [content, length_append, length_header]

theorem length_writeSegment (seg : Segment) :
    seg.writeSegment.length = seg.content.length + 4 := by
  rw [writeSegment_eq_content, length_append, Codec.length_enc]
  rfl

theorem holdsAt_header (seg : Segment) :
    HoldsAt seg.writeSegment 0 (seg.header seg.sectionOffsets) := by
  rw [writeSegment_eq_content, content, append_assoc]
  exact holdsAt_append [] _ _

theorem holdsAt_block {seg : Segment} {k : Nat} {block : List UInt8}
    (h : seg.sectionBlocks[k]? = some block) :
    HoldsAt seg.writeSegment (seg.sectionOffsets.getD k 0) block ∧
      seg.sectionOffsets.getD k 0 ≤ seg.writeSegment.length := by
  have hk := (List.getElem?_eq_some_iff.mp h).1
  have hoff : seg.sectionOffsets.getD k 0 =
      (seg.header seg.sectionOffsets).length + rowStart seg.sectionBlocks k := by
    rw [getD_eq_getElem?_getD, sectionOffsets, getElem?_map, getElem?_rowStarts hk,
      length_header]
    rfl
  have hend := rowStart_add_length_le h
  rw [hoff]
  refine ⟨?_, ?_⟩
  · rw [writeSegment_eq_content, content]
    exact holdsAt_section h
  · rw [length_writeSegment, length_content, length_header]
    omega

section Header

variable (seg : Segment)

theorem headerSize_le : headerSize ≤ seg.writeSegment.length := by
  rw [length_writeSegment, length_content]
  omega

variable {error : String}

theorem readAt_version :
    readAt .u32 error seg.writeSegment 4 = .ok (UInt32.ofNat seg.formatVersion) := by
  have h := seg.holdsAt_header
  rw [header] at h
  exact readAt_holdsAt h.split.1.split.1.split.1.split.2
    (Nat.le_trans (by decide) seg.headerSize_le)

theorem readAt_count : readAt .u32 error seg.writeSegment 8 = .ok (UInt32.ofNat seg.length) := by
  have h := seg.holdsAt_header
  rw [header] at h
  exact readAt_holdsAt h.split.1.split.1.split.2 (Nat.le_trans (by decide) seg.headerSize_le)

theorem readAt_semantics :
    readAt .u32 error seg.writeSegment 12 = .ok seg.compilerSemanticsVersion := by
  have h := seg.holdsAt_header
  rw [header] at h
  exact readAt_holdsAt h.split.1.split.2 (Nat.le_trans (by decide) seg.headerSize_le)

theorem take_magic : seg.writeSegment.take 4 = magic := by
  have h := seg.holdsAt_header
  rw [header] at h
  exact h.split.1.split.1.split.1.split.1.take

theorem readOffset_header (hfile : seg.writeSegment.length < 2 ^ 64) {k : Nat} (hk : k < 8) :
    readOffset seg.writeSegment (16 + k * 8) = .ok (seg.sectionOffsets.getD k 0) := by
  have h := seg.holdsAt_header
  rw [header] at h
  have hoffs := h.split.2
  have hpiece : HoldsAt seg.writeSegment (16 + k * 8)
      (Codec.u64.enc (UInt64.ofNat (seg.sectionOffsets.getD k 0))) :=
    @HoldsAt.piece _ (fun k => Codec.u64.enc (UInt64.ofNat (seg.sectionOffsets.getD k 0))) 8
      (fun _ => Codec.u64.length_enc _) _ 16 k (List.range 8) k hoffs (getElem?_range hk)
  have hlt : seg.sectionOffsets.getD k 0 < 2 ^ 64 := by
    cases hblock : seg.sectionBlocks[k]? with
    | some block => exact Nat.lt_of_le_of_lt (holdsAt_block hblock).2 hfile
    | none =>
      have hnone : seg.sectionOffsets[k]? = none := by
        rw [List.getElem?_eq_none_iff] at hblock ⊢
        rw [sectionOffsets, length_map, length_rowStarts]
        exact hblock
      rw [getD_eq_getElem?_getD, hnone]
      exact Nat.two_pow_pos 64
  have hle : 16 + k * 8 ≤ seg.writeSegment.length := by
    have := seg.headerSize_le
    simp only [headerSize] at this
    omega
  rw [readOffset, readAt_holdsAt hpiece hle]
  exact congrArg Except.ok (UInt64.toNat_ofNat_of_lt' hlt)

/-- **The envelope of a written file checks out.** -/
theorem checkEnvelope_writeSegment (path : String)
    (hsem : seg.compilerSemanticsVersion ≤ currentCompilerSemanticsVersion) :
    checkEnvelope path seg.writeSegment =
      .ok (seg.formatVersion, seg.compilerSemanticsVersion) := by
  have hlen := seg.length_writeSegment
  have hsize : headerSize + 4 ≤ seg.writeSegment.length := by
    rw [hlen, length_content]
    omega
  have hcrc : readAt .u32 "truncated u32" seg.writeSegment (seg.writeSegment.length - 4) =
      .ok (crc32 seg.content) := by
    have hholds := holdsAt_append seg.content (Codec.u32.enc (crc32 seg.content)) []
    rw [append_nil, ← writeSegment_eq_content] at hholds
    rw [show seg.writeSegment.length - 4 = seg.content.length by omega]
    exact readAt_holdsAt hholds (by omega)
  have htake : seg.writeSegment.take (seg.writeSegment.length - 4) = seg.content := by
    rw [show seg.writeSegment.length - 4 = seg.content.length by omega, writeSegment_eq_content,
      take_left]
  have hmagic := seg.take_magic
  have hle := seg.formatVersion_le
  have hge := seg.three_le_formatVersion
  have hversion : (UInt32.ofNat seg.formatVersion).toNat = seg.formatVersion :=
    UInt32.toNat_ofNat_of_lt' (by simp only [UInt32.size]; omega)
  have hne : UInt32.ofNat seg.formatVersion ≠ 0 := by
    intro hzero
    rw [hzero] at hversion
    simp only [UInt32.toNat_zero] at hversion
    omega
  have hbound : UInt32.ofNat seg.formatVersion ≤ 10 := by
    rw [UInt32.le_iff_toNat_le, hversion]
    exact hle
  simp only [checkEnvelope, hcrc, htake, hmagic, seg.readAt_version, seg.readAt_semantics, ok_bind,
    decide_eq_true hsize, decide_eq_true hne, decide_eq_true hbound, decide_eq_true hsem,
    decide_true, ensure_true, hversion]
  rfl

end Header

/-! ## the sections -/

theorem rowStart_mod_eight {blocks : List (List UInt8)} (h : ∀ b ∈ blocks, b.length % 8 = 0)
    (k : Nat) : rowStart blocks k % 8 = 0 := by
  induction blocks generalizing k with
  | nil => rw [rowStart, take_nil, flatten_nil, length_nil]
  | cons b blocks ih =>
    cases k with
    | zero => rfl
    | succ k =>
      have hb := h b mem_cons_self
      have hblocks := ih (fun b' hb' => h b' (mem_cons_of_mem b hb')) k
      rw [rowStart, take_succ_cons, flatten_cons, length_append]
      rw [rowStart] at hblocks
      omega

theorem length_block_mod {seg : Segment} {block : List UInt8} (h : block ∈ seg.sectionBlocks) :
    block.length % 8 = 0 := by
  obtain ⟨k, hk⟩ := mem_iff_getElem?.mp h
  have hemits := seg.emits_sectionWriters
  have hlt : k < seg.sectionWriters.length := by
    rw [hemits.length_eq]
    exact (List.getElem?_eq_some_iff.mp hk).1
  obtain ⟨hk', rfl⟩ := List.getElem?_eq_some_iff.mp hk
  exact (hemits.get hlt hk').aligned

theorem scanAt_block {seg : Segment} (hfile : seg.writeSegment.length < 2 ^ 64) {k : Nat}
    {block : List UInt8} (h : seg.sectionBlocks[k]? = some block) {α : Type} {p : Scan α} {a : α}
    (hp : Lays p block a) :
    scanAt p seg.writeSegment (seg.sectionOffsets.getD k 0) = .ok a := by
  obtain ⟨hholds, hle⟩ := holdsAt_block h
  have hk := (List.getElem?_eq_some_iff.mp h).1
  have halign : seg.sectionOffsets.getD k 0 % 8 = 0 := by
    have := @rowStart_mod_eight seg.sectionBlocks (fun b hb => length_block_mod hb) k
    rw [getD_eq_getElem?_getD, sectionOffsets, getElem?_map, getElem?_rowStarts hk]
    simp only [Option.map_some, Option.getD_some, headerSize]
    omega
  rw [scanAt, hp.reads _ _ hfile hle halign hholds]
  rfl

section Sections

variable {seg : Segment} (ha : seg.Addressable)

include ha

theorem scanAt_exact :
    scanAt (scanExact seg.formatVersion seg.length) seg.writeSegment
        (seg.sectionOffsets.getD 0 0) =
      .ok (seg.mapped.cols, seg.mapped.placements) := by
  have hlays := lays_scanExact ha.exact
  rw [rows, length_map] at hlays
  have hblock : seg.sectionBlocks[0]? = some (encodeColumns
      ((ExactColumns.ofRows seg.rows).columns seg.formatVersion)) := by
    rw [← columns_formatVersion]
    rfl
  exact scanAt_block ha.file hblock hlays

theorem lays_scanFrozen (lane : ProbeLane) :
    Lays scanFrozen (encodeColumns (seg.freezeIndex lane).columns) (seg.freezeIndex lane) := by
  have h := ha.index lane
  simp only [FrozenIndex.columns, columnsFit_cons] at h
  exact .column h.1 (.column h.2.1 (lays_done _))

theorem scanAt_main : scanAt scanFrozen seg.writeSegment (seg.sectionOffsets.getD 1 0) =
    .ok (seg.freezeIndex .main) := scanAt_block ha.file rfl (lays_scanFrozen ha .main)

theorem scanAt_broad : scanAt scanFrozen seg.writeSegment (seg.sectionOffsets.getD 2 0) =
    .ok (seg.freezeIndex .broad) := scanAt_block ha.file rfl (lays_scanFrozen ha .broad)

theorem readHot_writeSegment : readHot seg.formatVersion seg.writeSegment = .ok seg.mapped.hot := by
  have hoff := seg.readOffset_header ha.file (k := 7) (by omega)
  unfold readHot
  cases hhot : seg.hasHotClass with
  | true =>
    have hversion : 5 ≤ seg.formatVersion := by
      have hlane : seg.laneFormatVersion = 5 := by rw [laneFormatVersion, hhot, if_pos rfl]
      exact hlane ▸ Nat.le_max_right _ _
    have hblock : seg.sectionBlocks[7]? =
        some (encodeColumns (seg.freezeIndex .hot).columns) := by
      rw [sectionBlocks, hhot]
      rfl
    have hne : seg.sectionOffsets.getD 7 0 ≠ 0 := by
      have hk := (List.getElem?_eq_some_iff.mp hblock).1
      rw [getD_eq_getElem?_getD, sectionOffsets, getElem?_map, getElem?_rowStarts hk]
      simp [headerSize]
    rw [if_pos hversion, hoff, ok_bind, if_pos hne, mapped, hhot, if_pos rfl]
    exact scanAt_block ha.file hblock (lays_scanFrozen ha .hot)
  | false =>
    have hzero : seg.sectionOffsets.getD 7 0 = 0 := by
      rw [sectionOffsets, sectionBlocks, hhot]
      rfl
    rw [mapped, hhot]
    split
    · rw [hoff, ok_bind, hzero]
      rfl
    · rfl

omit ha in
theorem readFilter_writeSegment
    (hblocks : ∀ f, seg.filter = some f →
      f.data.length = f.numBlocks * wordsPerBlock ∧ f.numBlocks < 2 ^ 32) :
    readFilter seg.writeSegment (seg.sectionOffsets.getD 3 0) = .ok seg.mapped.filter := by
  obtain ⟨hholds, hle⟩ := @holdsAt_block seg 3 (filterBytes seg.filter) rfl
  generalize seg.sectionOffsets.getD 3 0 = off at hholds hle
  unfold readFilter
  rw [mapped]
  cases hf : seg.filter with
  | none =>
    rw [hf] at hholds
    have hmask : HoldsAt seg.writeSegment (off + 8) (Codec.u64.enc 0) := hholds.split.2
    have hend := hholds.split.1.end_le hle
    rw [readAt_holdsAt hholds.split.1.split.1 hle, ok_bind, readAt_holdsAt hmask hend]
    rfl
  | some f =>
    rw [hf, filterBytes] at hholds
    obtain ⟨hdata, hlt⟩ := hblocks f hf
    have hcount : (UInt32.ofNat f.numBlocks).toNat = f.numBlocks := UInt32.toNat_ofNat_of_lt' hlt
    have hmask : HoldsAt seg.writeSegment (off + 8) (Codec.u64.enc f.mask) :=
      hholds.split.1.split.2
    have hwords : HoldsAt seg.writeSegment (off + 16) (f.data.flatMap Codec.u64.enc) :=
      hholds.split.2
    have hend := hholds.split.1.split.1.end_le hle
    obtain ⟨rest, hrest⟩ := hwords
    rw [readAt_holdsAt hholds.split.1.split.1.split.1 hle, ok_bind, readAt_holdsAt hmask hend,
      ok_bind, hcount, ← hdata, ← hrest, decodeRun_append]
    rfl

theorem scanAt_meta : scanAt scanMeta seg.writeSegment (seg.sectionOffsets.getD 4 0) =
    .ok (seg.entries.map fun e => e.cls.toByte, seg.entries.map fun e => aliveByte e.alive) := by
  have h := ha.classes
  simp only [metaColumns, columnsFit_cons] at h
  refine @scanAt_block seg ha.file 4 (encodeColumns seg.metaColumns) rfl _ _ _ ?_
  exact .column h.1 (.column h.2.1 (lays_done _))

omit ha in
theorem checkClasses_writeSegment (path : String) :
    checkClasses path seg.formatVersion (seg.entries.map fun e => e.cls.toByte) = .ok () := by
  have hnone : (seg.entries.map fun e => e.cls.toByte).find?
      (classCeiling seg.formatVersion < ·) = none := by
    rw [find?_eq_none]
    intro b hb
    obtain ⟨e, he, rfl⟩ := mem_map.mp hb
    rw [decide_eq_true_eq, UInt8.not_lt]
    cases hhot : seg.hasHotClass with
    | true =>
      have hversion : 5 ≤ seg.formatVersion := by
        have hlane : seg.laneFormatVersion = 5 := by rw [laneFormatVersion, hhot, if_pos rfl]
        exact hlane ▸ Nat.le_max_right _ _
      rw [classCeiling, if_pos hversion]
      cases e.cls <;> decide
    | false =>
      have hcls : e.cls ≠ .H := by
        rw [hasHotClass, any_eq_false] at hhot
        simpa using hhot e he
      have hceil : 3 ≤ classCeiling seg.formatVersion := by
        unfold classCeiling
        split <;> decide
      refine UInt8.le_trans ?_ hceil
      cases hc : e.cls with
      | H => exact absurd hc hcls
      | A | B | C | D => decide
  rw [checkClasses, hnone]

theorem readLogical_writeSegment (logical : List UInt64) :
    readLogical seg.formatVersion seg.length logical seg.writeSegment =
      .ok (seg.mapped.logicalIds, seg.mapped.logicalLocals) := by
  have hversion : 2 ≤ seg.formatVersion := Nat.le_trans (by decide) seg.three_le_formatVersion
  have h := ha.logical
  simp only [logicalColumns, columnsFit_cons] at h
  rw [readLogical, if_pos hversion, seg.readOffset_header ha.file (k := 5) (by omega), ok_bind]
  refine @scanAt_block seg ha.file 5 (encodeColumns seg.logicalColumns) rfl _ _ _ ?_
  exact .column h.1 (.column h.2.1 (.bind_nil (lays_check (ensure_of (by simp) _)) (lays_done _)))

theorem readTags_writeSegment :
    readTags seg.formatVersion seg.writeSegment = .ok seg.tagSpans := by
  rw [readTags, if_pos seg.three_le_formatVersion,
    seg.readOffset_header ha.file (k := 6) (by omega), ok_bind]
  refine @scanAt_block seg ha.file 6 (encodeColumns (u16.columns seg.tagSpans)) rfl _ _ _ ?_
  rw [← append_nil (u16.columns seg.tagSpans)]
  refine .columns (Count.lays_scanSpans ha.tags) (.bind_nil (lays_check (ensure_of ?_ _)) (lays_done _))
  simp [tagSpans]

end Sections

/-! ## the column checks -/

theorem leavesDefaults (seg : Segment) : LeavesDefaults seg.formatVersion seg.rows := by
  have hlayout : seg.exactLayout.formatVersion ≤ seg.formatVersion := Nat.le_max_left _ _
  have hnone : ∀ {p : Row → Bool}, ¬ seg.rows.any p = true → ∀ r ∈ seg.rows, p r = false := by
    intro p hp r hr
    rw [Bool.not_eq_true, any_eq_false] at hp
    exact Bool.eq_false_iff.mpr (hp r hr)
  unfold exactLayout at hlayout
  constructor
  · split_ifs at hlayout with h1 h2 h3 h4 h5
    iterate 5 exact .inl (Nat.le_trans (by decide) hlayout)
    exact .inr fun r hr => by simpa using hnone h5 r hr
  · split_ifs at hlayout with h1 h2 h3 h4 h5
    iterate 4 exact .inl (Nat.le_trans (by decide) hlayout)
    all_goals
      refine .inr fun r hr => QueryPlacement.eq_standalone ?_
      have hmode := hnone h4 r hr
      cases hm : r.placement.mode <;> simp [hm, PlacementMode.toByte] at hmode ⊢
  · split_ifs at hlayout with h1 h2 h3 h4 h5
    iterate 3 exact .inl (Nat.le_trans (by decide) hlayout)
    all_goals exact .inr fun r hr => by simpa using hnone h3 r hr
  · split_ifs at hlayout with h1 h2 h3 h4 h5
    iterate 2 exact .inl (Nat.le_trans (by decide) hlayout)
    all_goals exact .inr fun r hr => by simpa using hnone h2 r hr

theorem ten_le_formatVersion_iff (seg : Segment) :
    10 ≤ seg.formatVersion ↔ seg.quotedRows = true := by
  rw [seg.le_formatVersion_iff (by omega), exactLayout]
  cases seg.quotedRows with
  | true => simp [ExactSectionLayout.formatVersion]
  | false =>
    simp only [Bool.false_eq_true, if_false, iff_false]
    split_ifs <;> simp [ExactSectionLayout.formatVersion]

section Checks

variable {seg : Segment} (hk : seg.Kept)

include hk

variable {r : Row}

theorem Kept.row_sound (h : r ∈ seg.rows) : r.Sound := by
  obtain ⟨e, he, rfl⟩ := mem_map.mp h
  obtain ⟨i, hi⟩ := mem_iff_getElem?.mp he
  exact hk.sound i e hi

theorem Kept.ten_le_of_hasPhrases (h : r ∈ seg.rows) (hp : r.hasPhrases = true) :
    10 ≤ seg.formatVersion := by
  rw [ten_le_formatVersion_iff, hk.quoted, any_eq_true]
  obtain ⟨e, he, rfl⟩ := mem_map.mp h
  exact ⟨e, he, hp⟩

variable (ha : seg.Addressable)

include ha

theorem predicateAt_mapped {i : Nat} (h : seg.rows[i]? = some r) :
    u32.rowAt seg.mapped.cols.predicate i = r.body.predicate :=
  congrArg Body.predicate (ExactColumns.bodyAt_ofRows ha.exact h
    (hk.row_sound (mem_of_getElem? h)).body.fits seg.leavesDefaults)

theorem validateRow_mapped {i : Nat} (h : seg.rows[i]? = some r) :
    validateRow seg.formatVersion seg.mapped.cols seg.tagSpans i = .ok () := by
  have hmem := mem_of_getElem? h
  have hsound := hk.row_sound hmem
  have hprogram := predicateAt_mapped hk ha h
  obtain ⟨hstart, hcount⟩ := ExactColumns.groupWindow_ofRows ha.exact h hsound.body.fits
  have hfit := ha.exact
  simp only [ExactColumns.columns, columnsFit_cons, columnsFit_append] at hfit
  obtain ⟨-, -, hreq, hforb, -, -, hgroups, -, -, -, -, -, hpredicate⟩ := hfit
  have hreqFits : u16.fits seg.mapped.cols.req i = true :=
    fits_layOut (ExactColumns.getElem?_map_rows h fun r => r.body.reqTail)
      hsound.body.reqTail (blob_lt_of_columnsFit hreq)
  have hforbFits : u16.fits seg.mapped.cols.forb i = true :=
    fits_layOut (ExactColumns.getElem?_map_rows h fun r => r.body.forbTail)
      hsound.body.forbTail (blob_lt_of_columnsFit hforb)
  have htagFits : u16.fits seg.tagSpans i = true :=
    fits_layOut (ExactColumns.getElem?_map_rows h Row.tags) hsound.tags
      (blob_lt_of_columnsFit ha.tags)
  have hwindow : rowStart (seg.rows.map fun r => r.body.groups) i + r.body.groups.length ≤
      (seg.rows.flatMap fun r => r.body.groups).length :=
    rowStart_add_length_le (ExactColumns.getElem?_map_rows h fun r => r.body.groups)
  have hwindowOff : seg.mapped.cols.groups.off.length =
      (seg.rows.flatMap fun r => r.body.groups).length := Count.length_off_layOut _
  have hwindowLen : seg.mapped.cols.groups.len.length =
      (seg.rows.flatMap fun r => r.body.groups).length := Count.length_len_layOut _
  have hstart' : (seg.mapped.cols.groupStart[i]?.map UInt32.toNat).getD 0 =
      rowStart (seg.rows.map fun r => r.body.groups) i := hstart
  have hcount' : (seg.mapped.cols.groupCount[i]?.map UInt16.toNat).getD 0 =
      r.body.groups.length := hcount
  have hquoted : (decide (10 ≤ seg.formatVersion) || !predicateHasPhrases r.body.predicate) =
      true := by
    cases hp : predicateHasPhrases r.body.predicate with
    | false => simp
    | true => rw [decide_eq_true (hk.ten_le_of_hasPhrases hmem hp), Bool.true_or]
  unfold validateRow
  simp only [hreqFits, hforbFits, htagFits, hstart', hcount', hwindowOff, hwindowLen,
    decide_eq_true hwindow, Bool.or_true, Bool.and_self, ensure_true, ok_bind, hprogram,
    hsound.body.checked, hquoted]
  split
  · next hv =>
    have hpredFits : u32.fits seg.mapped.cols.predicate i = true := by
      rw [if_pos hv] at hpredicate
      simp only [mapped, ExactColumns.atVersion, if_pos hv]
      exact fits_layOut (ExactColumns.getElem?_map_rows h fun r => r.body.predicate)
        hsound.body.predicate (blob_lt_of_columnsFit hpredicate)
    rw [hpredFits, ensure_true]
    rfl
  · rfl

theorem validateColumns_mapped :
    validateColumns seg.formatVersion seg.length seg.mapped.cols seg.tagSpans = .ok () := by
  have hlen : seg.rows.length = seg.length := length_map _
  have hcolumns : (decide (seg.length ≤ seg.mapped.cols.req.off.length)
      && decide (seg.length ≤ seg.mapped.cols.req.len.length)
      && decide (seg.length ≤ seg.mapped.cols.forb.off.length)
      && decide (seg.length ≤ seg.mapped.cols.forb.len.length)
      && decide (seg.length ≤ seg.mapped.cols.groupStart.length)
      && decide (seg.length ≤ seg.mapped.cols.groupCount.length)) = true := by
    simp [mapped, ExactColumns.atVersion, ExactColumns.ofRows, hlen]
  have htags : (decide (seg.length ≤ seg.tagSpans.off.length)
      && decide (seg.length ≤ seg.tagSpans.len.length)) = true := by
    simp [tagSpans, hlen]
  have hpredicates : (decide (seg.formatVersion < 9) || decide (seg.length = 0)
      || (decide (seg.mapped.cols.predicate.off.length = seg.length)
        && decide (seg.mapped.cols.predicate.len.length = seg.length))) = true := by
    by_cases hv : 9 ≤ seg.formatVersion
    · simp [mapped, ExactColumns.atVersion, ExactColumns.ofRows, hlen, hv]
    · simp [Nat.lt_of_not_le hv]
  have hrows : (List.range seg.length).forM
      (validateRow seg.formatVersion seg.mapped.cols seg.tagSpans) = .ok () := by
    refine forM_eq_ok_iff.mpr fun i hi => ?_
    have hlt : i < seg.rows.length := hlen ▸ mem_range.mp hi
    exact validateRow_mapped hk ha (getElem?_eq_getElem hlt)
  have hquoted : (decide (seg.formatVersion < 10) || decide (seg.length = 0)
      || (List.range seg.length).any fun i =>
        predicateHasPhrases (u32.rowAt seg.mapped.cols.predicate i)) = true := by
    by_cases hv : 10 ≤ seg.formatVersion
    · have hany := (seg.ten_le_formatVersion_iff).mp hv
      rw [hk.quoted, any_eq_true] at hany
      obtain ⟨e, he, hphrases⟩ := hany
      obtain ⟨i, hi⟩ := mem_iff_getElem?.mp he
      have hrow : seg.rows[i]? = some e.row := by rw [rows, getElem?_map, hi]; rfl
      rw [Bool.or_eq_true, any_eq_true]
      refine .inr ⟨i, mem_range.mpr (List.getElem?_eq_some_iff.mp hi).1, ?_⟩
      rw [predicateAt_mapped hk ha hrow]
      exact hphrases
    · simp [Nat.lt_of_not_le hv]
  have hgroups : (List.range seg.mapped.cols.groups.off.length).all
      (u16.fits seg.mapped.cols.groups) = true := by
    have hfit := ha.exact
    simp only [ExactColumns.columns, columnsFit_cons, columnsFit_append] at hfit
    obtain ⟨-, -, -, -, -, -, hgroups, -⟩ := hfit
    rw [all_eq_true]
    intro k hk'
    have hlt : k < (seg.rows.flatMap fun r => r.body.groups).length :=
      Count.length_off_layOut (c := u16) (seg.rows.flatMap fun r => r.body.groups) ▸
        mem_range.mp hk'
    have hget := getElem?_eq_getElem hlt
    obtain ⟨r, hr, hgroup⟩ := mem_flatMap.mp (mem_of_getElem? hget)
    exact fits_layOut hget ((hk.row_sound hr).body.group _ hgroup)
      (blob_lt_of_columnsFit hgroups)
  have hgroupLen : seg.mapped.cols.groups.off.length = seg.mapped.cols.groups.len.length := by
    simp [mapped, ExactColumns.atVersion, ExactColumns.ofRows]
  unfold validateColumns
  rw [hcolumns, htags, hpredicates, hrows, hquoted, hgroups, decide_eq_true hgroupLen]
  simp

/-- **A written file opens**, to the parsed form of the segment. -/
theorem openSegment_writeSegment (path : String) :
    openSegment path seg.writeSegment = .ok seg.mapped := by
  have hcount : (UInt32.ofNat seg.length).toNat = seg.length := by
    have hclasses := ha.classes
    simp only [metaColumns, columnsFit_cons, length_map] at hclasses
    exact UInt32.toNat_ofNat_of_lt' hclasses.1
  have halive : (seg.entries.map fun e => aliveByte e.alive).map (fun b => decide (b ≠ 0)) =
      seg.entries.map Entry.alive := by
    simp only [map_map, Function.comp_def, aliveByte_ne_zero]
  have hoff : ∀ k < 8, readOffset seg.writeSegment (16 + k * 8) =
      .ok (seg.sectionOffsets.getD k 0) := fun _ hk' => seg.readOffset_header ha.file hk'
  unfold openSegment
  rw [seg.checkEnvelope_writeSegment path hk.semantics, ok_bind]
  simp only [seg.readAt_count, hcount, ok_bind, hoff 0 (by omega), hoff 1 (by omega),
    hoff 2 (by omega), hoff 3 (by omega), hoff 4 (by omega), scanAt_exact ha, scanAt_main ha,
    scanAt_broad ha, readHot_writeSegment ha, readFilter_writeSegment fun f hf => ⟨(hk.blocks f hf).1, ha.blocks f hf⟩, scanAt_meta ha,
    checkClasses_writeSegment, readLogical_writeSegment ha, readTags_writeSegment ha,
    validateColumns_mapped hk ha, halive]
  rfl

end Checks

end Segment

end ReverseRusty
