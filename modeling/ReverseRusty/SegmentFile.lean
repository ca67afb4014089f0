import ReverseRusty.ExactColumns
import ReverseRusty.Frozen
import ReverseRusty.Lib.Checksum
import ReverseRusty.SegmentKept

/-!
# ReverseRusty.SegmentFile

The segment file (`storage/segment/write.rs`): a header with the offsets of
the sections, the exact columns, the frozen indexes, the anchor filter, the
classes and liveness, the reverse index, the tags, and a checksum behind it
all.

`writeSegment_eq` says where everything stands in the bytes written.
-/

namespace ReverseRusty

open List
open Codec (u32 u64 length_enc)

/-! ## bytes of small data -/

def magic : List UInt8 := [0x50, 0x45, 0x52, 0x43]

def headerSize : Nat := 80

def CostClass.toByte : CostClass → UInt8
  | .A => 0
  | .B => 1
  | .C => 2
  | .D => 3
  | .H => 4

def CostClass.ofByte (b : UInt8) : CostClass :=
  if b = 0 then .A
  else if b = 1 then .B
  else if b = 2 then .C
  else if b = 4 then .H
  else .D

theorem CostClass.ofByte_toByte (c : CostClass) : ofByte c.toByte = c := by
  cases c <;> rfl

def aliveByte (alive : Bool) : UInt8 := if alive then 1 else 0

theorem aliveByte_ne_zero (alive : Bool) : decide (aliveByte alive ≠ 0) = alive := by
  cases alive <;> rfl

namespace Segment

def rows (seg : Segment) : List Row := seg.entries.map Entry.row

/-! ## the version ladder -/

/-- The least layout that keeps every column with something in it. -/
def exactLayout (seg : Segment) : ExactSectionLayout :=
  if seg.quotedRows then .phrasePredicate
  else if seg.rows.any fun r => r.body.predicate ≠ [] then .compoundPredicate
  else if seg.rows.any fun r => r.sourceGeneration ≠ 0 then .sourceGeneration
  else if seg.rows.any fun r => r.placement.mode.toByte ≠ 0 then .ownership
  else if seg.rows.any fun r => r.priority ≠ 0 then .priority
  else .base

def hasHotClass (seg : Segment) : Bool := seg.entries.any fun e => e.cls = .H

def hasClassD (seg : Segment) : Bool := seg.entries.any fun e => e.cls = .D

/-- The version that fences readers without a lane the file needs. -/
def laneFormatVersion (seg : Segment) : Nat :=
  if seg.hasHotClass then 5 else if seg.hasClassD then 4 else 3

def formatVersion (seg : Segment) : Nat :=
  max seg.exactLayout.formatVersion seg.laneFormatVersion

/-! ## the sections -/

/-- The ids under a key as the file keeps them: groups are expanded, since
the format knows none. -/
def frozenRun (seg : Segment) (p : Posting) : List Nat :=
  if seg.hasDupGroups then sorted (p.ids.flatMap fun id => id :: seg.membersOf id) else p.ids

def frozenRuns (seg : Segment) (lane : ProbeLane) : List (UInt64 × List UInt32) :=
  (seg.index lane).entries.map fun e => (e.1, (seg.frozenRun e.2).map UInt32.ofNat)

def freezeIndex (seg : Segment) (lane : ProbeLane) : FrozenIndex := .freeze (seg.frozenRuns lane)

/-- Logical ids and their rows, in order. -/
def logicalPairs (seg : Segment) : List (UInt64 ×ₗ Nat) :=
  sorted (seg.logicalIndex.entries.flatMap fun e => e.2.map fun i => toLex (e.1, i))

end Segment

def FrozenIndex.columns (f : FrozenIndex) : List Column :=
  [⟨FrozenSlot.codec, f.slots⟩, ⟨.u32, f.blob⟩]

/-- The filter section: block count, mask and words; zeros without one. -/
def filterBytes (filter : Option SegmentFilter) : List UInt8 :=
  match filter with
  | some f => u32.enc (UInt32.ofNat f.numBlocks) ++ List.replicate 4 0 ++ u64.enc f.mask
      ++ f.data.flatMap u64.enc
  | none => u32.enc 0 ++ List.replicate 4 0 ++ u64.enc 0

namespace Segment

def metaColumns (seg : Segment) : List Column :=
  [⟨.u8, seg.entries.map fun e => e.cls.toByte⟩, ⟨.u8, seg.entries.map fun e => aliveByte e.alive⟩]

def logicalColumns (seg : Segment) : List Column :=
  [⟨.u64, seg.logicalPairs.map fun p => (ofLex p).1⟩,
    ⟨.u32, seg.logicalPairs.map fun p => UInt32.ofNat (ofLex p).2⟩]

def tagSpans (seg : Segment) : Spans UInt16 := Count.u16.layOut (seg.rows.map Row.tags)

def sectionWriters (seg : Segment) : List (List UInt8 → List UInt8) :=
  [fun w => writeColumns w ((ExactColumns.ofRows seg.rows).columns seg.exactLayout.formatVersion),
    fun w => writeColumns w (seg.freezeIndex .main).columns,
    fun w => writeColumns w (seg.freezeIndex .broad).columns,
    fun w => w ++ filterBytes seg.filter,
    fun w => writeColumns w seg.metaColumns,
    fun w => writeColumns w seg.logicalColumns,
    fun w => writeColumns w (Count.u16.columns seg.tagSpans)]
  ++ if seg.hasHotClass then [fun w => writeColumns w (seg.freezeIndex .hot).columns] else []

/-- The header: magic, versions, row count, and section offsets, `0` where
there is none. -/
def header (seg : Segment) (offsets : List Nat) : List UInt8 :=
  magic ++ u32.enc (UInt32.ofNat seg.formatVersion)
    ++ u32.enc (UInt32.ofNat seg.length) ++ u32.enc seg.compilerSemanticsVersion
    ++ (List.range 8).flatMap fun k => u64.enc (UInt64.ofNat (offsets.getD k 0))

/-- **The bytes of a segment file.** -/
def writeSegment (seg : Segment) : List UInt8 :=
  let s := seg.sectionWriters.foldl Sections.add ⟨List.replicate headerSize 0, []⟩
  -- the header is written over the reserved space once the offsets are known
  let content := seg.header s.offsets ++ s.bytes.drop headerSize
  content ++ u32.enc (crc32 content)

/-! ## where everything stands -/

def sectionBlocks (seg : Segment) : List (List UInt8) :=
  [encodeColumns ((ExactColumns.ofRows seg.rows).columns seg.exactLayout.formatVersion),
    encodeColumns (seg.freezeIndex .main).columns,
    encodeColumns (seg.freezeIndex .broad).columns,
    filterBytes seg.filter,
    encodeColumns seg.metaColumns,
    encodeColumns seg.logicalColumns,
    encodeColumns (Count.u16.columns seg.tagSpans)]
  ++ if seg.hasHotClass then [encodeColumns (seg.freezeIndex .hot).columns] else []

def sectionOffsets (seg : Segment) : List Nat :=
  (rowStarts seg.sectionBlocks).map (headerSize + ·)

theorem length_filterBytes_some (f : SegmentFilter) :
    (filterBytes (some f)).length = 16 + 8 * f.data.length := by
  have hwords : (f.data.flatMap u64.enc).length = f.data.length * 8 :=
    length_flatMap_enc f.data
  have hcount : (u32.enc (UInt32.ofNat f.numBlocks)).length = 4 := length_enc _ _
  have hmask : (u64.enc f.mask).length = 8 := length_enc _ _
  simp only [filterBytes, length_append, length_replicate, hwords, hcount, hmask]
  omega

theorem length_filterBytes_mod (filter : Option SegmentFilter) :
    (filterBytes filter).length % 8 = 0 := by
  cases filter with
  | none => rfl
  | some f =>
    rw [length_filterBytes_some]
    omega

theorem emits_sectionWriters (seg : Segment) :
    List.Forall₂ Emits seg.sectionWriters seg.sectionBlocks := by
  have hfilter : Emits (fun w => w ++ filterBytes seg.filter) (filterBytes seg.filter) :=
    ⟨length_filterBytes_mod _, fun _ _ => rfl⟩
  unfold sectionWriters sectionBlocks
  refine rel_append ?_ ?_
  · exact .cons (emits_writeColumns _) (.cons (emits_writeColumns _) (.cons (emits_writeColumns _)
      (.cons hfilter (.cons (emits_writeColumns _) (.cons (emits_writeColumns _)
        (.cons (emits_writeColumns _) .nil))))))
  · split
    · exact .cons (emits_writeColumns _) .nil
    · exact .nil

theorem length_header (seg : Segment) (offsets : List Nat) :
    (seg.header offsets).length = headerSize := by
  simp only [header, length_append, length_enc, length_flatMap]
  rfl

theorem writeSegment_eq (seg : Segment) :
    seg.writeSegment = (seg.header seg.sectionOffsets ++ seg.sectionBlocks.flatten)
      ++ u32.enc (crc32 (seg.header seg.sectionOffsets ++ seg.sectionBlocks.flatten)) := by
  obtain ⟨hbytes, hoffsets⟩ := foldl_add_sections seg.emits_sectionWriters
    (s := ⟨List.replicate headerSize 0, []⟩) (by rw [length_replicate]; rfl)
  have hdrop : (List.replicate headerSize 0 ++ seg.sectionBlocks.flatten).drop headerSize =
      seg.sectionBlocks.flatten := drop_left' length_replicate
  have hoffs : (seg.sectionWriters.foldl Sections.add ⟨List.replicate headerSize 0, []⟩).offsets =
      seg.sectionOffsets := by
    rw [hoffsets, sectionOffsets, nil_append, length_replicate]
  unfold writeSegment
  simp only [hbytes, hoffs, hdrop]

end Segment

end ReverseRusty
