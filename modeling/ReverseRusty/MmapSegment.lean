import ReverseRusty.SegmentFile
import ReverseRusty.SegmentMatch

/-!
# ReverseRusty.MmapSegment

A segment read from its file (`storage/segment/mmap*.rs`).  `openSegment`
checks the file and parses its sections; the parsed segment matches titles
like the in-memory one, without groups, and can be copied back into memory.
-/

namespace ReverseRusty

/-- A segment as read from its file. -/
structure MmapSegment where
  formatVersion : Nat
  compilerSemanticsVersion : UInt32
  numQueries : Nat
  cols : ExactColumns
  /-- the placements the open check rebuilt; none in a file without them -/
  placements : List QueryPlacement
  tags : Spans UInt16
  main : FrozenIndex
  broad : FrozenIndex
  hot : FrozenIndex
  filter : SegmentFilter
  classes : List UInt8
  alive : List Bool
  aliveCounter : Nat
  livePhrasePredicates : Nat
  tagSummary : List TagId
  logicalIds : List UInt64
  logicalLocals : List UInt32
deriving DecidableEq

/-! ## opening -/

/-- Read a section. -/
def scanAt {α : Type} (p : Scan α) (data : List UInt8) (off : Nat) : Except String α := do
  let (a, _) ← p data off
  return a

/-- A section offset of the header. -/
def readOffset (data : List UInt8) (pos : Nat) : Except String Nat := do
  let off ← readAt .u64 "truncated u64" data pos
  return off.toNat

def checkEnvelope (path : String) (data : List UInt8) : Except String (Nat × UInt32) := do
  ensure (headerSize + 4 ≤ data.length) "file too small"
  let stored ← readAt .u32 "truncated u32" data (data.length - 4)
  ensure (crc32 (data.take (data.length - 4)) = stored) s!"segment file CRC mismatch: {path}"
  ensure (data.take 4 = magic) "bad magic"
  let version ← readAt .u32 "truncated u32" data 4
  ensure (version ≠ 0) "invalid format version 0"
  ensure (version ≤ 10) s!"unsupported format version {version}"
  let semantics ← readAt .u32 "truncated u32" data 12
  ensure (semantics ≤ currentCompilerSemanticsVersion)
    s!"unsupported compiler semantics version {semantics}"
  return (version.toNat, semantics)

def scanFrozen : Scan FrozenIndex := do
  let slots ← Scan.column FrozenSlot.codec
  let blob ← Scan.column .u32
  return ⟨slots, blob⟩

def readHot (formatVersion : Nat) (data : List UInt8) : Except String FrozenIndex :=
  if 5 ≤ formatVersion then do
    let off ← readOffset data 72
    if off ≠ 0 then scanAt scanFrozen data off else return ⟨[], []⟩
  else return ⟨[], []⟩

def readFilter (data : List UInt8) (off : Nat) : Except String SegmentFilter := do
  let numBlocks ← readAt .u32 "truncated u32" data off
  let mask ← readAt .u64 "truncated u64" data (off + 8)
  return ⟨decodeRun .u64 (numBlocks.toNat * wordsPerBlock) (data.drop (off + 16)),
    numBlocks.toNat, mask⟩

/-- Classes and liveness; a class byte above the version's ceiling is
refused. -/
def scanMeta : Scan (List UInt8 × List UInt8) := do
  let classes ← Scan.column .u8
  let alive ← Scan.column .u8
  return (classes, alive)

def classCeiling (formatVersion : Nat) : UInt8 := if 5 ≤ formatVersion then 4 else 3

def checkClasses (path : String) (formatVersion : Nat) (classes : List UInt8) :
    Except String Unit :=
  match classes.find? (classCeiling formatVersion < ·) with
  | some bad =>
    let ceiling := classCeiling formatVersion
    .error s!"cost-class byte {bad} exceeds format v{formatVersion}'s ceiling {ceiling}: {path}"
  | none => .ok ()

def scanLogical : Scan (List UInt64 × List UInt32) := do
  let ids ← Scan.column .u64
  let locals ← Scan.column .u32
  Scan.check (ensure (ids.length = locals.length) "logical index column length mismatch")
  return (ids, locals)

/-- The reverse index; the first format had none, so it is rebuilt. -/
def readLogical (formatVersion numQueries : Nat) (logical : List UInt64) (data : List UInt8) :
    Except String (List UInt64 × List UInt32) :=
  if 2 ≤ formatVersion then do
    let off ← readOffset data 56
    scanAt scanLogical data off
  else
    let pairs : List (UInt64 ×ₗ Nat) := sorted ((logical.take numQueries).zipIdx.map toLex)
    return (pairs.map fun p => (ofLex p).1, pairs.map fun p => UInt32.ofNat (ofLex p).2)

def scanTags : Scan (Spans UInt16) := do
  let tags ← Count.u16.scanSpans
  Scan.check (ensure (tags.off.length = tags.len.length) "tag column length mismatch")
  return tags

def readTags (formatVersion : Nat) (data : List UInt8) : Except String (Spans UInt16) :=
  if 3 ≤ formatVersion then do
    let off ← readOffset data 64
    scanAt scanTags data off
  else return .none

/-! ## the column checks -/

def validateRow (formatVersion : Nat) (c : ExactColumns) (tags : Spans UInt16) (i : Nat) :
    Except String Unit := do
  ensure (Count.u16.fits c.req i) "segment req column overruns req_blob"
  ensure (Count.u16.fits c.forb i) "segment forb column overruns forb_blob"
  let groupEnd := (c.groupStart[i]?.map UInt32.toNat).getD 0
    + (c.groupCount[i]?.map UInt16.toNat).getD 0
  ensure (groupEnd ≤ c.groups.off.length && groupEnd ≤ c.groups.len.length)
    "segment any-of group window overruns group arrays"
  ensure (formatVersion < 3 || Count.u16.fits tags i) "segment tag column overruns tag_blob"
  if 9 ≤ formatVersion then do
    ensure (Count.u32.fits c.predicate i) "segment compound predicate overruns blob"
    validatePredicate (Count.u32.rowAt c.predicate i)
    ensure (10 ≤ formatVersion || !predicateHasPhrases (Count.u32.rowAt c.predicate i))
      "quoted predicate program requires segment format v10"
  else return ()

/-- Check the columns against each other. -/
def validateColumns (formatVersion numQueries : Nat) (c : ExactColumns) (tags : Spans UInt16) :
    Except String Unit := do
  ensure (numQueries ≤ c.req.off.length && numQueries ≤ c.req.len.length
    && numQueries ≤ c.forb.off.length && numQueries ≤ c.forb.len.length
    && numQueries ≤ c.groupStart.length && numQueries ≤ c.groupCount.length)
    "segment per-query column shorter than num_queries"
  ensure (formatVersion < 3 || numQueries = 0
    || (numQueries ≤ tags.off.length && numQueries ≤ tags.len.length))
    "segment tag column shorter than num_queries"
  ensure (formatVersion < 9 || numQueries = 0
    || (c.predicate.off.length = numQueries && c.predicate.len.length = numQueries))
    "segment compound-predicate column length mismatch"
  (List.range numQueries).forM (validateRow formatVersion c tags)
  ensure (formatVersion < 10 || numQueries = 0
    || (List.range numQueries).any fun i => predicateHasPhrases (Count.u32.rowAt c.predicate i))
    "segment format v10 has no quoted predicate program"
  ensure (c.groups.off.length = c.groups.len.length)
    "segment any-of group_off/group_len length mismatch"
  ensure ((List.range c.groups.off.length).all (Count.u16.fits c.groups))
    "segment any-of group overruns anyof_blob"

/-- **Open a segment file.** -/
def openSegment (path : String) (data : List UInt8) : Except String MmapSegment := do
  let (formatVersion, semantics) ← checkEnvelope path data
  let count ← readAt .u32 "truncated u32" data 8
  let numQueries := count.toNat
  let exactOff ← readOffset data 16
  let mainOff ← readOffset data 24
  let broadOff ← readOffset data 32
  let filterOff ← readOffset data 40
  let metaOff ← readOffset data 48
  let (cols, placements) ← scanAt (scanExact formatVersion numQueries) data exactOff
  let main ← scanAt scanFrozen data mainOff
  let broad ← scanAt scanFrozen data broadOff
  let hot ← readHot formatVersion data
  let filter ← readFilter data filterOff
  let (classes, aliveBytes) ← scanAt scanMeta data metaOff
  checkClasses path formatVersion classes
  let alive := aliveBytes.map fun b => decide (b ≠ 0)
  let (logicalIds, logicalLocals) ← readLogical formatVersion numQueries cols.logical data
  let tags ← readTags formatVersion data
  validateColumns formatVersion numQueries cols tags
  return {
    formatVersion, compilerSemanticsVersion := semantics, numQueries, cols, placements, tags, main,
    broad, hot, filter, classes, alive
    aliveCounter := alive.count true
    livePhrasePredicates := (List.range cols.predicate.off.length).countP fun i =>
      alive.getD i false && predicateHasPhrases (Count.u32.rowAt cols.predicate i)
    tagSummary := sortDedup tags.blob
    logicalIds, logicalLocals }

namespace MmapSegment

/-! ## reading rows -/

def length (m : MmapSegment) : Nat := m.numQueries

/-- Row `i`. -/
def row (m : MmapSegment) (i : Nat) : Row := m.cols.rowAt m.placements m.tags i

def classOf (m : MmapSegment) (i : Nat) : CostClass := .ofByte (m.classes.getD i 0)

def isAlive (m : MmapSegment) (i : Nat) : Bool := m.alive.getD i false

def index (m : MmapSegment) : ProbeLane → FrozenIndex
  | .main => m.main
  | .broad => m.broad
  | .hot => m.hot

def hasHotEntries (m : MmapSegment) : Bool := 0 < m.hot.slots.length

def hasPhrasePredicates (m : MmapSegment) : Bool := m.livePhrasePredicates ≠ 0

/-- The rows of a logical id: one run of the sorted reverse index, between
two partition points. -/
def localsForLogical (m : MmapSegment) (logical : UInt64) : List UInt32 :=
  let lo := partitionPoint (· < logical) m.logicalIds
  let hi := partitionPoint (· ≤ logical) m.logicalIds
  sliceAt m.logicalLocals lo (hi - lo)

/-- Mark a row dead. -/
def tombstone (m : MmapSegment) (i : Nat) : MmapSegment :=
  match m.alive[i]? with
  | none => m
  | some alive =>
    { m with
      alive := m.alive.set i false
      aliveCounter := if alive then m.aliveCounter - 1 else m.aliveCounter
      livePhrasePredicates :=
        if alive && (m.row i).hasPhrases then m.livePhrasePredicates - 1
        else m.livePhrasePredicates }

/-! ## matching -/

section Match

variable (m : MmapSegment) (v : TitleView) (d : Dict) (epoch : UInt32) (lanes : ProbeLanes)
  (pred : TagPredicate) (emission : QueryPlacement → Bool)

def mayContain (key : UInt64) : Bool :=
  if m.filter.numBlocks = 0 then true else bloomCheck key m.filter.data m.filter.mask

/-- What a posted row contributes. -/
def emitRow (i : Nat) : List Nat :=
  if m.isAlive i && (m.row i).verify v pred && emission (m.row i).placement then [i] else []

def probeIds (lane : ProbeLane) (key : UInt64) : List Nat :=
  if m.mayContain key then (((m.index lane).probe key).getD []).map UInt32.toNat else []

def probeAll (lane : ProbeLane) (keys : List UInt64) (s : Visit UInt32 Nat) : Visit UInt32 Nat :=
  keys.foldl (fun s key => visitAll epoch (m.emitRow v pred emission) s (m.probeIds lane key)) s

def matchCollect (seen : List UInt32) : Visit UInt32 Nat :=
  let s : Visit UInt32 Nat := ⟨seen, []⟩
  let s := m.probeAll v epoch pred emission .main (v.keys d .main) s
  let s :=
    if lanes.includeHot && m.hasHotEntries then
      m.probeAll v epoch pred emission .hot (v.keys d .hot) s
    else s
  if lanes.includeBroad then m.probeAll v epoch pred emission .broad (v.keys d .broad) s else s

end Match

end MmapSegment

/-! ## copying back into memory -/

/-- The part of the tag dictionary rows are read with: the value of each
legacy priority tag. -/
structure TagDict where
  priorityValues : List (Option Int64)
deriving DecidableEq, Repr

namespace TagDict

def legacyPriority (d : TagDict) (id : TagId) : Option Int64 := d.priorityValues[id.toNat]?.join

/-- The first legacy priority among a row's tags. -/
def legacyPriorityForTags (d : TagDict) (tags : List TagId) : Int64 :=
  (tags.findSome? d.legacyPriority).getD 0

/-- The priority reads rank a row by: a stored zero stands for the legacy
priority of its tags. -/
def effectivePriority (d : TagDict) (r : Row) : Int64 :=
  if r.priority = 0 then d.legacyPriorityForTags r.tags else r.priority

end TagDict

def CandidateIndex.insertRun (idx : CandidateIndex) (key : UInt64) (ids : List Nat) :
    CandidateIndex :=
  ids.foldl (fun idx id => idx.insertId key id) idx

def FrozenIndex.thaw (f : FrozenIndex) : CandidateIndex :=
  (f.slots.filter fun s => s.key ≠ 0).foldl
    (fun idx s => idx.insertRun s.key
      ((sliceAt f.blob s.offset.toNat s.len.toNat).map UInt32.toNat)) .new

namespace Segment

def liveLogicalIndex (entries : List Entry) : Multimap UInt64 Nat :=
  entries.zipIdx.foldl (fun idx e => if e.1.alive then idx.push e.1.row.logical e.2 else idx) ∅

def fromParts (main broad hot : CandidateIndex) (rows : List (Row × CostClass × Bool)) : Segment :=
  let entries : List Entry := rows.zipIdx.map fun r => ⟨r.1.1, r.1.2.1, r.1.2.2, r.2⟩
  let quotedRows := entries.any fun e => e.row.hasPhrases
  buildFilter {
    entries, quotedRows, main, broad, hot
    aliveCounter := entries.countP Entry.alive
    livePhrasePredicates :=
      if quotedRows then entries.countP fun e => e.alive && e.row.hasPhrases else 0
    filter := none
    tagSummary := none
    logicalIndex := liveLogicalIndex entries
    dupMembers := ∅
    bodyIndex := ∅
    compilerSemanticsVersion := currentCompilerSemanticsVersion }

end Segment

namespace MmapSegment

/-- The rows a copy is made of.  A file without the priority column predates
it, so its rows take the priority of their legacy tags. -/
def copyRows (m : MmapSegment) (tagDict : TagDict) : List (Row × CostClass × Bool) :=
  (List.range m.numQueries).map fun i =>
    let r := m.row i
    let priority :=
      if m.cols.priority.isEmpty then tagDict.legacyPriorityForTags r.tags else r.priority
    ({ r with priority }, m.classOf i, m.isAlive i)

/-- **Copy a segment file back into memory.** -/
def toMemorySegment (m : MmapSegment) (tagDict : TagDict) : Segment :=
  { Segment.fromParts m.main.thaw m.broad.thaw m.hot.thaw (m.copyRows tagDict) with
    compilerSemanticsVersion := m.compilerSemanticsVersion }

end MmapSegment

end ReverseRusty
