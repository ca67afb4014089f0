import ReverseRusty.BatchKernel
import ReverseRusty.MmapSegment

/-!
# ReverseRusty.MmapAccess

The reads an opened segment file makes (`storage/segment/mmap/ops*.rs`).
The accessors rebuild each column as a slice of one element per query from
the start of its section, follow offsets into blobs and raw pointers into
columns, and use posted ids as row numbers.  Here every such read is
checked: it fails when an index or a window leaves its column, blob or
section, and when a row number is not one of the segment.
-/

namespace ReverseRusty

/-- `len` elements of a blob from `off` on. -/
def checkedSlice {α : Type} (blob : List α) (off len : Nat) : Checked (List α) :=
  if off + len ≤ blob.length then .ok (sliceAt blob off len) else .error .outOfRange

/-- The window of row `i` in columns an older file does not have. -/
def optionalSpan {ω : Type} (c : Count ω) (s : Spans ω) (i : Nat) : Checked (List UInt32) :=
  checkedSlice s.blob ((s.off[i]?.map UInt32.toNat).getD 0) ((s.len[i]?.map c.toNat).getD 0)

/-- A stored id as a row number of a segment of `n` rows. -/
def rowNumber (n : Nat) (id : UInt32) : Checked Nat :=
  if id.toNat < n then .ok id.toNat else .error .outOfRange

def Body.checkedVerify (r : Body) (v : TitleView) : Checked Bool :=
  if ({ r with predicate := [] } : Body).verify v then
    Checked.ofOption (verifyPredicate? r.predicate v)
  else .ok false

def FrozenIndex.checkedThaw (f : FrozenIndex) (n : Nat) : Checked CandidateIndex :=
  (f.slots.filter fun s => s.key ≠ 0).foldlM (fun idx s => do
    let ids ← checkedSlice f.blob s.offset.toNat s.len.toNat
    let rows ← ids.mapM (rowNumber n)
    return idx.insertRun s.key rows) .new

def checkedVisit (epoch : UInt32) (emit : Nat → Checked (List Nat)) (s : Visit UInt32 Nat)
    (i : Nat) : Checked (Visit UInt32 Nat) :=
  match s.stamps[i]? with
  | none => .error .outOfRange
  | some stamp =>
    if stamp = epoch then .ok s
    else do
      let out ← emit i
      return ⟨s.stamps.set i epoch, s.out ++ out⟩

def filterStart (data : List UInt8) : Nat :=
  match readOffset data 40 with
  | .ok off => off
  | .error _ => 0

namespace MmapSegment

section Columns

variable (m : MmapSegment)

/-- Element `i` of a column with one element per query. -/
def cell {α : Type} (column : List α) (i : Nat) : Checked α :=
  if i < m.numQueries then Checked.ofOption column[i]? else .error .outOfRange

/-- The window of row `i`. -/
def checkedSpan {ω : Type} (c : Count ω) (s : Spans ω) (i : Nat) : Checked (List UInt32) := do
  let off ← m.cell s.off i
  let len ← m.cell s.len i
  checkedSlice s.blob off.toNat (c.toNat len)

/-- Any-of group `k` of the file. -/
def checkedGroup (k : Nat) : Checked (List FeatureId) := do
  let off ← Checked.ofOption m.cols.groups.off[k]?
  let len ← Checked.ofOption m.cols.groups.len[k]?
  checkedSlice m.cols.groups.blob off.toNat len.toNat

def checkedGroups (i : Nat) : Checked (List (List FeatureId)) := do
  let start ← m.cell m.cols.groupStart i
  let count ← m.cell m.cols.groupCount i
  (List.range count.toNat).mapM fun k => m.checkedGroup (start.toNat + k)

/-- The columns verification reads of row `i`. -/
def checkedBody (i : Nat) : Checked Body := do
  let reqMask ← m.cell m.cols.reqMask i
  let forbMask ← m.cell m.cols.forbMask i
  let reqTail ← m.checkedSpan .u16 m.cols.req i
  let forbTail ← m.checkedSpan .u16 m.cols.forb i
  let groups ← m.checkedGroups i
  let predicate ← optionalSpan .u32 m.cols.predicate i
  return ⟨reqMask, forbMask, reqTail, forbTail, groups, predicate⟩

def checkedTags (i : Nat) : Checked (List TagId) := optionalSpan .u16 m.tags i

def checkedPlacement (i : Nat) : Checked QueryPlacement :=
  if m.placements.isEmpty then .ok .standalone else Checked.ofOption m.placements[i]?

def checkedLogical (i : Nat) : Checked UInt64 := m.cell m.cols.logical i

def checkedAlive (i : Nat) : Checked Bool := Checked.ofOption m.alive[i]?

def checkedClassOf (i : Nat) : Checked (Option CostClass) :=
  if i < m.numQueries then do
    let byte ← m.cell m.classes i
    return if byte ≤ 4 then some (.ofByte byte) else none
  else .ok none

def checkedLocals (logical : UInt64) : Checked (List Nat) := do
  let lo := partitionPoint (· < logical) m.logicalIds
  let hi := partitionPoint (· ≤ logical) m.logicalIds
  if lo ≤ hi then
    let ids ← checkedSlice m.logicalLocals lo (hi - lo)
    ids.mapM (rowNumber m.numQueries)
  else .error .outOfRange

/-- Row `i` as a copy in memory keeps it. -/
def checkedRow (tagDict : TagDict) (i : Nat) : Checked (Row × CostClass × Bool) := do
  let body ← m.checkedBody i
  let version ← m.cell m.cols.version i
  let logical ← m.checkedLogical i
  let tags ← m.checkedTags i
  let placement ← m.checkedPlacement i
  let cls ← m.cell m.classes i
  let alive ← m.checkedAlive i
  let priority :=
    if m.cols.priority.isEmpty then tagDict.legacyPriorityForTags tags else m.cols.priority.getD i 0
  let sourceGeneration := m.cols.sourceGeneration.getD i 0
  return (⟨body, tags, priority, placement, sourceGeneration, version, logical⟩, .ofByte cls, alive)

/-- Copy the file back into memory. -/
def checkedToMemorySegment (tagDict : TagDict) : Checked Segment := do
  let rows ← (List.range m.numQueries).mapM (m.checkedRow tagDict)
  let main ← m.main.checkedThaw m.numQueries
  let broad ← m.broad.checkedThaw m.numQueries
  let hot ← m.hot.checkedThaw m.numQueries
  return { Segment.fromParts main broad hot rows with
    compilerSemanticsVersion := m.compilerSemanticsVersion }

/-- Verify row `i`. -/
def checkedVerify (v : TitleView) (pred : TagPredicate) (i : Nat) : Checked Bool := do
  let body ← m.checkedBody i
  if !(← body.checkedVerify v) then return false
  if pred.isEmpty then return true
  let tags ← m.checkedTags i
  return pred.matches tags

/-- What a posted row contributes. -/
def checkedEmit (v : TitleView) (pred : TagPredicate) (emission : QueryPlacement → Bool) (i : Nat) :
    Checked (List Nat) := do
  if !(← m.checkedAlive i) then return []
  if !(← m.checkedVerify v pred i) then return []
  if !emission (← m.checkedPlacement i) then return []
  let _ ← m.checkedLogical i
  return [i]

end Columns

section Match

variable (data : List UInt8) (m : MmapSegment)

/-- Word `k` of the filter, read straight from the file. -/
def filterWord (k : Nat) : Checked UInt64 :=
  if k < m.filter.numBlocks * wordsPerBlock ∧ filterStart data + 16 + 8 * (k + 1) ≤ data.length
  then .ok (m.filter.data.getD k 0)
  else .error .outOfRange

def checkedProbes (key : UInt64) : List Nat → Checked Bool
  | [] => .ok true
  | i :: is => do
    let word ← m.filterWord data (blockOffset key m.filter.mask + probeWord key i)
    if word &&& probeMask key i = 0 then return false
    checkedProbes key is

def checkedMayContain (key : UInt64) : Checked Bool :=
  if m.filter.numBlocks = 0 then .ok true else m.checkedProbes data key (List.range numProbes)

def checkedPosting (lane : ProbeLane) (key : UInt64) : Checked (List Nat) := do
  if !(← m.checkedMayContain data key) then return []
  (((m.index lane).probe key).getD []).mapM (rowNumber m.numQueries)

variable (v : TitleView) (d : Dict) (epoch : UInt32) (lanes : ProbeLanes) (pred : TagPredicate)
  (emission : QueryPlacement → Bool)

def checkedProbeAll (lane : ProbeLane) (keys : List UInt64) (s : Visit UInt32 Nat) :
    Checked (Visit UInt32 Nat) :=
  keys.foldlM (fun s key => do
    let ids ← m.checkedPosting data lane key
    ids.foldlM (checkedVisit epoch (m.checkedEmit v pred emission)) s) s

def checkedMatchCollect (seen : List UInt32) : Checked (Visit UInt32 Nat) := do
  let s ← m.checkedProbeAll data v epoch pred emission .main (v.keys d .main) ⟨seen, []⟩
  let s ←
    if lanes.includeHot && m.hasHotEntries then
      m.checkedProbeAll data v epoch pred emission .hot (v.keys d .hot) s
    else pure s
  if lanes.includeBroad then
    m.checkedProbeAll data v epoch pred emission .broad (v.keys d .broad) s
  else pure s

/-- The file as the columnar kernel drives it: postings are expanded, so
there are no groups. -/
def backend {w : Nat} : BroadBackend w where
  posting lane key := m.checkedPosting data lane.index key
  alive := m.checkedAlive
  hasDupGroups := false
  membersOf _ := []
  vacuousAccept lane i f := do
    let body ← m.checkedBody i
    return body.vacuousAccept lane f
  logicalId := m.checkedLogical
  placement := m.checkedPlacement
  passesTags i pred := do
    let tags ← m.checkedTags i
    return pred.matches tags
  canMatchBatch i b := do
    let body ← m.checkedBody i
    return body.canMatchBatch b
  evalInto i b pred := do
    let body ← m.checkedBody i
    let tags ← m.checkedTags i
    evalBatch b body tags pred

end Match

end MmapSegment

end ReverseRusty
