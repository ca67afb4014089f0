import ReverseRusty.Lib.Slice
import ReverseRusty.Lib.TopK

/-!
# ReverseRusty.Ranked

Ranked percolation over shards (`collect.rs`, `collect/top_k.rs`,
`cluster/coordinator/ranked.rs`).

* A shard feeds every match it emits to a bounded collector (`TopKState`),
  which keeps the best `k` after the boundary and counts distinct ids up to
  a threshold.
* The coordinator checks each reply (`validatePart`) and merges the rows and
  totals of all of them (`mergeTitleRows`).

The collector's heap is the list of its hits in rank order, so that its root
is the last one.
-/

namespace ReverseRusty

/-! ## order of hits -/

/-- Higher scores first, then lower ids. -/
def rankedOrder (a b : Int × UInt64) : Ordering :=
  (compare b.1 a.1).then (compare a.2 b.2)

def rankedBeats (a b : Int × UInt64) : Bool :=
  rankedOrder a b == .lt

structure RankedHit where
  logicalId : UInt64
  score : Int
deriving DecidableEq, Repr

namespace RankedHit

def key (hit : RankedHit) : Int × UInt64 := (hit.score, hit.logicalId)

def Le (a b : RankedHit) : Prop := rankedOrder a.key b.key ≠ .gt

instance : DecidableRel Le := fun a b =>
  inferInstanceAs (Decidable (rankedOrder a.key b.key ≠ .gt))

end RankedHit

/-! ## totals -/

inductive TotalHitsRelation where
  | eq
  | gte
deriving DecidableEq, Repr

structure TotalHits where
  value : UInt64
  relation : TotalHitsRelation
deriving DecidableEq, Repr

namespace TotalHits

def exact (value : UInt64) : TotalHits := ⟨value, .eq⟩

def lowerBound (value : UInt64) : TotalHits := ⟨value, .gte⟩

end TotalHits

/-- Counts distinct ids up to one past the threshold. -/
structure TotalTracker where
  threshold : UInt64
  seen : List UInt64
  exceeded : Bool
deriving DecidableEq, Repr

namespace TotalTracker

def new (threshold : UInt64) : TotalTracker := ⟨threshold, [], false⟩

def observe (t : TotalTracker) (logicalId : UInt64) : TotalTracker :=
  if t.exceeded ∨ logicalId ∈ t.seen then t
  else
    let seen := logicalId :: t.seen
    { t with seen := seen, exceeded := t.threshold.toNat < seen.length }

def totalHits (t : TotalTracker) : TotalHits :=
  if t.exceeded then .lowerBound t.threshold else .exact (UInt64.ofNat t.seen.length)

end TotalTracker

/-! ## the bounded collector -/

structure TopKOptions where
  size : Nat
  trackTotalHitsUpTo : UInt64
  searchAfter : Option (Int × UInt64)
deriving DecidableEq, Repr

structure ShardRankedMatch where
  hits : List RankedHit
  totalHits : TotalHits
deriving DecidableEq, Repr

structure TopKState where
  k : Nat
  after : Option (Int × UInt64)
  heap : List RankedHit
  totals : TotalTracker

namespace TopKState

def new (options : TopKOptions) : TopKState where
  k := options.size
  after := options.searchAfter
  heap := []
  totals := .new options.trackTotalHitsUpTo

/-- One emission: count it, then score it and keep it if it is good enough.
A scorer gives no score once it was told to stop. -/
def observe (st : TopKState) (scorer : UInt64 → Option Int) (logicalId : UInt64) : TopKState :=
  let st := { st with totals := st.totals.observe logicalId }
  if st.k = 0 ∨ logicalId ∈ st.heap.map RankedHit.logicalId then st
  else
    match scorer logicalId with
    | none => st
    | some score =>
      let hit : RankedHit := ⟨logicalId, score⟩
      -- the boundary itself is on the page before
      if st.after.any fun after => !rankedBeats after hit.key then st
      else { st with heap := keepBest RankedHit.Le st.k st.heap hit }

def finish (st : TopKState) : ShardRankedMatch where
  hits := st.heap.mergeSort fun a b => RankedHit.Le a b
  totalHits := st.totals.totalHits

end TopKState

/-- The collector with its membership set. -/
structure TopKCollector where
  k : Nat
  after : Option (Int × UInt64)
  heap : List RankedHit
  heapIds : List UInt64
  totals : TotalTracker

namespace TopKCollector

def new (options : TopKOptions) : TopKCollector where
  k := options.size
  after := options.searchAfter
  heap := []
  heapIds := []
  totals := .new options.trackTotalHitsUpTo

def observe (c : TopKCollector) (scorer : UInt64 → Option Int) (logicalId : UInt64) :
    TopKCollector :=
  let c := { c with totals := c.totals.observe logicalId }
  if c.k = 0 ∨ logicalId ∈ c.heapIds then c
  else
    match scorer logicalId with
    | none => c
    | some score =>
      let hit : RankedHit := ⟨logicalId, score⟩
      if c.after.any fun after => !rankedBeats after hit.key then c
      else if c.heap.length < c.k then
        { c with heap := c.heap.orderedInsert RankedHit.Le hit, heapIds := logicalId :: c.heapIds }
      else
        match c.heap.getLast? with
        | none => c
        | some worst =>
          if rankedBeats hit.key worst.key then
            { c with
              heap := c.heap.dropLast.orderedInsert RankedHit.Le hit
              heapIds := logicalId :: c.heapIds.erase worst.logicalId }
          else c

def finish (c : TopKCollector) : ShardRankedMatch where
  hits := c.heap.mergeSort fun a b => RankedHit.Le a b
  totalHits := c.totals.totalHits

end TopKCollector

def collectTopK (options : TopKOptions) (score : UInt64 → Int) (emitted : List UInt64) :
    ShardRankedMatch :=
  (emitted.foldl (fun (st : TopKState) id => st.observe (fun id => some (score id)) id)
    (TopKState.new options)).finish

/-! ## the coordinator -/

inductive TopKAdmissionError where
  | sizeTooLarge (requested max : Nat)
  | totalHitsThresholdTooLarge (requested max : UInt64)
deriving DecidableEq, Repr

inductive ClusterRankedError where
  | admission (error : TopKAdmissionError)
  | pitUnsupported (detail : String)
  | invalidShardReply (position : Nat) (detail : String)
  | duplicateLogicalId (logicalId : UInt64)
deriving DecidableEq, Repr

structure ClusterRankedHit where
  logicalId : UInt64
  score : Int
  ownerPosition : Nat
deriving DecidableEq, Repr

def ClusterRankedHit.hit (row : ClusterRankedHit) : RankedHit := ⟨row.logicalId, row.score⟩

structure ClusterRankedMatch where
  hits : List ClusterRankedHit
  totalHits : TotalHits
  shardRowsReceived : Nat
deriving DecidableEq, Repr

def TotalHitsRelation.name : TotalHitsRelation → String
  | .eq => "Eq"
  | .gte => "Gte"

/-- A total that a collector can report beside so many rows. -/
def TotalHits.consistent (total : TotalHits) (threshold : UInt64) (rows : Nat) : Bool :=
  match total.relation with
  | .eq => total.value ≤ threshold ∧ rows ≤ total.value.toNat
  | .gte => total.value = threshold

/-- Check one reply; the rows are in order, so the first one tells whether
all are after the boundary. -/
def validatePart (position : Nat) (options : TopKOptions) (part : ShardRankedMatch) :
    Except ClusterRankedError Unit :=
  let hits := part.hits
  let rows := hits.length
  let requestedK := options.size
  let threshold := options.trackTotalHitsUpTo
  let relation := part.totalHits.relation.name
  let value := part.totalHits.value
  if requestedK < rows then
    .error (.invalidShardReply position s!"returned {rows} rows for requested K={requestedK}")
  else if options.searchAfter.any fun after =>
      hits.head?.any fun first => !rankedBeats after first.key then
    .error (.invalidShardReply position "rows are not strictly after the search_after boundary")
  else if !part.totalHits.consistent threshold rows then
    .error (.invalidShardReply position
      s!"total claim {relation}({value}) is inconsistent with {rows} rows under threshold {threshold}")
  else if (hits.zip hits.tail).any fun pair => !rankedBeats pair.1.key pair.2.key then
    .error (.invalidShardReply position
      "rows are not strictly ordered by (score desc, logical_id asc)")
  else .ok ()

def pushHits (position : Nat) :
    List ClusterRankedHit → List RankedHit → Except ClusterRankedError (List ClusterRankedHit)
  | rows, [] => .ok rows
  | rows, hit :: hits =>
    if rows.any fun row => row.logicalId = hit.logicalId then
      .error (.duplicateLogicalId hit.logicalId)
    else pushHits position (rows ++ [⟨hit.logicalId, hit.score, position⟩]) hits

def pushParts :
    List ClusterRankedHit → List (Nat × ShardRankedMatch) →
      Except ClusterRankedError (List ClusterRankedHit)
  | rows, [] => .ok rows
  | rows, (position, part) :: parts => do
    let rows ← pushHits position rows part.hits
    pushParts rows parts

/-- The sum of the totals so far. -/
structure ExactSum where
  sum : UInt64
  overflow : Bool
  allExact : Bool
deriving DecidableEq, Repr

def ExactSum.add (acc : ExactSum) (total : TotalHits) : ExactSum :=
  let acc := { acc with allExact := acc.allExact && total.relation = TotalHitsRelation.eq }
  if acc.sum.toNat + total.value.toNat < 2 ^ 64 then { acc with sum := acc.sum + total.value }
  else { acc with overflow := true }

/-- Merge checked replies. -/
def mergeTitleRows (size : Nat) (trackTotalHitsUpTo : UInt64)
    (parts : List (Nat × ShardRankedMatch)) : Except ClusterRankedError ClusterRankedMatch := do
  let rows ← pushParts [] parts
  let acc := parts.foldl (fun (acc : ExactSum) part => acc.add part.2.totalHits) ⟨0, false, true⟩
  let total :=
    if acc.allExact ∧ acc.overflow = false ∧ acc.sum ≤ trackTotalHitsUpTo then .exact acc.sum
    else .lowerBound trackTotalHitsUpTo
  let sorted := rows.mergeSort fun a b => RankedHit.Le a.hit b.hit
  return ⟨sorted.take size, total, rows.length⟩

def mergeReplies (options : TopKOptions) (parts : List (Nat × ShardRankedMatch)) :
    Except ClusterRankedError ClusterRankedMatch := do
  parts.forM fun part => validatePart part.1 options part.2
  mergeTitleRows options.size options.trackTotalHitsUpTo parts

end ReverseRusty
