import ReverseRusty.ShardContents

/-!
# ReverseRusty.LocalShard

A durable shard (`cluster/shard/local/`, `cluster/shard/retention.rs`,
`cluster/translog.rs`, `cluster/clog.rs`), at the level of rows.

A shard keeps its writes in a log (`translog`) and its rows in segment files.
A file holds each row with a liveness mark as of when it was written; rows
marked dead later are dead in memory only, until a seal writes the segment
anew.  A checkpoint file names the segment files and the log position they
hold everything up to; a restart attaches those files and replays the rest of
the log.

A crash in the middle of an operation leaves the disk as it was between two of
its durable steps; `LocalShard.passed` collects those disks.
-/

namespace ReverseRusty

/-! ## segments -/

/-- A row of a segment with its liveness mark. -/
structure ShardEntry where
  row : ShardRow
  alive : Bool
deriving DecidableEq, Repr

def liveRows (entries : List ShardEntry) : List ShardRow :=
  (entries.filter ShardEntry.alive).map ShardEntry.row

/-- Mark every row of a query dead. -/
def tombstoneLogical (logical : UInt64) (entries : List ShardEntry) : List ShardEntry :=
  entries.map fun e => { e with alive := e.alive && e.row.logical ≠ logical }

structure ShardSegment where
  file : Nat
  entries : List ShardEntry
deriving DecidableEq, Repr

/-- Whether some row is dead. -/
def ShardSegment.dirty (seg : ShardSegment) : Bool := seg.entries.any fun e => !e.alive

/-- Live rows as a segment holds them. -/
def entriesOf (rows : List ShardRow) : List ShardEntry := rows.map fun row => ⟨row, true⟩

/-! ## the disk -/

structure ShardCheckpoint where
  nextSegId : Nat
  localCheckpoint : Nat
  segmentFiles : List Nat
deriving DecidableEq, Repr

/-- What a crash leaves of a shard. -/
structure ShardDisk where
  files : AList fun _ : Nat => List ShardEntry
  sidecar : ShardCheckpoint
  records : List (Nat × ClusterMutation)
deriving DecidableEq

inductive DiskStep where
  | writeSegment (file : Nat) (entries : List ShardEntry)
  | removeSegment (file : Nat)
  | writeSidecar (checkpoint : ShardCheckpoint)
  | append (position : Nat) (mutation : ClusterMutation)
  | trim (upTo : Nat)
deriving DecidableEq, Repr

def DiskStep.apply (d : ShardDisk) : DiskStep → ShardDisk
  | .writeSegment file entries => { d with files := d.files.insert file entries }
  | .removeSegment file => { d with files := d.files.erase file }
  | .writeSidecar checkpoint => { d with sidecar := checkpoint }
  | .append position mutation => { d with records := d.records ++ [(position, mutation)] }
  | .trim upTo => { d with records := d.records.filter fun r => upTo < r.1 }

namespace ShardDisk

def tail (d : ShardDisk) (position : Nat) : List ClusterMutation :=
  (d.records.filter fun r => position < r.1).map Prod.snd

/-- The highest position in the log. -/
def maxPosition (d : ShardDisk) : Nat := (d.records.map Prod.fst).foldr max 0

end ShardDisk

/-! ## retention leases -/

structure Lease where
  id : Nat
  position : Nat
  lastRenewed : Nat
deriving DecidableEq, Repr

namespace Lease

def renew (leases : List Lease) (id target now : Nat) : List Lease :=
  leases.map fun l =>
    if l.id = id then { l with position := max l.position target, lastRenewed := now } else l

def release (leases : List Lease) (id : Nat) : List Lease := leases.filter fun l => l.id ≠ id

def reapExpired (leases : List Lease) (now ttl : Nat) : List Lease :=
  leases.filter fun l => now - l.lastRenewed < ttl

/-- The lowest pinned position. -/
def floor (leases : List Lease) : Option Nat := (leases.map Lease.position).min?

end Lease

/-! ## the shard -/

structure LocalShard where
  segments : List ShardSegment
  memtable : List ShardEntry
  nextSegId : Nat
  /-- the checkpoint file is this shard's commit record: a replaced file it
  names is kept until it names it no longer -/
  ownsCommitRecord : Bool
  keptSegmentFiles : List Nat
  nextSeq : Nat
  leases : List Lease
  nextLeaseId : Nat
  leaseTtl : Option Nat
  disk : ShardDisk
  /-- the disks the operation in progress has left behind it -/
  passed : List ShardDisk
  /-- the position of the log when the memtable was last written out -/
  flushedTo : Nat
deriving DecidableEq

inductive HeldPlacement where
  | absent
  | same
  | different
deriving DecidableEq, Repr

def heldPlacement (rows : List ShardRow) (logical : UInt64) (placement : QueryPlacement) :
    HeldPlacement :=
  if ofLogical logical rows = [] then .absent
  else if (ofLogical logical rows).all (·.placement = placement) then .same
  else .different

namespace LocalShard

section

variable (accepts : ShardRow → Bool) (s : LocalShard)

def rows : List ShardRow :=
  (s.segments.flatMap fun seg => liveRows seg.entries) ++ liveRows s.memtable

def lastPos : Nat := s.nextSeq - 1

def durable (step : DiskStep) : LocalShard :=
  { s with disk := step.apply s.disk, passed := s.passed ++ [s.disk] }

/-! ## writes -/

/-- Mark every row of a query dead, in the segments and in the memtable. -/
def tombstone (logical : UInt64) : LocalShard :=
  { s with
    segments := s.segments.map fun seg => { seg with entries := tombstoneLogical logical seg.entries }
    memtable := tombstoneLogical logical s.memtable }

def pushRow (row : ShardRow) : LocalShard :=
  { s with memtable := s.memtable ++ [⟨row, true⟩] }

/-- The effect of a write in memory, and whether the engine took it. -/
def applyToEngine : ClusterMutation → Bool × LocalShard
  | .add row => if accepts row then (true, s.pushRow row) else (false, s)
  | .upsert row => if accepts row then (true, (s.tombstone row.logical).pushRow row) else (false, s)
  | .remove logical => (true, s.tombstone logical)

def appendLog (m : ClusterMutation) : LocalShard :=
  { s.durable (.append s.nextSeq m) with nextSeq := s.nextSeq + 1 }

def logAndApply (m : ClusterMutation) : LocalShard := ((s.appendLog m).applyToEngine accepts m).2

/-! ## flushing and merging -/

def writeSegment (entries : List ShardEntry) : LocalShard :=
  { s.durable (.writeSegment s.nextSegId entries) with nextSegId := s.nextSegId + 1 }

def retireFile (file : Nat) : LocalShard :=
  if file ∈ s.disk.sidecar.segmentFiles then
    { s with keptSegmentFiles := s.keptSegmentFiles ++ [file] }
  else s.durable (.removeSegment file)

def cleanupSegmentFiles (files : List Nat) : LocalShard :=
  if s.ownsCommitRecord then files.foldl retireFile s else s

def flushMemtable : LocalShard :=
  if s.memtable = [] then { s with flushedTo := s.lastPos }
  else
    { s.writeSegment s.memtable with
      segments := s.segments ++ [⟨s.nextSegId, s.memtable⟩]
      memtable := []
      flushedTo := s.lastPos }

def compactRange (lo hi : Nat) : LocalShard :=
  if hi ≤ lo + 1 ∨ s.segments.length < hi then s
  else
    let old := (s.segments.take hi).drop lo
    let merged := entriesOf (old.flatMap fun seg => liveRows seg.entries)
    let s' : LocalShard := { s.writeSegment merged with
      segments := s.segments.take lo ++ [⟨s.nextSegId, merged⟩] ++ s.segments.drop hi }
    s'.cleanupSegmentFiles (old.map ShardSegment.file)

def flush (merge : Option (Nat × Nat)) : LocalShard :=
  match merge with
  | some (lo, hi) => s.flushMemtable.compactRange lo hi
  | none => s.flushMemtable

/-! ## sealing -/

end

/-- Write the segments that have dead rows anew without them; a segment left
without rows is dropped.  Also the files this retires. -/
def resealSegments : List ShardSegment → LocalShard → (List ShardSegment × List Nat) × LocalShard
  | [], s => (([], []), s)
  | seg :: segs, s =>
    if seg.dirty then
      let live := entriesOf (liveRows seg.entries)
      if live = [] then
        let (r, s) := resealSegments segs s
        ((r.1, seg.file :: r.2), s)
      else
        let (r, s') := resealSegments segs (s.writeSegment live)
        ((⟨s.nextSegId, live⟩ :: r.1, seg.file :: r.2), s')
    else
      let (r, s) := resealSegments segs s
      ((seg :: r.1, r.2), s)

section

variable (accepts : ShardRow → Bool) (s : LocalShard)

def resealTombstonedSegments : LocalShard :=
  let (r, s') := resealSegments s.segments s
  ({ s' with segments := r.1 } : LocalShard).cleanupSegmentFiles r.2

def writeCheckpoint (position : Nat) : LocalShard :=
  s.durable (.writeSidecar ⟨s.nextSegId, position, s.segments.map ShardSegment.file⟩)

/-- Drop the leases that were not renewed in time. -/
def reapLeases (now : Nat) : LocalShard :=
  match s.leaseTtl with
  | some ttl => { s with leases := Lease.reapExpired s.leases now ttl }
  | none => s

/-- How far a seal trims the log. -/
def trimTarget : Nat :=
  match Lease.floor s.leases with
  | some floor => min s.lastPos floor
  | none => s.lastPos

def removeReplacedFiles : LocalShard :=
  if s.ownsCommitRecord then
    s.keptSegmentFiles.foldl retireFile { s with keptSegmentFiles := [] }
  else s

/-- Flush, write every segment without its dead rows, write the checkpoint
file, drop the leases that expired and trim the log to what the others pin;
then the node removes the files the checkpoint file no longer names. -/
def sealForCheckpoint (merge : Option (Nat × Nat)) (now : Nat) : LocalShard :=
  let s := (s.flush merge).resealTombstonedSegments
  let s := (s.writeCheckpoint s.lastPos).reapLeases now
  (s.durable (.trim s.trimTarget)).removeReplacedFiles

/-! ## bulk ingest -/

/-- Write rows straight into a segment and name it in the checkpoint file,
whose position stays. -/
def ingest (items : List ShardRow) : LocalShard :=
  let entries := entriesOf (items.filter accepts)
  let s' : LocalShard := { s.writeSegment entries with
    segments := s.segments ++ [⟨s.nextSegId, entries⟩] }
  s'.writeCheckpoint s.disk.sidecar.localCheckpoint

/-! ## operations -/

inductive ReplaceMode where
  | unconditional
  | ifSamePlacement
deriving DecidableEq, Repr

inductive Op where
  | insert (row : ShardRow)
  | replace (row : ShardRow) (mode : ReplaceMode)
  | delete (logical : UInt64)
  | ingest (items : List ShardRow)
  | flush (merge : Option (Nat × Nat))
  | sealForCheckpoint (merge : Option (Nat × Nat)) (now : Nat)
  | acquireLease (now : Nat)
  | renewLease (id target now : Nat)
  | releaseLease (id : Nat)
deriving DecidableEq, Repr

def ReplaceMode.admits (mode : ReplaceMode) (rows : List ShardRow) (row : ShardRow) : Bool :=
  mode = .unconditional || heldPlacement rows row.logical row.placement = .same

/-- Carry an operation out. -/
def effect : Op → LocalShard
  | .insert row => s.logAndApply accepts (.add row)
  | .replace row mode =>
    if mode.admits s.rows row then s.logAndApply accepts (.upsert row) else s
  | .delete logical => s.logAndApply accepts (.remove logical)
  | .ingest items => s.ingest accepts items
  | .flush merge => s.flush merge
  | .sealForCheckpoint merge now => s.sealForCheckpoint merge now
  | .acquireLease now =>
    { s with
      leases := s.leases ++ [⟨s.nextLeaseId, s.lastPos, now⟩]
      nextLeaseId := s.nextLeaseId + 1 }
  | .renewLease id target now => { s with leases := Lease.renew s.leases id target now }
  | .releaseLease id => { s with leases := Lease.release s.leases id }

def perform (op : Op) : LocalShard := ({ s with passed := [] } : LocalShard).effect accepts op

/-- The disks a crash during an operation, or right after it, can leave. -/
def crashDisks (op : Op) : List ShardDisk :=
  (s.perform accepts op).passed ++ [(s.perform accepts op).disk]

end

/-! ## creating and restarting -/

section

variable (accepts : ShardRow → Bool) (ownsCommitRecord : Bool) (leaseTtl : Option Nat)

def create : LocalShard where
  segments := []
  memtable := []
  nextSegId := 0
  ownsCommitRecord := ownsCommitRecord
  keptSegmentFiles := []
  nextSeq := 1
  leases := []
  nextLeaseId := 0
  leaseTtl := leaseTtl
  disk := ⟨∅, ⟨0, 0, []⟩, []⟩
  passed := []
  flushedTo := 0

/-- Replay logged writes; one the engine rejects fails the restart. -/
def replayTail (s : LocalShard) : List ClusterMutation → Option LocalShard
  | [] => some s
  | m :: rest =>
    match s.applyToEngine accepts m with
    | (true, s) => replayTail s rest
    | (false, _) => none

def attachFiles (d : ShardDisk) (files : List Nat) : Option (List ShardSegment) :=
  files.mapM fun file => (d.files.lookup file).map (ShardSegment.mk file)

def attached (d : ShardDisk) (segments : List ShardSegment) : LocalShard where
  segments := segments
  memtable := []
  nextSegId := d.sidecar.nextSegId
  ownsCommitRecord := ownsCommitRecord
  keptSegmentFiles := []
  nextSeq := max d.maxPosition d.sidecar.localCheckpoint + 1
  leases := []
  nextLeaseId := 0
  leaseTtl := leaseTtl
  disk := d
  passed := []
  flushedTo := d.sidecar.localCheckpoint

def openDurableSelf (d : ShardDisk) : Option LocalShard :=
  match attachFiles d d.sidecar.segmentFiles with
  | none => none
  | some segments =>
    replayTail accepts (attached ownsCommitRecord leaseTtl d segments)
      (d.tail d.sidecar.localCheckpoint)

end

end LocalShard

end ReverseRusty
