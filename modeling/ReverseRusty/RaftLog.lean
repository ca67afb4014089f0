import ReverseRusty.Control
import ReverseRusty.FramedLog

/-!
# ReverseRusty.RaftLog

The durable log of a control node (`cluster/control_raft/log_store.rs`,
`cluster/control_store.rs`).

A node keeps its log in one framed file and its vote, committed id and purge
point in a file each.  Every operation is a list of file steps; a crash
leaves the disk after some of them, and `LogStore.openDir` reads it back.

A single value is replaced by a rename, a log is rewritten by a rename and a
record is appended by one write, so each is one step.  A write that was cut
short leaves a tail behind the whole records, which opening the log cuts off
or refuses (`frameHead`).
-/

namespace ReverseRusty

/-! ## entries -/

structure LogId where
  term : Nat
  nodeId : Nat
  index : Nat
deriving DecidableEq, Repr

namespace LogId

/-- Ids are ordered by leader, then by index. -/
def Lt (a b : LogId) : Prop :=
  a.term < b.term ∨ a.term = b.term ∧
    (a.nodeId < b.nodeId ∨ a.nodeId = b.nodeId ∧ a.index < b.index)

instance : DecidableRel Lt := fun a b =>
  inferInstanceAs (Decidable (a.term < b.term ∨ a.term = b.term ∧
    (a.nodeId < b.nodeId ∨ a.nodeId = b.nodeId ∧ a.index < b.index)))

end LogId

inductive EntryPayload where
  | blank
  | normal (change : ClusterStateChange)
  | membership (voters : List NodeId)
deriving DecidableEq, Repr

structure LogEntry where
  logId : LogId
  payload : EntryPayload
deriving DecidableEq, Repr

def LogEntry.index (entry : LogEntry) : Nat := entry.logId.index

structure Vote where
  term : Nat
  nodeId : Nat
  committed : Bool
deriving DecidableEq, Repr

/-- Formats from the oldest to the newest; a log is only ever upgraded. -/
inductive LogFormat where
  | legacy
  | durableMoves
  | durableResize
deriving DecidableEq, Repr

namespace LogFormat

def rank : LogFormat → Nat
  | .legacy => 0
  | .durableMoves => 1
  | .durableResize => 2

def newer (a b : LogFormat) : LogFormat := if a.rank < b.rank then b else a

def required (entry : LogEntry) : LogFormat :=
  match entry.payload with
  | .normal (.resize _) => .durableResize
  | .normal (.move _) => .durableMoves
  | _ => .legacy

end LogFormat

/-! ## files -/

/-- The log file: shorter than its header, or whole records, maybe followed
by what is left of a write. -/
inductive LogFile where
  | headerInterrupted
  | whole (format : LogFormat) (records : List LogEntry) (tail : List UInt8)
deriving DecidableEq, Repr

/-- The raft directory of a node. -/
structure RaftDisk where
  log : Option LogFile
  vote : Option Vote
  committed : Option (Option LogId)
  purged : Option LogId
  snapshot : Bool
deriving DecidableEq, Repr

inductive RaftStoreError where
  | lostLog
  | headerTruncated
  | formatMismatch (expected found : LogFormat)
  | damagedTail (detail : String)
deriving DecidableEq, Repr

namespace RaftDisk

def empty : RaftDisk := ⟨none, none, none, none, false⟩

def hasOtherState (d : RaftDisk) : Bool :=
  d.vote.isSome || d.committed.isSome || d.purged.isSome || d.snapshot

def checkLogAgainstOtherState (d : RaftDisk) : Except RaftStoreError RaftDisk :=
  match d.log with
  | none => if d.hasOtherState then .error .lostLog else .ok d
  | some .headerInterrupted =>
    if d.hasOtherState then .error .headerTruncated else .ok { d with log := none }
  | some (.whole _ _ _) => .ok d

/-- The end of the scan: what stands behind the whole records is cut off, or
refused because a complete record may be hidden in it. -/
def scanTail (tail : List UInt8) : Except RaftStoreError Unit :=
  match frameHead 0 tail with
  | .stop => .ok ()
  | .fail detail => .error (.damagedTail detail)
  | .frame _ _ => .error (.damagedTail "complete frame has incompatible payload")

def readRecords (d : RaftDisk) : Except RaftStoreError (List LogEntry × LogFormat) :=
  match d.log with
  | none => .ok ([], .legacy)
  | some .headerInterrupted => .error .headerTruncated
  | some (.whole format records tail) => do
    scanTail tail
    return (records, format)

/-- Open the log for appending: make it, or repair its tail. -/
def ensureLog (format : LogFormat) (d : RaftDisk) : Except RaftStoreError RaftDisk :=
  match d.log with
  | none => .ok { d with log := some (.whole format [] []) }
  | some .headerInterrupted => .error .headerTruncated
  | some (.whole found records tail) =>
    if found = format then do
      scanTail tail
      return { d with log := some (.whole found records []) }
    else .error (.formatMismatch format found)

def rewriteRecords (records : List LogEntry) (format : LogFormat) (d : RaftDisk) :
    Except RaftStoreError RaftDisk :=
  .ok { d with log := some (.whole format records []) }

/-- Append through a handle, which is only ever held on a log without a tail. -/
def appendRecord (entry : LogEntry) (d : RaftDisk) : Except RaftStoreError RaftDisk :=
  match d.log with
  | some (.whole format records []) =>
    .ok { d with log := some (.whole format (records ++ [entry]) []) }
  | _ => .error .headerTruncated

/-- A write of a record was cut short. -/
def withTail (tail : List UInt8) (d : RaftDisk) : RaftDisk :=
  match d.log with
  | some (.whole format records _) => { d with log := some (.whole format records tail) }
  | _ => d

end RaftDisk

abbrev FileStep : Type := RaftDisk → Except RaftStoreError RaftDisk

def runSteps (steps : List FileStep) (d : RaftDisk) : Except RaftStoreError RaftDisk :=
  steps.foldlM (fun d step => step d) d

/-! ## the store -/

/-- The store in memory; `log` lists the entries by index. -/
structure LogStore where
  log : List LogEntry
  lastPurged : Option LogId
  vote : Option Vote
  committed : Option LogId
  logFormat : LogFormat
deriving DecidableEq, Repr

def insertEntry (log : List LogEntry) (entry : LogEntry) : List LogEntry :=
  (log.filter fun e => e.index < entry.index) ++
    entry :: log.filter fun e => entry.index < e.index

inductive LogOp where
  | append (entries : List LogEntry)
  | truncate (logId : LogId)
  | purge (logId : LogId)
  | saveVote (vote : Vote)
  | saveCommitted (committed : Option LogId)
deriving DecidableEq, Repr

namespace LogStore

/-- Read a node's files back and open its log. -/
def openDir (d : RaftDisk) : Except RaftStoreError (LogStore × RaftDisk) := do
  let d ← d.checkLogAgainstOtherState
  let (records, format) ← d.readRecords
  let log := records.foldl insertEntry []
  let opened ← d.ensureLog format
  return (⟨log, d.purged, d.vote, d.committed.join, format⟩, opened)

variable (st : LogStore)

def lastLogId : Option LogId :=
  (st.log.getLast?.map LogEntry.logId).or st.lastPurged

/-- Replace the log by the entries in memory. -/
def rewriteAndReopen : List FileStep :=
  [RaftDisk.rewriteRecords st.log st.logFormat, RaftDisk.ensureLog st.logFormat]

/-- Upgrade the log before the first entry that needs it. -/
def fenceLogFormat (target : LogFormat) : List FileStep :=
  if target.rank ≤ st.logFormat.rank then []
  else [RaftDisk.rewriteRecords st.log target, RaftDisk.ensureLog target]

def requiredFormat (entries : List LogEntry) : LogFormat :=
  entries.foldl (fun format entry => format.newer (.required entry)) .legacy

def perform : LogOp → LogStore
  | .append entries =>
    { st with
      log := entries.foldl insertEntry st.log
      logFormat := st.logFormat.newer (requiredFormat entries) }
  | .truncate logId => { st with log := st.log.filter fun e => e.index < logId.index }
  | .purge logId =>
    { st with
      lastPurged := some logId
      log := st.log.filter fun e => logId.index < e.index }
  | .saveVote vote => { st with vote := some vote }
  | .saveCommitted committed => { st with committed := committed }

def fileSteps : LogOp → List FileStep
  | .append entries =>
    st.fenceLogFormat (requiredFormat entries) ++ entries.map RaftDisk.appendRecord
  | .truncate logId => (st.perform (.truncate logId)).rewriteAndReopen
  | .purge logId =>
    (fun d => .ok { d with purged := some logId }) ::
      (st.perform (.purge logId)).rewriteAndReopen
  | .saveVote vote => [fun d => .ok { d with vote := some vote }]
  | .saveCommitted committed => [fun d => .ok { d with committed := some committed }]

end LogStore

end ReverseRusty
