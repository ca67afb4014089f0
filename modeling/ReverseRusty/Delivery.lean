import ReverseRusty.Lib.Dialogue

/-!
# ReverseRusty.Delivery

Chunked delivery of every match (`delivery.rs`, `collect/chunk.rs`,
`segment/snapshot/scalar.rs`, `cluster/coordinator/exhaustive.rs`).

A pass over the segments feeds its matches to a collector, which sends a
chunk to a sink whenever its buffer is full.  The pass cannot be told of a
failure, so the collector remembers it and asks to stop.  The coordinator
streams one shard after the other through a sink that renumbers the chunks
and checks the shard's summary against what it saw.

Collector and coordinator are dialogues with a sink, a clock and the
cluster's own convergence check.
-/

namespace ReverseRusty

/-! ## chunks, checksums and summaries -/

structure ExhaustiveMatch where
  logicalId : UInt64
  score : Option Int64
deriving DecidableEq, Repr

structure MatchChunk where
  sequence : Nat
  members : List ExhaustiveMatch
deriving DecidableEq, Repr

def maxMatchChunkSize : Nat := 16384

def mix64 (value : UInt64) : UInt64 :=
  let value := value ^^^ (value >>> 30)
  let value := value * 0xbf58476d1ce4e5b9
  let value := value ^^^ (value >>> 27)
  let value := value * 0x94d049bb133111eb
  value ^^^ (value >>> 31)

def rotateLeft (value bits : UInt64) : UInt64 := (value <<< bits) ||| (value >>> (64 - bits))

def rotateRight (value bits : UInt64) : UInt64 := (value >>> bits) ||| (value <<< (64 - bits))

/-- A checksum of a set of matches. -/
structure DeliveryChecksum where
  xor : UInt64
  sum : UInt64
deriving DecidableEq, Repr

namespace DeliveryChecksum

def empty : DeliveryChecksum := ⟨0, 0⟩

/-- What one match adds to either half; a missing score is no score's word. -/
def words (member : ExhaustiveMatch) : UInt64 × UInt64 :=
  let (first, second) := match member.score with
    | none => (mix64 0x9e3779b97f4a7c15, mix64 0xa0761d6478bd642f)
    | some value =>
      (mix64 (value.toUInt64 ^^^ 0xd6e8feb86659fd93), mix64 (value.toUInt64 ^^^ 0xe7037ed1a0b428db))
  (mix64 (member.logicalId ^^^ rotateLeft first 23),
    mix64 (second ^^^ rotateRight member.logicalId 17 ^^^ 0x8ebc6af09c88c6e3))

def observe (c : DeliveryChecksum) (member : ExhaustiveMatch) : DeliveryChecksum :=
  ⟨c.xor ^^^ (words member).1, c.sum + (words member).2⟩

def merge (c other : DeliveryChecksum) : DeliveryChecksum :=
  ⟨c.xor ^^^ other.xor, c.sum + other.sum⟩

def debug (c : DeliveryChecksum) : String :=
  let xor := c.xor
  let sum := c.sum
  s!"DeliveryChecksum \x7b xor: {xor}, sum: {sum} \x7d"

def ofMembers (members : List ExhaustiveMatch) : DeliveryChecksum := members.foldl observe empty

end DeliveryChecksum

structure ExhaustiveSummary where
  exactTotal : Nat
  chunkCount : Nat
  checksum : DeliveryChecksum
deriving DecidableEq, Repr

structure ChunkSinkError where
  detail : String
deriving DecidableEq, Repr

inductive ExhaustiveMatchError where
  | invalidChunkSize (requested max : Nat)
  | cancelled
  | sink (error : ChunkSinkError)
deriving DecidableEq, Repr

inductive ShardError where
  | config (detail : String)
  | protocol (detail : String)
  | deadlineExceeded
deriving DecidableEq, Repr

/-! ## what delivery asks -/

/-- The sink's two operations, the clock and the convergence check. -/
inductive SinkOp where
  | sendChunk (chunk : MatchChunk)
  | checkCancelled
  | pastDeadline
  | ensureConverged

abbrev SinkOp.Ans : SinkOp → Type
  | sendChunk _ => Except ChunkSinkError Unit
  | checkCancelled => Except ChunkSinkError Unit
  | pastDeadline => Bool
  | ensureConverged => Except ShardError Unit

abbrev Delivery := Dialogue SinkOp SinkOp.Ans

namespace Delivery

def sendChunk (chunk : MatchChunk) : Delivery (Except ChunkSinkError Unit) :=
  Dialogue.request (SinkOp.sendChunk chunk)

def checkCancelled : Delivery (Except ChunkSinkError Unit) := Dialogue.request SinkOp.checkCancelled

def pastDeadline : Delivery Bool := Dialogue.request SinkOp.pastDeadline

def ensureConverged : Delivery (Except ShardError Unit) := Dialogue.request SinkOp.ensureConverged

end Delivery

/-- A search that asks now and then whether it should stop. -/
abbrev Polling := Dialogue Unit fun _ => Bool

/-- What a search finds when it is never told to stop. -/
def Polling.quiet {α : Type} : Polling α → α
  | .done value => value
  | .ask _ next => Polling.quiet (next false)

/-! ## the collector -/

structure ChunkCollector where
  chunkSize : Nat
  buffer : List ExhaustiveMatch
  currentSource : Nat
  sequence : Nat
  exactTotal : Nat
  physicalEmissions : Nat
  checksum : DeliveryChecksum
  error : Option ChunkSinkError
  deadlineExpired : Bool
  summary : Option ExhaustiveSummary

/-- Whether a row is the first of its id, and the score of an id. -/
structure MatchRules where
  canonical : Nat → Nat → UInt64 → Polling Bool
  scorer : UInt64 → Polling (Option Int64)

namespace ChunkCollector

def new (chunkSize : Nat) : ChunkCollector :=
  ⟨chunkSize, [], 0, 0, 0, 0, .empty, none, false, none⟩

def reset (c : ChunkCollector) : ChunkCollector := new c.chunkSize

/-- Should the pass stop?  What stopped it once stops it for good. -/
def pollStop (c : ChunkCollector) : Delivery (Bool × ChunkCollector) :=
  if c.error.isSome ∨ c.deadlineExpired then return (true, c)
  else do
    if ← Delivery.pastDeadline then return (true, { c with deadlineExpired := true })
    else
      match ← Delivery.checkCancelled with
      | .error error => return (true, { c with error := some error })
      | .ok () => return (false, c)

/-- Run a search with the collector's own hook. -/
def polling {α : Type} (c : ChunkCollector) : Polling α → Delivery (α × ChunkCollector)
  | .done value => return (value, c)
  | .ask _ next => do
    let (stop, c) ← c.pollStop
    c.polling (next stop)

def flush (c : ChunkCollector) : Delivery ChunkCollector :=
  if c.buffer.isEmpty ∨ c.error.isSome then return c
  else do
    match ← Delivery.sendChunk ⟨c.sequence, c.buffer⟩ with
    | .ok () => return { c with buffer := [], sequence := c.sequence + 1 }
    | .error error => return { c with buffer := [], error := some error }

def accept (rules : MatchRules) (c : ChunkCollector) (logicalId : UInt64) :
    Delivery ChunkCollector := do
  let (stop, c) ← c.pollStop
  if stop then return c
  else
    let (score, c) ← c.polling (rules.scorer logicalId)
    if c.error.isSome ∨ c.deadlineExpired then return c
    else
      let member : ExhaustiveMatch := ⟨logicalId, score⟩
      let c := { c with
        exactTotal := c.exactTotal + 1
        checksum := c.checksum.observe member
        buffer := c.buffer ++ [member] }
      if c.buffer.length = c.chunkSize then c.flush else return c

def onMatch (rules : MatchRules) (c : ChunkCollector) (logicalId : UInt64) :
    Delivery ChunkCollector := do
  let (stop, c) ← c.pollStop
  if stop then return c
  else accept rules { c with physicalEmissions := c.physicalEmissions + 1 } logicalId

def onMatchAt (rules : MatchRules) (c : ChunkCollector) (logicalId : UInt64) (localId : Nat) :
    Delivery ChunkCollector := do
  let (stop, c) ← c.pollStop
  if stop then return c
  else
    let c := { c with physicalEmissions := c.physicalEmissions + 1 }
    let (accepted, c) ← c.polling (rules.canonical c.currentSource localId logicalId)
    if accepted then accept rules c logicalId else return c

/-- Send what is left; the summary is for a stream that was not stopped, not
even by its last chunk. -/
def finish (c : ChunkCollector) : Delivery ChunkCollector := do
  let (stop, c) ← c.pollStop
  let c ← if stop then pure c else c.flush
  let (stop, c) ← c.pollStop
  if stop then return c
  else return { c with summary := some ⟨c.exactTotal, c.sequence, c.checksum⟩ }

def abort (c : ChunkCollector) : ChunkCollector := { c with buffer := [], summary := none }

def result (c : ChunkCollector) : Except ChunkSinkError ExhaustiveSummary :=
  match c.error, c.summary with
  | some error, _ => .error error
  | none, some summary => .ok summary
  | none, none => .error ⟨"exhaustive collector did not reach terminal summary"⟩

end ChunkCollector

/-! ## one engine's stream -/

/-- What a matching pass tells and asks its collector, and where it looks at
the clock itself. -/
inductive PassCall where
  | beginSource (source : Nat)
  | onMatch (logicalId : UInt64)
  | onMatchAt (logicalId : UInt64) (localId : Nat)
  | shouldStop
  | checkDeadline
deriving DecidableEq, Repr

def runPass (rules : MatchRules) : ChunkCollector → List PassCall → Delivery (Bool × ChunkCollector)
  | c, [] => return (false, c)
  | c, .beginSource source :: calls => runPass rules { c with currentSource := source } calls
  | c, .onMatch logicalId :: calls => do
    let c ← c.onMatch rules logicalId
    runPass rules c calls
  | c, .onMatchAt logicalId localId :: calls => do
    let c ← c.onMatchAt rules logicalId localId
    runPass rules c calls
  | c, .shouldStop :: calls => do
    let (stop, c) ← c.pollStop
    if stop then return (false, c) else runPass rules c calls
  | c, .checkDeadline :: calls => do
    if ← Delivery.pastDeadline then return (true, c) else runPass rules c calls

def matchTitleCollect (rules : MatchRules) (c : ChunkCollector) (calls : List PassCall) :
    Delivery (Except ExhaustiveMatchError ChunkCollector) := do
  let (stop, c) ← c.reset.pollStop
  if stop then return .ok c
  else
    if ← Delivery.pastDeadline then return .error .cancelled
    else
      let (cancelled, c) ← runPass rules c calls
      if cancelled then return .error .cancelled
      else
        let c ← c.finish
        return .ok c

/-- **One engine's stream of every match.** -/
def tryMatchTitleChunks (rules : MatchRules) (chunkSize : Nat) (calls : List PassCall) :
    Delivery (Except ExhaustiveMatchError ExhaustiveSummary) :=
  if chunkSize = 0 ∨ maxMatchChunkSize < chunkSize then
    return .error (.invalidChunkSize chunkSize maxMatchChunkSize)
  else do
    if ← Delivery.pastDeadline then return .error .cancelled
    else
      match ← Delivery.checkCancelled with
      | .error error => return .error (.sink error)
      | .ok () =>
        match ← matchTitleCollect rules (.new chunkSize) calls with
        | .error error => return .error error
        | .ok c =>
          if c.deadlineExpired then return .error .cancelled
          else return c.result.mapError .sink

def acceptedOf (rules : MatchRules) : Nat → List PassCall → List ExhaustiveMatch
  | _, [] => []
  | _, .beginSource source :: calls => acceptedOf rules source calls
  | source, .onMatch logicalId :: calls =>
    ⟨logicalId, (rules.scorer logicalId).quiet⟩ :: acceptedOf rules source calls
  | source, .onMatchAt logicalId localId :: calls =>
    if (rules.canonical source localId logicalId).quiet then
      ⟨logicalId, (rules.scorer logicalId).quiet⟩ :: acceptedOf rules source calls
    else acceptedOf rules source calls
  | source, .shouldStop :: calls => acceptedOf rules source calls
  | source, .checkDeadline :: calls => acceptedOf rules source calls

/-! ## the coordinator -/

def ExhaustiveMatchError.toShard : ExhaustiveMatchError → ShardError
  | invalidChunkSize requested max =>
    .config s!"exhaustive chunk size {requested} is outside 1..={max}"
  | cancelled => .deadlineExceeded
  | sink error => .protocol s!"exhaustive sink failed: {error.detail}"

abbrev ShardStream := Delivery (Except ShardError ExhaustiveSummary)

def percolateAllOwned (rules : MatchRules) (chunkSize : Nat) (calls : List PassCall) :
    ShardStream := do
  let found ← tryMatchTitleChunks rules chunkSize calls
  return found.mapError ExhaustiveMatchError.toShard

/-- Renumbers one shard's chunks and counts what it delivered. -/
structure ResequencingSink where
  nextGlobal : Nat
  nextLocal : Nat
  maxMembers : Nat
  observedTotal : Nat
  observedChecksum : DeliveryChecksum
  protocolError : Option String

namespace ResequencingSink

def new (nextGlobal maxMembers : Nat) : ResequencingSink :=
  ⟨nextGlobal, 0, maxMembers, 0, .empty, none⟩

def sendChunk (a : ResequencingSink) (chunk : MatchChunk) :
    Delivery (Except ChunkSinkError Unit × ResequencingSink) :=
  let sequence := chunk.sequence
  let nextLocal := a.nextLocal
  let count := chunk.members.length
  let maxMembers := a.maxMembers
  if sequence ≠ nextLocal then
    let detail :=
      s!"exhaustive shard chunk sequence {sequence} arrived where {nextLocal} was required"
    return (.error ⟨detail⟩, { a with protocolError := some detail })
  else if count = 0 ∨ maxMembers < count then
    let detail := s!"exhaustive shard chunk contains {count} members; required 1..={maxMembers}"
    return (.error ⟨detail⟩, { a with protocolError := some detail })
  else do
    match ← Delivery.sendChunk ⟨a.nextGlobal, chunk.members⟩ with
    | .error error => return (.error error, a)
    | .ok () =>
      return (.ok (), { a with
        nextLocal := a.nextLocal + 1
        nextGlobal := a.nextGlobal + 1
        observedTotal := a.observedTotal + chunk.members.length
        observedChecksum := chunk.members.foldl DeliveryChecksum.observe a.observedChecksum })

/-- Run a shard's stream with its chunks renumbered. -/
def through {α : Type} (a : ResequencingSink) : Delivery α → Delivery (α × ResequencingSink)
  | .done value => return (value, a)
  | .ask (.sendChunk chunk) next => do
    let (answer, a) ← a.sendChunk chunk
    a.through (next answer)
  | .ask .checkCancelled next => .ask .checkCancelled fun answer => a.through (next answer)
  | .ask .pastDeadline next => .ask .pastDeadline fun answer => a.through (next answer)
  | .ask .ensureConverged next => .ask .ensureConverged fun answer => a.through (next answer)

def validate (a : ResequencingSink) (expected : ExhaustiveSummary) : Except ShardError Unit :=
  match a.protocolError with
  | some detail => .error (.protocol detail)
  | none =>
    if expected.chunkCount ≠ a.nextLocal ∨ expected.exactTotal ≠ a.observedTotal ∨
        expected.checksum ≠ a.observedChecksum then
      let chunks := expected.chunkCount
      let total := expected.exactTotal
      let checksum := expected.checksum.debug
      let seenChunks := a.nextLocal
      let seenTotal := a.observedTotal
      let seenChecksum := a.observedChecksum.debug
      .error (.protocol (s!"exhaustive shard summary disagrees with delivered chunks: " ++
        s!"summary(chunks={chunks}, total={total}, checksum={checksum}), " ++
        s!"observed(chunks={seenChunks}, total={seenTotal}, checksum={seenChecksum})"))
    else .ok ()

end ResequencingSink

/-- Go on with a value or fail. -/
def liftExcept {ε α : Type} (found : Except ε α) : ExceptT ε Delivery α := ExceptT.mk (pure found)

/-- What the coordinator has of the shards before. -/
structure MergedStream where
  nextSequence : Nat
  exactTotal : Nat
  checksum : DeliveryChecksum
deriving DecidableEq, Repr

def checkDeadline : ExceptT ShardError Delivery Unit := do
  if ← Delivery.pastDeadline then throw .deadlineExceeded else return ()

def waitForLock : Nat → ExceptT ShardError Delivery Unit
  | 0 => return ()
  | waits + 1 => do
    match ← Delivery.checkCancelled with
    | .error error => throw (.protocol s!"exhaustive sink failed: {error.detail}")
    | .ok () =>
      checkDeadline
      waitForLock waits

def streamShard (chunkSize : Nat) (merged : MergedStream) (shard : ShardStream) :
    ExceptT ShardError Delivery MergedStream := do
  ExceptT.mk Delivery.ensureConverged
  checkDeadline
  let (part, adapter) ← (ResequencingSink.new merged.nextSequence chunkSize).through shard
  let summary ← liftExcept part
  liftExcept (adapter.validate summary)
  ExceptT.mk Delivery.ensureConverged
  if merged.exactTotal + summary.exactTotal < 2 ^ 64 then
    return ⟨adapter.nextGlobal, merged.exactTotal + summary.exactTotal,
      merged.checksum.merge summary.checksum⟩
  else throw (.protocol "exhaustive total overflowed u64")

def streamShards (chunkSize : Nat) :
    MergedStream → List ShardStream → ExceptT ShardError Delivery MergedStream
  | merged, [] => return merged
  | merged, shard :: shards => do
    let merged ← streamShard chunkSize merged shard
    streamShards chunkSize merged shards

/-- **The coordinator's stream of every match**: wait for the layout and for
the view, then stream the routed shards. -/
def tryPercolateFilteredAll (chunkSize layoutWaits viewWaits : Nat) (shards : List ShardStream) :
    ExceptT ShardError Delivery ExhaustiveSummary :=
  if chunkSize = 0 ∨ maxMatchChunkSize < chunkSize then
    throw (.config s!"exhaustive chunk size {chunkSize} is outside 1..={maxMatchChunkSize}")
  else do
    waitForLock layoutWaits
    -- the view is asked for once more than it is taken
    waitForLock (viewWaits + 1)
    ExceptT.mk Delivery.ensureConverged
    checkDeadline
    let merged ← streamShards chunkSize ⟨0, 0, .empty⟩ shards
    ExceptT.mk Delivery.ensureConverged
    checkDeadline
    return ⟨merged.exactTotal, merged.nextSequence, merged.checksum⟩

end ReverseRusty
