import ReverseRusty.Lib.Slice

/-!
# ReverseRusty.Ownership

Distributed emission ownership (`ownership.rs`).  A stored row carries the
placement its coordinator decided; a routed read carries the positions it
visits.  `owner` names the one position that may emit the row.
-/

namespace ReverseRusty

/-- How a row is placed across shard positions. -/
inductive PlacementMode where
  | standalone
  | selective
  | replicatedAlwaysVisible
  | replicatedBroad
deriving DecidableEq, Repr

def PlacementMode.toByte : PlacementMode → UInt8
  | .standalone => 0
  | .selective => 1
  | .replicatedAlwaysVisible => 2
  | .replicatedBroad => 3

/-- Why ownership metadata is refused. -/
inductive OwnershipError where
  | unknownMode (byte : UInt8)
  | invalidStandalone
  | missingGeneration
  | emptyShardSpace
  | emptySelectivePlacement
  | positionsNotStrictlySorted
  | routeNotStrictlySorted
  | unexpectedReplicatedPositions
  | positionOutOfRange (position numShards : UInt32)
  | localPositionMissing (position : UInt32)
  | broadEvaluatorNotRouted (position : UInt32)
  | emptyRoute
  | placementDecisionMismatch
  | generationMismatch (expected actual : UInt64)
  | shardCountMismatch (expected actual : UInt32)
deriving DecidableEq, Repr

/-- The variant and its data, as the source prints them. -/
def OwnershipError.debug : OwnershipError → String
  | .unknownMode b => s!"UnknownMode({b})"
  | .invalidStandalone => "InvalidStandalone"
  | .missingGeneration => "MissingGeneration"
  | .emptyShardSpace => "EmptyShardSpace"
  | .emptySelectivePlacement => "EmptySelectivePlacement"
  | .positionsNotStrictlySorted => "PositionsNotStrictlySorted"
  | .routeNotStrictlySorted => "RouteNotStrictlySorted"
  | .unexpectedReplicatedPositions => "UnexpectedReplicatedPositions"
  | .positionOutOfRange p n => s!"PositionOutOfRange \x7b position: {p}, num_shards: {n} \x7d"
  | .localPositionMissing p => s!"LocalPositionMissing({p})"
  | .broadEvaluatorNotRouted p => s!"BroadEvaluatorNotRouted({p})"
  | .emptyRoute => "EmptyRoute"
  | .placementDecisionMismatch => "PlacementDecisionMismatch"
  | .generationMismatch e a =>
    s!"GenerationMismatch \x7b expected: PlacementGeneration({e}), actual: PlacementGeneration({a}) \x7d"
  | .shardCountMismatch e a => s!"ShardCountMismatch \x7b expected: {e}, actual: {a} \x7d"

def OwnershipError.message (e : OwnershipError) : String :=
  "invalid distributed ownership metadata: " ++ e.debug

def PlacementMode.fromByte (b : UInt8) : Except OwnershipError PlacementMode :=
  if b = 0 then .ok .standalone
  else if b = 1 then .ok .selective
  else if b = 2 then .ok .replicatedAlwaysVisible
  else if b = 3 then .ok .replicatedBroad
  else .error (.unknownMode b)

theorem PlacementMode.fromByte_toByte (m : PlacementMode) : fromByte m.toByte = .ok m := by
  cases m <;> rfl

/-- The generation of rows outside any cluster. -/
def standaloneGeneration : UInt64 := 0

def checkPositions (numShards : UInt32) (unsorted : OwnershipError) :
    Option UInt32 → List UInt32 → Except OwnershipError Unit
  | _, [] => .ok ()
  | prev, p :: ps =>
    if numShards ≤ p then .error (.positionOutOfRange p numShards)
    else if prev.any (p ≤ ·) then .error unsorted
    else checkPositions numShards unsorted (some p) ps

/-- Whether placement metadata is well formed. -/
def validatePlacement (generation : UInt64) (numShards : UInt32) (mode : PlacementMode)
    (positions : List UInt32) : Except OwnershipError Unit :=
  if mode = .standalone then
    if generation ≠ standaloneGeneration ∨ numShards ≠ 0 ∨ positions ≠ [] then
      .error .invalidStandalone
    else .ok ()
  else if generation = standaloneGeneration then .error .missingGeneration
  else if numShards = 0 then .error .emptyShardSpace
  else if mode = .selective then
    if positions = [] then .error .emptySelectivePlacement
    else checkPositions numShards .positionsNotStrictlySorted none positions
  else if positions ≠ [] then .error .unexpectedReplicatedPositions
  else .ok ()

/-- A row's distributed placement; no constructor of the source leaves one
unchecked. -/
structure QueryPlacement where
  generation : UInt64
  numShards : UInt32
  mode : PlacementMode
  positions : List UInt32
  valid : validatePlacement generation numShards mode positions = .ok ()
deriving DecidableEq, Repr

namespace QueryPlacement

/-- The placement of a row outside any cluster. -/
def standalone : QueryPlacement := ⟨standaloneGeneration, 0, .standalone, [], rfl⟩

/-- Check a candidate placement and return it. -/
def validated (generation : UInt64) (numShards : UInt32) (mode : PlacementMode)
    (positions : List UInt32) : Except OwnershipError QueryPlacement :=
  match h : validatePlacement generation numShards mode positions with
  | .ok () => .ok ⟨generation, numShards, mode, positions, h⟩
  | .error e => .error e

def selective (generation : UInt64) (numShards : UInt32) (positions : List UInt32) :
    Except OwnershipError QueryPlacement :=
  validated generation numShards .selective (sortDedup positions)

def replicatedAlwaysVisible (generation : UInt64) (numShards : UInt32) :
    Except OwnershipError QueryPlacement :=
  validated generation numShards .replicatedAlwaysVisible []

def replicatedBroad (generation : UInt64) (numShards : UInt32) :
    Except OwnershipError QueryPlacement :=
  validated generation numShards .replicatedBroad []

/-- Rebuild a placement from its stored parts. -/
def fromRaw (generation : UInt64) (numShards : UInt32) (mode : UInt8) (positions : List UInt32) :
    Except OwnershipError QueryPlacement := do
  let mode ← PlacementMode.fromByte mode
  validated generation numShards mode positions

theorem fromRaw_parts (p : QueryPlacement) :
    fromRaw p.generation p.numShards p.mode.toByte p.positions = .ok p := by
  rw [fromRaw, PlacementMode.fromByte_toByte]
  show validated p.generation p.numShards p.mode p.positions = .ok p
  unfold validated
  split
  · rfl
  · next e he =>
    rw [p.valid] at he
    contradiction

theorem eq_standalone {p : QueryPlacement} (h : p.mode = .standalone) : p = standalone := by
  obtain ⟨generation, numShards, mode, positions, valid⟩ := p
  simp only at h
  subst h
  rw [validatePlacement, if_pos rfl] at valid
  split at valid
  · contradiction
  · next hparts =>
    simp only [not_or, not_not] at hparts
    obtain ⟨rfl, rfl, rfl⟩ := hparts
    rfl

end QueryPlacement

/-- The positions one read visits, and which of them evaluates the
replicated broad lane. -/
structure OwnershipContext where
  generation : UInt64
  numShards : UInt32
  routedPositions : List UInt32
  broadEvaluator : Option UInt32
deriving DecidableEq, Repr

namespace OwnershipContext

/-- Whether a read context is well formed. -/
def validate (c : OwnershipContext) : Except OwnershipError Unit := do
  if c.generation = standaloneGeneration then .error .missingGeneration
  if c.numShards = 0 then .error .emptyShardSpace
  if c.routedPositions = [] then .error .emptyRoute
  checkPositions c.numShards .routeNotStrictlySorted none c.routedPositions
  match c.broadEvaluator with
  | none => .ok ()
  | some p =>
    if binarySearch c.routedPositions p then .ok () else .error (.broadEvaluatorNotRouted p)

def requireRouted (c : OwnershipContext) (current : UInt32) : Except OwnershipError Unit :=
  if c.numShards ≤ current ∨ binarySearch c.routedPositions current = false then
    .error (.localPositionMissing current)
  else .ok ()

/-- First common element of two sorted lists, by a merge walk. -/
def firstCommon : Nat → List UInt32 → List UInt32 → Option UInt32
  | 0, _, _ => none
  | _ + 1, [], _ => none
  | _ + 1, _, [] => none
  | fuel + 1, p :: ps, r :: rs =>
    if p < r then firstCommon fuel ps (r :: rs)
    else if r < p then firstCommon fuel (p :: ps) rs
    else some p

/-- **The owner**: the routed position that may emit a row. -/
def owner (c : OwnershipContext) (p : QueryPlacement) : Option UInt32 :=
  if p.generation ≠ c.generation ∨ p.numShards ≠ c.numShards then none
  else
    match p.mode with
    | .standalone => none
    | .selective =>
      firstCommon (p.positions.length + c.routedPositions.length) p.positions c.routedPositions
    | .replicatedAlwaysVisible => c.routedPositions.head?
    | .replicatedBroad => c.broadEvaluator

end OwnershipContext

/-- Which matched rows a read emits: standalone reads emit all, a shard of
a routed read emits those it owns. -/
def emitAll (_ : QueryPlacement) : Bool := true

def uniqueOwner (c : OwnershipContext) (current : UInt32) (p : QueryPlacement) : Bool :=
  c.owner p = some current

end ReverseRusty
