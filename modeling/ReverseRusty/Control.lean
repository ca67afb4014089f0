import ReverseRusty.Lib.Slice

/-!
# ReverseRusty.Control

The control document of a cluster and its transitions
(`cluster/control.rs`, `control/move_intent.rs`, `control/resize_intent.rs`).

The document holds the members, the shard map and the placement generation.
Physical work outside the document (moving one position, resizing the whole
cluster) is recorded as an intent that goes from preparing over ready to
committed; every command is idempotent by its operation id, and its
preconditions are evaluated where it is applied.

`ClusterState.apply` is the one function every replica of the document runs.
-/

namespace ReverseRusty

/-- A logical node. -/
abbrev NodeId : Type := UInt64

inductive NodeRole where
  | data
  | manager
deriving DecidableEq, Repr

structure NodeDescriptor where
  id : NodeId
  addr : Option String
  role : NodeRole
deriving DecidableEq, Repr

structure ShardAssignment where
  position : Nat
  primary : NodeId
  replicas : List NodeId
deriving DecidableEq, Repr

/-! ## move intents -/

structure AssignmentGeneration where
  position : Nat
  generation : Nat
deriving DecidableEq, Repr

/-- A node and the normalized endpoint it had when the work was planned. -/
structure MoveMemberIdentity where
  node : NodeId
  endpoint : String
deriving DecidableEq, Repr

/-- The side that served writes when the intent was created. -/
inductive MoveInitialAuthority where
  | expected
  | desired
deriving DecidableEq, Repr

structure MoveMemberEvidence where
  node : NodeId
  fingerprintLo : UInt64
  fingerprintHi : UInt64
  liveCount : UInt64
deriving DecidableEq, Repr

structure MoveRecoveryEvidence where
  liveGeneration : Nat
  members : List MoveMemberEvidence
deriving DecidableEq, Repr

inductive MoveIntentPhase where
  | preparing
  | ready (evidence : MoveRecoveryEvidence)
  | committed (evidence : MoveRecoveryEvidence)
deriving DecidableEq, Repr

structure MoveIntent where
  intentVersion : Nat
  operationId : Nat
  position : Nat
  expectedAssignmentGeneration : Nat
  placementGeneration : Nat
  expected : ShardAssignment
  desired : ShardAssignment
  members : List MoveMemberIdentity
  liveGeneration : Nat
  sourceFenceGeneration : Nat
  initialAuthority : MoveInitialAuthority
  phase : MoveIntentPhase
deriving DecidableEq, Repr

inductive MoveCommand where
  | begin (intent : MoveIntent)
  | markReady (operationId : Nat) (evidence : MoveRecoveryEvidence)
  | commit (operationId : Nat)
  | abort (operationId : Nat)
  | finish (operationId : Nat)
deriving DecidableEq, Repr

inductive MoveCommandOutcome where
  | applied
  | alreadyApplied
  | conflict
  | invalid
deriving DecidableEq, Repr

/-! ## resize intents -/

structure ResizeLayout where
  numShards : Nat
  placementGeneration : Nat
  assignments : List ShardAssignment
deriving DecidableEq, Repr

structure ResizePositionEvidence where
  position : Nat
  fingerprintLo : UInt64
  fingerprintHi : UInt64
  liveCount : UInt64
deriving DecidableEq, Repr

inductive ResizeIntentPhase where
  | preparing
  | ready (evidence : List ResizePositionEvidence)
  | committed (evidence : List ResizePositionEvidence)
deriving DecidableEq, Repr

structure ResizeIntent where
  intentVersion : Nat
  operationId : Nat
  expected : ResizeLayout
  desired : ResizeLayout
  members : List MoveMemberIdentity
  phase : ResizeIntentPhase
deriving DecidableEq, Repr

inductive ResizeCommand where
  | begin (intent : ResizeIntent)
  | markReady (operationId : Nat) (evidence : List ResizePositionEvidence)
  | commit (operationId : Nat)
  | abort (operationId : Nat)
  | finish (operationId : Nat)
deriving DecidableEq, Repr

/-! ## the document -/

structure MoveControlState where
  formatVersion : Nat
  assignmentGenerations : List AssignmentGeneration
  intents : List MoveIntent
  resize : Option ResizeIntent
deriving DecidableEq, Repr

/-- The replicated control state of a cluster. -/
structure ClusterState where
  nodes : List NodeDescriptor
  assignments : List ShardAssignment
  numShards : Nat
  dictFingerprint : UInt64
  modelVersion : Nat
  placementGeneration : Nat
  moves : MoveControlState
deriving DecidableEq, Repr

inductive ClusterStateChange where
  | addNode (node : NodeDescriptor)
  | removeNode (id : NodeId)
  | assignShard (assignment : ShardAssignment)
  | bumpModelVersion (dictFingerprint : UInt64)
  | setShardCount (numShards : Nat)
  | move (command : MoveCommand)
  | resize (command : ResizeCommand)
deriving DecidableEq, Repr

def u64Max : Nat := 2 ^ 64 - 1

/-- Add one, up to the largest `u64`. -/
def saturatingSucc (n : Nat) : Nat := min (n + 1) u64Max

def moveIntentVersion : Nat := 3

def moveControlFormatCurrent : Nat := 4

def resizeIntentVersion : Nat := 1

def resizeControlFormat : Nat := 5

/-! ## generations of assignments -/

namespace MoveControlState

def assignmentGeneration (m : MoveControlState) (position : Nat) : Nat :=
  ((m.assignmentGenerations.find? fun entry => entry.position = position).map
    AssignmentGeneration.generation).getD 0

def bumpAssignmentGeneration (m : MoveControlState) (position : Nat) : MoveControlState :=
  match m.assignmentGenerations.findIdx? fun entry => entry.position = position with
  | some i =>
    { m with
      assignmentGenerations := m.assignmentGenerations.modify i fun entry =>
        { entry with generation := saturatingSucc entry.generation } }
  | none =>
    { m with
      assignmentGenerations := (m.assignmentGenerations ++
        [(⟨position, 1⟩ : AssignmentGeneration)]).mergeSort fun a b => a.position ≤ b.position }

/-- Forget the generations of positions that are gone; an intent stays. -/
def retainPositionsBelow (m : MoveControlState) (numShards : Nat) : MoveControlState :=
  { m with
    assignmentGenerations := m.assignmentGenerations.filter fun entry => entry.position < numShards }

/-- Raise the format the document is written in; it is never lowered. -/
def fenceFormat (m : MoveControlState) (format : Nat) : MoveControlState :=
  { m with formatVersion := max m.formatVersion format }

end MoveControlState

/-! ## checks of a move -/

def normalizedMoveEndpoint (endpoint : String) : String :=
  String.ofList ((endpoint.toList.reverse.dropWhile (· = '/')).reverse.map Char.toLower)

namespace ShardAssignment

def nodes (a : ShardAssignment) : Option (List NodeId) :=
  let nodes := sortDedup (a.primary :: a.replicas)
  if nodes.length = (a.primary :: a.replicas).length then some nodes else none

end ShardAssignment

namespace MoveIntent

def expectedMemberNodes (intent : MoveIntent) : Option (List NodeId) := do
  let expected ← intent.expected.nodes
  let desired ← intent.desired.nodes
  return sortDedup (expected ++ desired)

def memberEndpoint (intent : MoveIntent) (node : NodeId) : Option String :=
  (intent.members.find? fun member => member.node = node).map MoveMemberIdentity.endpoint

def assignmentEndpointsUnique (intent : MoveIntent) (assignment : ShardAssignment) : Bool :=
  match assignment.nodes with
  | none => false
  | some nodes =>
    let endpoints := nodes.filterMap intent.memberEndpoint
    endpoints.length = 1 + assignment.replicas.length ∧ endpoints.Nodup

def sourceAliasesDesired (intent : MoveIntent) : Bool :=
  match intent.memberEndpoint intent.expected.primary with
  | none => false
  | some source =>
    intent.desired.nodes.any fun nodes =>
      nodes.any fun node =>
        node ≠ intent.expected.primary ∧ intent.memberEndpoint node = some source

def memberEndpointsOverlap (left right : MoveIntent) : Bool :=
  left.members.any fun l => right.members.any fun r => l.endpoint = r.endpoint

def sameMoveIdentity (left right : MoveIntent) : Bool :=
  { left with phase := .preparing } = { right with phase := .preparing }

def evidenceMatches (intent : MoveIntent) (evidence : MoveRecoveryEvidence) : Bool :=
  match intent.desired.nodes with
  | none => false
  | some desired =>
    let evidenceNodes := evidence.members.map MoveMemberEvidence.node
    evidenceNodes.Pairwise (· < ·) ∧ evidenceNodes = desired ∧
      evidence.liveGeneration = intent.liveGeneration

end MoveIntent

namespace ClusterState

variable (s : ClusterState)

def registeredEndpoint (node : NodeId) : Option String :=
  ((s.nodes.find? fun n => n.id = node).bind NodeDescriptor.addr).map normalizedMoveEndpoint

def assignmentAt (position : Nat) : Option ShardAssignment :=
  s.assignments.find? fun a => a.position = position

def identitiesMatch (intent : MoveIntent) : Bool :=
  match intent.expectedMemberNodes with
  | none => false
  | some nodes =>
    intent.members.length = nodes.length ∧
    (intent.members.map MoveMemberIdentity.node).Pairwise (· < ·) ∧
    intent.members.map MoveMemberIdentity.node = nodes ∧
    (∀ member ∈ intent.members, member.endpoint ≠ "" ∧
      member.endpoint = normalizedMoveEndpoint member.endpoint ∧
      s.registeredEndpoint member.node = some member.endpoint) ∧
    intent.assignmentEndpointsUnique intent.expected ∧
    intent.assignmentEndpointsUnique intent.desired

def validMoveBegin (intent : MoveIntent) : Bool :=
  intent.intentVersion = moveIntentVersion ∧
  intent.operationId ≠ 0 ∧
  intent.position < s.numShards ∧
  intent.expected.position = intent.position ∧
  intent.desired.position = intent.position ∧
  intent.expected ≠ intent.desired ∧
  (intent.liveGeneration ≠ 0 ∨ intent.initialAuthority = .desired) ∧
  (if intent.sourceAliasesDesired then
    intent.initialAuthority = .desired ∧ intent.sourceFenceGeneration = 0
  else intent.sourceFenceGeneration ≠ 0) ∧
  (intent.initialAuthority ≠ .expected ∨
    intent.sourceFenceGeneration = intent.liveGeneration) ∧
  (intent.initialAuthority ≠ .desired ∨
    intent.expected.replicas = [] ∧ intent.desired.replicas = []) ∧
  intent.placementGeneration = s.placementGeneration ∧
  intent.phase = .preparing ∧
  s.identitiesMatch intent

def assignmentMatchesExpected (intent : MoveIntent) : Bool :=
  s.assignmentAt intent.position = some intent.expected ∧
  s.moves.assignmentGeneration intent.position = intent.expectedAssignmentGeneration ∧
  s.placementGeneration = intent.placementGeneration ∧
  s.identitiesMatch intent

/-! ## applying a move -/

def replaceAssignment (assignment : ShardAssignment) : ClusterState :=
  { s with
    assignments := ((s.assignments.filter fun a => a.position ≠ assignment.position) ++
      [assignment]).mergeSort fun a b => a.position ≤ b.position
    moves := s.moves.bumpAssignmentGeneration assignment.position }

def withIntents (intents : List MoveIntent) : ClusterState :=
  { s with moves := { s.moves with intents := intents } }

def withResize (resize : Option ResizeIntent) : ClusterState :=
  { s with moves := { s.moves with resize := resize } }

def fenceFormat (format : Nat) : ClusterState :=
  { s with moves := s.moves.fenceFormat format }

def moveIntentOf (operationId : Nat) : Option (Nat × MoveIntent) :=
  match s.moves.intents.findIdx? fun i => i.operationId = operationId with
  | none => none
  | some index => (s.moves.intents[index]?).map fun intent => (index, intent)

def repeatedBegin (current intent : MoveIntent) : MoveCommandOutcome :=
  if current.sameMoveIdentity intent then .alreadyApplied else .conflict

def beginMove (intent : MoveIntent) : MoveCommandOutcome × ClusterState :=
  if !s.validMoveBegin intent then (.invalid, s)
  else if s.moves.resize.isSome then (.conflict, s)
  else
    match s.moves.intents.find? fun i => i.operationId = intent.operationId with
    | some current => (repeatedBegin current intent, s)
    | none =>
      if s.moves.intents.any fun i => i.memberEndpointsOverlap intent then (.conflict, s)
      else
        match s.moves.intents.find? fun i => i.position = intent.position with
        | some current => (repeatedBegin current intent, s)
        | none =>
          if !s.assignmentMatchesExpected intent then (.conflict, s)
          else
            (.applied, s.withIntents ((s.moves.intents ++ [intent]).mergeSort
              fun a b => a.position ≤ b.position))

def markMoveReady (operationId : Nat) (evidence : MoveRecoveryEvidence) :
    MoveCommandOutcome × ClusterState :=
  match s.moveIntentOf operationId with
  | none => (.conflict, s)
  | some (index, intent) =>
    if !intent.evidenceMatches evidence then (.invalid, s)
    else
      match intent.phase with
      | .preparing =>
        if !s.assignmentMatchesExpected intent then (.conflict, s)
        else
          (.applied, s.withIntents (s.moves.intents.set index
            { intent with phase := .ready evidence }))
      | .ready current | .committed current =>
        (if current = evidence then .alreadyApplied else .conflict, s)

def commitMove (operationId : Nat) : MoveCommandOutcome × ClusterState :=
  match s.moveIntentOf operationId with
  | none => (.conflict, s)
  | some (index, intent) =>
    match intent.phase with
    | .preparing => (.conflict, s)
    | .ready evidence =>
      if !s.assignmentMatchesExpected intent then (.conflict, s)
      else
        (.applied, (s.replaceAssignment intent.desired).withIntents
          (s.moves.intents.set index { intent with phase := .committed evidence }))
    | .committed _ =>
      (if s.assignmentAt intent.position = some intent.desired then .alreadyApplied else .conflict, s)

def abortMove (operationId : Nat) : MoveCommandOutcome × ClusterState :=
  match s.moveIntentOf operationId with
  | none => (.alreadyApplied, s)
  | some (index, intent) =>
    if intent.initialAuthority ≠ .expected ∨ intent.phase ≠ .preparing ∨
        !s.assignmentMatchesExpected intent then (.conflict, s)
    else (.applied, s.withIntents (s.moves.intents.eraseIdx index))

def finishMove (operationId : Nat) : MoveCommandOutcome × ClusterState :=
  match s.moveIntentOf operationId with
  | none => (.alreadyApplied, s)
  | some (index, intent) =>
    match intent.phase with
    | .preparing | .ready _ => (.conflict, s)
    | .committed _ =>
      if s.assignmentAt intent.position ≠ some intent.desired ∨
          s.moves.assignmentGeneration intent.position ≠
            saturatingSucc intent.expectedAssignmentGeneration ∨
          s.placementGeneration ≠ intent.placementGeneration ∨
          !s.identitiesMatch intent then (.conflict, s)
      else (.applied, s.withIntents (s.moves.intents.eraseIdx index))

def applyMove (command : MoveCommand) : MoveCommandOutcome × ClusterState :=
  let s := s.fenceFormat moveControlFormatCurrent
  match command with
  | .begin intent => s.beginMove intent
  | .markReady operationId evidence => s.markMoveReady operationId evidence
  | .commit operationId => s.commitMove operationId
  | .abort operationId => s.abortMove operationId
  | .finish operationId => s.finishMove operationId

end ClusterState

/-! ## checks of a resize -/

namespace ResizeLayout

def wellFormed (l : ResizeLayout) : Bool :=
  1 ≤ l.numShards ∧ l.assignments.length = l.numShards ∧
  ∀ a ∈ l.assignments.zipIdx, a.1.position = a.2 ∧ a.1.nodes.isSome

def nodes (l : ResizeLayout) : List NodeId :=
  sortDedup (l.assignments.flatMap fun a => a.primary :: a.replicas)

end ResizeLayout

namespace ResizeIntent

def sameIdentity (intent other : ResizeIntent) : Bool :=
  { intent with phase := .preparing } = { other with phase := .preparing }

def evidenceMatches (intent : ResizeIntent) (evidence : List ResizePositionEvidence) : Bool :=
  evidence.length = intent.desired.numShards ∧ ∀ e ∈ evidence.zipIdx, e.1.position = e.2

end ResizeIntent

namespace ClusterState

variable (s : ClusterState)

def holds (l : ResizeLayout) : Bool :=
  s.numShards = l.numShards ∧ s.placementGeneration = l.placementGeneration ∧
  s.assignments = l.assignments

/-- The members are the desired nodes, each registered at its recorded
endpoint; no endpoint is shared by two of them or with the old layout. -/
def membersMatch (intent : ResizeIntent) : Bool :=
  intent.members.map MoveMemberIdentity.node = intent.desired.nodes ∧
  (∀ member ∈ intent.members, member.endpoint ≠ "" ∧
    member.endpoint = normalizedMoveEndpoint member.endpoint ∧
    s.registeredEndpoint member.node = some member.endpoint) ∧
  (intent.members.map MoveMemberIdentity.endpoint).Nodup ∧
  intent.expected.nodes.all fun node =>
    (s.registeredEndpoint node).any fun endpoint =>
      endpoint ∉ intent.members.map MoveMemberIdentity.endpoint

def validResizeBegin (intent : ResizeIntent) : Bool :=
  intent.intentVersion = resizeIntentVersion ∧
  intent.operationId ≠ 0 ∧
  intent.phase = .preparing ∧
  intent.expected.wellFormed ∧
  intent.desired.wellFormed ∧
  (intent.expected.placementGeneration < u64Max ∧
    intent.expected.placementGeneration + 1 = intent.desired.placementGeneration) ∧
  s.membersMatch intent

/-! ## applying a resize -/

def beginResize (intent : ResizeIntent) : MoveCommandOutcome × ClusterState :=
  if !s.validResizeBegin intent then (.invalid, s)
  else
    match s.moves.resize with
    | some current => (if current.sameIdentity intent then .alreadyApplied else .conflict, s)
    | none =>
      if !s.moves.intents.isEmpty || !s.holds intent.expected then (.conflict, s)
      else (.applied, s.withResize (some intent))

def markResizeReady (operationId : Nat) (evidence : List ResizePositionEvidence) :
    MoveCommandOutcome × ClusterState :=
  match s.moves.resize with
  | none => (.conflict, s)
  | some intent =>
    if intent.operationId ≠ operationId then (.conflict, s)
    else if !intent.evidenceMatches evidence then (.invalid, s)
    else
      match intent.phase with
      | .preparing =>
        if !s.holds intent.expected || !s.membersMatch intent then (.conflict, s)
        else (.applied, s.withResize (some { intent with phase := .ready evidence }))
      | .ready current | .committed current =>
        (if current = evidence then .alreadyApplied else .conflict, s)

/-- Put the desired layout in place; the nodes only the old one used leave
the members. -/
def installLayout (intent : ResizeIntent) : ClusterState :=
  let retired := intent.expected.nodes.filter fun node => node ∉ intent.desired.nodes
  { s with
    numShards := intent.desired.numShards
    placementGeneration := intent.desired.placementGeneration
    assignments := intent.desired.assignments
    nodes := s.nodes.filter fun n => n.role ≠ .data ∨ n.id ∉ retired
    moves := (List.range intent.desired.numShards).foldl
      MoveControlState.bumpAssignmentGeneration
      (s.moves.retainPositionsBelow intent.desired.numShards) }

def commitResize (operationId : Nat) : MoveCommandOutcome × ClusterState :=
  match s.moves.resize with
  | none => (.conflict, s)
  | some intent =>
    if intent.operationId ≠ operationId then (.conflict, s)
    else
      match intent.phase with
      | .preparing => (.conflict, s)
      | .ready evidence =>
        if !s.holds intent.expected || !s.membersMatch intent then (.conflict, s)
        else
          (.applied, (s.installLayout intent).withResize
            (some { intent with phase := .committed evidence }))
      | .committed _ =>
        (if s.holds intent.desired then .alreadyApplied else .conflict, s)

def abortResize (operationId : Nat) : MoveCommandOutcome × ClusterState :=
  match s.moves.resize with
  | none => (.alreadyApplied, s)
  | some intent =>
    match intent.phase with
    | .committed _ => (.conflict, s)
    | .preparing | .ready _ =>
      if intent.operationId ≠ operationId then (.conflict, s)
      else (.applied, s.withResize none)

def finishResize (operationId : Nat) : MoveCommandOutcome × ClusterState :=
  match s.moves.resize with
  | none => (.alreadyApplied, s)
  | some intent =>
    match intent.phase with
    | .preparing | .ready _ => (.conflict, s)
    | .committed _ =>
      if intent.operationId ≠ operationId || !s.holds intent.desired then (.conflict, s)
      else (.applied, s.withResize none)

def applyResize (command : ResizeCommand) : MoveCommandOutcome × ClusterState :=
  let s := s.fenceFormat resizeControlFormat
  match command with
  | .begin intent => s.beginResize intent
  | .markReady operationId evidence => s.markResizeReady operationId evidence
  | .commit operationId => s.commitResize operationId
  | .abort operationId => s.abortResize operationId
  | .finish operationId => s.finishResize operationId

/-! ## applying a change -/

def addNode (node : NodeDescriptor) : ClusterState :=
  { s with
    nodes := ((s.nodes.filter fun n => n.id ≠ node.id) ++ [node]).mergeSort
      fun a b => a.id ≤ b.id }

def bumpModelVersion (dictFingerprint : UInt64) : ClusterState :=
  { s with
    dictFingerprint := dictFingerprint
    modelVersion := s.modelVersion + 1
    placementGeneration := saturatingSucc s.placementGeneration }

/-- Set the number of positions: those beyond it are dropped, new ones go to
node zero. -/
def setShardCount (numShards : Nat) : ClusterState :=
  let kept := s.assignments.filter fun a => a.position < numShards
  let added := (List.range numShards).foldl (fun (as : List ShardAssignment) position =>
    if as.any fun a => a.position = position then as else as ++ [⟨position, 0, []⟩]) kept
  { s with
    numShards := numShards
    placementGeneration := saturatingSucc s.placementGeneration
    assignments := added.mergeSort fun a b => a.position ≤ b.position
    moves := s.moves.retainPositionsBelow numShards }

def apply : ClusterStateChange → Option MoveCommandOutcome × ClusterState
  | .addNode node => (none, s.addNode node)
  | .removeNode id => (none, { s with nodes := s.nodes.filter fun n => n.id ≠ id })
  | .assignShard assignment => (none, s.replaceAssignment assignment)
  | .bumpModelVersion dictFingerprint => (none, s.bumpModelVersion dictFingerprint)
  | .setShardCount numShards => (none, s.setShardCount numShards)
  | .move command => let (outcome, s) := s.applyMove command; (some outcome, s)
  | .resize command => let (outcome, s) := s.applyResize command; (some outcome, s)

end ClusterState

end ReverseRusty
