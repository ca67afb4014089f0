import ReverseRusty.ControlStep

/-!
# ReverseRusty.ControlMove

Moves of one position under any order of commands.

Every active intent has an origin in the run (`MoveIntent.Origin`): the begin
that recorded it, and, once it is ready, the evidence accepted since.  A
commit is applied only to a ready intent, on a position that is still as
recorded, and leaves no ready intent behind (`MoveCommit`).

Main result: `Run.moves_safe`.
-/

namespace ReverseRusty

open List
open ControlEvent (begunMove committedMove)

/-! ## where an intent comes from -/

/-- The begin an intent comes from, with what was applied since: no other
begin of the operation, the evidence of a ready intent, and no commit unless
the intent is committed. -/
structure MoveIntent.Origin (intent : MoveIntent) (newer older events : List ControlEvent) :
    Prop where
  events_eq : events = newer ++ .begunMove { intent with phase := .preparing } :: older
  begunOnce : ∀ i : MoveIntent, i.operationId = intent.operationId → .begunMove i ∉ newer
  readied : ∀ evidence, intent.phase = .ready evidence →
    intent.evidenceMatches evidence = true ∧ .readiedMove intent.operationId evidence ∈ newer
  uncommitted : (∀ evidence, intent.phase ≠ .committed evidence) →
    .committedMove intent.operationId ∉ newer
  position : intent.desired.position = intent.position

/-- Every intent comes from somewhere in the run. -/
def ClusterState.HasOrigins (s : ClusterState) (events : List ControlEvent) : Prop :=
  ∀ intent ∈ s.moves.intents, ∃ newer older, intent.Origin newer older events

namespace MoveIntent.Origin

variable {intent : MoveIntent} {newer older events : List ControlEvent} {event : ControlEvent}

theorem cons (h : intent.Origin newer older events)
    (hbegun : ∀ i : MoveIntent, i.operationId = intent.operationId → .begunMove i ≠ event)
    (hcommit : .committedMove intent.operationId ≠ event) :
    intent.Origin (event :: newer) older (event :: events) where
  events_eq := by rw [h.events_eq, cons_append]
  begunOnce i hi := by
    simp only [mem_cons, not_or]
    exact ⟨hbegun i hi, h.begunOnce i hi⟩
  readied evidence hphase :=
    ⟨(h.readied evidence hphase).1, mem_cons_of_mem _ (h.readied evidence hphase).2⟩
  uncommitted hphase := by
    simp only [mem_cons, not_or]
    exact ⟨hcommit, h.uncommitted hphase⟩
  position := h.position

theorem cons_of_moveQuiet (h : intent.Origin newer older events) (hquiet : event.moveQuiet = true) :
    intent.Origin (event :: newer) older (event :: events) := by
  refine h.cons (fun i _ heq => ?_) (fun heq => ?_)
  · rw [← heq] at hquiet; cases hquiet
  · rw [← heq] at hquiet; cases hquiet

theorem start (hphase : intent.phase = .preparing)
    (hposition : intent.desired.position = intent.position) :
    intent.Origin [] events (.begunMove intent :: events) where
  events_eq := by
    rw [← hphase]
    rfl
  begunOnce i _ := not_mem_nil
  readied evidence hready := by rw [hphase] at hready; cases hready
  uncommitted _ := not_mem_nil
  position := hposition

variable {evidence : MoveRecoveryEvidence}

theorem ready (h : intent.Origin newer older events) (hphase : intent.phase = .preparing)
    (hevidence : intent.evidenceMatches evidence = true) :
    { intent with phase := .ready evidence : MoveIntent }.Origin
      (.readiedMove intent.operationId evidence :: newer) older
      (.readiedMove intent.operationId evidence :: events) := by
  have hcons := h.cons_of_moveQuiet
    (show (ControlEvent.readiedMove intent.operationId evidence).moveQuiet = true from rfl)
  exact
    { events_eq := hcons.events_eq
      begunOnce := hcons.begunOnce
      readied := fun evidence' heq => by
        cases heq
        exact ⟨hevidence, mem_cons_self⟩
      uncommitted := fun _ => hcons.uncommitted fun evidence' heq => by
        rw [hphase] at heq
        cases heq
      position := h.position }

theorem commit (h : intent.Origin newer older events) :
    { intent with phase := .committed evidence : MoveIntent }.Origin
      (.committedMove intent.operationId :: newer) older
      (.committedMove intent.operationId :: events) where
  events_eq := by rw [h.events_eq, cons_append]
  begunOnce i hi := by
    simp only [mem_cons, not_or]
    exact ⟨by simp [begunMove, committedMove], h.begunOnce i hi⟩
  readied evidence' hready := by cases hready
  uncommitted hno := absurd rfl (hno evidence)
  position := h.position

end MoveIntent.Origin

namespace ClusterState

variable {s : ClusterState} {events : List ControlEvent}

theorem apart_of_ne {intents : List MoveIntent} (h : intents.Pairwise MoveIntent.Apart)
    {i j : Nat} {a b : MoveIntent} (hi : intents[i]? = some a) (hj : intents[j]? = some b)
    (hne : i ≠ j) : a.Apart b := by
  obtain ⟨hilt, rfl⟩ := List.getElem?_eq_some_iff.mp hi
  obtain ⟨hjlt, rfl⟩ := List.getElem?_eq_some_iff.mp hj
  rcases Nat.lt_or_gt_of_ne hne with hlt | hlt
  · exact pairwise_iff_getElem.mp h i j hilt hjlt hlt
  · exact (pairwise_iff_getElem.mp h j i hjlt hilt hlt).symm

theorem HasOrigins.apply (h : s.HasOrigins events) (hex : s.moves.Exclusive)
    (change : ClusterStateChange) :
    (s.apply change).2.HasOrigins (⟨change, (s.apply change).1⟩ :: events) := by
  have hstep := s.apply_intents change
  unfold HasOrigins
  generalize (⟨change, (s.apply change).1⟩ : ControlEvent) = event at hstep ⊢
  generalize (s.apply change).2.moves.intents = intents' at hstep ⊢
  cases hstep with
  | kept hquiet =>
    intro intent hmem
    obtain ⟨newer, older, ho⟩ := h intent hmem
    exact ⟨_, _, ho.cons_of_moveQuiet hquiet⟩
  | @begun new _ hapart hphase hposition =>
    intro intent hmem
    rw [mem_mergeSort, mem_append, mem_singleton] at hmem
    rcases hmem with hmem | rfl
    · obtain ⟨newer, older, ho⟩ := h intent hmem
      refine ⟨_, _, ho.cons (fun i hi heq => ?_) (by simp [begunMove,
        committedMove])⟩
      obtain rfl : i = new := by simpa [begunMove] using heq
      exact (hapart intent hmem).operation hi.symm
    · exact ⟨_, _, .start hphase hposition⟩
  | @readied index found evidence hget hphase hevidence =>
    intro intent hmem
    rcases mem_or_eq_of_mem_set hmem with hmem | rfl
    · obtain ⟨newer, older, ho⟩ := h intent hmem
      exact ⟨_, _, ho.cons_of_moveQuiet rfl⟩
    · obtain ⟨newer, older, ho⟩ := h found (mem_of_getElem? hget)
      exact ⟨_, _, ho.ready hphase hevidence⟩
  | @committed index found evidence hget hphase =>
    intro intent hmem
    obtain ⟨place, hplace⟩ := mem_iff_getElem?.mp hmem
    by_cases hidx : index = place
    · -- the committed intent itself
      subst hidx
      obtain ⟨newer, older, ho⟩ := h found (mem_of_getElem? hget)
      rw [getElem?_set_self (List.getElem?_eq_some_iff.mp hget).1] at hplace
      cases hplace
      exact ⟨_, _, ho.commit⟩
    · rw [getElem?_set_ne hidx] at hplace
      obtain ⟨newer, older, ho⟩ := h intent (mem_of_getElem? hplace)
      refine ⟨_, _, ho.cons (by simp [begunMove, committedMove])
        fun heq => ?_⟩
      have hop : intent.operationId = found.operationId := by
        simpa [committedMove] using heq
      exact (apart_of_ne hex.apart hget hplace hidx).operation hop.symm
  | dropped index hquiet =>
    intro intent hmem
    obtain ⟨newer, older, ho⟩ := h intent (mem_of_mem_eraseIdx hmem)
    exact ⟨_, _, ho.cons_of_moveQuiet hquiet⟩

theorem Run.hasOrigins {s₀ : ClusterState} (h : Run s₀ events s)
    (hmoves : s₀.moves.intents = []) : s.HasOrigins events := by
  have h₀ : s₀.moves.Exclusive := ⟨hmoves ▸ .nil, fun _ => hmoves⟩
  induction h with
  | start => simp [HasOrigins, hmoves]
  | step h change ih => exact ih.apply (h.exclusive h₀) change

/-! ## what a commit does -/

/-- What an applied commit of a move found and left. -/
structure MoveCommit (events : List ControlEvent) (before after : ClusterState)
    (intent : MoveIntent) (evidence : MoveRecoveryEvidence) : Prop where
  /-- The begin is the last one of the operation, not committed before, and
  the evidence was accepted since. -/
  begun : ∃ newer older,
    events = newer ++ .begunMove { intent with phase := .preparing } :: older ∧
    (∀ i : MoveIntent, i.operationId = intent.operationId → .begunMove i ∉ newer) ∧
    .committedMove intent.operationId ∉ newer ∧
    .readiedMove intent.operationId evidence ∈ newer
  evidenceNodes : intent.desired.nodes = some (evidence.members.map MoveMemberEvidence.node)
  expected : before.assignmentAt intent.position = some intent.expected
  assignmentGeneration :
    before.moves.assignmentGeneration intent.position = intent.expectedAssignmentGeneration
  placementGeneration : before.placementGeneration = intent.placementGeneration
  members : intent.expectedMemberNodes = some (intent.members.map MoveMemberIdentity.node)
  endpoints : ∀ member ∈ intent.members,
    before.registeredEndpoint member.node = some member.endpoint
  /-- Exactly the desired assignment for the position, and every other one
  as it was. -/
  assignments : after.assignments.Perm
    (intent.desired :: before.assignments.filter fun a => a.position ≠ intent.position)
  desiredPosition : intent.desired.position = intent.position

theorem identitiesMatch_iff {intent : MoveIntent} (h : s.identitiesMatch intent = true) :
    intent.expectedMemberNodes = some (intent.members.map MoveMemberIdentity.node) ∧
    ∀ member ∈ intent.members, s.registeredEndpoint member.node = some member.endpoint := by
  unfold identitiesMatch at h
  split at h
  · cases h
  next nodes hnodes =>
  obtain ⟨-, -, hmembers, hregistered, -, -⟩ := of_decide_eq_true h
  exact ⟨hmembers ▸ hnodes, fun member hmember => (hregistered member hmember).2.2⟩

theorem MoveIntent.nodes_of_evidenceMatches {intent : MoveIntent}
    {evidence : MoveRecoveryEvidence} (h : intent.evidenceMatches evidence = true) :
    intent.desired.nodes = some (evidence.members.map MoveMemberEvidence.node) := by
  unfold MoveIntent.evidenceMatches at h
  split at h
  · cases h
  next desired hdesired =>
  obtain ⟨-, hnodes, -⟩ := of_decide_eq_true h
  rw [hdesired, hnodes]

/-- A commit in a run: nothing changes unless it is applied, and then it does
what `MoveCommit` says. -/
theorem HasOrigins.commitMove (h : s.HasOrigins events) {op : Nat}
    {outcome : MoveCommandOutcome} {s' : ClusterState}
    (hcommit : s.apply (.move (.commit op)) = (some outcome, s')) :
    (outcome ≠ .applied → s'.assignments = s.assignments) ∧
    (outcome = .applied →
      ∃ intent evidence, intent.operationId = op ∧ MoveCommit events s s' intent evidence) := by
  have heq : (s.fenceFormat moveControlFormatCurrent).commitMove op = (outcome, s') := by
    obtain ⟨houtcome, hstate⟩ := Prod.mk.inj hcommit
    exact Prod.ext (Option.some.inj houtcome) hstate
  constructor
  · intro hne
    rw [commitMove_of_ne heq hne]
    rfl
  · rintro rfl
    obtain ⟨index, intent, evidence, hget, rfl, hphase, hmatch, rfl⟩ := commitMove_applied heq
    obtain ⟨newer, older, ho⟩ := h intent (mem_of_getElem? hget)
    obtain ⟨hevidence, hready⟩ := ho.readied evidence hphase
    obtain ⟨hexpected, hgeneration, hplacement, hidentities⟩ := of_decide_eq_true hmatch
    obtain ⟨hmembers, hendpoints⟩ := identitiesMatch_iff hidentities
    refine ⟨intent, evidence, rfl, ⟨newer, older, ho.events_eq, ho.begunOnce,
      ho.uncommitted (by simp [hphase]), hready⟩, MoveIntent.nodes_of_evidenceMatches hevidence,
      hexpected, hgeneration, hplacement, hmembers, hendpoints, ?_, ho.position⟩
    rw [← ho.position]
    exact (mergeSort_perm _ _).trans (perm_append_singleton _ _)

/-- **Moves are safe under any order of commands.**  From a document without
recorded work, over every run, the active intents stand apart and exclude a
resize, and a commit changes the assignments only as `MoveCommit` says. -/
theorem Run.moves_safe {s₀ : ClusterState} (hmoves : s₀.moves.intents = [])
    (h : Run s₀ events s) :
    s.moves.intents.Pairwise MoveIntent.Apart ∧
    (s.moves.resize.isSome → s.moves.intents = []) ∧
    ∀ op outcome s', s.apply (.move (.commit op)) = (some outcome, s') →
      (outcome ≠ .applied → s'.assignments = s.assignments) ∧
      (outcome = .applied →
        ∃ intent evidence, intent.operationId = op ∧ MoveCommit events s s' intent evidence) := by
  have hex : s.moves.Exclusive := h.exclusive ⟨hmoves ▸ .nil, fun _ => hmoves⟩
  exact ⟨hex.apart, hex.resize, fun op outcome s' hcommit =>
    (h.hasOrigins hmoves).commitMove hcommit⟩

def twoNodes : ClusterState where
  nodes := [⟨1, some "a:1", .data⟩, ⟨2, some "b:1", .data⟩]
  assignments := [⟨0, 1, []⟩]
  numShards := 1
  dictFingerprint := 0
  modelVersion := 0
  placementGeneration := 0
  moves := ⟨0, [], [], none⟩

def moveToSecond : MoveIntent where
  intentVersion := moveIntentVersion
  operationId := 7
  position := 0
  expectedAssignmentGeneration := 0
  placementGeneration := 0
  expected := ⟨0, 1, []⟩
  desired := ⟨0, 2, []⟩
  members := [⟨1, "a:1"⟩, ⟨2, "b:1"⟩]
  liveGeneration := 3
  sourceFenceGeneration := 3
  initialAuthority := .expected
  phase := .preparing

def moveToSecondReady : ClusterState :=
  ((twoNodes.apply (.move (.begin moveToSecond))).2.apply
    (.move (.markReady 7 ⟨3, [⟨2, 0, 0, 1⟩]⟩))).2

theorem moveToSecond_safe :
    ∃ events s', Run twoNodes events moveToSecondReady ∧
      moveToSecondReady.apply (.move (.commit 7)) = (some .applied, s') ∧
      ∃ intent evidence, intent.operationId = 7 ∧
        MoveCommit events moveToSecondReady s' intent evidence := by
  have hrun : Run twoNodes _ moveToSecondReady :=
    (Run.start.step (.move (.begin moveToSecond))).step
      (.move (.markReady 7 ⟨3, [⟨2, 0, 0, 1⟩]⟩))
  have happlied : (moveToSecondReady.apply (.move (.commit 7))).1 = some .applied := by
    decide +kernel
  have hcommit : moveToSecondReady.apply (.move (.commit 7)) =
      (some .applied, (moveToSecondReady.apply (.move (.commit 7))).2) := Prod.ext happlied rfl
  exact ⟨_, _, hrun, hcommit, ((Run.moves_safe rfl hrun).2.2 7 _ _ hcommit).2 rfl⟩

end ClusterState

end ReverseRusty
