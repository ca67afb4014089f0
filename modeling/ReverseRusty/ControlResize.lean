import ReverseRusty.ControlStep

/-!
# ReverseRusty.ControlResize

A resize of the whole cluster under any order of commands.

The document has room for one resize.  Over every run the one in it has an
origin (`ResizeIntent.Origin`): its begin, with no other begin applied since,
and, once it is ready, the evidence accepted since.  From its begin until it
is finished or aborted no move is active (`Run.resize_stays`).

Main result: `Run.resize_atomic`.
-/

namespace ReverseRusty

open List
open ControlEvent (begunResize readiedResize committedResize)

/-! ## where a resize comes from -/

/-- The begin a resize comes from, with what was applied since. -/
structure ResizeIntent.Origin (intent : ResizeIntent) (newer older events : List ControlEvent) :
    Prop where
  events_eq : events = newer ++ .begunResize { intent with phase := .preparing } :: older
  begunOnce : ∀ i : ResizeIntent, .begunResize i ∉ newer
  readied : ∀ evidence, intent.phase = .ready evidence →
    intent.evidenceMatches evidence = true ∧ .readiedResize intent.operationId evidence ∈ newer
  uncommitted : (∀ evidence, intent.phase ≠ .committed evidence) →
    .committedResize intent.operationId ∉ newer
  desired : intent.desired.wellFormed = true

namespace ResizeIntent.Origin

variable {intent : ResizeIntent} {newer older events : List ControlEvent} {event : ControlEvent}

theorem cons_of_resizeQuiet (h : intent.Origin newer older events)
    (hquiet : event.resizeQuiet = true) :
    intent.Origin (event :: newer) older (event :: events) where
  events_eq := by rw [h.events_eq, cons_append]
  begunOnce i := by
    simp only [mem_cons, not_or]
    refine ⟨fun heq => ?_, h.begunOnce i⟩
    rw [← heq] at hquiet
    cases hquiet
  readied evidence hphase :=
    ⟨(h.readied evidence hphase).1, mem_cons_of_mem _ (h.readied evidence hphase).2⟩
  uncommitted hphase := by
    simp only [mem_cons, not_or]
    refine ⟨fun heq => ?_, h.uncommitted hphase⟩
    rw [← heq] at hquiet
    cases hquiet
  desired := h.desired

theorem start (hphase : intent.phase = .preparing) (hdesired : intent.desired.wellFormed = true) :
    intent.Origin [] events (.begunResize intent :: events) where
  events_eq := by
    rw [← hphase]
    rfl
  begunOnce i := not_mem_nil
  readied evidence hready := by rw [hphase] at hready; cases hready
  uncommitted _ := not_mem_nil
  desired := hdesired

variable {evidence : List ResizePositionEvidence}

theorem ready (h : intent.Origin newer older events) (hphase : intent.phase = .preparing)
    (hevidence : intent.evidenceMatches evidence = true) :
    { intent with phase := .ready evidence : ResizeIntent }.Origin
      (.readiedResize intent.operationId evidence :: newer) older
      (.readiedResize intent.operationId evidence :: events) := by
  have hcons := h.cons_of_resizeQuiet
    (show (readiedResize intent.operationId evidence).resizeQuiet = true from rfl)
  exact
    { events_eq := hcons.events_eq
      begunOnce := hcons.begunOnce
      readied := fun evidence' heq => by
        cases heq
        exact ⟨hevidence, mem_cons_self⟩
      uncommitted := fun _ => hcons.uncommitted fun evidence' heq => by
        rw [hphase] at heq
        cases heq
      desired := h.desired }

theorem commit (h : intent.Origin newer older events) :
    { intent with phase := .committed evidence : ResizeIntent }.Origin
      (.committedResize intent.operationId :: newer) older
      (.committedResize intent.operationId :: events) where
  events_eq := by rw [h.events_eq, cons_append]
  begunOnce i := by
    simp only [mem_cons, not_or]
    exact ⟨by simp [begunResize, committedResize], h.begunOnce i⟩
  readied evidence' hready := by cases hready
  uncommitted hno := absurd rfl (hno evidence)
  desired := h.desired

end ResizeIntent.Origin

namespace ClusterState

variable {s s₀ : ClusterState} {events : List ControlEvent}

theorem Run.resize_origin (h : Run s₀ events s) (h₀ : s₀.moves.resize = none)
    {intent : ResizeIntent} (hsome : s.moves.resize = some intent) :
    ∃ newer older, intent.Origin newer older events := by
  induction h generalizing intent with
  | start => rw [h₀] at hsome; cases hsome
  | @step events s h change ih =>
    have hstep := s.apply_resize change
    rw [hsome] at hstep
    generalize (⟨change, (s.apply change).1⟩ : ControlEvent) = event at hstep ⊢
    generalize hbefore : s.moves.resize = resize at hstep
    cases hstep with
    | kept hquiet =>
      obtain ⟨newer, older, ho⟩ := ih hbefore
      exact ⟨_, _, ho.cons_of_resizeQuiet hquiet⟩
    | begun _ hphase hdesired => exact ⟨_, _, .start hphase hdesired⟩
    | readied hphase hevidence =>
      obtain ⟨newer, older, ho⟩ := ih hbefore
      exact ⟨_, _, ho.ready hphase hevidence⟩
    | committed hphase =>
      obtain ⟨newer, older, ho⟩ := ih hbefore
      exact ⟨_, _, ho.commit⟩

theorem Run.intents_of_resize (h : Run s₀ events s) (h₀ : s₀.moves.resize = none)
    (hsome : s.moves.resize.isSome) : s.moves.intents = [] := by
  induction h with
  | start => rw [h₀] at hsome; cases hsome
  | step h change ih => exact intents_apply_of_resize ih change hsome

theorem Run.resize_stays (h : Run s₀ events s) {intent : ResizeIntent}
    {newer older : List ControlEvent} (hevents : events = newer ++ .begunResize intent :: older)
    (hopen : ∀ event ∈ newer, ¬event.ClosedResize intent.operationId) :
    ∃ phase, s.moves.resize = some { intent with phase := phase } := by
  induction h generalizing newer with
  | start => simp at hevents
  | @step events s h change ih =>
    have hstep := s.apply_resize change
    generalize (s.apply change).2.moves.resize = resize' at hstep ⊢
    cases newer with
    | nil =>
      obtain ⟨hevent, -⟩ := List.cons.inj hevents
      rw [hevent] at hstep
      generalize s.moves.resize = resize at hstep
      generalize heq : begunResize intent = event at hstep
      cases hstep with
      | kept hquiet => rw [← heq] at hquiet; cases hquiet
      | @begun new =>
        obtain rfl : intent = new := by simpa [begunResize] using heq
        exact ⟨intent.phase, rfl⟩
      | readied => simp [begunResize, readiedResize] at heq
      | committed => simp [begunResize, committedResize] at heq
      | closed hclosed =>
        rcases hclosed with rfl | rfl
        · simp [begunResize] at heq
        · simp [begunResize] at heq
    | cons event newer =>
      obtain ⟨hevent, hrest⟩ := List.cons.inj hevents
      obtain ⟨phase, hphase⟩ := ih hrest fun e he => hopen e (mem_cons_of_mem _ he)
      rw [hphase, hevent] at hstep
      cases hstep with
      | kept => exact ⟨_, rfl⟩
      | readied => exact ⟨_, rfl⟩
      | committed => exact ⟨_, rfl⟩
      | closed hclosed => exact absurd hclosed (hopen event mem_cons_self)

/-! ## what a commit does -/

/-- What an applied commit of a resize found and left. -/
structure ResizeCommit (events : List ControlEvent) (before after : ClusterState)
    (intent : ResizeIntent) (evidence : List ResizePositionEvidence) : Prop where
  /-- The begin is the last one, not committed before, and the evidence was
  accepted since. -/
  begun : ∃ newer older,
    events = newer ++ .begunResize { intent with phase := .preparing } :: older ∧
    (∀ i : ResizeIntent, .begunResize i ∉ newer) ∧
    .committedResize intent.operationId ∉ newer ∧
    .readiedResize intent.operationId evidence ∈ newer
  evidencePositions :
    evidence.map ResizePositionEvidence.position = List.range intent.desired.numShards
  expectedNumShards : before.numShards = intent.expected.numShards
  expectedGeneration : before.placementGeneration = intent.expected.placementGeneration
  expectedAssignments : before.assignments = intent.expected.assignments
  members : intent.members.map MoveMemberIdentity.node = intent.desired.nodes
  registered : ∀ member ∈ intent.members,
    before.registeredEndpoint member.node = some member.endpoint
  endpointsDistinct : (intent.members.map MoveMemberIdentity.endpoint).Nodup
  endpointsNew : ∀ node ∈ intent.expected.nodes, ∃ endpoint,
    before.registeredEndpoint node = some endpoint ∧
    endpoint ∉ intent.members.map MoveMemberIdentity.endpoint
  numShards : after.numShards = intent.desired.numShards
  generation : after.placementGeneration = intent.desired.placementGeneration
  assignments : after.assignments = intent.desired.assignments
  positions : after.assignments.map ShardAssignment.position = List.range after.numShards
  stillRegistered : ∀ member ∈ intent.members,
    after.registeredEndpoint member.node = some member.endpoint
  noMoves : before.moves.intents = [] ∧ after.moves.intents = []

theorem map_eq_range_of_zipIdx {α : Type*} {xs : List α} {n : Nat} {f : α → Nat}
    (hlen : xs.length = n) (h : ∀ x ∈ xs.zipIdx, f x.1 = x.2) : xs.map f = List.range n := by
  subst hlen
  refine ext_getElem (by simp) fun i hi _ => ?_
  have hlt : i < xs.length := by simpa using hi
  rw [getElem_map, getElem_range]
  exact h (xs[i], i) (mem_zipIdx_iff_getElem?.mpr (by simp))

theorem positions_of_wellFormed {l : ResizeLayout} (h : l.wellFormed = true) :
    l.assignments.map ShardAssignment.position = List.range l.numShards := by
  obtain ⟨-, hlen, hpositions⟩ := of_decide_eq_true h
  exact map_eq_range_of_zipIdx hlen fun a ha => (hpositions a ha).1

theorem registeredEndpoint_installLayout {intent : ResizeIntent} {node : NodeId}
    (hnode : node ∈ intent.desired.nodes) :
    (s.installLayout intent).registeredEndpoint node = s.registeredEndpoint node := by
  simp only [registeredEndpoint, installLayout, find?_filter]
  congr 3
  funext n
  by_cases hn : n.id = node
  · simp [hn, hnode]
  · simp [hn]

@[simp] theorem fenceFormat_registeredEndpoint (format : Nat) (node : NodeId) :
    (s.fenceFormat format).registeredEndpoint node = s.registeredEndpoint node := rfl

theorem Run.commitResize (h : Run s₀ events s) (h₀ : s₀.moves.resize = none) {op : Nat}
    {outcome : MoveCommandOutcome} {s' : ClusterState}
    (hcommit : s.apply (.resize (.commit op)) = (some outcome, s')) :
    (outcome ≠ .applied → s'.numShards = s.numShards ∧
      s'.placementGeneration = s.placementGeneration ∧ s'.assignments = s.assignments) ∧
    (outcome = .applied →
      ∃ intent evidence, intent.operationId = op ∧ ResizeCommit events s s' intent evidence) := by
  have heq : (s.fenceFormat resizeControlFormat).commitResize op = (outcome, s') := by
    obtain ⟨houtcome, hstate⟩ := Prod.mk.inj hcommit
    exact Prod.ext (Option.some.inj houtcome) hstate
  constructor
  · intro hne
    rw [commitResize_of_ne heq hne]
    exact ⟨rfl, rfl, rfl⟩
  · rintro rfl
    obtain ⟨intent, evidence, hsome, rfl, hphase, hholds, hmatch, rfl⟩ := commitResize_applied heq
    obtain ⟨newer, older, ho⟩ := h.resize_origin h₀ hsome
    obtain ⟨hevidence, hready⟩ := ho.readied evidence hphase
    obtain ⟨hlen, hpositions⟩ := of_decide_eq_true hevidence
    obtain ⟨hnum, hgeneration, hassignments⟩ := of_decide_eq_true hholds
    obtain ⟨hmembers, hregistered, hnodup, hold⟩ := of_decide_eq_true hmatch
    have hregistered' : ∀ member ∈ intent.members,
        s.registeredEndpoint member.node = some member.endpoint :=
      fun member hmember => (hregistered member hmember).2.2
    have hnil : s.moves.intents = [] := h.intents_of_resize h₀ (Option.isSome_of_mem hsome)
    refine ⟨intent, evidence, rfl, {
      begun := ⟨newer, older, ho.events_eq, ho.begunOnce, ho.uncommitted (by simp [hphase]), hready⟩
      evidencePositions := map_eq_range_of_zipIdx hlen hpositions
      expectedNumShards := hnum
      expectedGeneration := hgeneration
      expectedAssignments := hassignments
      members := hmembers
      registered := hregistered'
      endpointsDistinct := hnodup
      endpointsNew := fun node hnode => by
        simpa using (Option.any_eq_true _ _).mp (all_eq_true.mp hold node hnode)
      numShards := rfl
      generation := rfl
      assignments := rfl
      positions := positions_of_wellFormed ho.desired
      stillRegistered := fun member hmember => ?_
      noMoves := ⟨hnil, by simpa using hnil⟩ }⟩
    have hnode : member.node ∈ intent.desired.nodes :=
      hmembers ▸ mem_map_of_mem hmember
    exact (registeredEndpoint_installLayout hnode).trans (hregistered' member hmember)

/-- **A resize commits atomically.**  From a document without a resize, over
every run, a commit changes the layout only as `ResizeCommit` says, and from
an applied begin until its resize is finished or aborted no move is active. -/
theorem Run.resize_atomic (h₀ : s₀.moves.resize = none) (h : Run s₀ events s) :
    (∀ op outcome s', s.apply (.resize (.commit op)) = (some outcome, s') →
      (outcome ≠ .applied → s'.numShards = s.numShards ∧
        s'.placementGeneration = s.placementGeneration ∧ s'.assignments = s.assignments) ∧
      (outcome = .applied →
        ∃ intent evidence, intent.operationId = op ∧ ResizeCommit events s s' intent evidence)) ∧
    ∀ intent newer older, events = newer ++ .begunResize intent :: older →
      (∀ event ∈ newer, ¬event.ClosedResize intent.operationId) → s.moves.intents = [] := by
  refine ⟨fun op outcome s' hcommit => h.commitResize h₀ hcommit,
    fun intent newer older hevents hopen => ?_⟩
  obtain ⟨phase, hsome⟩ := h.resize_stays hevents hopen
  exact h.intents_of_resize h₀ (by rw [hsome]; rfl)

def threeNodes : ClusterState where
  nodes := [⟨1, some "a:1", .data⟩, ⟨2, some "b:1", .data⟩, ⟨3, some "c:1", .data⟩]
  assignments := [⟨0, 1, []⟩]
  numShards := 1
  dictFingerprint := 0
  modelVersion := 0
  placementGeneration := 4
  moves := ⟨0, [], [], none⟩

/-- Two positions, on nodes 2 and 3. -/
def growToTwo : ResizeIntent where
  intentVersion := resizeIntentVersion
  operationId := 9
  expected := ⟨1, 4, [⟨0, 1, []⟩]⟩
  desired := ⟨2, 5, [⟨0, 2, []⟩, ⟨1, 3, []⟩]⟩
  members := [⟨2, "b:1"⟩, ⟨3, "c:1"⟩]
  phase := .preparing

def growToTwoReady : ClusterState :=
  ((threeNodes.apply (.resize (.begin growToTwo))).2.apply
    (.resize (.markReady 9 [⟨0, 0, 0, 1⟩, ⟨1, 0, 0, 1⟩]))).2

theorem growToTwo_atomic :
    ∃ events s', Run threeNodes events growToTwoReady ∧
      growToTwoReady.apply (.resize (.commit 9)) = (some .applied, s') ∧
      ∃ intent evidence, intent.operationId = 9 ∧
        ResizeCommit events growToTwoReady s' intent evidence := by
  have hrun : Run threeNodes _ growToTwoReady :=
    (Run.start.step (.resize (.begin growToTwo))).step
      (.resize (.markReady 9 [⟨0, 0, 0, 1⟩, ⟨1, 0, 0, 1⟩]))
  have happlied : (growToTwoReady.apply (.resize (.commit 9))).1 = some .applied := by
    decide +kernel
  have hcommit : growToTwoReady.apply (.resize (.commit 9)) =
      (some .applied, (growToTwoReady.apply (.resize (.commit 9))).2) := Prod.ext happlied rfl
  exact ⟨_, _, hrun, hcommit, ((Run.resize_atomic rfl hrun).1 9 _ _ hcommit).2 rfl⟩

end ClusterState

end ReverseRusty
