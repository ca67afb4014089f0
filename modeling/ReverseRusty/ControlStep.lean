import ReverseRusty.Control

/-!
# ReverseRusty.ControlStep

Runs of the control document, and what one change can do to the work
recorded in it.

`ClusterState.Run s₀ events s` is a run of the control document from `s₀`:
any changes, in any order, each with the outcome it had.  `IntentStep` lists
every way a change can leave the move intents and `ResizeStep` every way it
can leave the resize; `apply_intents` and `apply_resize` say that there is no
other.

Main result: `Run.exclusive`, moves stand apart from each other and from a
resize over every run.
-/

namespace ReverseRusty

open List

/-! ## runs of the document -/

structure ControlEvent where
  change : ClusterStateChange
  outcome : Option MoveCommandOutcome
deriving DecidableEq, Repr

/-- A run of the document, the latest change first. -/
inductive ClusterState.Run (s₀ : ClusterState) : List ControlEvent → ClusterState → Prop where
  | start : Run s₀ [] s₀
  | step {events : List ControlEvent} {s : ClusterState} (h : Run s₀ events s)
      (change : ClusterStateChange) :
      Run s₀ (⟨change, (s.apply change).1⟩ :: events) (s.apply change).2

def ControlEvent.begunMove (intent : MoveIntent) : ControlEvent :=
  ⟨.move (.begin intent), some .applied⟩

def ControlEvent.readiedMove (operationId : Nat) (evidence : MoveRecoveryEvidence) : ControlEvent :=
  ⟨.move (.markReady operationId evidence), some .applied⟩

def ControlEvent.committedMove (operationId : Nat) : ControlEvent :=
  ⟨.move (.commit operationId), some .applied⟩

def ControlEvent.begunResize (intent : ResizeIntent) : ControlEvent :=
  ⟨.resize (.begin intent), some .applied⟩

def ControlEvent.readiedResize (operationId : Nat) (evidence : List ResizePositionEvidence) :
    ControlEvent :=
  ⟨.resize (.markReady operationId evidence), some .applied⟩

def ControlEvent.committedResize (operationId : Nat) : ControlEvent :=
  ⟨.resize (.commit operationId), some .applied⟩

def ControlEvent.ClosedResize (operationId : Nat) (event : ControlEvent) : Prop :=
  event = ⟨.resize (.abort operationId), some .applied⟩ ∨
  event = ⟨.resize (.finish operationId), some .applied⟩

def ControlEvent.moveQuiet : ControlEvent → Bool
  | ⟨.move (.begin _), some .applied⟩ | ⟨.move (.commit _), some .applied⟩ => false
  | _ => true

def ControlEvent.resizeQuiet : ControlEvent → Bool
  | ⟨.resize (.begin _), some .applied⟩ | ⟨.resize (.commit _), some .applied⟩ => false
  | _ => true

/-! ## intents that stand apart -/

/-- Two intents differ in position and operation, and share no endpoint. -/
structure MoveIntent.Apart (a b : MoveIntent) : Prop where
  position : a.position ≠ b.position
  operation : a.operationId ≠ b.operationId
  endpoints : ∀ m ∈ a.members, ∀ n ∈ b.members, m.endpoint ≠ n.endpoint

theorem MoveIntent.Apart.symm {a b : MoveIntent} (h : a.Apart b) : b.Apart a :=
  ⟨h.position.symm, h.operation.symm, fun m hm n hn => (h.endpoints n hn m hm).symm⟩

structure MoveControlState.Exclusive (m : MoveControlState) : Prop where
  apart : m.intents.Pairwise MoveIntent.Apart
  resize : m.resize.isSome → m.intents = []

namespace MoveControlState

@[simp] theorem bumpAssignmentGeneration_intents (m : MoveControlState) (position : Nat) :
    (m.bumpAssignmentGeneration position).intents = m.intents := by
  unfold bumpAssignmentGeneration
  split <;> rfl

@[simp] theorem bumpAssignmentGeneration_resize (m : MoveControlState) (position : Nat) :
    (m.bumpAssignmentGeneration position).resize = m.resize := by
  unfold bumpAssignmentGeneration
  split <;> rfl

@[simp] theorem foldl_bumpAssignmentGeneration_intents (positions : List Nat)
    (m : MoveControlState) :
    (positions.foldl bumpAssignmentGeneration m).intents = m.intents := by
  induction positions generalizing m with
  | nil => rfl
  | cons p positions ih => rw [foldl_cons, ih, bumpAssignmentGeneration_intents]

end MoveControlState

namespace ClusterState

variable {s : ClusterState}

@[simp] theorem withIntents_intents (intents : List MoveIntent) :
    (s.withIntents intents).moves.intents = intents := rfl

@[simp] theorem withIntents_resize (intents : List MoveIntent) :
    (s.withIntents intents).moves.resize = s.moves.resize := rfl

@[simp] theorem withResize_intents (resize : Option ResizeIntent) :
    (s.withResize resize).moves.intents = s.moves.intents := rfl

@[simp] theorem fenceFormat_intents (format : Nat) :
    (s.fenceFormat format).moves.intents = s.moves.intents := rfl

@[simp] theorem fenceFormat_resize (format : Nat) :
    (s.fenceFormat format).moves.resize = s.moves.resize := rfl

@[simp] theorem replaceAssignment_intents (assignment : ShardAssignment) :
    (s.replaceAssignment assignment).moves.intents = s.moves.intents := by
  simp [replaceAssignment]

@[simp] theorem replaceAssignment_resize (assignment : ShardAssignment) :
    (s.replaceAssignment assignment).moves.resize = s.moves.resize := by
  simp [replaceAssignment]

@[simp] theorem installLayout_intents (intent : ResizeIntent) :
    (s.installLayout intent).moves.intents = s.moves.intents := by
  simp [installLayout, MoveControlState.retainPositionsBelow]

variable {index : Nat} {intent : MoveIntent}

theorem moveIntentOf_eq_some {operationId : Nat}
    (h : s.moveIntentOf operationId = some (index, intent)) :
    s.moves.intents[index]? = some intent ∧ intent.operationId = operationId := by
  unfold moveIntentOf at h
  split at h
  · contradiction
  · next i hi =>
    obtain ⟨found, hfound, heq⟩ := Option.map_eq_some_iff.mp h
    cases heq
    obtain ⟨hlt, hop, -⟩ := findIdx?_eq_some_iff_getElem.mp hi
    refine ⟨hfound, ?_⟩
    rw [getElem?_eq_getElem hlt] at hfound
    cases hfound
    simpa using hop

/-! ## what one change does to the intents -/

/-- The ways a change can leave the intents. -/
inductive IntentStep (intents : List MoveIntent) (resize : Option ResizeIntent) :
    ControlEvent → List MoveIntent → Prop where
  | kept {event : ControlEvent} (hquiet : event.moveQuiet = true) :
      IntentStep intents resize event intents
  | begun {intent : MoveIntent} (hresize : resize = none)
      (hapart : ∀ i ∈ intents, i.Apart intent) (hphase : intent.phase = .preparing)
      (hposition : intent.desired.position = intent.position) :
      IntentStep intents resize (.begunMove intent)
        ((intents ++ [intent]).mergeSort fun a b => a.position ≤ b.position)
  | readied {index : Nat} {intent : MoveIntent} {evidence : MoveRecoveryEvidence}
      (hget : intents[index]? = some intent) (hphase : intent.phase = .preparing)
      (hevidence : intent.evidenceMatches evidence = true) :
      IntentStep intents resize (.readiedMove intent.operationId evidence)
        (intents.set index { intent with phase := .ready evidence })
  | committed {index : Nat} {intent : MoveIntent} {evidence : MoveRecoveryEvidence}
      (hget : intents[index]? = some intent) (hphase : intent.phase = .ready evidence) :
      IntentStep intents resize (.committedMove intent.operationId)
        (intents.set index { intent with phase := .committed evidence })
  | dropped {event : ControlEvent} (index : Nat) (hquiet : event.moveQuiet = true) :
      IntentStep intents resize event (intents.eraseIdx index)

def MoveStep (s : ClusterState) (command : MoveCommand) (outcome : MoveCommandOutcome)
    (s' : ClusterState) : Prop :=
  IntentStep s.moves.intents s.moves.resize ⟨.move command, some outcome⟩ s'.moves.intents

section MoveCommands

variable {outcome : MoveCommandOutcome} {s' : ClusterState} {op : Nat}

theorem moveQuiet_of_ne {command : MoveCommand} (h : outcome ≠ .applied) :
    ControlEvent.moveQuiet ⟨.move command, some outcome⟩ = true := by
  cases command <;> cases outcome <;> first | rfl | contradiction

theorem repeatedBegin_ne_applied (current intent : MoveIntent) :
    repeatedBegin current intent ≠ .applied := by
  unfold repeatedBegin
  split <;> simp

theorem beginMove_step {intent : MoveIntent} (h : s.beginMove intent = (outcome, s')) :
    s.MoveStep (.begin intent) outcome s' := by
  unfold beginMove at h
  split at h
  · cases h; exact .kept rfl
  next hvalid =>
  split at h
  · cases h; exact .kept rfl
  next hresize =>
  split at h
  · cases h; exact .kept (moveQuiet_of_ne (repeatedBegin_ne_applied _ _))
  next hop =>
  split at h
  · cases h; exact .kept rfl
  next hoverlap =>
  split at h
  · cases h; exact .kept (moveQuiet_of_ne (repeatedBegin_ne_applied _ _))
  next hposition =>
  split at h
  · cases h; exact .kept rfl
  cases h
  simp only [Bool.not_eq_true', Bool.not_eq_false, validMoveBegin, decide_eq_true_eq] at hvalid
  obtain ⟨-, -, -, -, hdesired, -, -, -, -, -, -, hphase, -⟩ := hvalid
  refine .begun (by simpa using hresize) (fun i hi => ⟨?_, ?_, ?_⟩) hphase hdesired
  · simpa using find?_eq_none.mp hposition i hi
  · simpa using find?_eq_none.mp hop i hi
  · simp only [Bool.not_eq_true, any_eq_false, MoveIntent.memberEndpointsOverlap] at hoverlap
    simpa using hoverlap i hi

theorem markMoveReady_step {evidence : MoveRecoveryEvidence}
    (h : s.markMoveReady op evidence = (outcome, s')) :
    s.MoveStep (.markReady op evidence) outcome s' := by
  unfold markMoveReady at h
  split at h
  · cases h; exact .kept rfl
  next index intent hfound =>
  obtain ⟨hget, rfl⟩ := moveIntentOf_eq_some hfound
  split at h
  · cases h; exact .kept rfl
  next hevidence =>
  split at h
  · next hphase =>
    split at h
    · cases h; exact .kept rfl
    cases h
    exact .readied hget hphase (by simpa using hevidence)
  · cases h; exact .kept rfl
  · cases h; exact .kept rfl

theorem commitMove_applied (h : s.commitMove op = (.applied, s')) :
    ∃ index intent evidence, s.moves.intents[index]? = some intent ∧ intent.operationId = op ∧
      intent.phase = .ready evidence ∧ s.assignmentMatchesExpected intent = true ∧
      s' = (s.replaceAssignment intent.desired).withIntents
        (s.moves.intents.set index { intent with phase := .committed evidence }) := by
  unfold commitMove at h
  split at h
  · simp at h
  next index intent hfound =>
  obtain ⟨hget, rfl⟩ := moveIntentOf_eq_some hfound
  split at h
  · simp at h
  · next evidence hphase =>
    split at h
    · simp at h
    next hmatch =>
    cases h
    exact ⟨index, intent, evidence, hget, rfl, hphase, by simpa using hmatch, rfl⟩
  · split at h <;> simp at h

theorem commitMove_of_ne (h : s.commitMove op = (outcome, s')) (hne : outcome ≠ .applied) :
    s' = s := by
  unfold commitMove at h
  split at h
  · cases h; rfl
  split at h
  · cases h; rfl
  · split at h
    · cases h; rfl
    · cases h; contradiction
  · cases h; rfl

theorem commitMove_step (h : s.commitMove op = (outcome, s')) :
    s.MoveStep (.commit op) outcome s' := by
  by_cases happlied : outcome = .applied
  · subst happlied
    obtain ⟨index, intent, evidence, hget, rfl, hphase, -, rfl⟩ := commitMove_applied h
    exact .committed hget hphase
  · rw [commitMove_of_ne h happlied]
    exact .kept (moveQuiet_of_ne happlied)

theorem abortMove_step (h : s.abortMove op = (outcome, s')) :
    s.MoveStep (.abort op) outcome s' := by
  unfold abortMove at h
  split at h
  · cases h; exact .kept rfl
  split at h
  · cases h; exact .kept rfl
  · cases h; exact .dropped _ rfl

theorem finishMove_step (h : s.finishMove op = (outcome, s')) :
    s.MoveStep (.finish op) outcome s' := by
  unfold finishMove at h
  split at h
  · cases h; exact .kept rfl
  split at h
  · cases h; exact .kept rfl
  · cases h; exact .kept rfl
  split at h
  · cases h; exact .kept rfl
  · cases h; exact .dropped _ rfl

theorem applyMove_resize (command : MoveCommand) :
    (s.applyMove command).2.moves.resize = s.moves.resize := by
  cases command
  all_goals
    simp only [applyMove, beginMove, markMoveReady, commitMove, abortMove, finishMove]
    repeat' split
    all_goals simp

end MoveCommands

/-! ## what one change does to the resize -/

/-- The ways a change can leave the resize. -/
inductive ResizeStep (intents : List MoveIntent) :
    Option ResizeIntent → ControlEvent → Option ResizeIntent → Prop where
  | kept {resize : Option ResizeIntent} {event : ControlEvent}
      (hquiet : event.resizeQuiet = true) : ResizeStep intents resize event resize
  | begun {intent : ResizeIntent} (hintents : intents = []) (hphase : intent.phase = .preparing)
      (hdesired : intent.desired.wellFormed = true) :
      ResizeStep intents none (.begunResize intent) (some intent)
  | readied {intent : ResizeIntent} {evidence : List ResizePositionEvidence}
      (hphase : intent.phase = .preparing) (hevidence : intent.evidenceMatches evidence = true) :
      ResizeStep intents (some intent) (.readiedResize intent.operationId evidence)
        (some { intent with phase := .ready evidence })
  | committed {intent : ResizeIntent} {evidence : List ResizePositionEvidence}
      (hphase : intent.phase = .ready evidence) :
      ResizeStep intents (some intent) (.committedResize intent.operationId)
        (some { intent with phase := .committed evidence })
  | closed {intent : ResizeIntent} {event : ControlEvent}
      (hclosed : event.ClosedResize intent.operationId) :
      ResizeStep intents (some intent) event none

def ResizeCommandStep (s : ClusterState) (command : ResizeCommand) (outcome : MoveCommandOutcome)
    (s' : ClusterState) : Prop :=
  ResizeStep s.moves.intents s.moves.resize ⟨.resize command, some outcome⟩ s'.moves.resize

section ResizeCommands

variable {outcome : MoveCommandOutcome} {s' : ClusterState} {op : Nat}

theorem resizeQuiet_of_ne {command : ResizeCommand} (h : outcome ≠ .applied) :
    ControlEvent.resizeQuiet ⟨.resize command, some outcome⟩ = true := by
  cases command <;> cases outcome <;> first | rfl | contradiction

theorem beginResize_step {intent : ResizeIntent} (h : s.beginResize intent = (outcome, s')) :
    s.ResizeCommandStep (.begin intent) outcome s' := by
  unfold beginResize at h
  split at h
  · cases h; exact .kept rfl
  next hvalid =>
  split at h
  · cases h
    exact .kept (resizeQuiet_of_ne (by split <;> simp))
  next hnone =>
  split at h
  · cases h; exact .kept rfl
  next hfree =>
  cases h
  rw [ResizeCommandStep, hnone]
  simp only [Bool.not_eq_true', Bool.not_eq_false, validResizeBegin, decide_eq_true_eq] at hvalid
  obtain ⟨-, -, hphase, -, hdesired, -, -⟩ := hvalid
  simp only [Bool.or_eq_true, not_or, Bool.not_eq_true', Bool.not_eq_false,
    List.isEmpty_iff] at hfree
  exact .begun hfree.1 hphase hdesired

theorem markResizeReady_step {evidence : List ResizePositionEvidence}
    (h : s.markResizeReady op evidence = (outcome, s')) :
    s.ResizeCommandStep (.markReady op evidence) outcome s' := by
  unfold markResizeReady at h
  split at h
  · cases h; exact .kept rfl
  next intent hsome =>
  split at h
  · cases h; exact .kept rfl
  next hop =>
  obtain rfl : intent.operationId = op := by simpa using hop
  split at h
  · cases h; exact .kept rfl
  next hevidence =>
  split at h
  · next hphase =>
    split at h
    · cases h; exact .kept rfl
    cases h
    rw [ResizeCommandStep, hsome]
    exact .readied hphase (by simpa using hevidence)
  · cases h; exact .kept rfl
  · cases h; exact .kept rfl

theorem commitResize_applied (h : s.commitResize op = (.applied, s')) :
    ∃ intent evidence, s.moves.resize = some intent ∧ intent.operationId = op ∧
      intent.phase = .ready evidence ∧ s.holds intent.expected = true ∧
      s.membersMatch intent = true ∧
      s' = (s.installLayout intent).withResize
        (some { intent with phase := .committed evidence }) := by
  unfold commitResize at h
  split at h
  · simp at h
  next intent hsome =>
  split at h
  · simp at h
  next hop =>
  split at h
  · simp at h
  · next evidence hphase =>
    split at h
    · simp at h
    next hmatch =>
    cases h
    simp only [Bool.or_eq_true, not_or, Bool.not_eq_true', Bool.not_eq_false] at hmatch
    exact ⟨intent, evidence, hsome, by simpa using hop, hphase, hmatch.1, hmatch.2, rfl⟩
  · split at h <;> simp at h

theorem commitResize_of_ne (h : s.commitResize op = (outcome, s')) (hne : outcome ≠ .applied) :
    s' = s := by
  unfold commitResize at h
  split at h
  · cases h; rfl
  split at h
  · cases h; rfl
  split at h
  · cases h; rfl
  · split at h
    · cases h; rfl
    · cases h; contradiction
  · cases h; rfl

theorem commitResize_step (h : s.commitResize op = (outcome, s')) :
    s.ResizeCommandStep (.commit op) outcome s' := by
  by_cases happlied : outcome = .applied
  · subst happlied
    obtain ⟨intent, evidence, hsome, rfl, hphase, -, -, rfl⟩ := commitResize_applied h
    rw [ResizeCommandStep, hsome]
    exact .committed hphase
  · rw [commitResize_of_ne h happlied]
    exact .kept (resizeQuiet_of_ne happlied)

theorem abortResize_step (h : s.abortResize op = (outcome, s')) :
    s.ResizeCommandStep (.abort op) outcome s' := by
  unfold abortResize at h
  split at h
  · cases h; exact .kept rfl
  next intent hsome =>
  have habort : (if intent.operationId ≠ op then (MoveCommandOutcome.conflict, s)
      else (.applied, s.withResize none)) = (outcome, s') →
      s.ResizeCommandStep (.abort op) outcome s' := by
    intro hif
    split at hif
    · cases hif; exact .kept rfl
    next hop =>
    cases hif
    rw [ResizeCommandStep, hsome, ← (show intent.operationId = op by simpa using hop)]
    exact .closed (.inl rfl)
  split at h
  · cases h; exact .kept rfl
  · exact habort h
  · exact habort h

theorem finishResize_step (h : s.finishResize op = (outcome, s')) :
    s.ResizeCommandStep (.finish op) outcome s' := by
  unfold finishResize at h
  split at h
  · cases h; exact .kept rfl
  next intent hsome =>
  split at h
  · cases h; exact .kept rfl
  · cases h; exact .kept rfl
  split at h
  · cases h; exact .kept rfl
  next hop =>
  simp only [ne_eq, Bool.or_eq_true, decide_eq_true_eq, not_or, not_not] at hop
  obtain ⟨rfl, -⟩ := hop
  cases h
  rw [ResizeCommandStep, hsome]
  exact .closed (.inr rfl)

theorem applyResize_intents (command : ResizeCommand) :
    (s.applyResize command).2.moves.intents = s.moves.intents := by
  cases command
  all_goals
    simp only [applyResize, beginResize, markResizeReady, commitResize, abortResize, finishResize]
    repeat' split
    all_goals simp

end ResizeCommands

/-! ## what one change does -/

theorem apply_intents (s : ClusterState) (change : ClusterStateChange) :
    IntentStep s.moves.intents s.moves.resize ⟨change, (s.apply change).1⟩
      (s.apply change).2.moves.intents := by
  cases change with
  | move command =>
    cases command with
    | begin intent => exact beginMove_step (s := s.fenceFormat moveControlFormatCurrent) rfl
    | markReady op evidence => exact markMoveReady_step (s := s.fenceFormat moveControlFormatCurrent) rfl
    | commit op => exact commitMove_step (s := s.fenceFormat moveControlFormatCurrent) rfl
    | abort op => exact abortMove_step (s := s.fenceFormat moveControlFormatCurrent) rfl
    | finish op => exact finishMove_step (s := s.fenceFormat moveControlFormatCurrent) rfl
  | resize command =>
    rw [show (s.apply (.resize command)).2.moves.intents = s.moves.intents from
      applyResize_intents command]
    exact .kept rfl
  | assignShard assignment =>
    rw [show (s.apply (.assignShard assignment)).2.moves.intents = s.moves.intents by
      simp [apply]]
    exact .kept rfl
  | _ => exact .kept rfl

theorem apply_resize (s : ClusterState) (change : ClusterStateChange) :
    ResizeStep s.moves.intents s.moves.resize ⟨change, (s.apply change).1⟩
      (s.apply change).2.moves.resize := by
  cases change with
  | resize command =>
    cases command with
    | begin intent => exact beginResize_step (s := s.fenceFormat resizeControlFormat) rfl
    | markReady op evidence => exact markResizeReady_step (s := s.fenceFormat resizeControlFormat) rfl
    | commit op => exact commitResize_step (s := s.fenceFormat resizeControlFormat) rfl
    | abort op => exact abortResize_step (s := s.fenceFormat resizeControlFormat) rfl
    | finish op => exact finishResize_step (s := s.fenceFormat resizeControlFormat) rfl
  | move command =>
    rw [show (s.apply (.move command)).2.moves.resize = s.moves.resize from
      applyMove_resize command]
    exact .kept rfl
  | assignShard assignment =>
    rw [show (s.apply (.assignShard assignment)).2.moves.resize = s.moves.resize by
      simp [apply]]
    exact .kept rfl
  | _ => exact .kept rfl

/-! ## moves and a resize exclude each other -/

variable {resize : Option ResizeIntent} {event : ControlEvent}

variable {intents' : List MoveIntent}

theorem IntentStep.eq_nil (h : IntentStep [] resize event intents')
    (hno : resize.isSome ∨ event.moveQuiet = true) : intents' = [] := by
  cases h with
  | kept => rfl
  | begun hresize =>
    rcases hno with hsome | hquiet
    · simp [hresize] at hsome
    · cases hquiet
  | readied hget => simp at hget
  | committed hget => simp at hget
  | dropped => rfl

variable {intents : List MoveIntent}

theorem ResizeStep.isSome {resize' : Option ResizeIntent}
    (h : ResizeStep intents resize event resize') (hsome : resize'.isSome) :
    resize.isSome ∨ intents = [] ∧ event.moveQuiet = true := by
  cases h with
  | kept => exact .inl hsome
  | begun hintents => exact .inr ⟨hintents, rfl⟩
  | readied => exact .inl rfl
  | committed => exact .inl rfl
  | closed => cases hsome

theorem pairwise_apart_set (h : intents.Pairwise MoveIntent.Apart)
    (hget : intents[index]? = some intent) (phase : MoveIntentPhase) :
    (intents.set index { intent with phase := phase }).Pairwise MoveIntent.Apart :=
  pairwise_set h hget (fun _ ha => ⟨ha.position, ha.operation, ha.endpoints⟩)
    (fun _ ha => ⟨ha.position, ha.operation, ha.endpoints⟩)

theorem IntentStep.pairwise_apart (h : IntentStep intents resize event intents')
    (hapart : intents.Pairwise MoveIntent.Apart) : intents'.Pairwise MoveIntent.Apart := by
  cases h with
  | kept => exact hapart
  | begun _ hnew =>
    rw [(mergeSort_perm _ _).pairwise_iff MoveIntent.Apart.symm, pairwise_append]
    exact ⟨hapart, pairwise_singleton _ _, by simpa using hnew⟩
  | readied hget => exact pairwise_apart_set hapart hget _
  | committed hget => exact pairwise_apart_set hapart hget _
  | dropped index => exact hapart.sublist (eraseIdx_sublist _ _)

theorem intents_apply_of_resize (h : s.moves.resize.isSome → s.moves.intents = [])
    (change : ClusterStateChange) (hsome : (s.apply change).2.moves.resize.isSome) :
    (s.apply change).2.moves.intents = [] := by
  have hstep := s.apply_intents change
  rcases (s.apply_resize change).isSome hsome with hbefore | ⟨hnil, hquiet⟩
  · rw [h hbefore] at hstep
    exact hstep.eq_nil (.inl hbefore)
  · rw [hnil] at hstep
    exact hstep.eq_nil (.inr hquiet)

theorem exclusive_apply (h : s.moves.Exclusive) (change : ClusterStateChange) :
    (s.apply change).2.moves.Exclusive :=
  ⟨(s.apply_intents change).pairwise_apart h.apart, intents_apply_of_resize h.resize change⟩

/-- **Moves stand apart** from each other and from a resize, over every run. -/
theorem Run.exclusive {s₀ : ClusterState} {events : List ControlEvent} (h : Run s₀ events s)
    (h₀ : s₀.moves.Exclusive) : s.moves.Exclusive := by
  induction h with
  | start => exact h₀
  | step h change ih => exact exclusive_apply ih change

end ClusterState

end ReverseRusty
