import ReverseRusty.ShardContents

/-!
# ReverseRusty.Handoff

A live handoff of one position between two shard servers
(`cluster/coordinator/distributed/handoff.rs`, `cluster/server/service.rs`,
`cluster/handoff.rs`).

The coordinator copies the source's segments as of a seal, replays the
source's log into the target until it finds nothing new, fences the source,
replays again until it finds nothing new, and points the position at the
target.  Writes go on throughout: a server checks its fence, compiles the
item and applies the write, as three steps, and the two drains read the log
while writes are between them.

`PhaseInv` says for each phase how much of the source's log the target holds.
-/

namespace ReverseRusty

open List

/-- Where a write was sent. -/
inductive Backing where
  | source
  | target
deriving DecidableEq, Repr

inductive WriteStage where
  | sent
  | checked
  | compiled
  | acknowledged
  | refused
deriving DecidableEq, Repr

structure ClientWrite where
  mutation : ClusterMutation
  backing : Backing
  stage : WriteStage
deriving DecidableEq, Repr

/-- Where the coordinator is in the handoff; `position` is how much of the
source's log the target holds, and `left` how many passes remain. -/
inductive HandoffPhase where
  | connecting
  | leased
  | sealed (position : Nat)
  | draining (position left : Nat)
  | drainRead (position : Nat) (tail : List ClusterMutation) (left : Nat)
  | finalDrain (position left : Nat)
  | finalRead (position : Nat) (tail : List ClusterMutation) (left : Nat)
  | converged
  | flipped
  | finished
  | aborted
deriving DecidableEq, Repr

/-- The position a drain of the fenced source is about to read from. -/
def HandoffPhase.finalPosition : HandoffPhase → Option Nat
  | .finalDrain position (_ + 1) => some position
  | _ => none

structure HandoffConfig where
  drainPasses : Nat
  finalDrainCap : Nat
  /-- the generation of the position before the handoff -/
  generation : Nat
deriving DecidableEq, Repr

/-- A handoff under way and the writes beside it. -/
structure HandoffState where
  sourceLog : List ClusterMutation
  sourceFence : Nat
  targetRows : List ShardRow
  backing : Backing
  phase : HandoffPhase
  writes : List ClientWrite
  /-- every acknowledged write, in the order they were applied -/
  acknowledged : List ClusterMutation
deriving DecidableEq, Repr

inductive HandoffAction where
  | coordinate
  | send (mutation : ClusterMutation)
  | check (write : Nat)
  | compile (write : Nat)
  | apply (write : Nat)
deriving DecidableEq, Repr

namespace HandoffState

def start : HandoffState where
  sourceLog := []
  sourceFence := 0
  targetRows := []
  backing := .source
  phase := .connecting
  writes := []
  acknowledged := []

section

variable (accepts compiles : ShardRow → Bool) (base : List ShardRow) (config : HandoffConfig)

/-- The next step of the coordinator. -/
def coordinate (s : HandoffState) : Option HandoffState :=
  match s.phase with
  | .connecting => some { s with phase := .leased }
  | .leased => some { s with phase := .sealed s.sourceLog.length }
  | .sealed position =>
    -- the segments hold the rows up to the seal, and nothing after it
    some { s with
      targetRows := replayRows accepts base (s.sourceLog.take position)
      phase := .draining position config.drainPasses }
  | .draining position (left + 1) =>
    some { s with phase := .drainRead position (s.sourceLog.drop position) left }
  | .drainRead position tail left =>
    some { s with
      targetRows := replayRows accepts s.targetRows tail
      phase := .draining (position + tail.length) (if tail = [] then 0 else left) }
  | .draining position 0 =>
    some { s with
      sourceFence := max s.sourceFence (config.generation + 1)
      phase := .finalDrain position config.finalDrainCap }
  | .finalDrain position (left + 1) =>
    some { s with phase := .finalRead position (s.sourceLog.drop position) left }
  | .finalRead position tail left =>
    some { s with
      targetRows := replayRows accepts s.targetRows tail
      phase := if tail = [] then .converged else .finalDrain (position + tail.length) left }
  | .finalDrain _ 0 =>
    -- the drain did not converge: lift the fence and give up
    some { s with
      sourceFence := if s.sourceFence = config.generation + 1 then 0 else s.sourceFence
      phase := .aborted }
  | .converged => some { s with backing := .target, phase := .flipped }
  | .flipped => some { s with phase := .finished }
  | .finished | .aborted => none

def advance (s : HandoffState) (write : Nat) (stage : WriteStage)
    (next : ClientWrite → HandoffState → HandoffState) : Option HandoffState :=
  match s.writes[write]? with
  | some w => if w.stage = stage then some (next w s) else none
  | none => none

def setStage (write : Nat) (stage : WriteStage) (w : ClientWrite) (s : HandoffState) :
    HandoffState :=
  { s with writes := s.writes.set write { w with stage := stage } }

/-- The stage a check of the fence brings a write to.  A target's fence is
lifted before it is used, so only the source refuses; a delete has nothing to
compile. -/
def checkedStage (s : HandoffState) (w : ClientWrite) : WriteStage :=
  if w.backing = .source ∧ 0 < s.sourceFence then .refused
  else
    match w.mutation with
    | .remove _ => .compiled
    | .add _ | .upsert _ => .checked

def compiledStage : ClusterMutation → WriteStage
  | .remove _ => .compiled
  | .add row | .upsert row => if compiles row then .compiled else .refused

def applyWrite (write : Nat) (w : ClientWrite) (s : HandoffState) : HandoffState :=
  let s := setStage write .acknowledged w s
  let s := { s with acknowledged := s.acknowledged ++ [w.mutation] }
  match w.backing with
  | .source => { s with sourceLog := s.sourceLog ++ [w.mutation] }
  | .target => { s with targetRows := applyMutation accepts s.targetRows w.mutation }

def step (s : HandoffState) : HandoffAction → Option HandoffState
  | .coordinate => s.coordinate accepts base config
  | .send mutation => some { s with writes := s.writes ++ [⟨mutation, s.backing, .sent⟩] }
  | .check write => s.advance write .sent fun w s => setStage write (s.checkedStage w) w s
  | .compile write =>
    s.advance write .checked fun w s => setStage write (compiledStage compiles w.mutation) w s
  | .apply write => s.advance write .compiled (applyWrite accepts write)

inductive Run (allowed : HandoffState → HandoffAction → Prop) : HandoffState → Prop where
  | start : Run allowed start
  | step {s s' : HandoffState} (h : Run allowed s) (action : HandoffAction)
      (hallowed : allowed s action) (hstep : s.step accepts compiles base config action = some s') :
      Run allowed s'

def Finished (s : HandoffState) : Prop :=
  s.phase = .finished ∧ ∀ w ∈ s.writes, w.stage = .acknowledged ∨ w.stage = .refused

def Reflects (s : HandoffState) : Prop :=
  s.targetRows.Perm (replayRows accepts base s.acknowledged)

end

/-- A write to the source is past the fence's check and not yet in its log. -/
def Pending (s : HandoffState) : Prop :=
  ∃ w ∈ s.writes, w.backing = .source ∧ (w.stage = .checked ∨ w.stage = .compiled)

/-- The last read of the log, the one that finds nothing new, meets no write
that is past the fence's check and not yet in the log. -/
def SettledRead (s : HandoffState) (action : HandoffAction) : Prop :=
  action = .coordinate → ∀ position ∈ s.phase.finalPosition,
    s.sourceLog.drop position = [] → ¬ s.Pending

instance (s : HandoffState) : Decidable s.Pending :=
  inferInstanceAs (Decidable (∃ w ∈ s.writes, _))

instance (s : HandoffState) (action : HandoffAction) : Decidable (s.SettledRead action) :=
  inferInstanceAs (Decidable (action = .coordinate → ∀ position ∈ s.phase.finalPosition, _))

/-! ## what a write step does -/

section Writes

variable {s s' : HandoffState} {write : Nat} {w : ClientWrite} {stage : WriteStage}

theorem advance_eq_some {next : ClientWrite → HandoffState → HandoffState}
    (h : s.advance write stage next = some s') :
    ∃ w, s.writes[write]? = some w ∧ w.stage = stage ∧ s' = next w s := by
  unfold advance at h
  cases hw : s.writes[write]? with
  | none => simp [hw] at h
  | some w =>
    rw [hw] at h
    by_cases hs : w.stage = stage
    · exact ⟨w, rfl, hs, by simpa [hs] using h.symm⟩
    · simp [hs] at h

theorem checkedStage_fenced (hf : 0 < s.sourceFence) (hw : w.backing = .source) :
    s.checkedStage w = .refused :=
  if_pos ⟨hw, hf⟩

theorem mem_setStage {w' : ClientWrite} (h : w' ∈ (setStage write stage w s).writes) :
    w' ∈ s.writes ∨ w' = { w with stage := stage } :=
  mem_or_eq_of_mem_set h

theorem Pending.of_setStage (h : (setStage write stage w s).Pending) :
    s.Pending ∨ w.backing = .source ∧ (stage = .checked ∨ stage = .compiled) := by
  obtain ⟨w', hmem, hsource, hstage⟩ := h
  rcases mem_setStage hmem with hmem | rfl
  · exact .inl ⟨w', hmem, hsource, hstage⟩
  · exact .inr ⟨hsource, hstage⟩

end Writes

/-! ## the invariant -/

section Invariant

variable {accepts compiles : ShardRow → Bool} {base : List ShardRow} {config : HandoffConfig}
variable {s s' : HandoffState}

def HoldsUpTo (accepts : ShardRow → Bool) (base : List ShardRow) (s : HandoffState)
    (position : Nat) : Prop :=
  position ≤ s.sourceLog.length ∧
    s.targetRows = replayRows accepts base (s.sourceLog.take position)

structure AtSource (s : HandoffState) : Prop where
  backing : s.backing = .source
  sent : ∀ w ∈ s.writes, w.backing = .source
  acknowledged : s.acknowledged = s.sourceLog

def PhaseInv (accepts : ShardRow → Bool) (base : List ShardRow) (s : HandoffState) :
    HandoffPhase → Prop
  | .connecting | .leased | .aborted => s.AtSource
  | .sealed position => s.AtSource ∧ position ≤ s.sourceLog.length
  | .draining position _ => s.AtSource ∧ s.HoldsUpTo accepts base position
  | .drainRead position tail _ =>
    s.AtSource ∧ s.HoldsUpTo accepts base position ∧ tail <+: s.sourceLog.drop position
  | .finalDrain position _ =>
    s.AtSource ∧ s.HoldsUpTo accepts base position ∧ 0 < s.sourceFence
  | .finalRead position tail _ =>
    s.AtSource ∧ s.HoldsUpTo accepts base position ∧ tail <+: s.sourceLog.drop position ∧
      0 < s.sourceFence ∧ (tail = [] → s.sourceLog.length = position ∧ ¬ s.Pending)
  | .converged =>
    s.AtSource ∧ s.HoldsUpTo accepts base s.sourceLog.length ∧ 0 < s.sourceFence ∧ ¬ s.Pending
  | .flipped | .finished =>
    s.backing = .target ∧ s.targetRows = replayRows accepts base s.acknowledged ∧
      0 < s.sourceFence ∧ ¬ s.Pending

variable {position : Nat}

theorem HoldsUpTo.replay_tail {tail : List ClusterMutation} (h : s.HoldsUpTo accepts base position)
    (ht : tail <+: s.sourceLog.drop position) :
    position + tail.length ≤ s.sourceLog.length ∧
      replayRows accepts s.targetRows tail =
        replayRows accepts base (s.sourceLog.take (position + tail.length)) := by
  have hlen : tail.length ≤ s.sourceLog.length - position := by
    simpa using ht.length_le
  have htake : (s.sourceLog.drop position).take tail.length = tail :=
    (prefix_iff_eq_take.mp ht).symm
  have hle := h.1
  refine ⟨by omega, ?_⟩
  rw [h.2, ← replayRows_append, take_add, htake]

theorem HoldsUpTo.append (h : s.HoldsUpTo accepts base position)
    (hrows : s'.targetRows = s.targetRows) {m : ClusterMutation}
    (hlog : s'.sourceLog = s.sourceLog ++ [m]) : s'.HoldsUpTo accepts base position := by
  have hle := h.1
  refine ⟨by rw [hlog, length_append]; omega, ?_⟩
  rw [hrows, h.2, hlog, take_append_of_le_length hle]

variable {writes : List ClientWrite}

theorem AtSource.of_writes (h : s.AtSource) (hw : ∀ w ∈ writes, w.backing = .source) :
    ({ s with writes := writes } : HandoffState).AtSource :=
  ⟨h.backing, hw, h.acknowledged⟩

variable {phase : HandoffPhase}

theorem PhaseInv.of_writes (h : s.PhaseInv accepts base phase)
    (hs : s.AtSource → ∀ w ∈ writes, w.backing = .source) (hp : 0 < s.sourceFence → ¬ s.Pending →
      ¬ ({ s with writes := writes } : HandoffState).Pending) :
    ({ s with writes := writes } : HandoffState).PhaseInv accepts base phase := by
  cases phase with
  | connecting => exact AtSource.of_writes h (hs h)
  | leased => exact AtSource.of_writes h (hs h)
  | aborted => exact AtSource.of_writes h (hs h)
  | sealed => exact ⟨h.1.of_writes (hs h.1), h.2⟩
  | draining => exact ⟨h.1.of_writes (hs h.1), h.2⟩
  | drainRead => exact ⟨h.1.of_writes (hs h.1), h.2⟩
  | finalDrain => exact ⟨h.1.of_writes (hs h.1), h.2⟩
  | finalRead =>
    obtain ⟨hat, hh, ht, hf, hq⟩ := h
    exact ⟨hat.of_writes (hs hat), hh, ht, hf, fun hnil => ⟨(hq hnil).1, hp hf (hq hnil).2⟩⟩
  | converged =>
    obtain ⟨hat, hh, hf, hq⟩ := h
    exact ⟨hat.of_writes (hs hat), hh, hf, hp hf hq⟩
  | flipped => exact ⟨h.1, h.2.1, h.2.2.1, hp h.2.2.1 h.2.2.2⟩
  | finished => exact ⟨h.1, h.2.1, h.2.2.1, hp h.2.2.1 h.2.2.2⟩

theorem PhaseInv.setStage (h : s.PhaseInv accepts base phase) {write : Nat} {w : ClientWrite}
    (hw : w ∈ s.writes) {stage : WriteStage} (hp : 0 < s.sourceFence → ¬ s.Pending →
      ¬ (w.backing = .source ∧ (stage = .checked ∨ stage = .compiled))) :
    (setStage write stage w s).PhaseInv accepts base phase := by
  refine h.of_writes (fun hat w' hw' => ?_) (fun hf hq hpend => ?_)
  · rcases mem_setStage hw' with hw' | rfl
    · exact hat.sent w' hw'
    · exact hat.sent w hw
  · rcases Pending.of_setStage hpend with hpend | hpend
    · exact hq hpend
    · exact hp hf hq hpend

theorem applyWrite_source {write : Nat} {w : ClientWrite} (h : w.backing = .source) :
    applyWrite accepts write w s =
      { setStage write .acknowledged w s with
        acknowledged := s.acknowledged ++ [w.mutation]
        sourceLog := s.sourceLog ++ [w.mutation] } := by
  unfold applyWrite
  rw [h]
  rfl

theorem applyWrite_target {write : Nat} {w : ClientWrite} (h : w.backing = .target) :
    applyWrite accepts write w s =
      { setStage write .acknowledged w s with
        acknowledged := s.acknowledged ++ [w.mutation]
        targetRows := applyMutation accepts s.targetRows w.mutation } := by
  unfold applyWrite
  rw [h]
  rfl

theorem AtSource.applyWrite (h : s.AtSource) {write : Nat} {w : ClientWrite}
    (hw : w ∈ s.writes) : (applyWrite accepts write w s).AtSource := by
  rw [applyWrite_source (h.sent w hw)]
  refine ⟨h.backing, fun w' hw' => ?_, congrArg (· ++ [w.mutation]) h.acknowledged⟩
  rcases mem_setStage hw' with hw' | rfl
  · exact h.sent w' hw'
  · exact h.sent w hw

theorem isPrefix_drop_append {α : Type _} {tail l : List α} {n : Nat} (h : tail <+: l.drop n)
    (hn : n ≤ l.length) (x : α) : tail <+: (l ++ [x]).drop n := by
  rw [drop_append_of_le_length hn]
  exact h.trans (prefix_append _ _)

theorem applyWrite_flipped {write : Nat} {w : ClientWrite} (hw : w.backing = .target)
    (h : s.backing = .target ∧ s.targetRows = replayRows accepts base s.acknowledged ∧
      0 < s.sourceFence ∧ ¬ s.Pending) :
    let s' := applyWrite accepts write w s
    s'.backing = .target ∧ s'.targetRows = replayRows accepts base s'.acknowledged ∧
      0 < s'.sourceFence ∧ ¬ s'.Pending := by
  obtain ⟨hb, hr, hf, hq⟩ := h
  rw [applyWrite_target hw]
  refine ⟨hb, ?_, hf, fun hpend => ?_⟩
  · rw [replayRows_concat, hr]
  · rcases Pending.of_setStage (s := s) hpend with hpend | ⟨hsource, -⟩
    · exact hq hpend
    · rw [hw] at hsource
      cases hsource

/-- Applying a write keeps the invariant: at the source it only makes the log
longer, and no write reaches the source once the last read was made. -/
theorem PhaseInv.applyWrite (h : s.PhaseInv accepts base phase) {write : Nat} {w : ClientWrite}
    (hw : w ∈ s.writes) (hstage : w.stage = .compiled) :
    (applyWrite accepts write w s).PhaseInv accepts base phase := by
  cases hb : w.backing with
  | source =>
    have hpend : s.Pending := ⟨w, hw, hb, .inr hstage⟩
    have hat (h : s.AtSource) : (HandoffState.applyWrite accepts write w s).AtSource :=
      h.applyWrite hw
    rw [applyWrite_source hb] at hat ⊢
    cases phase with
    | connecting => exact hat h
    | leased => exact hat h
    | aborted => exact hat h
    | sealed position =>
      refine ⟨hat h.1, h.2.trans ?_⟩
      rw [length_append]
      exact Nat.le_add_right _ _
    | draining position left => exact ⟨hat h.1, h.2.append rfl rfl⟩
    | drainRead position tail left =>
      obtain ⟨h, hh, ht⟩ := h
      exact ⟨hat h, hh.append rfl rfl, isPrefix_drop_append ht hh.1 _⟩
    | finalDrain position left =>
      exact ⟨hat h.1, h.2.1.append rfl rfl, h.2.2⟩
    | finalRead position tail left =>
      obtain ⟨h, hh, ht, hf, hq⟩ := h
      exact ⟨hat h, hh.append rfl rfl, isPrefix_drop_append ht hh.1 _, hf,
        fun hnil => absurd hpend (hq hnil).2⟩
    | converged => exact absurd hpend h.2.2.2
    | flipped => exact absurd hpend h.2.2.2
    | finished => exact absurd hpend h.2.2.2
  | target =>
    have hat : ¬ s.AtSource := fun h => by simpa [hb] using h.sent w hw
    have hflip := @applyWrite_flipped accepts base s write w hb
    rw [applyWrite_target hb] at hflip ⊢
    cases phase with
    | connecting => exact absurd h hat
    | leased => exact absurd h hat
    | aborted => exact absurd h hat
    | sealed => exact absurd h.1 hat
    | draining => exact absurd h.1 hat
    | drainRead => exact absurd h.1 hat
    | finalDrain => exact absurd h.1 hat
    | finalRead => exact absurd h.1 hat
    | converged => exact absurd h.1 hat
    | flipped => exact hflip h
    | finished => exact hflip h

/-- A step of the coordinator keeps the invariant, if its last read of the log
is settled. -/
theorem PhaseInv.coordinate (h : s.PhaseInv accepts base s.phase)
    (hread : SettledRead s .coordinate)
    (hstep : s.coordinate accepts base config = some s') :
    s'.PhaseInv accepts base s'.phase := by
  unfold HandoffState.coordinate at hstep
  cases hphase : s.phase with
  | connecting =>
    rw [hphase] at h hstep
    obtain rfl := Option.some.inj hstep
    exact ⟨h.backing, h.sent, h.acknowledged⟩
  | leased =>
    rw [hphase] at h hstep
    obtain rfl := Option.some.inj hstep
    exact ⟨⟨h.backing, h.sent, h.acknowledged⟩, Nat.le_refl _⟩
  | sealed position =>
    rw [hphase] at h hstep
    obtain rfl := Option.some.inj hstep
    exact ⟨⟨h.1.backing, h.1.sent, h.1.acknowledged⟩, h.2, rfl⟩
  | draining position left =>
    rw [hphase] at h hstep
    cases left with
    | zero =>
      obtain rfl := Option.some.inj hstep
      exact ⟨⟨h.1.backing, h.1.sent, h.1.acknowledged⟩, h.2,
        Nat.lt_of_lt_of_le (Nat.succ_pos _) (Nat.le_max_right _ _)⟩
    | succ left =>
      obtain rfl := Option.some.inj hstep
      exact ⟨⟨h.1.backing, h.1.sent, h.1.acknowledged⟩, h.2, prefix_refl _⟩
  | drainRead position tail left =>
    rw [hphase] at h hstep
    obtain rfl := Option.some.inj hstep
    obtain ⟨hat, hh, ht⟩ := h
    exact ⟨⟨hat.backing, hat.sent, hat.acknowledged⟩, hh.replay_tail ht⟩
  | finalDrain position left =>
    rw [hphase] at h hstep
    obtain ⟨hat, hh, hf⟩ := h
    cases left with
    | zero =>
      obtain rfl := Option.some.inj hstep
      exact ⟨hat.backing, hat.sent, hat.acknowledged⟩
    | succ left =>
      obtain rfl := Option.some.inj hstep
      refine ⟨⟨hat.backing, hat.sent, hat.acknowledged⟩, hh, prefix_refl _, hf,
        fun hnil => ⟨?_, ?_⟩⟩
      · exact Nat.le_antisymm (drop_eq_nil_iff.mp hnil) hh.1
      · exact hread rfl position (by rw [hphase]; rfl) hnil
  | finalRead position tail left =>
    rw [hphase] at h hstep
    obtain rfl := Option.some.inj hstep
    obtain ⟨hat, hh, ht, hf, hq⟩ := h
    cases tail with
    | nil =>
      obtain ⟨hlen, hquiet⟩ := hq rfl
      refine ⟨⟨hat.backing, hat.sent, hat.acknowledged⟩, ⟨Nat.le_refl _, ?_⟩, hf, hquiet⟩
      show s.targetRows = replayRows accepts base (s.sourceLog.take s.sourceLog.length)
      rw [hlen]
      exact hh.2
    | cons m tail =>
      exact ⟨⟨hat.backing, hat.sent, hat.acknowledged⟩, hh.replay_tail ht, hf⟩
  | converged =>
    rw [hphase] at h hstep
    obtain rfl := Option.some.inj hstep
    obtain ⟨hat, hh, hf, hq⟩ := h
    refine ⟨rfl, ?_, hf, hq⟩
    show s.targetRows = replayRows accepts base s.acknowledged
    rw [hat.acknowledged, hh.2, take_length]
  | flipped =>
    rw [hphase] at h hstep
    obtain rfl := Option.some.inj hstep
    exact h
  | finished => rw [hphase] at hstep; cases hstep
  | aborted => rw [hphase] at hstep; cases hstep

theorem PhaseInv.step {action : HandoffAction} (h : s.PhaseInv accepts base s.phase)
    (hread : s.SettledRead action)
    (hstep : s.step accepts compiles base config action = some s') :
    s'.PhaseInv accepts base s'.phase := by
  cases action with
  | coordinate => exact h.coordinate hread hstep
  | send mutation =>
    obtain rfl := Option.some.inj hstep
    refine h.of_writes (fun hat w hw => ?_) (fun _ hq hpend => hq ?_)
    · rcases mem_append.mp hw with hw | hw
      · exact hat.sent w hw
      · rw [mem_singleton.mp hw]
        exact hat.backing
    · obtain ⟨w, hw, hsource, hstage⟩ := hpend
      rcases mem_append.mp hw with hw | hw
      · exact ⟨w, hw, hsource, hstage⟩
      · rw [mem_singleton.mp hw] at hstage
        simp at hstage
  | check write =>
    obtain ⟨w, hw, -, rfl⟩ := advance_eq_some hstep
    refine h.setStage (mem_of_getElem? hw) fun hf _ ⟨hsource, hstage⟩ => ?_
    rw [checkedStage_fenced hf hsource] at hstage
    simp at hstage
  | compile write =>
    obtain ⟨w, hw, hstage, rfl⟩ := advance_eq_some hstep
    have hmem := mem_of_getElem? hw
    exact h.setStage hmem fun _ hq ⟨hsource, _⟩ => hq ⟨w, hmem, hsource, .inl hstage⟩
  | apply write =>
    obtain ⟨w, hw, hstage, rfl⟩ := advance_eq_some hstep
    have hphase : (HandoffState.applyWrite accepts write w s).phase = s.phase := by
      unfold HandoffState.applyWrite
      cases w.backing <;> rfl
    rw [hphase]
    exact h.applyWrite (mem_of_getElem? hw) hstage

theorem Run.phaseInv (h : Run accepts compiles base config SettledRead s) :
    s.PhaseInv accepts base s.phase := by
  induction h with
  | start => exact ⟨rfl, fun _ hw => absurd hw not_mem_nil, rfl⟩
  | step _ action hread hstep ih => exact ih.step hread hstep

/-- **A handoff whose last read of the log meets no write between its check and
its append loses no acknowledged write**: once the handoff and all writes have
finished, the target serves the source's rows with every acknowledged write
applied to them. -/
theorem Run.reflects (h : Run accepts compiles base config SettledRead s)
    (hfin : s.Finished) : s.Reflects accepts base := by
  have hinv := h.phaseInv
  rw [hfin.1] at hinv
  rw [Reflects, hinv.2.1]

end Invariant

/-! ## runs on fixed inputs -/

section Perform

variable {accepts compiles : ShardRow → Bool} {base : List ShardRow} {config : HandoffConfig}
variable {allowed : HandoffState → HandoffAction → Prop}
variable [∀ s action, Decidable (allowed s action)]

def perform (accepts compiles : ShardRow → Bool) (base : List ShardRow) (config : HandoffConfig)
    (allowed : HandoffState → HandoffAction → Prop) [∀ s action, Decidable (allowed s action)]
    (s : HandoffState) : List HandoffAction → Option HandoffState
  | [] => some s
  | action :: rest =>
    if allowed s action then
      match s.step accepts compiles base config action with
      | some s' => perform accepts compiles base config allowed s' rest
      | none => none
    else none

theorem Run.perform {s s' : HandoffState} (h : Run accepts compiles base config allowed s)
    (actions : List HandoffAction)
    (hp : s.perform accepts compiles base config allowed actions = some s') :
    Run accepts compiles base config allowed s' := by
  induction actions generalizing s with
  | nil => exact Option.some.inj hp ▸ h
  | cons action rest ih =>
    unfold HandoffState.perform at hp
    by_cases ha : allowed s action
    · rw [if_pos ha] at hp
      cases hstep : s.step accepts compiles base config action with
      | none => rw [hstep] at hp; cases hp
      | some s₁ =>
        rw [hstep] at hp
        exact ih (h.step action ha hstep) hp
    · rw [if_neg ha] at hp
      cases hp

end Perform

/-- A write of one query. -/
def addFirst : ClusterMutation :=
  .add ⟨1, 1, "red", [], ⟨1, 1, .replicatedAlwaysVisible, [], rfl⟩⟩

/-- One pass in each drain is enough when nothing is new. -/
def shortHandoff : HandoffConfig := ⟨1, 1, 0⟩

def wholeHandoff : List HandoffAction := List.replicate 10 .coordinate

def overtaken : HandoffState where
  sourceLog := [addFirst]
  sourceFence := 1
  targetRows := []
  backing := .target
  phase := .finished
  writes := [⟨addFirst, .source, .acknowledged⟩]
  acknowledged := [addFirst]

/-- A write that passed the check before the fence and is appended after the
last read is acknowledged, and the target does not have it. -/
theorem overtaken_lost :
    Run (fun _ => true) (fun _ => true) [] shortHandoff (fun _ _ => True) overtaken ∧
      overtaken.Finished ∧ ¬ overtaken.Reflects (fun _ => true) [] := by
  refine ⟨?_, ⟨rfl, by decide⟩, fun h => absurd h.length_eq (by decide)⟩
  exact Run.start.perform
    ([.send addFirst, .check 0] ++ wholeHandoff ++ [.compile 0, .apply 0]) rfl

/-- The same write, applied before the last read. -/
def drained : HandoffState where
  sourceLog := [addFirst]
  sourceFence := 1
  targetRows := replayRows (fun _ => true) [] [addFirst]
  backing := .target
  phase := .finished
  writes := [⟨addFirst, .source, .acknowledged⟩]
  acknowledged := [addFirst]

theorem drained_reflects :
    Run (fun _ => true) (fun _ => true) [] shortHandoff SettledRead drained ∧
      drained.Finished ∧ drained.Reflects (fun _ => true) [] := by
  have hrun : Run (fun _ => true) (fun _ => true) [] shortHandoff SettledRead drained :=
    Run.start.perform ([.send addFirst, .check 0, .compile 0, .apply 0] ++ wholeHandoff) rfl
  have hfin : drained.Finished := ⟨rfl, by decide⟩
  exact ⟨hrun, hfin, hrun.reflects hfin⟩

end HandoffState

end ReverseRusty
