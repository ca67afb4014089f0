import ReverseRusty.LocalShardRows

/-!
# ReverseRusty.LocalShardTracked

A shard and its disk stay together through every operation
(`Tracked.perform`), and what each operation does to the rows served
(`rows_perform`).
-/

namespace ReverseRusty

open List

namespace LocalShard

section Operations

variable {accepts : ShardRow → Bool} {s s' s'' : LocalShard}

/-! ## logged writes -/

theorem disk_logAndApply (s : LocalShard) (m : ClusterMutation) :
    (s.logAndApply accepts m).disk = (DiskStep.append s.nextSeq m).apply s.disk := by
  obtain ⟨memtable, hsnd, -⟩ := @applyToEngine_snd accepts (s.appendLog m) m
  rw [logAndApply, hsnd]
  rfl

variable {d : ShardDisk} {p : Nat}

theorem tail_append {position : Nat} (h : p < position) (m : ClusterMutation) :
    (DiskStep.apply d (.append position m)).tail p = d.tail p ++ [m] := by
  simp [ShardDisk.tail, DiskStep.apply, filter_append, h]

theorem Tracked.logAndApply (h : s.Tracked accepts) (m : ClusterMutation) :
    (s.logAndApply accepts m).Tracked accepts := by
  obtain ⟨memtable, hsnd, hlive⟩ := @applyToEngine_snd accepts (s.appendLog m) m
  have hcheckpoint : s.disk.sidecar.localCheckpoint < s.nextSeq :=
    Nat.lt_of_le_of_lt h.checkpointLe h.flushedLt
  have htail := tail_append (d := s.disk) hcheckpoint m
  rw [LocalShard.logAndApply, hsnd]
  exact
    { named :=
        { h.named with
          ascending := by
            refine pairwise_append.mpr ⟨h.named.ascending, pairwise_singleton _ _, ?_⟩
            intro r hr r' hr'
            rw [mem_singleton.mp hr']
            exact h.positions r hr }
      sidecarBound := h.sidecarBound
      fileBound := by
        intro seg hseg
        obtain ⟨seg₀, hseg₀, rfl⟩ := mem_map.mp hseg
        exact h.fileBound seg₀ hseg₀
      filesNodup := by
        rw [map_map]
        exact h.filesNodup
      backed := by
        intro seg hseg
        obtain ⟨seg₀, hseg₀, rfl⟩ := mem_map.mp hseg
        obtain ⟨stored, hlookup, hover, hq⟩ := h.backed seg₀ hseg₀
        refine ⟨stored, hlookup, hover.wear m, fun q hno => ?_⟩
        have hno' : ∀ m' ∈ s.disk.tail s.disk.sidecar.localCheckpoint ++ [m],
            m'.resets accepts q = false := htail ▸ hno
        rw [ofLogical_liveRows_wear (hno' m (mem_append_right _ (mem_singleton_self m)))]
        exact hq q fun m' hm' => hno' m' (mem_append_left _ hm')
      positions := by
        intro r hr
        rcases mem_append.mp hr with hr | hr
        · exact Nat.lt_succ_of_lt (h.positions r hr)
        · rw [mem_singleton.mp hr]
          exact Nat.lt_succ_self _
      checkpointLe := h.checkpointLe
      flushedLt := Nat.lt_succ_of_lt h.flushedLt
      memtable := by
        refine hlive.trans ?_
        show applyMutation accepts (liveRows s.memtable) m =
          replayRows accepts [] ((DiskStep.apply s.disk (.append s.nextSeq m)).tail s.flushedTo)
        rw [tail_append h.flushedLt, replayRows_concat, h.memtable] }

theorem rows_logAndApply (s : LocalShard) (m : ClusterMutation) :
    (s.logAndApply accepts m).rows = applyMutation accepts s.rows m :=
  rows_applyToEngine (s.appendLog m) m

/-! ## checkpoints -/

theorem Tracked.writeCheckpoint (h : s.Tracked accepts) (hp : p ≤ s.flushedTo)
    (hback : ∀ seg ∈ s.segments, (s.writeCheckpoint p).disk.Backs accepts seg) :
    (s.writeCheckpoint p).Tracked accepts :=
  { h with
    named :=
      { numbered := by
          intro f hf
          obtain ⟨seg, hseg, rfl⟩ := mem_map.mp hf
          exact h.fileBound seg hseg
        nodup := h.filesNodup
        readable := by
          intro f hf
          obtain ⟨seg, hseg, rfl⟩ := mem_map.mp hf
          obtain ⟨stored, hlookup, -⟩ := h.backed seg hseg
          exact ⟨stored, hlookup⟩
        ascending := h.named.ascending }
    sidecarBound := Nat.le_refl _
    backed := hback
    checkpointLe := hp }

theorem Tracked.lookup_of_clean (h : s.Tracked accepts) {seg : ShardSegment}
    (hseg : seg ∈ s.segments) (hclean : seg.dirty = false) :
    s.disk.files.lookup seg.file = some seg.entries := by
  obtain ⟨stored, hlookup, hover, -⟩ := h.backed seg hseg
  rw [hlookup, hover.eq_of_not_dirty hclean]

variable {upTo : Nat}

theorem tail_trim (h : upTo ≤ p) : (DiskStep.apply d (.trim upTo)).tail p = d.tail p := by
  simp only [ShardDisk.tail, DiskStep.apply, filter_filter]
  congr 1
  refine filter_congr fun r _ => ?_
  simp only [Bool.and_eq_left_iff_imp, decide_eq_true_eq]
  omega

theorem Tracked.trim (h : s.Tracked accepts) (hle : upTo ≤ s.disk.sidecar.localCheckpoint) :
    (s.durable (.trim upTo)).Tracked accepts :=
  { h with
    named := { h.named with ascending := h.named.ascending.sublist filter_sublist }
    backed := fun seg hseg => (h.backed seg hseg).of_eq (tail_trim hle) rfl
    positions := fun r hr => h.positions r (mem_of_mem_filter hr)
    memtable := h.memtable.trans (congrArg _ (tail_trim (hle.trans h.checkpointLe)).symm) }

/-! ## seals -/

theorem reapLeases_eq (s : LocalShard) (now : Nat) :
    ∃ leases, s.reapLeases now = { s with leases := leases } ∧ ∀ l ∈ leases, l ∈ s.leases := by
  unfold reapLeases
  split
  · exact ⟨_, rfl, fun _ h => mem_of_mem_filter h⟩
  · exact ⟨s.leases, rfl, fun _ h => h⟩

theorem trimTarget_le (s : LocalShard) : s.trimTarget ≤ s.lastPos := by
  unfold trimTarget
  split
  · exact Nat.min_le_left _ _
  · exact Nat.le_refl _

theorem trimTarget_le_lease (s : LocalShard) {l : Lease} (hl : l ∈ s.leases) :
    s.trimTarget ≤ l.position := by
  unfold trimTarget Lease.floor
  cases hmin : (s.leases.map Lease.position).min? with
  | none =>
    rw [min?_eq_none_iff, map_eq_nil_iff] at hmin
    rw [hmin] at hl
    cases hl
  | some floor =>
    have hle := (min?_eq_some_iff.mp hmin).2 l.position (mem_map_of_mem hl)
    exact (Nat.min_le_right _ _).trans hle

/-- A shard whose segments and log position are all in the checkpoint file it
is about to write. -/
structure ReadyToSeal (s : LocalShard) : Prop where
  clean : ∀ seg ∈ s.segments, seg.dirty = false
  flushed : s.flushedTo = s.lastPos

theorem flushedTo_flushMemtable (s : LocalShard) : s.flushMemtable.flushedTo = s.lastPos := by
  unfold flushMemtable
  split <;> rfl

theorem ready_ok (h : s.Tracked accepts) (merge : Option (Nat × Nat)) :
    (s.flush merge).resealTombstonedSegments.Tracked accepts ∧
      s.Upkeep (s.flush merge).resealTombstonedSegments ∧
      (s.flush merge).resealTombstonedSegments.ReadyToSeal := by
  obtain ⟨ht, hu⟩ := flush_ok h merge
  obtain ⟨ht', hu', hclean⟩ := reseal_ok ht
  refine ⟨ht', hu.trans hu', hclean, ?_⟩
  have hflushed : s.lastPos ≤ (s.flush merge).flushedTo := by
    have hmem := flushedTo_flushMemtable s
    unfold flush
    split
    · next lo hi => exact hmem ▸ (compactRange_ok (flushMemtable_ok h).1 lo hi).2.flushedTo
    · exact Nat.le_of_eq hmem.symm
  have hle := hu'.flushedTo
  have hlt := ht'.flushedLt
  have hseq := (hu.trans hu').nextSeq
  unfold lastPos at hflushed ⊢
  omega

/-- The states of a seal from its checkpoint file on. -/
def checkpointed (s : LocalShard) : LocalShard := s.writeCheckpoint s.lastPos

theorem Tracked.checkpointed (h : s.Tracked accepts) (hr : s.ReadyToSeal) :
    s.checkpointed.Tracked accepts := by
  refine h.writeCheckpoint (Nat.le_of_eq hr.flushed.symm) fun seg hseg => ?_
  exact ShardDisk.backs_of_lookup (h.lookup_of_clean hseg (hr.clean seg hseg))

theorem Tracked.withLeases (h : s.Tracked accepts) (leases : List Lease) :
    ({ s with leases := leases } : LocalShard).Tracked accepts :=
  { h with }

/-- What a seal does once the shard is ready: the checkpoint file, the leases,
the log, and the files no longer named. -/
theorem sealForCheckpoint_eq (s : LocalShard) (merge : Option (Nat × Nat)) (now : Nat) :
    s.sealForCheckpoint merge now =
      let s₁ := (s.flush merge).resealTombstonedSegments.checkpointed.reapLeases now
      (s₁.durable (.trim s₁.trimTarget)).removeReplacedFiles := rfl

theorem removeReplacedFiles_ok (h : s.Tracked accepts)
    (hall : ∀ seg ∈ s.segments, seg.file ∈ s.disk.sidecar.segmentFiles) :
    s.removeReplacedFiles.Tracked accepts ∧ s.Upkeep s.removeReplacedFiles := by
  unfold removeReplacedFiles
  split
  · have hempty : ({ s with keptSegmentFiles := [] } : LocalShard).Tracked accepts := { h with }
    obtain ⟨ht, hu⟩ := retireFiles hempty s.keptSegmentFiles fun f _ hn hin => by
      obtain ⟨seg, hseg, rfl⟩ := mem_map.mp hin
      exact hn (hall seg hseg)
    exact ⟨ht, { hu with }⟩
  · exact ⟨h, .refl s⟩

/-- Once its checkpoint file is written, a seal trims the log of what that file
has and removes files it does not name. -/
theorem sealed_ok (h : s.Tracked accepts) (hr : s.ReadyToSeal) (now : Nat) :
    let s₁ := s.checkpointed.reapLeases now
    (s₁.durable (.trim s₁.trimTarget)).Tracked accepts ∧
      (s₁.durable (.trim s₁.trimTarget)).removeReplacedFiles.Tracked accepts ∧
      (s₁.durable (.trim s₁.trimTarget)).Upkeep
        (s₁.durable (.trim s₁.trimTarget)).removeReplacedFiles := by
  obtain ⟨leases, heq, -⟩ := reapLeases_eq s.checkpointed now
  have ht : (s.checkpointed.reapLeases now).Tracked accepts := by
    rw [heq]
    exact (h.checkpointed hr).withLeases leases
  have hle : (s.checkpointed.reapLeases now).trimTarget ≤
      (s.checkpointed.reapLeases now).disk.sidecar.localCheckpoint := by
    refine (trimTarget_le _).trans ?_
    rw [heq]
    exact Nat.le_refl _
  refine ⟨ht.trim hle, removeReplacedFiles_ok (ht.trim hle) ?_⟩
  rw [heq]
  exact fun seg hseg => mem_map_of_mem hseg

theorem Tracked.sealForCheckpoint (h : s.Tracked accepts) (merge : Option (Nat × Nat))
    (now : Nat) : (s.sealForCheckpoint merge now).Tracked accepts := by
  obtain ⟨ht, -, hr⟩ := ready_ok h merge
  exact (sealed_ok ht hr now).2.1

theorem rows_sealForCheckpoint (h : s.Tracked accepts) (merge : Option (Nat × Nat)) (now : Nat) :
    (s.sealForCheckpoint merge now).rows = s.rows := by
  obtain ⟨ht, hu, hr⟩ := ready_ok h merge
  obtain ⟨-, -, hu'⟩ := sealed_ok ht hr now
  refine hu'.rows.trans (Eq.trans ?_ hu.rows)
  obtain ⟨leases, heq, -⟩ := reapLeases_eq (s.flush merge).resealTombstonedSegments.checkpointed now
  rw [heq]
  rfl

/-! ## bulk ingest -/

theorem Tracked.ingest (h : s.Tracked accepts) (items : List ShardRow) :
    (s.ingest accepts items).Tracked accepts := by
  refine (h.pushSegment _).writeCheckpoint h.checkpointLe fun seg hseg => ?_
  exact ((h.pushSegment _).backed seg hseg).of_eq rfl rfl

theorem rows_ingest (s : LocalShard) (items : List ShardRow) :
    (s.ingest accepts items).rows.Perm (s.rows ++ items.filter accepts) := by
  have hrows : (s.ingest accepts items).rows =
      (s.segments.flatMap fun seg => liveRows seg.entries) ++ items.filter accepts ++
        liveRows s.memtable := by
    simp [LocalShard.ingest, LocalShard.writeCheckpoint, durable, rows, LocalShard.writeSegment]
  rw [hrows, rows, append_assoc, append_assoc]
  exact perm_append_comm.append_left _

/-! ## every operation -/

theorem Tracked.effect (h : s.Tracked accepts) (op : Op) : (s.effect accepts op).Tracked accepts := by
  cases op with
  | insert row => exact h.logAndApply _
  | replace row mode =>
    by_cases hm : mode.admits s.rows row = true
    · rw [LocalShard.effect, if_pos hm]
      exact h.logAndApply _
    · rwa [LocalShard.effect, if_neg hm]
  | delete logical => exact h.logAndApply _
  | ingest items => exact h.ingest items
  | flush merge => exact (flush_ok h merge).1
  | sealForCheckpoint merge now => exact h.sealForCheckpoint merge now
  | acquireLease now => exact { h with }
  | renewLease id target now => exact { h with }
  | releaseLease id => exact { h with }

theorem Tracked.perform (h : s.Tracked accepts) (op : Op) :
    (s.perform accepts op).Tracked accepts :=
  Tracked.effect (s := { s with passed := [] }) { h with } op

variable (accepts) in
/-- What an operation does to the rows served. -/
def Op.contents (rows : List ShardRow) : Op → List ShardRow
  | .insert row => applyMutation accepts rows (.add row)
  | .replace row mode =>
    if mode.admits rows row then applyMutation accepts rows (.upsert row) else rows
  | .delete logical => applyMutation accepts rows (.remove logical)
  | .ingest items => rows ++ items.filter accepts
  | .flush _ | .sealForCheckpoint _ _ | .acquireLease _ | .renewLease _ _ _ | .releaseLease _ => rows

theorem rows_effect (h : s.Tracked accepts) (op : Op) :
    (s.effect accepts op).rows.Perm (op.contents accepts s.rows) := by
  cases op with
  | insert row => exact .of_eq (rows_logAndApply s _)
  | replace row mode =>
    by_cases hm : mode.admits s.rows row = true
    · rw [LocalShard.effect, Op.contents, if_pos hm, if_pos hm]
      exact .of_eq (rows_logAndApply s _)
    · rw [LocalShard.effect, Op.contents, if_neg hm, if_neg hm]
  | delete logical => exact .of_eq (rows_logAndApply s _)
  | ingest items => exact rows_ingest s items
  | flush merge => exact .of_eq (flush_ok h merge).2.rows
  | sealForCheckpoint merge now => exact .of_eq (rows_sealForCheckpoint h merge now)
  | acquireLease now => exact .refl _
  | renewLease id target now => exact .refl _
  | releaseLease id => exact .refl _

theorem rows_perform (h : s.Tracked accepts) (op : Op) :
    (s.perform accepts op).rows.Perm (op.contents accepts s.rows) :=
  rows_effect (s := { s with passed := [] }) { h with } op

end Operations

end LocalShard

end ReverseRusty
