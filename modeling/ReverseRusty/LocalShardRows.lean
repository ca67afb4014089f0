import ReverseRusty.LocalShard

/-!
# ReverseRusty.LocalShardRows

What the operations of a shard do to its rows and to its files.

`Tracked` relates a shard to its disk: every segment is on disk, up to the
rows that writes since the checkpoint marked dead, and the memtable is a
replay of the log since the last flush.  `Upkeep` is what flushes, merges and
reseals may do: they write and remove files the checkpoint file does not name,
and serve the same rows.
-/

namespace ReverseRusty

open List

/-! ## live rows -/

@[simp] theorem liveRows_nil : liveRows [] = [] := rfl

@[simp] theorem liveRows_append (es es' : List ShardEntry) :
    liveRows (es ++ es') = liveRows es ++ liveRows es' := by
  simp [liveRows]

@[simp] theorem liveRows_entriesOf (rows : List ShardRow) : liveRows (entriesOf rows) = rows := by
  induction rows with
  | nil => rfl
  | cons row rows ih =>
    show row :: liveRows (entriesOf rows) = row :: rows
    rw [ih]

theorem liveRows_tombstoneLogical (q : UInt64) (es : List ShardEntry) :
    liveRows (tombstoneLogical q es) = withoutLogical q (liveRows es) := by
  induction es with
  | nil => rfl
  | cons e es ih =>
    have hcons (e : ShardEntry) (es : List ShardEntry) :
        liveRows (e :: es) = (if e.alive then [e.row] else []) ++ liveRows es := by
      cases h : e.alive <;> simp [liveRows, h]
    show liveRows (_ :: tombstoneLogical q es) = _
    rw [hcons, hcons, ih, withoutLogical, withoutLogical, filter_append]
    by_cases ha : e.alive = true <;> by_cases hq : e.row.logical = q <;> simp [ha, hq]

/-- Entries that some rows have been marked dead in since they were written. -/
def Overlay (stored es : List ShardEntry) : Prop :=
  List.Forall₂ (fun a b : ShardEntry => a.row = b.row ∧ (b.alive = true → a.alive = true)) stored es

theorem Overlay.refl (es : List ShardEntry) : Overlay es es :=
  forall₂_same.mpr fun _ _ => ⟨rfl, id⟩

variable {stored es : List ShardEntry}

theorem Overlay.tombstoneLogical (h : Overlay stored es) (q : UInt64) :
    Overlay stored (tombstoneLogical q es) := by
  unfold Overlay ReverseRusty.tombstoneLogical at *
  rw [forall₂_map_right_iff]
  refine h.imp fun a b hab => ⟨hab.1, fun hb => hab.2 ?_⟩
  simp only [Bool.and_eq_true] at hb
  exact hb.1

/-- A segment without dead rows is the file it was written to. -/
theorem Overlay.eq_of_not_dirty (h : Overlay stored es) (hd : (es.any fun e => !e.alive) = false) :
    stored = es := by
  induction h with
  | nil => rfl
  | @cons a b as bs hab _ ih =>
    simp only [any_cons, Bool.or_eq_false_iff, Bool.not_eq_false'] at hd
    obtain ⟨hrow, halive⟩ := hab
    have ha : a = b := by
      cases a
      cases b
      simp_all
    rw [ha, ih hd.2]

/-! ## writes in memory -/

section Writes

variable {accepts : ShardRow → Bool}

variable (accepts) in
/-- Whether the engine takes a logged write. -/
def ClusterMutation.accepted : ClusterMutation → Bool
  | .add row | .upsert row => accepts row
  | .remove _ => true

variable (accepts) in
/-- What a write marks dead in a segment. -/
def ClusterMutation.wear (es : List ShardEntry) : ClusterMutation → List ShardEntry
  | .add _ => es
  | .upsert row => if accepts row then tombstoneLogical row.logical es else es
  | .remove logical => tombstoneLogical logical es

theorem Overlay.wear {stored es : List ShardEntry} (h : Overlay stored es)
    (m : ClusterMutation) : Overlay stored (m.wear accepts es) := by
  cases m with
  | add row => exact h
  | upsert row =>
    by_cases ha : accepts row = true
    · rw [ClusterMutation.wear, if_pos ha]
      exact h.tombstoneLogical _
    · rwa [ClusterMutation.wear, if_neg ha]
  | remove logical => exact h.tombstoneLogical _

theorem ofLogical_liveRows_wear {m : ClusterMutation} {q : UInt64}
    (h : m.resets accepts q = false) (es : List ShardEntry) :
    ofLogical q (liveRows (m.wear accepts es)) = ofLogical q (liveRows es) := by
  cases m with
  | add row => rfl
  | upsert row =>
    by_cases ha : accepts row = true
    · have hq : row.logical ≠ q := by simpa [ClusterMutation.resets, ha] using h
      rw [ClusterMutation.wear, if_pos ha, liveRows_tombstoneLogical,
        ofLogical_withoutLogical_of_ne hq]
    · rw [ClusterMutation.wear, if_neg ha]
  | remove logical =>
    have hq : logical ≠ q := by simpa [ClusterMutation.resets] using h
    rw [ClusterMutation.wear, liveRows_tombstoneLogical, ofLogical_withoutLogical_of_ne hq]

namespace LocalShard

variable {s s' s'' : LocalShard}

attribute [local simp] applyToEngine ClusterMutation.wear

theorem applyToEngine_fst (s : LocalShard) (m : ClusterMutation) :
    (s.applyToEngine accepts m).1 = m.accepted accepts := by
  cases m with
  | add row | upsert row =>
    by_cases ha : accepts row = true <;> simp [ClusterMutation.accepted, ha]
  | remove logical => rfl

theorem applyToEngine_snd (s : LocalShard) (m : ClusterMutation) :
    ∃ memtable, (s.applyToEngine accepts m).2 =
        { s with
          segments := s.segments.map fun seg => { seg with entries := m.wear accepts seg.entries }
          memtable := memtable } ∧
      liveRows memtable = applyMutation accepts (liveRows s.memtable) m := by
  cases m with
  | add row =>
    by_cases ha : accepts row = true
    · exact ⟨s.memtable ++ [⟨row, true⟩],
        by simp [ha, pushRow],
        by simp [applyMutation, ha, liveRows]⟩
    · exact ⟨s.memtable, by simp [ha],
        by simp [applyMutation, ha]⟩
  | upsert row =>
    by_cases ha : accepts row = true
    · exact ⟨tombstoneLogical row.logical s.memtable ++ [⟨row, true⟩],
        by simp [ha, pushRow, tombstone],
        by rw [liveRows_append, liveRows_tombstoneLogical]; simp [applyMutation, ha, liveRows]⟩
    · exact ⟨s.memtable, by simp [ha],
        by simp [applyMutation, ha]⟩
  | remove logical =>
    exact ⟨tombstoneLogical logical s.memtable, rfl, liveRows_tombstoneLogical _ _⟩

theorem withoutLogical_append (q : UInt64) (rows rows' : List ShardRow) :
    withoutLogical q (rows ++ rows') = withoutLogical q rows ++ withoutLogical q rows' :=
  filter_append _ _

theorem withoutLogical_flatMap {α : Type} (q : UInt64) (f : α → List ShardRow) (xs : List α) :
    withoutLogical q (xs.flatMap f) = xs.flatMap fun x => withoutLogical q (f x) :=
  filter_flatMap

theorem rows_tombstone (s : LocalShard) (q : UInt64) :
    (s.tombstone q).rows = withoutLogical q s.rows := by
  simp only [rows, tombstone, flatMap_map, liveRows_tombstoneLogical, withoutLogical_append,
    withoutLogical_flatMap]

theorem rows_pushRow (s : LocalShard) (row : ShardRow) : (s.pushRow row).rows = s.rows ++ [row] := by
  simp only [rows, pushRow, liveRows_append, ← append_assoc]
  rfl

theorem rows_applyToEngine (s : LocalShard) (m : ClusterMutation) :
    (s.applyToEngine accepts m).2.rows = applyMutation accepts s.rows m := by
  cases m with
  | add row | upsert row =>
    by_cases ha : accepts row = true
    · simp [applyMutation, ha, rows_pushRow, rows_tombstone]
    · simp [applyMutation, ha]
  | remove logical => exact rows_tombstone s logical

end LocalShard

end Writes

/-! ## the disk -/

namespace ShardDisk

/-- The checkpoint file names distinct files below its next number, all of
them on disk, and the log is in order. -/
structure Named (d : ShardDisk) : Prop where
  numbered : ∀ f ∈ d.sidecar.segmentFiles, f < d.sidecar.nextSegId
  nodup : d.sidecar.segmentFiles.Nodup
  readable : ∀ f ∈ d.sidecar.segmentFiles, ∃ es, d.files.lookup f = some es
  ascending : d.records.Pairwise fun a b => a.1 < b.1

/-- A disk with the same checkpoint file, the same files under it and the same
log. -/
structure Same (d d' : ShardDisk) : Prop where
  sidecar : d'.sidecar = d.sidecar
  records : d'.records = d.records
  files : ∀ f ∈ d.sidecar.segmentFiles, d'.files.lookup f = d.files.lookup f

theorem Same.refl (d : ShardDisk) : d.Same d := ⟨rfl, rfl, fun _ _ => rfl⟩

variable {d d' : ShardDisk}

theorem Same.trans {d'' : ShardDisk} (h : d.Same d') (h' : d'.Same d'') : d.Same d'' where
  sidecar := h'.sidecar.trans h.sidecar
  records := h'.records.trans h.records
  files f hf := (h'.files f (h.sidecar ▸ hf)).trans (h.files f hf)

theorem Same.named (h : d.Same d') (hd : d.Named) : d'.Named where
  numbered := h.sidecar ▸ hd.numbered
  nodup := h.sidecar ▸ hd.nodup
  readable f hf := by
    rw [h.sidecar] at hf
    rw [h.files f hf]
    exact hd.readable f hf
  ascending := h.records ▸ hd.ascending

variable {file : Nat}

theorem same_writeSegment (h : file ∉ d.sidecar.segmentFiles) (es : List ShardEntry) :
    d.Same (DiskStep.apply d (.writeSegment file es)) :=
  ⟨rfl, rfl, fun _ hf => AList.lookup_insert_ne fun e => h (e ▸ hf)⟩

theorem same_removeSegment (h : file ∉ d.sidecar.segmentFiles) :
    d.Same (DiskStep.apply d (.removeSegment file)) :=
  ⟨rfl, rfl, fun _ hf => AList.lookup_erase_ne fun e => h (e ▸ hf)⟩

theorem Same.tail_eq (h : d.Same d') (p : Nat) : d'.tail p = d.tail p := by
  rw [tail, tail, h.records]

theorem Same.tail_checkpoint (h : d.Same d') :
    d'.tail d'.sidecar.localCheckpoint = d.tail d.sidecar.localCheckpoint := by
  rw [h.tail_eq, h.sidecar]

/-- A segment is on disk, up to the rows that writes since the checkpoint
marked dead. -/
def Backs (accepts : ShardRow → Bool) (d : ShardDisk) (seg : ShardSegment) : Prop :=
  ∃ stored, d.files.lookup seg.file = some stored ∧ Overlay stored seg.entries ∧
    ∀ q, (∀ m ∈ d.tail d.sidecar.localCheckpoint, m.resets accepts q = false) →
      ofLogical q (liveRows stored) = ofLogical q (liveRows seg.entries)

variable {accepts : ShardRow → Bool}

theorem Backs.of_eq {seg : ShardSegment} (h : d.Backs accepts seg)
    (htail : d'.tail d'.sidecar.localCheckpoint = d.tail d.sidecar.localCheckpoint)
    (hfile : d'.files.lookup seg.file = d.files.lookup seg.file) : d'.Backs accepts seg := by
  obtain ⟨stored, hlookup, hover, hq⟩ := h
  exact ⟨stored, hfile.trans hlookup, hover, fun q hno => hq q (htail ▸ hno)⟩

theorem backs_of_lookup {seg : ShardSegment} (h : d.files.lookup seg.file = some seg.entries) :
    d.Backs accepts seg :=
  ⟨seg.entries, h, .refl _, fun _ _ => rfl⟩

end ShardDisk

/-! ## a shard and its disk -/

namespace LocalShard

/-- A shard and its disk belong together. -/
structure Tracked (accepts : ShardRow → Bool) (s : LocalShard) : Prop where
  named : s.disk.Named
  sidecarBound : s.disk.sidecar.nextSegId ≤ s.nextSegId
  fileBound : ∀ seg ∈ s.segments, seg.file < s.nextSegId
  filesNodup : (s.segments.map ShardSegment.file).Nodup
  backed : ∀ seg ∈ s.segments, s.disk.Backs accepts seg
  positions : ∀ r ∈ s.disk.records, r.1 < s.nextSeq
  checkpointLe : s.disk.sidecar.localCheckpoint ≤ s.flushedTo
  flushedLt : s.flushedTo < s.nextSeq
  memtable : liveRows s.memtable = replayRows accepts [] (s.disk.tail s.flushedTo)

/-- What maintenance may do: the checkpoint file, the files it names, the log
and the rows served stay, on the way and at the end. -/
structure Upkeep (s s' : LocalShard) : Prop where
  disk : s.disk.Same s'.disk
  passed : ∀ d ∈ s'.passed, d ∈ s.passed ∨ s.disk.Same d
  rows : s'.rows = s.rows
  nextSegId : s.nextSegId ≤ s'.nextSegId
  nextSeq : s'.nextSeq = s.nextSeq
  leases : s'.leases = s.leases
  leaseTtl : s'.leaseTtl = s.leaseTtl
  owns : s'.ownsCommitRecord = s.ownsCommitRecord
  flushedTo : s.flushedTo ≤ s'.flushedTo

section Maintenance

variable {accepts : ShardRow → Bool} {s s' s'' : LocalShard}

theorem Upkeep.refl (s : LocalShard) : s.Upkeep s :=
  ⟨.refl _, fun _ h => .inl h, rfl, Nat.le_refl _, rfl, rfl, rfl, rfl, Nat.le_refl _⟩

theorem Upkeep.trans (h : s.Upkeep s') (h' : s'.Upkeep s'') : s.Upkeep s'' where
  disk := h.disk.trans h'.disk
  passed d hd := by
    rcases h'.passed d hd with hd | hd
    · exact h.passed d hd
    · exact .inr (h.disk.trans hd)
  rows := h'.rows.trans h.rows
  nextSegId := h.nextSegId.trans h'.nextSegId
  nextSeq := h'.nextSeq.trans h.nextSeq
  leases := h'.leases.trans h.leases
  leaseTtl := h'.leaseTtl.trans h.leaseTtl
  owns := h'.owns.trans h.owns
  flushedTo := h.flushedTo.trans h'.flushedTo

theorem upkeep_durable {step : DiskStep} (h : s.disk.Same (step.apply s.disk)) :
    s.Upkeep (s.durable step) :=
  { Upkeep.refl s with
    disk := h
    passed := fun d hd => (mem_append.mp hd).imp id fun (hd : d ∈ [s.disk]) =>
      mem_singleton.mp hd ▸ .refl _
    rows := rfl }

theorem Tracked.nextSegId_not_named (h : s.Tracked accepts) :
    s.nextSegId ∉ s.disk.sidecar.segmentFiles := fun hm =>
  absurd (Nat.lt_of_lt_of_le (h.named.numbered _ hm) h.sidecarBound) (Nat.lt_irrefl _)

theorem Tracked.withSegments (h : s.Tracked accepts) {segs : List ShardSegment}
    (hbound : ∀ seg ∈ segs, seg.file < s.nextSegId)
    (hnodup : (segs.map ShardSegment.file).Nodup)
    (hback : ∀ seg ∈ segs, s.disk.Backs accepts seg) :
    ({ s with segments := segs } : LocalShard).Tracked accepts :=
  { h with fileBound := hbound, filesNodup := hnodup, backed := hback }

theorem Tracked.of_same (h : s.Tracked accepts) (hsame : s.disk.Same s'.disk)
    (hfiles : ∀ seg ∈ s.segments, s'.disk.files.lookup seg.file = s.disk.files.lookup seg.file)
    (hsegs : s'.segments = s.segments) (hmem : s'.memtable = s.memtable)
    (hid : s.nextSegId ≤ s'.nextSegId) (hseq : s'.nextSeq = s.nextSeq)
    (hflushed : s'.flushedTo = s.flushedTo) : s'.Tracked accepts where
  named := hsame.named h.named
  sidecarBound := hsame.sidecar ▸ h.sidecarBound.trans hid
  fileBound seg hseg := Nat.lt_of_lt_of_le (h.fileBound seg (hsegs ▸ hseg)) hid
  filesNodup := hsegs ▸ h.filesNodup
  backed seg hseg :=
    (h.backed seg (hsegs ▸ hseg)).of_eq hsame.tail_checkpoint (hfiles seg (hsegs ▸ hseg))
  positions r hr := by
    rw [hsame.records] at hr
    rw [hseq]
    exact h.positions r hr
  checkpointLe := by rw [hsame.sidecar, hflushed]; exact h.checkpointLe
  flushedLt := hflushed ▸ hseq ▸ h.flushedLt
  memtable := by rw [hmem, hflushed, hsame.tail_eq]; exact h.memtable

theorem Tracked.writeSegment (h : s.Tracked accepts) (es : List ShardEntry) :
    (s.writeSegment es).Tracked accepts :=
  h.of_same (ShardDisk.same_writeSegment h.nextSegId_not_named es)
    (fun seg hseg => AList.lookup_insert_ne (Nat.ne_of_lt (h.fileBound seg hseg)))
    rfl rfl (Nat.le_succ _) rfl rfl

theorem Tracked.upkeep_writeSegment (h : s.Tracked accepts) (es : List ShardEntry) :
    s.Upkeep (s.writeSegment es) :=
  { upkeep_durable (ShardDisk.same_writeSegment h.nextSegId_not_named es) with
    nextSegId := Nat.le_succ _ }

theorem backs_writeSegment (s : LocalShard) (es : List ShardEntry) :
    (s.writeSegment es).disk.Backs accepts ⟨s.nextSegId, es⟩ :=
  ShardDisk.backs_of_lookup (AList.lookup_insert _)

/-! ## retiring files -/

theorem upkeep_retireFile (s : LocalShard) (file : Nat) : s.Upkeep (s.retireFile file) := by
  unfold retireFile
  split
  · exact { Upkeep.refl s with rows := rfl }
  · next h => exact upkeep_durable (ShardDisk.same_removeSegment h)

theorem Tracked.retireFile (h : s.Tracked accepts) {file : Nat}
    (hf : file ∉ s.disk.sidecar.segmentFiles → file ∉ s.segments.map ShardSegment.file) :
    (s.retireFile file).Tracked accepts := by
  unfold LocalShard.retireFile
  split
  · exact { h with }
  · next hn =>
    refine h.of_same (ShardDisk.same_removeSegment hn) (fun seg hseg => ?_) rfl rfl
      (Nat.le_refl _) rfl rfl
    exact AList.lookup_erase_ne fun e => hf hn (e ▸ mem_map_of_mem hseg)

theorem segments_retireFile (s : LocalShard) (file : Nat) :
    (s.retireFile file).segments = s.segments := by
  unfold LocalShard.retireFile
  split <;> rfl

theorem retireFiles (h : s.Tracked accepts) (files : List Nat)
    (hf : ∀ f ∈ files, f ∉ s.disk.sidecar.segmentFiles → f ∉ s.segments.map ShardSegment.file) :
    (files.foldl LocalShard.retireFile s).Tracked accepts ∧
      s.Upkeep (files.foldl LocalShard.retireFile s) := by
  induction files generalizing s with
  | nil => exact ⟨h, .refl s⟩
  | cons f files ih =>
    have hrest : ∀ f' ∈ files, f' ∉ (s.retireFile f).disk.sidecar.segmentFiles →
        f' ∉ (s.retireFile f).segments.map ShardSegment.file := by
      intro f' hf'
      rw [segments_retireFile, (upkeep_retireFile s f).disk.sidecar]
      exact hf f' (mem_cons_of_mem _ hf')
    obtain ⟨ht, hu⟩ := ih (h.retireFile (hf f mem_cons_self)) hrest
    exact ⟨ht, (upkeep_retireFile s f).trans hu⟩

theorem cleanup (h : s.Tracked accepts) (files : List Nat)
    (hf : ∀ f ∈ files, f ∉ s.segments.map ShardSegment.file) :
    (s.cleanupSegmentFiles files).Tracked accepts ∧ s.Upkeep (s.cleanupSegmentFiles files) := by
  unfold cleanupSegmentFiles
  split
  · exact retireFiles h files fun f hin _ => hf f hin
  · exact ⟨h, .refl s⟩

/-! ## flushes and merges -/

section Splice

variable {before old after : List ShardSegment}
variable (hsplit : s.segments = before ++ old ++ after)

include hsplit

/-- Put a segment just written in the place of a range. -/
theorem Tracked.splice (h : s.Tracked accepts) (es : List ShardEntry) :
    ({ s.writeSegment es with
        segments := before ++ [⟨s.nextSegId, es⟩] ++ after } : LocalShard).Tracked accepts := by
  have hsub : ∀ seg ∈ before ++ after, seg ∈ s.segments := by
    intro seg hseg
    rw [hsplit]
    rcases mem_append.mp hseg with hseg | hseg <;> simp [hseg]
  have hperm : (before ++ [(⟨s.nextSegId, es⟩ : ShardSegment)] ++ after).Perm
      (⟨s.nextSegId, es⟩ :: (before ++ after)) := by
    rw [append_assoc]
    exact perm_middle
  refine (h.writeSegment es).withSegments (fun seg hseg => ?_) ?_ (fun seg hseg => ?_)
  · rcases mem_cons.mp (hperm.mem_iff.mp hseg) with rfl | hseg
    · exact Nat.lt_succ_self _
    · exact Nat.lt_succ_of_lt (h.fileBound seg (hsub seg hseg))
  · rw [(hperm.map _).nodup_iff, map_cons, nodup_cons]
    refine ⟨fun hin => ?_, ?_⟩
    · obtain ⟨seg, hseg, heq⟩ := mem_map.mp hin
      exact absurd heq (Nat.ne_of_lt (h.fileBound seg (hsub seg hseg)))
    · have hnodup := h.filesNodup
      rw [hsplit, append_assoc] at hnodup
      exact hnodup.sublist (((sublist_append_right _ _).append_left _).map _)
  · rcases mem_cons.mp (hperm.mem_iff.mp hseg) with rfl | hseg
    · exact backs_writeSegment s es
    · exact (h.writeSegment es).backed seg (hsub seg hseg)

theorem Tracked.upkeep_splice (h : s.Tracked accepts) {es : List ShardEntry}
    (hes : liveRows es = old.flatMap fun seg => liveRows seg.entries) :
    s.Upkeep { s.writeSegment es with segments := before ++ [⟨s.nextSegId, es⟩] ++ after } := by
  refine { h.upkeep_writeSegment es with rows := ?_ }
  rw [rows, rows, hsplit]
  simp [LocalShard.writeSegment, durable, hes]

theorem Tracked.not_mem_splice (h : s.Tracked accepts) (es : List ShardEntry) {f : Nat}
    (hf : f ∈ old.map ShardSegment.file) :
    f ∉ (before ++ [(⟨s.nextSegId, es⟩ : ShardSegment)] ++ after).map ShardSegment.file := by
  intro hin
  have hnodup := h.filesNodup
  rw [hsplit, map_append, map_append, append_assoc, nodup_append,
    nodup_append] at hnodup
  obtain ⟨-, ⟨-, -, hafter⟩, hbefore⟩ := hnodup
  simp only [map_append, map_singleton, mem_append, mem_singleton] at hin
  rcases hin with (hin | hin) | hin
  · exact hbefore f hin f (mem_append_left _ hf) rfl
  · obtain ⟨seg, hseg, rfl⟩ := mem_map.mp hf
    have hmem : seg ∈ s.segments := by
      rw [hsplit]
      simp [hseg]
    exact absurd hin (Nat.ne_of_lt (h.fileBound seg hmem))
  · exact hafter f hf f hin rfl

end Splice

theorem Tracked.pushSegment (h : s.Tracked accepts) (es : List ShardEntry) :
    ({ s.writeSegment es with segments := s.segments ++ [⟨s.nextSegId, es⟩] } :
      LocalShard).Tracked accepts := by
  have hsplit : s.segments = s.segments ++ [] ++ [] := by simp
  simpa only [append_nil] using h.splice hsplit es

theorem Tracked.tail_lastPos (h : s.Tracked accepts) : s.disk.tail s.lastPos = [] := by
  rw [ShardDisk.tail, map_eq_nil_iff, filter_eq_nil_iff]
  intro r hr
  have hlt := h.positions r hr
  rw [decide_eq_true_eq, lastPos]
  omega

theorem Tracked.lastPos_lt (h : s.Tracked accepts) : s.lastPos < s.nextSeq := by
  have := h.flushedLt
  unfold lastPos
  omega

/-- An empty memtable holds the log since now. -/
theorem Tracked.emptied (h : s.Tracked accepts) {memtable : List ShardEntry}
    (hmem : liveRows memtable = []) :
    ({ s with memtable := memtable, flushedTo := s.lastPos } : LocalShard).Tracked accepts :=
  { h with
    checkpointLe := by
      have hle := h.checkpointLe
      have hlt := h.flushedLt
      show s.disk.sidecar.localCheckpoint ≤ s.nextSeq - 1
      omega
    flushedLt := h.lastPos_lt
    memtable := by
      show liveRows memtable = replayRows accepts [] (s.disk.tail s.lastPos)
      rw [h.tail_lastPos, hmem]
      rfl }

theorem flushMemtable_ok (h : s.Tracked accepts) :
    s.flushMemtable.Tracked accepts ∧ s.Upkeep s.flushMemtable := by
  have hle : s.flushedTo ≤ s.lastPos := Nat.le_sub_one_of_lt h.flushedLt
  unfold flushMemtable
  by_cases hm : s.memtable = []
  · rw [if_pos hm]
    exact ⟨h.emptied (by rw [hm]; rfl), { Upkeep.refl s with rows := rfl, flushedTo := hle }⟩
  · rw [if_neg hm]
    refine ⟨(h.pushSegment s.memtable).emptied rfl,
      { h.upkeep_writeSegment s.memtable with rows := ?_, flushedTo := hle }⟩
    simp [rows]

theorem compactRange_ok (h : s.Tracked accepts) (lo hi : Nat) :
    (s.compactRange lo hi).Tracked accepts ∧ s.Upkeep (s.compactRange lo hi) := by
  unfold compactRange
  split
  · exact ⟨h, .refl s⟩
  · next hrange =>
    have hlo : lo ≤ hi := by omega
    have hsplit : s.segments =
        s.segments.take lo ++ (s.segments.take hi).drop lo ++ s.segments.drop hi := by
      rw [← Nat.min_eq_left hlo, ← take_take, Nat.min_eq_left hlo, take_append_drop,
        take_append_drop]
    obtain ⟨ht, hu⟩ := cleanup (h.splice hsplit _) _ fun f hf => h.not_mem_splice hsplit _ hf
    exact ⟨ht, (h.upkeep_splice hsplit (liveRows_entriesOf _)).trans hu⟩

theorem flush_ok (h : s.Tracked accepts) (merge : Option (Nat × Nat)) :
    (s.flush merge).Tracked accepts ∧ s.Upkeep (s.flush merge) := by
  obtain ⟨ht, hu⟩ := flushMemtable_ok h
  cases merge with
  | none => exact ⟨ht, hu⟩
  | some range =>
    obtain ⟨ht', hu'⟩ := compactRange_ok ht range.1 range.2
    exact ⟨ht', hu.trans hu'⟩

/-! ## reseals -/

theorem segments_cleanupSegmentFiles (s : LocalShard) (files : List Nat) :
    (s.cleanupSegmentFiles files).segments = s.segments := by
  unfold cleanupSegmentFiles
  split
  · refine List.foldlRecOn (motive := fun s' : LocalShard => s'.segments = s.segments) files
      LocalShard.retireFile rfl fun s' h f _ => ?_
    rw [segments_retireFile, h]
  · rfl

theorem dirty_entriesOf (file : Nat) (rows : List ShardRow) :
    (⟨file, entriesOf rows⟩ : ShardSegment).dirty = false := by
  simp [ShardSegment.dirty, entriesOf]

variable (accepts) in
structure Resealed (s : LocalShard) (segs : List ShardSegment) (r : List ShardSegment × List Nat)
    (s' : LocalShard) : Prop where
  tracked : s'.Tracked accepts
  upkeep : s.Upkeep s'
  segments : s'.segments = s.segments
  memtable : s'.memtable = s.memtable
  frame : ∀ f < s.nextSegId, s'.disk.files.lookup f = s.disk.files.lookup f
  earlier : ∀ seg ∈ r.1, seg ∈ segs ∨ s.nextSegId ≤ seg.file
  bound : ∀ seg ∈ r.1, seg.file < s'.nextSegId
  backed : ∀ seg ∈ r.1, s'.disk.Backs accepts seg
  nodup : (r.1.map ShardSegment.file).Nodup
  clean : ∀ seg ∈ r.1, seg.dirty = false
  live : (r.1.flatMap fun seg => liveRows seg.entries) = segs.flatMap fun seg => liveRows seg.entries
  retired : ∀ f ∈ r.2, f ∈ segs.map ShardSegment.file ∧ f ∉ r.1.map ShardSegment.file

section Resealed

variable {segs : List ShardSegment} {r : List ShardSegment × List Nat} {seg : ShardSegment}

theorem Resealed.backs (h : Resealed accepts s segs r s') (hseg : s.disk.Backs accepts seg)
    (hlt : seg.file < s.nextSegId) : s'.disk.Backs accepts seg :=
  hseg.of_eq h.upkeep.disk.tail_checkpoint (h.frame _ hlt)

theorem Resealed.not_mem_file (h : Resealed accepts s segs r s') (hseg : seg ∈ s.segments)
    (htrack : s.Tracked accepts) (hnew : seg.file ∉ segs.map ShardSegment.file) :
    seg.file ∉ r.1.map ShardSegment.file := by
  intro hin
  obtain ⟨seg', hseg', heq⟩ := mem_map.mp hin
  rcases h.earlier seg' hseg' with hold | hnewer
  · exact hnew (heq ▸ mem_map_of_mem hold)
  · exact absurd (htrack.fileBound seg hseg) (Nat.not_lt.mpr (heq ▸ hnewer))

theorem Resealed.keep (h : Resealed accepts s segs r s') (hseg : seg ∈ s.segments)
    (htrack : s.Tracked accepts) (hnew : seg.file ∉ segs.map ShardSegment.file)
    (hclean : seg.dirty = false) : Resealed accepts s (seg :: segs) (seg :: r.1, r.2) s' :=
  have hlt := htrack.fileBound seg hseg
  { h with
    earlier := forall_mem_cons.mpr
      ⟨.inl mem_cons_self, fun seg' hseg' => (h.earlier seg' hseg').imp (mem_cons_of_mem _) id⟩
    bound := forall_mem_cons.mpr ⟨hlt.trans_le h.upkeep.nextSegId, h.bound⟩
    backed := forall_mem_cons.mpr ⟨h.backs (htrack.backed seg hseg) hlt, h.backed⟩
    nodup := nodup_cons.mpr ⟨h.not_mem_file hseg htrack hnew, h.nodup⟩
    clean := forall_mem_cons.mpr ⟨hclean, h.clean⟩
    live := by rw [flatMap_cons, flatMap_cons, h.live]
    retired := fun f hf => by
      obtain ⟨hin, hout⟩ := h.retired f hf
      refine ⟨mem_cons_of_mem _ hin, ?_⟩
      rw [map_cons, mem_cons, not_or]
      exact ⟨fun e => hnew (e ▸ hin), hout⟩ }

theorem Resealed.drop (h : Resealed accepts s segs r s') (hseg : seg ∈ s.segments)
    (htrack : s.Tracked accepts) (hnew : seg.file ∉ segs.map ShardSegment.file)
    (hempty : liveRows seg.entries = []) :
    Resealed accepts s (seg :: segs) (r.1, seg.file :: r.2) s' :=
  { h with
    earlier := fun seg' hseg' => (h.earlier seg' hseg').imp (mem_cons_of_mem _) id
    live := by rw [flatMap_cons, hempty, h.live]; rfl
    retired := forall_mem_cons.mpr ⟨⟨mem_cons_self, h.not_mem_file hseg htrack hnew⟩,
      fun f hf => (h.retired f hf).imp_left (mem_cons_of_mem _)⟩ }

theorem Resealed.renew
    (h : Resealed accepts (s.writeSegment (entriesOf (liveRows seg.entries))) segs r s')
    (hseg : seg ∈ s.segments) (hsub : ∀ seg ∈ segs, seg ∈ s.segments)
    (htrack : s.Tracked accepts) (hnew : seg.file ∉ segs.map ShardSegment.file) :
    Resealed accepts s (seg :: segs)
      (⟨s.nextSegId, entriesOf (liveRows seg.entries)⟩ :: r.1, seg.file :: r.2) s' where
  tracked := h.tracked
  upkeep := (htrack.upkeep_writeSegment _).trans h.upkeep
  segments := h.segments
  memtable := h.memtable
  frame f hf :=
    (h.frame f (Nat.lt_succ_of_lt hf)).trans (AList.lookup_insert_ne (Nat.ne_of_lt hf))
  earlier := forall_mem_cons.mpr ⟨.inr (Nat.le_refl _),
    fun seg' hseg' => (h.earlier seg' hseg').imp (mem_cons_of_mem _) Nat.le_of_succ_le⟩
  bound := forall_mem_cons.mpr ⟨(Nat.lt_succ_self _).trans_le h.upkeep.nextSegId, h.bound⟩
  backed := forall_mem_cons.mpr ⟨h.backs (backs_writeSegment s _) (Nat.lt_succ_self _), h.backed⟩
  nodup := by
    rw [map_cons, nodup_cons]
    refine ⟨fun hin => ?_, h.nodup⟩
    obtain ⟨seg', hseg', heq⟩ := mem_map.mp hin
    rcases h.earlier seg' hseg' with hold | hnewer
    · exact absurd heq (Nat.ne_of_lt (htrack.fileBound seg' (hsub seg' hold)))
    · exact absurd hnewer (by rw [heq]; exact Nat.not_succ_le_self _)
  clean := forall_mem_cons.mpr ⟨dirty_entriesOf _ _, h.clean⟩
  live := by rw [flatMap_cons, flatMap_cons, h.live, liveRows_entriesOf]
  retired := by
    have hne : ∀ seg' ∈ s.segments, seg'.file ≠ s.nextSegId := fun seg' hseg' =>
      Nat.ne_of_lt (htrack.fileBound seg' hseg')
    simp only [map_cons, mem_cons, not_or, forall_eq_or_imp]
    refine ⟨⟨.inl trivial, hne seg hseg, h.not_mem_file hseg (htrack.writeSegment _) hnew⟩, ?_⟩
    intro f hf
    obtain ⟨hin, hout⟩ := h.retired f hf
    obtain ⟨seg', hseg', rfl⟩ := mem_map.mp hin
    exact ⟨.inr hin, hne seg' (hsub seg' hseg'), hout⟩

end Resealed

theorem resealSegments_ok {segs : List ShardSegment} (h : s.Tracked accepts)
    (hsub : ∀ seg ∈ segs, seg ∈ s.segments) (hnodup : (segs.map ShardSegment.file).Nodup) :
    Resealed accepts s segs (resealSegments segs s).1 (resealSegments segs s).2 := by
  induction segs generalizing s with
  | nil =>
    exact ⟨h, .refl s, rfl, rfl, fun _ _ => rfl, nofun, nofun, nofun, nodup_nil, nofun, rfl, nofun⟩
  | cons seg segs ih =>
    obtain ⟨hseg, hrest⟩ := forall_mem_cons.mp hsub
    obtain ⟨hnew, hnodup⟩ := nodup_cons.mp (map_cons ▸ hnodup)
    unfold resealSegments
    by_cases hd : seg.dirty = true
    · rw [if_pos hd]
      by_cases hempty : entriesOf (liveRows seg.entries) = []
      · rw [if_pos hempty]
        exact (ih h hrest hnodup).drop hseg h hnew (map_eq_nil_iff.mp hempty)
      · rw [if_neg hempty]
        exact (ih (h.writeSegment _) hrest hnodup).renew hseg hrest h hnew
    · rw [if_neg hd]
      exact (ih h hrest hnodup).keep hseg h hnew (by simpa using hd)

theorem reseal_ok (h : s.Tracked accepts) :
    s.resealTombstonedSegments.Tracked accepts ∧ s.Upkeep s.resealTombstonedSegments ∧
      ∀ seg ∈ s.resealTombstonedSegments.segments, seg.dirty = false := by
  have hr := resealSegments_ok h (fun _ hseg => hseg) h.filesNodup
  have ht := hr.tracked.withSegments hr.bound hr.nodup hr.backed
  obtain ⟨ht', hu'⟩ := cleanup ht _ fun f hf => (hr.retired f hf).2
  have hu : s.Upkeep { (resealSegments s.segments s).2 with
      segments := (resealSegments s.segments s).1.1 } := by
    refine { hr.upkeep with rows := ?_ }
    rw [rows, rows, hr.live, hr.memtable]
  refine ⟨ht', hu.trans hu', fun seg hseg => hr.clean seg ?_⟩
  unfold resealTombstonedSegments at hseg
  rwa [segments_cleanupSegmentFiles] at hseg

end Maintenance

end LocalShard

end ReverseRusty
