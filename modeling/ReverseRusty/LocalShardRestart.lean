import ReverseRusty.LocalShardTracked

/-!
# ReverseRusty.LocalShardRestart

A restart of a durable shard (`LocalShard::open_durable_self`) from the disk a
crash left.

`ShardDisk.Restores d rows` says that a restart from `d` serves `rows`.  Every
durable step keeps it, for the rows before the operation or after it, except in
three cases: a bulk ingest names in the checkpoint file a segment that holds an
insert the log has too; a bulk ingest puts rows of a query under a delete or a
replace of it that the log will replay; and a write the engine rejects stays in
the log, where a restart fails on it.
-/

namespace ReverseRusty

open List

namespace ShardDisk

variable {accepts : ShardRow → Bool} {d d' : ShardDisk} {rows : List ShardRow}

def namedRows (d : ShardDisk) : List ShardRow :=
  d.sidecar.segmentFiles.flatMap fun f => liveRows ((d.files.lookup f).getD [])

/-- A restart from a disk serves some rows. -/
structure Restores (accepts : ShardRow → Bool) (d : ShardDisk) (rows : List ShardRow) :
    Prop where
  named : d.Named
  accepted : ∀ m ∈ d.tail d.sidecar.localCheckpoint, m.accepted accepts = true
  replay : (replayRows accepts d.namedRows (d.tail d.sidecar.localCheckpoint)).Perm rows

theorem Same.namedRows_eq (h : d.Same d') : d'.namedRows = d.namedRows := by
  rw [namedRows, namedRows, h.sidecar]
  exact flatMap_congr fun f hf => by rw [h.files f hf]

theorem Restores.of_same (h : d.Restores accepts rows) (hs : d.Same d') :
    d'.Restores accepts rows where
  named := hs.named h.named
  accepted := hs.tail_checkpoint ▸ h.accepted
  replay := by rw [hs.tail_checkpoint, hs.namedRows_eq]; exact h.replay

theorem Restores.perm {rows' : List ShardRow} (h : d.Restores accepts rows)
    (hp : rows.Perm rows') : d.Restores accepts rows' :=
  ⟨h.named, h.accepted, h.replay.trans hp⟩

/-- A logged write that the engine takes is replayed. -/
theorem Restores.append (h : d.Restores accepts rows) {position : Nat} {m : ClusterMutation}
    (hlt : ∀ r ∈ d.records, r.1 < position) (hcheckpoint : d.sidecar.localCheckpoint < position)
    (hm : m.accepted accepts = true) :
    (DiskStep.apply d (.append position m)).Restores accepts (applyMutation accepts rows m) := by
  have htail := LocalShard.tail_append (d := d) hcheckpoint m
  refine ⟨{ h.named with ascending := ?_ }, fun m' hm' => ?_, ?_⟩
  · refine pairwise_append.mpr ⟨h.named.ascending, pairwise_singleton _ _, ?_⟩
    intro r hr r' hr'
    rw [mem_singleton.mp hr']
    exact hlt r hr
  · have hm'' : m' ∈ d.tail d.sidecar.localCheckpoint ++ [m] := htail ▸ hm'
    rcases mem_append.mp hm'' with hm'' | hm''
    · exact h.accepted m' hm''
    · rwa [mem_singleton.mp hm'']
  · show (replayRows accepts d.namedRows
      ((DiskStep.apply d (.append position m)).tail d.sidecar.localCheckpoint)).Perm _
    rw [htail, replayRows_concat]
    exact applyMutation_perm h.replay m

theorem Restores.trim (h : d.Restores accepts rows) {upTo : Nat}
    (hle : upTo ≤ d.sidecar.localCheckpoint) :
    (DiskStep.apply d (.trim upTo)).Restores accepts rows := by
  have htail := LocalShard.tail_trim (d := d) hle
  refine ⟨{ h.named with ascending := h.named.ascending.sublist filter_sublist }, ?_, ?_⟩
  · intro m hm
    exact h.accepted m (htail ▸ hm)
  · show (replayRows accepts d.namedRows
      ((DiskStep.apply d (.trim upTo)).tail d.sidecar.localCheckpoint)).Perm _
    rw [htail]
    exact h.replay

theorem insertedRows_tail {p p' : Nat} (hle : p ≤ p')
    (h : ∀ r ∈ d.records, p < r.1 → ∀ row, r.2 = .add row → accepts row = true → p' < r.1)
    (q : UInt64) : insertedRows accepts q (d.tail p') = insertedRows accepts q (d.tail p) := by
  unfold tail
  generalize d.records = records at h
  induction records with
  | nil => rfl
  | cons r records ih =>
    have ih := ih fun r' hr' => h r' (mem_cons_of_mem _ hr')
    have hr := h r mem_cons_self
    by_cases hp' : p' < r.1
    · have hp : p < r.1 := Nat.lt_of_le_of_lt hle hp'
      simpa [insertedRows, filter_cons, hp, hp'] using ih
    · by_cases hp : p < r.1
      · have hnone : insertedRows accepts q [r.2] = [] := by
          cases hm : r.2 with
          | add row =>
            have ha : accepts row ≠ true := fun ha => hp' (hr hp row hm ha)
            simp [insertedRows, ha]
          | upsert row => rfl
          | remove logical => rfl
        rw [filter_cons_of_neg (by simpa using hp'),
          filter_cons_of_pos (by simpa using hp), map_cons, ih,
          ← singleton_append, insertedRows_append, hnone, nil_append]
      · simpa [insertedRows, filter_cons, hp, hp'] using ih

end ShardDisk

namespace LocalShard

variable {accepts : ShardRow → Bool} {s s' : LocalShard} {rows : List ShardRow}

/-! ## restarting -/

variable (accepts) in
def Worn (log : List ClusterMutation) (before after : List ShardSegment) : Prop :=
  List.Forall₂ (fun a b : ShardSegment => b.file = a.file ∧ Overlay a.entries b.entries ∧
    ∀ q, (∀ m ∈ log, m.resets accepts q = false) →
      ofLogical q (liveRows a.entries) = ofLogical q (liveRows b.entries)) before after

theorem worn_nil (segs : List ShardSegment) : Worn accepts [] segs segs :=
  forall₂_same.mpr fun _ _ => ⟨rfl, .refl _, fun _ _ => rfl⟩

variable {log : List ClusterMutation} {before : List ShardSegment}

theorem Worn.concat {after : List ShardSegment} (h : Worn accepts log before after)
    (m : ClusterMutation) :
    Worn accepts (log ++ [m]) before
      (after.map fun seg => { seg with entries := m.wear accepts seg.entries }) := by
  unfold Worn at *
  rw [forall₂_map_right_iff]
  refine h.imp fun a b hab => ⟨hab.1, hab.2.1.wear m, fun q hno => ?_⟩
  rw [ofLogical_liveRows_wear (hno m (mem_append_right _ (mem_singleton_self m)))]
  exact hab.2.2 q fun m' hm' => hno m' (mem_append_left _ hm')

theorem replayTail_eq {log₀ : List ClusterMutation} (ha : ∀ m ∈ log, m.accepted accepts = true)
    (hw : Worn accepts log₀ before s.segments) :
    ∃ segments memtable, replayTail accepts s log =
        some { s with segments := segments, memtable := memtable } ∧
      ({ s with segments := segments, memtable := memtable } : LocalShard).rows =
        replayRows accepts s.rows log ∧
      liveRows memtable = replayRows accepts (liveRows s.memtable) log ∧
      Worn accepts (log₀ ++ log) before segments := by
  induction log generalizing s log₀ with
  | nil => exact ⟨s.segments, s.memtable, rfl, rfl, rfl, by rwa [append_nil]⟩
  | cons m log ih =>
    obtain ⟨memtable₁, hsnd, hlive⟩ := @applyToEngine_snd accepts s m
    have hfst : (s.applyToEngine accepts m).1 = true :=
      (applyToEngine_fst s m).trans (ha m mem_cons_self)
    have hrows := @rows_applyToEngine accepts s m
    generalize hs₁ : (s.applyToEngine accepts m).2 = s₁ at hsnd hrows
    have hpair : s.applyToEngine accepts m = (true, s₁) := Prod.ext hfst hs₁
    subst hsnd
    obtain ⟨segments, memtable, hreplay, hrows', hlive', hworn⟩ :=
      ih (s := { s with
          segments := s.segments.map fun seg =>
            { seg with entries := m.wear accepts seg.entries }
          memtable := memtable₁ })
        (fun m' hm' => ha m' (mem_cons_of_mem _ hm')) (hw.concat m)
    refine ⟨segments, memtable, ?_, ?_, ?_, ?_⟩
    · rw [replayTail, hpair]
      exact hreplay
    · exact hrows'.trans (by rw [hrows]; rfl)
    · rw [hlive', hlive]
      rfl
    · rwa [append_assoc] at hworn

theorem attachFiles_eq {d : ShardDisk} {files : List Nat}
    (h : ∀ f ∈ files, ∃ es, d.files.lookup f = some es) :
    attachFiles d files = some (files.map fun f => ⟨f, (d.files.lookup f).getD []⟩) := by
  unfold attachFiles
  induction files with
  | nil => rfl
  | cons f files ih =>
    obtain ⟨es, hes⟩ := h f mem_cons_self
    rw [mapM_cons, hes, ih fun f' hf' => h f' (mem_cons_of_mem _ hf')]
    simp [hes]

theorem exists_of_forall₂ {α β : Type} {R : α → β → Prop} {as : List α} {bs : List β}
    (h : List.Forall₂ R as bs) {b : β} (hb : b ∈ bs) : ∃ a ∈ as, R a b := by
  induction h with
  | nil => cases hb
  | @cons a' b' as bs hab _ ih =>
    rcases mem_cons.mp hb with rfl | hb
    · exact ⟨a', mem_cons_self, hab⟩
    · obtain ⟨a, ha, hr⟩ := ih hb
      exact ⟨a, mem_cons_of_mem _ ha, hr⟩

/-- **A restart from a disk that restores some rows serves them**, and the
shard and its disk belong together. -/
theorem open_ok {d : ShardDisk} (h : d.Restores accepts rows) (owns : Bool) (ttl : Option Nat) :
    ∃ s, openDurableSelf accepts owns ttl d = some s ∧ s.Tracked accepts ∧ s.disk = d ∧
      s.rows.Perm rows := by
  have hattach := attachFiles_eq h.named.readable
  generalize hbefore : (d.sidecar.segmentFiles.map fun f =>
    (⟨f, (d.files.lookup f).getD []⟩ : ShardSegment)) = before at hattach
  obtain ⟨segments, memtable, hreplay, hrows, hlive, hworn⟩ :=
    replayTail_eq (s := attached owns ttl d before) h.accepted (worn_nil _)
  have hfiles : segments.map ShardSegment.file = d.sidecar.segmentFiles := by
    have hsame : before.map ShardSegment.file = segments.map ShardSegment.file :=
      forall₂_eq_eq_eq ▸ (forall₂_map_left_iff.mpr
        (forall₂_map_right_iff.mpr (hworn.imp fun _ _ hab => hab.1.symm)))
    rw [← hsame, ← hbefore, map_map]
    exact map_id _
  have hback : ∀ seg ∈ segments, d.Backs accepts seg := by
    intro seg hseg
    obtain ⟨seg₀, hseg₀, hfile, hover, hq⟩ := exists_of_forall₂ hworn hseg
    rw [← hbefore] at hseg₀
    obtain ⟨f, hf, rfl⟩ := mem_map.mp hseg₀
    obtain ⟨es, hes⟩ := h.named.readable f hf
    refine ⟨es, by rw [hfile]; exact hes, ?_, fun q hno => ?_⟩
    · simpa [hes] using hover
    · simpa [hes] using hq q hno
  refine ⟨{ attached owns ttl d before with segments := segments, memtable := memtable }, ?_,
    { named := h.named
      sidecarBound := Nat.le_refl _
      fileBound := fun seg hseg => h.named.numbered _ (hfiles ▸ mem_map_of_mem hseg)
      filesNodup := hfiles ▸ h.named.nodup
      backed := hback
      positions := fun r hr => Nat.lt_succ_of_le
        ((le_max_of_le (mem_map_of_mem hr) le_rfl).trans (Nat.le_max_left _ _))
      checkpointLe := Nat.le_refl _
      flushedLt := Nat.lt_succ_of_le (Nat.le_max_right _ _)
      memtable := hlive }, rfl, ?_⟩
  · unfold openDurableSelf
    rw [hattach]
    exact hreplay
  · have hnamed : (attached owns ttl d before).rows = d.namedRows := by
      simp [LocalShard.rows, attached, ShardDisk.namedRows, ← hbefore, flatMap_map]
    rw [hrows, hnamed]
    exact h.replay

/-! ## what each operation leaves on disk -/

theorem Tracked.restores_checkpointed (h : s.Tracked accepts) (hr : s.ReadyToSeal) :
    s.checkpointed.disk.Restores accepts s.rows := by
  have htail : s.checkpointed.disk.tail s.lastPos = [] := h.tail_lastPos
  have hnamed : s.checkpointed.disk.namedRows =
      s.segments.flatMap fun seg => liveRows seg.entries := by
    show (s.segments.map ShardSegment.file).flatMap _ = _
    rw [flatMap_map]
    refine flatMap_congr fun seg hseg => ?_
    show liveRows ((s.disk.files.lookup seg.file).getD []) = _
    rw [h.lookup_of_clean hseg (hr.clean seg hseg)]
    rfl
  have hmem : liveRows s.memtable = [] := by
    rw [h.memtable, hr.flushed, h.tail_lastPos]
    rfl
  refine ⟨(h.checkpointed hr).named, fun m hm => ?_, ?_⟩
  · have hm' : m ∈ s.checkpointed.disk.tail s.lastPos := hm
    rw [htail] at hm'
    cases hm'
  · show (replayRows accepts _ (s.checkpointed.disk.tail s.lastPos)).Perm _
    rw [htail, hnamed, rows, hmem, append_nil]
    exact .refl _

theorem Upkeep.restores (h : s.Upkeep s') (hr : s.disk.Restores accepts rows)
    (hpassed : ∀ d ∈ s.passed, d.Restores accepts rows) {d : ShardDisk}
    (hd : d ∈ s'.passed ++ [s'.disk]) : d.Restores accepts rows := by
  rcases mem_append.mp hd with hd | hd
  · rcases h.passed d hd with hd | hd
    · exact hpassed d hd
    · exact hr.of_same hd
  · rw [mem_singleton.mp hd]
    exact hr.of_same h.disk

theorem Tracked.restores_seal (h : s.Tracked accepts) (hr : s.disk.Restores accepts s.rows)
    (hpassed : s.passed = []) (merge : Option (Nat × Nat)) (now : Nat) {d : ShardDisk}
    (hd : d ∈ (s.sealForCheckpoint merge now).passed ++ [(s.sealForCheckpoint merge now).disk]) :
    d.Restores accepts s.rows := by
  obtain ⟨ht, hu, hready⟩ := ready_ok h merge
  obtain ⟨leases, heq, -⟩ := reapLeases_eq (s.flush merge).resealTombstonedSegments.checkpointed now
  obtain ⟨-, -, hu'⟩ := sealed_ok ht hready now
  have hcheckpointed := (ht.restores_checkpointed hready).perm (.of_eq hu.rows)
  rw [heq] at hu'
  rw [sealForCheckpoint_eq, heq] at hd
  refine hu'.restores (hcheckpointed.trim ?_) (fun d hd => ?_) hd
  · exact trimTarget_le { (s.flush merge).resealTombstonedSegments.checkpointed with leases := leases }
  · rcases mem_append.mp hd with hd | hd
    · exact hu.restores hr (by rw [hpassed]; nofun) hd
    · rw [mem_singleton.mp hd]
      exact hcheckpointed

/-- When the log since the checkpoint has no insert that was flushed and no
delete or replace of an ingested query, a bulk ingest restores its rows too. -/
structure IngestSettled (accepts : ShardRow → Bool) (s : LocalShard) (items : List ShardRow) :
    Prop where
  unflushed : ∀ r ∈ s.disk.records, s.disk.sidecar.localCheckpoint < r.1 →
    ∀ row, r.2 = .add row → accepts row = true → s.flushedTo < r.1
  unreset : ∀ item ∈ items, accepts item = true →
    ∀ m ∈ s.disk.tail s.disk.sidecar.localCheckpoint, m.resets accepts item.logical = false

variable {m : ClusterMutation}

theorem mem_tail_of_le {d : ShardDisk} {p p' : Nat} (hle : p ≤ p') (hm : m ∈ d.tail p') :
    m ∈ d.tail p := by
  obtain ⟨r, hr, rfl⟩ := mem_map.mp hm
  simp only [mem_filter, decide_eq_true_eq] at hr
  exact mem_map_of_mem (mem_filter.mpr ⟨hr.1, by simpa using by omega⟩)

variable {q : UInt64}

theorem Tracked.stored_of_unreset (h : s.Tracked accepts)
    (hno : ∀ m ∈ s.disk.tail s.disk.sidecar.localCheckpoint, m.resets accepts q = false) :
    (s.segments.flatMap fun seg =>
        ofLogical q (liveRows ((s.disk.files.lookup seg.file).getD []))) =
      s.segments.flatMap fun seg => ofLogical q (liveRows seg.entries) := by
  refine flatMap_congr fun seg hseg => ?_
  obtain ⟨stored, hlookup, -, hq⟩ := h.backed seg hseg
  rw [hlookup]
  exact hq q hno

theorem Tracked.memtable_of_unreset (h : s.Tracked accepts)
    (hno : ∀ m ∈ s.disk.tail s.disk.sidecar.localCheckpoint, m.resets accepts q = false) :
    ofLogical q (liveRows s.memtable) = insertedRows accepts q (s.disk.tail s.flushedTo) := by
  rw [h.memtable, ofLogical_replayRows fun m hm => hno m (mem_tail_of_le h.checkpointLe hm)]
  rfl

variable {items : List ShardRow}

/-- What the checkpoint file of a bulk ingest gives a query that no write since
the checkpoint resets. -/
theorem Tracked.replay_ingest_of_unreset (h : s.Tracked accepts)
    (hi : s.IngestSettled accepts items)
    (hno : ∀ m ∈ s.disk.tail s.disk.sidecar.localCheckpoint, m.resets accepts q = false) :
    (ofLogical q (replayRows accepts (s.ingest accepts items).disk.namedRows
      (s.disk.tail s.disk.sidecar.localCheckpoint))).Perm
        (ofLogical q (s.rows ++ items.filter accepts)) := by
  have hnamed : ofLogical q (s.ingest accepts items).disk.namedRows =
      (s.segments.flatMap fun seg => ofLogical q (liveRows seg.entries)) ++
        ofLogical q (items.filter accepts) := by
    have hstored := (h.pushSegment (entriesOf (items.filter accepts))).stored_of_unreset hno
    rw [ShardDisk.namedRows, ofLogical_flatMap]
    refine (flatMap_map _ _ _).trans (hstored.trans ?_)
    rw [flatMap_append, flatMap_singleton, liveRows_entriesOf]
  rw [ofLogical_replayRows hno, hnamed, ofLogical_append, rows, ofLogical_append,
    ofLogical_flatMap, h.memtable_of_unreset hno,
    ShardDisk.insertedRows_tail h.checkpointLe hi.unflushed, append_assoc, append_assoc]
  exact perm_append_comm.append_left _

theorem Tracked.restores_ingest (h : s.Tracked accepts) (hr : s.disk.Restores accepts s.rows)
    (hi : s.IngestSettled accepts items) :
    (s.ingest accepts items).disk.Restores accepts (s.rows ++ items.filter accepts) := by
  refine ⟨(h.ingest items).named, hr.accepted, perm_of_ofLogical fun q => ?_⟩
  by_cases hno : ∀ m ∈ s.disk.tail s.disk.sidecar.localCheckpoint, m.resets accepts q = false
  · exact h.replay_ingest_of_unreset hi hno
  · -- a reset of `q` hides the files, and no ingested row is of `q`
    have hreset : ∃ m ∈ s.disk.tail s.disk.sidecar.localCheckpoint, m.resets accepts q = true := by
      simpa using hno
    have hnone : ofLogical q (items.filter accepts) = [] := by
      refine filter_eq_nil_iff.mpr fun item hitem => ?_
      obtain ⟨hmem, ha⟩ := mem_filter.mp hitem
      simp only [decide_eq_true_eq]
      rintro rfl
      exact hno (hi.unreset item hmem ha)
    rw [ofLogical_append, hnone, append_nil]
    exact (List.Perm.of_eq (ofLogical_replayRows_of_resets hreset _ s.disk.namedRows)).trans
      (ofLogical_perm hr.replay q)

variable (accepts) in
/-- The operations that keep a restart faithful: writes the engine takes, and
settled bulk ingests. -/
def Allowed (s : LocalShard) : Op → Prop
  | .insert row => accepts row = true
  | .replace row mode => mode.admits s.rows row = true → accepts row = true
  | .ingest items => s.IngestSettled accepts items
  | _ => True

variable {op : Op}

theorem Allowed.fresh (h : s.Allowed accepts op) :
    ({ s with passed := [] } : LocalShard).Allowed accepts op := by
  cases op with
  | ingest items => exact ⟨h.unflushed, h.unreset⟩
  | _ => exact h

theorem passed_logAndApply (s : LocalShard) (m : ClusterMutation) :
    (s.logAndApply accepts m).passed = s.passed ++ [s.disk] := by
  obtain ⟨memtable, hsnd, -⟩ := @applyToEngine_snd accepts (s.appendLog m) m
  rw [LocalShard.logAndApply, hsnd]
  rfl

/-- A logged write the engine takes. -/
theorem Tracked.restores_logAndApply (h : s.Tracked accepts) (hr : s.disk.Restores accepts s.rows)
    (hm : m.accepted accepts = true) :
    (s.logAndApply accepts m).disk.Restores accepts (applyMutation accepts s.rows m) := by
  rw [disk_logAndApply]
  exact hr.append h.positions (Nat.lt_of_le_of_lt h.checkpointLe h.flushedLt) hm

/-- **Every disk an allowed operation passes restores the rows before it or the
rows after it**, and the last one the rows after it. -/
theorem Tracked.restores_effect (h : s.Tracked accepts) (hr : s.disk.Restores accepts s.rows)
    (hpassed : s.passed = []) (hop : s.Allowed accepts op) :
    (s.effect accepts op).disk.Restores accepts (op.contents accepts s.rows) ∧
      ∀ d ∈ (s.effect accepts op).passed, d.Restores accepts s.rows := by
  have hlogged (m : ClusterMutation) : ∀ d ∈ (s.logAndApply accepts m).passed,
      d.Restores accepts s.rows := by
    intro d hd
    rw [passed_logAndApply, hpassed, nil_append] at hd
    rwa [mem_singleton.mp hd]
  have hkept {s' : LocalShard} (hall : ∀ d ∈ s'.passed ++ [s'.disk], d.Restores accepts s.rows) :
      s'.disk.Restores accepts s.rows ∧ ∀ d ∈ s'.passed, d.Restores accepts s.rows :=
    ⟨hall _ (mem_append_right _ (mem_singleton_self _)),
      fun d hd => hall d (mem_append_left _ hd)⟩
  have hnone : ∀ d ∈ s.passed, d.Restores accepts s.rows := by
    rw [hpassed]
    nofun
  cases op with
  | insert row => exact ⟨h.restores_logAndApply hr hop, hlogged _⟩
  | replace row mode =>
    by_cases hm : mode.admits s.rows row = true
    · rw [LocalShard.effect, Op.contents, if_pos hm, if_pos hm]
      exact ⟨h.restores_logAndApply hr (hop hm), hlogged _⟩
    · rw [LocalShard.effect, Op.contents, if_neg hm, if_neg hm]
      exact ⟨hr, hnone⟩
  | delete logical => exact ⟨h.restores_logAndApply hr rfl, hlogged _⟩
  | ingest items =>
    refine ⟨h.restores_ingest hr hop, fun d hd => ?_⟩
    exact (h.upkeep_writeSegment _).restores hr hnone hd
  | flush merge => exact hkept fun d hd => (flush_ok h merge).2.restores hr hnone hd
  | sealForCheckpoint merge now => exact hkept fun d hd => h.restores_seal hr hpassed merge now hd
  | acquireLease | renewLease | releaseLease => exact ⟨hr, hnone⟩

/-! ## leases -/

/-- A step that leaves the log and the leases alone. -/
structure SameLog (s s' : LocalShard) : Prop where
  records : s'.disk.records = s.disk.records
  leases : s'.leases = s.leases
  leaseTtl : s'.leaseTtl = s.leaseTtl

theorem SameLog.refl (s : LocalShard) : s.SameLog s := ⟨rfl, rfl, rfl⟩

theorem SameLog.trans {s'' : LocalShard} (h : s.SameLog s') (h' : s'.SameLog s'') :
    s.SameLog s'' :=
  ⟨h'.records.trans h.records, h'.leases.trans h.leases, h'.leaseTtl.trans h.leaseTtl⟩

theorem SameLog.after {s₁ : LocalShard} (h : s₁.SameLog s')
    (hrecords : s₁.disk.records = s.disk.records) (hleases : s₁.leases = s.leases)
    (httl : s₁.leaseTtl = s.leaseTtl) : s.SameLog s' :=
  SameLog.trans ⟨hrecords, hleases, httl⟩ h

theorem sameLog_retireFiles (s : LocalShard) (files : List Nat) :
    s.SameLog (files.foldl LocalShard.retireFile s) := by
  induction files generalizing s with
  | nil => exact .refl s
  | cons f files ih =>
    have hone : s.SameLog (s.retireFile f) := by
      unfold LocalShard.retireFile
      split <;> exact ⟨rfl, rfl, rfl⟩
    exact hone.trans (ih _)

theorem sameLog_cleanupSegmentFiles (s : LocalShard) (files : List Nat) :
    s.SameLog (s.cleanupSegmentFiles files) := by
  unfold cleanupSegmentFiles
  split
  · exact sameLog_retireFiles s files
  · exact .refl s

theorem sameLog_flush (s : LocalShard) (merge : Option (Nat × Nat)) : s.SameLog (s.flush merge) := by
  have hmem : s.SameLog s.flushMemtable := by
    unfold flushMemtable
    split <;> exact ⟨rfl, rfl, rfl⟩
  unfold LocalShard.flush
  split
  · refine hmem.trans ?_
    unfold compactRange
    split
    · exact .refl _
    · exact (sameLog_cleanupSegmentFiles _ _).after rfl rfl rfl
  · exact hmem

theorem sameLog_resealSegments (segs : List ShardSegment) (s : LocalShard) :
    s.SameLog (resealSegments segs s).2 := by
  induction segs generalizing s with
  | nil => exact .refl s
  | cons seg segs ih =>
    unfold resealSegments
    dsimp only
    split
    · split
      · exact ih s
      · exact (ih (s.writeSegment _)).after rfl rfl rfl
    · exact ih s

theorem sameLog_resealTombstonedSegments (s : LocalShard) :
    s.SameLog s.resealTombstonedSegments :=
  (sameLog_resealSegments s.segments s).trans
    ((sameLog_cleanupSegmentFiles _ _).after rfl rfl rfl)

theorem sameLog_removeReplacedFiles (s : LocalShard) : s.SameLog s.removeReplacedFiles := by
  unfold removeReplacedFiles
  split
  · exact (sameLog_retireFiles _ _).after rfl rfl rfl
  · exact .refl s

theorem SameLog.reapLeases (h : s.SameLog s') (now : Nat) :
    (s'.reapLeases now).leases = (s.reapLeases now).leases := by
  unfold LocalShard.reapLeases
  rw [h.leaseTtl]
  cases s.leaseTtl with
  | none => exact h.leases
  | some ttl => exact congrArg (Lease.reapExpired · now ttl) h.leases

/-- **A seal keeps every record above a lease** that has not expired. -/
theorem mem_records_seal {merge : Option (Nat × Nat)} {now : Nat} {l : Lease}
    (hl : l ∈ (s.reapLeases now).leases) {r : Nat × ClusterMutation} (hr : r ∈ s.disk.records)
    (hlt : l.position < r.1) : r ∈ (s.sealForCheckpoint merge now).disk.records := by
  have hready := (sameLog_flush s merge).trans (sameLog_resealTombstonedSegments _)
  have hcheckpointed : s.SameLog (s.flush merge).resealTombstonedSegments.checkpointed :=
    hready.trans ⟨rfl, rfl, rfl⟩
  obtain ⟨leases, heq, -⟩ := reapLeases_eq (s.flush merge).resealTombstonedSegments.checkpointed now
  rw [← hcheckpointed.reapLeases now, heq] at hl
  rw [sealForCheckpoint_eq, heq, (sameLog_removeReplacedFiles _).records]
  refine mem_filter.mpr ⟨hcheckpointed.records ▸ hr, ?_⟩
  exact decide_eq_true (Nat.lt_of_le_of_lt (trimTarget_le_lease _ hl) hlt)

/-! ## runs -/

variable {rows' : List ShardRow}

theorem heldPlacement_perm {rows : List ShardRow} (h : rows.Perm rows') (q : UInt64)
    (placement : QueryPlacement) :
    heldPlacement rows q placement = heldPlacement rows' q placement := by
  have hq := ofLogical_perm h q
  have hnil : ofLogical q rows = [] ↔ ofLogical q rows' = [] :=
    ⟨fun e => (e ▸ hq).symm.eq_nil, fun e => (e ▸ hq).eq_nil⟩
  have hall : (ofLogical q rows).all (·.placement = placement) =
      (ofLogical q rows').all (·.placement = placement) := hq.all_eq
  simp only [heldPlacement, hnil, hall]

theorem Op.contents_perm {rows : List ShardRow} (h : rows.Perm rows') (op : Op) :
    (op.contents accepts rows).Perm (op.contents accepts rows') := by
  cases op with
  | insert row => exact applyMutation_perm h (.add row)
  | replace row mode =>
    have hadmits : mode.admits rows row = mode.admits rows' row := by
      rw [ReplaceMode.admits, ReplaceMode.admits, heldPlacement_perm h]
    rw [Op.contents, Op.contents, hadmits]
    split
    · exact applyMutation_perm h _
    · exact h
  | delete logical => exact @applyMutation_perm accepts _ _ h (.remove logical)
  | ingest items => exact h.append_right _
  | _ => exact h

variable (accepts) in
/-- The states of a shard, with the rows its writers were told it has: it is
created, carries operations out, and restarts from a disk a crash left. -/
inductive Run (allowed : LocalShard → Op → Prop) : LocalShard → List ShardRow → Prop
  | create (owns : Bool) (ttl : Option Nat) : Run allowed (LocalShard.create owns ttl) []
  | step {s : LocalShard} {rows : List ShardRow} (op : Op) :
      Run allowed s rows → allowed s op →
      Run allowed (s.perform accepts op) (op.contents accepts rows)
  | restart {s s' : LocalShard} {rows : List ShardRow} {d : ShardDisk} (op : Op) (owns : Bool)
      (ttl : Option Nat) : Run allowed s rows → allowed s op → d ∈ s.crashDisks accepts op →
      openDurableSelf accepts owns ttl d = some s' → Run allowed s' s'.rows

variable (accepts) in
def Restarts (d : ShardDisk) (before after : List ShardRow) : Prop :=
  ∀ owns ttl, ∃ rows ∈ (openDurableSelf accepts owns ttl d).map LocalShard.rows,
    rows.Perm before ∨ rows.Perm after

theorem tracked_create (owns : Bool) (ttl : Option Nat) : (create owns ttl).Tracked accepts where
  named := ⟨nofun, nodup_nil, nofun, .nil⟩
  sidecarBound := Nat.le_refl _
  fileBound := nofun
  filesNodup := nodup_nil
  backed := nofun
  positions := nofun
  checkpointLe := Nat.le_refl _
  flushedLt := Nat.zero_lt_one
  memtable := rfl

theorem Tracked.restores_crashDisks (h : s.Tracked accepts) (hr : s.disk.Restores accepts s.rows)
    (hop : s.Allowed accepts op) {d : ShardDisk} (hd : d ∈ s.crashDisks accepts op) :
    d.Restores accepts s.rows ∨ d.Restores accepts (op.contents accepts s.rows) := by
  obtain ⟨hlast, hpassed⟩ :=
    Tracked.restores_effect (s := { s with passed := [] }) { h with } hr rfl hop.fresh
  rcases mem_append.mp hd with hd | hd
  · exact .inl (hpassed d hd)
  · exact .inr (mem_singleton.mp hd ▸ hlast)

theorem Run.restores (h : Run accepts (Allowed accepts) s rows) :
    s.Tracked accepts ∧ s.disk.Restores accepts s.rows ∧ s.rows.Perm rows := by
  induction h with
  | create owns ttl =>
    have ht := @tracked_create accepts owns ttl
    exact ⟨ht, ⟨ht.named, nofun, .refl _⟩, .refl _⟩
  | @step s rows op _ hop ih =>
    obtain ⟨ht, hr, hp⟩ := ih
    have hrows := rows_perform ht op
    have hlast :=
      (Tracked.restores_effect (s := { s with passed := [] }) { ht with } hr rfl hop.fresh).1
    exact ⟨ht.perform op, hlast.perm hrows.symm, hrows.trans (op.contents_perm hp)⟩
  | @restart s s' rows d op owns ttl _ hop hd hopen ih =>
    obtain ⟨ht, hr, -⟩ := ih
    obtain ⟨rows', hd'⟩ : ∃ rows', d.Restores accepts rows' :=
      (ht.restores_crashDisks hr hop hd).elim (⟨_, ·⟩) (⟨_, ·⟩)
    obtain ⟨s₁, hopen₁, ht₁, hdisk, hp⟩ := open_ok hd' owns ttl
    obtain rfl : s₁ = s' := Option.some.inj (hopen₁.symm.trans hopen)
    exact ⟨ht₁, hdisk ▸ hd'.perm hp.symm, .refl _⟩

/-- **A durable shard restarts to its acknowledged rows**: after any run of
allowed operations, crashes and restarts, a restart from any disk a crash can
leave serves the acknowledged rows, or those with the operation in progress.
No seal trims a record above a lease that is held. -/
theorem Run.restarts (h : Run accepts (Allowed accepts) s rows) {op : Op}
    (hop : s.Allowed accepts op) :
    (∀ d ∈ s.crashDisks accepts op, Restarts accepts d rows (op.contents accepts rows)) ∧
      ∀ (t : LocalShard) (merge : Option (Nat × Nat)) (now : Nat),
        ∀ l ∈ (t.reapLeases now).leases, ∀ r ∈ t.disk.records, l.position < r.1 →
          r ∈ (t.sealForCheckpoint merge now).disk.records := by
  refine ⟨fun d hd owns ttl => ?_, fun t merge now l hl r hr => mem_records_seal hl hr⟩
  obtain ⟨ht, hr, hp⟩ := h.restores
  rcases ht.restores_crashDisks hr hop hd with h | h
  · obtain ⟨s', hopen, -, -, hp'⟩ := open_ok h owns ttl
    exact ⟨s'.rows, by rw [hopen]; rfl, .inl (hp'.trans hp)⟩
  · obtain ⟨s', hopen, -, -, hp'⟩ := open_ok h owns ttl
    exact ⟨s'.rows, by rw [hopen]; rfl, .inr (hp'.trans (op.contents_perm hp))⟩

/-! ## where restarts diverge -/

/-- A fresh shard after some operations. -/
def performAll (accepts : ShardRow → Bool) (ops : List Op) : LocalShard :=
  ops.foldl (LocalShard.perform accepts) (create true none)

def contentsAfter (accepts : ShardRow → Bool) (ops : List Op) : List ShardRow :=
  ops.foldl (fun rows op => op.contents accepts rows) []

theorem run_performAll (accepts : ShardRow → Bool) (ops : List Op) :
    Run accepts (fun _ _ => True) (performAll accepts ops) (contentsAfter accepts ops) := by
  have hfold (s : LocalShard) (rows : List ShardRow) (h : Run accepts (fun _ _ => True) s rows) :
      Run accepts (fun _ _ => True) (ops.foldl (LocalShard.perform accepts) s)
        (ops.foldl (fun rows op => op.contents accepts rows) rows) := by
    induction ops generalizing s rows with
    | nil => exact h
    | cons op ops ih => exact ih _ _ (h.step op trivial)
  exact hfold _ _ (.create true none)

variable (accepts) in
/-- Some operations, and one more during which a crash leaves a disk that does
not restart to the acknowledged rows. -/
def Diverges (ops : List Op) (op : Op) : Prop :=
  Run accepts (fun _ _ => True) (performAll accepts ops) (contentsAfter accepts ops) ∧
    ∃ d ∈ (performAll accepts ops).crashDisks accepts op,
      ¬ Restarts accepts d (contentsAfter accepts ops)
        (op.contents accepts (contentsAfter accepts ops))

def sampleRow (logical : UInt64) : ShardRow := ⟨logical, 1, "", [], .standalone⟩

/-- **Three runs after which a crash does not bring back the acknowledged
rows.**  An insert that was flushed before a bulk ingest comes back twice: the
checkpoint file of the ingest names its segment, and the log has it too.  A
row that was ingested after a delete of its query is lost: the restart replays
the delete over it.  An insert that the engine rejected stays in the log, and
the restart fails on it. -/
theorem restart_diverges :
    Diverges (fun _ => true) [.insert (sampleRow 1), .flush none] (.ingest [sampleRow 2]) ∧
    Diverges (fun _ => true) [.delete 1, .ingest [sampleRow 1]] (.flush none) ∧
    Diverges (fun _ => false) [.insert (sampleRow 1)] (.flush none) := by
  refine ⟨?_, ?_, ?_⟩
  all_goals
    refine ⟨run_performAll _ _, _, mem_append_right _ (mem_singleton_self _), fun h => ?_⟩
    exact absurd (h true none) (by decide +kernel)

/-- A bulk ingest over a sealed row and a row that is only in the log. -/
theorem sealed_ingest_restarts :
    let s := performAll (fun _ => true)
      [.insert (sampleRow 1), .sealForCheckpoint none 0, .insert (sampleRow 3)]
    s.disk.records.map Prod.snd = [.add (sampleRow 3)] ∧
    ∀ d ∈ s.crashDisks (fun _ => true) (.ingest [sampleRow 2]),
      Restarts (fun _ => true) d [sampleRow 1, sampleRow 3]
        [sampleRow 1, sampleRow 3, sampleRow 2] := by
  intro s
  have hrun : Run (fun _ => true) (Allowed fun _ => true) s [sampleRow 1, sampleRow 3] :=
    (((Run.create true none).step (.insert (sampleRow 1)) rfl).step
      (.sealForCheckpoint none 0) trivial).step (.insert (sampleRow 3)) rfl
  have hflushed : ∀ r ∈ s.disk.records, s.flushedTo < r.1 := by decide +kernel
  have hadds : ∀ m ∈ s.disk.tail s.disk.sidecar.localCheckpoint,
      m.resets (fun _ => true) 2 = false := by decide +kernel
  refine ⟨by decide +kernel, (@Run.restarts _ _ _ hrun (.ingest [sampleRow 2]) ⟨?_, ?_⟩).1⟩
  · exact fun r hr _ _ _ _ => hflushed r hr
  · intro item hitem _
    rw [mem_singleton.mp hitem]
    exact hadds

end LocalShard

end ReverseRusty
