import ReverseRusty.MatchView
import ReverseRusty.PureAnchor

/-!
# ReverseRusty.BatchChunk

A chunk of titles against a snapshot (`segment/broad_batch/driver/chunk.rs`):
the selective lanes title by title, then the broad and the hot lane once for
the whole chunk, source by source.  Both passes work on scratch buffers that
are reused from chunk to chunk.

`matchBatchChunk_alike` frees the chunk from its scratch, and
`exists_matchBatchChunk` says that it answers.
-/

namespace ReverseRusty

open List

/-! ## reaching each row once -/

theorem reach_eq {epoch : UInt32} {ids : List Nat} {seen : List UInt32}
    (h : ∀ i ∈ ids, i < seen.length) :
    reach epoch ids seen = .ok ((visitAll epoch (fun i => [i]) ⟨seen, []⟩ ids).stamps,
      (ids.filter fun i => seen[i]? ≠ some epoch).eraseDups) := by
  have hrun : ∀ out, ∃ fresh, reach epoch ids seen =
      .ok ((visitAll epoch (fun i => [i]) ⟨seen, out⟩ ids).stamps, fresh) ∧
      (visitAll epoch (fun i => [i]) ⟨seen, out⟩ ids).out = out ++ fresh := by
    induction ids generalizing seen with
    | nil => exact fun out => ⟨[], rfl, by simp⟩
    | cons i ids ih =>
      intro out
      have hi : i < seen.length := h i mem_cons_self
      have hids : ∀ j ∈ ids, j < seen.length := fun j hj => h j (mem_cons_of_mem i hj)
      have hget : seen[i]? = some seen[i] := getElem?_eq_getElem hi
      rw [visitAll, foldl_cons, ← visitAll, visitOne]
      by_cases hstamp : seen[i] = epoch
      · obtain ⟨fresh, hreach, hout⟩ := ih hids out
        rw [if_pos (by rw [hget, hstamp])]
        exact ⟨fresh, by simp only [reach, hget, hstamp, if_true, hreach], hout⟩
      · obtain ⟨fresh, hreach, hout⟩ := @ih (seen.set i epoch) (by simpa using hids) (out ++ [i])
        rw [if_neg (by rw [hget]; simpa using hstamp)]
        refine ⟨i :: fresh, ?_, by simpa using hout⟩
        simp only [reach, hget, hstamp, if_false, hreach]
        rfl
  obtain ⟨fresh, hreach, hout⟩ := hrun []
  rw [visitAll_out_eq h, nil_append, nil_append, flatMap_singleton'] at hout
  rw [hreach, hout]

/-! ## the kernel and its stamps -/

namespace BroadBackend

section Kernel

variable {w : Nat} (B : BroadBackend w) (lane : Lane) (b : TitleBatch w) (opts : KernelOptions)
  (pred : TagPredicate) (policy : Nat → QueryPlacement → Bool) (epoch : UInt32)

/-- Reach the rows posted under a key that are not among the rows reached
before. -/
def probeOnce (s : List Nat × LaneState) (key : UInt64 × Option (FeatureId × BitVec w)) :
    Checked (List Nat × LaneState) := do
  let ids ← B.posting lane key.1
  let fresh := (ids.filter (· ∉ s.1)).eraseDups
  let s' ← fresh.foldlM (B.candidate lane b opts pred policy key.2) s.2
  return (s.1 ++ fresh, s')

/-- One lane of one segment without stamps: every reached row is evaluated
once. -/
def laneHits : Checked (List (Nat × UInt64)) := do
  let s ← (batchKeys lane b).foldlM (B.probeOnce lane b opts pred policy) ([], ⟨[], [], []⟩)
  let verified ← s.2.nonPure.mapM (B.evaluate b pred policy)
  return s.2.out ++ verified.flatten

/-- Two states with the same queue and the same emissions. -/
def SameWork (s t : LaneState) : Prop := s.nonPure = t.nonPure ∧ s.out = t.out

variable {B lane b opts pred policy epoch}

theorem candidate_alike {anchor : Option (FeatureId × BitVec w)} {s t : LaneState} {i : Nat}
    (h : SameWork s t) :
    Alike (fun s' t' => SameWork s' t' ∧ s'.seen = s.seen)
      (B.candidate lane b opts pred policy anchor s i)
      (B.candidate lane b opts pred policy anchor t i) := by
  have hqueued : ∀ possible : Bool, Alike (fun s' t' => SameWork s' t' ∧ s'.seen = s.seen)
      (.ok (if possible then { s with nonPure := s.nonPure ++ [i] } else s) : Checked LaneState)
      (.ok (if possible then { t with nonPure := t.nonPure ++ [i] } else t)) := by
    intro possible
    cases possible with
    | true => exact .ok ⟨⟨by simp [h.1], h.2⟩, rfl⟩
    | false => exact .ok ⟨h, rfl⟩
  have hqueue : Alike (fun s' t' => SameWork s' t' ∧ s'.seen = s.seen)
      (B.enqueue b opts s i) (B.enqueue b opts t i) := by
    unfold enqueue
    cases opts.prefilter with
    | true => exact .bind_left _ hqueued
    | false => exact hqueued true
  have haccept : ∀ (accepted : Bool) (bits : BitVec w),
      Alike (fun s' t' => SameWork s' t' ∧ s'.seen = s.seen)
        (if accepted then do
          let emitted ← B.emitFromBits pred policy bits i
          return { s with out := s.out ++ emitted }
        else B.enqueue b opts s i)
        (if accepted then do
          let emitted ← B.emitFromBits pred policy bits i
          return { t with out := t.out ++ emitted }
        else B.enqueue b opts t i) := by
    intro accepted bits
    cases accepted with
    | true => exact .bind_left _ fun emitted => .ok ⟨⟨h.1, by simp [h.2]⟩, rfl⟩
    | false => exact hqueue
  refine .bind_left _ fun live => ?_
  cases live with
  | false => exact .ok ⟨h, rfl⟩
  | true =>
    cases anchor with
    | none => exact hqueue
    | some row =>
      cases opts.materialize with
      | true => exact .bind_left (B.vacuousAccept lane i row.1) fun accepted =>
          haccept accepted row.2
      | false => exact haccept false row.2

variable {ids : List Nat} {s : LaneState}

theorem candidates_alike {anchor : Option (FeatureId × BitVec w)} {t : LaneState} (h : SameWork s t) :
    Alike (fun s' t' => SameWork s' t' ∧ s'.seen = s.seen)
      (ids.foldlM (B.candidate lane b opts pred policy anchor) s)
      (ids.foldlM (B.candidate lane b opts pred policy anchor) t) := by
  refine Alike.foldlM (fun i _ s' t' h' => ?_) ⟨h, rfl⟩
  have hstep := @candidate_alike w B lane b opts pred policy anchor s' t' i h'.1
  rw [h'.2] at hstep
  exact hstep

/-- A lane under way with stamps and without: the same work, and the slots
stamped with the epoch are those of the rows reached so far. -/
structure Reached (n : Nat) (epoch : UInt32) (seen : List UInt32) (s : LaneState)
    (t : List Nat × LaneState) : Prop where
  same : SameWork s t.2
  length : s.seen.length = seen.length
  stamped : ∀ i < n, s.seen[i]? = some epoch ↔ i ∈ t.1
  written : ∀ x ∈ s.seen, x ∈ seen ∨ x = epoch

theorem probeKey_alike {n : Nat} {seen : List UInt32} (hn : n ≤ seen.length)
    {key : UInt64 × Option (FeatureId × BitVec w)} (hposting : B.posting lane key.1 = .ok ids)
    (hids : ∀ i ∈ ids, i < n) {t : List Nat × LaneState} (h : Reached n epoch seen s t) :
    Alike (Reached n epoch seen) (B.probeKey lane b opts pred policy epoch s key)
      (B.probeOnce lane b opts pred policy t key) := by
  have hin : ∀ i ∈ ids, i < s.seen.length := fun i hi => by
    rw [h.length]
    exact lt_of_lt_of_le (hids i hi) hn
  have hfresh : ids.filter (fun i => s.seen[i]? ≠ some epoch) = ids.filter (· ∉ t.1) :=
    filter_congr fun i hi => by rw [decide_eq_decide, Ne, h.stamped i (hids i hi)]
  have hreach := @reach_eq epoch ids s.seen hin
  obtain ⟨seen', fresh, hspec, hlen, -, hstamped⟩ := @reach_spec epoch ids s.seen hin
  rw [hspec, hfresh] at hreach
  obtain ⟨hseen, rfl⟩ := Prod.mk.inj (Except.ok.inj hreach)
  rw [probeKey, probeOnce, hposting, ok_bind, ok_bind, hspec]
  have hwork : SameWork { s with seen := seen' } t.2 := h.same
  refine (candidates_alike hwork).ok_right fun s' t' hs' => ⟨hs'.1, ?_, ?_, ?_⟩
  · rw [hs'.2]
    exact hlen.trans h.length
  · intro i hi
    rw [hs'.2, hstamped, h.stamped i hi, mem_append, mem_eraseDups, mem_filter]
    simp only [decide_eq_true_eq]
    tauto
  · intro x hx
    rw [hs'.2, hseen] at hx
    rcases (stamps_visitAll _ ids).2 x hx with hx | rfl
    · exact h.written x hx
    · exact .inr rfl

/-- **With fresh stamps a lane evaluates every reached row once.** -/
theorem evalLane_alike {V : RowView} (hB : B.Reads V) {seen : List UInt32}
    (hseen : V.size ≤ seen.length) (hfresh : epoch ∉ seen) :
    Alike (fun r out => r.2 = out ∧ r.1.length = seen.length ∧ ∀ x ∈ r.1, x ∈ seen ∨ x = epoch)
      (B.evalLane lane b opts pred policy epoch seen) (B.laneHits lane b opts pred policy) := by
  have hstart : Reached V.size epoch seen ⟨seen, [], []⟩ ([], ⟨[], [], []⟩) := {
    same := ⟨rfl, rfl⟩
    length := rfl
    stamped := fun i _ => iff_of_false (fun hi => hfresh (mem_of_getElem? hi)) not_mem_nil
    written := fun x hx => .inl hx }
  have hrun : Alike (Reached V.size epoch seen)
      ((batchKeys lane b).foldlM (B.probeKey lane b opts pred policy epoch) ⟨seen, [], []⟩)
      ((batchKeys lane b).foldlM (B.probeOnce lane b opts pred policy) ([], ⟨[], [], []⟩)) := by
    refine Alike.foldlM (fun key hkey s t h => ?_) hstart
    have hne := ne_zero_of_mem_batchKeys hkey
    exact probeKey_alike hseen (hB.posting lane key.1 hne) (hB.posted lane key.1 hne) h
  refine hrun.bind fun s t h => ?_
  rw [h.same.1, h.same.2]
  exact .bind_left _ fun verified => .ok ⟨rfl, h.length, h.written⟩

end Kernel

end BroadBackend

/-! ## a chunk of titles -/

/-- How the broad and the hot lane are evaluated. -/
inductive BroadStrategy where
  | inline
  | columnar
deriving DecidableEq, Repr

structure BatchMatchOptions where
  includeBroad : Bool
  broadBatchSize : Nat
  broadStrategy : BroadStrategy
  broadMaterialize : Bool
  broadPrefilter : Bool
deriving DecidableEq, Repr

def BatchMatchOptions.kernel (opts : BatchMatchOptions) : KernelOptions :=
  ⟨opts.broadMaterialize, opts.broadPrefilter⟩

/-- The stamps of the selective lanes and of the columnar ones. -/
structure BatchScratch where
  ms : Stamps
  bs : Stamps

def BatchScratch.new : BatchScratch := ⟨.new, .new⟩

namespace MatchView

variable (mv : MatchView) (files : Nat → List UInt8) (opts : BatchMatchOptions)
  (policy : Nat → QueryPlacement → Bool)

/-- The columnar kernel knows one view of a title only. -/
def forceInline : Bool := mv.hasMultiwordAliases || mv.hasPhrasePredicates

def columnar : Bool :=
  opts.includeBroad && !mv.forceInline && opts.broadStrategy = .columnar

def inlineBroad : Bool :=
  opts.includeBroad && (opts.broadStrategy = .inline || mv.forceInline && !mv.columnar opts)

def hotPresent : Bool := mv.segments.any BaseSegment.hasHotEntries || mv.memtable.hasHotEntries

def hotColumnar : Bool :=
  mv.hotPresent && !mv.forceInline && opts.broadStrategy = .columnar

def hotInline : Bool := mv.hotPresent && !mv.hotColumnar opts

def titleLanes : ProbeLanes := ⟨mv.inlineBroad opts, mv.hotInline opts⟩

/-- The lanes of a source evaluated once for the chunk. -/
def columnarLanes (b : BaseSegment) : List Lane :=
  (if mv.columnar opts then [.broad] else [])
    ++ if mv.hotColumnar opts && b.hasHotEntries then [.hot] else []

/-- The evaluations made once for the chunk. -/
def columnarWork : List ((BaseSegment × Nat) × Lane) :=
  mv.sources.flatMap fun source => (mv.columnarLanes opts source.1).map fun lane => (source, lane)

def matchOfChunk (r : Stamps × List (Nat × UInt64)) (title : NormalizedTitle × Nat) :
    Stamps × List (Nat × UInt64) :=
  let scanned := mv.scan (mv.titleView title.1) (mv.titleLanes opts) (policy title.2) r.1.nextEpoch
  (scanned.1, r.2 ++ scanned.2.map fun hit => (title.2, hit.logical))

/-- Evaluate one lane of one source for the whole chunk, on an epoch of its
own. -/
def evalBaseLane {w : Nat} (batch : TitleBatch w) (r : Stamps × List (Nat × UInt64))
    (work : (BaseSegment × Nat) × Lane) : Checked (Stamps × List (Nat × UInt64)) := do
  let s := r.1.nextEpoch
  let (seen, out) ← (work.1.1.backend (files work.1.2)).evalLane work.2 batch opts.kernel mv.pred
    policy s.epoch (s.buf work.1.2)
  return (s.put work.1.2 seen, r.2 ++ out)

/-- **Match a chunk of titles**: the emissions, each with the place of its
title. -/
def matchBatchChunk (titles : List NormalizedTitle) (s : BatchScratch) :
    Checked (BatchScratch × List (Nat × UInt64)) :=
  if titles.isEmpty then .ok (s, [])
  else do
    let selective := titles.zipIdx.foldl (mv.matchOfChunk opts policy) (s.ms.ensure mv.lens, [])
    let batch := TitleBatch.ofTitles mv.dict (titles.map NormalizedTitle.feats)
    let columnar ← (mv.columnarWork opts).foldlM (mv.evalBaseLane files opts policy batch)
      (s.bs.ensure mv.lens, selective.2)
    return (⟨selective.1, columnar.1⟩, columnar.2)

/-- The emissions of a chunk without stamps. -/
def chunkHits (titles : List NormalizedTitle) : Checked (List (Nat × UInt64)) :=
  if titles.isEmpty then .ok []
  else do
    let selective := titles.zipIdx.flatMap fun title =>
      (mv.scanHits (mv.titleView title.1) (mv.titleLanes opts) (policy title.2)).map fun hit =>
        (title.2, hit.logical)
    let batch := TitleBatch.ofTitles mv.dict (titles.map NormalizedTitle.feats)
    (mv.columnarWork opts).foldlM (fun out work => do
      let more ← (work.1.1.backend (files work.1.2)).laneHits work.2 batch opts.kernel mv.pred policy
      return out ++ more) selective

end MatchView

/-! ## a chunk on reused buffers -/

/-- The sources of a view were built under its dictionary, its mapped ones
read the files they name, and it knows of every live quoted row. -/
structure MatchView.Sound (mv : MatchView) (files : Nat → List UInt8) : Prop extends mv.Built where
  backs : ∀ (i : Nat) (b : BaseSegment), mv.segments[i]? = some b → b.Backs (files i)
  quoted : mv.hasPhrasePredicates = false →
    (∀ b ∈ mv.segments, b.hasPhrasePredicates = false) ∧ mv.memtable.hasPhrasePredicates = false

namespace MatchView

section Chunk

variable {mv : MatchView} {files : Nat → List UInt8} {opts : BatchMatchOptions}
  {policy : Nat → QueryPlacement → Bool}

variable {source : BaseSegment × Nat}

theorem Sound.source_backs (h : mv.Sound files) (hs : source ∈ mv.sources) :
    source.1.Backs (files source.2) := by
  rw [sources, mem_append, mem_singleton] at hs
  rcases hs with hs | rfl
  · exact h.backs _ _ (mem_zipIdx_iff_getElem?.mp (mem_of_mem_filter hs))
  · trivial

theorem Sound.source_plain (h : mv.Sound files) (hplain : mv.hasPhrasePredicates = false)
    (hs : source ∈ mv.sources) : source.1.hasPhrasePredicates = false := by
  rw [sources, mem_append, mem_singleton] at hs
  rcases hs with hs | rfl
  · have hget := mem_zipIdx_iff_getElem?.mp (mem_of_mem_filter hs)
    exact (h.quoted hplain).1 _ (mem_of_getElem? hget)
  · exact (h.quoted hplain).2

variable {work : (BaseSegment × Nat) × Lane}

theorem mem_columnarWork (h : work ∈ mv.columnarWork opts) :
    work.1 ∈ mv.sources ∧ mv.forceInline = false := by
  obtain ⟨source, hs, hwork⟩ := mem_flatMap.mp h
  obtain ⟨lane, hlane, rfl⟩ := mem_map.mp hwork
  refine ⟨hs, ?_⟩
  rw [columnarLanes, mem_append] at hlane
  cases hforce : mv.forceInline with
  | false => rfl
  | true => simp [columnar, hotColumnar, hforce] at hlane

theorem matchOfChunk_eq (hmv : mv.Built) {titles : List (NormalizedTitle × Nat)}
    {r : Stamps × List (Nat × UInt64)} (hr : r.1.Bounded) (hfits : r.1.Fits mv.lens) :
    (titles.foldl (mv.matchOfChunk opts policy) r).2 = r.2 ++ (titles.flatMap fun title =>
        (mv.scanHits (mv.titleView title.1) (mv.titleLanes opts) (policy title.2)).map fun hit =>
          (title.2, hit.logical)) ∧
      (titles.foldl (mv.matchOfChunk opts policy) r).1.Bounded := by
  induction titles generalizing r with
  | nil => exact ⟨by simp, hr⟩
  | cons title titles ih =>
    obtain ⟨hout, hbounded, hfits⟩ := @scan_eq mv (mv.titleView title.1) (mv.titleLanes opts)
      (policy title.2) hmv r.1 hr hfits
    obtain ⟨hrun, hkeep⟩ := @ih (mv.matchOfChunk opts policy r title) hbounded hfits
    refine ⟨?_, hkeep⟩
    rw [foldl_cons, hrun, matchOfChunk, hout, flatMap_cons, append_assoc]

/-- A columnar pass under way has emitted `out`. -/
def Emitted (mv : MatchView) (r : Stamps × List (Nat × UInt64)) (out : List (Nat × UInt64)) : Prop :=
  r.2 = out ∧ r.1.Bounded ∧ r.1.Fits mv.lens

theorem evalBaseLane_alike (hmv : mv.Sound files) {w : Nat} (batch : TitleBatch w)
    (hwork : work.1 ∈ mv.sources) {r : Stamps × List (Nat × UInt64)} {out : List (Nat × UInt64)}
    (hr : mv.Emitted r out) :
    Alike mv.Emitted
      (mv.evalBaseLane files opts policy batch r work) (do
        let more ← (work.1.1.backend (files work.1.2)).laneHits work.2 batch opts.kernel mv.pred
          policy
        return out ++ more) := by
  obtain ⟨rfl, hbounded, hfits⟩ := hr
  obtain ⟨hb, hlen⟩ := hmv.source hwork
  have hbuf := (hfits.nextEpoch _ _ hlen).2
  have hfresh : r.1.nextEpoch.epoch ∉ r.1.nextEpoch.buf work.1.2 := by
    intro hmem
    obtain ⟨buf, hbuf, hmem⟩ := Stamps.mem_buf hmem
    exact hbounded.nextEpoch.2 buf hbuf hmem
  have hreads := hb.reads_backend (hmv.source_backs hwork) (w := w)
  have hsize : work.1.1.rowView.size ≤ (r.1.nextEpoch.buf work.1.2).length := by
    rw [BaseSegment.size_rowView]
    exact hbuf
  refine (BroadBackend.evalLane_alike hreads hsize hfresh).bind fun run more hrun => .ok ?_
  obtain ⟨hmore, hlength, hstamps⟩ := hrun
  exact ⟨congrArg (r.2 ++ ·) hmore, hbounded.nextEpoch.1.put hstamps,
    hfits.nextEpoch.put hlength.ge⟩

/-- **A chunk does not depend on what its scratch was used for.** -/
theorem matchBatchChunk_alike (hmv : mv.Sound files) (titles : List NormalizedTitle)
    {s : BatchScratch} (hms : s.ms.Bounded) (hbs : s.bs.Bounded) :
    Alike (fun r out => r.2 = out ∧ r.1.ms.Bounded ∧ r.1.bs.Bounded)
      (mv.matchBatchChunk files opts policy titles s) (mv.chunkHits files opts policy titles) := by
  rw [matchBatchChunk, chunkHits]
  cases titles with
  | nil => exact .ok ⟨rfl, hms, hbs⟩
  | cons title titles =>
    obtain ⟨hout, hbounded⟩ := @matchOfChunk_eq mv opts policy hmv.toBuilt
      (title :: titles).zipIdx (s.ms.ensure mv.lens, []) (hms.ensure mv.lens)
      (Stamps.fits_ensure _ _)
    have hstart : mv.Emitted (s.bs.ensure mv.lens, _) _ :=
      ⟨hout, hbs.ensure mv.lens, Stamps.fits_ensure s.bs mv.lens⟩
    exact (Alike.foldlM (fun work hwork r out hr =>
      evalBaseLane_alike hmv _ (mem_columnarWork hwork).1 hr) hstart).ok_left fun r out hr =>
        ⟨hr.1, hbounded, hr.2.1⟩

def LaneEmits (mv : MatchView) (policy : Nat → QueryPlacement → Bool)
    (titles : List (List FeatureId)) (V : RowView) (lane : Lane) (x : Nat × UInt64) : Prop :=
  ∃ feats, titles[x.1]? = some feats ∧
    ∃ key ∈ BroadBackend.batchKeys lane (.ofTitles mv.dict titles),
    ∃ i ∈ V.postings lane key.1, ∃ m ∈ V.group i, V.alive m = true ∧
      (V.row m).verify (.single (titleMask mv.dict feats) feats) mv.pred = true ∧
      policy x.1 (V.row m).placement = true ∧ x.2 = (V.row m).logical

/-- **A columnar lane answers.** -/
theorem Sound.exists_laneHits (hmv : mv.Sound files) (hplain : mv.hasPhrasePredicates = false)
    {source : BaseSegment × Nat} (hs : source ∈ mv.sources) {titles : List (List FeatureId)}
    (hsorted : ∀ feats ∈ titles, feats.Pairwise (· ≤ ·)) (lane : Lane) (kopts : KernelOptions) :
    ∃ out, (source.1.backend (files source.2)).laneHits lane (.ofTitles mv.dict titles) kopts
        mv.pred policy = .ok out ∧
      ∀ x, x ∈ out ↔ mv.LaneEmits policy titles source.1.rowView lane x := by
  have hb := (hmv.source hs).1
  have hreads := hb.reads_backend (hmv.source_backs hs) (w := titles.length)
  have hview := hb.plain_rowView (hmv.source_plain hplain hs)
  have hsize : source.1.rowView.size ≤ (List.replicate source.1.rowView.size (0 : UInt32)).length := by
    rw [length_replicate]
  obtain ⟨eval, out, hrun, heval, hmem⟩ := hreads.exists_of_plain hview lane
    (.ofTitles mv.dict titles) kopts mv.pred policy 1 hsize
  have hlane := @BroadBackend.evalLane_alike _ _ lane (.ofTitles mv.dict titles) kopts mv.pred
    policy 1 _ hreads _ hsize (BaseSegment.one_notMem_replicate _)
  rw [BroadBackend.evalOneSegment, bind_eq_ok] at hrun
  obtain ⟨r, hr, hout⟩ := hrun
  cases hout
  rw [hr] at hlane
  obtain ⟨out, hout, rfl, -⟩ := hlane.exists_right
  refine ⟨r.2, hout, fun x => ?_⟩
  have hshort := hb.shortcuts hsorted (.refl _) hview (hmv.source_backs hs) lane kopts heval
  have hfresh : ∀ i < source.1.rowView.size,
      (List.replicate source.1.rowView.size (0 : UInt32))[i]? ≠ some 1 := fun i _ hi =>
    BaseSegment.one_notMem_replicate _ (mem_of_getElem? hi)
  have hbit : ∀ key, key ≠ 0 → ∀ i ∈ source.1.rowView.postings lane key,
      ∀ m ∈ source.1.rowView.group i, source.1.rowView.alive m = true → ∀ feats,
        titles[x.1]? = some feats → (eval i).getLsbD x.1 =
          (source.1.rowView.row m).body.verify (.single (titleMask mv.dict feats) feats) := by
    intro key hkey i hi m hm halive feats ht
    have hlt := hreads.posted lane key hkey i hi
    have hlive : source.1.rowView.live i = true := any_eq_true.mpr ⟨m, hm, halive⟩
    rw [hb.verify_group hm, getLsbD_of_evalBatch hsorted (hview.checked i hlt hlive)
      (hview.fits i hlt hlive) (hview.quoted i hlt hlive) (heval i hlt hlive) ht]
  rw [hmem hshort hfresh]
  constructor
  · rintro ⟨key, hkey, i, hi, m, hm, halive, htags, ht, hbits, hpolicy, hlogical⟩
    have hget := getElem?_eq_getElem ht
    have hne := ne_zero_of_mem_batchKeys hkey
    refine ⟨_, hget, key, hkey, i, hi, m, hm, halive, ?_, hpolicy, hlogical⟩
    rw [Row.verify_eq, ← hbit key.1 hne i hi m hm halive _ hget, hbits, htags]
    rfl
  · rintro ⟨feats, ht, key, hkey, i, hi, m, hm, halive, hverify, hpolicy, hlogical⟩
    have hne := ne_zero_of_mem_batchKeys hkey
    rw [Row.verify_eq, Bool.and_eq_true, ← hbit key.1 hne i hi m hm halive _ ht] at hverify
    exact ⟨key, hkey, i, hi, m, hm, halive, hverify.2, (List.getElem?_eq_some_iff.mp ht).1,
      hverify.1, hpolicy, hlogical⟩

theorem Sound.exists_columnar (hmv : mv.Sound files) {titles : List (List FeatureId)}
    (hsorted : ∀ feats ∈ titles, feats.Pairwise (· ≤ ·)) (selective : List (Nat × UInt64)) :
    ∃ out, (mv.columnarWork opts).foldlM (fun out work => do
        let more ← (work.1.1.backend (files work.1.2)).laneHits work.2 (.ofTitles mv.dict titles)
          opts.kernel mv.pred policy
        return out ++ more) selective = .ok out ∧
      ∀ x, x ∈ out ↔ x ∈ selective ∨ ∃ work ∈ mv.columnarWork opts,
        mv.LaneEmits policy titles work.1.1.rowView work.2 x := by
  let Done (done : List ((BaseSegment × Nat) × Lane)) (out : List (Nat × UInt64)) : Prop :=
    ∀ x, x ∈ out ↔ x ∈ selective ∨ ∃ work ∈ done,
      mv.LaneEmits policy titles work.1.1.rowView work.2 x
  have hstart : Done [] selective := fun x => by simp
  refine exists_foldlM (P := Done) (fun done work out hwork hdone => ?_) [] selective hstart
  obtain ⟨hs, hforce⟩ := mem_columnarWork hwork
  rw [forceInline, Bool.or_eq_false_iff] at hforce
  obtain ⟨more, hmore, hmem⟩ := @Sound.exists_laneHits mv files policy hmv hforce.2 work.1 hs titles
    hsorted work.2 opts.kernel
  refine ⟨out ++ more, by rw [hmore, ok_bind]; rfl, fun x => ?_⟩
  simp [hdone x, hmem x, or_and_right, exists_or, or_assoc]

/-- **A chunk answers**, whatever its titles and options. -/
theorem Sound.exists_chunkHits (hmv : mv.Sound files) (titles : List NormalizedTitle) :
    ∃ out, mv.chunkHits files opts policy titles = .ok out ∧
      ∀ x : Nat × UInt64, x ∈ out ↔
        (∃ title, titles[x.1]? = some title ∧ ∃ hit ∈ mv.scanHits (mv.titleView title)
          (mv.titleLanes opts) (policy x.1), hit.logical = x.2) ∨
        ∃ work ∈ mv.columnarWork opts, mv.LaneEmits policy (titles.map NormalizedTitle.feats)
          work.1.1.rowView work.2 x := by
  rw [chunkHits]
  cases titles with
  | nil => exact ⟨[], rfl, fun x => by simp [LaneEmits]⟩
  | cons title titles =>
    have hsorted : ∀ feats ∈ (title :: titles).map NormalizedTitle.feats,
        feats.Pairwise (· ≤ ·) := by
      intro feats hfeats
      obtain ⟨title, -, rfl⟩ := mem_map.mp hfeats
      exact title.sorted.imp UInt32.le_of_lt
    obtain ⟨out, hout, hmem⟩ := @Sound.exists_columnar mv files opts policy hmv _ hsorted _
    refine ⟨out, hout, fun x => (hmem x).trans (or_congr_left ?_)⟩
    simp only [mem_flatMap, mem_map, Prod.exists, mem_zipIdx_iff_getElem?,
      Prod.ext_iff]
    grind

end Chunk

end MatchView

end ReverseRusty
