import ReverseRusty.BatchChunk

/-!
# ReverseRusty.ScratchReuse

One scratch through a history of matches (`segment/snapshot/view.rs`,
`segment/broad_batch/driver.rs`): titles and chunks against snapshots of any
sizes, some of them given up half way, as often as the epoch wraps.

`reused_scratch_exact` is the result: whatever came before, a match answers
as with a new scratch.
-/

namespace ReverseRusty

/-- What a run that was given up may leave behind: grown buffers, or the
stamps of an epoch that some candidates were marked with. -/
inductive Stamps.Abandoned (s : Stamps) : Stamps → Prop
  | ensured (lens : List Nat) : Abandoned s (s.ensure lens)
  | marked {s' : Stamps} (epoch : s'.epoch = s.nextEpoch.epoch)
      (written : ∀ buf ∈ s'.bufs, ∀ t ∈ buf, (∃ old ∈ s.nextEpoch.bufs, t ∈ old) ∨ t = s'.epoch) :
      Abandoned s s'

theorem Stamps.Abandoned.bounded {s s' : Stamps} (h : s.Abandoned s') (hs : s.Bounded) :
    s'.Bounded := by
  cases h with
  | ensured lens => exact hs.ensure lens
  | marked hepoch hwritten =>
    intro buf hbuf t ht
    rcases hwritten buf hbuf t ht with ⟨old, hold, ht⟩ | rfl
    · rw [hepoch]
      exact hs.nextEpoch.1 old hold t ht
    · exact UInt32.le_refl _

/-- The scratches a history of matches can produce. -/
inductive BatchScratch.Used : BatchScratch → Prop
  | new : Used .new
  | title {s : BatchScratch} (h : Used s) {mv : MatchView} (hmv : mv.Built) (t : NormalizedTitle)
      (includeBroad : Bool) (emission : QueryPlacement → Bool) :
      Used { s with ms := (mv.matchTitleCollect t includeBroad emission s.ms).1 }
  | chunk {s s' : BatchScratch} (h : Used s) {mv : MatchView} {files : Nat → List UInt8}
      (hmv : mv.Sound files) {opts : BatchMatchOptions} {policy : Nat → QueryPlacement → Bool}
      {titles : List NormalizedTitle} {out : List (Nat × UInt64)}
      (hrun : mv.matchBatchChunk files opts policy titles s = .ok (s', out)) : Used s'
  | abandonedTitle {s : BatchScratch} (h : Used s) {ms : Stamps} (hms : s.ms.Abandoned ms) :
      Used { s with ms }
  | abandonedLane {s : BatchScratch} (h : Used s) {bs : Stamps} (hbs : s.bs.Abandoned bs) :
      Used { s with bs }

variable {s : BatchScratch}

theorem BatchScratch.Used.bounded (h : s.Used) : s.ms.Bounded ∧ s.bs.Bounded := by
  induction h with
  | new => exact ⟨Stamps.bounded_new, Stamps.bounded_new⟩
  | title _ hmv t includeBroad emission ih =>
    exact ⟨(MatchView.matchTitleCollect_eq hmv t includeBroad ih.1).2, ih.2⟩
  | @chunk s s' _ mv files hmv opts policy titles out hrun ih =>
    have halike := @MatchView.matchBatchChunk_alike mv files opts policy hmv titles s ih.1 ih.2
    rw [hrun] at halike
    obtain ⟨_, -, -, hbounded⟩ := halike.exists_right
    exact hbounded
  | abandonedTitle _ hms ih => exact ⟨hms.bounded ih.1, ih.2⟩
  | abandonedLane _ hbs ih => exact ⟨ih.1, hbs.bounded ih.2⟩

theorem MatchView.Sound.exists_matchBatchChunk {mv : MatchView} {files : Nat → List UInt8}
    (hmv : mv.Sound files) {opts : BatchMatchOptions} {policy : Nat → QueryPlacement → Bool}
    {titles : List NormalizedTitle} {out : List (Nat × UInt64)}
    (hout : mv.chunkHits files opts policy titles = .ok out) (hms : s.ms.Bounded)
    (hbs : s.bs.Bounded) : ∃ s', mv.matchBatchChunk files opts policy titles s = .ok (s', out) := by
  have halike := @MatchView.matchBatchChunk_alike mv files opts policy hmv titles s hms hbs
  rw [hout] at halike
  obtain ⟨r, hr, rfl, -⟩ := halike.exists_left
  exact ⟨r.1, hr⟩

/-- **A reused scratch changes no answer.**  After any history, a title has
the hits it has with a new scratch, no row twice: those of the distinct
candidates of each source, each evaluated once; and a chunk of titles has
the emissions it has with a new scratch, those of a run without stamps. -/
theorem reused_scratch_exact (s : BatchScratch) (hs : s.Used) :
    (∀ mv : MatchView, mv.Built → ∀ (t : NormalizedTitle) (includeBroad : Bool)
      (emission : QueryPlacement → Bool),
      (mv.matchTitleCollect t includeBroad emission s.ms).2 =
          (mv.matchTitleCollect t includeBroad emission .new).2 ∧
        (mv.matchTitleCollect t includeBroad emission s.ms).2 =
          mv.scanHits (mv.titleView t) ⟨includeBroad, true⟩ emission ∧
        (mv.matchTitleCollect t includeBroad emission s.ms).2.Nodup) ∧
    (∀ (mv : MatchView) (files : Nat → List UInt8), mv.Sound files →
      ∀ (opts : BatchMatchOptions) (policy : Nat → QueryPlacement → Bool)
        (titles : List NormalizedTitle),
      ∃ s₁ s₂ out, mv.matchBatchChunk files opts policy titles s = .ok (s₁, out) ∧
        mv.matchBatchChunk files opts policy titles .new = .ok (s₂, out) ∧
        mv.chunkHits files opts policy titles = .ok out) := by
  obtain ⟨hms, hbs⟩ := hs.bounded
  refine ⟨fun mv hmv t includeBroad emission => ?_, fun mv files hmv opts policy titles => ?_⟩
  · have hreused := (@MatchView.matchTitleCollect_eq mv emission hmv t includeBroad _ hms).1
    have hnew := (@MatchView.matchTitleCollect_eq mv emission hmv t includeBroad _
      Stamps.bounded_new).1
    refine ⟨hreused.trans hnew.symm, hreused, ?_⟩
    rw [hreused]
    exact MatchView.nodup_scanHits hmv
  · obtain ⟨out, hout, -⟩ := @MatchView.Sound.exists_chunkHits mv files opts policy hmv titles
    obtain ⟨s₁, hs₁⟩ := hmv.exists_matchBatchChunk hout hms hbs
    obtain ⟨s₂, hs₂⟩ := hmv.exists_matchBatchChunk hout (s := .new) Stamps.bounded_new
      Stamps.bounded_new
    exact ⟨s₁, s₂, out, hs₁, hs₂, hout⟩

/-- The title `charm`. -/
def charmTitle : NormalizedTitle where
  feats := [0]
  featsPos := [0]
  probeFeats := []
  phraseArcs := []
  phraseArcsPos := []
  phrasePositions := 0
  posGraphComplete := true
  sorted := List.pairwise_singleton _ _
  sortedPos := List.pairwise_singleton _ _

def maskedWordView : MatchView where
  dict := hotZeroDict
  segments := []
  memtable := maskedWordSegment
  hasMultiwordAliases := false
  hasPhrasePredicates := false
  tagSegmentSkipping := true
  pred := .empty

theorem maskedWordView_built : maskedWordView.Built :=
  ⟨fun _ hb => absurd hb List.not_mem_nil, maskedWordSegment_produced⟩

theorem reused_scratch_exact_twice :
    (maskedWordView.matchTitleCollect charmTitle true (fun _ => true)
      (maskedWordView.matchTitleCollect charmTitle true (fun _ => true) .new).1).2.map Hit.localId =
        [0] := by
  have hused : BatchScratch.Used
      { BatchScratch.new with
        ms := (maskedWordView.matchTitleCollect charmTitle true (fun _ => true) .new).1 } :=
    .title .new maskedWordView_built charmTitle true fun _ => true
  have hsame := ((reused_scratch_exact _ hused).1 maskedWordView maskedWordView_built charmTitle true
    fun _ => true).1
  refine (congrArg (List.map Hit.localId) hsame).trans ?_
  decide +kernel

end ReverseRusty
