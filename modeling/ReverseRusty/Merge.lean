import ReverseRusty.SegmentCopy

/-!
# ReverseRusty.Merge

The compaction merges (`segment/merge.rs`).  `compactFrom` copies the live
rows of its sources and their postings, regrouping equal bodies when a
source has groups; `compactFromReanchored` plans each row again under the
current dictionary, behind a guard that never moves a row out of default
reads.
-/

namespace ReverseRusty

/-! ## the visibility guard -/

/-- Whether a row stored as `old` must keep its cover instead of taking the
class `plan`, because the move would change which reads return it. -/
def refusesVisibilityMove (old plan : CostClass) : Bool :=
  let hides := !old.isOptIn && plan.isOptIn
  let cToHot := old = .C && plan = .H
  hides || cToHot

/-- Whether a row stored as `old` is opt-in after a merge that planned its
body as `replanned`; `none` when the cover is carried forward. -/
def optInAfterReanchor (old : CostClass) (replanned : Option CostClass) : Bool :=
  match replanned with
  | some plan => if !refusesVisibilityMove old plan then plan.isOptIn else old.isOptIn
  | none => old.isOptIn

namespace Segment

def sealMerged (sources : List Segment) (dest : Segment) : Segment :=
  { dest.buildFilter with
    compilerSemanticsVersion :=
      (sources.map compilerSemanticsVersion).min?.getD currentCompilerSemanticsVersion }

/-! ## the mechanical merge -/

def copyOne (s : Segment × List (Option Nat)) (e : Entry) : Segment × List (Option Nat) :=
  if e.alive then
    (s.1.append ⟨e.row, e.cls, true, s.1.length⟩ e.row.hasPhrases, s.2 ++ [some s.1.length])
  else (s.1, s.2 ++ [none])

def copyLive (dest src : Segment) : Segment × List (Option Nat) :=
  src.entries.foldl copyOne (dest, [])

end Segment

def CandidateIndex.insertMoved (remap : List (Option Nat)) (key : UInt64) (dest : CandidateIndex)
    (old : Nat) : CandidateIndex :=
  match remap[old]?.join with
  | some new => dest.insertId key new
  | none => dest

def CandidateIndex.insertRemapped (dest src : CandidateIndex) (remap : List (Option Nat)) :
    CandidateIndex :=
  src.entries.foldl (fun dest e => e.2.ids.foldl (insertMoved remap e.1) dest) dest

def CandidateIndex.keysOf (idx : CandidateIndex) (id : Nat) : List UInt64 :=
  idx.entries.flatMap fun e => (e.2.ids.filter (· = id)).map fun _ => e.1

namespace Segment

/-- Copy a source's rows and postings. -/
def mergeRemapped (dest src : Segment) : Segment :=
  let (copied, remap) := dest.copyLive src
  { copied with
    main := copied.main.insertRemapped src.main remap
    broad := copied.broad.insertRemapped src.broad remap
    hot := copied.hot.insertRemapped src.hot remap }

/-! ## the merge that regroups -/

/-- The cover a row has in its segment: the keys of its leader, in the
lanes they are in, and its own class. -/
def coverOf (src : Segment) (e : Entry) : SigPlan where
  mainSigs := src.main.keysOf e.dupOf
  broadSigs := src.broad.keysOf e.dupOf
  hotSigs := src.hot.keysOf e.dupOf
  cls := e.cls
  wouldBeHot := false

/-- Copy a row: into the group of an earlier row with its body and on its
side of the opt-in boundary, or as a leader with the cover it had. -/
def regroup (src dest : Segment) (e : Entry) : Segment :=
  match dest.leaderFor e.cls e.row.body with
  | some l => dest.join l e.row ((dest.entries[l]?.map Entry.cls).getD e.cls) e.row.hasPhrases
  | none => dest.lead e.row (src.coverOf e) true e.row.hasPhrases

def liveEntries (seg : Segment) : List Entry := seg.entries.filter Entry.alive

def compactFromGrouped (sources : List Segment) : Segment :=
  sealMerged sources
    (sources.foldl (fun dest src => src.liveEntries.foldl (regroup src) dest) .new)

/-- **The mechanical merge**: live rows only, groups kept when a source has
any. -/
def compactFrom (sources : List Segment) : Segment :=
  if sources.any hasDupGroups then compactFromGrouped sources
  else sealMerged sources (sources.foldl mergeRemapped .new)

end Segment

/-! ## planning a stored row again -/

/-- The planner's input for a stored body: its masked features read back
from the mask, its tail, and its any-of groups. -/
def Body.anchoringInputs (b : Body) (d : Dict) : Extracted where
  required := ((List.range 64).filter b.reqMask.getLsbD).filterMap d.maskInverse ++ b.reqTail
  anyof := b.groups

/-- Counters of a re-anchoring merge. -/
structure ReanchorStats where
  reanchored : Nat := 0
  hotPromoted : Nat := 0
  hotDemoted : Nat := 0
deriving DecidableEq, Repr

/-- A re-anchoring merge under way: per merged row the class its body was
planned as, and the lane moves made so far. -/
structure Reanchoring where
  dest : Segment
  replanned : List (Option CostClass)
  moves : Nat
  stats : ReanchorStats

/-- The classes of the main index. -/
def CostClass.isMain (c : CostClass) : Bool := c = .A || c = .B

def promotesToHot (old new : CostClass) : Bool := old.isMain && new = .H

def demotesFromHot (old new : CostClass) : Bool := old = .H && new.isMain

def SigPlan.laneTagged (plan : SigPlan) : List (Nat ×ₗ UInt64) :=
  sorted (plan.mainSigs.map (fun k => toLex (0, k)) ++ plan.broadSigs.map (fun k => toLex (1, k))
    ++ plan.hotSigs.map fun k => toLex (2, k))

namespace Reanchoring

def new : Reanchoring := ⟨.new, [], 0, {}⟩

/-- The earlier leader a row may join: one with its body, where the row's
own class would land. -/
def leaderFor (s : Reanchoring) (e : Entry) : Option Nat :=
  (s.dest.bodyIndex.valuesOf e.row.body.signature).find? fun l =>
    s.dest.entries[l]?.any fun le =>
      le.cls.isOptIn == optInAfterReanchor e.cls s.replanned[l]?.join
        && le.row.body.bodiesEqual e.row.body

def countMove (stats : ReanchorStats) (old new : CostClass) : ReanchorStats :=
  if promotesToHot old new then { stats with hotPromoted := stats.hotPromoted + 1 }
  else if demotesFromHot old new then { stats with hotDemoted := stats.hotDemoted + 1 }
  else stats

/-- Join a leader under its class. -/
def adopt (s : Reanchoring) (e : Entry) (l : Nat) : Reanchoring :=
  let cls := (s.dest.entries[l]?.map Entry.cls).getD e.cls
  { s with
    dest := s.dest.join l e.row cls e.row.hasPhrases
    replanned := s.replanned ++ [none]
    stats := countMove s.stats e.cls cls }

/-- Whether a move between the main index and the hot one is made: within
the cap, and out of the hot one only once the anchors are rare enough. -/
def moveAllowed (s : Reanchoring) (old : CostClass) (plan : AnchorPlan) (d : Dict)
    (theta maxMoves : Nat) : Bool :=
  let worst := (plan.mainAnchors.flatten.map d.freq).max?.getD 0
  let demoteMarginOk := !demotesFromHot old plan.cls || theta = 0 || worst ≤ theta / 2
  let laneMove := promotesToHot old plan.cls || demotesFromHot old plan.cls
  !laneMove || (demoteMarginOk && s.moves < maxMoves)

/-- Lead a group, under the cover planned for the row unless the guard or
the move cap keeps the old one. -/
def replan (s : Reanchoring) (src : Segment) (e : Entry) (d : Dict) (theta maxMoves : Nat) :
    Reanchoring :=
  let prev := src.coverOf e
  let ex := e.row.body.anchoringInputs d
  let plan := anchorPlan ex d theta
  let keepOld :=
    refusesVisibilityMove e.cls plan.cls || !s.moveAllowed e.cls plan d theta maxMoves
  let cover := if keepOld then prev else buildSignatures ex d theta
  let stats := countMove s.stats e.cls cover.cls
  { dest := s.dest.lead e.row cover true e.row.hasPhrases
    replanned := s.replanned ++ [some plan.cls]
    moves :=
      if promotesToHot e.cls cover.cls || demotesFromHot e.cls cover.cls then s.moves + 1
      else s.moves
    stats :=
      if cover.laneTagged ≠ prev.laneTagged then { stats with reanchored := stats.reanchored + 1 }
      else stats }

def copyRow (d : Dict) (theta maxMoves : Nat) (src : Segment) (s : Reanchoring) (e : Entry) :
    Reanchoring :=
  match s.leaderFor e with
  | some l => s.adopt e l
  | none =>
    -- quoted rows are posted under labels the flat columns do not hold
    if e.row.hasPhrases then
      { s with
        dest := s.dest.lead e.row (src.coverOf e) true e.row.hasPhrases
        replanned := s.replanned ++ [none] }
    else s.replan src e d theta maxMoves

end Reanchoring

namespace Segment

/-- **The re-anchoring merge.** -/
def compactFromReanchored (sources : List Segment) (d : Dict) (theta maxMoves : Nat) :
    Segment × ReanchorStats :=
  let s := sources.foldl
    (fun s src => src.liveEntries.foldl (Reanchoring.copyRow d theta maxMoves src) s)
    Reanchoring.new
  (sealMerged sources s.dest, s.stats)

end Segment

end ReverseRusty
