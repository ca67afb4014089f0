import ReverseRusty.Plan

/-!
# ReverseRusty.Title

The title side of matching (`exact.rs`, `segment/seg/matching.rs`): the
feature views a title is matched through, its common-mask words, and the
signature keys it generates for each candidate index.

* `probe` is only for candidate retrieval: the positive features plus the
  labels of the positive phrase graph.
* `pos` decides required features and any-of groups, `neg` decides the
  forbidden ones; the graphs decide the quoted clauses.
-/

namespace ReverseRusty

open List

abbrev MaskWord := BitVec 64

def titleMask (d : Dict) (feats : List FeatureId) : MaskWord :=
  feats.foldl
    (fun m f => if d.maskBit f = noMaskBit then m else m ||| BitVec.twoPow 64 (d.maskBit f)) 0

variable {d : Dict}

theorem getLsbD_foldl_mask {b : Nat} (hb : b < 64) (feats : List FeatureId) (m : MaskWord) :
    (feats.foldl
      (fun m f => if d.maskBit f = noMaskBit then m else m ||| BitVec.twoPow 64 (d.maskBit f))
      m).getLsbD b = true ↔ m.getLsbD b = true ∨ ∃ f ∈ feats, d.maskBit f = b := by
  induction feats generalizing m with
  | nil => simp
  | cons f feats ih =>
    rw [foldl_cons, ih]
    by_cases hf : d.maskBit f = noMaskBit
    · have hne : d.maskBit f ≠ b := by
        rw [hf, noMaskBit]
        omega
      simp only [hf, if_true, mem_cons, exists_eq_or_imp]
      grind
    · rw [if_neg hf, BitVec.getLsbD_or, Bool.or_eq_true, BitVec.getLsbD_twoPow]
      simp only [mem_cons, exists_eq_or_imp, Bool.and_eq_true, decide_eq_true_eq]
      grind

theorem getLsbD_titleMask {feats : List FeatureId} {b : Nat} (hb : b < 64) :
    (titleMask d feats).getLsbD b = true ↔ ∃ f ∈ feats, d.maskBit f = b := by
  rw [titleMask, getLsbD_foldl_mask hb]
  simp

/-- A title as probing and verification read it. -/
structure TitleView where
  probe : List FeatureId
  posMask : MaskWord
  pos : List FeatureId
  negMask : MaskWord
  neg : List FeatureId
  posGraph : Option PositionGraph
  negGraph : Option PositionGraph
  /-- a phrase scratch cell is supplied and not borrowed -/
  phraseScratch : Bool
deriving Repr

namespace TitleView

def single (mask : MaskWord) (feats : List FeatureId) : TitleView :=
  ⟨feats, mask, feats, mask, feats, none, none, false⟩

/-- Separate positive and negative views. -/
def dual (posMask : MaskWord) (pos : List FeatureId) (negMask : MaskWord)
    (neg : List FeatureId) : TitleView :=
  ⟨pos, posMask, pos, negMask, neg, none, none, false⟩

/-- Separate views with their token graphs, for quoted clauses.  The
negative graph is always taken as complete. -/
def dualPositioned (probe : List FeatureId) (posMask : MaskWord) (pos : List FeatureId)
    (posGraph : PositionGraph) (negMask : MaskWord) (neg : List FeatureId)
    (negGraph : PositionGraph) : TitleView :=
  ⟨probe, posMask, pos, negMask, neg, some posGraph, some { negGraph with complete := true }, true⟩

/-- The probe view holds every positive feature and every label of the
positive graph. -/
structure ProbeCovers (v : TitleView) : Prop where
  pos : ∀ f ∈ v.pos, f ∈ v.probe
  labels : ∀ g, v.posGraph = some g → ∀ a ∈ g.arcs, a.feature ∈ v.probe

/-- A view built under dictionary `d`: its masks are those of its feature
lists and its probe view covers them. -/
structure WellFormed (d : Dict) (v : TitleView) : Prop extends ProbeCovers v where
  posMask : v.posMask = titleMask d v.pos
  negMask : v.negMask = titleMask d v.neg

end TitleView

/-! ## the keys a title probes -/

/-- The candidate indexes of a segment. -/
inductive ProbeLane where
  | main
  | broad
  | hot
deriving DecidableEq, Repr

def CostClass.lane : CostClass → ProbeLane
  | .A | .B => .main
  | .C | .D => .broad
  | .H => .hot

/-- A plan's signatures for one index. -/
def SigPlan.sigs (plan : SigPlan) : ProbeLane → List UInt64
  | .main => plan.mainSigs
  | .broad => plan.broadSigs
  | .hot => plan.hotSigs

namespace TitleView

def singleKeys (feats : List FeatureId) : List UInt64 := feats.map fun f => sigKey [f]

def pairKeys (d : Dict) (v : TitleView) : List UInt64 :=
  v.pos.flatMap fun h =>
    if d.isHot h then (v.pos.filter (· ≠ h)).map fun o => sigKey [min h o, max h o] else []

def keys (d : Dict) (v : TitleView) : ProbeLane → List UInt64
  | .main => singleKeys v.probe ++ v.pairKeys d
  | .hot => singleKeys v.pos
  | .broad => singleKeys v.pos ++ [universalSig]

theorem mem_singleKeys {feats : List FeatureId} {f : FeatureId} (h : f ∈ feats) :
    sigKey [f] ∈ singleKeys feats := by
  rw [singleKeys]
  exact mem_map_of_mem h

theorem mem_pairKeys {d : Dict} {v : TitleView} {h o : FeatureId} (hh : h ∈ v.pos)
    (ho : o ∈ v.pos) (hhot : d.isHot h = true) (hne : h ≠ o) :
    sigKey [min h o, max h o] ∈ v.pairKeys d := by
  rw [pairKeys, mem_flatMap]
  refine ⟨h, hh, ?_⟩
  rw [if_pos hhot]
  have hmem : o ∈ v.pos.filter (· ≠ h) := mem_filter.mpr ⟨ho, by simpa using hne.symm⟩
  exact mem_map_of_mem hmem

end TitleView

theorem ne_zero_of_mem_keys {v : TitleView} {lane : ProbeLane} {key : UInt64}
    (h : key ∈ v.keys d lane) : key ≠ 0 := by
  have hsingle : ∀ {feats : List FeatureId}, key ∈ TitleView.singleKeys feats → key ≠ 0 := by
    intro feats hkey
    obtain ⟨f, -, rfl⟩ := mem_map.mp hkey
    exact sigKey_ne_zero [f]
  cases lane with
  | main =>
    rcases mem_append.mp h with h | h
    · exact hsingle h
    · obtain ⟨f, -, hpair⟩ := mem_flatMap.mp h
      split at hpair
      · obtain ⟨o, -, rfl⟩ := mem_map.mp hpair
        exact sigKey_ne_zero _
      · contradiction
  | hot => exact hsingle h
  | broad =>
    rcases mem_append.mp h with h | h
    · exact hsingle h
    · rw [mem_singleton.mp h]
      exact sigKey_ne_zero []

end ReverseRusty
