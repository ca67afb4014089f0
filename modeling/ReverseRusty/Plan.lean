import ReverseRusty.Extracted

/-!
# ReverseRusty.Plan

The signature-cover optimizer and cost classifier (`compile/plan.rs`).
`anchorPlan` chooses the anchor feature groups of a query and its cost
class by a cascade over its positive clauses; `buildSignatures` hashes the
groups.  Forbidden clauses are never read.

`anchorPlan_planCase` says once what the cascade can return; every later
result about plans goes through it.
-/

namespace ReverseRusty

open List

structure AnchorPlan where
  mainAnchors : List (List FeatureId)
  broadAnchors : List (List FeatureId)
  hotAnchors : List (List FeatureId)
  cls : CostClass
  wouldBeHot : Bool
deriving DecidableEq, Repr

/-- Signature keys per index, and the cost class. -/
structure SigPlan where
  mainSigs : List UInt64
  broadSigs : List UInt64
  hotSigs : List UInt64
  cls : CostClass
  wouldBeHot : Bool
deriving DecidableEq, Repr

def defaultHotAnchorTheta : Nat := 1024

/-- All labels of a quoted graph: what a satisfying title must share. -/
def phraseProxy (g : PhraseGraph) : List FeatureId :=
  sortDedup (g.arcs.flatMap PhraseArc.alternatives)

/-- Frequency of a group's most frequent member. -/
def worstFreq (d : Dict) (group : List FeatureId) : Nat :=
  (group.map d.freq).max?.getD u32Max

/-- One arity-1 anchor per member. -/
def singletons (group : List FeatureId) : List (List FeatureId) := group.map fun f => [f]

/-- Cover by the labels of the most selective required phrase. -/
def phraseProxyPlan (ex : Extracted) (d : Dict) : Option AnchorPlan :=
  (((ex.requiredPhrases.map phraseProxy).filter (· ≠ [])).argmin (worstFreq d)).map fun best =>
    { mainAnchors := singletons best, broadAnchors := [], hotAnchors := []
      cls := .B, wouldBeHot := false }

def anyofCover (ex : Extracted) (d : Dict) (theta : Nat) : Option AnchorPlan :=
  ((ex.anyof.filter (fun group => !group.any d.isHot)).argmin (worstFreq d)).map fun best =>
    let worst := (best.map d.freq).max?.getD 0
    if theta ≠ 0 ∧ theta ≤ worst then
      { mainAnchors := [], broadAnchors := [], hotAnchors := singletons best
        cls := .H, wouldBeHot := false }
    else
      { mainAnchors := singletons best, broadAnchors := [], hotAnchors := []
        cls := .B, wouldBeHot := theta = 0 ∧ defaultHotAnchorTheta ≤ worst }

/-- Whether the plan anchors on a required phrase's labels instead of an
ordinary flat feature. -/
def usesRequiredPhraseProxy (ex : Extracted) (d : Dict) : Bool :=
  ex.requiredPhrases ≠ [] &&
    match ex.required with
    | [] => true
    | [r] => d.isHot r
    | _ => false

/-- The cover of an empty positive set: the universal signature. -/
def universalPlan : AnchorPlan :=
  { mainAnchors := [], broadAnchors := [[]], hotAnchors := [], cls := .D, wouldBeHot := false }

def rarestFirst (d : Dict) (required : List FeatureId) : List FeatureId :=
  required.insertionSort fun f g => d.freq f ≤ d.freq g

/-- **The planner.**  Choose the anchor groups and the cost class. -/
def anchorPlan (ex : Extracted) (d : Dict) (theta : Nat) : AnchorPlan :=
  if ex.required = [] ∧ ex.anyof = [] ∧ ex.requiredPhrases = [] then universalPlan
  else if ex.required = [] ∧ ex.requiredPhrases ≠ [] then
    (phraseProxyPlan ex d).getD universalPlan
  else
    match rarestFirst d ex.required with
    | [] =>
      match anyofCover ex d theta with
      | some plan => plan
      | none =>
        match ex.anyof.argmin (worstFreq d) with
        | some best =>
          { mainAnchors := [], broadAnchors := singletons best, hotAnchors := []
            cls := .C, wouldBeHot := false }
        | none => universalPlan
    | r1 :: rest =>
      if d.isHot r1 then
        match rest with
        | r2 :: _ =>
          { mainAnchors := [[min r1 r2, max r1 r2]], broadAnchors := [], hotAnchors := []
            cls := .B, wouldBeHot := false }
        | [] =>
          match phraseProxyPlan ex d with
          | some plan => plan
          | none =>
            match anyofCover ex d theta with
            | some plan => plan
            | none =>
              { mainAnchors := [], broadAnchors := [[r1]], hotAnchors := []
                cls := .C, wouldBeHot := false }
      else if theta ≠ 0 ∧ theta ≤ d.freq r1 then
        { mainAnchors := [], broadAnchors := [], hotAnchors := [[r1]]
          cls := .H, wouldBeHot := false }
      else
        { mainAnchors := [[r1]], broadAnchors := [], hotAnchors := []
          cls := .A, wouldBeHot := theta = 0 ∧ defaultHotAnchorTheta ≤ d.freq r1 }

def buildSignatures (ex : Extracted) (d : Dict) (theta : Nat) : SigPlan :=
  let plan := anchorPlan ex d theta
  { mainSigs := plan.mainAnchors.map sigKey
    broadSigs := plan.broadAnchors.map sigKey
    hotSigs := plan.hotAnchors.map sigKey
    cls := plan.cls
    wouldBeHot := plan.wouldBeHot }

/-- Keep a query default reads already return on an always-probed lane:
a class-C plan moves its signatures to the main index. -/
def SigPlan.pinVisible (plan : SigPlan) : SigPlan :=
  if plan.cls = .C then
    { plan with mainSigs := plan.mainSigs ++ plan.broadSigs, broadSigs := [], cls := .B }
  else plan

/-! ## what the planner can return -/

/-- The cases of the cascade, with the clause each anchor came from. -/
inductive PlanCase (ex : Extracted) (d : Dict) : AnchorPlan → Prop where
  | universal (hreq : ex.required = [])
      (hpos : ex.anyof = [] ∨
        ex.requiredPhrases ≠ [] ∧ ∀ g ∈ ex.requiredPhrases, phraseProxy g = []) :
      PlanCase ex d universalPlan
  | phrase {g : PhraseGraph} (hg : g ∈ ex.requiredPhrases)
      (huse : usesRequiredPhraseProxy ex d = true) :
      PlanCase ex d ⟨singletons (phraseProxy g), [], [], .B, false⟩
  | anyMain {group : List FeatureId} {b : Bool} (hgroup : group ∈ ex.anyof)
      (hcold : ∀ f ∈ group, d.isHot f = false) :
      PlanCase ex d ⟨singletons group, [], [], .B, b⟩
  | anyHot {group : List FeatureId} (hgroup : group ∈ ex.anyof)
      (hcold : ∀ f ∈ group, d.isHot f = false) :
      PlanCase ex d ⟨[], [], singletons group, .H, false⟩
  | anyBroad {group : List FeatureId} (hgroup : group ∈ ex.anyof)
      (hreq : ex.required = []) :
      PlanCase ex d ⟨[], singletons group, [], .C, false⟩
  | pair {r1 r2 : FeatureId} (h1 : r1 ∈ ex.required) (h2 : r2 ∈ ex.required)
      (hne : ex.required.Nodup → r1 ≠ r2) (hhot : d.isHot r1 = true) :
      PlanCase ex d ⟨[[min r1 r2, max r1 r2]], [], [], .B, false⟩
  | broadOne {r1 : FeatureId} (h1 : ex.required = [r1]) (hhot : d.isHot r1 = true) :
      PlanCase ex d ⟨[], [[r1]], [], .C, false⟩
  | hotOne {r1 : FeatureId} (h1 : r1 ∈ ex.required) (hcold : d.isHot r1 = false) :
      PlanCase ex d ⟨[], [], [[r1]], .H, false⟩
  | mainOne {r1 : FeatureId} {b : Bool} (h1 : r1 ∈ ex.required)
      (hcold : d.isHot r1 = false) :
      PlanCase ex d ⟨[[r1]], [], [], .A, b⟩

section Cases

variable {ex : Extracted} {d : Dict} {theta : Nat} {plan : AnchorPlan}

theorem planCase_of_phraseProxyPlan (h : phraseProxyPlan ex d = some plan)
    (huse : usesRequiredPhraseProxy ex d = true) : PlanCase ex d plan := by
  simp only [phraseProxyPlan, Option.map_eq_some_iff] at h
  obtain ⟨best, hbest, rfl⟩ := h
  have hmem := (mem_filter.mp (argmin_mem hbest)).1
  obtain ⟨g, hg, rfl⟩ := mem_map.mp hmem
  exact .phrase hg huse

theorem phraseProxy_eq_nil_of_none (h : phraseProxyPlan ex d = none) :
    ∀ g ∈ ex.requiredPhrases, phraseProxy g = [] := by
  simp only [phraseProxyPlan, Option.map_eq_none_iff, argmin_eq_none,
    filter_eq_nil_iff, mem_map] at h
  intro g hg
  simpa using h _ ⟨g, hg, rfl⟩

theorem planCase_of_anyofCover (h : anyofCover ex d theta = some plan) : PlanCase ex d plan := by
  simp only [anyofCover, Option.map_eq_some_iff] at h
  obtain ⟨best, hbest, hplan⟩ := h
  obtain ⟨hmem, hcold⟩ := mem_filter.mp (argmin_mem hbest)
  have hcold' : ∀ f ∈ best, d.isHot f = false := by simpa using hcold
  split at hplan
  · rw [← hplan]
    exact .anyHot hmem hcold'
  · rw [← hplan]
    exact .anyMain hmem hcold'

theorem perm_rarestFirst (d : Dict) (required : List FeatureId) :
    (rarestFirst d required).Perm required := perm_insertionSort _ _

/-- **Inversion of the planner.** -/
theorem anchorPlan_planCase (ex : Extracted) (d : Dict) (theta : Nat) :
    PlanCase ex d (anchorPlan ex d theta) := by
  unfold anchorPlan
  split
  · next h => exact .universal h.1 (.inl h.2.1)
  · split
    · next h =>
      have huse : usesRequiredPhraseProxy ex d = true := by
        simp [usesRequiredPhraseProxy, h.1, h.2]
      cases hplan : phraseProxyPlan ex d with
      | none => exact .universal h.1 (.inr ⟨h.2, phraseProxy_eq_nil_of_none hplan⟩)
      | some plan => exact planCase_of_phraseProxyPlan hplan huse
    · next hpos hphrase =>
      have hperm := perm_rarestFirst d ex.required
      split
      · next hnil =>
        have hreq : ex.required = [] := by
          rw [hnil] at hperm
          exact hperm.nil_eq.symm
        split
        · next plan hplan => exact planCase_of_anyofCover hplan
        · split
          · next best hbest => exact .anyBroad (argmin_mem hbest) hreq
          · next hnone => exact .universal hreq (.inl (argmin_eq_none.mp hnone))
      · next r1 rest hsorted =>
        rw [hsorted] at hperm
        have h1 : r1 ∈ ex.required := hperm.mem_iff.mp mem_cons_self
        split
        · next hhot =>
          split
          · next r2 _ =>
            have h2 : r2 ∈ ex.required := hperm.mem_iff.mp (by simp)
            refine .pair h1 h2 (fun hnd => ?_) hhot
            have hnd' := hperm.nodup_iff.mpr hnd
            exact fun he => (nodup_cons.mp hnd').1 (he ▸ mem_cons_self)
          · have hreq : ex.required = [r1] := perm_singleton.mp hperm.symm
            split
            · next plan hplan =>
              have hne : ex.requiredPhrases ≠ [] := by
                intro hnil
                simp [phraseProxyPlan, hnil] at hplan
              refine planCase_of_phraseProxyPlan hplan ?_
              simp [usesRequiredPhraseProxy, hreq, hne, hhot]
            · split
              · next plan hplan => exact planCase_of_anyofCover hplan
              · exact .broadOne hreq hhot
        · next hcold =>
          have hcold' : d.isHot r1 = false := by simpa using hcold
          split
          · exact .hotOne h1 hcold'
          · exact .mainOne h1 hcold'

end Cases

end ReverseRusty
