import ReverseRusty.Title

/-!
# ReverseRusty.Cover

The lossless-cover contract: whenever a query's predicate holds on a
title, the title probes one of the keys the query is posted under, in the
index the query's cost class is posted in.

`Reached` is the abstract form of "one of these keys is probed here"; the
segment layers above only use it through `reached_of_demands`.
-/

namespace ReverseRusty

open List

/-- A required quoted graph occurs in the title's positive graph. -/
def TitleView.Spells (v : TitleView) (g : PhraseGraph) : Prop :=
  ∃ t, v.posGraph = some t ∧ g.Occurs t.positions t.arcs

/-- What a plan under `d` demands of a title, as sets and relations: every
required feature is there, every any-of group is hit and, when the plan
anchors on quoted labels, every required quoted graph occurs. -/
structure Extracted.Demands (ex : Extracted) (d : Dict) (v : TitleView) : Prop where
  required : ∀ f ∈ ex.required, f ∈ v.pos
  anyof : ∀ group ∈ ex.anyof, ∃ f ∈ group, f ∈ v.pos
  phrases : usesRequiredPhraseProxy ex d = true → ∀ g ∈ ex.requiredPhrases, v.Spells g

/-- The full predicate of a query on a title: the clauses over feature
sets hold and every required quoted graph occurs. -/
structure Extracted.Accepts (ex : Extracted) (v : TitleView) : Prop where
  flat : ex.matchesFlatFeatures v.pos v.neg = true
  phrases : ∀ g ∈ ex.requiredPhrases, v.Spells g

theorem Extracted.Accepts.demands {ex : Extracted} {v : TitleView} (h : ex.Accepts v) (d : Dict) :
    ex.Demands d v := by
  have hflat := h.flat
  simp only [matchesFlatFeatures, Bool.and_eq_true, all_eq_true] at hflat
  obtain ⟨⟨⟨⟨hreq, -⟩, hany⟩, -⟩, -⟩ := hflat
  refine ⟨fun f hf => mem_of_binarySearch (hreq f hf), fun group hgroup => ?_,
    fun _ => h.phrases⟩
  obtain ⟨f, hf, hfound⟩ := any_eq_true.mp (hany group hgroup)
  exact ⟨f, hf, mem_of_binarySearch hfound⟩

/-- What the planner relies on: no required feature is listed twice and no
required graph is empty. -/
structure Extracted.Anchorable (ex : Extracted) : Prop where
  nodup : ex.required.Nodup
  positions : ∀ g ∈ ex.requiredPhrases, g.positions ≠ 0

theorem Extracted.Canonical.anchorable {ex : Extracted} (h : ex.Canonical) : ex.Anchorable :=
  ⟨h.nodup_required, fun _ => h.positions_ne_zero⟩

/-- Some posted key of index `lane` is among the keys the title probes
there. -/
def SigPlan.Reached (plan : SigPlan) (d : Dict) (v : TitleView) (lane : ProbeLane) : Prop :=
  ∃ key ∈ plan.sigs lane, key ∈ v.keys d lane

section Cover

variable {ex : Extracted} {d dt : Dict} {theta : Nat} {v : TitleView}

attribute [local simp] SigPlan.sigs CostClass.lane universalPlan

variable {group : List FeatureId} {f : FeatureId}

theorem exists_singleton_key {feats : List FeatureId} (hf : f ∈ group) (hmem : f ∈ feats) :
    ∃ key ∈ (singletons group).map sigKey, key ∈ TitleView.singleKeys feats := by
  refine ⟨sigKey [f], mem_map_of_mem ?_, TitleView.mem_singleKeys hmem⟩
  rw [singletons]
  exact mem_map_of_mem hf

theorem exists_proxy_label (hex : ex.Anchorable) (hv : v.ProbeCovers)
    {g : PhraseGraph} (hg : g ∈ ex.requiredPhrases) (h : v.Spells g) :
    ∃ f ∈ phraseProxy g, f ∈ v.probe := by
  obtain ⟨t, ht, hocc⟩ := h
  obtain ⟨qa, hqa, ta, hta, hlabel⟩ := hocc.exists_label (hex.positions g hg)
  refine ⟨ta.feature, ?_, hv.labels t ht ta hta⟩
  rw [phraseProxy, mem_sortDedup, mem_flatMap]
  exact ⟨qa, hqa, hlabel⟩

theorem exists_main_single (hf : f ∈ group) (hmem : f ∈ v.probe) :
    ∃ key ∈ (singletons group).map sigKey, key ∈ v.keys dt .main := by
  obtain ⟨key, hkey, hprobe⟩ := exists_singleton_key hf hmem
  exact ⟨key, hkey, mem_append_left _ hprobe⟩

theorem exists_broad_single (hf : f ∈ group) (hmem : f ∈ v.pos) :
    ∃ key ∈ (singletons group).map sigKey, key ∈ v.keys dt .broad := by
  obtain ⟨key, hkey, hprobe⟩ := exists_singleton_key hf hmem
  exact ⟨key, hkey, mem_append_left _ hprobe⟩

/-- **Lossless cover.**  An anchorable query whose demands hold on a title
is reached through the index of its class.  The query may have been
planned under an earlier dictionary `d` than the title's `dt`, as long as
features hot at planning are hot for the title. -/
theorem reached_of_demands (hex : ex.Anchorable)
    (hhot : ∀ f, d.isHot f = true → dt.isHot f = true) (hv : v.ProbeCovers) (h : ex.Demands d v) :
    (buildSignatures ex d theta).Reached dt v (buildSignatures ex d theta).cls.lane := by
  unfold SigPlan.Reached buildSignatures
  generalize hplan : anchorPlan ex d theta = plan
  have hcase : PlanCase ex d plan := hplan ▸ anchorPlan_planCase ex d theta
  cases hcase with
  | universal _ _ =>
    exact ⟨universalSig, by simp [universalSig],
      mem_append_right _ mem_cons_self⟩
  | phrase hg huse =>
    obtain ⟨f, hf, hprobe⟩ := exists_proxy_label hex hv hg (h.phrases huse _ hg)
    exact exists_main_single hf hprobe
  | anyMain hgroup _ =>
    obtain ⟨f, hf, hpos⟩ := h.anyof _ hgroup
    exact exists_main_single hf (hv.pos f hpos)
  | anyHot hgroup _ =>
    obtain ⟨f, hf, hpos⟩ := h.anyof _ hgroup
    exact exists_singleton_key hf hpos
  | anyBroad hgroup _ =>
    obtain ⟨f, hf, hpos⟩ := h.anyof _ hgroup
    exact exists_broad_single hf hpos
  | pair h1 h2 hne hr1 =>
    refine ⟨_, mem_singleton.mpr rfl, mem_append_right _ ?_⟩
    exact TitleView.mem_pairKeys (h.required _ h1) (h.required _ h2) (hhot _ hr1)
      (hne hex.nodup)
  | broadOne h1 _ =>
    have hpos := h.required _ (h1 ▸ mem_singleton.mpr rfl)
    exact exists_broad_single (mem_singleton.mpr rfl) hpos
  | hotOne h1 _ =>
    exact exists_singleton_key (mem_singleton.mpr rfl) (h.required _ h1)
  | mainOne h1 _ =>
    exact exists_main_single (mem_singleton.mpr rfl) (hv.pos _ (h.required _ h1))

theorem lane_of_mem_sigs {lane : ProbeLane} {key : UInt64}
    (h : key ∈ (buildSignatures ex d theta).sigs lane) :
    (buildSignatures ex d theta).cls.lane = lane := by
  revert h
  unfold buildSignatures
  generalize hplan : anchorPlan ex d theta = plan
  have hcase : PlanCase ex d plan := hplan ▸ anchorPlan_planCase ex d theta
  cases hcase <;> cases lane <;> simp

theorem ne_zero_of_mem_sigs {lane : ProbeLane} {key : UInt64}
    (h : key ∈ (buildSignatures ex d theta).sigs lane) : key ≠ 0 := by
  have hsig : ∃ features, sigKey features = key := by
    cases lane <;> exact (mem_map.mp h).imp fun _ h => h.2
  obtain ⟨features, rfl⟩ := hsig
  exact sigKey_ne_zero features

theorem lane_of_mem_pinVisible {lane : ProbeLane} {key : UInt64}
    (h : key ∈ (buildSignatures ex d theta).pinVisible.sigs lane) :
    (buildSignatures ex d theta).pinVisible.cls.lane = lane := by
  unfold SigPlan.pinVisible at *
  by_cases hcls : (buildSignatures ex d theta).cls = .C
  · have hhot : (buildSignatures ex d theta).hotSigs = [] := by
      rw [eq_nil_iff_forall_not_mem]
      intro k hk
      have := @lane_of_mem_sigs ex d theta .hot k hk
      simp [hcls] at this
    rw [if_pos hcls] at *
    cases lane with
    | main => rfl
    | broad => simp at h
    | hot => simp [hhot] at h
  · rw [if_neg hcls] at *
    exact lane_of_mem_sigs h

/-- **Lossless cover of a plan kept visible**: the signatures a class-C
plan moves to the main index are single features, which the main index is
probed with too. -/
theorem reached_pinVisible (hex : ex.Anchorable)
    (hhot : ∀ f, d.isHot f = true → dt.isHot f = true) (hv : v.ProbeCovers) (h : ex.Demands d v) :
    (buildSignatures ex d theta).pinVisible.Reached dt v
      (buildSignatures ex d theta).pinVisible.cls.lane := by
  by_cases hcls : (buildSignatures ex d theta).cls = .C
  · rw [SigPlan.pinVisible, if_pos hcls]
    revert hcls
    unfold SigPlan.Reached buildSignatures
    generalize hplan : anchorPlan ex d theta = plan
    have hcase : PlanCase ex d plan := hplan ▸ anchorPlan_planCase ex d theta
    intro hcls
    cases hcase with
    | anyBroad hgroup _ =>
      obtain ⟨f, hf, hpos⟩ := h.anyof _ hgroup
      exact exists_main_single hf (hv.pos f hpos)
    | broadOne h1 _ =>
      have hpos := h.required _ (h1 ▸ mem_singleton.mpr rfl)
      exact exists_main_single (mem_singleton.mpr rfl) (hv.pos _ hpos)
    | universal _ _ => simp at hcls
    | phrase _ _ | anyMain _ _ | anyHot _ _ | pair _ _ _ _ | hotOne _ _ | mainOne _ _ =>
      simp at hcls
  · rw [SigPlan.pinVisible, if_neg hcls]
    exact reached_of_demands hex hhot hv h

end Cover

/-- **Signature cover.**  For every canonical query, dictionary, hot-anchor
threshold and title whose probe view covers its positive view and the
labels of its positive graph: if the query's full predicate holds, the
title probes one of the query's signature keys in the index the query's
cost class is posted in. -/
theorem signature_cover (ex : Extracted) (d : Dict) (theta : Nat) (v : TitleView)
    (hcanon : ex.Canonical) (hv : v.ProbeCovers) (h : ex.Accepts v) :
    ∃ key ∈ (buildSignatures ex d theta).sigs (anchorPlan ex d theta).cls.lane,
      key ∈ v.keys d (anchorPlan ex d theta).cls.lane :=
  reached_of_demands hcanon.anchorable (fun _ hf => hf) hv (h.demands d)

/-- A dictionary whose only feature, `0`, is hot. -/
def hotZeroDict : Dict := (Dict.new.intern "charm").2.finalizeMask

/-- `charm "box"`: a hot required feature and a quoted word. -/
def charmBoxQuery : Extracted :=
  { required := [0], requiredPhrases := [⟨1, [⟨0, 1, [1]⟩]⟩] }

/-- The title `charm box`, with its token graph. -/
def charmBoxTitle : TitleView :=
  .dualPositioned [0, 1] (titleMask hotZeroDict [0, 1]) [0, 1] ⟨2, [⟨0, 0, 1⟩, ⟨1, 1, 2⟩], true⟩
    (titleMask hotZeroDict [0, 1]) [0, 1] ⟨2, [⟨0, 0, 1⟩, ⟨1, 1, 2⟩], true⟩

theorem charmBoxTitle_probeCovers : charmBoxTitle.ProbeCovers := by
  refine ⟨fun _ hf => hf, fun g hg a ha => ?_⟩
  cases hg
  revert a
  decide

theorem charmBoxQuery_accepts : charmBoxQuery.Accepts charmBoxTitle := by
  refine ⟨by decide, fun g hg => ⟨_, rfl, ?_⟩⟩
  obtain rfl := mem_singleton.mp hg
  have hstart : Spelled ⟨1, [⟨0, 1, [1]⟩]⟩ 2 [⟨0, 0, 1⟩, ⟨1, 1, 2⟩] (0, 1) := .start (by decide)
  have harc : (⟨1, 1, 2⟩ : PositionArc) ∈ [⟨0, 0, 1⟩, ⟨1, 1, 2⟩] := by decide
  exact ⟨2, .step hstart (mem_singleton.mpr rfl) rfl harc rfl (by decide)⟩

theorem signature_cover_charmBox :
    ∃ key ∈ (buildSignatures charmBoxQuery hotZeroDict 0).sigs
        (anchorPlan charmBoxQuery hotZeroDict 0).cls.lane,
      key ∈ charmBoxTitle.keys hotZeroDict (anchorPlan charmBoxQuery hotZeroDict 0).cls.lane :=
  signature_cover charmBoxQuery hotZeroDict 0 charmBoxTitle (by decide)
    charmBoxTitle_probeCovers charmBoxQuery_accepts

end ReverseRusty
