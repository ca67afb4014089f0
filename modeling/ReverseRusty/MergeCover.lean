import ReverseRusty.Merge

/-!
# ReverseRusty.MergeCover

The covers a merge posts rows under.  A cover carried forward from a
source reaches the titles it reached there (`coversBody_coverOf`); a cover
planned again from the stored columns reaches every title the row verifies
on, like the one compiled from the query (`coversBody_replanned`).

`Replannable` is what planning again relies on; `Replannable.add` says that
rows of the write path have it.  `anchoringInputs_exact` says what is read
back of a row, stored before the mask was assigned or after.
-/

namespace ReverseRusty

open List

/-! ## covers carried forward -/

theorem CandidateIndex.mem_keysOf {idx : CandidateIndex} {key : UInt64} {id : Nat} :
    key ∈ idx.keysOf id ↔ id ∈ idx.postings key := by
  unfold keysOf postings
  rw [mem_flatMap]
  constructor
  · rintro ⟨⟨k, p⟩, he, hkey⟩
    obtain ⟨id', hid, rfl⟩ := mem_map.mp hkey
    obtain ⟨hmem, heq⟩ := mem_filter.mp hid
    have hget : idx.get k = some p := AList.mem_lookup_iff.mpr he
    rw [hget]
    exact of_decide_eq_true heq ▸ hmem
  · intro hid
    cases hget : idx.get key with
    | none => simp [hget] at hid
    | some p =>
      rw [hget] at hid
      refine ⟨⟨key, p⟩, AList.mem_lookup_iff.mp hget, mem_map.mpr ⟨id, ?_, rfl⟩⟩
      exact mem_filter.mpr ⟨hid, decide_eq_true rfl⟩

namespace Segment

section CoverOf

variable {src : Segment} {i : Nat} {e : Entry}

variable {lane : ProbeLane} {key : UInt64}

theorem mem_sigs_coverOf :
    key ∈ (src.coverOf e).sigs lane ↔ e.dupOf ∈ (src.index lane).postings key := by
  cases lane <;> exact CandidateIndex.mem_keysOf

theorem lane_of_mem_coverOf (hg : src.Grouped) (he : src.entries[i]? = some e)
    (h : key ∈ (src.coverOf e).sigs lane) : (src.coverOf e).cls.lane = lane := by
  obtain ⟨l, hl, -, hcls, -⟩ := hg.leader i e he
  obtain ⟨l', hl', -, hlane⟩ := hg.posted lane key _ (mem_sigs_coverOf.mp h)
  rw [hl] at hl'
  cases hl'
  exact (congrArg CostClass.lane hcls).symm.trans hlane

theorem ne_zero_of_mem_coverOf (hk : src.Kept) (h : key ∈ (src.coverOf e).sigs lane) : key ≠ 0 :=
  hk.keys lane key (CandidateIndex.mem_keys_of_postings (mem_sigs_coverOf.mp h))

/-- **A cover carried forward covers the row.** -/
theorem coversBody_coverOf {dt : Dict} (hg : src.Grouped) (hc : src.Covers dt)
    (he : src.entries[i]? = some e) : (src.coverOf e).CoversBody dt e.row.body := by
  intro v hv hverify hopen
  obtain ⟨key, hkey, hpost⟩ := hc.of_member hg he hv hverify hopen
  exact ⟨key, mem_sigs_coverOf.mpr hpost, hkey⟩

end CoverOf

end Segment

/-! ## covers planned again -/

/-- A stored body that lists its required features once, whether in the
mask or in the tail. -/
structure Body.Replannable (b : Body) (dt : Dict) : Prop where
  nodup : b.reqTail.Nodup
  apart : ∀ f ∈ b.reqTail, dt.isHot f = true → b.reqMask.getLsbD (dt.maskBit f) = false

/-- A stored body without any positive flat clause. -/
structure Body.Unanchored (b : Body) : Prop where
  reqMask : b.reqMask = 0
  reqTail : b.reqTail = []
  groups : b.groups = []

section Replan

variable {b : Body} {d dt : Dict} {theta : Nat}

theorem anchorable_anchoringInputs (hb : b.Replannable dt) (hd : d.MaskFrozen dt) :
    (b.anchoringInputs d).Anchorable := by
  refine ⟨?_, fun g hg => by contradiction⟩
  show (((List.range 64).filter b.reqMask.getLsbD).filterMap d.maskInverse ++ b.reqTail).Nodup
  refine List.Nodup.append ?_ hb.nodup ?_
  · refine List.Nodup.filterMap (fun k k' f hk hk' => ?_) (nodup_range.filter _)
    exact (Dict.maskBit_of_maskInverse hk).1.symm.trans (Dict.maskBit_of_maskInverse hk').1
  · -- a masked feature has its bit in the title's dictionary too
    intro f hmask htail
    obtain ⟨k, hk, hinv⟩ := mem_filterMap.mp hmask
    obtain ⟨hbit, hhot⟩ := Dict.maskBit_of_maskInverse hinv
    have hset : b.reqMask.getLsbD k = true := (mem_filter.mp hk).2
    have hapart := hb.apart f htail (hd.isHot hhot)
    rw [← hd.maskBit_eq hhot, hbit, hset] at hapart
    contradiction

theorem demands_anchoringInputs (hd : d.MaskFrozen dt) {v : TitleView} (hv : v.WellFormed dt)
    (h : b.verify v = true) : (b.anchoringInputs d).Demands d v := by
  simp only [Body.verify, Bool.and_eq_true, beq_iff_eq, all_eq_true] at h
  obtain ⟨⟨⟨⟨⟨hmask, -⟩, htail⟩, -⟩, hany⟩, -⟩ := h
  refine ⟨fun f hf => ?_, fun group hgroup => ?_, fun _ g hg => by contradiction⟩
  · rcases mem_append.mp hf with hf | hf
    · obtain ⟨k, hk, hinv⟩ := mem_filterMap.mp hf
      obtain ⟨hbit, hhot⟩ := Dict.maskBit_of_maskInverse hinv
      have hset : b.reqMask.getLsbD k = true := (mem_filter.mp hk).2
      rw [← hmask, BitVec.getLsbD_and, Bool.and_eq_true, ← hbit, hd.maskBit_eq hhot] at hset
      exact mem_pos_of_posMask hv (hd.isHot hhot) hset.2
    · exact mem_of_binarySearch (htail f hf)
  · obtain ⟨f, hf, hfound⟩ := any_eq_true.mp (hany group hgroup)
    exact ⟨f, hf, mem_of_binarySearch hfound⟩

/-- **A cover planned from the stored columns covers the body.** -/
theorem coversBody_replanned (hb : b.Replannable dt) (hd : d.MaskFrozen dt) :
    (buildSignatures (b.anchoringInputs d) d theta).CoversBody dt b := fun _ hv hverify _ =>
  reached_of_demands (anchorable_anchoringInputs hb hd) (fun _ => hd.isHot) hv.toProbeCovers
    (demands_anchoringInputs hd hv hverify)

theorem Body.Unanchored.cls_anchorPlan (h : b.Unanchored) :
    (anchorPlan (b.anchoringInputs d) d theta).cls = .D := by
  have hreq : (b.anchoringInputs d).required = [] := by
    rw [Body.anchoringInputs, h.reqMask, h.reqTail, append_nil, filterMap_eq_nil_iff]
    intro k hk
    simp at hk
  have hany : (b.anchoringInputs d).anyof = [] := h.groups
  rw [anchorPlan, if_pos ⟨hreq, hany, rfl⟩]
  rfl

/-- A row is planned as an always-candidate only without positive clauses,
as long as every mask bit it has is known. -/
theorem unanchored_of_cls_anchorPlan
    (hknown : ∀ k < 64, b.reqMask.getLsbD k = true → d.maskInverse k ≠ none)
    (h : (anchorPlan (b.anchoringInputs d) d theta).cls = .D) : b.Unanchored := by
  generalize hplan : anchorPlan (b.anchoringInputs d) d theta = plan at h
  have hcase : PlanCase (b.anchoringInputs d) d plan := hplan ▸ anchorPlan_planCase _ _ _
  cases hcase with
  | universal hreq hpos =>
    obtain ⟨hmasked, htail⟩ := append_eq_nil_iff.mp hreq
    refine ⟨?_, htail, ?_⟩
    · refine BitVec.eq_of_getLsbD_eq fun k hk => ?_
      show b.reqMask.getLsbD k = (0#64).getLsbD k
      rw [BitVec.getLsbD_zero, Bool.eq_false_iff]
      intro hset
      refine hknown k hk hset ?_
      exact filterMap_eq_nil_iff.mp hmasked k
        (mem_filter.mpr ⟨mem_range.mpr hk, hset⟩)
    · rcases hpos with hany | ⟨hphrases, -⟩
      · exact hany
      · exact absurd rfl hphrases
  | phrase _ _ | anyMain _ _ | anyHot _ _ | anyBroad _ _ | pair _ _ _ _ | broadOne _ _ | hotOne _ _
    | mainOne _ _ => contradiction

end Replan

/-! ## rows that can be planned again -/

/-- A stored row whose body can be planned again, and which is in the
always-candidate class only without positive flat clauses. -/
structure Entry.Replannable (e : Entry) (dt : Dict) : Prop where
  body : e.row.body.Replannable dt
  universal : e.cls = .D → e.row.body.requiredGraphs = [] → e.row.body.Unanchored

theorem Body.Unanchored.of_bodiesEqual {a b : Body} (ha : a.Unanchored)
    (h : a.bodiesEqual b = true) : b.Unanchored := by
  simp only [Body.bodiesEqual, Bool.and_eq_true, beq_iff_eq] at h
  obtain ⟨⟨⟨⟨⟨⟨⟨⟨hreqMask, -⟩, htail⟩, -⟩, hgroups⟩, -⟩, -⟩, -⟩, -⟩ := h
  rw [ha.reqTail] at htail
  rw [ha.groups] at hgroups
  exact ⟨hreqMask ▸ ha.reqMask, eq_nil_of_length_eq_zero htail.symm,
    eq_nil_of_length_eq_zero hgroups.symm⟩

theorem requiredGraphs_eq_nil {b : Body} (h : predicateHasPhrases b.predicate = false) :
    b.requiredGraphs = [] := by
  have hversion : (predicateBooleanProgram b.predicate).1 ≠ phraseProgramVersion := by
    unfold predicateBooleanProgram
    unfold predicateHasPhrases at h
    split at h
    · decide
    · next v ws _ =>
      simp only [Bool.or_eq_false_iff, decide_eq_false_iff_not] at h
      have hprog : (if v = rankFeatureProgramVersion then (featureProgramVersion, ws.drop 2)
          else (v, ws)).1 ≠ phraseProgramVersion := by
        split
        · show featureProgramVersion ≠ phraseProgramVersion
          decide
        · exact h.1
      simp only [if_neg h.2]
      generalize (if v = rankFeatureProgramVersion then (featureProgramVersion, ws.drop 2)
        else (v, ws)) = prog at hprog ⊢
      split
      · show (0 : UInt32) ≠ phraseProgramVersion
        decide
      · exact hprog
  rw [Body.requiredGraphs, requiredGraphs?, if_neg hversion]
  rfl

theorem hasPhrases_of_failsOpen {b : Body} {v : TitleView} (h : b.failsOpen v = true) :
    predicateHasPhrases b.predicate = true := by
  cases hphrases : predicateHasPhrases b.predicate with
  | true => rfl
  | false => simp [Body.failsOpen, Body.phraseAnchored, requiredGraphs_eq_nil hphrases] at h

section Join

variable {dt : Dict} {l e : Entry}

/-- A member is planned again as its leader may be. -/
theorem Entry.Replannable.adopt (hl : l.Replannable dt) {row : Row} {dupOf : Nat} {alive : Bool}
    (hrow : row.body.Replannable dt) (hbody : l.row.body.bodiesEqual row.body = true) :
    (Entry.mk row l.cls alive dupOf).Replannable dt where
  body := hrow
  universal hcls hgraphs := by
    rw [← requiredGraphs_eq_of_bodiesEqual hbody] at hgraphs
    exact (hl.universal hcls hgraphs).of_bodiesEqual hbody

end Join

namespace AddRequest

variable {req : AddRequest} {dt : Dict}

theorem replannable_row (h : req.Admissible dt) : req.row.body.Replannable dt := by
  have htail : req.row.body.reqTail = unmasked req.dict req.ex.required :=
    reqTail_compile h.storable req.dict
  refine ⟨?_, fun f hf hhot => ?_⟩
  · rw [htail]
    exact h.storable.canonical.nodup_required.filter _
  · rw [htail] at hf
    have hbit : req.dict.maskBit f = noMaskBit := of_decide_eq_true (mem_filter.mp hf).2
    rcases h.frozen with hnone | hsame
    · -- compiled before the mask: no bit is set at all
      rw [Bool.eq_false_iff]
      intro hset
      have hset' : (titleMask req.dict req.ex.required).getLsbD (dt.maskBit f) = true := hset
      rw [getLsbD_titleMask (Dict.isHot_iff.mp hhot)] at hset'
      obtain ⟨f', -, hbit'⟩ := hset'
      have hlt := Dict.isHot_iff.mp hhot
      rw [← hbit', hnone f', noMaskBit] at hlt
      omega
    · rw [Dict.isHot, ← hsame f, hbit] at hhot
      contradiction

theorem cls_plan_eq_D (h : req.plan.cls = .D) :
    (buildSignatures req.ex req.dict req.knobs.hotAnchorThreshold).cls = .D := by
  unfold plan at h
  simp only at h
  split at h
  · unfold SigPlan.pinVisible at h
    split at h
    · contradiction
    · exact h
  · exact h

theorem unanchored_row (h : req.Admissible dt) (hcls : req.plan.cls = .D)
    (hgraphs : req.row.body.requiredGraphs = []) : req.row.body.Unanchored := by
  have hphrases : req.ex.requiredPhrases = [] := requiredGraphs_compile h.storable ▸ hgraphs
  have hplan := cls_plan_eq_D hcls
  have hcase := anchorPlan_planCase req.ex req.dict req.knobs.hotAnchorThreshold
  unfold buildSignatures at hplan
  generalize anchorPlan req.ex req.dict req.knobs.hotAnchorThreshold = plan at hplan hcase
  cases hcase with
  | universal hreq hpos =>
    have hany : req.ex.anyof = [] := hpos.resolve_right fun hne => hne.1 hphrases
    refine ⟨?_, ?_, ?_⟩
    · show titleMask req.dict req.ex.required = 0
      rw [hreq]
      rfl
    · exact (reqTail_compile h.storable req.dict).trans (by rw [hreq]; rfl)
    · exact (groups_compile h.storable req.dict).trans hany
  | phrase _ _ | anyMain _ _ | anyHot _ _ | anyBroad _ _ | pair _ _ _ _ | broadOne _ _ | hotOne _ _
    | mainOne _ _ => contradiction

/-! ### what is read back -/

theorem mem_unmasked_iff (h : req.Admissible dt) {f : FeatureId} :
    f ∈ ((List.range 64).filter req.row.body.reqMask.getLsbD).filterMap dt.maskInverse ↔
      f ∈ req.ex.required ∧ req.dict.isHot f = true := by
  simp only [mem_filterMap, mem_filter, mem_range]
  constructor
  · rintro ⟨k, ⟨hk, hset⟩, hinv⟩
    obtain ⟨g, hg, rfl⟩ := (getLsbD_titleMask hk).mp hset
    have hhot : req.dict.isHot g = true := Dict.isHot_iff.mpr hk
    rw [h.frozen.maskBit_eq hhot, Dict.maskInverse_maskBit (h.frozen.isHot hhot)] at hinv
    cases hinv
    exact ⟨hg, hhot⟩
  · rintro ⟨hf, hhot⟩
    have hk := Dict.isHot_iff.mp hhot
    refine ⟨_, ⟨hk, (getLsbD_titleMask hk).mpr ⟨f, hf, rfl⟩⟩, ?_⟩
    rw [h.frozen.maskBit_eq hhot]
    exact Dict.maskInverse_maskBit (h.frozen.isHot hhot)

theorem perm_required_anchoringInputs (h : req.Admissible dt) :
    (req.row.body.anchoringInputs dt).required.Perm req.ex.required := by
  have hnodup := (anchorable_anchoringInputs (replannable_row h) (.refl dt)).nodup
  rw [perm_ext_iff_of_nodup hnodup h.storable.canonical.nodup_required]
  intro f
  have htail : req.row.body.reqTail = unmasked req.dict req.ex.required :=
    reqTail_compile h.storable req.dict
  show f ∈ _ ++ req.row.body.reqTail ↔ _
  rw [mem_append, mem_unmasked_iff h, htail, unmasked, mem_filter, ← and_or_left,
    and_iff_left]
  by_cases hbit : req.dict.maskBit f = noMaskBit
  · exact .inr (decide_eq_true hbit)
  · exact .inl (by simpa [Dict.isHot] using hbit)

/-- The query `charm box`; only `charm` can have a mask bit. -/
def charmAndBoxQuery : Extracted := { required := [0, 1] }

/-- The query stored under the dictionary `d`. -/
def charmAndBox (d : Dict) : AddRequest :=
  { Segment.quotedWordRequest with ex := charmAndBoxQuery, dict := d }

theorem charmAndBoxQuery_storable : charmAndBoxQuery.Storable where
  canonical := by decide
  wellformed := ⟨by decide, fun c hc => absurd hc not_mem_nil,
    fun g hg => absurd hg not_mem_nil⟩
  columns := by decide
  program := by decide

end AddRequest

namespace Segment

/-- Every row of a segment can be planned again. -/
def Replannable (seg : Segment) (dt : Dict) : Prop :=
  ∀ (i : Nat) (e : Entry), seg.entries[i]? = some e → e.Replannable dt

section Replannable

variable {seg : Segment} {dt : Dict}

theorem replannable_new : new.Replannable dt := by
  intro i e h
  simp [new] at h

/-- Appending an entry that can be planned again keeps the invariant. -/
theorem Replannable.concat (h : seg.Replannable dt) {e : Entry} (he : e.Replannable dt)
    {seg' : Segment} (hentries : seg'.entries = seg.entries ++ [e]) : seg'.Replannable dt := by
  intro i e' hi
  rw [hentries] at hi
  rcases getElem?_concat.mp hi with hi | ⟨-, rfl⟩
  · exact h i e' hi
  · exact he

theorem Replannable.tombstone (h : seg.Replannable dt) (i : Nat) :
    (seg.tombstone i).Replannable dt := by
  intro j e hj
  obtain ⟨e₀, he₀, heq⟩ := getElem?_tombstone hj
  rw [heq]
  exact ⟨(h j e₀ he₀).body, (h j e₀ he₀).universal⟩

theorem Replannable.add {seg' : Segment} {req : AddRequest} {r : AddedCompiled}
    (h : seg.Replannable dt) (hreq : req.Admissible dt)
    (hadd : seg.addCompiled req = some (r, seg')) : seg'.Replannable dt := by
  have hrow := AddRequest.replannable_row hreq
  rcases addCompiled_cases hadd with ⟨l, e, -, he, -, hbody, rfl⟩ | rfl
  · exact h.concat ((h l e he).adopt hrow hbody) rfl
  · exact h.concat ⟨hrow, AddRequest.unanchored_row hreq⟩ rfl

end Replannable

end Segment

end ReverseRusty
