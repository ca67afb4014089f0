import ReverseRusty.CompactMatch

/-!
# ReverseRusty.Threshold

The hot-anchor threshold is a cost switch: it moves a query between the two
indexes every read probes and never across the opt-in boundary.

* `anchorPlan_threshold` — what two thresholds can make of one query;
* `Twin` — two segments that took the same writes under different
  thresholds, kept by every write;
* `threshold_independence` — whole corpora return the same rows.
-/

namespace ReverseRusty

open List

/-! ## two plans of one query -/

structure AnchorPlan.SameCover (p q : AnchorPlan) : Prop where
  main : p.mainAnchors = q.mainAnchors
  broad : p.broadAnchors = q.broadAnchors
  hot : p.hotAnchors = q.hotAnchors
  cls : p.cls = q.cls

theorem AnchorPlan.SameCover.refl (p : AnchorPlan) : p.SameCover p := ⟨rfl, rfl, rfl, rfl⟩

section Plans

variable (ex : Extracted) (d : Dict) (theta theta' : Nat)

/-- Which group covers a query does not depend on the threshold, and every
such cover is read by default. -/
theorem anyofCover_threshold :
    (anyofCover ex d theta = none ∧ anyofCover ex d theta' = none) ∨
    ∃ p q, anyofCover ex d theta = some p ∧ anyofCover ex d theta' = some q ∧
      p.cls.isOptIn = false ∧ q.cls.isOptIn = false := by
  unfold anyofCover
  cases (ex.anyof.filter fun group => !group.any d.isHot).argmin (worstFreq d) with
  | none => exact .inl ⟨rfl, rfl⟩
  | some best =>
    refine .inr ⟨_, _, rfl, rfl, ?_, ?_⟩ <;> dsimp only <;> split <;> rfl

/-- The only flat required feature of a query, or none, is hot. -/
def hotRequired : Bool := ex.required.all d.isHot

/-- **Two thresholds, one query**: the plans agree, or both are read by
default and neither is anchored on quoted labels. -/
theorem anchorPlan_threshold :
    (anchorPlan ex d theta).SameCover (anchorPlan ex d theta') ∨
    ((anchorPlan ex d theta).cls.isOptIn = false ∧ (anchorPlan ex d theta').cls.isOptIn = false ∧
      (hotRequired ex d = true → ∀ g ∈ ex.requiredPhrases, phraseProxy g = [])) := by
  unfold anchorPlan
  by_cases huniversal : ex.required = [] ∧ ex.anyof = [] ∧ ex.requiredPhrases = []
  · simp only [if_pos huniversal]
    exact .inl (.refl _)
  by_cases hphrase : ex.required = [] ∧ ex.requiredPhrases ≠ []
  · simp only [if_neg huniversal, if_pos hphrase]
    exact .inl (.refl _)
  simp only [if_neg huniversal, if_neg hphrase]
  cases hsorted : rarestFirst d ex.required with
  | nil =>
    have hreq : ex.required = [] := by
      have hperm := perm_rarestFirst d ex.required
      rw [hsorted] at hperm
      exact hperm.nil_eq.symm
    have hnone : ex.requiredPhrases = [] := by
      by_contra hne
      exact hphrase ⟨hreq, hne⟩
    rcases anyofCover_threshold ex d theta theta' with ⟨hp, hq⟩ | ⟨p, q, hp, hq, hp', hq'⟩
    · simp only [hp, hq]
      exact .inl (.refl _)
    · simp only [hp, hq]
      exact .inr ⟨hp', hq', fun _ g hg => by simp [hnone] at hg⟩
  | cons r1 rest =>
    cases hhot : d.isHot r1 with
    | true =>
      simp only [hhot, if_true]
      cases rest with
      | cons r2 rest => exact .inl (.refl _)
      | nil =>
        cases hproxy : phraseProxyPlan ex d with
        | some plan => exact .inl (.refl _)
        | none =>
          rcases anyofCover_threshold ex d theta theta' with ⟨hp, hq⟩ | ⟨p, q, hp, hq, hv⟩
          · simp only [hp, hq]
            exact .inl (.refl _)
          · simp only [hp, hq]
            exact .inr ⟨hv.1, hv.2, fun _ => phraseProxy_eq_nil_of_none hproxy⟩
    | false =>
      have hcold : hotRequired ex d = false := by
        have hmem : r1 ∈ ex.required :=
          (perm_rarestFirst d ex.required).mem_iff.mp (hsorted ▸ mem_cons_self)
        rw [hotRequired, all_eq_false]
        exact ⟨r1, hmem, by simp [hhot]⟩
      simp only [hhot, Bool.false_eq_true, if_false]
      refine .inr ⟨?_, ?_, fun h => by simp [hcold] at h⟩ <;> split <;> rfl

theorem isOptIn_anchorPlan_threshold :
    (anchorPlan ex d theta).cls.isOptIn = (anchorPlan ex d theta').cls.isOptIn := by
  rcases anchorPlan_threshold ex d theta theta' with hsame | ⟨hp, hq, -⟩
  · rw [hsame.cls]
  · rw [hp, hq]

end Plans

/-! ## two appends of one query -/

theorem Extracted.Canonical.phraseProxy_ne_nil {ex : Extracted} (h : ex.Canonical) {g : PhraseGraph}
    (hg : g ∈ ex.requiredPhrases) : phraseProxy g ≠ [] := by
  have hreq : canonicalizePhrases ex.requiredPhrases = ex.requiredPhrases :=
    congrArg Extracted.requiredPhrases h
  rw [← hreq, canonicalizePhrases, mem_sortDedup, mem_filter] at hg
  obtain ⟨hmem, hcond⟩ := hg
  obtain ⟨g₀, -, rfl⟩ := mem_map.mp hmem
  obtain ⟨a, ha⟩ := exists_mem_of_ne_nil _ (of_decide_eq_true hcond).2
  have hinside : a.inGraph g₀.positions = true := by
    rw [PhraseGraph.canonicalize, mem_sortDedup, mem_filter] at ha
    exact ha.2
  simp only [PhraseArc.inGraph, Bool.and_eq_true, decide_eq_true_eq] at hinside
  obtain ⟨f, hf⟩ := exists_mem_of_ne_nil _ hinside.2
  intro hnil
  have hlabel : f ∈ phraseProxy g₀.canonicalize :=
    mem_sortDedup.mpr (mem_flatMap.mpr ⟨a, ha, hf⟩)
  rw [hnil] at hlabel
  contradiction

theorem hotRequired_of_phraseAnchored {ex : Extracted} {d : Dict} (hs : ex.Storable)
    (h : (Body.compile d ex).phraseAnchored = true) :
    ex.requiredPhrases ≠ [] ∧ hotRequired ex d = true := by
  rw [Body.phraseAnchored, requiredGraphs_compile hs, reqTail_compile hs] at h
  simp only [Bool.and_eq_true, decide_eq_true_eq, List.isEmpty_iff] at h
  obtain ⟨⟨hphrases, htail⟩, -⟩ := h
  refine ⟨hphrases, all_eq_true.mpr fun f hf => ?_⟩
  have hmasked := filter_eq_nil_iff.mp htail f hf
  simpa [Dict.isHot] using hmasked

namespace AddRequest

def withThreshold (req : AddRequest) (theta : Nat) : AddRequest :=
  { req with knobs := { req.knobs with hotAnchorThreshold := theta } }

@[simp] theorem row_withThreshold (req : AddRequest) (theta : Nat) :
    (req.withThreshold theta).row = req.row := rfl

theorem Admissible.withThreshold {req : AddRequest} {dt : Dict} (h : req.Admissible dt)
    (theta : Nat) : (req.withThreshold theta).Admissible dt :=
  ⟨h.storable, h.frozen⟩

theorem plan_withThreshold_eq (req : AddRequest) (theta : Nat) :
    (req.withThreshold theta).plan =
      if req.knobs.keepVisible || req.placement.mode == .replicatedAlwaysVisible then
        (buildSignatures req.ex req.dict theta).pinVisible
      else buildSignatures req.ex req.dict theta := rfl

/-- **Two appends of one query** land on the same side of the opt-in
boundary, and under the same keys if the body is posted under quoted
labels. -/
theorem plan_withThreshold (req : AddRequest) (hs : req.ex.Storable) (theta theta' : Nat) :
    let p := (req.withThreshold theta).plan
    let q := (req.withThreshold theta').plan
    p.cls.isOptIn = q.cls.isOptIn ∧ (p.cls = .D ↔ q.cls = .D) ∧
      (req.row.body.phraseAnchored = true → p.cls = q.cls ∧ ∀ lane, p.sigs lane = q.sigs lane) := by
  have hplans := anchorPlan_threshold req.ex req.dict theta theta'
  intro p q
  have hp := req.plan_withThreshold_eq theta
  have hq := req.plan_withThreshold_eq theta'
  change p = _ at hp
  change q = _ at hq
  rcases hplans with hsame | ⟨hvisible, hvisible', hphrases⟩
  · -- same cover: the pin sees the same class
    have hsigs : buildSignatures req.ex req.dict theta = { buildSignatures req.ex req.dict theta' with
        wouldBeHot := (buildSignatures req.ex req.dict theta).wouldBeHot } := by
      simp only [buildSignatures, hsame.main, hsame.broad, hsame.hot, hsame.cls]
    have hpq : p = { q with wouldBeHot := p.wouldBeHot } := by
      rw [hp, hq, hsigs]
      split
      · simp only [SigPlan.pinVisible]
        split <;> rfl
      · rfl
    have hcls : p.cls = q.cls := by rw [hpq]
    refine ⟨by rw [hcls], by rw [hcls], fun _ => ⟨hcls, fun lane => ?_⟩⟩
    rw [hpq]
    cases lane <;> rfl
  · -- both visible: neither is pinned
    have hkept : ∀ (plan : SigPlan) (keep : Bool), plan.cls.isOptIn = false →
        (if keep then plan.pinVisible else plan).cls.isOptIn = false := by
      intro plan keep hplan
      have hC : plan.cls ≠ .C := fun hC => by simp [hC, CostClass.isOptIn] at hplan
      rw [SigPlan.pinVisible, if_neg hC, ite_self]
      exact hplan
    have hpcls : p.cls.isOptIn = false := hp ▸ hkept _ _ hvisible
    have hqcls : q.cls.isOptIn = false := hq ▸ hkept _ _ hvisible'
    refine ⟨hpcls.trans hqcls.symm, ?_, fun hanchored => ?_⟩
    · constructor
      · intro hD
        simp [hD, CostClass.isOptIn] at hpcls
      · intro hD
        simp [hD, CostClass.isOptIn] at hqcls
    · obtain ⟨hne, hhot⟩ := hotRequired_of_phraseAnchored hs hanchored
      obtain ⟨g, hg⟩ := exists_mem_of_ne_nil _ hne
      exact absurd (hphrases hhot g hg) (hs.canonical.phraseProxy_ne_nil hg)

end AddRequest

/-! ## two builds of one segment -/

/-- What two builds of a row share: everything but the index it is in,
and that too if its body is posted under quoted labels. -/
def Entry.shape (e : Entry) : Row × Bool × Nat × Bool × Option CostClass :=
  (e.row, e.alive, e.dupOf, e.cls.isOptIn, if e.row.body.phraseAnchored then some e.cls else none)

namespace Segment

/-- Two segments that took the same writes under different thresholds. -/
structure Twin (dt : Dict) (s t : Segment) : Prop where
  left : Produced dt s
  right : Produced dt t
  shapes : s.entries.map Entry.shape = t.entries.map Entry.shape
  bodyIndex : s.bodyIndex = t.bodyIndex
  posted : ∀ (i : Nat) (e : Entry), s.entries[i]? = some e → e.row.body.phraseAnchored = true →
    ∀ lane key, i ∈ (s.index lane).postings key ↔ i ∈ (t.index lane).postings key

theorem twin_new (dt : Dict) : Twin dt new new where
  left := .new dt
  right := .new dt
  shapes := rfl
  bodyIndex := rfl
  posted _ _ _ _ _ _ := Iff.rfl

section Twin

variable {dt : Dict} {s t : Segment}

theorem Twin.length_eq (h : Twin dt s t) : s.length = t.length := by
  have hlen := congrArg List.length h.shapes
  rwa [length_map, length_map] at hlen

variable {i : Nat} {e : Entry}

theorem Twin.entry (h : Twin dt s t) (he : s.entries[i]? = some e) :
    ∃ e', t.entries[i]? = some e' ∧ e'.row = e.row ∧ e'.alive = e.alive ∧ e'.dupOf = e.dupOf ∧
      e'.cls.isOptIn = e.cls.isOptIn ∧ (e.row.body.phraseAnchored = true → e'.cls = e.cls) := by
  have hshape := congrArg (·[i]?) h.shapes
  simp only [getElem?_map, he, Option.map_some] at hshape
  obtain ⟨e', he', heq⟩ := Option.map_eq_some_iff.mp hshape.symm
  simp only [Entry.shape, Prod.mk.injEq] at heq
  obtain ⟨hrow, halive, hdup, hopt, hcls⟩ := heq
  refine ⟨e', he', hrow, halive, hdup, hopt, fun hanchored => ?_⟩
  rw [hrow, hanchored] at hcls
  exact Option.some.inj hcls

theorem Twin.entry_none (h : Twin dt s t) (he : s.entries[i]? = none) : t.entries[i]? = none :=
  List.getElem?_eq_none_iff.mpr (h.length_eq.symm.trans_le (List.getElem?_eq_none_iff.mp he))

variable {e' : Entry}

theorem Twin.shapes_concat (h : Twin dt s t) (he : e.shape = e'.shape) :
    (s.entries ++ [e]).map Entry.shape = (t.entries ++ [e']).map Entry.shape := by
  rw [map_append, map_append, h.shapes, map_singleton, map_singleton, he]

theorem Produced.length_notMem_postings (h : Produced dt s) (lane : ProbeLane) (key : UInt64) :
    s.length ∉ (s.index lane).postings key := by
  intro hpost
  obtain ⟨e, he, -⟩ := (h.valid (.refl dt)).grouped.posted lane key _ hpost
  exact absurd (List.getElem?_eq_some_iff.mp he).1 (Nat.lt_irrefl _)

theorem Twin.tombstone (h : Twin dt s t) (i : Nat) : Twin dt (s.tombstone i) (t.tombstone i) where
  left := h.left.tombstone i
  right := h.right.tombstone i
  shapes := by
    have hset : ∀ seg : Segment, (seg.tombstone i).entries.map Entry.shape =
        (seg.entries.map Entry.shape).modify i fun x => (x.1, false, x.2.2) := by
      intro seg
      refine ext_getElem? fun j => ?_
      rw [getElem?_map, getElem?_modify, getElem?_map]
      unfold Segment.tombstone
      cases hi : seg.entries[i]? with
      | none =>
        by_cases hij : i = j
        · subst hij
          simp [hi]
        · simp [hij]
      | some e =>
        by_cases hij : i = j
        · subst hij
          simp only [getElem?_set_self', hi, if_true, Option.map_some]
          rfl
        · simp [getElem?_set_ne hij, hij]
    rw [hset, hset, h.shapes]
  bodyIndex := by rw [bodyIndex_tombstone, bodyIndex_tombstone, h.bodyIndex]
  posted j e hj hanchored lane key := by
    obtain ⟨e₀, he₀, heq⟩ := getElem?_tombstone hj
    rw [index_tombstone, index_tombstone]
    rw [heq] at hanchored
    exact h.posted j e₀ he₀ hanchored lane key

theorem Twin.buildFilter (h : Twin dt s t) : Twin dt s.buildFilter t.buildFilter where
  left := h.left.buildFilter
  right := h.right.buildFilter
  shapes := h.shapes
  bodyIndex := rfl
  posted i e he hanchored lane key := by
    rw [index_buildFilter, index_buildFilter]
    exact h.posted i e he hanchored lane key

theorem Twin.leaderFor_eq (h : Twin dt s t) {cls cls' : CostClass} (hcls : cls.isOptIn = cls'.isOptIn)
    (body : Body) : s.leaderFor cls body = t.leaderFor cls' body := by
  unfold leaderFor
  rw [h.bodyIndex]
  congr 1
  funext l
  cases hs : s.entries[l]? with
  | none => rw [h.entry_none hs]; rfl
  | some e =>
    obtain ⟨e', he', hrow, -, -, hopt, -⟩ := h.entry hs
    rw [he', Option.any_some, Option.any_some, hrow, hopt, hcls]

theorem Twin.join (h : Twin dt s t) {l : Nat} {e e' : Entry} {row : Row} {quoted : Bool}
    (hl : s.entries[l]? = some e) (hl' : t.entries[l]? = some e')
    (hbody : e.row.body.bodiesEqual row.body = true)
    (hs : Produced dt (s.join l row e.cls quoted)) (ht : Produced dt (t.join l row e'.cls quoted)) :
    Twin dt (s.join l row e.cls quoted) (t.join l row e'.cls quoted) where
  left := hs
  right := ht
  shapes := by
    obtain ⟨e₀, he₀, hrow, -, -, hopt, hanchored⟩ := h.entry hl
    rw [hl'] at he₀
    cases he₀
    have hnew : Entry.shape ⟨row, e.cls, true, l⟩ = Entry.shape ⟨row, e'.cls, true, l⟩ := by
      simp only [Entry.shape, hopt]
      rw [← phraseAnchored_eq_of_bodiesEqual hbody]
      cases hbit : e.row.body.phraseAnchored with
      | false => rfl
      | true => rw [hanchored hbit]
    exact h.shapes_concat hnew
  bodyIndex := h.bodyIndex
  posted i d hi hanchored lane key := by
    rw [index_join, index_join]
    rcases getElem?_concat.mp hi with hold | ⟨hlast, -⟩
    · exact h.posted i d hold hanchored lane key
    · -- the new row is posted in neither
      have hlen : i = s.length := hlast
      rw [hlen]
      exact iff_of_false (h.left.length_notMem_postings lane key)
        (h.length_eq ▸ h.right.length_notMem_postings lane key)

theorem Twin.lead (h : Twin dt s t) {row : Row} {p q : SigPlan} {dedup quoted : Bool}
    (hopt : p.cls.isOptIn = q.cls.isOptIn)
    (hanchored : row.body.phraseAnchored = true → p.cls = q.cls ∧ ∀ lane, p.sigs lane = q.sigs lane)
    (hs : Produced dt (s.lead row p dedup quoted)) (ht : Produced dt (t.lead row q dedup quoted)) :
    Twin dt (s.lead row p dedup quoted) (t.lead row q dedup quoted) where
  left := hs
  right := ht
  shapes := by
    have hnew : Entry.shape ⟨row, p.cls, true, s.length⟩ =
        Entry.shape ⟨row, q.cls, true, t.length⟩ := by
      simp only [Entry.shape, hopt, h.length_eq]
      cases hbit : row.body.phraseAnchored with
      | false => rfl
      | true => rw [(hanchored hbit).1]
    exact h.shapes_concat hnew
  bodyIndex := by
    show (if dedup then _ else _) = (if dedup then _ else _)
    rw [h.bodyIndex, h.length_eq]
  posted i d hi hbit lane key := by
    rw [index_lead, index_lead, CandidateIndex.mem_postings_insertAll,
      CandidateIndex.mem_postings_insertAll, ← h.length_eq]
    rcases getElem?_concat.mp hi with hold | ⟨hlast, rfl⟩
    · have hlt : i ≠ s.length := Nat.ne_of_lt (List.getElem?_eq_some_iff.mp hold).1
      simp only [hlt, and_false, or_false]
      exact h.posted i d hold hbit lane key
    · have hlen : i = s.length := hlast
      have hold : i ∉ (s.index lane).postings key := hlen ▸ h.left.length_notMem_postings lane key
      have hold' : i ∉ (t.index lane).postings key :=
        hlen ▸ h.length_eq ▸ h.right.length_notMem_postings lane key
      rw [(hanchored hbit).2 lane]
      simp [hold, hold']

/-- The leader an append may join. -/
def leaderOf (seg : Segment) (req : AddRequest) : Option Nat :=
  if req.knobs.dedupBodies then seg.leaderFor req.plan.cls req.row.body else none

/-- The segment an accepted append leaves. -/
def added (seg : Segment) (req : AddRequest) : Segment :=
  match seg.leaderOf req with
  | some l => seg.join l req.row ((seg.entries[l]?.map Entry.cls).getD req.plan.cls) req.quoted
  | none => seg.lead req.row req.plan req.knobs.dedupBodies req.quoted

theorem addCompiled_eq_added {seg : Segment} {req : AddRequest}
    (h : rejectsClassD req.plan.cls req.ex req.knobs.acceptClassD = false) :
    ∃ r, seg.addCompiled req = some (r, seg.added req) := by
  unfold addCompiled added
  simp only [h, Bool.false_eq_true, if_false]
  rw [← leaderOf]
  cases seg.leaderOf req <;> exact ⟨_, rfl⟩

theorem exists_of_leaderOf {seg : Segment} {req : AddRequest} {l : Nat}
    (h : seg.leaderOf req = some l) :
    ∃ e, seg.entries[l]? = some e ∧ e.row.body.bodiesEqual req.row.body = true ∧
      seg.added req = seg.join l req.row e.cls req.quoted := by
  have hfound : seg.leaderFor req.plan.cls req.row.body = some l := by
    unfold leaderOf at h
    split at h
    · exact h
    · contradiction
  obtain ⟨-, e, he, hsame⟩ := exists_of_find?_any hfound
  refine ⟨e, he, (Bool.and_eq_true_iff.mp hsame).2, ?_⟩
  simp [added, h, he]

/-- **One append under two thresholds** is refused by both builds or keeps
them twins. -/
theorem Twin.add (h : Twin dt s t) (hs : s.filter = none) (ht : t.filter = none) {req : AddRequest}
    (hreq : req.Admissible dt) (theta theta' : Nat) :
    (s.addCompiled (req.withThreshold theta) = none ∧
      t.addCompiled (req.withThreshold theta') = none) ∨
    ∃ r r' s' t', s.addCompiled (req.withThreshold theta) = some (r, s') ∧
      t.addCompiled (req.withThreshold theta') = some (r', t') ∧ Twin dt s' t' := by
  obtain ⟨hopt, hD, hanchored⟩ := req.plan_withThreshold hreq.storable theta theta'
  have hrejects : rejectsClassD (req.withThreshold theta).plan.cls req.ex req.knobs.acceptClassD =
      rejectsClassD (req.withThreshold theta').plan.cls req.ex req.knobs.acceptClassD := by
    have hbeq : ((req.withThreshold theta).plan.cls == .D) =
        ((req.withThreshold theta').plan.cls == .D) := by
      rw [Bool.eq_iff_iff, beq_iff_eq, beq_iff_eq]
      exact hD
    rw [rejectsClassD, rejectsClassD, hbeq]
  have hleader : s.leaderOf (req.withThreshold theta) = t.leaderOf (req.withThreshold theta') := by
    have hfor := h.leaderFor_eq hopt req.row.body
    rw [leaderOf, leaderOf, AddRequest.row_withThreshold, AddRequest.row_withThreshold, hfor]
    rfl
  cases hrej : rejectsClassD (req.withThreshold theta).plan.cls req.ex req.knobs.acceptClassD with
  | true => exact .inl ⟨if_pos hrej, if_pos (hrejects ▸ hrej)⟩
  | false =>
    obtain ⟨r, hsadd⟩ := @addCompiled_eq_added s (req.withThreshold theta) hrej
    obtain ⟨r', htadd⟩ := @addCompiled_eq_added t (req.withThreshold theta') (hrejects ▸ hrej)
    have hsproduced := h.left.add hs (hreq.withThreshold theta) hsadd
    have htproduced := h.right.add ht (hreq.withThreshold theta') htadd
    refine .inr ⟨r, r', _, _, hsadd, htadd, ?_⟩
    cases hl : t.leaderOf (req.withThreshold theta') with
    | none =>
      have hsnone := hleader.trans hl
      rw [added, hsnone] at hsproduced ⊢
      rw [added, hl] at htproduced ⊢
      exact h.lead hopt hanchored hsproduced htproduced
    | some l =>
      obtain ⟨e, he, hbody, hsjoin⟩ := exists_of_leaderOf (hleader.trans hl)
      obtain ⟨e', he', -, htjoin⟩ := exists_of_leaderOf hl
      rw [hsjoin] at hsproduced ⊢
      rw [htjoin] at htproduced ⊢
      exact h.join he he' hbody hsproduced htproduced

variable {v : TitleView}

/-- **Twins reach the same rows**, by default and with the broad lane. -/
theorem Twin.reaches_iff (h : Twin dt s t) (hv : v.WellFormed dt) {pred : TagPredicate}
    {includeBroad : Bool} (he : s.entries[i]? = some e) (he' : t.entries[i]? = some e')
    (hrow : e'.row = e.row) (hdup : e'.dupOf = e.dupOf) (hopt : e'.cls.isOptIn = e.cls.isOptIn)
    (hverify : e.row.verify v pred = true) :
    s.Reaches v dt ⟨includeBroad, true⟩ e.dupOf ↔ t.Reaches v dt ⟨includeBroad, true⟩ e'.dupOf := by
  have hs := h.left.valid (.refl dt)
  have ht := h.right.valid (.refl dt)
  cases hopen : e.row.body.failsOpen v with
  | false =>
    rw [hs.reaches_iff hv he hverify hopen, ht.reaches_iff hv he' (hrow ▸ hverify) (hrow ▸ hopen),
      hopt]
  | true =>
    -- the leader's body is posted under quoted labels, alike in both
    obtain ⟨l, hl, -, -, hbody⟩ := hs.grouped.leader i e he
    have hanchored : l.row.body.phraseAnchored = true := by
      rw [phraseAnchored_eq_of_bodiesEqual hbody]
      exact (Bool.and_eq_true_iff.mp hopen).1
    simp only [Reaches, hdup, h.posted e.dupOf l hl hanchored]

theorem Twin.emitted_perm (h : Twin dt s t) (hv : v.WellFormed dt) (pred : TagPredicate)
    (emission : QueryPlacement → Bool) (includeBroad : Bool) :
    ((BaseSegment.memory s).emitted v dt ⟨includeBroad, true⟩ pred emission).Perm
      ((BaseSegment.memory t).emitted v dt ⟨includeBroad, true⟩ pred emission) := by
  obtain ⟨hnodup, hmem⟩ := @BaseSegment.mem_emitted_memory s (h.left.valid (.refl dt)).grouped v dt
    ⟨includeBroad, true⟩ pred emission
  obtain ⟨hnodup', hmem'⟩ := @BaseSegment.mem_emitted_memory t (h.right.valid (.refl dt)).grouped v
    dt ⟨includeBroad, true⟩ pred emission
  rw [perm_ext_iff_of_nodup hnodup hnodup']
  intro i
  rw [hmem, hmem']
  cases he : s.entries[i]? with
  | none => simp [h.entry_none he]
  | some e =>
    obtain ⟨e', he', hrow, halive, hdup, hopt, -⟩ := h.entry he
    simp only [he', Option.some.injEq, exists_eq_left', hrow, halive]
    refine and_congr_right fun _ => and_congr_right fun hverify => and_congr_right fun _ => ?_
    exact h.reaches_iff hv he he' hrow hdup hopt hverify

end Twin

def matchIds (seg : Segment) (v : TitleView) (d : Dict) (lanes : ProbeLanes) (pred : TagPredicate)
    (emission : QueryPlacement → Bool) : List UInt64 :=
  seg.logicals ((BaseSegment.memory seg).emitted v d lanes pred emission)

theorem Twin.matchIds_perm {dt : Dict} {s t : Segment} (h : Twin dt s t) {v : TitleView}
    (hv : v.WellFormed dt) (pred : TagPredicate) (emission : QueryPlacement → Bool)
    (includeBroad : Bool) :
    (s.matchIds v dt ⟨includeBroad, true⟩ pred emission).Perm
      (t.matchIds v dt ⟨includeBroad, true⟩ pred emission) := by
  have hids : s.logicals = t.logicals := by
    funext is
    unfold logicals
    congr 1
    funext i
    cases he : s.entries[i]? with
    | none => rw [h.entry_none he]
    | some e =>
      obtain ⟨e', he', hrow, -⟩ := h.entry he
      rw [he', Option.map_some, Option.map_some, hrow]
  unfold matchIds
  rw [hids]
  exact (h.emitted_perm hv pred emission includeBroad).filterMap _

end Segment

/-! ## two builds of one corpus -/

/-- The rows of an engine: sealed segments and the open one. -/
structure Corpus where
  segments : List Segment
  memtable : Segment

inductive CorpusOp where
  | add (req : AddRequest)
  | tombstone (segment localId : Nat)
  | tombstoneMemtable (localId : Nat)
  | flush

/-- Appends are of storable queries under dictionaries with the mask of
`dt`, or none yet. -/
def CorpusOp.Admissible (dt : Dict) : CorpusOp → Prop
  | add req => req.Admissible dt
  | _ => True

namespace Corpus

def new : Corpus := ⟨[], .new⟩

/-- Apply one write while the threshold is `theta`. -/
def apply (c : Corpus) (theta : Nat) : CorpusOp → Corpus
  | .add req =>
    match c.memtable.addCompiled (req.withThreshold theta) with
    | some (_, memtable) => { c with memtable }
    | none => c
  | .tombstone k i => { c with segments := c.segments.modify k fun s => s.tombstone i }
  | .tombstoneMemtable i => { c with memtable := c.memtable.tombstone i }
  | .flush =>
    if c.memtable.length = 0 then c
    else ⟨c.segments ++ [c.memtable.buildFilter], .new⟩

/-- The corpus after a sequence of writes, the `n`-th under `thetas n`. -/
def ingest (thetas : Nat → Nat) (ops : List CorpusOp) : Corpus :=
  ops.zipIdx.foldl (fun c op => c.apply (thetas op.2) op.1) new

def matchIds (c : Corpus) (v : TitleView) (d : Dict) (includeBroad : Bool) (pred : TagPredicate)
    (emission : QueryPlacement → Bool) : List UInt64 :=
  (c.segments ++ [c.memtable]).flatMap fun s =>
    s.matchIds v d ⟨includeBroad, true⟩ pred emission

structure Twin (dt : Dict) (c c' : Corpus) : Prop where
  segments : List.Forall₂ (Segment.Twin dt) c.segments c'.segments
  memtable : Segment.Twin dt c.memtable c'.memtable
  unsealed : c.memtable.filter = none
  unsealed' : c'.memtable.filter = none

theorem twin_new (dt : Dict) : Twin dt new new := ⟨.nil, Segment.twin_new dt, rfl, rfl⟩

section Twin

variable {dt : Dict} {c c' : Corpus}

theorem filter_of_addCompiled {seg seg' : Segment} {req : AddRequest} {r : AddedCompiled}
    (h : seg.addCompiled req = some (r, seg')) : seg'.filter = seg.filter := by
  rcases Segment.addCompiled_cases h with ⟨l, e, -, -, -, -, rfl⟩ | rfl <;> rfl

theorem forall₂_modify {α β : Type*} {R : α → β → Prop} {xs : List α} {ys : List β}
    (h : List.Forall₂ R xs ys) {f : α → α} {g : β → β} (hfg : ∀ x y, R x y → R (f x) (g y)) (k : Nat) :
    List.Forall₂ R (xs.modify k f) (ys.modify k g) := by
  induction h generalizing k with
  | nil => simp
  | cons hxy hrest ih =>
    cases k with
    | zero => exact .cons (hfg _ _ hxy) hrest
    | succ k => exact .cons hxy (ih k)

/-- **One write keeps twins.** -/
theorem Twin.apply (h : Twin dt c c') {op : CorpusOp} (hop : op.Admissible dt)
    (theta theta' : Nat) : Twin dt (c.apply theta op) (c'.apply theta' op) := by
  cases op with
  | add req =>
    rcases h.memtable.add h.unsealed h.unsealed' hop theta theta' with
      ⟨hs, ht⟩ | ⟨r, r', s', t', hs, ht, htwin⟩
    · simp only [Corpus.apply, hs, ht]
      exact h
    · simp only [Corpus.apply, hs, ht]
      exact ⟨h.segments, htwin, (filter_of_addCompiled hs).trans h.unsealed,
        (filter_of_addCompiled ht).trans h.unsealed'⟩
  | tombstone k i =>
    exact ⟨forall₂_modify h.segments (fun s t hst => hst.tombstone i) k, h.memtable, h.unsealed,
      h.unsealed'⟩
  | tombstoneMemtable i =>
    exact ⟨h.segments, h.memtable.tombstone i, by simpa [Corpus.apply] using h.unsealed,
      by simpa [Corpus.apply] using h.unsealed'⟩
  | flush =>
    simp only [Corpus.apply, ← h.memtable.length_eq]
    split
    · exact h
    · exact ⟨rel_append h.segments (.cons h.memtable.buildFilter .nil),
        Segment.twin_new dt, rfl, rfl⟩

/-- **Whole runs keep twins.** -/
theorem twin_ingest (thetas thetas' : Nat → Nat) (ops : List CorpusOp)
    (hops : ∀ op ∈ ops, op.Admissible dt) : Twin dt (ingest thetas ops) (ingest thetas' ops) := by
  have hrun : ∀ (steps : List (CorpusOp × Nat)) (c c' : Corpus), Twin dt c c' →
      (∀ op ∈ steps, op.1.Admissible dt) →
        Twin dt (steps.foldl (fun c op => c.apply (thetas op.2) op.1) c)
          (steps.foldl (fun c op => c.apply (thetas' op.2) op.1) c') := by
    intro steps
    induction steps with
    | nil => exact fun c c' h _ => h
    | cons op steps ih =>
      intro c c' h hsteps
      exact ih _ _ (h.apply (hsteps op mem_cons_self) _ _)
        fun op' hop' => hsteps op' (mem_cons_of_mem op hop')
  refine hrun ops.zipIdx new new (twin_new dt) fun op hop => hops op.1 ?_
  exact fst_mem_of_mem_zipIdx hop

theorem Twin.matchIds_perm (h : Twin dt c c') {v : TitleView} (hv : v.WellFormed dt)
    (includeBroad : Bool) (pred : TagPredicate) (emission : QueryPlacement → Bool) :
    (c.matchIds v dt includeBroad pred emission).Perm
      (c'.matchIds v dt includeBroad pred emission) := by
  have hall : List.Forall₂ (Segment.Twin dt) (c.segments ++ [c.memtable])
      (c'.segments ++ [c'.memtable]) := rel_append h.segments (.cons h.memtable .nil)
  unfold matchIds
  generalize c.segments ++ [c.memtable] = xs at hall ⊢
  generalize c'.segments ++ [c'.memtable] = ys at hall ⊢
  induction hall with
  | nil => exact .refl _
  | cons hst _ ih =>
    rw [flatMap_cons, flatMap_cons]
    exact (hst.matchIds_perm hv pred emission includeBroad).append ih

end Twin

/-- The query `charm` once its word was counted. -/
def countedWordRequest : AddRequest :=
  { Segment.taggedWordRequest with dict := Segment.countedWordDict }

end Corpus

end ReverseRusty
