import ReverseRusty.BaseBatch
import ReverseRusty.BatchTitles
import ReverseRusty.ExactRow
import ReverseRusty.Posted
import ReverseRusty.SigKeySingle

/-!
# ReverseRusty.PureAnchor

Rows the columnar kernel accepts without verifying them.  The test of a
masked row does not name its anchor, so accepting it rests on how rows are
posted: a row with a masked required feature is in the broad index under
that feature alone (`Attached.anchorPosted`), and keys of single features
tell them apart.
-/

namespace ReverseRusty

open List

/-! ## what a row is posted under -/

/-- In the broad index, a row with a masked required feature is posted under
that feature alone. -/
def AnchorPosted (d : Dict) (lane : ProbeLane) (key : UInt64) (b : Body) : Prop :=
  lane = .broad → ∀ k < 64, b.reqMask.getLsbD k = true →
    ∃ g, d.isHot g = true ∧ d.maskBit g = k ∧ key = sigKey [g]

section Planned

variable {ex : Extracted} {d : Dict} {theta : Nat} {key : UInt64}

theorem required_of_mem_broadSigs (h : key ∈ (buildSignatures ex d theta).broadSigs) :
    ex.required = [] ∨ ∃ r, ex.required = [r] ∧ d.isHot r = true ∧ key = sigKey [r] := by
  have hcase := anchorPlan_planCase ex d theta
  rw [buildSignatures] at h
  generalize anchorPlan ex d theta = plan at h hcase
  cases hcase with
  | universal hreq _ | anyBroad _ hreq => exact .inl hreq
  | broadOne h1 hhot => exact .inr ⟨_, h1, hhot, by simpa using h⟩
  | phrase _ _ | anyMain _ _ | anyHot _ _ | pair _ _ _ _ | hotOne _ _ | mainOne _ _ => simp at h

theorem mem_broadSigs_of_mem_plan {req : AddRequest} (h : key ∈ req.plan.sigs .broad) :
    key ∈ (buildSignatures req.ex req.dict req.knobs.hotAnchorThreshold).broadSigs := by
  unfold AddRequest.plan SigPlan.pinVisible at h
  simp only at h
  split at h
  · split at h
    · contradiction
    · exact h
  · exact h

theorem postingRule_anchorPosted : Segment.PostingRule AnchorPosted where
  planned d req hreq lane key hkey := by
    rintro rfl k hk hset
    obtain ⟨f, hf, hbit⟩ := (getLsbD_titleMask hk).mp hset
    rcases required_of_mem_broadSigs (mem_broadSigs_of_mem_plan hkey) with hnil | ⟨r, hr, hhot, rfl⟩
    · simp [hnil] at hf
    · obtain rfl : f = r := by simpa [hr] using hf
      exact ⟨f, hreq.frozen.isHot hhot, hreq.frozen.maskBit_eq hhot ▸ hbit, rfl⟩
  replanned d theta b hknown lane key hkey := by
    rintro rfl k hk hset
    obtain ⟨g, hg, hbit⟩ := hknown k hk hset
    obtain ⟨f, hf⟩ := Option.ne_none_iff_exists'.mp (hbit ▸ Dict.maskInverse_ne_none hg)
    have hmem : f ∈ (b.anchoringInputs d).required := mem_append_left _
      (mem_filterMap.mpr ⟨k, mem_filter.mpr ⟨mem_range.mpr hk, hset⟩, hf⟩)
    rcases required_of_mem_broadSigs hkey with hnil | ⟨r, hr, hhot, rfl⟩
    · simp [hnil] at hmem
    · obtain rfl : f = r := by simpa [hr] using hmem
      exact ⟨f, hhot, (Dict.maskBit_of_maskInverse hf).1, rfl⟩
  shared d lane key a b hequal h hlane k hk hset := by
    simp only [Body.bodiesEqual, Bool.and_eq_true, beq_iff_eq] at hequal
    exact h hlane k hk (hequal.1.1.1.1.1.1.1.1 ▸ hset)
  grow d d' lane key b hd h hlane k hk hset := by
    obtain ⟨g, hhot, hbit, hkey⟩ := h hlane k hk hset
    exact ⟨g, hd.isHot hhot, hd.maskBit_eq hhot ▸ hbit, hkey⟩

end Planned

/-- **Rows of a base segment are posted under their anchors.** -/
theorem BaseSegment.Attached.anchorPosted {d : Dict} {b : BaseSegment} (h : b.Attached d)
    {lane : Lane} {key : UInt64} (hkey : key ≠ 0) {i : Nat} (hi : i ∈ b.rowView.postings lane key) :
    AnchorPosted d lane.index key (b.rowView.row i).body := by
  obtain ⟨seg, hseg, rfl | ⟨ha, rfl⟩⟩ := h.backing
  · obtain ⟨e, he, hposted⟩ := hseg.postedAs postingRule_anchorPosted lane.index key i hi
    exact (Segment.row_rowView he).symm ▸ hposted
  · have hvalid := hseg.valid (.refl d)
    have hcarried : i ∈ seg.carried lane.index key :=
      Segment.probeIds_mapped hvalid.grouped hvalid.kept ha hkey ▸ hi
    obtain ⟨e, he, hposted⟩ := (hseg.postedAs postingRule_anchorPosted).carried
      (postingRule_anchorPosted.shared d) hvalid.grouped hcarried
    show AnchorPosted d lane.index key (seg.mapped.row i).body
    rwa [Segment.row_mapped he hvalid.kept ha]

/-! ## rows that ask for their anchor and nothing else -/

variable {m : MaskWord}

theorem exists_bit_of_isPowerOfTwo (h : isPowerOfTwo m = true) :
    ∃ k < 64, ∀ j < 64, m.getLsbD j = true ↔ j = k := by
  rw [isPowerOfTwo, decide_eq_true_eq, countP_eq_length_filter, length_eq_one_iff] at h
  obtain ⟨k, hk⟩ := h
  have hmem : ∀ j, j < 64 ∧ m.getLsbD j = true ↔ j = k := fun j => by
    rw [← mem_range, ← mem_filter, hk, mem_singleton]
  exact ⟨k, ((hmem k).mpr rfl).1, fun j hj => (and_iff_right hj).symm.trans (hmem j)⟩

section Verify

variable {r : Body} {v : TitleView} {d dt : Dict}

theorem verify_of_isPureAnchor (hv : v.WellFormed dt) (h : r.isPureAnchor = true) {g : FeatureId}
    (hhot : dt.isHot g = true) (hset : r.reqMask.getLsbD (dt.maskBit g) = true) :
    r.verify v = decide (g ∈ v.pos) := by
  simp only [Body.isPureAnchor, Bool.and_eq_true, beq_iff_eq, List.isEmpty_iff] at h
  obtain ⟨⟨⟨⟨⟨htail, hforb⟩, hforbTail⟩, hgroups⟩, hprogram⟩, hpower⟩ := h
  obtain ⟨k, hk, hbits⟩ := exists_bit_of_isPowerOfTwo hpower
  have hk' := (hbits _ (Dict.isHot_iff.mp hhot)).mp hset
  have hgate : r.reqMask &&& v.posMask = r.reqMask ↔ g ∈ v.pos := by
    rw [← getLsbD_titleMask_iff hhot, ← hv.posMask]
    constructor
    · intro heq
      rw [← heq, BitVec.getLsbD_and, Bool.and_eq_true] at hset
      exact hset.2
    · intro hpos
      refine BitVec.eq_of_getLsbD_eq fun j hj => ?_
      rw [BitVec.getLsbD_and, Bool.and_eq_left_iff_imp]
      intro hj'
      rw [(hbits j hj).mp hj', ← hk']
      exact hpos
  rw [Bool.eq_iff_iff, decide_eq_true_eq, ← hgate]
  simp [Body.verify, htail, hforb, hforbTail, hgroups, hprogram]

variable {f : FeatureId}

/-- A row of one unmasked feature matches the titles with it. -/
theorem verify_of_pureTailAnchor (hsorted : v.pos.Pairwise (· ≤ ·)) (h : r.pureTailAnchor f = true) :
    r.verify v = decide (f ∈ v.pos) := by
  simp only [Body.pureTailAnchor, Bool.and_eq_true, beq_iff_eq, List.isEmpty_iff] at h
  obtain ⟨⟨⟨⟨⟨hmask, htail⟩, hforb⟩, hforbTail⟩, hgroups⟩, hprogram⟩ := h
  rw [Bool.eq_iff_iff, decide_eq_true_eq, ← binarySearch_iff_mem hsorted]
  simp [Body.verify, hmask, htail, hforb, hforbTail, hgroups, hprogram]

/-- **A row accepted on being reached matches the titles with the feature
that reached it.** -/
theorem verify_of_vacuousAccept {lane : Lane} (hd : d.MaskFrozen dt)
    (hposted : AnchorPosted d lane.index (sigKey [f]) r) (h : r.vacuousAccept lane f = true)
    (hv : v.WellFormed dt) (hsorted : v.pos.Pairwise (· ≤ ·)) :
    r.verify v = decide (f ∈ v.pos) := by
  cases lane with
  | broad =>
    have hpure : r.isPureAnchor = true := h
    have hpower : isPowerOfTwo r.reqMask = true := by
      simp only [Body.isPureAnchor, Bool.and_eq_true] at hpure
      exact hpure.2
    obtain ⟨k, hk, hbits⟩ := exists_bit_of_isPowerOfTwo hpower
    have hset := (hbits k hk).mpr rfl
    obtain ⟨g, hhot, rfl, hkey⟩ := hposted rfl k hk hset
    obtain rfl := sigKey_singleton_injective hkey
    exact verify_of_isPureAnchor hv hpure (hd.isHot hhot) (hd.maskBit_eq hhot ▸ hset)
  | hot => exact verify_of_pureTailAnchor hsorted h

end Verify

/-! ## the kernel's shortcuts -/

theorem wellFormed_single (d : Dict) (feats : List FeatureId) :
    (TitleView.single (titleMask d feats) feats).WellFormed d where
  pos _ hf := hf
  labels _ hg := by contradiction
  posMask := rfl
  negMask := rfl

theorem getLsbD_maskUnion {w : Nat} {b : TitleBatch w} (hm : m ∈ b.masks) {k : Nat}
    (hk : m.getLsbD k = true) : b.maskUnion.getLsbD k = true := by
  have hfold : ∀ (ms : List MaskWord) (acc : MaskWord), acc.getLsbD k = true ∨ m ∈ ms →
      (ms.foldl (· ||| ·) acc).getLsbD k = true := by
    intro ms
    induction ms with
    | nil => exact fun acc h => h.resolve_right not_mem_nil
    | cons m' ms ih =>
      intro acc h
      refine ih _ ?_
      rw [BitVec.getLsbD_or, Bool.or_eq_true]
      rcases h with hacc | hmem
      · exact .inl (.inl hacc)
      · rcases mem_cons.mp hmem with rfl | hmem
        · exact .inl (.inr hk)
        · exact .inr hmem
  exact hfold b.masks 0 (.inr hm)

theorem canMatchBatch_of_verify {r : Body} {d : Dict} {titles : List (List FeatureId)} {t : Nat}
    {feats : List FeatureId} (ht : titles[t]? = some feats)
    (h : r.verify (.single (titleMask d feats) feats) = true) :
    r.canMatchBatch (.ofTitles d titles) = true := by
  have hlookup : ∀ f, binarySearch feats f = true →
      ((TitleBatch.ofTitles d titles).lookup f).isSome = true := by
    intro f hf
    have hhas := (TitleBatch.has_ofTitles (d := d) ht f).mpr (mem_of_binarySearch hf)
    cases hl : (TitleBatch.ofTitles d titles).lookup f with
    | none => simp [TitleBatch.has, hl] at hhas
    | some bits => rfl
  have hmask : titleMask d feats ∈ (TitleBatch.ofTitles d titles).masks := by
    rw [TitleBatch.masks_ofTitles]
    exact mem_map_of_mem (mem_of_getElem? ht)
  simp only [Body.verify, TitleView.single, Bool.and_eq_true, beq_iff_eq, all_eq_true,
    any_eq_true] at h
  obtain ⟨⟨⟨⟨⟨hreq, -⟩, htail⟩, -⟩, hgroups⟩, -⟩ := h
  simp only [Body.canMatchBatch, Bool.and_eq_true, beq_iff_eq, all_eq_true, any_eq_true]
  refine ⟨⟨BitVec.eq_of_getLsbD_eq fun k _ => ?_, fun f hf => hlookup f (htail f hf)⟩,
    fun g hg => ?_⟩
  · rw [BitVec.getLsbD_and, Bool.and_eq_left_iff_imp]
    intro hk
    rw [← hreq, BitVec.getLsbD_and, Bool.and_eq_true] at hk
    exact getLsbD_maskUnion hmask hk.2
  · obtain ⟨f, hf, hfound⟩ := hgroups g hg
    exact ⟨f, hf, hlookup f hfound⟩

section Batch

variable {d dt : Dict} {b : BaseSegment} (h : b.Attached d) {titles : List (List FeatureId)}
  (hsorted : ∀ feats ∈ titles, feats.Pairwise (· ≤ ·))

include hsorted

theorem getLsbD_of_evalBatch {r : Body} {u : Unit} (hr : validatePredicate r.predicate = .ok u)
    (hlen : r.predicate.length < 2 ^ 32) (hquoted : predicateHasPhrases r.predicate = false)
    {tags : List TagId} {bits : BitVec titles.length}
    (heval : evalBatch (.ofTitles dt titles) r tags .empty = .ok bits) {t : Nat}
    {feats : List FeatureId} (ht : titles[t]? = some feats) :
    bits.getLsbD t = r.verify (.single (titleMask dt feats) feats) := by
  obtain ⟨bits', heval', hbits⟩ := exists_evalBatch (b := .ofTitles dt titles) hr hlen hquoted tags
    .empty
  rw [heval] at heval'
  cases heval'
  have hlt := (List.getElem?_eq_some_iff.mp ht).1
  have hmask : (TitleBatch.ofTitles dt titles).masks[t]? = some (titleMask dt feats) := by
    rw [TitleBatch.masks_ofTitles, getElem?_map, ht, Option.map_some]
  rw [hbits t hlt _ feats hmask fun f => ?_, TagPredicate.matches_of_isEmpty rfl, Bool.and_true]
  rw [Bool.eq_iff_iff, TitleBatch.has_ofTitles ht,
    binarySearch_iff_mem (hsorted feats (mem_of_getElem? ht))]

include h

/-- **The kernel's shortcuts agree with verification.** -/
theorem BaseSegment.Attached.shortcuts (hd : d.MaskFrozen dt) (hplain : b.rowView.Plain)
    {data : List UInt8} (hdata : b.Backs data) {eval : Nat → BitVec titles.length} (lane : Lane)
    (opts : KernelOptions)
    (heval : ∀ i < b.rowView.size, b.rowView.live i = true →
      evalBatch (.ofTitles dt titles) (b.rowView.row i).body (b.rowView.row i).tags .empty =
        .ok (eval i)) :
    BroadBackend.Reads.Shortcuts b.rowView lane (.ofTitles dt titles) opts eval := by
  have hB : (b.backend data : BroadBackend titles.length).Reads b.rowView := h.reads_backend hdata
  have hbit : ∀ i < b.rowView.size, b.rowView.live i = true → ∀ t feats, titles[t]? = some feats →
      (eval i).getLsbD t = (b.rowView.row i).body.verify (.single (titleMask dt feats) feats) :=
    fun i hi hlive t feats ht => getLsbD_of_evalBatch hsorted (hplain.checked i hi hlive)
      (hplain.fits i hi hlive) (hplain.quoted i hi hlive) (heval i hi hlive) ht
  refine ⟨fun _ row hrow i hi hvac hlive t ht => ?_, fun i hi hlive hno t ht => ?_⟩
  · have hget := getElem?_eq_getElem ht
    have hposted := h.anchorPosted (sigKey_ne_zero _) hi
    have hfeats := hsorted _ (mem_of_getElem? hget)
    have hhas : (TitleBatch.ofTitles dt titles).has t row.1 = row.2.getLsbD t := by
      rw [TitleBatch.has, TitleBatch.lookup_of_mem_rows (TitleBatch.ofTitles_spec dt titles).2.1 hrow,
        Option.getD_some]
    rw [hbit i (hB.posted lane _ (sigKey_ne_zero _) i hi) hlive t _ hget, verify_of_vacuousAccept hd hposted
      hvac (wellFormed_single dt _) hfeats, ← hhas, Bool.eq_iff_iff, TitleBatch.has_ofTitles hget]
    exact (decide_eq_true_iff).symm
  · have hget := getElem?_eq_getElem ht
    rw [hbit i hi hlive t _ hget, Bool.eq_false_iff]
    intro hverify
    rw [canMatchBatch_of_verify hget hverify] at hno
    contradiction

end Batch

/-- **Accepting a row by its anchor is exact.**  A row that the test passes
under the feature that reached it, and every row of its group, matches
exactly the titles with that feature; and on a chunk of titles the kernel
emits the same with and without the test. -/
theorem vacuousAccept_exact (d dt : Dict) (b : BaseSegment) (data : List UInt8)
    (hb : b.Attached d) (hdata : b.Backs data) (hd : d.MaskFrozen dt) (lane : Lane) :
    (∀ f, ∀ i ∈ b.rowView.postings lane (sigKey [f]),
      (b.rowView.row i).body.vacuousAccept lane f = true → ∀ m ∈ b.rowView.group i,
        ∀ v : TitleView, v.WellFormed dt → v.pos.Pairwise (· ≤ ·) → ∀ pred : TagPredicate,
          (b.rowView.row m).verify v pred =
            (decide (f ∈ v.pos) && pred.matches (b.rowView.row m).tags)) ∧
    (b.hasPhrasePredicates = false → ∀ titles : List (List FeatureId),
      (∀ feats ∈ titles, feats.Pairwise (· ≤ ·)) →
      ∀ (prefilter : Bool) (pred : TagPredicate) (policy : Nat → QueryPlacement → Bool)
        (epoch : UInt32) (seen : List UInt32), b.length ≤ seen.length →
        (∀ i < b.length, seen[i]? ≠ some epoch) →
        ∃ accepted verified,
          (b.backend data).evalOneSegment lane (.ofTitles dt titles) ⟨true, prefilter⟩ pred policy
            epoch seen = .ok accepted ∧
          (b.backend data).evalOneSegment lane (.ofTitles dt titles) ⟨false, prefilter⟩ pred policy
            epoch seen = .ok verified ∧
          ∀ x, x ∈ accepted ↔ x ∈ verified) := by
  refine ⟨fun f i hi hvac m hm v hv hsorted pred => ?_,
    fun hphrases titles hsorted prefilter pred policy epoch seen hlen hfresh => ?_⟩
  · rw [Row.verify_eq, hb.verify_group hm,
      verify_of_vacuousAccept hd (hb.anchorPosted (sigKey_ne_zero _) hi) hvac hv hsorted]
  · have hplain := hb.plain_rowView hphrases
    rw [← BaseSegment.size_rowView] at hlen hfresh
    have hB : (b.backend data : BroadBackend titles.length).Reads b.rowView :=
      hb.reads_backend hdata
    obtain ⟨eval, -, -, heval, -⟩ := hB.exists_of_plain hplain lane (.ofTitles dt titles)
      ⟨true, prefilter⟩ pred policy epoch hlen
    have hrun := fun opts => hB.exists_evalOneSegment lane (.ofTitles dt titles) opts pred policy
      eval hplain.quoted heval epoch hlen
    obtain ⟨accepted, haccepted, hmem⟩ := hrun ⟨true, prefilter⟩
    obtain ⟨verified, hverified, hmem'⟩ := hrun ⟨false, prefilter⟩
    refine ⟨accepted, verified, haccepted, hverified, fun x => ?_⟩
    rw [hmem (hb.shortcuts hsorted hd hplain hdata lane _ heval) hfresh,
      hmem' (hb.shortcuts hsorted hd hplain hdata lane _ heval) hfresh]

/-! ### a masked word -/

/-- The query `charm`, where `charm` has a mask bit. -/
def maskedWordRequest : AddRequest :=
  { Segment.taggedWordRequest with dict := hotZeroDict }

/-- The segment holding only that query. -/
def maskedWordSegment : Segment :=
  Segment.new.lead maskedWordRequest.row maskedWordRequest.plan false false

theorem maskedWordSegment_produced : Segment.Produced hotZeroDict maskedWordSegment := by
  have haccept : rejectsClassD maskedWordRequest.plan.cls maskedWordRequest.ex
      maskedWordRequest.knobs.acceptClassD = false := by decide
  have hreq : maskedWordRequest.Admissible hotZeroDict :=
    ⟨Segment.taggedWordRequest_admissible.storable, .refl _⟩
  refine .add (.new _) rfl hreq
    (r := ⟨0, maskedWordRequest.plan.cls, maskedWordRequest.plan.wouldBeHot,
      maskedWordRequest.row.body.signature, false⟩) ?_
  unfold Segment.addCompiled
  simp only [haccept, Bool.false_eq_true, if_false]
  rfl

/-- The word is accepted by its anchor, and matches the title `charm`. -/
theorem vacuousAccept_exact_maskedWord :
    (maskedWordSegment.rowView.row 0).body.vacuousAccept .broad 0 = true ∧
    (maskedWordSegment.rowView.row 0).verify (.single (titleMask hotZeroDict [0]) [0]) .empty =
      true := by
  have hvac : (maskedWordSegment.rowView.row 0).body.vacuousAccept .broad 0 = true := by
    decide +kernel
  have hposted : 0 ∈ maskedWordSegment.rowView.postings .broad (sigKey [0]) := by decide +kernel
  refine ⟨hvac, ((vacuousAccept_exact hotZeroDict hotZeroDict (.memory maskedWordSegment) []
    (.memory maskedWordSegment_produced) trivial (.refl _) .broad).1 0 0 hposted hvac 0
    mem_cons_self _ (wellFormed_single _ _) (pairwise_singleton _ _) .empty).trans ?_⟩
  decide

end ReverseRusty
