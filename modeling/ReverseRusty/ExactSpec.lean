import ReverseRusty.Exact
import ReverseRusty.PredicateCheck

/-!
# ReverseRusty.ExactSpec

What a stored body means.  Two results carry the segment layers above:

* `verify_eq_of_bodiesEqual` — bodies the store calls equal verify alike on
  every title, so one posting may serve all of them;
* `demands_of_verify` — a verified body meets the demands of the plan it
  was posted under, unless a required quoted graph failed open.
-/

namespace ReverseRusty

open List

/-! ## what may be stored -/

/-- A query the ingest paths hand to a store: canonical, as extraction
builds it, within the column limits, and with a program a `u32` length
counts. -/
structure Extracted.Storable (ex : Extracted) : Prop where
  canonical : ex.Canonical
  wellformed : ex.Wellformed
  columns : ex.columnOverflow = none
  program : (encodePredicate ex).length < 2 ^ 32

variable {ceiling : Nat} {u : Unit}

theorem withinCeiling_eq_ok {n : Nat} :
    Extracted.withinCeiling ceiling n = .ok u ↔ n ≤ ceiling := by
  unfold Extracted.withinCeiling
  split
  · simp only [reduceCtorEq, false_iff]
    omega
  · simp only [true_iff]
    omega

theorem forM_withinCeiling {gs : List (List FeatureId)}
    (h : forM gs (fun g => Extracted.withinCeiling ceiling g.length) = .ok u) :
    ∀ g ∈ gs, g.length ≤ ceiling := by
  induction gs with
  | nil => simp
  | cons g gs ih =>
    simp only [forM_cons, bind_eq_ok, withinCeiling_eq_ok] at h
    obtain ⟨_, hg, hgs⟩ := h
    intro g' hg'
    rcases mem_cons.mp hg' with rfl | hg'
    · exact hg
    · exact ih hgs g' hg'

/-- The flat columns of a query within limits fit their `u16` counts. -/
theorem columns_lt {ex : Extracted} (h : ex.columnOverflow = none) :
    ex.required.length < 2 ^ 16 ∧ ex.forbidden.length < 2 ^ 16 ∧ ex.anyof.length < 2 ^ 16 ∧
      ∀ g ∈ ex.anyof, g.length < 2 ^ 16 := by
  unfold Extracted.columnOverflow at h
  split at h
  · contradiction
  · next n hok =>
    simp only [Extracted.countColumns, bind_eq_ok, withinCeiling_eq_ok] at hok
    obtain ⟨_, hreq, _, hforb, _, hany, _, hgroups, -⟩ := hok
    have hgroups' := forM_withinCeiling hgroups
    simp only [Extracted.u16Max] at *
    refine ⟨by omega, by omega, by omega, fun g hg => ?_⟩
    have := hgroups' g hg
    omega

section Stored

variable {ex : Extracted} (hs : ex.Storable) (d : Dict)

include hs

theorem reqTail_compile : (Body.compile d ex).reqTail = unmasked d ex.required := by
  have hlen := length_filter_le (fun f => d.maskBit f = noMaskBit) ex.required
  have hcol := (columns_lt hs.columns).1
  exact narrow_eq_self (by simp only [unmasked]; omega)

theorem groups_compile : (Body.compile d ex).groups = ex.anyof := by
  obtain ⟨-, -, hany, hgroups⟩ := columns_lt hs.columns
  rw [Body.compile, narrow_eq_self hany]
  conv_rhs => rw [← map_id ex.anyof]
  exact map_congr_left fun g hg => narrow_eq_self (hgroups g hg)

theorem predicate_compile : (Body.compile d ex).predicate = encodePredicate ex :=
  narrow_eq_self hs.program

end Stored

/-! ## what a stored row keeps -/

/-- A body whose columns fit their counts. -/
structure Body.Fits (b : Body) : Prop where
  reqTail : b.reqTail.length < 2 ^ 16
  forbTail : b.forbTail.length < 2 ^ 16
  groups : b.groups.length < 2 ^ 16
  group : ∀ g ∈ b.groups, g.length < 2 ^ 16
  predicate : b.predicate.length < 2 ^ 32

/-- A body whose columns fit their counts and whose program passes the
structural check. -/
structure Body.Sound (b : Body) : Prop extends fits : b.Fits where
  checked : validatePredicate b.predicate = .ok ()

structure Row.Sound (r : Row) : Prop where
  body : r.body.Sound
  tags : r.tags.length < 2 ^ 16

variable {α : Type*}

theorem length_narrow_lt (w : Nat) (xs : List α) : (narrow w xs).length < 2 ^ w := by
  rw [narrow, length_take]
  exact Nat.lt_of_le_of_lt (Nat.min_le_left _ _) (Nat.mod_lt _ (Nat.two_pow_pos w))

theorem fits_compile (d : Dict) (ex : Extracted) : (Body.compile d ex).Fits where
  reqTail := length_narrow_lt 16 _
  forbTail := length_narrow_lt 16 _
  groups := by
    rw [Body.compile, length_map]
    exact length_narrow_lt 16 _
  group g hg := by
    obtain ⟨g', -, rfl⟩ := mem_map.mp hg
    exact length_narrow_lt 16 _
  predicate := length_narrow_lt 32 _

theorem sound_compile {ex : Extracted} (hs : ex.Storable) (d : Dict) :
    (Body.compile d ex).Sound :=
  { fits_compile d ex with
    checked := by
      rw [predicate_compile hs]
      exact validatePredicate_encode hs.wellformed hs.canonical hs.program }

theorem Body.Sound.knownVersion {b : Body} (h : b.Sound) : KnownVersion b.predicate :=
  knownVersion_of_validatePredicate h.checked

theorem predicateHasPhrases_compile {ex : Extracted} (hs : ex.Storable) (d : Dict) :
    predicateHasPhrases (Body.compile d ex).predicate = ex.hasPhrases := by
  rw [predicate_compile hs, encodePredicate]
  split
  · next hneeds =>
    rw [(clauseless_of_needsNoProgram hneeds).2.2]
    rfl
  · cases ex.hasPhrases with
    | true => rfl
    | false => rfl

/-! ## equal bodies verify alike -/

theorem perm_of_sorted_eq [LinearOrder α] {xs ys : List α} (h : sorted xs = sorted ys) :
    xs.Perm ys :=
  calc
    xs.Perm (sorted xs) := (perm_insertionSort _ xs).symm
    _ = sorted ys := h
    (sorted ys).Perm ys := perm_insertionSort _ ys

theorem any_sorted [LinearOrder α] (p : α → Bool) (xs : List α) : (sorted xs).any p = xs.any p :=
  (perm_insertionSort _ xs).any_eq

theorem verifyPredicate_nil_or (words : List UInt32) (v : TitleView) :
    (words.isEmpty || verifyPredicate words v) = verifyPredicate words v := by
  cases words with
  | nil => rfl
  | cons w ws => rfl

/-- **Equal bodies are interchangeable** for verification. -/
theorem verify_eq_of_bodiesEqual {a b : Body} (ha : KnownVersion a.predicate)
    (hb : KnownVersion b.predicate) (h : a.bodiesEqual b = true) (v : TitleView) :
    a.verify v = b.verify v := by
  simp only [Body.bodiesEqual, Bool.and_eq_true, beq_iff_eq] at h
  obtain ⟨⟨⟨⟨⟨⟨⟨⟨hreqMask, hforbMask⟩, -⟩, -⟩, -⟩, hreq⟩, hforb⟩, hgroups⟩, hprog⟩ := h
  have hpred : verifyPredicate a.predicate v = verifyPredicate b.predicate v := by
    rw [verifyPredicate, verifyPredicate, verifyPredicate?_eq_boolean ha,
      verifyPredicate?_eq_boolean hb, hprog]
  have hany : a.groups.all (fun g => g.any (binarySearch v.pos)) =
      b.groups.all (fun g => g.any (binarySearch v.pos)) := by
    have hperm := (perm_of_sorted_eq hgroups).all_eq (f := fun g => g.any (binarySearch v.pos))
    simpa only [all_map, Function.comp_def, any_sorted] using hperm
  rw [Body.verify, Body.verify, hreqMask, hforbMask, (perm_of_sorted_eq hreq).all_eq,
    (perm_of_sorted_eq hforb).any_eq, hany, verifyPredicate_nil_or, verifyPredicate_nil_or, hpred]

/-! ## a verified body meets its plan's demands -/

def Body.requiredGraphs (b : Body) : List PhraseGraph :=
  (requiredGraphs? (predicateBooleanProgram b.predicate)).getD []

/-- Whether a title can decide a quoted graph: it has both graphs and a
free scratch cell, and the walk ends within its budgets. -/
def TitleView.decides (v : TitleView) (g : PhraseGraph) : Bool :=
  match v.posGraph, v.negGraph, v.phraseScratch with
  | some posGraph, some _, true => walk g posGraph ≠ none
  | _, _, _ => false

def atMostOneBit (m : MaskWord) : Bool := m &&& (m - 1) == 0

/-- Whether a stored body was posted under quoted labels: it has quoted
graphs and no flat required feature but at most one hot one. -/
def Body.phraseAnchored (b : Body) : Bool :=
  b.requiredGraphs ≠ [] && b.reqTail.isEmpty && atMostOneBit b.reqMask

/-- A body posted under quoted labels *fails open* on a title that cannot
decide all of its required graphs: it then verifies without being spelled. -/
def Body.failsOpen (b : Body) (v : TitleView) : Bool :=
  b.phraseAnchored && b.requiredGraphs.any fun g => !v.decides g

section BodiesEqual

variable {a b : Body} (h : a.bodiesEqual b = true)

include h

theorem requiredGraphs_eq_of_bodiesEqual : a.requiredGraphs = b.requiredGraphs := by
  rw [Body.bodiesEqual, Bool.and_eq_true, beq_iff_eq] at h
  rw [Body.requiredGraphs, Body.requiredGraphs, h.2]

theorem phraseAnchored_eq_of_bodiesEqual : a.phraseAnchored = b.phraseAnchored := by
  have hgraphs := requiredGraphs_eq_of_bodiesEqual h
  simp only [Body.bodiesEqual, Bool.and_eq_true, beq_iff_eq] at h
  obtain ⟨⟨⟨⟨⟨⟨⟨⟨hreqMask, -⟩, hlen⟩, -⟩, -⟩, -⟩, -⟩, -⟩, -⟩ := h
  have hempty : a.reqTail.isEmpty = b.reqTail.isEmpty := by
    rw [Bool.eq_iff_iff, List.isEmpty_iff, List.isEmpty_iff, ← length_eq_zero_iff,
      ← length_eq_zero_iff, hlen]
  rw [Body.phraseAnchored, Body.phraseAnchored, hgraphs, hreqMask, hempty]

theorem failsOpen_eq_of_bodiesEqual (v : TitleView) : a.failsOpen v = b.failsOpen v := by
  rw [Body.failsOpen, Body.failsOpen, phraseAnchored_eq_of_bodiesEqual h,
    requiredGraphs_eq_of_bodiesEqual h]

end BodiesEqual

section Demands

variable {ex : Extracted} {d dt : Dict} {v : TitleView}

theorem requiredGraphs_compile (hs : ex.Storable) :
    (Body.compile d ex).requiredGraphs = ex.requiredPhrases := by
  rw [Body.requiredGraphs, predicate_compile hs, requiredGraphs?_encode hs.program,
    Option.getD_some]

theorem atMostOneBit_twoPow : ∀ k < 64, atMostOneBit (BitVec.twoPow 64 k) = true := by decide

/-- A plan on quoted labels stores no flat feature but at most one mask bit. -/
theorem phraseAnchored_compile (hs : ex.Storable) (huse : usesRequiredPhraseProxy ex d = true) :
    (Body.compile d ex).phraseAnchored = true := by
  rw [Body.phraseAnchored, requiredGraphs_compile hs, reqTail_compile hs]
  simp only [usesRequiredPhraseProxy, Bool.and_eq_true, decide_eq_true_eq] at huse
  obtain ⟨hphrases, hreq⟩ := huse
  split at hreq
  · next hnil => simp [hphrases, unmasked, Body.compile, titleMask, hnil, atMostOneBit]
  · next r hone =>
    have hbit := Dict.isHot_iff.mp hreq
    have hne : d.maskBit r ≠ noMaskBit := by
      simp only [noMaskBit]
      omega
    simpa [hphrases, unmasked, Body.compile, titleMask, hone, hne] using
      atMostOneBit_twoPow _ hbit
  · contradiction

variable {f : FeatureId}

theorem mem_pos_of_posMask (hv : v.WellFormed dt) (hhot : dt.isHot f = true)
    (hbit : v.posMask.getLsbD (dt.maskBit f) = true) : f ∈ v.pos := by
  rw [hv.posMask, getLsbD_titleMask (Dict.isHot_iff.mp hhot)] at hbit
  obtain ⟨f', hf', hbit'⟩ := hbit
  exact Dict.eq_of_maskBit_eq hhot hbit'.symm ▸ hf'

theorem mem_pos_of_reqMask (hd : d.MaskFrozen dt) (hv : v.WellFormed dt) (hf : f ∈ ex.required)
    (hne : d.maskBit f ≠ noMaskBit)
    (hmask : titleMask d ex.required &&& v.posMask = titleMask d ex.required) : f ∈ v.pos := by
  have hhot : d.isHot f = true := by simpa [Dict.isHot] using hne
  have hlt := Dict.isHot_iff.mp hhot
  have hbit : (titleMask d ex.required).getLsbD (d.maskBit f) = true :=
    (getLsbD_titleMask hlt).mpr ⟨f, hf, rfl⟩
  rw [← hmask, BitVec.getLsbD_and, Bool.and_eq_true, hd.maskBit_eq hhot] at hbit
  exact mem_pos_of_posMask hv (hd.isHot hhot) hbit.2

theorem spells_of_phrasesHold (h : ex.phrasesHold v = true) {g : PhraseGraph}
    (hg : g ∈ ex.requiredPhrases) (hdec : v.decides g = true) : v.Spells g := by
  unfold Extracted.phrasesHold at h
  unfold TitleView.decides at hdec
  split at hdec
  · next posGraph negGraph hpos hneg hscratch =>
    simp only [hpos, hneg, hscratch, Bool.and_eq_true, Bool.not_eq_true', any_eq_false,
      decide_eq_true_eq] at h
    have hne : walk g posGraph ≠ none := of_decide_eq_true hdec
    have hnot : walk g posGraph ≠ some false := h.1 g hg
    have hwalk : walk g posGraph = some true := by
      cases hw : walk g posGraph with
      | none => exact absurd hw hne
      | some b =>
        cases b with
        | true => rfl
        | false => exact absurd hw hnot
    exact ⟨posGraph, hpos, occurs_of_walk hwalk⟩
  · contradiction

/-- **A verified body meets the demands of its plan**, unless it fails
open on the title. -/
theorem demands_of_verify (hs : ex.Storable) (hd : d.MaskFrozen dt) (hv : v.WellFormed dt)
    (h : (Body.compile d ex).verify v = true) (hopen : (Body.compile d ex).failsOpen v = false) :
    ex.Demands d v := by
  rw [Body.verify, reqTail_compile hs, groups_compile hs, predicate_compile hs,
    verifyPredicate_nil_or, verifyPredicate, verifyPredicate?_encode hs.program] at h
  simp only [Bool.and_eq_true, beq_iff_eq, all_eq_true, Option.getD_some] at h
  obtain ⟨⟨⟨⟨⟨hmask, -⟩, hreq⟩, -⟩, hany⟩, hprog⟩ := h
  refine ⟨fun f hf => ?_, fun group hgroup => ?_, fun huse g hg => ?_⟩
  · by_cases hbit : d.maskBit f = noMaskBit
    · exact mem_of_binarySearch (hreq f (mem_filter.mpr ⟨hf, by simpa using hbit⟩))
    · exact mem_pos_of_reqMask hd hv hf hbit hmask
  · obtain ⟨f, hf, hfound⟩ := any_eq_true.mp (hany group hgroup)
    exact ⟨f, hf, mem_of_binarySearch hfound⟩
  · rw [Body.failsOpen, phraseAnchored_compile hs huse, requiredGraphs_compile hs,
      Bool.true_and, any_eq_false] at hopen
    simp only [Extracted.compoundHolds, Bool.and_eq_true] at hprog
    exact spells_of_phrasesHold hprog.2 hg (by simpa using hopen g hg)

end Demands

end ReverseRusty
