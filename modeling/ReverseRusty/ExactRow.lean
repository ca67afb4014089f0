import ReverseRusty.ExactStore
import ReverseRusty.PhraseWalk

/-!
# ReverseRusty.ExactRow

What a stored row answers (`ExactStore::push`, `ExactStore::verify`,
`verify_slices`), against the query it was compiled from
(`Extracted::matches_positioned`).

The row splits a query's features between a mask word, sorted tails, any-of
groups and a program; `flat_compile` puts the first three together again, and
`verifyPredicate?_encode` the last.  The two meet in `matchesPositioned_eq`.
-/

namespace ReverseRusty

open List

/-! ## titles -/

/-- An analyzed title: its two sorted feature views and their token graphs. -/
structure Title where
  probe : List FeatureId
  pos : List FeatureId
  neg : List FeatureId
  posGraph : PositionGraph
  negGraph : PositionGraph
  pos_sorted : pos.Pairwise (· < ·)
  neg_sorted : neg.Pairwise (· < ·)

def Title.view (t : Title) (d : Dict) : TitleView :=
  .dualPositioned t.probe (titleMask d t.pos) t.pos t.posGraph (titleMask d t.neg) t.neg t.negGraph

def Title.flatView (t : Title) (d : Dict) : TitleView :=
  .dual (titleMask d t.pos) t.pos (titleMask d t.neg) t.neg

/-! ## the mask and the tails -/

section Gates

variable {d : Dict} {feats title : List FeatureId}

variable {f : FeatureId}

theorem getLsbD_titleMask_iff (hhot : d.isHot f = true) :
    (titleMask d title).getLsbD (d.maskBit f) = true ↔ f ∈ title := by
  rw [getLsbD_titleMask (Dict.isHot_iff.mp hhot)]
  constructor
  · rintro ⟨f', hf', hbit⟩
    exact Dict.eq_of_maskBit_eq hhot hbit.symm ▸ hf'
  · exact fun hf => ⟨f, hf, rfl⟩

theorem reqGate_iff : titleMask d feats &&& titleMask d title = titleMask d feats ↔
    ∀ f ∈ feats, d.isHot f = true → f ∈ title := by
  constructor
  · intro h f hf hhot
    have hbit : (titleMask d feats).getLsbD (d.maskBit f) = true :=
      (getLsbD_titleMask_iff hhot).mpr hf
    rw [← h, BitVec.getLsbD_and, Bool.and_eq_true] at hbit
    exact (getLsbD_titleMask_iff hhot).mp hbit.2
  · intro h
    refine BitVec.eq_of_getLsbD_eq fun b hb => ?_
    rw [BitVec.getLsbD_and, Bool.and_eq_left_iff_imp]
    intro hbit
    obtain ⟨f, hf, rfl⟩ := (getLsbD_titleMask hb).mp hbit
    have hhot := Dict.isHot_iff.mpr hb
    exact (getLsbD_titleMask_iff hhot).mpr (h f hf hhot)

theorem forbGate_iff : titleMask d feats &&& titleMask d title = 0 ↔
    ∀ f ∈ feats, d.isHot f = true → f ∉ title := by
  constructor
  · intro h f hf hhot htitle
    have hbit : (titleMask d feats &&& titleMask d title).getLsbD (d.maskBit f) = true := by
      rw [BitVec.getLsbD_and, (getLsbD_titleMask_iff hhot).mpr hf,
        (getLsbD_titleMask_iff hhot).mpr htitle]
      rfl
    rw [h] at hbit
    simp at hbit
  · intro h
    refine BitVec.eq_of_getLsbD_eq fun b hb => ?_
    rw [BitVec.getLsbD_and, BitVec.ofNat_eq_ofNat, BitVec.getLsbD_zero, Bool.and_eq_false_imp]
    intro hbit
    obtain ⟨f, hf, rfl⟩ := (getLsbD_titleMask hb).mp hbit
    have hhot := Dict.isHot_iff.mpr hb
    rw [← Bool.not_eq_true, getLsbD_titleMask_iff hhot]
    exact h f hf hhot

theorem mem_unmasked : f ∈ unmasked d feats ↔ f ∈ feats ∧ d.isHot f = false := by
  simp [unmasked, Dict.isHot]

theorem forall_split {P : FeatureId → Prop} :
    ((∀ f ∈ feats, d.isHot f = true → P f) ∧ ∀ f, f ∈ feats ∧ d.isHot f = false → P f) ↔
      ∀ f ∈ feats, P f := by
  constructor
  · rintro ⟨hmask, htail⟩ f hf
    cases hhot : d.isHot f with
    | true => exact hmask f hf hhot
    | false => exact htail f ⟨hf, hhot⟩
  · exact fun h => ⟨fun f hf _ => h f hf, fun f hf => h f hf.1⟩

variable (htitle : title.Pairwise (· < ·))

include htitle

theorem binarySearch_title : binarySearch title f = true ↔ f ∈ title :=
  binarySearch_iff_mem (htitle.imp le_of_lt)

theorem required_split :
    ((titleMask d feats &&& titleMask d title == titleMask d feats) &&
      (unmasked d feats).all (binarySearch title)) = feats.all (binarySearch title) := by
  rw [Bool.eq_iff_iff]
  simp only [Bool.and_eq_true, beq_iff_eq, reqGate_iff, all_eq_true, mem_unmasked,
    binarySearch_title htitle]
  exact forall_split

theorem forbidden_split :
    ((titleMask d feats &&& titleMask d title == 0) &&
      !(unmasked d feats).any (binarySearch title)) = !feats.any (binarySearch title) := by
  rw [Bool.eq_iff_iff]
  simp only [Bool.and_eq_true, beq_iff_eq, forbGate_iff, Bool.not_eq_true', any_eq_false,
    mem_unmasked, binarySearch_title htitle]
  exact forall_split

end Gates

/-- The clauses of a query outside its program. -/
def Extracted.flatHolds (ex : Extracted) (pos neg : List FeatureId) : Bool :=
  ex.required.all (binarySearch pos) && !ex.forbidden.any (binarySearch neg)
    && ex.anyof.all fun g => g.any (binarySearch pos)

section Stored

variable {ex : Extracted} {t : Title}

theorem flat_compile (h : ex.columnOverflow = none) (d : Dict) (t : Title) :
    ({ Body.compile d ex with predicate := [] } : Body).verify (t.view d) =
      ex.flatHolds t.pos t.neg := by
  obtain ⟨hreq, hforb, hany, hgroups⟩ := columns_lt h
  have hreqTail : narrow 16 (unmasked d ex.required) = unmasked d ex.required :=
    narrow_eq_self (Nat.lt_of_le_of_lt (length_filter_le _ _) hreq)
  have hforbTail : narrow 16 (unmasked d ex.forbidden) = unmasked d ex.forbidden :=
    narrow_eq_self (Nat.lt_of_le_of_lt (length_filter_le _ _) hforb)
  have hgroup : (narrow 16 ex.anyof).map (narrow 16) = ex.anyof := by
    rw [narrow_eq_self hany]
    conv_rhs => rw [← map_id ex.anyof]
    exact map_congr_left fun g hg => narrow_eq_self (hgroups g hg)
  rw [Extracted.flatHolds, ← required_split t.pos_sorted (d := d), ← forbidden_split t.neg_sorted (d := d)]
  simp only [Body.verify, Body.compile, Title.view, TitleView.dualPositioned, hreqTail, hforbTail,
    hgroup, isEmpty_nil, Bool.true_or, Bool.and_true]
  ac_rfl

/-- **A query asks for its flat clauses and for those of its program.** -/
theorem matchesPositioned_eq (h : ex.Canonical) (d : Dict) (t : Title) :
    ex.matchesPositioned t.pos t.neg t.posGraph t.negGraph =
      (ex.flatHolds t.pos t.neg && ex.compoundHolds (t.view d)) := by
  have hreq : ∀ g ∈ ex.requiredPhrases, ∀ title, phraseGraphMatchesBounded g title = walk g title :=
    fun g hg => phraseGraphMatchesBounded_eq_walk
      (quoted_of_canonical (congrArg Extracted.requiredPhrases h) hg)
  have hforb : ∀ g ∈ ex.forbiddenPhrases, ∀ title, phraseGraphMatchesBounded g title = walk g title :=
    fun g hg => phraseGraphMatchesBounded_eq_walk
      (quoted_of_canonical (congrArg Extracted.forbiddenPhrases h) hg)
  have hrequired : ex.requiredPhrases.all
        (fun g => phraseGraphMatchesBounded g t.posGraph != some false) =
      !ex.requiredPhrases.any (fun g => walk g t.posGraph = some false) := by
    rw [Bool.eq_iff_iff]
    simp only [all_eq_true, bne_iff_ne, Bool.not_eq_true', any_eq_false,
      decide_eq_true_eq]
    exact forall₂_congr fun g hg => by rw [hreq g hg]
  have hforbidden : ex.forbiddenPhrases.any
        (fun g => phraseGraphMatchesBounded g { t.negGraph with complete := true } == some true) =
      ex.forbiddenPhrases.any (fun g => walk g { t.negGraph with complete := true } = some true) := by
    rw [Bool.eq_iff_iff]
    simp only [any_eq_true, beq_iff_eq, decide_eq_true_eq]
    exact exists_congr fun g => and_congr_right fun hg => by rw [hforb g hg]
  rw [Extracted.matchesPositioned, hrequired, hforbidden]
  simp only [Extracted.matchesFlatFeatures, Extracted.flatHolds, Extracted.compoundHolds,
    Extracted.phrasesHold, Title.view, TitleView.dualPositioned]
  simp only [Bool.and_assoc]
  rfl

theorem checkedVerify_compile (h : ex.columnOverflow = none) (d : Dict) (t : Title) :
    (Body.compile d ex).checkedVerify (t.view d) =
      if ex.flatHolds t.pos t.neg then
        Checked.ofOption (verifyPredicate? (narrow 32 (encodePredicate ex)) (t.view d))
      else .ok false := by
  rw [Body.checkedVerify, flat_compile h]
  rfl

theorem verifyPredicate?_narrow_zero (h : ex.clauseWords + 5 = 2 ^ 32) (v : TitleView) :
    verifyPredicate? (narrow 32 (encodePredicate ex)) v = some true := by
  rw [narrow, length_program_of_le h.ge, h]
  rfl

/-- A program whose length wraps to one is cut to its version. -/
theorem narrow_encodePredicate_one (h : ex.clauseWords + 5 = 2 ^ 32 + 1) :
    narrow 32 (encodePredicate ex) = [ex.programVersion] := by
  have hlen : (encodePredicate ex).length = ex.clauseWords + 5 := length_program_of_le (by omega)
  have hneeds : needsNoProgram ex = false := by
    rw [← Bool.not_eq_true]
    intro hneeds
    rw [encodePredicate, hneeds] at hlen
    simp at hlen
  rw [narrow, hlen, h, encodePredicate_eq hneeds]
  rfl

/-- It is read past its end. -/
theorem verifyPredicate?_narrow_one (h : ex.clauseWords + 5 = 2 ^ 32 + 1) (v : TitleView) :
    verifyPredicate? (narrow 32 (encodePredicate ex)) v = none := by
  rw [narrow_encodePredicate_one h]
  rcases ex.programVersion_cases with hversion | hversion
  · rw [hversion]
    rfl
  · rw [hversion]
    rfl

/-- Without a quoted clause no view needs the token graphs. -/
theorem checkedVerify_flatView (h : ex.columnOverflow = none) (hflat : ex.hasPhrases = false)
    (d : Dict) (t : Title) :
    (Body.compile d ex).checkedVerify (t.flatView d) =
      (Body.compile d ex).checkedVerify (t.view d) := by
  have hprogram : verifyPredicate? (narrow 32 (encodePredicate ex)) (t.flatView d) =
      verifyPredicate? (narrow 32 (encodePredicate ex)) (t.view d) := by
    obtain hwords | hwords | hwords := clauseWords_cases h
    · have hlen := (length_program_lt_iff ex).mpr hwords
      rw [narrow_eq_self hlen, verifyPredicate?_encode hlen, verifyPredicate?_encode hlen,
        Extracted.compoundHolds, Extracted.compoundHolds, phrasesHold_of_flat hflat,
        phrasesHold_of_flat hflat]
      rfl
    · rw [verifyPredicate?_narrow_zero hwords, verifyPredicate?_narrow_zero hwords]
    · rw [verifyPredicate?_narrow_one hwords, verifyPredicate?_narrow_one hwords]
  unfold Body.checkedVerify
  rw [Body.compile, hprogram]
  rfl

end Stored

/-! ## the store -/

/-- Add a query of a standalone engine. -/
def pushOf (d : Dict) (ex : Extracted) (logical : UInt64) : AddRequest :=
  ⟨ex, [], d, logical, 1, 0, .standalone, 0, ⟨false, 0, false, false⟩⟩

/-- A new store has room for a query without any-of groups. -/
theorem room_new {ex : Extracted} (h : ex.anyof = []) : ExactStore.new.columns.Room ex :=
  ⟨by decide, by decide, by decide, by simp [h], by decide⟩

def crowdedTitle (n : Nat) (h : n ≤ 2 ^ 32) : Title :=
  ⟨[], [], firstFeatures n, ⟨0, [], true⟩, ⟨0, [], true⟩, .nil, pairwise_firstFeatures h⟩

/-- The same clause behind another one, and counted as one more group. -/
def clausePushes : List AddRequest :=
  [pushOf .new (forbidTogether 3) 1, pushOf .new (forbidTogether 2) 2,
    pushOf .new { forbidTogether 2 with semanticAnyofGroups := 1 } 3]

theorem room_clausePushes {i : Nat} (hi : i < 3) (ex : Extracted) (h : ex.anyof = []) :
    (ExactStore.ofPushes (clausePushes.take i)).columns.Room ex := by
  interval_cases i
  all_goals exact ⟨by decide, by decide, by decide, by simp [h], by decide⟩

/-- The Boolean part of a program; none when the ranking counts are cut off. -/
def booleanProgram? (words : List UInt32) : Option (UInt32 × List UInt32) :=
  match words with
  | [] => some (0, [])
  | version :: ws =>
    if (version = rankFeatureProgramVersion ∨ version = rankPhraseProgramVersion) ∧ ws.length < 2
    then none
    else some (predicateBooleanProgram (version :: ws))

variable {words : List UInt32}

theorem booleanProgram?_eq_some {program : UInt32 × List UInt32}
    (h : booleanProgram? words = some program) : predicateBooleanProgram words = program := by
  unfold booleanProgram? at h
  split at h
  · exact Option.some.inj h
  · split at h
    · cases h
    · exact Option.some.inj h

/-- Equality of the semantic columns beside the program, up to order. -/
def Body.columnsEqual (a b : Body) : Bool :=
  a.reqMask == b.reqMask && a.forbMask == b.forbMask
    && a.reqTail.length == b.reqTail.length && a.forbTail.length == b.forbTail.length
    && a.groups.length == b.groups.length
    && sorted a.reqTail == sorted b.reqTail && sorted a.forbTail == sorted b.forbTail
    && a.canonicalGroups == b.canonicalGroups

/-- `bodies_equal` with its reads checked. -/
def Body.checkedEqual (a b : Body) : Checked Bool :=
  if a.columnsEqual b then do
    let program ← Checked.ofOption (booleanProgram? a.predicate)
    let program' ← Checked.ofOption (booleanProgram? b.predicate)
    return program == program'
  else .ok false

/-- `body_signature` with its reads checked. -/
def Body.checkedSignature (b : Body) : Checked UInt64 := do
  let _ ← Checked.ofOption (booleanProgram? b.predicate)
  return b.signature

section Equal

variable {a b : Body}

/-- Rows compare equal when their columns do and both programs can be read to
the same Boolean part. -/
theorem checkedEqual_iff : a.checkedEqual b = .ok true ↔
    a.columnsEqual b = true ∧ (booleanProgram? a.predicate).isSome = true ∧
      booleanProgram? a.predicate = booleanProgram? b.predicate := by
  unfold Body.checkedEqual
  cases a.columnsEqual b with
  | false => simp
  | true =>
    cases booleanProgram? a.predicate with
    | none => exact ⟨nofun, by simp⟩
    | some program =>
      cases booleanProgram? b.predicate with
      | none => simp [Checked.ofOption]
      | some program' => simp [Checked.ofOption]

theorem bodiesEqual_of_checkedEqual (h : a.checkedEqual b = .ok true) : a.bodiesEqual b = true := by
  obtain ⟨hcols, hsome, heq⟩ := checkedEqual_iff.mp h
  obtain ⟨program, hprogram⟩ := Option.isSome_iff_exists.mp hsome
  have hsame : predicateBooleanProgram a.predicate = predicateBooleanProgram b.predicate := by
    rw [booleanProgram?_eq_some hprogram, booleanProgram?_eq_some (heq ▸ hprogram)]
  rw [Body.bodiesEqual, hsame, beq_self_eq_true, Bool.and_true]
  exact hcols

theorem signature_eq_of_bodiesEqual (h : a.bodiesEqual b = true) : a.signature = b.signature := by
  simp only [Body.bodiesEqual, Bool.and_eq_true, beq_iff_eq] at h
  obtain ⟨⟨⟨⟨⟨⟨⟨⟨hreqMask, hforbMask⟩, -⟩, -⟩, -⟩, hreq⟩, hforb⟩, hgroups⟩, hprog⟩ := h
  simp only [Body.signature, Body.signatureWords, hreqMask, hforbMask, hreq, hforb, hgroups, hprog]

theorem checkedSignature_eq (h : a.checkedEqual b = .ok true) :
    a.checkedSignature = b.checkedSignature := by
  obtain ⟨-, -, heq⟩ := checkedEqual_iff.mp h
  rw [Body.checkedSignature, Body.checkedSignature, heq,
    signature_eq_of_bodiesEqual (bodiesEqual_of_checkedEqual h)]

theorem checkedVerify_eq (ha : KnownVersion a.predicate) (hb : KnownVersion b.predicate)
    (h : a.bodiesEqual b = true) (v : TitleView) : a.checkedVerify v = b.checkedVerify v := by
  have hflat : ({ a with predicate := [] } : Body).verify v =
      ({ b with predicate := [] } : Body).verify v := by
    have hnone : KnownVersion [] := trivial
    refine verify_eq_of_bodiesEqual hnone hnone ?_ v
    simp only [Body.bodiesEqual, Body.canonicalGroups, Bool.and_eq_true, beq_iff_eq] at h ⊢
    exact ⟨h.1, trivial⟩
  simp only [Body.bodiesEqual, Bool.and_eq_true, beq_iff_eq] at h
  rw [Body.checkedVerify, Body.checkedVerify, hflat, verifyPredicate?_eq_boolean ha,
    verifyPredicate?_eq_boolean hb, h.2]

end Equal

theorem KnownVersion.take (h : KnownVersion words) (n : Nat) : KnownVersion (words.take n) := by
  cases words with
  | nil =>
    rw [take_nil]
    exact h
  | cons version ws =>
    cases n with
    | zero => trivial
    | succ n => exact h

theorem knownVersion_ofPushes {ps : List AddRequest} {i : Nat} {p : AddRequest}
    (h : ps[i]? = some p)
    (hroom : (ExactStore.ofPushes (ps.take i)).columns.predicate.blob.length < 2 ^ 32) :
    KnownVersion ((ExactStore.ofPushes ps).columns.bodyAt i).predicate := by
  rw [ExactStore.predicateAt_ofPushes h hroom]
  exact (knownVersion_encodePredicate p.ex).take _

/-- Two queries with the same clauses: they may differ in what ranking counts. -/
structure Extracted.SameClauses (ex ex' : Extracted) : Prop where
  required : ex.required = ex'.required
  forbidden : ex.forbidden = ex'.forbidden
  anyof : ex.anyof = ex'.anyof
  anyofPredicates : ex.anyofPredicates = ex'.anyofPredicates
  forbiddenConjunctions : ex.forbiddenConjunctions = ex'.forbiddenConjunctions
  requiredPhrases : ex.requiredPhrases = ex'.requiredPhrases
  forbiddenPhrases : ex.forbiddenPhrases = ex'.forbiddenPhrases

/-- The stored length of a query's program does not cut off its ranking counts. -/
def Extracted.CountsKept (ex : Extracted) : Prop :=
  (ex.clauseWords + 5) % 2 ^ 32 ≠ 1 ∧ (ex.clauseWords + 5) % 2 ^ 32 ≠ 2

section SameClauses

variable {ex ex' : Extracted}

variable {version : UInt32}

/-- However much of a program is read, its Boolean part does not depend on the
ranking counts. -/
theorem booleanProgram?_take
    (hv : version = rankFeatureProgramVersion ∨ version = rankPhraseProgramVersion)
    (groups terms groups' terms' : UInt32) (body : List UInt32) (n : Nat) :
    booleanProgram? ((version :: groups :: terms :: body).take n) =
      booleanProgram? ((version :: groups' :: terms' :: body).take n) := by
  rcases hv with rfl | rfl <;> rcases n with _ | _ | _ | n <;> rfl

theorem isSome_booleanProgram?_take
    (hv : version = rankFeatureProgramVersion ∨ version = rankPhraseProgramVersion)
    (groups terms : UInt32) (body : List UInt32) (n : Nat) :
    (booleanProgram? ((version :: groups :: terms :: body).take n)).isSome = true ↔
      n ≠ 1 ∧ n ≠ 2 := by
  rcases n with _ | _ | _ | n <;> simp [booleanProgram?, hv]

theorem isSome_booleanProgram?_compile (ex : Extracted) :
    (booleanProgram? (narrow 32 (encodePredicate ex))).isSome = true ↔ ex.CountsKept := by
  rw [Extracted.CountsKept, narrow]
  cases hneeds : needsNoProgram ex with
  | true =>
    obtain ⟨hany, hforb, hflat⟩ := clauseless_of_needsNoProgram hneeds
    simp [encodePredicate, hneeds, booleanProgram?, Extracted.clauseWords, hany, hforb, hflat]
  | false =>
    have hlen := length_program ex
    rw [hneeds, if_neg Bool.false_ne_true] at hlen
    rw [hlen]
    simp only [encodePredicate, hneeds, Bool.false_eq_true, if_false]
    exact isSome_booleanProgram?_take ex.programVersion_cases _ _ _ _

/-- A query without compound or quoted clauses has an empty Boolean part, also
when its counts need a program. -/
theorem booleanProgram?_of_clauseless (hany : ex.anyofPredicates = [])
    (hforb : ex.forbiddenConjunctions = []) (hflat : ex.hasPhrases = false) :
    booleanProgram? (narrow 32 (encodePredicate ex)) = some (0, []) := by
  have hbody : encodeBody ex = [0, 0] := by simp [encodeBody, hany, hforb, hflat, wordCount]
  cases hneeds : needsNoProgram ex with
  | true =>
    simp only [encodePredicate, hneeds, if_true]
    rfl
  | false =>
    simp only [encodePredicate, hneeds, Bool.false_eq_true, if_false, hflat, hbody]
    rfl

theorem Extracted.SameClauses.booleanProgram? (h : ex.SameClauses ex') :
    booleanProgram? (narrow 32 (encodePredicate ex)) =
      booleanProgram? (narrow 32 (encodePredicate ex')) := by
  have hphrases : ex.hasPhrases = ex'.hasPhrases := by
    rw [hasPhrases, hasPhrases, h.requiredPhrases, h.forbiddenPhrases]
  by_cases hnone : ex.anyofPredicates = [] ∧ ex.forbiddenConjunctions = [] ∧ ex.hasPhrases = false
  · obtain ⟨hany, hforb, hflat⟩ := hnone
    rw [booleanProgram?_of_clauseless hany hforb hflat,
      booleanProgram?_of_clauseless (h.anyofPredicates ▸ hany) (h.forbiddenConjunctions ▸ hforb)
        (hphrases ▸ hflat)]
  · have hbody : encodeBody ex = encodeBody ex' := by
      simp only [encodeBody, h.anyofPredicates, h.forbiddenConjunctions, h.requiredPhrases,
        h.forbiddenPhrases, hphrases]
    have hneeds : needsNoProgram ex = false :=
      Bool.eq_false_iff.mpr fun hneeds => hnone (clauseless_of_needsNoProgram hneeds)
    have hneeds' : needsNoProgram ex' = false := by
      rw [h.anyofPredicates, h.forbiddenConjunctions, hphrases] at hnone
      exact Bool.eq_false_iff.mpr fun hneeds => hnone (clauseless_of_needsNoProgram hneeds)
    simp only [encodePredicate, hneeds, hneeds', Bool.false_eq_true, if_false, narrow, hbody,
      hphrases, length_cons]
    exact booleanProgram?_take ex'.programVersion_cases _ _ _ _ _ _

theorem Extracted.SameClauses.columnsEqual (h : ex.SameClauses ex') {d d' : Dict}
    (hmask : ∀ f, d.maskBit f = d'.maskBit f) :
    (Body.compile d ex).columnsEqual (Body.compile d' ex') = true := by
  have htitle : ∀ feats, titleMask d feats = titleMask d' feats := by
    intro feats
    refine BitVec.eq_of_getLsbD_eq fun b hb => ?_
    rw [Bool.eq_iff_iff, getLsbD_titleMask hb, getLsbD_titleMask hb]
    simp only [hmask]
  simp [Body.columnsEqual, Body.compile, Body.canonicalGroups, unmasked, h.required, h.forbidden,
    h.anyof, hmask, htitle]

end SameClauses

/-- Compare two rows of a store. -/
def ExactStore.bodiesEqual (s : ExactStore) (i j : Nat) : Checked Bool :=
  (s.columns.bodyAt i).checkedEqual (s.columns.bodyAt j)

def ExactStore.bodySignature (s : ExactStore) (i : Nat) : Checked UInt64 :=
  (s.columns.bodyAt i).checkedSignature

/-- The program of a row can be trusted to be one: it was pushed where its
offset fits, or read from a file, which checks it. -/
inductive ExactStore.HoldsProgram (s : ExactStore) (i : Nat) : Prop where
  | pushed {ps : List AddRequest} {p : AddRequest} (store : s = .ofPushes ps) (row : ps[i]? = some p)
      (room : (ExactStore.ofPushes (ps.take i)).columns.predicate.blob.length < 2 ^ 32)
  | opened (row : i < s.columns.reqMask.length)
      (valid : validatePredicate (s.columns.bodyAt i).predicate = .ok ())

theorem ExactStore.HoldsProgram.verify {s : ExactStore} {i : Nat} (h : s.HoldsProgram i) :
    KnownVersion (s.columns.bodyAt i).predicate ∧
      ∀ v, s.verify i v .empty = (s.columns.bodyAt i).checkedVerify v := by
  cases h with
  | pushed store row room =>
    subst store
    exact ⟨knownVersion_ofPushes row room, fun v => by
      rw [ExactStore.verify_ofPushes row, verifySlices_empty]⟩
  | opened row valid =>
    refine ⟨knownVersion_of_validatePredicate valid, fun v => ?_⟩
    rw [← verifySlices_empty s.columns s.tags, ExactStore.verify, if_pos row]
    rfl

end ReverseRusty
