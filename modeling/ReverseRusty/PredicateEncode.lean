import ReverseRusty.ColumnCount
import ReverseRusty.Lib.PrefixCode
import ReverseRusty.PredicateCursor

/-!
# ReverseRusty.PredicateEncode

What the encoder of stored programs writes (`encode_predicate`,
`encode_phrases`) is accepted by the check (`validate_predicate`), says the
query's ranking counts (`predicate_rank_term_counts`), and determines the
clauses it stands for (`predicate_boolean_program`).

The encoding is a prefix code at every level, so equal Boolean programs come
from equal clauses.
-/

namespace ReverseRusty

open List

attribute [local simp] phraseProgramVersion featureProgramVersion rankFeatureProgramVersion
  rankPhraseProgramVersion

/-! ## short programs count right -/

theorem Extracted.counted_of_length {ex : Extracted} (h : (encodeBody ex).length < 2 ^ 32) :
    ex.Counted := by
  have hgroups := length_le_length_flatMap length_encodeGroup_pos ex.anyofPredicates
  have hconj := length_le_length_flatMap length_encodeRun_pos ex.forbiddenConjunctions
  have hreq := length_le_length_flatMap length_encodeGraph_pos ex.requiredPhrases
  have hforb := length_le_length_flatMap length_encodeGraph_pos ex.forbiddenPhrases
  simp only [encodeBody, length_cons, length_append] at h
  have hphrases : (ex.requiredPhrases.flatMap encodeGraph).length < 2 ^ 32 ∧
      (ex.forbiddenPhrases.flatMap encodeGraph).length < 2 ^ 32 := by
    cases hquoted : ex.hasPhrases with
    | true =>
      simp only [hquoted, if_true, encodePhrases, length_append, length_cons] at h
      omega
    | false =>
      obtain ⟨hreq, hforb⟩ := phrases_eq_nil hquoted
      simp [hreq, hforb]
  refine ⟨by omega, fun p hp => ⟨?_, fun m hm => ⟨?_, fun r hr => ?_⟩⟩, by omega, fun c hc => ?_,
    by omega, by omega, forall_mem_append.mpr ⟨fun g hg => ?_, fun g hg => ?_⟩⟩
  · have hle := @length_le_of_mem _ encodeGroup _ _ hp
    have hmembers := length_le_length_flatMap length_encodeMember_pos p.members
    simp only [encodeGroup, length_cons] at hle
    omega
  · have hle := @length_le_of_mem _ encodeGroup _ _ hp
    have hle' := @length_le_of_mem _ encodeMember _ _ hm
    have hreqs := length_le_length_flatMap length_encodeRun_pos m.requirements
    simp only [encodeGroup, encodeMember, length_cons] at hle hle'
    omega
  · have hle := @length_le_of_mem _ encodeGroup _ _ hp
    have hle' := @length_le_of_mem _ encodeMember _ _ hm
    have hle'' := @length_le_of_mem _ encodeRun _ _ hr
    simp only [encodeGroup, encodeMember, encodeRun, length_cons] at hle hle' hle''
    omega
  · have hle := @length_le_of_mem _ encodeRun _ _ hc
    simp only [encodeRun, length_cons] at hle
    omega
  · exact PhraseGraph.counted_of_length
      (Nat.lt_of_le_of_lt (@length_le_of_mem _ encodeGraph _ _ hg) hphrases.1)
  · exact PhraseGraph.counted_of_length
      (Nat.lt_of_le_of_lt (@length_le_of_mem _ encodeGraph _ _ hg) hphrases.2)

/-! ## the encoding is a prefix code -/

theorem prefixCode_wordCount : PrefixCode (fun n => [wordCount n]) (· < 2 ^ 32) := by
  intro m n r r' hm hn h
  obtain ⟨hword, hr⟩ := List.cons.inj h
  exact ⟨by rw [← toNat_wordCount hm, hword, toNat_wordCount hn], hr⟩

theorem prefixCode_run : PrefixCode encodeRun fun r => r.length < 2 ^ 32 := by
  have h : PrefixCode (fun r : List UInt32 => wordCount r.length :: r.flatMap fun w => [w]) _ :=
    PrefixCode.word.counted prefixCode_wordCount
  intro a b r r' ha hb heq
  refine h a b r r' ⟨ha, fun _ _ => trivial⟩ ⟨hb, fun _ _ => trivial⟩ ?_
  simpa [encodeRun] using heq

theorem prefixCode_member : PrefixCode encodeMember AnyOfMember.Counted := by
  have h := (prefixCode_run.counted prefixCode_wordCount).comap (f := AnyOfMember.requirements)
    fun a b hab => by cases a; cases b; cases hab; rfl
  exact h.mono fun _ ha => ⟨ha.1, ha.2⟩

theorem prefixCode_group : PrefixCode encodeGroup AnyOfPredicate.Counted := by
  have h := (prefixCode_member.counted prefixCode_wordCount).comap (f := AnyOfPredicate.members)
    fun a b hab => by cases a; cases b; cases hab; rfl
  exact h.mono fun _ ha => ⟨ha.1, ha.2⟩

theorem prefixCode_arc :
    PrefixCode encodeArc fun a => a.alternatives.length < 2 ^ 32 := by
  have h := (PrefixCode.word.append (PrefixCode.word.append prefixCode_run)).comap
    (f := fun a : PhraseArc => (a.start, a.end, a.alternatives))
    fun a b hab => by cases a; cases b; cases hab; rfl
  exact h.mono fun _ ha => ⟨trivial, trivial, ha⟩

theorem prefixCode_graph : PrefixCode encodeGraph PhraseGraph.Counted := by
  have h := (PrefixCode.word.append (prefixCode_arc.counted prefixCode_wordCount)).comap
    (f := fun g : PhraseGraph => (g.positions, g.arcs))
    fun a b hab => by cases a; cases b; cases hab; rfl
  exact h.mono fun _ ha => ⟨trivial, ha.1, ha.2⟩

def featureCode (clauses : List AnyOfPredicate × List (List FeatureId)) : List UInt32 :=
  (wordCount clauses.1.length :: clauses.1.flatMap encodeGroup) ++
    (wordCount clauses.2.length :: clauses.2.flatMap encodeRun)

theorem prefixCode_features : PrefixCode featureCode fun clauses =>
    (clauses.1.length < 2 ^ 32 ∧ ∀ p ∈ clauses.1, p.Counted) ∧
      clauses.2.length < 2 ^ 32 ∧ ∀ c ∈ clauses.2, c.length < 2 ^ 32 :=
  (prefixCode_group.counted prefixCode_wordCount).append (prefixCode_run.counted prefixCode_wordCount)

theorem prefixCode_phrases : PrefixCode encodePhrases fun gs =>
    gs.length < 2 ^ 32 ∧ ∀ g ∈ gs, g.Counted :=
  prefixCode_graph.counted prefixCode_wordCount

theorem encodeBody_eq (ex : Extracted) :
    encodeBody ex = featureCode (ex.anyofPredicates, ex.forbiddenConjunctions) ++ encodeQuoted ex :=
  rfl

/-- Two queries with the same compound and quoted clauses. -/
structure Extracted.SameProgram (ex ex' : Extracted) : Prop where
  anyofPredicates : ex.anyofPredicates = ex'.anyofPredicates
  forbiddenConjunctions : ex.forbiddenConjunctions = ex'.forbiddenConjunctions
  requiredPhrases : ex.requiredPhrases = ex'.requiredPhrases
  forbiddenPhrases : ex.forbiddenPhrases = ex'.forbiddenPhrases

section Boolean

variable {ex ex' : Extracted}

theorem Extracted.Counted.features (h : ex.Counted) :
    (ex.anyofPredicates.length < 2 ^ 32 ∧ ∀ p ∈ ex.anyofPredicates, p.Counted) ∧
      ex.forbiddenConjunctions.length < 2 ^ 32 ∧ ∀ c ∈ ex.forbiddenConjunctions, c.length < 2 ^ 32 :=
  ⟨⟨h.groups, h.predicates⟩, h.conjunctions, h.runs⟩

theorem sameProgram_of_encodeBody (h : ex.Counted) (h' : ex'.Counted)
    (hquoted : ex.hasPhrases = ex'.hasPhrases) (heq : encodeBody ex = encodeBody ex') :
    ex.SameProgram ex' := by
  rw [encodeBody_eq, encodeBody_eq] at heq
  obtain ⟨hfeatures, hrest⟩ := prefixCode_features _ _ _ _ h.features h'.features heq
  obtain ⟨hany, hforb⟩ := Prod.mk.inj hfeatures
  cases hphrases : ex.hasPhrases with
  | false =>
    obtain ⟨hreq, hforbid⟩ := phrases_eq_nil hphrases
    obtain ⟨hreq', hforbid'⟩ := phrases_eq_nil (hquoted ▸ hphrases)
    exact ⟨hany, hforb, hreq.trans hreq'.symm, hforbid.trans hforbid'.symm⟩
  | true =>
    rw [encodeQuoted, encodeQuoted, ← hquoted, hphrases, if_pos rfl, if_pos rfl] at hrest
    obtain ⟨hreqGraphs, hforbGraphs⟩ := forall_mem_append.mp h.graphs
    obtain ⟨hreqGraphs', hforbGraphs'⟩ := forall_mem_append.mp h'.graphs
    obtain ⟨hreq, htail⟩ := prefixCode_phrases _ _ _ _ ⟨h.required, hreqGraphs⟩
      ⟨h'.required, hreqGraphs'⟩ hrest
    exact ⟨hany, hforb, hreq, prefixCode_phrases.injective ⟨h.forbidden, hforbGraphs⟩
      ⟨h'.forbidden, hforbGraphs'⟩ htail⟩

/-- A query with no compound and no quoted clause. -/
def Extracted.Clauseless (ex : Extracted) : Prop :=
  ex.anyofPredicates = [] ∧ ex.forbiddenConjunctions = [] ∧ ex.hasPhrases = false

instance (ex : Extracted) : Decidable ex.Clauseless := inferInstanceAs (Decidable (_ ∧ _ ∧ _))

theorem encodeBody_eq_empty_iff (h : ex.Counted) (hflat : ex.hasPhrases = false) :
    encodeBody ex = [0, 0] ↔ ex.Clauseless := by
  rw [encodeBody_eq, encodeQuoted, hflat]
  simp only [Bool.false_eq_true, if_false, append_nil]
  constructor
  · intro heq
    have hnone := prefixCode_features.injective (b := ([], [])) h.features
      ⟨⟨by decide, by simp⟩, by decide, by simp⟩ (heq.trans rfl)
    exact ⟨(Prod.mk.inj hnone).1, (Prod.mk.inj hnone).2, hflat⟩
  · rintro ⟨hany, hforb, -⟩
    rw [hany, hforb]
    rfl

theorem encodeBody_ne_empty (h : ex.Counted) (hquoted : ex.hasPhrases = true) :
    encodeBody ex ≠ [0, 0, 0, 0] := by
  intro heq
  obtain ⟨hreqGraphs, hforbGraphs⟩ := forall_mem_append.mp h.graphs
  have hparts : featureCode (ex.anyofPredicates, ex.forbiddenConjunctions) ++ encodeQuoted ex =
      featureCode ([], []) ++ (encodePhrases [] ++ encodePhrases []) := heq
  rw [encodeQuoted, hquoted, if_pos rfl] at hparts
  obtain ⟨-, hrest⟩ := prefixCode_features _ _ _ _ h.features
    ⟨⟨by decide, by simp⟩, by decide, by simp⟩ hparts
  obtain ⟨hreq, htail⟩ := prefixCode_phrases _ _ _ _ ⟨h.required, hreqGraphs⟩
    ⟨by decide, by simp⟩ hrest
  have hforb := prefixCode_phrases.injective ⟨h.forbidden, hforbGraphs⟩ ⟨by decide, by simp⟩ htail
  simp [Extracted.hasPhrases, hreq, hforb] at hquoted

/-- **The Boolean part of an encoded program**: the clauses under the version
without ranking, or nothing. -/
theorem predicateBooleanProgram_encode (h : ex.Counted) :
    predicateBooleanProgram (encodePredicate ex) =
      if ex.Clauseless then (0, [])
      else (if ex.hasPhrases then phraseProgramVersion else featureProgramVersion,
        encodeBody ex) := by
  cases hneeds : needsNoProgram ex with
  | true =>
    rw [if_pos (c := ex.Clauseless) (clauseless_of_needsNoProgram hneeds), encodePredicate, hneeds]
    rfl
  | false =>
    simp only [encodePredicate, hneeds, Bool.false_eq_true, if_false]
    cases hquoted : ex.hasPhrases with
    | true =>
      have hsome : ¬ ex.Clauseless := fun hnone => by simp [hnone.2.2] at hquoted
      simp [predicateBooleanProgram, hsome, encodeBody_ne_empty h hquoted]
    | false =>
      simp [predicateBooleanProgram, encodeBody_eq_empty_iff h hquoted]

/-- **Equal Boolean programs are equal clauses.** -/
theorem booleanProgram_eq_iff (h : ex.Counted) (h' : ex'.Counted) :
    predicateBooleanProgram (encodePredicate ex) = predicateBooleanProgram (encodePredicate ex') ↔
      ex.SameProgram ex' := by
  rw [predicateBooleanProgram_encode h, predicateBooleanProgram_encode h']
  constructor
  · intro heq
    by_cases hnone : ex.Clauseless
    · by_cases hnone' : ex'.Clauseless
      · obtain ⟨hreq, hforb⟩ := phrases_eq_nil hnone.2.2
        obtain ⟨hreq', hforb'⟩ := phrases_eq_nil hnone'.2.2
        exact ⟨hnone.1.trans hnone'.1.symm, hnone.2.1.trans hnone'.2.1.symm,
          hreq.trans hreq'.symm, hforb.trans hforb'.symm⟩
      · rw [if_pos hnone, if_neg hnone'] at heq
        cases hquoted : ex'.hasPhrases <;> simp [hquoted] at heq
    · by_cases hnone' : ex'.Clauseless
      · rw [if_neg hnone, if_pos hnone'] at heq
        cases hquoted : ex.hasPhrases <;> simp [hquoted] at heq
      · rw [if_neg hnone, if_neg hnone', Prod.mk.injEq] at heq
        refine sameProgram_of_encodeBody h h' ?_ heq.2
        cases hquoted : ex.hasPhrases <;> cases hquoted' : ex'.hasPhrases <;>
          simp [hquoted, hquoted'] at heq ⊢
  · rintro ⟨hany, hforb, hreq, hforbid⟩
    have hquoted : ex.hasPhrases = ex'.hasPhrases := by
      rw [Extracted.hasPhrases, Extracted.hasPhrases, hreq, hforbid]
    have hbody : encodeBody ex = encodeBody ex' := by
      simp only [encodeBody, hany, hforb, hreq, hforbid, hquoted]
    have hnone : ex.Clauseless ↔ ex'.Clauseless := by
      rw [Extracted.Clauseless, Extracted.Clauseless, hany, hforb, hquoted]
    simp only [hnone, hquoted, hbody]

end Boolean

/-! ## programs as words -/

/-- The words are the program of some clauses: a version, the ranking counts it
calls for, and the encoded clauses to the end. -/
structure Encodes (words : List UInt32) (ex : Extracted) : Prop where
  quoted : predicateHasPhrases words = ex.hasPhrases
  counted : ex.Counted
  nonempty : words ≠ []
  body : LiesAt words (bodyStart (words.headD 0)) (encodeBody ex)
  ending : bodyStart (words.headD 0) + (encodeBody ex).length = words.length

/-- **What the check accepts is a program** of some clauses. -/
theorem encodes_of_validate {words : List UInt32} (h : validatePredicate words = .ok ())
    (hne : words ≠ []) : ∃ ex, Encodes words ex := by
  obtain ⟨version, ws, rfl⟩ := exists_cons_of_ne_nil hne
  obtain ⟨ex, hquoted, hbody, hcounted⟩ := exists_encode_of_validatePredicate h
  have hlies : LiesAt (version :: ws) (bodyStart version) (encodeBody ex) ∧
      bodyStart version + (encodeBody ex).length = (version :: ws).length := by
    have hpos : 0 < (encodeBody ex).length := by simp [encodeBody]
    rw [← hbody] at hpos ⊢
    unfold programBody bodyStart at *
    split
    · next hranked =>
      rw [if_pos hranked] at hpos
      obtain _ | ⟨groups, _ | ⟨terms, body⟩⟩ := ws
      · simp at hpos
      · simp at hpos
      · exact ⟨LiesAt.behind [version, groups, terms] body, by simp; omega⟩
    · exact ⟨LiesAt.behind [version] ws, by simp; omega⟩
  exact ⟨ex, hquoted.symm, hcounted, hne, hlies.1, hlies.2⟩

/-- **What the encoder writes is the program** of its query. -/
theorem encodes_encodePredicate {ex : Extracted} (hneeds : needsNoProgram ex = false)
    (h : ex.Counted) : Encodes (encodePredicate ex) ex := by
  have hwords : encodePredicate ex = [ex.programVersion, wordCount (semanticGroups ex),
      wordCount (semanticTerms ex)] ++ encodeBody ex := encodePredicate_eq hneeds
  have hstart : bodyStart ((encodePredicate ex).headD 0) = 3 := by
    rw [hwords]
    exact if_pos ex.programVersion_cases
  refine ⟨?_, h, by simp [hwords], ?_, ?_⟩
  · rw [hwords]
    cases hquoted : ex.hasPhrases <;>
      simp [predicateHasPhrases, Extracted.programVersion, hquoted]
  · rw [hstart, hwords]
    exact LiesAt.behind _ _
  · rw [hstart, hwords]
    simp
    omega

def statedCounts : List UInt32 → Option (Nat × Nat)
  | version :: groups :: terms :: _ =>
    if version = rankFeatureProgramVersion ∨ version = rankPhraseProgramVersion then
      some (groups.toNat, terms.toNat)
    else none
  | _ => none

section Programs

variable {words : List UInt32} {ex : Extracted} (h : Encodes words ex)

include h

theorem Encodes.wordAt_zero : wordAt words 0 = .ok (words.headD 0) := by
  obtain ⟨version, ws, rfl⟩ := exists_cons_of_ne_nil h.nonempty
  rfl

/-- **The verifier answers** what the clauses say. -/
theorem Encodes.verify (v : TitleView) : verifyPredicateAt words v = .ok (ex.compoundHolds v) := by
  have hempty : words.isEmpty = false := by simpa using h.nonempty
  rw [verifyPredicateAt, hempty]
  simp only [Bool.false_eq_true, if_false, h.wordAt_zero, ok_bind, h.quoted]
  exact verifyBodyAt_encode h.body h.counted

/-- **The ranking walk answers**, and ends at the end of the program. -/
theorem Encodes.rank (proxy : Nat) :
    rankWalk words proxy = .ok (ex.rankCounts (statedCounts words) proxy, words.length) := by
  have hempty : words.isEmpty = false := by simpa using h.nonempty
  have hbody := h.body
  have hending := h.ending
  have hpos : 0 < (encodeBody ex).length := by simp [encodeBody]
  rw [rankWalk, hempty]
  simp only [Bool.false_eq_true, if_false, h.wordAt_zero, ok_bind, h.quoted]
  unfold bodyStart at hbody hending
  split at hbody
  · next hranked =>
    rw [if_pos hranked] at hending ⊢
    obtain _ | ⟨version, _ | ⟨groups, _ | ⟨terms, body⟩⟩⟩ := words
    · simp at hending
    · simp at hending
      omega
    · simp at hending
      omega
    · have hstated : statedCounts (version :: groups :: terms :: body) =
          some (groups.toNat, terms.toNat) := if_pos hranked
      rw [hstated, ← hending, ← rankBody_encode _ proxy hbody h.counted]
      rfl
  · next hplain =>
    rw [if_neg hplain] at hending ⊢
    have hstated : statedCounts words = none := by
      unfold statedCounts
      split
      · exact if_neg hplain
      · rfl
    rw [hstated, rankBody_encode _ proxy hbody h.counted, hending]

theorem Encodes.verifyPredicate? (hlen : words.length < 2 ^ 32) (v : TitleView) :
    verifyPredicate? words v = some (ex.compoundHolds v) := by
  have hending := h.ending
  obtain ⟨front, back, hfront, hwords⟩ := h.body
  have hback : back = [] := by
    have := congrArg List.length hwords
    simp only [length_append] at this
    exact length_eq_zero_iff.mp (by omega)
  obtain ⟨version, ws, rfl⟩ := exists_cons_of_ne_nil h.nonempty
  have hdrop : (version :: ws).drop (bodyStart version) = encodeBody ex := by
    rw [hwords, hback, append_nil]
    exact drop_left' hfront
  have hprogram : (if version = rankFeatureProgramVersion ∨ version = rankPhraseProgramVersion
      then ws.drop 2 else ws) = encodeBody ex := by
    rw [← hdrop, bodyStart]
    split <;> rfl
  rw [ReverseRusty.verifyPredicate?]
  simp only [hprogram, h.quoted]
  exact verifyBody_encode (by omega)

end Programs

/-! ## the encoder's output -/

/-- A query's own counts for ranking: the terms its any-of groups and quoted
graphs ask for, the terms of its compound and quoted exclusions, and its any-of
groups. -/
def Extracted.ownCounts (ex : Extracted) : RankTermCounts where
  positiveTerms := satAdd (semanticTerms ex)
    (ex.requiredPhrases.foldl (fun terms g => satAdd terms g.positions.toNat) 0)
  negativeTerms := ex.forbiddenPhrases.foldl (fun terms g => satAdd terms g.positions.toNat)
    (ex.forbiddenConjunctions.foldl (fun terms c => satAdd terms c.length) 0)
  anyofGroups := semanticGroups ex

section Output

variable {ex : Extracted}

theorem length_encodePredicate_eq (ex : Extracted) (hneeds : needsNoProgram ex = false) :
    (encodePredicate ex).length = (encodeBody ex).length + 3 := by
  rw [length_encodePredicate, hneeds]
  rfl

theorem counted_of_program (h : (encodePredicate ex).length < 2 ^ 32) : ex.Counted := by
  cases hneeds : needsNoProgram ex with
  | false =>
    have hlen := length_encodePredicate_eq ex hneeds
    exact Extracted.counted_of_length (by omega)
  | true =>
    obtain ⟨hany, hforb, hflat⟩ := clauseless_of_needsNoProgram hneeds
    exact Extracted.counted_of_length (by simp [encodeBody, hany, hforb, hflat])

theorem rankTermCounts_encode (hw : ex.Wellformed) (h : (encodePredicate ex).length < 2 ^ 32) :
    predicateRankTermCounts (encodePredicate ex) (min ex.anyof.length u32Max) =
      .ok ex.ownCounts := by
  have hterms := semanticTerms_le hw
  cases hneeds : needsNoProgram ex with
  | true =>
    obtain ⟨hany, hforb, hflat⟩ := clauseless_of_needsNoProgram hneeds
    obtain ⟨hreq, hforbid⟩ := phrases_eq_nil hflat
    have hcounts := hneeds
    simp only [needsNoProgram, Bool.and_eq_true, decide_eq_true_eq] at hcounts
    have hsum : satAdd (min ex.anyof.length u32Max) 0 = min ex.anyof.length u32Max :=
      Nat.min_eq_left (Nat.min_le_right _ _)
    simp only [encodePredicate, hneeds, if_true, predicateRankTermCounts, rankWalk,
      Extracted.ownCounts, hreq, hforbid, hforb, foldl_nil, hcounts.2, hcounts.1.2, hsum]
    rfl
  | false =>
    have hencodes := encodes_encodePredicate hneeds (counted_of_program h)
    have hstated : statedCounts (encodePredicate ex) =
        some (semanticGroups ex, semanticTerms ex) := by
      rw [encodePredicate_eq hneeds, statedCounts, if_pos ex.programVersion_cases,
        toNat_wordCount (Nat.lt_of_le_of_lt (semanticGroups_le hw) (by decide)),
        toNat_wordCount (Nat.lt_of_le_of_lt hterms (by decide))]
    rw [predicateRankTermCounts, hencodes.rank, hstated]
    rfl

theorem validatePhrases_program (hc : ex.Canonical) (hw : ex.Wellformed)
    (h : (encodePredicate ex).length < 2 ^ 32) {gs : List PhraseGraph}
    (hgs : gs = ex.requiredPhrases ∨ gs = ex.forbiddenPhrases) (rest : List UInt32) :
    validatePhrases (encodePhrases gs ++ rest) = .ok (wordCount gs.length, rest) := by
  have hsound : ∀ g ∈ gs, g.Sound := by
    intro g hg
    rcases hgs with rfl | rfl
    · exact (hw.graphs g (mem_append_left _ hg)).sound
        (congrArg Extracted.requiredPhrases hc) hg
    · exact (hw.graphs g (mem_append_right _ hg)).sound
        (congrArg Extracted.forbiddenPhrases hc) hg
  refine validatePhrases_encode ?_ hsound
  cases hquoted : ex.hasPhrases with
  | false =>
    obtain ⟨hreq, hforb⟩ := phrases_eq_nil hquoted
    rcases hgs with rfl | rfl
    · simp [encodePhrases, hreq]
    · simp [encodePhrases, hforb]
  | true =>
    have hneeds : needsNoProgram ex = false := by simp [needsNoProgram, hquoted]
    rw [length_encodePredicate_eq ex hneeds, encodeBody_eq, encodeQuoted, hquoted, if_pos rfl] at h
    simp only [length_append] at h
    rcases hgs with rfl | rfl <;> omega

end Output

/-- **The encoder's output is accepted, counted and told apart.**  For every
canonical query whose forbidden conjunctions have several features, whose
quoted graphs have one arc per span and a path through them, and whose program
fits its length column: the check accepts its program and its quoted lists, the
ranking counts decode to its own, and another such program has the same Boolean
part exactly when the compound any-of groups, forbidden conjunctions and quoted
graphs are equal. -/
theorem encoded_accepted {ex : Extracted} (hc : ex.Canonical) (hw : ex.Wellformed)
    (h : (encodePredicate ex).length < 2 ^ 32) :
    validatePredicate (encodePredicate ex) = .ok () ∧
    (∀ gs, gs = ex.requiredPhrases ∨ gs = ex.forbiddenPhrases → ∀ rest,
      validatePhrases (encodePhrases gs ++ rest) = .ok (wordCount gs.length, rest)) ∧
    predicateRankTermCounts (encodePredicate ex) (min ex.anyof.length u32Max) =
      .ok ex.ownCounts ∧
    ∀ ex' : Extracted, (encodePredicate ex').length < 2 ^ 32 →
      (predicateBooleanProgram (encodePredicate ex) =
          predicateBooleanProgram (encodePredicate ex') ↔
        ex.SameProgram ex') :=
  ⟨validatePredicate_encode hw hc h, fun _ hgs rest => validatePhrases_program hc hw h hgs rest,
    rankTermCounts_encode hw h, fun _ h' =>
      booleanProgram_eq_iff (counted_of_program h) (counted_of_program h')⟩

def phraseWithoutPair : Extracted :=
  { requiredPhrases := [⟨1, [⟨0, 1, [0]⟩]⟩], forbiddenConjunctions := [[1, 2]] }

theorem wellformed_phraseWithoutPair : phraseWithoutPair.Wellformed := by
  refine ⟨by decide, by decide, fun g hg => ?_⟩
  obtain rfl : g = ⟨1, [⟨0, 1, [0]⟩]⟩ := by simpa [phraseWithoutPair] using hg
  exact ⟨by decide, .arc (a := ⟨0, 1, [0]⟩) .start mem_cons_self⟩

/-- Its program says one positive term and two negative ones. -/
theorem phraseWithoutPair_accepted :
    validatePredicate (encodePredicate phraseWithoutPair) = .ok () ∧
      predicateRankTermCounts (encodePredicate phraseWithoutPair) 0 = .ok ⟨1, 2, 0⟩ := by
  have h := encoded_accepted (by decide) wellformed_phraseWithoutPair (by decide)
  exact ⟨h.1, h.2.2.1⟩

/-- One quoted clause, required. -/
def requirePhrase (g : PhraseGraph) : Extracted := { requiredPhrases := [g] }

theorem validate_forbidTogether (n : Nat) :
    validatePredicate (encodePredicate (forbidTogether n)) =
      (checkConjunctions 1 (encodeRun (firstFeatures n))).bind fun ws =>
        ensure ws.isEmpty "compound predicate has trailing words" := by
  rw [encodePredicate_eq (needsNoProgram_forbidTogether n)]
  simp [validatePredicate, Extracted.programVersion, forbidTogether, Extracted.hasPhrases,
    encodeBody, validateBody]
  rfl

/-- **Canonical form alone is not enough.**  The check refuses the programs of
four canonical queries: one that forbids a conjunction of a single feature, one
with two arcs over the same span, one whose quoted graph no path crosses, and
one with a conjunction whose length wraps to zero. -/
theorem canonical_refused :
    ((forbidTogether 1).Canonical ∧
      validatePredicate (encodePredicate (forbidTogether 1)) ≠ .ok ()) ∧
    ((requirePhrase ⟨1, [⟨0, 1, [0]⟩, ⟨0, 1, [1]⟩]⟩).Canonical ∧
      validatePredicate (encodePredicate (requirePhrase ⟨1, [⟨0, 1, [0]⟩, ⟨0, 1, [1]⟩]⟩)) ≠
        .ok ()) ∧
    ((requirePhrase ⟨2, [⟨0, 1, [0]⟩]⟩).Canonical ∧
      validatePredicate (encodePredicate (requirePhrase ⟨2, [⟨0, 1, [0]⟩]⟩)) ≠ .ok ()) ∧
    (forbidTogether (2 ^ 32)).Canonical ∧
      validatePredicate (encodePredicate (forbidTogether (2 ^ 32))) ≠ .ok () := by
  refine ⟨⟨canonical_forbidTogether (by decide) (by decide), by decide⟩, ⟨by decide, by decide⟩,
    ⟨by decide, by decide⟩, canonical_forbidTogether (by decide) (by decide), ?_⟩
  have hshort (ws : List UInt32) : checkConjunctions 1 (0 :: ws) =
      .error "compound negative member must contain multiple features" := rfl
  have hwraps : wordCount (2 ^ 32) = 0 := by decide
  rw [validate_forbidTogether, encodeRun, length_firstFeatures, hwraps, hshort]
  simp [Except.bind]

end ReverseRusty
