import ReverseRusty.ExactSpec

/-!
# ReverseRusty.ColumnCount

The counts a row is stored with (`exact/store/write.rs`, `encode_predicate` of
`exact/predicate.rs`) and the check that they fit (`column_overflow` of
`compile.rs`).

`countColumns` predicts the length of the program with its own arithmetic.  Its
count starts from three words, for the version and the two list counts, but the
encoder writes two ranking words as well, so it is two short
(`length_encodePredicate`).  Every other count of the query is checked as it is
stored; the tags are not.
-/

namespace ReverseRusty

open List

namespace Extracted

/-! ## what the check counts -/

variable {words : Nat}

theorem checkedWords_eq_ok {n m : Nat} (h : checkedWords words n = .ok m) : m = words + n := by
  unfold checkedWords at h
  split at h
  · exact (Except.ok.inj h).symm
  · contradiction

theorem foldlM_count {α : Type} {count : Nat → α → Except Nat Nat} (enc : α → List UInt32)
    (hcount : ∀ words x n, count words x = .ok n → n = words + (enc x).length) {xs : List α}
    {n : Nat} (h : xs.foldlM count words = .ok n) : n = words + (xs.flatMap enc).length := by
  induction xs generalizing words with
  | nil => exact (Except.ok.inj h).symm
  | cons x xs ih =>
    rw [foldlM_cons, bind_eq_ok] at h
    obtain ⟨m, hx, hxs⟩ := h
    rw [ih hxs, hcount _ _ _ hx, flatMap_cons, length_append]
    omega

theorem countAlternatives_eq {n : Nat} {alternatives : List FeatureId}
    (h : countAlternatives words alternatives = .ok n) :
    n = words + (encodeRun alternatives).length := by
  simp only [countAlternatives, bind_eq_ok] at h
  obtain ⟨_, -, h⟩ := h
  rw [checkedWords_eq_ok h, encodeRun, length_cons]
  omega

theorem countMember_eq {n : Nat} {m : AnyOfMember} (h : countMember words m = .ok n) :
    n = words + (encodeMember m).length := by
  simp only [countMember, bind_eq_ok] at h
  obtain ⟨_, -, words', hwords, h⟩ := h
  rw [foldlM_count encodeRun (fun _ _ _ => countAlternatives_eq) h, checkedWords_eq_ok hwords, encodeMember,
    length_cons]
  omega

theorem countPredicate_eq {n : Nat} {p : AnyOfPredicate} (h : countPredicate words p = .ok n) :
    n = words + (encodeGroup p).length := by
  simp only [countPredicate, bind_eq_ok] at h
  obtain ⟨_, -, words', hwords, h⟩ := h
  rw [foldlM_count encodeMember (fun _ _ _ => countMember_eq) h, checkedWords_eq_ok hwords, encodeGroup, length_cons]
  omega

theorem countConjunction_eq {n : Nat} {c : List FeatureId} (h : countConjunction words c = .ok n) :
    n = words + (encodeRun c).length :=
  countAlternatives_eq h

theorem countArc_eq {n : Nat} {a : PhraseArc} (h : countArc words a = .ok n) :
    n = words + (encodeArc a).length := by
  simp only [countArc, bind_eq_ok] at h
  obtain ⟨_, -, h⟩ := h
  rw [checkedWords_eq_ok h, encodeArc, encodeRun]
  simp only [length_cons]
  omega

theorem countPhrase_eq {n : Nat} {g : PhraseGraph} (h : countPhrase words g = .ok n) :
    n = words + (encodeGraph g).length := by
  simp only [countPhrase, bind_eq_ok] at h
  obtain ⟨_, -, words', hwords, h⟩ := h
  rw [foldlM_count encodeArc (fun _ _ _ => countArc_eq) h, checkedWords_eq_ok hwords, encodeGraph]
  simp only [length_cons]
  omega

theorem countPhrases_eq {n : Nat} {gs : List PhraseGraph} (h : countPhrases words gs = .ok n) :
    n + 1 = words + (encodePhrases gs).length := by
  simp only [countPhrases, bind_eq_ok] at h
  obtain ⟨_, -, h⟩ := h
  rw [foldlM_count encodeGraph (fun _ _ _ => countPhrase_eq) h, encodePhrases, length_cons]
  omega

variable {ex : Extracted}

theorem countQuoted_eq {n : Nat} (h : ex.countQuoted words = .ok n) :
    n = words + (if ex.hasPhrases then
      encodePhrases ex.requiredPhrases ++ encodePhrases ex.forbiddenPhrases else []).length := by
  unfold countQuoted at h
  split at h
  · next hnone =>
    have hp : ex.hasPhrases = false := by simp [hasPhrases, hnone]
    rw [hp]
    exact (Except.ok.inj h).symm
  · next hsome =>
    have hp : ex.hasPhrases = true := by
      simpa [hasPhrases, ← not_and_or] using hsome
    simp only [bind_eq_ok] at h
    obtain ⟨words₁, hwords, words₂, hreq, hforb⟩ := h
    have h₁ := checkedWords_eq_ok hwords
    have h₂ := countPhrases_eq hreq
    have h₃ := countPhrases_eq hforb
    rw [hp, if_pos rfl, length_append]
    omega

/-- **The check counts one word more than the body of the program has**, for
the version, and none for the ranking counts. -/
theorem countColumns_eq {n : Nat} (h : ex.countColumns = .ok n) :
    n = (encodeBody ex).length + 1 ∧ n ≤ u32Max := by
  simp only [countColumns, bind_eq_ok, withinCeiling_eq_ok] at h
  obtain ⟨_, -, _, -, _, -, _, -, _, -, words₁, hgroups, _, -, words₂, hconj, words₃, hquoted, _,
    hle, hn⟩ := h
  obtain rfl : words₃ = n := Except.ok.inj hn
  refine ⟨?_, hle⟩
  rw [countQuoted_eq hquoted, foldlM_count encodeRun (fun _ _ _ => countConjunction_eq) hconj,
    foldlM_count encodeGroup (fun _ _ _ => countPredicate_eq) hgroups, encodeBody]
  simp only [cons_append, length_cons, length_append]
  omega

end Extracted

theorem length_encodeBody_lt {ex : Extracted} (h : ex.columnOverflow = none) :
    (encodeBody ex).length + 1 ≤ u32Max := by
  unfold Extracted.columnOverflow at h
  split at h
  · contradiction
  · next n hn =>
    obtain ⟨rfl, hle⟩ := Extracted.countColumns_eq hn
    exact hle

theorem length_encodePredicate (ex : Extracted) :
    (encodePredicate ex).length = if needsNoProgram ex then 0 else (encodeBody ex).length + 3 := by
  unfold encodePredicate
  split <;> rfl

/-! ## the words of the clauses -/

def runWords (features : List FeatureId) : Nat := features.length + 1

def PhraseArc.words (a : PhraseArc) : Nat := a.alternatives.length + 3

def AnyOfMember.words (m : AnyOfMember) : Nat := (m.requirements.map runWords).sum + 1

def AnyOfPredicate.words (p : AnyOfPredicate) : Nat := (p.members.map AnyOfMember.words).sum + 1

def PhraseGraph.words (g : PhraseGraph) : Nat := (g.arcs.map PhraseArc.words).sum + 2

/-- How many words the compound and quoted clauses of a query take: each list
its elements and one word more, an arc two more and a graph one. -/
def Extracted.clauseWords (ex : Extracted) : Nat :=
  (ex.anyofPredicates.map AnyOfPredicate.words).sum
    + (ex.forbiddenConjunctions.map runWords).sum
    + if ex.hasPhrases then
        ((ex.requiredPhrases ++ ex.forbiddenPhrases).map PhraseGraph.words).sum + 2
      else 0

/-- The length of a concatenation is the sum of the lengths. -/
theorem length_flatMap_of {α β : Type} {enc : α → List β} {words : α → Nat}
    (h : ∀ x, (enc x).length = words x) (xs : List α) :
    (xs.flatMap enc).length = (xs.map words).sum := by
  rw [length_flatMap]
  exact congrArg List.sum (map_congr_left fun x _ => h x)

theorem length_encodeRun_eq (ws : List FeatureId) : (encodeRun ws).length = runWords ws := rfl

theorem length_encodeGroup (p : AnyOfPredicate) : (encodeGroup p).length = p.words := by
  have hmember (m : AnyOfMember) : (encodeMember m).length = m.words := by
    rw [encodeMember, length_cons, length_flatMap_of length_encodeRun_eq]
    rfl
  rw [encodeGroup, length_cons, length_flatMap_of hmember]
  rfl

theorem length_encodePhrases (gs : List PhraseGraph) :
    (encodePhrases gs).length = (gs.map PhraseGraph.words).sum + 1 := by
  have harc (a : PhraseArc) : (encodeArc a).length = a.words := rfl
  have hgraph (g : PhraseGraph) : (encodeGraph g).length = g.words := by
    rw [encodeGraph, length_cons, length_cons, length_flatMap_of harc]
    rfl
  rw [encodePhrases, length_cons, length_flatMap_of hgraph]

theorem length_encodeBody (ex : Extracted) : (encodeBody ex).length = ex.clauseWords + 2 := by
  simp only [encodeBody, Extracted.clauseWords, length_cons, length_append,
    length_flatMap_of length_encodeGroup, length_flatMap_of length_encodeRun_eq]
  cases ex.hasPhrases with
  | false =>
    simp only [Bool.false_eq_true, if_false, length_nil]
    omega
  | true =>
    simp only [if_true, length_append, length_encodePhrases, map_append, sum_append]
    omega

/-- **How long a program is**: five words and those of the clauses, if there is
one. -/
theorem length_program (ex : Extracted) :
    (encodePredicate ex).length = if needsNoProgram ex then 0 else ex.clauseWords + 5 := by
  rw [length_encodePredicate, length_encodeBody]

theorem length_program_lt_iff (ex : Extracted) :
    (encodePredicate ex).length < 2 ^ 32 ↔ ex.clauseWords + 5 < 2 ^ 32 := by
  rw [length_program]
  cases hneeds : needsNoProgram ex with
  | false => rfl
  | true =>
    obtain ⟨hany, hforb, hflat⟩ := clauseless_of_needsNoProgram hneeds
    simp [Extracted.clauseWords, hany, hforb, hflat]

theorem length_program_of_le {ex : Extracted} (h : 2 ^ 32 ≤ ex.clauseWords + 5) :
    (encodePredicate ex).length = ex.clauseWords + 5 := by
  have hlong := (not_congr (length_program_lt_iff ex)).mpr (Nat.not_lt.mpr h)
  rw [length_program] at hlong ⊢
  split at hlong
  · exact absurd (by decide) hlong
  · next hneeds => rw [if_neg hneeds]

/-- The check lets two lengths through that a `u32` does not hold. -/
theorem clauseWords_cases {ex : Extracted} (h : ex.columnOverflow = none) :
    ex.clauseWords + 5 < 2 ^ 32 ∨ ex.clauseWords + 5 = 2 ^ 32 ∨ ex.clauseWords + 5 = 2 ^ 32 + 1 := by
  have hbody := length_encodeBody_lt h
  rw [length_encodeBody] at hbody
  simp only [u32Max] at hbody
  omega

/-! ## the counts a row is stored with -/

/-- The lengths and counts of a stored row, as wide as their columns. -/
structure RowCounts where
  reqLen : UInt16
  forbLen : UInt16
  groupCount : UInt16
  groupLens : List UInt16
  predicateLen : UInt32
  tagLen : UInt16
deriving DecidableEq, Repr

def rowCounts (d : Dict) (ex : Extracted) (tags : List TagId) : RowCounts where
  reqLen := UInt16.ofNat (unmasked d ex.required).length
  forbLen := UInt16.ofNat (unmasked d ex.forbidden).length
  groupCount := UInt16.ofNat ex.anyof.length
  groupLens := ex.anyof.map fun g => UInt16.ofNat g.length
  predicateLen := UInt32.ofNat (encodePredicate ex).length
  tagLen := UInt16.ofNat tags.length

def AnyOfMember.counts (m : AnyOfMember) : List Nat :=
  m.requirements.length :: m.requirements.map List.length

def AnyOfPredicate.counts (p : AnyOfPredicate) : List Nat :=
  p.members.length :: p.members.flatMap AnyOfMember.counts

def PhraseGraph.counts (g : PhraseGraph) : List Nat :=
  g.arcs.length :: g.arcs.map fun a => a.alternatives.length

def phraseCounts (gs : List PhraseGraph) : List Nat := gs.length :: gs.flatMap PhraseGraph.counts

def Extracted.programCounts (ex : Extracted) : List Nat :=
  ex.anyofPredicates.length :: ex.anyofPredicates.flatMap AnyOfPredicate.counts
    ++ ex.forbiddenConjunctions.length :: ex.forbiddenConjunctions.map List.length
    ++ (if ex.hasPhrases then phraseCounts ex.requiredPhrases ++ phraseCounts ex.forbiddenPhrases
        else [])

/-- No cast wraps: each stored count is the length it stands for. -/
structure RowCounts.Exact (c : RowCounts) (d : Dict) (ex : Extracted) (tags : List TagId) :
    Prop where
  required : c.reqLen.toNat = (unmasked d ex.required).length
  forbidden : c.forbLen.toNat = (unmasked d ex.forbidden).length
  groups : c.groupCount.toNat = ex.anyof.length
  group : c.groupLens.map UInt16.toNat = ex.anyof.map List.length
  program : c.predicateLen.toNat = (encodePredicate ex).length
  words : ∀ n ∈ ex.programCounts, (wordCount n).toNat = n
  tags : c.tagLen.toNat = tags.length

/-! ## no count in the program is longer than the program -/

section Program

variable {n : Nat}

theorem le_length_flatMap {α : Type} (counts : α → List Nat) (enc : α → List UInt32)
    (h : ∀ x, ∀ n ∈ counts x, n ≤ (enc x).length) {xs : List α} (hn : n ∈ xs.flatMap counts) :
    n ≤ (xs.flatMap enc).length := by
  obtain ⟨x, hx, hn⟩ := mem_flatMap.mp hn
  refine (h x n hn).trans ?_
  rw [length_flatMap]
  exact le_sum_of_mem (mem_map_of_mem hx)

theorem le_length_runs {runs : List (List FeatureId)} (hn : n ∈ runs.map List.length) :
    n ≤ (runs.flatMap encodeRun).length := by
  rw [map_eq_flatMap] at hn
  refine le_length_flatMap (fun r => [r.length]) encodeRun (fun r m hm => ?_) hn
  rw [mem_singleton.mp hm, encodeRun, length_cons]
  exact Nat.le_succ _

theorem le_length_encodeMember {m : AnyOfMember} (hn : n ∈ m.counts) :
    n ≤ (encodeMember m).length := by
  rw [encodeMember, length_cons]
  rcases mem_cons.mp hn with rfl | hn
  · exact (length_le_length_flatMap length_encodeRun_pos _).trans (Nat.le_succ _)
  · exact (le_length_runs hn).trans (Nat.le_succ _)

theorem le_length_encodeGroup {p : AnyOfPredicate} (hn : n ∈ p.counts) :
    n ≤ (encodeGroup p).length := by
  rw [encodeGroup, length_cons]
  rcases mem_cons.mp hn with rfl | hn
  · exact (length_le_length_flatMap length_encodeMember_pos _).trans (Nat.le_succ _)
  · exact (le_length_flatMap _ encodeMember (fun _ _ => le_length_encodeMember) hn).trans (Nat.le_succ _)

theorem le_length_encodeGraph {g : PhraseGraph} (hn : n ∈ g.counts) :
    n ≤ (encodeGraph g).length := by
  simp only [encodeGraph, length_cons]
  rcases mem_cons.mp hn with rfl | hn
  · have := length_le_length_flatMap length_encodeArc_pos g.arcs
    omega
  · rw [map_eq_flatMap] at hn
    have := le_length_flatMap (fun a => [a.alternatives.length]) encodeArc (fun a m hm => by
      rw [mem_singleton.mp hm, encodeArc, encodeRun]
      simp only [length_cons]
      omega) hn
    omega

theorem le_length_encodePhrases {gs : List PhraseGraph} (hn : n ∈ phraseCounts gs) :
    n ≤ (encodePhrases gs).length := by
  rw [encodePhrases, length_cons]
  rcases mem_cons.mp hn with rfl | hn
  · exact (length_le_length_flatMap length_encodeGraph_pos _).trans (Nat.le_succ _)
  · exact (le_length_flatMap _ encodeGraph (fun _ _ => le_length_encodeGraph) hn).trans (Nat.le_succ _)

/-- **Every count in the program is at most the length of its body.** -/
theorem le_length_encodeBody {ex : Extracted} (hn : n ∈ ex.programCounts) :
    n ≤ (encodeBody ex).length := by
  have hgroups := length_le_length_flatMap length_encodeGroup_pos ex.anyofPredicates
  have hconj := length_le_length_flatMap length_encodeRun_pos ex.forbiddenConjunctions
  simp only [encodeBody, length_cons, length_append]
  rcases mem_append.mp hn with hn | hn
  · rcases mem_append.mp hn with hn | hn
    · rcases mem_cons.mp hn with rfl | hn
      · omega
      · have := le_length_flatMap _ encodeGroup (fun _ _ => le_length_encodeGroup) hn
        omega
    · rcases mem_cons.mp hn with rfl | hn
      · omega
      · have := le_length_runs hn
        omega
  · cases hp : ex.hasPhrases with
    | false => simp [hp] at hn
    | true =>
      rw [hp, if_pos rfl] at hn
      rw [if_pos rfl, length_append]
      rcases mem_append.mp hn with hn | hn
      · have := le_length_encodePhrases hn
        omega
      · have := le_length_encodePhrases hn
        omega

end Program

/-- **Which stored counts are exact.**  Of a query that passes the check, every
stored length and count is the true one exactly when its clauses take fewer
than `2 ^ 32 - 5` words and there are fewer than `2 ^ 16` tags. -/
theorem counts_exact_iff {ex : Extracted} (h : ex.columnOverflow = none) (d : Dict)
    (tags : List TagId) :
    (rowCounts d ex tags).Exact d ex tags ↔ ex.clauseWords + 5 < 2 ^ 32 ∧ tags.length < 2 ^ 16 := by
  rw [← length_program_lt_iff]
  constructor
  · intro hexact
    rw [← hexact.program, ← hexact.tags]
    exact ⟨(rowCounts d ex tags).predicateLen.toNat_lt, (rowCounts d ex tags).tagLen.toNat_lt⟩
  · rintro ⟨hlen, htags⟩
    obtain ⟨hreq, hforb, hany, hgroups⟩ := columns_lt h
    have hbody := length_encodeBody_lt h
    have hu16 : ∀ {n : Nat}, n < 2 ^ 16 → (UInt16.ofNat n).toNat = n := fun hn =>
      UInt16.toNat_ofNat_of_lt' hn
    exact
      { required := hu16 (Nat.lt_of_le_of_lt (length_filter_le _ _) hreq)
        forbidden := hu16 (Nat.lt_of_le_of_lt (length_filter_le _ _) hforb)
        groups := hu16 hany
        group := by
          rw [rowCounts, map_map]
          exact map_congr_left fun g hg => hu16 (hgroups g hg)
        program := UInt32.toNat_ofNat_of_lt' hlen
        words := fun n hn => toNat_wordCount (by
          have := le_length_encodeBody hn
          simp only [u32Max] at hbody
          omega)
        tags := hu16 htags }

/-! ## a query two words too long -/

def firstFeatures (n : Nat) : List FeatureId := (List.range n).map UInt32.ofNat

@[simp] theorem length_firstFeatures (n : Nat) : (firstFeatures n).length = n := by
  simp [firstFeatures]

theorem pairwise_firstFeatures {n : Nat} (h : n ≤ 2 ^ 32) :
    (firstFeatures n).Pairwise (· < ·) := by
  rw [firstFeatures, pairwise_map]
  refine List.Pairwise.imp_of_mem (fun {a b} ha hb hab => ?_) pairwise_lt_range
  rw [mem_range] at ha hb
  rw [UInt32.lt_iff_toNat_lt, UInt32.toNat_ofNat_of_lt' (by simp only [UInt32.size]; omega),
    UInt32.toNat_ofNat_of_lt' (by simp only [UInt32.size]; omega)]
  exact hab

def forbidTogether (n : Nat) : Extracted := { forbiddenConjunctions := [firstFeatures n] }

theorem canonical_forbidTogether {n : Nat} (hpos : n ≠ 0) (h : n ≤ 2 ^ 32) :
    (forbidTogether n).Canonical := by
  have hne : firstFeatures n ≠ [] := by
    rw [ne_eq, ← length_eq_zero_iff, length_firstFeatures]
    exact hpos
  have hsorted := sortDedup_eq_self (pairwise_firstFeatures h)
  have hone : sortDedup ([firstFeatures n].filter (· ≠ [])) = [firstFeatures n] := by
    rw [filter_cons_of_pos (by simpa using hne), filter_nil]
    exact sortDedup_eq_self (pairwise_singleton _ _)
  simp only [Extracted.Canonical, Extracted.canonicalize, forbidTogether, map_cons, hsorted,
    map_nil, hone]
  rfl

theorem withinCeiling_of_le {ceiling n : Nat} (h : n ≤ ceiling) :
    Extracted.withinCeiling ceiling n = .ok () :=
  withinCeiling_eq_ok.mpr h

theorem columnOverflow_forbidTogether {n : Nat} (h : n + 4 ≤ u32Max) :
    (forbidTogether n).columnOverflow = none := by
  have hcount : Extracted.countConjunction 3 (firstFeatures n) = .ok (3 + (1 + n)) := by
    rw [Extracted.countConjunction, length_firstFeatures, withinCeiling_of_le (by omega), ok_bind,
      Extracted.checkedWords, if_pos (by simp only [u32Max] at h; omega)]
  -- the empty columns pass
  have hzero (ceiling : Nat) : Extracted.withinCeiling ceiling 0 = .ok () :=
    withinCeiling_of_le (Nat.zero_le _)
  have hnone : ([] : List (List FeatureId)).forM
      (fun g => Extracted.withinCeiling Extracted.u16Max g.length) = .ok () := rfl
  have hcolumns : (forbidTogether n).countColumns = .ok (3 + (1 + n)) := by
    simp only [Extracted.countColumns, forbidTogether, length_nil, hzero, ok_bind, hnone,
      foldlM_nil, pure_bind, length_singleton, withinCeiling_of_le (show 1 ≤ u32Max by decide),
      foldlM_cons, hcount, Extracted.countQuoted, and_self, if_true,
      withinCeiling_of_le (show 3 + (1 + n) ≤ u32Max by omega)]
    rfl
  rw [Extracted.columnOverflow, hcolumns]

theorem needsNoProgram_forbidTogether (n : Nat) : needsNoProgram (forbidTogether n) = false := by
  simp [needsNoProgram, forbidTogether]

theorem length_encode_forbidTogether (n : Nat) :
    (encodePredicate (forbidTogether n)).length = n + 6 := by
  rw [length_encodePredicate, needsNoProgram_forbidTogether]
  simp [encodeBody, forbidTogether, Extracted.hasPhrases, encodeRun]

/-- **A count that wraps**: a canonical query passes the check, and the length
of its program, two more than `2 ^ 32 - 1`, is stored as one. -/
theorem oversized_wraps :
    ∃ ex : Extracted, ex.Canonical ∧ ex.columnOverflow = none ∧
      (encodePredicate ex).length = 2 ^ 32 + 1 ∧
      ∀ d tags, (rowCounts d ex tags).predicateLen = 1 ∧
        ¬ (rowCounts d ex tags).Exact d ex tags := by
  have hoverflow := columnOverflow_forbidTogether (n := 2 ^ 32 - 5) (by decide)
  have hlen : (encodePredicate (forbidTogether (2 ^ 32 - 5))).length = 2 ^ 32 + 1 :=
    length_encode_forbidTogether _
  refine ⟨forbidTogether (2 ^ 32 - 5), canonical_forbidTogether (by decide) (by decide), hoverflow,
    hlen, fun d tags => ⟨?_, fun hexact => ?_⟩⟩
  · rw [rowCounts, hlen]
    rfl
  · have hlt := (rowCounts d (forbidTogether (2 ^ 32 - 5)) tags).predicateLen.toNat_lt
    rw [hexact.program, hlen] at hlt
    omega

theorem clauseWords_forbidTogether (n : Nat) : (forbidTogether n).clauseWords = n + 1 := by
  simp [Extracted.clauseWords, forbidTogether, Extracted.hasPhrases, runWords]

theorem small_counts_exact :
    (rowCounts .new (forbidTogether 2) [4, 7]).Exact .new (forbidTogether 2) [4, 7] :=
  (counts_exact_iff (columnOverflow_forbidTogether (by decide)) .new [4, 7]).mpr
    ⟨by rw [clauseWords_forbidTogether]; decide, by decide⟩

end ReverseRusty
