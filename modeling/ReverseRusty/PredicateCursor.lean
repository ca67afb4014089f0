import ReverseRusty.Lib.Ragged
import ReverseRusty.MmapAccess
import ReverseRusty.PhraseWalk

/-!
# ReverseRusty.PredicateCursor

The walks over a stored program with their cursors (`verify_predicate`,
`predicate_rank_term_counts`, `skip_graph` and `take_graph` of
`exact/predicate.rs`).  Every index and every slice is checked against the
words; a cursor that only moves is not.

Each walker has one lemma: over words that hold the encoding of some items, it
answers as the items say and its cursor ends right behind them.
-/

namespace ReverseRusty

open List

/-! ## reading -/

section Readers

variable (words : List UInt32)

def wordAt (i : Nat) : Checked UInt32 := Checked.ofOption words[i]?

/-- Read `n` requirements of a member: whether each has a label in `pos`. -/
def requirementsAt (pos : List FeatureId) : Nat → Bool → Nat → Checked (Bool × Nat)
  | 0, hit, i => .ok (hit, i)
  | n + 1, hit, i => do
    let count ← wordAt words i
    let alternatives ← checkedSlice words (i + 1) count.toNat
    requirementsAt pos n (hit && alternatives.any (binarySearch pos)) (i + 1 + count.toNat)

/-- Read `n` members of a group: whether one is hit. -/
def membersAt (pos : List FeatureId) : Nat → Bool → Nat → Checked (Bool × Nat)
  | 0, hit, i => .ok (hit, i)
  | n + 1, hit, i => do
    let count ← wordAt words i
    let (memberHit, i) ← requirementsAt words pos count.toNat true (i + 1)
    membersAt pos n (hit || memberHit) i

/-- Read `n` groups, stopping at the first that is not hit. -/
def groupsAt (pos : List FeatureId) : Nat → Nat → Checked (Bool × Nat)
  | 0, i => .ok (true, i)
  | n + 1, i => do
    let count ← wordAt words i
    let (hit, i) ← membersAt words pos count.toNat false (i + 1)
    if hit then groupsAt pos n i else .ok (false, i)

/-- Read `n` forbidden conjunctions, stopping at the first that holds. -/
def conjunctionsAt (neg : List FeatureId) : Nat → Nat → Checked (Bool × Nat)
  | 0, i => .ok (true, i)
  | n + 1, i => do
    let count ← wordAt words i
    let features ← checkedSlice words (i + 1) count.toNat
    if features.all (binarySearch neg) then .ok (false, i + 1 + count.toNat)
    else conjunctionsAt neg n (i + 1 + count.toNat)

/-- Move the cursor over `n` arcs. -/
def skipArcs : Nat → Nat → Checked Nat
  | 0, i => .ok i
  | n + 1, i => do
    let count ← wordAt words (i + 2)
    skipArcs n (i + 3 + count.toNat)

/-- Move the cursor over a quoted graph. -/
def skipGraph (i : Nat) : Checked Nat := do
  let count ← wordAt words (i + 1)
  skipArcs words count.toNat (i + 2)

/-- Move the cursor over `n` quoted graphs. -/
def skipGraphs : Nat → Nat → Checked Nat
  | 0, i => .ok i
  | n + 1, i => do
    let i ← skipGraph words i
    skipGraphs n i

def takeGraph (i : Nat) : Checked (List UInt32 × Nat) := do
  let stop ← skipGraph words i
  let graph ← checkedSlice words i (stop - i)
  return (graph, stop)

/-- Walk `n` graphs, stopping at the first with a given outcome. -/
def graphsAt (stop : Bool) (t : PositionGraph) : Nat → Nat → Checked Bool
  | 0, _ => .ok true
  | n + 1, i => do
    let (graph, i) ← takeGraph words i
    let outcome ← Checked.ofOption (graphMatches? graph t)
    if outcome = some stop then .ok false else graphsAt stop t n i

/-- The quoted part: move over the required graphs to find the forbidden ones,
then walk both lists. -/
def verifyPhrasesAt (v : TitleView) (i : Nat) : Checked Bool := do
  let required ← wordAt words i
  let j ← skipGraphs words required.toNat (i + 1)
  let forbidden ← wordAt words j
  match v.posGraph, v.negGraph, v.phraseScratch with
  | some posGraph, some negGraph, true =>
    if ← graphsAt words false posGraph required.toNat (i + 1) then
      graphsAt words true negGraph forbidden.toNat (j + 1)
    else .ok false
  | _, _, _ => .ok true

/-- The clauses from the cursor on. -/
def verifyBodyAt (quoted : Bool) (v : TitleView) (i : Nat) : Checked Bool := do
  let positive ← wordAt words i
  let (hit, i) ← groupsAt words v.pos positive.toNat (i + 1)
  if !hit then .ok false
  else do
    let negative ← wordAt words i
    let (clear, i) ← conjunctionsAt words v.neg negative.toNat (i + 1)
    if !clear then .ok false
    else if quoted then verifyPhrasesAt words v i
    else .ok true

def bodyStart (version : UInt32) : Nat :=
  if version = rankFeatureProgramVersion ∨ version = rankPhraseProgramVersion then 3 else 1

/-- **Verify** a stored program. -/
def verifyPredicateAt (v : TitleView) : Checked Bool :=
  if words.isEmpty then .ok true
  else do
    let version ← wordAt words 0
    verifyBodyAt words (predicateHasPhrases words) v (bodyStart version)

end Readers

/-! ## the ranking counts -/

section Rank

variable (words : List UInt32)

/-- Move the cursor over `n` counted runs. -/
def skipRunsAt : Nat → Nat → Checked Nat
  | 0, i => .ok i
  | n + 1, i => do
    let count ← wordAt words i
    skipRunsAt n (i + 1 + count.toNat)

/-- Move over `n` members, keeping the shortest requirement count. -/
def rankMembers : Nat → UInt32 → Nat → Checked (UInt32 × Nat)
  | 0, shortest, i => .ok (shortest, i)
  | n + 1, shortest, i => do
    let count ← wordAt words i
    let i ← skipRunsAt words count.toNat (i + 1)
    rankMembers n (min shortest count) i

/-- Move over `n` groups, adding up the terms each needs beyond one. -/
def rankGroups : Nat → Nat → Nat → Checked (Nat × Nat)
  | 0, extra, i => .ok (extra, i)
  | n + 1, extra, i => do
    let count ← wordAt words i
    let (shortest, i) ← rankMembers words count.toNat 0xFFFFFFFF (i + 1)
    rankGroups n (satAdd extra (shortest.toNat - 1)) i

/-- Move over `n` forbidden conjunctions, adding up their features. -/
def rankConjunctions : Nat → Nat → Nat → Checked (Nat × Nat)
  | 0, terms, i => .ok (terms, i)
  | n + 1, terms, i => do
    let count ← wordAt words i
    rankConjunctions n (satAdd terms count.toNat) (i + 1 + count.toNat)

/-- Move over `n` quoted graphs, adding up their positions. -/
def rankGraphs : Nat → Nat → Nat → Checked (Nat × Nat)
  | 0, terms, i => .ok (terms, i)
  | n + 1, terms, i => do
    let positions ← wordAt words i
    let i ← skipGraph words i
    rankGraphs n (satAdd terms positions.toNat) i

/-- What a program says for ranking. -/
structure RankTermCounts where
  positiveTerms : Nat
  negativeTerms : Nat
  anyofGroups : Nat
deriving DecidableEq, Repr

/-- The quoted part: the positions of the required graphs and the negative
terms with those of the forbidden ones. -/
def rankPhrases (quoted : Bool) (negative i : Nat) : Checked (Nat × Nat × Nat) :=
  if quoted then do
    let required ← wordAt words i
    let (positive, i) ← rankGraphs words required.toNat 0 (i + 1)
    let forbidden ← wordAt words i
    let (negative, i) ← rankGraphs words forbidden.toNat negative (i + 1)
    return (positive, negative, i)
  else .ok (0, negative, i)

/-- The counts from the clauses on, and where the cursor ends. -/
def rankBody (quoted : Bool) (semantic : Option (Nat × Nat)) (proxy i : Nat) :
    Checked (RankTermCounts × Nat) := do
  let groups ← wordAt words i
  let (extra, i) ← rankGroups words groups.toNat 0 (i + 1)
  let conjunctions ← wordAt words i
  let (negative, i) ← rankConjunctions words conjunctions.toNat 0 (i + 1)
  let (phrases, negative, i) ← rankPhrases words quoted negative i
  let (anyofGroups, terms) := semantic.getD
    (max proxy groups.toNat, satAdd (max proxy groups.toNat) extra)
  return (⟨satAdd terms phrases, negative, anyofGroups⟩, i)

/-- **The ranking counts** of a stored program, and where the cursor ends. -/
def rankWalk (proxy : Nat) : Checked (RankTermCounts × Nat) :=
  if words.isEmpty then .ok (⟨proxy, 0, proxy⟩, 0)
  else do
    let version ← wordAt words 0
    if version = rankFeatureProgramVersion ∨ version = rankPhraseProgramVersion then do
      let groups ← wordAt words 1
      let terms ← wordAt words 2
      rankBody words (predicateHasPhrases words) (some (groups.toNat, terms.toNat)) proxy 3
    else rankBody words (predicateHasPhrases words) none proxy 1

/-- `predicate_rank_term_counts`. -/
def predicateRankTermCounts (proxy : Nat) : Checked RankTermCounts :=
  Prod.fst <$> rankWalk words proxy

end Rank

/-! ## over an encoding -/

section Encoded

variable {words : List UInt32} {i : Nat}

theorem LiesAt.wordAt {w : UInt32} {ws : List UInt32} (h : LiesAt words i (w :: ws)) :
    wordAt words i = .ok w := by
  rw [ReverseRusty.wordAt, h.head]
  rfl

theorem LiesAt.checkedSlice {ys : List UInt32} (h : LiesAt words i ys) :
    checkedSlice words i ys.length = .ok ys := by
  rw [ReverseRusty.checkedSlice, if_pos h.le, h.slice]

theorem LiesAt.run {r zs : List UInt32} (h : LiesAt words i (encodeRun r ++ zs))
    (hr : r.length < 2 ^ 32) :
    ReverseRusty.wordAt words i = .ok (wordCount r.length) ∧
      (wordCount r.length).toNat = r.length ∧
      ReverseRusty.checkedSlice words (i + 1) r.length = .ok r ∧
      LiesAt words (i + 1 + r.length) zs :=
  ⟨h.left.wordAt, toNat_wordCount hr, h.left.tail.checkedSlice, h.tail.right⟩

theorem requirementsAt_encode {pos : List FeatureId} {rs : List (List FeatureId)} {hit : Bool}
    (h : LiesAt words i (rs.flatMap encodeRun)) (hrs : ∀ r ∈ rs, r.length < 2 ^ 32) :
    requirementsAt words pos rs.length hit i =
      .ok (hit && rs.all fun r => r.any (binarySearch pos), i + (rs.flatMap encodeRun).length) := by
  induction rs generalizing i hit with
  | nil => simp [requirementsAt]
  | cons r rs ih =>
    rw [flatMap_cons] at h
    obtain ⟨hword, hcount, hslice, hrest⟩ := h.run (hrs r mem_cons_self)
    have hih := @ih _ (hit && r.any (binarySearch pos)) hrest
      fun r' hr' => hrs r' (mem_cons_of_mem r hr')
    simp only [length_cons, requirementsAt, hword, ok_bind, hcount, hslice, hih,
      all_cons, Bool.and_assoc, flatMap_cons, length_append, encodeRun,
      Except.ok.injEq, Prod.mk.injEq, true_and]
    omega

theorem membersAt_encode {pos : List FeatureId} {ms : List AnyOfMember} {hit : Bool}
    (h : LiesAt words i (ms.flatMap encodeMember)) (hms : ∀ m ∈ ms, m.Counted) :
    membersAt words pos ms.length hit i =
      .ok (hit || ms.any (AnyOfMember.holds pos), i + (ms.flatMap encodeMember).length) := by
  induction ms generalizing i hit with
  | nil => simp [membersAt]
  | cons m ms ih =>
    rw [flatMap_cons, encodeMember, cons_append] at h
    have hm := hms m mem_cons_self
    have hcount := toNat_wordCount hm.requirements
    have hmember := @requirementsAt_encode _ _ pos _ true h.tail.left hm.alternatives
    have hih := @ih _ (hit || m.holds pos) h.tail.right
      fun m' hm' => hms m' (mem_cons_of_mem m hm')
    rw [AnyOfMember.holds] at hih
    simp only [length_cons, membersAt, h.wordAt, ok_bind, hcount, hmember, Bool.true_and,
      hih, any_cons, Bool.or_assoc, flatMap_cons, length_append, encodeMember,
      Except.ok.injEq, Prod.mk.injEq, AnyOfMember.holds, true_and]
    omega

theorem groupsAt_encode (pos : List FeatureId) {ps : List AnyOfPredicate}
    (h : LiesAt words i (ps.flatMap encodeGroup)) (hps : ∀ p ∈ ps, p.Counted) :
    ∃ j, groupsAt words pos ps.length i = .ok (ps.all (AnyOfPredicate.holds pos), j) ∧
      (ps.all (AnyOfPredicate.holds pos) = true → j = i + (ps.flatMap encodeGroup).length) := by
  induction ps generalizing i with
  | nil => exact ⟨i, by simp [groupsAt], by simp⟩
  | cons p ps ih =>
    rw [flatMap_cons, encodeGroup, cons_append] at h
    have hp := hps p mem_cons_self
    have hcount := toNat_wordCount hp.count
    have hgroup := @membersAt_encode _ _ pos _ false h.tail.left hp.members
    obtain ⟨j, hj, hend⟩ := ih h.tail.right fun p' hp' => hps p' (mem_cons_of_mem p hp')
    simp only [length_cons, groupsAt, h.wordAt, ok_bind, hcount, hgroup, Bool.false_or,
      all_cons, flatMap_cons, length_append, encodeGroup]
    change ∃ j, (if p.holds pos = true then _ else _) = _ ∧ _
    cases p.holds pos with
    | true => exact ⟨j, by simpa using hj, fun hall => by rw [hend (by simpa using hall)]; omega⟩
    | false => exact ⟨_, rfl, by simp⟩

theorem conjunctionsAt_encode (neg : List FeatureId) {cs : List (List FeatureId)}
    (h : LiesAt words i (cs.flatMap encodeRun)) (hcs : ∀ c ∈ cs, c.length < 2 ^ 32) :
    ∃ j, conjunctionsAt words neg cs.length i =
        .ok (!cs.any (fun c => c.all (binarySearch neg)), j) ∧
      (cs.any (fun c => c.all (binarySearch neg)) = false →
        j = i + (cs.flatMap encodeRun).length) := by
  induction cs generalizing i with
  | nil => exact ⟨i, by simp [conjunctionsAt], by simp⟩
  | cons c cs ih =>
    rw [flatMap_cons] at h
    obtain ⟨hword, hcount, hslice, hrest⟩ := h.run (hcs c mem_cons_self)
    obtain ⟨j, hj, hend⟩ := ih hrest fun c' hc' => hcs c' (mem_cons_of_mem c hc')
    simp only [length_cons, conjunctionsAt, hword, ok_bind, hcount, hslice, any_cons,
      flatMap_cons, length_append, encodeRun]
    cases c.all (binarySearch neg) with
    | true => exact ⟨_, rfl, by simp⟩
    | false => exact ⟨j, by simpa using hj, fun hnone => by rw [hend (by simpa using hnone)]; omega⟩

theorem skipArcs_encode {as : List PhraseArc} (h : LiesAt words i (as.flatMap encodeArc))
    (has : ∀ a ∈ as, a.alternatives.length < 2 ^ 32) :
    skipArcs words as.length i = .ok (i + (as.flatMap encodeArc).length) := by
  induction as generalizing i with
  | nil => simp [skipArcs]
  | cons a as ih =>
    rw [flatMap_cons, encodeArc, cons_append, cons_append] at h
    obtain ⟨hword, hcount, -, hrest⟩ := h.tail.tail.run (has a mem_cons_self)
    have hih := ih hrest fun b hb => has b (mem_cons_of_mem a hb)
    have hpos : i + 3 + a.alternatives.length = i + 1 + 1 + 1 + a.alternatives.length := by omega
    simp only [length_cons, skipArcs, hword, ok_bind, hcount, hpos, hih, flatMap_cons,
      length_append, encodeArc, encodeRun, Except.ok.injEq]
    omega

variable {g : PhraseGraph}

/-- **A graph is skipped exactly**: the cursor lands on the word behind it. -/
theorem skipGraph_encode (h : LiesAt words i (encodeGraph g)) (hg : g.Counted) :
    skipGraph words i = .ok (i + (encodeGraph g).length) := by
  rw [encodeGraph] at h
  have hcount := toNat_wordCount hg.arcs
  have harcs := skipArcs_encode h.tail.tail hg.labels
  simp only [skipGraph, h.tail.wordAt, ok_bind, hcount, harcs, encodeGraph, length_cons,
    Except.ok.injEq]
  omega

variable {gs : List PhraseGraph}

theorem skipGraphs_encode (h : LiesAt words i (gs.flatMap encodeGraph)) (hgs : ∀ g ∈ gs, g.Counted) :
    skipGraphs words gs.length i = .ok (i + (gs.flatMap encodeGraph).length) := by
  induction gs generalizing i with
  | nil => simp [skipGraphs]
  | cons g gs ih =>
    rw [flatMap_cons] at h
    have hskip := skipGraph_encode h.left (hgs g mem_cons_self)
    have hih := ih h.right fun g' hg' => hgs g' (mem_cons_of_mem g hg')
    simp only [length_cons, skipGraphs, hskip, ok_bind, hih, flatMap_cons,
      length_append, Except.ok.injEq]
    omega

theorem takeGraph_encode (h : LiesAt words i (encodeGraph g)) (hg : g.Counted) :
    takeGraph words i = .ok (encodeGraph g, i + (encodeGraph g).length) := by
  simp only [takeGraph, skipGraph_encode h hg, ok_bind, Nat.add_sub_cancel_left, h.checkedSlice]
  rfl

theorem graphMatches?_encode (hg : g.Counted) (t : PositionGraph) :
    graphMatches? (encodeGraph g) t = some (walk g t) := by
  have hread : readGraph (encodeGraph g ++ []) = some (g, []) := hg.readGraph
  rw [append_nil] at hread
  exact graphMatches?_eq hread

theorem graphsAt_encode (stop : Bool) (t : PositionGraph)
    (h : LiesAt words i (gs.flatMap encodeGraph)) (hgs : ∀ g ∈ gs, g.Counted) :
    graphsAt words stop t gs.length i = .ok (!gs.any fun g => walk g t = some stop) := by
  induction gs generalizing i with
  | nil => simp [graphsAt]
  | cons g gs ih =>
    rw [flatMap_cons] at h
    have hg := hgs g mem_cons_self
    have htake := takeGraph_encode h.left hg
    have hih := ih h.right fun g' hg' => hgs g' (mem_cons_of_mem g hg')
    simp only [length_cons, graphsAt, htake, ok_bind, graphMatches?_encode hg,
      Checked.ofOption, hih, any_cons]
    by_cases hw : walk g t = some stop
    · simp [hw]
    · simp [hw]

def encodeQuoted (ex : Extracted) : List UInt32 :=
  if ex.hasPhrases then encodePhrases ex.requiredPhrases ++ encodePhrases ex.forbiddenPhrases else []

variable {ex : Extracted}

theorem LiesAt.body (h : LiesAt words i (encodeBody ex)) :
    ∃ j k, j = i + 1 + (ex.anyofPredicates.flatMap encodeGroup).length ∧
      k = j + 1 + (ex.forbiddenConjunctions.flatMap encodeRun).length ∧
      ReverseRusty.wordAt words i = .ok (wordCount ex.anyofPredicates.length) ∧
      LiesAt words (i + 1) (ex.anyofPredicates.flatMap encodeGroup) ∧
      ReverseRusty.wordAt words j = .ok (wordCount ex.forbiddenConjunctions.length) ∧
      LiesAt words (j + 1) (ex.forbiddenConjunctions.flatMap encodeRun) ∧
      LiesAt words k (encodeQuoted ex) ∧
      k + (encodeQuoted ex).length = i + (encodeBody ex).length := by
  have hparts : encodeBody ex = wordCount ex.anyofPredicates.length ::
      (ex.anyofPredicates.flatMap encodeGroup ++ wordCount ex.forbiddenConjunctions.length ::
        (ex.forbiddenConjunctions.flatMap encodeRun ++ encodeQuoted ex)) := by
    simp [encodeBody, encodeQuoted]
  rw [hparts] at h ⊢
  refine ⟨_, _, rfl, rfl, h.wordAt, h.tail.left, h.tail.right.wordAt, h.tail.right.tail.left,
    h.tail.right.tail.right, ?_⟩
  simp only [length_cons, length_append]
  omega

theorem LiesAt.quoted (h : LiesAt words i (encodeQuoted ex)) (hquoted : ex.hasPhrases = true) :
    ∃ j, j = i + 1 + (ex.requiredPhrases.flatMap encodeGraph).length ∧
      ReverseRusty.wordAt words i = .ok (wordCount ex.requiredPhrases.length) ∧
      LiesAt words (i + 1) (ex.requiredPhrases.flatMap encodeGraph) ∧
      ReverseRusty.wordAt words j = .ok (wordCount ex.forbiddenPhrases.length) ∧
      LiesAt words (j + 1) (ex.forbiddenPhrases.flatMap encodeGraph) ∧
      j + 1 + (ex.forbiddenPhrases.flatMap encodeGraph).length =
        i + (encodeQuoted ex).length := by
  have hparts : encodeQuoted ex = wordCount ex.requiredPhrases.length ::
      (ex.requiredPhrases.flatMap encodeGraph ++
        wordCount ex.forbiddenPhrases.length :: ex.forbiddenPhrases.flatMap encodeGraph) := by
    simp [encodeQuoted, hquoted, encodePhrases]
  rw [hparts] at h ⊢
  refine ⟨_, rfl, h.wordAt, h.tail.left, h.tail.right.wordAt, h.tail.right.tail, ?_⟩
  simp only [length_cons, length_append]
  omega

variable {v : TitleView}

theorem verifyPhrasesAt_encode (h : LiesAt words i (encodeQuoted ex))
    (hquoted : ex.hasPhrases = true) (hc : ex.Counted) :
    verifyPhrasesAt words v i = .ok (ex.phrasesHold v) := by
  obtain ⟨hreqGraphs, hforbGraphs⟩ := forall_mem_append.mp hc.graphs
  obtain ⟨j, hj, hreq, hrequired, hforb, hforbidden, -⟩ := h.quoted hquoted
  have hskip := skipGraphs_encode hrequired hreqGraphs
  rw [← hj] at hskip
  have hwalkReq := fun t => graphsAt_encode false t hrequired hreqGraphs
  have hwalkForb := fun t => graphsAt_encode true t hforbidden hforbGraphs
  simp only [verifyPhrasesAt, hreq, ok_bind, toNat_wordCount hc.required, hskip, hforb,
    toNat_wordCount hc.forbidden, hwalkReq, hwalkForb, Extracted.phrasesHold]
  obtain ⟨_, _, _, _, _, posGraph, negGraph, scratch⟩ := v
  match posGraph, negGraph, scratch with
  | none, _, _ => rfl
  | some _, none, _ => rfl
  | some _, some _, false => rfl
  | some posGraph, some _, true =>
    cases hreject : ex.requiredPhrases.any fun g => walk g posGraph = some false with
    | true => simp [hreject]
    | false => simp [hreject]

theorem verifyBodyAt_encode (h : LiesAt words i (encodeBody ex)) (hc : ex.Counted) :
    verifyBodyAt words ex.hasPhrases v i = .ok (ex.compoundHolds v) := by
  obtain ⟨j, k, hj, hk, hpositive, hgroups, hnegative, hconj, hquoted, -⟩ := h.body
  obtain ⟨j', hhit, hend⟩ := groupsAt_encode v.pos hgroups hc.predicates
  simp only [verifyBodyAt, hpositive, ok_bind, toNat_wordCount hc.groups, hhit,
    Extracted.compoundHolds]
  cases hall : ex.anyofPredicates.all (AnyOfPredicate.holds v.pos) with
  | false => rfl
  | true =>
    obtain ⟨k', hclear, hend'⟩ := conjunctionsAt_encode v.neg hconj hc.runs
    rw [hend hall, ← hj]
    simp only [Bool.not_true, Bool.false_eq_true, if_false, hnegative, ok_bind,
      toNat_wordCount hc.conjunctions, hclear]
    cases hnone : ex.forbiddenConjunctions.any fun c => c.all (binarySearch v.neg) with
    | true => rfl
    | false =>
      rw [hend' hnone, ← hk]
      simp only [Bool.not_false, Bool.not_true, Bool.false_eq_true, if_false, Bool.true_and]
      cases hphrases : ex.hasPhrases with
      | true => exact verifyPhrasesAt_encode hquoted hphrases hc
      | false =>
        rw [phrasesHold_of_flat hphrases]
        rfl

theorem skipRunsAt_encode {rs : List (List FeatureId)} (h : LiesAt words i (rs.flatMap encodeRun))
    (hrs : ∀ r ∈ rs, r.length < 2 ^ 32) :
    skipRunsAt words rs.length i = .ok (i + (rs.flatMap encodeRun).length) := by
  induction rs generalizing i with
  | nil => simp [skipRunsAt]
  | cons r rs ih =>
    rw [flatMap_cons] at h
    obtain ⟨hword, hcount, -, hrest⟩ := h.run (hrs r mem_cons_self)
    have hih := ih hrest fun r' hr' => hrs r' (mem_cons_of_mem r hr')
    simp only [length_cons, skipRunsAt, hword, ok_bind, hcount, hih, flatMap_cons,
      length_append, encodeRun, Except.ok.injEq]
    omega

theorem rankMembers_encode {ms : List AnyOfMember} {shortest : UInt32}
    (h : LiesAt words i (ms.flatMap encodeMember)) (hms : ∀ m ∈ ms, m.Counted) :
    rankMembers words ms.length shortest i =
      .ok ((ms.map fun m => wordCount m.requirements.length).foldl min shortest,
        i + (ms.flatMap encodeMember).length) := by
  induction ms generalizing i shortest with
  | nil => simp [rankMembers]
  | cons m ms ih =>
    rw [flatMap_cons, encodeMember, cons_append] at h
    have hm := hms m mem_cons_self
    have hskip := skipRunsAt_encode h.tail.left hm.alternatives
    have hih := @ih _ (min shortest (wordCount m.requirements.length)) h.tail.right
      fun m' hm' => hms m' (mem_cons_of_mem m hm')
    simp only [length_cons, rankMembers, h.wordAt, ok_bind,
      toNat_wordCount hm.requirements, hskip, hih, map_cons, foldl_cons,
      flatMap_cons, length_append, encodeMember, Except.ok.injEq, Prod.mk.injEq,
      true_and]
    omega

/-- The terms the shortest member of a stored group needs beyond one. -/
def AnyOfPredicate.storedExtra (p : AnyOfPredicate) : Nat :=
  ((p.members.map fun m => wordCount m.requirements.length).foldl min 0xFFFFFFFF).toNat - 1

theorem rankGroups_encode {ps : List AnyOfPredicate} {extra : Nat}
    (h : LiesAt words i (ps.flatMap encodeGroup)) (hps : ∀ p ∈ ps, p.Counted) :
    rankGroups words ps.length extra i =
      .ok (ps.foldl (fun terms p => satAdd terms p.storedExtra) extra,
        i + (ps.flatMap encodeGroup).length) := by
  induction ps generalizing i extra with
  | nil => simp [rankGroups]
  | cons p ps ih =>
    rw [flatMap_cons, encodeGroup, cons_append] at h
    have hp := hps p mem_cons_self
    have hgroup := @rankMembers_encode _ _ _ 0xFFFFFFFF h.tail.left hp.members
    have hih := @ih _ (satAdd extra p.storedExtra) h.tail.right
      fun p' hp' => hps p' (mem_cons_of_mem p hp')
    simp only [length_cons, rankGroups, h.wordAt, ok_bind, toNat_wordCount hp.count, hgroup,
      foldl_cons, flatMap_cons, length_append, encodeGroup]
    rw [← AnyOfPredicate.storedExtra, hih]
    simp only [Except.ok.injEq, Prod.mk.injEq, true_and]
    omega

theorem rankConjunctions_encode {cs : List (List FeatureId)} {terms : Nat}
    (h : LiesAt words i (cs.flatMap encodeRun)) (hcs : ∀ c ∈ cs, c.length < 2 ^ 32) :
    rankConjunctions words cs.length terms i =
      .ok (cs.foldl (fun terms c => satAdd terms c.length) terms,
        i + (cs.flatMap encodeRun).length) := by
  induction cs generalizing i terms with
  | nil => simp [rankConjunctions]
  | cons c cs ih =>
    rw [flatMap_cons] at h
    obtain ⟨hword, hcount, -, hrest⟩ := h.run (hcs c mem_cons_self)
    have hih := @ih _ (satAdd terms c.length) hrest fun c' hc' => hcs c' (mem_cons_of_mem c hc')
    simp only [length_cons, rankConjunctions, hword, ok_bind, hcount, hih, foldl_cons,
      flatMap_cons, length_append, encodeRun, Except.ok.injEq, Prod.mk.injEq, true_and]
    omega

theorem rankGraphs_encode {gs : List PhraseGraph} {terms : Nat}
    (h : LiesAt words i (gs.flatMap encodeGraph)) (hgs : ∀ g ∈ gs, g.Counted) :
    rankGraphs words gs.length terms i =
      .ok (gs.foldl (fun terms g => satAdd terms g.positions.toNat) terms,
        i + (gs.flatMap encodeGraph).length) := by
  induction gs generalizing i terms with
  | nil => simp [rankGraphs]
  | cons g gs ih =>
    rw [flatMap_cons] at h
    have hskip := skipGraph_encode h.left (hgs g mem_cons_self)
    have hih := @ih _ (satAdd terms g.positions.toNat) h.right
      fun g' hg' => hgs g' (mem_cons_of_mem g hg')
    have hword : wordAt words i = .ok g.positions := h.left.wordAt
    simp only [length_cons, rankGraphs, hword, ok_bind, hskip, hih, foldl_cons,
      flatMap_cons, length_append, Except.ok.injEq, Prod.mk.injEq, true_and]
    omega

/-- The counts some clauses have for ranking, with the group and term counts
that stand in front of them or, in an old program, do not. -/
def Extracted.rankCounts (ex : Extracted) (semantic : Option (Nat × Nat)) (proxy : Nat) :
    RankTermCounts :=
  let stated := semantic.getD (max proxy ex.anyofPredicates.length,
    satAdd (max proxy ex.anyofPredicates.length)
      (ex.anyofPredicates.foldl (fun terms p => satAdd terms p.storedExtra) 0))
  ⟨satAdd stated.2 (ex.requiredPhrases.foldl (fun terms g => satAdd terms g.positions.toNat) 0),
    ex.forbiddenPhrases.foldl (fun terms g => satAdd terms g.positions.toNat)
      (ex.forbiddenConjunctions.foldl (fun terms c => satAdd terms c.length) 0),
    stated.1⟩

theorem rankPhrases_encode (negative : Nat) (h : LiesAt words i (encodeQuoted ex)) (hc : ex.Counted) :
    rankPhrases words ex.hasPhrases negative i =
      .ok (ex.requiredPhrases.foldl (fun terms g => satAdd terms g.positions.toNat) 0,
        ex.forbiddenPhrases.foldl (fun terms g => satAdd terms g.positions.toNat) negative,
        i + (encodeQuoted ex).length) := by
  obtain ⟨hreqGraphs, hforbGraphs⟩ := forall_mem_append.mp hc.graphs
  cases hphrases : ex.hasPhrases with
  | false =>
    obtain ⟨hreq, hforb⟩ := phrases_eq_nil hphrases
    simp [rankPhrases, hreq, hforb, encodeQuoted, hphrases]
  | true =>
    obtain ⟨j, hj, hreq, hrequired, hforb, hforbidden, hend⟩ := h.quoted hphrases
    have hpositive := @rankGraphs_encode _ _ _ 0 hrequired hreqGraphs
    have hnegative := @rankGraphs_encode _ _ _ negative hforbidden hforbGraphs
    rw [← hj] at hpositive
    rw [hend] at hnegative
    simp only [rankPhrases, if_true, hreq, ok_bind, toNat_wordCount hc.required, hpositive, hforb,
      toNat_wordCount hc.forbidden, hnegative]
    rfl

/-- **The ranking counts of an encoding** are those of its clauses, and the
cursor ends behind the last of them. -/
theorem rankBody_encode (semantic : Option (Nat × Nat)) (proxy : Nat)
    (h : LiesAt words i (encodeBody ex)) (hc : ex.Counted) :
    rankBody words ex.hasPhrases semantic proxy i =
      .ok (ex.rankCounts semantic proxy, i + (encodeBody ex).length) := by
  obtain ⟨j, k, hj, hk, hpositive, hgroups, hnegative, hconj, hquoted, hend⟩ := h.body
  have hextra := @rankGroups_encode _ _ _ 0 hgroups hc.predicates
  have hterms := @rankConjunctions_encode _ _ _ 0 hconj hc.runs
  have hphrases := rankPhrases_encode
    (ex.forbiddenConjunctions.foldl (fun terms c => satAdd terms c.length) 0) hquoted hc
  rw [← hj] at hextra
  rw [← hk] at hterms
  rw [hend] at hphrases
  simp only [rankBody, hpositive, ok_bind, toNat_wordCount hc.groups, hextra, hnegative,
    toNat_wordCount hc.conjunctions, hterms, hphrases]
  rfl

end Encoded

end ReverseRusty
