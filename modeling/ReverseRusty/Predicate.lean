import ReverseRusty.Cover

/-!
# ReverseRusty.Predicate

The integer program of a query's compound clauses (`exact/predicate.rs`).
A query with multi-feature any-of members, multi-feature forbidden members
or quoted graphs stores them as one run of `u32` words:

```
version [semantic counts] positive-count groups… negative-count members…
  [required-count graphs… forbidden-count graphs…]
```

`encodePredicate` writes the run; `verifyPredicate?` interprets it on a
title, reading words from the front and answering `none` where the source
would index past the slice.  `verifyPredicate?_encode` is the round trip:
an encoded program is always readable and means the query's clauses.
-/

namespace ReverseRusty

open List
open Option (bind_eq_bind bind_some)

/-! ## encoding -/

/-- A length as the program stores it. -/
def wordCount (n : Nat) : UInt32 := UInt32.ofNat n

/-- Saturating `u32` addition. -/
def satAdd (a b : Nat) : Nat := min (a + b) u32Max

def featureProgramVersion : UInt32 := 1
def phraseProgramVersion : UInt32 := 2
def rankFeatureProgramVersion : UInt32 := 3
def rankPhraseProgramVersion : UInt32 := 4

def encodeRun (ws : List UInt32) : List UInt32 := wordCount ws.length :: ws

def encodeMember (m : AnyOfMember) : List UInt32 :=
  wordCount m.requirements.length :: m.requirements.flatMap encodeRun

def encodeGroup (p : AnyOfPredicate) : List UInt32 :=
  wordCount p.members.length :: p.members.flatMap encodeMember

def encodeArc (a : PhraseArc) : List UInt32 := a.start :: a.end :: encodeRun a.alternatives

def encodeGraph (g : PhraseGraph) : List UInt32 :=
  g.positions :: wordCount g.arcs.length :: g.arcs.flatMap encodeArc

def encodePhrases (gs : List PhraseGraph) : List UInt32 :=
  wordCount gs.length :: gs.flatMap encodeGraph

/-- Terms a compound group needs beyond one, by its shortest member. -/
def compoundExtraTerms (p : AnyOfPredicate) : Nat :=
  ((p.members.map fun m => min m.requirements.length u32Max).min?.getD 0) - 1

/-- Any-of requirements of the source query, for ranking. -/
def semanticGroups (ex : Extracted) : Nat :=
  max (max ex.semanticAnyofGroups (min ex.anyof.length u32Max)) (min ex.anyofPredicates.length u32Max)

/-- Shortest satisfying term count of those requirements, for ranking. -/
def semanticTerms (ex : Extracted) : Nat :=
  max (max ex.semanticAnyofTerms
      (ex.anyofPredicates.foldl (fun terms p => satAdd terms (compoundExtraTerms p))
        (semanticGroups ex)))
    (semanticGroups ex)

/-- Whether a query has quoted clauses. -/
def Extracted.hasPhrases (ex : Extracted) : Bool :=
  ex.requiredPhrases ≠ [] || ex.forbiddenPhrases ≠ []

variable {ex : Extracted}

theorem phrases_eq_nil (h : ex.hasPhrases = false) :
    ex.requiredPhrases = [] ∧ ex.forbiddenPhrases = [] := by
  simpa [Extracted.hasPhrases] using h

/-- Whether a query needs no program: no compound clause, and ranking
counts the plain any-of column already carries. -/
def needsNoProgram (ex : Extracted) : Bool :=
  ex.anyofPredicates = [] && ex.forbiddenConjunctions = [] && !ex.hasPhrases
    && semanticGroups ex = min ex.anyof.length u32Max
    && semanticTerms ex = min ex.anyof.length u32Max

theorem clauseless_of_needsNoProgram (h : needsNoProgram ex = true) :
    ex.anyofPredicates = [] ∧ ex.forbiddenConjunctions = [] ∧ ex.hasPhrases = false := by
  simp only [needsNoProgram, Bool.and_eq_true, Bool.not_eq_true', decide_eq_true_eq] at h
  exact ⟨h.1.1.1.1, h.1.1.1.2, h.1.1.2⟩

def Extracted.programVersion (ex : Extracted) : UInt32 :=
  if ex.hasPhrases then rankPhraseProgramVersion else rankFeatureProgramVersion

theorem Extracted.programVersion_cases (ex : Extracted) :
    ex.programVersion = rankFeatureProgramVersion ∨
      ex.programVersion = rankPhraseProgramVersion := by
  rw [programVersion]
  cases ex.hasPhrases with
  | true => exact .inr rfl
  | false => exact .inl rfl

def encodeBody (ex : Extracted) : List UInt32 :=
  wordCount ex.anyofPredicates.length :: ex.anyofPredicates.flatMap encodeGroup
    ++ wordCount ex.forbiddenConjunctions.length :: ex.forbiddenConjunctions.flatMap encodeRun
    ++ (if ex.hasPhrases then encodePhrases ex.requiredPhrases ++ encodePhrases ex.forbiddenPhrases
        else [])

def encodePredicate (ex : Extracted) : List UInt32 :=
  if needsNoProgram ex then []
  else
    (if ex.hasPhrases then rankPhraseProgramVersion else rankFeatureProgramVersion)
      :: wordCount (semanticGroups ex) :: wordCount (semanticTerms ex) :: encodeBody ex

theorem encodePredicate_eq (h : needsNoProgram ex = false) :
    encodePredicate ex = ex.programVersion :: wordCount (semanticGroups ex) ::
      wordCount (semanticTerms ex) :: encodeBody ex := by
  simp [encodePredicate, h, Extracted.programVersion]

/-! ## reading the program back -/

/-- Whether a program has a quoted part. -/
def predicateHasPhrases (words : List UInt32) : Bool :=
  match words with
  | [] => false
  | v :: _ => v = phraseProgramVersion || v = rankPhraseProgramVersion

def predicateBooleanProgram (words : List UInt32) : UInt32 × List UInt32 :=
  match words with
  | [] => (0, [])
  | v :: ws =>
    let prog :=
      if v = rankFeatureProgramVersion then (featureProgramVersion, ws.drop 2)
      else if v = rankPhraseProgramVersion then (phraseProgramVersion, ws.drop 2)
      else (v, ws)
    if prog = (featureProgramVersion, [0, 0]) ∨ prog = (phraseProgramVersion, [0, 0, 0, 0])
    then (0, [])
    else prog

/-- Next word of the program. -/
def readWord : List UInt32 → Option (UInt32 × List UInt32)
  | [] => none
  | w :: ws => some (w, ws)

def readRun (ws : List UInt32) : Option (List UInt32 × List UInt32) := do
  let (n, ws) ← readWord ws
  if ws.length < n.toNat then none else some (ws.take n.toNat, ws.drop n.toNat)

/-- Read `n` requirements of a member: whether each has a label in `pos`. -/
def requirementsHit (pos : List FeatureId) : Nat → List UInt32 → Option (Bool × List UInt32)
  | 0, ws => some (true, ws)
  | n + 1, ws => do
    let (alternatives, ws) ← readRun ws
    let (hit, ws) ← requirementsHit pos n ws
    some (alternatives.any (binarySearch pos) && hit, ws)

/-- Read `n` members of a group: whether one is hit. -/
def membersHit (pos : List FeatureId) : Nat → List UInt32 → Option (Bool × List UInt32)
  | 0, ws => some (false, ws)
  | n + 1, ws => do
    let (count, ws) ← readWord ws
    let (hit, ws) ← requirementsHit pos count.toNat ws
    let (rest, ws) ← membersHit pos n ws
    some (hit || rest, ws)

/-- Read `n` groups, stopping at the first that is not hit. -/
def groupsHit (pos : List FeatureId) : Nat → List UInt32 → Option (Bool × List UInt32)
  | 0, ws => some (true, ws)
  | n + 1, ws => do
    let (count, ws) ← readWord ws
    let (hit, ws) ← membersHit pos count.toNat ws
    if hit then groupsHit pos n ws else some (false, ws)

/-- Read `n` forbidden conjunctions, stopping at the first that holds. -/
def conjunctionsClear (neg : List FeatureId) : Nat → List UInt32 → Option (Bool × List UInt32)
  | 0, ws => some (true, ws)
  | n + 1, ws => do
    let (features, ws) ← readRun ws
    if features.all (binarySearch neg) then some (false, ws) else conjunctionsClear neg n ws

/-- Read `n` arcs of a graph. -/
def readArcs : Nat → List UInt32 → Option (List PhraseArc × List UInt32)
  | 0, ws => some ([], ws)
  | n + 1, ws => do
    let (start, ws) ← readWord ws
    let (stop, ws) ← readWord ws
    let (alternatives, ws) ← readRun ws
    let (arcs, ws) ← readArcs n ws
    some (⟨start, stop, alternatives⟩ :: arcs, ws)

def readGraph (ws : List UInt32) : Option (PhraseGraph × List UInt32) := do
  let (positions, ws) ← readWord ws
  let (count, ws) ← readWord ws
  let (arcs, ws) ← readArcs count.toNat ws
  some (⟨positions, arcs⟩, ws)

/-- Read `n` quoted graphs. -/
def readGraphs : Nat → List UInt32 → Option (List PhraseGraph × List UInt32)
  | 0, ws => some ([], ws)
  | n + 1, ws => do
    let (g, ws) ← readGraph ws
    let (gs, ws) ← readGraphs n ws
    some (g :: gs, ws)

/-- Read `n` forbidden graphs, stopping at the first that occurs. -/
def forbiddenClear (t : PositionGraph) : Nat → List UInt32 → Option Bool
  | 0, _ => some true
  | n + 1, ws => do
    let (g, ws) ← readGraph ws
    if walk g t = some true then some false else forbiddenClear t n ws

/-- The quoted part.  Without graphs or a free scratch cell it fails open:
required phrases do not reject, forbidden ones do not trip. -/
def verifyPhrases (ws : List UInt32) (v : TitleView) : Option Bool := do
  let (count, ws) ← readWord ws
  let (required, ws) ← readGraphs count.toNat ws
  let (count, ws) ← readWord ws
  match v.posGraph, v.negGraph, v.phraseScratch with
  | some posGraph, some negGraph, true =>
    if required.any (fun g => walk g posGraph = some false) then some false
    else forbiddenClear negGraph count.toNat ws
  | _, _, _ => some true

/-- Interpret the words behind the version and the ranking counts. -/
def verifyBody (quoted : Bool) (ws : List UInt32) (v : TitleView) : Option Bool := do
  let (count, ws) ← readWord ws
  let (hit, ws) ← groupsHit v.pos count.toNat ws
  if !hit then some false
  else do
    let (count, ws) ← readWord ws
    let (clear, ws) ← conjunctionsClear v.neg count.toNat ws
    if !clear then some false
    else if quoted then verifyPhrases ws v
    else some true

/-- Interpret a program on a title; `none` is a read past its end. -/
def verifyPredicate? (words : List UInt32) (v : TitleView) : Option Bool :=
  match words with
  | [] => some true
  | version :: ws =>
    let ranked := version = rankFeatureProgramVersion ∨ version = rankPhraseProgramVersion
    verifyBody (predicateHasPhrases words) (if ranked then ws.drop 2 else ws) v

/-- The answer of the interpreter on a readable program. -/
def verifyPredicate (words : List UInt32) (v : TitleView) : Bool :=
  (verifyPredicate? words v).getD false

/-! ## the round trip

Every reader consumes exactly what the matching encoder wrote, as long as
the written words number less than `2 ^ 32`, so that no count wrapped. -/

section RoundTrip

variable {rest : List UInt32}

theorem toNat_wordCount {n : Nat} (h : n < 2 ^ 32) : (wordCount n).toNat = n := by
  rw [wordCount, UInt32.toNat_ofNat_of_lt' (by simpa [UInt32.size] using h)]

theorem length_le_length_flatMap {α : Type*} {enc : α → List UInt32}
    (henc : ∀ x, 0 < (enc x).length) (xs : List α) : xs.length ≤ (xs.flatMap enc).length := by
  induction xs with
  | nil => simp
  | cons x xs ih =>
    have hx := henc x
    simp only [flatMap_cons, length_append, length_cons]
    omega

theorem toNat_wordCount_flatMap {α : Type*} {enc : α → List UInt32}
    (henc : ∀ x, 0 < (enc x).length) {xs : List α} (h : (xs.flatMap enc).length < 2 ^ 32) :
    (wordCount xs.length).toNat = xs.length :=
  toNat_wordCount ((length_le_length_flatMap henc xs).trans_lt h)

theorem length_encodeRun_pos (ws : List UInt32) : 0 < (encodeRun ws).length := by
  simp [encodeRun]

theorem length_encodeMember_pos (m : AnyOfMember) : 0 < (encodeMember m).length := by
  simp [encodeMember]

theorem length_encodeGroup_pos (p : AnyOfPredicate) : 0 < (encodeGroup p).length := by
  simp [encodeGroup]

theorem length_encodeArc_pos (a : PhraseArc) : 0 < (encodeArc a).length := by
  simp [encodeArc]

theorem length_encodeGraph_pos (g : PhraseGraph) : 0 < (encodeGraph g).length := by
  simp [encodeGraph]

variable {ws : List UInt32}

theorem readRun_counted (h : ws.length < 2 ^ 32) :
    readRun (encodeRun ws ++ rest) = some (ws, rest) := by
  simp [readRun, encodeRun, readWord, toNat_wordCount h]

theorem readRun_encodeRun (h : (encodeRun ws).length < 2 ^ 32) :
    readRun (encodeRun ws ++ rest) = some (ws, rest) := by
  simp only [encodeRun, length_cons] at h
  exact readRun_counted (by omega)

variable {pos : List FeatureId}

theorem requirementsHit_encode {rs : List (List FeatureId)}
    (h : (rs.flatMap encodeRun).length < 2 ^ 32) :
    requirementsHit pos rs.length (rs.flatMap encodeRun ++ rest) =
      some (rs.all fun r => r.any (binarySearch pos), rest) := by
  induction rs with
  | nil => simp [requirementsHit]
  | cons r rs ih =>
    simp only [flatMap_cons, length_append] at h
    have hr : readRun (encodeRun r ++ (rs.flatMap encodeRun ++ rest)) =
        some (r, rs.flatMap encodeRun ++ rest) := readRun_encodeRun (by omega)
    simp [requirementsHit, hr, ih (by omega)]

/-- The clause a compound member stands for. -/
def AnyOfMember.holds (pos : List FeatureId) (m : AnyOfMember) : Bool :=
  m.requirements.all fun r => r.any (binarySearch pos)

theorem membersHit_encode {ms : List AnyOfMember} (h : (ms.flatMap encodeMember).length < 2 ^ 32) :
    membersHit pos ms.length (ms.flatMap encodeMember ++ rest) =
      some (ms.any (AnyOfMember.holds pos), rest) := by
  induction ms with
  | nil => simp [membersHit]
  | cons m ms ih =>
    simp only [flatMap_cons, length_append, encodeMember, length_cons] at h
    have hcount := @toNat_wordCount_flatMap _ _ length_encodeRun_pos m.requirements (by omega)
    have hm : requirementsHit pos m.requirements.length
        (m.requirements.flatMap encodeRun ++ (ms.flatMap encodeMember ++ rest)) =
        some (m.holds pos, ms.flatMap encodeMember ++ rest) :=
      requirementsHit_encode (by omega)
    have hms := ih (by omega)
    simp [membersHit, encodeMember, readWord, hcount, hm, hms]

/-- The clause a compound any-of predicate stands for. -/
def AnyOfPredicate.holds (pos : List FeatureId) (p : AnyOfPredicate) : Bool :=
  p.members.any (AnyOfMember.holds pos)

/-- Reading the groups back gives their conjunction; when it holds, the
reader stands right behind them. -/
theorem groupsHit_encode {pos : List FeatureId} {ps : List AnyOfPredicate}
    (h : (ps.flatMap encodeGroup).length < 2 ^ 32) :
    ∃ ws, groupsHit pos ps.length (ps.flatMap encodeGroup ++ rest) =
        some (ps.all (AnyOfPredicate.holds pos), ws) ∧
      (ps.all (AnyOfPredicate.holds pos) = true → ws = rest) := by
  induction ps with
  | nil => exact ⟨rest, by simp [groupsHit], fun _ => rfl⟩
  | cons p ps ih =>
    simp only [flatMap_cons, length_append, encodeGroup, length_cons] at h
    have hcount := @toNat_wordCount_flatMap _ _ length_encodeMember_pos p.members (by omega)
    have hp : membersHit pos p.members.length
        (p.members.flatMap encodeMember ++ (ps.flatMap encodeGroup ++ rest)) =
        some (p.holds pos, ps.flatMap encodeGroup ++ rest) := membersHit_encode (by omega)
    obtain ⟨ws, hws, hrest⟩ := ih (by omega)
    simp only [length_cons, groupsHit, flatMap_cons, encodeGroup, readWord,
      append_assoc, cons_append, bind_eq_bind, bind_some, hcount,
      hp, all_cons]
    cases p.holds pos with
    | true => exact ⟨ws, by simpa using hws, by simpa using hrest⟩
    | false => exact ⟨_, rfl, by simp⟩

theorem conjunctionsClear_encode {neg : List FeatureId} {cs : List (List FeatureId)}
    (h : (cs.flatMap encodeRun).length < 2 ^ 32) :
    ∃ ws, conjunctionsClear neg cs.length (cs.flatMap encodeRun ++ rest) =
        some (!cs.any (fun c => c.all (binarySearch neg)), ws) ∧
      (cs.any (fun c => c.all (binarySearch neg)) = false → ws = rest) := by
  induction cs with
  | nil => exact ⟨rest, by simp [conjunctionsClear], fun _ => rfl⟩
  | cons c cs ih =>
    simp only [flatMap_cons, length_append] at h
    have hc : readRun (encodeRun c ++ (cs.flatMap encodeRun ++ rest)) =
        some (c, cs.flatMap encodeRun ++ rest) := readRun_encodeRun (by omega)
    obtain ⟨ws, hws, hrest⟩ := ih (by omega)
    simp only [length_cons, conjunctionsClear, flatMap_cons, append_assoc, hc,
      bind_eq_bind, bind_some, any_cons]
    cases c.all (binarySearch neg) with
    | true => exact ⟨_, rfl, by simp⟩
    | false => exact ⟨ws, by simpa using hws, by simpa using hrest⟩

/-- The counts of a graph's encoding are the lengths they stand for. -/
structure PhraseGraph.Counted (g : PhraseGraph) : Prop where
  arcs : g.arcs.length < 2 ^ 32
  labels : ∀ a ∈ g.arcs, a.alternatives.length < 2 ^ 32

theorem length_le_of_mem {α : Type*} {enc : α → List UInt32} {x : α} {xs : List α} (h : x ∈ xs) :
    (enc x).length ≤ (xs.flatMap enc).length := by
  rw [length_flatMap]
  exact le_sum_of_mem (mem_map_of_mem h)

variable {g : PhraseGraph}

theorem PhraseGraph.counted_of_length (h : (encodeGraph g).length < 2 ^ 32) : g.Counted := by
  simp only [encodeGraph, length_cons] at h
  have hlen := length_le_length_flatMap length_encodeArc_pos g.arcs
  refine ⟨by omega, fun a ha => ?_⟩
  have harc := @length_le_of_mem _ encodeArc _ _ ha
  simp only [encodeArc, encodeRun, length_cons] at harc
  omega

theorem readArcs_encode {as : List PhraseArc}
    (h : ∀ a ∈ as, a.alternatives.length < 2 ^ 32) :
    readArcs as.length (as.flatMap encodeArc ++ rest) = some (as, rest) := by
  induction as with
  | nil => simp [readArcs]
  | cons a as ih =>
    have ha : readRun (encodeRun a.alternatives ++ (as.flatMap encodeArc ++ rest)) =
        some (a.alternatives, as.flatMap encodeArc ++ rest) :=
      readRun_counted (h a mem_cons_self)
    have has := ih fun b hb => h b (mem_cons_of_mem a hb)
    simp [readArcs, encodeArc, readWord, ha, has]

theorem PhraseGraph.Counted.readGraph (h : g.Counted) :
    readGraph (encodeGraph g ++ rest) = some (g, rest) := by
  have hcount : (wordCount g.arcs.length).toNat = g.arcs.length := toNat_wordCount h.arcs
  have harcs : readArcs g.arcs.length (g.arcs.flatMap encodeArc ++ rest) = some (g.arcs, rest) :=
    readArcs_encode h.labels
  simp [ReverseRusty.readGraph, encodeGraph, readWord, hcount, harcs]

theorem readGraph_encode (h : (encodeGraph g).length < 2 ^ 32) :
    readGraph (encodeGraph g ++ rest) = some (g, rest) :=
  (PhraseGraph.counted_of_length h).readGraph

variable {gs : List PhraseGraph}

theorem readGraphs_encode (h : (gs.flatMap encodeGraph).length < 2 ^ 32) :
    readGraphs gs.length (gs.flatMap encodeGraph ++ rest) = some (gs, rest) := by
  induction gs with
  | nil => simp [readGraphs]
  | cons g gs ih =>
    simp only [flatMap_cons, length_append] at h
    have hg : readGraph (encodeGraph g ++ (gs.flatMap encodeGraph ++ rest)) =
        some (g, gs.flatMap encodeGraph ++ rest) := readGraph_encode (by omega)
    simp [readGraphs, hg, ih (by omega)]

theorem forbiddenClear_encode {t : PositionGraph} (h : (gs.flatMap encodeGraph).length < 2 ^ 32) :
    forbiddenClear t gs.length (gs.flatMap encodeGraph ++ rest) =
      some (!gs.any fun g => walk g t = some true) := by
  induction gs with
  | nil => simp [forbiddenClear]
  | cons g gs ih =>
    simp only [flatMap_cons, length_append] at h
    have hg : readGraph (encodeGraph g ++ (gs.flatMap encodeGraph ++ rest)) =
        some (g, gs.flatMap encodeGraph ++ rest) := readGraph_encode (by omega)
    simp only [length_cons, forbiddenClear, flatMap_cons, append_assoc, hg,
      bind_eq_bind, bind_some, ih (by omega), any_cons]
    by_cases hw : walk g t = some true
    · simp [hw]
    · simp [hw]

/-- The quoted clauses as the matcher decides them. -/
def Extracted.phrasesHold (ex : Extracted) (v : TitleView) : Bool :=
  match v.posGraph, v.negGraph, v.phraseScratch with
  | some posGraph, some negGraph, true =>
    !ex.requiredPhrases.any (fun g => walk g posGraph = some false)
      && !ex.forbiddenPhrases.any (fun g => walk g negGraph = some true)
  | _, _, _ => true

variable {ex : Extracted}

theorem phrasesHold_of_flat (h : ex.hasPhrases = false) (v : TitleView) :
    ex.phrasesHold v = true := by
  obtain ⟨hreq, hforb⟩ := phrases_eq_nil h
  rw [Extracted.phrasesHold, hreq, hforb]
  split <;> rfl

/-- The clauses the program stands for. -/
def Extracted.compoundHolds (ex : Extracted) (v : TitleView) : Bool :=
  ex.anyofPredicates.all (AnyOfPredicate.holds v.pos)
    && !ex.forbiddenConjunctions.any (fun c => c.all (binarySearch v.neg))
    && ex.phrasesHold v

variable {v : TitleView}

theorem verifyPhrases_encode
    (h : (encodePhrases ex.requiredPhrases ++ encodePhrases ex.forbiddenPhrases).length < 2 ^ 32) :
    verifyPhrases (encodePhrases ex.requiredPhrases ++ encodePhrases ex.forbiddenPhrases) v =
      some (ex.phrasesHold v) := by
  simp only [encodePhrases, length_append, length_cons] at h
  have hreqCount :=
    @toNat_wordCount_flatMap _ _ length_encodeGraph_pos ex.requiredPhrases (by omega)
  have hforbCount :=
    @toNat_wordCount_flatMap _ _ length_encodeGraph_pos ex.forbiddenPhrases (by omega)
  have hread : readGraphs ex.requiredPhrases.length
      (ex.requiredPhrases.flatMap encodeGraph ++ encodePhrases ex.forbiddenPhrases) =
      some (ex.requiredPhrases, encodePhrases ex.forbiddenPhrases) :=
    readGraphs_encode (by omega)
  have hclear : ∀ t, forbiddenClear t ex.forbiddenPhrases.length
      (ex.forbiddenPhrases.flatMap encodeGraph) =
      some (!ex.forbiddenPhrases.any fun g => walk g t = some true) := by
    intro t
    rw [← forbiddenClear_encode (by omega), append_nil]
  rw [encodePhrases, cons_append, verifyPhrases, Extracted.phrasesHold]
  simp only [readWord, bind_eq_bind, bind_some, hreqCount, hread]
  simp only [encodePhrases, bind_some, hforbCount]
  split
  · next posGraph negGraph _ _ _ =>
    rw [hclear]
    cases ex.requiredPhrases.any fun g => walk g posGraph = some false with
    | true => simp
    | false => simp
  · rfl

theorem toNat_wordCount_clauses (h : (encodeBody ex).length < 2 ^ 32) :
    (wordCount ex.anyofPredicates.length).toNat = ex.anyofPredicates.length ∧
      (wordCount ex.forbiddenConjunctions.length).toNat = ex.forbiddenConjunctions.length := by
  simp only [encodeBody, length_cons, length_append] at h
  exact ⟨toNat_wordCount_flatMap length_encodeGroup_pos (by omega),
    toNat_wordCount_flatMap length_encodeRun_pos (by omega)⟩

theorem verifyBody_encode (h : (encodeBody ex).length < 2 ^ 32) :
    verifyBody ex.hasPhrases (encodeBody ex) v = some (ex.compoundHolds v) := by
  obtain ⟨hgroupCount, hconjCount⟩ := toNat_wordCount_clauses h
  simp only [encodeBody, length_cons, length_append] at h
  generalize hquoted : (if ex.hasPhrases then
      encodePhrases ex.requiredPhrases ++ encodePhrases ex.forbiddenPhrases else []) = quoted at h
  obtain ⟨ws, hws, hrest⟩ := @groupsHit_encode
    (wordCount ex.forbiddenConjunctions.length ::
      (ex.forbiddenConjunctions.flatMap encodeRun ++ quoted)) v.pos ex.anyofPredicates (by omega)
  obtain ⟨ws', hws', hrest'⟩ :=
    @conjunctionsClear_encode quoted v.neg ex.forbiddenConjunctions (by omega)
  rw [encodeBody, hquoted, verifyBody, Extracted.compoundHolds]
  simp only [cons_append, append_assoc, readWord, bind_eq_bind,
    bind_some, hgroupCount, hws]
  cases hg : ex.anyofPredicates.all (AnyOfPredicate.holds v.pos) with
  | false => simp
  | true =>
    rw [hrest hg]
    simp only [Bool.not_true, Bool.false_eq_true, if_false, bind_some, hconjCount, hws']
    cases hc : ex.forbiddenConjunctions.any (fun c => c.all (binarySearch v.neg)) with
    | true => simp
    | false =>
      rw [hrest' hc]
      cases hp : ex.hasPhrases with
      | true =>
        rw [hp, if_pos rfl] at hquoted
        subst hquoted
        simpa using verifyPhrases_encode (by simp only [length_append] at *; omega)
      | false =>
        rw [phrasesHold_of_flat hp]
        rfl

attribute [local simp] featureProgramVersion phraseProgramVersion rankFeatureProgramVersion
  rankPhraseProgramVersion

/-- **The program means its clauses.**  An encoded program is read to its
end and gives the query's compound and quoted clauses. -/
theorem verifyPredicate?_encode (h : (encodePredicate ex).length < 2 ^ 32) :
    verifyPredicate? (encodePredicate ex) v = some (ex.compoundHolds v) := by
  unfold encodePredicate at *
  split
  · next hnone =>
    obtain ⟨hany, hforb, hflat⟩ := clauseless_of_needsNoProgram hnone
    rw [Extracted.compoundHolds, hany, hforb, phrasesHold_of_flat hflat]
    rfl
  · next hsome =>
    rw [if_neg hsome, length_cons, length_cons, length_cons] at h
    have hbody : verifyBody ex.hasPhrases (encodeBody ex) v = some (ex.compoundHolds v) :=
      verifyBody_encode (by omega)
    rw [← hbody, verifyPredicate?]
    cases hp : ex.hasPhrases with
    | true => simp [predicateHasPhrases]
    | false =>
      simp [predicateHasPhrases]

/-! ## the Boolean part decides -/

/-- Interpret a Boolean program; version `0` is no program. -/
def verifyBoolean (program : UInt32 × List UInt32) (v : TitleView) : Option Bool :=
  if program.1 = 0 then some true
  else verifyBody (program.1 = phraseProgramVersion) program.2 v

/-- Programs start with a version the writer knows, or are empty. -/
def KnownVersion : List UInt32 → Prop
  | [] => True
  | version :: _ => version = 1 ∨ version = 2 ∨ version = 3 ∨ version = 4

theorem knownVersion_encodePredicate (ex : Extracted) : KnownVersion (encodePredicate ex) := by
  unfold encodePredicate
  split
  · trivial
  · split
    · exact .inr (.inr (.inr rfl))
    · exact .inr (.inr (.inl rfl))

theorem verifyBody_empty (v : TitleView) : verifyBody false [0, 0] v = some true := rfl

theorem verifyBody_emptyPhrases (v : TitleView) : verifyBody true [0, 0, 0, 0] v = some true := by
  simp only [verifyBody, readWord, groupsHit, conjunctionsClear, verifyPhrases, readGraphs,
    forbiddenClear, bind_eq_bind, bind_some, UInt32.toNat_zero, Bool.not_true,
    Bool.false_eq_true, if_false, if_true, any_nil]
  split <;> rfl

/-- **Ranking counts carry no Boolean meaning**: a program answers like
its Boolean part. -/
theorem verifyPredicate?_eq_boolean {words : List UInt32} (h : KnownVersion words)
    (v : TitleView) :
    verifyPredicate? words v = verifyBoolean (predicateBooleanProgram words) v := by
  cases words with
  | nil => rfl
  | cons version ws =>
    have hbody : ∀ b : UInt32 × List UInt32, b.1 ≠ 0 →
        verifyBody (b.1 = phraseProgramVersion) b.2 v =
          verifyBoolean (if b = (featureProgramVersion, [0, 0]) ∨
            b = (phraseProgramVersion, [0, 0, 0, 0]) then (0, []) else b) v := by
      intro b hb
      split
      · next hempty =>
        rcases hempty with rfl | rfl
        · exact verifyBody_empty v
        · exact verifyBody_emptyPhrases v
      · rw [verifyBoolean, if_neg hb]
    rcases h with rfl | rfl | rfl | rfl
    · exact hbody (1, ws) (by simp)
    · exact hbody (2, ws) (by simp)
    · exact hbody (1, ws.drop 2) (by simp)
    · exact hbody (2, ws.drop 2) (by simp)

/-! ## the required graphs of a program -/

/-- Skip `n` groups. -/
def skipGroups : Nat → List UInt32 → Option (List UInt32)
  | 0, ws => some ws
  | n + 1, ws => do
    let (count, ws) ← readWord ws
    let (_, ws) ← membersHit [] count.toNat ws
    skipGroups n ws

/-- Skip `n` counted runs. -/
def skipRuns : Nat → List UInt32 → Option (List UInt32)
  | 0, ws => some ws
  | n + 1, ws => do
    let (_, ws) ← readRun ws
    skipRuns n ws

def requiredGraphs? (program : UInt32 × List UInt32) : Option (List PhraseGraph) :=
  if program.1 = phraseProgramVersion then do
    let (count, ws) ← readWord program.2
    let ws ← skipGroups count.toNat ws
    let (count, ws) ← readWord ws
    let ws ← skipRuns count.toNat ws
    let (count, ws) ← readWord ws
    let (graphs, _) ← readGraphs count.toNat ws
    some graphs
  else some []

theorem skipGroups_encode {ps : List AnyOfPredicate}
    (h : (ps.flatMap encodeGroup).length < 2 ^ 32) :
    skipGroups ps.length (ps.flatMap encodeGroup ++ rest) = some rest := by
  induction ps with
  | nil => simp [skipGroups]
  | cons p ps ih =>
    simp only [flatMap_cons, length_append, encodeGroup, length_cons] at h
    have hcount := @toNat_wordCount_flatMap _ _ length_encodeMember_pos p.members (by omega)
    have hp : membersHit [] p.members.length
        (p.members.flatMap encodeMember ++ (ps.flatMap encodeGroup ++ rest)) =
        some (p.holds [], ps.flatMap encodeGroup ++ rest) := membersHit_encode (by omega)
    simp [skipGroups, encodeGroup, readWord, hcount, hp, ih (by omega)]

theorem skipRuns_encode {cs : List (List FeatureId)}
    (h : (cs.flatMap encodeRun).length < 2 ^ 32) :
    skipRuns cs.length (cs.flatMap encodeRun ++ rest) = some rest := by
  induction cs with
  | nil => simp [skipRuns]
  | cons c cs ih =>
    simp only [flatMap_cons, length_append] at h
    have hc : readRun (encodeRun c ++ (cs.flatMap encodeRun ++ rest)) =
        some (c, cs.flatMap encodeRun ++ rest) := readRun_encodeRun (by omega)
    simp [skipRuns, hc, ih (by omega)]

theorem requiredGraphs?_encodeBody (h : (encodeBody ex).length < 2 ^ 32) (hp : ex.hasPhrases = true) :
    requiredGraphs? (phraseProgramVersion, encodeBody ex) = some ex.requiredPhrases := by
  obtain ⟨hgroupCount, hconjCount⟩ := toNat_wordCount_clauses h
  simp only [encodeBody, hp, if_true, encodePhrases, length_cons, length_append] at h
  have hreqCount :=
    @toNat_wordCount_flatMap _ _ length_encodeGraph_pos ex.requiredPhrases (by omega)
  have hskip : ∀ ws, skipGroups ex.anyofPredicates.length
      (ex.anyofPredicates.flatMap encodeGroup ++ ws) = some ws :=
    fun ws => skipGroups_encode (by omega)
  have hruns : ∀ ws, skipRuns ex.forbiddenConjunctions.length
      (ex.forbiddenConjunctions.flatMap encodeRun ++ ws) = some ws :=
    fun ws => skipRuns_encode (by omega)
  have hgraphs : ∀ ws, readGraphs ex.requiredPhrases.length
      (ex.requiredPhrases.flatMap encodeGraph ++ ws) = some (ex.requiredPhrases, ws) :=
    fun ws => readGraphs_encode (by omega)
  simp [requiredGraphs?, encodeBody, hp, encodePhrases, readWord, hgroupCount, hskip, hconjCount,
    hruns, hreqCount, hgraphs]

theorem encodeBody_ne_of_hasPhrases (h : (encodeBody ex).length < 2 ^ 32)
    (hp : ex.hasPhrases = true) : encodeBody ex ≠ [0, 0, 0, 0] := by
  intro hbody
  have hgraphs := requiredGraphs?_encodeBody h hp
  rw [hbody] at hgraphs
  have hreq : ex.requiredPhrases = [] := by
    simpa [requiredGraphs?, readWord, skipGroups, skipRuns, readGraphs] using hgraphs.symm
  have hlen := congrArg List.length hbody
  simp only [encodeBody, hp, if_true, encodePhrases, length_cons, length_append,
    length_nil] at hlen
  have hforb := length_le_length_flatMap length_encodeGraph_pos ex.forbiddenPhrases
  have hforb' : ex.forbiddenPhrases = [] := length_eq_zero_iff.mp (by omega)
  simp [Extracted.hasPhrases, hreq, hforb'] at hp

theorem requiredGraphs?_encode (h : (encodePredicate ex).length < 2 ^ 32) :
    requiredGraphs? (predicateBooleanProgram (encodePredicate ex)) = some ex.requiredPhrases := by
  unfold encodePredicate at *
  split
  · next hneeds =>
    rw [(phrases_eq_nil (clauseless_of_needsNoProgram hneeds).2.2).1]
    rfl
  · next hneeds =>
    rw [if_neg hneeds, length_cons, length_cons, length_cons] at h
    cases hp : ex.hasPhrases with
    | false =>
      rw [(phrases_eq_nil hp).1]
      by_cases hbody : encodeBody ex = [0, 0]
      · simp [predicateBooleanProgram, requiredGraphs?, hbody]
      · simp [predicateBooleanProgram, requiredGraphs?, hbody]
    | true =>
      have hbody := requiredGraphs?_encodeBody (by omega) hp
      have hne := encodeBody_ne_of_hasPhrases (by omega) hp
      simpa [predicateBooleanProgram, hne] using hbody

end RoundTrip

end ReverseRusty
