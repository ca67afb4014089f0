import ReverseRusty.Phrase

/-!
# ReverseRusty.Extracted

The integer form of a query (`compile.rs`): required and forbidden
features, any-of retrieval groups with their exact compound predicates,
and the quoted graphs.  `canonicalize` is the normal form every compiled
query is in; `columnOverflow` is the front-door check that its counts fit
the exact store's columns.
-/

namespace ReverseRusty

/-- Cost classes: the lane a query is posted to and whether default reads
return it. -/
inductive CostClass where
  /-- rare arity-1 anchor, main index -/
  | A
  /-- arity-2 pair, selective any-of group or phrase proxy, main index -/
  | B
  /-- only a common-mask anchor, broad index, opt-in -/
  | C
  /-- no positive anchor, universal signature in the broad index, opt-in -/
  | D
  /-- frequent but unmasked anchor, hot index -/
  | H
deriving DecidableEq, Repr

/-- Classes returned only to a read that asks for the broad lane. -/
def CostClass.isOptIn : CostClass → Bool
  | .C | .D => true
  | .A | .B | .H => false

/-- One member of a compound any-of group: an AND of requirements, each an
OR of equivalent features. -/
structure AnyOfMember where
  requirements : List (List FeatureId)
deriving DecidableEq, Repr

structure AnyOfPredicate where
  members : List AnyOfMember
deriving DecidableEq, Repr

/-- The positive and negative integer form of a query. -/
structure Extracted where
  required : List FeatureId := []
  forbidden : List FeatureId := []
  anyof : List (List FeatureId) := []
  semanticAnyofGroups : Nat := 0
  semanticAnyofTerms : Nat := 0
  anyofPredicates : List AnyOfPredicate := []
  forbiddenConjunctions : List (List FeatureId) := []
  requiredPhrases : List PhraseGraph := []
  forbiddenPhrases : List PhraseGraph := []
deriving DecidableEq, Repr

/-! ## the field-wise orders canonical form sorts by -/

instance : LinearOrder AnyOfMember :=
  LinearOrder.lift' AnyOfMember.requirements (fun ⟨_⟩ ⟨_⟩ h => congrArg AnyOfMember.mk h)

instance : LinearOrder AnyOfPredicate :=
  LinearOrder.lift' AnyOfPredicate.members (fun ⟨_⟩ ⟨_⟩ h => congrArg AnyOfPredicate.mk h)

def PhraseArc.key (a : PhraseArc) : UInt32 ×ₗ UInt32 ×ₗ List FeatureId :=
  toLex (a.start, toLex (a.end, a.alternatives))

instance : LinearOrder PhraseArc :=
  LinearOrder.lift' PhraseArc.key (by
    rintro ⟨s, e, as⟩ ⟨s', e', as'⟩ h
    simpa [PhraseArc.key] using h)

def PhraseGraph.key (g : PhraseGraph) : UInt32 ×ₗ List PhraseArc :=
  toLex (g.positions, g.arcs)

instance : LinearOrder PhraseGraph :=
  LinearOrder.lift' PhraseGraph.key (by
    rintro ⟨p, as⟩ ⟨p', as'⟩ h
    simpa [PhraseGraph.key] using h)

/-! ## canonical form -/

def AnyOfMember.canonicalize (m : AnyOfMember) : AnyOfMember :=
  ⟨sortDedup ((m.requirements.map sortDedup).filter (· ≠ []))⟩

def AnyOfPredicate.canonicalize (p : AnyOfPredicate) : AnyOfPredicate :=
  ⟨sortDedup ((p.members.map AnyOfMember.canonicalize).filter (·.requirements ≠ []))⟩

def PhraseArc.inGraph (positions : UInt32) (a : PhraseArc) : Bool :=
  a.start < a.end && a.end ≤ positions && a.alternatives ≠ []

def PhraseGraph.canonicalize (g : PhraseGraph) : PhraseGraph :=
  { g with
    arcs := sortDedup ((g.arcs.map fun a => { a with alternatives := sortDedup a.alternatives }).filter
      (PhraseArc.inGraph g.positions)) }

def canonicalizePhrases (phrases : List PhraseGraph) : List PhraseGraph :=
  sortDedup ((phrases.map PhraseGraph.canonicalize).filter
    (fun g => g.positions ≠ 0 ∧ g.arcs ≠ []))

namespace Extracted

/-- Sort and dedup every set-valued part, dropping vacuous ones. -/
def canonicalize (ex : Extracted) : Extracted where
  required := sortDedup ex.required
  forbidden := sortDedup ex.forbidden
  anyof := sortDedup ex.anyof
  semanticAnyofGroups := ex.semanticAnyofGroups
  semanticAnyofTerms := ex.semanticAnyofTerms
  anyofPredicates :=
    sortDedup ((ex.anyofPredicates.map AnyOfPredicate.canonicalize).filter (·.members ≠ []))
  forbiddenConjunctions :=
    sortDedup ((ex.forbiddenConjunctions.map sortDedup).filter (· ≠ []))
  requiredPhrases := canonicalizePhrases ex.requiredPhrases
  forbiddenPhrases := canonicalizePhrases ex.forbiddenPhrases

/-- A query in canonical form, as every compile leaves it. -/
def Canonical (ex : Extracted) : Prop := ex.canonicalize = ex

instance (ex : Extracted) : Decidable ex.Canonical :=
  inferInstanceAs (Decidable (ex.canonicalize = ex))

variable {ex : Extracted}

theorem Canonical.pairwise_required (h : ex.Canonical) : ex.required.Pairwise (· < ·) := by
  have hreq : sortDedup ex.required = ex.required := congrArg Extracted.required h
  rw [← hreq]
  exact pairwise_sortDedup _

theorem Canonical.nodup_required (h : ex.Canonical) : ex.required.Nodup :=
  h.pairwise_required.imp ne_of_lt

theorem Canonical.positions_ne_zero (h : ex.Canonical) {g : PhraseGraph}
    (hg : g ∈ ex.requiredPhrases) : g.positions ≠ 0 := by
  have hreq : canonicalizePhrases ex.requiredPhrases = ex.requiredPhrases :=
    congrArg Extracted.requiredPhrases h
  rw [← hreq, canonicalizePhrases, mem_sortDedup, List.mem_filter] at hg
  exact (of_decide_eq_true hg.2).1

/-! ## what a query asks of a title -/

/-- Whether a query carries any negative clause. -/
def hasNegativePredicate (ex : Extracted) : Bool :=
  ex.forbidden ≠ [] || ex.forbiddenConjunctions ≠ [] || ex.forbiddenPhrases ≠ []

def matchesFlatFeatures (ex : Extracted) (pos neg : List FeatureId) : Bool :=
  ex.required.all (binarySearch pos)
    && !ex.forbidden.any (binarySearch neg)
    && ex.anyof.all (fun group => group.any (binarySearch pos))
    && ex.anyofPredicates.all (fun p => p.members.any fun m =>
        m.requirements.all fun alternatives => alternatives.any (binarySearch pos))
    && !ex.forbiddenConjunctions.any (fun m => m.all (binarySearch neg))

/-- The whole predicate, quoted graphs included.  An undecided walk does
not reject a required phrase and does not trip a forbidden one. -/
def matchesPositioned (ex : Extracted) (pos neg : List FeatureId)
    (posGraph negGraph : PositionGraph) : Bool :=
  ex.matchesFlatFeatures pos neg
    && ex.requiredPhrases.all (fun g => phraseGraphMatchesBounded g posGraph != some false)
    && !ex.forbiddenPhrases.any (fun g =>
        phraseGraphMatchesBounded g { negGraph with complete := true } == some true)

/-! ## the front-door size check -/

/-- Largest count a `u16` column holds. -/
def u16Max : Nat := 2 ^ 16 - 1

/-- Fail with `n` when it exceeds `ceiling`. -/
def withinCeiling (ceiling n : Nat) : Except Nat Unit :=
  if ceiling < n then .error n else .ok ()

/-- Add to a 64-bit word count, failing with the largest `usize` on wrap. -/
def checkedWords (words n : Nat) : Except Nat Nat :=
  if words + n < 2 ^ 64 then .ok (words + n) else .error (2 ^ 64 - 1)

def countAlternatives (words : Nat) (alternatives : List FeatureId) : Except Nat Nat := do
  withinCeiling u32Max alternatives.length
  checkedWords words (1 + alternatives.length)

def countMember (words : Nat) (m : AnyOfMember) : Except Nat Nat := do
  withinCeiling u32Max m.requirements.length
  let words ← checkedWords words 1
  m.requirements.foldlM countAlternatives words

def countPredicate (words : Nat) (p : AnyOfPredicate) : Except Nat Nat := do
  withinCeiling u32Max p.members.length
  let words ← checkedWords words 1
  p.members.foldlM countMember words

def countConjunction (words : Nat) (c : List FeatureId) : Except Nat Nat := do
  withinCeiling u32Max c.length
  checkedWords words (1 + c.length)

def countArc (words : Nat) (a : PhraseArc) : Except Nat Nat := do
  withinCeiling u32Max a.alternatives.length
  checkedWords words (3 + a.alternatives.length)

def countPhrase (words : Nat) (g : PhraseGraph) : Except Nat Nat := do
  withinCeiling u32Max g.arcs.length
  let words ← checkedWords words 2
  g.arcs.foldlM countArc words

def countPhrases (words : Nat) (gs : List PhraseGraph) : Except Nat Nat := do
  withinCeiling u32Max gs.length
  gs.foldlM countPhrase words

/-- The quoted part of the program is only there when the query has one. -/
def countQuoted (ex : Extracted) (words : Nat) : Except Nat Nat :=
  if ex.requiredPhrases = [] ∧ ex.forbiddenPhrases = [] then .ok words
  else do
    let words ← checkedWords words 2
    let words ← countPhrases words ex.requiredPhrases
    countPhrases words ex.forbiddenPhrases

/-- Every column check in the order the source makes them; the error is
the size of the offending column, the result the program's word count
(which starts at the version and the two list counts). -/
def countColumns (ex : Extracted) : Except Nat Nat := do
  withinCeiling u16Max ex.required.length
  withinCeiling u16Max ex.forbidden.length
  withinCeiling u16Max ex.anyof.length
  ex.anyof.forM fun g => withinCeiling u16Max g.length
  withinCeiling u32Max ex.anyofPredicates.length
  let words ← ex.anyofPredicates.foldlM countPredicate 3
  withinCeiling u32Max ex.forbiddenConjunctions.length
  let words ← ex.forbiddenConjunctions.foldlM countConjunction words
  let words ← ex.countQuoted words
  withinCeiling u32Max words
  return words

/-- The size of the first column a compiled query would overflow. -/
def columnOverflow (ex : Extracted) : Option Nat :=
  match ex.countColumns with
  | .error n => some n
  | .ok _ => none

end Extracted

end ReverseRusty
