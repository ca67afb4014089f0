import ReverseRusty.ExactSpec

/-!
# ReverseRusty.PredicateSound

What the check of a stored program establishes (`validate_predicate` of
`exact/predicate.rs`): the accepted words are exactly the encoding of some
clauses.  The family mirrors the completeness family of
`ReverseRusty.PredicateCheck`, one walker for each loop of the check.

`exists_encode_of_validatePredicate` is the assembled form, and
`exists_verifyPredicate?_of_validate` what a reader needs of it: an accepted
program is never read past its end.  The clauses are `Counted`: no count of
the encoding wrapped, however many words it has.
-/

namespace ReverseRusty

open List

/-! ## counts that stand for their lengths -/

/-- The counts of a member's encoding are the lengths they stand for. -/
structure AnyOfMember.Counted (m : AnyOfMember) : Prop where
  requirements : m.requirements.length < 2 ^ 32
  alternatives : ∀ r ∈ m.requirements, r.length < 2 ^ 32

structure AnyOfPredicate.Counted (p : AnyOfPredicate) : Prop where
  count : p.members.length < 2 ^ 32
  members : ∀ m ∈ p.members, m.Counted

/-- The counts of a program are the lengths they stand for. -/
structure Extracted.Counted (ex : Extracted) : Prop where
  groups : ex.anyofPredicates.length < 2 ^ 32
  predicates : ∀ p ∈ ex.anyofPredicates, p.Counted
  conjunctions : ex.forbiddenConjunctions.length < 2 ^ 32
  runs : ∀ c ∈ ex.forbiddenConjunctions, c.length < 2 ^ 32
  required : ex.requiredPhrases.length < 2 ^ 32
  forbidden : ex.forbiddenPhrases.length < 2 ^ 32
  graphs : ∀ g ∈ ex.requiredPhrases ++ ex.forbiddenPhrases, g.Counted

/-! ## what a successful step took -/

section Steps

variable {ws rest : List UInt32}

theorem ensure_eq_ok {condition : Bool} {error : String} {u : Unit} :
    ensure condition error = .ok u ↔ condition = true := by
  cases condition with
  | true => simp [ensure]
  | false => simp [ensure]

theorem takeWord_eq_ok {w : UInt32} : takeWord ws = .ok (w, rest) ↔ ws = w :: rest := by
  cases ws with
  | nil => simp [takeWord]
  | cons w' ws => simp [takeWord]

variable {count : UInt32} {xs : List UInt32}

theorem takeWords_eq_ok :
    takeWords count ws = .ok (xs, rest) ↔ ws = xs ++ rest ∧ count.toNat = xs.length := by
  unfold takeWords
  constructor
  · intro h
    split at h
    · next hle =>
      simp only [Except.ok.injEq, Prod.mk.injEq] at h
      obtain ⟨rfl, rfl⟩ := h
      exact ⟨(take_append_drop _ _).symm, by rw [length_take, Nat.min_eq_left hle]⟩
    · contradiction
  · rintro ⟨rfl, hcount⟩
    rw [hcount, if_pos (by simp), take_left, drop_left]

theorem wordCount_toNat (count : UInt32) : wordCount count.toNat = count := by simp [wordCount]

theorem encodeRun_of_takeWords (h : takeWords count ws = .ok (xs, rest)) :
    count :: ws = encodeRun xs ++ rest := by
  obtain ⟨rfl, hcount⟩ := takeWords_eq_ok.mp h
  rw [encodeRun, ← hcount, wordCount_toNat, cons_append]

theorem length_takeWords (h : takeWords count ws = .ok (xs, rest)) : xs.length < 2 ^ 32 :=
  (takeWords_eq_ok.mp h).2 ▸ count.toNat_lt

end Steps

/-! ## the walkers -/

section Walkers

variable {n : Nat} {ws rest : List UInt32}

theorem checkRequirements_sound (h : checkRequirements n ws = .ok rest) :
    ∃ rs : List (List FeatureId), rs.length = n ∧ ws = rs.flatMap encodeRun ++ rest ∧
      ∀ r ∈ rs, r.length < 2 ^ 32 := by
  induction n generalizing ws with
  | zero => exact ⟨[], rfl, by simpa [checkRequirements] using h, by simp⟩
  | succ n ih =>
    simp only [checkRequirements, bind_eq_ok, Prod.exists] at h
    obtain ⟨count, ws', hcount, -, -, xs, ws'', htake, hrest⟩ := h
    obtain ⟨rs, hlen, rfl, hrs⟩ := ih hrest
    refine ⟨xs :: rs, by simp [hlen], ?_, forall_mem_cons.mpr ⟨length_takeWords htake, hrs⟩⟩
    rw [takeWord_eq_ok.mp hcount, encodeRun_of_takeWords htake, flatMap_cons,
      append_assoc]

theorem checkMembers_sound {shortest shortest' : UInt32}
    (h : checkMembers n shortest ws = .ok (shortest', rest)) :
    ∃ ms : List AnyOfMember, ms.length = n ∧ ws = ms.flatMap encodeMember ++ rest ∧
      ∀ m ∈ ms, m.Counted := by
  induction n generalizing shortest ws with
  | zero =>
    simp only [checkMembers, Except.ok.injEq, Prod.mk.injEq] at h
    exact ⟨[], rfl, by simpa using h.2, by simp⟩
  | succ n ih =>
    simp only [checkMembers, bind_eq_ok, Prod.exists] at h
    obtain ⟨count, ws', hcount, -, -, ws'', hmember, hrest⟩ := h
    obtain ⟨rs, hrs, rfl, hcounted⟩ := checkRequirements_sound hmember
    obtain ⟨ms, hlen, rfl, hms⟩ := ih hrest
    refine ⟨⟨rs⟩ :: ms, by simp [hlen], ?_,
      forall_mem_cons.mpr ⟨⟨hrs ▸ count.toNat_lt, hcounted⟩, hms⟩⟩
    rw [takeWord_eq_ok.mp hcount, flatMap_cons, encodeMember, hrs, wordCount_toNat]
    simp

theorem checkGroups_sound {extra extra' : Nat}
    (h : checkGroups n extra ws = .ok (extra', rest)) :
    ∃ ps : List AnyOfPredicate, ps.length = n ∧ ws = ps.flatMap encodeGroup ++ rest ∧
      ∀ p ∈ ps, p.Counted := by
  induction n generalizing extra ws with
  | zero =>
    simp only [checkGroups, Except.ok.injEq, Prod.mk.injEq] at h
    exact ⟨[], rfl, by simpa using h.2, by simp⟩
  | succ n ih =>
    simp only [checkGroups, bind_eq_ok, Prod.exists] at h
    obtain ⟨count, ws', hcount, -, -, shortest, ws'', hgroup, hrest⟩ := h
    obtain ⟨ms, hms, rfl, hcounted⟩ := checkMembers_sound hgroup
    obtain ⟨ps, hlen, rfl, hps⟩ := ih hrest
    refine ⟨⟨ms⟩ :: ps, by simp [hlen], ?_,
      forall_mem_cons.mpr ⟨⟨hms ▸ count.toNat_lt, hcounted⟩, hps⟩⟩
    rw [takeWord_eq_ok.mp hcount, flatMap_cons, encodeGroup, hms, wordCount_toNat]
    simp

theorem checkConjunctions_sound (h : checkConjunctions n ws = .ok rest) :
    ∃ cs : List (List FeatureId), cs.length = n ∧ ws = cs.flatMap encodeRun ++ rest ∧
      ∀ c ∈ cs, c.length < 2 ^ 32 := by
  induction n generalizing ws with
  | zero => exact ⟨[], rfl, by simpa [checkConjunctions] using h, by simp⟩
  | succ n ih =>
    simp only [checkConjunctions, bind_eq_ok, Prod.exists] at h
    obtain ⟨count, ws', hcount, -, -, xs, ws'', htake, hrest⟩ := h
    obtain ⟨cs, hlen, rfl, hcs⟩ := ih hrest
    refine ⟨xs :: cs, by simp [hlen], ?_, forall_mem_cons.mpr ⟨length_takeWords htake, hcs⟩⟩
    rw [takeWord_eq_ok.mp hcount, encodeRun_of_takeWords htake, flatMap_cons,
      append_assoc]

theorem checkArcs_sound {positions : UInt32} {previous : Option Span}
    {reachable reachable' : List UInt32}
    (h : checkArcs positions n previous reachable ws = .ok (reachable', rest)) :
    ∃ as : List PhraseArc, as.length = n ∧ ws = as.flatMap encodeArc ++ rest ∧
      ∀ a ∈ as, a.alternatives.length < 2 ^ 32 := by
  induction n generalizing previous reachable ws with
  | zero =>
    simp only [checkArcs, Except.ok.injEq, Prod.mk.injEq] at h
    exact ⟨[], rfl, by simpa using h.2, by simp⟩
  | succ n ih =>
    simp only [checkArcs, bind_eq_ok, Prod.exists] at h
    obtain ⟨start, ws₁, hstart, stop, ws₂, hstop, count, ws₃, hcount, -, -, -, -, -, -, labels,
      ws₄, htake, -, -, hrest⟩ := h
    obtain ⟨as, hlen, rfl, has⟩ := ih hrest
    refine ⟨⟨start, stop, labels⟩ :: as, by simp [hlen], ?_,
      forall_mem_cons.mpr ⟨length_takeWords htake, has⟩⟩
    rw [takeWord_eq_ok.mp hstart, takeWord_eq_ok.mp hstop, takeWord_eq_ok.mp hcount,
      encodeRun_of_takeWords htake, flatMap_cons, encodeArc]
    simp

theorem checkGraphs_sound (h : checkGraphs n ws = .ok rest) :
    ∃ gs : List PhraseGraph, gs.length = n ∧ ws = gs.flatMap encodeGraph ++ rest ∧
      ∀ g ∈ gs, g.Counted := by
  induction n generalizing ws with
  | zero => exact ⟨[], rfl, by simpa [checkGraphs] using h, by simp⟩
  | succ n ih =>
    simp only [checkGraphs, bind_eq_ok, Prod.exists] at h
    obtain ⟨positions, ws₁, hpositions, count, ws₂, hcount, -, -, reachable, ws₃, harcs, -, -,
      hrest⟩ := h
    obtain ⟨as, has, rfl, hcounted⟩ := checkArcs_sound harcs
    obtain ⟨gs, hlen, rfl, hgs⟩ := ih hrest
    refine ⟨⟨positions, as⟩ :: gs, by simp [hlen], ?_,
      forall_mem_cons.mpr ⟨⟨has ▸ count.toNat_lt, hcounted⟩, hgs⟩⟩
    rw [takeWord_eq_ok.mp hpositions, takeWord_eq_ok.mp hcount, flatMap_cons, encodeGraph,
      has, wordCount_toNat]
    simp

theorem validatePhrases_sound {count : UInt32} (h : validatePhrases ws = .ok (count, rest)) :
    ∃ gs : List PhraseGraph, gs.length = count.toNat ∧ ws = encodePhrases gs ++ rest ∧
      ∀ g ∈ gs, g.Counted := by
  simp only [validatePhrases, bind_eq_ok, Prod.exists, pure, Except.pure, Except.ok.injEq,
    Prod.mk.injEq] at h
  obtain ⟨count', ws', hcount, ws'', hgraphs, rfl, rfl⟩ := h
  obtain ⟨gs, hlen, rfl, hgs⟩ := checkGraphs_sound hgraphs
  refine ⟨gs, hlen, ?_, hgs⟩
  rw [takeWord_eq_ok.mp hcount, encodePhrases, hlen, wordCount_toNat, cons_append]

variable {quoted : Bool}

/-- The words behind the feature clauses are the quoted graphs, and there
are some exactly when the version announces them. -/
theorem validateTail_sound (h : validateTail quoted ws = .ok rest) :
    ∃ required forbidden : List PhraseGraph,
      (required ≠ [] ∨ forbidden ≠ [] ↔ quoted = true) ∧
      ws = (if quoted then encodePhrases required ++ encodePhrases forbidden else []) ++ rest ∧
      required.length < 2 ^ 32 ∧ forbidden.length < 2 ^ 32 ∧
      ∀ g ∈ required ++ forbidden, g.Counted := by
  cases quoted with
  | false =>
    simp only [validateTail, Bool.false_eq_true, if_false, Except.ok.injEq] at h
    exact ⟨[], [], by simp, by simpa using h, by simp, by simp, by simp⟩
  | true =>
    simp only [validateTail, if_true, validateQuoted, bind_eq_ok, Prod.exists, pure, Except.pure,
      Except.ok.injEq] at h
    obtain ⟨count, ws₁, hreq, count', ws₂, hforb, _, hsome, rfl⟩ := h
    obtain ⟨required, hrequired, rfl, hreqGraphs⟩ := validatePhrases_sound hreq
    obtain ⟨forbidden, hforbidden, rfl, hforbGraphs⟩ := validatePhrases_sound hforb
    refine ⟨required, forbidden, ?_, by simp, hrequired ▸ count.toNat_lt,
      hforbidden ▸ count'.toNat_lt, forall_mem_append.mpr ⟨hreqGraphs, hforbGraphs⟩⟩
    -- a count that is not zero counts some graph
    have hne : ∀ {gs : List PhraseGraph} {c : UInt32}, gs.length = c.toNat → c ≠ 0 → gs ≠ [] := by
      rintro gs c hlen hc rfl
      exact hc (UInt32.toNat_inj.mp hlen.symm)
    simp only [ensure_eq_ok, Bool.or_eq_true, decide_eq_true_eq] at hsome
    simp only [iff_true]
    exact hsome.imp (hne hrequired) (hne hforbidden)

theorem validateBody_sound {semantic : Option (UInt32 × UInt32)} {u : Unit}
    (h : validateBody semantic quoted ws = .ok u) :
    ∃ ex : Extracted, ex.hasPhrases = quoted ∧ ws = encodeBody ex ∧ ex.Counted := by
  simp only [validateBody, bind_eq_ok, Prod.exists, ensure_eq_ok, List.isEmpty_iff] at h
  obtain ⟨positive, ws₁, hpositive, -, -, -, -, extra, ws₂, hgroups, -, -, negative, ws₃,
    hnegative, ws₄, hconjunctions, ws₅, htail, rfl⟩ := h
  obtain ⟨ps, hps, rfl, hgroupsCounted⟩ := checkGroups_sound hgroups
  obtain ⟨cs, hcs, rfl, hconjCounted⟩ := checkConjunctions_sound hconjunctions
  obtain ⟨required, forbidden, hquoted, rfl, hreq, hforb, hgraphs⟩ := validateTail_sound htail
  have hflag : Extracted.hasPhrases ⟨[], [], [], 0, 0, ps, cs, required, forbidden⟩ = quoted := by
    rw [Extracted.hasPhrases, Bool.eq_iff_iff, ← hquoted]
    simp
  refine ⟨⟨[], [], [], 0, 0, ps, cs, required, forbidden⟩, hflag, ?_, hps ▸ positive.toNat_lt,
    hgroupsCounted, hcs ▸ negative.toNat_lt, hconjCounted, hreq, hforb, hgraphs⟩
  rw [takeWord_eq_ok.mp hpositive, takeWord_eq_ok.mp hnegative, encodeBody, hflag, hps, hcs,
    wordCount_toNat, wordCount_toNat]
  simp

end Walkers

/-! ## accepted programs -/

/-- What stands behind a program's version and ranking counts. -/
def programBody (version : UInt32) (ws : List UInt32) : List UInt32 :=
  if version = rankFeatureProgramVersion ∨ version = rankPhraseProgramVersion then ws.drop 2 else ws

variable {u : Unit}

variable {version : UInt32}

/-- **The check accepts only encodings.** -/
theorem exists_encode_of_validatePredicate {ws : List UInt32}
    (h : validatePredicate (version :: ws) = .ok u) :
    ∃ ex : Extracted, ex.hasPhrases = predicateHasPhrases (version :: ws) ∧
      programBody version ws = encodeBody ex ∧ ex.Counted := by
  simp only [validatePredicate] at h
  split at h
  · next hranked =>
    simp only [bind_eq_ok, Prod.exists] at h
    obtain ⟨groups, ws₁, hgroups, terms, ws₂, hterms, hbody⟩ := h
    obtain ⟨ex, hquoted, rfl, hcounted⟩ := validateBody_sound hbody
    refine ⟨ex, hquoted, ?_, hcounted⟩
    rw [programBody, if_pos hranked, takeWord_eq_ok.mp hgroups, takeWord_eq_ok.mp hterms]
    rfl
  · next hplain =>
    split at h
    · obtain ⟨ex, hquoted, rfl, hcounted⟩ := validateBody_sound h
      exact ⟨ex, hquoted, if_neg hplain, hcounted⟩
    · contradiction

theorem length_programBody_le (version : UInt32) (ws : List UInt32) :
    (programBody version ws).length ≤ ws.length := by
  unfold programBody
  split
  · simp
  · rfl

theorem exists_encode_of_short {ws : List UInt32} (h : validatePredicate (version :: ws) = .ok u)
    (hlen : (version :: ws).length < 2 ^ 32) :
    ∃ ex : Extracted, ex.hasPhrases = predicateHasPhrases (version :: ws) ∧
      programBody version ws = encodeBody ex ∧ (encodeBody ex).length < 2 ^ 32 ∧
      ∀ v, verifyPredicate? (version :: ws) v = some (ex.compoundHolds v) := by
  obtain ⟨ex, hquoted, hbody, -⟩ := exists_encode_of_validatePredicate h
  have hshort : (encodeBody ex).length < 2 ^ 32 := by
    rw [← hbody]
    exact (length_programBody_le version ws).trans_lt (Nat.lt_of_succ_lt hlen)
  refine ⟨ex, hquoted, hbody, hshort, fun v => ?_⟩
  rw [verifyPredicate?, ← hquoted]
  change verifyBody ex.hasPhrases (programBody version ws) v = _
  rw [hbody]
  exact verifyBody_encode hshort

/-- **An accepted program is never read past its end**: on every title the
interpreter answers. -/
theorem exists_verifyPredicate?_of_validate {words : List UInt32}
    (h : validatePredicate words = .ok u) (hlen : words.length < 2 ^ 32) (v : TitleView) :
    ∃ answer, verifyPredicate? words v = some answer := by
  cases words with
  | nil => exact ⟨true, rfl⟩
  | cons version ws =>
    obtain ⟨ex, -, -, -, hverify⟩ := exists_encode_of_short h hlen
    exact ⟨_, hverify v⟩

end ReverseRusty
