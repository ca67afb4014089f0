import ReverseRusty.PredicateSound

/-!
# ReverseRusty.BatchEval

Verifying one stored query against a batch of titles at once
(`exact/slices.rs`, `exact/predicate.rs`).  The batch is transposed: each
feature has a bitmap of the titles that contain it, and the clauses of the
query narrow a bitmap of the titles still accepted, stopping when none is
left.

A bitmap of the source is a run of 64-bit words; here it is one bit vector
of width `w`, and the word loops are its bitwise operations.

`exists_evalBatch` is the transposition: bit `t` of the result is the
answer of scalar verification on title `t`.
-/

namespace ReverseRusty

open List

/-- Why an evaluation would abort: an index or a raw read outside its slice
or section, or a quoted program where only presence bitmaps are at hand. -/
inductive Fault where
  | outOfRange
  | positionedPredicate
deriving DecidableEq, Repr

/-- A computation that may abort. -/
abbrev Checked := Except Fault

/-- A missing value is a read out of range. -/
def Checked.ofOption {α : Type} : Option α → Checked α
  | some a => .ok a
  | none => .error .outOfRange

/-! ## batches -/

/-- A transposed batch: its distinct features in order of first occurrence,
each with the bitmap of titles that have it, and the mask word of each
title. -/
structure TitleBatch (w : Nat) where
  rows : List (FeatureId × BitVec w)
  masks : List MaskWord
deriving DecidableEq, Repr

namespace TitleBatch

variable {w : Nat} (b : TitleBatch w)

def empty : TitleBatch w := ⟨[], []⟩

/-- The titles that have a feature; `none` when no title has it. -/
def lookup (f : FeatureId) : Option (BitVec w) := b.rows.lookup f

def distinct : List FeatureId := b.rows.map Prod.fst

def maskUnion : MaskWord := b.masks.foldl (· ||| ·) 0

/-- Whether title `t` has a feature. -/
def has (t : Nat) (f : FeatureId) : Bool := ((b.lookup f).getD 0).getLsbD t

def anyOf (fs : List FeatureId) : BitVec w :=
  fs.foldl (fun acc f =>
    match b.lookup f with
    | some bits => acc ||| bits
    | none => acc) 0

/-- The titles of `member` with all of some features. -/
def allOf : List FeatureId → BitVec w → BitVec w
  | [], member => member
  | f :: fs, member =>
    match b.lookup f with
    | some bits => allOf fs (member &&& bits)
    | none => 0

/-- The titles whose mask word passes the required and forbidden gates. -/
def gate (reqMask forbMask : MaskWord) : BitVec w :=
  b.masks.zipIdx.foldl (fun acc m =>
    if reqMask &&& m.1 = reqMask ∧ forbMask &&& m.1 = 0 then acc ||| BitVec.twoPow w m.2
    else acc) 0

theorem getLsbD_anyOf (fs : List FeatureId) (t : Nat) :
    (b.anyOf fs).getLsbD t = fs.any (b.has t) := by
  have hfold : ∀ (gs : List FeatureId) (acc : BitVec w),
      (gs.foldl (fun acc f =>
        match b.lookup f with
        | some bits => acc ||| bits
        | none => acc) acc).getLsbD t = (acc.getLsbD t || gs.any (b.has t)) := by
    intro gs
    induction gs with
    | nil => simp
    | cons f gs ih =>
      intro acc
      rw [foldl_cons, ih, any_cons]
      cases hf : b.lookup f with
      | none => simp [has, hf]
      | some bits => simp [has, hf, Bool.or_assoc]
  rw [anyOf, hfold]
  simp

theorem getLsbD_allOf (fs : List FeatureId) (member : BitVec w) (t : Nat) :
    (b.allOf fs member).getLsbD t = (member.getLsbD t && fs.all (b.has t)) := by
  induction fs generalizing member with
  | nil => simp [allOf]
  | cons f fs ih =>
    rw [allOf, all_cons]
    cases hf : b.lookup f with
    | none => simp [has, hf]
    | some bits => simp [ih, has, hf, Bool.and_assoc]

theorem getLsbD_gate {reqMask forbMask : MaskWord} {t : Nat} (ht : t < w) :
    (b.gate reqMask forbMask).getLsbD t = true ↔
      ∃ m, b.masks[t]? = some m ∧ reqMask &&& m = reqMask ∧ forbMask &&& m = 0 := by
  have hfold : ∀ (ms : List (MaskWord × Nat)) (acc : BitVec w),
      (ms.foldl (fun acc m =>
        if reqMask &&& m.1 = reqMask ∧ forbMask &&& m.1 = 0 then acc ||| BitVec.twoPow w m.2
        else acc) acc).getLsbD t = true ↔ acc.getLsbD t = true ∨
          ∃ m, (m, t) ∈ ms ∧ reqMask &&& m = reqMask ∧ forbMask &&& m = 0 := by
    intro ms
    induction ms with
    | nil => simp
    | cons m ms ih =>
      intro acc
      rw [foldl_cons, ih]
      by_cases hm : reqMask &&& m.1 = reqMask ∧ forbMask &&& m.1 = 0
      · rw [if_pos hm, BitVec.getLsbD_or, Bool.or_eq_true, BitVec.getLsbD_twoPow]
        simp only [mem_cons, Prod.ext_iff, Bool.and_eq_true, decide_eq_true_eq]
        grind
      · rw [if_neg hm]
        simp only [mem_cons, Prod.ext_iff]
        grind
  rw [gate, hfold]
  simp [mem_zipIdx_iff_getElem?]

end TitleBatch

/-! ## the program on a batch -/

section Program

variable {w : Nat} (b : TitleBatch w)

/-- Read `n` requirements of a member, keeping the titles that meet each. -/
def requirementsBits : Nat → BitVec w → List UInt32 → Option (BitVec w × List UInt32)
  | 0, member, ws => some (member, ws)
  | n + 1, member, ws => do
    let (alternatives, ws) ← readRun ws
    requirementsBits n (member &&& b.anyOf alternatives) ws

/-- Read `n` members of a group, collecting the titles that hit one. -/
def membersBits : Nat → BitVec w → List UInt32 → Option (BitVec w × List UInt32)
  | 0, group, ws => some (group, ws)
  | n + 1, group, ws => do
    let (count, ws) ← readWord ws
    let (member, ws) ← requirementsBits b count.toNat (BitVec.allOnes w) ws
    membersBits n (group ||| member) ws

/-- Read `n` groups and go on with `k`, unless a group leaves no title. -/
def groupsBits (k : BitVec w → List UInt32 → Option (BitVec w)) :
    Nat → BitVec w → List UInt32 → Option (BitVec w)
  | 0, acc, ws => k acc ws
  | n + 1, acc, ws => do
    let (count, ws) ← readWord ws
    let (group, ws) ← membersBits b count.toNat 0 ws
    if acc &&& group = 0 then some 0 else groupsBits k n (acc &&& group) ws

/-- Read `n` forbidden conjunctions, dropping the titles that have one. -/
def conjunctionsBits : Nat → BitVec w → List UInt32 → Option (BitVec w)
  | 0, acc, _ => some acc
  | n + 1, acc, ws => do
    let (features, ws) ← readRun ws
    let acc := acc &&& ~~~b.allOf features (BitVec.allOnes w)
    if acc = 0 then some 0 else conjunctionsBits n acc ws

/-- Interpret the feature clauses of a program on a batch; `none` is a
read past its end. -/
def evalPredicateBatch? (words : List UInt32) (acc : BitVec w) : Option (BitVec w) :=
  match words with
  | [] => some acc
  | version :: ws => do
    let (count, ws) ← readWord (programBody version ws)
    groupsBits b (fun acc ws => do
      let (count, ws) ← readWord ws
      conjunctionsBits b count.toNat acc ws) count.toNat acc ws

/-- The clause on title `t`, by the batch's bitmaps. -/
theorem requirementsBits_encode {rs : List (List FeatureId)} {rest : List UInt32}
    (h : (rs.flatMap encodeRun).length < 2 ^ 32) (member : BitVec w) :
    ∃ bits, requirementsBits b rs.length member (rs.flatMap encodeRun ++ rest) = some (bits, rest) ∧
      ∀ t, bits.getLsbD t = (member.getLsbD t && rs.all fun r => r.any (b.has t)) := by
  induction rs generalizing member with
  | nil => exact ⟨member, by simp [requirementsBits], by simp⟩
  | cons r rs ih =>
    simp only [flatMap_cons, length_append] at h
    have hr : readRun (encodeRun r ++ (rs.flatMap encodeRun ++ rest)) =
        some (r, rs.flatMap encodeRun ++ rest) := readRun_encodeRun (by omega)
    obtain ⟨bits, hbits, hget⟩ := ih (by omega) (member &&& b.anyOf r)
    refine ⟨bits, ?_, fun t => ?_⟩
    · simp [requirementsBits, hr, hbits]
    · rw [hget, BitVec.getLsbD_and, b.getLsbD_anyOf, all_cons, Bool.and_assoc]

theorem membersBits_encode {ms : List AnyOfMember} {rest : List UInt32}
    (h : (ms.flatMap encodeMember).length < 2 ^ 32) (group : BitVec w) :
    ∃ bits, membersBits b ms.length group (ms.flatMap encodeMember ++ rest) = some (bits, rest) ∧
      ∀ t < w, bits.getLsbD t =
        (group.getLsbD t || ms.any fun m => m.requirements.all fun r => r.any (b.has t)) := by
  induction ms generalizing group with
  | nil => exact ⟨group, by simp [membersBits], by simp⟩
  | cons m ms ih =>
    simp only [flatMap_cons, length_append, encodeMember, length_cons] at h
    have hcount := @toNat_wordCount_flatMap _ _ length_encodeRun_pos m.requirements (by omega)
    obtain ⟨member, hmember, hgetMember⟩ := @requirementsBits_encode w b m.requirements
      (ms.flatMap encodeMember ++ rest) (by omega) (BitVec.allOnes w)
    obtain ⟨bits, hbits, hget⟩ := ih (by omega) (group ||| member)
    refine ⟨bits, ?_, fun t ht => ?_⟩
    · simp [membersBits, encodeMember, readWord, hcount, hmember, hbits]
    · rw [hget t ht, BitVec.getLsbD_or, hgetMember, BitVec.getLsbD_allOnes, decide_eq_true ht,
        Bool.true_and, any_cons, Bool.or_assoc]

/-- The run always answers, through `ok`, and keeps of the accepted titles
those of `p`. -/
def Narrows {α : Type} (ok : BitVec w → α) (run : BitVec w → α) (p : Nat → Bool) : Prop :=
  ∀ acc, ∃ bits, run acc = ok bits ∧ ∀ t < w, bits.getLsbD t = (acc.getLsbD t && p t)

@[simp] theorem getLsbD_none (t : Nat) : (0 : BitVec w).getLsbD t = false := BitVec.getLsbD_zero

theorem Narrows.step {α : Type} {ok run run' : BitVec w → α} {p p' : Nat → Bool}
    (h : Narrows ok run p) (clause : BitVec w → BitVec w) (q : Nat → Bool)
    (hclause : ∀ acc, ∀ t < w, (clause acc).getLsbD t = (acc.getLsbD t && q t))
    (hrun : ∀ acc, run' acc = if clause acc = 0 then ok 0 else run (clause acc))
    (hp : ∀ t < w, p' t = (q t && p t)) : Narrows ok run' p' := by
  intro acc
  by_cases hzero : clause acc = 0
  · refine ⟨0, (hrun acc).trans (if_pos hzero), fun t ht => ?_⟩
    rw [hp t ht, ← Bool.and_assoc, ← hclause acc t ht, hzero, getLsbD_none, Bool.false_and]
  · obtain ⟨bits, hbits, hget⟩ := h (clause acc)
    refine ⟨bits, ((hrun acc).trans (if_neg hzero)).trans hbits, fun t ht => ?_⟩
    rw [hget t ht, hclause acc t ht, hp t ht, Bool.and_assoc]

theorem groupsBits_encode {ps : List AnyOfPredicate} {rest : List UInt32}
    {k : BitVec w → List UInt32 → Option (BitVec w)} {p : Nat → Bool}
    (h : (ps.flatMap encodeGroup).length < 2 ^ 32) (hk : Narrows some (fun acc => k acc rest) p) :
    Narrows some (fun acc => groupsBits b k ps.length acc (ps.flatMap encodeGroup ++ rest)) fun t =>
      (ps.all fun q => q.members.any fun m => m.requirements.all fun r => r.any (b.has t)) &&
        p t := by
  induction ps with
  | nil => simpa [groupsBits] using hk
  | cons q ps ih =>
    simp only [flatMap_cons, length_append, encodeGroup, length_cons] at h
    have hcount := @toNat_wordCount_flatMap _ _ length_encodeMember_pos q.members (by omega)
    obtain ⟨group, hgroup, hgetGroup⟩ := @membersBits_encode w b q.members
      (ps.flatMap encodeGroup ++ rest) (by omega) 0
    refine (ih (by omega)).step (· &&& group)
      (fun t => q.members.any fun m => m.requirements.all fun r => r.any (b.has t))
      (fun acc t ht => by rw [BitVec.getLsbD_and, hgetGroup t ht, getLsbD_none, Bool.false_or])
      (fun acc => ?_) fun t _ => by rw [all_cons, Bool.and_assoc]
    simp only [length_cons, groupsBits, flatMap_cons, encodeGroup, readWord,
      append_assoc, cons_append, Option.bind_eq_bind, Option.bind_some, hcount, hgroup]

theorem conjunctionsBits_encode {cs : List (List FeatureId)} {rest : List UInt32}
    (h : (cs.flatMap encodeRun).length < 2 ^ 32) :
    Narrows some (fun acc => conjunctionsBits b cs.length acc (cs.flatMap encodeRun ++ rest)) fun t =>
      !cs.any fun c => c.all (b.has t) := by
  induction cs with
  | nil => exact fun acc => ⟨acc, by simp [conjunctionsBits], by simp⟩
  | cons c cs ih =>
    simp only [flatMap_cons, length_append] at h
    have hc : readRun (encodeRun c ++ (cs.flatMap encodeRun ++ rest)) =
        some (c, cs.flatMap encodeRun ++ rest) := readRun_encodeRun (by omega)
    refine (ih (by omega)).step (· &&& ~~~b.allOf c (BitVec.allOnes w))
      (fun t => !c.all (b.has t)) (fun acc t ht => ?_) (fun acc => ?_)
      fun t _ => by rw [any_cons, Bool.not_or]
    · rw [BitVec.getLsbD_and, BitVec.getLsbD_not, b.getLsbD_allOf, BitVec.getLsbD_allOnes,
        decide_eq_true ht, Bool.true_and, Bool.true_and]
    · simp [conjunctionsBits, hc]

/-- **An accepted program without quoted clauses is evaluated on the whole
batch**, and keeps title `t` when its clauses hold of the title's
features. -/
theorem exists_evalPredicateBatch? {words : List UInt32} {u : Unit}
    (h : validatePredicate words = .ok u) (hlen : words.length < 2 ^ 32)
    (hquoted : predicateHasPhrases words = false) :
    ∃ p : Nat → Bool, Narrows some (evalPredicateBatch? b words) p ∧
      ∀ (t : Nat) (v : TitleView), (∀ f, b.has t f = binarySearch v.pos f) →
        (∀ f, b.has t f = binarySearch v.neg f) → p t = verifyPredicate words v := by
  cases words with
  | nil =>
    refine ⟨fun _ => true, fun acc => ⟨acc, rfl, by simp⟩, fun t v _ _ => ?_⟩
    simp [verifyPredicate, verifyPredicate?]
  | cons version ws =>
    obtain ⟨ex, hflag, hbody, hshort, hverify⟩ := exists_encode_of_short h hlen
    rw [hquoted] at hflag
    refine ⟨fun t => (ex.anyofPredicates.all fun q => q.members.any fun m =>
      m.requirements.all fun r => r.any (b.has t)) &&
        !ex.forbiddenConjunctions.any fun c => c.all (b.has t), ?_, fun t v hpos hneg => ?_⟩
    · obtain ⟨hgroupCount, hconjCount⟩ := toNat_wordCount_clauses hshort
      simp only [encodeBody, hflag, length_cons, length_append] at hshort
      have hclear := @conjunctionsBits_encode w b ex.forbiddenConjunctions [] (by omega)
      have hall := @groupsBits_encode w b ex.anyofPredicates
        (wordCount ex.forbiddenConjunctions.length :: ex.forbiddenConjunctions.flatMap encodeRun)
        (fun acc ws => do
          let (count, ws) ← readWord ws
          conjunctionsBits b count.toNat acc ws) _ (by omega)
        (by simpa [readWord, hconjCount] using hclear)
      intro acc
      obtain ⟨bits, hbits, hget⟩ := hall acc
      refine ⟨bits, ?_, hget⟩
      rw [evalPredicateBatch?, hbody, encodeBody, hflag]
      simpa [readWord, hgroupCount] using hbits
    · -- the scalar interpreter reads the same clauses
      have hphrases := phrasesHold_of_flat hflag v
      have hsame : b.has t = binarySearch v.pos := funext hpos
      have hneg' : binarySearch v.neg = binarySearch v.pos := (funext hneg).symm.trans hsame
      rw [verifyPredicate, hverify, Option.getD_some, Extracted.compoundHolds, hphrases,
        Bool.and_true, hneg']
      simp only [hsame]
      rfl

end Program

/-! ## stored queries on a batch -/

/-- Whether a word has exactly one bit. -/
def isPowerOfTwo (m : MaskWord) : Bool := (List.range 64).countP m.getLsbD = 1

/-- Whether a query asks for one masked feature and nothing else. -/
def Body.isPureAnchor (r : Body) : Bool :=
  r.reqTail.isEmpty && r.forbMask == 0 && r.forbTail.isEmpty && r.groups.isEmpty
    && r.predicate.isEmpty && isPowerOfTwo r.reqMask

/-- Whether a query asks for the unmasked feature `anchor` and nothing
else. -/
def Body.pureTailAnchor (r : Body) (anchor : FeatureId) : Bool :=
  r.reqMask == 0 && r.reqTail == [anchor] && r.forbMask == 0 && r.forbTail.isEmpty
    && r.groups.isEmpty && r.predicate.isEmpty

section Rows

variable {w : Nat} (b : TitleBatch w)

/-- Whether the batch as a whole has what a query needs; never decided by
what it forbids. -/
def Body.canMatchBatch (r : Body) : Bool :=
  (r.reqMask &&& b.maskUnion == r.reqMask) && r.reqTail.all (fun f => (b.lookup f).isSome)
    && r.groups.all (fun g => g.any fun f => (b.lookup f).isSome)

def requiredTail (k : BitVec w → Checked (BitVec w)) :
    List FeatureId → BitVec w → Checked (BitVec w)
  | [], acc => k acc
  | f :: fs, acc =>
    match b.lookup f with
    | some bits => if acc &&& bits = 0 then .ok 0 else requiredTail k fs (acc &&& bits)
    | none => .ok 0

def forbiddenTail (k : BitVec w → Checked (BitVec w)) :
    List FeatureId → BitVec w → Checked (BitVec w)
  | [], acc => k acc
  | f :: fs, acc =>
    match b.lookup f with
    | some bits => if acc &&& ~~~bits = 0 then .ok 0 else forbiddenTail k fs (acc &&& ~~~bits)
    | none => forbiddenTail k fs acc

def anyofGroups (k : BitVec w → Checked (BitVec w)) :
    List (List FeatureId) → BitVec w → Checked (BitVec w)
  | [], acc => k acc
  | g :: gs, acc =>
    if acc &&& b.anyOf g = 0 then .ok 0 else anyofGroups k gs (acc &&& b.anyOf g)

/-- **Verify one query against a batch**: the bitmap of the titles that
satisfy it.  Presence bitmaps know no token order, so a quoted program is
refused. -/
def evalBatch (r : Body) (tags : List TagId) (pred : TagPredicate) : Checked (BitVec w) :=
  if predicateHasPhrases r.predicate then .error .positionedPredicate
  else if !pred.isEmpty && !pred.matches tags then .ok 0
  else
    requiredTail b (forbiddenTail b (anyofGroups b (fun acc =>
      Checked.ofOption (evalPredicateBatch? b r.predicate acc)) r.groups) r.forbTail) r.reqTail
      (b.gate r.reqMask r.forbMask)

variable {b}

variable {r : Body}

/-- The tag filter passes or rejects a query as a whole. -/
theorem evalBatch_eq_ite (hquoted : predicateHasPhrases r.predicate = false) (tags : List TagId)
    (pred : TagPredicate) :
    evalBatch b r tags pred = if pred.matches tags then evalBatch b r tags .empty else .ok 0 := by
  have hgate : (!pred.isEmpty && !pred.matches tags) = !pred.matches tags := by
    cases hempty : pred.isEmpty with
    | true => simp [TagPredicate.matches_of_isEmpty hempty]
    | false => simp
  unfold evalBatch
  rw [hquoted, hgate]
  cases pred.matches tags with
  | true => simp
  | false => simp

section Loops

variable {k : BitVec w → Checked (BitVec w)} {p : Nat → Bool} (hk : Narrows .ok k p)

include hk

theorem narrows_requiredTail (fs : List FeatureId) :
    Narrows .ok (requiredTail b k fs) fun t => fs.all (b.has t) && p t := by
  induction fs with
  | nil => simpa [requiredTail] using hk
  | cons f fs ih =>
    cases hf : b.lookup f with
    | none => exact fun acc => ⟨0, by simp [requiredTail, hf], by simp [TitleBatch.has, hf]⟩
    | some bits =>
      exact ih.step (· &&& bits) (b.has · f)
        (by simp [TitleBatch.has, hf]) (fun acc => by simp only [requiredTail, hf])
        fun t _ => by rw [all_cons, Bool.and_assoc]

theorem narrows_forbiddenTail (fs : List FeatureId) :
    Narrows .ok (forbiddenTail b k fs) fun t => (!fs.any (b.has t)) && p t := by
  induction fs with
  | nil => simpa [forbiddenTail] using hk
  | cons f fs ih =>
    cases hf : b.lookup f with
    | none =>
      intro acc
      obtain ⟨bits, hbits, hget⟩ := ih acc
      refine ⟨bits, by simp only [forbiddenTail, hf, hbits], fun t ht => ?_⟩
      rw [hget t ht]
      simp [TitleBatch.has, hf]
    | some bits =>
      exact ih.step (· &&& ~~~bits) (fun t => !b.has t f)
        (fun acc t ht => by simp [TitleBatch.has, hf, ht])
        (fun acc => by simp only [forbiddenTail, hf])
        fun t _ => by rw [any_cons, Bool.not_or, Bool.and_assoc]

theorem narrows_anyofGroups (gs : List (List FeatureId)) :
    Narrows .ok (anyofGroups b k gs) fun t => (gs.all fun g => g.any (b.has t)) && p t := by
  induction gs with
  | nil => simpa [anyofGroups] using hk
  | cons g gs ih =>
    exact ih.step (· &&& b.anyOf g) (fun t => g.any (b.has t))
      (by simp [b.getLsbD_anyOf]) (fun acc => by rw [anyofGroups])
      fun t _ => by rw [all_cons, Bool.and_assoc]

end Loops

/-- **The transposition.**  A query whose stored program passes the check
and has no quoted clauses is evaluated on the whole batch, and bit `t` is
the answer of scalar verification on any title with the mask and features
of title `t`. -/
theorem exists_evalBatch {u : Unit} (h : validatePredicate r.predicate = .ok u)
    (hlen : r.predicate.length < 2 ^ 32) (hquoted : predicateHasPhrases r.predicate = false)
    (tags : List TagId) (pred : TagPredicate) :
    ∃ bits, evalBatch b r tags pred = .ok bits ∧
      ∀ t < w, ∀ (m : MaskWord) (feats : List FeatureId), b.masks[t]? = some m →
        (∀ f, b.has t f = binarySearch feats f) →
          bits.getLsbD t = (r.verify (.single m feats) && pred.matches tags) := by
  obtain ⟨p, hp, hverify⟩ := exists_evalPredicateBatch? b h hlen hquoted
  have hprogram : Narrows .ok
      (fun acc => Checked.ofOption (evalPredicateBatch? b r.predicate acc)) p := by
    intro acc
    obtain ⟨bits, hbits, hget⟩ := hp acc
    exact ⟨bits, congrArg Checked.ofOption hbits, hget⟩
  have hloops := narrows_requiredTail (b := b) (narrows_forbiddenTail (b := b)
    (narrows_anyofGroups (b := b) hprogram r.groups) r.forbTail) r.reqTail
  rw [evalBatch, if_neg (by simp [hquoted])]
  by_cases htags : (!pred.isEmpty && !pred.matches tags) = true
  · rw [if_pos htags]
    simp only [Bool.and_eq_true, Bool.not_eq_true'] at htags
    exact ⟨0, rfl, fun t _ m feats _ _ => by rw [getLsbD_none, htags.2, Bool.and_false]⟩
  · rw [if_neg htags]
    have hpass : pred.matches tags = true := by
      simp only [Bool.and_eq_true, Bool.not_eq_true', not_and, Bool.not_eq_false] at htags
      cases hempty : pred.isEmpty with
      | true => exact TagPredicate.matches_of_isEmpty hempty tags
      | false => exact htags hempty
    obtain ⟨bits, hbits, hget⟩ := hloops (b.gate r.reqMask r.forbMask)
    refine ⟨bits, hbits, fun t ht m feats hm hfeats => ?_⟩
    have hgate : (b.gate r.reqMask r.forbMask).getLsbD t =
        ((r.reqMask &&& m == r.reqMask) && (r.forbMask &&& m == 0)) := by
      rw [Bool.eq_iff_iff, b.getLsbD_gate ht, hm]
      simp
    have hp' : p t = (r.predicate.isEmpty || verifyPredicate r.predicate (.single m feats)) := by
      rw [hverify t (.single m feats) hfeats hfeats]
      cases hpred : r.predicate with
      | nil => rfl
      | cons _ _ => rfl
    have hsame : b.has t = binarySearch feats := funext hfeats
    rw [hget t ht, hgate, hpass, Bool.and_true, Body.verify]
    simp only [hsame, hp', TitleView.single, Bool.and_assoc]

end Rows

end ReverseRusty
