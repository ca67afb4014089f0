import ReverseRusty.BatchEval
import ReverseRusty.ExactRow
import ReverseRusty.Lib.Bitmap
import ReverseRusty.PredicateEncode

/-!
# ReverseRusty.BatchWords

Verifying one stored query against a batch of titles, word by word
(`eval_batch_slices` and `prefilter_slices` of `exact/slices.rs`,
`eval_predicate_batch` of `exact/predicate.rs`).  The bitmaps are runs of
words: the accepted titles and three scratch runs whose earlier contents do
not matter.

Every clause keeps of the accepted titles those it holds of (`Keeps`), and a
loop that stops early has none left.
-/

namespace ReverseRusty

open List

/-! ## the buffers -/

/-- The accepted titles and the scratch bitmaps. -/
structure Buffers where
  acc : List BitmapWord
  grp : List BitmapWord
  member : List BitmapWord
  choice : List BitmapWord
deriving DecidableEq, Repr

/-- All four are of the batch's word length. -/
structure Buffers.Sized (s : Buffers) (w : Nat) : Prop where
  acc : s.acc.length = w
  grp : s.grp.length = w
  member : s.member.length = w
  choice : s.choice.length = w

section Loops

variable (lookup : FeatureId → Option (List BitmapWord))

def unionInto (fs : List FeatureId) (bm : List BitmapWord) : List BitmapWord :=
  fs.foldl (fun bm f =>
    match lookup f with
    | some titles => (mergeInto (· ||| ·) bm titles).1
    | none => bm) bm

def allInto : List FeatureId → List BitmapWord → List BitmapWord
  | [], bm => bm
  | f :: fs, bm =>
    match lookup f with
    | some titles => allInto fs (mergeInto (· &&& ·) bm titles).1
    | none => fillWith 0 bm

/-! ## the program -/

variable (words : List UInt32)

/-- Read `n` requirements, keeping in `member` the titles that meet each. -/
def requirementsWords : Nat → List BitmapWord → List BitmapWord → Nat →
    Checked (List BitmapWord × List BitmapWord × Nat)
  | 0, member, choice, i => .ok (member, choice, i)
  | n + 1, member, choice, i => do
    let count ← wordAt words i
    let alternatives ← checkedSlice words (i + 1) count.toNat
    let choice := unionInto lookup alternatives (fillWith 0 choice)
    requirementsWords n (mergeInto (· &&& ·) member choice).1 choice (i + 1 + count.toNat)

/-- Read `n` members, collecting in `group` the titles that hit one. -/
def membersWords : Nat → List BitmapWord → List BitmapWord → List BitmapWord → Nat →
    Checked (List BitmapWord × List BitmapWord × List BitmapWord × Nat)
  | 0, group, member, choice, i => .ok (group, member, choice, i)
  | n + 1, group, member, choice, i => do
    let count ← wordAt words i
    let (member, choice, i) ← requirementsWords lookup words count.toNat
      (fillWith (BitVec.allOnes 64) member) choice (i + 1)
    membersWords n (mergeInto (· ||| ·) group member).1 member choice i

/-- Read `n` groups, stopping when no title is left. -/
def groupsWords : Nat → Buffers → Nat → Checked (Bool × Buffers × Nat)
  | 0, s, i => .ok (false, s, i)
  | n + 1, s, i => do
    let count ← wordAt words i
    let (group, member, choice, i) ← membersWords lookup words count.toNat (fillWith 0 s.grp)
      s.member s.choice (i + 1)
    let kept := mergeInto (· &&& ·) s.acc group
    if kept.2 = 0 then .ok (true, ⟨kept.1, group, member, choice⟩, i)
    else groupsWords n ⟨kept.1, group, member, choice⟩ i

/-- Read `n` forbidden conjunctions, stopping when no title is left. -/
def conjunctionsWords : Nat → Buffers → Nat → Checked Buffers
  | 0, s, _ => .ok s
  | n + 1, s, i => do
    let count ← wordAt words i
    let features ← checkedSlice words (i + 1) count.toNat
    let member := allInto lookup features (fillWith (BitVec.allOnes 64) s.member)
    let kept := mergeInto andNot s.acc member
    if kept.2 = 0 then .ok { s with acc := kept.1, member := member }
    else conjunctionsWords n { s with acc := kept.1, member := member } (i + 1 + count.toNat)

/-- **Evaluate** the feature clauses of a program on a batch. -/
def evalPredicateBatchAt (s : Buffers) : Checked Buffers :=
  if words.isEmpty then .ok s
  else do
    let version ← wordAt words 0
    let positive ← wordAt words (bodyStart version)
    let (stop, s, i) ← groupsWords lookup words positive.toNat s (bodyStart version + 1)
    if stop then .ok s
    else do
      let negative ← wordAt words i
      conjunctionsWords lookup words negative.toNat s (i + 1)

/-! ## the row -/

def gateWords (reqMask forbMask : MaskWord) (masks : List MaskWord) (acc : List BitmapWord) :
    Checked (List BitmapWord) :=
  masks.zipIdx.foldlM (fun acc m =>
    if reqMask &&& m.1 = reqMask ∧ forbMask &&& m.1 = 0 then Checked.ofOption (setBit acc m.2)
    else .ok acc) (fillWith 0 acc)

def requiredWords : List FeatureId → List BitmapWord → Bool × List BitmapWord
  | [], acc => (false, acc)
  | f :: fs, acc =>
    match lookup f with
    | some titles =>
      let kept := mergeInto (· &&& ·) acc titles
      if kept.2 = 0 then (true, kept.1) else requiredWords fs kept.1
    | none => (true, fillWith 0 acc)

def forbiddenWords : List FeatureId → List BitmapWord → Bool × List BitmapWord
  | [], acc => (false, acc)
  | f :: fs, acc =>
    match lookup f with
    | some titles =>
      let kept := mergeInto andNot acc titles
      if kept.2 = 0 then (true, kept.1) else forbiddenWords fs kept.1
    | none => forbiddenWords fs acc

/-- Keep the titles with a feature of every group, stopping when none is
left. -/
def anyofWords : List (List FeatureId) → List BitmapWord → List BitmapWord →
    Bool × List BitmapWord × List BitmapWord
  | [], acc, grp => (false, acc, grp)
  | g :: gs, acc, grp =>
    let group := unionInto lookup g (fillWith 0 grp)
    let kept := mergeInto (· &&& ·) acc group
    if kept.2 = 0 then (true, kept.1, group) else anyofWords gs kept.1 group

end Loops

/-- The clauses beside the program, and whether they leave no title. -/
def Body.flatWords (r : Body) (masks : List MaskWord)
    (lookup : FeatureId → Option (List BitmapWord)) (s : Buffers) : Checked (Bool × Buffers) := do
  let acc ← gateWords r.reqMask r.forbMask masks s.acc
  match requiredWords lookup r.reqTail acc with
  | (true, acc) => .ok (true, { s with acc := acc })
  | (false, acc) =>
    match forbiddenWords lookup r.forbTail acc with
    | (true, acc) => .ok (true, { s with acc := acc })
    | (false, acc) =>
      let (stop, acc, grp) := anyofWords lookup r.groups acc s.grp
      .ok (stop, { s with acc := acc, grp := grp })

/-- How an evaluation ends: with its bitmap, or cleared because presence
bitmaps know no token order. -/
inductive BatchOutcome where
  | done (s : Buffers)
  | positionedPredicate (s : Buffers)
deriving DecidableEq, Repr

/-- **Verify one stored query against a batch.** -/
def Body.evalBatchWords (r : Body) (tags : List TagId) (masks : List MaskWord)
    (lookup : FeatureId → Option (List BitmapWord)) (pred : TagPredicate) (s : Buffers) :
    Checked BatchOutcome :=
  if predicateHasPhrases r.predicate then
    .ok (.positionedPredicate { s with acc := fillWith 0 s.acc })
  else if !pred.isEmpty && !pred.matches tags then .ok (.done { s with acc := fillWith 0 s.acc })
  else do
    let (stop, s) ← r.flatWords masks lookup s
    if stop || r.predicate.isEmpty then .ok (.done s)
    else do
      let s ← evalPredicateBatchAt lookup r.predicate s
      return .done s

/-- `eval_batch_slices`: row `i` of raw columns. -/
def ExactColumns.evalBatchSlices (c : ExactColumns) (tags : Spans UInt16) (i : Nat)
    (masks : List MaskWord) (lookup : FeatureId → Option (List BitmapWord)) (pred : TagPredicate)
    (s : Buffers) : Checked BatchOutcome :=
  (c.bodyAt i).evalBatchWords (Count.u16.rowAt tags i) masks lookup pred s

/-- `prefilter_slices`: whether some title of a batch can satisfy row `i`, from
the union of the mask words and the features that occur. -/
def ExactColumns.prefilterSlices (c : ExactColumns) (i : Nat) (maskUnion : MaskWord)
    (present : FeatureId → Bool) : Bool :=
  ((c.bodyAt i).reqMask &&& maskUnion == (c.bodyAt i).reqMask)
    && (c.bodyAt i).reqTail.all present
    && (c.bodyAt i).groups.all fun g => g.any present

/-! ## narrowing -/

/-- Of the titles of `acc`, those of `p` are left. -/
structure Keeps (w : Nat) (acc acc' : List BitmapWord) (p : Nat → Bool) : Prop where
  length : acc'.length = w
  bits : ∀ t < 64 * w, bitAt acc' t = (bitAt acc t && p t)

def NoneLeft (acc : List BitmapWord) : Prop := ∀ t, bitAt acc t = false

section Keeps

variable {w : Nat} {acc acc' acc'' : List BitmapWord} {p q : Nat → Bool}

theorem Keeps.refl (h : acc.length = w) : Keeps w acc acc fun _ => true :=
  ⟨h, fun t _ => by rw [Bool.and_true]⟩

theorem Keeps.trans (h : Keeps w acc acc' p) (h' : Keeps w acc' acc'' q) :
    Keeps w acc acc'' fun t => p t && q t :=
  ⟨h'.length, fun t ht => by rw [h'.bits t ht, h.bits t ht, Bool.and_assoc]⟩

theorem Keeps.stopped (h : Keeps w acc acc' p) (hnone : NoneLeft acc') (q : Nat → Bool) :
    Keeps w acc acc' fun t => p t && q t := by
  refine ⟨h.length, fun t ht => ?_⟩
  have hzero := h.bits t ht
  rw [hnone t] at hzero ⊢
  rw [← Bool.and_assoc, ← hzero, Bool.false_and]

theorem Keeps.congr (h : Keeps w acc acc' p) (hpq : ∀ t, p t = q t) : Keeps w acc acc' q :=
  ⟨h.length, fun t ht => by rw [h.bits t ht, hpq]⟩

variable {bm : List BitmapWord}

theorem Keeps.andInto (h : acc.length = w) (hbm : bm.length = w)
    (hp : ∀ t < 64 * w, bitAt bm t = p t) : Keeps w acc (mergeInto (· &&& ·) acc bm).1 p :=
  ⟨by simpa using h, fun t ht => by rw [bitAt_andInto (h.trans hbm.symm) (h ▸ ht), hp t ht]⟩

theorem Keeps.andNotInto (h : acc.length = w) (hbm : bm.length = w)
    (hp : ∀ t < 64 * w, bitAt bm t = p t) : Keeps w acc (mergeInto andNot acc bm).1 fun t => !p t :=
  ⟨by simpa using h, fun t ht => by rw [bitAt_andNotInto (h.trans hbm.symm) (h ▸ ht), hp t ht]⟩

theorem mergeInto_noneLeft (f : BitmapWord → BitmapWord → BitmapWord) (h : acc.length = w)
    (hbm : bm.length = w) : (mergeInto f acc bm).2 = 0 ↔ NoneLeft (mergeInto f acc bm).1 :=
  mergeInto_eq_zero_iff (h.trans hbm.symm)

/-- A loop over clauses: what it keeps, and that it stops exactly when no title
is left behind a clause it `looked` up. -/
structure Leaves (w : Nat) (acc : List BitmapWord) (r : Bool × List BitmapWord)
    (p : Nat → Bool) (looked : Prop) : Prop where
  keeps : Keeps w acc r.2 p
  stop : r.1 = true → NoneLeft r.2 ∧ looked
  go : r.1 = false → NoneLeft r.2 → NoneLeft acc ∧ ¬ looked

theorem Leaves.done (h : acc.length = w) : Leaves w acc (false, acc) (fun _ => true) False :=
  ⟨.refl h, by simp, fun _ hnone => ⟨hnone, id⟩⟩

theorem Leaves.step {none : BitmapWord} {r : Bool × List BitmapWord} {q' : Nat → Bool}
    {looked looked' : Prop} (h : Keeps w acc acc' p) (hnone : none = 0 ↔ NoneLeft acc')
    (hrest : Leaves w acc' r q looked) (hpq : ∀ t, (p t && q t) = q' t) (hlooked : looked') :
    Leaves w acc (if none = 0 then (true, acc') else r) q' looked' := by
  by_cases hleft : none = 0
  · rw [if_pos hleft]
    exact ⟨(h.stopped (hnone.mp hleft) q).congr hpq, fun _ => ⟨hnone.mp hleft, hlooked⟩, by simp⟩
  · rw [if_neg hleft]
    exact ⟨(h.trans hrest.keeps).congr hpq, fun hstop => ⟨(hrest.stop hstop).1, hlooked⟩,
      fun hgo hleft' => absurd (hnone.mpr (hrest.go hgo hleft').1) hleft⟩

theorem Leaves.congr {r : Bool × List BitmapWord} {looked looked' : Prop}
    (h : Leaves w acc r p looked) (hpq : ∀ t, p t = q t) (hlooked : looked ↔ looked') :
    Leaves w acc r q looked' :=
  ⟨h.keeps.congr hpq, fun hstop => (h.stop hstop).imp_right hlooked.mp,
    fun hgo hnone => (h.go hgo hnone).imp_right fun hnot => hnot ∘ hlooked.mpr⟩

end Keeps

/-- Whether title `t` of a batch has a feature. -/
def hasTitle (lookup : FeatureId → Option (List BitmapWord)) (t : Nat) (f : FeatureId) : Bool :=
  (lookup f).any (bitAt · t)

/-- A compound any-of group, from the features at hand. -/
def AnyOfPredicate.holdsBy (has : FeatureId → Bool) (p : AnyOfPredicate) : Bool :=
  p.members.any fun m => m.requirements.all fun r => r.any has

/-- A clause beside the masks and the program is looked up: a required feature,
a group, or a forbidden feature that occurs in the batch. -/
def Body.Looks (r : Body) (lookup : FeatureId → Option (List BitmapWord)) : Prop :=
  r.reqTail ≠ [] ∨ (∃ f ∈ r.forbTail, (lookup f).isSome = true) ∨ r.groups ≠ []

/-- The clauses of a row beside its program, of a title. -/
def Body.flatHolds (r : Body) (masks : List MaskWord)
    (lookup : FeatureId → Option (List BitmapWord)) (t : Nat) : Bool :=
  (masks[t]?.any fun m => decide (r.reqMask &&& m = r.reqMask ∧ r.forbMask &&& m = 0)) &&
    (r.reqTail.all (hasTitle lookup t) && (!r.forbTail.any (hasTitle lookup t) &&
      r.groups.all fun g => g.any (hasTitle lookup t)))

section Specs

variable {lookup : FeatureId → Option (List BitmapWord)} {w : Nat}
  (hl : ∀ f titles, lookup f = some titles → titles.length = w)

include hl

theorem unionInto_spec (fs : List FeatureId) {bm : List BitmapWord} (h : bm.length = w) :
    (unionInto lookup fs bm).length = w ∧ ∀ t < 64 * w,
      bitAt (unionInto lookup fs bm) t = (bitAt bm t || fs.any (hasTitle lookup t)) := by
  induction fs generalizing bm with
  | nil => exact ⟨h, fun t _ => by simp [unionInto]⟩
  | cons f fs ih =>
    rw [unionInto, foldl_cons]
    cases hf : lookup f with
    | none =>
      obtain ⟨hlen, hbits⟩ := ih h
      exact ⟨hlen, fun t ht => by rw [← unionInto, hbits t ht]; simp [hasTitle, hf]⟩
    | some titles =>
      have htitles := hl f titles hf
      obtain ⟨hlen, hbits⟩ := @ih (mergeInto (· ||| ·) bm titles).1 (by simpa using h)
      refine ⟨hlen, fun t ht => ?_⟩
      rw [← unionInto, hbits t ht, bitAt_orInto (h.trans htitles.symm) (h ▸ ht),
        any_cons, hasTitle, hf, Option.any_some, Bool.or_assoc]

theorem allInto_keeps (fs : List FeatureId) {bm : List BitmapWord} (h : bm.length = w) :
    Keeps w bm (allInto lookup fs bm) fun t => fs.all (hasTitle lookup t) := by
  induction fs generalizing bm with
  | nil => simpa [allInto] using Keeps.refl h
  | cons f fs ih =>
    rw [allInto]
    cases hf : lookup f with
    | none =>
      refine ⟨by simpa using h, fun t _ => ?_⟩
      rw [bitAt_fillWith_zero, all_cons, hasTitle, hf]
      simp
    | some titles =>
      have htitles := hl f titles hf
      have hstep := Keeps.andInto h htitles fun t _ => rfl
      exact (hstep.trans (ih hstep.length)).congr fun t => by simp [hasTitle, hf]

/-! ## the program over the bitmaps -/

variable {words : List UInt32} {i : Nat}

variable {member choice : List BitmapWord}

theorem requirementsWords_encode {rs : List (List FeatureId)}
    (h : LiesAt words i (rs.flatMap encodeRun)) (hrs : ∀ r ∈ rs, r.length < 2 ^ 32)
    (hmember : member.length = w) (hchoice : choice.length = w) :
    ∃ member' choice', requirementsWords lookup words rs.length member choice i =
        .ok (member', choice', i + (rs.flatMap encodeRun).length) ∧
      Keeps w member member' (fun t => rs.all fun r => r.any (hasTitle lookup t)) ∧
      choice'.length = w := by
  induction rs generalizing i member choice with
  | nil => exact ⟨member, choice, by simp [requirementsWords], by simpa using Keeps.refl hmember,
      hchoice⟩
  | cons r rs ih =>
    rw [flatMap_cons] at h
    obtain ⟨hword, hcount, hslice, hrest⟩ := h.run (hrs r mem_cons_self)
    have hzero : (fillWith 0 choice).length = w := by simpa using hchoice
    obtain ⟨hlen, hbits⟩ := unionInto_spec hl r hzero
    have hstep := Keeps.andInto hmember hlen fun t ht => by
      rw [hbits t ht, bitAt_fillWith_zero, Bool.false_or]
    obtain ⟨member', choice', hrun, hkeeps, hchoice'⟩ := ih hrest
      (fun r' hr' => hrs r' (mem_cons_of_mem r hr')) hstep.length hlen
    refine ⟨member', choice', ?_, (hstep.trans hkeeps).congr fun t => by simp, hchoice'⟩
    simp only [length_cons, requirementsWords, hword, ok_bind, hcount, hslice, hrun,
      flatMap_cons, length_append, encodeRun, Except.ok.injEq, Prod.mk.injEq, true_and]
    omega

theorem membersWords_encode {ms : List AnyOfMember} {group : List BitmapWord}
    (h : LiesAt words i (ms.flatMap encodeMember)) (hms : ∀ m ∈ ms, m.Counted)
    (hgroup : group.length = w) (hmember : member.length = w) (hchoice : choice.length = w) :
    ∃ group' member' choice', membersWords lookup words ms.length group member choice i =
        .ok (group', member', choice', i + (ms.flatMap encodeMember).length) ∧
      group'.length = w ∧ member'.length = w ∧ choice'.length = w ∧ ∀ t < 64 * w,
        bitAt group' t = (bitAt group t ||
          ms.any fun m => m.requirements.all fun r => r.any (hasTitle lookup t)) := by
  induction ms generalizing i group member choice with
  | nil => exact ⟨group, member, choice, by simp [membersWords], hgroup, hmember, hchoice, by simp⟩
  | cons m ms ih =>
    rw [flatMap_cons, encodeMember, cons_append] at h
    have hm := hms m mem_cons_self
    have hones : (fillWith (BitVec.allOnes 64) member).length = w := by simpa using hmember
    obtain ⟨member₁, choice₁, hrun₁, hkeeps, hchoice₁⟩ :=
      requirementsWords_encode hl h.tail.left hm.alternatives hones hchoice
    have hbits : ∀ t < 64 * w, bitAt (mergeInto (· ||| ·) group member₁).1 t = (bitAt group t ||
        m.requirements.all fun r => r.any (hasTitle lookup t)) := by
      intro t ht
      rw [bitAt_orInto (hgroup.trans hkeeps.length.symm) (hgroup ▸ ht), hkeeps.bits t ht,
        bitAt_fillWith_ones (hmember ▸ ht), Bool.true_and]
    have hgroup₁ : (mergeInto (· ||| ·) group member₁).1.length = w := by simpa using hgroup
    obtain ⟨group', member', choice', hrun, hgroup', hmember', hchoice', hany⟩ :=
      ih h.tail.right (fun m' hm' => hms m' (mem_cons_of_mem m hm')) hgroup₁ hkeeps.length
        hchoice₁
    refine ⟨group', member', choice', ?_, hgroup', hmember', hchoice', fun t ht => ?_⟩
    · simp only [length_cons, membersWords, h.wordAt, ok_bind,
        toNat_wordCount hm.requirements, hrun₁, hrun, flatMap_cons, length_append,
        encodeMember, Except.ok.injEq, Prod.mk.injEq, true_and]
      omega
    · rw [hany t ht, hbits t ht, any_cons, Bool.or_assoc]

theorem groupsWords_encode {ps : List AnyOfPredicate} {s : Buffers}
    (h : LiesAt words i (ps.flatMap encodeGroup)) (hps : ∀ p ∈ ps, p.Counted) (hs : s.Sized w) :
    ∃ stop s' j, groupsWords lookup words ps.length s i = .ok (stop, s', j) ∧ s'.Sized w ∧
      Keeps w s.acc s'.acc (fun t => ps.all (AnyOfPredicate.holdsBy (hasTitle lookup t))) ∧
      (stop = true → NoneLeft s'.acc) ∧
      (stop = false → j = i + (ps.flatMap encodeGroup).length) := by
  induction ps generalizing i s with
  | nil => exact ⟨false, s, i, by simp [groupsWords], hs, by simpa using Keeps.refl hs.acc,
      by simp, by simp⟩
  | cons p ps ih =>
    rw [flatMap_cons, encodeGroup, cons_append] at h
    have hp := hps p mem_cons_self
    have hzero : (fillWith 0 s.grp).length = w := by simpa using hs.grp
    obtain ⟨group, member, choice, hrun, hgroup, hmember, hchoice, hany⟩ :=
      membersWords_encode hl h.tail.left hp.members hzero hs.member hs.choice
    have hstep : Keeps w s.acc (mergeInto (· &&& ·) s.acc group).1
        (fun t => p.holdsBy (hasTitle lookup t)) :=
      .andInto hs.acc hgroup fun t ht => by
        rw [hany t ht, bitAt_fillWith_zero, Bool.false_or]
        rfl
    have hnone := mergeInto_noneLeft (· &&& ·) hs.acc hgroup
    simp only [length_cons, groupsWords, h.wordAt, ok_bind, toNat_wordCount hp.count, hrun]
    by_cases hleft : (mergeInto (· &&& ·) s.acc group).2 = 0
    · rw [if_pos hleft]
      exact ⟨true, _, _, rfl, ⟨hstep.length, hgroup, hmember, hchoice⟩,
        (hstep.stopped (hnone.mp hleft) _).congr fun t => by rw [all_cons],
        fun _ => hnone.mp hleft, by simp⟩
    · rw [if_neg hleft]
      obtain ⟨stop, s', j, hrest, hs', hkeeps, hstop, hend⟩ := ih h.tail.right
        (fun p' hp' => hps p' (mem_cons_of_mem p hp'))
        (s := ⟨_, group, member, choice⟩) ⟨hstep.length, hgroup, hmember, hchoice⟩
      refine ⟨stop, s', j, hrest, hs', (hstep.trans hkeeps).congr fun t => by rw [all_cons],
        hstop, fun hgo => ?_⟩
      rw [hend hgo]
      simp only [flatMap_cons, length_append, encodeGroup, length_cons]
      omega

theorem conjunctionsWords_encode {cs : List (List FeatureId)} {s : Buffers}
    (h : LiesAt words i (cs.flatMap encodeRun)) (hcs : ∀ c ∈ cs, c.length < 2 ^ 32)
    (hs : s.Sized w) :
    ∃ s', conjunctionsWords lookup words cs.length s i = .ok s' ∧ s'.Sized w ∧
      Keeps w s.acc s'.acc (fun t => !cs.any fun c => c.all (hasTitle lookup t)) := by
  induction cs generalizing i s with
  | nil => exact ⟨s, by simp [conjunctionsWords], hs, by simpa using Keeps.refl hs.acc⟩
  | cons c cs ih =>
    rw [flatMap_cons] at h
    obtain ⟨hword, hcount, hslice, hrest⟩ := h.run (hcs c mem_cons_self)
    have hones : (fillWith (BitVec.allOnes 64) s.member).length = w := by simpa using hs.member
    have hall := allInto_keeps hl c hones
    have hstep := Keeps.andNotInto hs.acc hall.length fun t ht => by
      rw [hall.bits t ht, bitAt_fillWith_ones (hs.member ▸ ht), Bool.true_and]
    have hnone := mergeInto_noneLeft andNot hs.acc hall.length
    simp only [length_cons, conjunctionsWords, hword, ok_bind, hcount, hslice]
    by_cases hleft : (mergeInto andNot s.acc
        (allInto lookup c (fillWith (BitVec.allOnes 64) s.member))).2 = 0
    · rw [if_pos hleft]
      exact ⟨_, rfl, ⟨hstep.length, hs.grp, hall.length, hs.choice⟩,
        (hstep.stopped (hnone.mp hleft) _).congr fun t => by rw [any_cons, Bool.not_or]⟩
    · rw [if_neg hleft]
      obtain ⟨s', hrun, hs', hkeeps⟩ := ih hrest
        (fun c' hc' => hcs c' (mem_cons_of_mem c hc'))
        (s := { s with acc := _, member := _ }) ⟨hstep.length, hs.grp, hall.length, hs.choice⟩
      exact ⟨s', hrun, hs',
        (hstep.trans hkeeps).congr fun t => by rw [any_cons, Bool.not_or]⟩

/-- **A program over the bitmaps**: it is read inside its words, the buffers
keep their length, and the titles left are those its feature clauses hold
of. -/
theorem evalPredicateBatchAt_encode {ex : Extracted} (h : Encodes words ex) {s : Buffers}
    (hs : s.Sized w) :
    ∃ s', evalPredicateBatchAt lookup words s = .ok s' ∧ s'.Sized w ∧
      Keeps w s.acc s'.acc (fun t =>
        ex.anyofPredicates.all (AnyOfPredicate.holdsBy (hasTitle lookup t)) &&
          !ex.forbiddenConjunctions.any fun c => c.all (hasTitle lookup t)) := by
  have hempty : words.isEmpty = false := by simpa using h.nonempty
  obtain ⟨j, k, hj, -, hpositive, hgroups, hnegative, hconj, -, -⟩ := h.body.body
  obtain ⟨stop, s₁, j', hrun, hs₁, hkeeps, hstop, hend⟩ :=
    groupsWords_encode hl hgroups h.counted.predicates hs
  simp only [evalPredicateBatchAt, hempty, Bool.false_eq_true, if_false, h.wordAt_zero, ok_bind,
    hpositive, toNat_wordCount h.counted.groups, hrun]
  cases stop with
  | true => exact ⟨s₁, rfl, hs₁, hkeeps.stopped (hstop rfl) _⟩
  | false =>
    obtain ⟨s', hrun', hs', hkeeps'⟩ := conjunctionsWords_encode hl hconj h.counted.runs hs₁
    refine ⟨s', ?_, hs', hkeeps.trans hkeeps'⟩
    rw [hend rfl, ← hj]
    simp [hnegative, toNat_wordCount h.counted.conjunctions, hrun']

/-! ## the row over the bitmaps -/

theorem requiredWords_leaves (fs : List FeatureId) {acc : List BitmapWord} (h : acc.length = w) :
    Leaves w acc (requiredWords lookup fs acc) (fun t => fs.all (hasTitle lookup t)) (fs ≠ []) := by
  induction fs generalizing acc with
  | nil => exact (Leaves.done h).congr (by simp) (by simp)
  | cons f fs ih =>
    rw [requiredWords]
    cases hf : lookup f with
    | none =>
      refine ⟨⟨by simpa using h, fun t _ => ?_⟩,
        fun _ => ⟨bitAt_fillWith_zero acc, cons_ne_nil f fs⟩, by simp⟩
      rw [bitAt_fillWith_zero, all_cons, hasTitle, hf]
      simp
    | some titles =>
      have htitles := hl f titles hf
      have hstep := Keeps.andInto h htitles fun t _ => rfl
      exact .step hstep (mergeInto_noneLeft _ h htitles) (ih hstep.length)
        (fun t => by simp [hasTitle, hf]) (cons_ne_nil f fs)

theorem forbiddenWords_leaves (fs : List FeatureId) {acc : List BitmapWord} (h : acc.length = w) :
    Leaves w acc (forbiddenWords lookup fs acc) (fun t => !fs.any (hasTitle lookup t))
      (∃ f ∈ fs, (lookup f).isSome = true) := by
  induction fs generalizing acc with
  | nil => exact (Leaves.done h).congr (by simp) (by simp)
  | cons f fs ih =>
    rw [forbiddenWords]
    cases hf : lookup f with
    | none => exact (ih h).congr (fun t => by simp [hasTitle, hf]) (by simp [hf])
    | some titles =>
      have htitles := hl f titles hf
      have hstep := Keeps.andNotInto h htitles fun t _ => rfl
      exact .step hstep (mergeInto_noneLeft _ h htitles) (ih hstep.length)
        (fun t => by simp [hasTitle, hf]) ⟨f, mem_cons_self, by rw [hf]; rfl⟩

theorem anyofWords_leaves (gs : List (List FeatureId)) {acc grp : List BitmapWord}
    (h : acc.length = w) (hgrp : grp.length = w) :
    Leaves w acc ((anyofWords lookup gs acc grp).1, (anyofWords lookup gs acc grp).2.1)
        (fun t => gs.all fun g => g.any (hasTitle lookup t)) (gs ≠ []) ∧
      (anyofWords lookup gs acc grp).2.2.length = w := by
  induction gs generalizing acc grp with
  | nil => exact ⟨(Leaves.done h).congr (by simp) (by simp), hgrp⟩
  | cons g gs ih =>
    have hzero : (fillWith 0 grp).length = w := by simpa using hgrp
    obtain ⟨hlen, hbits⟩ := unionInto_spec hl g hzero
    have hstep := Keeps.andInto h hlen fun t ht => by
      rw [hbits t ht, bitAt_fillWith_zero, Bool.false_or]
    have hnone := mergeInto_noneLeft (· &&& ·) h hlen
    obtain ⟨hrest, hgrp'⟩ := ih hstep.length hlen
    have hall (t : Nat) : (g.any (hasTitle lookup t) && gs.all fun g => g.any (hasTitle lookup t)) =
        (g :: gs).all fun g => g.any (hasTitle lookup t) := by rw [all_cons]
    have hleaves := Leaves.step hstep hnone hrest hall (cons_ne_nil g gs)
    rw [anyofWords]
    by_cases hleft : (mergeInto (· &&& ·) acc (unionInto lookup g (fillWith 0 grp))).2 = 0
    · rw [if_pos hleft] at hleaves ⊢
      exact ⟨hleaves, hlen⟩
    · rw [if_neg hleft] at hleaves ⊢
      exact ⟨hleaves, hgrp'⟩

omit hl in
/-- The gates over the mask words from title `k` on. -/
theorem gateWords_fold (reqMask forbMask : MaskWord) (masks : List MaskWord) (k : Nat)
    {acc : List BitmapWord} (h : k + masks.length ≤ 64 * acc.length) :
    ∃ acc', (masks.zipIdx k).foldlM (fun acc m =>
        if reqMask &&& m.1 = reqMask ∧ forbMask &&& m.1 = 0 then Checked.ofOption (setBit acc m.2)
        else .ok acc) acc = .ok acc' ∧ acc'.length = acc.length ∧
      ∀ t, bitAt acc' t = (bitAt acc t || (decide (k ≤ t) && masks[t - k]?.any fun m =>
        decide (reqMask &&& m = reqMask ∧ forbMask &&& m = 0))) := by
  induction masks generalizing k acc with
  | nil => exact ⟨acc, rfl, rfl, by simp⟩
  | cons m masks ih =>
    rw [length_cons] at h
    obtain ⟨acc₁, hset, hlen₁, hbits₁⟩ : ∃ acc₁,
        (if reqMask &&& m = reqMask ∧ forbMask &&& m = 0 then Checked.ofOption (setBit acc k)
          else .ok acc) = .ok acc₁ ∧ acc₁.length = acc.length ∧
        ∀ t, bitAt acc₁ t = (bitAt acc t ||
          (decide (t = k) && decide (reqMask &&& m = reqMask ∧ forbMask &&& m = 0))) := by
      by_cases hgate : reqMask &&& m = reqMask ∧ forbMask &&& m = 0
      · obtain ⟨acc₁, hset, hlen, hbits⟩ := @setBit_of_lt k acc (by omega)
        exact ⟨acc₁, by rw [if_pos hgate, hset]; rfl, hlen, fun t => by simp [hbits, hgate]⟩
      · exact ⟨acc, if_neg hgate, rfl, fun t => by
          rw [decide_eq_false hgate, Bool.and_false, Bool.or_false]⟩
    obtain ⟨acc', hrun, hlen, hbits⟩ := @ih (k + 1) acc₁ (by omega)
    refine ⟨acc', ?_, hlen.trans hlen₁, fun t => ?_⟩
    · rw [zipIdx_cons, foldlM_cons, hset]
      exact hrun
    · rw [hbits, hbits₁, Bool.or_assoc]
      congr 1
      rcases Nat.lt_trichotomy t k with hlt | rfl | hgt
      · simp [Nat.not_le.mpr hlt, Nat.ne_of_lt hlt, Nat.not_le.mpr (Nat.lt_succ_of_lt hlt)]
      · simp
      · have hsub : t - k = (t - (k + 1)) + 1 := by omega
        simp [hsub, Nat.ne_of_gt hgt, Nat.le_of_lt hgt, Nat.succ_le_of_lt hgt]

/-- The clauses beside the program, over the bitmaps. -/
theorem flatWords_spec (r : Body) {masks : List MaskWord} {s : Buffers} (hs : s.Sized w)
    (hmasks : masks.length ≤ 64 * w) :
    ∃ stop s', r.flatWords masks lookup s = .ok (stop, s') ∧ s'.Sized w ∧
      (∀ t < 64 * w, bitAt s'.acc t = r.flatHolds masks lookup t) ∧
      (stop = true ↔ NoneLeft s'.acc ∧ r.Looks lookup) := by
  have hzero : (fillWith 0 s.acc).length = w := by simpa using hs.acc
  have hfit : 0 + masks.length ≤ 64 * (fillWith 0 s.acc).length := by
    rw [hzero]
    omega
  obtain ⟨acc₁, hgate, hlen, hbits⟩ := gateWords_fold r.reqMask r.forbMask masks 0 hfit
  rw [hzero] at hlen
  have hacc : gateWords r.reqMask r.forbMask masks s.acc = .ok acc₁ := hgate
  obtain ⟨hreq, hreqStop, hreqGo⟩ := requiredWords_leaves hl r.reqTail hlen
  have hgated (t : Nat) : bitAt acc₁ t = masks[t]?.any fun m =>
      decide (r.reqMask &&& m = r.reqMask ∧ r.forbMask &&& m = 0) := by
    rw [hbits, bitAt_fillWith_zero]
    simp
  rw [Body.flatWords, hacc, ok_bind]
  generalize requiredWords lookup r.reqTail acc₁ = required at *
  obtain ⟨stop₁, acc₂⟩ := required
  cases stop₁ with
  | true =>
    have hkeeps := hreq.stopped (hreqStop rfl).1 fun t =>
      !r.forbTail.any (hasTitle lookup t) && r.groups.all fun g => g.any (hasTitle lookup t)
    exact ⟨true, _, rfl, ⟨hkeeps.length, hs.grp, hs.member, hs.choice⟩,
      fun t ht => by rw [hkeeps.bits t ht, hgated, Body.flatHolds],
      iff_of_true rfl ⟨(hreqStop rfl).1, .inl (hreqStop rfl).2⟩⟩
  | false =>
    obtain ⟨hforb, hforbStop, hforbGo⟩ := forbiddenWords_leaves hl r.forbTail hreq.length
    dsimp only at hforb hforbStop hforbGo hreqGo ⊢
    generalize forbiddenWords lookup r.forbTail acc₂ = forbidden at *
    obtain ⟨stop₂, acc₃⟩ := forbidden
    cases stop₂ with
    | true =>
      have hkeeps := hreq.trans (hforb.stopped (hforbStop rfl).1 fun t =>
        r.groups.all fun g => g.any (hasTitle lookup t))
      exact ⟨true, _, rfl, ⟨hkeeps.length, hs.grp, hs.member, hs.choice⟩,
        fun t ht => by rw [hkeeps.bits t ht, hgated, Body.flatHolds],
        iff_of_true rfl ⟨(hforbStop rfl).1, .inr (.inl (hforbStop rfl).2)⟩⟩
    | false =>
      obtain ⟨⟨hany, hanyStop, hanyGo⟩, hgrp⟩ := anyofWords_leaves hl r.groups hforb.length hs.grp
      have hkeeps := hreq.trans (hforb.trans hany)
      refine ⟨_, _, rfl, ⟨hkeeps.length, hgrp, hs.member, hs.choice⟩,
        fun t ht => by rw [hkeeps.bits t ht, hgated, Body.flatHolds],
        fun hstop => ⟨(hanyStop hstop).1, .inr (.inr (hanyStop hstop).2)⟩, ?_⟩
      -- had no loop stopped, the last one to look a clause up would have left a title
      rintro ⟨hnone, hlooks⟩
      by_contra hgo
      obtain ⟨hnone₃, hgroups⟩ := hanyGo (Bool.not_eq_true _ ▸ hgo) hnone
      obtain ⟨hnone₂, hforbidden⟩ := hforbGo rfl hnone₃
      obtain ⟨-, hrequired⟩ := hreqGo rfl hnone₂
      rcases hlooks with hlooks | hlooks | hlooks
      · exact hrequired hlooks
      · exact hforbidden hlooks
      · exact hgroups hlooks

end Specs

/-! ## batches of titles -/

structure Describes (views : List TitleView) (masks : List MaskWord)
    (lookup : FeatureId → Option (List BitmapWord)) : Prop where
  masks : masks = views.map TitleView.posMask
  single : ∀ v ∈ views, v.neg = v.pos ∧ v.negMask = v.posMask
  sorted : ∀ v ∈ views, v.pos.Pairwise (· < ·)
  width : ∀ f titles, lookup f = some titles → titles.length = (views.length + 63) / 64
  bits : ∀ f t v, views[t]? = some v → (hasTitle lookup t f = true ↔ f ∈ v.pos)

/-- Without quoted clauses a program of a query that passes the check is stored
as nothing, readable, or cut to its version. -/
theorem narrow_encodePredicate_cases {ex : Extracted} (ho : ex.columnOverflow = none)
    (hflat : predicateHasPhrases (narrow 32 (encodePredicate ex)) = false) :
    (ex.clauseWords + 5 ≠ 2 ^ 32 + 1 ∧ (narrow 32 (encodePredicate ex) = [] ∨
        ∃ ex', Encodes (narrow 32 (encodePredicate ex)) ex')) ∨
      (ex.clauseWords + 5 = 2 ^ 32 + 1 ∧
        narrow 32 (encodePredicate ex) = [rankFeatureProgramVersion]) := by
  obtain hwords | hwords | hwords := clauseWords_cases ho
  · have hlen := (length_program_lt_iff ex).mpr hwords
    refine .inl ⟨by omega, ?_⟩
    rw [narrow_eq_self hlen]
    cases hneeds : needsNoProgram ex with
    | true => exact .inl (by rw [encodePredicate, hneeds]; rfl)
    | false => exact .inr ⟨ex, encodes_encodePredicate hneeds (counted_of_program hlen)⟩
  · refine .inl ⟨by omega, .inl ?_⟩
    rw [narrow, length_program_of_le hwords.ge, hwords]
    rfl
  · refine .inr ⟨hwords, ?_⟩
    rw [narrow_encodePredicate_one hwords] at hflat ⊢
    rcases ex.programVersion_cases with hversion | hversion
    · rw [hversion]
    · rw [hversion] at hflat
      simp [predicateHasPhrases] at hflat

theorem length_predicate_lt (c : ExactColumns) (i : Nat) :
    (c.bodyAt i).predicate.length < 2 ^ 32 := by
  have hle : (c.bodyAt i).predicate.length ≤ (c.predicate.len[i]?.map UInt32.toNat).getD 0 := by
    simp only [ExactColumns.bodyAt, Count.rowAt, sliceAt]
    exact length_take_le _ _
  refine Nat.lt_of_le_of_lt hle ?_
  cases c.predicate.len[i]? with
  | none => decide
  | some count => exact count.toNat_lt

section Batches

variable {views : List TitleView} {masks : List MaskWord}
  {lookup : FeatureId → Option (List BitmapWord)} (hd : Describes views masks lookup)

include hd

variable {t : Nat} {v : TitleView}

theorem Describes.hasTitle_eq (hv : views[t]? = some v) :
    hasTitle lookup t = binarySearch v.pos := by
  funext f
  rw [Bool.eq_iff_iff, hd.bits f t v hv,
    binarySearch_title (hd.sorted v (mem_of_getElem? hv))]

theorem Describes.flat_eq (r : Body) (hv : views[t]? = some v) :
    r.flatHolds masks lookup t = ({ r with predicate := [] } : Body).verify v := by
  obtain ⟨hneg, hmask⟩ := hd.single v (mem_of_getElem? hv)
  rw [Body.flatHolds, hd.hasTitle_eq hv, hd.masks, getElem?_map, hv]
  simp only [Option.map_some, Option.any_some, Body.verify, hneg, hmask, isEmpty_nil,
    Bool.true_or, Bool.and_true, Bool.decide_and]
  simp only [Bool.and_assoc]
  rfl

theorem Describes.compound_eq {ex : Extracted} (hflat : ex.hasPhrases = false)
    (hv : views[t]? = some v) :
    (ex.anyofPredicates.all (AnyOfPredicate.holdsBy (hasTitle lookup t)) &&
      !ex.forbiddenConjunctions.any fun c => c.all (hasTitle lookup t)) = ex.compoundHolds v := by
  obtain ⟨hneg, -⟩ := hd.single v (mem_of_getElem? hv)
  rw [hd.hasTitle_eq hv, Extracted.compoundHolds, phrasesHold_of_flat hflat, hneg, Bool.and_true]
  rfl

omit hd in
theorem checkedVerify_eq_true_iff {r : Body} : r.checkedVerify v = .ok true ↔
    ({ r with predicate := [] } : Body).verify v = true ∧
      verifyPredicate? r.predicate v = some true := by
  unfold Body.checkedVerify
  cases ({ r with predicate := [] } : Body).verify v with
  | false => simp
  | true =>
    cases verifyPredicate? r.predicate v with
    | none => simp [Checked.ofOption]
    | some answer => simp [Checked.ofOption]

omit hd in
theorem verifySlices_eq_true_iff {c : ExactColumns} {tags : Spans UInt16} {i : Nat}
    {pred : TagPredicate} : c.verifySlices tags i v pred = .ok true ↔
      (c.bodyAt i).checkedVerify v = .ok true ∧
        (!pred.isEmpty && !pred.matches (Count.u16.rowAt tags i)) = false := by
  unfold ExactColumns.verifySlices
  cases (c.bodyAt i).checkedVerify v with
  | error e => exact ⟨nofun, fun h => nomatch h.1⟩
  | ok answer =>
    cases answer with
    | false => exact ⟨nofun, fun h => nomatch h.1⟩
    | true =>
      cases hempty : pred.isEmpty with
      | true => simp [pure, Except.pure]
      | false => simp [pure, Except.pure]

theorem Describes.prefilter {c : ExactColumns} {i : Nat} {maskUnion : MaskWord}
    {present : FeatureId → Bool} (hmask : ∀ v ∈ views, v.posMask &&& maskUnion = v.posMask)
    (hpresent : ∀ v ∈ views, ∀ f ∈ v.pos, present f = true) (hv : v ∈ views)
    (h : ({ c.bodyAt i with predicate := [] } : Body).verify v = true) :
    c.prefilterSlices i maskUnion present = true := by
  have hpos : ∀ f, binarySearch v.pos f = true → present f = true := fun f hf =>
    hpresent v hv f ((binarySearch_title (hd.sorted v hv)).mp hf)
  simp only [Body.verify, Bool.and_eq_true, beq_iff_eq, all_eq_true, any_eq_true] at h
  obtain ⟨⟨⟨⟨⟨hreq, -⟩, htail⟩, -⟩, hgroups⟩, -⟩ := h
  simp only [ExactColumns.prefilterSlices, Bool.and_eq_true, beq_iff_eq, all_eq_true,
    any_eq_true]
  refine ⟨⟨?_, fun f hf => hpos f (htail f hf)⟩, fun g hg => ?_⟩
  · rw [← hreq, BitVec.and_assoc, hmask v hv]
  · obtain ⟨f, hf, hhit⟩ := hgroups g hg
    exact ⟨f, hf, hpos f hhit⟩

end Batches

/-- The evaluation of row `i` returned the right bitmap: bit `t` says whether
the row accepts title `t`, no bit is set beyond the batch, and none at all when
the prefilter rejects the row. -/
structure BatchRight (c : ExactColumns) (tags : Spans UInt16) (i : Nat) (views : List TitleView)
    (masks : List MaskWord) (lookup : FeatureId → Option (List BitmapWord)) (pred : TagPredicate)
    (s s' : Buffers) : Prop where
  returns : c.evalBatchSlices tags i masks lookup pred s = .ok (.done s')
  titles : ∀ t v, views[t]? = some v →
    (bitAt s'.acc t = true ↔ c.verifySlices tags i v pred = .ok true)
  beyond : ∀ t, views.length ≤ t → bitAt s'.acc t = false
  rejected : ∀ maskUnion present, (∀ v ∈ views, v.posMask &&& maskUnion = v.posMask) →
    (∀ v ∈ views, ∀ f ∈ v.pos, present f = true) →
    c.prefilterSlices i maskUnion present = false → NoneLeft s'.acc

/-- The row needs no program for a batch: its tags fail the filter, or every
title fails the clauses beside the program, one of which is looked up. -/
def Settled (r : Body) (tags : List TagId) (views : List TitleView)
    (lookup : FeatureId → Option (List BitmapWord)) (pred : TagPredicate) : Prop :=
  (!pred.isEmpty && !pred.matches tags) = true ∨
    (r.Looks lookup ∧ ∀ v ∈ views, ({ r with predicate := [] } : Body).verify v = false)

theorem verify_eq_true_iff {r : Body} {v : TitleView} : r.verify v = true ↔
    ({ r with predicate := [] } : Body).verify v = true ∧
      verifyPredicate? r.predicate v = some true := by
  have hprogram : (r.predicate.isEmpty || verifyPredicate r.predicate v) = true ↔
      verifyPredicate? r.predicate v = some true := by
    rw [verifyPredicate_nil_or, verifyPredicate]
    cases verifyPredicate? r.predicate v <;> simp
  simp only [Body.verify, Bool.and_eq_true, hprogram]
  simp

/-- **The word-by-word evaluation and the transposed one agree** on a row whose
program passes the check and has no quoted clause. -/
theorem BatchRight.getLsbD_evalBatch {c : ExactColumns} {tags : Spans UInt16} {i : Nat}
    {views : List TitleView} {masks : List MaskWord} {lookup : FeatureId → Option (List BitmapWord)}
    {pred : TagPredicate} {s s' : Buffers} (h : BatchRight c tags i views masks lookup pred s s')
    (hcheck : validatePredicate (c.bodyAt i).predicate = .ok ())
    (hquoted : predicateHasPhrases (c.bodyAt i).predicate = false) {w : Nat} (b : TitleBatch w) :
    ∃ bits, evalBatch b (c.bodyAt i) (Count.u16.rowAt tags i) pred = .ok bits ∧
      ∀ t < w, ∀ m feats, views[t]? = some (.single m feats) → b.masks[t]? = some m →
        (∀ f, b.has t f = binarySearch feats f) → bits.getLsbD t = bitAt s'.acc t := by
  obtain ⟨bits, hbits, hget⟩ := @exists_evalBatch w b (c.bodyAt i) () hcheck
    (length_predicate_lt c i) hquoted (Count.u16.rowAt tags i) pred
  refine ⟨bits, hbits, fun t ht m feats hview hm hhas => ?_⟩
  have hfilter : pred.matches (Count.u16.rowAt tags i) = true ↔
      (!pred.isEmpty && !pred.matches (Count.u16.rowAt tags i)) = false := by
    cases hempty : pred.isEmpty with
    | true => simp [TagPredicate.matches_of_isEmpty hempty]
    | false => simp
  rw [Bool.eq_iff_iff, hget t ht m feats hm hhas, h.titles t _ hview, verifySlices_eq_true_iff,
    checkedVerify_eq_true_iff, Bool.and_eq_true, verify_eq_true_iff, hfilter]

section Right

variable {c : ExactColumns} {tags : Spans UInt16} {i : Nat} {views : List TitleView}
  {masks : List MaskWord} {lookup : FeatureId → Option (List BitmapWord)} {pred : TagPredicate}
  {s s' : Buffers} (hd : Describes views masks lookup)

include hd

/-- A bitmap whose bits are the flat clauses and `q` is right when `q` and the
flat clauses are what verification asks. -/
theorem Describes.right (q : Nat → Bool)
    (hreturns : c.evalBatchSlices tags i masks lookup pred s = .ok (.done s'))
    (hlen : s'.acc.length = (views.length + 63) / 64)
    (hbits : ∀ t < 64 * ((views.length + 63) / 64),
      bitAt s'.acc t = ((c.bodyAt i).flatHolds masks lookup t && q t))
    (hverify : ∀ t v, views[t]? = some v →
      (({ c.bodyAt i with predicate := [] } : Body).verify v = true ∧ q t = true ↔
        c.verifySlices tags i v pred = .ok true)) :
    BatchRight c tags i views masks lookup pred s s' := by
  have hview : ∀ t v, views[t]? = some v → (bitAt s'.acc t = true ↔
      ({ c.bodyAt i with predicate := [] } : Body).verify v = true ∧ q t = true) := by
    intro t v hv
    obtain ⟨ht, -⟩ := List.getElem?_eq_some_iff.mp hv
    rw [hbits t (by omega), hd.flat_eq _ hv, Bool.and_eq_true]
  have hbeyond : ∀ t, views.length ≤ t → bitAt s'.acc t = false := by
    intro t ht
    by_cases hin : t < 64 * ((views.length + 63) / 64)
    · rw [hbits t hin, Body.flatHolds, hd.masks, getElem?_eq_none (by simpa using ht)]
      rfl
    · exact bitAt_of_le (by omega)
  refine ⟨hreturns, fun t v hv => (hview t v hv).trans (hverify t v hv), hbeyond,
    fun maskUnion present hmask hpresent hreject t => ?_⟩
  by_cases ht : t < views.length
  · have hv := getElem?_eq_getElem ht
    rw [← Bool.not_eq_true, hview t _ hv]
    rintro ⟨hflat, -⟩
    rw [hd.prefilter hmask hpresent (mem_of_getElem? hv) hflat] at hreject
    contradiction
  · exact hbeyond t (by omega)

theorem Describes.right_of_tags (hflat : predicateHasPhrases (c.bodyAt i).predicate = false)
    (hs : s.Sized ((views.length + 63) / 64))
    (htags : (!pred.isEmpty && !pred.matches (Count.u16.rowAt tags i)) = true) :
    BatchRight c tags i views masks lookup pred s { s with acc := fillWith 0 s.acc } := by
  refine hd.right (fun _ => false) ?_ (by simpa using hs.acc) (fun t _ => ?_) fun t v _ => ?_
  · rw [ExactColumns.evalBatchSlices, Body.evalBatchWords, hflat, htags]
    rfl
  · rw [Bool.and_false]
    exact bitAt_fillWith_zero _ t
  · rw [verifySlices_eq_true_iff, htags]
    simp

section Pass

variable (htags : (!pred.isEmpty && !pred.matches (Count.u16.rowAt tags i)) = false)

include htags

omit hd in
theorem verifySlices_of_tags (v : TitleView) :
    c.verifySlices tags i v pred = .ok true ↔
      ({ c.bodyAt i with predicate := [] } : Body).verify v = true ∧
        verifyPredicate? (c.bodyAt i).predicate v = some true := by
  rw [verifySlices_eq_true_iff, checkedVerify_eq_true_iff, htags]
  simp

omit hd in
/-- Behind the flat clauses the program is evaluated, if there is one and a
title is left. -/
theorem evalBatchSlices_eq {stop : Bool} {s₁ : Buffers}
    (hflat : predicateHasPhrases (c.bodyAt i).predicate = false)
    (hrun : (c.bodyAt i).flatWords masks lookup s = .ok (stop, s₁)) :
    c.evalBatchSlices tags i masks lookup pred s =
      if stop || (c.bodyAt i).predicate.isEmpty then .ok (.done s₁)
      else (evalPredicateBatchAt lookup (c.bodyAt i).predicate s₁ >>= fun s => .ok (.done s)) := by
  rw [ExactColumns.evalBatchSlices, Body.evalBatchWords, hflat, htags]
  simp only [Bool.false_eq_true, if_false, hrun, ok_bind]
  rfl

variable (hs : s.Sized ((views.length + 63) / 64))

include hs

omit htags in
theorem Describes.flatWords (r : Body) :
    ∃ stop s₁, r.flatWords masks lookup s = .ok (stop, s₁) ∧
      s₁.Sized ((views.length + 63) / 64) ∧
      (∀ t < 64 * ((views.length + 63) / 64), bitAt s₁.acc t = r.flatHolds masks lookup t) ∧
      (stop = true ↔ NoneLeft s₁.acc ∧ r.Looks lookup) := by
  refine flatWords_spec hd.width r hs ?_
  rw [hd.masks, length_map]
  omega

omit htags hs in
/-- No title is left when all fail the clauses beside the program. -/
theorem Describes.noneLeft_iff {r : Body} {acc : List BitmapWord}
    (hlen : acc.length = (views.length + 63) / 64)
    (hbits : ∀ t < 64 * ((views.length + 63) / 64), bitAt acc t = r.flatHolds masks lookup t) :
    NoneLeft acc ↔ ∀ v ∈ views, ({ r with predicate := [] } : Body).verify v = false := by
  constructor
  · intro hnone v hv
    obtain ⟨t, ht⟩ := getElem?_of_mem hv
    have hlt := (List.getElem?_eq_some_iff.mp ht).1
    rw [← hd.flat_eq r ht, ← hbits t (by omega), hnone t]
  · intro hfail t
    by_cases hin : t < 64 * ((views.length + 63) / 64)
    · rw [hbits t hin]
      by_cases ht : t < views.length
      · have hv := getElem?_eq_getElem ht
        rw [hd.flat_eq r hv, hfail _ (mem_of_getElem? hv)]
      · rw [Body.flatHolds, hd.masks, getElem?_eq_none (by simpa using ht)]
        rfl
    · exact bitAt_of_le (by omega)

theorem Describes.right_of_encodes {ex : Extracted} (hex : Encodes (c.bodyAt i).predicate ex)
    (hflat : predicateHasPhrases (c.bodyAt i).predicate = false) :
    ∃ s', BatchRight c tags i views masks lookup pred s s' := by
  have hquoted : ex.hasPhrases = false := hex.quoted ▸ hflat
  have hne : (c.bodyAt i).predicate.isEmpty = false := by simpa using hex.nonempty
  obtain ⟨stop, s₁, hrun, hs₁, hbits, hstop⟩ := hd.flatWords hs (c.bodyAt i)
  obtain ⟨s₂, hrun₂, hs₂, hkeeps⟩ := evalPredicateBatchAt_encode hd.width hex hs₁
  have heval := evalBatchSlices_eq htags hflat hrun
  rw [hne, Bool.or_false, hrun₂] at heval
  have hcompound : ∀ t v, views[t]? = some v →
      (({ c.bodyAt i with predicate := [] } : Body).verify v = true ∧
        (ex.anyofPredicates.all (AnyOfPredicate.holdsBy (hasTitle lookup t)) &&
          !ex.forbiddenConjunctions.any fun f => f.all (hasTitle lookup t)) = true ↔
        c.verifySlices tags i v pred = .ok true) := by
    intro t v hv
    rw [verifySlices_of_tags htags v, hex.verifyPredicate? (length_predicate_lt c i),
      hd.compound_eq hquoted hv, Option.some.injEq]
  cases stop with
  | true =>
    refine ⟨s₁, hd.right _ heval hs₁.acc (fun t ht => ?_) hcompound⟩
    rw [← hbits t ht, (hstop.mp rfl).1 t, Bool.false_and]
  | false =>
    refine ⟨s₂, hd.right _ heval hs₂.acc (fun t ht => ?_) hcompound⟩
    rw [hkeeps.bits t ht, hbits t ht]

theorem Describes.right_of_nil (hempty : (c.bodyAt i).predicate = []) :
    ∃ s', BatchRight c tags i views masks lookup pred s s' := by
  obtain ⟨stop, s₁, hrun, hs₁, hbits, -⟩ := hd.flatWords hs (c.bodyAt i)
  have heval := evalBatchSlices_eq htags (by rw [hempty]; rfl) hrun
  rw [hempty, isEmpty_nil, Bool.or_true] at heval
  refine ⟨s₁, hd.right (fun _ => true) heval hs₁.acc
    (fun t ht => by rw [hbits t ht, Bool.and_true]) fun t v _ => ?_⟩
  rw [verifySlices_of_tags htags v, hempty]
  simp [verifyPredicate?]

/-- A row whose program is cut to its version: the evaluation is right when it
does not get there, and aborts when it does. -/
theorem Describes.right_of_stump (hstump : (c.bodyAt i).predicate = [rankFeatureProgramVersion]) :
    (∃ s', BatchRight c tags i views masks lookup pred s s') ↔
      (c.bodyAt i).Looks lookup ∧
        ∀ v ∈ views, ({ c.bodyAt i with predicate := [] } : Body).verify v = false := by
  obtain ⟨stop, s₁, hrun, hs₁, hbits, hstop⟩ := hd.flatWords hs (c.bodyAt i)
  rw [hd.noneLeft_iff hs₁.acc hbits, and_comm] at hstop
  have heval := evalBatchSlices_eq htags (by rw [hstump]; rfl) hrun
  cases stop with
  | true =>
    obtain ⟨hlooks, hfail⟩ := hstop.mp rfl
    have hnone := (hd.noneLeft_iff hs₁.acc hbits).mpr hfail
    refine iff_of_true ⟨s₁, hd.right (fun _ => false) heval hs₁.acc (fun t ht => ?_)
      fun t v _ => ?_⟩ ⟨hlooks, hfail⟩
    · rw [← hbits t ht, hnone t, Bool.false_and]
    · have hread : verifyPredicate? (c.bodyAt i).predicate v = none := by rw [hstump]; rfl
      rw [verifySlices_of_tags htags v, hread]
      simp
  | false =>
    refine iff_of_false ?_ fun hsettled => Bool.false_ne_true (hstop.mpr hsettled)
    rintro ⟨s', hright⟩
    have hreturns := hright.returns
    rw [heval, hstump] at hreturns
    cases hreturns

/-- A row without a program, or with one that can be read. -/
theorem Describes.right_of_readable
    (hprogram : (c.bodyAt i).predicate = [] ∨ ∃ ex, Encodes (c.bodyAt i).predicate ex)
    (hflat : predicateHasPhrases (c.bodyAt i).predicate = false) :
    ∃ s', BatchRight c tags i views masks lookup pred s s' := by
  rcases hprogram with hempty | ⟨ex, hex⟩
  · exact hd.right_of_nil htags hs hempty
  · exact hd.right_of_encodes htags hs hex hflat

end Pass

end Right

attribute [local simp] TitleView.single

/-- The titles of a batch that have the first two features: the first one. -/
def pairLookup (f : FeatureId) : Option (List BitmapWord) :=
  if f = 0 ∨ f = 1 then some [1] else none

theorem describes_pair :
    Describes [.single 0 [0, 1], .single 0 []] [0, 0] pairLookup := by
  refine ⟨rfl, ?_, ?_, fun f titles hf => ?_, fun f t v hv => ?_⟩
  · simp
  · simp
  · unfold pairLookup at hf
    split at hf
    · rw [← Option.some.inj hf]
      rfl
    · cases hf
  · match t, hv with
    | 0, hv | 1, hv =>
      obtain rfl := Option.some.inj hv
      by_cases h : f = 0 ∨ f = 1
      · simp [hasTitle, pairLookup, h, bitAt]
      · simp [hasTitle, pairLookup, h]
    | _ + 2, hv => simp at hv

end ReverseRusty
