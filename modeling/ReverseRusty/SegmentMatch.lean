import ReverseRusty.Lib.Visit
import ReverseRusty.Segment

/-!
# ReverseRusty.SegmentMatch

Matching one title against an in-memory segment (`segment/seg/matching.rs`).
A posted id is the leader of a body group: the body is verified once and
each live member passing the tag filter and the emission policy is emitted.

`mem_matchCollect` says which rows a match emits on any well-grouped
segment; with the completeness invariant of built segments it becomes the
exactness of the segment (`matchCollect_exact`).
-/

namespace ReverseRusty

open List

/-- The lanes a read probes beside the main one. -/
structure ProbeLanes where
  includeBroad : Bool
  includeHot : Bool
deriving DecidableEq, Repr

def ProbeLanes.probes (lanes : ProbeLanes) : ProbeLane → Bool
  | .main => true
  | .broad => lanes.includeBroad
  | .hot => lanes.includeHot

namespace Segment

/-- The gates on a row's identity: live, tags, emission. -/
def passes (seg : Segment) (pred : TagPredicate) (emission : QueryPlacement → Bool)
    (i : Nat) : Bool :=
  seg.entries[i]?.any fun e => e.alive && pred.matches e.row.tags && emission e.row.placement

/-- What a posted id contributes: itself on a segment without groups, else
the passing rows of its group when the shared body verifies. -/
def emitGroup (seg : Segment) (v : TitleView) (pred : TagPredicate)
    (emission : QueryPlacement → Bool) (l : Nat) : List Nat :=
  match seg.entries[l]? with
  | none => []
  | some e =>
    if !seg.hasDupGroups then
      if e.alive && e.row.verify v pred && emission e.row.placement then [l] else []
    else if (seg.membersOf l).isEmpty && !e.alive then []
    else if e.row.verify v .empty then (l :: seg.membersOf l).filter (seg.passes pred emission)
    else []

section Match

variable (seg : Segment) (v : TitleView) (d : Dict) (epoch : UInt32) (lanes : ProbeLanes)
  (pred : TagPredicate) (emission : QueryPlacement → Bool)

def probe (lane : ProbeLane) (s : Visit UInt32 Nat) (key : UInt64) : Visit UInt32 Nat :=
  if seg.filter.any (fun f => !f.mayContain key) then s
  else
    match (seg.index lane).get key with
    | none => s
    | some p => visitAll epoch (seg.emitGroup v pred emission) s p.ids

def probeAll (lane : ProbeLane) (keys : List UInt64) (s : Visit UInt32 Nat) : Visit UInt32 Nat :=
  keys.foldl (seg.probe v epoch pred emission lane) s

def matchCollect (seen : List UInt32) : Visit UInt32 Nat :=
  let s : Visit UInt32 Nat := ⟨seen, []⟩
  let s := seg.probeAll v epoch pred emission .main (v.keys d .main) s
  let s :=
    if lanes.includeHot && seg.hasHotEntries then
      seg.probeAll v epoch pred emission .hot (v.keys d .hot) s
    else s
  if lanes.includeBroad then seg.probeAll v epoch pred emission .broad (v.keys d .broad) s else s

def matchInto (seen : List UInt32) : List UInt64 :=
  (seg.matchCollect v d epoch lanes pred emission seen).out.filterMap fun i =>
    seg.entries[i]?.map fun e => e.row.logical

/-- Some probed key of a probed lane has posting `l`. -/
def Reaches (l : Nat) : Prop :=
  ∃ lane, lanes.probes lane = true ∧ ∃ key ∈ v.keys d lane, l ∈ (seg.index lane).postings key

end Match

/-! ## what a posted id contributes -/

section EmitGroup

variable {seg : Segment} {v : TitleView} {pred : TagPredicate}
  {emission : QueryPlacement → Bool} {l i : Nat}

variable {e : Entry}

theorem Grouped.dupOf_eq (hg : seg.Grouped) (hdups : seg.hasDupGroups = false)
    (he : seg.entries[i]? = some e) : e.dupOf = i := by
  have hnil : seg.dupMembers.entries = [] := by
    rw [hasDupGroups, Bool.not_eq_false', List.isEmpty_iff] at hdups
    exact hdups
  by_contra hne
  have hmem := (hg.member e.dupOf i).mpr ⟨fun h => hne h.symm, e, he, rfl⟩
  rw [membersOf, Multimap.valuesOf_of_entries_eq_nil hnil] at hmem
  contradiction

theorem Grouped.mem_group (hg : seg.Grouped) (he : seg.entries[l]? = some e) (hlead : e.dupOf = l) :
    i ∈ l :: seg.membersOf l ↔ ∃ e, seg.entries[i]? = some e ∧ e.dupOf = l := by
  rw [mem_cons, hg.member]
  by_cases hil : i = l
  · subst hil
    simp only [ne_eq, not_true, false_and, or_false, true_iff]
    exact ⟨e, he, hlead⟩
  · simp [hil]

theorem Grouped.mem_emitGroup (hg : seg.Grouped) (he : seg.entries[l]? = some e)
    (hlead : e.dupOf = l) :
    i ∈ seg.emitGroup v pred emission l ↔ ∃ m, seg.entries[i]? = some m ∧ m.dupOf = l ∧
      m.alive = true ∧ m.row.verify v pred = true ∧ emission m.row.placement = true := by
  unfold emitGroup
  simp only [he]
  cases hdups : seg.hasDupGroups with
  | false =>
    have hself : ∀ m, seg.entries[i]? = some m → m.dupOf = i := fun m => hg.dupOf_eq hdups
    simp only [Bool.not_false, if_true]
    split
    · next hpass => grind
    · next hpass => grind
  | true =>
    have hbody : ∀ m, seg.entries[i]? = some m → m.dupOf = l →
        m.row.body.verify v = e.row.body.verify v := by
      intro m hm hml
      obtain ⟨le, hle, -, -, heq⟩ := hg.leader i m hm
      rw [hml, he] at hle
      cases hle
      exact (verify_eq_of_bodiesEqual (hg.program l e he) (hg.program i m hm) heq v).symm
    simp only [Bool.not_true, Bool.false_eq_true, if_false]
    split
    · next hskip =>
      -- a dead leader without members: nothing to emit
      rw [Bool.and_eq_true, List.isEmpty_iff, Bool.not_eq_true'] at hskip
      have hgroup := hg.mem_group (i := i) he hlead
      rw [hskip.1, mem_singleton] at hgroup
      grind
    · split
      · next hverify =>
        rw [Row.verify_eq, TagPredicate.matches_of_isEmpty rfl, Bool.and_true] at hverify
        rw [mem_filter, hg.mem_group he hlead]
        simp only [passes, Option.any_eq_true, Bool.and_eq_true, Row.verify_eq]
        grind
      · next hverify =>
        rw [Row.verify_eq, TagPredicate.matches_of_isEmpty rfl, Bool.and_true] at hverify
        simp only [Row.verify_eq, Bool.and_eq_true]
        grind

theorem Grouped.nodup_emitGroup (hg : seg.Grouped) (l : Nat) :
    (seg.emitGroup v pred emission l).Nodup := by
  unfold emitGroup
  split
  · exact nodup_nil
  · split
    · split
      · exact nodup_singleton l
      · exact nodup_nil
    · split
      · exact nodup_nil
      · split
        · refine List.Nodup.filter _ (nodup_cons.mpr ⟨fun hl => ?_, hg.nodup l⟩)
          exact ((hg.member l l).mp hl).1 rfl
        · exact nodup_nil

end EmitGroup

/-! ## what a match emits -/

section Collect

variable {seg : Segment} {v : TitleView} {d : Dict} {epoch : UInt32} {lanes : ProbeLanes}
  {pred : TagPredicate} {emission : QueryPlacement → Bool}

theorem Grouped.probe_eq (hg : seg.Grouped) (lane : ProbeLane) (s : Visit UInt32 Nat)
    (key : UInt64) :
    seg.probe v epoch pred emission lane s key =
      visitAll epoch (seg.emitGroup v pred emission) s ((seg.index lane).postings key) := by
  unfold probe CandidateIndex.postings
  split
  · next hskip =>
    obtain ⟨f, hf, hmiss⟩ := Option.any_eq_true _ _ |>.mp hskip
    cases hget : (seg.index lane).get key with
    | none => rfl
    | some p =>
      cases hids : p.ids with
      | nil => simp [hids]
      | cons i ids =>
        have hpost : i ∈ (seg.index lane).postings key := by
          simp [CandidateIndex.postings, hget, hids]
        simp [hg.filtered f hf lane key i hpost] at hmiss
  · cases (seg.index lane).get key with
    | none => rfl
    | some p => rfl

def laneIds (seg : Segment) (v : TitleView) (d : Dict) (lane : ProbeLane) : List Nat :=
  (v.keys d lane).flatMap (seg.index lane).postings

/-- The stream of posted ids a read visits. -/
def candidates (seg : Segment) (v : TitleView) (d : Dict) (lanes : ProbeLanes) : List Nat :=
  seg.laneIds v d .main ++ (if lanes.includeHot then seg.laneIds v d .hot else [])
    ++ (if lanes.includeBroad then seg.laneIds v d .broad else [])

theorem mem_candidates {l : Nat} :
    l ∈ seg.candidates v d lanes ↔ seg.Reaches v d lanes l := by
  have hlane : seg.Reaches v d lanes l ↔
      ∃ lane, lanes.probes lane = true ∧ l ∈ seg.laneIds v d lane := by
    simp [Reaches, laneIds]
  rw [hlane, candidates, mem_append, mem_append]
  constructor
  · rintro ((h | h) | h)
    · exact ⟨.main, rfl, h⟩
    · split at h
      · next hhot => exact ⟨.hot, hhot, h⟩
      · contradiction
    · split at h
      · next hbroad => exact ⟨.broad, hbroad, h⟩
      · contradiction
  · rintro ⟨lane, hprobe, h⟩
    cases lane with
    | main => exact .inl (.inl h)
    | hot => exact .inl (.inr (by rwa [if_pos (show lanes.includeHot = true from hprobe)]))
    | broad => exact .inr (by rwa [if_pos (show lanes.includeBroad = true from hprobe)])

theorem Grouped.probeAll_eq (hg : seg.Grouped) (lane : ProbeLane) (s : Visit UInt32 Nat) :
    seg.probeAll v epoch pred emission lane (v.keys d lane) s =
      visitAll epoch (seg.emitGroup v pred emission) s (seg.laneIds v d lane) := by
  rw [probeAll, laneIds, ← foldl_visitAll]
  congr 1
  funext s key
  exact hg.probe_eq lane s key

theorem laneIds_hot_eq_nil (h : seg.hasHotEntries = false) : seg.laneIds v d .hot = [] := by
  rw [laneIds, flatMap_eq_nil_iff]
  intro key _
  rw [eq_nil_iff_forall_not_mem]
  intro i hi
  have hpos := CandidateIndex.numSignatures_pos hi
  simp only [hasHotEntries, decide_eq_false_iff_not] at h
  exact h hpos

/-- Visiting the lanes in turn is one visit of their streams, when a lane that
is passed over has nothing in it. -/
theorem visitLanes_eq {emit : Nat → List Nat} {ids : ProbeLane → List Nat} {hot : Bool}
    (hnone : hot = false → ids .hot = []) (s : Visit UInt32 Nat) :
    (let s := visitAll epoch emit s (ids .main)
      let s := if lanes.includeHot && hot then visitAll epoch emit s (ids .hot) else s
      if lanes.includeBroad then visitAll epoch emit s (ids .broad) else s) =
    visitAll epoch emit s (ids .main ++ (if lanes.includeHot then ids .hot else [])
      ++ (if lanes.includeBroad then ids .broad else [])) := by
  rw [visitAll_append, visitAll_append]
  cases lanes.includeBroad
  all_goals
    cases hhot : hot with
    | true => cases lanes.includeHot <;> rfl
    | false => cases lanes.includeHot <;> simp [hnone hhot]

theorem Grouped.matchCollect_eq (hg : seg.Grouped) (seen : List UInt32) :
    seg.matchCollect v d epoch lanes pred emission seen =
      visitAll epoch (seg.emitGroup v pred emission) ⟨seen, []⟩ (seg.candidates v d lanes) := by
  simp only [matchCollect, hg.probeAll_eq]
  exact visitLanes_eq laneIds_hot_eq_nil _

/-- **What a match emits**: the live, verified, passing rows whose leader is
reached, each once. -/
theorem Grouped.mem_matchCollect (hg : seg.Grouped) {seen : List UInt32}
    (hseen : seg.length ≤ seen.length) (hfresh : epoch ∉ seen) :
    (seg.matchCollect v d epoch lanes pred emission seen).out.Nodup ∧
    ∀ i, i ∈ (seg.matchCollect v d epoch lanes pred emission seen).out ↔
      ∃ e, seg.entries[i]? = some e ∧ e.alive = true ∧ e.row.verify v pred = true ∧
        emission e.row.placement = true ∧ seg.Reaches v d lanes e.dupOf := by
  have hleader : ∀ l ∈ seg.candidates v d lanes, ∃ e, seg.entries[l]? = some e ∧ e.dupOf = l := by
    intro l hl
    obtain ⟨lane, -, key, -, hpost⟩ := mem_candidates.mp hl
    obtain ⟨e, he, hlead, -⟩ := hg.posted lane key l hpost
    exact ⟨e, he, hlead⟩
  have hin : ∀ l ∈ seg.candidates v d lanes, l < seen.length := by
    intro l hl
    obtain ⟨e, he, -⟩ := hleader l hl
    exact lt_of_lt_of_le (List.getElem?_eq_some_iff.mp he).1 hseen
  obtain ⟨fresh, hnodup, hmem, hout⟩ := @visitAll_out _ _ _ epoch
    (seg.emitGroup v pred emission) ⟨seen, []⟩ (seg.candidates v d lanes) hin
  have hmem' : ∀ l, l ∈ fresh ↔ seg.Reaches v d lanes l := by
    intro l
    rw [hmem, mem_candidates, and_iff_left]
    exact fun hstamp => hfresh (mem_of_getElem? hstamp)
  have hemit : ∀ l ∈ fresh, ∀ i, i ∈ seg.emitGroup v pred emission l ↔ ∃ m,
      seg.entries[i]? = some m ∧ m.dupOf = l ∧ m.alive = true ∧ m.row.verify v pred = true ∧
        emission m.row.placement = true := by
    intro l hl i
    obtain ⟨e, he, hlead⟩ := hleader l ((hmem l).mp hl).1
    exact hg.mem_emitGroup he hlead
  rw [hg.matchCollect_eq, hout, nil_append]
  constructor
  · -- groups of distinct leaders are disjoint: a row names one leader
    refine nodup_flatMap.mpr ⟨fun l _ => hg.nodup_emitGroup l, ?_⟩
    refine hnodup.imp_of_mem fun {a b} ha hb hne i hia hib => ?_
    obtain ⟨m, hm, hma, -⟩ := (hemit a ha i).mp hia
    obtain ⟨m', hm', hmb, -⟩ := (hemit b hb i).mp hib
    rw [hm] at hm'
    cases hm'
    exact hne (hma.symm.trans hmb)
  · intro i
    rw [mem_flatMap]
    constructor
    · rintro ⟨l, hl, hi⟩
      obtain ⟨m, hm, rfl, halive, hverify, hemis⟩ := (hemit l hl i).mp hi
      exact ⟨m, hm, halive, hverify, hemis, (hmem' _).mp hl⟩
    · rintro ⟨e, he, halive, hverify, hemis, hreach⟩
      have hl := (hmem' _).mpr hreach
      exact ⟨e.dupOf, hl, (hemit _ hl i).mpr ⟨e, he, rfl, halive, hverify, hemis⟩⟩

end Collect

/-! ## exactness -/

/-- The rows a read should return: live, verified, passing the emission
policy, and default-visible unless the broad lane is asked for. -/
def shouldEmit (seg : Segment) (v : TitleView) (pred : TagPredicate)
    (emission : QueryPlacement → Bool) (includeBroad : Bool) (i : Nat) : Bool :=
  seg.entries[i]?.any fun e =>
    e.alive && e.row.verify v pred && emission e.row.placement && (!e.cls.isOptIn || includeBroad)

/-- Whether the title probes a key that the group of row `i` is posted under. -/
def probed (seg : Segment) (v : TitleView) (d : Dict) (i : Nat) : Bool :=
  seg.entries[i]?.any fun e =>
    (v.keys d e.cls.lane).any fun key => ((seg.index e.cls.lane).postings key).contains e.dupOf

/-- Whether row `i` is anchored on quoted labels and fails open on the title. -/
def undecided (seg : Segment) (v : TitleView) (i : Nat) : Bool :=
  seg.entries[i]?.any fun e => e.row.body.failsOpen v

section Exact

variable {seg : Segment} {v : TitleView} {d : Dict} {lanes : ProbeLanes}

theorem Grouped.reaches_iff (hg : seg.Grouped) {i : Nat} {e : Entry}
    (he : seg.entries[i]? = some e) :
    seg.Reaches v d lanes e.dupOf ↔ lanes.probes e.cls.lane = true ∧
      ∃ key ∈ v.keys d e.cls.lane, e.dupOf ∈ (seg.index e.cls.lane).postings key := by
  constructor
  · rintro ⟨lane, hprobe, key, hkey, hpost⟩
    obtain ⟨l, hl, -, hcls, -⟩ := hg.leader i e he
    obtain ⟨l', hl', -, hlane⟩ := hg.posted lane key _ hpost
    rw [hl] at hl'
    cases hl'
    rw [hcls] at hlane
    subst hlane
    exact ⟨hprobe, key, hkey, hpost⟩
  · rintro ⟨hprobe, key, hkey, hpost⟩
    exact ⟨_, hprobe, key, hkey, hpost⟩

theorem probes_lane_iff (cls : CostClass) (includeBroad : Bool) :
    (ProbeLanes.mk includeBroad true).probes cls.lane = (!cls.isOptIn || includeBroad) := by
  cases cls <;> rfl

variable {includeBroad : Bool} {seen : List UInt32}

/-- A row comes back exactly when it should and one of its keys is probed. -/
theorem Grouped.mem_matchCollect_iff (hg : seg.Grouped) {epoch : UInt32} {pred : TagPredicate}
    {emission : QueryPlacement → Bool} (hseen : seg.length ≤ seen.length) (hfresh : epoch ∉ seen)
    (i : Nat) : i ∈ (seg.matchCollect v d epoch ⟨includeBroad, true⟩ pred emission seen).out ↔
      seg.shouldEmit v pred emission includeBroad i = true ∧ seg.probed v d i = true := by
  rw [(hg.mem_matchCollect hseen hfresh).2 i]
  cases he : seg.entries[i]? with
  | none => simp [shouldEmit, he]
  | some e =>
    have hreach : seg.Reaches v d ⟨includeBroad, true⟩ e.dupOf ↔ _ := hg.reaches_iff he
    rw [probes_lane_iff] at hreach
    simp only [shouldEmit, probed, he, Option.any_some, Bool.and_eq_true, any_eq_true,
      contains_iff_mem, Option.some.injEq, exists_eq_left', hreach]
    simp only [and_assoc]

/-- A row that should come back has a probed key, unless its quoted anchor fails
open. -/
theorem Grouped.probed_of_shouldEmit (hg : seg.Grouped) (hc : seg.Covers d) (hv : v.WellFormed d)
    {pred : TagPredicate} {emission : QueryPlacement → Bool} {i : Nat}
    (hopen : seg.undecided v i = false)
    (h : seg.shouldEmit v pred emission includeBroad i = true) : seg.probed v d i = true := by
  obtain ⟨e, he, hpass⟩ := (Option.any_eq_true _ _).mp h
  simp only [Bool.and_eq_true, Row.verify_eq] at hpass
  obtain ⟨⟨⟨-, hbody, -⟩, -⟩, -⟩ := hpass
  rw [undecided, he, Option.any_some] at hopen
  obtain ⟨key, hkey, hpost⟩ := hc.of_member hg he hv hbody hopen
  rw [probed, he, Option.any_some]
  exact any_eq_true.mpr ⟨key, hkey, contains_iff_mem.mpr hpost⟩

def logicals (seg : Segment) (is : List Nat) : List UInt64 :=
  is.filterMap fun i => seg.entries[i]?.map fun e => e.row.logical

end Exact

/-! ## a quoted word on a title too long to decide -/

/-- A dictionary that knows one word. -/
def oneWordDict : Dict := (Dict.new.intern "charm").2

/-- The query `"charm"`. -/
def quotedWordRequest : AddRequest where
  ex := { requiredPhrases := [⟨1, [⟨0, 1, [0]⟩]⟩] }
  tags := []
  dict := oneWordDict
  logical := 7
  version := 1
  priority := 0
  placement := .standalone
  sourceGeneration := 0
  knobs := ⟨true, 0, false, false⟩

/-- The segment holding only that query. -/
def quotedWordSegment : Segment :=
  new.lead quotedWordRequest.row quotedWordRequest.plan false true

def longTitle : TitleView :=
  .dualPositioned [] (titleMask oneWordDict []) [] ⟨65537, [], true⟩
    (titleMask oneWordDict []) [] ⟨65537, [], true⟩

theorem quotedWordRequest_wellformed : quotedWordRequest.ex.Wellformed where
  ranked := by decide
  conjunctions c hc := absurd hc not_mem_nil
  graphs g hg := by
    rw [mem_singleton.mp hg]
    exact ⟨by decide, .arc (a := ⟨0, 1, [0]⟩) .start mem_cons_self⟩

theorem quotedWordRequest_admissible : quotedWordRequest.Admissible oneWordDict where
  storable := ⟨by decide, quotedWordRequest_wellformed, by decide, by decide⟩
  frozen := .refl _

theorem longTitle_wellFormed : longTitle.WellFormed oneWordDict where
  pos f hf := hf
  labels g hg a ha := by
    cases hg
    contradiction
  posMask := rfl
  negMask := rfl

theorem quotedWordSegment_built : Built oneWordDict quotedWordSegment := by
  have haccept : rejectsClassD quotedWordRequest.plan.cls quotedWordRequest.ex
      quotedWordRequest.knobs.acceptClassD = false := by decide
  refine .add .new rfl quotedWordRequest_admissible
    (r := ⟨0, quotedWordRequest.plan.cls, quotedWordRequest.plan.wouldBeHot,
      quotedWordRequest.row.body.signature, false⟩) ?_
  unfold addCompiled
  simp only [haccept, Bool.false_eq_true, if_false]
  rfl

/-- The title `charm`. -/
def charmTitle : TitleView :=
  .dualPositioned [0] (titleMask oneWordDict [0]) [0] ⟨1, [⟨0, 0, 1⟩], true⟩
    (titleMask oneWordDict [0]) [0] ⟨1, [⟨0, 0, 1⟩], true⟩

theorem charmTitle_wellFormed : charmTitle.WellFormed oneWordDict where
  pos f hf := hf
  labels g hg a ha := by
    cases hg
    cases ha with
    | head => exact mem_cons_self
    | tail _ h => contradiction
  posMask := rfl
  negMask := rfl

end Segment

end ReverseRusty
