import ReverseRusty.Lib.Multimap
import ReverseRusty.ExactSpec
import ReverseRusty.Filter
import ReverseRusty.Index

/-!
# ReverseRusty.Segment

The in-memory segment and its write path (`segment/seg/write.rs`): rows are
appended with the postings of their plan, or join the group of an earlier
row with the same body and ride on that row's postings; rows are tombstoned
in place; sealing builds the anchor filter.

`Grouped` is the structural invariant of a segment and `Covers` the
completeness invariant against the dictionary titles are read under.  Both
hold of every segment the write path can build (`Built.grouped`,
`Built.covers`).
-/

namespace ReverseRusty

open List

/-- A stored query of a segment: its exact row, its cost class, whether it
is live, and the local id of the row whose postings reach it. -/
structure Entry where
  row : Row
  cls : CostClass
  alive : Bool
  dupOf : Nat
deriving DecidableEq, Repr

structure CompileKnobs where
  acceptClassD : Bool
  hotAnchorThreshold : Nat
  dedupBodies : Bool
  keepVisible : Bool
deriving DecidableEq, Repr

/-- The lowering semantics current builds compile queries under. -/
def currentCompilerSemanticsVersion : UInt32 := 8

/-- Rows with the indexes that find them. -/
structure Segment where
  entries : List Entry
  /-- some row appended so far had a quoted clause -/
  quotedRows : Bool
  main : CandidateIndex
  broad : CandidateIndex
  hot : CandidateIndex
  aliveCounter : Nat
  livePhrasePredicates : Nat
  filter : Option SegmentFilter
  tagSummary : Option (List TagId)
  logicalIndex : Multimap UInt64 Nat
  /-- group leaders to the rows that joined them -/
  dupMembers : Multimap Nat Nat
  /-- body signatures to the leaders that have them -/
  bodyIndex : Multimap UInt64 Nat
  /-- the lowering semantics the rows were compiled under -/
  compilerSemanticsVersion : UInt32

/-- A compiled query to append. -/
structure AddRequest where
  ex : Extracted
  tags : List TagId
  dict : Dict
  logical : UInt64
  version : UInt32
  priority : Int64
  placement : QueryPlacement
  sourceGeneration : UInt64
  knobs : CompileKnobs

/-- What an accepted append reports. -/
structure AddedCompiled where
  localId : Nat
  cls : CostClass
  wouldBeHot : Bool
  bodyHash : UInt64
  isDuplicate : Bool
deriving DecidableEq, Repr

/-- A query with no positive anchor is refused unless the lane is on and
it has something to forbid. -/
def rejectsClassD (cls : CostClass) (ex : Extracted) (acceptClassD : Bool) : Bool :=
  cls == .D && (!acceptClassD || !ex.hasNegativePredicate)

/-- What a plan must offer for a body: a key each verifying title probes,
unless the body fails open there. -/
def SigPlan.CoversBody (plan : SigPlan) (dt : Dict) (body : Body) : Prop :=
  ∀ v : TitleView, v.WellFormed dt → body.verify v = true → body.failsOpen v = false →
    plan.Reached dt v plan.cls.lane

namespace AddRequest

/-- The signatures the query is posted under. -/
def plan (req : AddRequest) : SigPlan :=
  let plan := buildSignatures req.ex req.dict req.knobs.hotAnchorThreshold
  if req.knobs.keepVisible || req.placement.mode == .replicatedAlwaysVisible then plan.pinVisible
  else plan

/-- The exact row the query is stored as. -/
def row (req : AddRequest) : Row where
  body := Body.compile req.dict req.ex
  tags := narrow 16 req.tags
  priority := req.priority
  placement := req.placement
  sourceGeneration := req.sourceGeneration
  version := req.version
  logical := req.logical

/-- Whether the query has quoted clauses. -/
def quoted (req : AddRequest) : Bool := req.ex.hasPhrases

/-- An append of a storable query whose dictionary has the same mask as
`dt`, or none yet. -/
structure Admissible (req : AddRequest) (dt : Dict) : Prop where
  storable : req.ex.Storable
  frozen : req.dict.MaskFrozen dt

end AddRequest

namespace Segment

def new : Segment :=
  ⟨[], false, .new, .new, .new, 0, 0, none, none, ∅, ∅, ∅, currentCompilerSemanticsVersion⟩

def index (seg : Segment) : ProbeLane → CandidateIndex
  | .main => seg.main
  | .broad => seg.broad
  | .hot => seg.hot

def length (seg : Segment) : Nat := seg.entries.length

def hasDupGroups (seg : Segment) : Bool := !seg.dupMembers.entries.isEmpty

/-- The rows that joined a leader. -/
def membersOf (seg : Segment) (leader : Nat) : List Nat := seg.dupMembers.valuesOf leader

def hasHotEntries (seg : Segment) : Bool := 0 < seg.hot.numSignatures

def hasPhrasePredicates (seg : Segment) : Bool := seg.livePhrasePredicates ≠ 0

def isAlive (seg : Segment) (i : Nat) : Bool := seg.entries[i]?.any Entry.alive

def localsForLogical (seg : Segment) (logical : UInt64) : List Nat :=
  seg.logicalIndex.valuesOf logical

/-! ## appending -/

def append (seg : Segment) (e : Entry) (quoted : Bool) : Segment :=
  { seg with
    entries := seg.entries ++ [e]
    quotedRows := seg.quotedRows || quoted
    aliveCounter := seg.aliveCounter + 1
    livePhrasePredicates := seg.livePhrasePredicates + (if e.row.hasPhrases then 1 else 0)
    logicalIndex := seg.logicalIndex.push e.row.logical seg.length }

/-- The earlier leader a body may join: one with the same body, on the same
side of the opt-in boundary. -/
def leaderFor (seg : Segment) (cls : CostClass) (body : Body) : Option Nat :=
  (seg.bodyIndex.valuesOf body.signature).find? fun l =>
    seg.entries[l]?.any fun e => e.cls.isOptIn == cls.isOptIn && e.row.body.bodiesEqual body

/-- Append a row to the group of `leader`, under the leader's class. -/
def join (seg : Segment) (leader : Nat) (row : Row) (cls : CostClass) (quoted : Bool) : Segment :=
  { seg.append ⟨row, cls, true, leader⟩ quoted with
    dupMembers := seg.dupMembers.push leader seg.length }

def lead (seg : Segment) (row : Row) (plan : SigPlan) (dedupBodies quoted : Bool) : Segment :=
  { seg.append ⟨row, plan.cls, true, seg.length⟩ quoted with
    bodyIndex :=
      if dedupBodies then seg.bodyIndex.push row.body.signature seg.length else seg.bodyIndex
    main := seg.main.insertAll plan.mainSigs seg.length
    broad := seg.broad.insertAll plan.broadSigs seg.length
    hot := seg.hot.insertAll plan.hotSigs seg.length }

/-- Append a compiled query, or refuse it. -/
def addCompiled (seg : Segment) (req : AddRequest) : Option (AddedCompiled × Segment) :=
  let plan := req.plan
  if rejectsClassD plan.cls req.ex req.knobs.acceptClassD then none
  else
    let row := req.row
    let leader := if req.knobs.dedupBodies then seg.leaderFor plan.cls row.body else none
    match leader with
    | some l =>
      -- a member adopts its leader's class, which names the lane it is in
      let cls := (seg.entries[l]?.map Entry.cls).getD plan.cls
      some (⟨seg.length, cls, plan.wouldBeHot, row.body.signature, true⟩,
        seg.join l row cls req.quoted)
    | none =>
      some (⟨seg.length, plan.cls, plan.wouldBeHot, row.body.signature, false⟩,
        seg.lead row plan req.knobs.dedupBodies req.quoted)

/-! ## tombstones and sealing -/

/-- Mark a row dead; a row out of range or already dead is left alone. -/
def tombstone (seg : Segment) (i : Nat) : Segment :=
  match seg.entries[i]? with
  | none => seg
  | some e =>
    { seg with
      entries := seg.entries.set i { e with alive := false }
      aliveCounter := if e.alive then seg.aliveCounter - 1 else seg.aliveCounter
      livePhrasePredicates :=
        if e.alive && e.row.hasPhrases then seg.livePhrasePredicates - 1
        else seg.livePhrasePredicates }

def buildFilter (seg : Segment) : Segment :=
  { seg with
    filter := some (.build (seg.main.keys ++ seg.broad.keys ++ seg.hot.keys))
    tagSummary := some (sortDedup (seg.entries.flatMap fun e => e.row.tags))
    bodyIndex := ∅ }

/-! ## what one append does -/

theorem exists_of_find?_any {entries : List Entry} {ids : List Nat} {p : Nat → Entry → Bool}
    {l : Nat} (h : (ids.find? fun l => entries[l]?.any (p l)) = some l) :
    l ∈ ids ∧ ∃ e, entries[l]? = some e ∧ p l e = true := by
  have hany := find?_some h
  exact ⟨mem_of_find?_eq_some h, (Option.any_eq_true _ _).mp hany⟩

theorem addCompiled_cases {seg seg' : Segment} {req : AddRequest} {r : AddedCompiled}
    (h : seg.addCompiled req = some (r, seg')) :
    (∃ l e, l ∈ seg.bodyIndex.valuesOf req.row.body.signature ∧ seg.entries[l]? = some e ∧
      e.cls.isOptIn = req.plan.cls.isOptIn ∧ e.row.body.bodiesEqual req.row.body = true ∧
      seg' = seg.join l req.row e.cls req.quoted) ∨
    seg' = seg.lead req.row req.plan req.knobs.dedupBodies req.quoted := by
  unfold addCompiled at h
  simp only at h
  split at h
  · contradiction
  · split at h
    · next l hl =>
      left
      split at hl
      · obtain ⟨hmem, e, he, hsame⟩ := exists_of_find?_any hl
        simp only [Bool.and_eq_true, beq_iff_eq] at hsame
        cases h
        exact ⟨l, e, hmem, he, hsame.1, hsame.2, by rw [he]; rfl⟩
      · contradiction
    · right
      cases h
      rfl

/-! ## the structural invariant -/

/-- Groups, postings and the filter of a segment agree. -/
structure Grouped (seg : Segment) : Prop where
  /-- a row's leader leads itself, with the row's class and body -/
  leader : ∀ (i : Nat) (e : Entry), seg.entries[i]? = some e → ∃ l : Entry,
    seg.entries[e.dupOf]? = some l ∧ l.dupOf = e.dupOf ∧ l.cls = e.cls ∧
      l.row.body.bodiesEqual e.row.body = true
  nodup : ∀ l, (seg.membersOf l).Nodup
  /-- a leader's members are the other rows that name it -/
  member : ∀ (l m : Nat), m ∈ seg.membersOf l ↔ m ≠ l ∧ ∃ e, seg.entries[m]? = some e ∧ e.dupOf = l
  /-- only leaders are posted, each in the index of its class -/
  posted : ∀ lane key (i : Nat), i ∈ (seg.index lane).postings key →
    ∃ e, seg.entries[i]? = some e ∧ e.dupOf = i ∧ e.cls.lane = lane
  program : ∀ (i : Nat) (e : Entry), seg.entries[i]? = some e → KnownVersion e.row.body.predicate
  bodyLeader : ∀ sig (l : Nat), l ∈ seg.bodyIndex.valuesOf sig →
    ∃ e, seg.entries[l]? = some e ∧ e.dupOf = l
  /-- the filter accepts every posted key -/
  filtered : ∀ f, seg.filter = some f → ∀ lane key i,
    i ∈ (seg.index lane).postings key → f.mayContain key = true

theorem grouped_new : new.Grouped where
  leader i e h := by simp [new] at h
  nodup l := nodup_nil
  member l m := by simp [membersOf, new]
  posted lane key i h := by cases lane <;> simp [index, new] at h
  program i e h := by simp [new] at h
  bodyLeader sig l h := by simp [new] at h
  filtered f h := by simp [new] at h

section Append

variable {seg : Segment} {row : Row} {cls : CostClass} {l : Nat} {quoted : Bool}

@[simp] theorem index_append (e : Entry) (lane : ProbeLane) :
    (seg.append e quoted).index lane = seg.index lane := by
  cases lane <;> rfl

@[simp] theorem index_join (lane : ProbeLane) :
    (seg.join l row cls quoted).index lane = seg.index lane := by
  cases lane <;> rfl

theorem index_lead {plan : SigPlan} {dedup : Bool} (lane : ProbeLane) :
    (seg.lead row plan dedup quoted).index lane =
      (seg.index lane).insertAll (plan.sigs lane) seg.length := by
  cases lane <;> rfl

theorem getElem?_concat {α : Type*} {xs : List α} {x y : α} {i : Nat} :
    (xs ++ [x])[i]? = some y ↔ xs[i]? = some y ∨ (i = xs.length ∧ y = x) := by
  rw [getElem?_append]
  by_cases hi : i < xs.length
  · rw [if_pos hi]
    grind
  · rw [if_neg hi]
    grind

theorem bodiesEqual_refl (b : Body) : b.bodiesEqual b = true := by simp [Body.bodiesEqual]

theorem Grouped.join (h : seg.Grouped) {e : Entry} (he : seg.entries[l]? = some e)
    (hlead : e.dupOf = l) (hbody : e.row.body.bodiesEqual row.body = true)
    (hprog : KnownVersion row.body.predicate) : (seg.join l row e.cls quoted).Grouped := by
  have hlt : l < seg.entries.length := (List.getElem?_eq_some_iff.mp he).1
  have hnew : ∀ k, seg.length ∉ seg.membersOf k := by
    intro k hk
    obtain ⟨-, e', he', -⟩ := (h.member k _).mp hk
    have := (List.getElem?_eq_some_iff.mp he').1
    simp [length] at this
  refine ⟨fun i e' hi => ?_, fun k => ?_, fun k m => ?_, fun lane key i hi => ?_,
    fun i e' hi => ?_, fun sig k hk => ?_, fun f hf lane key i hi => ?_⟩
  · rcases getElem?_concat.mp hi with hi | ⟨-, rfl⟩
    · obtain ⟨l', hl', rest⟩ := h.leader i e' hi
      exact ⟨l', getElem?_concat.mpr (.inl hl'), rest⟩
    · exact ⟨e, getElem?_concat.mpr (.inl he), hlead, rfl, hbody⟩
  · show (Multimap.valuesOf (seg.dupMembers.push l seg.length) k).Nodup
    rw [Multimap.valuesOf_push]
    split
    · exact nodup_append.mpr ⟨h.nodup l, nodup_singleton _, fun a ha b hb hab =>
        hnew l ((mem_singleton.mp hb) ▸ hab ▸ ha)⟩
    · exact h.nodup k
  · show m ∈ Multimap.valuesOf (seg.dupMembers.push l seg.length) k ↔
      m ≠ k ∧ ∃ e', (seg.entries ++ [⟨row, e.cls, true, l⟩])[m]? = some e' ∧ e'.dupOf = k
    have hold := h.member k m
    simp only [membersOf] at hold
    rw [Multimap.mem_valuesOf_push, hold]
    simp only [getElem?_concat, length]
    have hne : seg.entries.length ≠ l := by omega
    grind
  · rw [index_join] at hi
    obtain ⟨e', he', rest⟩ := h.posted lane key i hi
    exact ⟨e', getElem?_concat.mpr (.inl he'), rest⟩
  · rcases getElem?_concat.mp hi with hi | ⟨-, rfl⟩
    · exact h.program i e' hi
    · exact hprog
  · obtain ⟨e', he', rest⟩ := h.bodyLeader sig k hk
    exact ⟨e', getElem?_concat.mpr (.inl he'), rest⟩
  · rw [index_join] at hi
    exact h.filtered f hf lane key i hi

theorem Grouped.lead (h : seg.Grouped) {plan : SigPlan} {dedup : Bool}
    (hopen : seg.filter = none) (hprog : KnownVersion row.body.predicate)
    (hlane : ∀ lane key, key ∈ plan.sigs lane → plan.cls.lane = lane) :
    (seg.lead row plan dedup quoted).Grouped := by
  refine ⟨fun i e' hi => ?_, h.nodup, fun k m => ?_, fun lane key i hi => ?_,
    fun i e' hi => ?_, fun sig k hk => ?_, fun f hf => ?_⟩
  · rcases getElem?_concat.mp hi with hi | ⟨rfl, rfl⟩
    · obtain ⟨l', hl', rest⟩ := h.leader i e' hi
      exact ⟨l', getElem?_concat.mpr (.inl hl'), rest⟩
    · exact ⟨_, getElem?_concat.mpr (.inr ⟨rfl, rfl⟩), rfl, rfl, bodiesEqual_refl _⟩
  · show m ∈ seg.membersOf k ↔
      m ≠ k ∧ ∃ e', (seg.entries ++ [⟨row, plan.cls, true, seg.length⟩])[m]? = some e' ∧ e'.dupOf = k
    rw [h.member]
    simp only [getElem?_concat, length]
    grind
  · rw [index_lead, CandidateIndex.mem_postings_insertAll] at hi
    rcases hi with hi | ⟨hkey, rfl⟩
    · obtain ⟨e', he', rest⟩ := h.posted lane key i hi
      exact ⟨e', getElem?_concat.mpr (.inl he'), rest⟩
    · exact ⟨_, getElem?_concat.mpr (.inr ⟨rfl, rfl⟩), rfl, hlane lane key hkey⟩
  · rcases getElem?_concat.mp hi with hi | ⟨-, rfl⟩
    · exact h.program i e' hi
    · exact hprog
  · have hk' : k ∈ seg.bodyIndex.valuesOf sig ∨ k = seg.length := by
      simp only [Segment.lead] at hk
      split at hk
      · rcases Multimap.mem_valuesOf_push.mp hk with hk | ⟨-, hk⟩
        · exact .inl hk
        · exact .inr hk
      · exact .inl hk
    rcases hk' with hk' | rfl
    · obtain ⟨e', he', rest⟩ := h.bodyLeader sig k hk'
      exact ⟨e', getElem?_concat.mpr (.inl he'), rest⟩
    · exact ⟨_, getElem?_concat.mpr (.inr ⟨rfl, rfl⟩), rfl⟩
  · have hnone : (seg.lead row plan dedup quoted).filter = none := hopen
    simp [hnone] at hf

end Append

/-! ## tombstones and sealing keep it -/

@[simp] theorem index_tombstone (seg : Segment) (i : Nat) (lane : ProbeLane) :
    (seg.tombstone i).index lane = seg.index lane := by
  unfold tombstone
  split
  · rfl
  · cases lane <;> rfl

@[simp] theorem index_buildFilter (seg : Segment) (lane : ProbeLane) :
    seg.buildFilter.index lane = seg.index lane := by
  cases lane <;> rfl

theorem getElem?_tombstone {seg : Segment} {i j : Nat} {e : Entry}
    (h : (seg.tombstone i).entries[j]? = some e) :
    ∃ e₀, seg.entries[j]? = some e₀ ∧ e = { e₀ with alive := e.alive } := by
  unfold tombstone at h
  split at h
  · exact ⟨e, h, rfl⟩
  · next e₀ he₀ =>
    simp only [getElem?_set] at h
    split at h
    · next hij =>
      subst hij
      split at h
      · cases h
        exact ⟨e₀, he₀, rfl⟩
      · contradiction
    · exact ⟨e, h, rfl⟩

theorem tombstone_getElem? {seg : Segment} {j : Nat} {e₀ : Entry}
    (h : seg.entries[j]? = some e₀) (i : Nat) :
    ∃ b, (seg.tombstone i).entries[j]? = some { e₀ with alive := b } := by
  have hlt : j < (seg.tombstone i).entries.length := by
    have := (List.getElem?_eq_some_iff.mp h).1
    unfold tombstone
    split
    · exact this
    · simpa using this
  obtain ⟨e₁, he₁, heq⟩ := getElem?_tombstone (getElem?_eq_getElem hlt)
  rw [h] at he₁
  cases he₁
  refine ⟨((seg.tombstone i).entries[j]).alive, ?_⟩
  rw [← heq]
  exact getElem?_eq_getElem hlt

@[simp] theorem membersOf_tombstone (seg : Segment) (i l : Nat) :
    (seg.tombstone i).membersOf l = seg.membersOf l := by
  unfold tombstone
  split <;> rfl

@[simp] theorem bodyIndex_tombstone (seg : Segment) (i : Nat) :
    (seg.tombstone i).bodyIndex = seg.bodyIndex := by
  unfold tombstone
  split <;> rfl

@[simp] theorem filter_tombstone (seg : Segment) (i : Nat) :
    (seg.tombstone i).filter = seg.filter := by
  unfold tombstone
  split <;> rfl

theorem Grouped.tombstone {seg : Segment} (h : seg.Grouped) (i : Nat) :
    (seg.tombstone i).Grouped := by
  refine ⟨fun j e hj => ?_, fun l => by simpa using h.nodup l, fun l m => ?_,
    fun lane key j hj => ?_, fun j e hj => ?_, fun sig l hl => ?_, fun f hf lane key j hj => ?_⟩
  · obtain ⟨e₀, he₀, heq⟩ := getElem?_tombstone hj
    obtain ⟨l, hl, hrest⟩ := h.leader j e₀ he₀
    obtain ⟨b, hb⟩ := tombstone_getElem? hl i
    rw [heq]
    exact ⟨_, hb, hrest⟩
  · rw [membersOf_tombstone, h.member]
    constructor
    · rintro ⟨hne, e₀, he₀, hdup⟩
      obtain ⟨b, hb⟩ := tombstone_getElem? he₀ i
      exact ⟨hne, _, hb, hdup⟩
    · rintro ⟨hne, e, he, hdup⟩
      obtain ⟨e₀, he₀, heq⟩ := getElem?_tombstone he
      rw [heq] at hdup
      exact ⟨hne, e₀, he₀, hdup⟩
  · rw [index_tombstone] at hj
    obtain ⟨e₀, he₀, hrest⟩ := h.posted lane key j hj
    obtain ⟨b, hb⟩ := tombstone_getElem? he₀ i
    exact ⟨_, hb, hrest⟩
  · obtain ⟨e₀, he₀, heq⟩ := getElem?_tombstone hj
    rw [heq]
    exact h.program j e₀ he₀
  · rw [bodyIndex_tombstone] at hl
    obtain ⟨e₀, he₀, hrest⟩ := h.bodyLeader sig l hl
    obtain ⟨b, hb⟩ := tombstone_getElem? he₀ i
    exact ⟨_, hb, hrest⟩
  · rw [filter_tombstone] at hf
    rw [index_tombstone] at hj
    exact h.filtered f hf lane key j hj

theorem Grouped.buildFilter {seg : Segment} (h : seg.Grouped) : seg.buildFilter.Grouped where
  leader := h.leader
  nodup := h.nodup
  member := h.member
  posted lane key i hi := h.posted lane key i (by rwa [index_buildFilter] at hi)
  program := h.program
  bodyLeader sig l hl := by simp [Segment.buildFilter] at hl
  filtered f hf lane key i hi := by
    rw [index_buildFilter] at hi
    cases hf
    have hkey := CandidateIndex.mem_keys_of_postings hi
    refine SegmentFilter.mayContain_build ?_
    simp only [mem_append]
    cases lane with
    | main => exact .inl (.inl hkey)
    | broad => exact .inl (.inr hkey)
    | hot => exact .inr hkey

/-! ## the completeness invariant -/

/-- Every leader is posted under a key that each title it verifies on
probes, titles being read under `dt`; bodies that fail open are exempt. -/
def Covers (seg : Segment) (dt : Dict) : Prop :=
  ∀ (i : Nat) (e : Entry), seg.entries[i]? = some e → e.dupOf = i →
    ∀ v : TitleView, v.WellFormed dt → e.row.body.verify v = true →
      e.row.body.failsOpen v = false →
        ∃ key ∈ v.keys dt e.cls.lane, i ∈ (seg.index e.cls.lane).postings key

section Covers

variable {seg : Segment} {dt : Dict} {row : Row} {quoted : Bool}

theorem covers_new : new.Covers dt := by
  intro i e h
  simp [new] at h

theorem Covers.join (h : seg.Covers dt) {l : Nat} {cls : CostClass} (hl : l < seg.length) :
    (seg.join l row cls quoted).Covers dt := by
  intro i e hi hlead v hv hverify hopen
  rw [index_join]
  rcases getElem?_concat.mp hi with hi | ⟨hlen, rfl⟩
  · exact h i e hi hlead v hv hverify hopen
  · exact absurd (hlead.trans hlen) (Nat.ne_of_lt hl)

theorem Covers.lead (h : seg.Covers dt) {plan : SigPlan} {dedup : Bool}
    (hplan : plan.CoversBody dt row.body) : (seg.lead row plan dedup quoted).Covers dt := by
  intro i e hi hlead v hv hverify hopen
  rw [index_lead]
  simp only [CandidateIndex.mem_postings_insertAll]
  rcases getElem?_concat.mp hi with hi | ⟨rfl, rfl⟩
  · obtain ⟨key, hkey, hpost⟩ := h i e hi hlead v hv hverify hopen
    exact ⟨key, hkey, .inl hpost⟩
  · obtain ⟨key, hsig, hkey⟩ := hplan v hv hverify hopen
    exact ⟨key, hkey, .inr ⟨hsig, rfl⟩⟩

theorem Covers.tombstone (h : seg.Covers dt) (j : Nat) : (seg.tombstone j).Covers dt := by
  intro i e hi hlead v hv hverify hopen
  obtain ⟨e₀, he₀, heq⟩ := getElem?_tombstone hi
  rw [index_tombstone]
  rw [heq] at hlead hverify hopen ⊢
  exact h i e₀ he₀ hlead v hv hverify hopen

theorem Covers.buildFilter (h : seg.Covers dt) : seg.buildFilter.Covers dt := by
  intro i e hi hlead v hv hverify hopen
  rw [index_buildFilter]
  exact h i e hi hlead v hv hverify hopen

theorem Covers.of_member (hc : seg.Covers dt) (hg : seg.Grouped) {i : Nat} {e : Entry}
    (hi : seg.entries[i]? = some e) {v : TitleView} (hv : v.WellFormed dt)
    (hverify : e.row.body.verify v = true) (hopen : e.row.body.failsOpen v = false) :
    ∃ key ∈ v.keys dt e.cls.lane, e.dupOf ∈ (seg.index e.cls.lane).postings key := by
  obtain ⟨l, hl, hlead, hcls, hbody⟩ := hg.leader i e hi
  rw [← verify_eq_of_bodiesEqual (hg.program _ l hl) (hg.program i e hi) hbody] at hverify
  rw [← failsOpen_eq_of_bodiesEqual hbody] at hopen
  rw [← hcls]
  exact hc e.dupOf l hl hlead v hv hverify hopen

end Covers

/-! ## segments the write path builds -/

/-- Segments built by appends, tombstones and sealing, appends only before
sealing; titles are read under `dt`. -/
inductive Built (dt : Dict) : Segment → Prop where
  | new : Built dt Segment.new
  | add {seg seg' : Segment} {req : AddRequest} {r : AddedCompiled} (hseg : Built dt seg)
      (hopen : seg.filter = none) (hreq : req.Admissible dt)
      (hadd : seg.addCompiled req = some (r, seg')) : Built dt seg'
  | tombstone {seg : Segment} (hseg : Built dt seg) (i : Nat) : Built dt (seg.tombstone i)
  | buildFilter {seg : Segment} (hseg : Built dt seg) : Built dt seg.buildFilter

end Segment

namespace AddRequest

variable {req : AddRequest} {dt : Dict}

theorem knownVersion_row (h : req.Admissible dt) : KnownVersion req.row.body.predicate := by
  rw [row, predicate_compile h.storable]
  exact knownVersion_encodePredicate req.ex

theorem lane_of_mem_plan {lane : ProbeLane} {key : UInt64} (h : key ∈ req.plan.sigs lane) :
    req.plan.cls.lane = lane := by
  unfold plan at *
  simp only at *
  split at h
  · next hpin => rw [if_pos hpin]; exact lane_of_mem_pinVisible h
  · next hpin => rw [if_neg hpin]; exact lane_of_mem_sigs h

theorem coversBody_plan (h : req.Admissible dt) : req.plan.CoversBody dt req.row.body := by
  intro v hv hverify hopen
  have hdemands : req.ex.Demands req.dict v :=
    demands_of_verify h.storable h.frozen hv hverify hopen
  have hhot : ∀ f, req.dict.isHot f = true → dt.isHot f = true := fun f => h.frozen.isHot
  unfold plan
  simp only
  split
  · exact reached_pinVisible h.storable.canonical.anchorable hhot hv.toProbeCovers hdemands
  · exact reached_of_demands h.storable.canonical.anchorable hhot hv.toProbeCovers hdemands

end AddRequest

namespace Segment

section Built

variable {seg : Segment} {dt : Dict}

theorem Grouped.add {seg' : Segment} {req : AddRequest} {r : AddedCompiled} (h : seg.Grouped)
    (hopen : seg.filter = none) (hreq : req.Admissible dt)
    (hadd : seg.addCompiled req = some (r, seg')) : seg'.Grouped := by
  have hprog := AddRequest.knownVersion_row hreq
  rcases addCompiled_cases hadd with ⟨l, e, hl, he, -, hbody, rfl⟩ | rfl
  · obtain ⟨e', he', hlead⟩ := h.bodyLeader _ l hl
    rw [he] at he'
    cases he'
    exact h.join he hlead hbody hprog
  · exact h.lead hopen hprog fun _ _ => AddRequest.lane_of_mem_plan

theorem Covers.add {seg' : Segment} {req : AddRequest} {r : AddedCompiled} (h : seg.Covers dt)
    (hreq : req.Admissible dt) (hadd : seg.addCompiled req = some (r, seg')) : seg'.Covers dt := by
  rcases addCompiled_cases hadd with ⟨l, e, -, he, -, -, rfl⟩ | rfl
  · exact h.join (List.getElem?_eq_some_iff.mp he).1
  · exact h.lead (AddRequest.coversBody_plan hreq)

/-- **Every built segment is well grouped.** -/
theorem Built.grouped (h : Built dt seg) : seg.Grouped := by
  induction h with
  | new => exact grouped_new
  | add _ hopen hreq hadd ih => exact ih.add hopen hreq hadd
  | tombstone _ i ih => exact ih.tombstone i
  | buildFilter _ ih => exact ih.buildFilter

/-- **Every built segment covers its rows.** -/
theorem Built.covers (h : Built dt seg) : seg.Covers dt := by
  induction h with
  | new => exact covers_new
  | add _ _ hreq hadd ih => exact ih.add hreq hadd
  | tombstone _ i ih => exact ih.tombstone i
  | buildFilter _ ih => exact ih.buildFilter

end Built

end Segment

end ReverseRusty
