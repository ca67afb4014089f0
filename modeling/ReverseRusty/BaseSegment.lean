import ReverseRusty.Produced

/-!
# ReverseRusty.BaseSegment

A base segment of an engine (`segment/base.rs`): in memory, or mapped from
its file.  `Attached` lists how one comes about, and `Attached.backing` says
that a mapped one always stands for a segment in memory, tombstones
included.

`reopen_agrees` is the round trip through the file.
-/

namespace ReverseRusty

open List

/-- A sealed segment of an engine. -/
inductive BaseSegment where
  | memory (seg : Segment)
  | mmap (m : MmapSegment)

namespace BaseSegment

def length : BaseSegment → Nat
  | memory s => s.length
  | mmap m => m.length

def tombstone : BaseSegment → Nat → BaseSegment
  | memory s, i => memory (s.tombstone i)
  | mmap m, i => mmap (m.tombstone i)

def matchCollect (b : BaseSegment) (v : TitleView) (d : Dict) (epoch : UInt32) (lanes : ProbeLanes)
    (pred : TagPredicate) (emission : QueryPlacement → Bool) (seen : List UInt32) :
    Visit UInt32 Nat :=
  match b with
  | memory s => s.matchCollect v d epoch lanes pred emission seen
  | mmap m => m.matchCollect v d epoch lanes pred emission seen

def row : BaseSegment → Nat → Option Row
  | memory s, i => s.entries[i]?.map Entry.row
  | mmap m, i => if i < m.length then some (m.row i) else none

def hasPhrasePredicates : BaseSegment → Bool
  | memory s => s.hasPhrasePredicates
  | mmap m => m.hasPhrasePredicates

def intoMemory (tagDict : TagDict) : BaseSegment → Segment
  | memory s => s
  | mmap m => m.toMemorySegment tagDict

/-- The rows a match with fresh stamps emits. -/
def emitted (b : BaseSegment) (v : TitleView) (d : Dict) (lanes : ProbeLanes)
    (pred : TagPredicate) (emission : QueryPlacement → Bool) : List Nat :=
  (b.matchCollect v d 1 lanes pred emission (List.replicate b.length 0)).out

end BaseSegment

/-! ## tombstones of a mapped segment -/

namespace Segment

section Tombstone

variable (seg : Segment) (i : Nat)

@[simp] theorem rows_tombstone : (seg.tombstone i).rows = seg.rows := map_row_tombstone seg i

@[simp] theorem length_tombstone : (seg.tombstone i).length = seg.length := by
  have hrows := congrArg List.length (seg.rows_tombstone i)
  rwa [rows, rows, length_map, length_map] at hrows

theorem map_tombstone_eq {α : Type} (f : Entry → α)
    (hf : ∀ e : Entry, f { e with alive := false } = f e) :
    (seg.tombstone i).entries.map f = seg.entries.map f := by
  unfold tombstone
  split
  · rfl
  · next e he =>
    obtain ⟨hlt, rfl⟩ := List.getElem?_eq_some_iff.mp he
    have hget : (seg.entries.map f)[i]? = some (f seg.entries[i]) := by
      rw [getElem?_map, he, Option.map_some]
    obtain ⟨hlt', hget⟩ := List.getElem?_eq_some_iff.mp hget
    rw [map_set, hf, ← hget, set_getElem_self]

theorem any_tombstone_eq (p : Entry → Bool)
    (hp : ∀ e : Entry, p { e with alive := false } = p e) :
    (seg.tombstone i).entries.any p = seg.entries.any p := by
  have hmap := congrArg (List.any · id) (seg.map_tombstone_eq i p hp)
  simpa only [any_map, Function.id_comp] using hmap

@[simp] theorem quotedRows_tombstone : (seg.tombstone i).quotedRows = seg.quotedRows := by
  unfold tombstone
  split <;> rfl

@[simp] theorem dupMembers_tombstone : (seg.tombstone i).dupMembers = seg.dupMembers := by
  unfold tombstone
  split <;> rfl

@[simp] theorem hasDupGroups_tombstone : (seg.tombstone i).hasDupGroups = seg.hasDupGroups := by
  rw [hasDupGroups, dupMembers_tombstone, hasDupGroups]

@[simp] theorem logicalIndex_tombstone : (seg.tombstone i).logicalIndex = seg.logicalIndex := by
  unfold tombstone
  split <;> rfl

@[simp] theorem compilerSemanticsVersion_tombstone :
    (seg.tombstone i).compilerSemanticsVersion = seg.compilerSemanticsVersion := by
  unfold tombstone
  split <;> rfl

@[simp] theorem hasHotClass_tombstone : (seg.tombstone i).hasHotClass = seg.hasHotClass :=
  seg.any_tombstone_eq i _ fun _ => rfl

@[simp] theorem exactLayout_tombstone : (seg.tombstone i).exactLayout = seg.exactLayout := by
  simp only [exactLayout, quotedRows_tombstone, rows_tombstone]

@[simp] theorem formatVersion_tombstone : (seg.tombstone i).formatVersion = seg.formatVersion := by
  have hclassD : (seg.tombstone i).hasClassD = seg.hasClassD := seg.any_tombstone_eq i _ fun _ => rfl
  simp only [formatVersion, laneFormatVersion, exactLayout_tombstone, hasHotClass_tombstone,
    hclassD]

@[simp] theorem freezeIndex_tombstone (lane : ProbeLane) :
    (seg.tombstone i).freezeIndex lane = seg.freezeIndex lane := by
  have hrun : (seg.tombstone i).frozenRun = seg.frozenRun := by
    funext p
    simp only [frozenRun, hasDupGroups_tombstone, membersOf_tombstone]
  simp only [freezeIndex, frozenRuns, index_tombstone, hrun]

@[simp] theorem logicalPairs_tombstone : (seg.tombstone i).logicalPairs = seg.logicalPairs := by
  simp only [logicalPairs, logicalIndex_tombstone]

@[simp] theorem tagSpans_tombstone : (seg.tombstone i).tagSpans = seg.tagSpans := by
  simp only [tagSpans, rows_tombstone]

@[simp] theorem map_toByte_tombstone :
    ((seg.tombstone i).entries.map fun e => e.cls.toByte) = seg.entries.map fun e => e.cls.toByte :=
  seg.map_tombstone_eq i _ fun _ => rfl

theorem map_alive_tombstone :
    (seg.tombstone i).entries.map Entry.alive = (seg.entries.map Entry.alive).set i false := by
  unfold tombstone
  split
  · next hnone =>
    rw [set_eq_of_length_le]
    rw [length_map]
    exact List.getElem?_eq_none_iff.mp hnone
  · rw [map_set]

end Tombstone

/-! ### the file of a tombstoned segment -/

theorem length_encodeColumns_pair {xs ys zs : List UInt8} (h : ys.length = zs.length) :
    (encodeColumns [⟨.u8, xs⟩, ⟨.u8, ys⟩]).length =
      (encodeColumns [⟨.u8, xs⟩, ⟨.u8, zs⟩]).length := by
  simp [encodeColumns, length_encodeArray, h]

theorem length_metaColumns_tombstone (seg : Segment) (i : Nat) :
    (encodeColumns (seg.tombstone i).metaColumns).length =
      (encodeColumns seg.metaColumns).length := by
  unfold metaColumns
  rw [map_toByte_tombstone]
  refine length_encodeColumns_pair ?_
  rw [length_map, length_map]
  exact seg.length_tombstone i

theorem length_writeSegment_tombstone (seg : Segment) (i : Nat) :
    (seg.tombstone i).writeSegment.length = seg.writeSegment.length := by
  rw [length_writeSegment, length_writeSegment, length_content, length_content]
  simp [sectionBlocks, rows_tombstone, exactLayout_tombstone, freezeIndex_tombstone,
    filter_tombstone, logicalColumns, logicalPairs_tombstone, tagSpans_tombstone,
    hasHotClass_tombstone, length_metaColumns_tombstone]

theorem Addressable.tombstone {seg : Segment} (h : seg.Addressable) (i : Nat) :
    (seg.tombstone i).Addressable where
  exact := by
    rw [rows_tombstone, formatVersion_tombstone]
    exact h.exact
  index lane := by
    rw [freezeIndex_tombstone]
    exact h.index lane
  blocks f hf := h.blocks f (by rwa [filter_tombstone] at hf)
  classes := by
    have hfit := h.classes
    simp only [metaColumns, columnsFit_cons, length_map] at hfit ⊢
    have hlen := seg.length_tombstone i
    rw [length, length] at hlen
    rwa [hlen]
  logical := by
    simp only [logicalColumns, logicalPairs_tombstone]
    exact h.logical
  tags := by
    rw [tagSpans_tombstone]
    exact h.tags
  file := by
    rw [length_writeSegment_tombstone]
    exact h.file

/-- Clearing a flag takes its place out of a count over both columns. -/
theorem countP_range_set {alive : List Bool} {p : Nat → Bool} {i n : Nat} (hi : i < alive.length) :
    ((List.range n).countP fun j => (alive.set i false).getD j false && p j) +
      (if i < n && alive.getD i false && p i then 1 else 0) =
    (List.range n).countP fun j => alive.getD j false && p j := by
  induction n with
  | zero => simp
  | succ n ih =>
    rw [range_succ, countP_append, countP_append, ← ih]
    by_cases hin : i = n
    · subst hin
      cases halive : alive.getD i false <;> cases hp : p i <;> simp_all
    · have hne : (alive.set i false).getD n false = alive.getD n false := by
        rw [getD_eq_getElem?_getD, getElem?_set_ne hin, ← getD_eq_getElem?_getD]
      have hlt : (i < n + 1) = (i < n) := by
        apply propext
        omega
      simp only [countP_singleton, hne, hlt]
      omega

theorem hasPhrases_of_length_le (seg : Segment) {i : Nat}
    (h : seg.mapped.cols.predicate.off.length ≤ i) :
    predicateHasPhrases (Count.u32.rowAt seg.mapped.cols.predicate i) = false := by
  have hlen : seg.mapped.cols.predicate.len.length = seg.mapped.cols.predicate.off.length := by
    simp only [mapped, ExactColumns.atVersion]
    split
    · rw [ExactColumns.ofRows, Count.length_len_layOut, Count.length_off_layOut]
    · rfl
  have hrow : Count.u32.rowAt seg.mapped.cols.predicate i = [] := by
    have hnone : seg.mapped.cols.predicate.len[i]? = none := getElem?_eq_none (hlen ▸ h)
    rw [Count.rowAt, hnone]
    rfl
  rw [hrow]
  rfl

theorem livePhrasePredicates_mapped_set (seg : Segment) {i : Nat} {alive : Bool}
    (h : seg.mapped.alive[i]? = some alive) :
    ((List.range seg.mapped.cols.predicate.off.length).countP fun j =>
      (seg.mapped.alive.set i false).getD j false
        && predicateHasPhrases (Count.u32.rowAt seg.mapped.cols.predicate j)) =
    seg.mapped.livePhrasePredicates -
      (if alive && (seg.mapped.row i).hasPhrases then 1 else 0) := by
  have hcount := @countP_range_set seg.mapped.alive
    (fun j => predicateHasPhrases (Count.u32.rowAt seg.mapped.cols.predicate j)) i
    seg.mapped.cols.predicate.off.length (List.getElem?_eq_some_iff.mp h).1
  have hget : seg.mapped.alive.getD i false = alive := by
    rw [getD_eq_getElem?_getD, h, Option.getD_some]
  have hcond : (i < seg.mapped.cols.predicate.off.length && seg.mapped.alive.getD i false
      && predicateHasPhrases (Count.u32.rowAt seg.mapped.cols.predicate i)) =
      (alive && (seg.mapped.row i).hasPhrases) := by
    show _ = (alive && predicateHasPhrases (Count.u32.rowAt seg.mapped.cols.predicate i))
    rw [hget]
    by_cases hlt : i < seg.mapped.cols.predicate.off.length
    · simp [hlt]
    · simp [hasPhrases_of_length_le seg (Nat.le_of_not_lt hlt)]
  rw [hcond] at hcount
  exact Nat.eq_sub_of_add_eq hcount

/-- **A tombstone on the mapped file is a tombstone on the segment.** -/
theorem mapped_tombstone (seg : Segment) (i : Nat) :
    (seg.tombstone i).mapped = seg.mapped.tombstone i := by
  have hcommon : (seg.tombstone i).mapped = { seg.mapped with
      alive := seg.mapped.alive.set i false
      aliveCounter := (seg.mapped.alive.set i false).count true
      livePhrasePredicates :=
        (List.range seg.mapped.cols.predicate.off.length).countP fun j =>
          (seg.mapped.alive.set i false).getD j false
            && predicateHasPhrases (Count.u32.rowAt seg.mapped.cols.predicate j) } := by
    simp only [mapped, map_alive_tombstone, formatVersion_tombstone, rows_tombstone,
      length_tombstone, tagSpans_tombstone, freezeIndex_tombstone, hasHotClass_tombstone,
      filter_tombstone, map_toByte_tombstone, logicalPairs_tombstone,
      compilerSemanticsVersion_tombstone]
  rw [hcommon, MmapSegment.tombstone]
  cases hget : seg.mapped.alive[i]? with
  | none =>
    rw [set_eq_of_length_le (List.getElem?_eq_none_iff.mp hget)]
    rfl
  | some alive =>
    obtain ⟨hlt, hval⟩ := List.getElem?_eq_some_iff.mp hget
    rw [livePhrasePredicates_mapped_set seg hget, count_set hlt, hval]
    cases alive <;> cases (seg.mapped.row i).hasPhrases <;> rfl

end Segment

/-! ## the base segments of an engine -/

namespace BaseSegment

/-- The base segments an engine can have while its dictionary is `d`. -/
inductive Attached (d : Dict) : BaseSegment → Prop where
  | memory {seg : Segment} (hseg : Segment.Produced d seg) : Attached d (.memory seg)
  | opened {seg : Segment} {path : String} {m : MmapSegment} (hseg : Segment.Produced d seg)
      (ha : seg.Addressable) (hopen : openSegment path seg.writeSegment = .ok m) :
      Attached d (.mmap m)
  | tombstone {b : BaseSegment} (hb : Attached d b) (i : Nat) : Attached d (b.tombstone i)

section Attached

variable {d : Dict} {b : BaseSegment}

/-- **A base segment stands for a segment in memory.** -/
theorem Attached.backing (h : b.Attached d) :
    ∃ seg, Segment.Produced d seg ∧
      (b = .memory seg ∨ seg.Addressable ∧ b = .mmap seg.mapped) := by
  induction h with
  | @memory seg hseg => exact ⟨seg, hseg, .inl rfl⟩
  | @opened seg path m hseg ha hopen =>
    have hm := Segment.openSegment_writeSegment (hseg.valid (.refl d)).kept ha path
    rw [hopen] at hm
    cases hm
    exact ⟨seg, hseg, .inr ⟨ha, rfl⟩⟩
  | tombstone _ i ih =>
    obtain ⟨seg, hseg, rfl | ⟨ha, rfl⟩⟩ := ih
    · exact ⟨seg.tombstone i, hseg.tombstone i, .inl rfl⟩
    · refine ⟨seg.tombstone i, hseg.tombstone i, .inr ⟨ha.tombstone i, ?_⟩⟩
      rw [BaseSegment.tombstone, Segment.mapped_tombstone]

theorem Attached.produced (h : b.Attached d) (tagDict : TagDict) :
    Segment.Produced d (b.intoMemory tagDict) := by
  obtain ⟨seg, hseg, rfl | ⟨ha, rfl⟩⟩ := h.backing
  · exact hseg
  · exact hseg.copied ha tagDict

end Attached

theorem one_notMem_replicate (n : Nat) : (1 : UInt32) ∉ List.replicate n 0 := by
  intro h
  exact absurd (eq_of_mem_replicate h) (by decide)

theorem mem_emitted_memory {seg : Segment} (hg : seg.Grouped) {v : TitleView} {d : Dict}
    {lanes : ProbeLanes} {pred : TagPredicate} {emission : QueryPlacement → Bool} :
    ((memory seg).emitted v d lanes pred emission).Nodup ∧
    ∀ i, i ∈ (memory seg).emitted v d lanes pred emission ↔
      ∃ e, seg.entries[i]? = some e ∧ e.alive = true ∧ e.row.verify v pred = true ∧
        emission e.row.placement = true ∧ seg.Reaches v d lanes e.dupOf :=
  hg.mem_matchCollect (by rw [length, length_replicate]) (one_notMem_replicate _)

/-- **A base segment emits the rows of what a merge reads.** -/
theorem Attached.emitted_perm {d : Dict} {b : BaseSegment} (h : b.Attached d) (tagDict : TagDict)
    (v : TitleView) (dt : Dict) (lanes : ProbeLanes) (pred : TagPredicate)
    (emission : QueryPlacement → Bool) :
    (b.emitted v dt lanes pred emission).Perm
      ((BaseSegment.memory (b.intoMemory tagDict)).emitted v dt lanes pred emission) := by
  obtain ⟨seg, hseg, rfl | ⟨ha, rfl⟩⟩ := h.backing
  · exact List.Perm.refl _
  · have hvalid := hseg.valid (.refl d)
    have hseen : seg.length ≤ (List.replicate seg.length (0 : UInt32)).length := by
      rw [length_replicate]
    have hmapped := @Segment.matchCollect_mapped_perm seg v dt 1 lanes pred emission
      hvalid.grouped hvalid.kept ha _ hseen (one_notMem_replicate _)
    have hcopy := @Segment.matchCollect_copy_perm seg hvalid.kept ha tagDict hvalid.grouped v dt 1
      lanes pred emission _ hseen (one_notMem_replicate _)
    show List.Perm _ ((seg.copy tagDict).matchCollect v dt 1 lanes pred emission
      (List.replicate (seg.copy tagDict).length 0)).out
    rw [Segment.length_copy]
    exact hmapped.trans hcopy.symm

end BaseSegment

/-! ## the round trip through the file -/

namespace Segment

/-- **Segment file round trip.**  The file of a segment opens; the opened
segment has its rows, classes, liveness and reverse index and emits the rows
it emits, and so does the copy read back into memory, whose rows differ at
most in a priority spelled out from legacy tags. -/
theorem reopen_agrees (d : Dict) (seg : Segment) (path : String) (tagDict : TagDict)
    (hseg : Produced d seg) (ha : seg.Addressable) :
    ∃ m, openSegment path seg.writeSegment = .ok m ∧ m.length = seg.length ∧
      (∀ (i : Nat) (e : Entry), seg.entries[i]? = some e →
        m.row i = e.row ∧ m.classOf i = e.cls ∧ m.isAlive i = e.alive) ∧
      (∀ id, (m.localsForLogical id).map UInt32.toNat = seg.localsForLogical id) ∧
      (m.toMemorySegment tagDict).length = seg.length ∧
      (∀ (i : Nat) (e : Entry), seg.entries[i]? = some e → ∃ priority,
        (m.toMemorySegment tagDict).entries[i]? =
          some ⟨{ e.row with priority }, e.cls, e.alive, i⟩ ∧
        tagDict.effectivePriority { e.row with priority } = tagDict.effectivePriority e.row) ∧
      ∀ (v : TitleView) (dt : Dict) (epoch : UInt32) (lanes : ProbeLanes) (pred : TagPredicate)
        (emission : QueryPlacement → Bool) (seen : List UInt32),
        seg.length ≤ seen.length → epoch ∉ seen →
          (m.matchCollect v dt epoch lanes pred emission seen).out.Perm
            (seg.matchCollect v dt epoch lanes pred emission seen).out ∧
          ((m.toMemorySegment tagDict).matchCollect v dt epoch lanes pred emission seen).out.Perm
            (seg.matchCollect v dt epoch lanes pred emission seen).out := by
  have hvalid := hseg.valid (.refl d)
  have hk := hvalid.kept
  refine ⟨seg.mapped, openSegment_writeSegment hk ha path, rfl, fun i e he => ?_,
    localsForLogical_mapped hk ha, length_copy tagDict, fun i e he => ?_,
    fun v dt epoch lanes pred emission seen hseen hfresh => ?_⟩
  · exact ⟨row_mapped he hk ha, classOf_mapped he, isAlive_mapped he⟩
  · have hcopy := getElem?_copy hk ha tagDict i
    rw [he] at hcopy
    exact ⟨(seg.copiedRow tagDict e.row).priority, hcopy, effectivePriority_copiedRow tagDict he⟩
  · exact ⟨matchCollect_mapped_perm hvalid.grouped hk ha hseen hfresh,
      matchCollect_copy_perm hk ha tagDict hvalid.grouped hseen hfresh⟩

/-! ### a tagged row of priority zero -/

/-- The query `charm`, tagged. -/
def taggedWordRequest : AddRequest where
  ex := { required := [0] }
  tags := [0]
  dict := oneWordDict
  logical := 7
  version := 1
  priority := 0
  placement := .standalone
  sourceGeneration := 0
  knobs := ⟨true, 0, false, false⟩

/-- The segment holding only that query. -/
def taggedWordSegment : Segment :=
  new.lead taggedWordRequest.row taggedWordRequest.plan false false

theorem taggedWordRequest_wellformed : taggedWordRequest.ex.Wellformed where
  ranked := by decide
  conjunctions c hc := absurd hc not_mem_nil
  graphs g hg := absurd hg not_mem_nil

theorem taggedWordRequest_admissible : taggedWordRequest.Admissible oneWordDict where
  storable := ⟨by decide, taggedWordRequest_wellformed, by decide, by decide⟩
  frozen := .refl _

theorem taggedWordSegment_produced : Produced oneWordDict taggedWordSegment := by
  have haccept : rejectsClassD taggedWordRequest.plan.cls taggedWordRequest.ex
      taggedWordRequest.knobs.acceptClassD = false := by decide
  refine .add (.new _) rfl taggedWordRequest_admissible
    (r := ⟨0, taggedWordRequest.plan.cls, taggedWordRequest.plan.wouldBeHot,
      taggedWordRequest.row.body.signature, false⟩) ?_
  unfold addCompiled
  simp only [haccept, Bool.false_eq_true, if_false]
  rfl

theorem taggedWordSegment_addressable : taggedWordSegment.Addressable where
  exact := by decide
  index lane := by cases lane <;> decide
  blocks f hf := by contradiction
  classes := by decide
  logical := by decide
  tags := by decide
  file := by
    rw [length_writeSegment, length_content]
    decide +kernel

theorem reopen_agrees_taggedWord :
    ∃ m, openSegment "seg_000001.seg" taggedWordSegment.writeSegment = .ok m ∧
      (m.localsForLogical 7).map UInt32.toNat = [0] := by
  obtain ⟨m, hopen, -, -, hlocals, -⟩ := reopen_agrees oneWordDict taggedWordSegment
    "seg_000001.seg" ⟨[some 5]⟩ taggedWordSegment_produced taggedWordSegment_addressable
  exact ⟨m, hopen, (hlocals 7).trans (by decide)⟩

/-- With a tag that spells a legacy priority, the copy of a row stored with
priority zero has that priority. -/
theorem toMemorySegment_spells_priority :
    Produced oneWordDict taggedWordSegment ∧ taggedWordSegment.Addressable ∧
    openSegment "seg_000001.seg" taggedWordSegment.writeSegment = .ok taggedWordSegment.mapped ∧
    (taggedWordSegment.entries[0]?.map fun e => e.row.priority) = some 0 ∧
    ((taggedWordSegment.mapped.toMemorySegment ⟨[some 5]⟩).entries[0]?.map
      fun e => e.row.priority) = some 5 := by
  have hk := (taggedWordSegment_produced.valid (.refl _)).kept
  refine ⟨taggedWordSegment_produced, taggedWordSegment_addressable,
    openSegment_writeSegment hk taggedWordSegment_addressable _, rfl, ?_⟩
  have hcopy := getElem?_copy hk taggedWordSegment_addressable ⟨[some 5]⟩ 0
  have hpriority : (taggedWordSegment.copiedRow ⟨[some 5]⟩ taggedWordRequest.row).priority = 5 := by
    decide
  rw [copy] at hcopy
  rw [hcopy]
  exact congrArg some hpriority

end Segment

end ReverseRusty
