import ReverseRusty.Produced

/-!
# ReverseRusty.Posted

Where the postings of a segment come from.  A posting is made when a row
leads, under the signatures its request or a merge planned for it, and is
carried along with the row from then on.  `Produced.postedAs` is the
induction: what holds of planned signatures, and survives the sharing of
bodies and the growth of the dictionary, holds of every posting.
-/

namespace ReverseRusty

open List

/-- The mask bits of a body are ones `d` gave. -/
def Body.MaskKnown (d : Dict) (b : Body) : Prop :=
  ∀ k < 64, b.reqMask.getLsbD k = true → ∃ f, d.isHot f = true ∧ d.maskBit f = k

namespace Segment

/-- Every posted row is one `J` allows under its key. -/
def PostedAs (J : ProbeLane → UInt64 → Body → Prop) (seg : Segment) : Prop :=
  ∀ lane key, ∀ i ∈ (seg.index lane).postings key,
    ∃ e, seg.entries[i]? = some e ∧ J lane key e.row.body

/-! ## appends and seals -/

section Append

variable {J : ProbeLane → UInt64 → Body → Prop} {seg : Segment} {row : Row} {quoted : Bool}

theorem postedAs_new : new.PostedAs J := by
  intro lane key i hi
  cases lane <;> simp [index, new] at hi

variable {seg' : Segment}

theorem PostedAs.of_append (h : seg.PostedAs J) {es : List Entry}
    (hentries : seg'.entries = seg.entries ++ es)
    (hindex : ∀ lane key, ∀ i ∈ (seg'.index lane).postings key,
      i ∈ (seg.index lane).postings key ∨ ∃ e, seg'.entries[i]? = some e ∧ J lane key e.row.body) :
    seg'.PostedAs J := by
  intro lane key i hi
  rcases hindex lane key i hi with hold | hnew
  · obtain ⟨e, he, hJ⟩ := h lane key i hold
    refine ⟨e, ?_, hJ⟩
    rw [hentries, getElem?_append_left (List.getElem?_eq_some_iff.mp he).1, he]
  · exact hnew

theorem PostedAs.join (h : seg.PostedAs J) {l : Nat} {cls : CostClass} :
    (seg.join l row cls quoted).PostedAs J :=
  h.of_append rfl fun lane key i hi => .inl (by rwa [index_join] at hi)

theorem PostedAs.lead (h : seg.PostedAs J) {plan : SigPlan} {dedup : Bool}
    (hplan : ∀ lane, ∀ key ∈ plan.sigs lane, J lane key row.body) :
    (seg.lead row plan dedup quoted).PostedAs J := by
  refine h.of_append rfl fun lane key i hi => ?_
  rw [index_lead, CandidateIndex.mem_postings_insertAll] at hi
  rcases hi with hold | ⟨hkey, rfl⟩
  · exact .inl hold
  · exact .inr ⟨_, getElem?_concat.mpr (.inr ⟨rfl, rfl⟩), hplan lane key hkey⟩

theorem PostedAs.tombstone (h : seg.PostedAs J) (i : Nat) : (seg.tombstone i).PostedAs J := by
  intro lane key j hj
  rw [index_tombstone] at hj
  obtain ⟨e, he, hJ⟩ := h lane key j hj
  obtain ⟨b, he'⟩ := tombstone_getElem? he i
  exact ⟨{ e with alive := b }, he', hJ⟩

theorem PostedAs.of_rows (h : seg.PostedAs J) (hentries : seg'.entries = seg.entries)
    (hindex : ∀ lane, seg'.index lane = seg.index lane) : seg'.PostedAs J := by
  intro lane key i hi
  rw [hentries]
  exact h lane key i (hindex lane ▸ hi)

end Append

/-! ## rows that share a posting -/

section Shared

variable {J : ProbeLane → UInt64 → Body → Prop} {src : Segment} (hsrc : src.PostedAs J)
  (hshared : ∀ lane key a b, Body.bodiesEqual a b = true → J lane key a → J lane key b)
  (hg : src.Grouped)

include hsrc hshared hg

variable {i : Nat} {lane : ProbeLane} {key : UInt64}

theorem PostedAs.member {e : Entry} (he : src.entries[i]? = some e)
    (hpost : e.dupOf ∈ (src.index lane).postings key) : J lane key e.row.body := by
  obtain ⟨l, hl, -, -, hbody⟩ := hg.leader i e he
  obtain ⟨l', hl', hJ⟩ := hsrc lane key _ hpost
  rw [hl] at hl'
  cases hl'
  exact hshared lane key _ _ hbody hJ

theorem PostedAs.carried (hi : i ∈ src.carried lane key) :
    ∃ e, src.entries[i]? = some e ∧ J lane key e.row.body := by
  obtain ⟨e, he, hpost⟩ := hg.mem_carried.mp hi
  exact ⟨e, he, hsrc.member hshared hg he hpost⟩

theorem PostedAs.coverOf {e : Entry} (he : e ∈ src.liveEntries) :
    ∀ lane, ∀ key ∈ (src.coverOf e).sigs lane, J lane key e.row.body := by
  intro lane key hkey
  obtain ⟨i, hi⟩ := mem_iff_getElem?.mp (mem_filter.mp he).1
  exact hsrc.member hshared hg hi (mem_sigs_coverOf.mp hkey)

end Shared

/-! ## merges -/

theorem foldl_keeps {α β : Type} {P : α → Prop} {f : α → β → α} {xs : List β}
    (hf : ∀ a, ∀ x ∈ xs, P a → P (f a x)) {a : α} (ha : P a) : P (xs.foldl f a) := by
  induction xs generalizing a with
  | nil => exact ha
  | cons x xs ih =>
    exact ih (fun a y hy => hf a y (mem_cons_of_mem x hy)) (hf a x mem_cons_self ha)

section Merge

variable {J : ProbeLane → UInt64 → Body → Prop} {src dest : Segment} {e : Entry}
  (hcarried : ∀ lane, ∀ key ∈ (src.coverOf e).sigs lane, J lane key e.row.body)

include hcarried

theorem PostedAs.regroup (h : dest.PostedAs J) : (regroup src dest e).PostedAs J := by
  unfold Segment.regroup
  split
  · exact h.join
  · exact h.lead hcarried

theorem PostedAs.copyRow {d : Dict} {theta maxMoves : Nat} {s : Reanchoring}
    (hreplan : ∀ lane, ∀ key ∈ (buildSignatures (e.row.body.anchoringInputs d) d theta).sigs lane,
      J lane key e.row.body)
    (h : s.dest.PostedAs J) : (Reanchoring.copyRow d theta maxMoves src s e).dest.PostedAs J := by
  unfold Reanchoring.copyRow
  split
  · exact h.join
  · split
    · exact h.lead hcarried
    · refine h.lead ?_
      split
      · exact hcarried
      · exact hreplan

end Merge

theorem PostedAs.mergeRemapped {J : ProbeLane → UInt64 → Body → Prop} {src dest : Segment}
    (hsrc : src.PostedAs J) (h : dest.PostedAs J) : (dest.mergeRemapped src).PostedAs J := by
  refine h.of_append (copiedLive_copyLive dest src).entries fun lane key n hn => ?_
  rcases mem_postings_mergeRemapped.mp hn with hold | ⟨e, old, k, hlive, hk, hpost⟩
  · exact .inl hold
  · obtain ⟨e', he', hJ⟩ := hsrc lane key old hpost
    rw [(getElem?_of_liveAt hlive).1] at he'
    cases he'
    exact .inr ⟨_, getElem?_mergeRemapped.mpr (.inr ⟨e, old, k, hlive, hk, rfl⟩), hJ⟩

/-! ## every segment -/

/-- What may be said of a posting: it holds of planned signatures, old and
new, for the bodies that share them, and as the dictionary grows. -/
structure PostingRule (J : Dict → ProbeLane → UInt64 → Body → Prop) : Prop where
  planned : ∀ (d : Dict) (req : AddRequest), req.Admissible d →
    ∀ lane, ∀ key ∈ req.plan.sigs lane, J d lane key req.row.body
  replanned : ∀ (d : Dict) (theta : Nat) (b : Body), b.MaskKnown d →
    ∀ lane, ∀ key ∈ (buildSignatures (b.anchoringInputs d) d theta).sigs lane, J d lane key b
  shared : ∀ d lane key a b, Body.bodiesEqual a b = true → J d lane key a → J d lane key b
  grow : ∀ d d' lane key b, Dict.MaskFrozen d d' → J d lane key b → J d' lane key b

section Rule

variable {J : Dict → ProbeLane → UInt64 → Body → Prop} (hJ : PostingRule J) {d : Dict}

include hJ

theorem PostingRule.compact {sources : List Segment} (hsources : ∀ src ∈ sources, Produced d src)
    (hposted : ∀ src ∈ sources, src.PostedAs (J d)) (reanchor : Option Reanchor) :
    (compact sources d reanchor).PostedAs (J d) := by
  have hgrouped : ∀ src ∈ sources, src.Grouped := fun src hs =>
    ((hsources src hs).valid (.refl d)).grouped
  have hsealed : ∀ dest : Segment, dest.PostedAs (J d) → (sealMerged sources dest).PostedAs (J d) :=
    fun dest h => h.of_rows entries_sealMerged index_sealMerged
  cases reanchor with
  | some r =>
    let keeps : Reanchoring → Prop := fun s => s.dest.PostedAs (J d)
    refine hsealed _ (foldl_keeps (P := keeps) (fun s src hs h =>
      foldl_keeps (P := keeps) (fun s e he h => ?_) h) postedAs_new)
    refine PostedAs.copyRow ((hposted src hs).coverOf (hJ.shared d) (hgrouped src hs) he) ?_ h
    exact hJ.replanned d r.theta e.row.body
      ((hsources src hs).valid_of_maskFrozen.1 e (mem_filter.mp he).1)
  | none =>
    show (compactFrom sources).PostedAs (J d)
    unfold compactFrom
    split
    · exact hsealed _ (foldl_keeps (fun dest src hs h => foldl_keeps (fun dest e he h =>
        PostedAs.regroup ((hposted src hs).coverOf (hJ.shared d) (hgrouped src hs) he) h) h)
        postedAs_new)
    · exact hsealed _ (foldl_keeps (fun dest src hs h =>
        PostedAs.mergeRemapped (hposted src hs) h) postedAs_new)

/-- **Every posting was planned.** -/
theorem Produced.postedAs {seg : Segment} (h : Produced d seg) : seg.PostedAs (J d) := by
  induction h with
  | new d => exact postedAs_new
  | @add d seg seg' req r _ _ hreq hadd ih =>
    rcases addCompiled_cases hadd with ⟨l, e, -, -, -, -, rfl⟩ | rfl
    · exact ih.join
    · exact ih.lead (hJ.planned d req hreq)
  | tombstone _ i ih => exact ih.tombstone i
  | buildFilter _ ih => exact ih.of_rows rfl fun lane => index_buildFilter _ lane
  | compact hsources reanchor ih => exact hJ.compact hsources ih reanchor
  | @copied d seg hseg ha tagDict ih =>
    have hvalid := hseg.valid (.refl d)
    intro lane key i hi
    rw [mem_postings_copy hvalid.kept ha tagDict hvalid.grouped] at hi
    obtain ⟨e, he, hallowed⟩ := ih.carried (hJ.shared d) hvalid.grouped hi
    have hcopy := getElem?_copy hvalid.kept ha tagDict i
    rw [he] at hcopy
    exact ⟨_, hcopy, hallowed⟩
  | @grow d d' seg _ hd ih =>
    intro lane key i hi
    obtain ⟨e, he, hallowed⟩ := ih lane key i hi
    exact ⟨e, he, hJ.grow d d' lane key _ hd hallowed⟩

end Rule

end Segment

end ReverseRusty
