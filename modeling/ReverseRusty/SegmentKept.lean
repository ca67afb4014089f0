import ReverseRusty.Segment

/-!
# ReverseRusty.SegmentKept

The bookkeeping of a segment, beside its groups and postings: what its rows
are made of, the flags and counters kept beside them, and the reverse index
from logical ids to rows.

`Kept` is the invariant; `Kept.add`, `Kept.tombstone` and `Kept.buildFilter`
say that the write path keeps it.
-/

namespace ReverseRusty

open List

namespace Segment

/-- A segment's flags, counters and reverse index agree with its rows. -/
structure Kept (seg : Segment) : Prop where
  sound : ∀ (i : Nat) (e : Entry), seg.entries[i]? = some e → e.row.Sound
  quoted : seg.quotedRows = seg.entries.any fun e => e.row.hasPhrases
  /-- no key is the vacant key of a frozen table -/
  keys : ∀ lane key, key ∈ (seg.index lane).keys → key ≠ 0
  alive : seg.aliveCounter = seg.entries.countP Entry.alive
  phrases : seg.livePhrasePredicates = seg.entries.countP fun e => e.alive && e.row.hasPhrases
  /-- a logical id's rows are listed in order -/
  ascending : ∀ id, (seg.localsForLogical id).Pairwise (· < ·)
  logical : ∀ id (i : Nat), i ∈ seg.localsForLogical id →
    ∃ e, seg.entries[i]? = some e ∧ e.row.logical = id
  /-- every live row is listed -/
  listed : ∀ (i : Nat) (e : Entry), seg.entries[i]? = some e → e.alive = true →
    i ∈ seg.localsForLogical e.row.logical
  semantics : seg.compilerSemanticsVersion ≤ currentCompilerSemanticsVersion
  blocks : ∀ f, seg.filter = some f →
    f.data.length = f.numBlocks * wordsPerBlock ∧ f.mask = .ofNat (f.numBlocks - 1)

theorem kept_new : new.Kept where
  sound i e h := by simp [new] at h
  quoted := rfl
  keys lane key h := by cases lane <;> simp [index, new, CandidateIndex.new] at h
  alive := rfl
  phrases := rfl
  ascending id := List.Pairwise.nil
  logical id i h := by simp [localsForLogical, new] at h
  listed i e h := by simp [new] at h
  semantics := le_refl _
  blocks f h := by simp [new] at h

theorem Kept.hasPhrasePredicates_iff {seg : Segment} (hk : seg.Kept) :
    seg.hasPhrasePredicates = true ↔
      ∃ e ∈ seg.entries, e.alive = true ∧ e.row.hasPhrases = true := by
  rw [hasPhrasePredicates, hk.phrases, decide_eq_true_eq, Ne, countP_eq_zero]
  simp

section Append

variable {seg : Segment} {e : Entry} {row : Row} {cls : CostClass} {l : Nat}

theorem Kept.append (h : seg.Kept) (hrow : e.row.Sound) (halive : e.alive = true) :
    (seg.append e e.row.hasPhrases).Kept where
  sound i e' hi := by
    rcases getElem?_concat.mp hi with hi | ⟨-, rfl⟩
    · exact h.sound i e' hi
    · exact hrow
  quoted := by
    show (seg.quotedRows || e.row.hasPhrases) = (seg.entries ++ [e]).any _
    rw [h.quoted, any_append, any_cons, any_nil, Bool.or_false]
  keys lane key hkey := h.keys lane key (by rwa [index_append] at hkey)
  alive := by
    show seg.aliveCounter + 1 = (seg.entries ++ [e]).countP Entry.alive
    rw [h.alive, countP_append, countP_singleton, if_pos halive]
  phrases := by
    show seg.livePhrasePredicates + _ = (seg.entries ++ [e]).countP _
    rw [h.phrases, countP_append, countP_singleton, halive, Bool.true_and]
  ascending id := by
    show (Multimap.valuesOf (seg.logicalIndex.push e.row.logical seg.length) id).Pairwise (· < ·)
    rw [Multimap.valuesOf_push]
    split
    · rw [pairwise_append]
      refine ⟨h.ascending e.row.logical, pairwise_singleton _ _, fun i hi j hj => ?_⟩
      obtain ⟨e', he', -⟩ := h.logical _ i hi
      rw [mem_singleton.mp hj]
      exact (List.getElem?_eq_some_iff.mp he').1
    · exact h.ascending id
  logical id i hi := by
    rcases Multimap.mem_valuesOf_push.mp hi with hi | ⟨hid, hi⟩
    · obtain ⟨e', he', hlog⟩ := h.logical id i hi
      exact ⟨e', getElem?_concat.mpr (.inl he'), hlog⟩
    · exact ⟨e, getElem?_concat.mpr (.inr ⟨hi, rfl⟩), hid.symm⟩
  listed i e' hi hlive := by
    refine Multimap.mem_valuesOf_push.mpr ?_
    rcases getElem?_concat.mp hi with hold | ⟨hnew, rfl⟩
    · exact .inl (h.listed i e' hold hlive)
    · exact .inr ⟨rfl, hnew⟩
  semantics := h.semantics
  blocks := h.blocks

theorem Kept.join (h : seg.Kept) (hrow : row.Sound) : (seg.join l row cls row.hasPhrases).Kept :=
  let hnew := h.append (e := ⟨row, cls, true, l⟩) hrow rfl
  { sound := hnew.sound, quoted := hnew.quoted
    keys := fun lane key hkey => h.keys lane key (by rwa [index_join] at hkey)
    alive := hnew.alive, phrases := hnew.phrases, ascending := hnew.ascending
    logical := hnew.logical, listed := hnew.listed, semantics := hnew.semantics
    blocks := hnew.blocks }

theorem Kept.lead (h : seg.Kept) {plan : SigPlan} {dedup : Bool} (hrow : row.Sound)
    (hkeys : ∀ lane key, key ∈ plan.sigs lane → key ≠ 0) :
    (seg.lead row plan dedup row.hasPhrases).Kept :=
  let hnew := h.append (e := ⟨row, plan.cls, true, seg.length⟩) hrow rfl
  { sound := hnew.sound, quoted := hnew.quoted
    keys := fun lane key hkey => by
      rw [index_lead] at hkey
      rcases CandidateIndex.mem_keys_insertAll hkey with hkey | hkey
      · exact h.keys lane key hkey
      · exact hkeys lane key hkey
    alive := hnew.alive, phrases := hnew.phrases, ascending := hnew.ascending
    logical := hnew.logical, listed := hnew.listed, semantics := hnew.semantics
    blocks := hnew.blocks }

end Append

@[simp] theorem localsForLogical_tombstone (seg : Segment) (i : Nat) (id : UInt64) :
    (seg.tombstone i).localsForLogical id = seg.localsForLogical id := by
  unfold tombstone
  split <;> rfl

theorem map_row_tombstone (seg : Segment) (i : Nat) :
    (seg.tombstone i).entries.map Entry.row = seg.entries.map Entry.row := by
  unfold tombstone
  split
  · rfl
  · next e he =>
    refine ext_getElem? fun j => ?_
    simp only [getElem?_map]
    by_cases hij : i = j
    · rw [← hij, getElem?_set_self', he]
      rfl
    · rw [getElem?_set_ne hij]

theorem getElem?_of_alive_tombstone {seg : Segment} {i j : Nat} {e : Entry}
    (h : (seg.tombstone i).entries[j]? = some e) (halive : e.alive = true) :
    seg.entries[j]? = some e := by
  unfold tombstone at h
  split at h
  · exact h
  · by_cases hij : i = j
    · simp only [hij, getElem?_set_self'] at h
      obtain ⟨e₀, -, rfl⟩ := Option.map_eq_some_iff.mp h
      contradiction
    · simpa only [getElem?_set_ne hij] using h

theorem Kept.tombstone {seg : Segment} (h : seg.Kept) (i : Nat) : (seg.tombstone i).Kept where
  sound j e hj := by
    obtain ⟨e₀, he₀, heq⟩ := getElem?_tombstone hj
    rw [heq]
    exact h.sound j e₀ he₀
  quoted := by
    have hany : ∀ es : List Entry,
        (es.any fun e => e.row.hasPhrases) = (es.map Entry.row).any Row.hasPhrases := by
      intro es
      rw [any_map]
      rfl
    rw [hany, map_row_tombstone, ← hany, ← h.quoted]
    unfold Segment.tombstone
    split <;> rfl
  keys lane key hkey := h.keys lane key (by rwa [index_tombstone] at hkey)
  alive := by
    unfold Segment.tombstone
    split
    · exact h.alive
    · next e he =>
      obtain ⟨hlt, rfl⟩ := List.getElem?_eq_some_iff.mp he
      simp only [countP_set hlt, h.alive]
      split <;> simp_all
  phrases := by
    unfold Segment.tombstone
    split
    · exact h.phrases
    · next e he =>
      obtain ⟨hlt, rfl⟩ := List.getElem?_eq_some_iff.mp he
      simp only [countP_set hlt, h.phrases]
      split <;> simp_all
  ascending id := by
    rw [localsForLogical_tombstone]
    exact h.ascending id
  logical id j hj := by
    rw [localsForLogical_tombstone] at hj
    obtain ⟨e₀, he₀, hlog⟩ := h.logical id j hj
    obtain ⟨b, hb⟩ := tombstone_getElem? he₀ i
    exact ⟨_, hb, hlog⟩
  listed j e hj hlive := by
    rw [localsForLogical_tombstone]
    exact h.listed j e (getElem?_of_alive_tombstone hj hlive) hlive
  semantics := by
    unfold Segment.tombstone
    split
    · exact h.semantics
    · exact h.semantics
  blocks f hf := h.blocks f (by rwa [filter_tombstone] at hf)

theorem Kept.buildFilter {seg : Segment} (h : seg.Kept) : seg.buildFilter.Kept where
  sound := h.sound
  quoted := h.quoted
  keys lane key hkey := h.keys lane key (by rwa [index_buildFilter] at hkey)
  alive := h.alive
  phrases := h.phrases
  ascending := h.ascending
  logical := h.logical
  listed := h.listed
  semantics := h.semantics
  blocks f hf := by
    cases hf
    exact ⟨SegmentFilter.length_data_build _, SegmentFilter.mask_build _⟩

end Segment

namespace AddRequest

variable {req : AddRequest} {dt : Dict}

theorem sound_row (h : req.Admissible dt) : req.row.Sound where
  body := sound_compile h.storable req.dict
  tags := length_narrow_lt 16 req.tags

theorem quoted_eq (h : req.Admissible dt) : req.quoted = req.row.hasPhrases :=
  (predicateHasPhrases_compile h.storable req.dict).symm

theorem ne_zero_of_mem_plan {lane : ProbeLane} {key : UInt64} (h : key ∈ req.plan.sigs lane) :
    key ≠ 0 := by
  unfold plan at h
  simp only at h
  split at h
  · unfold SigPlan.pinVisible at h
    split at h
    · cases lane with
      | main =>
        rcases mem_append.mp h with h | h
        · exact @ne_zero_of_mem_sigs _ _ _ .main _ h
        · exact @ne_zero_of_mem_sigs _ _ _ .broad _ h
      | broad => contradiction
      | hot => exact @ne_zero_of_mem_sigs _ _ _ .hot _ h
    · exact ne_zero_of_mem_sigs h
  · exact ne_zero_of_mem_sigs h

end AddRequest

namespace Segment

/-- **An append keeps the books.** -/
theorem Kept.add {seg seg' : Segment} {dt : Dict} {req : AddRequest} {r : AddedCompiled}
    (h : seg.Kept) (hreq : req.Admissible dt) (hadd : seg.addCompiled req = some (r, seg')) :
    seg'.Kept := by
  have hrow := AddRequest.sound_row hreq
  rcases addCompiled_cases hadd with ⟨l, e, -, -, -, -, rfl⟩ | rfl
  · rw [AddRequest.quoted_eq hreq]
    exact h.join hrow
  · rw [AddRequest.quoted_eq hreq]
    exact h.lead hrow fun _ _ => AddRequest.ne_zero_of_mem_plan

end Segment

end ReverseRusty
