import ReverseRusty.MergeRemap

/-!
# ReverseRusty.Produced

The segments an engine can hold.  `Produced d seg` lists every way a segment
comes about while the dictionary grows to `d`: appends, tombstones, sealing,
merges, and copies read back from a file.
-/

namespace ReverseRusty

open List

/-! ## the dictionary grows -/

theorem Dict.MaskFrozen.trans {a b c : Dict} (hab : a.MaskFrozen b) (hbc : b.MaskFrozen c) :
    a.MaskFrozen c := by
  rcases hab with hnone | hab
  · exact .inl hnone
  · rcases hbc with hnone | hbc
    · exact .inl fun f => (hab f).trans (hnone f)
    · exact .inr fun f => (hab f).trans (hbc f)

theorem AddRequest.Admissible.grow {req : AddRequest} {d dt : Dict} (h : req.Admissible d)
    (hd : d.MaskFrozen dt) : req.Admissible dt :=
  ⟨h.storable, h.frozen.trans hd⟩

/-- The settings of a re-anchoring merge: the hot threshold and the cap on
moves between the main and the hot index. -/
structure Reanchor where
  theta : Nat
  maxMoves : Nat
deriving DecidableEq, Repr

namespace Segment

/-- The merge of a compaction, planning rows again when asked to. -/
def compact (sources : List Segment) (d : Dict) : Option Reanchor → Segment
  | some r => (compactFromReanchored sources d r.theta r.maxMoves).1
  | none => compactFrom sources

/-! ## sealing -/

section Seal

variable {dt : Dict} {seg dest : Segment} {sources : List Segment}

theorem Valid.tombstone (h : seg.Valid dt) (i : Nat) : (seg.tombstone i).Valid dt :=
  ⟨h.grouped.tombstone i, h.covers.tombstone i, h.kept.tombstone i, h.replannable.tombstone i⟩

theorem Valid.buildFilter (h : seg.Valid dt) : seg.buildFilter.Valid dt :=
  ⟨h.grouped.buildFilter, h.covers.buildFilter, h.kept.buildFilter, h.replannable⟩

theorem Valid.withSemantics (h : seg.Valid dt) {version : UInt32}
    (hversion : version ≤ currentCompilerSemanticsVersion) :
    { seg with compilerSemanticsVersion := version }.Valid dt where
  grouped := h.grouped.withSemantics version
  covers i e he hlead v hv hverify hopen := by
    rw [index_withSemantics]
    exact h.covers i e he hlead v hv hverify hopen
  kept := h.kept.withSemantics version hversion
  replannable := h.replannable

theorem oldestSemantics_le (hsources : ∀ src ∈ sources, src.Kept) :
    (sources.map compilerSemanticsVersion).min?.getD currentCompilerSemanticsVersion ≤
      currentCompilerSemanticsVersion := by
  cases hmin : (sources.map compilerSemanticsVersion).min? with
  | none => exact le_refl _
  | some version =>
    obtain ⟨src, hsrc, rfl⟩ := mem_map.mp (min?_mem hmin)
    exact (hsources src hsrc).semantics

theorem Valid.sealMerged (h : dest.Valid dt) (hsources : ∀ src ∈ sources, src.Valid dt) :
    (sealMerged sources dest).Valid dt :=
  h.buildFilter.withSemantics (oldestSemantics_le fun src hs => (hsources src hs).kept)

@[simp] theorem entries_sealMerged : (sealMerged sources dest).entries = dest.entries := rfl

@[simp] theorem index_sealMerged (lane : ProbeLane) :
    (sealMerged sources dest).index lane = dest.index lane := by
  cases lane <;> rfl

end Seal

/-! ## merges -/

/-- **What a merge makes of its sources**: their live rows, copied in order,
and sealed. -/
theorem exists_merged {d dt : Dict} {sources : List Segment} (reanchor : Option Reanchor)
    (hsources : ∀ src ∈ sources, src.Valid dt) (hd : d.Unmasks dt sources) :
    ∃ dest, Merged dt reanchor.isSome (mergedEntries sources) dest ∧
      compact sources d reanchor = sealMerged sources dest := by
  cases reanchor with
  | some r => exact ⟨_, Reanchoring.merged_reanchored hsources hd, rfl⟩
  | none =>
    show ∃ dest, _ ∧ compactFrom sources = _
    unfold compactFrom
    split
    · exact ⟨_, merged_regrouped hsources, rfl⟩
    · next hdups =>
      rw [any_eq_true] at hdups
      push Not at hdups
      refine ⟨_, merged_remapped hsources (fun src hs => ?_) merged_new ⟨rfl, rfl⟩, rfl⟩
      simpa using hdups src hs

/-! ## the segments an engine can hold -/

/-- The segments that come about while the dictionary grows to `d`. -/
inductive Produced : Dict → Segment → Prop where
  | new (d : Dict) : Produced d Segment.new
  | add {d : Dict} {seg seg' : Segment} {req : AddRequest} {r : AddedCompiled}
      (hseg : Produced d seg) (hopen : seg.filter = none) (hreq : req.Admissible d)
      (hadd : seg.addCompiled req = some (r, seg')) : Produced d seg'
  | tombstone {d : Dict} {seg : Segment} (hseg : Produced d seg) (i : Nat) :
      Produced d (seg.tombstone i)
  | buildFilter {d : Dict} {seg : Segment} (hseg : Produced d seg) : Produced d seg.buildFilter
  | compact {d : Dict} {sources : List Segment} (hsources : ∀ src ∈ sources, Produced d src)
      (reanchor : Option Reanchor) : Produced d (compact sources d reanchor)
  /-- read back from its file -/
  | copied {d : Dict} {seg : Segment} (hseg : Produced d seg) (ha : seg.Addressable)
      (tagDict : TagDict) : Produced d (seg.copy tagDict)
  /-- the dictionary moved on -/
  | grow {d d' : Dict} {seg : Segment} (hseg : Produced d seg) (hd : d.MaskFrozen d') :
      Produced d' seg

/-- Every mask bit of a row is one `d` gave. -/
def MasksKnown (d : Dict) (seg : Segment) : Prop :=
  ∀ e ∈ seg.entries, ∀ k < 64, e.row.body.reqMask.getLsbD k = true →
    ∃ f, d.isHot f = true ∧ d.maskBit f = k

variable {d : Dict}

theorem MasksKnown.unmasks {dt : Dict} {sources : List Segment}
    (h : ∀ src ∈ sources, MasksKnown d src) (hd : d.MaskFrozen dt) : d.Unmasks dt sources where
  frozen := hd
  known src hs e he k hk hset := by
    obtain ⟨f, hhot, rfl⟩ := h src hs e he k hk hset
    exact Dict.maskInverse_ne_none hhot

theorem MasksKnown.grow {d d' : Dict} {seg : Segment} (h : MasksKnown d seg)
    (hd : d.MaskFrozen d') : MasksKnown d' seg := by
  intro e he k hk hset
  obtain ⟨f, hhot, hbit⟩ := h e he k hk hset
  exact ⟨f, hd.isHot hhot, hd.maskBit_eq hhot ▸ hbit⟩

theorem masksKnown_row {req : AddRequest} (hreq : req.Admissible d) {k : Nat} (hk : k < 64)
    (hset : req.row.body.reqMask.getLsbD k = true) : ∃ f, d.isHot f = true ∧ d.maskBit f = k := by
  obtain ⟨f, -, hbit⟩ := (getLsbD_titleMask hk).mp hset
  have hhot : req.dict.isHot f = true := Dict.isHot_iff.mpr (hbit ▸ hk)
  exact ⟨f, hreq.frozen.isHot hhot, (hreq.frozen.maskBit_eq hhot) ▸ hbit⟩

theorem MasksKnown.add {d : Dict} {seg seg' : Segment} {req : AddRequest} {r : AddedCompiled}
    (h : MasksKnown d seg) (hreq : req.Admissible d)
    (hadd : seg.addCompiled req = some (r, seg')) : MasksKnown d seg' := by
  have hentries : ∃ cls l, seg'.entries = seg.entries ++ [⟨req.row, cls, true, l⟩] := by
    rcases addCompiled_cases hadd with ⟨l, e, -, -, -, -, rfl⟩ | rfl
    · exact ⟨e.cls, l, rfl⟩
    · exact ⟨_, _, rfl⟩
  obtain ⟨cls, l, hentries⟩ := hentries
  intro e he k hk hset
  rw [hentries, mem_append, mem_singleton] at he
  rcases he with he | rfl
  · exact h e he k hk hset
  · exact masksKnown_row hreq hk hset

theorem MasksKnown.of_bodies {seg : Segment}
    (h : ∀ e ∈ seg.entries, ∃ src, MasksKnown d src ∧ ∃ e₀ ∈ src.entries,
      e.row.body = e₀.row.body) : MasksKnown d seg := by
  intro e he k hk hset
  obtain ⟨src, hsrc, e₀, he₀, hbody⟩ := h e he
  exact hsrc e₀ he₀ k hk (hbody ▸ hset)

theorem Merged.mem_source {dt : Dict} {reanchored : Bool} {sources : List Segment}
    {dest : Segment} (h : Merged dt reanchored (mergedEntries sources) dest) {m : Entry}
    (hm : m ∈ dest.entries) : ∃ src ∈ sources, ∃ e ∈ src.entries, m.row = e.row := by
  obtain ⟨n, hn⟩ := mem_iff_getElem?.mp hm
  have hlt : n < (mergedEntries sources).length :=
    h.length_eq ▸ (List.getElem?_eq_some_iff.mp hn).1
  obtain ⟨src, hs, hpair⟩ := mem_flatMap.mp (getElem_mem hlt)
  obtain ⟨e, he, heq⟩ := mem_map.mp hpair
  obtain ⟨m', hm', hrow, -⟩ := h.copied n src e (by rw [getElem?_eq_getElem hlt, ← heq])
  rw [hn] at hm'
  cases hm'
  exact ⟨src, hs, e, (mem_filter.mp he).1, hrow⟩

/-- **Every way a segment comes about keeps its invariants**, under every
dictionary that `d` may grow to. -/
theorem Produced.valid_of_maskFrozen {seg : Segment} (h : Produced d seg) :
    MasksKnown d seg ∧ ∀ dt, d.MaskFrozen dt → seg.Valid dt := by
  induction h with
  | new d => exact ⟨fun e he => absurd he not_mem_nil, fun dt _ => valid_new⟩
  | add _ hopen hreq hadd ih =>
    refine ⟨ih.1.add hreq hadd, fun dt hd => ?_⟩
    have hseg := ih.2 dt hd
    have hreq' := hreq.grow hd
    exact ⟨hseg.grouped.add hopen hreq' hadd, hseg.covers.add hreq' hadd,
      hseg.kept.add hreq' hadd, hseg.replannable.add hreq' hadd⟩
  | tombstone _ i ih =>
    refine ⟨.of_bodies fun e he => ⟨_, ih.1, ?_⟩, fun dt hd => (ih.2 dt hd).tombstone i⟩
    obtain ⟨j, hj⟩ := mem_iff_getElem?.mp he
    obtain ⟨e₀, he₀, heq⟩ := getElem?_tombstone hj
    exact ⟨e₀, mem_of_getElem? he₀, by rw [heq]⟩
  | buildFilter _ ih => exact ⟨ih.1, fun dt hd => (ih.2 dt hd).buildFilter⟩
  | @compact d sources _ reanchor ih =>
    have hmerged := fun dt hd => @exists_merged d dt sources reanchor
      (fun src hs => (ih src hs).2 dt hd) (MasksKnown.unmasks (fun src hs => (ih src hs).1) hd)
    refine ⟨?_, fun dt hd => ?_⟩
    · obtain ⟨dest, hdest, heq⟩ := hmerged d (.refl d)
      rw [heq]
      refine .of_bodies fun m hm => ?_
      obtain ⟨src, hs, e, he, hrow⟩ := hdest.mem_source hm
      exact ⟨src, (ih src hs).1, e, he, by rw [hrow]⟩
    · obtain ⟨dest, hdest, heq⟩ := hmerged dt hd
      rw [heq]
      exact hdest.valid.sealMerged fun src hs => (ih src hs).2 dt hd
  | @copied d seg _ ha tagDict ih =>
    refine ⟨.of_bodies fun e he => ⟨_, ih.1, ?_⟩, fun dt hd => ?_⟩
    · obtain ⟨j, hj⟩ := mem_iff_getElem?.mp he
      obtain ⟨e₀, he₀, rfl⟩ := of_getElem?_copy (ih.2 d (.refl d)).kept ha tagDict hj
      exact ⟨e₀, mem_of_getElem? he₀, rfl⟩
    · have hseg := ih.2 dt hd
      refine ⟨grouped_copy hseg.kept ha tagDict hseg.grouped,
        covers_copy hseg.kept ha tagDict hseg.grouped hseg.covers,
        kept_copy hseg.kept ha tagDict, fun i e hi => ?_⟩
      obtain ⟨e₀, he₀, rfl⟩ := of_getElem?_copy hseg.kept ha tagDict hi
      exact ⟨(hseg.replannable i e₀ he₀).body, (hseg.replannable i e₀ he₀).universal⟩
  | grow _ hd ih => exact ⟨ih.1.grow hd, fun dt hdt => ih.2 dt (hd.trans hdt)⟩

theorem Produced.valid {dt : Dict} {seg : Segment} (h : Produced d seg) (hd : d.MaskFrozen dt) :
    seg.Valid dt :=
  h.valid_of_maskFrozen.2 dt hd

theorem Produced.unmasks {dt : Dict} {sources : List Segment} (h : ∀ src ∈ sources, Produced d src)
    (hd : d.MaskFrozen dt) : d.Unmasks dt sources :=
  MasksKnown.unmasks (fun src hs => (h src hs).valid_of_maskFrozen.1) hd

end Segment

end ReverseRusty
