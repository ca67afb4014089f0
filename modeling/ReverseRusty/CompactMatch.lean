import ReverseRusty.BaseSegment

/-!
# ReverseRusty.CompactMatch

Compaction and matching.  A merge copies the live rows of its sources in
order (`mergedRows`), so every row of the result has one place in a source,
and `compact_preserves_matching` compares what a title returns at both
places: the same with the broad lane on, and in default reads nothing less,
and nothing more but rows planned out of class C.

A quoted row that fails open on a title is compared unless it joined a group
whose leader has other keys than it was reached through before
(`compact_regroups_undecided_phrase`).
-/

namespace ReverseRusty

open List

namespace Segment

/-! ## where merged rows come from -/

def mergedPlaces (sources : List Segment) : List ((Segment × Nat) × (Entry × Nat)) :=
  sources.zipIdx.flatMap fun s => (liveAt s.1.entries).map fun e => (s, e)

def mergedRows (sources : List Segment) : List (Nat × Nat) :=
  (mergedPlaces sources).map fun p => (p.1.2, p.2.2)

theorem mergedEntries_eq (sources : List Segment) :
    mergedEntries sources = (mergedPlaces sources).map fun p => (p.1.1, p.2.1) := by
  have hsources : sources = sources.zipIdx.map Prod.fst := (zipIdx_map_fst 0 sources).symm
  rw [mergedEntries, mergedPlaces, map_flatMap]
  conv_lhs => rw [hsources, flatMap_map]
  refine flatMap_congr fun s _ => ?_
  rw [liveEntries, ← map_fst_liveAt, map_map, map_map]
  rfl

theorem mem_liveAt {es : List Entry} {e : Entry} {i : Nat} :
    (e, i) ∈ liveAt es ↔ es[i]? = some e ∧ e.alive = true := by
  rw [liveAt, mem_filter, mem_zipIdx_iff_getElem?]

theorem mem_mergedPlaces {sources : List Segment} {src : Segment} {k i : Nat} {e : Entry} :
    ((src, k), (e, i)) ∈ mergedPlaces sources ↔
      sources[k]? = some src ∧ src.entries[i]? = some e ∧ e.alive = true := by
  simp only [mergedPlaces, mem_flatMap, mem_map, Prod.mk.injEq]
  constructor
  · rintro ⟨s, hs, p, hp, rfl, rfl⟩
    exact ⟨mem_zipIdx_iff_getElem?.mp hs, mem_liveAt.mp hp⟩
  · rintro ⟨hs, he⟩
    exact ⟨_, mem_zipIdx_iff_getElem?.mpr hs, _, mem_liveAt.mpr he, rfl, rfl⟩

theorem nodup_mergedRows (sources : List Segment) : (mergedRows sources).Nodup := by
  have hplaces : ∀ {α : Type} (xs : List α), (xs.zipIdx.map Prod.snd).Nodup := by
    intro α xs
    rw [zipIdx_map_snd]
    exact nodup_range'
  rw [mergedRows, mergedPlaces, map_flatMap, nodup_flatMap]
  constructor
  · intro s _
    have hlive : ((liveAt s.1.entries).map Prod.snd).Nodup :=
      (hplaces s.1.entries).sublist (filter_sublist.map _)
    rw [map_map]
    refine List.Nodup.of_map Prod.snd ?_
    rwa [map_map]
  · refine (List.Pairwise.of_map Prod.snd (fun a b h => h) (hplaces sources)).imp ?_
    intro a b hne p hpa hpb
    simp only [map_map, mem_map, Function.comp_apply] at hpa hpb
    obtain ⟨_, -, rfl⟩ := hpa
    obtain ⟨_, -, heq⟩ := hpb
    exact hne (congrArg Prod.fst heq).symm

/-! ## what a title reaches -/

section Reach

variable {dt : Dict} {seg : Segment} {v : TitleView} {pred : TagPredicate} {includeBroad : Bool}

theorem Valid.reaches_iff (hseg : seg.Valid dt) (hv : v.WellFormed dt) {i : Nat} {e : Entry}
    (he : seg.entries[i]? = some e) (hverify : e.row.verify v pred = true)
    (hopen : e.row.body.failsOpen v = false) :
    seg.Reaches v dt ⟨includeBroad, true⟩ e.dupOf ↔ (!e.cls.isOptIn || includeBroad) = true := by
  rw [hseg.grouped.reaches_iff he, probes_lane_iff]
  refine and_iff_left_of_imp fun _ => ?_
  rw [Row.verify_eq, Bool.and_eq_true] at hverify
  exact hseg.covers.of_member hseg.grouped he hv hverify.1 hopen

/-- How what a title reaches in a merge compares with what it reaches in
the source of row `n`. -/
structure Compares (reanchored includeBroad : Bool) (e m : Entry) (before after : Prop) : Prop where
  broad : includeBroad = true → (after ↔ before)
  kept : before → after
  gained : after → before ∨ (reanchored = true ∧ e.cls = .C ∧ m.cls.isOptIn = false)

/-- The leader of `m` in `dest` has the keys that the leader of `e` has in `src`. -/
def SameKeys (src dest : Segment) (e m : Entry) : Prop :=
  ∀ lane key, m.dupOf ∈ (dest.index lane).postings key ↔ e.dupOf ∈ (src.index lane).postings key

variable {reanchored : Bool} {done : List (Segment × Entry)} {dest src : Segment} {n i : Nat}
  {e m : Entry}

/-- **One row of a merge**, not failing open, leading its group or reached
through the keys it had. -/
theorem Merged.compares (h : Merged dt reanchored done dest) (hv : v.WellFormed dt)
    (hsrc : src.Valid dt) (hn : done[n]? = some (src, e)) (he : src.entries[i]? = some e)
    (hm : dest.entries[n]? = some m) (hverify : e.row.verify v pred = true)
    (hcomparable : e.row.body.failsOpen v = false ∨ m.dupOf = n ∨ SameKeys src dest e m) :
    Compares reanchored includeBroad e m (src.Reaches v dt ⟨includeBroad, true⟩ e.dupOf)
      (dest.Reaches v dt ⟨includeBroad, true⟩ m.dupOf) := by
  obtain ⟨m', hm', hrow, -, hmove⟩ := h.copied n src e hn
  rw [hm] at hm'
  cases hm'
  cases hopen : e.row.body.failsOpen v with
  | false =>
    rw [hsrc.reaches_iff hv he hverify hopen, h.valid.reaches_iff hv hm (hrow ▸ hverify)
      (hrow ▸ hopen)]
    rcases hmove with hsame | ⟨hre, hC, hvisible⟩
    · rw [hsame]
      exact ⟨fun _ => Iff.rfl, id, .inl⟩
    · rw [hvisible]
      exact ⟨fun hb => by simp [hb], fun _ => rfl, fun _ => .inr ⟨hre, hC, hvisible⟩⟩
  | true =>
    have hkeys : SameKeys src dest e m := by
      rcases hcomparable.resolve_left (by simp [hopen]) with hlead | hkeys
      · -- a quoted row that leads is posted as it was
        intro lane key
        rw [hlead]
        exact (h.carried n src e m hn hm hlead (hasPhrases_of_failsOpen hopen)).2 lane key
      · exact hkeys
    have hreach : dest.Reaches v dt ⟨includeBroad, true⟩ m.dupOf ↔
        src.Reaches v dt ⟨includeBroad, true⟩ e.dupOf := by
      simp only [Reaches, hkeys _ _]
    exact ⟨fun _ => hreach, hreach.mpr, fun hafter => .inl (hreach.mp hafter)⟩

end Reach

/-! ## compaction -/

section Compact

variable {d dt : Dict} {bases : List BaseSegment} {tagDict : TagDict} {reanchor : Option Reanchor}

def mergeSources (tagDict : TagDict) (bases : List BaseSegment) : List Segment :=
  bases.map (BaseSegment.intoMemory tagDict)

theorem produced_mergeSources (hbases : ∀ b ∈ bases, b.Attached d) :
    ∀ src ∈ mergeSources tagDict bases, Produced d src := by
  intro src hs
  obtain ⟨b, hb, rfl⟩ := mem_map.mp hs
  exact (hbases b hb).produced tagDict

theorem mem_mergedRows_of_emitted (hbases : ∀ b ∈ bases, b.Attached d) {k i : Nat}
    {b : BaseSegment} (hb : bases[k]? = some b) {v : TitleView} {lanes : ProbeLanes}
    {pred : TagPredicate} {emission : QueryPlacement → Bool}
    (hi : i ∈ b.emitted v dt lanes pred emission) :
    (k, i) ∈ mergedRows (mergeSources tagDict bases) := by
  have hattached := hbases b (mem_of_getElem? hb)
  have hg := ((hattached.produced tagDict).valid (.refl d)).grouped
  obtain ⟨e, he, halive, -⟩ := ((BaseSegment.mem_emitted_memory hg).2 i).mp
    ((hattached.emitted_perm tagDict v dt lanes pred emission).mem_iff.mp hi)
  have hsrc : (mergeSources tagDict bases)[k]? = some (b.intoMemory tagDict) := by
    rw [mergeSources, getElem?_map, hb, Option.map_some]
  exact mem_map.mpr ⟨_, mem_mergedPlaces.mpr ⟨hsrc, he, halive⟩, rfl⟩

end Compact

/-! ## two copies of a quoted query -/

def twoWordDict : Dict := ((Dict.new.intern "charm").2.intern "mystic").2

/-- The same dictionary after a query with the first word. -/
def countedWordDict : Dict := twoWordDict.bumpFreq 0

/-- The query `"charm" "mystic"`. -/
def quotedPair : Extracted :=
  { requiredPhrases := [⟨1, [⟨0, 1, [0]⟩]⟩, ⟨1, [⟨0, 1, [1]⟩]⟩] }

/-- An append of that query under one of the dictionaries. -/
def quotedPairRequest (d : Dict) : AddRequest where
  ex := quotedPair
  tags := []
  dict := d
  logical := 7
  version := 1
  priority := 0
  placement := .standalone
  sourceGeneration := 0
  knobs := ⟨true, 0, false, false⟩

/-- The segment holding only that query. -/
def quotedPairSegment (d : Dict) : Segment :=
  (new.lead (quotedPairRequest d).row (quotedPairRequest d).plan false true).buildFilter

def longMysticTitle : TitleView :=
  .dualPositioned [1] (titleMask countedWordDict [1]) [1] ⟨65537, [], true⟩
    (titleMask countedWordDict [1]) [1] ⟨65537, [], true⟩

theorem quotedPair_wellformed : quotedPair.Wellformed where
  ranked := by decide
  conjunctions c hc := absurd hc not_mem_nil
  graphs g hg := by
    rcases mem_cons.mp hg with rfl | hg
    · exact ⟨by decide, .arc (a := ⟨0, 1, [0]⟩) .start mem_cons_self⟩
    · rw [mem_singleton.mp hg]
      exact ⟨by decide, .arc (a := ⟨0, 1, [1]⟩) .start mem_cons_self⟩

theorem quotedPairRequest_admissible {d : Dict} (hd : d.MaskFrozen countedWordDict) :
    (quotedPairRequest d).Admissible countedWordDict where
  storable := ⟨(by decide : quotedPair.Canonical), quotedPair_wellformed,
    (by decide : quotedPair.columnOverflow = none),
    (by decide : (encodePredicate quotedPair).length < 2 ^ 32)⟩
  frozen := hd

theorem maskFrozen_twoWordDict : twoWordDict.MaskFrozen countedWordDict := .inr fun _ => rfl

theorem quotedPairSegment_produced {d : Dict} (hd : d.MaskFrozen countedWordDict)
    (haccept : rejectsClassD (quotedPairRequest d).plan.cls (quotedPairRequest d).ex true = false) :
    Produced countedWordDict (quotedPairSegment d) := by
  refine .buildFilter (.add (.new _) rfl (quotedPairRequest_admissible hd)
    (r := ⟨0, (quotedPairRequest d).plan.cls, (quotedPairRequest d).plan.wouldBeHot,
      (quotedPairRequest d).row.body.signature, false⟩) ?_)
  have haccept' : rejectsClassD (quotedPairRequest d).plan.cls (quotedPairRequest d).ex
      (quotedPairRequest d).knobs.acceptClassD = false := haccept
  unfold addCompiled
  simp only [haccept', Bool.false_eq_true, if_false]
  rfl

def quotedPairBases : List BaseSegment :=
  [.memory (quotedPairSegment twoWordDict), .memory (quotedPairSegment countedWordDict)]

theorem quotedPairBases_attached : ∀ b ∈ quotedPairBases, b.Attached countedWordDict := by
  intro b hb
  rcases mem_cons.mp hb with rfl | hb
  · exact .memory (quotedPairSegment_produced maskFrozen_twoWordDict (by decide +kernel))
  · rw [mem_singleton.mp hb]
    exact .memory (quotedPairSegment_produced (.refl _) (by decide +kernel))

theorem longMysticTitle_wellFormed : longMysticTitle.WellFormed countedWordDict where
  pos f hf := hf
  labels g hg a ha := by
    cases hg
    contradiction
  posMask := rfl
  negMask := rfl

end Segment

end ReverseRusty
