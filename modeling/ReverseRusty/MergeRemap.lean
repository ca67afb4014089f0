import ReverseRusty.MergeSpec

/-!
# ReverseRusty.MergeRemap

The mechanical merge of sources without groups: rows are copied first and
postings follow under the new ids.  `merged_remapped` says that it keeps
what the row-by-row merges keep.
-/

namespace ReverseRusty

open List

namespace CandidateIndex

theorem exists_posting_iff {idx : CandidateIndex} {k : UInt64} {p : Nat → Prop} :
    (∃ e ∈ idx.entries, e.1 = k ∧ ∃ id ∈ e.2.ids, p id) ↔ ∃ id ∈ idx.postings k, p id := by
  unfold postings
  constructor
  · rintro ⟨⟨k', ids⟩, he, rfl, id, hid, hp⟩
    have hget : idx.get k' = some ids := AList.mem_lookup_iff.mpr he
    exact ⟨id, by rwa [hget], hp⟩
  · rintro ⟨id, hid, hp⟩
    cases hget : idx.get k with
    | none => simp [hget] at hid
    | some ids =>
      rw [hget] at hid
      exact ⟨⟨k, ids⟩, AList.mem_lookup_iff.mp hget, rfl, id, hid, hp⟩

section InsertRemapped

variable {remap : List (Option Nat)} {k : UInt64} {i : Nat}

variable {key : UInt64} {ids : List Nat}

theorem mem_postings_foldl_remap {dest : CandidateIndex} :
    i ∈ (ids.foldl (insertMoved remap key) dest).postings k ↔
      i ∈ dest.postings k ∨ (k = key ∧ ∃ old ∈ ids, remap[old]? = some (some i)) := by
  induction ids generalizing dest with
  | nil => simp
  | cons old ids ih =>
    rw [foldl_cons, ih, exists_mem_cons_iff, insertMoved]
    cases hnew : remap[old]?.join with
    | none =>
      have hne : remap[old]? ≠ some (some i) := by
        intro heq
        simp [heq] at hnew
      simp [hne]
    | some new =>
      rw [Option.join_eq_some_iff] at hnew
      simp only [mem_postings_insertId, hnew, Option.some.injEq]
      grind

/-- **Postings follow their rows.** -/
theorem mem_postings_insertRemapped {dest src : CandidateIndex} :
    i ∈ (dest.insertRemapped src remap).postings k ↔
      i ∈ dest.postings k ∨ ∃ old ∈ src.postings k, remap[old]? = some (some i) := by
  rw [← exists_posting_iff, insertRemapped]
  generalize src.entries = es
  induction es generalizing dest with
  | nil => simp
  | cons e es ih =>
    rw [foldl_cons, ih, mem_postings_foldl_remap, exists_mem_cons_iff, or_assoc,
      eq_comm]

theorem mem_keys_foldl_remap {dest : CandidateIndex}
    (h : k ∈ (ids.foldl (insertMoved remap key) dest).keys) : k ∈ dest.keys ∨ k = key := by
  induction ids generalizing dest with
  | nil => exact .inl h
  | cons old ids ih =>
    rw [foldl_cons] at h
    rcases ih h with h | h
    · unfold insertMoved at h
      split at h
      · exact (mem_keys_insertId.mp h).symm
      · exact .inl h
    · exact .inr h

theorem mem_keys_insertRemapped {dest src : CandidateIndex}
    (h : k ∈ (dest.insertRemapped src remap).keys) : k ∈ dest.keys ∨ k ∈ src.keys := by
  have hfold : ∀ (es : List (Sigma fun _ : UInt64 => Posting)) (dest : CandidateIndex),
      k ∈ (es.foldl (fun dest e => e.2.ids.foldl (insertMoved remap e.1) dest) dest).keys →
        k ∈ dest.keys ∨ k ∈ es.map Sigma.fst := by
    intro es
    induction es with
    | nil => exact fun dest h => .inl h
    | cons e es ih =>
      intro dest h
      rcases ih _ h with h | h
      · rcases mem_keys_foldl_remap h with h | rfl
        · exact .inl h
        · exact .inr mem_cons_self
      · exact .inr (mem_cons_of_mem _ h)
  exact hfold src.entries dest h

end InsertRemapped

end CandidateIndex

namespace Segment

/-! ## copying rows -/

def liveAt (es : List Entry) : List (Entry × Nat) := es.zipIdx.filter fun p => p.1.alive

theorem liveAt_concat (es : List Entry) (e : Entry) :
    liveAt (es ++ [e]) = liveAt es ++ if e.alive then [(e, es.length)] else [] := by
  rw [liveAt, zipIdx_append, filter_append, ← liveAt]
  congr 1
  cases halive : e.alive <;> simp [halive]

theorem map_fst_liveAt (es : List Entry) : (liveAt es).map Prod.fst = es.filter Entry.alive := by
  conv_rhs => rw [← zipIdx_map_fst 0 es]
  rw [filter_map]
  rfl

/-- A live entry, copied to place `n`. -/
def copiedAt (n : Nat) (e : Entry) : Entry := ⟨e.row, e.cls, true, n⟩

/-- What copying the entries `es` behind `dest` leaves. -/
structure CopiedLive (dest : Segment) (es : List Entry) (s : Segment × List (Option Nat)) :
    Prop where
  entries : s.1.entries =
    dest.entries ++ (liveAt es).mapIdx fun k p => copiedAt (dest.length + k) p.1
  remap_length : s.2.length = es.length
  remap : ∀ old n : Nat, s.2[old]? = some (some n) ↔
    ∃ (e : Entry) (k : Nat), (liveAt es)[k]? = some (e, old) ∧ n = dest.length + k
  index : ∀ lane, s.1.index lane = dest.index lane
  dupMembers : s.1.dupMembers = dest.dupMembers
  bodyIndex : s.1.bodyIndex = dest.bodyIndex
  filter : s.1.filter = dest.filter
  kept : dest.Kept → (∀ e ∈ es, e.row.Sound) → s.1.Kept

section Copy

variable {dest : Segment} {es : List Entry} {s : Segment × List (Option Nat)} {e : Entry}

theorem CopiedLive.length_eq (h : CopiedLive dest es s) :
    s.1.length = dest.length + (liveAt es).length := by
  rw [length, h.entries, length_append, length_mapIdx]
  rfl

theorem CopiedLive.copyOne (h : CopiedLive dest es s) : CopiedLive dest (es ++ [e]) (copyOne s e) := by
  have hlive := liveAt_concat es e
  have hlen := h.length_eq
  cases halive : e.alive with
  | true =>
    rw [halive, if_pos rfl] at hlive
    have hone : Segment.copyOne s e =
        (s.1.append ⟨e.row, e.cls, true, s.1.length⟩ e.row.hasPhrases,
          s.2 ++ [some s.1.length]) := by
      rw [Segment.copyOne, if_pos halive]
    rw [hone]
    refine ⟨?_, ?_, fun old n => ?_, fun lane => ?_, h.dupMembers, h.bodyIndex, h.filter,
      fun hk hs => ?_⟩
    · show s.1.entries ++ [_] = _
      rw [h.entries, hlive, mapIdx_concat, append_assoc, hlen]
      rfl
    · rw [length_append, length_append, h.remap_length]
      rfl
    · rw [getElem?_concat, h.remap, hlive]
      simp only [getElem?_concat, h.remap_length, hlen, Option.some.injEq]
      constructor
      · rintro (⟨e', k, hk, rfl⟩ | ⟨rfl, rfl⟩)
        · exact ⟨e', k, .inl hk, rfl⟩
        · exact ⟨e, _, .inr ⟨rfl, rfl⟩, rfl⟩
      · rintro ⟨e', k, hk | ⟨rfl, heq⟩, rfl⟩
        · exact .inl ⟨e', k, hk, rfl⟩
        · cases heq
          exact .inr ⟨rfl, rfl⟩
    · rw [index_append, h.index]
    · have hold := h.kept hk fun e' he' => hs e' (mem_append_left _ he')
      exact hold.append (e := ⟨e.row, e.cls, true, s.1.length⟩)
        (hs e (mem_append_right _ (mem_singleton.mpr rfl))) rfl
  | false =>
    rw [halive, if_neg Bool.false_ne_true, append_nil] at hlive
    have hone : Segment.copyOne s e = (s.1, s.2 ++ [none]) := by
      rw [Segment.copyOne, if_neg (by simp [halive])]
    rw [hone]
    refine ⟨hlive ▸ h.entries, ?_, fun old n => ?_, h.index, h.dupMembers, h.bodyIndex, h.filter,
      fun hk hs => h.kept hk fun e' he' => hs e' (mem_append_left _ he')⟩
    · rw [length_append, length_append, h.remap_length]
      rfl
    · rw [getElem?_concat, hlive, ← h.remap, or_iff_left]
      exact fun hnew => by simp at hnew

/-- **Copying a source's live rows.** -/
theorem copiedLive_copyLive (dest src : Segment) :
    CopiedLive dest src.entries (dest.copyLive src) := by
  unfold copyLive
  induction src.entries using List.reverseRecOn with
  | nil =>
    exact ⟨(append_nil _).symm, rfl, fun old n => by simp [liveAt], fun _ => rfl, rfl, rfl,
      rfl, fun hk _ => hk⟩
  | append_singleton es e ih =>
    rw [foldl_append]
    exact ih.copyOne

end Copy

/-! ## one source -/

/-- A segment that never grouped rows. -/
structure Ungrouped (seg : Segment) : Prop where
  dupMembers : seg.dupMembers = ∅
  bodyIndex : seg.bodyIndex = ∅

section Remap

variable {dt : Dict} {dest src : Segment}

theorem index_mergeRemapped (lane : ProbeLane) :
    (dest.mergeRemapped src).index lane =
      (dest.index lane).insertRemapped (src.index lane) (dest.copyLive src).2 := by
  rw [← (copiedLive_copyLive dest src).index lane]
  cases lane <;> rfl

variable {n : Nat}

theorem getElem?_mergeRemapped {d : Entry} :
    (dest.mergeRemapped src).entries[n]? = some d ↔ dest.entries[n]? = some d ∨
      ∃ (e : Entry) (old k : Nat), (liveAt src.entries)[k]? = some (e, old) ∧
        n = dest.length + k ∧ d = copiedAt n e := by
  have hentries : (dest.mergeRemapped src).entries =
      dest.entries ++ (liveAt src.entries).mapIdx fun k p => copiedAt (dest.length + k) p.1 :=
    (copiedLive_copyLive dest src).entries
  rw [hentries, getElem?_append]
  by_cases hn : n < dest.entries.length
  · rw [if_pos hn, or_iff_left]
    rintro ⟨e, old, k, -, hk, -⟩
    rw [length] at hk
    omega
  · rw [if_neg hn, getElem?_eq_none (Nat.le_of_not_lt hn), getElem?_mapIdx,
      Option.map_eq_some_iff]
    simp only [reduceCtorEq, false_or, Prod.exists]
    have hk : ∀ k, n = dest.length + k ↔ k = n - dest.entries.length := by
      intro k
      rw [length]
      omega
    simp only [hk]
    constructor
    · rintro ⟨e, old, hget, rfl⟩
      refine ⟨e, old, _, hget, rfl, ?_⟩
      rw [← (hk _).mpr rfl]
    · rintro ⟨e, old, k, hget, rfl, rfl⟩
      refine ⟨e, old, hget, ?_⟩
      rw [← (hk _).mpr rfl]

theorem getElem?_of_liveAt {es : List Entry} {k old : Nat} {e : Entry}
    (h : (liveAt es)[k]? = some (e, old)) : es[old]? = some e ∧ e.alive = true := by
  obtain ⟨hmem, halive⟩ := mem_filter.mp (mem_of_getElem? h)
  exact ⟨mem_zipIdx_iff_getElem?.mp hmem, halive⟩

theorem mem_postings_mergeRemapped {lane : ProbeLane} {key : UInt64} :
    n ∈ ((dest.mergeRemapped src).index lane).postings key ↔
      n ∈ (dest.index lane).postings key ∨ ∃ (e : Entry) (old k : Nat),
        (liveAt src.entries)[k]? = some (e, old) ∧ n = dest.length + k ∧
          old ∈ (src.index lane).postings key := by
  rw [index_mergeRemapped, CandidateIndex.mem_postings_insertRemapped]
  simp only [(copiedLive_copyLive dest src).remap]
  grind

section Step

variable (hdest : dest.Valid dt) (hungrouped : dest.Ungrouped) (hopen : dest.filter = none)
  (hsrc : src.Valid dt) (hdups : src.hasDupGroups = false)

include hdest hungrouped

theorem dupOf_mergeRemapped {n : Nat} {d : Entry}
    (h : (dest.mergeRemapped src).entries[n]? = some d) : d.dupOf = n := by
  rcases getElem?_mergeRemapped.mp h with hold | ⟨e, old, k, -, -, rfl⟩
  · have hnone : dest.hasDupGroups = false := by
      rw [hasDupGroups, hungrouped.dupMembers]
      rfl
    exact hdest.grouped.dupOf_eq hnone hold
  · rfl

omit hdest in
theorem membersOf_mergeRemapped (l : Nat) : (dest.mergeRemapped src).membersOf l = [] := by
  have hmembers : (dest.mergeRemapped src).dupMembers = dest.dupMembers :=
    (copiedLive_copyLive dest src).dupMembers
  rw [membersOf, hmembers, hungrouped.dupMembers]
  rfl

include hsrc hopen

theorem grouped_mergeRemapped : (dest.mergeRemapped src).Grouped where
  leader i d hd := by
    have hself := dupOf_mergeRemapped hdest hungrouped hd
    exact ⟨d, hself.symm ▸ hd, rfl, rfl, bodiesEqual_refl _⟩
  nodup l := by
    rw [membersOf_mergeRemapped hungrouped]
    exact nodup_nil
  member l m := by
    rw [membersOf_mergeRemapped hungrouped]
    refine ⟨fun hm => by contradiction, ?_⟩
    rintro ⟨hne, d, hd, rfl⟩
    exact absurd (dupOf_mergeRemapped hdest hungrouped hd).symm hne
  posted lane key n hn := by
    rcases mem_postings_mergeRemapped.mp hn with hn | ⟨e, old, k, hlive, hk, hpost⟩
    · obtain ⟨d, hd, hrest⟩ := hdest.grouped.posted lane key n hn
      exact ⟨d, getElem?_mergeRemapped.mpr (.inl hd), hrest⟩
    · obtain ⟨e', he', -, hlane⟩ := hsrc.grouped.posted lane key old hpost
      rw [(getElem?_of_liveAt hlive).1] at he'
      cases he'
      exact ⟨_, getElem?_mergeRemapped.mpr (.inr ⟨e, old, k, hlive, hk, rfl⟩), rfl, hlane⟩
  program n d hd := by
    rcases getElem?_mergeRemapped.mp hd with hd | ⟨e, old, k, hlive, -, rfl⟩
    · exact hdest.grouped.program n d hd
    · exact hsrc.grouped.program old e (getElem?_of_liveAt hlive).1
  bodyLeader sig l hl := by
    have hbodies : (dest.mergeRemapped src).bodyIndex = ∅ :=
      (copiedLive_copyLive dest src).bodyIndex.trans hungrouped.bodyIndex
    rw [hbodies] at hl
    contradiction
  filtered f hf := by
    have hnone : (dest.mergeRemapped src).filter = none :=
      (copiedLive_copyLive dest src).filter.trans hopen
    rw [hnone] at hf
    contradiction

omit hungrouped hopen in
theorem kept_mergeRemapped : (dest.mergeRemapped src).Kept := by
  have hcopied := (copiedLive_copyLive dest src).kept hdest.kept fun e he => by
    obtain ⟨i, hi⟩ := mem_iff_getElem?.mp he
    exact hsrc.kept.sound i e hi
  exact {
    sound := hcopied.sound, quoted := hcopied.quoted
    keys := fun lane key hkey => by
      rw [index_mergeRemapped] at hkey
      rcases CandidateIndex.mem_keys_insertRemapped hkey with hkey | hkey
      · exact hdest.kept.keys lane key hkey
      · exact hsrc.kept.keys lane key hkey
    alive := hcopied.alive, phrases := hcopied.phrases, ascending := hcopied.ascending
    logical := hcopied.logical, listed := hcopied.listed, semantics := hcopied.semantics
    blocks := hcopied.blocks }

include hdups

omit hopen in
theorem covers_mergeRemapped : (dest.mergeRemapped src).Covers dt := by
  intro n d hd _ v hv hverify hfails
  rcases getElem?_mergeRemapped.mp hd with hold | ⟨e, old, k, hlive, hk, rfl⟩
  · have hself := dupOf_mergeRemapped hdest hungrouped hd
    obtain ⟨key, hkey, hpost⟩ := hdest.covers n d hold hself v hv hverify hfails
    exact ⟨key, hkey, mem_postings_mergeRemapped.mpr (.inl hpost)⟩
  · have he := (getElem?_of_liveAt hlive).1
    have hself := hsrc.grouped.dupOf_eq hdups he
    obtain ⟨key, hkey, hpost⟩ := hsrc.covers old e he hself v hv hverify hfails
    exact ⟨key, hkey, mem_postings_mergeRemapped.mpr (.inr ⟨e, old, k, hlive, hk, hpost⟩)⟩

omit hungrouped hopen hdups in
theorem replannable_mergeRemapped : (dest.mergeRemapped src).Replannable dt := by
  intro n d hd
  rcases getElem?_mergeRemapped.mp hd with hold | ⟨e, old, k, hlive, -, rfl⟩
  · exact hdest.replannable n d hold
  · have he := hsrc.replannable old e (getElem?_of_liveAt hlive).1
    exact ⟨he.body, he.universal⟩

end Step

theorem ungrouped_mergeRemapped (h : dest.Ungrouped) : (dest.mergeRemapped src).Ungrouped :=
  ⟨(copiedLive_copyLive dest src).dupMembers.trans h.dupMembers,
    (copiedLive_copyLive dest src).bodyIndex.trans h.bodyIndex⟩

variable {reanchored : Bool} {done : List (Segment × Entry)}

/-- **One more source**, rows and postings. -/
theorem Merged.mergeRemapped (h : Merged dt reanchored done dest) (hungrouped : dest.Ungrouped)
    (hsrc : src.Valid dt) (hdups : src.hasDupGroups = false) :
    Merged dt reanchored (done ++ src.liveEntries.map fun e => (src, e))
      (dest.mergeRemapped src) := by
  have hlen : dest.entries.length = done.length := h.length_eq
  have hlive : src.liveEntries = (liveAt src.entries).map Prod.fst := (map_fst_liveAt _).symm
  have hdone : ∀ (n : Nat) (src' : Segment) (e : Entry),
      (done ++ src.liveEntries.map fun e => (src, e))[n]? = some (src', e) →
        done[n]? = some (src', e) ∨ src' = src ∧ ∃ old k : Nat,
          (liveAt src.entries)[k]? = some (e, old) ∧ n = dest.length + k := by
    intro n src' e hn
    rw [getElem?_append] at hn
    split at hn
    · exact .inl hn
    · next hge =>
      rw [hlive, map_map, getElem?_map, Option.map_eq_some_iff] at hn
      obtain ⟨⟨e', old⟩, hget, heq⟩ := hn
      cases heq
      exact .inr ⟨rfl, old, n - done.length, hget, by rw [length]; omega⟩
  refine ⟨⟨grouped_mergeRemapped h.valid hungrouped h.unsealed hsrc,
    covers_mergeRemapped h.valid hungrouped hsrc hdups, kept_mergeRemapped h.valid hsrc,
    replannable_mergeRemapped h.valid hsrc⟩, ?_, ?_, fun n src' e hn => ?_,
    fun n src' e d hn hd _ hquoted => ?_⟩
  · exact (copiedLive_copyLive dest src).filter.trans h.unsealed
  · show (dest.copyLive src).1.length = _
    rw [(copiedLive_copyLive dest src).length_eq, h.length_eq, length_append, length_map,
      hlive, length_map]
  · rcases hdone n src' e hn with hold | ⟨rfl, old, k, hk, hn'⟩
    · obtain ⟨d, hd, hrest⟩ := h.copied n src' e hold
      exact ⟨d, getElem?_mergeRemapped.mpr (.inl hd), hrest⟩
    · exact ⟨_, getElem?_mergeRemapped.mpr (.inr ⟨e, old, k, hk, hn', rfl⟩), rfl, rfl, .inl rfl⟩
  · rcases hdone n src' e hn with hold | ⟨rfl, old, k, hk, hn'⟩
    · have hlt : n < dest.length := h.length_eq ▸ (List.getElem?_eq_some_iff.mp hold).1
      rcases getElem?_mergeRemapped.mp hd with hd' | ⟨e', old, k, -, hk, -⟩
      · have hself := dupOf_mergeRemapped h.valid hungrouped hd
        obtain ⟨hcls, hpost⟩ := h.carried n src' e d hold hd' hself hquoted
        refine ⟨hcls, fun lane key => ?_⟩
        rw [mem_postings_mergeRemapped, ← hpost, or_iff_left]
        rintro ⟨e', old, k, -, hk, -⟩
        omega
      · omega
    · -- a copied row is found at one place only
      have hnew : d = copiedAt n e := by
        rcases getElem?_mergeRemapped.mp hd with hd' | ⟨e', old', k', hk', hn'', rfl⟩
        · have := (List.getElem?_eq_some_iff.mp hd').1
          rw [length] at hn'
          omega
        · have hkk : k' = k := by omega
          rw [hkk, hk] at hk'
          cases hk'
          rfl
      have hself := hsrc.grouped.dupOf_eq hdups (getElem?_of_liveAt hk).1
      refine ⟨by rw [hnew]; rfl, fun lane key => ?_⟩
      rw [mem_postings_mergeRemapped, hself]
      constructor
      · rintro (hpost | ⟨e', old', k', hk', hn'', hpost⟩)
        · obtain ⟨e', he', -⟩ := h.valid.grouped.posted lane key n hpost
          have := (List.getElem?_eq_some_iff.mp he').1
          rw [length] at hn'
          omega
        · have hkk : k' = k := by omega
          rw [hkk, hk] at hk'
          cases hk'
          exact hpost
      · exact fun hpost => .inr ⟨e, old, k, hk, hn', hpost⟩

/-- **The mechanical merge copies every live row.** -/
theorem merged_remapped {sources : List Segment} (hsources : ∀ src ∈ sources, src.Valid dt)
    (hdups : ∀ src ∈ sources, src.hasDupGroups = false) (h : Merged dt reanchored done dest)
    (hungrouped : dest.Ungrouped) :
    Merged dt reanchored (done ++ mergedEntries sources)
      (sources.foldl Segment.mergeRemapped dest) := by
  induction sources generalizing dest done with
  | nil => rwa [mergedEntries, flatMap_nil, append_nil]
  | cons src sources ih =>
    have hone := h.mergeRemapped hungrouped (hsources src mem_cons_self)
      (hdups src mem_cons_self)
    have hnext := ih (fun src' hs => hsources src' (mem_cons_of_mem src hs))
      (fun src' hs => hdups src' (mem_cons_of_mem src hs)) hone
      (ungrouped_mergeRemapped hungrouped)
    rwa [append_assoc] at hnext

end Remap

end Segment

end ReverseRusty
