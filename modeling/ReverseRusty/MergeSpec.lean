import ReverseRusty.MergeCover

/-!
# ReverseRusty.MergeSpec

What a merge makes of its sources.  Every merge copies the live rows one by
one; `Absorbs` says what copying one row can do, and `Merged` what holds of
the rows copied so far: they are a valid segment again, no row left default
reads, and a quoted row that leads its group is posted as it was.
-/

namespace ReverseRusty

open List

/-- The classes a merge may give a row stored as `old`: on the same side of
the opt-in boundary, or, planned again, out of class C. -/
def CostClass.MayMove (reanchored : Bool) (old new : CostClass) : Prop :=
  new.isOptIn = old.isOptIn ∨ (reanchored = true ∧ old = .C ∧ new.isOptIn = false)

namespace Segment

/-- The invariants of a segment whose titles are read under `dt`. -/
structure Valid (seg : Segment) (dt : Dict) : Prop where
  grouped : seg.Grouped
  covers : seg.Covers dt
  kept : seg.Kept
  replannable : seg.Replannable dt

theorem valid_new {dt : Dict} : new.Valid dt :=
  ⟨grouped_new, covers_new, kept_new, replannable_new⟩

/-! ## one row -/

/-- What copying a live row of a source into a merge can do. -/
inductive Absorbs (dt : Dict) (reanchored : Bool) (src : Segment) (e : Entry) (dest : Segment) :
    Segment → Prop where
  | join {l : Nat} {le : Entry} (hl : dest.entries[l]? = some le) (hlead : le.dupOf = l)
      (hbody : le.row.body.bodiesEqual e.row.body = true)
      (hmove : CostClass.MayMove reanchored e.cls le.cls) :
      Absorbs dt reanchored src e dest (dest.join l e.row le.cls e.row.hasPhrases)
  | lead {cover : SigPlan} (hcover : cover.CoversBody dt e.row.body)
      (hlane : ∀ lane key, key ∈ cover.sigs lane → cover.cls.lane = lane)
      (hkeys : ∀ lane key, key ∈ cover.sigs lane → key ≠ 0)
      (huniversal : cover.cls = .D → e.row.body.requiredGraphs = [] → e.row.body.Unanchored)
      (hmove : CostClass.MayMove reanchored e.cls cover.cls)
      (hcarried : e.row.hasPhrases = true → cover = src.coverOf e) :
      Absorbs dt reanchored src e dest (dest.lead e.row cover true e.row.hasPhrases)

section Absorbs

variable {dt : Dict} {reanchored : Bool} {src dest dest' : Segment} {i : Nat} {e : Entry}

theorem Absorbs.valid (h : Absorbs dt reanchored src e dest dest') (hdest : dest.Valid dt)
    (hopen : dest.filter = none) (hrow : e.row.Sound) (hbody : e.row.body.Replannable dt) :
    dest'.Valid dt := by
  have hprog := hrow.body.knownVersion
  cases h with
  | @join l le hl hlead hequal _ =>
    exact {
      grouped := hdest.grouped.join hl hlead hequal hprog
      covers := hdest.covers.join (List.getElem?_eq_some_iff.mp hl).1
      kept := hdest.kept.join hrow
      replannable := hdest.replannable.concat ((hdest.replannable l le hl).adopt hbody hequal) rfl }
  | @lead cover hcover hlane hkeys huniversal _ _ =>
    have hentry : (Entry.mk e.row cover.cls true dest.length).Replannable dt :=
      ⟨hbody, huniversal⟩
    exact {
      grouped := hdest.grouped.lead hopen hprog hlane
      covers := hdest.covers.lead hcover
      kept := hdest.kept.lead hrow hkeys
      replannable := hdest.replannable.concat hentry rfl }

theorem Absorbs.filter_eq (h : Absorbs dt reanchored src e dest dest') :
    dest'.filter = dest.filter := by
  cases h <;> rfl

theorem Absorbs.entries_eq (h : Absorbs dt reanchored src e dest dest') :
    ∃ cls l, CostClass.MayMove reanchored e.cls cls ∧
      dest'.entries = dest.entries ++ [⟨e.row, cls, true, l⟩] := by
  cases h with
  | @join l le _ _ _ hmove => exact ⟨le.cls, l, hmove, rfl⟩
  | @lead cover _ _ _ _ hmove _ => exact ⟨cover.cls, dest.length, hmove, rfl⟩

theorem Absorbs.mem_postings_of_lt (h : Absorbs dt reanchored src e dest dest') {lane : ProbeLane}
    {key : UInt64} {n : Nat} (hn : n < dest.length) :
    n ∈ (dest'.index lane).postings key ↔ n ∈ (dest.index lane).postings key := by
  cases h with
  | join _ _ _ _ => rw [index_join]
  | lead _ _ _ _ _ _ =>
    rw [index_lead, CandidateIndex.mem_postings_insertAll, or_iff_left]
    exact fun hnew => Nat.ne_of_lt hn hnew.2

theorem Absorbs.carried (h : Absorbs dt reanchored src e dest dest') (hg : dest.Grouped)
    {d : Entry} (hd : dest'.entries[dest.length]? = some d) (hlead : d.dupOf = dest.length)
    (hquoted : e.row.hasPhrases = true) :
    d.cls = e.cls ∧ ∀ lane key, dest.length ∈ (dest'.index lane).postings key ↔
      e.dupOf ∈ (src.index lane).postings key := by
  cases h with
  | @join l le hl _ _ _ =>
    have hnew : (dest.entries ++ [(⟨e.row, le.cls, true, l⟩ : Entry)])[dest.length]? = some d := hd
    rw [length, getElem?_concat_length] at hnew
    cases hnew
    exact absurd hlead (Nat.ne_of_lt (List.getElem?_eq_some_iff.mp hl).1)
  | @lead cover _ _ _ _ _ hcarried =>
    have hcover := hcarried hquoted
    have hnew : (dest.entries ++ [(⟨e.row, cover.cls, true, dest.length⟩ : Entry)])[dest.length]? =
        some d := hd
    rw [length, getElem?_concat_length] at hnew
    cases hnew
    refine ⟨by rw [hcover]; rfl, fun lane key => ?_⟩
    rw [index_lead, CandidateIndex.mem_postings_insertAll, and_iff_left rfl, or_iff_right, hcover,
      mem_sigs_coverOf]
    intro hold
    obtain ⟨e', he', -⟩ := hg.posted lane key _ hold
    exact absurd (List.getElem?_eq_some_iff.mp he').1 (Nat.lt_irrefl _)

end Absorbs

/-! ## the rows copied so far -/

/-- What holds of a merge that copied the rows `done`, each with its
source. -/
structure Merged (dt : Dict) (reanchored : Bool) (done : List (Segment × Entry))
    (dest : Segment) : Prop where
  valid : dest.Valid dt
  unsealed : dest.filter = none
  length_eq : dest.length = done.length
  /-- rows are copied in order, live, to a class they may have -/
  copied : ∀ (n : Nat) (src : Segment) (e : Entry), done[n]? = some (src, e) →
    ∃ d, dest.entries[n]? = some d ∧ d.row = e.row ∧ d.alive = true ∧
      CostClass.MayMove reanchored e.cls d.cls
  /-- a quoted row that leads is posted as in its source -/
  carried : ∀ (n : Nat) (src : Segment) (e d : Entry), done[n]? = some (src, e) →
    dest.entries[n]? = some d → d.dupOf = n → e.row.hasPhrases = true →
      d.cls = e.cls ∧ ∀ lane key, n ∈ (dest.index lane).postings key ↔
        e.dupOf ∈ (src.index lane).postings key

section Merged

variable {dt : Dict} {reanchored : Bool} {done : List (Segment × Entry)} {src dest dest' : Segment}
  {e : Entry}

theorem merged_new : Merged dt reanchored [] new where
  valid := valid_new
  unsealed := rfl
  length_eq := rfl
  copied n src e h := by simp at h
  carried n src e d h := by simp at h

/-- **One more row.** -/
theorem Merged.absorb (h : Merged dt reanchored done dest)
    (hstep : Absorbs dt reanchored src e dest dest') (hrow : e.row.Sound)
    (hbody : e.row.body.Replannable dt) : Merged dt reanchored (done ++ [(src, e)]) dest' := by
  obtain ⟨cls, l, hmove, hentries⟩ := hstep.entries_eq
  have hlen : dest.entries.length = done.length := h.length_eq
  refine ⟨hstep.valid h.valid h.unsealed hrow hbody, hstep.filter_eq.trans h.unsealed, ?_,
    fun n src' e' hn => ?_, fun n src' e' d hn hd hlead hquoted => ?_⟩
  · rw [length, hentries, length_append, length_append, hlen]
    rfl
  · rw [hentries]
    rcases getElem?_concat.mp hn with hold | ⟨hlast, heq⟩
    · obtain ⟨d, hd, hrest⟩ := h.copied n src' e' hold
      exact ⟨d, getElem?_concat.mpr (.inl hd), hrest⟩
    · cases heq
      exact ⟨_, getElem?_concat.mpr (.inr ⟨hlast.trans hlen.symm, rfl⟩), rfl, rfl, hmove⟩
  · rcases getElem?_concat.mp hn with hold | ⟨hlast, heq⟩
    · have hlt : n < dest.entries.length := hlen ▸ (List.getElem?_eq_some_iff.mp hold).1
      rw [hentries, getElem?_append_left hlt] at hd
      obtain ⟨hcls, hpost⟩ := h.carried n src' e' d hold hd hlead hquoted
      exact ⟨hcls, fun lane key => (hstep.mem_postings_of_lt hlt).trans (hpost lane key)⟩
    · cases heq
      have hn' : n = dest.length := hlast.trans hlen.symm
      subst hn'
      exact hstep.carried h.valid.grouped hd hlead hquoted

end Merged

def mergedEntries (sources : List Segment) : List (Segment × Entry) :=
  sources.flatMap fun src => src.liveEntries.map fun e => (src, e)

theorem Valid.of_mem_liveEntries {dt : Dict} {src : Segment} (h : src.Valid dt) {e : Entry}
    (he : e ∈ src.liveEntries) :
    ∃ i : Nat, src.entries[i]? = some e ∧ e.alive = true ∧ e.row.Sound ∧ e.Replannable dt := by
  obtain ⟨hmem, halive⟩ := mem_filter.mp he
  obtain ⟨i, hi⟩ := mem_iff_getElem?.mp hmem
  exact ⟨i, hi, halive, h.kept.sound i e hi, h.replannable i e hi⟩

section Fold

variable {σ : Type} {dt : Dict} {reanchored : Bool} {sources : List Segment} (proj : σ → Segment)
  (keeps : σ → Prop) (step : Segment → σ → Entry → σ)

theorem Merged.foldl_rows {src : Segment} (hsrc : src.Valid dt) {es : List Entry}
    (hes : ∀ e ∈ es, e ∈ src.liveEntries)
    (hstep : ∀ s, ∀ e ∈ src.liveEntries, (proj s).Valid dt → keeps s →
      Absorbs dt reanchored src e (proj s) (proj (step src s e)) ∧ keeps (step src s e))
    {done : List (Segment × Entry)} {s : σ} (h : Merged dt reanchored done (proj s))
    (hkeeps : keeps s) :
    Merged dt reanchored (done ++ es.map fun e => (src, e)) (proj (es.foldl (step src) s)) ∧
      keeps (es.foldl (step src) s) := by
  induction es generalizing done s with
  | nil => exact ⟨by rwa [map_nil, append_nil], hkeeps⟩
  | cons e es ih =>
    have he := hes e mem_cons_self
    obtain ⟨i, -, -, hrow, hreplan⟩ := hsrc.of_mem_liveEntries he
    obtain ⟨habsorbs, hkeeps'⟩ := hstep s e he h.valid hkeeps
    have hnext := ih (fun e' he' => hes e' (mem_cons_of_mem e he'))
      (h.absorb habsorbs hrow hreplan.body) hkeeps'
    rwa [append_assoc] at hnext

theorem Merged.foldl_sources (hsources : ∀ src ∈ sources, src.Valid dt)
    (hstep : ∀ src ∈ sources, ∀ s, ∀ e ∈ src.liveEntries, (proj s).Valid dt → keeps s →
      Absorbs dt reanchored src e (proj s) (proj (step src s e)) ∧ keeps (step src s e))
    {done : List (Segment × Entry)} {s : σ} (h : Merged dt reanchored done (proj s))
    (hkeeps : keeps s) :
    Merged dt reanchored (done ++ mergedEntries sources)
      (proj (sources.foldl (fun s src => src.liveEntries.foldl (step src) s) s)) := by
  induction sources generalizing done s with
  | nil => rwa [mergedEntries, flatMap_nil, append_nil]
  | cons src sources ih =>
    obtain ⟨hone, hkeeps'⟩ := Merged.foldl_rows proj keeps step
      (hsources src mem_cons_self) (fun _ he => he) (hstep src mem_cons_self) h hkeeps
    have hnext := ih (fun src' hs => hsources src' (mem_cons_of_mem src hs))
      (fun src' hs => hstep src' (mem_cons_of_mem src hs)) hone hkeeps'
    rwa [append_assoc] at hnext

end Fold

/-! ## the merge that regroups -/

section Regroup

variable {dt : Dict} {reanchored : Bool} {src dest : Segment} {e : Entry}

theorem absorbs_carried (hsrc : src.Valid dt) (he : e ∈ src.liveEntries) :
    Absorbs dt reanchored src e dest (dest.lead e.row (src.coverOf e) true e.row.hasPhrases) := by
  obtain ⟨i, hi, -, -, hreplan⟩ := hsrc.of_mem_liveEntries he
  exact .lead (coversBody_coverOf hsrc.grouped hsrc.covers hi)
    (fun _ _ => lane_of_mem_coverOf hsrc.grouped hi) (fun _ _ => ne_zero_of_mem_coverOf hsrc.kept)
    hreplan.universal (.inl rfl) fun _ => rfl

theorem absorbs_regroup (hsrc : src.Valid dt) (hdest : dest.Grouped) (he : e ∈ src.liveEntries) :
    Absorbs dt reanchored src e dest (regroup src dest e) := by
  unfold regroup
  split
  · next l hl =>
    obtain ⟨hmem, le, hle, hsame⟩ := exists_of_find?_any hl
    simp only [Bool.and_eq_true, beq_iff_eq] at hsame
    obtain ⟨le', hle', hlead⟩ := hdest.bodyLeader _ l hmem
    rw [hle] at hle'
    cases hle'
    rw [hle]
    exact .join hle hlead hsame.2 (.inl hsame.1)
  · exact absorbs_carried hsrc he

/-- **The merge that regroups copies every live row.** -/
theorem merged_regrouped {sources : List Segment} (hsources : ∀ src ∈ sources, src.Valid dt) :
    Merged dt reanchored (mergedEntries sources)
      (sources.foldl (fun dest src => src.liveEntries.foldl (regroup src) dest) .new) :=
  Merged.foldl_sources id (fun _ => True) (fun src dest e => regroup src dest e) hsources
    (fun src hs _ _ he hdest _ => ⟨absorbs_regroup (hsources src hs) hdest.grouped he, trivial⟩)
    merged_new trivial

end Regroup

end Segment

/-! ## the re-anchoring merge -/

/-- Re-anchoring under `d` reads back every mask bit of its sources, as
titles will be read under `dt`. -/
structure Dict.Unmasks (d dt : Dict) (sources : List Segment) : Prop where
  frozen : d.MaskFrozen dt
  known : ∀ src ∈ sources, ∀ e ∈ src.entries, ∀ k < 64, e.row.body.reqMask.getLsbD k = true →
    d.maskInverse k ≠ none

theorem Body.bodiesEqual_comm {a b : Body} (h : a.bodiesEqual b = true) :
    b.bodiesEqual a = true := by
  simp only [Body.bodiesEqual, Bool.and_eq_true, beq_iff_eq] at h ⊢
  obtain ⟨⟨⟨⟨⟨⟨⟨⟨h1, h2⟩, h3⟩, h4⟩, h5⟩, h6⟩, h7⟩, h8⟩, h9⟩ := h
  exact ⟨⟨⟨⟨⟨⟨⟨⟨h1.symm, h2.symm⟩, h3.symm⟩, h4.symm⟩, h5.symm⟩, h6.symm⟩, h7.symm⟩, h8.symm⟩,
    h9.symm⟩

/-- A move the guard lets through hides nothing. -/
theorem mayMove_of_not_refuses {old plan new : CostClass}
    (hguard : refusesVisibilityMove old plan = false) (hnew : new.isOptIn = plan.isOptIn)
    (hD : old = .D → plan = .D) : CostClass.MayMove true old new := by
  cases old with
  | A | B | H => cases plan <;> simp_all [refusesVisibilityMove, CostClass.MayMove, CostClass.isOptIn]
  | C =>
    cases hopt : new.isOptIn with
    | true => exact .inl hopt
    | false => exact .inr ⟨rfl, rfl, hopt⟩
  | D =>
    rw [hD rfl] at hnew
    exact .inl hnew

namespace Reanchoring

open Segment

/-- The classes noted are those the leaders' bodies are planned as. -/
structure Noted (d : Dict) (theta : Nat) (s : Reanchoring) : Prop where
  length_eq : s.replanned.length = s.dest.length
  planned : ∀ (l : Nat) (p : CostClass), s.replanned[l]? = some (some p) →
    ∃ le, s.dest.entries[l]? = some le ∧ le.row.hasPhrases = false ∧
      p = (anchorPlan (le.row.body.anchoringInputs d) d theta).cls

section Step

variable {d dt : Dict} {theta maxMoves : Nat} {src : Segment} {s : Reanchoring} {e : Entry}

theorem Noted.concat (h : s.Noted d theta) {s' : Reanchoring} {e' : Entry}
    {note : Option CostClass} (hentries : s'.dest.entries = s.dest.entries ++ [e'])
    (hreplanned : s'.replanned = s.replanned ++ [note])
    (hnote : ∀ p, note = some p → e'.row.hasPhrases = false ∧
      p = (anchorPlan (e'.row.body.anchoringInputs d) d theta).cls) : s'.Noted d theta := by
  have hlen : s.replanned.length = s.dest.entries.length := h.length_eq
  refine ⟨?_, fun l p hl => ?_⟩
  · rw [Segment.length, hentries, hreplanned, length_append, length_append, hlen]
    rfl
  · rw [hreplanned] at hl
    rw [hentries]
    rcases getElem?_concat.mp hl with hold | ⟨hlast, heq⟩
    · obtain ⟨le, hle, hrest⟩ := h.planned l p hold
      exact ⟨le, getElem?_concat.mpr (.inl hle), hrest⟩
    · exact ⟨e', getElem?_concat.mpr (.inr ⟨hlast.trans hlen, rfl⟩), hnote p heq.symm⟩

/-- A row that joins lands where its own class would. -/
theorem absorbs_adopt (hs : s.Noted d theta) (hdest : s.dest.Grouped) (he : e.Replannable dt)
    {l : Nat} (hl : s.leaderFor e = some l) :
    Absorbs dt true src e s.dest (s.adopt e l).dest ∧ (s.adopt e l).Noted d theta := by
  obtain ⟨hmem, le, hle, hsame⟩ := Segment.exists_of_find?_any hl
  simp only [Bool.and_eq_true, beq_iff_eq] at hsame
  obtain ⟨hoptIn, hbody⟩ := hsame
  obtain ⟨le', hle', hlead⟩ := hdest.bodyLeader _ l hmem
  rw [hle] at hle'
  cases hle'
  have hmove : CostClass.MayMove true e.cls le.cls := by
    unfold optInAfterReanchor at hoptIn
    split at hoptIn
    · next p hp =>
      cases hguard : refusesVisibilityMove e.cls p with
      | true =>
        rw [hguard] at hoptIn
        exact .inl hoptIn
      | false =>
        rw [hguard] at hoptIn
        refine mayMove_of_not_refuses hguard hoptIn fun hD => ?_
        -- an always-candidate body is planned as one again
        obtain ⟨le', hle', hphrases, rfl⟩ := hs.planned l p (Option.join_eq_some_iff.mp hp)
        rw [hle] at hle'
        cases hle'
        have hgraphs := requiredGraphs_eq_of_bodiesEqual hbody ▸ requiredGraphs_eq_nil hphrases
        have hempty := he.universal hD hgraphs
        exact (hempty.of_bodiesEqual (Body.bodiesEqual_comm hbody)).cls_anchorPlan
    · exact .inl hoptIn
  have hdest' : (s.adopt e l).dest = s.dest.join l e.row le.cls e.row.hasPhrases := by
    rw [adopt, hle]
    rfl
  refine ⟨hdest' ▸ .join hle hlead hbody hmove, ?_⟩
  exact hs.concat (congrArg Segment.entries hdest') rfl fun p hp => by contradiction

theorem absorbs_replan (hs : s.Noted d theta) (hsrc : src.Valid dt) (hd : d.MaskFrozen dt)
    (he : e ∈ src.liveEntries) (hphrases : e.row.hasPhrases = false)
    (hknown : ∀ k < 64, e.row.body.reqMask.getLsbD k = true → d.maskInverse k ≠ none) :
    Absorbs dt true src e s.dest (s.replan src e d theta maxMoves).dest ∧
      (s.replan src e d theta maxMoves).Noted d theta := by
  obtain ⟨i, hi, -, -, hreplan⟩ := hsrc.of_mem_liveEntries he
  refine ⟨?_, hs.concat rfl rfl fun p hp => ⟨hphrases, (Option.some.inj hp).symm⟩⟩
  unfold replan
  simp only
  split
  · exact absorbs_carried hsrc he
  · next hkeep =>
    rw [Bool.not_eq_true, Bool.or_eq_false_iff] at hkeep
    refine .lead (coversBody_replanned hreplan.body hd) (fun _ _ => lane_of_mem_sigs)
      (fun _ _ => ne_zero_of_mem_sigs) (fun hcls _ => unanchored_of_cls_anchorPlan hknown hcls)
      (mayMove_of_not_refuses hkeep.1 rfl fun hD => ?_) fun hquoted => ?_
    · exact (hreplan.universal hD (requiredGraphs_eq_nil hphrases)).cls_anchorPlan
    · rw [hphrases] at hquoted
      contradiction

/-- **Copying a row is an absorption.** -/
theorem absorbs_copyRow (hs : s.Noted d theta) (hsrc : src.Valid dt) (hd : d.MaskFrozen dt)
    (hdest : s.dest.Grouped) (he : e ∈ src.liveEntries)
    (hknown : ∀ k < 64, e.row.body.reqMask.getLsbD k = true → d.maskInverse k ≠ none) :
    Absorbs dt true src e s.dest (copyRow d theta maxMoves src s e).dest ∧
      (copyRow d theta maxMoves src s e).Noted d theta := by
  obtain ⟨i, hi, -, -, hreplan⟩ := hsrc.of_mem_liveEntries he
  unfold copyRow
  split
  · next l hl => exact absorbs_adopt hs hdest hreplan hl
  · split
    · exact ⟨absorbs_carried hsrc he, hs.concat rfl rfl fun p hp => by contradiction⟩
    · next hphrases => exact absorbs_replan hs hsrc hd he (by simpa using hphrases) hknown

end Step

/-- **The re-anchoring merge copies every live row.** -/
theorem merged_reanchored {d dt : Dict} {theta maxMoves : Nat} {sources : List Segment}
    (hsources : ∀ src ∈ sources, src.Valid dt) (hd : d.Unmasks dt sources) :
    Merged dt true (mergedEntries sources)
      (sources.foldl (fun s src => src.liveEntries.foldl (copyRow d theta maxMoves src) s)
        Reanchoring.new).dest := by
  have hnew : Reanchoring.new.Noted d theta := ⟨rfl, fun l p hl => by simp [new] at hl⟩
  refine Merged.foldl_sources Reanchoring.dest (Noted d theta) (copyRow d theta maxMoves) hsources
    (fun src hs s e he hdest hnoted => ?_) merged_new hnew
  refine absorbs_copyRow hnoted (hsources src hs) hd.frozen hdest.grouped he fun k hk hset => ?_
  exact hd.known src hs e (mem_filter.mp he).1 k hk hset

end Reanchoring

end ReverseRusty
