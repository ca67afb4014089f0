import ReverseRusty.RankedMerge

/-!
# ReverseRusty.RankedPages

The bounded collector over a stream of scored matches, and paging with it
(`collect/top_k.rs`).

The collector of the source has a membership set beside its heap, so that an
id it holds is not scored again; `TopKCollector` has both and refines
`TopKState`, whose set is read off the heap (`TopKCollector.forget_observe`).
A page is a prefix of the ranking after its boundary (`collectScored_eq`),
and the ranking after a page's last row is what the page left.

Main result: `topK_pages_exact`.
-/

namespace ReverseRusty

open List

/-! ## the collector and its state -/

namespace TopKCollector

/-- Forget the membership set. -/
def forget (c : TopKCollector) : TopKState := ⟨c.k, c.after, c.heap, c.totals⟩

def InStep (c : TopKCollector) : Prop := c.heapIds.Perm (c.heap.map RankedHit.logicalId)

end TopKCollector

def collectScored (options : TopKOptions) (emitted : List (UInt64 × Int)) : ShardRankedMatch :=
  (emitted.foldl (fun (c : TopKCollector) hit => c.observe (fun _ => some hit.2) hit.1)
    (TopKCollector.new options)).finish

/-- Page after page: the last row of a page is the boundary of the next one,
and a page without rows is the last.  Every page is collected from a stream of
its own. -/
def pagesFrom (k : Nat) (threshold : UInt64) :
    List (List (UInt64 × Int)) → Option (Int × UInt64) → List (List RankedHit)
  | [], _ => []
  | stream :: streams, after =>
    let page := (collectScored ⟨k, threshold, after⟩ stream).hits
    match page.getLast? with
    | none => [page]
    | some last => page :: pagesFrom k threshold streams (some last.key)

/-! ## the membership set follows the heap -/

namespace TopKCollector

variable {c : TopKCollector} {scorer : UInt64 → Option Int} {logicalId : UInt64}

theorem not_le_iff {a b : RankedHit} : ¬RankedHit.Le a b ↔ rankedBeats b.key a.key = true := by
  rw [RankedHit.Le, not_not, rankedOrder_eq_gt_iff, rankedBeats_iff]

theorem map_logicalId_orderedInsert (hit : RankedHit) (heap : List RankedHit) :
    ((heap.orderedInsert RankedHit.Le hit).map RankedHit.logicalId).Perm
      (hit.logicalId :: heap.map RankedHit.logicalId) :=
  (perm_orderedInsert RankedHit.Le hit heap).map _

theorem forget_observe (h : c.InStep) :
    (c.observe scorer logicalId).forget = c.forget.observe scorer logicalId ∧
      (c.observe scorer logicalId).InStep := by
  have hmem : logicalId ∈ c.heapIds ↔ logicalId ∈ c.heap.map RankedHit.logicalId := h.mem_iff
  have hk : c.forget.k = c.k := rfl
  have hafter : c.forget.after = c.after := rfl
  have hheap : c.forget.heap = c.heap := rfl
  unfold observe TopKState.observe
  simp only [hk, hafter, hheap, hmem]
  by_cases hskip : c.k = 0 ∨ logicalId ∈ c.heap.map RankedHit.logicalId
  · rw [if_pos hskip, if_pos hskip]
    exact ⟨rfl, h⟩
  · rw [if_neg hskip, if_neg hskip]
    cases scorer logicalId with
    | none => exact ⟨rfl, h⟩
    | some score =>
      simp only
      by_cases hbefore : c.after.any fun after =>
          !rankedBeats after (RankedHit.key ⟨logicalId, score⟩)
      · rw [if_pos hbefore, if_pos hbefore]
        exact ⟨rfl, h⟩
      · rw [if_neg hbefore, if_neg hbefore, keepBest]
        by_cases hroom : c.heap.length < c.k
        · rw [if_pos hroom, if_pos hroom]
          exact ⟨rfl, (h.cons _).trans (map_logicalId_orderedInsert ⟨logicalId, score⟩ c.heap).symm⟩
        · rw [if_neg hroom, if_neg hroom]
          cases hworst : c.heap.getLast? with
          | none => exact ⟨rfl, h⟩
          | some worst =>
            obtain ⟨init, hinit⟩ := getLast?_eq_some_iff.mp hworst
            simp only
            by_cases hbeats : rankedBeats (RankedHit.key ⟨logicalId, score⟩) worst.key = true
            · rw [if_pos hbeats, if_neg (not_le_iff.mpr hbeats)]
              refine ⟨rfl, ?_⟩
              -- the worst id leaves the set as the worst hit leaves the heap
              have hids : c.heapIds.Perm (worst.logicalId :: init.map RankedHit.logicalId) := by
                refine h.trans ?_
                rw [hinit, map_append]
                exact perm_append_singleton _ _
              have herase : (c.heapIds.erase worst.logicalId).Perm
                  (init.map RankedHit.logicalId) := by
                have hcons := perm_cons_erase (hids.mem_iff.mpr mem_cons_self)
                exact (hcons.symm.trans hids).cons_inv
              rw [InStep, hinit, dropLast_concat]
              exact (herase.cons _).trans (map_logicalId_orderedInsert ⟨logicalId, score⟩ init).symm
            · rw [if_neg hbeats, if_pos (by rwa [← not_le_iff, not_not] at hbeats)]
              exact ⟨rfl, h⟩

end TopKCollector

/-! ## the ranking -/

/-- Matches with the same id have the same score. -/
def Scored (emitted : List (UInt64 × Int)) : Prop :=
  ∀ a ∈ emitted, ∀ b ∈ emitted, a.1 = b.1 → a.2 = b.2

/-- The distinct matches after the boundary, in rank order. -/
def ranking (after : Option (Int × UInt64)) (emitted : List (UInt64 × Int)) : List RankedHit :=
  ((emitted.map fun hit => ⟨hit.1, hit.2⟩).dedup.filter (isAfter after)).insertionSort RankedHit.Le

def scoreIn (emitted : List (UInt64 × Int)) (id : UInt64) : Int := (emitted.lookup id).getD 0

section Ranking

variable {emitted emitted' : List (UInt64 × Int)} {after : Option (Int × UInt64)} {hit : RankedHit}

theorem mem_ranking : hit ∈ ranking after emitted ↔
    (hit.logicalId, hit.score) ∈ emitted ∧ isAfter after hit = true := by
  rw [ranking, mem_insertionSort, mem_filter, mem_dedup, mem_map]
  refine and_congr_left fun _ => ⟨?_, fun h => ⟨_, h, rfl⟩⟩
  rintro ⟨pair, hpair, rfl⟩
  exact hpair

theorem nodup_ranking : (ranking after emitted).Nodup :=
  (perm_insertionSort _ _).nodup_iff.mpr ((nodup_dedup _).filter _)

theorem isAfter_none : isAfter none hit = true := rfl

theorem isAfter_some {boundary : Int × UInt64} :
    isAfter (some boundary) hit = rankedBeats boundary hit.key := by
  rw [isAfter, Option.any_some, Bool.not_not]

theorem ranking_congr (h : ∀ pair, pair ∈ emitted ↔ pair ∈ emitted') :
    ranking after emitted = ranking after emitted' := by
  refine List.Perm.eq_of_pairwise' (pairwise_insertionSort _ _)
    (pairwise_insertionSort _ _) ?_
  refine (perm_ext_iff_of_nodup nodup_ranking nodup_ranking).mpr fun hit => ?_
  rw [mem_ranking, mem_ranking, h]

theorem ranking_eq_filter : ranking after emitted = (ranking none emitted).filter (isAfter after) := by
  refine List.Perm.eq_of_pairwise' (pairwise_insertionSort _ _)
    ((pairwise_insertionSort _ _).filter _) ?_
  refine (perm_ext_iff_of_nodup nodup_ranking (nodup_ranking.filter _)).mpr fun hit => ?_
  rw [mem_filter, mem_ranking, mem_ranking, isAfter_none, and_iff_left rfl]

theorem scoreIn_eq (h : Scored emitted) {pair : UInt64 × Int} (hpair : pair ∈ emitted) :
    scoreIn emitted pair.1 = pair.2 := by
  cases hlookup : emitted.lookup pair.1 with
  | none =>
    have hno := lookup_eq_none_iff.mp hlookup pair hpair
    simp at hno
  | some score =>
    obtain ⟨before, rest, heq, -⟩ := lookup_eq_some_iff.mp hlookup
    have hmem : (pair.1, score) ∈ emitted := by
      rw [heq]
      exact mem_append_right _ mem_cons_self
    rw [scoreIn, hlookup, Option.getD_some]
    exact h _ hmem _ hpair rfl

theorem nodup_map_logicalId_ranking (h : Scored emitted) :
    ((ranking after emitted).map RankedHit.logicalId).Nodup := by
  refine List.Nodup.map_on ?_ nodup_ranking
  intro a ha b hb hid
  have hscore := h _ (mem_ranking.mp ha).1 _ (mem_ranking.mp hb).1 hid
  cases a
  cases b
  simp only at hid hscore
  rw [hid, hscore]

theorem pairwise_ranking (h : Scored emitted) :
    (ranking after emitted).Pairwise fun a b => rankedBeats a.key b.key = true := by
  have hids : ((ranking after emitted).map RankedHit.logicalId).Nodup :=
    nodup_map_logicalId_ranking h
  rw [List.Nodup, pairwise_map] at hids
  refine ((pairwise_insertionSort RankedHit.Le _).and hids).imp ?_
  rintro a b ⟨hle, hne⟩
  exact RankedHit.rankedBeats_of_le hle hne

theorem rankedPage_scoreIn (h : Scored emitted) (options : TopKOptions) :
    rankedPage options (scoreIn emitted) (emitted.map Prod.fst) =
      (ranking options.searchAfter emitted).take options.size := by
  rw [rankedPage, topK, ranking]
  congr 1
  refine insertionSort_congr ((perm_ext_iff_of_nodup nodup_afterBoundary
    ((nodup_dedup _).filter _)).mpr fun hit => ?_)
  rw [mem_afterBoundary, ← mem_insertionSort RankedHit.Le, ← ranking, mem_ranking, mem_map,
    ← and_assoc]
  refine and_congr_left fun _ => ⟨?_, fun hmem => ⟨⟨_, hmem, rfl⟩, ?_⟩⟩
  · rintro ⟨⟨pair, hpair, hid⟩, heq⟩
    rw [heq, hitOf, ← hid, scoreIn_eq h hpair]
    exact hpair
  · have hscore : scoreIn emitted hit.logicalId = hit.score := scoreIn_eq h hmem
    rw [hitOf, hscore]

/-! ## pages -/

theorem collectScored_eq_collectTopK (h : Scored emitted) (options : TopKOptions) :
    collectScored options emitted =
      collectTopK options (scoreIn emitted) (emitted.map Prod.fst) := by
  have hrun : ∀ stream : List (UInt64 × Int), (∀ pair ∈ stream, pair ∈ emitted) → ∀ c : TopKCollector, c.InStep →
      (stream.foldl (fun (c : TopKCollector) hit => c.observe (fun _ => some hit.2) hit.1)
          c).finish =
        ((stream.map Prod.fst).foldl
          (fun (st : TopKState) id => st.observe (fun id => some (scoreIn emitted id)) id)
          c.forget).finish := by
    intro stream
    induction stream with
    | nil => exact fun _ c _ => rfl
    | cons pair stream ih =>
      intro hsub c hc
      have hscore := scoreIn_eq h (hsub pair mem_cons_self)
      have hscorer : c.forget.observe (fun _ => some pair.2) pair.1 =
          c.forget.observe (fun id => some (scoreIn emitted id)) pair.1 := by
        simp only [TopKState.observe, hscore]
      obtain ⟨hforget, hstep⟩ :=
        @TopKCollector.forget_observe c (fun _ => some pair.2) pair.1 hc
      rw [foldl_cons, map_cons, foldl_cons,
        ih (fun p hp => hsub p (mem_cons_of_mem _ hp)) _ hstep, hforget, hscorer]
  exact hrun emitted (fun _ hp => hp) (TopKCollector.new options) (List.Perm.refl [])

/-- **The collector answers with the start of the ranking after the boundary
and the number of distinct ids.** -/
theorem collectScored_eq (h : Scored emitted) (options : TopKOptions) :
    collectScored options emitted =
      ⟨(ranking options.searchAfter emitted).take options.size,
        distinctTotal options.trackTotalHitsUpTo (emitted.map Prod.fst)⟩ := by
  rw [collectScored_eq_collectTopK h, collectTopK_eq, rankedPage_scoreIn h]

variable {before rest : List RankedHit}

theorem filter_isAfter_row {last : RankedHit}
    (hsorted : (before ++ last :: rest).Pairwise fun a b => rankedBeats a.key b.key = true) :
    (before ++ last :: rest).filter (isAfter (some last.key)) = rest := by
  obtain ⟨-, htail, hcross⟩ := pairwise_append.mp hsorted
  have hirrefl : ∀ hit : RankedHit, rankedBeats hit.key hit.key = false := by
    intro hit
    rw [Bool.eq_false_iff, ne_eq, rankedBeats_iff]
    simp
  have hbefore : before.filter (isAfter (some last.key)) = [] := by
    refine filter_eq_nil_iff.mpr fun hit hhit hafter => ?_
    rw [isAfter_some] at hafter
    have hcycle := rankedBeats_trans (hcross hit hhit last mem_cons_self) hafter
    rw [hirrefl] at hcycle
    contradiction
  have hrest : rest.filter (isAfter (some last.key)) = rest := by
    refine filter_eq_self.mpr fun hit hhit => ?_
    rw [isAfter_some]
    exact (pairwise_cons.mp htail).1 hit hhit
  rw [filter_append, hbefore, filter_cons, isAfter_some, hirrefl, hrest]
  rfl

/-- **Pages go on where they stopped**: so many pages are the start of what
the ranking has after the first boundary. -/
theorem flatten_pagesFrom (h : Scored emitted) {k : Nat} {threshold : UInt64}
    {streams : List (List (UInt64 × Int))}
    (hstreams : ∀ stream ∈ streams, ∀ pair, pair ∈ stream ↔ pair ∈ emitted)
    (hsplit : ranking none emitted = before ++ rest)
    (hafter : (ranking none emitted).filter (isAfter after) = rest) :
    (pagesFrom k threshold streams after).flatten = rest.take (streams.length * k) := by
  induction streams generalizing after before rest with
  | nil => simp [pagesFrom]
  | cons stream streams ih =>
    have hstream := hstreams stream mem_cons_self
    have hscored : Scored stream := fun a ha b hb =>
      h a ((hstream a).mp ha) b ((hstream b).mp hb)
    have hpage : (collectScored ⟨k, threshold, after⟩ stream).hits = rest.take k := by
      rw [collectScored_eq hscored, ranking_congr hstream, ranking_eq_filter, hafter]
    have hlength : (stream :: streams).length * k = k + streams.length * k := by
      rw [length_cons, Nat.succ_mul, Nat.add_comm]
    rw [pagesFrom, hpage, hlength, take_add]
    cases hlast : (rest.take k).getLast? with
    | none =>
      -- nothing is left, or pages have no rows
      rw [getLast?_eq_none_iff, take_eq_nil_iff] at hlast
      rcases hlast with rfl | rfl
      · simp
      · simp
    | some last =>
      obtain ⟨init, hinit⟩ := getLast?_eq_some_iff.mp hlast
      have hrest : ranking none emitted = (before ++ init) ++ last :: rest.drop k := by
        rw [hsplit]
        conv_lhs => rw [← take_append_drop k rest, hinit]
        simp
      have hsorted : (ranking none emitted).Pairwise fun a b =>
        rankedBeats a.key b.key = true := pairwise_ranking h
      have hnext : (ranking none emitted).filter (isAfter (some last.key)) = rest.drop k := by
        rw [hrest] at hsorted ⊢
        exact filter_isAfter_row hsorted
      have hsplit' : ranking none emitted = (before ++ init ++ [last]) ++ rest.drop k := by
        rw [hrest]
        simp
      rw [flatten_cons, ih (fun s hs => hstreams s (mem_cons_of_mem _ hs)) hsplit' hnext]

/-- **The bounded collector is exact, and so is paging with it.**  For
matches in any order, repeated or not, the winners are the first `k` distinct
ids after the boundary, the total is the number of distinct ids up to the
threshold, and pages that each start after the last row of the one before list
the ranking from its start, every id once. -/
theorem topK_pages_exact (emitted : List (UInt64 × Int)) (hscores : Scored emitted) :
    (∀ after, (ranking after emitted).Pairwise (fun a b => rankedBeats a.key b.key = true) ∧
      ((ranking after emitted).map RankedHit.logicalId).Nodup ∧
      ∀ id score, ⟨id, score⟩ ∈ ranking after emitted ↔
        (id, score) ∈ emitted ∧ ∀ boundary ∈ after, rankedBeats boundary (score, id) = true) ∧
    (∀ options, (collectScored options emitted).hits =
        (ranking options.searchAfter emitted).take options.size) ∧
    (∀ options, (collectScored options emitted).totalHits =
      if (emitted.map Prod.fst).dedup.length ≤ options.trackTotalHitsUpTo.toNat then
        .exact (UInt64.ofNat (emitted.map Prod.fst).dedup.length)
      else .lowerBound options.trackTotalHitsUpTo) ∧
    ∀ k threshold streams, (∀ stream ∈ streams, ∀ pair, pair ∈ stream ↔ pair ∈ emitted) →
      (pagesFrom k threshold streams none).flatten =
          (ranking none emitted).take (streams.length * k) ∧
        ((emitted.map Prod.fst).dedup.length ≤ streams.length * k →
          (pagesFrom k threshold streams none).flatten = ranking none emitted) := by
  refine ⟨fun after => ⟨pairwise_ranking hscores, nodup_map_logicalId_ranking hscores, ?_⟩,
    fun options => ?_, fun options => ?_, fun k threshold streams hstreams => ?_⟩
  · intro id score
    rw [mem_ranking]
    refine and_congr_right fun _ => ?_
    cases after with
    | none => simp [isAfter_none]
    | some boundary => simp [isAfter_some, RankedHit.key]
  · rw [collectScored_eq hscores]
  · rw [collectScored_eq hscores]
    rfl
  · have hpages : (pagesFrom k threshold streams none).flatten =
        (ranking none emitted).take (streams.length * k) :=
      flatten_pagesFrom hscores hstreams (nil_append _).symm ranking_eq_filter.symm
    refine ⟨hpages, fun hlen => hpages.trans (take_of_length_le (le_trans ?_ hlen))⟩
    -- distinct rows have distinct ids
    have hsub : (ranking none emitted).map RankedHit.logicalId ⊆ (emitted.map Prod.fst).dedup := by
      intro id hid
      obtain ⟨hit, hhit, rfl⟩ := mem_map.mp hid
      exact mem_dedup.mpr (mem_map_of_mem (mem_ranking.mp hhit).1)
    have hids := (List.Nodup.subperm (nodup_map_logicalId_ranking hscores) hsub).length_le
    rwa [length_map] at hids

theorem topK_pages_exact_two_pages :
    Scored [(7, 3), (5, 9), (7, 3), (2, 9)] ∧
    (pagesFrom 2 10 [[(7, 3), (5, 9), (7, 3), (2, 9)], [(2, 9), (5, 9), (7, 3)]] none).flatten =
      [⟨2, 9⟩, ⟨5, 9⟩, ⟨7, 3⟩] := by
  have hscores : Scored [(7, 3), (5, 9), (7, 3), (2, 9)] := by
    unfold Scored
    decide +kernel
  have hpages := (topK_pages_exact _ hscores).2.2.2 2 10
    [[(7, 3), (5, 9), (7, 3), (2, 9)], [(2, 9), (5, 9), (7, 3)]] (by simp; tauto)
  exact ⟨hscores, (hpages.2 (by decide +kernel)).trans (by decide +kernel)⟩

end Ranking

end ReverseRusty
