import ReverseRusty.Ranked

/-!
# ReverseRusty.RankedMerge

Ranked percolation over shards against one list of matches.

`rankedPage` is the page a request asks for: the first `k` matches after the
boundary, in rank order, each id once.  `distinctTotal` is its total.  A
collector answers with both for the ids its shard emitted
(`collectTopK_eq`), and the coordinator's merge of disjoint answers has both
for all ids; a reply no collector gives is refused.

Main result: `mergeReplies_distributed`.
-/

namespace ReverseRusty

open List

/-! ## the order of hits is linear -/

/-- Keys in the order of their ranks: scores down, then ids up. -/
def rankOf (a : Int × UInt64) : Intᵒᵈ ×ₗ UInt64 := toLex (.toDual a.1, a.2)

section Rank

variable {a b c : Int × UInt64}

theorem rankedOrder_eq_lt_iff : rankedOrder a b = .lt ↔ rankOf a < rankOf b := by
  rw [rankedOrder, Ordering.then_eq_lt, Std.compare_eq_lt, Std.compare_eq_lt, compare_eq_iff_eq,
    eq_comm, rankOf, rankOf, Prod.Lex.lt_iff]
  exact Iff.rfl

theorem rankedOrder_eq_gt_iff : rankedOrder a b = .gt ↔ rankOf b < rankOf a := by
  rw [rankedOrder, Ordering.then_eq_gt, Std.compare_eq_gt, Std.compare_eq_gt, compare_eq_iff_eq,
    rankOf, rankOf, Prod.Lex.lt_iff]
  exact Iff.rfl

theorem rankedBeats_iff : rankedBeats a b = true ↔ rankOf a < rankOf b := by
  rw [rankedBeats, beq_iff_eq, rankedOrder_eq_lt_iff]

theorem rankedBeats_trans (hab : rankedBeats a b = true) (hbc : rankedBeats b c = true) :
    rankedBeats a c = true := by
  rw [rankedBeats_iff] at *
  exact hab.trans hbc

end Rank

namespace RankedHit

variable {a b c : RankedHit}

theorem le_iff : Le a b ↔ rankOf a.key ≤ rankOf b.key := by
  rw [Le, ne_eq, rankedOrder_eq_gt_iff, not_lt]

instance : Std.Total Le where
  total a b := by
    rw [le_iff, le_iff]
    exact le_total _ _

instance : IsTrans RankedHit Le where
  trans a b c hab hbc := by
    rw [le_iff] at *
    exact hab.trans hbc

instance : Std.Antisymm Le where
  antisymm a b hab hba := by
    rw [le_iff] at *
    obtain ⟨hscore, hid⟩ := Prod.mk.inj (toLex.injective (le_antisymm hab hba))
    obtain ⟨aid, ascore⟩ := a
    obtain ⟨bid, bscore⟩ := b
    cases hscore
    cases hid
    rfl

/-- Two different hits in order: the first one beats the other. -/
theorem rankedBeats_of_le (h : Le a b) (hne : a.logicalId ≠ b.logicalId) :
    rankedBeats a.key b.key = true := by
  rw [rankedBeats_iff]
  refine lt_of_le_of_ne (le_iff.mp h) fun heq => hne ?_
  exact (Prod.mk.inj (toLex.injective heq)).2

end RankedHit

/-! ## the page and the total of a request -/

def hitOf (score : UInt64 → Int) (id : UInt64) : RankedHit := ⟨id, score id⟩

def isAfter (after : Option (Int × UInt64)) (hit : RankedHit) : Bool :=
  !after.any fun boundary => !rankedBeats boundary hit.key

/-- The matches after the boundary, each once. -/
def afterBoundary (score : UInt64 → Int) (after : Option (Int × UInt64)) (ids : List UInt64) :
    List RankedHit :=
  (ids.dedup.map (hitOf score)).filter (isAfter after)

/-- The first `k` matches after the boundary, in rank order. -/
def rankedPage (options : TopKOptions) (score : UInt64 → Int) (ids : List UInt64) :
    List RankedHit :=
  topK RankedHit.Le options.size (afterBoundary score options.searchAfter ids)

def distinctTotal (threshold : UInt64) (ids : List UInt64) : TotalHits :=
  if ids.dedup.length ≤ threshold.toNat then .exact (UInt64.ofNat ids.dedup.length)
  else .lowerBound threshold

section Page

variable {score : UInt64 → Int} {after : Option (Int × UInt64)} {ids ids' : List UInt64}
  {options : TopKOptions} {x : UInt64}

theorem hitOf_injective : Function.Injective (hitOf score) :=
  fun _ _ h => congrArg RankedHit.logicalId h

variable {hit : RankedHit}

theorem mem_afterBoundary :
    hit ∈ afterBoundary score after ids ↔
      hit.logicalId ∈ ids ∧ hit = hitOf score hit.logicalId ∧ isAfter after hit = true := by
  rw [afterBoundary, mem_filter, mem_map]
  constructor
  · rintro ⟨⟨id, hid, rfl⟩, hafter⟩
    exact ⟨mem_dedup.mp hid, rfl, hafter⟩
  · rintro ⟨hid, heq, hafter⟩
    exact ⟨⟨hit.logicalId, mem_dedup.mpr hid, heq.symm⟩, hafter⟩

theorem nodup_afterBoundary : (afterBoundary score after ids).Nodup :=
  ((nodup_dedup ids).map hitOf_injective).filter _

theorem afterBoundary_perm (h : ∀ y, y ∈ ids ↔ y ∈ ids') :
    (afterBoundary score after ids).Perm (afterBoundary score after ids') := by
  refine (perm_ext_iff_of_nodup nodup_afterBoundary nodup_afterBoundary).mpr fun hit => ?_
  rw [mem_afterBoundary, mem_afterBoundary, h]

theorem rankedPage_congr (h : ∀ y, y ∈ ids ↔ y ∈ ids') :
    rankedPage options score ids = rankedPage options score ids' :=
  topK_congr (afterBoundary_perm h) _

theorem mem_rankedPage (h : hit ∈ rankedPage options score ids) :
    hit ∈ afterBoundary score options.searchAfter ids :=
  (mem_insertionSort _).mp (mem_of_mem_take h)

theorem nodup_rankedPage : (rankedPage options score ids).Nodup :=
  ((perm_insertionSort _ _).nodup_iff.mpr nodup_afterBoundary).sublist
    (take_sublist _ _)

theorem eq_of_mem_rankedPage {a b : RankedHit} (ha : a ∈ rankedPage options score ids)
    (hb : b ∈ rankedPage options score ids) (hid : a.logicalId = b.logicalId) : a = b := by
  rw [(mem_afterBoundary.mp (mem_rankedPage ha)).2.1,
    (mem_afterBoundary.mp (mem_rankedPage hb)).2.1, hid]

theorem length_rankedPage_le : (rankedPage options score ids).length ≤ ids.dedup.length := by
  rw [rankedPage, length_topK, afterBoundary]
  exact (Nat.min_le_right _ _).trans ((length_filter_le _ _).trans (length_map _).le)

theorem distinctTotal_of_le {threshold : UInt64} (h : ids.dedup.length ≤ threshold.toNat) :
    (distinctTotal threshold ids).relation = .eq ∧
      (distinctTotal threshold ids).value.toNat = ids.dedup.length := by
  rw [distinctTotal, if_pos h]
  exact ⟨rfl, UInt64.toNat_ofNat_of_lt' (lt_of_le_of_lt h threshold.toNat_lt)⟩

theorem le_of_distinctTotal_eq {threshold : UInt64}
    (h : (distinctTotal threshold ids).relation = .eq) : ids.dedup.length ≤ threshold.toNat := by
  by_contra hlt
  rw [distinctTotal, if_neg hlt] at h
  cases h

theorem distinctTotal_consistent {threshold : UInt64} {rows : Nat}
    (h : rows ≤ ids.dedup.length) : (distinctTotal threshold ids).consistent threshold rows = true := by
  unfold TotalHits.consistent
  split
  next heq =>
    have hle := le_of_distinctTotal_eq heq
    obtain ⟨-, hvalue⟩ := distinctTotal_of_le hle
    rw [decide_eq_true_eq, UInt64.le_iff_toNat_le, hvalue]
    exact ⟨hle, h⟩
  next hgte =>
    by_cases hle : ids.dedup.length ≤ threshold.toNat
    · rw [(distinctTotal_of_le hle).1] at hgte
      cases hgte
    · rw [distinctTotal, if_neg hle]
      exact decide_eq_true rfl

theorem length_eq_of_nodup (hids : ids.Nodup) (hids' : ids'.Nodup) (h : ∀ y, y ∈ ids ↔ y ∈ ids') :
    ids.length = ids'.length :=
  ((perm_ext_iff_of_nodup hids hids').mpr h).length_eq

theorem dedup_length_congr (h : ∀ y, y ∈ ids ↔ y ∈ ids') :
    ids.dedup.length = ids'.dedup.length :=
  length_eq_of_nodup (nodup_dedup _) (nodup_dedup _) fun y => by
    rw [mem_dedup, mem_dedup, h]

theorem mem_append_singleton_iff (x : UInt64) (ids : List UInt64) (y : UInt64) :
    y ∈ ids ++ [x] ↔ y ∈ x :: ids := by
  rw [mem_append, mem_singleton, mem_cons, or_comm]

end Page

/-! ## the collector -/

/-- What the tracker knows of the ids it was shown. -/
structure TotalTracker.Tracks (t : TotalTracker) (threshold : UInt64) (ids : List UInt64) :
    Prop where
  threshold_eq : t.threshold = threshold
  exceeded_iff : t.exceeded = true ↔ threshold.toNat < ids.dedup.length
  seen : t.exceeded = false → t.seen.Nodup ∧ ∀ y, y ∈ t.seen ↔ y ∈ ids

namespace TotalTracker.Tracks

variable {t : TotalTracker} {threshold : UInt64} {ids : List UInt64}

theorem new (threshold : UInt64) : (TotalTracker.new threshold).Tracks threshold [] where
  threshold_eq := rfl
  exceeded_iff := by simp [TotalTracker.new]
  seen _ := ⟨.nil, fun _ => Iff.rfl⟩

theorem length_eq (h : t.Tracks threshold ids) (hno : t.exceeded = false) :
    t.seen.length = ids.dedup.length := by
  obtain ⟨hnodup, hmem⟩ := h.seen hno
  exact length_eq_of_nodup hnodup (nodup_dedup _) fun y => by rw [hmem, mem_dedup]

theorem dedup_length_le_append (ids : List UInt64) (x : UInt64) :
    ids.dedup.length ≤ (ids ++ [x]).dedup.length := by
  rw [dedup_length_congr (mem_append_singleton_iff x ids)]
  by_cases hx : x ∈ ids
  · rw [dedup_cons_of_mem hx]
  · rw [dedup_cons_of_notMem hx]
    exact Nat.le_succ _

theorem observe (h : t.Tracks threshold ids) (x : UInt64) :
    (t.observe x).Tracks threshold (ids ++ [x]) := by
  unfold TotalTracker.observe
  cases hex : t.exceeded with
  | true =>
    -- nothing is counted past the threshold
    rw [if_pos (.inl rfl)]
    refine ⟨h.threshold_eq, iff_of_true hex ?_, fun hno => absurd (hex.symm.trans hno) nofun⟩
    exact (h.exceeded_iff.mp hex).trans_le (dedup_length_le_append ids x)
  | false =>
    obtain ⟨hnodup, hmem⟩ := h.seen hex
    split
    next hskip =>
      have hseen := hskip.resolve_left nofun
      have hsame : ∀ y, y ∈ ids ++ [x] ↔ y ∈ ids := fun y => by
        rw [mem_append, mem_singleton]
        exact ⟨fun hy => hy.elim id fun heq => heq ▸ (hmem x).mp hseen, .inl⟩
      refine ⟨h.threshold_eq, ?_, fun _ => ⟨hnodup, fun y => (hmem y).trans (hsame y).symm⟩⟩
      rw [h.exceeded_iff, dedup_length_congr hsame]
    next hnew =>
      have hnotin := (not_or.mp hnew).2
      have hlen : (ids ++ [x]).dedup.length = (x :: t.seen).length := by
        rw [dedup_length_congr (mem_append_singleton_iff x ids),
          dedup_cons_of_notMem (fun hx => hnotin ((hmem x).mpr hx)), length_cons,
          length_cons, h.length_eq hex]
      refine ⟨h.threshold_eq, ?_, fun _ => ⟨hnodup.cons hnotin, fun y => ?_⟩⟩
      · simp [h.threshold_eq, hlen]
      · rw [mem_append_singleton_iff, mem_cons, mem_cons, hmem]

theorem totalHits_eq (h : t.Tracks threshold ids) : t.totalHits = distinctTotal threshold ids := by
  unfold TotalTracker.totalHits distinctTotal
  cases hex : t.exceeded with
  | true =>
    have := h.exceeded_iff.mp hex
    rw [if_pos rfl, if_neg (by omega), h.threshold_eq]
  | false =>
    have hle : ¬threshold.toNat < ids.dedup.length := fun hlt => by
      rw [h.exceeded_iff.mpr hlt] at hex
      cases hex
    rw [if_neg (by simp), if_pos (by omega), h.length_eq hex]

end TotalTracker.Tracks

/-- What a collector holds after the ids it was shown. -/
structure TopKState.Holds (st : TopKState) (options : TopKOptions) (score : UInt64 → Int)
    (ids : List UInt64) : Prop where
  k : st.k = options.size
  after : st.after = options.searchAfter
  heap : st.heap = rankedPage options score ids
  totals : st.totals.Tracks options.trackTotalHitsUpTo ids

variable {st : TopKState}

theorem TopKState.Holds.observe {options : TopKOptions} {score : UInt64 → Int} {ids : List UInt64}
    (h : st.Holds options score ids) (x : UInt64) :
    (st.observe (fun id => some (score id)) x).Holds options score (ids ++ [x]) := by
  have htotals := h.totals.observe x
  have hpage : rankedPage options score (ids ++ [x]) = rankedPage options score (x :: ids) :=
    rankedPage_congr (mem_append_singleton_iff x ids)
  have hsame : x ∈ ids → rankedPage options score (x :: ids) = rankedPage options score ids :=
    fun hx => rankedPage_congr fun y => by
      rw [mem_cons]
      exact ⟨fun hy => hy.elim (fun heq => heq ▸ hx) id, .inr⟩
  unfold TopKState.observe
  simp only [h.k, h.after]
  split
  next hskip =>
    refine ⟨rfl, rfl, ?_, htotals⟩
    rw [hpage, h.heap]
    rcases hskip with hzero | hin
    · simp [rankedPage, topK, hzero]
    · obtain ⟨hit, hhit, rfl⟩ := mem_map.mp hin
      rw [h.heap] at hhit
      exact (hsame (mem_afterBoundary.mp (mem_rankedPage hhit)).1).symm
  next hnew =>
  rw [not_or] at hnew
  have hout : hitOf score x ∉ rankedPage options score ids := fun hin =>
    hnew.2 (mem_map.mpr ⟨hitOf score x, h.heap ▸ hin, rfl⟩)
  have hcons : afterBoundary score options.searchAfter (x :: ids) =
      if x ∈ ids then afterBoundary score options.searchAfter ids
      else if isAfter options.searchAfter (hitOf score x) then
        hitOf score x :: afterBoundary score options.searchAfter ids
      else afterBoundary score options.searchAfter ids := by
    unfold afterBoundary
    by_cases hx : x ∈ ids
    · rw [dedup_cons_of_mem hx, if_pos hx]
    · rw [dedup_cons_of_notMem hx, if_neg hx, map_cons, filter_cons]
  split
  next hbefore =>
    refine ⟨rfl, rfl, ?_, htotals⟩
    have hno : isAfter options.searchAfter (hitOf score x) = false := by
      simpa [isAfter, hitOf] using hbefore
    rw [hpage, h.heap, rankedPage, rankedPage, hcons, hno]
    simp
  next hbefore =>
    refine ⟨rfl, rfl, ?_, htotals⟩
    have hyes : isAfter options.searchAfter (hitOf score x) = true := by
      simpa [isAfter, hitOf] using hbefore
    rw [hpage, h.heap]
    by_cases hx : x ∈ ids
    · rw [hsame hx]
      exact keepBest_topK_of_mem (mem_afterBoundary.mpr ⟨hx, rfl, hyes⟩) hout
    · rw [rankedPage, rankedPage, hcons, if_neg hx, if_pos hyes]
      exact keepBest_topK _ fun hin => hx (mem_afterBoundary.mp hin).1

theorem TopKState.Holds.foldl {options : TopKOptions} {score : UInt64 → Int} (emitted : List UInt64)
    {ids : List UInt64} (h : st.Holds options score ids) :
    (emitted.foldl (fun (st : TopKState) id => st.observe (fun id => some (score id)) id)
      st).Holds options score (ids ++ emitted) := by
  induction emitted generalizing st ids with
  | nil => simpa using h
  | cons x emitted ih => simpa using ih (h.observe x)

/-- **A collector** answers with the page and total of the ids it was shown. -/
theorem collectTopK_eq (options : TopKOptions) (score : UInt64 → Int) (emitted : List UInt64) :
    collectTopK options score emitted =
      ⟨rankedPage options score emitted,
        distinctTotal options.trackTotalHitsUpTo emitted⟩ := by
  have hnew : (TopKState.new options).Holds options score [] :=
    ⟨rfl, rfl, by simp [TopKState.new, rankedPage, afterBoundary, topK], .new _⟩
  have h := hnew.foldl emitted
  rw [nil_append] at h
  unfold collectTopK TopKState.finish
  rw [h.totals.totalHits_eq, h.heap]
  congr 1
  exact mergeSort_eq_self RankedHit.Le (pairwise_topK _ _)

/-! ## replies the coordinator accepts -/

/-- A reply a collector can give. -/
structure ShardRankedMatch.Acceptable (part : ShardRankedMatch) (options : TopKOptions) :
    Prop where
  length : part.hits.length ≤ options.size
  after : ∀ hit ∈ part.hits, isAfter options.searchAfter hit = true
  total : part.totalHits.consistent options.trackTotalHitsUpTo part.hits.length = true
  ordered : part.hits.Pairwise fun a b => rankedBeats a.key b.key = true

instance : IsTrans RankedHit fun a b => rankedBeats a.key b.key = true where
  trans _ _ _ := rankedBeats_trans

variable {hits : List RankedHit}

theorem forall_mem_zip_tail_iff :
    (∀ pair ∈ hits.zip hits.tail, rankedBeats pair.1.key pair.2.key = true) ↔
      hits.Pairwise fun a b => rankedBeats a.key b.key = true := by
  rw [← isChain_iff_pairwise]
  induction hits with
  | nil => simp
  | cons a hits ih =>
    cases hits with
    | nil => simp
    | cons b hits =>
      rw [isChain_cons_cons, ← ih]
      simp

theorem isAfter_of_head {after : Option (Int × UInt64)}
    (hordered : hits.Pairwise fun a b => rankedBeats a.key b.key = true) :
    (after.any fun boundary => hits.head?.any fun first => !rankedBeats boundary first.key) = false ↔
      ∀ hit ∈ hits, isAfter after hit = true := by
  cases after with
  | none => simp [isAfter]
  | some boundary =>
    cases hits with
    | nil => simp
    | cons first hits =>
      rw [pairwise_cons] at hordered
      simp only [Option.any_some, head?_cons, Bool.not_eq_false', isAfter, Bool.not_not,
        mem_cons, forall_eq_or_imp, iff_self_and]
      exact fun hfirst hit hhit => rankedBeats_trans hfirst (hordered.1 hit hhit)

theorem validatePart_eq_ok_iff {position : Nat} {options : TopKOptions}
    {part : ShardRankedMatch} :
    validatePart position options part = .ok () ↔ part.Acceptable options := by
  simp only [validatePart]
  split
  next hlong => exact iff_of_false (by simp) fun h => absurd h.length (by omega)
  next hlong =>
  split
  next hbefore =>
    refine iff_of_false (by simp) fun h => ?_
    rw [(isAfter_of_head h.ordered).mpr h.after] at hbefore
    cases hbefore
  next hbefore =>
  split
  next htotal =>
    refine iff_of_false (by simp) fun h => ?_
    rw [h.total] at htotal
    cases htotal
  next htotal =>
  split
  next hunordered =>
    refine iff_of_false (by simp) fun h => ?_
    obtain ⟨pair, hpair, hno⟩ := any_eq_true.mp hunordered
    rw [forall_mem_zip_tail_iff.mpr h.ordered pair hpair] at hno
    cases hno
  next hunordered =>
    have hordered : part.hits.Pairwise fun a b => rankedBeats a.key b.key = true := by
      rw [← forall_mem_zip_tail_iff]
      simpa using hunordered
    exact iff_of_true rfl ⟨by omega, (isAfter_of_head hordered).mp (by simpa using hbefore),
      by simpa using htotal, hordered⟩

variable {parts : List (Nat × ShardRankedMatch)}

theorem forM_validatePart_eq_ok_iff {options : TopKOptions} :
    (parts.forM fun part => validatePart part.1 options part.2) = .ok () ↔
      ∀ part ∈ parts, part.2.Acceptable options := by
  induction parts with
  | nil => simp [List.forM, pure, Except.pure]
  | cons part parts ih =>
    rw [forall_mem_cons, ← ih, ← @validatePart_eq_ok_iff part.1]
    change (validatePart part.1 options part.2 >>= fun _ => parts.forM _) = _ ↔ _
    cases hpart : validatePart part.1 options part.2 with
    | error e => simp [bind, Except.bind]
    | ok u => simp [bind, Except.bind]

/-! ## rows and totals of all replies -/

/-- The rows of a reply, with their owner. -/
def ownedRows (position : Nat) (hits : List RankedHit) : List ClusterRankedHit :=
  hits.map fun hit => ⟨hit.logicalId, hit.score, position⟩

def replyRows (parts : List (Nat × ShardRankedMatch)) : List ClusterRankedHit :=
  parts.flatMap fun part => ownedRows part.1 part.2.hits

theorem pushHits_eq_ok_iff {position : Nat} {rows rows' : List ClusterRankedHit}
    (hrows : (rows.map ClusterRankedHit.logicalId).Nodup) :
    pushHits position rows hits = .ok rows' ↔
      ((rows ++ ownedRows position hits).map ClusterRankedHit.logicalId).Nodup ∧
        rows' = rows ++ ownedRows position hits := by
  induction hits generalizing rows with
  | nil => simp [pushHits, ownedRows, hrows, eq_comm]
  | cons hit hits ih =>
    have hcons : rows ++ ownedRows position (hit :: hits) =
        rows ++ [⟨hit.logicalId, hit.score, position⟩] ++ ownedRows position hits := by
      simp [ownedRows]
    rw [pushHits, hcons]
    split
    next hdup =>
      refine iff_of_false (by simp) fun h => ?_
      obtain ⟨row, hrow, heq⟩ := any_eq_true.mp hdup
      rw [map_append, map_append, append_assoc, nodup_append] at h
      refine h.1.2.2 row.logicalId (mem_map_of_mem hrow) hit.logicalId (by simp) ?_
      simpa using heq
    next hnew =>
      refine ih ?_
      rw [map_append, nodup_append]
      refine ⟨hrows, by simp, fun id hid id' hid' heq => hnew ?_⟩
      obtain ⟨row, hrow, rfl⟩ := mem_map.mp hid
      refine any_eq_true.mpr ⟨row, hrow, ?_⟩
      simpa [heq] using hid'

theorem pushParts_eq_ok_iff {rows rows' : List ClusterRankedHit}
    {parts : List (Nat × ShardRankedMatch)}
    (hrows : (rows.map ClusterRankedHit.logicalId).Nodup) :
    pushParts rows parts = .ok rows' ↔
      ((rows ++ replyRows parts).map ClusterRankedHit.logicalId).Nodup ∧
        rows' = rows ++ replyRows parts := by
  induction parts generalizing rows with
  | nil => simp [pushParts, replyRows, hrows, eq_comm]
  | cons part parts ih =>
    have hcons : rows ++ replyRows (part :: parts) =
        rows ++ ownedRows part.1 part.2.hits ++ replyRows parts := by
      simp [replyRows]
    rw [pushParts, hcons]
    cases hpush : pushHits part.1 rows part.2.hits with
    | error e =>
      refine iff_of_false (by simp [bind, Except.bind]) fun h => ?_
      have hnodup := (nodup_append.mp (map_append ▸ h.1)).1
      rw [(pushHits_eq_ok_iff hrows).mpr ⟨hnodup, rfl⟩] at hpush
      cases hpush
    | ok next =>
      obtain ⟨hnodup, rfl⟩ := (pushHits_eq_ok_iff hrows).mp hpush
      exact ih hnodup

structure ExactSum.Sums (acc : ExactSum) (totals : List TotalHits) : Prop where
  allExact : acc.allExact = true ↔ ∀ total ∈ totals, total.relation = .eq
  overflow : acc.overflow = true → 2 ^ 64 ≤ (totals.map fun t => t.value.toNat).sum
  sum : acc.overflow = false → acc.sum.toNat = (totals.map fun t => t.value.toNat).sum

theorem ExactSum.Sums.add {acc : ExactSum} {totals : List TotalHits} (h : acc.Sums totals)
    (total : TotalHits) : (acc.add total).Sums (totals ++ [total]) := by
  have hall : (acc.allExact && decide (total.relation = .eq)) = true ↔
      ∀ t ∈ totals ++ [total], t.relation = .eq := by
    rw [Bool.and_eq_true, h.allExact, decide_eq_true_eq, forall_mem_append,
      forall_mem_singleton]
  have hsum : ((totals ++ [total]).map fun t => t.value.toNat).sum =
      (totals.map fun t => t.value.toNat).sum + total.value.toNat := by simp
  unfold ExactSum.add
  simp only
  split
  next hfits =>
    refine ⟨hall, fun hover => ?_, fun hno => ?_⟩
    · rw [hsum]
      exact (h.overflow hover).trans (Nat.le_add_right _ _)
    · rw [hsum, ← h.sum hno, UInt64.toNat_add]
      exact Nat.mod_eq_of_lt hfits
  next hfull =>
    refine ⟨hall, fun _ => ?_, fun hno => by cases hno⟩
    rw [hsum]
    cases hover : acc.overflow with
    | true => exact (h.overflow hover).trans (Nat.le_add_right _ _)
    | false =>
      rw [← h.sum hover]
      omega

theorem ExactSum.Sums.foldl (parts : List (Nat × ShardRankedMatch)) {acc : ExactSum}
    {totals : List TotalHits} (h : acc.Sums totals) :
    (parts.foldl (fun (acc : ExactSum) part => acc.add part.2.totalHits) acc).Sums
      (totals ++ parts.map fun part => part.2.totalHits) := by
  induction parts generalizing acc totals with
  | nil => simpa using h
  | cons part parts ih => simpa using ih (h.add part.2.totalHits)

/-! ## the merge -/

/-- The ids of all rows of some replies. -/
def replyIds (parts : List (Nat × ShardRankedMatch)) : List UInt64 :=
  parts.flatMap fun part => part.2.hits.map RankedHit.logicalId

theorem map_logicalId_replyRows (parts : List (Nat × ShardRankedMatch)) :
    (replyRows parts).map ClusterRankedHit.logicalId = replyIds parts := by
  simp only [replyRows, replyIds, ownedRows, map_flatMap, map_map]
  rfl

theorem map_hit_replyRows (parts : List (Nat × ShardRankedMatch)) :
    (replyRows parts).map ClusterRankedHit.hit = parts.flatMap fun part => part.2.hits := by
  simp only [replyRows, ownedRows, map_flatMap, map_map]
  congr 1
  funext part
  exact map_id _

def mergedTotal (threshold : UInt64) (parts : List (Nat × ShardRankedMatch)) : TotalHits :=
  let acc := parts.foldl (fun (acc : ExactSum) part => acc.add part.2.totalHits) ⟨0, false, true⟩
  if acc.allExact ∧ acc.overflow = false ∧ acc.sum ≤ threshold then .exact acc.sum
  else .lowerBound threshold

/-- **What the coordinator accepts**, and what it makes of it. -/
theorem mergeReplies_eq_ok_iff {options : TopKOptions} {found : ClusterRankedMatch} :
    mergeReplies options parts = .ok found ↔
      (∀ part ∈ parts, part.2.Acceptable options) ∧ (replyIds parts).Nodup ∧
      found = ⟨((replyRows parts).mergeSort fun a b => RankedHit.Le a.hit b.hit).take options.size,
        mergedTotal options.trackTotalHitsUpTo parts, (replyRows parts).length⟩ := by
  have hpush := fun rows' => @pushParts_eq_ok_iff [] rows' parts nodup_nil
  simp only [nil_append, map_logicalId_replyRows] at hpush
  unfold mergeReplies mergeTitleRows
  by_cases hok : ∀ part ∈ parts, part.2.Acceptable options
  · rw [forM_validatePart_eq_ok_iff.mpr hok]
    by_cases hnodup : (replyIds parts).Nodup
    · rw [(hpush _).mpr ⟨hnodup, rfl⟩]
      simp only [bind, Except.bind, pure, Except.pure, Except.ok.injEq, mergedTotal]
      constructor
      · rintro rfl
        exact ⟨hok, hnodup, rfl⟩
      · rintro ⟨-, -, rfl⟩
        rfl
    · refine iff_of_false (fun h => ?_) fun h => hnodup h.2.1
      cases hrows : pushParts [] parts with
      | error e => simp [hrows, bind, Except.bind] at h
      | ok rows => exact hnodup ((hpush rows).mp hrows).1
  · refine iff_of_false (fun h => hok (forM_validatePart_eq_ok_iff.mp ?_)) fun h => hok h.1
    cases hval : parts.forM fun part => validatePart part.1 options part.2 with
    | error e => simp [hval, bind, Except.bind] at h
    | ok u => rfl

/-- A collector's reply is accepted. -/
theorem collectTopK_acceptable (options : TopKOptions) (score : UInt64 → Int)
    (emitted : List UInt64) : (collectTopK options score emitted).Acceptable options := by
  rw [collectTopK_eq]
  refine ⟨?_, fun hit hhit => (mem_afterBoundary.mp (mem_rankedPage hhit)).2.2,
    distinctTotal_consistent length_rankedPage_le, ?_⟩
  · rw [rankedPage, length_topK]
    exact Nat.min_le_left _ _
  · refine (List.Pairwise.and nodup_rankedPage (pairwise_topK _ _)).imp_of_mem
      fun {a b} ha hb hab => ?_
    exact RankedHit.rankedBeats_of_le hab.2 fun hid => hab.1 (eq_of_mem_rankedPage ha hb hid)

section Shards

variable {options : TopKOptions} {score : UInt64 → Int} {shards : List (Nat × List UInt64)}

def shardReplies (options : TopKOptions) (score : UInt64 → Int)
    (shards : List (Nat × List UInt64)) : List (Nat × ShardRankedMatch) :=
  shards.map fun shard => (shard.1, collectTopK options score shard.2)

section Disjoint

variable (hdisjoint : (shards.map Prod.snd).Pairwise List.Disjoint)

include hdisjoint

theorem nodup_flatMap_of_disjoint {β : Type} {f : List UInt64 → List β} {g : β → UInt64}
    (hnodup : ∀ ids, (f ids).Nodup) (hid : ∀ ids, ∀ b ∈ f ids, g b ∈ ids) :
    (shards.flatMap fun shard => f shard.2).Nodup := by
  rw [nodup_flatMap]
  refine ⟨fun shard _ => hnodup shard.2, ?_⟩
  rw [pairwise_map] at hdisjoint
  exact hdisjoint.imp fun {a b} hab x hxa hxb => hab (hid _ x hxa) (hid _ x hxb)

theorem replyIds_shardReplies_nodup :
    (replyIds (shardReplies options score shards)).Nodup := by
  have heq : replyIds (shardReplies options score shards) =
      shards.flatMap fun shard =>
        (rankedPage options score shard.2).map RankedHit.logicalId := by
    simp [replyIds, shardReplies, flatMap_map, collectTopK_eq]
  rw [heq]
  refine nodup_flatMap_of_disjoint (g := id) (f := fun ids =>
    (rankedPage options score ids).map RankedHit.logicalId) hdisjoint (fun ids => ?_)
    fun ids b hb => ?_
  · exact nodup_rankedPage.map_on fun a ha b hb => eq_of_mem_rankedPage ha hb
  · obtain ⟨hit, hhit, rfl⟩ := mem_map.mp hb
    exact (mem_afterBoundary.mp (mem_rankedPage hhit)).1

theorem dedup_flatMap_length :
    (shards.flatMap Prod.snd).dedup.length =
      (shards.map fun shard => shard.2.dedup.length).sum := by
  have hnodup := nodup_flatMap_of_disjoint (g := id) hdisjoint nodup_dedup
    fun ids b hb => mem_dedup.mp hb
  rw [← length_flatMap]
  refine length_eq_of_nodup (nodup_dedup _) hnodup fun y => ?_
  simp

theorem mergedTotal_shardReplies :
    mergedTotal options.trackTotalHitsUpTo (shardReplies options score shards) =
      distinctTotal options.trackTotalHitsUpTo (shards.flatMap Prod.snd) := by
  have hstart : (⟨0, false, true⟩ : ExactSum).Sums [] := ⟨by simp, by simp, by simp⟩
  have hsums := hstart.foldl (shardReplies options score shards)
  unfold mergedTotal
  generalize (shardReplies options score shards).foldl
    (fun (acc : ExactSum) part => acc.add part.2.totalHits) ⟨0, false, true⟩ = acc at hsums
  have htotals : (shardReplies options score shards).map (fun part => part.2.totalHits) =
      shards.map fun shard => distinctTotal options.trackTotalHitsUpTo shard.2 := by
    simp [shardReplies, collectTopK_eq]
  rw [nil_append, htotals] at hsums
  -- exact totals add up to the number of distinct ids
  have hsum : acc.allExact = true →
      ((shards.map fun shard => distinctTotal options.trackTotalHitsUpTo shard.2).map
        fun t => t.value.toNat).sum = (shards.flatMap Prod.snd).dedup.length := by
    intro hall
    rw [dedup_flatMap_length hdisjoint, map_map]
    congr 1
    refine map_congr_left fun shard hshard => ?_
    have hexact := hsums.allExact.mp hall _ (mem_map_of_mem hshard)
    exact (distinctTotal_of_le (le_of_distinctTotal_eq hexact)).2
  simp only
  by_cases hle : (shards.flatMap Prod.snd).dedup.length ≤ options.trackTotalHitsUpTo.toNat
  · have hall : acc.allExact = true := by
      refine hsums.allExact.mpr fun total htotal => ?_
      obtain ⟨shard, hshard, rfl⟩ := mem_map.mp htotal
      refine (distinctTotal_of_le (le_trans ?_ hle)).1
      rw [dedup_flatMap_length hdisjoint]
      exact single_le_sum (by simp) _ (mem_map_of_mem hshard)
    have hover : acc.overflow = false := by
      cases hover : acc.overflow with
      | false => rfl
      | true =>
        have hfull := hsums.overflow hover
        have hlt := options.trackTotalHitsUpTo.toNat_lt
        rw [hsum hall] at hfull
        omega
    have hacc : acc.sum.toNat = (shards.flatMap Prod.snd).dedup.length :=
      (hsums.sum hover).trans (hsum hall)
    rw [if_pos ⟨hall, hover, UInt64.le_iff_toNat_le.mpr (hacc ▸ hle)⟩, distinctTotal, if_pos hle,
      ← hacc, UInt64.ofNat_toNat]
  · rw [distinctTotal, if_neg hle, if_neg]
    rintro ⟨hall, hover, hsmall⟩
    rw [UInt64.le_iff_toNat_le, hsums.sum hover, hsum hall] at hsmall
    exact hle hsmall

theorem hits_shardReplies :
    (((replyRows (shardReplies options score shards)).mergeSort
      fun a b => RankedHit.Le a.hit b.hit).take options.size).map ClusterRankedHit.hit =
      rankedPage options score (shards.flatMap Prod.snd) := by
  have hrows : (replyRows (shardReplies options score shards)).map ClusterRankedHit.hit =
      ((shards.map fun shard => afterBoundary score options.searchAfter shard.2).map
        (topK RankedHit.Le options.size)).flatten := by
    rw [map_hit_replyRows, map_map, ← flatMap_def]
    simp only [shardReplies, flatMap_map, collectTopK_eq]
    rfl
  have hsorted : ((replyRows (shardReplies options score shards)).mergeSort
      fun a b => RankedHit.Le a.hit b.hit).map ClusterRankedHit.hit =
      ((replyRows (shardReplies options score shards)).map ClusterRankedHit.hit).insertionSort
        RankedHit.Le := by
    refine List.Perm.eq_of_pairwise' (r := RankedHit.Le) ?_ (pairwise_insertionSort _ _) ?_
    · rw [pairwise_map]
      exact (pairwise_mergeSort (fun a b c hab hbc => by
          simp only [decide_eq_true_eq] at *
          exact IsTrans.trans _ _ _ hab hbc)
        (fun a b => by
          simpa using Std.Total.total (r := RankedHit.Le) a.hit b.hit) _).imp
        fun h => by simpa using h
    · exact ((mergeSort_perm _ _).map _).trans (perm_insertionSort _ _).symm
  have hperm : (shards.map fun shard => afterBoundary score options.searchAfter shard.2).flatten.Perm
      (afterBoundary score options.searchAfter (shards.flatMap Prod.snd)) := by
    rw [← flatMap_def]
    refine (perm_ext_iff_of_nodup (nodup_flatMap_of_disjoint (g := RankedHit.logicalId)
      hdisjoint (fun _ => nodup_afterBoundary) fun ids hit hhit => (mem_afterBoundary.mp hhit).1)
      nodup_afterBoundary).mpr fun hit => ?_
    simp only [mem_flatMap, mem_afterBoundary]
    constructor
    · rintro ⟨shard, hshard, hid, hhit⟩
      exact ⟨⟨shard, hshard, hid⟩, hhit⟩
    · rintro ⟨⟨shard, hshard, hid⟩, hhit⟩
      exact ⟨shard, hshard, hid, hhit⟩
  rw [map_take, hsorted, hrows]
  exact (topK_flatten_map _ _).trans (topK_congr hperm _)

end Disjoint

/-- **Distributed top-K is single-node top-K.**  For matches split over
shards with disjoint ids, the coordinator's merge of their replies has the
page and the total of all matches.  Replies that are too long, out of order,
not after the boundary or inconsistent with their own total, and replies that
repeat an id, are refused. -/
theorem mergeReplies_distributed (options : TopKOptions) (score : UInt64 → Int)
    (shards : List (Nat × List UInt64))
    (hdisjoint : (shards.map Prod.snd).Pairwise List.Disjoint) :
    (∃ found, mergeReplies options (shardReplies options score shards) = .ok found ∧
      found.hits.map ClusterRankedHit.hit =
        rankedPage options score (shards.flatMap Prod.snd) ∧
      found.totalHits =
        distinctTotal options.trackTotalHitsUpTo (shards.flatMap Prod.snd)) ∧
    ∀ parts, ((∃ part ∈ parts, ¬part.2.Acceptable options) ∨ ¬(replyIds parts).Nodup) →
      ∃ error, mergeReplies options parts = .error error := by
  constructor
  · refine ⟨_, mergeReplies_eq_ok_iff.mpr ⟨fun part hpart => ?_,
      replyIds_shardReplies_nodup hdisjoint, rfl⟩, hits_shardReplies hdisjoint,
      mergedTotal_shardReplies hdisjoint⟩
    obtain ⟨shard, -, rfl⟩ := mem_map.mp hpart
    exact collectTopK_acceptable options score shard.2
  · intro parts hbad
    cases hmerge : mergeReplies options parts with
    | error error => exact ⟨error, rfl⟩
    | ok found =>
      obtain ⟨hok, hnodup, -⟩ := mergeReplies_eq_ok_iff.mp hmerge
      rcases hbad with ⟨part, hpart, hno⟩ | hdup
      · exact absurd (hok part hpart) hno
      · exact absurd hnodup hdup

theorem mergeReplies_two_shards :
    ([[7, 3, 7], [5]] : List (List UInt64)).Pairwise List.Disjoint ∧
    ∃ found, mergeReplies ⟨2, 10, none⟩
        (shardReplies ⟨2, 10, none⟩ (fun id => id.toNat) [(0, [7, 3, 7]), (1, [5])]) = .ok found ∧
      found.hits.map ClusterRankedHit.hit = [⟨7, 7⟩, ⟨5, 5⟩] ∧ found.totalHits = .exact 3 := by
  have hdisjoint : ([[7, 3, 7], [5]] : List (List UInt64)).Pairwise List.Disjoint := by
    simp [disjoint_left]
  obtain ⟨found, hmerge, hhits, htotal⟩ := (mergeReplies_distributed ⟨2, 10, none⟩
    (fun id => id.toNat) [(0, [7, 3, 7]), (1, [5])] hdisjoint).1
  exact ⟨hdisjoint, found, hmerge, hhits.trans (by decide +kernel),
    htotal.trans (by decide +kernel)⟩

end Shards

end ReverseRusty
