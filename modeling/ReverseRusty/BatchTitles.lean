import ReverseRusty.BatchEval

/-!
# ReverseRusty.BatchTitles

The transposed batch of a chunk of titles, as the batch driver fills it in
while it walks over the titles (`segment/broad_batch/driver/chunk.rs`): a
feature gets its row the first time a title has it.

`has_ofTitles` and `masks_ofTitles` say what the batch holds.
-/

namespace ReverseRusty

open List

namespace TitleBatch

section Build

variable {w : Nat}

/-- Note that title `t` has a feature, in the feature's row or a new one. -/
def addFeature (t : Nat) (b : TitleBatch w) (f : FeatureId) : TitleBatch w :=
  match b.lookup f with
  | some _ =>
    { b with rows := b.rows.map fun row =>
        (row.1, if row.1 = f then row.2 ||| BitVec.twoPow w t else row.2) }
  | none => { b with rows := b.rows ++ [(f, BitVec.twoPow w t)] }

def addTitle (d : Dict) (b : TitleBatch w) (title : List FeatureId × Nat) : TitleBatch w :=
  title.1.foldl (addFeature title.2) { b with masks := b.masks ++ [titleMask d title.1] }

/-- **The batch of some titles**, each given by its features. -/
def ofTitles (d : Dict) (titles : List (List FeatureId)) : TitleBatch titles.length :=
  titles.zipIdx.foldl (addTitle d) empty

variable {d : Dict} {b : TitleBatch w} {t : Nat} {f : FeatureId}

theorem lookup_map_rows (rows : List (FeatureId × BitVec w)) (g : FeatureId → BitVec w → BitVec w)
    (f : FeatureId) :
    (rows.map fun row => (row.1, g row.1 row.2)).lookup f = (rows.lookup f).map (g f) := by
  induction rows with
  | nil => rfl
  | cons row rows ih =>
    rw [map_cons, lookup_cons, lookup_cons, ih]
    cases hf : f == row.1 with
    | true => rw [eq_of_beq hf]; rfl
    | false => rfl

theorem has_addFeature (ht : t < w) (t' : Nat) (g : FeatureId) :
    (b.addFeature t f).has t' g = true ↔ b.has t' g = true ∨ t' = t ∧ g = f := by
  unfold addFeature
  split
  · next bits hbits =>
    rw [has, lookup, lookup_map_rows b.rows fun h bits =>
      if h = f then bits ||| BitVec.twoPow w t else bits]
    by_cases hg : g = f
    · subst hg
      have hrow : b.rows.lookup g = some bits := hbits
      simp only [has, lookup, hrow, Option.map_some, Option.getD_some, if_true, BitVec.getLsbD_or,
        Bool.or_eq_true, BitVec.getLsbD_twoPow, Bool.and_eq_true, decide_eq_true_eq]
      grind
    · simp [has, lookup, hg]
  · next hnone =>
    have hrow : b.rows.lookup f = none := hnone
    simp only [has, lookup, lookup_append]
    by_cases hg : g = f
    · subst hg
      simp only [hrow, Option.none_or, lookup_cons_self, Option.getD_some,
        BitVec.getLsbD_twoPow, Bool.and_eq_true, decide_eq_true_eq, Option.getD_none]
      grind [getLsbD_none]
    · simp [lookup_cons, beq_false_of_ne hg, hg]

theorem nodup_distinct_addFeature (h : b.distinct.Nodup) : (b.addFeature t f).distinct.Nodup := by
  unfold addFeature
  split
  · rw [distinct, map_map]
    exact h
  · next hnone =>
    have hnew : f ∉ b.distinct := by
      rw [distinct, mem_map]
      rintro ⟨row, hrow, rfl⟩
      exact absurd (lookup_eq_none_iff.mp hnone row hrow) (by simp)
    simp only [distinct, map_append, map_cons, map_nil] at h ⊢
    exact nodup_append.mpr ⟨h, nodup_singleton f, fun x hx y hy hxy =>
      hnew (by rw [← mem_singleton.mp hy, ← hxy]; exact hx)⟩

@[simp] theorem masks_addFeature : (b.addFeature t f).masks = b.masks := by
  unfold addFeature
  split <;> rfl

theorem foldl_addFeature (ht : t < w) (feats : List FeatureId) :
    (feats.foldl (addFeature t) b).masks = b.masks ∧
      (b.distinct.Nodup → (feats.foldl (addFeature t) b).distinct.Nodup) ∧
      ∀ t' g, (feats.foldl (addFeature t) b).has t' g = true ↔
        b.has t' g = true ∨ t' = t ∧ g ∈ feats := by
  induction feats generalizing b with
  | nil => exact ⟨rfl, id, by simp⟩
  | cons f feats ih =>
    obtain ⟨hmasks, hnodup, hhas⟩ := @ih (b.addFeature t f)
    refine ⟨hmasks.trans masks_addFeature, fun h => hnodup (nodup_distinct_addFeature h),
      fun t' g => ?_⟩
    rw [foldl_cons, hhas, has_addFeature ht, mem_cons]
    grind

theorem foldl_addTitle (d : Dict) {titles : List (List FeatureId × Nat)}
    (hlt : ∀ title ∈ titles, title.2 < w) (b : TitleBatch w) :
    (titles.foldl (addTitle d) b).masks = b.masks ++ titles.map (fun title => titleMask d title.1) ∧
      (b.distinct.Nodup → (titles.foldl (addTitle d) b).distinct.Nodup) ∧
      ∀ t g, (titles.foldl (addTitle d) b).has t g = true ↔
        b.has t g = true ∨ ∃ title ∈ titles, title.2 = t ∧ g ∈ title.1 := by
  induction titles generalizing b with
  | nil => exact ⟨by simp, id, by simp⟩
  | cons title titles ih =>
    obtain ⟨hmasks, hnodup, hhas⟩ := ih (fun p hp => hlt p (mem_cons_of_mem title hp))
      (b.addTitle d title)
    obtain ⟨hmasks', hnodup', hhas'⟩ := @foldl_addFeature w
      { b with masks := b.masks ++ [titleMask d title.1] } title.2
      (hlt title mem_cons_self) title.1
    refine ⟨?_, fun h => hnodup (hnodup' h), fun t g => ?_⟩
    · rw [foldl_cons, hmasks, addTitle, hmasks', map_cons, append_assoc]
      rfl
    · rw [foldl_cons, hhas, addTitle, hhas', exists_mem_cons_iff, or_assoc]
      exact or_congr_right (or_congr_left (and_congr_left' eq_comm))

end Build

section Titles

variable {d : Dict} {titles : List (List FeatureId)}

theorem ofTitles_spec (d : Dict) (titles : List (List FeatureId)) :
    (ofTitles d titles).masks = titles.map (titleMask d) ∧ (ofTitles d titles).distinct.Nodup ∧
      ∀ t f, (ofTitles d titles).has t f = true ↔
        ∃ feats, titles[t]? = some feats ∧ f ∈ feats := by
  have hlt : ∀ title ∈ titles.zipIdx, title.2 < titles.length := fun title htitle =>
    (List.getElem?_eq_some_iff.mp (mem_zipIdx_iff_getElem?.mp htitle)).1
  obtain ⟨hmasks, hnodup, hhas⟩ := foldl_addTitle d hlt empty
  refine ⟨hmasks.trans ?_, hnodup nodup_nil, fun t f => (hhas t f).trans ?_⟩
  · have hfst : titles.zipIdx.map (fun title => titleMask d title.1) =
        (titles.zipIdx.map Prod.fst).map (titleMask d) := by rw [map_map]; rfl
    rw [hfst, zipIdx_map_fst]
    rfl
  · have hempty : (empty : TitleBatch titles.length).has t f = false := getLsbD_none t
    simp only [hempty, Bool.false_eq_true, false_or, Prod.exists, mem_zipIdx_iff_getElem?]
    exact ⟨fun ⟨feats, _, hget, ht, hf⟩ => ⟨feats, ht ▸ hget, hf⟩,
      fun ⟨feats, hget, hf⟩ => ⟨feats, t, hget, rfl, hf⟩⟩

theorem masks_ofTitles : (ofTitles d titles).masks = titles.map (titleMask d) :=
  (ofTitles_spec d titles).1

/-- **The batch has a title's features at its place.** -/
theorem has_ofTitles {t : Nat} {feats : List FeatureId} (ht : titles[t]? = some feats)
    (f : FeatureId) : (ofTitles d titles).has t f = true ↔ f ∈ feats := by
  rw [(ofTitles_spec d titles).2.2, ht]
  simp

theorem lookup_of_mem_rows {w : Nat} {b : TitleBatch w} (hnodup : b.distinct.Nodup)
    {row : FeatureId × BitVec w} (hrow : row ∈ b.rows) : b.lookup row.1 = some row.2 := by
  have hfind : ∀ rows : List (FeatureId × BitVec w), (rows.map Prod.fst).Nodup → row ∈ rows →
      rows.lookup row.1 = some row.2 := by
    intro rows hrows hmem
    induction rows with
    | nil => contradiction
    | cons first rows ih =>
      rw [map_cons, nodup_cons] at hrows
      rcases mem_cons.mp hmem with rfl | hmem
      · rw [lookup_cons_self]
      · have hne : (row.1 == first.1) = false := beq_false_of_ne fun heq =>
          hrows.1 (heq ▸ mem_map_of_mem hmem)
        rw [lookup_cons, hne]
        exact ih hrows.2 hmem
  exact hfind b.rows hnodup hrow

end Titles

end TitleBatch

end ReverseRusty
