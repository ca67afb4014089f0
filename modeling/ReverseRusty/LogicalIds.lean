import ReverseRusty.Exact

/-!
# ReverseRusty.LogicalIds

The coordinator's directory of logical ids
(`cluster/coordinator/logical_ids.rs`): a sorted column, the ids added to it
since, and those removed from it.

`directory_is_set` follows a directory through any calls, beside the set of
ids it stands for.
-/

namespace ReverseRusty

open List

/-- The logical ids in use: sorted, with changes beside them. -/
structure LogicalIdDirectory where
  base : List UInt64
  added : Finset UInt64
  removed : Finset UInt64

/-- The first id that stands next to itself. -/
def firstRepeat : List UInt64 → Option UInt64
  | a :: b :: ids => if a = b then some a else firstRepeat (b :: ids)
  | _ => none

/-- Sort the ids of a corpus; the error is the repeated id. -/
def sortAndCheckUnique (ids : List UInt64) : Except UInt64 (List UInt64) :=
  match firstRepeat (sorted ids) with
  | some duplicate => .error duplicate
  | none => .ok (sorted ids)

inductive DirectoryCall where
  | contains (logical : UInt64)
  | insert (logical : UInt64)
  | remove (logical : UInt64)
  | compact

/-- Make calls in turn; compacting answers nothing. -/
def answersOf {σ : Type*} (perform : σ → DirectoryCall → Option Bool × σ) :
    σ → List DirectoryCall → List (Option Bool) × σ
  | s, [] => ([], s)
  | s, c :: cs =>
    ((perform s c).1 :: (answersOf perform (perform s c).2 cs).1,
      (answersOf perform (perform s c).2 cs).2)

namespace LogicalIdDirectory

def fromIds (ids : List UInt64) : Except UInt64 LogicalIdDirectory := do
  return ⟨← sortAndCheckUnique ids, ∅, ∅⟩

variable (d : LogicalIdDirectory) (logical : UInt64)

def contains : Bool :=
  logical ∈ d.added || (!(logical ∈ d.removed) && binarySearch d.base logical)

/-- Whether the id became present. -/
def insert : Bool × LogicalIdDirectory :=
  if d.contains logical then (false, d)
  else if binarySearch d.base logical then (true, { d with removed := d.removed.erase logical })
  else (true, { d with added := Insert.insert logical d.added })

/-- Whether the id became absent. -/
def remove : Bool × LogicalIdDirectory :=
  if logical ∈ d.added then (true, { d with added := d.added.erase logical })
  else if logical ∈ d.removed || !binarySearch d.base logical then (false, d)
  else (true, { d with removed := Insert.insert logical d.removed })

/-- Merge the overlays into the column. -/
def compact : LogicalIdDirectory :=
  if d.added = ∅ ∧ d.removed = ∅ then d
  else ⟨sorted (d.base.filter (· ∉ d.removed) ++ d.added.sort (· ≤ ·)), ∅, ∅⟩

def perform : DirectoryCall → Option Bool × LogicalIdDirectory
  | .contains logical => (some (d.contains logical), d)
  | .insert logical => ((d.insert logical).map some id)
  | .remove logical => ((d.remove logical).map some id)
  | .compact => (none, d.compact)

/-- What the calls do to a set. -/
def performSet (ids : Finset UInt64) : DirectoryCall → Option Bool × Finset UInt64
  | .contains logical => (some (logical ∈ ids), ids)
  | .insert logical => (some (logical ∉ ids), Insert.insert logical ids)
  | .remove logical => (some (logical ∈ ids), ids.erase logical)
  | .compact => (none, ids)

/-- A directory of a set of ids. -/
structure Lists (ids : Finset UInt64) : Prop where
  sorted : d.base.Pairwise (· < ·)
  added : ∀ logical ∈ d.added, logical ∉ d.base
  removed : ∀ logical ∈ d.removed, logical ∈ d.base
  mem_iff : ∀ logical, logical ∈ ids ↔
    logical ∈ d.added ∨ logical ∉ d.removed ∧ logical ∈ d.base

variable {d logical} {ids : Finset UInt64} (h : d.Lists ids)

include h

theorem Lists.search : binarySearch d.base logical = true ↔ logical ∈ d.base :=
  binarySearch_iff_mem (h.sorted.imp le_of_lt)

theorem Lists.contains_iff : d.contains logical = true ↔ logical ∈ ids := by
  simp [contains, h.mem_iff, h.search]

theorem Lists.insert : (d.insert logical).1 = decide (logical ∉ ids) ∧
    (d.insert logical).2.Lists (Insert.insert logical ids) := by
  unfold LogicalIdDirectory.insert
  split
  · next hin =>
    rw [h.contains_iff] at hin
    exact ⟨by simp [hin], by rwa [Finset.insert_eq_self.mpr hin]⟩
  · next hout =>
    rw [h.contains_iff] at hout
    refine ⟨by split <;> simp [hout], ?_⟩
    have hmem := h.mem_iff
    have hadded := h.added
    split
    · next hbase =>
      rw [h.search] at hbase
      refine { h with removed := fun a ha => h.removed a (Finset.mem_of_mem_erase ha), mem_iff := ?_ }
      grind
    · next hbase =>
      rw [h.search] at hbase
      refine { h with added := ?_, mem_iff := ?_ } <;> grind

theorem Lists.remove : (d.remove logical).1 = decide (logical ∈ ids) ∧
    (d.remove logical).2.Lists (ids.erase logical) := by
  have hmem := h.mem_iff
  have hadded := h.added
  unfold LogicalIdDirectory.remove
  split
  · next hin =>
    refine ⟨by simp [hmem, hin], { h with added := ?_, mem_iff := ?_ }⟩ <;> grind
  · next hout =>
    split
    · next hgone =>
      have hnot : logical ∉ ids := fun hin => by
        obtain ⟨hkept, hbase⟩ := ((hmem logical).mp hin).resolve_left hout
        simp [hkept, h.search.mpr hbase] at hgone
      exact ⟨by simp [hnot], by rwa [Finset.erase_eq_of_notMem hnot]⟩
    · next hthere =>
      simp only [Bool.or_eq_true, decide_eq_true_eq, Bool.not_eq_true', not_or,
        Bool.not_eq_false, h.search] at hthere
      refine ⟨by simp [hmem, hthere], { h with removed := ?_, mem_iff := ?_ }⟩
      · intro a ha
        rcases Finset.mem_insert.mp ha with rfl | ha
        · exact hthere.2
        · exact h.removed a ha
      · grind

theorem Lists.compact : d.compact.Lists ids := by
  unfold LogicalIdDirectory.compact
  split
  · exact h
  · have hnodup : (d.base.filter (· ∉ d.removed) ++ d.added.sort (· ≤ ·)).Nodup := by
      refine nodup_append.mpr ⟨(h.sorted.imp ne_of_lt).filter _, Finset.sort_nodup _ _, ?_⟩
      rintro a ha b hb rfl
      exact h.added a (by simpa using hb) (mem_filter.mp ha).1
    constructor
    · exact ((pairwise_insertionSort (· ≤ ·) _).and
        ((perm_insertionSort (· ≤ ·) _).nodup_iff.mpr hnodup)).imp fun h => lt_of_le_of_ne h.1 h.2
    · simp
    · simp
    · intro a
      simp [h.mem_iff, ReverseRusty.sorted, or_comm, and_comm]

/-- **One call answers as the set would**, and leaves a directory of what
the set has become. -/
theorem Lists.perform (c : DirectoryCall) :
    (d.perform c).1 = (performSet ids c).1 ∧ (d.perform c).2.Lists (performSet ids c).2 := by
  cases c with
  | contains logical => exact ⟨congrArg some (Bool.eq_iff_iff.mpr (by simp [h.contains_iff])), h⟩
  | insert logical => exact ⟨congrArg some h.insert.1, h.insert.2⟩
  | remove logical => exact ⟨congrArg some h.remove.1, h.remove.2⟩
  | compact => exact ⟨rfl, h.compact⟩

theorem Lists.answersOf (calls : List DirectoryCall) :
    (answersOf LogicalIdDirectory.perform d calls).1 = (answersOf performSet ids calls).1 ∧
      (answersOf LogicalIdDirectory.perform d calls).2.Lists (answersOf performSet ids calls).2 := by
  induction calls generalizing d ids with
  | nil => exact ⟨rfl, h⟩
  | cons c calls ih =>
    obtain ⟨hanswer, hlists⟩ := h.perform c
    obtain ⟨hanswers, hend⟩ := ih hlists
    exact ⟨congrArg₂ cons hanswer hanswers, hend⟩

end LogicalIdDirectory

/-! ## starting a directory -/

theorem firstRepeat_eq_none {ids : List UInt64} (hs : ids.Pairwise (· ≤ ·)) :
    firstRepeat ids = none ↔ ids.Pairwise (· < ·) := by
  fun_induction firstRepeat with
  | case1 a ids => simp
  | case2 a b ids hne ih =>
    rw [ih hs.of_cons]
    refine ⟨fun h => h.cons fun x hx => ?_, Pairwise.of_cons⟩
    have hab : a < b := lt_of_le_of_ne (rel_of_pairwise_cons hs mem_cons_self) hne
    rcases mem_cons.mp hx with rfl | hx
    · exact hab
    · exact hab.trans (rel_of_pairwise_cons h hx)
  | case3 ids hshort =>
    obtain _ | ⟨a, _ | ⟨b, ids⟩⟩ := ids
    · simp
    · simp
    · exact absurd rfl (hshort a b ids)

/-- **A directory is a set.**  It starts from every list without repeats;
after any calls it has answered as the set would, its column is strictly
sorted, what was added is not in the column and what was removed is. -/
theorem directory_is_set (ids : List UInt64) :
    (ids.Nodup → ∃ d, LogicalIdDirectory.fromIds ids = .ok d ∧ ∀ calls,
      (answersOf LogicalIdDirectory.perform d calls).1 =
        (answersOf LogicalIdDirectory.performSet ids.toFinset calls).1 ∧
      (answersOf LogicalIdDirectory.perform d calls).2.Lists
        (answersOf LogicalIdDirectory.performSet ids.toFinset calls).2) ∧
    (¬ids.Nodup → ∃ duplicate, LogicalIdDirectory.fromIds ids = .error duplicate) := by
  have hsort : (sorted ids).Pairwise (· ≤ ·) := pairwise_insertionSort (· ≤ ·) ids
  have hperm : (sorted ids).Perm ids := perm_insertionSort (· ≤ ·) ids
  rw [LogicalIdDirectory.fromIds, sortAndCheckUnique]
  cases hrepeat : firstRepeat (sorted ids) with
  | none =>
    have hlt := (firstRepeat_eq_none hsort).mp hrepeat
    refine ⟨fun _ => ⟨⟨sorted ids, ∅, ∅⟩, rfl, fun calls => ?_⟩,
      fun hno => absurd (hperm.nodup_iff.mp (hlt.imp ne_of_lt)) hno⟩
    refine LogicalIdDirectory.Lists.answersOf ⟨hlt, by simp, by simp, fun a => ?_⟩ calls
    simp [hperm.mem_iff]
  | some duplicate =>
    refine ⟨fun hnodup => ?_, fun _ => ⟨duplicate, rfl⟩⟩
    have hlt : (sorted ids).Pairwise (· < ·) :=
      (hsort.and (hperm.nodup_iff.mpr hnodup)).imp fun h => lt_of_le_of_ne h.1 h.2
    rw [(firstRepeat_eq_none hsort).mpr hlt] at hrepeat
    contradiction

/-- An id taken out, compacted away and put back again. -/
theorem directory_is_set_readded : ∃ d, LogicalIdDirectory.fromIds [7, 3] = .ok d ∧
    (answersOf LogicalIdDirectory.perform d [.remove 3, .compact, .insert 3, .contains 3]).1 =
      [some true, none, some true, some true] := by
  obtain ⟨d, hd, hcalls⟩ := (directory_is_set [7, 3]).1 (by decide)
  exact ⟨d, hd, (hcalls _).1.trans (by decide)⟩

end ReverseRusty
