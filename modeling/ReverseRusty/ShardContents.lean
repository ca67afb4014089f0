import ReverseRusty.Ownership

/-!
# ReverseRusty.ShardContents

The rows a shard serves and what the writes in its log do to them
(`cluster/clog.rs`, `cluster/shard/mutation.rs`).

A shard logs a write before it applies it, so its rows are a replay of its
log.  Whether the engine takes a row depends on the row alone; what it does
not take changes nothing.
-/

namespace ReverseRusty

open List

structure ShardRow where
  logical : UInt64
  version : UInt32
  text : String
  tags : List (String × String)
  placement : QueryPlacement
deriving DecidableEq, Repr

/-- A logged write. -/
inductive ClusterMutation where
  | add (row : ShardRow)
  | upsert (row : ShardRow)
  | remove (logical : UInt64)
deriving DecidableEq, Repr

/-- Drop every row of a query. -/
def withoutLogical (logical : UInt64) (rows : List ShardRow) : List ShardRow :=
  rows.filter fun row => row.logical ≠ logical

section Contents

variable (accepts : ShardRow → Bool)

def applyMutation (rows : List ShardRow) : ClusterMutation → List ShardRow
  | .add row => if accepts row then rows ++ [row] else rows
  | .upsert row => if accepts row then withoutLogical row.logical rows ++ [row] else rows
  | .remove logical => withoutLogical logical rows

def replayRows (rows : List ShardRow) (log : List ClusterMutation) : List ShardRow :=
  log.foldl (applyMutation accepts) rows

variable {accepts}

@[simp] theorem replayRows_nil (rows : List ShardRow) : replayRows accepts rows [] = rows := rfl

theorem replayRows_append (rows : List ShardRow) (log log' : List ClusterMutation) :
    replayRows accepts rows (log ++ log') =
      replayRows accepts (replayRows accepts rows log) log' :=
  foldl_append

theorem replayRows_concat (rows : List ShardRow) (log : List ClusterMutation)
    (m : ClusterMutation) :
    replayRows accepts rows (log ++ [m]) =
      applyMutation accepts (replayRows accepts rows log) m := by
  rw [replayRows_append]
  rfl

theorem replayRows_cons (rows : List ShardRow) (m : ClusterMutation)
    (log : List ClusterMutation) :
    replayRows accepts rows (m :: log) = replayRows accepts (applyMutation accepts rows m) log :=
  rfl

attribute [local simp] applyMutation

theorem applyMutation_perm {rows rows' : List ShardRow} (h : rows.Perm rows')
    (m : ClusterMutation) :
    (applyMutation accepts rows m).Perm (applyMutation accepts rows' m) := by
  cases m with
  | add row =>
    by_cases ha : accepts row = true
    · simpa [ha] using h.append_right [row]
    · simpa [ha] using h
  | upsert row =>
    by_cases ha : accepts row = true
    · simpa [ha, withoutLogical] using (h.filter _).append_right [row]
    · simpa [ha] using h
  | remove logical => exact h.filter _

/-! ## one query at a time

A write to one query leaves the rows of the others alone, so what a replay
gives can be read off query by query. -/

def ofLogical (logical : UInt64) (rows : List ShardRow) : List ShardRow :=
  rows.filter fun row => row.logical = logical

@[simp] theorem ofLogical_nil (q : UInt64) : ofLogical q [] = [] := rfl

@[simp] theorem ofLogical_append (q : UInt64) (rows rows' : List ShardRow) :
    ofLogical q (rows ++ rows') = ofLogical q rows ++ ofLogical q rows' :=
  filter_append _ _

theorem ofLogical_flatMap {α : Type} (q : UInt64) (f : α → List ShardRow) (xs : List α) :
    ofLogical q (xs.flatMap f) = xs.flatMap fun x => ofLogical q (f x) :=
  filter_flatMap

theorem ofLogical_singleton (q : UInt64) (row : ShardRow) :
    ofLogical q [row] = if row.logical = q then [row] else [] := by
  by_cases h : row.logical = q <;> simp [ofLogical, h]

theorem ofLogical_withoutLogical_self (q : UInt64) (rows : List ShardRow) :
    ofLogical q (withoutLogical q rows) = [] := by
  simp [ofLogical, withoutLogical, filter_filter]

variable {q : UInt64}

theorem ofLogical_withoutLogical_of_ne {logical : UInt64} (h : logical ≠ q) (rows : List ShardRow) :
    ofLogical q (withoutLogical logical rows) = ofLogical q rows := by
  rw [ofLogical, withoutLogical, filter_filter]
  refine filter_congr fun row _ => ?_
  by_cases hq : row.logical = q
  · simp [hq, h.symm]
  · simp [hq]

variable {rows rows' : List ShardRow}

theorem perm_of_ofLogical (h : ∀ q, (ofLogical q rows).Perm (ofLogical q rows')) :
    rows.Perm rows' := by
  rw [perm_iff_count]
  intro row
  have hcount (l : List ShardRow) : (ofLogical row.logical l).count row = l.count row := by
    rw [ofLogical, count_filter (by simp)]
  rw [← hcount rows, ← hcount rows', (h row.logical).count_eq]

theorem ofLogical_perm (h : rows.Perm rows') (q : UInt64) :
    (ofLogical q rows).Perm (ofLogical q rows') :=
  h.filter _

variable (accepts) in
/-- A write after which only what follows it says which rows a query has. -/
def ClusterMutation.resets (q : UInt64) : ClusterMutation → Bool
  | .add _ => false
  | .upsert row => row.logical = q && accepts row
  | .remove logical => logical = q

variable (accepts) in
def insertedRows (q : UInt64) (log : List ClusterMutation) : List ShardRow :=
  log.flatMap fun
    | .add row => if row.logical = q ∧ accepts row then [row] else []
    | _ => []

variable {m : ClusterMutation}

attribute [local simp] ClusterMutation.resets insertedRows

theorem ofLogical_applyMutation (h : m.resets accepts q = false) (rows : List ShardRow) :
    ofLogical q (applyMutation accepts rows m) =
      ofLogical q rows ++ insertedRows accepts q [m] := by
  cases m with
  | add row =>
    by_cases ha : accepts row = true
    · simp [ofLogical_singleton, ha]
    · simp [ha]
  | upsert row =>
    by_cases ha : accepts row = true
    · have hq : row.logical ≠ q := by simpa [ha] using h
      simp [ofLogical_singleton, ha, hq, ofLogical_withoutLogical_of_ne hq]
    · simp [ha]
  | remove logical =>
    have hq : logical ≠ q := by simpa using h
    simp [ofLogical_withoutLogical_of_ne hq]

theorem ofLogical_applyMutation_of_resets (h : m.resets accepts q = true)
    (rows rows' : List ShardRow) :
    ofLogical q (applyMutation accepts rows m) = ofLogical q (applyMutation accepts rows' m) := by
  cases m with
  | add row => simp at h
  | upsert row =>
    obtain ⟨rfl, ha⟩ : row.logical = q ∧ accepts row = true := by
      simpa using h
    simp [ha, ofLogical_withoutLogical_self]
  | remove logical =>
    obtain rfl : logical = q := by simpa using h
    simp [ofLogical_withoutLogical_self]

theorem insertedRows_append (q : UInt64) (log log' : List ClusterMutation) :
    insertedRows accepts q (log ++ log') =
      insertedRows accepts q log ++ insertedRows accepts q log' :=
  flatMap_append

variable {log : List ClusterMutation}

theorem ofLogical_replayRows (h : ∀ m ∈ log, m.resets accepts q = false) (rows : List ShardRow) :
    ofLogical q (replayRows accepts rows log) =
      ofLogical q rows ++ insertedRows accepts q log := by
  induction log generalizing rows with
  | nil => simp
  | cons m log ih =>
    rw [replayRows_cons, ih (fun m' hm' => h m' (mem_cons_of_mem _ hm')),
      ofLogical_applyMutation (h m mem_cons_self), append_assoc,
      ← insertedRows_append]
    rfl

theorem ofLogical_replayRows_congr (h : ofLogical q rows = ofLogical q rows')
    (log : List ClusterMutation) :
    ofLogical q (replayRows accepts rows log) = ofLogical q (replayRows accepts rows' log) := by
  induction log generalizing rows rows' with
  | nil => exact h
  | cons m log ih =>
    refine ih ?_
    cases hm : m.resets accepts q with
    | true => exact ofLogical_applyMutation_of_resets hm rows rows'
    | false => rw [ofLogical_applyMutation hm, ofLogical_applyMutation hm, h]

theorem ofLogical_replayRows_of_resets (h : ∃ m ∈ log, m.resets accepts q = true)
    (rows rows' : List ShardRow) :
    ofLogical q (replayRows accepts rows log) = ofLogical q (replayRows accepts rows' log) := by
  obtain ⟨m, hm, hr⟩ := h
  obtain ⟨before, after, rfl⟩ := append_of_mem hm
  simp only [replayRows_append, replayRows_cons]
  exact ofLogical_replayRows_congr (ofLogical_applyMutation_of_resets hr _ _) after

end Contents

end ReverseRusty
