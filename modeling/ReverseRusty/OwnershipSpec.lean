import ReverseRusty.Ownership

/-!
# ReverseRusty.OwnershipSpec

One emitter per routed read.  `firstCommon` finds a common position of two
checked lists whenever there is one, so `owner` names a routed position that
evaluates the row, and no other position emits it:

* `checkPositions_eq_ok` — what the position check establishes;
* `evaluates_of_owner`, `owner_ne_none` — the owner evaluates the row, and
  there is one whenever some position does;
* `unique_emitter` — the result.
-/

namespace ReverseRusty

open List

attribute [local simp] bind Except.bind

/-! ## checked positions -/

theorem checkPositions_eq_ok {numShards : UInt32} {unsorted : OwnershipError}
    {prev : Option UInt32} {ps : List UInt32}
    (h : checkPositions numShards unsorted prev ps = .ok ()) :
    (∀ q ∈ prev, ∀ p ∈ ps, q < p) ∧ ps.Pairwise (· < ·) ∧ ∀ p ∈ ps, p < numShards := by
  induction ps generalizing prev with
  | nil => simp
  | cons p ps ih =>
    unfold checkPositions at h
    split at h
    · contradiction
    · next hrange =>
      split at h
      · contradiction
      · next hprev =>
        obtain ⟨hlower, hsorted, hlt⟩ := ih h
        have hbelow : ∀ q ∈ ps, p < q := hlower p rfl
        refine ⟨fun q hq r hr => ?_, pairwise_cons.mpr ⟨hbelow, hsorted⟩, ?_⟩
        · cases prev with
          | none => contradiction
          | some q' =>
            cases hq
            have hqp : q < p := by simpa using hprev
            rcases mem_cons.mp hr with rfl | hr
            · exact hqp
            · exact lt_trans hqp (hbelow r hr)
        · intro q hq
          rcases mem_cons.mp hq with rfl | hq
          · exact not_le.mp hrange
          · exact hlt q hq

/-! ## the merge walk -/

namespace OwnershipContext

variable {fuel : Nat} {ps rs : List UInt32} {x : UInt32}

theorem mem_of_firstCommon (h : firstCommon fuel ps rs = some x) : x ∈ ps ∧ x ∈ rs := by
  fun_induction firstCommon fuel ps rs with
  | case1 | case2 | case3 => contradiction
  | case4 fuel p ps r rs hlt ih => exact ⟨mem_cons_of_mem p (ih h).1, (ih h).2⟩
  | case5 fuel p ps r rs _ hgt ih => exact ⟨(ih h).1, mem_cons_of_mem r (ih h).2⟩
  | case6 fuel p ps r rs hlt hgt =>
    have heq : p = r := le_antisymm (not_lt.mp hgt) (not_lt.mp hlt)
    cases h
    exact ⟨mem_cons_self, heq ▸ mem_cons_self⟩

theorem firstCommon_ne_none (hfuel : ps.length + rs.length ≤ fuel) (hps : ps.Pairwise (· < ·))
    (hrs : rs.Pairwise (· < ·)) (hp : x ∈ ps) (hr : x ∈ rs) : firstCommon fuel ps rs ≠ none := by
  fun_induction firstCommon fuel ps rs with
  | case1 ps rs =>
    have hlen := length_pos_of_mem hp
    omega
  | case2 fuel rs => contradiction
  | case3 fuel ps => contradiction
  | case4 fuel p ps r rs hlt ih =>
    -- `p` lies below every routed position, so it is not the common one
    have hne : x ≠ p := by
      rintro rfl
      rcases mem_cons.mp hr with rfl | hr
      · exact lt_irrefl _ hlt
      · exact lt_asymm hlt ((pairwise_cons.mp hrs).1 _ hr)
    refine ih (by simp only [length_cons] at hfuel ⊢; omega) (pairwise_cons.mp hps).2
      hrs ?_ hr
    exact (mem_cons.mp hp).resolve_left hne
  | case5 fuel p ps r rs _ hgt ih =>
    have hne : x ≠ r := by
      rintro rfl
      rcases mem_cons.mp hp with rfl | hp
      · exact lt_irrefl _ hgt
      · exact lt_asymm hgt ((pairwise_cons.mp hps).1 _ hp)
    refine ih (by simp only [length_cons] at hfuel ⊢; omega) hps
      (pairwise_cons.mp hrs).2 hp ?_
    exact (mem_cons.mp hr).resolve_left hne
  | case6 => simp

end OwnershipContext

/-! ## who holds and who evaluates a row -/

/-- Whether a shard may store the row: the check every shard makes before it
takes one. -/
def QueryPlacement.validateForShard (p : QueryPlacement) (position : UInt32) (generation : UInt64)
    (numShards : UInt32) : Except OwnershipError Unit := do
  validatePlacement p.generation p.numShards p.mode p.positions
  if p.generation ≠ generation then .error (.generationMismatch generation p.generation)
  if p.numShards ≠ numShards then .error (.shardCountMismatch numShards p.numShards)
  if numShards ≤ position then .error (.positionOutOfRange position numShards)
  if p.mode = .selective ∧ binarySearch p.positions position = false then
    .error (.localPositionMissing position)

/-- The shard at `position` holds the row. -/
def QueryPlacement.Holds (p : QueryPlacement) (position : UInt32) : Prop :=
  p.validateForShard position p.generation p.numShards = .ok ()

instance (p : QueryPlacement) (position : UInt32) : Decidable (p.Holds position) :=
  inferInstanceAs (Decidable (_ = _))

/-- The shard at `position` holds the row and evaluates it for the read:
rows of the broad lane are evaluated at one position only. -/
def OwnershipContext.Evaluates (c : OwnershipContext) (p : QueryPlacement) (position : UInt32) :
    Prop :=
  p.Holds position ∧ (p.mode = .replicatedBroad → c.broadEvaluator = some position)

namespace QueryPlacement

variable {p : QueryPlacement}

theorem pairwise_positions (h : p.mode = .selective) :
    p.positions.Pairwise (· < ·) ∧ ∀ q ∈ p.positions, q < p.numShards := by
  have hvalid := p.valid
  rw [validatePlacement, h, if_neg (by decide)] at hvalid
  split at hvalid
  · contradiction
  · split at hvalid
    · contradiction
    · rw [if_pos rfl] at hvalid
      split at hvalid
      · contradiction
      · exact (checkPositions_eq_ok hvalid).2

theorem holds_iff {q : UInt32} :
    p.Holds q ↔ q < p.numShards ∧ (p.mode = .selective → q ∈ p.positions) := by
  have hsearch : p.mode = .selective → (binarySearch p.positions q = true ↔ q ∈ p.positions) :=
    fun h => binarySearch_iff_mem ((pairwise_positions h).1.imp le_of_lt)
  unfold Holds validateForShard
  rw [p.valid]
  by_cases hrange : p.numShards ≤ q
  · simp [hrange, not_lt.mpr hrange]
  · have hlt : q < p.numShards := not_le.mp hrange
    by_cases hmode : p.mode = .selective
    · by_cases hmem : q ∈ p.positions
      · simp [hrange, hlt, hmode, hmem, (hsearch hmode).mpr hmem, pure, Except.pure]
      · have hfalse : binarySearch p.positions q = false := by
          rw [Bool.eq_false_iff]
          exact fun h => hmem ((hsearch hmode).mp h)
        simp [hrange, hlt, hmode, hmem, hfalse]
    · simp [hrange, hlt, hmode, pure, Except.pure]

end QueryPlacement

namespace OwnershipContext

structure Checked (c : OwnershipContext) : Prop where
  generation : c.generation ≠ standaloneGeneration
  nonempty : c.routedPositions ≠ []
  ascending : c.routedPositions.Pairwise (· < ·)
  inRange : ∀ q ∈ c.routedPositions, q < c.numShards
  evaluator : ∀ q, c.broadEvaluator = some q → q ∈ c.routedPositions

theorem checked_of_validate {c : OwnershipContext} (h : c.validate = .ok ()) : c.Checked := by
  unfold validate at h
  by_cases hgen : c.generation = standaloneGeneration
  · simp [hgen] at h
  by_cases hshards : c.numShards = 0
  · simp [hgen, hshards] at h
  by_cases hroute : c.routedPositions = []
  · simp [hgen, hshards, hroute] at h
  simp only [hgen, hshards, hroute, if_false, bind, Except.bind] at h
  cases hcheck : checkPositions c.numShards .routeNotStrictlySorted none c.routedPositions with
  | error e => simp [hcheck] at h
  | ok u =>
    obtain ⟨-, hsorted, hlt⟩ := checkPositions_eq_ok hcheck
    refine ⟨hgen, hroute, hsorted, hlt, fun q hq => ?_⟩
    simp only [hcheck, hq] at h
    split at h
    · next hfound => exact mem_of_binarySearch hfound
    · contradiction

section Owner

variable {c : OwnershipContext} {p : QueryPlacement} (hc : c.Checked)
  (hgen : p.generation = c.generation) (hshards : p.numShards = c.numShards)

include hc hgen hshards

variable {q : UInt32}

theorem evaluates_of_owner (h : c.owner p = some q) : q ∈ c.routedPositions ∧ c.Evaluates p q := by
  unfold owner at h
  rw [if_neg (by simp [hgen, hshards])] at h
  have hrouted : q ∈ c.routedPositions := by
    split at h
    · contradiction
    · exact (mem_of_firstCommon h).2
    · exact mem_of_mem_head? h
    · exact hc.evaluator q h
  refine ⟨hrouted, QueryPlacement.holds_iff.mpr ⟨hshards ▸ hc.inRange q hrouted, ?_⟩, ?_⟩
  · intro hmode
    rw [hmode] at h
    exact (mem_of_firstCommon h).1
  · intro hmode
    rw [hmode] at h
    exact h

theorem owner_ne_none (hq : q ∈ c.routedPositions) (h : c.Evaluates p q) : c.owner p ≠ none := by
  unfold owner
  rw [if_neg (by simp [hgen, hshards])]
  split
  · next hmode =>
    -- a standalone row has no generation of a cluster
    have hstandalone := QueryPlacement.eq_standalone hmode
    rw [hstandalone] at hgen
    exact absurd hgen.symm hc.generation
  · next hmode =>
    refine firstCommon_ne_none (le_refl _) (QueryPlacement.pairwise_positions hmode).1 hc.ascending
      ((QueryPlacement.holds_iff.mp h.1).2 hmode) hq
  · simp [hc.nonempty]
  · next hmode => simp [h.2 hmode]

end Owner

/-- **Unique emitter.**  When some routed position holds a row and evaluates
it, exactly one position emits it, a routed one that holds and evaluates it;
otherwise none does. -/
theorem unique_emitter (c : OwnershipContext) (p : QueryPlacement) (hc : c.validate = .ok ())
    (hgen : p.generation = c.generation) (hshards : p.numShards = c.numShards) :
    ((∃ q ∈ c.routedPositions, c.Evaluates p q) →
      ∃ q ∈ c.routedPositions, c.Evaluates p q ∧
        ∀ current, uniqueOwner c current p = true ↔ current = q) ∧
    ((∀ q ∈ c.routedPositions, ¬ c.Evaluates p q) →
      ∀ current, uniqueOwner c current p = false) := by
  have hchecked := checked_of_validate hc
  constructor
  · rintro ⟨q, hq, hevaluates⟩
    obtain ⟨owner, howner⟩ := Option.ne_none_iff_exists'.mp
      (owner_ne_none hchecked hgen hshards hq hevaluates)
    obtain ⟨hrouted, hheld⟩ := evaluates_of_owner hchecked hgen hshards howner
    refine ⟨owner, hrouted, hheld, fun current => ?_⟩
    rw [uniqueOwner, howner, decide_eq_true_eq, Option.some_inj, eq_comm]
  · intro hnone current
    rw [uniqueOwner, decide_eq_false_iff_not]
    intro howner
    obtain ⟨hrouted, hheld⟩ := evaluates_of_owner hchecked hgen hshards howner
    exact hnone current hrouted hheld

/-- A row on shards 1 and 3, read through shards 2 and 3 of five: shard 3
alone emits it. -/
theorem unique_emitter_selective :
    ∃ q ∈ [(2 : UInt32), 3], ∀ current,
      uniqueOwner ⟨1, 5, [2, 3], some 2⟩ current ⟨1, 5, .selective, [1, 3], rfl⟩ = true ↔
        current = q := by
  obtain ⟨q, hq, -, hemits⟩ := (unique_emitter ⟨1, 5, [2, 3], some 2⟩
    ⟨1, 5, .selective, [1, 3], rfl⟩ (by decide) rfl rfl).1
    ⟨3, by decide, by decide, fun h => by contradiction⟩
  exact ⟨q, hq, hemits⟩

end OwnershipContext

end ReverseRusty
