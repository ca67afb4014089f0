import Mathlib
import ReverseRusty.Control

/-!
# ReverseRusty.MoveWaves

The schedule of a sweep of moves (`coordinator/reassign/parallel.rs`).

A move touches the endpoints of the nodes it names.  The planner scans the
targets in order and takes into a wave each whose endpoints no earlier one of
the wave touches; what does not fit waits for a later wave.  It compares
endpoints as they are written, while the ledger of running moves
(`coordinator/reassign/ledger.rs`) takes spellings of one server for one.

Main result: `planWaves_right`, for sweeps whose targets name one server by one
spelling, and what goes wrong with those that do not.
-/

namespace ReverseRusty

open List

/-! ## greedy waves -/

section Waves

variable {ε : Type} [DecidableEq ε]

/-- A scan of the remaining items: what the wave has, what it touches, and what
waits. -/
structure WaveScan (ε : Type) where
  wave : List Nat
  busy : List ε
  deferred : List Nat

variable (footprint : Nat → List ε) (limit : Nat)

def WaveScan.step (w : WaveScan ε) (i : Nat) : WaveScan ε :=
  if w.wave.length < limit ∧ ∀ e ∈ footprint i, e ∉ w.busy then
    ⟨w.wave ++ [i], w.busy ++ footprint i, w.deferred⟩
  else { w with deferred := w.deferred ++ [i] }

/-- Wave after wave until nothing waits.  Each takes at least one item, so there
are at most as many waves as items. -/
def wavesFrom : Nat → List Nat → Option (List (List Nat))
  | _, [] => some []
  | 0, _ :: _ => none
  | fuel + 1, i :: rest =>
    let scan := (i :: rest).foldl (WaveScan.step footprint limit) ⟨[], [], []⟩
    (wavesFrom fuel scan.deferred).map (scan.wave :: ·)

/-- An item does not fit when its turn comes: the wave is full, or an earlier
item of it touches something of it. -/
def Unfit (wave : List Nat) (i : Nat) : Prop :=
  limit ≤ (wave.filter (· < i)).length ∨ ∃ j ∈ wave, j < i ∧ ∃ e ∈ footprint i, e ∈ footprint j

/-- A scan of items in order. -/
structure Scanned (done : List Nat) (w : WaveScan ε) : Prop where
  all : (w.wave ++ w.deferred).Perm done
  wave : w.wave.Sublist done
  deferred : w.deferred.Sublist done
  busy : w.busy = w.wave.flatMap footprint
  length : w.wave.length ≤ limit
  apart : w.wave.Pairwise fun i j => ∀ e ∈ footprint j, e ∉ footprint i
  unfit : ∀ i ∈ w.deferred, Unfit footprint limit w.wave i

structure Schedules (items : List Nat) (waves : List (List Nat)) : Prop where
  once : waves.flatten.Perm items
  order : ∀ w ∈ waves, w.Sublist items
  length : ∀ w ∈ waves, w.length ≤ limit
  apart : ∀ w ∈ waves, w.Pairwise fun i j => ∀ e ∈ footprint j, e ∉ footprint i
  prompt : waves.Pairwise fun earlier later => ∀ i ∈ later, Unfit footprint limit earlier i

variable {footprint limit} {done rest : List Nat} {w : WaveScan ε}

theorem Scanned.step (h : Scanned footprint limit done w) {i : Nat} (hi : ∀ j ∈ done, j < i) :
    Scanned footprint limit (done ++ [i]) (w.step footprint limit i) := by
  have hwave : ∀ j ∈ w.wave, j < i := fun j hj => hi j (h.wave.subset hj)
  unfold WaveScan.step
  split
  · next hfits =>
    obtain ⟨hroom, hfree⟩ := hfits
    rw [h.busy] at hfree
    refine ⟨?_, h.wave.append_right [i], h.deferred.trans (sublist_append_left done [i]), ?_, ?_,
      ?_, fun k hk => ?_⟩
    · have hmove : ((w.wave ++ [i]) ++ w.deferred).Perm ((w.wave ++ w.deferred) ++ [i]) := by
        rw [append_assoc, append_assoc]
        exact perm_append_comm.append_left w.wave
      exact hmove.trans (h.all.append_right [i])
    · simp [h.busy]
    · rw [length_append, length_singleton]
      omega
    · refine pairwise_append.mpr ⟨h.apart, pairwise_singleton .., fun j hj k hk e he => ?_⟩
      rw [mem_singleton.mp hk] at he
      exact fun hin => hfree e he (mem_flatMap.mpr ⟨j, hj, hin⟩)
    · -- an item that waits came before this one
      have hlt : k < i := hi k (h.deferred.subset hk)
      refine (h.unfit k hk).imp (fun hfull => ?_) fun ⟨j, hj, hmeets⟩ =>
        ⟨j, mem_append_left _ hj, hmeets⟩
      simpa [filter_append, Nat.not_lt.mpr hlt.le] using hfull
  · next hunfit =>
    refine ⟨?_, h.wave.trans (sublist_append_left done [i]), h.deferred.append_right [i], h.busy,
      h.length, h.apart, fun k hk => ?_⟩
    · rw [← append_assoc]
      exact h.all.append_right [i]
    · rcases mem_append.mp hk with hk | hk
      · exact h.unfit k hk
      · rw [mem_singleton.mp hk]
        by_cases hroom : w.wave.length < limit
        · have hmeets : ∃ e ∈ footprint i, e ∈ w.busy := by
            by_contra hno
            exact hunfit ⟨hroom, fun e he hbusy => hno ⟨e, he, hbusy⟩⟩
          obtain ⟨e, he, hbusy⟩ := hmeets
          rw [h.busy] at hbusy
          obtain ⟨j, hj, hin⟩ := mem_flatMap.mp hbusy
          exact .inr ⟨j, hj, hwave j hj, e, he, hin⟩
        · have hall : w.wave.filter (· < i) = w.wave :=
            filter_eq_self.mpr fun j hj => decide_eq_true (hwave j hj)
          refine .inl ?_
          rw [hall]
          omega

theorem Scanned.foldl (h : Scanned footprint limit done w) (hsorted : (done ++ rest).Pairwise (· < ·)) :
    Scanned footprint limit (done ++ rest) (rest.foldl (WaveScan.step footprint limit) w) := by
  induction rest generalizing done w with
  | nil => simpa using h
  | cons i rest ih =>
    have hi : ∀ j ∈ done, j < i := fun j hj =>
      (pairwise_append.mp hsorted).2.2 j hj i mem_cons_self
    have happend : done ++ i :: rest = (done ++ [i]) ++ rest := by simp
    rw [happend] at hsorted ⊢
    exact ih (h.step hi) hsorted

/-- **Greedy waves** schedule every item, in finitely many waves. -/
theorem wavesFrom_schedules (hlimit : 1 ≤ limit) {fuel : Nat} {items : List Nat}
    (hsorted : items.Pairwise (· < ·)) (hfuel : items.length ≤ fuel) :
    ∃ waves, wavesFrom footprint limit fuel items = some waves ∧
      Schedules footprint limit items waves := by
  induction fuel generalizing items with
  | zero =>
    obtain rfl : items = [] := length_eq_zero_iff.mp (Nat.le_zero.mp hfuel)
    exact ⟨[], rfl, ⟨by simp, by simp, by simp, by simp, by simp⟩⟩
  | succ fuel ih =>
    cases items with
    | nil => exact ⟨[], rfl, ⟨by simp, by simp, by simp, by simp, by simp⟩⟩
    | cons i rest =>
      have hempty : Scanned footprint limit [] ⟨[], [], []⟩ :=
        ⟨.refl _, .refl _, .refl _, rfl, Nat.zero_le _, .nil, by simp⟩
      have hscan := hempty.foldl hsorted
      rw [nil_append] at hscan
      rw [wavesFrom]
      generalize (i :: rest).foldl (WaveScan.step footprint limit) ⟨[], [], []⟩ = scan at hscan ⊢
      have hlen := hscan.all.length_eq
      rw [length_append] at hlen
      have htaken : 0 < scan.wave.length := by
        by_contra hno
        have hnil : scan.wave = [] := length_eq_zero_iff.mp (by omega)
        have hwaits : i ∈ scan.deferred := by
          have hmem := hscan.all.mem_iff.mpr (mem_cons_self : i ∈ i :: rest)
          simpa [hnil] using hmem
        rcases hscan.unfit i hwaits with hfull | ⟨j, hj, -⟩
        · rw [hnil] at hfull
          simp at hfull
          omega
        · rw [hnil] at hj
          contradiction
      obtain ⟨waves, hwaves, h⟩ := ih (hsorted.sublist hscan.deferred) (by omega)
      refine ⟨scan.wave :: waves, by simp only [hwaves, Option.map_some], ?_, ?_, ?_, ?_, ?_⟩
      · rw [flatten_cons]
        exact (h.once.append_left scan.wave).trans hscan.all
      · exact forall_mem_cons.mpr
          ⟨hscan.wave, fun w hw => (h.order w hw).trans hscan.deferred⟩
      · exact forall_mem_cons.mpr ⟨hscan.length, h.length⟩
      · exact forall_mem_cons.mpr ⟨hscan.apart, h.apart⟩
      · refine pairwise_cons.mpr ⟨fun later hlater k hk => hscan.unfit k ?_, h.prompt⟩
        exact (h.order later hlater).subset hk

end Waves

/-! ## the planner -/

/-- The endpoints a move touches: those of the committed members of its position
and of the desired ones.  A node without an address is passed over. -/
def moveFootprint (s : ClusterState) (desired : ShardAssignment) : List String :=
  let addrOf node := (s.nodes.find? fun n => n.id = node).bind NodeDescriptor.addr
  let committed := (s.assignments.find? fun a => a.position = desired.position).elim [] fun a =>
    a.primary :: a.replicas
  sortDedup ((committed ++ desired.primary :: desired.replicas).filterMap addrOf)

def targetFootprint (s : ClusterState) (targets : List (Nat × ShardAssignment)) (i : Nat) :
    List String :=
  targets[i]?.elim [] fun target => moveFootprint s target.2

def planWaves (s : ClusterState) (targets : List (Nat × ShardAssignment)) (maxParallel : Nat) :
    Option (List (List Nat)) :=
  wavesFrom (targetFootprint s targets) (max maxParallel 1) targets.length
    (List.range targets.length)

/-- Two footprints name one server, as the ledger tells servers apart. -/
def Clash (xs ys : List String) : Prop :=
  ∃ x ∈ xs, ∃ y ∈ ys, normalizedMoveEndpoint x = normalizedMoveEndpoint y

/-- A conflict-free schedule of the targets.  What waits for a later wave met, in
each earlier one, a full wave or a clash when its turn came.  A limit of zero is
read as one. -/
structure WavesRight (s : ClusterState) (targets : List (Nat × ShardAssignment))
    (maxParallel : Nat) (waves : List (List Nat)) : Prop where
  once : waves.flatten.Perm (List.range targets.length)
  order : ∀ w ∈ waves, w.Pairwise (· < ·)
  limit : ∀ w ∈ waves, w.length ≤ max maxParallel 1
  prompt : waves.Pairwise fun earlier later => ∀ i ∈ later,
    max maxParallel 1 ≤ (earlier.filter (· < i)).length ∨
      ∃ j ∈ earlier, j < i ∧ Clash (targetFootprint s targets i) (targetFootprint s targets j)
  apart : ∀ w ∈ waves, w.Pairwise fun i j =>
    ¬ Clash (targetFootprint s targets i) (targetFootprint s targets j)

def PlanRight (s : ClusterState) (targets : List (Nat × ShardAssignment)) (maxParallel : Nat) :
    Prop :=
  ∃ waves, planWaves s targets maxParallel = some waves ∧ WavesRight s targets maxParallel waves

/-- Targets `i` and `j` share an endpoint as written. -/
def Meets (s : ClusterState) (targets : List (Nat × ShardAssignment)) (i j : Nat) : Prop :=
  ∃ e ∈ targetFootprint s targets j, e ∈ targetFootprint s targets i

/-- Targets of the sweep that name one server name it by one spelling. -/
def SpelledAlike (s : ClusterState) (targets : List (Nat × ShardAssignment)) : Prop :=
  ∀ i j, i < j → Clash (targetFootprint s targets i) (targetFootprint s targets j) →
    Meets s targets i j

section Plan

variable {s : ClusterState} {targets : List (Nat × ShardAssignment)} {maxParallel : Nat}

theorem planWaves_schedules (s : ClusterState) (targets : List (Nat × ShardAssignment))
    (maxParallel : Nat) : ∃ waves, planWaves s targets maxParallel = some waves ∧
      Schedules (targetFootprint s targets) (max maxParallel 1) (List.range targets.length) waves :=
  wavesFrom_schedules (le_max_right maxParallel 1) pairwise_lt_range length_range.le

/-- In a wave of at most one target nothing clashes. -/
theorem pairwise_of_length_le_one {α : Type} {R : α → α → Prop} {xs : List α}
    (h : xs.length ≤ 1) : xs.Pairwise R := by
  match xs with
  | [] => exact .nil
  | [x] => exact pairwise_singleton ..
  | _ :: _ :: _ => simp at h

/-- **A sweep is scheduled right** when its targets name one server by one
spelling, or when the waves hold one target each. -/
theorem planRight_of (h : maxParallel ≤ 1 ∨ SpelledAlike s targets) :
    PlanRight s targets maxParallel := by
  have hsorted : (List.range targets.length).Pairwise (· < ·) := pairwise_lt_range
  obtain ⟨waves, hplan, hs⟩ := planWaves_schedules s targets maxParallel
  refine ⟨waves, hplan, hs.once, fun w hw => hsorted.sublist (hs.order w hw), hs.length, ?_,
    fun w hw => ?_⟩
  · refine hs.prompt.imp fun {earlier later} hunfit i hi => (hunfit i hi).imp_right ?_
    rintro ⟨j, hj, hlt, e, he, hin⟩
    exact ⟨j, hj, hlt, e, he, e, hin, rfl⟩
  · rcases h with hone | hspelled
    · refine pairwise_of_length_le_one ((hs.length w hw).trans ?_)
      omega
    · refine ((hs.apart w hw).and (hsorted.sublist (hs.order w hw))).imp ?_
      rintro i j ⟨hfree, hij⟩ hclash
      obtain ⟨e, he, hin⟩ := hspelled i j hij hclash
      exact hfree e he hin

/-- Targets that share no endpoint as written and are no more than the limit all
go into the first wave, with whatever follows them. -/
theorem mem_first_wave {n : Nat} (hn : n ≤ maxParallel) (hlen : n ≤ targets.length)
    (hfree : ∀ i j, i < j → j < n → ¬ Meets s targets i j) {first : List Nat}
    {rest : List (List Nat)} (hs : Schedules (targetFootprint s targets) (max maxParallel 1)
      (List.range targets.length) (first :: rest)) {k : Nat} (hk : k < n) : k ∈ first := by
  have hmem : k ∈ (first :: rest).flatten := hs.once.mem_iff.mpr (mem_range.mpr (hk.trans_le hlen))
  rw [flatten_cons, mem_append] at hmem
  refine hmem.resolve_right fun hlater => ?_
  obtain ⟨later, hlater, hk'⟩ := mem_flatten.mp hlater
  rcases rel_of_pairwise_cons hs.prompt hlater k hk' with hfull | ⟨j, -, hjk, e, he, hin⟩
  · -- before its turn the wave has at most the targets before it
    have hsub : (first.filter (· < k)).length ≤ k := by
      have hnodup : (first.filter (· < k)).Nodup :=
        (nodup_range.sublist (hs.order first mem_cons_self)).filter _
      have hbefore : first.filter (· < k) ⊆ List.range k := fun i hi =>
        mem_range.mpr (by simpa using (mem_filter.mp hi).2)
      have hle := (hnodup.subperm hbefore).length_le
      rwa [length_range] at hle
    omega
  · exact hfree j k hjk hk ⟨e, he, hin⟩

/-- **Two spellings of one server** among the first targets, which fit in one wave
as written: the sweep is scheduled wrong. -/
theorem PlanRight.apart (h : PlanRight s targets maxParallel) {n : Nat} (hn : n ≤ maxParallel)
    (hlen : n ≤ targets.length)
    (hfree : ∀ i j, i < j → j < n → ¬ Meets s targets i j) {i j : Nat} (hij : i < j) (hj : j < n) :
    ¬ Clash (targetFootprint s targets i) (targetFootprint s targets j) := by
  obtain ⟨waves, hplan, hright⟩ := h
  obtain ⟨waves', hplan', hs⟩ := planWaves_schedules s targets maxParallel
  obtain rfl : waves = waves' := Option.some.inj (hplan.symm.trans hplan')
  cases waves with
  | nil =>
    have hzero : targets.length = 0 := by simpa using hs.once.length_eq.symm
    omega
  | cons first rest =>
    have hi := mem_first_wave hn hlen hfree hs (hij.trans hj)
    have hj := mem_first_wave hn hlen hfree hs hj
    obtain ⟨a, ha, rfl⟩ := getElem_of_mem hi
    obtain ⟨b, hb, rfl⟩ := getElem_of_mem hj
    have horder := pairwise_iff_getElem.mp (hright.order first mem_cons_self)
    have hab : a < b := by
      rcases Nat.lt_trichotomy a b with hab | rfl | hba
      · exact hab
      · omega
      · have := horder b a hb ha hba
        omega
    exact pairwise_iff_getElem.mp (hright.apart first mem_cons_self) a b ha hb hab

theorem planWaves_pair {d d' : Nat × ShardAssignment} (hlimit : 2 ≤ maxParallel)
    (hfree : ∀ e ∈ moveFootprint s d'.2, e ∉ moveFootprint s d.2) :
    planWaves s [d, d'] maxParallel = some [[0, 1]] := by
  have hroom : 1 < max maxParallel 1 := by omega
  have hfirst : targetFootprint s [d, d'] 0 = moveFootprint s d.2 := rfl
  have hsecond : targetFootprint s [d, d'] 1 = moveFootprint s d'.2 := rfl
  have hrange : List.range 2 = [0, 1] := rfl
  simp [planWaves, hrange, wavesFrom, WaveScan.step, hfirst, hsecond, hroom, if_pos hfree]

end Plan

/-- **When a sweep of moves is scheduled right.**  The waves are a conflict-free
schedule if they hold one target each, or if targets of the sweep that name one
server name it by one spelling.  They are not if, among the first targets, which
fit in one wave as written, two name one server. -/
theorem planWaves_right (s : ClusterState) (targets : List (Nat × ShardAssignment))
    (maxParallel : Nat) :
    (maxParallel ≤ 1 ∨ SpelledAlike s targets → PlanRight s targets maxParallel) ∧
    ∀ n ≤ maxParallel, n ≤ targets.length → (∀ i j, i < j → j < n → ¬ Meets s targets i j) →
      PlanRight s targets maxParallel → ∀ i j, i < j → j < n →
        ¬ Clash (targetFootprint s targets i) (targetFootprint s targets j) :=
  ⟨planRight_of, fun _ hn hlen hfree h _ _ hij hj => h.apart hn hlen hfree hij hj⟩

/-- Nodes one and two are one server in two spellings, node three another. -/
def respelledState : ClusterState :=
  ⟨[⟨1, some "http://a:1", .data⟩, ⟨2, some "http://A:1/", .data⟩, ⟨3, some "http://b:1", .data⟩],
    [], 2, 0, 0, 0, ⟨0, [], [], none⟩⟩

/-- A sweep that touches one of the spellings only. -/
theorem one_spelling_right :
    PlanRight respelledState [(0, ⟨0, 1, []⟩), (1, ⟨1, 3, []⟩)] 2 := by
  refine (planWaves_right _ _ 2).1 (.inr ?_)
  rintro (_ | i) (_ | _ | j) hij ⟨x, hx, y, hy, heq⟩
  · omega
  · have hfirst : targetFootprint respelledState [(0, ⟨0, 1, []⟩), (1, ⟨1, 3, []⟩)] 0 =
        ["http://a:1"] := rfl
    have hsecond : targetFootprint respelledState [(0, ⟨0, 1, []⟩), (1, ⟨1, 3, []⟩)] 1 =
        ["http://b:1"] := rfl
    rw [hfirst, mem_singleton] at hx
    rw [hsecond, mem_singleton] at hy
    subst hx hy
    exact absurd heq (by decide)
  · simp [targetFootprint] at hy
  · omega
  · omega
  · simp [targetFootprint] at hy

/-- Two moves onto one server, written in two ways: the planner runs both at once. -/
theorem respelled_server_shared :
    planWaves respelledState [(0, ⟨0, 1, []⟩), (1, ⟨1, 2, []⟩)] 2 = some [[0, 1]] ∧
      Clash (targetFootprint respelledState [(0, ⟨0, 1, []⟩), (1, ⟨1, 2, []⟩)] 0)
        (targetFootprint respelledState [(0, ⟨0, 1, []⟩), (1, ⟨1, 2, []⟩)] 1) := by
  have hfirst : moveFootprint respelledState ⟨0, 1, []⟩ = ["http://a:1"] := rfl
  have hsecond : moveFootprint respelledState ⟨1, 2, []⟩ = ["http://A:1/"] := rfl
  refine ⟨planWaves_pair le_rfl ?_, "http://a:1", ?_, "http://A:1/", ?_, by decide⟩
  · rw [hfirst, hsecond]
    decide
  · exact (List.Perm.of_eq hfirst).mem_iff.mpr mem_cons_self
  · exact (List.Perm.of_eq hsecond).mem_iff.mpr mem_cons_self

end ReverseRusty
