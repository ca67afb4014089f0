import ReverseRusty.Dict

/-!
# ReverseRusty.Phrase

Quoted-phrase token graphs (`normalize.rs`).  A title graph has one label
per arc; a query graph has a set of alternative labels per arc.  A query
graph *occurs* in a title graph when some path from its start to its end
is spelled by consecutive title arcs.

`walk` is the bounded graph intersection the matcher runs, with its state
and work budgets; `none` is the explicit fail-open signal.  Its positive
answers are sound for `Occurs` (`occurs_of_walk`).
-/

namespace ReverseRusty

open List

/-- One labelled edge of an analyzed title, between token positions. -/
structure PositionArc where
  feature : FeatureId
  start : UInt32
  «end» : UInt32
deriving DecidableEq, Repr

/-- One edge of a compiled quoted phrase; any alternative label spells it. -/
structure PhraseArc where
  start : UInt32
  «end» : UInt32
  alternatives : List FeatureId
deriving DecidableEq, Repr

/-- The analyzed token graph of one quoted clause. -/
structure PhraseGraph where
  positions : UInt32
  arcs : List PhraseArc
deriving DecidableEq, Repr

/-- A title's token graph.  `complete` is false when title analysis hit a
bounded-work guard. -/
structure PositionGraph where
  positions : UInt32
  arcs : List PositionArc
  complete : Bool
deriving DecidableEq, Repr

/-! ## what it means for a phrase to occur -/

/-- The node pairs a query path and a title path reach together, from the
query's start and any title position. -/
inductive Spelled (query : PhraseGraph) (positions : UInt32) (title : List PositionArc) :
    UInt32 × UInt32 → Prop where
  | start {t : UInt32} (h : t < positions) : Spelled query positions title (0, t)
  | step {q t : UInt32} {qa : PhraseArc} {ta : PositionArc}
      (h : Spelled query positions title (q, t))
      (hqa : qa ∈ query.arcs) (hq : qa.start = q)
      (hta : ta ∈ title) (ht : ta.start = t)
      (hlabel : ta.feature ∈ qa.alternatives) :
      Spelled query positions title (qa.end, ta.end)

/-- Some path of the query graph from start to end is spelled by
consecutive title arcs. -/
def PhraseGraph.Occurs (query : PhraseGraph) (positions : UInt32)
    (title : List PositionArc) : Prop :=
  ∃ t, Spelled query positions title (query.positions, t)

theorem PhraseGraph.Occurs.exists_label {query : PhraseGraph} {positions : UInt32}
    {title : List PositionArc} (h : query.Occurs positions title)
    (hpos : query.positions ≠ 0) :
    ∃ qa ∈ query.arcs, ∃ ta ∈ title, ta.feature ∈ qa.alternatives := by
  obtain ⟨t, ht⟩ := h
  generalize hnode : (query.positions, t) = node at ht
  cases ht with
  | start _ => exact absurd (congrArg Prod.fst hnode) hpos
  | step _ hqa _ hta _ hlabel => exact ⟨_, hqa, _, hta, hlabel⟩

/-! ## the bounded walk -/

/-- Most node pairs one phrase walk may visit. -/
def phraseGraphMaxStates : Nat := 65536

/-- Most arc inspections one phrase walk may make. -/
def phraseGraphMaxWork : Nat := 65536

/-- The walk's working state: nodes to visit (top first), nodes already
scheduled, and the work spent. -/
structure WalkState where
  stack : List (UInt32 × UInt32)
  seen : List (UInt32 × UInt32)
  work : Nat

/-- Try each title arc that leaves the current title node against one
query arc. -/
def walkTitleArcs (qa : PhraseArc) : List PositionArc → WalkState → Option WalkState
  | [], s => some s
  | ta :: tas, s =>
    if phraseGraphMaxWork ≤ s.work then none
    else
      let s := { s with work := s.work + 1 }
      if binarySearch qa.alternatives ta.feature = false then walkTitleArcs qa tas s
      else if (qa.end, ta.end) ∈ s.seen then walkTitleArcs qa tas s
      else if phraseGraphMaxStates ≤ s.seen.length then none
      else
        walkTitleArcs qa tas
          { s with stack := (qa.end, ta.end) :: s.stack, seen := (qa.end, ta.end) :: s.seen }

/-- Try each query arc that leaves the current query node.  The arcs are
in canonical order, so the first one past the node ends the scan. -/
def walkQueryArcs (node : UInt32) (tas : List PositionArc) :
    List PhraseArc → WalkState → Option WalkState
  | [], s => some s
  | qa :: qas, s =>
    if phraseGraphMaxWork ≤ s.work then none
    else
      let s := { s with work := s.work + 1 }
      if qa.start < node then walkQueryArcs node tas qas s
      else if node < qa.start then some s
      else
        match walkTitleArcs qa tas s with
        | none => none
        | some s => walkQueryArcs node tas qas s

def arcsFrom (title : List PositionArc) (node : UInt32) : List PositionArc :=
  (title.dropWhile (fun a => a.start < node)).takeWhile (fun a => a.start == node)

/-- Pop and expand nodes until the query's final node is reached, the
stack is empty, or a budget is exhausted.  Every node is scheduled once,
so `phraseGraphMaxStates + 1` pops always suffice. -/
def walkStack (query : PhraseGraph) (title : List PositionArc) :
    Nat → WalkState → Option Bool
  | 0, _ => none
  | fuel + 1, s =>
    match s.stack with
    | [] => some false
    | (q, t) :: rest =>
      if q = query.positions then some true
      else
        match walkQueryArcs q (arcsFrom title t) query.arcs { s with stack := rest } with
        | none => none
        | some s => walkStack query title fuel s

/-- The node pairs a walk starts from, last title position on top. -/
def walkStart (positions : UInt32) : List (UInt32 × UInt32) :=
  ((List.range positions.toNat).map (fun t => (0, UInt32.ofNat t))).reverse

/-- **The bounded phrase walk.**  `none` when the title analysis was
incomplete or a budget ran out. -/
def walk (query : PhraseGraph) (title : PositionGraph) : Option Bool :=
  if title.complete = false then none
  else if phraseGraphMaxStates < title.positions.toNat then none
  else
    walkStack query title.arcs (phraseGraphMaxStates + 1)
      { stack := walkStart title.positions, seen := walkStart title.positions, work := 0 }

/-- The walk as the explain path runs it: an empty query graph never
occurs. -/
def phraseGraphMatchesBounded (query : PhraseGraph) (title : PositionGraph) : Option Bool :=
  if title.complete = false then none
  else if query.positions = 0 ∨ query.arcs = [] then some false
  else walk query title

/-! ## soundness of a positive answer -/

section Sound

variable {query : PhraseGraph} {positions : UInt32} {title : List PositionArc}

theorem arcsFrom_subset {node : UInt32} {ta : PositionArc} (h : ta ∈ arcsFrom title node) :
    ta ∈ title ∧ ta.start = node := by
  have hmem := mem_takeWhile_imp h
  have hsub := (dropWhile_sublist _).mem ((takeWhile_sublist _).mem h)
  exact ⟨hsub, by simpa using hmem⟩

variable {s : WalkState}

variable {t : UInt32} {tas : List PositionArc} {s' : WalkState}

theorem walkTitleArcs_spelled {qa : PhraseArc} (hqa : qa ∈ query.arcs)
    (hnode : Spelled query positions title (qa.start, t))
    (htas : ∀ ta ∈ tas, ta ∈ title ∧ ta.start = t)
    (hs : ∀ n ∈ s.stack, Spelled query positions title n) (h : walkTitleArcs qa tas s = some s') :
    ∀ n ∈ s'.stack, Spelled query positions title n := by
  induction tas generalizing s with
  | nil =>
    simp only [walkTitleArcs, Option.some.injEq] at h
    subst h
    exact hs
  | cons ta tas ih =>
    have htail : ∀ a ∈ tas, a ∈ title ∧ a.start = t := fun a ha =>
      htas a (mem_cons_of_mem _ ha)
    simp only [walkTitleArcs] at h
    split at h
    · contradiction
    · split at h
      · refine ih htail ?_ h
        exact hs
      · next hfound =>
        split at h
        · refine ih htail ?_ h
          exact hs
        · split at h
          · contradiction
          · refine ih htail ?_ h
            intro n hn
            obtain ⟨hta, hstart⟩ := htas ta mem_cons_self
            rcases mem_cons.mp hn with rfl | hn
            · exact .step hnode hqa rfl hta hstart
                (mem_of_binarySearch (by simpa using hfound))
            · exact hs n hn

theorem walkQueryArcs_spelled {q : UInt32} (hnode : Spelled query positions title (q, t))
    (htas : ∀ ta ∈ tas, ta ∈ title ∧ ta.start = t) {qas : List PhraseArc}
    (hqas : ∀ qa ∈ qas, qa ∈ query.arcs) (hs : ∀ n ∈ s.stack, Spelled query positions title n)
    (h : walkQueryArcs q tas qas s = some s') :
    ∀ n ∈ s'.stack, Spelled query positions title n := by
  induction qas generalizing s with
  | nil =>
    simp only [walkQueryArcs, Option.some.injEq] at h
    subst h
    exact hs
  | cons qa qas ih =>
    have htail : ∀ a ∈ qas, a ∈ query.arcs := fun a ha => hqas a (mem_cons_of_mem _ ha)
    simp only [walkQueryArcs] at h
    split at h
    · contradiction
    · split at h
      · refine ih htail ?_ h
        exact hs
      · next hge =>
        split at h
        · simp only [Option.some.injEq] at h
          subst h
          exact hs
        · next hle =>
          have hstart : qa.start = q := le_antisymm (not_lt.mp hle) (not_lt.mp hge)
          split at h
          · contradiction
          · next s₁ hs₁ =>
            have hmem := hqas qa mem_cons_self
            refine ih htail (walkTitleArcs_spelled hmem (hstart ▸ hnode) htas ?_ hs₁) h
            exact hs

theorem occurs_of_walkStack {fuel : Nat} (hs : ∀ n ∈ s.stack, Spelled query positions title n)
    (h : walkStack query title fuel s = some true) : query.Occurs positions title := by
  induction fuel generalizing s with
  | zero => simp [walkStack] at h
  | succ fuel ih =>
    simp only [walkStack] at h
    split at h
    · simp at h
    · next q t rest hstack =>
      have hnode : Spelled query positions title (q, t) := hs _ (by rw [hstack]; simp)
      split at h
      · next hq => exact ⟨t, hq ▸ hnode⟩
      · split at h
        · contradiction
        · next s' hs' =>
          refine ih ?_ h
          refine walkQueryArcs_spelled hnode (fun ta hta => arcsFrom_subset hta)
            (fun _ hqa => hqa) ?_ hs'
          intro n hn
          exact hs n (by rw [hstack]; exact mem_cons_of_mem _ hn)

theorem walkStart_spelled {n : UInt32 × UInt32} (h : n ∈ walkStart positions) :
    Spelled query positions title n := by
  simp only [walkStart, mem_reverse, mem_map, mem_range] at h
  obtain ⟨t, ht, rfl⟩ := h
  refine .start ?_
  have hlt := positions.toNat_lt
  rw [UInt32.lt_iff_toNat_lt, UInt32.toNat_ofNat_of_lt' (by simp only [UInt32.size]; omega)]
  exact ht

end Sound

/-- **A positive walk is a real occurrence.** -/
theorem occurs_of_walk {query : PhraseGraph} {title : PositionGraph}
    (h : walk query title = some true) : query.Occurs title.positions title.arcs := by
  unfold walk at h
  split at h
  · contradiction
  · split at h
    · contradiction
    · exact occurs_of_walkStack (fun _ hn => walkStart_spelled hn) h

end ReverseRusty
