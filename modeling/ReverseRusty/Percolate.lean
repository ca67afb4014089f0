import ReverseRusty.CompactMatch
import ReverseRusty.HashRing
import ReverseRusty.MatchView
import ReverseRusty.OwnershipSpec
import ReverseRusty.Threshold

/-!
# ReverseRusty.Percolate

A sharded cluster answers as the list of its queries
(`cluster/coordinator/target.rs`, `matching.rs` and `ingest/mutate.rs`).

* **placement** — `targetOf` puts a query on the shards its anchors hash
  to, or on every shard; `route` sends a title to the shards its features
  hash to;
* **reading** — `percolatePass` asks the routed shards, each of which
  emits the rows it owns from the segments its tag filter does not skip;
* **runs** — `Mirrors` says what a run of writes, flushes and merges leaves on
  every shard, and is kept by every step.

`Stores` speaks of the live rows of a shard as if nothing had ever been
merged, so that a merge costs one lemma (`Stores.compactRange`).
-/

namespace ReverseRusty

open List

/-! ## placement -/

inductive Target where
  | reject
  | replicatedAlwaysVisible
  | replicatedBroad
  | selective (shards : List Nat)
deriving DecidableEq

namespace Target

/-- The placement to store with a query. -/
def placement (generation : UInt64) (numShards : UInt32) :
    Target → Except OwnershipError QueryPlacement
  | reject => .ok .standalone
  | replicatedAlwaysVisible => QueryPlacement.replicatedAlwaysVisible generation numShards
  | replicatedBroad => QueryPlacement.replicatedBroad generation numShards
  | selective shards => QueryPlacement.selective generation numShards (shards.map UInt32.ofNat)

/-- The shards that hold a query. -/
def shards (numShards : Nat) : Target → List Nat
  | reject => []
  | replicatedAlwaysVisible | replicatedBroad => List.range numShards
  | selective shards => shards

end Target

/-- The target of a planned query. -/
def targetOf (plan : AnchorPlan) (d : Dict) (ring : HashRing) (ex : Extracted)
    (acceptClassD : Bool) : Target :=
  -- quoted labels are not routed on, so a row anchored on them goes to every shard
  if usesRequiredPhraseProxy ex d ∧ (plan.cls = .A ∨ plan.cls = .B ∨ plan.cls = .H) then
    .replicatedAlwaysVisible
  else
    match plan.cls with
    | .D => if acceptClassD && ex.hasNegativePredicate then .replicatedBroad else .reject
    | .C => .replicatedBroad
    | .A | .B | .H =>
      let anchors := plan.mainAnchors ++ plan.hotAnchors
      if anchors.any (·.length ≠ 1) then .replicatedAlwaysVisible
      else
        let shards := sortDedup (anchors.filterMap fun g => g.head?.map ring.lookup)
        if shards = [] then .reject else .selective shards

/-- Plan a query and find its target. -/
def placementOf (d : Dict) (ring : HashRing) (ex : Extracted) (acceptClassD : Bool) (theta : Nat) :
    Target :=
  targetOf (anchorPlan ex d theta) d ring ex acceptClassD

section Case

variable (ex : Extracted) (d : Dict) (ring : HashRing) (acceptClassD : Bool) (cls : CostClass)

/-- What a query's target can be, and what routing relies on. -/
inductive TargetCase : Target → Prop where
  | reject (hrej : rejectsClassD cls ex acceptClassD = true) : TargetCase .reject
  | broad (hopt : cls.isOptIn = true) (hrej : rejectsClassD cls ex acceptClassD = false) :
      TargetCase .replicatedBroad
  | visible (hopt : cls.isOptIn = false) : TargetCase .replicatedAlwaysVisible
  | selective {anchors : List FeatureId} (hopt : cls.isOptIn = false) (hne : anchors ≠ [])
      (hcold : ∀ f ∈ anchors, d.isHot f = false)
      (hanchor : ∀ v, ex.Demands d v → ∃ f ∈ anchors, f ∈ v.pos) :
      TargetCase (.selective (sortDedup (anchors.map ring.lookup)))

variable {ex d ring acceptClassD cls}

theorem TargetCase.stored {target : Target} (h : TargetCase ex d ring acceptClassD cls target)
    (hne : target ≠ .reject) : rejectsClassD cls ex acceptClassD = false ∧
      (cls.isOptIn = true → target = .replicatedBroad) := by
  cases h with
  | reject => exact absurd rfl hne
  | broad _ hrej => exact ⟨hrej, fun _ => rfl⟩
  | visible hopt | selective hopt =>
    refine ⟨?_, fun h => by rw [hopt] at h; cases h⟩
    cases cls <;> first | rfl | cases hopt

theorem targetCase_singletons {b : Bool} (main hot : List FeatureId) {anchors : List FeatureId}
    (hopt : cls.isOptIn = false) (hall : main ++ hot = anchors) (hne : anchors ≠ [])
    (hcold : ∀ f ∈ anchors, d.isHot f = false)
    (hanchor : ∀ v, ex.Demands d v → ∃ f ∈ anchors, f ∈ v.pos) :
    TargetCase ex d ring acceptClassD cls
      (targetOf ⟨singletons main, [], singletons hot, cls, b⟩ d ring ex acceptClassD) := by
  have hanchors : singletons main ++ singletons hot = singletons anchors := by
    simp [singletons, ← hall]
  have hone : (singletons anchors).any (·.length ≠ 1) = false := by simp [singletons]
  have hshards : (singletons anchors).filterMap (fun g => g.head?.map ring.lookup) =
      anchors.map ring.lookup := by simp [singletons, filterMap_map, Function.comp_def]
  have hsome : sortDedup (anchors.map ring.lookup) ≠ [] :=
    sortDedup_ne_nil.mpr fun hnil => hne (map_eq_nil_iff.mp hnil)
  unfold targetOf
  split
  · exact .visible hopt
  · cases cls with
    | A | B | H =>
      simp only [hanchors, hone, hshards, Bool.false_eq_true, if_false, if_neg hsome]
      exact .selective hopt hne hcold hanchor
    | C | D => cases hopt

variable (d ring acceptClassD)

/-- **Inversion of the placement rule.** -/
theorem targetCase_placementOf (hgroups : ∀ group ∈ ex.anyof, group ≠ []) (theta : Nat) :
    TargetCase ex d ring acceptClassD (anchorPlan ex d theta).cls
      (placementOf d ring ex acceptClassD theta) := by
  unfold placementOf
  generalize hplan : anchorPlan ex d theta = plan
  have hcase : PlanCase ex d plan := hplan ▸ anchorPlan_planCase ex d theta
  cases hcase with
  | universal =>
    simp only [targetOf, universalPlan, reduceCtorEq, or_self, and_false, if_false]
    split
    · next h => exact .broad rfl (by simpa [rejectsClassD] using h)
    · next h => exact .reject (by simpa [rejectsClassD, Classical.or_iff_not_imp_left] using h)
  | phrase _ huse =>
    simp only [targetOf, huse, reduceCtorEq, true_or, or_true, and_self, if_true]
    exact .visible rfl
  | @anyMain group _ hgroup hcold =>
    exact targetCase_singletons group [] rfl (append_nil _) (hgroups group hgroup) hcold
      fun v h => h.anyof group hgroup
  | @anyHot group hgroup hcold =>
    exact targetCase_singletons [] group rfl rfl (hgroups group hgroup) hcold
      fun v h => h.anyof group hgroup
  | anyBroad | broadOne =>
    simp only [targetOf, reduceCtorEq, or_self, and_false, if_false]
    exact .broad rfl rfl
  | pair =>
    -- a pair of masked features is not one to hash on
    simp only [targetOf, any_append, any_cons]
    simpa using .visible rfl
  | @hotOne r1 h1 hcold =>
    exact targetCase_singletons [] [r1] rfl rfl (cons_ne_nil _ _) (by simpa using hcold)
      fun v h => ⟨r1, mem_singleton.mpr rfl, h.required r1 h1⟩
  | @mainOne r1 _ h1 hcold =>
    exact targetCase_singletons [r1] [] rfl rfl (cons_ne_nil _ _) (by simpa using hcold)
      fun v h => ⟨r1, mem_singleton.mpr rfl, h.required r1 h1⟩

end Case

/-! ## the cluster -/

/-- What the coordinator plans a query by: the dictionary and the hot-anchor
threshold. -/
structure Planner where
  dict : Dict
  theta : Nat

/-- What it places and routes by. -/
structure Layout extends Planner where
  ring : HashRing
  generation : UInt64
  numShards : Nat
  /-- the hot-anchor thresholds of the shards -/
  thetas : Nat → Nat
  /-- whether a shard skips segments by their union of tags -/
  skipping : Nat → Bool
  /-- whether the merges of a shard plan rows again, and how -/
  reanchor : Nat → Option Reanchor
  ring_new : ∃ vnodes, HashRing.new numShards vnodes = .ok ring
  generation_ne : generation ≠ standaloneGeneration
  count : numShards < UInt32.size

/-- The shards by position, and the logical ids in use. -/
structure Cluster where
  shards : Nat → Corpus
  ids : List UInt64

/-- A write, or the upkeep of one shard.  Which range a flush merges after it
is up to the compaction policy, so a run may choose any. -/
inductive ClusterOp where
  | add (req : AddRequest)
  | remove (logical : UInt64)
  | flushShard (s : Nat) (range : Option (Nat × Nat))
  | compactShard (s lo hi : Nat)

namespace Corpus

def sources (c : Corpus) : List Segment := c.segments ++ [c.memtable]

/-- Mark every row of a query dead. -/
def deleteByLogicalId (c : Corpus) (logical : UInt64) : Corpus :=
  let delete (s : Segment) : Segment := (s.localsForLogical logical).foldl Segment.tombstone s
  ⟨c.segments.map delete, delete c.memtable⟩

/-- Merge the base segments `[lo, hi)` into one. -/
def compactRange (c : Corpus) (d : Dict) (reanchor : Option Reanchor) (lo hi : Nat) : Corpus :=
  if hi ≤ lo + 1 ∨ c.segments.length < hi then c
  else
    let merged := Segment.compact ((c.segments.take hi).drop lo) d reanchor
    { c with segments := c.segments.take lo ++ merged :: c.segments.drop hi }

/-- Seal the memtable, and merge the range the policy picks, if it picks one. -/
def flush (c : Corpus) (d : Dict) (reanchor : Option Reanchor) (range : Option (Nat × Nat)) :
    Corpus :=
  if c.memtable.length = 0 then c
  else range.elim (c.apply 0 .flush) fun r => (c.apply 0 .flush).compactRange d reanchor r.1 r.2

/-- What a match reads of the store; the title comes as it was read. -/
def view (c : Corpus) (d : Dict) (skipping : Bool) (pred : TagPredicate) : MatchView where
  dict := d
  segments := c.segments.map .memory
  memtable := c.memtable
  hasMultiwordAliases := false
  hasPhrasePredicates := false
  tagSegmentSkipping := skipping
  pred := pred

/-- Match a title with a new scratch. -/
def readIds (c : Corpus) (v : TitleView) (d : Dict) (skipping includeBroad : Bool)
    (pred : TagPredicate) (emission : QueryPlacement → Bool) : List UInt64 :=
  let mv := c.view d skipping pred
  let scratch := (Stamps.new.ensure mv.lens).nextEpoch
  sortDedup ((mv.scan v ⟨includeBroad, true⟩ emission scratch).2.map Hit.logical)

/-- Answer a routed read with the rows that this shard owns. -/
def percolateFilteredOwned (c : Corpus) (d : Dict) (v : TitleView) (skipping includeBroad : Bool)
    (pred : TagPredicate) (context : OwnershipContext) (current : UInt32) :
    Except OwnershipError (List UInt64) := do
  context.validate
  context.requireRouted current
  return c.readIds v d skipping includeBroad pred (uniqueOwner context current)

end Corpus

/-- A query the compiler may hand to a store. -/
def AddRequest.Compiled (req : AddRequest) : Prop :=
  req.ex.Storable ∧ ∀ group ∈ req.ex.anyof, group ≠ []

/-- The query as it is stored with a placement. -/
def AddRequest.placed (req : AddRequest) (d : Dict) (p : QueryPlacement) : AddRequest :=
  { req with dict := d, placement := p, knobs := { req.knobs with keepVisible := false } }

namespace Layout

variable (l : Layout)

section Read

variable (σ : Cluster) (raw : List UInt8) (v : TitleView) (includeBroad : Bool) (pred : TagPredicate)

/-- The shards a title is routed to, and the one that evaluates the broad
lane for it. -/
def route : List Nat × Nat :=
  let targets := sortDedup ((v.pos.filter fun f => !l.dict.isHot f).map l.ring.lookup)
  let h := (fnv1a64 raw).toNat
  if targets = [] then ([h % l.ring.numShards], h % l.ring.numShards)
  else (targets, targets.getD (h % targets.length) 0)

/-- What a routed read tells every shard. -/
def context (route : List Nat × Nat) : OwnershipContext where
  generation := l.generation
  numShards := .ofNat l.numShards
  routedPositions := route.1.map UInt32.ofNat
  broadEvaluator := if includeBroad then some (.ofNat route.2) else none

/-- Ask the routed shards for a title. -/
def percolateParts : Except OwnershipError (List (List UInt64)) := do
  let route := l.route raw v
  let ownership := l.context includeBroad route
  ownership.validate
  route.1.mapM fun s => (σ.shards s).percolateFilteredOwned l.dict v (l.skipping s)
    (includeBroad && s = route.2) pred ownership (.ofNat s)

/-- **Match one title**: merge the answers of the routed shards. -/
def percolatePass : Except OwnershipError (List UInt64) := do
  let parts ← l.percolateParts σ raw v includeBroad pred
  return sortDedup parts.flatten

end Read

def target (req : AddRequest) : Target :=
  placementOf l.dict l.ring req.ex req.knobs.acceptClassD l.theta

def placement (req : AddRequest) : Except OwnershipError QueryPlacement :=
  (l.target req).placement l.generation (.ofNat l.numShards)

/-- The shards a query is stored on. -/
def holders (req : AddRequest) : List Nat := (l.target req).shards l.numShards

/-- Create a query whose id is not in use, on the shards of its placement. -/
def addQuery (σ : Cluster) (req : AddRequest) : Cluster :=
  if σ.ids.contains req.logical then σ
  else
    match l.placement req with
    | .error _ => σ
    | .ok p =>
      if l.target req = .reject then σ
      else
        { shards := fun s =>
            if s ∈ l.holders req then
              (σ.shards s).apply (l.thetas s) (.add (req.placed l.dict p))
            else σ.shards s
          ids := σ.ids ++ [req.logical] }

def apply (σ : Cluster) : ClusterOp → Cluster
  | .add req => l.addQuery σ req
  | .remove logical =>
    { shards := fun s => (σ.shards s).deleteByLogicalId logical
      ids := σ.ids.filter (· ≠ logical) }
  | .flushShard i range =>
    { σ with shards := fun s =>
        if s = i then (σ.shards s).flush l.dict (l.reanchor s) range else σ.shards s }
  | .compactShard i lo hi =>
    { σ with shards := fun s =>
        if s = i then (σ.shards s).compactRange l.dict (l.reanchor s) lo hi else σ.shards s }

/-- The cluster after some operations. -/
def run (ops : List ClusterOp) : Cluster := ops.foldl l.apply ⟨fun _ => .new, []⟩

end Layout

/-! ## the abstract registry -/

namespace Planner

variable (l : Planner)

/-- Whether default reads leave the query out. -/
def optIn (q : AddRequest) : Bool := (anchorPlan q.ex l.dict l.theta).cls.isOptIn

/-- Whether no store takes the query. -/
def refuses (q : AddRequest) : Bool :=
  rejectsClassD (anchorPlan q.ex l.dict l.theta).cls q.ex q.knobs.acceptClassD

/-- The queries after a write, wherever they are stored. -/
def register (qs : List AddRequest) : ClusterOp → List AddRequest
  | .add req =>
    if (qs.map (·.logical)).contains req.logical || l.refuses req then qs else qs ++ [req]
  | .remove logical => qs.filter (·.logical ≠ logical)
  | .flushShard _ _ | .compactShard _ _ _ => qs

/-- The queries after some operations. -/
def registry (ops : List ClusterOp) : List AddRequest := ops.foldl l.register []

/-- Whether a query matches a title and passes the filter. -/
def wanted (v : TitleView) (pred : TagPredicate) (q : AddRequest) : Bool :=
  (Body.compile l.dict q.ex).verify v && (pred.isEmpty || pred.matches (narrow 16 q.tags))

/-- What a read of the list of queries returns. -/
def answer (qs : List AddRequest) (v : TitleView) (includeBroad : Bool) (pred : TagPredicate) :
    List UInt64 :=
  sortDedup ((qs.filter fun q => l.wanted v pred q && (!l.optIn q || includeBroad)).map (·.logical))

end Planner

/-! ## the live rows of a store -/

def Entry.live (e : Entry) : Option Row := if e.alive then some e.row else none

/-- The live rows of a segment, in order. -/
def Segment.live (seg : Segment) : List Row := seg.entries.filterMap Entry.live

/-- The union of tags of a segment, if it has one, covers its rows. -/
def Segment.Summarised (seg : Segment) : Prop :=
  ∀ ids, seg.tagSummary = some ids → ids.Pairwise (· < ·) ∧ ∀ row ∈ seg.rows, row.tags ⊆ ids

/-- A segment an engine can hold, whose live rows that default reads leave out
are placed as broad ones. -/
structure Segment.Stored (d : Dict) (seg : Segment) : Prop where
  produced : Segment.Produced d seg
  broad : ∀ e ∈ seg.entries, e.alive = true → e.cls.isOptIn = true →
    e.row.placement.mode = .replicatedBroad

theorem Segment.Stored.new (d : Dict) : Segment.new.Stored d :=
  ⟨.new d, fun _ he => absurd he not_mem_nil⟩

namespace Corpus

/-- The live rows of the store are `rows`, in the order they were added. -/
structure Stores (c : Corpus) (d : Dict) (rows : List Row) : Prop where
  segments : ∀ s ∈ c.segments, s.Stored d ∧ s.Summarised
  memtable : c.memtable.Stored d
  unsealed : c.memtable.filter = none
  live : c.sources.flatMap Segment.live = rows

section Stores

variable {c : Corpus} {d : Dict} {rows : List Row}

theorem Stores.stored (h : c.Stores d rows) : ∀ s ∈ c.sources, s.Stored d :=
  forall_mem_append.mpr ⟨fun s hs => (h.segments s hs).1, forall_mem_singleton.mpr h.memtable⟩

theorem summarised_buildFilter (seg : Segment) : seg.buildFilter.Summarised := by
  intro ids hids
  obtain rfl : sortDedup (seg.entries.flatMap fun e => e.row.tags) = ids := Option.some.inj hids
  refine ⟨pairwise_sortDedup _, fun row hrow t ht => mem_sortDedup.mpr ?_⟩
  obtain ⟨e, he, rfl⟩ := mem_map.mp hrow
  exact mem_flatMap.mpr ⟨e, he, ht⟩

/-- A new store has no rows. -/
theorem stores_new : new.Stores d [] :=
  ⟨fun _ hs => absurd hs not_mem_nil, .new d, rfl, rfl⟩

theorem Stores.seal (h : c.Stores d rows) (theta : Nat) : (c.apply theta .flush).Stores d rows := by
  simp only [apply]
  split
  · exact h
  · refine ⟨forall_mem_append.mpr ⟨h.segments, forall_mem_singleton.mpr ?_⟩, .new d, rfl, ?_⟩
    · exact ⟨⟨h.memtable.produced.buildFilter, h.memtable.broad⟩, summarised_buildFilter _⟩
    · rw [← h.live]
      simp [sources, Segment.live, Segment.buildFilter, Segment.new]

/-- An accepted append adds one entry, at the side of the opt-in boundary its
plan is on. -/
theorem entries_added {seg seg' : Segment} {req : AddRequest} {r : AddedCompiled}
    (hadd : seg.addCompiled req = some (r, seg')) :
    ∃ cls l, cls.isOptIn = req.plan.cls.isOptIn ∧
      seg'.entries = seg.entries ++ [⟨req.row, cls, true, l⟩] := by
  rcases Segment.addCompiled_cases hadd with ⟨l, e, -, -, hcls, -, heq⟩ | heq
  · exact ⟨_, _, hcls, by rw [heq]; rfl⟩
  · exact ⟨_, _, rfl, by rw [heq]; rfl⟩

theorem Stores.add (h : c.Stores d rows) {req : AddRequest} (hreq : req.Admissible d) (theta : Nat)
    (hrej : rejectsClassD (req.withThreshold theta).plan.cls req.ex req.knobs.acceptClassD = false)
    (hbroad : (req.withThreshold theta).plan.cls.isOptIn = true →
      req.placement.mode = .replicatedBroad) :
    (c.apply theta (.add req)).Stores d (rows ++ [req.row]) := by
  obtain ⟨r, hadd⟩ := @Segment.addCompiled_eq_added c.memtable (req.withThreshold theta) hrej
  obtain ⟨cls, l, hcls, hentries⟩ := entries_added hadd
  simp only [apply, hadd]
  refine ⟨h.segments, ⟨?_, fun e he halive hopt => ?_⟩,
    (filter_of_addCompiled hadd).trans h.unsealed, ?_⟩
  · exact h.memtable.produced.add h.unsealed (hreq.withThreshold theta) hadd
  · rcases mem_append.mp (hentries ▸ he) with he | he
    · exact h.memtable.broad e he halive hopt
    · rw [mem_singleton.mp he] at hopt ⊢
      exact hbroad (hcls ▸ hopt)
  · rw [← h.live]
    simp [sources, Segment.live, hentries, Entry.live]

/-! ## merging -/

section Compact

variable {sources : List Segment} {reanchor : Option Reanchor} {reanchored : Bool} {dest : Segment}

theorem live_eq_map (seg : Segment) : seg.live = seg.liveEntries.map Entry.row := by
  rw [Segment.live, Segment.liveEntries]
  induction seg.entries with
  | nil => rfl
  | cons e es ih => cases halive : e.alive <;> simp [Entry.live, halive, ih]

/-- The copied rows are live, in the order of their sources. -/
theorem live_merged (hdest : Segment.Merged d reanchored (Segment.mergedEntries sources) dest) :
    dest.live = sources.flatMap Segment.live := by
  have hrows : dest.entries.map Entry.live =
      (Segment.mergedEntries sources).map fun p => some p.2.row := by
    refine ext_getElem? fun n => ?_
    rw [getElem?_map, getElem?_map]
    cases hn : (Segment.mergedEntries sources)[n]? with
    | none =>
      have hle := (getElem?_eq_none_iff.mp hn).trans' (le_of_eq hdest.length_eq)
      rw [getElem?_eq_none hle]
      rfl
    | some p =>
      obtain ⟨m, hm, hrow, halive, -⟩ := hdest.copied n p.1 p.2 hn
      simp [hm, Entry.live, halive, hrow]
  calc dest.live = (dest.entries.map Entry.live).filterMap id := by
        rw [filterMap_map, Function.id_comp, Segment.live]
    _ = (Segment.mergedEntries sources).map fun p => p.2.row := by
        rw [hrows, filterMap_map, ← filterMap_eq_map]
        rfl
    _ = sources.flatMap Segment.live := by
        rw [Segment.mergedEntries, map_flatMap]
        exact flatMap_congr fun s _ => by rw [live_eq_map, map_map]; rfl

/-- A row that a merge plans again only leaves the broad lane. -/
theorem broad_merged (hdest : Segment.Merged d reanchored (Segment.mergedEntries sources) dest)
    (hsources : ∀ s ∈ sources, s.Stored d) {m : Entry} (hm : m ∈ dest.entries)
    (hopt : m.cls.isOptIn = true) : m.row.placement.mode = .replicatedBroad := by
  obtain ⟨n, hn⟩ := mem_iff_getElem?.mp hm
  have hlt : n < (Segment.mergedEntries sources).length :=
    hdest.length_eq ▸ (List.getElem?_eq_some_iff.mp hn).1
  obtain ⟨src, hsrc, hin⟩ := mem_flatMap.mp (getElem_mem hlt)
  obtain ⟨e, he, heq⟩ := mem_map.mp hin
  have hdone : (Segment.mergedEntries sources)[n]? = some (src, e) := by
    rw [getElem?_eq_getElem hlt, ← heq]
  obtain ⟨m', hm', hrow, -, hmove⟩ := hdest.copied n src e hdone
  obtain rfl : m = m' := Option.some.inj (hn.symm.trans hm')
  obtain ⟨he, halive⟩ := mem_filter.mp he
  rw [hrow]
  refine (hsources src hsrc).broad e he halive ?_
  rcases hmove with hsame | ⟨-, -, hvisible⟩
  · exact hsame ▸ hopt
  · rw [hvisible] at hopt
    contradiction

/-- **A merge keeps the live rows**, in order, and puts no row of another
placement behind the opt-in boundary. -/
theorem stored_compact (hsources : ∀ s ∈ sources, s.Stored d) :
    (Segment.compact sources d reanchor).Stored d ∧
      (Segment.compact sources d reanchor).Summarised ∧
      (Segment.compact sources d reanchor).live = sources.flatMap Segment.live := by
  have hproduced : ∀ s ∈ sources, Segment.Produced d s := fun s hs => (hsources s hs).produced
  obtain ⟨dest, hdest, hcompact⟩ := Segment.exists_merged reanchor
    (fun s hs => (hproduced s hs).valid (.refl d)) (Segment.Produced.unmasks hproduced (.refl d))
  refine ⟨⟨.compact hproduced reanchor, ?_⟩, ?_, ?_⟩ <;> rw [hcompact]
  · exact fun m hm _ hopt => broad_merged hdest hsources hm hopt
  · exact fun ids hids => summarised_buildFilter dest ids hids
  · exact show dest.live = _ from live_merged hdest

end Compact

/-- **A merge leaves the rows of the store alone.** -/
theorem Stores.compactRange (h : c.Stores d rows) (reanchor : Option Reanchor) (lo hi : Nat) :
    (c.compactRange d reanchor lo hi).Stores d rows := by
  unfold Corpus.compactRange
  split
  · exact h
  · next hrange =>
    have hlo : lo ≤ hi := by omega
    -- the segments below the range, in it and above it
    have hsplit : c.segments =
        c.segments.take lo ++ ((c.segments.take hi).drop lo ++ c.segments.drop hi) := by
      conv_lhs => rw [← take_append_drop hi c.segments, ← take_append_drop lo (c.segments.take hi)]
      rw [take_take, min_eq_left hlo, append_assoc]
    obtain ⟨hstored, hsummarised, hlive⟩ := @stored_compact d ((c.segments.take hi).drop lo) reanchor
      fun s hs => (h.segments s (mem_of_mem_take (mem_of_mem_drop hs))).1
    refine ⟨forall_mem_append.mpr ⟨?_, forall_mem_cons.mpr ⟨⟨hstored, hsummarised⟩, ?_⟩⟩,
      h.memtable, h.unsealed, ?_⟩
    · exact fun s hs => h.segments s (mem_of_mem_take hs)
    · exact fun s hs => h.segments s (mem_of_mem_drop hs)
    · rw [← h.live, sources, sources]
      conv_rhs => rw [hsplit]
      simp [hlive]

/-- A flush leaves the rows alone, and so does the merge after it. -/
theorem Stores.flush (h : c.Stores d rows) (reanchor : Option Reanchor)
    (range : Option (Nat × Nat)) : (c.flush d reanchor range).Stores d rows := by
  unfold Corpus.flush
  split
  · exact h
  · cases range with
    | none => exact h.seal 0
    | some r => exact (h.seal 0).compactRange reanchor r.1 r.2

/-! ## deleting -/

theorem getElem?_tombstones (is : List Nat) (seg : Segment) (i : Nat) :
    (is.foldl Segment.tombstone seg).entries[i]? =
      seg.entries[i]?.map fun e => if i ∈ is then { e with alive := false } else e := by
  induction is generalizing seg with
  | nil => simp
  | cons j is ih =>
    rw [foldl_cons, ih, Segment.tombstone]
    grind

/-- Deleting an id leaves exactly the live rows of the others. -/
theorem live_deleted {seg : Segment} (hk : seg.Kept) (logical : UInt64) :
    ((seg.localsForLogical logical).foldl Segment.tombstone seg).live =
      seg.live.filter (·.logical ≠ logical) := by
  have hmap : ((seg.localsForLogical logical).foldl Segment.tombstone seg).entries.map Entry.live =
      seg.entries.map fun e => e.live.filter (·.logical ≠ logical) := by
    refine ext_getElem? fun i => ?_
    rw [getElem?_map, getElem?_map, getElem?_tombstones, Option.map_map]
    refine Option.map_congr fun e he => ?_
    by_cases hi : i ∈ seg.localsForLogical logical
    · obtain ⟨e', he', hlogical⟩ := hk.logical logical i hi
      cases he.symm.trans he'
      cases halive : e.alive <;> simp [Entry.live, hi, halive, hlogical, Option.filter_some]
    · have hne : e.alive = true → e.row.logical ≠ logical := fun halive heq =>
        hi (heq ▸ hk.listed i e he halive)
      cases halive : e.alive <;> simp_all [Entry.live, Option.filter_some]
  have hid : ∀ (f : Entry → Option Row) (es : List Entry),
      es.filterMap f = (es.map f).filterMap id := fun f es => by
    rw [filterMap_map, Function.id_comp]
  rw [Segment.live, Segment.live, filter_filterMap, hid, hmap, ← hid]

theorem stored_tombstones {seg : Segment} (h : seg.Stored d) (is : List Nat) :
    (is.foldl Segment.tombstone seg).Stored d ∧
      (is.foldl Segment.tombstone seg).filter = seg.filter := by
  refine ⟨⟨?_, fun e he halive => ?_⟩, ?_⟩
  · exact foldlRecOn is _ h.produced fun _ h i _ => h.tombstone i
  · obtain ⟨i, hi⟩ := mem_iff_getElem?.mp he
    rw [getElem?_tombstones] at hi
    obtain ⟨e₀, he₀, rfl⟩ := Option.map_eq_some_iff.mp hi
    split at halive
    · contradiction
    · next hnot =>
      rw [if_neg hnot]
      exact h.broad e₀ (mem_of_getElem? he₀) halive
  · exact foldlRecOn (motive := fun s => s.filter = seg.filter) is _ rfl fun s hs i _ =>
      (Segment.filter_tombstone s i).trans hs

theorem summarised_tombstones {seg : Segment} (h : seg.Summarised) (is : List Nat) :
    (is.foldl Segment.tombstone seg).Summarised := by
  induction is generalizing seg with
  | nil => exact h
  | cons i is ih =>
    refine ih fun ids hids => ?_
    have hsame : (seg.tombstone i).tagSummary = seg.tagSummary := by
      unfold Segment.tombstone
      split <;> rfl
    rw [Segment.rows_tombstone]
    exact h ids (hsame ▸ hids)

/-- Deleting an id leaves the rows of the others. -/
theorem Stores.delete (h : c.Stores d rows) (logical : UInt64) :
    (c.deleteByLogicalId logical).Stores d (rows.filter (·.logical ≠ logical)) := by
  have hsources : (c.deleteByLogicalId logical).sources =
      c.sources.map fun s => (s.localsForLogical logical).foldl Segment.tombstone s := by
    simp [sources, deleteByLogicalId]
  refine ⟨forall_mem_map.mpr fun s hs => ?_, (stored_tombstones h.memtable _).1,
    (stored_tombstones h.memtable _).2.trans h.unsealed, ?_⟩
  · exact ⟨(stored_tombstones (h.segments s hs).1 _).1, summarised_tombstones (h.segments s hs).2 _⟩
  · rw [hsources, flatMap_map, ← h.live, filter_flatMap]
    exact flatMap_congr fun s hs => live_deleted ((h.stored s hs).produced.valid (.refl d)).kept logical

/-! ## reading -/

section Read

variable {v : TitleView} {skipping includeBroad : Bool} {pred : TagPredicate}
  {emission : QueryPlacement → Bool} {id : UInt64}

theorem mem_matchIds_segment {s : Segment} (hs : Segment.Produced d s) {lanes : ProbeLanes} :
    id ∈ s.matchIds v d lanes pred emission ↔ ∃ (i : Nat) (e : Entry), s.entries[i]? = some e ∧
      e.alive = true ∧ e.row.verify v pred = true ∧ emission e.row.placement = true ∧
      s.Reaches v d lanes e.dupOf ∧ e.row.logical = id := by
  have hmem := (@BaseSegment.mem_emitted_memory s (hs.valid (.refl d)).grouped v d lanes pred
    emission).2
  rw [Segment.matchIds, Segment.logicals, mem_filterMap]
  constructor
  · rintro ⟨i, hi, hid⟩
    obtain ⟨e, he, halive, hverify, hemits, hreach⟩ := (hmem i).mp hi
    rw [he] at hid
    exact ⟨i, e, he, halive, hverify, hemits, hreach, Option.some.inj hid⟩
  · rintro ⟨i, e, he, halive, hverify, hemits, hreach, hid⟩
    exact ⟨i, (hmem i).mpr ⟨e, he, halive, hverify, hemits, hreach⟩, by rw [he, ← hid]; rfl⟩

theorem Stores.built (h : c.Stores d rows) : (c.view d skipping pred).Built := by
  refine ⟨fun b hb => ?_, h.memtable.produced⟩
  obtain ⟨s, hs, rfl⟩ := mem_map.mp hb
  exact .memory (h.segments s hs).1.produced

theorem map_logical_hits (s : Segment) (k : Nat) (is : List Nat) :
    ((BaseSegment.memory s).hits k is).map Hit.logical = s.logicals is := by
  rw [BaseSegment.hits, Segment.logicals, map_filterMap]
  simp [BaseSegment.row, Function.comp_def]

/-- What a scan of the store finds in the segments that are not skipped and
in the memtable. -/
theorem Stores.mem_readIds_iff (h : c.Stores d rows) :
    id ∈ c.readIds v d skipping includeBroad pred emission ↔
      (∃ s ∈ c.segments, (c.view d skipping pred).skips (.memory s) = false ∧
        id ∈ s.matchIds v d ⟨includeBroad, true⟩ pred emission) ∨
      id ∈ c.memtable.matchIds v d ⟨includeBroad, true⟩ pred emission := by
  have hbuilt : (c.view d skipping pred).Built := h.built
  have hscan := (@MatchView.scan_eq (c.view d skipping pred) v ⟨includeBroad, true⟩ emission hbuilt _
    (Stamps.bounded_new.ensure _) (Stamps.fits_ensure Stamps.new _)).1
  have hsource : ∀ (s : Segment) (k : Nat), (.memory s, k) ∈ (c.view d skipping pred).sources →
      (id ∈ ((c.view d skipping pred).sourceHits v ⟨includeBroad, true⟩ emission
        (.memory s, k)).map Hit.logical ↔
        id ∈ s.matchIds v d ⟨includeBroad, true⟩ pred emission) := by
    intro s k hs
    rw [MatchView.sourceHits_eq hbuilt hs, map_logical_hits]
    rfl
  rw [readIds, mem_sortDedup, hscan, MatchView.scanHits, map_flatMap, mem_flatMap]
  constructor
  · rintro ⟨source, hin, hid⟩
    rcases mem_append.mp hin with hseg | hmemtable
    · obtain ⟨hzip, hskip⟩ := mem_filter.mp hseg
      obtain ⟨s, hs, heq⟩ := mem_map.mp (mem_of_getElem? (mem_zipIdx_iff_getElem?.mp hzip))
      obtain ⟨b, k⟩ := source
      obtain rfl : BaseSegment.memory s = b := heq
      exact .inl ⟨s, hs, by simpa using hskip, (hsource s k hin).mp hid⟩
    · obtain rfl := mem_singleton.mp hmemtable
      exact .inr ((hsource _ _ hin).mp hid)
  · rintro (⟨s, hs, hskip, hid⟩ | hid)
    · obtain ⟨k, hk⟩ := mem_iff_getElem?.mp hs
      have hin : (.memory s, k) ∈ (c.view d skipping pred).sources := by
        refine mem_append_left _ (mem_filter.mpr ⟨mem_zipIdx_iff_getElem?.mpr ?_, by simp [hskip]⟩)
        change (c.segments.map BaseSegment.memory)[k]? = _
        rw [getElem?_map, hk]
        rfl
      exact ⟨_, hin, (hsource s k hin).mpr hid⟩
    · have hin : (.memory c.memtable, c.segments.length) ∈ (c.view d skipping pred).sources := by
        refine mem_append_right _ (mem_singleton.mpr ?_)
        simp [view]
      exact ⟨_, hin, (hsource _ _ hin).mpr hid⟩

/-- **Skipping loses nothing**: a read finds the ids that a match of every
segment finds. -/
theorem Stores.mem_readIds (h : c.Stores d rows) (hpred : ∀ g ∈ pred.groups, g.Pairwise (· < ·)) :
    id ∈ c.readIds v d skipping includeBroad pred emission ↔
      id ∈ c.matchIds v d includeBroad pred emission := by
  rw [h.mem_readIds_iff, matchIds, flatMap_append, mem_append, flatMap_singleton, mem_flatMap]
  refine or_congr_left (exists_congr fun s => and_congr_right fun hs => and_iff_right_of_imp ?_)
  intro hid
  obtain ⟨i, e, he, -, hverify, -⟩ :=
    (mem_matchIds_segment (h.segments s hs).1.produced).mp hid
  rw [Row.verify_eq, Bool.and_eq_true] at hverify
  have hrow : e.row ∈ s.rows := mem_map_of_mem (mem_of_getElem? he)
  by_contra hskip
  simp only [MatchView.skips, view, Bool.not_eq_false, Bool.and_eq_true, Bool.not_eq_true',
    BaseSegment.tagSummaryMayMatch] at hskip
  obtain ⟨⟨-, hempty⟩, hmay⟩ := hskip
  obtain ⟨ids, hids, hno⟩ : ∃ ids, s.tagSummary = some ids ∧ pred.mayMatch ids = false := by
    cases hsummary : s.tagSummary <;> simp_all
  obtain ⟨hsorted, hsub⟩ := (h.segments s hs).2 ids hids
  have hmatch : pred.matches e.row.tags = true := by simpa [hempty] using hverify.2
  rw [TagPredicate.mayMatch_of_matches hpred hsorted (hsub _ hrow) hmatch] at hno
  contradiction

/-- **What a store answers**: the ids of its live rows that match and pass the
emission policy, if that policy emits broad rows only where they are read. -/
theorem Stores.mem_matchIds (h : c.Stores d rows) (hv : v.WellFormed d)
    (hopen : ∀ x ∈ rows, x.body.failsOpen v = false)
    (hemits : ∀ x ∈ rows, emission x.placement = true →
      x.placement.mode = .replicatedBroad → includeBroad = true) :
    id ∈ c.matchIds v d includeBroad pred emission ↔
      ∃ x ∈ rows, x.verify v pred = true ∧ emission x.placement = true ∧ x.logical = id := by
  have hmem : ∀ x, x ∈ rows ↔ ∃ s ∈ c.sources, ∃ e ∈ s.entries, e.alive = true ∧ e.row = x := by
    simp [← h.live, Segment.live, Entry.live]
  rw [matchIds, mem_flatMap]
  constructor
  · rintro ⟨s, hs, hid⟩
    obtain ⟨i, e, he, halive, hverify, hemit, -, hlogical⟩ :=
      (mem_matchIds_segment (h.stored s hs).produced).mp hid
    exact ⟨e.row, (hmem _).mpr ⟨s, hs, e, mem_of_getElem? he, halive, rfl⟩, hverify, hemit, hlogical⟩
  · rintro ⟨x, hx, hverify, hemit, hlogical⟩
    obtain ⟨s, hs, e, he, halive, rfl⟩ := (hmem x).mp hx
    obtain ⟨i, hi⟩ := mem_iff_getElem?.mp he
    have hvisible : (!e.cls.isOptIn || includeBroad) = true := by
      cases hopt : e.cls.isOptIn with
      | false => rfl
      | true => exact hemits _ hx hemit ((h.stored s hs).broad e he halive hopt)
    have hreach := (((h.stored s hs).produced.valid (.refl d)).reaches_iff hv hi hverify
      (hopen _ hx)).mpr hvisible
    exact ⟨s, hs, (mem_matchIds_segment (h.stored s hs).produced).mpr
      ⟨i, e, hi, halive, hverify, hemit, hreach, hlogical⟩⟩

end Read

end Stores

theorem placed_plan {req : AddRequest} (hs : req.ex.Storable) {d : Dict} {p : QueryPlacement}
    {theta : Nat} (hvisible : p.mode = .replicatedAlwaysVisible →
      (anchorPlan req.ex d theta).cls.isOptIn = false) (theta' : Nat) :
    ((req.placed d p).withThreshold theta').plan.cls.isOptIn =
        (anchorPlan req.ex d theta).cls.isOptIn ∧
      (((req.placed d p).withThreshold theta').plan.cls = .D ↔
        (anchorPlan req.ex d theta).cls = .D) := by
  obtain ⟨hopt, hD, -⟩ := (req.placed d p).plan_withThreshold hs theta' theta
  have hcls : ((req.placed d p).withThreshold theta).plan.cls = (anchorPlan req.ex d theta).cls := by
    rw [AddRequest.plan_withThreshold_eq]
    split
    · next hpin =>
      have hopt := hvisible (by simpa [AddRequest.placed] using hpin)
      refine congrArg SigPlan.cls (if_neg fun hC => ?_)
      rw [show (anchorPlan req.ex d theta).cls = .C from hC] at hopt
      cases hopt
    · rfl
  rw [← hcls]
  exact ⟨hopt, hD⟩

end Corpus

/-! ## positions -/

theorem HashRing.lookup_lt {vnodes : UInt32} {n : Nat} (hn : n ≠ 0) (f : FeatureId) :
    (ofShards vnodes n).lookup f < n := by
  obtain ⟨k, rfl⟩ := Nat.exists_eq_succ_of_ne_zero hn
  obtain ⟨p, -, hp⟩ := exists_lookup (keys_ofShards_ne_nil vnodes k) f
  rcases lookup_insertAll hp with hold | hnew
  · simp at hold
  · exact mem_range.mp (shard_of_mem_vnodes hnew)

theorem ofNat_lt {a b : Nat} (hb : b < UInt32.size) (hab : a < b) : UInt32.ofNat a < .ofNat b :=
  (UInt32.ofNat_lt_iff_lt (hab.trans hb) hb).mpr hab

theorem ofNat_inj {a b : Nat} (ha : a < UInt32.size) (hb : b < UInt32.size)
    (h : UInt32.ofNat a = .ofNat b) : a = b := by
  rw [← UInt32.toNat_ofNat_of_lt' ha, h, UInt32.toNat_ofNat_of_lt' hb]

theorem checkPositions_ok {numShards : UInt32} {unsorted : OwnershipError} {prev : Option UInt32}
    {ps : List UInt32} (hsorted : (prev.toList ++ ps).Pairwise (· < ·))
    (hlt : ∀ p ∈ ps, p < numShards) : checkPositions numShards unsorted prev ps = .ok () := by
  induction ps generalizing prev with
  | nil => rfl
  | cons p ps ih =>
    have hlower : prev.any (p ≤ ·) = false := by cases prev <;> simp_all
    rw [checkPositions, if_neg (not_le.mpr (hlt p mem_cons_self)), hlower]
    exact ih (pairwise_append.mp hsorted).2.1 fun q hq => hlt q (mem_cons_of_mem p hq)

/-- Shard numbers in ascending order are positions in ascending order. -/
theorem positions_ofNat {n : Nat} {xs : List Nat} (hn : n < UInt32.size)
    (hsorted : xs.Pairwise (· < ·)) (hlt : ∀ x ∈ xs, x < n) :
    (xs.map UInt32.ofNat).Pairwise (· < ·) ∧ (∀ q ∈ xs.map UInt32.ofNat, q < .ofNat n) ∧
      ∀ s < n, UInt32.ofNat s ∈ xs.map UInt32.ofNat ↔ s ∈ xs := by
  refine ⟨?_, fun q hq => ?_, fun s hs => ⟨fun h => ?_, mem_map_of_mem⟩⟩
  · rw [pairwise_map]
    exact hsorted.imp_of_mem fun {a b} _ hb hab => ofNat_lt ((hlt b hb).trans hn) hab
  · obtain ⟨x, hx, rfl⟩ := mem_map.mp hq
    exact ofNat_lt hn (hlt x hx)
  · obtain ⟨x, hx, heq⟩ := mem_map.mp h
    exact ofNat_inj ((hlt x hx).trans hn) (hs.trans hn) heq ▸ hx

namespace Layout

variable {l : Layout}

theorem ring_eq (l : Layout) : l.numShards ≠ 0 ∧ l.ring.numShards = l.numShards ∧
    ∀ f, l.ring.lookup f < l.numShards := by
  obtain ⟨vnodes, hring⟩ := l.ring_new
  unfold HashRing.new at hring
  split at hring
  · cases hring
  · next hn =>
    rw [← Except.ok.inj hring]
    exact ⟨hn, rfl, HashRing.lookup_lt hn⟩

theorem numShards_ne (l : Layout) : UInt32.ofNat l.numShards ≠ 0 := fun hzero =>
  l.ring_eq.1 (ofNat_inj l.count (by decide) hzero)

/-! ## placements are accepted -/

/-- The placement made of a target. -/
structure Placed (l : Layout) (target : Target) (p : QueryPlacement) : Prop where
  generation : p.generation = l.generation
  numShards : p.numShards = .ofNat l.numShards
  mode : p.mode = match target with
    | .reject => .standalone
    | .replicatedAlwaysVisible => .replicatedAlwaysVisible
    | .replicatedBroad => .replicatedBroad
    | .selective _ => .selective
  holds : ∀ s < l.numShards, p.Holds (.ofNat s) ↔ s ∈ target.shards l.numShards

theorem validated_eq {generation : UInt64} {numShards : UInt32} {mode : PlacementMode}
    {positions : List UInt32} (h : validatePlacement generation numShards mode positions = .ok ()) :
    QueryPlacement.validated generation numShards mode positions =
      .ok ⟨generation, numShards, mode, positions, h⟩ := by
  have hparts := QueryPlacement.fromRaw_parts ⟨generation, numShards, mode, positions, h⟩
  rwa [QueryPlacement.fromRaw, PlacementMode.fromByte_toByte] at hparts

theorem targetCase (l : Layout) {q : AddRequest} (hq : q.Compiled) :
    TargetCase q.ex l.dict l.ring q.knobs.acceptClassD (anchorPlan q.ex l.dict l.theta).cls
      (l.target q) :=
  targetCase_placementOf _ _ _ hq.2 _

theorem exists_placed {q : AddRequest} (hq : q.Compiled) (hne : l.target q ≠ .reject) :
    ∃ p, l.placement q = .ok p ∧ l.Placed (l.target q) p := by
  have htarget := l.targetCase hq
  unfold placement
  generalize l.target q = target at htarget hne ⊢
  have hgen := l.generation_ne
  have hcount := l.numShards_ne
  cases htarget with
  | reject => exact absurd rfl hne
  | visible | broad =>
    refine ⟨_, validated_eq (by simp [validatePlacement, hgen, hcount]), rfl, rfl, rfl,
      fun s hs => ?_⟩
    rw [QueryPlacement.holds_iff]
    simpa [Target.shards, hs] using ofNat_lt l.count hs
  | @selective anchors _ hanchors _ _ =>
    have hlt : ∀ s ∈ sortDedup (anchors.map l.ring.lookup), s < l.numShards := by
      intro s hs
      obtain ⟨f, -, rfl⟩ := mem_map.mp (mem_sortDedup.mp hs)
      exact l.ring_eq.2.2 f
    obtain ⟨hsorted, hrange, hmem⟩ := positions_ofNat l.count (pairwise_sortDedup _) hlt
    have hvalid : validatePlacement l.generation (.ofNat l.numShards) .selective
        (sortDedup ((sortDedup (anchors.map l.ring.lookup)).map UInt32.ofNat)) = .ok () := by
      rw [sortDedup_eq_self hsorted]
      simp only [validatePlacement, reduceCtorEq, if_false, hgen, hcount, if_true, map_eq_nil_iff]
      rw [if_neg (sortDedup_ne_nil.mpr fun hnil => hanchors (map_eq_nil_iff.mp hnil))]
      exact checkPositions_ok hsorted hrange
    refine ⟨_, validated_eq hvalid, rfl, rfl, rfl, fun s hs => ?_⟩
    rw [QueryPlacement.holds_iff]
    simp only [sortDedup_eq_self hsorted, hmem s hs, forall_const, Target.shards,
      ofNat_lt l.count hs, true_and]

/-! ## routes are accepted -/

structure Routed (l : Layout) (v : TitleView) (route : List Nat × Nat) : Prop where
  sorted : route.1.Pairwise (· < ·)
  lt : ∀ s ∈ route.1, s < l.numShards
  evaluator : route.2 ∈ route.1
  feature : ∀ f ∈ v.pos, l.dict.isHot f = false → l.ring.lookup f ∈ route.1

theorem routed (l : Layout) (raw : List UInt8) (v : TitleView) : l.Routed v (l.route raw v) := by
  obtain ⟨hn, hnum, hlookup⟩ := l.ring_eq
  have hmem : ∀ f ∈ v.pos, l.dict.isHot f = false → l.ring.lookup f ∈
      sortDedup ((v.pos.filter fun f => !l.dict.isHot f).map l.ring.lookup) :=
    fun f hf hcold => mem_sortDedup.mpr (mem_map_of_mem (mem_filter.mpr ⟨hf, by simp [hcold]⟩))
  unfold route
  dsimp only
  split
  · next hnil =>
    have hlt : (fnv1a64 raw).toNat % l.ring.numShards < l.numShards :=
      hnum ▸ Nat.mod_lt _ (hnum ▸ Nat.pos_of_ne_zero hn)
    refine ⟨pairwise_singleton _ _, fun s hs => mem_singleton.mp hs ▸ hlt, mem_singleton.mpr rfl,
      fun f hf hcold => ?_⟩
    have hin := hmem f hf hcold
    rw [hnil] at hin
    contradiction
  · next hsome =>
    refine ⟨pairwise_sortDedup _, fun s hs => ?_, ?_, hmem⟩
    · obtain ⟨f, -, rfl⟩ := mem_map.mp (mem_sortDedup.mp hs)
      exact hlookup f
    · rw [getD_eq_getElem _ _ (Nat.mod_lt _ (length_pos_iff.mpr hsome))]
      exact getElem_mem _

/-- The context of a route is valid, and names every routed shard. -/
theorem Routed.accepted {v : TitleView} {route : List Nat × Nat} (hr : l.Routed v route)
    (includeBroad : Bool) : (l.context includeBroad route).validate = .ok () ∧
      ∀ s ∈ route.1, (l.context includeBroad route).requireRouted (.ofNat s) = .ok () := by
  obtain ⟨hsorted, hrange, -⟩ := positions_ofNat l.count hr.sorted hr.lt
  have hsearch : ∀ s ∈ route.1, binarySearch (route.1.map UInt32.ofNat) (.ofNat s) = true :=
    fun s hs => (binarySearch_iff_mem (hsorted.imp le_of_lt)).mpr (mem_map_of_mem hs)
  constructor
  · have hcheck : checkPositions (.ofNat l.numShards) .routeNotStrictlySorted none
        (route.1.map UInt32.ofNat) = .ok () := checkPositions_ok hsorted hrange
    have hsome : route.1 ≠ [] := ne_nil_of_mem hr.evaluator
    cases includeBroad <;>
      simp [OwnershipContext.validate, context, l.generation_ne, l.numShards_ne, hsome, hcheck,
        hsearch _ hr.evaluator, bind, Except.bind]
  · intro s hs
    rw [OwnershipContext.requireRouted, if_neg]
    rintro (hle | hfalse)
    · exact absurd (hrange _ (mem_map_of_mem hs)) (not_lt.mpr hle)
    · exact Bool.false_ne_true (hfalse.symm.trans (hsearch s hs))

/-! ## runs -/

/-- The row of a query on the shard `i`. -/
def rowAt (l : Layout) (i : Nat) (q : AddRequest) : Option Row :=
  match l.placement q with
  | .ok p => if i ∈ l.holders q then some (q.placed l.dict p).row else none
  | .error _ => none

/-- The cluster holds the queries `qs`, each on its shards. -/
structure Mirrors (l : Layout) (σ : Cluster) (qs : List AddRequest) : Prop where
  queries : ∀ q ∈ qs, q.Compiled ∧ l.target q ≠ .reject
  ids : σ.ids = qs.map (·.logical)
  distinct : σ.ids.Nodup
  shard : ∀ i, (σ.shards i).Stores l.dict (qs.filterMap (l.rowAt i))

variable {σ : Cluster} {qs : List AddRequest}

theorem rowAt_eq_some {i : Nat} {q : AddRequest} {x : Row} :
    l.rowAt i q = some x ↔ ∃ p, l.placement q = .ok p ∧ i ∈ l.holders q ∧
      (q.placed l.dict p).row = x := by
  unfold rowAt
  cases l.placement q <;> simp

/-- A new query is stored on the shards of its placement, or nothing changes. -/
theorem Mirrors.addQuery (h : l.Mirrors σ qs) {req : AddRequest} (hreq : req.Compiled) :
    l.Mirrors (l.addQuery σ req) (l.register qs (.add req)) := by
  have htarget := l.targetCase hreq
  rw [Layout.addQuery, Planner.register, ← h.ids]
  by_cases hid : σ.ids.contains req.logical = true
  · rwa [if_pos hid, if_pos (by rw [hid, Bool.true_or])]
  rw [if_neg hid]
  by_cases hrejected : l.target req = .reject
  · have hrefuses : l.refuses req = true := by
      rw [hrejected] at htarget
      cases htarget
      assumption
    rwa [if_pos (by rw [hrefuses, Bool.or_true]), placement, hrejected]
  obtain ⟨p, hp, hplaced⟩ := exists_placed hreq hrejected
  obtain ⟨hrej, hbroad⟩ := htarget.stored hrejected
  rw [if_neg (by simpa [Planner.refuses, hrej] using hid)]
  have hmode : (anchorPlan req.ex l.dict l.theta).cls.isOptIn = true →
      p.mode = .replicatedBroad := by
    intro hopt
    rw [hplaced.mode, hbroad hopt]
  have hvisible : p.mode = .replicatedAlwaysVisible →
      (anchorPlan req.ex l.dict l.theta).cls.isOptIn = false := by
    intro halways
    by_contra hopt
    rw [hmode ((Bool.not_eq_false _).mp hopt)] at halways
    cases halways
  rw [hp]
  dsimp only
  rw [if_neg hrejected]
  refine ⟨?_, by simp [h.ids], ?_, fun i => ?_⟩
  · exact forall_mem_append.mpr ⟨h.queries, forall_mem_singleton.mpr ⟨hreq, hrejected⟩⟩
  · exact nodup_append_comm.mp (nodup_cons.mpr ⟨by simpa using hid, h.distinct⟩)
  · rw [filterMap_append]
    dsimp only
    split
    · next hheld =>
      obtain ⟨hopt, hD⟩ := Corpus.placed_plan hreq.1 hvisible (l.thetas i)
      have hadmissible : (req.placed l.dict p).Admissible l.dict := ⟨hreq.1, .refl _⟩
      have hadd := (h.shard i).add hadmissible (l.thetas i) ?_ fun h => hmode (hopt ▸ h)
      · simpa [rowAt, hp, hheld] using hadd
      · rw [rejectsClassD] at hrej ⊢
        rwa [Bool.eq_iff_iff.mpr ((beq_iff_eq.trans hD).trans beq_iff_eq.symm)]
    · next hnot => simpa [rowAt, hp, hnot] using h.shard i

/-- **Every write keeps the mirror**, and so do flushes and merges. -/
theorem Mirrors.apply (h : l.Mirrors σ qs) {op : ClusterOp}
    (hop : ∀ req, op = .add req → req.Compiled) : l.Mirrors (l.apply σ op) (l.register qs op) := by
  cases op with
  | add req => exact h.addQuery (hop req rfl)
  | remove logical =>
    refine ⟨fun q hq => h.queries q (mem_of_mem_filter hq), ?_, h.distinct.filter _, fun i => ?_⟩
    · simp [Layout.apply, Planner.register, h.ids, filter_map, Function.comp_def]
    · have hdelete := (h.shard i).delete logical
      rw [filter_filterMap] at hdelete
      rw [Planner.register, filterMap_filter]
      refine (filterMap_congr fun q hq => ?_) ▸ hdelete
      cases hrow : l.rowAt i q with
      | none => simp
      | some x =>
        obtain ⟨p, -, -, rfl⟩ := rowAt_eq_some.mp hrow
        rfl
  | flushShard i range =>
    refine { h with shard := fun j => ?_ }
    simp only [Layout.apply]
    split
    · exact (h.shard j).flush _ range
    · exact h.shard j
  | compactShard i lo hi =>
    refine { h with shard := fun j => ?_ }
    simp only [Layout.apply]
    split
    · exact (h.shard j).compactRange _ lo hi
    · exact h.shard j

/-- **Whole runs keep the mirror.** -/
theorem mirrors_run (l : Layout) {ops : List ClusterOp}
    (hops : ∀ req, .add req ∈ ops → req.Compiled) : l.Mirrors (l.run ops) (l.registry ops) := by
  have hrun : ∀ (σ : Cluster) (qs : List AddRequest), l.Mirrors σ qs →
      l.Mirrors (ops.foldl l.apply σ) (ops.foldl l.register qs) := by
    induction ops with
    | nil => exact fun σ qs h => h
    | cons op ops ih =>
      intro σ qs h
      exact ih (fun req hin => hops req (mem_cons_of_mem op hin)) _ _
        (h.apply fun req heq => hops req (heq ▸ mem_cons_self))
  exact hrun _ [] ⟨by simp, rfl, nodup_nil, fun _ => Corpus.stores_new⟩

/-! ## answers -/

section Answers

variable {v : TitleView} {route : List Nat × Nat} {includeBroad : Bool} {pred : TagPredicate}

/-- What a routed shard answers. -/
def part (l : Layout) (σ : Cluster) (v : TitleView) (route : List Nat × Nat)
    (includeBroad : Bool) (pred : TagPredicate) (i : Nat) : List UInt64 :=
  (σ.shards i).readIds v l.dict (l.skipping i) (includeBroad && i = route.2) pred
    (uniqueOwner (l.context includeBroad route) (.ofNat i))

/-- Every routed shard accepts the request. -/
theorem percolateParts_eq (l : Layout) (σ : Cluster) (raw : List UInt8) (v : TitleView) :
    l.percolateParts σ raw v includeBroad pred =
      .ok ((l.route raw v).1.map (l.part σ v (l.route raw v) includeBroad pred)) := by
  obtain ⟨hvalid, hrouted⟩ := (l.routed raw v).accepted includeBroad
  simp only [percolateParts, hvalid, bind, Except.bind]
  refine mapM_eq_ok_map fun i hi => ?_
  rw [Corpus.percolateFilteredOwned, hvalid, hrouted i hi]
  rfl

variable (h : l.Mirrors σ qs) (hpred : ∀ g ∈ pred.groups, g.Pairwise (· < ·))
  (hv : v.WellFormed l.dict) (hopen : ∀ q ∈ qs, (Body.compile l.dict q.ex).failsOpen v = false)

include h

/-- A shard that owns a broad row reads the broad lane. -/
theorem Mirrors.evaluates_broad (hr : l.Routed v route) {i : Nat} (hi : i ∈ route.1) {q : AddRequest}
    (hq : q ∈ qs) {p : QueryPlacement} (hp : l.placement q = .ok p)
    (hown : uniqueOwner (l.context includeBroad route) (.ofNat i) p = true)
    (hmode : p.mode = .replicatedBroad) : (includeBroad && i = route.2) = true := by
  obtain ⟨hcompiled, hne⟩ := h.queries q hq
  obtain ⟨p', hp', hplaced⟩ := exists_placed hcompiled hne
  obtain rfl : p' = p := Except.ok.inj (hp'.symm.trans hp)
  have hchecked := OwnershipContext.checked_of_validate (hr.accepted includeBroad).1
  obtain ⟨-, -, hbroad⟩ := OwnershipContext.evaluates_of_owner hchecked hplaced.generation
    hplaced.numShards (of_decide_eq_true hown)
  have heval := hbroad hmode
  cases includeBroad with
  | false => cases heval
  | true =>
    have hlt : ∀ i ∈ route.1, i < UInt32.size := fun i hi => (hr.lt i hi).trans l.count
    simpa using (ofNat_inj (hlt _ hr.evaluator) (hlt i hi) (Option.some.inj heval)).symm

include hpred hv hopen

/-- What a routed shard answers: the queries it holds that match and that it
owns. -/
theorem Mirrors.mem_part (hr : l.Routed v route) {i : Nat} (hi : i ∈ route.1) {id : UInt64} :
    id ∈ l.part σ v route includeBroad pred i ↔ ∃ q ∈ qs, ∃ p,
      l.placement q = .ok p ∧ i ∈ l.holders q ∧ l.wanted v pred q = true ∧
      uniqueOwner (l.context includeBroad route) (.ofNat i) p = true ∧ q.logical = id := by
  have hrow : ∀ x ∈ qs.filterMap (l.rowAt i), ∃ q ∈ qs, ∃ p, l.placement q = .ok p ∧
      i ∈ l.holders q ∧ (q.placed l.dict p).row = x := by
    intro x hx
    obtain ⟨q, hq, hrow⟩ := mem_filterMap.mp hx
    exact ⟨q, hq, rowAt_eq_some.mp hrow⟩
  have hclosed : ∀ x ∈ qs.filterMap (l.rowAt i), x.body.failsOpen v = false := by
    intro x hx
    obtain ⟨q, hq, p, -, -, rfl⟩ := hrow x hx
    exact hopen q hq
  rw [part, (h.shard i).mem_readIds hpred, (h.shard i).mem_matchIds hv hclosed]
  · constructor
    · rintro ⟨x, hx, hread⟩
      obtain ⟨q, hq, p, hp, hheld, rfl⟩ := hrow x hx
      exact ⟨q, hq, p, hp, hheld, hread⟩
    · rintro ⟨q, hq, p, hp, hheld, hread⟩
      exact ⟨(q.placed l.dict p).row,
        mem_filterMap.mpr ⟨q, hq, rowAt_eq_some.mpr ⟨p, hp, hheld, rfl⟩⟩, hread⟩
  · intro x hx hown hmode
    obtain ⟨q, hq, p, hp, -, rfl⟩ := hrow x hx
    exact h.evaluates_broad hr hi hq hp hown hmode

omit hpred in
/-- **One routed shard emits a query that matches**: the shards that hold
it and the shards the title is routed to meet, and one of them owns it. -/
theorem Mirrors.emits (hr : l.Routed v route) {q : AddRequest} (hq : q ∈ qs)
    (hwanted : l.wanted v pred q = true) :
    ∃ p, l.placement q = .ok p ∧ ((∃ i ∈ route.1, i ∈ l.holders q ∧
        uniqueOwner (l.context includeBroad route) (.ofNat i) p = true) ↔
      (!l.optIn q || includeBroad) = true) := by
  obtain ⟨hcompiled, hne⟩ := h.queries q hq
  have htarget := l.targetCase hcompiled
  obtain ⟨p, hplacement, hp⟩ := exists_placed hcompiled hne
  refine ⟨p, hplacement, ?_, fun hvisible => ?_⟩
  · rintro ⟨i, hi, -, hown⟩
    cases hopt : l.optIn q with
    | false => rfl
    | true =>
      have hmode : p.mode = .replicatedBroad := by rw [hp.mode, (htarget.stored hne).2 hopt]
      exact (Bool.and_eq_true_iff.mp (h.evaluates_broad hr hi hq hplacement hown hmode)).1
  have hchecked := OwnershipContext.checked_of_validate (hr.accepted includeBroad).1
  -- some routed shard holds the row and evaluates it
  have hmeet : ∃ i ∈ route.1, (l.context includeBroad route).Evaluates p (.ofNat i) := by
    have hmode := hp.mode
    have hholds := fun i hi => (hp.holds i (hr.lt i hi)).mpr
    have heval := mem_range.mpr (hr.lt _ hr.evaluator)
    generalize l.target q = target at htarget hne hmode hholds
    cases htarget with
    | reject => exact absurd rfl hne
    | broad hopt =>
      have hincluded : includeBroad = true := by simpa [hopt, Planner.optIn] using hvisible
      exact ⟨_, hr.evaluator, hholds _ hr.evaluator heval, fun _ => by simp [context, hincluded]⟩
    | visible =>
      exact ⟨_, hr.evaluator, hholds _ hr.evaluator heval, fun hb => by simp [hmode] at hb⟩
    | selective _ _ hcold hanchor =>
      have hverify := (Bool.and_eq_true_iff.mp hwanted).1
      obtain ⟨f, hf, hin⟩ := hanchor v
        (demands_of_verify hcompiled.1 (.refl _) hv hverify (hopen q hq))
      have hrouted := hr.feature f hin (hcold f hf)
      exact ⟨_, hrouted, hholds _ hrouted (mem_sortDedup.mpr (mem_map_of_mem hf)), fun hb => by
        simp [hmode] at hb⟩
  obtain ⟨i, hi, hev⟩ := hmeet
  obtain ⟨o, ho⟩ := Option.ne_none_iff_exists'.mp
    (OwnershipContext.owner_ne_none hchecked hp.generation hp.numShards (mem_map_of_mem hi) hev)
  obtain ⟨hrouted, hholds, -⟩ :=
    OwnershipContext.evaluates_of_owner hchecked hp.generation hp.numShards ho
  obtain ⟨j, hj, rfl⟩ := mem_map.mp hrouted
  exact ⟨j, hj, (hp.holds j (hr.lt j hj)).mp hholds, by simp [uniqueOwner, ho]⟩

/-- A read of a cluster that mirrors `qs` is a read of the list `qs`. -/
theorem Mirrors.percolatePass_eq (raw : List UInt8) :
    l.percolatePass σ raw v includeBroad pred = .ok (l.answer qs v includeBroad pred) := by
  have hr := l.routed raw v
  rw [percolatePass, percolateParts_eq]
  refine congrArg Except.ok (sortDedup_congr fun id => ?_)
  simp only [mem_flatten, mem_map, mem_filter, Bool.and_eq_true]
  constructor
  · rintro ⟨_, ⟨i, hi, rfl⟩, hid⟩
    obtain ⟨q, hq, p, hp, hheld, hwanted, hown, hlogical⟩ :=
      (h.mem_part hpred hv hopen hr hi).mp hid
    obtain ⟨p', hp', hiff⟩ := h.emits hv hopen hr hq hwanted
    obtain rfl : p' = p := Except.ok.inj (hp'.symm.trans hp)
    exact ⟨q, ⟨hq, hwanted, hiff.mp ⟨i, hi, hheld, hown⟩⟩, hlogical⟩
  · rintro ⟨q, ⟨hq, hwanted, hvisible⟩, hlogical⟩
    obtain ⟨p, hp, hiff⟩ := h.emits hv hopen hr hq hwanted
    obtain ⟨i, hi, hheld, hown⟩ := hiff.mpr hvisible
    exact ⟨_, ⟨i, hi, rfl⟩,
      (h.mem_part hpred hv hopen hr hi).mpr ⟨q, hq, p, hp, hheld, hwanted, hown, hlogical⟩⟩

theorem Mirrors.disjoint_part (hr : l.Routed v route) {i j : Nat} (hi : i ∈ route.1)
    (hj : j ∈ route.1) (hij : i ≠ j) :
    Disjoint (l.part σ v route includeBroad pred i) (l.part σ v route includeBroad pred j) := by
  intro id hid hid'
  obtain ⟨q, hq, p, hp, -, -, hown, hlogical⟩ := (h.mem_part hpred hv hopen hr hi).mp hid
  obtain ⟨q', hq', p', hp', -, -, hown', hlogical'⟩ := (h.mem_part hpred hv hopen hr hj).mp hid'
  -- one query has the id, and one shard owns it
  obtain rfl : q = q' := inj_on_of_nodup_map (h.ids ▸ h.distinct) hq hq'
    (hlogical.trans hlogical'.symm)
  obtain rfl : p = p' := Except.ok.inj (hp.symm.trans hp')
  have howner := (of_decide_eq_true hown).symm.trans (of_decide_eq_true hown')
  exact hij (ofNat_inj ((hr.lt i hi).trans l.count) ((hr.lt j hj).trans l.count)
    (Option.some.inj howner))

end Answers

theorem sorted_new (groups : List (List TagId)) :
    ∀ g ∈ (TagPredicate.new groups).groups, g.Pairwise (· < ·) := by
  intro g hg
  obtain ⟨g₀, -, rfl⟩ := mem_map.mp hg
  exact pairwise_sortDedup g₀

section Runs

variable (l : Layout) (ops : List ClusterOp) (raw : List UInt8) (v : TitleView) (includeBroad : Bool)
  (groups : List (List TagId)) (hops : ∀ req, .add req ∈ ops → req.Compiled)
  (hv : v.WellFormed l.dict)
  (hopen : ∀ q ∈ l.registry ops, (Body.compile l.dict q.ex).failsOpen v = false)

include hops hv hopen

end Runs

/-! ### two shards -/

/-- Two shards that skip segments by their tags, and a dictionary of two words,
one on each shard. -/
def pairLayout : Layout where
  dict := Segment.twoWordDict
  ring := .ofShards 1 2
  generation := 1
  numShards := 2
  theta := 0
  thetas _ := 0
  skipping _ := true
  reanchor _ := none
  ring_new := ⟨1, rfl⟩
  generation_ne := by decide
  count := by decide

/-- A query with one tag. -/
def wordRequest (logical : UInt64) (tag : TagId) (ex : Extracted) : AddRequest where
  ex := ex
  tags := [tag]
  dict := Segment.twoWordDict
  logical := logical
  version := 1
  priority := 0
  placement := .standalone
  sourceGeneration := 0
  knobs := ⟨true, 0, true, false⟩

/-- The query `charm` under another tag, which goes to one shard and into a
segment of its own there; then `(charm,mystic)`, which both shards hold, and a
query that only forbids, which is broad.  The first shard merges what it sealed. -/
def pairOps : List ClusterOp :=
  [.add (wordRequest 9 1 { required := [0] }), .flushShard 1 none,
    .add (wordRequest 7 0 { anyof := [[0, 1]] }), .flushShard 0 none,
    .add (wordRequest 8 0 { forbidden := [2] }), .flushShard 0 (some (0, 2))]

/-- The title `charm mystic`. -/
def bothWords : TitleView :=
  .single (titleMask Segment.twoWordDict [0, 1]) [0, 1]

theorem bothWords_wellFormed : bothWords.WellFormed Segment.twoWordDict where
  pos f hf := hf
  labels g hg := by cases hg
  posMask := rfl
  negMask := rfl

theorem pairOps_compiled : ∀ req, .add req ∈ pairOps → req.Compiled := by
  have hnone : ∀ {α : Type} {P : α → Prop}, ∀ x ∈ ([] : List α), P x := fun x hx =>
    absurd hx not_mem_nil
  intro req h
  simp only [pairOps, mem_cons, reduceCtorEq, ClusterOp.add.injEq, false_or, not_mem_nil,
    or_false] at h
  rcases h with rfl | rfl | rfl <;>
    exact ⟨⟨by decide, ⟨by decide, hnone, hnone⟩, by decide, by decide⟩, by decide⟩

theorem pairOps_closed : ∀ q ∈ pairLayout.registry pairOps,
    (Body.compile Segment.twoWordDict q.ex).failsOpen bothWords = false := by
  have hall : (pairLayout.registry pairOps).all (fun q =>
      !(Body.compile Segment.twoWordDict q.ex).failsOpen bothWords) = true := by decide +kernel
  simpa using hall

end Layout

end ReverseRusty
