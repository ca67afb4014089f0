import ReverseRusty.Control
import ReverseRusty.Lib.Multimap
import ReverseRusty.Lib.Outcome

/-!
# ReverseRusty.Topology

Routing by the control document (`cluster/coordinator/topology.rs`): a document
that places no position is seeded from a list of endpoints, proposal by proposal;
any other is authoritative.

A seeding that stops leaves one of the documents it passes: some positions are
placed, the rest are as at the genesis (`SeededTo`).

Main result: `routeTopology_resumes_iff`.
-/

namespace ReverseRusty

open List

/-- The endpoints of one position: its primary and its replicas. -/
abbrev ShardEndpoints : Type := String × List String

inductive TopologyError where
  | noEndpoint (node : NodeId)
  | noAssignment (position : Nat)
  | nothingToSeedFrom
  | notPositionPreserving (resolved cli : List ShardEndpoints)
deriving DecidableEq

namespace ClusterState

variable (s : ClusterState)

def addrOf (id : NodeId) : Option String :=
  (s.nodes.find? fun n => n.id = id).bind NodeDescriptor.addr

def resolveNode (id : NodeId) : Except TopologyError String :=
  match s.addrOf id with
  | some addr => .ok addr
  | none => .error (.noEndpoint id)

def resolvePosition (position : Nat) : Except TopologyError ShardEndpoints :=
  match s.assignmentAt position with
  | none => .error (.noAssignment position)
  | some a => do
    let primary ← s.resolveNode a.primary
    let replicas ← a.replicas.mapM s.resolveNode
    return (primary, replicas)

/-- The endpoints of every position. -/
def resolveTopology (numShards : Nat) : Except TopologyError (List ShardEndpoints) :=
  (List.range numShards).mapM s.resolvePosition

/-- Some position is placed on a node with an address. -/
def seeded : Bool :=
  s.assignments.any fun a => s.nodes.any fun n => n.id = a.primary && n.addr.isSome

end ClusterState

structure Seeding where
  urlToId : List (String × NodeId)
  nextId : NodeId
  document : ClusterState
  passed : List ClusterState

namespace Seeding

/-- The last node registered at an address stands for it. -/
def start (s : ClusterState) : Seeding where
  urlToId := (s.nodes.filterMap fun n => n.addr.map (·, n.id)).reverse
  nextId := UInt64.ofNat ((s.nodes.map fun n => n.id.toNat).max?.getD 0 + 1)
  document := s
  passed := []

def propose (st : Seeding) (change : ClusterStateChange) : Seeding :=
  { st with document := (st.document.apply change).2, passed := st.passed ++ [st.document] }

def internNode (st : Seeding) (url : String) : NodeId × Seeding :=
  match st.urlToId.lookup url with
  | some id => (id, st)
  | none =>
    (st.nextId, ({ st with urlToId := (url, st.nextId) :: st.urlToId, nextId := st.nextId + 1 } :
      Seeding).propose (.addNode ⟨st.nextId, some url, .data⟩))

def internNodes (st : Seeding) : List String → List NodeId × Seeding
  | [] => ([], st)
  | url :: urls =>
    let (id, st) := st.internNode url
    let (ids, st) := st.internNodes urls
    (id :: ids, st)

/-- The diff is against the document `s` the seeding began with. -/
def seedPosition (s : ClusterState) (st : Seeding) (entry : ShardEndpoints × Nat) : Seeding :=
  let (primary, st) := st.internNode entry.1.1
  let (replicas, st) := st.internNodes entry.1.2
  if (s.assignmentAt entry.2).any fun a => a.primary = primary && a.replicas = replicas then st
  else st.propose (.assignShard ⟨entry.2, primary, replicas⟩)

end Seeding

def seedPositionPreserving (s : ClusterState) (topology : List ShardEndpoints) : Seeding :=
  topology.zipIdx.foldl (Seeding.seedPosition s) (.start s)

def checkPositionPreserving (cli resolved : List ShardEndpoints) :
    Except TopologyError (List ShardEndpoints) :=
  if cli.isEmpty || resolved = cli then .ok resolved
  else .error (.notPositionPreserving resolved cli)

def routeTopology (s : ClusterState) (numShards : Nat) (cli : List ShardEndpoints) :
    List ClusterState × Except TopologyError (List ShardEndpoints) :=
  if s.seeded then ([s], s.resolveTopology numShards >>= checkPositionPreserving cli)
  else if cli.isEmpty then ([s], .error .nothingToSeedFrom)
  else
    let seeding := seedPositionPreserving s cli
    (seeding.passed ++ [seeding.document],
      seeding.document.resolveTopology numShards >>= checkPositionPreserving cli)

/-! ## one change -/

def ClusterState.Serves (s : ClusterState) (a : ShardAssignment) (e : ShardEndpoints) : Prop :=
  s.addrOf a.primary = some e.1 ∧
    List.Forall₂ (fun id url => s.addrOf id = some url) a.replicas e.2

/-- Every address is still there. -/
def ClusterState.Keeps (s s' : ClusterState) : Prop :=
  ∀ id url, s.addrOf id = some url → s'.addrOf id = some url

section Changes

variable {s s' : ClusterState} {a : ShardAssignment} {e : ShardEndpoints}

theorem resolveNode_eq_ok {id : NodeId} {url : String} :
    s.resolveNode id = .ok url ↔ s.addrOf id = some url := by
  rw [ClusterState.resolveNode]
  cases s.addrOf id with
  | none => simp
  | some addr => simp

theorem resolvePosition_eq_ok {position : Nat} :
    s.resolvePosition position = .ok e ↔ ∃ a, s.assignmentAt position = some a ∧ s.Serves a e := by
  rw [ClusterState.resolvePosition]
  cases s.assignmentAt position with
  | none => simp
  | some a =>
    simp only [bind_eq_ok, mapM_eq_ok_iff, resolveNode_eq_ok, Option.some.injEq, exists_eq_left']
    constructor
    · rintro ⟨primary, hprimary, replicas, hreplicas, ⟨⟩⟩
      exact ⟨hprimary, hreplicas⟩
    · rintro ⟨hprimary, hreplicas⟩
      exact ⟨_, hprimary, _, hreplicas, rfl⟩

theorem ClusterState.Serves.mono (h : s.Serves a e) (hkeeps : s.Keeps s') : s'.Serves a e :=
  ⟨hkeeps _ _ h.1, h.2.imp fun _ _ => hkeeps _ _⟩

theorem addrOf_addNode (h : (s.nodes.map NodeDescriptor.id).Nodup) (node : NodeDescriptor)
    (id : NodeId) :
    (s.addNode node).addrOf id = if id = node.id then node.addr else s.addrOf id := by
  rw [ClusterState.addrOf, ClusterState.addNode, find?_replace h]
  split
  · rfl
  · rfl

theorem assignmentAt_replaceAssignment (h : (s.assignments.map ShardAssignment.position).Nodup)
    (a : ShardAssignment) (position : Nat) :
    (s.replaceAssignment a).assignmentAt position =
      if position = a.position then some a else s.assignmentAt position := by
  rw [ClusterState.assignmentAt, ClusterState.replaceAssignment, find?_replace h]
  rfl

end Changes

/-! ## a seeding under way -/

/-- The first `j` positions are placed as listed, the others as at the genesis, and
no node has a number above `bound`. -/
structure SeededTo (cli : List ShardEndpoints) (bound j : Nat) (s : ClusterState) : Prop where
  le : j ≤ cli.length
  ids : (s.nodes.map NodeDescriptor.id).Nodup
  numbers : ∀ n ∈ s.nodes, n.id.toNat ≤ bound
  positions : (s.assignments.map ShardAssignment.position).Nodup
  manager : ∃ n ∈ s.nodes, n.id = 0 ∧ n.addr = none
  within : ∀ a ∈ s.assignments, a.position < cli.length
  done : ∀ p < j, ∀ e, cli[p]? = some e → s.resolvePosition p = .ok e
  rest : ∀ p, j ≤ p → p < cli.length → s.assignmentAt p = some ⟨p, 0, []⟩

/-- A seeding that has placed `j` positions and may still take `room` numbers. -/
structure Seeding.Sound (cli : List ShardEndpoints) (bound j room : Nat) (st : Seeding) : Prop where
  passed : ∀ d ∈ st.passed, ∃ i, SeededTo cli bound i d
  seededTo : SeededTo cli bound j st.document
  known : ∀ url id, st.urlToId.lookup url = some id → st.document.addrOf id = some url
  fresh : ∀ n ∈ st.document.nodes, n.id.toNat < st.nextId.toNat
  room : st.nextId.toNat + room ≤ bound + 1
  bound : bound + 1 < 2 ^ 64

section Seeding

variable {cli : List ShardEndpoints} {bound j room : Nat} {s s₀ : ClusterState} {st : Seeding}

theorem SeededTo.addrOf_zero (h : SeededTo cli bound j s) : s.addrOf 0 = none := by
  obtain ⟨n, hn, hid, haddr⟩ := h.manager
  rw [ClusterState.addrOf, (find?_key_eq_some_iff h.ids).mpr ⟨hn, hid⟩]
  exact haddr

theorem SeededTo.primary_eq_zero_iff (h : SeededTo cli bound j s) {a : ShardAssignment}
    (ha : a ∈ s.assignments) : a.primary = 0 ↔ j ≤ a.position := by
  have hlt := h.within a ha
  have hat : s.assignmentAt a.position = some a :=
    (find?_key_eq_some_iff h.positions).mpr ⟨ha, rfl⟩
  constructor
  · intro hzero
    by_contra hplaced
    obtain ⟨b, hb, hprimary, -⟩ := resolvePosition_eq_ok.mp
      (h.done a.position (by omega) _ (getElem?_eq_getElem hlt))
    rw [hat] at hb
    rw [← Option.some.inj hb, hzero, h.addrOf_zero] at hprimary
    contradiction
  · intro hle
    rw [h.rest a.position hle hlt] at hat
    rw [← Option.some.inj hat]

theorem SeededTo.addNode (h : SeededTo cli bound j s) (node : NodeDescriptor)
    (hfresh : ∀ n ∈ s.nodes, n.id ≠ node.id) (hnum : node.id.toNat ≤ bound) :
    SeededTo cli bound j (s.addNode node) ∧ s.Keeps (s.addNode node) := by
  have hkeeps : s.Keeps (s.addNode node) := by
    intro id url haddr
    rw [addrOf_addNode h.ids, if_neg]
    · exact haddr
    · rintro rfl
      obtain ⟨n, hn, -⟩ := Option.bind_eq_some_iff.mp haddr
      exact hfresh n (mem_of_find?_eq_some hn) (by simpa using find?_some hn)
  obtain ⟨m, hm, hzero⟩ := h.manager
  refine ⟨{ h with
    ids := nodup_replace h.ids node _
    numbers := fun n hn => ?_
    manager := ⟨m, ?_, hzero⟩
    done := fun p hp e he => ?_ }, hkeeps⟩
  · rcases mem_append.mp (mem_mergeSort.mp hn) with hn | hn
    · exact h.numbers n (mem_filter.mp hn).1
    · exact mem_singleton.mp hn ▸ hnum
  · exact mem_mergeSort.mpr (mem_append_left _ (mem_filter.mpr ⟨hm, by simpa using hfresh m hm⟩))
  · obtain ⟨a, ha, hserves⟩ := resolvePosition_eq_ok.mp (h.done p hp e he)
    exact resolvePosition_eq_ok.mpr ⟨a, ha, hserves.mono hkeeps⟩

theorem SeededTo.replaceAssignment (h : SeededTo cli bound j s) {a : ShardAssignment}
    {e : ShardEndpoints} (hpos : a.position = j) (he : cli[j]? = some e) (hserves : s.Serves a e) :
    SeededTo cli bound (j + 1) (s.replaceAssignment a) := by
  subst hpos
  have hat := assignmentAt_replaceAssignment h.positions a
  have hlt := (List.getElem?_eq_some_iff.mp he).1
  refine ⟨hlt, h.ids, h.numbers, nodup_replace h.positions a _, h.manager, fun b hb => ?_,
    fun p hp e' he' => ?_, fun p hp hlt => ?_⟩
  · rcases mem_append.mp (mem_mergeSort.mp hb) with hb | hb
    · exact h.within b (mem_filter.mp hb).1
    · exact mem_singleton.mp hb ▸ hlt
  · by_cases heq : p = a.position
    · rw [heq, he] at he'
      exact resolvePosition_eq_ok.mpr ⟨a, by rw [hat, if_pos heq], Option.some.inj he' ▸ hserves⟩
    · obtain ⟨b, hb, hserves'⟩ := resolvePosition_eq_ok.mp (h.done p (by omega) e' he')
      exact resolvePosition_eq_ok.mpr ⟨b, by rw [hat, if_neg heq, hb], hserves'⟩
  · rw [hat, if_neg (by omega)]
    exact h.rest p (by omega) hlt

theorem Seeding.Sound.passed_concat (h : st.Sound cli bound j room) :
    ∀ d ∈ st.passed ++ [st.document], ∃ i, SeededTo cli bound i d := by
  intro d hd
  rcases mem_append.mp hd with hd | hd
  · exact h.passed d hd
  · exact mem_singleton.mp hd ▸ ⟨j, h.seededTo⟩

theorem Seeding.Sound.internNode (h : st.Sound cli bound j (room + 1)) (url : String) :
    (st.internNode url).2.Sound cli bound j room ∧
      (st.internNode url).2.document.addrOf (st.internNode url).1 = some url ∧
      st.document.Keeps (st.internNode url).2.document := by
  have hroom := h.room
  have hbound := h.bound
  unfold Seeding.internNode
  split
  · next id hid =>
    exact ⟨{ h with room := (by dsimp only; omega) }, h.known url id hid, fun _ _ haddr => haddr⟩
  · have hnext : (st.nextId + 1).toNat = st.nextId.toNat + 1 := by
      rw [UInt64.toNat_add]
      exact Nat.mod_eq_of_lt (by simp; omega)
    obtain ⟨hseeded, hkeeps⟩ := h.seededTo.addNode ⟨st.nextId, some url, .data⟩
      (fun n hn heq => Nat.lt_irrefl _ (heq ▸ h.fresh n hn)) (by dsimp only; omega)
    have haddr := addrOf_addNode h.seededTo.ids ⟨st.nextId, some url, .data⟩ st.nextId
    rw [if_pos rfl] at haddr
    refine ⟨⟨h.passed_concat, hseeded, fun url' id hid => ?_, fun n hn => ?_, ?_, hbound⟩, haddr,
      hkeeps⟩
    · by_cases hurl : url' = url
      · obtain rfl : st.nextId = id := by simpa [Seeding.propose, hurl] using hid
        exact hurl ▸ haddr
      · simp only [Seeding.propose, lookup_cons, beq_eq_false_iff_ne.mpr hurl] at hid
        exact hkeeps _ _ (h.known url' id hid)
    · show _ < (st.nextId + 1).toNat
      rw [hnext]
      rcases mem_append.mp (mem_mergeSort.mp hn) with hn | hn
      · exact (h.fresh n (mem_filter.mp hn).1).trans (Nat.lt_succ_self _)
      · exact mem_singleton.mp hn ▸ Nat.lt_succ_self _
    · show (st.nextId + 1).toNat + room ≤ _
      omega

theorem Seeding.Sound.internNodes {urls : List String}
    (h : st.Sound cli bound j (urls.length + room)) :
    (st.internNodes urls).2.Sound cli bound j room ∧
      List.Forall₂ (fun id url => (st.internNodes urls).2.document.addrOf id = some url)
        (st.internNodes urls).1 urls ∧
      st.document.Keeps (st.internNodes urls).2.document := by
  induction urls generalizing st with
  | nil =>
    rw [length_nil, Nat.zero_add] at h
    exact ⟨h, .nil, fun _ _ haddr => haddr⟩
  | cons url urls ih =>
    rw [length_cons, Nat.add_right_comm] at h
    obtain ⟨hsound, haddr, hkeeps⟩ := h.internNode url
    obtain ⟨hsound', haddrs, hkeeps'⟩ := ih hsound
    exact ⟨hsound', .cons (hkeeps' _ _ haddr) haddrs, fun id u hid => hkeeps' _ _ (hkeeps id u hid)⟩

theorem Seeding.Sound.seedPosition {e : ShardEndpoints}
    (h : st.Sound cli bound j ((e.1 :: e.2).length + room)) (he : cli[j]? = some e)
    (hs : SeededTo cli bound 0 s₀) :
    (st.seedPosition s₀ (e, j)).Sound cli bound (j + 1) room := by
  obtain ⟨hsound, haddrs, -⟩ := h.internNodes
  set st' := (st.internNodes (e.1 :: e.2)).2
  set a : ShardAssignment := ⟨j, (st.internNode e.1).1, ((st.internNode e.1).2.internNodes e.2).1⟩
  have hserves : st'.document.Serves a e := forall₂_cons.mp haddrs
  have hplaced : ¬ (s₀.assignmentAt j).any
      (fun b => b.primary = a.primary && b.replicas = a.replicas) := by
    intro hany
    rw [hs.rest j (Nat.zero_le j) (List.getElem?_eq_some_iff.mp he).1] at hany
    obtain ⟨hzero, -⟩ : 0 = a.primary ∧ _ := by simpa using hany
    have hnone := hsound.seededTo.addrOf_zero
    rw [hzero, hserves.1] at hnone
    contradiction
  have hstep : st.seedPosition s₀ (e, j) = st'.propose (.assignShard a) := if_neg hplaced
  rw [hstep]
  exact ⟨hsound.passed_concat, hsound.seededTo.replaceAssignment rfl he hserves, hsound.known,
    hsound.fresh, hsound.room, hsound.bound⟩

def endpointCount (cli : List ShardEndpoints) : Nat := (cli.map fun e => e.2.length + 1).sum

theorem Seeding.Sound.foldl {es : List ShardEndpoints} (hs : SeededTo cli bound 0 s₀)
    (hes : ∀ i e, es[i]? = some e → cli[j + i]? = some e)
    (h : st.Sound cli bound j (endpointCount es)) :
    ((es.zipIdx j).foldl (Seeding.seedPosition s₀) st).Sound cli bound (j + es.length) 0 := by
  induction es generalizing j st with
  | nil => exact h
  | cons e es ih =>
    have hcount : endpointCount (e :: es) = (e.1 :: e.2).length + endpointCount es := by
      simp [endpointCount]
    rw [hcount] at h
    rw [zipIdx_cons, foldl_cons, length_cons, ← Nat.succ_add_eq_add_succ]
    refine ih (fun i e' he' => ?_) (h.seedPosition (hes 0 e rfl) hs)
    rw [Nat.succ_add_eq_add_succ]
    exact hes (i + 1) e' he'

theorem SeededTo.start (h : SeededTo cli bound 0 s)
    (hroom : bound + endpointCount cli + 1 < 2 ^ 64) :
    (Seeding.start s).Sound cli (bound + endpointCount cli) 0 (endpointCount cli) := by
  set top := (s.nodes.map fun n => n.id.toNat).max?.getD 0 with htop
  have hle : top ≤ bound := by
    cases hmax : (s.nodes.map fun n => n.id.toNat).max? with
    | none => simp [htop, hmax]
    | some m =>
      obtain ⟨n, hn, rfl⟩ := mem_map.mp (max?_eq_some_iff.mp hmax).1
      simpa [htop, hmax] using h.numbers n hn
  have hnext : (Seeding.start s).nextId.toNat = top + 1 :=
    UInt64.toNat_ofNat_of_lt (by rw [UInt64.size]; omega)
  refine ⟨nofun, { h with numbers := fun n hn => Nat.le_add_right_of_le (h.numbers n hn) },
    fun url id hid => ?_, fun n hn => ?_, by omega, hroom⟩
  · obtain ⟨l₁, l₂, hsplit, -⟩ := lookup_eq_some_iff.mp hid
    have hmem : (url, id) ∈ (Seeding.start s).urlToId := by simp [hsplit]
    obtain ⟨n, hn, haddr⟩ := mem_filterMap.mp (mem_reverse.mp hmem)
    obtain ⟨a, ha, heq⟩ := Option.map_eq_some_iff.mp haddr
    cases heq
    exact Option.bind_eq_some_iff.mpr ⟨n, (find?_key_eq_some_iff h.ids).mpr ⟨hn, rfl⟩, ha⟩
  · rw [hnext]
    exact Nat.lt_succ_of_le (le_max?_getD_of_mem (mem_map_of_mem hn))

/-! ## routing -/

theorem seeded_of_resolvePosition {position : Nat} {e : ShardEndpoints}
    (h : s.resolvePosition position = .ok e) : s.seeded = true := by
  obtain ⟨a, ha, hprimary, -⟩ := resolvePosition_eq_ok.mp h
  obtain ⟨n, hn, haddr⟩ := Option.bind_eq_some_iff.mp hprimary
  have hid : n.id = a.primary := by simpa using find?_some hn
  simp only [ClusterState.seeded, any_eq_true, Bool.and_eq_true, decide_eq_true_eq]
  exact ⟨a, mem_of_find?_eq_some ha, n, mem_of_find?_eq_some hn, hid, by simp [haddr]⟩

theorem SeededTo.seeded_eq (h : SeededTo cli bound j s) : s.seeded = decide (0 < j) := by
  cases j with
  | zero =>
    by_contra hne
    simp only [Bool.not_eq_false, Nat.lt_irrefl, decide_false, ClusterState.seeded, any_eq_true,
      Bool.and_eq_true, decide_eq_true_eq] at hne
    obtain ⟨a, ha, n, hn, hid, hsome⟩ := hne
    rw [(h.primary_eq_zero_iff ha).mpr (Nat.zero_le _)] at hid
    have hnone := h.addrOf_zero
    rw [ClusterState.addrOf, (find?_key_eq_some_iff h.ids).mpr ⟨hn, hid⟩] at hnone
    rw [show n.addr = none from hnone] at hsome
    contradiction
  | succ j =>
    have hlt := h.le
    rw [seeded_of_resolvePosition (h.done 0 (Nat.succ_pos j) cli[0] (getElem?_eq_getElem _))]
    simp

theorem SeededTo.resolveTopology_eq_ok_iff (h : SeededTo cli bound j s) :
    s.resolveTopology cli.length = .ok cli ↔ ∀ a ∈ s.assignments, a.primary ≠ 0 := by
  constructor
  · intro hall a ha hzero
    obtain ⟨e, he⟩ := exists_of_mapM hall (mem_range.mpr (h.within a ha))
    obtain ⟨b, hb, hprimary, -⟩ := resolvePosition_eq_ok.mp he
    rw [ClusterState.assignmentAt, (find?_key_eq_some_iff h.positions).mpr ⟨ha, rfl⟩] at hb
    rw [← Option.some.inj hb, hzero, h.addrOf_zero] at hprimary
    contradiction
  · intro hplaced
    rw [ClusterState.resolveTopology, mapM_eq_ok_iff, forall₂_iff_get]
    refine ⟨length_range, fun p hp hp' => ?_⟩
    rw [get_eq_getElem, getElem_range]
    refine h.done p ?_ _ (getElem?_eq_getElem hp')
    by_contra hle
    exact hplaced _ (mem_of_find?_eq_some (h.rest p (by omega) hp')) rfl

theorem checkPositionPreserving_eq_ok {resolved r : List ShardEndpoints} :
    checkPositionPreserving cli resolved = .ok r ↔ resolved = r ∧ (cli = [] ∨ resolved = cli) := by
  rw [checkPositionPreserving]
  split
  · next h => simpa using fun _ => h
  · next h => simpa using fun _ => h

theorem routeTopology_of_seeded (hseeded : s.seeded = true) (numShards : Nat)
    (cli : List ShardEndpoints) :
    (routeTopology s numShards cli).1 = [s] ∧
      ∀ r, (routeTopology s numShards cli).2 = .ok r ↔
        s.resolveTopology numShards = .ok r ∧ (cli = [] ∨ r = cli) := by
  simp only [routeTopology, hseeded, if_true, bind_eq_ok, checkPositionPreserving_eq_ok]
  refine ⟨trivial, fun r => ⟨fun ⟨_, hres, heq, hcli⟩ => ?_, fun ⟨hres, hcli⟩ => ?_⟩⟩
  · exact heq ▸ ⟨hres, hcli⟩
  · exact ⟨r, hres, rfl, hcli⟩

theorem SeededTo.routeTopology_unseeded (h : SeededTo cli bound 0 s) (hne : cli ≠ [])
    (hroom : bound + endpointCount cli + 1 < 2 ^ 64) :
    (∀ d ∈ (routeTopology s cli.length cli).1, ∃ i, SeededTo cli (bound + endpointCount cli) i d) ∧
      (seedPositionPreserving s cli).document.resolveTopology cli.length = .ok cli ∧
      (routeTopology s cli.length cli).2 = .ok cli := by
  have hstart := h.start hroom
  have hsound : (seedPositionPreserving s cli).Sound cli _ (0 + cli.length) 0 :=
    hstart.foldl hstart.seededTo fun i e he => by rwa [Nat.zero_add]
  rw [Nat.zero_add] at hsound
  have hres := hsound.seededTo.resolveTopology_eq_ok_iff.mpr fun a ha hzero =>
    absurd ((hsound.seededTo.primary_eq_zero_iff ha).mp hzero)
      (Nat.not_le.mpr (hsound.seededTo.within a ha))
  have hunseeded : s.seeded = false := h.seeded_eq
  simp only [routeTopology, hunseeded, List.isEmpty_eq_false_iff.mpr hne, Bool.false_eq_true,
    if_false, hres, ok_bind]
  exact ⟨hsound.passed_concat, trivial, checkPositionPreserving_eq_ok.mpr ⟨rfl, .inr rfl⟩⟩

/-- The document of a cluster nobody has placed yet. -/
structure ClusterState.Genesis (numShards : Nat) (s : ClusterState) : Prop where
  nodes : s.nodes = [⟨0, none, .manager⟩]
  assignments : s.assignments = (List.range numShards).map fun p => ⟨p, 0, []⟩

theorem ClusterState.Genesis.seededTo (h : s.Genesis cli.length) : SeededTo cli 0 0 s := by
  have hpositions : s.assignments.map ShardAssignment.position = List.range cli.length := by
    simp [h.assignments, Function.comp_def]
  have hnodup : (s.assignments.map ShardAssignment.position).Nodup := hpositions ▸ nodup_range
  refine ⟨Nat.zero_le _, by simp [h.nodes], by simp [h.nodes], hnodup, by simp [h.nodes],
    fun a ha => ?_, nofun, fun p _ hp => ?_⟩
  · exact mem_range.mp (hpositions ▸ mem_map_of_mem ha)
  · refine (find?_key_eq_some_iff hnodup).mpr ⟨?_, rfl⟩
    rw [h.assignments]
    exact mem_map_of_mem (f := fun p : Nat => (⟨p, 0, []⟩ : ShardAssignment)) (mem_range.mpr hp)

/-- **Seeding and resuming.**  A boot on the genesis document places the list and
answers with it, and the next boot proposes nothing.  From a document that a boot
passed the list is reached exactly when it places no position, or all of them.  A
document that resolves is never written, and the answer is its map or an error. -/
theorem routeTopology_resumes_iff (hs : s.Genesis cli.length) (hne : cli ≠ [])
    (hroom : 2 * endpointCount cli + 1 < 2 ^ 64) :
    (routeTopology s cli.length cli).2 = .ok cli ∧
    routeTopology (seedPositionPreserving s cli).document cli.length cli =
      ([(seedPositionPreserving s cli).document], .ok cli) ∧
    (∀ d ∈ (routeTopology s cli.length cli).1,
      ((routeTopology d cli.length cli).2 = .ok cli ↔
        d.seeded = false ∨ ∀ a ∈ d.assignments, a.primary ≠ 0)) ∧
    ∀ (full : ClusterState) (numShards : Nat) (map cli' : List ShardEndpoints), 0 < numShards →
      full.resolveTopology numShards = .ok map →
      (routeTopology full numShards cli').1 = [full] ∧
        ∀ r, (routeTopology full numShards cli').2 = .ok r → r = map := by
  obtain ⟨hpassed, hres, hfirst⟩ := hs.seededTo.routeTopology_unseeded hne (by omega)
  have hread : ∀ (full : ClusterState) (numShards : Nat) (map : List ShardEndpoints),
      0 < numShards → full.resolveTopology numShards = .ok map → full.seeded = true := by
    intro full numShards map hpos hmap
    obtain ⟨e, he⟩ := exists_of_mapM hmap (mem_range.mpr hpos)
    exact seeded_of_resolvePosition he
  refine ⟨hfirst, ?_, fun d hd => ?_, fun full numShards map cli' hpos hmap => ?_⟩
  · have hseeded := hread _ _ _ (length_pos_iff.mpr hne) hres
    have hroute := routeTopology_of_seeded hseeded cli.length cli
    exact Prod.ext hroute.1 ((hroute.2 cli).mpr ⟨hres, .inr rfl⟩)
  · obtain ⟨j, hd⟩ := hpassed d hd
    cases hseeded : d.seeded with
    | false =>
      obtain rfl : j = 0 := by simpa [hd.seeded_eq] using hseeded
      simp [(hd.routeTopology_unseeded hne (by omega)).2.2]
    | true => simp [(routeTopology_of_seeded hseeded _ cli).2, hd.resolveTopology_eq_ok_iff]
  · have hroute := routeTopology_of_seeded (hread full numShards map hpos hmap) numShards cli'
    refine ⟨hroute.1, fun r hr => ?_⟩
    exact Except.ok.inj (((hroute.2 r).mp hr).1.symm.trans hmap)

/-- The document of a cluster of two positions. -/
def genesisPair : ClusterState :=
  ⟨[⟨0, none, .manager⟩], [⟨0, 0, []⟩, ⟨1, 0, []⟩], 2, 0, 0, 1, ⟨0, [], [], none⟩⟩

theorem genesisPair_seeded :
    (routeTopology genesisPair 2 [("a", []), ("b", ["a"])]).2 = .ok [("a", []), ("b", ["a"])] :=
  (@routeTopology_resumes_iff [("a", []), ("b", ["a"])] genesisPair ⟨rfl, rfl⟩ (by simp)
    (by decide)).1

/-- A seeding that stopped after its first placement cannot be taken up: every boot
finds a document that places a position, and the other position has no endpoint. -/
theorem genesisPair_stuck :
    ∃ d ∈ (routeTopology genesisPair 2 [("a", []), ("b", [])]).1,
      (routeTopology d 2 [("a", []), ("b", [])]).2 = .error (.noEndpoint 0) := by
  refine ⟨(genesisPair.addNode ⟨1, some "a", .data⟩).replaceAssignment ⟨0, 1, []⟩,
    .tail _ (.tail _ (.head _)), ?_⟩
  simp only [ClusterState.addNode, ClusterState.replaceAssignment, genesisPair]
  simp [mergeSort, MergeSort.Internal.splitInTwo]
  rfl

end Seeding

end ReverseRusty
