import ReverseRusty.Lib.Links
import ReverseRusty.Lib.Outcome

/-!
# ReverseRusty.RankTree

The decision trees of a ranking profile (`rank/profiles/tree.rs`).  A tree
comes as a list of nodes with arbitrary links; compiling it counts the
parents of each node, walks it from the root with an explicit stack and
records its depth.
-/

namespace ReverseRusty

open List

/-! ## features -/

inductive RankFeature where
  | queryPositiveTerms
  | queryNegativeTerms
  | queryAnyOfGroups
  | queryTagCount
  | titleTokens
  | titleBytes
  | titleDigits
  | positiveCoverageMilli
  | unmatchedTitleTokens
deriving DecidableEq, Repr

structure RankQueryFeatures where
  positiveTerms : UInt32
  negativeTerms : UInt32
  anyOfGroups : UInt32
  tagCount : UInt32

structure RankTitleFeatures where
  tokens : UInt32
  bytes : UInt32
  digits : UInt32

structure RankFeatureView where
  query : RankQueryFeatures
  title : RankTitleFeatures

def RankFeatureView.value (v : RankFeatureView) : RankFeature → Int
  | .queryPositiveTerms => v.query.positiveTerms.toNat
  | .queryNegativeTerms => v.query.negativeTerms.toNat
  | .queryAnyOfGroups => v.query.anyOfGroups.toNat
  | .queryTagCount => v.query.tagCount.toNat
  | .titleTokens => v.title.tokens.toNat
  | .titleBytes => v.title.bytes.toNat
  | .titleDigits => v.title.digits.toNat
  | .positiveCoverageMilli =>
    ((min (v.query.positiveTerms.toNat * 1000) (2 ^ 32 - 1) / max v.title.tokens.toNat 1 : Nat) : Int)
  | .unmatchedTitleTokens => ((v.title.tokens.toNat - v.query.positiveTerms.toNat : Nat) : Int)

/-! ## compiling a tree -/

inductive TreeNodeConfig where
  | split (feature : RankFeature) (threshold : Int) (left right : Nat)
  | leaf (value : Int)
deriving DecidableEq, Repr

/-- Why a tree is refused. -/
inductive TreeError where
  | empty
  | missingNode (index : Nat)
  | referencedTwice (child : Nat)
  | rootReferenced
  | tooDeep
  | cycle (index : Nat)
  | unreachable (index : Nat)
deriving DecidableEq, Repr

def maxTreeDepth : Nat := 16

/-- The nodes of a decision tree, by position. -/
structure CompiledTree where
  nodes : List TreeNodeConfig
  maxDepth : Nat

namespace TreeNodeConfig

def children : TreeNodeConfig → Option (Nat × Nat)
  | split _ _ left right => some (left, right)
  | leaf _ => none

end TreeNodeConfig

def treeLinks (nodes : List TreeNodeConfig) : Links := nodes.map TreeNodeConfig.children

def countParent (parents : List Nat) (child : Nat) : Except TreeError (List Nat) :=
  match parents[child]? with
  | none => .error (.missingNode child)
  | some count =>
    if min (count + 1) 255 > 1 then .error (.referencedTwice child)
    else .ok (parents.set child (min (count + 1) 255))

/-- How far the walk is with a node. -/
inductive NodeState where
  | unseen
  | entered
  | left
deriving DecidableEq, Repr

structure TreeWalk where
  stack : List (Nat × Bool × Nat)
  state : List NodeState
  maxDepth : Nat

namespace TreeWalk

/-- Steps left: a node is entered once, and each entry is popped once. -/
def remaining (w : TreeWalk) : Nat := 4 * w.state.count .unseen + w.stack.length

def enter (w : TreeWalk) (node : TreeNodeConfig) (index depth : Nat) : TreeWalk where
  stack := (match node.children with
    | some (left, right) => [(left, false, depth + 1), (right, false, depth + 1)]
    | none => []) ++ (index, true, depth) :: w.stack
  state := w.state.set index .entered
  maxDepth := max w.maxDepth depth

/-- Pop one entry. -/
def step (nodes : List TreeNodeConfig) (w : TreeWalk) (index : Nat) (exiting : Bool) (depth : Nat) :
    Except TreeError TreeWalk :=
  if depth > maxTreeDepth then .error .tooDeep
  else
    match nodes[index]? with
    | none => .error (.missingNode index)
    | some node =>
      if exiting then .ok { w with state := w.state.set index .left }
      else
        match w.state[index]? with
        | some .entered => .error (.cycle index)
        | some .unseen => .ok (w.enter node index depth)
        | _ => .ok w

theorem count_unseen_set {state : List NodeState} {index : Nat} {new : NodeState}
    (hnew : new ≠ .unseen) : (state.set index new).count .unseen ≤ state.count .unseen := by
  by_cases hlt : index < state.length
  · rw [count_set hlt, beq_eq_false_iff_ne.mpr hnew]
    exact Nat.sub_le _ _
  · rw [set_eq_of_length_le (Nat.le_of_not_lt hlt)]

theorem count_unseen_enter {state : List NodeState} {index : Nat} (h : state[index]? = some .unseen) :
    (state.set index .entered).count .unseen + 1 = state.count .unseen := by
  obtain ⟨hlt, hunseen⟩ := List.getElem?_eq_some_iff.mp h
  have hpos := count_pos_iff.mpr (mem_of_getElem? h)
  rw [count_set hlt, hunseen]
  simp
  omega

theorem remaining_step {nodes : List TreeNodeConfig} {w w' : TreeWalk} {index depth : Nat}
    {exiting : Bool} (h : w.step nodes index exiting depth = .ok w') :
    w'.remaining < w.remaining + 1 := by
  unfold step at h
  split at h
  · contradiction
  · split at h
    · contradiction
    · next node _ =>
      split at h
      · cases h
        have hcount := @count_unseen_set w.state index .left (by decide)
        simp only [remaining]
        omega
      · split at h
        · contradiction
        · next hunseen =>
          cases h
          have hcount := count_unseen_enter hunseen
          cases node <;>
            simp only [remaining, enter, TreeNodeConfig.children, length_append,
              length_cons, length_nil] <;> omega
        · cases h
          omega

def walk (nodes : List TreeNodeConfig) (w : TreeWalk) : Except TreeError TreeWalk :=
  match hstack : w.stack with
  | [] => .ok w
  | (index, exiting, depth) :: rest =>
    match hstep : { w with stack := rest }.step nodes index exiting depth with
    | .error e => .error e
    | .ok w' => walk nodes w'
termination_by w.remaining
decreasing_by
  have hlt := remaining_step hstep
  have hlen : w.stack.length = rest.length + 1 := by rw [hstack, length_cons]
  simp only [remaining] at hlt ⊢
  omega

end TreeWalk

/-- **Compile a tree.** -/
def compileTree (nodes : List TreeNodeConfig) : Except TreeError CompiledTree :=
  if nodes.isEmpty then .error .empty
  else do
    let parents ← (treeLinks nodes).targets.foldlM countParent (List.replicate nodes.length 0)
    if parents[0]? ≠ some 0 then .error .rootReferenced
    else do
      let w ← TreeWalk.walk nodes ⟨[(0, false, 1)], List.replicate nodes.length .unseen, 0⟩
      match w.state.findIdx? (· = .unseen) with
      | some index => .error (.unreachable index)
      | none => .ok ⟨nodes, w.maxDepth⟩

def CompiledTree.scoreFrom (t : CompiledTree) (features : RankFeatureView) : Nat → Nat → Int
  | 0, _ => 0
  | steps + 1, index =>
    match t.nodes[index]? with
    | none => 0
    | some (.leaf value) => value
    | some (.split feature threshold left right) =>
      t.scoreFrom features steps (if features.value feature ≤ threshold then left else right)

/-- The nodes that scoring looks at. -/
def CompiledTree.visitedFrom (t : CompiledTree) (features : RankFeatureView) : Nat → Nat → List Nat
  | 0, _ => []
  | steps + 1, index => index ::
    match t.nodes[index]? with
    | some (.split feature threshold left right) =>
      t.visitedFrom features steps (if features.value feature ≤ threshold then left else right)
    | _ => []

/-- **Score a feature vector.** -/
def CompiledTree.score (t : CompiledTree) (features : RankFeatureView) : Int :=
  t.scoreFrom features t.nodes.length 0

/-! ## counting parents -/

/-- The counts after some links: each node at most once, one for those
linked. -/
structure Counted (n : Nat) (done : List Nat) (parents : List Nat) : Prop where
  length : parents.length = n
  nodup : done.Nodup
  inside : ∀ c ∈ done, c < n
  counts : ∀ c < n, parents[c]? = some (if c ∈ done then 1 else 0)

theorem Counted.countParent {n : Nat} {done parents : List Nat} (h : Counted n done parents)
    (child : Nat) :
    (∃ parents', ReverseRusty.countParent parents child = .ok parents' ∧
        Counted n (done ++ [child]) parents') ∨
      (∃ e, ReverseRusty.countParent parents child = .error e) ∧ (n ≤ child ∨ child ∈ done) := by
  unfold ReverseRusty.countParent
  by_cases hlt : child < n
  · rw [h.counts child hlt]
    by_cases hmem : child ∈ done
    · exact .inr ⟨⟨_, by simp [hmem]; rfl⟩, .inr hmem⟩
    · refine .inl ⟨parents.set child 1, by simp [hmem], ?_, ?_, ?_, fun c hc => ?_⟩
      · rw [length_set, h.length]
      · exact nodup_append'.mpr ⟨h.nodup, nodup_singleton _, by simpa using hmem⟩
      · intro c hc
        rcases mem_append.mp hc with hc | hc
        · exact h.inside c hc
        · rwa [mem_singleton.mp hc]
      · rw [getElem?_set]
        by_cases hcc : child = c
        · subst hcc
          simp [h.length, hlt]
        · rw [if_neg hcc, h.counts c hc]
          simp [Ne.symm hcc]
  · rw [getElem?_eq_none (by rw [h.length]; omega)]
    exact .inr ⟨⟨_, rfl⟩, .inl (by omega)⟩

theorem foldlM_countParent {n : Nat} {links : List Nat} :
    (∃ parents, links.foldlM countParent (List.replicate n 0) = .ok parents ∧
        Counted n links parents) ∨
      (∃ e, links.foldlM countParent (List.replicate n 0) = .error e) ∧
        ¬(links.Nodup ∧ ∀ c ∈ links, c < n) := by
  have hrun : ∀ rest done parents, Counted n done parents →
      (∃ parents', rest.foldlM countParent parents = .ok parents' ∧
          Counted n (done ++ rest) parents') ∨
        (∃ e, rest.foldlM countParent parents = .error e) ∧
          ¬((done ++ rest).Nodup ∧ ∀ c ∈ done ++ rest, c < n) := by
    intro rest
    induction rest with
    | nil => exact fun done parents h => .inl ⟨parents, rfl, by simpa using h⟩
    | cons child rest ih =>
      intro done parents h
      rw [foldlM_cons]
      rcases h.countParent child with ⟨parents', hstep, h'⟩ | ⟨⟨e, hstep⟩, hbad⟩
      · have hrest := ih (done ++ [child]) parents' h'
        rw [hstep, ok_bind]
        simpa using hrest
      · refine .inr ⟨⟨e, by rw [hstep]; rfl⟩, ?_⟩
        rintro ⟨hnodup, hinside⟩
        rcases hbad with hge | hmem
        · have hlt := hinside child (by simp)
          omega
        · exact (nodup_append'.mp hnodup).2.2 hmem mem_cons_self
  have hstart : Counted n [] (List.replicate n 0) :=
    ⟨length_replicate, nodup_nil, by simp, fun c hc => by simp [hc]⟩
  simpa using hrun links [] _ hstart

/-! ## the walk -/

namespace TreeWalk

/-- The walk has entered a node. -/
def Seen (w : TreeWalk) (i : Nat) : Prop := ∃ s, w.state[i]? = some s ∧ s ≠ .unseen

/-- The walk will enter a node. -/
def Pending (w : TreeWalk) (i : Nat) : Prop := ∃ d, (i, false, d) ∈ w.stack

structure Walking (nodes : List TreeNodeConfig) (w : TreeWalk) : Prop where
  length : w.state.length = nodes.length
  pending : ∀ i d, (i, false, d) ∈ w.stack → w.state[i]? = some .unseen ∧
    ∃ p, (treeLinks nodes).follow 0 p = some i ∧ p.length + 1 = d
  exits : ∀ i d, (i, true, d) ∈ w.stack → w.Seen i ∧ d ≤ maxTreeDepth
  nodup : ((w.stack.filter fun entry => !entry.2.1).map Prod.fst).Nodup
  root : w.Seen 0 ∨ w.Pending 0
  closed : ∀ i side c, w.Seen i → (treeLinks nodes).next i side = some c → w.Seen c ∨ w.Pending c
  parent : ∀ c, w.Seen c ∨ w.Pending c →
    c = 0 ∨ ∃ i side, w.Seen i ∧ (treeLinks nodes).next i side = some c
  reached : ∀ i, w.Seen i → ∃ p, (treeLinks nodes).follow 0 p = some i ∧ p.length + 1 ≤ w.maxDepth
  within : w.maxDepth ≤ maxTreeDepth
  attained : w.maxDepth = 0 ∨
    ∃ p i, (treeLinks nodes).follow 0 p = some i ∧ p.length + 1 = w.maxDepth

/-- What counting parents has found: links stay inside, no node is linked twice,
and the root not at all. -/
structure LinkedOnce (nodes : List TreeNodeConfig) : Prop where
  nodup : (treeLinks nodes).targets.Nodup
  root : 0 ∉ (treeLinks nodes).targets
  inside : ∀ c ∈ (treeLinks nodes).targets, c < nodes.length

section Walk

variable {nodes : List TreeNodeConfig} {w w' : TreeWalk} {index depth : Nat}
  {rest : List (Nat × Bool × Nat)} {entry : Nat × Bool × Nat}

theorem mem_stack_of_rest {top : Nat × Bool × Nat} (hstack : w.stack = top :: rest)
    (h : entry ∈ rest) : entry ∈ w.stack :=
  hstack ▸ mem_cons_of_mem _ h

theorem Seen.lt (h : w.Seen index) : index < w.state.length := by
  obtain ⟨s, hs, -⟩ := h
  exact (List.getElem?_eq_some_iff.mp hs).1

theorem seen_set_left (hseen : w.Seen index) (i : Nat) :
    ({ w with stack := rest, state := w.state.set index .left } : TreeWalk).Seen i ↔ w.Seen i := by
  have hlt := hseen.lt
  obtain ⟨s, hs, hne⟩ := hseen
  simp only [Seen, getElem?_set]
  by_cases hi : index = i
  · subst hi
    rw [if_pos rfl, if_pos hlt]
    exact iff_of_true ⟨.left, rfl, by decide⟩ ⟨s, hs, hne⟩
  · simp [hi]

theorem Walking.exit (h : Walking nodes w) (hstack : w.stack = (index, true, depth) :: rest) :
    Walking nodes { w with stack := rest, state := w.state.set index .left } := by
  have hseen : w.Seen index := (h.exits index depth (by rw [hstack]; exact mem_cons_self)).1
  have hpending : ∀ i, ({ w with stack := rest, state := w.state.set index .left } :
      TreeWalk).Pending i ↔ w.Pending i := by
    intro i
    simp [Pending, hstack]
  constructor
  · rw [length_set]
    exact h.length
  · intro i d hi
    obtain ⟨hunseen, hpath⟩ := h.pending i d (mem_stack_of_rest hstack hi)
    have hne : index ≠ i := by
      rintro rfl
      obtain ⟨s, hs, hs'⟩ := hseen
      rw [hunseen] at hs
      cases hs
      exact hs' rfl
    exact ⟨by rw [getElem?_set_ne hne]; exact hunseen, hpath⟩
  · intro i d hi
    obtain ⟨hseen', hdepth⟩ := h.exits i d (mem_stack_of_rest hstack hi)
    exact ⟨(seen_set_left hseen i).mpr hseen', hdepth⟩
  · have hnodup := h.nodup
    rw [hstack] at hnodup
    simpa using hnodup
  · simpa only [seen_set_left hseen, hpending] using h.root
  · simpa only [seen_set_left hseen, hpending] using h.closed
  · simpa only [seen_set_left hseen, hpending] using h.parent
  · simpa only [seen_set_left hseen] using h.reached
  · exact h.within
  · exact h.attained

variable {node : TreeNodeConfig}

theorem seen_enter (hw' : w' = ({ w with stack := rest } : TreeWalk).enter node index depth)
    (hlt : index < w.state.length) (i : Nat) : w'.Seen i ↔ w.Seen i ∨ i = index := by
  simp only [hw', Seen, enter, getElem?_set]
  by_cases hi : index = i
  · subst hi
    rw [if_pos rfl, if_pos hlt]
    exact iff_of_true ⟨.entered, rfl, by decide⟩ (.inr rfl)
  · simp [hi, Ne.symm hi]

theorem mem_stack_enter (hw' : w' = ({ w with stack := rest } : TreeWalk).enter node index depth)
    (hnode : nodes[index]? = some node) (entry : Nat × Bool × Nat) : entry ∈ w'.stack ↔
      (∃ side, (treeLinks nodes).next index side = some entry.1 ∧ entry.2 = (false, depth + 1)) ∨
        entry = (index, true, depth) ∨ entry ∈ rest := by
  obtain ⟨i, e, d⟩ := entry
  have hlinks : (treeLinks nodes)[index]? = some node.children := by
    rw [treeLinks, getElem?_map, hnode, Option.map_some]
  simp only [hw', Links.next_eq_some_iff, hlinks, Option.some.injEq, enter, mem_append, mem_cons]
  cases node with
  | leaf value => simp [TreeNodeConfig.children]
  | split feature threshold left right =>
    simp only [TreeNodeConfig.children, mem_cons, not_mem_nil, or_false, Prod.mk.injEq,
      Option.some.injEq, exists_eq_left', Bool.exists_bool, Bool.false_eq_true, if_false, if_true]
    grind

theorem Walking.child_fresh (h : Walking nodes w) (honce : LinkedOnce nodes) (hnew : ¬w.Seen index) {side : Bool} {c : Nat}
    (hc : (treeLinks nodes).next index side = some c) : ¬w.Seen c ∧ ¬w.Pending c := by
  rw [← not_or]
  intro hknown
  rcases h.parent c hknown with rfl | ⟨i, side', hseen, hnext⟩
  · exact honce.root (Links.mem_targets.mpr ⟨index, side, hc⟩)
  · rw [(Links.nodup_targets_iff.mp honce.nodup i side' index side c hnext hc).1] at hseen
    exact hnew hseen

theorem Walking.enter (h : Walking nodes w) (honce : LinkedOnce nodes)
    (hstack : w.stack = (index, false, depth) :: rest) (hdepth : depth ≤ maxTreeDepth)
    (hnode : nodes[index]? = some node) :
    Walking nodes (({ w with stack := rest } : TreeWalk).enter node index depth) := by
  obtain ⟨hunseen, p, hp, hlen⟩ := h.pending index depth (by rw [hstack]; exact mem_cons_self)
  have hlt : index < w.state.length := (List.getElem?_eq_some_iff.mp hunseen).1
  have hnew : ¬w.Seen index := by
    rintro ⟨s, hs, hne⟩
    rw [hunseen] at hs
    cases hs
    exact hne rfl
  generalize hw' : ({ w with stack := rest } : TreeWalk).enter node index depth = w'
  have hstate : w'.state = w.state.set index .entered := hw' ▸ rfl
  have hmax : w'.maxDepth = max w.maxDepth depth := hw' ▸ rfl
  have hstackIff := mem_stack_enter hw'.symm hnode
  have hseen := seen_enter hw'.symm hlt
  have hfresh : ∀ side c, (treeLinks nodes).next index side = some c → ¬w.Seen c ∧ ¬w.Pending c :=
    fun side c hc => h.child_fresh honce hnew hc
  have hpendingOld : ∀ i, w.Pending i ↔ i = index ∨ ∃ d, (i, false, d) ∈ rest := by
    intro i
    simp [Pending, hstack, exists_or]
  have hpendingNew : ∀ i, w'.Pending i ↔
      (∃ side, (treeLinks nodes).next index side = some i) ∨ ∃ d, (i, false, d) ∈ rest := by
    intro i
    simp only [Pending, hstackIff, Prod.mk.injEq]
    simp [exists_or]
  -- what was known before is known after
  have hkept : ∀ i, w.Seen i ∨ w.Pending i → w'.Seen i ∨ w'.Pending i := by
    intro i hi
    rw [hseen, hpendingNew]
    rcases hi with hi | hi
    · exact .inl (.inl hi)
    · rcases (hpendingOld i).mp hi with rfl | hi
      · exact .inl (.inr rfl)
      · exact .inr (.inr hi)
  constructor
  · rw [hstate, length_set]
    exact h.length
  · intro i d hi
    rw [hstackIff] at hi
    rcases hi with ⟨side, hnext, heq⟩ | heq | hi
    · obtain ⟨rfl⟩ : d = depth + 1 := (Prod.mk.inj heq).2
      obtain ⟨hunknown, hunpending⟩ := hfresh side i hnext
      have hne : index ≠ i := by
        rintro rfl
        exact hunpending ((hpendingOld index).mpr (.inl rfl))
      have hi : i < w.state.length := by
        rw [h.length]
        exact honce.inside i (Links.mem_targets.mpr ⟨index, side, hnext⟩)
      refine ⟨?_, p ++ [side], ?_, by rw [length_append, length_singleton, hlen]⟩
      · rw [hstate, getElem?_set_ne hne, getElem?_eq_getElem hi]
        by_contra hother
        exact hunknown ⟨_, getElem?_eq_getElem hi, fun heq => hother (congrArg some heq)⟩
      · rw [Links.follow_concat, hp, Option.bind_some, hnext]
    · exact absurd (Prod.mk.inj (Prod.mk.inj heq).2).1 Bool.false_ne_true
    · obtain ⟨hold, hpath⟩ := h.pending i d (mem_stack_of_rest hstack hi)
      have hne : index ≠ i := by
        rintro rfl
        have hnodup := h.nodup
        rw [hstack] at hnodup
        refine (nodup_cons.mp hnodup).1 (mem_map.mpr ⟨(index, false, d), ?_, rfl⟩)
        exact mem_filter.mpr ⟨hi, rfl⟩
      exact ⟨by rw [hstate, getElem?_set_ne hne]; exact hold, hpath⟩
  · intro i d hi
    rw [hstackIff] at hi
    rcases hi with ⟨side, -, heq⟩ | heq | hi
    · exact absurd (Prod.mk.inj heq).1 (by decide)
    · cases heq
      exact ⟨(hseen index).mpr (.inr rfl), hdepth⟩
    · obtain ⟨hi, hd⟩ := h.exits i d (mem_stack_of_rest hstack hi)
      exact ⟨(hseen i).mpr (.inl hi), hd⟩
  · have hrest := h.nodup
    rw [hstack] at hrest
    have hout : ∀ side c, (treeLinks nodes).next index side = some c →
        c ∉ (rest.filter fun entry => !entry.2.1).map Prod.fst := by
      intro side c hc hmem
      obtain ⟨⟨i, e, d⟩, hi, rfl⟩ := mem_map.mp hmem
      obtain ⟨hi, he⟩ := mem_filter.mp hi
      obtain rfl : e = false := by simpa using he
      exact (hfresh side i hc).2 ((hpendingOld i).mpr (.inr ⟨d, hi⟩))
    have hlinks : (treeLinks nodes)[index]? = some node.children := by
      rw [treeLinks, getElem?_map, hnode, Option.map_some]
    rw [← hw']
    cases node with
    | leaf value => simpa [TreeWalk.enter, TreeNodeConfig.children] using (nodup_cons.mp hrest).2
    | split feature threshold left right =>
      have hleft : (treeLinks nodes).next index false = some left :=
        Links.next_eq_some_iff.mpr ⟨_, hlinks, rfl⟩
      have hright : (treeLinks nodes).next index true = some right :=
        Links.next_eq_some_iff.mpr ⟨_, hlinks, rfl⟩
      have hne : left ≠ right := by
        rintro rfl
        have hsides := Links.nodup_targets_iff.mp honce.nodup index false index true left hleft hright
        exact Bool.false_ne_true hsides.2
      have hnodup' : (left :: right :: (rest.filter fun entry => !entry.2.1).map Prod.fst).Nodup :=
        nodup_cons.mpr ⟨not_mem_cons_of_ne_of_not_mem hne (hout false left hleft),
          nodup_cons.mpr ⟨hout true right hright, (nodup_cons.mp hrest).2⟩⟩
      simpa [TreeWalk.enter, TreeNodeConfig.children] using hnodup'
  · exact hkept 0 h.root
  · intro i side c hi hnext
    rcases (hseen i).mp hi with hi | rfl
    · exact hkept c (h.closed i side c hi hnext)
    · exact .inr ((hpendingNew c).mpr (.inl ⟨side, hnext⟩))
  · intro c hc
    have hbefore : w.Seen c ∨ w.Pending c → c = 0 ∨ ∃ i side,
        w'.Seen i ∧ (treeLinks nodes).next i side = some c :=
      fun hc => (h.parent c hc).imp_right fun ⟨i, side, hi, hnext⟩ =>
        ⟨i, side, (hseen i).mpr (.inl hi), hnext⟩
    rw [hseen, hpendingNew] at hc
    rcases hc with (hc | rfl) | ⟨side, hnext⟩ | hc
    · exact hbefore (.inl hc)
    · exact hbefore (.inr ((hpendingOld c).mpr (.inl rfl)))
    · exact .inr ⟨index, side, (hseen index).mpr (.inr rfl), hnext⟩
    · exact hbefore (.inr ((hpendingOld c).mpr (.inr hc)))
  · intro i hi
    rcases (hseen i).mp hi with hi | rfl
    · obtain ⟨q, hq, hlen⟩ := h.reached i hi
      exact ⟨q, hq, hmax ▸ hlen.trans (le_max_left _ _)⟩
    · exact ⟨p, hp, hmax ▸ hlen.le.trans (le_max_right _ _)⟩
  · exact hmax ▸ max_le h.within hdepth
  · rw [hmax]
    rcases le_total w.maxDepth depth with hle | hle
    · exact .inr ⟨p, index, hp, by rw [hlen, max_eq_right hle]⟩
    · rw [max_eq_left hle]
      exact h.attained

theorem Walking.step (h : Walking nodes w) (honce : LinkedOnce nodes) {exiting : Bool}
    (hstack : w.stack = (index, exiting, depth) :: rest) :
    (∃ w', ({ w with stack := rest } : TreeWalk).step nodes index exiting depth = .ok w' ∧
        Walking nodes w') ∨
      ({ w with stack := rest } : TreeWalk).step nodes index exiting depth = .error .tooDeep ∧
        ∃ p i, (treeLinks nodes).follow 0 p = some i ∧ maxTreeDepth < p.length + 1 := by
  have htop : (index, exiting, depth) ∈ w.stack := by
    rw [hstack]
    exact mem_cons_self
  cases exiting with
  | true =>
    obtain ⟨hseen, hdepth⟩ := h.exits index depth htop
    have hlt : index < nodes.length := h.length ▸ hseen.lt
    refine .inl ⟨_, ?_, h.exit hstack⟩
    rw [TreeWalk.step, if_neg (by omega), getElem?_eq_getElem hlt]
    rfl
  | false =>
    obtain ⟨hunseen, p, hp, hlen⟩ := h.pending index depth htop
    by_cases hdepth : depth > maxTreeDepth
    · exact .inr ⟨by rw [TreeWalk.step, if_pos hdepth], p, index, hp, by omega⟩
    · have hlt : index < nodes.length := by
        rw [← h.length]
        exact (List.getElem?_eq_some_iff.mp hunseen).1
      refine .inl ⟨_, ?_, h.enter honce hstack (by omega) (getElem?_eq_getElem hlt)⟩
      rw [TreeWalk.step, if_neg hdepth, getElem?_eq_getElem hlt]
      simp [hunseen]

theorem Walking.walk (h : Walking nodes w) (honce : LinkedOnce nodes) :
    (∃ w', TreeWalk.walk nodes w = .ok w' ∧ Walking nodes w' ∧ w'.stack = []) ∨
      TreeWalk.walk nodes w = .error .tooDeep ∧
        ∃ p i, (treeLinks nodes).follow 0 p = some i ∧ maxTreeDepth < p.length + 1 := by
  fun_induction TreeWalk.walk nodes w with
  | case1 w hstack => exact .inl ⟨w, rfl, h, hstack⟩
  | case2 w index exiting depth rest hstack e hstep =>
    rcases h.step honce hstack with ⟨w', hok, -⟩ | ⟨herr, hpath⟩
    · rw [hstep] at hok
      contradiction
    · rw [hstep] at herr
      exact .inr ⟨congrArg _ (Except.error.inj herr), hpath⟩
  | case3 w index exiting depth rest hstack w' hstep ih =>
    rcases h.step honce hstack with ⟨w'', hok, hwalking⟩ | ⟨herr, -⟩
    · rw [hstep] at hok
      cases hok
      exact ih hwalking
    · rw [hstep] at herr
      contradiction

theorem walking_start (hne : nodes ≠ []) :
    Walking nodes ⟨[(0, false, 1)], List.replicate nodes.length .unseen, 0⟩ := by
  have hlen : 0 < nodes.length := length_pos_iff.mpr hne
  have hnone : ∀ i, ¬Seen ⟨[(0, false, 1)], List.replicate nodes.length .unseen, 0⟩ i := by
    rintro i ⟨s, hs, hne⟩
    rw [getElem?_replicate] at hs
    split at hs
    · cases hs
      exact hne rfl
    · contradiction
  constructor
  · rw [length_replicate]
  · intro i d hi
    simp only [mem_singleton, Prod.mk.injEq] at hi
    obtain ⟨rfl, -, rfl⟩ := hi
    exact ⟨by simp [hlen], [], rfl, rfl⟩
  · intro i d hi
    simp at hi
  · simp
  · exact .inr ⟨1, mem_singleton.mpr rfl⟩
  · exact fun i side c hi => (hnone i hi).elim
  · rintro c (hc | ⟨d, hd⟩)
    · exact (hnone c hc).elim
    · simp only [mem_singleton, Prod.mk.injEq] at hd
      exact .inl hd.1
  · exact fun i hi => (hnone i hi).elim
  · exact Nat.zero_le _
  · exact .inl rfl

/-- At the end every node on a path from the root was seen, and the depth is
that of the longest path. -/
theorem Walking.seen_of_follow (h : Walking nodes w) (hstack : w.stack = []) {p : List Bool} {i : Nat}
    (hp : (treeLinks nodes).follow 0 p = some i) : w.Seen i := by
  have hnone : ∀ i, ¬w.Pending i := by
    rintro i ⟨d, hd⟩
    rw [hstack] at hd
    contradiction
  induction p using List.reverseRecOn generalizing i with
  | nil =>
    cases hp
    exact h.root.resolve_right (hnone 0)
  | append_singleton p side ih =>
    rw [Links.follow_concat, Option.bind_eq_some_iff] at hp
    obtain ⟨j, hj, hnext⟩ := hp
    exact (h.closed j side i (ih hj) hnext).resolve_right (hnone i)

end Walk

end TreeWalk

/-! ## what is accepted -/

def IsDepth (nodes : List TreeNodeConfig) (depth : Nat) : Prop :=
  IsGreatest {d | ∃ p i, (treeLinks nodes).follow 0 p = some i ∧ p.length + 1 = d} depth

theorem length_treeLinks (nodes : List TreeNodeConfig) : (treeLinks nodes).length = nodes.length :=
  length_map _

theorem treeLinks_ne_nil {nodes : List TreeNodeConfig} : treeLinks nodes ≠ [] ↔ nodes ≠ [] := by
  rw [treeLinks, Ne, map_eq_nil_iff]

/-- **Compiling answers with the tree and its depth, or refuses what is no
tree or too deep.** -/
theorem compileTree_cases (nodes : List TreeNodeConfig) :
    (∃ depth, compileTree nodes = .ok ⟨nodes, depth⟩ ∧ (treeLinks nodes).IsTree ∧
        IsDepth nodes depth ∧ depth ≤ maxTreeDepth) ∨
      (∃ e, compileTree nodes = .error e) ∧
        ¬((treeLinks nodes).IsTree ∧
          ∀ p i, (treeLinks nodes).follow 0 p = some i → p.length + 1 ≤ maxTreeDepth) := by
  rw [compileTree, Links.isTree_iff, length_treeLinks, treeLinks_ne_nil]
  by_cases hne : nodes = []
  · exact .inr ⟨⟨_, by rw [hne]; rfl⟩, fun h => h.1.1 hne⟩
  · rw [if_neg (by simpa using hne)]
    rcases @foldlM_countParent nodes.length (treeLinks nodes).targets with
      ⟨parents, hcount, hcounted⟩ | ⟨⟨e, hcount⟩, hbad⟩
    · rw [hcount, ok_bind]
      have hpos : 0 < nodes.length := length_pos_iff.mpr hne
      have hzero := hcounted.counts 0 hpos
      by_cases hroot : 0 ∈ (treeLinks nodes).targets
      · rw [if_pos (by rw [hzero, if_pos hroot]; decide)]
        exact .inr ⟨⟨_, rfl⟩, fun h => h.1.2.2.2.1 hroot⟩
      · rw [if_neg (by rw [hzero, if_neg hroot]; decide)]
        rcases (TreeWalk.walking_start hne).walk ⟨hcounted.nodup, hroot, hcounted.inside⟩ with
          ⟨w, hwalk, hw, hstack⟩ | ⟨hwalk, p, i, hp, hlong⟩
        · rw [hwalk, ok_bind]
          cases hfind : w.state.findIdx? (· = .unseen) with
          | some index =>
            obtain ⟨hlt, hunseen, -⟩ := findIdx?_eq_some_iff_getElem.mp hfind
            refine .inr ⟨⟨_, rfl⟩, fun h => ?_⟩
            obtain ⟨p, hp⟩ := h.1.2.2.2.2 index (hw.length ▸ hlt)
            obtain ⟨s, hs, hseen⟩ := hw.seen_of_follow hstack hp
            rw [getElem?_eq_getElem hlt] at hs
            exact hseen ((Option.some.inj hs).symm.trans (by simpa using hunseen))
          | none =>
            have hall : ∀ i < nodes.length, w.Seen i := by
              intro i hi
              have hlt : i < w.state.length := hw.length ▸ hi
              refine ⟨_, getElem?_eq_getElem hlt, ?_⟩
              simpa using findIdx?_eq_none_iff.mp hfind _ (getElem_mem hlt)
            have hpath : ∀ p i, (treeLinks nodes).follow 0 p = some i → p.length + 1 ≤ w.maxDepth := by
              intro p i hp
              obtain ⟨q, hq, hlen⟩ := hw.reached i (hw.seen_of_follow hstack hp)
              rwa [Links.path_unique hcounted.nodup hroot hp hq]
            have hatt := hw.attained.resolve_left (by have := hpath [] 0 rfl; simp at this; omega)
            refine .inl ⟨w.maxDepth, rfl, ⟨hne, hcounted.inside, hcounted.nodup, hroot, ?_⟩,
              ⟨hatt, ?_⟩, hw.within⟩
            · intro i hi
              obtain ⟨p, hp, -⟩ := hw.reached i (hall i hi)
              exact ⟨p, hp⟩
            · rintro d ⟨p, i, hp, rfl⟩
              exact hpath p i hp
        · rw [hwalk]
          refine .inr ⟨⟨_, rfl⟩, fun h => ?_⟩
          have hle := h.2 p i hp
          omega
    · rw [hcount]
      exact .inr ⟨⟨_, rfl⟩, fun h => hbad ⟨h.1.2.2.1, h.1.2.1⟩⟩

/-! ## reading a tree -/

inductive DecisionTree where
  | leaf (value : Int)
  | split (feature : RankFeature) (threshold : Int) (left right : DecisionTree)
deriving DecidableEq, Repr

namespace DecisionTree

def eval (features : RankFeatureView) : DecisionTree → Int
  | leaf value => value
  | split feature threshold left right =>
    if features.value feature ≤ threshold then left.eval features else right.eval features

/-- The sides taken to the leaf: left is `false`. -/
def route (features : RankFeatureView) : DecisionTree → List Bool
  | leaf _ => []
  | split feature threshold left right =>
    if features.value feature ≤ threshold then false :: left.route features
    else true :: right.route features

def depth : DecisionTree → Nat
  | leaf _ => 1
  | split _ _ left right => max left.depth right.depth + 1

end DecisionTree

inductive Unfolds (nodes : List TreeNodeConfig) : Nat → DecisionTree → Prop
  | leaf {i : Nat} {value : Int} : nodes[i]? = some (.leaf value) → Unfolds nodes i (.leaf value)
  | split {i : Nat} {feature : RankFeature} {threshold : Int} {left right : Nat}
      {tl tr : DecisionTree} : nodes[i]? = some (.split feature threshold left right) →
      Unfolds nodes left tl → Unfolds nodes right tr →
      Unfolds nodes i (.split feature threshold tl tr)

section Unfolds

variable {nodes : List TreeNodeConfig} {i : Nat} {t : DecisionTree}

theorem next_of_split {feature : RankFeature} {threshold : Int} {left right : Nat}
    (h : nodes[i]? = some (.split feature threshold left right)) (side : Bool) :
    (treeLinks nodes).next i side = some (if side then right else left) := by
  refine Links.next_eq_some_iff.mpr ⟨(left, right), ?_, rfl⟩
  rw [treeLinks, getElem?_map, h]
  rfl

theorem next_of_leaf {value : Int} (h : nodes[i]? = some (.leaf value)) (side : Bool) :
    (treeLinks nodes).next i side = none := by
  rw [Links.next, treeLinks, getElem?_map, h]
  rfl

theorem exists_unfolds (hinside : ∀ c ∈ (treeLinks nodes).targets, c < nodes.length) (n : Nat)
    (hi : i < nodes.length)
    (hbound : ∀ p j, (treeLinks nodes).follow i p = some j → p.length < n) :
    ∃ t, Unfolds nodes i t := by
  induction n generalizing i with
  | zero => exact absurd (hbound [] i rfl) (Nat.not_lt_zero _)
  | succ n ih =>
    cases hnode : nodes[i]? with
    | none =>
      rw [List.getElem?_eq_none_iff] at hnode
      omega
    | some node =>
      cases node with
      | leaf value => exact ⟨_, .leaf hnode⟩
      | split feature threshold left right =>
        have hchild : ∀ side : Bool, ∃ t, Unfolds nodes (if side then right else left) t := by
          intro side
          have hnext := next_of_split hnode side
          refine ih (hinside _ (Links.mem_targets.mpr ⟨i, side, hnext⟩)) ?_
          intro p j hp
          have hlen := hbound (side :: p) j (by rw [Links.follow, hnext, Option.bind_some, hp])
          rw [length_cons] at hlen
          omega
        obtain ⟨tl, hl⟩ := hchild false
        obtain ⟨tr, hr⟩ := hchild true
        exact ⟨_, .split hnode hl hr⟩

theorem Unfolds.isGreatest_depth (h : Unfolds nodes i t) :
    IsGreatest {d | ∃ p j, (treeLinks nodes).follow i p = some j ∧ p.length + 1 = d} t.depth := by
  induction h with
  | @leaf i value hnode =>
    refine ⟨⟨[], i, rfl, rfl⟩, ?_⟩
    rintro d ⟨p, j, hp, rfl⟩
    cases p with
    | nil => exact le_rfl
    | cons side p =>
      rw [Links.follow, next_of_leaf hnode] at hp
      contradiction
  | @split i feature threshold left right tl tr hnode hl hr ihl ihr =>
    have hcons : ∀ side p, (treeLinks nodes).follow i (side :: p) =
        (treeLinks nodes).follow (if side then right else left) p := by
      intro side p
      rw [Links.follow, next_of_split hnode, Option.bind_some]
    constructor
    · obtain ⟨p, j, hp, hpl⟩ := ihl.1
      obtain ⟨q, k, hq, hql⟩ := ihr.1
      rcases le_total tl.depth tr.depth with hle | hle
      · refine ⟨true :: q, k, by rw [hcons]; exact hq, ?_⟩
        rw [DecisionTree.depth, max_eq_right hle, length_cons, hql]
      · refine ⟨false :: p, j, by rw [hcons]; exact hp, ?_⟩
        rw [DecisionTree.depth, max_eq_left hle, length_cons, hpl]
    · rintro d ⟨p, j, hp, rfl⟩
      cases p with
      | nil => simp [DecisionTree.depth]
      | cons side p =>
        rw [hcons] at hp
        rw [DecisionTree.depth, length_cons]
        cases side with
        | false => exact Nat.succ_le_succ ((ihl.2 ⟨p, j, hp, rfl⟩).trans (le_max_left _ _))
        | true => exact Nat.succ_le_succ ((ihr.2 ⟨p, j, hp, rfl⟩).trans (le_max_right _ _))

variable {features : RankFeatureView}

theorem Unfolds.follow_route (h : Unfolds nodes i t) :
    ∃ j, (treeLinks nodes).follow i (t.route features) = some j ∧
      nodes[j]? = some (.leaf (t.eval features)) := by
  induction h with
  | @leaf i value hnode => exact ⟨i, rfl, hnode⟩
  | @split i feature threshold left right tl tr hnode hl hr ihl ihr =>
    rw [DecisionTree.route, DecisionTree.eval]
    split
    · rw [Links.follow, next_of_split hnode]
      exact ihl
    · rw [Links.follow, next_of_split hnode]
      exact ihr

theorem Unfolds.scoring_eq (h : Unfolds nodes i t) {steps maxDepth : Nat} (hsteps : t.depth ≤ steps) :
    CompiledTree.scoreFrom ⟨nodes, maxDepth⟩ features steps i = t.eval features ∧
      CompiledTree.visitedFrom ⟨nodes, maxDepth⟩ features steps i =
        (treeLinks nodes).along i (t.route features) := by
  induction h generalizing steps with
  | @leaf i value hnode =>
    obtain ⟨steps, rfl⟩ := Nat.exists_eq_succ_of_ne_zero (Nat.one_le_iff_ne_zero.mp hsteps)
    simp [CompiledTree.scoreFrom, CompiledTree.visitedFrom, hnode, DecisionTree.eval,
      DecisionTree.route, Links.along]
  | @split i feature threshold left right tl tr hnode hl hr ihl ihr =>
    rw [DecisionTree.depth] at hsteps
    obtain ⟨steps, rfl⟩ : ∃ n, steps = n + 1 := ⟨steps - 1, by omega⟩
    have hle : max tl.depth tr.depth ≤ steps := by omega
    simp only [CompiledTree.scoreFrom, CompiledTree.visitedFrom, hnode, DecisionTree.eval,
      DecisionTree.route]
    split
    · obtain ⟨hscore, hvisited⟩ := ihl ((le_max_left _ _).trans hle)
      rw [Links.along, next_of_split hnode, hscore, hvisited]
      exact ⟨rfl, rfl⟩
    · obtain ⟨hscore, hvisited⟩ := ihr ((le_max_right _ _).trans hle)
      rw [Links.along, next_of_split hnode, hscore, hvisited]
      exact ⟨rfl, rfl⟩

theorem Unfolds.route_length_lt (h : Unfolds nodes i t) : (t.route features).length + 1 ≤ t.depth := by
  obtain ⟨j, hj, -⟩ := @Unfolds.follow_route nodes i t features h
  exact h.isGreatest_depth.2 ⟨_, j, hj, rfl⟩

end Unfolds

/-- What an accepted tree stands for: a decision tree of the depth recorded,
whose root-to-leaf path scoring follows. -/
theorem exists_decisionTree {nodes : List TreeNodeConfig} {depth : Nat}
    (htree : (treeLinks nodes).IsTree) (hdepth : IsDepth nodes depth) :
    ∃ t, Unfolds nodes 0 t ∧ t.depth = depth ∧ t.depth ≤ nodes.length := by
  have hshort : ∀ p j, (treeLinks nodes).follow 0 p = some j → p.length < nodes.length := by
    intro p j hp
    rw [← length_treeLinks nodes]
    exact htree.length_lt_of_follow hp
  have hinside : ∀ c ∈ (treeLinks nodes).targets, c < nodes.length := by
    intro c hc
    rw [← length_treeLinks nodes]
    exact htree.inside c hc
  have hpos : 0 < nodes.length := length_pos_iff.mpr (treeLinks_ne_nil.mp htree.rooted)
  obtain ⟨t, ht⟩ := exists_unfolds hinside nodes.length hpos hshort
  refine ⟨t, ht, ht.isGreatest_depth.unique hdepth, ?_⟩
  obtain ⟨p, j, hp, hlen⟩ := ht.isGreatest_depth.1
  have hlt := hshort p j hp
  omega

/-- **A node list is accepted exactly when it is a tree within the depth
limit, and scoring an accepted tree follows one root-to-leaf path, within the
depth recorded, to the value of the decision tree.** -/
theorem compile_accepts_trees (nodes : List TreeNodeConfig) :
    ((∃ t, compileTree nodes = .ok t) ↔ (treeLinks nodes).IsTree ∧
      ∀ p i, (treeLinks nodes).follow 0 p = some i → p.length + 1 ≤ maxTreeDepth) ∧
    ∀ t, compileTree nodes = .ok t → t.nodes = nodes ∧
      ∃ tree, Unfolds nodes 0 tree ∧ tree.depth = t.maxDepth ∧
        ∀ features, t.score features = tree.eval features ∧
          t.visitedFrom features t.nodes.length 0 =
            (treeLinks nodes).along 0 (tree.route features) ∧
          (tree.route features).length + 1 ≤ t.maxDepth ∧
          ∃ leaf, (treeLinks nodes).follow 0 (tree.route features) = some leaf ∧
            nodes[leaf]? = some (.leaf (t.score features)) := by
  rcases compileTree_cases nodes with ⟨depth, hok, htree, hdepth, hle⟩ | ⟨⟨e, herr⟩, hbad⟩
  · constructor
    · refine iff_of_true ⟨_, hok⟩ ⟨htree, fun p i hp => ?_⟩
      exact (hdepth.2 ⟨p, i, hp, rfl⟩).trans hle
    · intro t ht
      rw [hok] at ht
      cases ht
      obtain ⟨tree, hunfolds, hdepth', hlen⟩ := exists_decisionTree htree hdepth
      refine ⟨rfl, tree, hunfolds, hdepth', fun features => ?_⟩
      have hscore : CompiledTree.score ⟨nodes, depth⟩ features = tree.eval features :=
        (hunfolds.scoring_eq hlen).1
      refine ⟨hscore, (hunfolds.scoring_eq hlen).2, ?_, ?_⟩
      · rw [← hdepth']
        exact hunfolds.route_length_lt
      · rw [hscore]
        exact hunfolds.follow_route
  · constructor
    · refine iff_of_false ?_ hbad
      rintro ⟨t, ht⟩
      rw [herr] at ht
      contradiction
    · intro t ht
      rw [herr] at ht
      contradiction

/-- A split and its two leaves. -/
def coverageTree : List TreeNodeConfig :=
  [.split .positiveCoverageMilli 500 2 1, .leaf 40, .leaf 7]

theorem coverageTree_isTree : (treeLinks coverageTree).IsTree := by
  refine Links.isTree_iff.mpr ⟨by decide, by decide, by decide, by decide, fun i hi => ?_⟩
  have hlt : i < 3 := hi
  match i, hlt with
  | 0, _ => exact ⟨[], rfl⟩
  | 1, _ => exact ⟨[true], rfl⟩
  | 2, _ => exact ⟨[false], rfl⟩

theorem compile_accepts_coverageTree :
    ∃ t, compileTree coverageTree = .ok t ∧ t.nodes = coverageTree ∧
      ∃ tree, Unfolds coverageTree 0 tree ∧ tree.depth = t.maxDepth := by
  have hshort : ∀ p i, (treeLinks coverageTree).follow 0 p = some i → p.length + 1 ≤ maxTreeDepth := by
    intro p i hp
    have hlt : p.length < 3 := coverageTree_isTree.length_lt_of_follow hp
    exact (Nat.succ_le_of_lt hlt).trans (by decide)
  obtain ⟨haccept, hscore⟩ := compile_accepts_trees coverageTree
  obtain ⟨t, ht⟩ := haccept.mpr ⟨coverageTree_isTree, hshort⟩
  obtain ⟨hnodes, tree, hunfolds, hdepth, -⟩ := hscore t ht
  exact ⟨t, ht, hnodes, tree, hunfolds, hdepth⟩

end ReverseRusty
