import ReverseRusty.Lib.Search
import ReverseRusty.Predicate

/-!
# ReverseRusty.PhraseWalk

The three walks that decide whether a quoted graph occurs in a title
(`normalize.rs`, `exact/predicate.rs`): the plain one, the bounded one
(`walk`) and the one over the words of a stored program.

All three search the pairs of a query node and a title node.  The plain walk
is `search` from each title position in turn; an answer of the bounded walk is
an answer of `search` from all positions at once; and the encoded walk takes
the steps of the bounded one, reading each query arc from its words.
-/

namespace ReverseRusty

open List

/-! ## graphs -/

/-- A quoted graph in canonical form. -/
structure PhraseGraph.Quoted (g : PhraseGraph) : Prop where
  positions : g.positions ≠ 0
  arcs : g.arcs ≠ []
  starts : g.arcs.Pairwise fun a b => a.start ≤ b.start
  labels : ∀ a ∈ g.arcs, a.alternatives.Pairwise (· < ·)

/-- A quoted graph as every compile leaves it. -/
structure QueryGraph extends PhraseGraph where
  quoted : toPhraseGraph.Quoted

/-- An analyzed title, whose arcs are in order of their start. -/
structure TitleGraph extends PositionGraph where
  starts : arcs.Pairwise fun a b => a.start ≤ b.start

theorem pairwise_start {arcs : List PhraseArc} (h : arcs.Pairwise (· < ·)) :
    arcs.Pairwise fun a b => a.start ≤ b.start := by
  refine h.imp fun {a b} hab => ?_
  have hkey : a.key < b.key := hab
  rcases Prod.Lex.lt_iff.mp hkey with hlt | ⟨heq, -⟩
  · exact le_of_lt hlt
  · exact le_of_eq heq

theorem quoted_of_canonical {phrases : List PhraseGraph}
    (h : canonicalizePhrases phrases = phrases) {g : PhraseGraph} (hg : g ∈ phrases) :
    g.Quoted := by
  rw [← h, canonicalizePhrases, mem_sortDedup, mem_filter, mem_map] at hg
  obtain ⟨⟨g', -, rfl⟩, hne⟩ := hg
  obtain ⟨hpositions, harcs⟩ := of_decide_eq_true hne
  refine ⟨hpositions, harcs, pairwise_start (pairwise_sortDedup _), fun a ha => ?_⟩
  simp only [PhraseGraph.canonicalize, mem_sortDedup, mem_filter, mem_map] at ha
  obtain ⟨⟨b, -, rfl⟩, -⟩ := ha
  exact pairwise_sortDedup _

/-- A path of the query graph from node `q` to its end, with title arcs that
spell it one after the other from node `t` on. -/
inductive PhraseGraph.Spells (query : PhraseGraph) (title : List PositionArc) :
    UInt32 → UInt32 → List (PhraseArc × PositionArc) → Prop where
  | done {t : UInt32} : Spells query title query.positions t []
  | arc {qa : PhraseArc} {ta : PositionArc} {path : List (PhraseArc × PositionArc)}
      (hqa : qa ∈ query.arcs) (hta : ta ∈ title) (hlabel : ta.feature ∈ qa.alternatives)
      (hrest : Spells query title qa.end ta.end path) :
      Spells query title qa.start ta.start ((qa, ta) :: path)

/-! ## the plain walk -/

def queryArcsFrom (arcs : List PhraseArc) (node : UInt32) : List PhraseArc :=
  (arcs.dropWhile (fun a => a.start < node)).takeWhile (fun a => a.start == node)

def arcSuccs (tas : List PositionArc) (qa : PhraseArc) : List (UInt32 × UInt32) :=
  (tas.filter fun ta => binarySearch qa.alternatives ta.feature).map fun ta => (qa.end, ta.end)

/-- Where one step of both graphs leads. -/
def walkSuccs (query : PhraseGraph) (title : List PositionArc) (node : UInt32 × UInt32) :
    List (UInt32 × UInt32) :=
  (queryArcsFrom query.arcs node.1).flatMap (arcSuccs (arcsFrom title node.2))

def PhraseGraph.isFinal (query : PhraseGraph) (node : UInt32 × UInt32) : Bool :=
  node.1 = query.positions

/-- The walk from one title position.  Beside the start, every node is the
end of a query arc and a title arc. -/
def walkFrom (query : PhraseGraph) (title : List PositionArc) (t : UInt32) : Option Bool :=
  search (walkSuccs query title) query.isFinal (query.arcs.length * title.length + 2)
    ([(0, t)], [(0, t)])

/-- **The plain phrase walk.** -/
def phraseGraphMatches (query : PhraseGraph) (positions : UInt32) (title : List PositionArc) :
    Bool :=
  if query.positions = 0 ∨ query.arcs = [] then false
  else (List.range positions.toNat).any fun t =>
    (walkFrom query title (UInt32.ofNat t)).getD false

section Plain

variable {query : PhraseGraph} {title : List PositionArc}

theorem mem_run {α : Type*} {key : α → UInt32} {xs : List α}
    (h : xs.Pairwise fun a b => key a ≤ key b) {k : UInt32} {x : α} :
    x ∈ (xs.dropWhile fun a => key a < k).takeWhile (fun a => key a == k) ↔
      x ∈ xs ∧ key x = k := by
  constructor
  · intro hx
    refine ⟨(dropWhile_sublist _).mem ((takeWhile_sublist _).mem hx), ?_⟩
    simpa using mem_takeWhile_imp hx
  · rintro ⟨hx, rfl⟩
    induction xs with
    | nil => cases hx
    | cons y ys ih =>
      rw [pairwise_cons] at h
      by_cases hy : key y < key x
      · rw [dropWhile_cons_of_pos (by simpa using hy)]
        refine ih h.2 ((mem_cons.mp hx).resolve_left ?_)
        rintro rfl
        exact lt_irrefl _ hy
      · rw [dropWhile_cons_of_neg (by simpa using hy)]
        -- the run starts here, since no later key is smaller
        have hrun : ∀ {zs : List α}, zs.Pairwise (fun a b => key a ≤ key b) →
            (∀ z ∈ zs, key x ≤ key z) → x ∈ zs → x ∈ zs.takeWhile fun a => key a == key x := by
          intro zs
          induction zs with
          | nil => exact fun _ _ hz => hz
          | cons z zs ihz =>
            intro hpair hle hz
            rw [pairwise_cons] at hpair
            have hzx : key z = key x := by
              refine le_antisymm ?_ (hle z mem_cons_self)
              rcases mem_cons.mp hz with rfl | hz
              · exact le_rfl
              · exact hpair.1 x hz
            rw [takeWhile_cons_of_pos (by simpa using hzx)]
            rcases mem_cons.mp hz with rfl | hz
            · exact mem_cons_self
            · exact mem_cons_of_mem _
                (ihz hpair.2 (fun w hw => hle w (mem_cons_of_mem _ hw)) hz)
        refine hrun (pairwise_cons.mpr h) (fun z hz => ?_) hx
        rcases mem_cons.mp hz with rfl | hz
        · exact not_lt.mp hy
        · exact (not_lt.mp hy).trans (h.1 z hz)

theorem mem_walkSuccs (hquery : query.Quoted)
    (htitle : title.Pairwise fun a b => a.start ≤ b.start) {node next : UInt32 × UInt32} :
    next ∈ walkSuccs query title node ↔ ∃ qa ∈ query.arcs, ∃ ta ∈ title,
      qa.start = node.1 ∧ ta.start = node.2 ∧ ta.feature ∈ qa.alternatives ∧
        next = (qa.end, ta.end) := by
  have hlabel : ∀ qa ∈ query.arcs, ∀ ta : PositionArc,
      binarySearch qa.alternatives ta.feature = true ↔ ta.feature ∈ qa.alternatives :=
    fun qa hqa ta => binarySearch_iff_mem ((hquery.labels qa hqa).imp le_of_lt)
  simp only [walkSuccs, mem_flatMap, arcSuccs, mem_map, mem_filter, queryArcsFrom,
    arcsFrom, mem_run hquery.starts, mem_run htitle]
  constructor
  · rintro ⟨qa, ⟨hqa, hq⟩, ta, ⟨⟨hta, ht⟩, hl⟩, rfl⟩
    exact ⟨qa, hqa, ta, hta, hq, ht, (hlabel qa hqa ta).mp hl, rfl⟩
  · rintro ⟨qa, hqa, ta, hta, hq, ht, hl, rfl⟩
    exact ⟨qa, ⟨hqa, hq⟩, ta, ⟨⟨hta, ht⟩, (hlabel qa hqa ta).mpr hl⟩, rfl⟩

theorem leadsTo_iff_spells (hquery : query.Quoted)
    (htitle : title.Pairwise fun a b => a.start ≤ b.start) {q t : UInt32} :
    (∃ m, LeadsTo (walkSuccs query title) (q, t) m ∧ query.isFinal m = true) ↔
      ∃ path, query.Spells title q t path := by
  constructor
  · rintro ⟨m, hlead, hfinal⟩
    have hpath : ∀ {n : UInt32 × UInt32}, LeadsTo (walkSuccs query title) n m →
        ∃ path, query.Spells title n.1 n.2 path := by
      intro n hn
      induction hn using Relation.ReflTransGen.head_induction_on with
      | refl => exact ⟨[], (of_decide_eq_true hfinal : m.1 = _) ▸ .done⟩
      | head hstep _ ih =>
        obtain ⟨path, hpath⟩ := ih
        obtain ⟨qa, hqa, ta, hta, hq, ht, hlabel, rfl⟩ := (mem_walkSuccs hquery htitle).mp hstep
        exact ⟨(qa, ta) :: path, hq ▸ ht ▸ .arc hqa hta hlabel hpath⟩
    exact hpath hlead
  · rintro ⟨path, hpath⟩
    induction hpath with
    | @done t => exact ⟨(query.positions, t), .refl, decide_eq_true rfl⟩
    | @arc qa ta path hqa hta hlabel _ ih =>
      obtain ⟨m, hlead, hfinal⟩ := ih
      exact ⟨m, .head ((mem_walkSuccs hquery htitle).mpr
        ⟨qa, hqa, ta, hta, rfl, rfl, hlabel, rfl⟩) hlead, hfinal⟩

def arcEnds (query : PhraseGraph) (title : List PositionArc) : List (UInt32 × UInt32) :=
  query.arcs.flatMap fun qa => title.map fun ta => (qa.end, ta.end)

theorem mem_arcEnds {n m : UInt32 × UInt32} (h : m ∈ walkSuccs query title n) :
    m ∈ arcEnds query title := by
  simp only [walkSuccs, arcSuccs, arcEnds, mem_flatMap, mem_map, mem_filter] at h ⊢
  obtain ⟨qa, hqa, ta, ⟨hta, -⟩, rfl⟩ := h
  exact ⟨qa, (dropWhile_sublist _).mem ((takeWhile_sublist _).mem hqa), ta,
    (arcsFrom_subset hta).1, rfl⟩

theorem walkFrom_isSome (query : PhraseGraph) (title : List PositionArc) (t : UInt32) :
    (walkFrom query title t).isSome = true := by
  refine search_isSome (fun n m hm => mem_arcEnds hm) ?_
  have hle : unseen (arcEnds query title) [(0, t)] ≤ query.arcs.length * title.length := by
    refine (length_filter_le _ _).trans (Nat.le_of_eq ?_)
    simp [arcEnds, length_flatMap]
  simp only [length_singleton]
  omega

theorem walkFrom_iff (hquery : query.Quoted)
    (htitle : title.Pairwise fun a b => a.start ≤ b.start) (t : UInt32) :
    (walkFrom query title t).getD false = true ↔ ∃ path, query.Spells title 0 t path := by
  obtain ⟨b, hb⟩ := Option.isSome_iff_exists.mp (walkFrom_isSome query title t)
  rw [hb, Option.getD_some, search_iff hb, ← leadsTo_iff_spells hquery htitle]
  simp

/-- **The plain walk finds a spelled path exactly when there is one.** -/
theorem phraseGraphMatches_iff (hquery : query.Quoted)
    (htitle : title.Pairwise fun a b => a.start ≤ b.start) (positions : UInt32) :
    phraseGraphMatches query positions title = true ↔
      ∃ t < positions, ∃ path, query.Spells title 0 t path := by
  rw [phraseGraphMatches, if_neg (not_or.mpr ⟨hquery.positions, hquery.arcs⟩), any_eq_true]
  constructor
  · rintro ⟨t, ht, hwalk⟩
    rw [mem_range] at ht
    refine ⟨UInt32.ofNat t, ?_, (walkFrom_iff hquery htitle _).mp hwalk⟩
    have hlt := positions.toNat_lt
    rw [UInt32.lt_iff_toNat_lt, UInt32.toNat_ofNat_of_lt' (by simp only [UInt32.size]; omega)]
    exact ht
  · rintro ⟨t, ht, hpath⟩
    refine ⟨t.toNat, mem_range.mpr (UInt32.lt_iff_toNat_lt.mp ht), ?_⟩
    rw [UInt32.ofNat_toNat]
    exact (walkFrom_iff hquery htitle t).mpr hpath

end Plain

/-! ## the bounded walk -/

section Bounded

variable {query : PhraseGraph} {title : List PositionArc} {s s' : WalkState}

def WalkState.nodes (s : WalkState) : List (UInt32 × UInt32) × List (UInt32 × UInt32) :=
  (s.stack, s.seen)

variable {qa : PhraseArc} {tas : List PositionArc}

theorem walkTitleArcs_nodes (h : walkTitleArcs qa tas s = some s') :
    s'.nodes = schedule (arcSuccs tas qa) s.nodes := by
  induction tas generalizing s with
  | nil =>
    rw [walkTitleArcs, Option.some.injEq] at h
    rw [← h]
    rfl
  | cons ta tas ih =>
    obtain ⟨stack, seen, work⟩ := s
    rw [walkTitleArcs] at h
    split at h
    · contradiction
    · cases hlabel : binarySearch qa.alternatives ta.feature with
      | false =>
        have hsuccs : arcSuccs (ta :: tas) qa = arcSuccs tas qa := by
          rw [arcSuccs, filter_cons_of_neg (by simp [hlabel])]
          rfl
        rw [if_pos hlabel] at h
        rw [hsuccs, ih h]
        rfl
      | true =>
        have hsuccs : arcSuccs (ta :: tas) qa = (qa.end, ta.end) :: arcSuccs tas qa := by
          rw [arcSuccs, filter_cons_of_pos (by simp [hlabel])]
          rfl
        rw [if_neg (by simp [hlabel])] at h
        rw [hsuccs]
        split at h
        · next hseen =>
          rw [ih h, WalkState.nodes, WalkState.nodes, schedule_cons_of_mem hseen]
        · next hseen =>
          split at h
          · contradiction
          · rw [ih h, WalkState.nodes, WalkState.nodes, schedule_cons_of_not_mem hseen]

variable {qas : List PhraseArc}

theorem queryArcsFrom_cons_eq (h : (qa :: qas).Pairwise fun a b => a.start ≤ b.start) :
    queryArcsFrom (qa :: qas) qa.start = qa :: queryArcsFrom qas qa.start := by
  have hdrop : qas.dropWhile (fun a => a.start < qa.start) = qas := by
    cases qas with
    | nil => rfl
    | cons b bs =>
      have hle := (pairwise_cons.mp h).1 b mem_cons_self
      exact dropWhile_cons_of_neg (by simpa using hle)
  rw [queryArcsFrom, queryArcsFrom, hdrop, dropWhile_cons_of_neg (by simp),
    takeWhile_cons_of_pos (by simp)]

variable {node : UInt32}

theorem walkQueryArcs_nodes (hstarts : qas.Pairwise fun a b => a.start ≤ b.start)
    (h : walkQueryArcs node tas qas s = some s') :
    s'.nodes = schedule ((queryArcsFrom qas node).flatMap (arcSuccs tas)) s.nodes := by
  induction qas generalizing s with
  | nil =>
    rw [walkQueryArcs, Option.some.injEq] at h
    rw [← h]
    rfl
  | cons qa qas ih =>
    obtain ⟨stack, seen, work⟩ := s
    rw [walkQueryArcs] at h
    split at h
    · contradiction
    · split at h
      · next hlt =>
        have hskip : queryArcsFrom (qa :: qas) node = queryArcsFrom qas node := by
          rw [queryArcsFrom, dropWhile_cons_of_pos (by simpa using hlt)]
          rfl
        rw [hskip, ih (pairwise_cons.mp hstarts).2 h]
        rfl
      · next hge =>
        split at h
        · next hgt =>
          have hnone : queryArcsFrom (qa :: qas) node = [] := by
            rw [queryArcsFrom, dropWhile_cons_of_neg (by simpa using hge),
              takeWhile_cons_of_neg (by simpa using ne_of_gt hgt)]
          rw [hnone, ← Option.some.inj h]
          rfl
        · next hle =>
          obtain rfl : qa.start = node := le_antisymm (not_lt.mp hle) (not_lt.mp hge)
          dsimp only at h
          split at h
          · contradiction
          · next s₁ hs₁ =>
            rw [queryArcsFrom_cons_eq hstarts, flatMap_cons, schedule_append,
              ih (pairwise_cons.mp hstarts).2 h, walkTitleArcs_nodes hs₁]
            rfl

variable {fuel : Nat} {b : Bool}

theorem search_of_walkStack (hstarts : query.arcs.Pairwise fun a b => a.start ≤ b.start)
    (h : walkStack query title fuel s = some b) :
    search (walkSuccs query title) query.isFinal fuel s.nodes = some b := by
  induction fuel generalizing s with
  | zero => simp [walkStack] at h
  | succ fuel ih =>
    obtain ⟨stack, seen, work⟩ := s
    cases stack with
    | nil => exact h
    | cons n rest =>
      obtain ⟨q, t⟩ := n
      rw [walkStack] at h
      rw [WalkState.nodes, search]
      dsimp only at h ⊢
      by_cases hq : q = query.positions
      · rw [if_pos hq] at h
        have hfinal : query.isFinal (q, t) = true := decide_eq_true hq
        rw [if_pos hfinal]
        exact h
      · rw [if_neg hq] at h
        rw [if_neg (by simpa [PhraseGraph.isFinal] using hq)]
        split at h
        · contradiction
        · next s₁ hs₁ =>
          have hnodes := walkQueryArcs_nodes hstarts hs₁
          rw [← ih h, hnodes]
          rfl

variable {positions : UInt32}

theorem mem_walkStart {n : UInt32 × UInt32} :
    n ∈ walkStart positions ↔ n.1 = 0 ∧ n.2 < positions := by
  have hlt := positions.toNat_lt
  simp only [walkStart, mem_reverse, mem_map, mem_range]
  constructor
  · rintro ⟨t, ht, rfl⟩
    refine ⟨rfl, ?_⟩
    rw [UInt32.lt_iff_toNat_lt, UInt32.toNat_ofNat_of_lt' (by simp only [UInt32.size]; omega)]
    exact ht
  · rintro ⟨hq, ht⟩
    exact ⟨n.2.toNat, UInt32.lt_iff_toNat_lt.mp ht, by rw [UInt32.ofNat_toNat, ← hq]⟩

/-- **An answer of the bounded walk** says whether there is a spelled path. -/
theorem walk_iff {title : PositionGraph} (hquery : query.Quoted)
    (htitle : title.arcs.Pairwise fun a b => a.start ≤ b.start) (h : walk query title = some b) :
    b = true ↔ ∃ t < title.positions, ∃ path, query.Spells title.arcs 0 t path := by
  unfold walk at h
  split at h
  · contradiction
  · split at h
    · contradiction
    · rw [search_iff (search_of_walkStack hquery.starts h)]
      simp only [← leadsTo_iff_spells hquery htitle]
      constructor
      · rintro ⟨⟨q, t⟩, hn, hlead⟩
        obtain ⟨rfl, ht⟩ := mem_walkStart.mp hn
        exact ⟨t, ht, hlead⟩
      · rintro ⟨t, ht, hlead⟩
        exact ⟨(0, t), mem_walkStart.mpr ⟨rfl, ht⟩, hlead⟩

theorem phraseGraphMatchesBounded_eq_walk (hquery : query.Quoted) (title : PositionGraph) :
    phraseGraphMatchesBounded query title = walk query title := by
  rw [phraseGraphMatchesBounded, if_neg (not_or.mpr ⟨hquery.positions, hquery.arcs⟩), walk]
  split <;> rfl

end Bounded

/-! ## the encoded walk -/

/-- Try each of `n` query arcs, reading it from the words. -/
def encodedQueryArcs (node : UInt32) (tas : List PositionArc) :
    Nat → List UInt32 → WalkState → Option (Option WalkState)
  | 0, _, s => some (some s)
  | n + 1, ws, s =>
    if phraseGraphMaxWork ≤ s.work then some none
    else do
      let s := { s with work := s.work + 1 }
      let (start, ws) ← readWord ws
      let (stop, ws) ← readWord ws
      let (alternatives, ws) ← readRun ws
      if start < node then encodedQueryArcs node tas n ws s
      else if node < start then some (some s)
      else
        match walkTitleArcs ⟨start, stop, alternatives⟩ tas s with
        | none => some none
        | some s => encodedQueryArcs node tas n ws s

/-- Pop and expand nodes, reading the query arcs from the words each time. -/
def encodedStack (positions : UInt32) (ws : List UInt32) (title : List PositionArc) :
    Nat → WalkState → Option (Option Bool)
  | 0, _ => some none
  | fuel + 1, s =>
    match s.stack with
    | [] => some (some false)
    | (q, t) :: rest =>
      if q = positions then some (some true)
      else do
        let (count, arcs) ← readWord ws
        match ← encodedQueryArcs q (arcsFrom title t) count.toNat arcs { s with stack := rest } with
        | none => some none
        | some s => encodedStack positions ws title fuel s

/-- **The encoded walk** over the words of one graph; the outer `none` is a
read past their end. -/
def graphMatches? (query : List UInt32) (title : PositionGraph) : Option (Option Bool) :=
  if title.complete = false then some none
  else do
    let (positions, ws) ← readWord query
    if phraseGraphMaxStates < title.positions.toNat then some none
    else
      encodedStack positions ws title.arcs (phraseGraphMaxStates + 1)
        { stack := walkStart title.positions, seen := walkStart title.positions, work := 0 }

section Encoded

variable {title : List PositionArc} {s : WalkState} {ws rest : List UInt32}

variable {arcs : List PhraseArc}

theorem encodedQueryArcs_eq {node : UInt32} {tas : List PositionArc} {n : Nat}
    (h : readArcs n ws = some (arcs, rest)) :
    encodedQueryArcs node tas n ws s = some (walkQueryArcs node tas arcs s) := by
  induction n generalizing ws arcs s with
  | zero =>
    simp only [readArcs, Option.some.injEq, Prod.mk.injEq] at h
    rw [← h.1]
    rfl
  | succ n ih =>
    simp only [readArcs, Option.bind_eq_bind, Option.bind_eq_some_iff, Prod.exists,
      Option.some.injEq, Prod.mk.injEq] at h
    obtain ⟨start, ws₁, hstart, stop, ws₂, hstop, alternatives, ws₃, hrun, arcs', ws₄, harcs,
      rfl, rfl⟩ := h
    rw [encodedQueryArcs, walkQueryArcs]
    simp only [hstart, hstop, hrun, Option.bind_eq_bind, Option.bind_some]
    split
    · rfl
    · split
      · exact ih harcs
      · split
        · rfl
        · cases walkTitleArcs ⟨start, stop, alternatives⟩ tas { s with work := s.work + 1 } with
          | none => rfl
          | some s₁ => exact ih harcs

theorem encodedStack_eq {positions count : UInt32} (h : readArcs count.toNat ws = some (arcs, rest))
    (fuel : Nat) :
    encodedStack positions (count :: ws) title fuel s =
      some (walkStack ⟨positions, arcs⟩ title fuel s) := by
  induction fuel generalizing s with
  | zero => rfl
  | succ fuel ih =>
    obtain ⟨stack, seen, work⟩ := s
    cases stack with
    | nil => rfl
    | cons n stack =>
      obtain ⟨q, t⟩ := n
      rw [encodedStack, walkStack]
      simp only [readWord, Option.bind_eq_bind, Option.bind_some, encodedQueryArcs_eq h]
      split
      · rfl
      · cases walkQueryArcs q (arcsFrom title t) arcs ⟨stack, seen, work⟩ with
        | none => rfl
        | some s₁ => exact ih

/-- **The encoded walk is the bounded walk** of the graph the words decode to. -/
theorem graphMatches?_eq {g : PhraseGraph} {title : PositionGraph}
    (h : readGraph ws = some (g, rest)) : graphMatches? ws title = some (walk g title) := by
  simp only [readGraph, Option.bind_eq_bind, Option.bind_eq_some_iff, Prod.exists,
    Option.some.injEq, Prod.mk.injEq] at h
  obtain ⟨positions, ws₁, hpositions, count, ws₂, hcount, arcs, ws₃, harcs, rfl, -⟩ := h
  obtain rfl : ws₁ = count :: ws₂ := by
    cases ws₁ with
    | nil => simp [readWord] at hcount
    | cons w ws₁ => simpa [readWord] using hcount
  rw [graphMatches?, walk]
  simp only [hpositions, Option.bind_eq_bind, Option.bind_some, encodedStack_eq harcs]
  split
  · rfl
  · split <;> rfl

end Encoded

/-- **The three walks agree.**  The plain walk returns true exactly when some
path of the query graph from start to end is spelled by consecutive title arcs
from some title position; an answer of the bounded walk is the same; and the
walk over words that decode to the query graph gives the bounded walk's
outcome, answer or not. -/
theorem QueryGraph.walks_agree (query : QueryGraph) (title : TitleGraph) :
    (phraseGraphMatches query.toPhraseGraph title.positions title.arcs = true ↔
      ∃ t < title.positions, ∃ path, query.Spells title.arcs 0 t path) ∧
    (∀ b, phraseGraphMatchesBounded query.toPhraseGraph title.toPositionGraph = some b →
      phraseGraphMatches query.toPhraseGraph title.positions title.arcs = b) ∧
    ∀ words rest, readGraph words = some (query.toPhraseGraph, rest) →
      graphMatches? words title.toPositionGraph =
        some (phraseGraphMatchesBounded query.toPhraseGraph title.toPositionGraph) := by
  have hplain := phraseGraphMatches_iff query.quoted title.starts title.positions
  refine ⟨hplain, fun b hb => ?_, fun words rest hwords => ?_⟩
  · rw [phraseGraphMatchesBounded_eq_walk query.quoted] at hb
    rw [Bool.eq_iff_iff, hplain, walk_iff query.quoted title.starts hb]
  · rw [phraseGraphMatchesBounded_eq_walk query.quoted]
    exact graphMatches?_eq hwords

end ReverseRusty
