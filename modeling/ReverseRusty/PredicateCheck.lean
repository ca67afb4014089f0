import ReverseRusty.Lib.Outcome
import ReverseRusty.Predicate

/-!
# ReverseRusty.PredicateCheck

The structural check a stored program passes before a reader trusts it
(`validate_predicate` of `exact/predicate.rs`), with the reason of every
refusal.

`validatePredicate_encode` says that the check is not too strict: every
program the encoder writes for a query as extraction leaves it passes.
-/

namespace ReverseRusty

open List

/-! ## the check -/

/-- Go on when a condition holds. -/
def ensure (condition : Bool) (error : String) : Except String Unit :=
  if condition then .ok () else .error error

def takeWord : List UInt32 → Except String (UInt32 × List UInt32)
  | [] => .error "compound predicate truncated"
  | w :: ws => .ok (w, ws)

/-- The next `count` words. -/
def takeWords (count : UInt32) (ws : List UInt32) : Except String (List UInt32 × List UInt32) :=
  if count.toNat ≤ ws.length then .ok (ws.take count.toNat, ws.drop count.toNat)
  else .error "compound predicate feature run truncated"

/-- Check `n` requirements of a member. -/
def checkRequirements : Nat → List UInt32 → Except String (List UInt32)
  | 0, ws => .ok ws
  | n + 1, ws => do
    let (count, ws) ← takeWord ws
    ensure (count ≠ 0) "compound requirement has no alternatives"
    let (_, ws) ← takeWords count ws
    checkRequirements n ws

/-- Check `n` members of a group, keeping the shortest requirement count. -/
def checkMembers : Nat → UInt32 → List UInt32 → Except String (UInt32 × List UInt32)
  | 0, shortest, ws => .ok (shortest, ws)
  | n + 1, shortest, ws => do
    let (count, ws) ← takeWord ws
    ensure (count ≠ 0) "compound member has no requirements"
    let ws ← checkRequirements count.toNat ws
    checkMembers n (min shortest count) ws

/-- Check `n` groups, adding up the terms each needs beyond one. -/
def checkGroups : Nat → Nat → List UInt32 → Except String (Nat × List UInt32)
  | 0, extra, ws => .ok (extra, ws)
  | n + 1, extra, ws => do
    let (count, ws) ← takeWord ws
    ensure (count ≠ 0) "compound positive group has no members"
    let (shortest, ws) ← checkMembers count.toNat 0xFFFFFFFF ws
    checkGroups n (satAdd extra (shortest.toNat - 1)) ws

/-- Check `n` forbidden conjunctions. -/
def checkConjunctions : Nat → List UInt32 → Except String (List UInt32)
  | 0, ws => .ok ws
  | n + 1, ws => do
    let (count, ws) ← takeWord ws
    ensure (2 ≤ count) "compound negative member must contain multiple features"
    let (_, ws) ← takeWords count ws
    checkConjunctions n ws

/-- Whether each label is smaller than the next. -/
def ascending : List UInt32 → Bool
  | a :: b :: rest => a < b && ascending (b :: rest)
  | _ => true

/-- The span of an arc, ordered by start and then end. -/
abbrev Span := UInt32 ×ₗ UInt32

/-- Check `n` arcs of a graph: inside it, in strict span order, with
strictly ascending labels.  Returns the positions a path from the start
reaches. -/
def checkArcs (positions : UInt32) :
    Nat → Option Span → List UInt32 → List UInt32 → Except String (List UInt32 × List UInt32)
  | 0, _, reachable, ws => .ok (reachable, ws)
  | n + 1, previous, reachable, ws => do
    let (start, ws) ← takeWord ws
    let (stop, ws) ← takeWord ws
    let (count, ws) ← takeWord ws
    ensure (start < stop && stop ≤ positions) "quoted predicate arc is outside its token graph"
    ensure (previous.all (· < toLex (start, stop))) "quoted predicate arcs are not canonical"
    ensure (count ≠ 0) "quoted predicate arc has no labels"
    let (labels, ws) ← takeWords count ws
    ensure (ascending labels) "quoted predicate labels are not canonical"
    let reachable := if reachable.contains start then stop :: reachable else reachable
    checkArcs positions n (some (toLex (start, stop))) reachable ws

/-- Check `n` quoted graphs. -/
def checkGraphs : Nat → List UInt32 → Except String (List UInt32)
  | 0, ws => .ok ws
  | n + 1, ws => do
    let (positions, ws) ← takeWord ws
    let (count, ws) ← takeWord ws
    ensure (positions ≠ 0 && count ≠ 0) "quoted predicate has an empty token graph"
    let (reachable, ws) ← checkArcs positions count.toNat none [0] ws
    ensure (reachable.contains positions) "quoted predicate has no complete analyzer path"
    checkGraphs n ws

def validatePhrases (ws : List UInt32) : Except String (UInt32 × List UInt32) := do
  let (count, ws) ← takeWord ws
  let ws ← checkGraphs count.toNat ws
  return (count, ws)

/-- Check the quoted part; it is there for a reason. -/
def validateQuoted (ws : List UInt32) : Except String (List UInt32) := do
  let (required, ws) ← validatePhrases ws
  let (forbidden, ws) ← validatePhrases ws
  ensure (required ≠ 0 || forbidden ≠ 0) "phrase predicate program has no quoted graphs"
  return ws

/-- Check what stands behind the feature clauses. -/
def validateTail (quoted : Bool) (ws : List UInt32) : Except String (List UInt32) :=
  if quoted then validateQuoted ws else .ok ws

def validateBody (semantic : Option (UInt32 × UInt32)) (quoted : Bool) (ws : List UInt32) :
    Except String Unit := do
  let (positive, ws) ← takeWord ws
  ensure (semantic.all fun s => positive ≤ s.1)
    "semantic any-of count is smaller than compound group count"
  ensure (semantic.all fun s => s.1 ≤ s.2)
    "semantic any-of term count is smaller than group count"
  let (extra, ws) ← checkGroups positive.toNat 0 ws
  ensure (semantic.all fun s => satAdd s.1.toNat extra ≤ s.2.toNat)
    "semantic any-of term count omits compound requirements"
  let (negative, ws) ← takeWord ws
  let ws ← checkConjunctions negative.toNat ws
  let ws ← validateTail quoted ws
  ensure ws.isEmpty "compound predicate has trailing words"

/-- **The check** of a stored program. -/
def validatePredicate (words : List UInt32) : Except String Unit :=
  match words with
  | [] => .ok ()
  | version :: ws =>
    if version = rankFeatureProgramVersion ∨ version = rankPhraseProgramVersion then do
      let (groups, ws) ← takeWord ws
      let (terms, ws) ← takeWord ws
      validateBody (some (groups, terms)) (predicateHasPhrases words) ws
    else if version = featureProgramVersion ∨ version = phraseProgramVersion then
      validateBody none (predicateHasPhrases words) ws
    else .error "unsupported compound predicate version"

theorem knownVersion_of_validatePredicate {words : List UInt32} {u : Unit}
    (h : validatePredicate words = .ok u) : KnownVersion words := by
  cases words with
  | nil => trivial
  | cons version ws =>
    simp only [validatePredicate] at h
    split at h
    · next hranked => exact .inr (.inr hranked)
    · split at h
      · next hplain =>
        rcases hplain with hplain | hplain
        · exact .inl hplain
        · exact .inr (.inl hplain)
      · contradiction

/-! ## the graphs extraction builds -/

inductive PhraseGraph.Reaches (g : PhraseGraph) : UInt32 → Prop where
  | start : Reaches g 0
  | arc {a : PhraseArc} (hstart : Reaches g a.start) (ha : a ∈ g.arcs) : Reaches g a.end

def PhraseArc.span (a : PhraseArc) : Span := toLex (a.start, a.end)

/-- What the analyzer leaves of a quoted clause, beside canonical form: one
arc per span, and a path through the whole clause. -/
structure PhraseGraph.Analyzed (g : PhraseGraph) : Prop where
  spans : (g.arcs.map PhraseArc.span).Nodup
  complete : g.Reaches g.positions

/-- In span order, one pass over the arcs finds what their paths reach:
the arcs into a position come before those out of it. -/
def reachablePass (reachable : List UInt32) (arcs : List PhraseArc) : List UInt32 :=
  arcs.foldl (fun r a => if r.contains a.start then a.end :: r else r) reachable

variable {reachable : List UInt32} {p : UInt32}

theorem subset_reachablePass {arcs : List PhraseArc} (h : p ∈ reachable) :
    p ∈ reachablePass reachable arcs := by
  induction arcs generalizing reachable with
  | nil => exact h
  | cons a arcs ih =>
    rw [reachablePass, foldl_cons]
    refine ih ?_
    split
    · exact mem_cons_of_mem _ h
    · exact h

variable {pre post : List PhraseArc}

theorem end_mem_reachablePass {a : PhraseArc} (h : a.start ∈ reachablePass reachable pre) :
    a.end ∈ reachablePass reachable (pre ++ a :: post) := by
  rw [reachablePass, foldl_append, foldl_cons]
  rw [reachablePass] at h
  refine subset_reachablePass ?_
  rw [if_pos (contains_iff_mem.mpr h)]
  exact mem_cons_self

theorem reachablePass_initial (hpost : ∀ a ∈ post, a.end ≠ p)
    (h : p ∈ reachablePass reachable (pre ++ post)) : p ∈ reachablePass reachable pre := by
  rw [reachablePass, foldl_append] at h
  change p ∈ reachablePass (reachablePass reachable pre) post at h
  generalize reachablePass reachable pre = r at *
  induction post generalizing r with
  | nil => exact h
  | cons a post ih =>
    rw [reachablePass, foldl_cons] at h
    have hr := ih (fun b hb => hpost b (mem_cons_of_mem a hb)) _ h
    split at hr
    · rcases mem_cons.mp hr with hr | hr
      · exact absurd hr.symm (hpost a mem_cons_self)
      · exact hr
    · exact hr

/-- **The pass is complete** for arcs in span order that lead forward. -/
theorem mem_reachablePass {g : PhraseGraph} (hsorted : (g.arcs.map PhraseArc.span).Pairwise (· < ·))
    (hforward : ∀ a ∈ g.arcs, a.start < a.end) (h : g.Reaches p) :
    p ∈ reachablePass [0] g.arcs := by
  induction h with
  | start => exact subset_reachablePass (mem_singleton.mpr rfl)
  | @arc a _ ha ih =>
    obtain ⟨pre, post, hsplit⟩ := append_of_mem ha
    rw [hsplit] at ih hsorted ⊢
    refine end_mem_reachablePass (reachablePass_initial ?_ ih)
    -- an arc from `a` on starts no earlier than `a`, so ends after its start
    intro b hb hend
    have hstart : a.start ≤ b.start := by
      rcases mem_cons.mp hb with rfl | hb
      · exact le_rfl
      · rw [map_append, map_cons, pairwise_append, pairwise_cons] at hsorted
        have hlt := hsorted.2.1.1 b.span (mem_map_of_mem hb)
        rcases Prod.Lex.lt_iff.mp hlt with hlt | ⟨heq, -⟩
        · exact le_of_lt hlt
        · exact le_of_eq heq
    have hb' : b ∈ g.arcs := by
      rw [hsplit]
      exact mem_append_right _ hb
    exact absurd (hend ▸ hforward b hb') (not_lt_of_ge hstart)

/-! ## encoded programs pass -/

section Encoded

variable {rest : List UInt32}

@[simp] theorem ensure_true (error : String) : ensure true error = .ok () := rfl

theorem ensure_of {condition : Bool} (h : condition = true) (error : String) :
    ensure condition error = .ok () := by
  rw [h, ensure_true]

@[simp] theorem takeWord_cons (w : UInt32) (ws : List UInt32) :
    takeWord (w :: ws) = .ok (w, ws) := rfl

theorem takeWords_append {ws : List UInt32} {count : UInt32} (h : count.toNat = ws.length) :
    takeWords count (ws ++ rest) = .ok (ws, rest) := by
  rw [takeWords, h, if_pos (by simp), take_left, drop_left]

theorem wordCount_ne_zero {n : Nat} (hpos : n ≠ 0) (h : n < 2 ^ 32) : wordCount n ≠ 0 := by
  intro hzero
  have := toNat_wordCount h
  rw [hzero] at this
  exact hpos this.symm

theorem wordCount_flatMap_ne_zero {α : Type*} {enc : α → List UInt32}
    (henc : ∀ x, 0 < (enc x).length) {xs : List α} (hne : xs ≠ [])
    (h : (xs.flatMap enc).length < 2 ^ 32) : wordCount xs.length ≠ 0 :=
  wordCount_ne_zero (by simpa using hne) ((length_le_length_flatMap henc xs).trans_lt h)

theorem checkRequirements_encode {rs : List (List FeatureId)}
    (h : (rs.flatMap encodeRun).length < 2 ^ 32) (hne : ∀ r ∈ rs, r ≠ []) :
    checkRequirements rs.length (rs.flatMap encodeRun ++ rest) = .ok rest := by
  induction rs with
  | nil => rfl
  | cons r rs ih =>
    simp only [flatMap_cons, length_append, encodeRun, length_cons] at h
    have hr : r.length ≠ 0 := by simpa using hne r mem_cons_self
    have hcount := wordCount_ne_zero hr (by omega)
    have htake := @takeWords_append (rs.flatMap encodeRun ++ rest) r (wordCount r.length)
      (toNat_wordCount (by omega))
    have hrs := ih (by omega) fun r' hr' => hne r' (mem_cons_of_mem r hr')
    simp [checkRequirements, encodeRun, htake, hrs, hcount]

theorem checkMembers_encode {ms : List AnyOfMember} {shortest : UInt32}
    (h : (ms.flatMap encodeMember).length < 2 ^ 32)
    (hne : ∀ m ∈ ms, m.requirements ≠ [] ∧ ∀ r ∈ m.requirements, r ≠ []) :
    checkMembers ms.length shortest (ms.flatMap encodeMember ++ rest) =
      .ok ((ms.map fun m => wordCount m.requirements.length).foldl min shortest, rest) := by
  induction ms generalizing shortest with
  | nil => rfl
  | cons m ms ih =>
    simp only [flatMap_cons, length_append, encodeMember, length_cons] at h
    obtain ⟨hm, hrs⟩ := hne m mem_cons_self
    have hcount := @toNat_wordCount_flatMap _ _ length_encodeRun_pos m.requirements (by omega)
    have hzero := wordCount_flatMap_ne_zero length_encodeRun_pos hm (by omega)
    have hcheck := @checkRequirements_encode (ms.flatMap encodeMember ++ rest) m.requirements
      (by omega) hrs
    have hms := @ih (min shortest (wordCount m.requirements.length)) (by omega)
      fun m' hm' => hne m' (mem_cons_of_mem m hm')
    simp [checkMembers, encodeMember, hcount, hcheck, hms, hzero]

theorem toNat_foldl_min {ns : List Nat} (h : ∀ n ∈ ns, n < 2 ^ 32) (shortest : UInt32) :
    ((ns.map wordCount).foldl min shortest).toNat = ns.foldl min shortest.toNat := by
  induction ns generalizing shortest with
  | nil => rfl
  | cons n ns ih =>
    rw [map_cons, foldl_cons, foldl_cons,
      ih fun m hm => h m (mem_cons_of_mem n hm), UInt32.toNat_min,
      toNat_wordCount (h n mem_cons_self)]

theorem shortest_eq_compoundExtraTerms {p : AnyOfPredicate} (hne : p.members ≠ [])
    (h : ∀ m ∈ p.members, m.requirements.length < 2 ^ 32) :
    ((p.members.map fun m => wordCount m.requirements.length).foldl min 0xFFFFFFFF).toNat - 1 =
      compoundExtraTerms p := by
  have hmap : (p.members.map fun m => wordCount m.requirements.length) =
      (p.members.map fun m => m.requirements.length).map wordCount := by
    rw [map_map]
    rfl
  have hlens : ∀ n ∈ p.members.map (fun m => m.requirements.length), n < 2 ^ 32 := by
    simpa using h
  have hclamp : (p.members.map fun m => min m.requirements.length u32Max) =
      p.members.map fun m => m.requirements.length := by
    refine map_congr_left fun m hm => ?_
    have := h m hm
    simp only [u32Max]
    omega
  rw [hmap, toNat_foldl_min hlens, compoundExtraTerms, hclamp]
  obtain ⟨m, ms, hms⟩ := exists_cons_of_ne_nil hne
  have hm := h m (hms ▸ mem_cons_self)
  rw [hms, map_cons, foldl_cons, min?_cons', Option.getD_some,
    Nat.min_eq_right (by simp; omega)]

theorem checkGroups_encode {ps : List AnyOfPredicate} {extra : Nat}
    (h : (ps.flatMap encodeGroup).length < 2 ^ 32)
    (hne : ∀ p ∈ ps, p.members ≠ [] ∧
      ∀ m ∈ p.members, m.requirements ≠ [] ∧ ∀ r ∈ m.requirements, r ≠ []) :
    checkGroups ps.length extra (ps.flatMap encodeGroup ++ rest) =
      .ok (ps.foldl (fun terms p => satAdd terms (compoundExtraTerms p)) extra, rest) := by
  induction ps generalizing extra with
  | nil => rfl
  | cons p ps ih =>
    simp only [flatMap_cons, length_append, encodeGroup, length_cons] at h
    obtain ⟨hp, hms⟩ := hne p mem_cons_self
    have hcount := @toNat_wordCount_flatMap _ _ length_encodeMember_pos p.members (by omega)
    have hzero := wordCount_flatMap_ne_zero length_encodeMember_pos hp (by omega)
    have hcheck := @checkMembers_encode (ps.flatMap encodeGroup ++ rest) p.members 0xFFFFFFFF
      (by omega) hms
    have hreq : ∀ m ∈ p.members, m.requirements.length < 2 ^ 32 := by
      intro m hm
      have hm' := length_le_length_flatMap length_encodeRun_pos m.requirements
      have hle := @length_le_of_mem _ encodeMember _ _ hm
      rw [encodeMember, length_cons] at hle
      omega
    have hps := @ih (satAdd extra (compoundExtraTerms p)) (by omega)
      fun p' hp' => hne p' (mem_cons_of_mem p hp')
    simp [checkGroups, encodeGroup, hcount, hcheck, shortest_eq_compoundExtraTerms hp hreq, hps,
      hzero]

theorem checkConjunctions_encode {cs : List (List FeatureId)}
    (h : (cs.flatMap encodeRun).length < 2 ^ 32) (hne : ∀ c ∈ cs, 2 ≤ c.length) :
    checkConjunctions cs.length (cs.flatMap encodeRun ++ rest) = .ok rest := by
  induction cs with
  | nil => rfl
  | cons c cs ih =>
    simp only [flatMap_cons, length_append, encodeRun, length_cons] at h
    have hcount : (wordCount c.length).toNat = c.length := toNat_wordCount (by omega)
    have htwo : (2 : UInt32) ≤ wordCount c.length := by
      rw [UInt32.le_iff_toNat_le, hcount]
      exact hne c mem_cons_self
    have htake := @takeWords_append (cs.flatMap encodeRun ++ rest) c _ hcount
    have hcs := ih (by omega) fun c' hc' => hne c' (mem_cons_of_mem c hc')
    simp [checkConjunctions, encodeRun, htake, hcs, ensure_of (decide_eq_true htwo)]

theorem ascending_of_pairwise {ws : List UInt32} (h : ws.Pairwise (· < ·)) :
    ascending ws = true := by
  fun_induction ascending ws with
  | case1 a b rest ih =>
    rw [pairwise_cons] at h
    rw [Bool.and_eq_true, decide_eq_true_eq]
    exact ⟨h.1 b mem_cons_self, ih h.2⟩
  | case2 => rfl

/-- What the check asks of one arc, beside its place in span order. -/
structure PhraseArc.Sound (positions : UInt32) (a : PhraseArc) : Prop where
  forward : a.start < a.end
  inside : a.end ≤ positions
  labelled : a.alternatives ≠ []
  labels : a.alternatives.Pairwise (· < ·)

theorem checkArcs_encode {positions : UInt32} {as : List PhraseArc} {previous : Option Span}
    {reachable : List UInt32} (h : (as.flatMap encodeArc).length < 2 ^ 32)
    (hsound : ∀ a ∈ as, a.Sound positions)
    (hspans : (previous.toList ++ as.map PhraseArc.span).Pairwise (· < ·)) :
    checkArcs positions as.length previous reachable (as.flatMap encodeArc ++ rest) =
      .ok (reachablePass reachable as, rest) := by
  induction as generalizing previous reachable with
  | nil => rfl
  | cons a as ih =>
    simp only [flatMap_cons, length_append, encodeArc, encodeRun,
      length_cons] at h
    obtain ⟨hforward, hinside, hlabelled, hlabels⟩ := hsound a mem_cons_self
    have hcount : (wordCount a.alternatives.length).toNat = a.alternatives.length :=
      toNat_wordCount (by omega)
    have hzero := wordCount_ne_zero (n := a.alternatives.length) (by simpa using hlabelled)
      (by omega)
    have htake := @takeWords_append (as.flatMap encodeArc ++ rest) a.alternatives _ hcount
    have hprevious : previous.all (· < toLex (a.start, a.end)) = true := by
      rw [Option.all_eq_true]
      intro s hs
      rw [pairwise_append] at hspans
      exact decide_eq_true (hspans.2.2 s (by simp [hs]) a.span (by simp))
    have hspans' : ((some a.span).toList ++ as.map PhraseArc.span).Pairwise (· < ·) :=
      hspans.sublist (sublist_append_right _ _)
    have has := @ih (some (toLex (a.start, a.end)))
      (if reachable.contains a.start then a.end :: reachable else reachable) (by omega)
      (fun b hb => hsound b (mem_cons_of_mem a hb)) hspans'
    simp only [length_cons, checkArcs, flatMap_cons, encodeArc, encodeRun,
      cons_append, append_assoc, takeWord_cons, ok_bind, htake, has, hprevious,
      ensure_true, ensure_of (decide_eq_true hzero), ascending_of_pairwise hlabels,
      decide_eq_true hforward, decide_eq_true hinside, Bool.and_self]
    rfl

/-- What the check asks of a quoted graph. -/
structure PhraseGraph.Sound (g : PhraseGraph) : Prop where
  positions : g.positions ≠ 0
  arcs : g.arcs ≠ []
  sound : ∀ a ∈ g.arcs, a.Sound g.positions
  spans : (g.arcs.map PhraseArc.span).Pairwise (· < ·)
  complete : g.Reaches g.positions

theorem checkGraphs_encode {gs : List PhraseGraph}
    (h : (gs.flatMap encodeGraph).length < 2 ^ 32) (hsound : ∀ g ∈ gs, g.Sound) :
    checkGraphs gs.length (gs.flatMap encodeGraph ++ rest) = .ok rest := by
  induction gs with
  | nil => rfl
  | cons g gs ih =>
    simp only [flatMap_cons, length_append, encodeGraph, length_cons] at h
    obtain ⟨hpositions, harcs, hgsound, hspans, hcomplete⟩ := hsound g mem_cons_self
    have hcount := @toNat_wordCount_flatMap _ _ length_encodeArc_pos g.arcs (by omega)
    have hzero := wordCount_flatMap_ne_zero length_encodeArc_pos harcs (by omega)
    have hcheck := @checkArcs_encode (gs.flatMap encodeGraph ++ rest) g.positions g.arcs none [0]
      (by omega) hgsound (by simpa using hspans)
    have hreach : g.positions ∈ reachablePass [0] g.arcs :=
      mem_reachablePass hspans (fun a ha => (hgsound a ha).forward) hcomplete
    have hgs := ih (by omega) fun g' hg' => hsound g' (mem_cons_of_mem g hg')
    simp [checkGraphs, encodeGraph, hcount, hcheck, hreach, hgs, hpositions, hzero]

theorem validatePhrases_encode {gs : List PhraseGraph}
    (h : (encodePhrases gs).length < 2 ^ 32) (hsound : ∀ g ∈ gs, g.Sound) :
    validatePhrases (encodePhrases gs ++ rest) = .ok (wordCount gs.length, rest) := by
  simp only [encodePhrases, length_cons] at h
  have hcount := @toNat_wordCount_flatMap _ _ length_encodeGraph_pos gs (by omega)
  have hcheck := @checkGraphs_encode rest gs (by omega) hsound
  simp only [validatePhrases, encodePhrases, cons_append, takeWord_cons, ok_bind, hcount,
    hcheck]
  rfl

theorem validateQuoted_encode {required forbidden : List PhraseGraph}
    (h : (encodePhrases required ++ encodePhrases forbidden).length < 2 ^ 32)
    (hsome : required ≠ [] ∨ forbidden ≠ []) (hsound : ∀ g ∈ required ++ forbidden, g.Sound) :
    validateQuoted (encodePhrases required ++ encodePhrases forbidden) = .ok [] := by
  rw [length_append] at h
  have hreq := @validatePhrases_encode (encodePhrases forbidden) required (by omega)
    fun g hg => hsound g (mem_append_left _ hg)
  have hforb := @validatePhrases_encode [] forbidden (by omega)
    fun g hg => hsound g (mem_append_right _ hg)
  rw [append_nil] at hforb
  simp only [encodePhrases, length_cons] at h
  have hkept : (decide (wordCount required.length ≠ 0) ||
      decide (wordCount forbidden.length ≠ 0)) = true := by
    rcases hsome with hsome | hsome
    · rw [decide_eq_true (wordCount_flatMap_ne_zero length_encodeGraph_pos hsome (by omega)),
        Bool.true_or]
    · rw [decide_eq_true (wordCount_flatMap_ne_zero length_encodeGraph_pos hsome (by omega)),
        Bool.or_true]
  simp only [validateQuoted, hreq, ok_bind, hforb, ensure_of hkept]
  rfl

/-! ## canonical queries as extraction leaves them -/

variable {g : PhraseGraph}

theorem canonicalArc_sound {a : PhraseArc} (ha : a ∈ g.canonicalize.arcs) :
    a.Sound g.positions := by
  simp only [PhraseGraph.canonicalize, mem_sortDedup, mem_filter, mem_map] at ha
  obtain ⟨⟨b, -, rfl⟩, hin⟩ := ha
  simp only [PhraseArc.inGraph, Bool.and_eq_true, decide_eq_true_eq] at hin
  exact ⟨hin.1.1, hin.1.2, hin.2, pairwise_sortDedup _⟩

theorem pairwise_span (hsorted : g.arcs.Pairwise (· < ·))
    (hnodup : (g.arcs.map PhraseArc.span).Nodup) :
    (g.arcs.map PhraseArc.span).Pairwise (· < ·) := by
  have hle : (g.arcs.map PhraseArc.span).Pairwise (· ≤ ·) := by
    rw [pairwise_map]
    refine hsorted.imp fun {a b} hab => ?_
    have hkey : a.key < b.key := hab
    rcases Prod.Lex.lt_iff.mp hkey with hlt | ⟨heq, hlt⟩
    · exact le_of_lt (Prod.Lex.lt_iff.mpr (.inl hlt))
    · refine Prod.Lex.le_iff.mpr (.inr ⟨heq, ?_⟩)
      rcases Prod.Lex.lt_iff.mp hlt with hend | ⟨hend, -⟩
      · exact le_of_lt hend
      · exact le_of_eq hend
  exact (hle.and hnodup).imp fun ⟨hab, hne⟩ => lt_of_le_of_ne hab hne

theorem PhraseGraph.Analyzed.sound {phrases : List PhraseGraph} (h : g.Analyzed)
    (hcanonical : canonicalizePhrases phrases = phrases) (hg : g ∈ phrases) : g.Sound := by
  rw [← hcanonical, canonicalizePhrases, mem_sortDedup, mem_filter, mem_map] at hg
  obtain ⟨⟨g', -, rfl⟩, hne⟩ := hg
  obtain ⟨hpositions, harcs⟩ := of_decide_eq_true hne
  exact ⟨hpositions, harcs, fun a ha => canonicalArc_sound (g := g') ha,
    pairwise_span (pairwise_sortDedup _) h.spans, h.complete⟩

theorem Extracted.Canonical.members_ne_nil {ex : Extracted} (h : ex.Canonical)
    {p : AnyOfPredicate} (hp : p ∈ ex.anyofPredicates) :
    p.members ≠ [] ∧ ∀ m ∈ p.members, m.requirements ≠ [] ∧ ∀ r ∈ m.requirements, r ≠ [] := by
  rw [← congrArg Extracted.anyofPredicates h] at hp
  simp only [Extracted.canonicalize, mem_sortDedup, mem_filter, mem_map,
    decide_eq_true_eq] at hp
  obtain ⟨⟨p', -, rfl⟩, hne⟩ := hp
  refine ⟨hne, fun m hm => ?_⟩
  simp only [AnyOfPredicate.canonicalize, mem_sortDedup, mem_filter, mem_map,
    decide_eq_true_eq] at hm
  obtain ⟨⟨m', -, rfl⟩, hm⟩ := hm
  refine ⟨hm, fun r hr => ?_⟩
  simp only [AnyOfMember.canonicalize, mem_sortDedup, mem_filter, decide_eq_true_eq] at hr
  exact hr.2

theorem foldl_satAdd {ps : List AnyOfPredicate} {a b : Nat} :
    ps.foldl (fun terms p => satAdd terms (compoundExtraTerms p)) (satAdd a b) =
      satAdd a (ps.foldl (fun terms p => satAdd terms (compoundExtraTerms p)) b) := by
  induction ps generalizing b with
  | nil => rfl
  | cons p ps ih =>
    have hassoc : satAdd (satAdd a b) (compoundExtraTerms p) =
        satAdd a (satAdd b (compoundExtraTerms p)) := by
      simp only [satAdd, u32Max]
      omega
    rw [foldl_cons, foldl_cons, hassoc, ih]

/-- What extraction promises of a query beyond canonical form and column
sizes. -/
structure Extracted.Wellformed (ex : Extracted) : Prop where
  /-- the ranking counts are `u32` -/
  ranked : ex.semanticAnyofGroups ≤ u32Max ∧ ex.semanticAnyofTerms ≤ u32Max
  /-- a forbidden member with one feature is a forbidden feature instead -/
  conjunctions : ∀ c ∈ ex.forbiddenConjunctions, 2 ≤ c.length
  graphs : ∀ g ∈ ex.requiredPhrases ++ ex.forbiddenPhrases, g.Analyzed

section Ranked

variable {ex : Extracted} (h : ex.Wellformed)

include h

theorem semanticGroups_le : semanticGroups ex ≤ u32Max := by
  have := h.ranked.1
  simp only [semanticGroups]
  omega

theorem semanticTerms_le : semanticTerms ex ≤ u32Max := by
  have hfold : ∀ {ps : List AnyOfPredicate} {n : Nat}, n ≤ u32Max →
      ps.foldl (fun terms p => satAdd terms (compoundExtraTerms p)) n ≤ u32Max := by
    intro ps n hn
    induction ps generalizing n with
    | nil => exact hn
    | cons p ps ih => exact ih (Nat.min_le_right _ _)
  have hgroups := semanticGroups_le h
  have hterms := h.ranked.2
  have := @hfold ex.anyofPredicates _ hgroups
  simp only [semanticTerms]
  omega

theorem validateBody_encode (hc : ex.Canonical) (hlen : (encodeBody ex).length < 2 ^ 32) :
    validateBody (some (wordCount (semanticGroups ex), wordCount (semanticTerms ex)))
      ex.hasPhrases (encodeBody ex) = .ok () := by
  obtain ⟨hgroupCount, hconjCount⟩ := toNat_wordCount_clauses hlen
  simp only [encodeBody, length_cons, length_append] at hlen
  have hsg : (wordCount (semanticGroups ex)).toNat = semanticGroups ex :=
    toNat_wordCount (Nat.lt_of_le_of_lt (semanticGroups_le h) (by decide))
  have hst : (wordCount (semanticTerms ex)).toNat = semanticTerms ex :=
    toNat_wordCount (Nat.lt_of_le_of_lt (semanticTerms_le h) (by decide))
  -- the three ranking checks
  have hcovers : wordCount ex.anyofPredicates.length ≤ wordCount (semanticGroups ex) := by
    rw [UInt32.le_iff_toNat_le, hgroupCount, hsg]
    have hlen := length_le_length_flatMap length_encodeGroup_pos ex.anyofPredicates
    simp only [semanticGroups, u32Max]
    omega
  have hterms : wordCount (semanticGroups ex) ≤ wordCount (semanticTerms ex) := by
    rw [UInt32.le_iff_toNat_le, hsg, hst]
    exact Nat.le_max_right _ _
  have hextra : satAdd (semanticGroups ex)
      (ex.anyofPredicates.foldl (fun terms p => satAdd terms (compoundExtraTerms p)) 0) ≤
      semanticTerms ex := by
    have hzero : satAdd (semanticGroups ex) 0 = semanticGroups ex :=
      Nat.min_eq_left (semanticGroups_le h)
    rw [← foldl_satAdd, hzero]
    simp only [semanticTerms]
    omega
  generalize hquoted : (if ex.hasPhrases then
    encodePhrases ex.requiredPhrases ++ encodePhrases ex.forbiddenPhrases else []) = quoted at hlen
  have hcheckGroups := @checkGroups_encode (wordCount ex.forbiddenConjunctions.length ::
    (ex.forbiddenConjunctions.flatMap encodeRun ++ quoted)) ex.anyofPredicates 0 (by omega)
    fun p hp => hc.members_ne_nil hp
  have hcheckConj := @checkConjunctions_encode quoted ex.forbiddenConjunctions (by omega)
    h.conjunctions
  have htail : validateTail ex.hasPhrases quoted = .ok [] := by
    unfold validateTail
    cases hp : ex.hasPhrases with
    | false =>
      rw [hp] at hquoted
      rw [← hquoted]
      rfl
    | true =>
      rw [hp, if_pos rfl] at hquoted
      rw [if_pos rfl, ← hquoted]
      refine validateQuoted_encode (by rw [hquoted]; omega) ?_ fun g hg => ?_
      · simpa [Extracted.hasPhrases] using hp
      · rcases mem_append.mp hg with hg' | hg'
        · exact (h.graphs g hg).sound (congrArg Extracted.requiredPhrases hc) hg'
        · exact (h.graphs g hg).sound (congrArg Extracted.forbiddenPhrases hc) hg'
  simp [validateBody, encodeBody, hquoted, decide_eq_true hcovers, decide_eq_true hterms,
    hgroupCount, hcheckGroups, hsg, hst, decide_eq_true hextra, hconjCount, hcheckConj, htail]

/-- **Every program the encoder writes passes the check.** -/
theorem validatePredicate_encode (hc : ex.Canonical) (hlen : (encodePredicate ex).length < 2 ^ 32) :
    validatePredicate (encodePredicate ex) = .ok () := by
  unfold encodePredicate at *
  split
  · rfl
  · next hneeds =>
    rw [if_neg hneeds, length_cons, length_cons, length_cons] at hlen
    have hbody := validateBody_encode h hc (by omega)
    cases hp : ex.hasPhrases with
    | true =>
      rw [hp] at hbody
      simpa [validatePredicate, predicateHasPhrases, rankPhraseProgramVersion,
        rankFeatureProgramVersion] using hbody
    | false =>
      rw [hp] at hbody
      simpa [validatePredicate, predicateHasPhrases, rankPhraseProgramVersion,
        rankFeatureProgramVersion, phraseProgramVersion] using hbody

end Ranked

end Encoded

end ReverseRusty
