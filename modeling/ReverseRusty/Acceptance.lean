import ReverseRusty.PhraseWalk

/-!
# ReverseRusty.Acceptance

What a query asks of an analyzed title (`compile.rs`), by membership: which
features the title has to carry or to lack, and which quoted graphs have to be
spelled in it or must not be.

`matchesUnbounded` is `matchesPositioned` with the plain walk in place of the
bounded one; the two agree where no walk runs out of its budget.
-/

namespace ReverseRusty

open List

/-- An analyzed title: its two feature views and its two token graphs. -/
structure AnalyzedTitle where
  pos : List FeatureId
  neg : List FeatureId
  posGraph : TitleGraph
  negGraph : TitleGraph
  pos_sorted : pos.Pairwise (· < ·)
  neg_sorted : neg.Pairwise (· < ·)

def TitleGraph.Spells (title : TitleGraph) (g : PhraseGraph) : Prop :=
  ∃ t < title.positions, ∃ path, g.Spells title.arcs 0 t path

namespace Extracted

/-- The whole predicate, with quoted graphs read by the plain walk.  An
incomplete title graph does not reject a required phrase. -/
def matchesUnbounded (ex : Extracted) (t : AnalyzedTitle) : Bool :=
  ex.matchesFlatFeatures t.pos t.neg
    && ex.requiredPhrases.all (fun g =>
        !t.posGraph.complete || phraseGraphMatches g t.posGraph.positions t.posGraph.arcs)
    && !ex.forbiddenPhrases.any (fun g =>
        phraseGraphMatches g t.negGraph.positions t.negGraph.arcs)

/-- What the flat clauses of a query ask of two feature views. -/
structure FlatHolds (ex : Extracted) (pos neg : List FeatureId) : Prop where
  required : ∀ f ∈ ex.required, f ∈ pos
  forbidden : ∀ f ∈ ex.forbidden, f ∉ neg
  anyof : ∀ g ∈ ex.anyof, ∃ f ∈ g, f ∈ pos
  compound : ∀ p ∈ ex.anyofPredicates, ∃ m ∈ p.members, ∀ r ∈ m.requirements, ∃ f ∈ r, f ∈ pos
  conjunctions : ∀ c ∈ ex.forbiddenConjunctions, ∃ f ∈ c, f ∉ neg

/-- On sorted views the flat clauses are read by membership. -/
theorem matchesFlatFeatures_iff {ex : Extracted} {pos neg : List FeatureId}
    (hpos : pos.Pairwise (· < ·)) (hneg : neg.Pairwise (· < ·)) :
    ex.matchesFlatFeatures pos neg = true ↔ ex.FlatHolds pos neg := by
  have hp : ∀ f, binarySearch pos f = true ↔ f ∈ pos := fun f =>
    binarySearch_iff_mem (hpos.imp le_of_lt)
  have hn : ∀ f, binarySearch neg f = true ↔ f ∈ neg := fun f =>
    binarySearch_iff_mem (hneg.imp le_of_lt)
  simp only [matchesFlatFeatures, Bool.and_eq_true, Bool.not_eq_true', all_eq_true,
    any_eq_true, any_eq_false, hp, hn, not_forall, exists_prop]
  constructor
  · rintro ⟨⟨⟨⟨hreq, hforb⟩, hany⟩, hcomp⟩, hconj⟩
    exact ⟨hreq, hforb, hany, hcomp, hconj⟩
  · rintro ⟨hreq, hforb, hany, hcomp, hconj⟩
    exact ⟨⟨⟨⟨hreq, hforb⟩, hany⟩, hcomp⟩, hconj⟩

/-- What a whole query asks of a title. -/
structure Holds (ex : Extracted) (t : AnalyzedTitle) : Prop where
  flat : ex.FlatHolds t.pos t.neg
  phrases : t.posGraph.complete = true → ∀ g ∈ ex.requiredPhrases, t.posGraph.Spells g
  noPhrases : ∀ g ∈ ex.forbiddenPhrases, ¬ t.negGraph.Spells g

/-- **A canonical query accepts a title exactly when the title meets its
clauses.** -/
theorem matchesUnbounded_iff {ex : Extracted} (hex : ex.Canonical) (t : AnalyzedTitle) :
    ex.matchesUnbounded t = true ↔ ex.Holds t := by
  have hreq : ∀ g ∈ ex.requiredPhrases,
      (phraseGraphMatches g t.posGraph.positions t.posGraph.arcs = true ↔ t.posGraph.Spells g) :=
    fun g hg => phraseGraphMatches_iff
      (quoted_of_canonical (congrArg Extracted.requiredPhrases hex) hg) t.posGraph.starts _
  have hforb : ∀ g ∈ ex.forbiddenPhrases,
      (phraseGraphMatches g t.negGraph.positions t.negGraph.arcs = true ↔ t.negGraph.Spells g) :=
    fun g hg => phraseGraphMatches_iff
      (quoted_of_canonical (congrArg Extracted.forbiddenPhrases hex) hg) t.negGraph.starts _
  simp only [matchesUnbounded, Bool.and_eq_true, Bool.not_eq_true', Bool.or_eq_true,
    all_eq_true, any_eq_false, matchesFlatFeatures_iff t.pos_sorted t.neg_sorted]
  constructor
  · rintro ⟨⟨hflat, hphrases⟩, hno⟩
    refine ⟨hflat, fun hc g hg => ?_, fun g hg hs => hno g hg ((hforb g hg).mpr hs)⟩
    exact (hreq g hg).mp ((hphrases g hg).resolve_left (by simp [hc]))
  · rintro ⟨hflat, hphrases, hno⟩
    refine ⟨⟨hflat, fun g hg => ?_⟩, fun g hg hm => hno g hg ((hforb g hg).mp hm)⟩
    cases hc : t.posGraph.complete with
    | false => exact .inl rfl
    | true => exact .inr ((hreq g hg).mpr (hphrases hc g hg))

end Extracted

/-! ## canonical form keeps what a query asks -/

section Canonical

variable {ex : Extracted} {P : FeatureId → Prop}

variable {m : AnyOfMember}

theorem AnyOfMember.canonicalize_holds (hm : ∀ r ∈ m.requirements, r ≠ []) :
    (∀ r ∈ m.canonicalize.requirements, ∃ f ∈ r, P f) ↔
      ∀ r ∈ m.requirements, ∃ f ∈ r, P f := by
  simp only [canonicalize, mem_sortDedup, mem_filter, mem_map, ne_eq, decide_eq_true_eq]
  constructor
  · intro h r hr
    obtain ⟨f, hf, hp⟩ := h (sortDedup r) ⟨⟨r, hr, rfl⟩, sortDedup_ne_nil.mpr (hm r hr)⟩
    exact ⟨f, mem_sortDedup.mp hf, hp⟩
  · rintro h _ ⟨⟨r, hr, rfl⟩, -⟩
    obtain ⟨f, hf, hp⟩ := h r hr
    exact ⟨f, mem_sortDedup.mpr hf, hp⟩

theorem AnyOfMember.canonicalize_ne_nil (hne : m.requirements ≠ [])
    (hm : ∀ r ∈ m.requirements, r ≠ []) : m.canonicalize.requirements ≠ [] := by
  obtain ⟨r, hr⟩ := exists_mem_of_ne_nil _ hne
  refine ne_nil_of_mem (a := sortDedup r) ?_
  simp only [canonicalize, mem_sortDedup, mem_filter, mem_map, ne_eq, decide_eq_true_eq]
  exact ⟨⟨r, hr, rfl⟩, sortDedup_ne_nil.mpr (hm r hr)⟩

/-- A compound predicate with no vacuous part. -/
structure AnyOfPredicate.Full (p : AnyOfPredicate) : Prop where
  members : p.members ≠ []
  requirements : ∀ m ∈ p.members, m.requirements ≠ []
  alternatives : ∀ m ∈ p.members, ∀ r ∈ m.requirements, r ≠ []

variable {p : AnyOfPredicate}

theorem AnyOfPredicate.Full.mem_canonicalize (hp : p.Full) :
    m ∈ p.canonicalize.members ↔ ∃ m' ∈ p.members, m = m'.canonicalize := by
  simp only [canonicalize, mem_sortDedup, mem_filter, mem_map, ne_eq, decide_eq_true_eq]
  constructor
  · rintro ⟨⟨m', hm', rfl⟩, -⟩
    exact ⟨m', hm', rfl⟩
  · rintro ⟨m', hm', rfl⟩
    exact ⟨⟨m', hm', rfl⟩,
      AnyOfMember.canonicalize_ne_nil (hp.requirements m' hm') (hp.alternatives m' hm')⟩

theorem AnyOfPredicate.Full.canonicalize_holds (hp : p.Full) :
    (∃ m ∈ p.canonicalize.members, ∀ r ∈ m.requirements, ∃ f ∈ r, P f) ↔
      ∃ m ∈ p.members, ∀ r ∈ m.requirements, ∃ f ∈ r, P f := by
  constructor
  · rintro ⟨_, hc, h⟩
    obtain ⟨m, hm, rfl⟩ := hp.mem_canonicalize.mp hc
    exact ⟨m, hm, (AnyOfMember.canonicalize_holds (hp.alternatives m hm)).mp h⟩
  · rintro ⟨m, hm, h⟩
    exact ⟨_, hp.mem_canonicalize.mpr ⟨m, hm, rfl⟩,
      (AnyOfMember.canonicalize_holds (hp.alternatives m hm)).mpr h⟩

/-- A query none of whose flat clauses is vacuous, as extraction builds it. -/
structure Extracted.Full (ex : Extracted) : Prop where
  compound : ∀ p ∈ ex.anyofPredicates, p.Full
  conjunctions : ∀ c ∈ ex.forbiddenConjunctions, c ≠ []

theorem Extracted.Full.canonicalize_compound (h : ex.Full) :
    p ∈ ex.canonicalize.anyofPredicates ↔ ∃ p' ∈ ex.anyofPredicates, p = p'.canonicalize := by
  simp only [canonicalize, mem_sortDedup, mem_filter, mem_map, ne_eq, decide_eq_true_eq]
  constructor
  · rintro ⟨⟨p', hp', rfl⟩, -⟩
    exact ⟨p', hp', rfl⟩
  · rintro ⟨p', hp', rfl⟩
    obtain ⟨m, hm⟩ := exists_mem_of_ne_nil _ (h.compound p' hp').members
    exact ⟨⟨p', hp', rfl⟩,
      ne_nil_of_mem ((h.compound p' hp').mem_canonicalize.mpr ⟨m, hm, rfl⟩)⟩

/-- Canonical form keeps what the flat clauses ask. -/
theorem Extracted.Full.canonicalize_flatHolds (h : ex.Full) {pos neg : List FeatureId} :
    ex.canonicalize.FlatHolds pos neg ↔ ex.FlatHolds pos neg := by
  constructor
  · intro ⟨hreq, hforb, hany, hcomp, hconj⟩
    refine ⟨fun f hf => hreq f (mem_sortDedup.mpr hf), fun f hf => hforb f (mem_sortDedup.mpr hf),
      fun g hg => hany g (mem_sortDedup.mpr hg), fun p hp => ?_, fun c hc => ?_⟩
    · exact (h.compound p hp).canonicalize_holds.mp
        (hcomp _ (h.canonicalize_compound.mpr ⟨p, hp, rfl⟩))
    · obtain ⟨f, hf, hn⟩ := hconj (sortDedup c) (mem_sortDedup.mpr (mem_filter.mpr
        ⟨mem_map_of_mem hc, by simpa using sortDedup_ne_nil.mpr (h.conjunctions c hc)⟩))
      exact ⟨f, mem_sortDedup.mp hf, hn⟩
  · intro ⟨hreq, hforb, hany, hcomp, hconj⟩
    refine ⟨fun f hf => hreq f (mem_sortDedup.mp hf), fun f hf => hforb f (mem_sortDedup.mp hf),
      fun g hg => hany g (mem_sortDedup.mp hg), fun p hp => ?_, fun c hc => ?_⟩
    · obtain ⟨p', hp', rfl⟩ := h.canonicalize_compound.mp hp
      exact (h.compound p' hp').canonicalize_holds.mpr (hcomp p' hp')
    · obtain ⟨hc, -⟩ := mem_filter.mp (mem_sortDedup.mp hc)
      obtain ⟨c', hc', rfl⟩ := mem_map.mp hc
      obtain ⟨f, hf, hn⟩ := hconj c' hc'
      exact ⟨f, mem_sortDedup.mpr hf, hn⟩

end Canonical

/-! ## canonical form is a normal form -/

theorem AnyOfMember.canonicalize_canonicalize (m : AnyOfMember) :
    m.canonicalize.canonicalize = m.canonicalize :=
  congrArg AnyOfMember.mk (sortDedup_normal sortDedup_sortDedup m.requirements)

theorem AnyOfPredicate.canonicalize_canonicalize (p : AnyOfPredicate) :
    p.canonicalize.canonicalize = p.canonicalize :=
  congrArg AnyOfPredicate.mk
    (sortDedup_normal AnyOfMember.canonicalize_canonicalize p.members)

theorem PhraseGraph.canonicalize_canonicalize (g : PhraseGraph) :
    g.canonicalize.canonicalize = g.canonicalize := by
  refine congrArg (PhraseGraph.mk g.positions)
    (sortDedup_normal (f := fun a : PhraseArc => { a with alternatives := sortDedup a.alternatives })
      (fun a => ?_) g.arcs)
  simp

theorem Extracted.canonical_canonicalize (ex : Extracted) : ex.canonicalize.Canonical := by
  have hphrases (gs : List PhraseGraph) :
      canonicalizePhrases (canonicalizePhrases gs) = canonicalizePhrases gs :=
    sortDedup_normal PhraseGraph.canonicalize_canonicalize gs
  unfold Canonical
  simp [canonicalize, hphrases, sortDedup_normal AnyOfPredicate.canonicalize_canonicalize,
    sortDedup_normal sortDedup_sortDedup]

theorem Extracted.Canonical.full {ex : Extracted} (h : ex.Canonical) : ex.Full where
  compound p hp := by
    rw [← congrArg Extracted.anyofPredicates h] at hp
    simp only [canonicalize, mem_sortDedup, mem_filter, mem_map, ne_eq,
      decide_eq_true_eq] at hp
    obtain ⟨⟨p', -, rfl⟩, hne⟩ := hp
    have hm : ∀ m ∈ p'.canonicalize.members,
        m.requirements ≠ [] ∧ ∃ m', m = AnyOfMember.canonicalize m' := by
      intro m hm
      simp only [AnyOfPredicate.canonicalize, mem_sortDedup, mem_filter, mem_map, ne_eq,
        decide_eq_true_eq] at hm
      obtain ⟨⟨m', -, rfl⟩, hne⟩ := hm
      exact ⟨hne, m', rfl⟩
    refine ⟨hne, fun m hmem => (hm m hmem).1, fun m hmem r hr => ?_⟩
    obtain ⟨m', rfl⟩ := (hm m hmem).2
    simp only [AnyOfMember.canonicalize, mem_sortDedup, mem_filter, ne_eq,
      decide_eq_true_eq] at hr
    exact hr.2
  conjunctions c hc := by
    rw [← congrArg Extracted.forbiddenConjunctions h] at hc
    simp only [canonicalize, mem_sortDedup, mem_filter, ne_eq, decide_eq_true_eq] at hc
    exact hc.2

/-! ## paths of two graphs in step -/

/-- A path spelled in one title is spelled in another when each pair of arcs
with a common label has its counterpart with the same ends. -/
theorem PhraseGraph.Spells.transfer {g g' : PhraseGraph} {title title' : List PositionArc}
    (hpos : g'.positions = g.positions)
    (harcs : ∀ qa ∈ g.arcs, ∀ ta ∈ title, ta.feature ∈ qa.alternatives →
      ∃ qa' ∈ g'.arcs, ∃ ta' ∈ title', ta'.feature ∈ qa'.alternatives ∧
        qa'.start = qa.start ∧ qa'.end = qa.end ∧ ta'.start = ta.start ∧ ta'.end = ta.end)
    {q t : UInt32} {path : List (PhraseArc × PositionArc)} (h : g.Spells title q t path) :
    ∃ path', g'.Spells title' q t path' := by
  induction h with
  | done => exact ⟨[], hpos ▸ .done⟩
  | @arc qa ta path hqa hta hlabel _ ih =>
    obtain ⟨path', hpath⟩ := ih
    obtain ⟨qa', hqa', ta', hta', hlabel', hqs, hqe, hts, hte⟩ := harcs qa hqa ta hta hlabel
    rw [← hqe, ← hte] at hpath
    rw [← hqs, ← hts]
    exact ⟨(qa', ta') :: path', .arc hqa' hta' hlabel' hpath⟩

end ReverseRusty
