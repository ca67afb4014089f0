import ReverseRusty.BatchWords

/-!
# ReverseRusty.PredicateSafe

A stored program that passed the check is safe to run: the verifier, the batch
evaluator, the ranking walk and the graph walks they call read inside its words
(`exact/predicate.rs`).

The check establishes that the words are the program of some clauses
(`encodes_of_validate`); from there each walker's lemma says where its cursor
ends.

* `validated_safe`: the four walkers together.
-/

namespace ReverseRusty

open List

/-- From the start of any graph of a list at the cursor, `skip_graph` lands on
the next item, `take_graph` takes the graph's words, and the walk over them
stays inside them. -/
def SkipsExactly (words : List UInt32) (i : Nat) (gs : List PhraseGraph) : Prop :=
  ∀ front g back, gs = front ++ g :: back →
    skipGraph words (i + (front.flatMap encodeGraph).length) =
      .ok (i + ((front ++ [g]).flatMap encodeGraph).length) ∧
    takeGraph words (i + (front.flatMap encodeGraph).length) =
      .ok (encodeGraph g, i + ((front ++ [g]).flatMap encodeGraph).length) ∧
    ∀ t, ∃ outcome, graphMatches? (encodeGraph g) t = some outcome

variable {words : List UInt32}

theorem LiesAt.skipsExactly {i : Nat} {gs : List PhraseGraph}
    (h : LiesAt words i (gs.flatMap encodeGraph)) (hgs : ∀ g ∈ gs, g.Counted) :
    SkipsExactly words i gs := by
  rintro front g back rfl
  have hg := hgs g (mem_append_right _ mem_cons_self)
  rw [flatMap_append, flatMap_cons] at h
  have hlies := h.right.left
  have hnext : i + ((front ++ [g]).flatMap encodeGraph).length =
      i + (front.flatMap encodeGraph).length + (encodeGraph g).length := by
    simp only [flatMap_append, flatMap_cons, flatMap_nil, append_nil,
      length_append]
    omega
  rw [hnext]
  exact ⟨skipGraph_encode hlies hg, takeGraph_encode hlies hg,
    fun t => ⟨_, graphMatches?_encode hg t⟩⟩

/-- Where the quoted lists of a program stand, and that its graphs are skipped
exactly, the last one to the end of the words. -/
theorem Encodes.skips {ex : Extracted} (h : Encodes words ex) (hquoted : ex.hasPhrases = true) :
    ∃ i j, wordAt words i = .ok (wordCount ex.requiredPhrases.length) ∧
      SkipsExactly words (i + 1) ex.requiredPhrases ∧
      j = i + 1 + (ex.requiredPhrases.flatMap encodeGraph).length ∧
      wordAt words j = .ok (wordCount ex.forbiddenPhrases.length) ∧
      SkipsExactly words (j + 1) ex.forbiddenPhrases ∧
      j + 1 + (ex.forbiddenPhrases.flatMap encodeGraph).length = words.length := by
  obtain ⟨hreqGraphs, hforbGraphs⟩ := forall_mem_append.mp h.counted.graphs
  obtain ⟨-, k, -, -, -, -, -, -, hlies, hend⟩ := h.body.body
  obtain ⟨j, hj, hreq, hrequired, hforb, hforbidden, hlast⟩ := hlies.quoted hquoted
  refine ⟨k, j, hreq, hrequired.skipsExactly hreqGraphs, hj, hforb,
    hforbidden.skipsExactly hforbGraphs, ?_⟩
  rw [hlast, hend, h.ending]

/-- **Accepted programs are safe to run.**  On every title the verifier
answers; on every batch, with bitmaps of one length, the evaluator returns and
keeps the lengths; the ranking walk answers and its cursor ends at the end of
the words; and from the start of every quoted graph the skip lands exactly on
the next item. -/
theorem validated_safe {words : List UInt32} (h : validatePredicate words = .ok ()) :
    (∀ v, ∃ answer, verifyPredicateAt words v = .ok answer) ∧
    (∀ (w : Nat) (lookup : FeatureId → Option (List BitmapWord)),
      (∀ f titles, lookup f = some titles → titles.length = w) → ∀ s : Buffers, s.Sized w →
        ∃ s', evalPredicateBatchAt lookup words s = .ok s' ∧ s'.Sized w) ∧
    (∀ proxy, ∃ counts, rankWalk words proxy = .ok (counts, words.length)) ∧
    (predicateHasPhrases words = true → ∃ ex i j, Encodes words ex ∧
      wordAt words i = .ok (wordCount ex.requiredPhrases.length) ∧
      SkipsExactly words (i + 1) ex.requiredPhrases ∧
      j = i + 1 + (ex.requiredPhrases.flatMap encodeGraph).length ∧
      wordAt words j = .ok (wordCount ex.forbiddenPhrases.length) ∧
      SkipsExactly words (j + 1) ex.forbiddenPhrases ∧
      j + 1 + (ex.forbiddenPhrases.flatMap encodeGraph).length = words.length) := by
  by_cases hne : words = []
  · subst hne
    exact ⟨fun v => ⟨true, rfl⟩, fun w lookup _ s hs => ⟨s, rfl, hs⟩, fun proxy => ⟨_, rfl⟩, nofun⟩
  · obtain ⟨ex, hex⟩ := encodes_of_validate h hne
    refine ⟨fun v => ⟨_, hex.verify v⟩, fun w lookup hl s hs => ?_,
      fun proxy => ⟨_, hex.rank proxy⟩, fun hquoted => ?_⟩
    · obtain ⟨s', hrun, hs', -⟩ := evalPredicateBatchAt_encode hl hex hs
      exact ⟨s', hrun, hs'⟩
    · obtain ⟨i, j, hskips⟩ := hex.skips (hex.quoted ▸ hquoted)
      exact ⟨ex, i, j, hex, hskips⟩

theorem one_phrase_safe :
    ∃ counts, rankWalk [2, 0, 0, 1, 1, 1, 0, 1, 1, 7, 0] 0 = .ok (counts, 11) :=
  (@validated_safe [2, 0, 0, 1, 1, 1, 0, 1, 1, 7, 0] rfl).2.2.1 0

end ReverseRusty
