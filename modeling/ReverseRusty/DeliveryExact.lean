import Mathlib
import ReverseRusty.Delivery

/-!
# ReverseRusty.DeliveryExact

Chunked delivery is complete and in order, whatever the sink answers.

`Protocol` is what a stream may send: chunks numbered from zero, of one to
`size` members, and none after one that was refused.  A collector keeps it
and holds what it has not sent yet (`InStep`), the coordinator keeps it with
the shards' chunks renumbered.

Main result: `chunked_delivery_exact`.
-/

namespace ReverseRusty

open List

open Dialogue

/-! ## what a sink received -/

def logOf (tr : Said SinkOp.Ans) : List (MatchChunk × Bool) :=
  tr.filterMap fun
    | ⟨.sendChunk chunk, answer⟩ => some (chunk, answer.isOk)
    | _ => none

def received (log : List (MatchChunk × Bool)) : List MatchChunk := log.map Prod.fst

def sentMembers (log : List (MatchChunk × Bool)) : List ExhaustiveMatch :=
  (received log).flatMap MatchChunk.members

/-- The sink took everything. -/
def AllTaken (log : List (MatchChunk × Bool)) : Prop := ∀ entry ∈ log, entry.2 = true

def Protocol (size : Nat) (tr : Said SinkOp.Ans) (op : SinkOp) : Prop :=
  ∀ chunk, op = .sendChunk chunk → AllTaken (logOf tr) ∧ chunk.sequence = (logOf tr).length ∧
    chunk.members ≠ [] ∧ chunk.members.length ≤ size

section Log

variable {tr : Said SinkOp.Ans} {log : List (MatchChunk × Bool)} {chunk : MatchChunk} {size : Nat}

@[simp] theorem logOf_nil : logOf [] = [] := rfl

variable {answer : Except ChunkSinkError Unit}

@[simp] theorem logOf_checkCancelled : logOf (tr ++ [⟨.checkCancelled, answer⟩]) = logOf tr := by
  simp [logOf]

@[simp] theorem logOf_pastDeadline {answer : Bool} :
    logOf (tr ++ [⟨.pastDeadline, answer⟩]) = logOf tr := by
  simp [logOf]

@[simp] theorem logOf_ensureConverged {answer : Except ShardError Unit} :
    logOf (tr ++ [⟨.ensureConverged, answer⟩]) = logOf tr := by
  simp [logOf]

@[simp] theorem logOf_sendChunk :
    logOf (tr ++ [⟨.sendChunk chunk, answer⟩]) = logOf tr ++ [(chunk, answer.isOk)] := by
  simp [logOf]

variable {taken : Bool}

@[simp] theorem received_concat : received (log ++ [(chunk, taken)]) = received log ++ [chunk] := by
  simp [received]

@[simp] theorem sentMembers_concat :
    sentMembers (log ++ [(chunk, taken)]) = sentMembers log ++ chunk.members := by
  simp [sentMembers]

theorem AllTaken.concat (h : AllTaken log) : AllTaken (log ++ [(chunk, true)]) := by
  intro entry hentry
  rcases mem_append.mp hentry with hentry | hentry
  · exact h entry hentry
  · rw [mem_singleton.mp hentry]

/-- What was allowed was allowed up to any point. -/
theorem Dialogue.Allowed.init {G : Said SinkOp.Ans → SinkOp → Prop} {said : Sigma SinkOp.Ans}
    (h : Allowed G (tr ++ [said])) : Allowed G tr := by
  intro before x after heq
  refine h before x (after ++ [said]) ?_
  rw [heq]
  simp

theorem Dialogue.Allowed.sequences (h : Allowed (Protocol size) tr) :
    (received (logOf tr)).map MatchChunk.sequence = List.range (received (logOf tr)).length := by
  induction tr using List.reverseRecOn with
  | nil => rfl
  | append_singleton tr said ih =>
    have ih := ih h.init
    obtain ⟨op, answer⟩ := said
    cases op with
    | sendChunk chunk =>
      obtain ⟨-, hseq, -⟩ := h tr ⟨.sendChunk chunk, answer⟩ [] rfl chunk rfl
      have hlen : (logOf tr).length = (received (logOf tr)).length := by simp [received]
      rw [logOf_sendChunk, received_concat, map_append, ih, length_append,
        length_singleton, range_succ, map_singleton, hseq, hlen]
    | checkCancelled | pastDeadline | ensureConverged => simpa using ih

end Log

/-! ## checksums -/

namespace DeliveryChecksum

theorem merge_observe (c d : DeliveryChecksum) (member : ExhaustiveMatch) :
    c.merge (d.observe member) = (c.merge d).observe member := by
  simp only [merge, observe, UInt64.xor_assoc, UInt64.add_assoc]

theorem merge_empty (c : DeliveryChecksum) : c.merge empty = c := by
  simp [merge, empty]

theorem merge_assoc (c d e : DeliveryChecksum) : (c.merge d).merge e = c.merge (d.merge e) := by
  simp [merge, UInt64.xor_assoc, UInt64.add_assoc]

theorem foldl_observe (c : DeliveryChecksum) (members : List ExhaustiveMatch) :
    members.foldl observe c = c.merge (ofMembers members) := by
  induction members using List.reverseRecOn with
  | nil => exact (merge_empty c).symm
  | append_singleton members member ih =>
    rw [ofMembers, foldl_append, foldl_append, ih, foldl_cons, foldl_cons,
      foldl_nil, foldl_nil, merge_observe, ofMembers]

theorem merge_ofMembers (xs ys : List ExhaustiveMatch) :
    (ofMembers xs).merge (ofMembers ys) = ofMembers (xs ++ ys) := by
  rw [← foldl_observe, ofMembers, ofMembers, foldl_append]

theorem observe_ofMembers (xs : List ExhaustiveMatch) (member : ExhaustiveMatch) :
    (ofMembers xs).observe member = ofMembers (xs ++ [member]) := by
  rw [ofMembers, ofMembers, foldl_append, foldl_cons, foldl_nil]

end DeliveryChecksum

/-! ## the collector -/

namespace ChunkCollector

/-- Nothing more is sent. -/
def Stopped (c : ChunkCollector) : Prop := c.error.isSome ∨ c.deadlineExpired

/-- A collector that goes on: what was accepted is what the sink took and what
the buffer holds. -/
structure Going (c : ChunkCollector) (accepted : List ExhaustiveMatch)
    (log : List (MatchChunk × Bool)) : Prop where
  taken : AllTaken log
  sequence : c.sequence = log.length
  members : sentMembers log ++ c.buffer = accepted
  total : c.exactTotal = accepted.length
  checksum : c.checksum = .ofMembers accepted

/-- A collector in the middle of a pass. -/
structure InStep (size : Nat) (c : ChunkCollector) (accepted : List ExhaustiveMatch)
    (log : List (MatchChunk × Bool)) : Prop where
  chunkSize : c.chunkSize = size
  summary : c.summary = none
  within : sentMembers log <+: accepted
  going : ¬c.Stopped → c.Going accepted log ∧ c.buffer.length < size

def Sums (accepted : List ExhaustiveMatch) (log : List (MatchChunk × Bool))
    (summary : ExhaustiveSummary) : Prop :=
  AllTaken log ∧ sentMembers log = accepted ∧
    summary = ⟨accepted.length, log.length, .ofMembers accepted⟩

section Collector

variable {size : Nat} {c : ChunkCollector} {accepted : List ExhaustiveMatch}
  {tr : Said SinkOp.Ans} {rules : MatchRules}

/-- After an operation that accepts nothing: the same collector, or a stopped
one. -/
structure Held (c c' : ChunkCollector) : Prop where
  source : c'.currentSource = c.currentSource
  same : ¬c'.Stopped → c' = c

theorem Held.refl (c : ChunkCollector) : Held c c := ⟨rfl, fun _ => rfl⟩

variable {c' : ChunkCollector}

theorem Held.trans {c c'' : ChunkCollector} (h : Held c c') (h' : Held c' c'') : Held c c'' where
  source := h'.source.trans h.source
  same hgo := by
    have heq := h'.same hgo
    rw [heq]
    exact h.same (heq ▸ hgo)

theorem InStep.stop (h : InStep size c accepted (logOf tr)) (hsize : c'.chunkSize = c.chunkSize)
    (hsummary : c'.summary = c.summary) (hstop : c'.Stopped) : InStep size c' accepted (logOf tr) :=
  ⟨hsize.trans h.chunkSize, hsummary.trans h.summary, h.within, fun hgo => absurd hstop hgo⟩

theorem InStep.pollStop (h : InStep size c accepted (logOf tr)) :
    Obeys (Protocol size) c.pollStop tr fun r tr' =>
      InStep size r.2 accepted (logOf tr') ∧ (r.1 = true ↔ r.2.Stopped) ∧ Held c r.2 ∧
        logOf tr' = logOf tr := by
  unfold ChunkCollector.pollStop
  split
  · next hstop => exact ⟨h, iff_of_true rfl hstop, .refl c, rfl⟩
  · next hgo =>
    simp only [Delivery.pastDeadline, Delivery.checkCancelled, obeys_bind, obeys_request]
    refine ⟨by simp [Protocol], fun late => ?_⟩
    cases late with
    | true =>
      have hstop : ({ c with deadlineExpired := true } : ChunkCollector).Stopped := .inr rfl
      refine ⟨?_, iff_of_true rfl hstop, ⟨rfl, fun hno => absurd hstop hno⟩, logOf_pastDeadline⟩
      rw [logOf_pastDeadline]
      exact h.stop rfl rfl hstop
    | false =>
      simp only [Bool.false_eq_true, if_false, obeys_bind, obeys_request]
      refine ⟨by simp [Protocol], fun answer => ?_⟩
      have hlog : logOf ((tr ++ [⟨.pastDeadline, false⟩]) ++ [⟨.checkCancelled, answer⟩]) =
          logOf tr := by
        rw [logOf_checkCancelled, logOf_pastDeadline]
      cases answer with
      | error error =>
        have hstop : ({ c with error := some error } : ChunkCollector).Stopped := .inl rfl
        refine ⟨?_, iff_of_true rfl hstop, ⟨rfl, fun hno => absurd hstop hno⟩, hlog⟩
        rw [hlog]
        exact h.stop rfl rfl hstop
      | ok =>
        refine ⟨?_, iff_of_false Bool.false_ne_true hgo, .refl c, hlog⟩
        rw [hlog]
        exact h

/-- A search under the collector's hook finds what it finds undisturbed, or
the collector has stopped. -/
theorem InStep.polling {α : Type} (h : InStep size c accepted (logOf tr)) (p : Polling α) :
    Obeys (Protocol size) (c.polling p) tr fun r tr' =>
      InStep size r.2 accepted (logOf tr') ∧ Held c r.2 ∧ (¬r.2.Stopped → r.1 = p.quiet) := by
  induction p generalizing c tr with
  | done value => exact ⟨h, .refl c, fun _ => rfl⟩
  | ask op next ih =>
    rw [ChunkCollector.polling, obeys_bind]
    refine h.pollStop.mono ?_
    rintro ⟨stop, c'⟩ tr' ⟨h', hstop, hheld, -⟩
    refine (ih stop h').mono ?_
    rintro ⟨value, c''⟩ tr'' ⟨h'', hheld', hquiet⟩
    refine ⟨h'', hheld.trans hheld', fun hgo => ?_⟩
    have hno : stop = false := by
      rw [← Bool.not_eq_true, hstop, ← hheld'.same hgo]
      exact hgo
    rw [hquiet hgo, Polling.quiet, hno]

theorem Going.flush (h : c.Going accepted (logOf tr)) (hgo : ¬c.Stopped) (hsize : c.chunkSize = size)
    (hsummary : c.summary = none) (hpos : 0 < size) (hlen : c.buffer.length ≤ size) :
    Obeys (Protocol size) c.flush tr fun c' tr' =>
      InStep size c' accepted (logOf tr') ∧ c'.currentSource = c.currentSource ∧
        (¬c'.Stopped → sentMembers (logOf tr') = accepted) := by
  unfold ChunkCollector.flush
  split
  · next hskip =>
    have hempty : c.buffer = [] := by
      rcases hskip with hskip | herror
      · exact List.isEmpty_iff.mp hskip
      · exact absurd (.inl herror) hgo
    have hsent : sentMembers (logOf tr) = accepted := by
      rw [← h.members, hempty, append_nil]
    refine ⟨⟨hsize, hsummary, hsent ▸ prefix_refl _, fun _ => ⟨h, ?_⟩⟩, rfl, fun _ => hsent⟩
    rw [hempty]
    exact hpos
  · next hsend =>
    rw [not_or] at hsend
    have hne : c.buffer ≠ [] := fun hempty => hsend.1 (List.isEmpty_iff.mpr hempty)
    simp only [Delivery.sendChunk, obeys_bind, obeys_request]
    refine ⟨?_, fun answer => ?_⟩
    · rintro chunk hchunk
      cases hchunk
      exact ⟨h.taken, h.sequence, hne, hlen⟩
    · have hsent : sentMembers (logOf tr ++ [(⟨c.sequence, c.buffer⟩, answer.isOk)]) = accepted := by
        rw [sentMembers_concat, h.members]
      cases answer with
      | error error =>
        have hstop : ({ c with buffer := [], error := some error } : ChunkCollector).Stopped :=
          .inl rfl
        refine ⟨⟨hsize, hsummary, ?_, fun hno => absurd hstop hno⟩, rfl, fun hno => absurd hstop hno⟩
        exact ⟨[], by rw [logOf_sendChunk, hsent, append_nil]⟩
      | ok =>
        refine ⟨⟨hsize, hsummary, ?_, fun _ => ⟨⟨?_, ?_, ?_, h.total, h.checksum⟩, hpos⟩⟩, rfl,
          fun _ => ?_⟩
        · exact ⟨[], by rw [logOf_sendChunk, hsent, append_nil]⟩
        · rw [logOf_sendChunk]
          exact h.taken.concat
        · rw [logOf_sendChunk, length_append, length_singleton, ← h.sequence]
        · rw [logOf_sendChunk, hsent, append_nil]
        · rw [logOf_sendChunk, hsent]

theorem InStep.extend (h : InStep size c accepted (logOf tr)) (hstop : c.Stopped)
    (more : List ExhaustiveMatch) : InStep size c (accepted ++ more) (logOf tr) :=
  ⟨h.chunkSize, h.summary, h.within.trans (prefix_append _ _), fun hgo => absurd hstop hgo⟩

theorem accept_stopped (hstop : c.Stopped) (logicalId : UInt64) :
    c.accept rules logicalId = pure c := by
  have hpoll : c.pollStop = pure (true, c) := if_pos hstop
  rw [ChunkCollector.accept, hpoll]
  rfl

theorem InStep.accept (h : InStep size c accepted (logOf tr)) (hpos : 0 < size) (logicalId : UInt64) :
    Obeys (Protocol size) (c.accept rules logicalId) tr fun c' tr' =>
      InStep size c' (accepted ++ [⟨logicalId, (rules.scorer logicalId).quiet⟩]) (logOf tr') ∧
        c'.currentSource = c.currentSource := by
  rw [ChunkCollector.accept, obeys_bind]
  refine h.pollStop.mono ?_
  rintro ⟨stop, c₁⟩ tr₁ ⟨h₁, hstop₁, hheld₁, -⟩
  cases stop with
  | true => exact ⟨h₁.extend (hstop₁.mp rfl) _, hheld₁.source⟩
  | false =>
    simp only [Bool.false_eq_true, if_false, obeys_bind]
    refine (h₁.polling (rules.scorer logicalId)).mono ?_
    rintro ⟨score, c₂⟩ tr₂ ⟨h₂, hheld₂, hquiet⟩
    simp only
    have hsource : c₂.currentSource = c.currentSource := hheld₂.source.trans hheld₁.source
    split
    · next hstop => exact ⟨h₂.extend hstop _, hsource⟩
    · next hgo =>
      obtain ⟨hgoing, hroom⟩ := h₂.going hgo
      have hscore : score = (rules.scorer logicalId).quiet := hquiet hgo
      rw [← hscore]
      -- one more accepted, in the buffer
      have hgoing' : Going { c₂ with
          exactTotal := c₂.exactTotal + 1
          checksum := c₂.checksum.observe ⟨logicalId, score⟩
          buffer := c₂.buffer ++ [⟨logicalId, score⟩] }
          (accepted ++ [⟨logicalId, score⟩]) (logOf tr₂) := by
        refine ⟨hgoing.taken, hgoing.sequence, ?_, ?_, ?_⟩
        · rw [← append_assoc, hgoing.members]
        · rw [length_append, length_singleton, hgoing.total]
        · rw [hgoing.checksum, DeliveryChecksum.observe_ofMembers]
      have hlen : (c₂.buffer ++ [(⟨logicalId, score⟩ : ExhaustiveMatch)]).length ≤ size := by
        rw [length_append, length_singleton]
        exact hroom
      split
      · refine (hgoing'.flush hgo h₂.chunkSize h₂.summary hpos hlen).mono ?_
        rintro c' tr' ⟨h', hsource', -⟩
        exact ⟨h', hsource'.trans hsource⟩
      · next hfull =>
        refine ⟨⟨h₂.chunkSize, h₂.summary, ?_, fun _ => ⟨hgoing', ?_⟩⟩, hsource⟩
        · exact h₂.within.trans (prefix_append _ _)
        · exact Nat.lt_of_le_of_ne hlen fun heq => hfull (heq.trans h₂.chunkSize.symm)

theorem InStep.counted (h : InStep size c accepted (logOf tr)) (emissions : Nat) :
    InStep size { c with physicalEmissions := emissions } accepted (logOf tr) :=
  ⟨h.chunkSize, h.summary, h.within, fun hgo =>
    ⟨⟨(h.going hgo).1.taken, (h.going hgo).1.sequence, (h.going hgo).1.members,
      (h.going hgo).1.total, (h.going hgo).1.checksum⟩, (h.going hgo).2⟩⟩

theorem InStep.onMatch (h : InStep size c accepted (logOf tr)) (hpos : 0 < size) (logicalId : UInt64) :
    Obeys (Protocol size) (c.onMatch rules logicalId) tr fun c' tr' =>
      InStep size c' (accepted ++ [⟨logicalId, (rules.scorer logicalId).quiet⟩]) (logOf tr') ∧
        c'.currentSource = c.currentSource := by
  rw [ChunkCollector.onMatch, obeys_bind]
  refine h.pollStop.mono ?_
  rintro ⟨stop, c₁⟩ tr₁ ⟨h₁, hstop₁, hheld₁, -⟩
  cases stop with
  | true => exact ⟨h₁.extend (hstop₁.mp rfl) _, hheld₁.source⟩
  | false =>
    refine ((h₁.counted (c₁.physicalEmissions + 1)).accept hpos logicalId).mono ?_
    rintro c' tr' ⟨h', hsource⟩
    exact ⟨h', hsource.trans hheld₁.source⟩

def rowMembers (rules : MatchRules) (source : Nat) (logicalId : UInt64) (localId : Nat) :
    List ExhaustiveMatch :=
  if (rules.canonical source localId logicalId).quiet then
    [⟨logicalId, (rules.scorer logicalId).quiet⟩]
  else []

theorem InStep.onMatchAt (h : InStep size c accepted (logOf tr)) (hpos : 0 < size)
    (logicalId : UInt64) (localId : Nat) :
    Obeys (Protocol size) (c.onMatchAt rules logicalId localId) tr fun c' tr' =>
      InStep size c' (accepted ++ rowMembers rules c.currentSource logicalId localId) (logOf tr') ∧
        c'.currentSource = c.currentSource := by
  rw [ChunkCollector.onMatchAt, obeys_bind]
  refine h.pollStop.mono ?_
  rintro ⟨stop, c₁⟩ tr₁ ⟨h₁, hstop₁, hheld₁, -⟩
  cases stop with
  | true => exact ⟨h₁.extend (hstop₁.mp rfl) _, hheld₁.source⟩
  | false =>
    simp only [Bool.false_eq_true, if_false, obeys_bind]
    refine ((h₁.counted (c₁.physicalEmissions + 1)).polling _).mono ?_
    rintro ⟨first, c₂⟩ tr₂ ⟨h₂, hheld₂, hquiet⟩
    have hsource : c₂.currentSource = c.currentSource := hheld₂.source.trans hheld₁.source
    by_cases hstop : c₂.Stopped
    · -- whatever was found, a stopped collector takes nothing
      cases first with
      | false => exact ⟨h₂.extend hstop _, hsource⟩
      | true =>
        rw [if_pos rfl, accept_stopped hstop]
        exact ⟨h₂.extend hstop _, hsource⟩
    · have hfirst : first = (rules.canonical c.currentSource localId logicalId).quiet := by
        rw [← hheld₁.source]
        exact hquiet hstop
      cases first with
      | true =>
        simp only [if_true, rowMembers, ← hfirst]
        refine (h₂.accept hpos logicalId).mono ?_
        rintro c' tr' ⟨h', hsource'⟩
        exact ⟨h', hsource'.trans hsource⟩
      | false =>
        simp only [rowMembers, ← hfirst, Bool.false_eq_true, if_false, append_nil]
        exact ⟨h₂, hsource⟩

theorem InStep.finish (h : InStep size c accepted (logOf tr)) (hpos : 0 < size) :
    Obeys (Protocol size) c.finish tr fun c' tr' =>
      sentMembers (logOf tr') <+: accepted ∧ ∀ summary, c'.summary = some summary →
        Sums accepted (logOf tr') summary := by
  have hend : ∀ {c' : ChunkCollector} {tr' : Said SinkOp.Ans},
      InStep size c' accepted (logOf tr') →
      (¬c'.Stopped → sentMembers (logOf tr') = accepted) →
      Obeys (Protocol size) (c'.pollStop >>= fun r => if r.1 then return r.2
        else return { r.2 with summary := some ⟨r.2.exactTotal, r.2.sequence, r.2.checksum⟩ }) tr'
        fun c' tr' => sentMembers (logOf tr') <+: accepted ∧ ∀ summary, c'.summary = some summary →
          Sums accepted (logOf tr') summary := by
    intro c' tr' h' hsent
    rw [obeys_bind]
    refine h'.pollStop.mono ?_
    rintro ⟨stop, c₁⟩ tr₁ ⟨h₁, hstop₁, hheld, hlog⟩
    cases stop with
    | true =>
      refine ⟨h₁.within, fun summary hsummary => ?_⟩
      rw [h₁.summary] at hsummary
      contradiction
    | false =>
      have hgo : ¬c₁.Stopped := fun hstop => absurd (hstop₁.mpr hstop) Bool.false_ne_true
      obtain ⟨hgoing, -⟩ := h₁.going hgo
      refine ⟨h₁.within, fun summary hsummary => ⟨hgoing.taken, ?_, ?_⟩⟩
      · rw [hlog]
        exact hsent (hheld.same hgo ▸ hgo)
      · rw [← Option.some.inj hsummary, hgoing.total, hgoing.sequence, hgoing.checksum]
  rw [ChunkCollector.finish, obeys_bind]
  refine h.pollStop.mono ?_
  rintro ⟨stop, c₁⟩ tr₁ ⟨h₁, hstop₁, hheld, hlog⟩
  cases stop with
  | true => exact hend h₁ fun hgo => absurd (hstop₁.mp rfl) hgo
  | false =>
    have hgo : ¬c₁.Stopped := fun hstop => absurd (hstop₁.mpr hstop) Bool.false_ne_true
    obtain ⟨hgoing, hroom⟩ := h₁.going hgo
    simp only [Bool.false_eq_true, if_false]
    rw [obeys_bind]
    refine (hgoing.flush hgo h₁.chunkSize h₁.summary hpos (Nat.le_of_lt hroom)).mono ?_
    rintro c₂ tr₂ ⟨h₂, -, hsent⟩
    exact hend h₂ hsent

end Collector

end ChunkCollector

/-! ## one engine's stream -/

def Streams {ε : Type} (size : Nat) (stream : Delivery (Except ε ExhaustiveSummary))
    (accepted : List ExhaustiveMatch) : Prop :=
  Obeys (Protocol size) stream [] fun found tr =>
    sentMembers (logOf tr) <+: accepted ∧ ∀ summary, found = .ok summary →
      AllTaken (logOf tr) ∧ sentMembers (logOf tr) = accepted ∧
        summary = ⟨accepted.length, (logOf tr).length, .ofMembers accepted⟩

section Engine

variable {size : Nat} {c : ChunkCollector} {accepted : List ExhaustiveMatch}
  {tr : Said SinkOp.Ans} {rules : MatchRules}

theorem runPass_inStep (h : c.InStep size accepted (logOf tr)) (hpos : 0 < size)
    (calls : List PassCall) :
    Obeys (Protocol size) (runPass rules c calls) tr fun r tr' =>
      sentMembers (logOf tr') <+: accepted ++ acceptedOf rules c.currentSource calls ∧
        (r.1 = false → r.2.InStep size (accepted ++ acceptedOf rules c.currentSource calls)
          (logOf tr')) := by
  induction calls generalizing c accepted tr with
  | nil =>
    rw [acceptedOf, append_nil]
    exact ⟨h.within, fun _ => h⟩
  | cons call calls ih =>
    cases call with
    | beginSource source =>
      have hsource : ({ c with currentSource := source } : ChunkCollector).InStep size accepted
          (logOf tr) :=
        ⟨h.chunkSize, h.summary, h.within, fun hgo =>
          ⟨{ (h.going hgo).1 with }, (h.going hgo).2⟩⟩
      exact ih hsource
    | onMatch logicalId =>
      rw [runPass, obeys_bind]
      refine (h.onMatch hpos logicalId).mono ?_
      rintro c' tr' ⟨h', hsource⟩
      refine (ih h').mono ?_
      rw [hsource, acceptedOf, append_assoc]
      exact fun _ _ hrest => hrest
    | onMatchAt logicalId localId =>
      rw [runPass, obeys_bind]
      refine (h.onMatchAt hpos logicalId localId).mono ?_
      rintro c' tr' ⟨h', hsource⟩
      refine (ih h').mono ?_
      have hrow : acceptedOf rules c.currentSource (.onMatchAt logicalId localId :: calls) =
          ChunkCollector.rowMembers rules c.currentSource logicalId localId ++
            acceptedOf rules c.currentSource calls := by
        rw [acceptedOf, ChunkCollector.rowMembers]
        split <;> rfl
      rw [hsource, hrow, append_assoc]
      exact fun _ _ hrest => hrest
    | shouldStop =>
      rw [runPass, obeys_bind]
      refine h.pollStop.mono ?_
      rintro ⟨stop, c'⟩ tr' ⟨h', hstop, hheld, -⟩
      cases stop with
      | true =>
        have hmore := h'.extend (hstop.mp rfl)
          (acceptedOf rules c.currentSource (.shouldStop :: calls))
        exact ⟨hmore.within, fun _ => hmore⟩
      | false =>
        refine (ih h').mono ?_
        rw [hheld.source, acceptedOf]
        exact fun _ _ hrest => hrest
    | checkDeadline =>
      simp only [runPass, Delivery.pastDeadline, obeys_bind, obeys_request]
      refine ⟨by simp [Protocol], fun late => ?_⟩
      have h' : c.InStep size accepted (logOf (tr ++ [⟨.pastDeadline, late⟩])) := by
        rw [logOf_pastDeadline]
        exact h
      cases late with
      | true => exact ⟨h'.within.trans (prefix_append _ _), by simp⟩
      | false =>
        refine (ih h').mono ?_
        rw [acceptedOf]
        exact fun _ _ hrest => hrest

theorem new_inStep (hpos : 0 < size) (htr : logOf tr = []) :
    (ChunkCollector.new size).InStep size [] (logOf tr) := by
  rw [htr]
  refine ⟨rfl, rfl, prefix_refl _, fun _ => ⟨⟨?_, rfl, rfl, rfl, rfl⟩, hpos⟩⟩
  intro entry hentry
  contradiction

theorem matchTitleCollect_streams (hpos : 0 < size) (htr : logOf tr = []) (calls : List PassCall) :
    Obeys (Protocol size) (matchTitleCollect rules (.new size) calls) tr fun found tr' =>
      sentMembers (logOf tr') <+: acceptedOf rules 0 calls ∧
        ∀ c' summary, found = .ok c' → c'.summary = some summary →
          ChunkCollector.Sums (acceptedOf rules 0 calls) (logOf tr') summary := by
  rw [matchTitleCollect, obeys_bind]
  refine (new_inStep hpos htr).pollStop.mono ?_
  rintro ⟨stop, c₁⟩ tr₁ ⟨h₁, -, hheld, -⟩
  have hsource : c₁.currentSource = 0 := hheld.source
  have hnothing := h₁.within.trans ( nil_prefix (l := acceptedOf rules 0 calls))
  cases stop with
  | true =>
    refine ⟨hnothing, fun c' summary hc' hsummary => ?_⟩
    cases hc'
    rw [h₁.summary] at hsummary
    contradiction
  | false =>
    simp only [Bool.false_eq_true, if_false, Delivery.pastDeadline, obeys_bind, obeys_request]
    refine ⟨by simp [Protocol], fun late => ?_⟩
    have h₂ : c₁.InStep size [] (logOf (tr₁ ++ [⟨.pastDeadline, late⟩])) := by
      rw [logOf_pastDeadline]
      exact h₁
    cases late with
    | true => exact ⟨by rw [logOf_pastDeadline]; exact hnothing, by simp⟩
    | false =>
      simp only [Bool.false_eq_true, if_false]
      rw [obeys_bind]
      refine (runPass_inStep h₂ hpos calls).mono ?_
      rintro ⟨cancelled, c₃⟩ tr₃ ⟨hwithin, h₃⟩
      rw [hsource, nil_append] at hwithin h₃
      cases cancelled with
      | true => exact ⟨hwithin, by simp⟩
      | false =>
        simp only [Bool.false_eq_true, if_false]
        rw [obeys_bind]
        refine ((h₃ rfl).finish hpos).mono ?_
        rintro c₄ tr₄ ⟨hwithin, hsummary⟩
        refine ⟨hwithin, fun c' summary hc' => ?_⟩
        cases hc'
        exact hsummary summary

/-- **An engine streams the matches it accepts.** -/
theorem tryMatchTitleChunks_streams (rules : MatchRules) (chunkSize : Nat) (calls : List PassCall) :
    Streams chunkSize (tryMatchTitleChunks rules chunkSize calls) (acceptedOf rules 0 calls) := by
  have hrefuse : ∀ {tr : Said SinkOp.Ans} {error : ExhaustiveMatchError}, logOf tr = [] →
      sentMembers (logOf tr) <+: acceptedOf rules 0 calls ∧
        ∀ summary, (Except.error error : Except _ ExhaustiveSummary) = .ok summary →
          ChunkCollector.Sums (acceptedOf rules 0 calls) (logOf tr) summary := by
    intro tr error htr
    rw [htr]
    exact ⟨ nil_prefix, by simp⟩
  rw [Streams, tryMatchTitleChunks]
  split
  · exact hrefuse rfl
  · next hsize =>
    rw [not_or] at hsize
    have hpos : 0 < chunkSize := Nat.pos_of_ne_zero hsize.1
    simp only [Delivery.pastDeadline, Delivery.checkCancelled, obeys_bind, obeys_request]
    refine ⟨by simp [Protocol], fun late => ?_⟩
    cases late with
    | true => exact hrefuse logOf_pastDeadline
    | false =>
      simp only [Bool.false_eq_true, if_false, obeys_bind, obeys_request]
      refine ⟨by simp [Protocol], fun answer => ?_⟩
      have hlog : logOf (([] ++ [⟨.pastDeadline, false⟩]) ++ [⟨.checkCancelled, answer⟩]) = [] := by
        rw [logOf_checkCancelled, logOf_pastDeadline, logOf_nil]
      cases answer with
      | error error => exact hrefuse hlog
      | ok =>
        simp only
        rw [obeys_bind]
        refine (matchTitleCollect_streams hpos hlog calls).mono ?_
        rintro (error | c) tr ⟨hwithin, hsummary⟩
        · exact ⟨hwithin, by simp⟩
        · simp only
          split
          · exact ⟨hwithin, by simp⟩
          · refine ⟨hwithin, fun summary hfound => ?_⟩
            refine hsummary c summary rfl ?_
            unfold ChunkCollector.result at hfound
            split at hfound
            · contradiction
            · next heq =>
              rw [heq]
              exact congrArg some (Except.ok.inj hfound)
            · contradiction

end Engine

/-! ## the coordinator -/

structure Carries (before : List (MatchChunk × Bool)) (size : Nat) (a : ResequencingSink)
    (shard all : List (MatchChunk × Bool)) : Prop where
  members : sentMembers all = sentMembers before ++ sentMembers shard
  taken : AllTaken shard → AllTaken all
  maxMembers : a.maxMembers = size
  protocolError : a.protocolError = none
  counts : AllTaken shard → a.nextLocal = shard.length ∧ a.nextGlobal = all.length ∧
    a.observedTotal = (sentMembers shard).length ∧ a.observedChecksum = .ofMembers (sentMembers shard)

section Coordinator

variable {α : Type} {size : Nat} {before : List (MatchChunk × Bool)} {a : ResequencingSink}
  {accepted done : List ExhaustiveMatch} {tr shardTr : Said SinkOp.Ans}

/-- **A stream that keeps the protocol keeps it renumbered.** -/
theorem through_obeys {p : Delivery α} {Q : α → Said SinkOp.Ans → Prop}
    (h : Obeys (Protocol size) p shardTr Q)
    (hcarries : Carries before size a (logOf shardTr) (logOf tr)) :
    Obeys (Protocol size) (a.through p) tr fun r tr' =>
      ∃ shardTr', Q r.1 shardTr' ∧ Carries before size r.2 (logOf shardTr') (logOf tr') := by
  induction p generalizing a shardTr tr with
  | done value => exact ⟨shardTr, h, hcarries⟩
  | ask op next ih =>
    obtain ⟨hallowed, hnext⟩ := h
    cases op with
    | sendChunk chunk =>
      obtain ⟨htaken, hsequence, hne, hlen⟩ := hallowed chunk rfl
      obtain ⟨hlocal, hglobal, htotal, hchecksum⟩ := hcarries.counts htaken
      have hcount : ¬(chunk.members.length = 0 ∨ a.maxMembers < chunk.members.length) := by
        rw [hcarries.maxMembers, length_eq_zero_iff]
        rintro (hempty | hlong)
        · exact hne hempty
        · omega
      rw [ResequencingSink.through, obeys_bind, ResequencingSink.sendChunk,
        if_neg (not_not.mpr (hsequence.trans hlocal.symm)), if_neg hcount]
      simp only [Delivery.sendChunk, obeys_bind, obeys_request]
      refine ⟨?_, fun answer => ?_⟩
      · rintro forwarded hforwarded
        cases hforwarded
        exact ⟨hcarries.taken htaken, hglobal, hne, hlen⟩
      · have hmembers : sentMembers (logOf tr ++ [(⟨a.nextGlobal, chunk.members⟩, answer.isOk)]) =
            sentMembers before ++ sentMembers (logOf shardTr ++ [(chunk, answer.isOk)]) := by
          rw [sentMembers_concat, sentMembers_concat, hcarries.members, append_assoc]
        cases answer with
        | error error =>
          refine ih (.error error) (hnext _) ⟨?_, ?_, hcarries.maxMembers,
            hcarries.protocolError, ?_⟩
          · rw [logOf_sendChunk, logOf_sendChunk]
            exact hmembers
          all_goals
            rw [logOf_sendChunk]
            intro htaken'
            have hrefused := htaken' (chunk, false) (mem_append_right _ (mem_singleton.mpr rfl))
            contradiction
        | ok =>
          refine ih (.ok ()) (hnext _) ⟨?_, fun _ => ?_, hcarries.maxMembers,
            hcarries.protocolError, fun _ => ⟨?_, ?_, ?_, ?_⟩⟩
          · rw [logOf_sendChunk, logOf_sendChunk]
            exact hmembers
          · rw [logOf_sendChunk]
            exact (hcarries.taken htaken).concat
          · rw [logOf_sendChunk, length_append, length_singleton, ← hlocal]
          · rw [logOf_sendChunk, length_append, length_singleton, ← hglobal]
          · rw [logOf_sendChunk, sentMembers_concat, length_append, ← htotal]
          · rw [logOf_sendChunk, sentMembers_concat, ← DeliveryChecksum.merge_ofMembers,
              ← hchecksum, DeliveryChecksum.foldl_observe]
    | checkCancelled | pastDeadline | ensureConverged =>
      exact ⟨by simp [Protocol], fun answer => ih answer (hnext answer) (by simpa using hcarries)⟩

/-- What the coordinator has of the shards before: all their matches. -/
structure MergedStream.Holds (merged : MergedStream) (done : List ExhaustiveMatch)
    (log : List (MatchChunk × Bool)) : Prop where
  taken : AllTaken log
  members : sentMembers log = done
  sequence : merged.nextSequence = log.length
  total : merged.exactTotal = done.length
  checksum : merged.checksum = .ofMembers done

@[simp] theorem obeys_run_liftExcept {ε : Type} {found : Except ε α} {G : Said SinkOp.Ans → SinkOp → Prop}
    {Q : Except ε α → Said SinkOp.Ans → Prop} :
    Obeys G (liftExcept found).run tr Q ↔ Q found tr := Iff.rfl

/-- A rule about chunks alone. -/
structure Lenient (G : Said SinkOp.Ans → SinkOp → Prop) : Prop where
  checkCancelled : ∀ tr, G tr .checkCancelled
  pastDeadline : ∀ tr, G tr .pastDeadline
  ensureConverged : ∀ tr, G tr .ensureConverged

theorem lenient_protocol : Lenient (Protocol size) :=
  ⟨by simp [Protocol], by simp [Protocol], by simp [Protocol]⟩

section Lenient

variable {G : Said SinkOp.Ans → SinkOp → Prop} (hG : Lenient G)

include hG

/-- Asking for convergence sends nothing. -/
theorem ensureConverged_obeys :
    Obeys G (ExceptT.mk Delivery.ensureConverged).run tr fun _ tr' => logOf tr' = logOf tr :=
  ⟨hG.ensureConverged tr, fun _ => logOf_ensureConverged⟩

theorem checkDeadline_obeys : Obeys G checkDeadline.run tr fun _ tr' => logOf tr' = logOf tr := by
  rw [checkDeadline, obeys_run_bind]
  refine ⟨hG.pastDeadline tr, fun late => ?_⟩
  cases late <;> exact logOf_pastDeadline

theorem waitForLock_obeys (waits : Nat) :
    Obeys G (waitForLock waits).run tr fun _ tr' => logOf tr' = logOf tr := by
  induction waits generalizing tr with
  | zero => exact rfl
  | succ waits ih =>
    rw [waitForLock, obeys_run_bind]
    refine ⟨hG.checkCancelled tr, fun answer => ?_⟩
    cases answer with
    | error error => exact logOf_checkCancelled
    | ok =>
      change Obeys _ (checkDeadline >>= fun _ => waitForLock waits).run _ _
      rw [obeys_run_bind]
      refine (checkDeadline_obeys hG).mono ?_
      rintro (error | value) tr' hlog
      · exact hlog.trans logOf_checkCancelled
      · refine ih.mono fun _ tr'' hlog' => ?_
        exact hlog'.trans (hlog.trans logOf_checkCancelled)

/-- **The frame of the coordinator's stream**: nothing is sent around the shards,
so what holds of their streams holds of the whole. -/
theorem tryPercolateFilteredAll_obeys (size layoutWaits viewWaits : Nat) {shards : List ShardStream}
    (Sent : List (MatchChunk × Bool) → Prop)
    (Merged : MergedStream → List (MatchChunk × Bool) → Prop) (hnothing : Sent [])
    (hstream : ∀ tr, logOf tr = [] →
      Obeys G (streamShards size ⟨0, 0, .empty⟩ shards).run tr fun found tr' =>
        Sent (logOf tr') ∧ ∀ merged, found = .ok merged → Merged merged (logOf tr')) :
    Obeys G (tryPercolateFilteredAll size layoutWaits viewWaits shards).run [] fun found tr' =>
      Sent (logOf tr') ∧ ∀ summary, found = .ok summary → ∃ merged, Merged merged (logOf tr') ∧
        summary = ⟨merged.exactTotal, merged.nextSequence, merged.checksum⟩ := by
  have hquiet {tr : Said SinkOp.Ans} {error : ShardError} (htr : logOf tr = []) :
      Sent (logOf tr) ∧ ∀ summary, (Except.error error : Except _ ExhaustiveSummary) = .ok summary →
        ∃ merged, Merged merged (logOf tr) ∧
          summary = ⟨merged.exactTotal, merged.nextSequence, merged.checksum⟩ := by
    rw [htr]
    exact ⟨hnothing, by simp⟩
  rw [tryPercolateFilteredAll]
  split
  · exact hquiet rfl
  rw [obeys_run_bind]
  refine (waitForLock_obeys hG layoutWaits).mono ?_
  rintro (error | ⟨⟩) tr₁ hlog₁
  · exact hquiet hlog₁
  simp only [obeys_run_bind]
  refine (waitForLock_obeys hG (viewWaits + 1)).mono ?_
  rintro (error | ⟨⟩) tr₂ hlog₂
  · exact hquiet (hlog₂.trans hlog₁)
  simp only
  refine (ensureConverged_obeys hG).mono ?_
  rintro (error | ⟨⟩) tr₃ hlog₃
  · exact hquiet (hlog₃.trans (hlog₂.trans hlog₁))
  simp only
  refine (checkDeadline_obeys hG).mono ?_
  rintro (error | ⟨⟩) tr₄ hlog₄
  · exact hquiet (hlog₄.trans (hlog₃.trans (hlog₂.trans hlog₁)))
  simp only
  refine (hstream tr₄ (hlog₄.trans (hlog₃.trans (hlog₂.trans hlog₁)))).mono ?_
  rintro (error | merged) tr₅ ⟨hsent, hmerged⟩
  · exact ⟨hsent, by simp⟩
  have hholds := hmerged merged rfl
  simp only
  refine (ensureConverged_obeys hG).mono ?_
  rintro (error | ⟨⟩) tr₆ hlog₆
  · exact ⟨hlog₆ ▸ hsent, by simp⟩
  simp only
  refine (checkDeadline_obeys hG).mono ?_
  rintro (error | ⟨⟩) tr₇ hlog₇
  · exact ⟨(hlog₇.trans hlog₆) ▸ hsent, by simp⟩
  rw [← hlog₆, ← hlog₇] at hsent hholds
  exact ⟨hsent, fun summary hsummary => ⟨merged, hholds, (Except.ok.inj hsummary).symm⟩⟩

end Lenient

variable {merged : MergedStream}

theorem streamShard_obeys {shard : ShardStream} (h : merged.Holds done (logOf tr))
    (hshard : Streams size shard accepted) :
    Obeys (Protocol size) (streamShard size merged shard).run tr fun found tr' =>
      sentMembers (logOf tr') <+: done ++ accepted ∧
        ∀ merged', found = .ok merged' → merged'.Holds (done ++ accepted) (logOf tr') := by
  have hwithin : sentMembers (logOf tr) <+: done ++ accepted := by
    rw [h.members]
    exact prefix_append _ _
  rw [streamShard, obeys_run_bind]
  refine (ensureConverged_obeys lenient_protocol).mono ?_
  rintro (error | ⟨⟩) tr₁ hlog₁
  · exact ⟨hlog₁ ▸ hwithin, by simp⟩
  simp only [obeys_run_bind]
  refine (checkDeadline_obeys lenient_protocol).mono ?_
  rintro (error | ⟨⟩) tr₂ hlog₂
  · exact ⟨(hlog₂.trans hlog₁) ▸ hwithin, by simp⟩
  rw [← hlog₁, ← hlog₂] at h
  have hstart : Carries (logOf tr₂) size (.new merged.nextSequence size) (logOf []) (logOf tr₂) := by
    refine ⟨?_, fun _ => h.taken, rfl, rfl, fun _ => ⟨rfl, h.sequence, rfl, rfl⟩⟩
    rw [logOf_nil]
    exact (append_nil _).symm
  simp only [obeys_run_lift]
  refine (through_obeys hshard hstart).mono ?_
  rintro ⟨part, adapter⟩ tr₃ ⟨shardTr, ⟨hpart, hsummary⟩, hcarries⟩
  have hsent : sentMembers (logOf tr₃) <+: done ++ accepted := by
    rw [hcarries.members, h.members]
    exact (prefix_append_right_inj done).mpr hpart
  cases part with
  | error error => exact ⟨hsent, by simp⟩
  | ok summary =>
    obtain ⟨htaken, hall, rfl⟩ := hsummary summary rfl
    obtain ⟨hlocal, hglobal, htotal, hchecksum⟩ := hcarries.counts htaken
    have herror := hcarries.protocolError
    simp only at hlocal hglobal htotal hchecksum herror
    have hvalid : adapter.validate ⟨accepted.length, (logOf shardTr).length, .ofMembers accepted⟩ =
        .ok () := by
      simp [ResequencingSink.validate, herror, hlocal, htotal, hchecksum, hall]
    simp only [obeys_run_liftExcept, hvalid]
    refine (ensureConverged_obeys lenient_protocol).mono ?_
    rintro (error | ⟨⟩) tr₄ hlog₄
    · exact ⟨hlog₄ ▸ hsent, by simp⟩
    simp only
    split
    · refine ⟨hlog₄ ▸ hsent, fun merged' hmerged => ?_⟩
      cases hmerged
      refine ⟨?_, ?_, ?_, ?_, ?_⟩
      · rw [hlog₄]
        exact hcarries.taken htaken
      · rw [hlog₄, hcarries.members, h.members, hall]
      · rw [hlog₄]
        exact hglobal
      · rw [h.total, length_append]
      · rw [h.checksum, DeliveryChecksum.merge_ofMembers]
    · exact ⟨hlog₄ ▸ hsent, by simp⟩

variable {shards : List (ShardStream × List ExhaustiveMatch)}

theorem streamShards_obeys (h : merged.Holds done (logOf tr))
    (hshards : ∀ shard ∈ shards, Streams size shard.1 shard.2) :
    Obeys (Protocol size) (streamShards size merged (shards.map Prod.fst)).run tr fun found tr' =>
      sentMembers (logOf tr') <+: done ++ shards.flatMap Prod.snd ∧
        ∀ merged', found = .ok merged' →
          merged'.Holds (done ++ shards.flatMap Prod.snd) (logOf tr') := by
  induction shards generalizing merged done tr with
  | nil =>
    rw [flatMap_nil, append_nil]
    refine ⟨h.members ▸ prefix_refl _, fun merged' hmerged => ?_⟩
    cases hmerged
    exact h
  | cons shard shards ih =>
    rw [map_cons, streamShards, obeys_run_bind, flatMap_cons, ← append_assoc]
    refine (streamShard_obeys h (hshards shard mem_cons_self)).mono ?_
    rintro (error | merged') tr' ⟨hwithin, hmerged⟩
    · exact ⟨hwithin.trans (prefix_append _ _), by simp⟩
    · exact ih (hmerged merged' rfl) fun shard hshard => hshards shard (mem_cons_of_mem _ hshard)

/-- **The coordinator streams the matches of its shards**, one shard after the
other. -/
theorem tryPercolateFilteredAll_streams (layoutWaits viewWaits : Nat)
    (hshards : ∀ shard ∈ shards, Streams size shard.1 shard.2) :
    Streams size (tryPercolateFilteredAll size layoutWaits viewWaits (shards.map Prod.fst)).run
      (shards.flatMap Prod.snd) := by
  refine (tryPercolateFilteredAll_obeys lenient_protocol size layoutWaits viewWaits
    (sentMembers · <+: shards.flatMap Prod.snd)
    (fun merged log => merged.Holds (shards.flatMap Prod.snd) log)
    nil_prefix fun tr htr => ?_).mono ?_
  · have hstart : MergedStream.Holds ⟨0, 0, .empty⟩ [] (logOf tr) := by
      rw [htr]
      refine ⟨fun entry hentry => ?_, rfl, rfl, rfl, rfl⟩
      contradiction
    exact streamShards_obeys hstart hshards
  · rintro found tr ⟨hwithin, hmerged⟩
    refine ⟨hwithin, fun summary hfound => ?_⟩
    obtain ⟨merged, hholds, rfl⟩ := hmerged summary hfound
    refine ⟨hholds.taken, hholds.members, ?_⟩
    rw [hholds.total, hholds.sequence, hholds.checksum]

end Coordinator

/-! ## shards that may say anything -/

/-- The chunks the sink took. -/
def taken (log : List (MatchChunk × Bool)) : List MatchChunk := (log.filter Prod.snd).map Prod.fst

def takenMembers (log : List (MatchChunk × Bool)) : List ExhaustiveMatch :=
  (taken log).flatMap MatchChunk.members

/-- A chunk has the number of chunks that were taken before it. -/
def Numbered (tr : Said SinkOp.Ans) (op : SinkOp) : Prop :=
  ∀ chunk, op = .sendChunk chunk → chunk.sequence = (taken (logOf tr)).length

theorem lenient_numbered : Lenient Numbered :=
  ⟨by simp [Numbered], by simp [Numbered], by simp [Numbered]⟩

section Shards

variable {tr : Said SinkOp.Ans} {log before : List (MatchChunk × Bool)} {a : ResequencingSink}

theorem taken_refused (chunk : MatchChunk) : taken (log ++ [(chunk, false)]) = taken log := by
  simp [taken]

theorem taken_accepted (chunk : MatchChunk) :
    taken (log ++ [(chunk, true)]) = taken log ++ [chunk] := by
  simp [taken]

theorem takenMembers_refused (chunk : MatchChunk) :
    takenMembers (log ++ [(chunk, false)]) = takenMembers log := by
  simp [takenMembers, taken_refused]

theorem takenMembers_accepted (chunk : MatchChunk) :
    takenMembers (log ++ [(chunk, true)]) = takenMembers log ++ chunk.members := by
  simp [takenMembers, taken_accepted]

theorem Dialogue.Allowed.taken_sequences (h : Allowed Numbered tr) :
    (taken (logOf tr)).map MatchChunk.sequence = List.range (taken (logOf tr)).length := by
  induction tr using List.reverseRecOn with
  | nil => rfl
  | append_singleton tr said ih =>
    have ih := ih h.init
    obtain ⟨op, answer⟩ := said
    cases op with
    | sendChunk chunk =>
      have hseq := h tr ⟨.sendChunk chunk, answer⟩ [] rfl chunk rfl
      rw [logOf_sendChunk]
      cases answer with
      | error error => exact (taken_refused chunk).symm ▸ ih
      | ok =>
        have hmore : taken (logOf tr ++ [(chunk, true)]) = _ := taken_accepted chunk
        simp [Except.isOk, Except.toBool, hmore, ih, hseq, range_succ]
    | checkCancelled | pastDeadline | ensureConverged => simpa using ih

/-- What an adapter counted since its shard began, when `before` had been sent. -/
structure ResequencingSink.Counts (a : ResequencingSink) (before log : List (MatchChunk × Bool)) :
    Prop where
  global : a.nextGlobal = (taken log).length
  chunks : (taken before).length + a.nextLocal = (taken log).length
  total : (takenMembers before).length + a.observedTotal = (takenMembers log).length
  checksum : (DeliveryChecksum.ofMembers (takenMembers before)).merge a.observedChecksum =
    .ofMembers (takenMembers log)

/-- **An adapter numbers and counts** what the sink takes from any shard. -/
theorem through_numbered {α : Type} (p : Delivery α) (h : a.Counts before (logOf tr)) :
    Obeys Numbered (a.through p) tr fun r tr' => r.2.Counts before (logOf tr') := by
  induction p generalizing a tr with
  | done value => exact h
  | ask op next ih =>
    cases op with
    | sendChunk chunk =>
      rw [ResequencingSink.through, obeys_bind, ResequencingSink.sendChunk]
      -- a chunk that is refused here is not sent on
      split
      · exact ih _ ⟨h.global, h.chunks, h.total, h.checksum⟩
      split
      · exact ih _ ⟨h.global, h.chunks, h.total, h.checksum⟩
      simp only [Delivery.sendChunk, obeys_bind, obeys_request]
      refine ⟨?_, fun answer => ?_⟩
      · rintro forwarded hforwarded
        cases hforwarded
        exact h.global
      · cases answer with
        | error error =>
          refine ih _ ?_
          rw [logOf_sendChunk]
          change a.Counts before (logOf tr ++ [(⟨a.nextGlobal, chunk.members⟩, false)])
          exact ⟨by rw [taken_refused, h.global], by rw [taken_refused, h.chunks],
            by rw [takenMembers_refused, h.total], by rw [takenMembers_refused, h.checksum]⟩
        | ok =>
          refine ih _ ?_
          rw [logOf_sendChunk]
          change ResequencingSink.Counts _ before
            (logOf tr ++ [(⟨a.nextGlobal, chunk.members⟩, true)])
          refine ⟨?_, ?_, ?_, ?_⟩
          · rw [taken_accepted, length_append, length_singleton, ← h.global]
          · rw [taken_accepted, length_append, length_singleton, ← h.chunks, Nat.add_assoc]
          · rw [takenMembers_accepted, length_append, ← h.total, Nat.add_assoc]
          · rw [takenMembers_accepted, ← DeliveryChecksum.merge_ofMembers, ← h.checksum,
              DeliveryChecksum.foldl_observe, DeliveryChecksum.merge_assoc]
    | checkCancelled | pastDeadline | ensureConverged =>
      exact ⟨by simp [Numbered], fun answer => ih answer (by simpa using h)⟩

/-- What the coordinator has counted is what the sink took. -/
structure MergedStream.Counts (merged : MergedStream) (log : List (MatchChunk × Bool)) : Prop where
  sequence : merged.nextSequence = (taken log).length
  total : merged.exactTotal = (takenMembers log).length
  checksum : merged.checksum = .ofMembers (takenMembers log)

/-- A summary that is accepted says what the adapter counted. -/
theorem ResequencingSink.validate_eq_ok {expected : ExhaustiveSummary}
    (h : a.validate expected = .ok ()) :
    expected = ⟨a.observedTotal, a.nextLocal, a.observedChecksum⟩ := by
  unfold validate at h
  split at h
  · contradiction
  · split at h
    · contradiction
    · next hsame =>
      simp only [not_or, not_not] at hsame
      obtain ⟨total, chunks, checksum⟩ := expected
      obtain ⟨rfl, rfl, rfl⟩ := hsame
      rfl

variable {size : Nat} {merged : MergedStream}

theorem streamShard_numbered (shard : ShardStream) (h : merged.Counts (logOf tr)) :
    Obeys Numbered (streamShard size merged shard).run tr fun found tr' =>
      ∀ merged', found = .ok merged' → merged'.Counts (logOf tr') := by
  rw [streamShard, obeys_run_bind]
  refine (ensureConverged_obeys lenient_numbered).mono ?_
  rintro (error | ⟨⟩) tr₁ hlog₁
  · simp
  simp only [obeys_run_bind]
  refine (checkDeadline_obeys lenient_numbered).mono ?_
  rintro (error | ⟨⟩) tr₂ hlog₂
  · simp
  rw [← hlog₁, ← hlog₂] at h
  have hstart : (ResequencingSink.new merged.nextSequence size).Counts (logOf tr₂) (logOf tr₂) :=
    ⟨h.sequence, rfl, rfl, DeliveryChecksum.merge_empty _⟩
  simp only [obeys_run_lift]
  refine (through_numbered shard hstart).mono ?_
  rintro ⟨part, adapter⟩ tr₃ hcounts
  cases part with
  | error error => simp
  | ok summary =>
    simp only [obeys_run_liftExcept]
    cases hvalid : adapter.validate summary with
    | error error => simp
    | ok =>
      simp only
      refine (ensureConverged_obeys lenient_numbered).mono ?_
      rintro (error | ⟨⟩) tr₄ hlog₄
      · simp
      simp only
      split
      · intro merged' hmerged
        cases hmerged
        rw [ResequencingSink.validate_eq_ok hvalid, hlog₄]
        exact ⟨hcounts.global, h.total ▸ hcounts.total, h.checksum ▸ hcounts.checksum⟩
      · simp

theorem streamShards_numbered (shards : List ShardStream) (h : merged.Counts (logOf tr)) :
    Obeys Numbered (streamShards size merged shards).run tr fun found tr' =>
      ∀ merged', found = .ok merged' → merged'.Counts (logOf tr') := by
  induction shards generalizing merged tr with
  | nil =>
    intro merged' hmerged
    cases hmerged
    exact h
  | cons shard shards ih =>
    rw [streamShards, obeys_run_bind]
    refine (streamShard_numbered shard h).mono ?_
    rintro (error | merged') tr' hmerged
    · simp
    · exact ih (hmerged merged' rfl)

end Shards

/-- What a sink saw of a coordinator whose shards may say anything: what it took
is numbered from zero, and a summary has its number of chunks and of matches and
their checksum. -/
structure Certified {ε : Type} (found : Except ε ExhaustiveSummary)
    (log : List (MatchChunk × Bool)) : Prop where
  sequences : (taken log).map MatchChunk.sequence = List.range (taken log).length
  totals : ∀ summary, found = .ok summary →
    summary = ⟨(takenMembers log).length, (taken log).length, .ofMembers (takenMembers log)⟩

theorem tryPercolateFilteredAll_certified {σ : Type}
    (machine : (op : SinkOp) → σ → SinkOp.Ans op × σ) (s : σ) (size layoutWaits viewWaits : Nat)
    (shards : List ShardStream) :
    Certified ((tryPercolateFilteredAll size layoutWaits viewWaits shards).run.run machine s []).1
      (logOf ((tryPercolateFilteredAll size layoutWaits viewWaits shards).run.run
        machine s []).2.2) := by
  have hobeys := tryPercolateFilteredAll_obeys lenient_numbered size layoutWaits viewWaits
    (fun _ => True) MergedStream.Counts trivial
    fun tr htr => (streamShards_numbered shards ⟨by rw [htr]; rfl, by rw [htr]; rfl,
      by rw [htr]; rfl⟩).mono fun found tr' h => ⟨trivial, h⟩
  obtain ⟨⟨-, hsummary⟩, hallowed⟩ := Obeys.run hobeys allowed_nil machine s
  refine ⟨hallowed.taken_sequences, fun summary hfound => ?_⟩
  obtain ⟨merged, hcounts, rfl⟩ := hsummary summary hfound
  rw [hcounts.total, hcounts.sequence, hcounts.checksum]

/-! ## runs -/

/-- What a sink saw of a stream: chunks numbered from zero, a part of the
matches in order, and all of them with their totals if there is a summary. -/
structure Delivered {ε : Type} (accepted : List ExhaustiveMatch)
    (found : Except ε ExhaustiveSummary) (log : List (MatchChunk × Bool)) : Prop where
  sequences : (received log).map MatchChunk.sequence = List.range (received log).length
  within : sentMembers log <+: accepted
  taken : ∀ summary, found = .ok summary → AllTaken log
  complete : ∀ summary, found = .ok summary → sentMembers log = accepted
  totals : ∀ summary, found = .ok summary →
    summary = ⟨accepted.length, (received log).length, .ofMembers accepted⟩

theorem Streams.delivered {ε σ : Type} {size : Nat} {stream : Delivery (Except ε ExhaustiveSummary)}
    {accepted : List ExhaustiveMatch} (h : Streams size stream accepted)
    (machine : (op : SinkOp) → σ → SinkOp.Ans op × σ) (s : σ) :
    Delivered accepted (stream.run machine s []).1 (logOf (stream.run machine s []).2.2) := by
  obtain ⟨⟨hwithin, hsummary⟩, hallowed⟩ := Obeys.run h allowed_nil machine s
  refine ⟨hallowed.sequences, hwithin, fun summary hfound => (hsummary summary hfound).1,
    fun summary hfound => (hsummary summary hfound).2.1, fun summary hfound => ?_⟩
  rw [(hsummary summary hfound).2.2, received, length_map]

theorem percolateAllOwned_streams (rules : MatchRules) (chunkSize : Nat) (calls : List PassCall) :
    Streams chunkSize (percolateAllOwned rules chunkSize calls) (acceptedOf rules 0 calls) := by
  rw [Streams, percolateAllOwned, obeys_bind]
  refine (tryMatchTitleChunks_streams rules chunkSize calls).mono ?_
  rintro found tr ⟨hwithin, hsummary⟩
  refine ⟨hwithin, fun summary hfound => hsummary summary ?_⟩
  cases found with
  | error error => contradiction
  | ok found => exact congrArg Except.ok (Except.ok.inj hfound)

/-- **Chunked delivery is complete and in order.**  Whatever the sink, the
clock and the cluster answer, the chunks of one engine are numbered from zero
and are the start of the matches it accepts, and there is a summary only if
all of them were taken.  So are the chunks of the coordinator for the matches
of all its shards, one shard after the other, and the summary has their
number and their checksum.  When the shards are remote and may send and report
anything, what the sink takes is numbered from zero all the same, and a summary
has the number and the checksum of what it took. -/
theorem chunked_delivery_exact {σ : Type} (machine : (op : SinkOp) → σ → SinkOp.Ans op × σ) (s : σ)
    (chunkSize : Nat) :
    (∀ rules calls,
      Delivered (acceptedOf rules 0 calls)
        ((tryMatchTitleChunks rules chunkSize calls).run machine s []).1
        (logOf ((tryMatchTitleChunks rules chunkSize calls).run machine s []).2.2)) ∧
    (∀ (layoutWaits viewWaits : Nat) (shards : List (MatchRules × List PassCall)),
      Delivered (shards.flatMap fun shard => acceptedOf shard.1 0 shard.2)
        ((tryPercolateFilteredAll chunkSize layoutWaits viewWaits
          (shards.map fun shard => percolateAllOwned shard.1 chunkSize shard.2)).run.run machine s []).1
        (logOf ((tryPercolateFilteredAll chunkSize layoutWaits viewWaits
          (shards.map fun shard => percolateAllOwned shard.1 chunkSize shard.2)).run.run
            machine s []).2.2)) ∧
    ∀ (layoutWaits viewWaits : Nat) (shards : List ShardStream),
      Certified
        ((tryPercolateFilteredAll chunkSize layoutWaits viewWaits shards).run.run machine s []).1
        (logOf ((tryPercolateFilteredAll chunkSize layoutWaits viewWaits shards).run.run
          machine s []).2.2) := by
  refine ⟨fun rules calls => (tryMatchTitleChunks_streams rules chunkSize calls).delivered machine s,
    fun layoutWaits viewWaits shards => ?_,
    tryPercolateFilteredAll_certified machine s chunkSize⟩
  have hshards : ∀ shard ∈ shards.map fun shard =>
      (percolateAllOwned shard.1 chunkSize shard.2, acceptedOf shard.1 0 shard.2),
      Streams chunkSize shard.1 shard.2 := by
    intro shard hshard
    obtain ⟨⟨rules, calls⟩, -, rfl⟩ := mem_map.mp hshard
    exact percolateAllOwned_streams rules chunkSize calls
  have hstreams := tryPercolateFilteredAll_streams layoutWaits viewWaits hshards
  rw [map_map, flatMap_map] at hstreams
  exact hstreams.delivered machine s

end ReverseRusty
