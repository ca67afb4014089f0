import ReverseRusty.BatchEval
import ReverseRusty.SegmentMatch

/-!
# ReverseRusty.BatchKernel

The columnar kernel (`segment/broad_batch/kernel.rs`): one lane of one
segment against a whole batch of titles.  Candidates are reached once per
distinct feature of the batch, rows that ask for nothing but the feature
that reached them are accepted without verification, the batch as a whole
may rule a row out, and the rest are verified by bitmap.

The kernel runs on any `BroadBackend`; `Reads` says that a backend answers
like a list of rows.  `exists_evalOneSegment` is the result about it: the
kernel answers, and emits a row for a title exactly when the row is reached
and its bitmap has the title.
-/

namespace ReverseRusty

open List

/-- The lanes evaluated by the kernel. -/
inductive Lane where
  | broad
  | hot
deriving DecidableEq, Repr

def Lane.index : Lane → ProbeLane
  | .broad => .broad
  | .hot => .hot

/-- What the kernel asks of a segment. -/
structure BroadBackend (w : Nat) where
  /-- the ids posted under a key, none when the anchor filter excludes it -/
  posting : Lane → UInt64 → Checked (List Nat)
  alive : Nat → Checked Bool
  hasDupGroups : Bool
  membersOf : Nat → List Nat
  /-- whether a row reached through a feature asks for nothing else -/
  vacuousAccept : Lane → Nat → FeatureId → Checked Bool
  logicalId : Nat → Checked UInt64
  placement : Nat → Checked QueryPlacement
  passesTags : Nat → TagPredicate → Checked Bool
  canMatchBatch : Nat → TitleBatch w → Checked Bool
  evalInto : Nat → TitleBatch w → TagPredicate → Checked (BitVec w)

def setBitsOf {w : Nat} (bits : BitVec w) : List Nat := (List.range w).filter bits.getLsbD

theorem mem_setBitsOf {w : Nat} {bits : BitVec w} {t : Nat} :
    t ∈ setBitsOf bits ↔ t < w ∧ bits.getLsbD t = true := by
  rw [setBitsOf, mem_filter, mem_range]

/-- Whether a row without quoted or other clauses may be accepted on being
reached: its anchor is masked in the broad lane, unmasked in the hot
one. -/
def Body.vacuousAccept (r : Body) : Lane → FeatureId → Bool
  | .broad, _ => r.isPureAnchor
  | .hot, anchor => r.pureTailAnchor anchor

/-! ## the kernel -/

def reach (epoch : UInt32) : List Nat → List UInt32 → Checked (List UInt32 × List Nat)
  | [], seen => .ok (seen, [])
  | i :: is, seen =>
    match seen[i]? with
    | none => .error .outOfRange
    | some stamp =>
      if stamp = epoch then reach epoch is seen
      else do
        let (seen, fresh) ← reach epoch is (seen.set i epoch)
        return (seen, i :: fresh)

/-- Options of the columnar lanes. -/
structure KernelOptions where
  materialize : Bool
  prefilter : Bool
deriving DecidableEq, Repr

/-- Stamps, rows awaiting bitmap verification, and emissions. -/
structure LaneState where
  seen : List UInt32
  nonPure : List Nat
  out : List (Nat × UInt64)

namespace BroadBackend

section Kernel

variable {w : Nat} (B : BroadBackend w) (lane : Lane) (b : TitleBatch w) (opts : KernelOptions)
  (pred : TagPredicate) (policy : Nat → QueryPlacement → Bool) (epoch : UInt32)

def emitRow (bits : BitVec w) (i : Nat) : Checked (List (Nat × UInt64)) := do
  if !(← B.alive i) then return []
  if !(← B.passesTags i pred) then return []
  let logical ← B.logicalId i
  let placement ← B.placement i
  return ((setBitsOf bits).filter fun t => policy t placement).map fun t => (t, logical)

def emitFromBits (bits : BitVec w) (i : Nat) : Checked (List (Nat × UInt64)) := do
  let own ← B.emitRow pred policy bits i
  if B.hasDupGroups then
    let members ← (B.membersOf i).mapM (B.emitRow pred policy bits)
    return own ++ members.flatten
  else return own

def bodyGroupHasLiveRow (i : Nat) : Checked Bool := do
  if ← B.alive i then return true
  if B.hasDupGroups then (B.membersOf i).anyM B.alive else return false

/-- Queue a row for verification, unless the batch as a whole rules it
out. -/
def enqueue (s : LaneState) (i : Nat) : Checked LaneState := do
  let possible ← if opts.prefilter then B.canMatchBatch i b else pure true
  return if possible then { s with nonPure := s.nonPure ++ [i] } else s

/-- Accept a reached row by the feature that reached it, or queue it.  The
universal key has no feature. -/
def candidate (anchor : Option (FeatureId × BitVec w)) (s : LaneState) (i : Nat) :
    Checked LaneState := do
  if !(← B.bodyGroupHasLiveRow i) then return s
  match anchor with
  | some (f, bits) =>
    let accepted ← if opts.materialize then B.vacuousAccept lane i f else pure false
    if accepted then
      let emitted ← B.emitFromBits pred policy bits i
      return { s with out := s.out ++ emitted }
    else B.enqueue b opts s i
  | none => B.enqueue b opts s i

def probeKey (s : LaneState) (key : UInt64 × Option (FeatureId × BitVec w)) :
    Checked LaneState := do
  let ids ← B.posting lane key.1
  let (seen, fresh) ← reach epoch ids s.seen
  fresh.foldlM (B.candidate lane b opts pred policy key.2) { s with seen }

/-- Verify a queued row and emit it.  On a segment with groups the body is
verified without tags, which each member then passes on its own. -/
def evaluate (i : Nat) : Checked (List (Nat × UInt64)) := do
  if B.hasDupGroups then
    let bits ← B.evalInto i b .empty
    B.emitFromBits pred policy bits i
  else
    let bits ← B.evalInto i b pred
    let logical ← B.logicalId i
    let placement ← B.placement i
    return ((setBitsOf bits).filter fun t => policy t placement).map fun t => (t, logical)

/-- The keys a lane probes for a batch: one per distinct feature, and first
the universal one in the broad lane. -/
def batchKeys : List (UInt64 × Option (FeatureId × BitVec w)) :=
  (if lane = .broad then [(universalSig, none)] else []) ++
    b.rows.map fun row => (sigKey [row.1], some row)

/-- **Evaluate one lane of one segment on a batch**, with the stamps it leaves. -/
def evalLane (seen : List UInt32) : Checked (List UInt32 × List (Nat × UInt64)) := do
  let s ← (batchKeys lane b).foldlM (B.probeKey lane b opts pred policy epoch) ⟨seen, [], []⟩
  let verified ← s.nonPure.mapM (B.evaluate b pred policy)
  return (s.seen, s.out ++ verified.flatten)

def evalOneSegment (seen : List UInt32) : Checked (List (Nat × UInt64)) := do
  let r ← B.evalLane lane b opts pred policy epoch seen
  return r.2

end Kernel

end BroadBackend

/-! ## backends that answer like rows -/

structure RowView where
  size : Nat
  row : Nat → Row
  alive : Nat → Bool
  grouped : Bool
  members : Nat → List Nat
  postings : Lane → UInt64 → List Nat

namespace RowView

variable (V : RowView)

/-- The rows that share a posted row's body. -/
def group (i : Nat) : List Nat := i :: if V.grouped then V.members i else []

/-- Whether a posted body has a live row. -/
def live (i : Nat) : Bool := (V.group i).any V.alive

/-- A row of the group of `i` is emitted for title `t` of a bitmap. -/
def Emits {w : Nat} (pred : TagPredicate) (policy : Nat → QueryPlacement → Bool) (bits : BitVec w)
    (i : Nat) (x : Nat × UInt64) : Prop :=
  ∃ m ∈ V.group i, V.alive m = true ∧ pred.matches (V.row m).tags = true ∧ x.1 < w ∧
    bits.getLsbD x.1 = true ∧ policy x.1 (V.row m).placement = true ∧ x.2 = (V.row m).logical

end RowView

/-- The backend answers like the rows of `V`. -/
structure BroadBackend.Reads {w : Nat} (B : BroadBackend w) (V : RowView) : Prop where
  posting : ∀ lane key, key ≠ 0 → B.posting lane key = .ok (V.postings lane key)
  posted : ∀ lane key, key ≠ 0 → ∀ i ∈ V.postings lane key, i < V.size
  alive : ∀ i < V.size, B.alive i = .ok (V.alive i)
  grouped : B.hasDupGroups = V.grouped
  members : B.membersOf = V.members
  member : ∀ i < V.size, ∀ m ∈ V.members i, m < V.size
  vacuous : ∀ i < V.size, ∀ lane f,
    B.vacuousAccept lane i f = .ok ((V.row i).body.vacuousAccept lane f)
  logicalId : ∀ i < V.size, B.logicalId i = .ok (V.row i).logical
  placement : ∀ i < V.size, B.placement i = .ok (V.row i).placement
  tags : ∀ i < V.size, ∀ pred, B.passesTags i pred = .ok (pred.matches (V.row i).tags)
  canMatch : ∀ i < V.size, ∀ b, B.canMatchBatch i b = .ok ((V.row i).body.canMatchBatch b)
  eval : ∀ i < V.size, ∀ b pred, B.evalInto i b pred = evalBatch b (V.row i).body (V.row i).tags pred

/-! ## reaching rows -/

theorem mem_flatten_of_forall₂ {α β : Type} {R : α → List β → Prop} {xs : List α}
    {yss : List (List β)} (h : List.Forall₂ R xs yss) {y : β} {Q : α → Prop}
    (hR : ∀ x ys, R x ys → (y ∈ ys ↔ Q x)) : y ∈ yss.flatten ↔ ∃ x ∈ xs, Q x := by
  induction h with
  | nil => simp
  | cons hx _ ih => simp [hR _ _ hx, ih]

theorem reach_spec {epoch : UInt32} {ids : List Nat} {seen : List UInt32}
    (h : ∀ i ∈ ids, i < seen.length) :
    ∃ seen' fresh, reach epoch ids seen = .ok (seen', fresh) ∧ seen'.length = seen.length ∧
      (∀ i, i ∈ fresh ↔ i ∈ ids ∧ seen[i]? ≠ some epoch) ∧
      ∀ i, seen'[i]? = some epoch ↔ seen[i]? = some epoch ∨ i ∈ ids := by
  induction ids generalizing seen with
  | nil => exact ⟨seen, [], rfl, rfl, by simp, by simp⟩
  | cons i ids ih =>
    have hi : i < seen.length := h i mem_cons_self
    have hids : ∀ j ∈ ids, j < seen.length := fun j hj => h j (mem_cons_of_mem i hj)
    have hget : seen[i]? = some seen[i] := getElem?_eq_getElem hi
    by_cases hstamp : seen[i] = epoch
    · obtain ⟨seen', fresh, hreach, hlen, hfresh, hstamps⟩ := ih hids
      refine ⟨seen', fresh, by simp only [reach, hget, hstamp, if_true, hreach], hlen, ?_, ?_⟩
      · intro j
        rw [hfresh, mem_cons]
        grind
      · intro j
        rw [hstamps, mem_cons]
        grind
    · obtain ⟨seen', fresh, hreach, hlen, hfresh, hstamps⟩ :=
        @ih (seen.set i epoch) (by simpa using hids)
      simp only [length_set, getElem?_set] at hlen hfresh hstamps
      refine ⟨seen', i :: fresh, ?_, hlen, ?_, ?_⟩
      · simp only [reach, hget, hstamp, if_false, hreach]
        rfl
      · intro j
        rw [mem_cons, mem_cons, hfresh]
        grind
      · intro j
        rw [hstamps, mem_cons]
        grind

theorem ne_zero_of_mem_batchKeys {w : Nat} {lane : Lane} {b : TitleBatch w}
    {key : UInt64 × Option (FeatureId × BitVec w)} (h : key ∈ BroadBackend.batchKeys lane b) :
    key.1 ≠ 0 := by
  rw [BroadBackend.batchKeys, mem_append, mem_map] at h
  rcases h with h | ⟨row, -, rfl⟩
  · split at h
    · rw [mem_singleton.mp h]
      exact sigKey_ne_zero []
    · contradiction
  · exact sigKey_ne_zero _

/-! ## what the kernel emits -/

namespace BroadBackend.Reads

section Steps

variable {w : Nat} {B : BroadBackend w} {V : RowView} (hB : B.Reads V) {i : Nat}
  (hi : i < V.size) (pred : TagPredicate) (policy : Nat → QueryPlacement → Bool)

include hB hi

theorem group_lt : ∀ m ∈ V.group i, m < V.size := by
  intro m hm
  rw [RowView.group, mem_cons] at hm
  rcases hm with rfl | hm
  · exact hi
  · split at hm
    · exact hB.member i hi m hm
    · contradiction

theorem exists_emitRow (bits : BitVec w) :
    ∃ out, B.emitRow pred policy bits i = .ok out ∧ ∀ x, x ∈ out ↔ V.alive i = true ∧
      pred.matches (V.row i).tags = true ∧ x.1 < w ∧ bits.getLsbD x.1 = true ∧
        policy x.1 (V.row i).placement = true ∧ x.2 = (V.row i).logical := by
  simp only [BroadBackend.emitRow, hB.alive i hi, hB.tags i hi, hB.logicalId i hi,
    hB.placement i hi, ok_bind]
  cases V.alive i with
  | false => exact ⟨[], rfl, by simp⟩
  | true =>
    cases pred.matches (V.row i).tags with
    | false => exact ⟨[], rfl, by simp⟩
    | true =>
      refine ⟨_, rfl, fun x => ?_⟩
      simp only [mem_map, mem_filter, mem_setBitsOf, Prod.ext_iff]
      grind

theorem exists_emitFromBits (bits : BitVec w) :
    ∃ out, B.emitFromBits pred policy bits i = .ok out ∧
      ∀ x, x ∈ out ↔ V.Emits pred policy bits i x := by
  obtain ⟨own, hown, hmem⟩ := hB.exists_emitRow hi pred policy bits
  rw [BroadBackend.emitFromBits, hown, hB.grouped, hB.members]
  cases hg : V.grouped with
  | false => exact ⟨own, rfl, fun x => by simp [RowView.Emits, RowView.group, hg, hmem]⟩
  | true =>
    obtain ⟨outs, houts, hall⟩ := exists_mapM fun m (hm : m ∈ V.members i) =>
      hB.exists_emitRow (hB.member i hi m hm) pred policy bits
    refine ⟨own ++ outs.flatten, by simp [houts], fun x => ?_⟩
    rw [mem_append, hmem, mem_flatten_of_forall₂ hall fun m out h => h x]
    simp [RowView.Emits, RowView.group, hg]

theorem bodyGroupHasLiveRow_eq : B.bodyGroupHasLiveRow i = .ok (V.live i) := by
  have hany : ∀ ms : List Nat, (∀ m ∈ ms, m < V.size) → ms.anyM B.alive = .ok (ms.any V.alive) := by
    intro ms hms
    induction ms with
    | nil => rfl
    | cons m ms ih =>
      rw [List.anyM, hB.alive m (hms m mem_cons_self), any_cons]
      cases V.alive m with
      | true => rfl
      | false => exact ih fun m' hm' => hms m' (mem_cons_of_mem m hm')
  rw [BroadBackend.bodyGroupHasLiveRow, hB.alive i hi, hB.grouped, hB.members, RowView.live,
    RowView.group, any_cons]
  cases V.alive i with
  | true => rfl
  | false =>
    cases V.grouped with
    | false => rfl
    | true => exact hany _ (hB.member i hi)

theorem exists_evaluate {b : TitleBatch w} {bits : BitVec w} (hlive : V.live i = true)
    (hquoted : predicateHasPhrases (V.row i).body.predicate = false)
    (hbits : evalBatch b (V.row i).body (V.row i).tags .empty = .ok bits) :
    ∃ out, B.evaluate b pred policy i = .ok out ∧
      ∀ x, x ∈ out ↔ V.Emits pred policy bits i x := by
  rw [BroadBackend.evaluate, hB.grouped]
  cases hg : V.grouped with
  | true =>
    obtain ⟨out, hout, hmem⟩ := hB.exists_emitFromBits hi pred policy bits
    exact ⟨out, by simp [hB.eval i hi, hbits, hout], hmem⟩
  | false =>
    have halive : V.alive i = true := by simpa [RowView.live, RowView.group, hg] using hlive
    have hgroup : V.group i = [i] := by simp [RowView.group, hg]
    simp only [Bool.false_eq_true, if_false, hB.logicalId i hi, hB.placement i hi, RowView.Emits,
      hgroup, mem_singleton, exists_eq_left, halive, true_and]
    rw [hB.eval i hi, evalBatch_eq_ite hquoted, hbits]
    cases pred.matches (V.row i).tags with
    | false => exact ⟨[], by simp [setBitsOf], by simp⟩
    | true =>
      refine ⟨_, rfl, fun x => ?_⟩
      simp only [mem_map, mem_filter, mem_setBitsOf, Prod.ext_iff]
      grind

end Steps

section Run

variable {w : Nat} {B : BroadBackend w} {V : RowView} (hB : B.Reads V) (lane : Lane)
  (b : TitleBatch w) (opts : KernelOptions) (pred : TagPredicate)
  (policy : Nat → QueryPlacement → Bool) (eval : Nat → BitVec w)
  (hquoted : ∀ i < V.size, V.live i = true →
    predicateHasPhrases (V.row i).body.predicate = false)
  (heval : ∀ i < V.size, V.live i = true →
    evalBatch b (V.row i).body (V.row i).tags .empty = .ok (eval i))

/-- What a state has emitted or will emit when its queue is verified. -/
def Pending (V : RowView) (pred : TagPredicate) (policy : Nat → QueryPlacement → Bool)
    (eval : Nat → BitVec w) (s : LaneState) (x : Nat × UInt64) : Prop :=
  x ∈ s.out ∨ ∃ i ∈ s.nonPure, V.Emits pred policy (eval i) i x

/-- The kernel's shortcuts agree with the bitmaps: a row accepted by its
anchor has the anchor's titles, and a row the batch rules out has none. -/
structure Shortcuts (V : RowView) (lane : Lane) (b : TitleBatch w) (opts : KernelOptions)
    (eval : Nat → BitVec w) : Prop where
  vacuous : opts.materialize = true → ∀ row ∈ b.rows, ∀ i ∈ V.postings lane (sigKey [row.1]),
    (V.row i).body.vacuousAccept lane row.1 = true → V.live i = true →
      ∀ t < w, row.2.getLsbD t = (eval i).getLsbD t
  prefilter : ∀ i < V.size, V.live i = true → (V.row i).body.canMatchBatch b = false →
    ∀ t < w, (eval i).getLsbD t = false

def Queued (V : RowView) (s : LaneState) : Prop :=
  ∀ i ∈ s.nonPure, i < V.size ∧ V.live i = true

include hB

variable {s : LaneState}

theorem exists_enqueue {i : Nat} (hi : i < V.size) (hlive : V.live i = true) (hs : Queued V s) :
    ∃ s', B.enqueue b opts s i = .ok s' ∧ s'.seen = s.seen ∧ Queued V s' ∧
      (((V.row i).body.canMatchBatch b = false → ∀ t < w, (eval i).getLsbD t = false) →
        ∀ x, Pending V pred policy eval s' x ↔
          Pending V pred policy eval s x ∨ V.Emits pred policy (eval i) i x) := by
  have hqueue : Queued V { s with nonPure := s.nonPure ++ [i] } := by
    intro j hj
    rcases mem_append.mp hj with hj | hj
    · exact hs j hj
    · rw [mem_singleton.mp hj]
      exact ⟨hi, hlive⟩
  have hpending : ∀ x, Pending V pred policy eval { s with nonPure := s.nonPure ++ [i] } x ↔
      Pending V pred policy eval s x ∨ V.Emits pred policy (eval i) i x := by
    intro x
    simp [Pending, or_and_right, exists_or, or_assoc]
  simp only [BroadBackend.enqueue, hB.canMatch i hi]
  cases opts.prefilter with
  | false => exact ⟨_, rfl, rfl, hqueue, fun _ => hpending⟩
  | true =>
    cases hmatch : (V.row i).body.canMatchBatch b with
    | true => exact ⟨_, rfl, rfl, hqueue, fun _ => hpending⟩
    | false =>
      refine ⟨s, rfl, rfl, hs, fun hnone x => ?_⟩
      have hnothing : ¬V.Emits pred policy (eval i) i x := by
        rintro ⟨m, -, -, -, ht, hbit, -⟩
        rw [hnone rfl x.1 ht] at hbit
        contradiction
      simp [hnothing]

/-- A reached row is accepted from its anchor's bitmap, dropped or
queued; either way its titles are accounted for. -/
theorem exists_candidate (anchor : Option (FeatureId × BitVec w)) {i : Nat} (hi : i < V.size)
    (hs : Queued V s) :
    ∃ s', B.candidate lane b opts pred policy anchor s i = .ok s' ∧ s'.seen = s.seen ∧
      Queued V s' ∧
      ((∀ f bits, anchor = some (f, bits) → opts.materialize = true →
          (V.row i).body.vacuousAccept lane f = true → V.live i = true →
            ∀ t < w, bits.getLsbD t = (eval i).getLsbD t) →
        (V.live i = true → (V.row i).body.canMatchBatch b = false →
          ∀ t < w, (eval i).getLsbD t = false) →
        ∀ x, Pending V pred policy eval s' x ↔
          Pending V pred policy eval s x ∨ V.Emits pred policy (eval i) i x) := by
  simp only [BroadBackend.candidate, hB.bodyGroupHasLiveRow_eq hi, ok_bind]
  cases hlive : V.live i with
  | false =>
    refine ⟨s, rfl, rfl, hs, fun _ _ x => ?_⟩
    have hnothing : ¬V.Emits pred policy (eval i) i x := by
      rintro ⟨m, hm, halive, -⟩
      rw [RowView.live, any_eq_false] at hlive
      exact hlive m hm halive
    simp [hnothing]
  | true =>
    obtain ⟨s₁, hs₁, hseen, hqueued, hpending⟩ := hB.exists_enqueue b opts pred policy eval hi hlive hs
    cases anchor with
    | none => exact ⟨s₁, hs₁, hseen, hqueued, fun _ hnone => hpending (hnone rfl)⟩
    | some fb =>
      obtain ⟨f, bits⟩ := fb
      cases hmat : opts.materialize with
      | false => exact ⟨s₁, hs₁, hseen, hqueued, fun _ hnone => hpending (hnone rfl)⟩
      | true =>
        cases hvac : (V.row i).body.vacuousAccept lane f with
        | false =>
          exact ⟨s₁, by simp [hB.vacuous i hi, hvac, hs₁], hseen, hqueued,
            fun _ hnone => hpending (hnone rfl)⟩
        | true =>
          obtain ⟨out, hout, hmem⟩ := hB.exists_emitFromBits hi pred policy bits
          refine ⟨{ s with out := s.out ++ out }, by simp [hB.vacuous i hi, hvac, hout], rfl,
            hs, fun hsame _ x => ?_⟩
          have hbits : V.Emits pred policy bits i x ↔ V.Emits pred policy (eval i) i x := by
            have hget := hsame f bits rfl rfl hvac rfl
            unfold RowView.Emits
            refine exists_congr fun m => and_congr_right fun _ => and_congr_right fun _ =>
              and_congr_right fun _ => and_congr_right fun ht => ?_
            rw [hget x.1 ht]
          simp only [Pending, mem_append, hmem, hbits]
          exact or_right_comm

theorem exists_probeKey (epoch : UInt32) {key : UInt64 × Option (FeatureId × BitVec w)}
    (hkey : key ∈ BroadBackend.batchKeys lane b) (hlen : V.size ≤ s.seen.length) (hs : Queued V s) :
    ∃ s', B.probeKey lane b opts pred policy epoch s key = .ok s' ∧
      s'.seen.length = s.seen.length ∧ Queued V s' ∧
      (∀ i, s'.seen[i]? = some epoch ↔ s.seen[i]? = some epoch ∨ i ∈ V.postings lane key.1) ∧
      (Shortcuts V lane b opts eval → ∀ x, Pending V pred policy eval s' x ↔
        Pending V pred policy eval s x ∨ ∃ i ∈ V.postings lane key.1,
          s.seen[i]? ≠ some epoch ∧ V.Emits pred policy (eval i) i x) := by
  have hposted := hB.posted lane key.1 (ne_zero_of_mem_batchKeys hkey)
  obtain ⟨seen, fresh, hreach, hlength, hfresh, hstamps⟩ := @reach_spec epoch
    (V.postings lane key.1) s.seen fun i hi => Nat.lt_of_lt_of_le (hposted i hi) hlen
  -- one candidate after the other, the stamps unchanged
  have hrun := @exists_foldlM _ _ _ (B.candidate lane b opts pred policy key.2) fresh
    (fun done s' => s'.seen = seen ∧ Queued V s' ∧ (Shortcuts V lane b opts eval →
      ∀ x, Pending V pred policy eval s' x ↔ Pending V pred policy eval s x ∨
        ∃ i ∈ done, V.Emits pred policy (eval i) i x))
    (by
      rintro done i s₁ hi ⟨hseen₁, hqueued₁, hpending₁⟩
      have hpost : i ∈ V.postings lane key.1 := ((hfresh i).mp hi).1
      have hlt := hposted i hpost
      obtain ⟨s₂, hs₂, hseen₂, hqueued₂, hpending₂⟩ :=
        hB.exists_candidate lane b opts pred policy eval key.2 hlt hqueued₁
      refine ⟨s₂, hs₂, hseen₂.trans hseen₁, hqueued₂, fun hshort x => ?_⟩
      rw [hpending₂ ?_ (hshort.prefilter i hlt), hpending₁ hshort, or_assoc]
      · simp [or_and_right, exists_or]
      · intro f bits hanchor hmat hvac hlive
        -- only a feature's own key has an anchor
        rw [BroadBackend.batchKeys, mem_append, mem_map] at hkey
        rcases hkey with hkey | ⟨row, hrow, rfl⟩
        · split at hkey
          · rw [mem_singleton.mp hkey] at hanchor
            contradiction
          · contradiction
        · cases hanchor
          exact hshort.vacuous hmat (f, bits) hrow i hpost hvac hlive)
    [] { s with seen } ⟨rfl, hs, fun _ x => by simp [Pending]⟩
  obtain ⟨s', hs', hseen', hqueued', hpending'⟩ := hrun
  refine ⟨s', ?_, by rw [hseen', hlength], hqueued', fun i => by rw [hseen', hstamps], ?_⟩
  · simp [BroadBackend.probeKey, hB.posting lane key.1 (ne_zero_of_mem_batchKeys hkey), hreach, hs']
  · intro hshort x
    rw [hpending' hshort]
    simp [hfresh, and_assoc]

include hquoted heval

/-- **The kernel answers**, and where its shortcuts agree with the bitmaps
and no row is stamped at the start, it emits a row for a title exactly when
some key of the batch reaches the row's body and the bitmap has the
title. -/
theorem exists_evalOneSegment (epoch : UInt32) {seen : List UInt32} (hlen : V.size ≤ seen.length) :
    ∃ out, B.evalOneSegment lane b opts pred policy epoch seen = .ok out ∧
      (Shortcuts V lane b opts eval → (∀ i < V.size, seen[i]? ≠ some epoch) →
        ∀ x, x ∈ out ↔ ∃ key ∈ BroadBackend.batchKeys lane b, ∃ i ∈ V.postings lane key.1,
          V.Emits pred policy (eval i) i x) := by
  have hrun := @exists_foldlM _ _ _ (B.probeKey lane b opts pred policy epoch)
    (BroadBackend.batchKeys lane b)
    (fun done s => s.seen.length = seen.length ∧ Queued V s ∧
      (∀ i, s.seen[i]? = some epoch ↔
        seen[i]? = some epoch ∨ ∃ key ∈ done, i ∈ V.postings lane key.1) ∧
      (Shortcuts V lane b opts eval → (∀ i < V.size, seen[i]? ≠ some epoch) →
        ∀ x, Pending V pred policy eval s x ↔ ∃ key ∈ done, ∃ i ∈ V.postings lane key.1,
          V.Emits pred policy (eval i) i x))
    (by
      rintro done key s hkey ⟨hlength, hqueued, hstamps, hpending⟩
      obtain ⟨s', hs', hlength', hqueued', hstamps', hpending'⟩ :=
        hB.exists_probeKey lane b opts pred policy eval epoch hkey (hlength ▸ hlen) hqueued
      refine ⟨s', hs', hlength'.trans hlength, hqueued', fun i => ?_, fun hshort hfresh x => ?_⟩
      · rw [hstamps', hstamps]
        simp [or_and_right, exists_or, or_assoc]
      · rw [hpending' hshort, hpending hshort hfresh]
        simp only [mem_append, mem_singleton, or_and_right, exists_or, exists_eq_left]
        -- a row stamped before this key is among those already accounted for
        constructor
        · rintro (hdone | ⟨i, hi, -, hemits⟩)
          · exact .inl hdone
          · exact .inr ⟨i, hi, hemits⟩
        · rintro (hdone | ⟨i, hi, hemits⟩)
          · exact .inl hdone
          · by_cases hstamp : s.seen[i]? = some epoch
            · rcases (hstamps i).mp hstamp with hstart | ⟨key', hkey', hi'⟩
              · exact absurd hstart (hfresh i (hB.posted lane key.1 (ne_zero_of_mem_batchKeys hkey) i hi))
              · exact .inl ⟨key', hkey', i, hi', hemits⟩
            · exact .inr ⟨i, hi, hstamp, hemits⟩)
    [] ⟨seen, [], []⟩ ⟨rfl, by simp [Queued], by simp, fun _ _ x => by simp [Pending]⟩
  obtain ⟨s, hs, -, hqueued, -, hpending⟩ := hrun
  obtain ⟨outs, houts, hall⟩ := exists_mapM fun i (hi : i ∈ s.nonPure) =>
    hB.exists_evaluate (hqueued i hi).1 pred policy (hqueued i hi).2
      (hquoted i (hqueued i hi).1 (hqueued i hi).2) (heval i (hqueued i hi).1 (hqueued i hi).2)
  refine ⟨s.out ++ outs.flatten, ?_, fun hshort hfresh x => ?_⟩
  · simp [BroadBackend.evalOneSegment, BroadBackend.evalLane, hs, houts]
  · rw [mem_append, mem_flatten_of_forall₂ hall fun i out h => h x]
    exact hpending hshort hfresh x

end Run

end BroadBackend.Reads

end ReverseRusty
