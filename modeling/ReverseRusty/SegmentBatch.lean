import ReverseRusty.BatchKernel
import ReverseRusty.SegmentKept

/-!
# ReverseRusty.SegmentBatch

An in-memory segment as the columnar kernel drives it
(`segment/broad_batch/kernel.rs`): a posted id leads a group, and the group
is evaluated through its leader's body as long as one of its rows lives.
-/

namespace ReverseRusty

open List

/-! ## the rows of a group are quoted alike -/

theorem predicateHasPhrases_eq_boolean {words : List UInt32} {u : Unit}
    (h : validatePredicate words = .ok u) (hlen : words.length < 2 ^ 32) :
    predicateHasPhrases words =
      decide ((predicateBooleanProgram words).1 = phraseProgramVersion) := by
  cases words with
  | nil => rfl
  | cons version ws =>
    obtain ⟨ex, hquoted, hbody, hshort, -⟩ := exists_encode_of_short h hlen
    cases hp : predicateHasPhrases (version :: ws) with
    | true =>
      have hne := encodeBody_ne_of_hasPhrases hshort (hquoted.trans hp)
      rw [← hbody] at hne
      simp only [predicateHasPhrases, Bool.or_eq_true, decide_eq_true_eq] at hp
      rcases hp with rfl | rfl
      · have hws : ws ≠ [0, 0, 0, 0] := hne
        simp [predicateBooleanProgram, rankPhraseProgramVersion, rankFeatureProgramVersion,
          featureProgramVersion, phraseProgramVersion, hws]
      · have hws : ws.drop 2 ≠ [0, 0, 0, 0] := hne
        simp [predicateBooleanProgram, rankPhraseProgramVersion, rankFeatureProgramVersion,
          featureProgramVersion, phraseProgramVersion, hws]
    | false =>
      simp only [predicateHasPhrases, Bool.or_eq_false_iff, decide_eq_false_iff_not] at hp
      -- dropping an empty program never makes it quoted
      have hdrop : ∀ b : UInt32 × List UInt32, b.1 ≠ phraseProgramVersion →
          (if b = (featureProgramVersion, [0, 0]) ∨ b = (phraseProgramVersion, [0, 0, 0, 0])
            then (0, []) else b).1 ≠ phraseProgramVersion := by
        intro b hb
        split
        · exact fun hzero => absurd hzero (by decide)
        · exact hb
      rw [eq_comm, decide_eq_false_iff_not, predicateBooleanProgram]
      simp only [hp.2, if_false]
      refine hdrop _ ?_
      split
      · exact (by decide : featureProgramVersion ≠ phraseProgramVersion)
      · exact hp.1

theorem predicateHasPhrases_eq_of_bodiesEqual {a b : Body} (ha : a.Sound) (hb : b.Sound)
    (h : a.bodiesEqual b = true) :
    predicateHasPhrases a.predicate = predicateHasPhrases b.predicate := by
  simp only [Body.bodiesEqual, Bool.and_eq_true, beq_iff_eq] at h
  rw [predicateHasPhrases_eq_boolean ha.checked ha.predicate,
    predicateHasPhrases_eq_boolean hb.checked hb.predicate, h.2]

/-! ## views the kernel can evaluate -/

/-- Bodies with a live row have a checked program without quoted clauses. -/
structure RowView.Plain (V : RowView) : Prop where
  checked : ∀ i < V.size, V.live i = true → validatePredicate (V.row i).body.predicate = .ok ()
  fits : ∀ i < V.size, V.live i = true → (V.row i).body.predicate.length < 2 ^ 32
  quoted : ∀ i < V.size, V.live i = true → predicateHasPhrases (V.row i).body.predicate = false

/-- **The kernel answers on a plain view**, and its answer is that of the
bitmaps of scalar verification. -/
theorem BroadBackend.Reads.exists_of_plain {w : Nat} {B : BroadBackend w} {V : RowView}
    (hB : B.Reads V) (hV : V.Plain) (lane : Lane) (b : TitleBatch w) (opts : KernelOptions)
    (pred : TagPredicate) (policy : Nat → QueryPlacement → Bool) (epoch : UInt32)
    {seen : List UInt32} (hseen : V.size ≤ seen.length) :
    ∃ (eval : Nat → BitVec w) (out : List (Nat × UInt64)),
      B.evalOneSegment lane b opts pred policy epoch seen = .ok out ∧
      (∀ i < V.size, V.live i = true →
        evalBatch b (V.row i).body (V.row i).tags .empty = .ok (eval i)) ∧
      (Shortcuts V lane b opts eval → (∀ i < V.size, seen[i]? ≠ some epoch) →
        ∀ x, x ∈ out ↔ ∃ key ∈ BroadBackend.batchKeys lane b, ∃ i ∈ V.postings lane key.1,
          V.Emits pred policy (eval i) i x) := by
  have hbits : ∀ i, ∃ bits : BitVec w, i < V.size → V.live i = true →
      evalBatch b (V.row i).body (V.row i).tags .empty = .ok bits := by
    intro i
    by_cases h : i < V.size ∧ V.live i = true
    · obtain ⟨bits, heval, -⟩ := exists_evalBatch (b := b) (hV.checked i h.1 h.2)
        (hV.fits i h.1 h.2) (hV.quoted i h.1 h.2) (V.row i).tags .empty
      exact ⟨bits, fun _ _ => heval⟩
    · exact ⟨0, fun hi hl => absurd ⟨hi, hl⟩ h⟩
  choose eval heval using hbits
  obtain ⟨out, hout, hmem⟩ := hB.exists_evalOneSegment lane b opts pred policy eval hV.quoted
    heval epoch hseen
  exact ⟨eval, out, hout, heval, hmem⟩

/-! ## the segment as a backend -/

namespace Segment

section Backend

variable (seg : Segment)

/-- Row `i`, which the columns of the store have to hold. -/
def checkedEntry (i : Nat) : Checked Entry := Checked.ofOption seg.entries[i]?

/-- The segment as the columnar kernel drives it. -/
def backend {w : Nat} : BroadBackend w where
  posting lane key :=
    if seg.filter.any (fun f => !f.mayContain key) then .ok []
    else .ok ((seg.index lane.index).postings key)
  alive i := do
    let e ← seg.checkedEntry i
    return e.alive
  hasDupGroups := seg.hasDupGroups
  membersOf := seg.membersOf
  vacuousAccept lane i f := do
    let e ← seg.checkedEntry i
    return e.row.body.vacuousAccept lane f
  logicalId i := do
    let e ← seg.checkedEntry i
    return e.row.logical
  placement i := do
    let e ← seg.checkedEntry i
    return e.row.placement
  passesTags i pred := do
    let e ← seg.checkedEntry i
    return pred.matches e.row.tags
  canMatchBatch i b := do
    let e ← seg.checkedEntry i
    return e.row.body.canMatchBatch b
  evalInto i b pred := do
    let e ← seg.checkedEntry i
    evalBatch b e.row.body e.row.tags pred

/-- A row no read asks for. -/
def absentRow : Row := ⟨⟨0, 0, [], [], [], []⟩, [], 0, .standalone, 0, 0, 0⟩

def rowView : RowView where
  size := seg.length
  row i := (seg.entries[i]?.map Entry.row).getD absentRow
  alive := seg.isAlive
  grouped := seg.hasDupGroups
  members := seg.membersOf
  postings lane key := (seg.index lane.index).postings key

end Backend

section Reads

variable {seg : Segment}

variable {i : Nat}

variable {e : Entry}

attribute [local simp] backend checkedEntry Checked.ofOption

theorem row_rowView (he : seg.entries[i]? = some e) : seg.rowView.row i = e.row := by
  simp [rowView, he]

theorem alive_rowView (he : seg.entries[i]? = some e) : seg.rowView.alive i = e.alive := by
  simp [rowView, isAlive, he]

theorem reads_backend (hg : seg.Grouped) {w : Nat} :
    (seg.backend : BroadBackend w).Reads seg.rowView where
  posting lane key _ := by
    simp only [backend, rowView]
    split
    · next hmiss =>
      obtain ⟨f, hf, hkey⟩ := (Option.any_eq_true _ _).mp hmiss
      have hnil : (seg.index lane.index).postings key = [] := by
        rw [eq_nil_iff_forall_not_mem]
        intro i hi
        rw [hg.filtered f hf lane.index key i hi] at hkey
        contradiction
      rw [hnil]
    · rfl
  posted lane key _ i hi := by
    obtain ⟨e, he, -⟩ := hg.posted lane.index key i hi
    exact (List.getElem?_eq_some_iff.mp he).1
  alive i hi := by
    have he := getElem?_eq_getElem hi
    simp [he, alive_rowView he]
  grouped := rfl
  members := rfl
  member i _ m hm := by
    obtain ⟨-, e, he, -⟩ := (hg.member i m).mp hm
    exact (List.getElem?_eq_some_iff.mp he).1
  vacuous i hi lane f := by
    have he := getElem?_eq_getElem hi
    simp [he, row_rowView he]
  logicalId i hi := by
    have he := getElem?_eq_getElem hi
    simp [he, row_rowView he]
  placement i hi := by
    have he := getElem?_eq_getElem hi
    simp [he, row_rowView he]
  tags i hi pred := by
    have he := getElem?_eq_getElem hi
    simp [he, row_rowView he]
  canMatch i hi b := by
    have he := getElem?_eq_getElem hi
    simp [he, row_rowView he]
  eval i hi b pred := by
    have he := getElem?_eq_getElem hi
    simp [he, row_rowView he]

theorem Grouped.exists_of_live (hg : seg.Grouped) (hi : i < seg.length)
    (hlive : seg.rowView.live i = true) :
    ∃ l m, seg.entries[i]? = some l ∧ m ∈ seg.entries ∧ m.alive = true ∧
      (m = l ∨ m.dupOf = i) := by
  obtain ⟨j, hj, halive⟩ := any_eq_true.mp hlive
  have hl := getElem?_eq_getElem hi
  rw [RowView.group, mem_cons] at hj
  rcases hj with rfl | hj
  · rw [alive_rowView hl] at halive
    exact ⟨_, _, hl, getElem_mem hi, halive, .inl rfl⟩
  · have hmem : j ∈ seg.membersOf i := by
      split at hj
      · exact hj
      · contradiction
    obtain ⟨-, m, hm, hdup⟩ := (hg.member i j).mp hmem
    rw [alive_rowView hm] at halive
    exact ⟨_, m, hl, mem_of_getElem? hm, halive, .inr hdup⟩

theorem plain_rowView (hg : seg.Grouped) (hk : seg.Kept) (hplain : seg.hasPhrasePredicates = false) :
    seg.rowView.Plain where
  checked i hi _ := by
    have he := getElem?_eq_getElem hi
    rw [row_rowView he]
    exact (hk.sound i _ he).body.checked
  fits i hi _ := by
    have he := getElem?_eq_getElem hi
    rw [row_rowView he]
    exact (hk.sound i _ he).body.predicate
  quoted i hi hlive := by
    obtain ⟨l, m, hl, hm, halive, hgroup⟩ := hg.exists_of_live hi hlive
    have hunquoted : predicateHasPhrases m.row.body.predicate = false := by
      by_contra hquoted
      have hsome := hk.hasPhrasePredicates_iff.mpr ⟨m, hm, halive, Bool.not_eq_false _ ▸ hquoted⟩
      rw [hplain] at hsome
      contradiction
    rw [row_rowView hl]
    rcases hgroup with rfl | hdup
    · exact hunquoted
    · obtain ⟨j, hj⟩ := mem_iff_getElem?.mp hm
      obtain ⟨l', hl', -, -, hbody⟩ := hg.leader j m hj
      rw [hdup, hl] at hl'
      cases hl'
      rw [predicateHasPhrases_eq_of_bodiesEqual (hk.sound i l hl).body (hk.sound j m hj).body hbody]
      exact hunquoted

end Reads

end Segment

end ReverseRusty
