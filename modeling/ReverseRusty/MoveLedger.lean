import ReverseRusty.Control

/-!
# ReverseRusty.MoveLedger

The ledger of endpoints that take part in a data move
(`coordinator/reassign/ledger.rs`).  Callers reserve whole sets of endpoints,
wait for them, give up at a deadline, and release them with their ticket.

A step is what happens while one caller holds the ledger's lock.  Between
steps any caller may be next, so a list of steps is any interleaving of any
number of threads: `reservations_exclusive` is about all of them.
-/

namespace ReverseRusty

open List

/-- The endpoints of a reservation: normalized, sorted, each once. -/
def wantedEndpoints (eps : List String) : List String := sortDedup (eps.map normalizedMoveEndpoint)

/-- What one caller reserves: the endpoints as it wrote them, and their keys,
which the ledger looks up. -/
structure Request where
  asked : List String
  want : List String
  keyed : ∀ e, e ∈ want ↔ ∃ ep ∈ asked, normalizedMoveEndpoint ep = e

def Request.of (eps : List String) : Request where
  asked := eps
  want := wantedEndpoints eps
  keyed e := by rw [wantedEndpoints, mem_sortDedup, mem_map]

inductive Reservation where
  | granted
  | waits
  | refused

structure MoveLedger where
  busy : Finset String
  /-- what each live ticket reserves -/
  tickets : List Request
  /-- who waits, with or without a deadline, and for what -/
  waiting : List (Bool × Request)
  /-- the refused requests, each with the endpoints busy at that moment -/
  refusals : List (Request × Finset String)

/-- One turn at the lock.  The clock says whether a deadline is past, the
condition variable whether a wait timed out. -/
inductive LedgerStep where
  | reserve (eps : List String)
  | reserveUntil (eps : List String) (past : Bool)
  | wake (i : Nat) (timedOut past : Bool)
  | drop (i : Nat)

/-- The endpoints a new caller asks for. -/
def LedgerStep.asks : LedgerStep → List (List String)
  | .reserve eps | .reserveUntil eps _ => [eps]
  | .wake .. | .drop _ => []

namespace MoveLedger

def new : MoveLedger := ⟨∅, [], [], []⟩

section Turn

variable (m : MoveLedger) (want : List String)

/-- A turn of the loop in `reserve`. -/
def tryReserve : Reservation := if want.all (· ∉ m.busy) then .granted else .waits

/-- A turn of the loop in `reserve_until`. -/
def tryUntil (past : Bool) : Reservation :=
  if want.all (· ∉ m.busy) then .granted else if past then .refused else .waits

/-- What a wait with a deadline comes back to. -/
def wakeUntil (timedOut past : Bool) : Reservation :=
  if timedOut && want.any (· ∈ m.busy) then .refused else m.tryUntil want past

end Turn

variable (m : MoveLedger) (q : Request)

/-- What a caller leaves when it returns or waits. -/
def settle (deadline : Bool) : Reservation → MoveLedger
  | .granted => { m with busy := m.busy ∪ q.want.toFinset, tickets := q :: m.tickets }
  | .waits => { m with waiting := (deadline, q) :: m.waiting }
  | .refused => { m with refusals := (q, m.busy) :: m.refusals }

def step : LedgerStep → MoveLedger
  | .reserve eps => m.settle (.of eps) false (m.tryReserve (wantedEndpoints eps))
  | .reserveUntil eps past => m.settle (.of eps) true (m.tryUntil (wantedEndpoints eps) past)
  | .wake i timedOut past =>
    match m.waiting[i]? with
    | none => m
    | some (deadline, q) =>
      { m with waiting := m.waiting.eraseIdx i }.settle q deadline
        (if deadline then m.wakeUntil q.want timedOut past else m.tryReserve q.want)
  | .drop i =>
    match m.tickets[i]? with
    | none => m
    | some q =>
      { m with busy := m.busy \ q.want.toFinset, tickets := m.tickets.eraseIdx i }

/-- What holds between steps, in the words of the callers: `made` lists what
they have asked for so far. -/
structure Exclusive (made : List (List String)) : Prop where
  tickets : ∀ t ∈ m.tickets, t.asked ∈ made
  waiting : ∀ w ∈ m.waiting, w.2.asked ∈ made
  disjoint : m.tickets.Pairwise fun s t => ∀ a ∈ s.asked, ∀ b ∈ t.asked,
    normalizedMoveEndpoint a ≠ normalizedMoveEndpoint b
  busy : ∀ e, e ∈ m.busy ↔ ∃ t ∈ m.tickets, ∃ ep ∈ t.asked, normalizedMoveEndpoint ep = e
  refusals : ∀ r ∈ m.refusals, r.1.asked ∈ made ∧ ∃ ep ∈ r.1.asked, normalizedMoveEndpoint ep ∈ r.2

/-- An outcome fits what was found at the lock. -/
def Fits : Reservation → Prop
  | .granted => ∀ e ∈ q.want, e ∉ m.busy
  | .waits => True
  | .refused => ∃ e ∈ q.want, e ∈ m.busy

variable {m q}

theorem fits_tryReserve : m.Fits q (m.tryReserve q.want) := by
  unfold tryReserve
  split
  · next hfree => simpa [Fits] using hfree
  · trivial

theorem fits_tryUntil (past : Bool) : m.Fits q (m.tryUntil q.want past) := by
  unfold tryUntil
  split
  · next hfree => simpa [Fits] using hfree
  · next hbusy =>
    split
    · simpa [Fits] using hbusy
    · trivial

theorem fits_wakeUntil (timedOut past : Bool) :
    m.Fits q (m.wakeUntil q.want timedOut past) := by
  unfold wakeUntil
  split
  · next hlate =>
    simp only [Bool.and_eq_true, any_eq_true, decide_eq_true_eq] at hlate
    exact hlate.2
  · exact fits_tryUntil past

variable {made : List (List String)}

/-- Later callers do not change what the earlier ones hold. -/
theorem Exclusive.mono (h : m.Exclusive made) {made' : List (List String)}
    (hsub : ∀ eps ∈ made, eps ∈ made') : m.Exclusive made' where
  tickets t ht := hsub _ (h.tickets t ht)
  waiting w hw := hsub _ (h.waiting w hw)
  disjoint := h.disjoint
  busy := h.busy
  refusals r hr := ⟨hsub _ (h.refusals r hr).1, (h.refusals r hr).2⟩

theorem Exclusive.settle (h : m.Exclusive made) (hq : q.asked ∈ made) (deadline : Bool)
    {r : Reservation} (hfits : m.Fits q r) : (m.settle q deadline r).Exclusive made := by
  cases r with
  | granted =>
    refine { h with
      tickets := forall_mem_cons.mpr ⟨hq, h.tickets⟩
      disjoint := h.disjoint.cons fun t ht a ha b hb heq => ?_
      busy := fun e => ?_ }
    · -- a key of the new ticket was free, so no ticket had it
      refine hfits _ ((q.keyed _).mpr ⟨a, ha, rfl⟩) ((h.busy _).mpr ⟨t, ht, b, hb, heq.symm⟩)
    · simp [MoveLedger.settle, h.busy, q.keyed, or_comm]
  | waits => exact { h with waiting := forall_mem_cons.mpr ⟨hq, h.waiting⟩ }
  | refused =>
    obtain ⟨e, he, hbusy⟩ := hfits
    obtain ⟨ep, hep, rfl⟩ := (q.keyed e).mp he
    exact { h with refusals := forall_mem_cons.mpr ⟨⟨hq, ep, hep, hbusy⟩, h.refusals⟩ }

/-- Releasing a ticket frees its endpoints and no other ticket's. -/
theorem Exclusive.release (h : m.Exclusive made) {i : Nat} (hi : m.tickets[i]? = some q) :
    { m with busy := m.busy \ q.want.toFinset, tickets := m.tickets.eraseIdx i }.Exclusive made := by
  have hperm : m.tickets.Perm (q :: m.tickets.eraseIdx i) := by
    obtain ⟨hlt, rfl⟩ := List.getElem?_eq_some_iff.mp hi
    exact (getElem_cons_eraseIdx_perm hlt).symm
  have hapart := (pairwise_cons.mp (h.disjoint.perm hperm fun hd a ha b hb heq =>
    hd b hb a ha heq.symm)).1
  refine { h with
    tickets := fun t ht => h.tickets t (mem_of_mem_eraseIdx ht)
    disjoint := h.disjoint.sublist (eraseIdx_sublist _ _)
    busy := fun e => ?_ }
  have hbusy : e ∈ m.busy ↔ (∃ ep ∈ q.asked, normalizedMoveEndpoint ep = e) ∨
      ∃ t ∈ m.tickets.eraseIdx i, ∃ ep ∈ t.asked, normalizedMoveEndpoint ep = e := by
    simp [h.busy, hperm.mem_iff]
  rw [Finset.mem_sdiff, hbusy, mem_toFinset, q.keyed]
  refine ⟨fun he => he.1.resolve_left he.2, fun ⟨t, ht, ep, hep, he⟩ =>
    ⟨.inr ⟨t, ht, ep, hep, he⟩, fun ⟨a, ha, heq⟩ => ?_⟩⟩
  exact hapart t ht a ha ep hep (heq.trans he.symm)

/-- **Every turn at the lock keeps the reservations apart.** -/
theorem Exclusive.step (h : m.Exclusive made) (a : LedgerStep) :
    (m.step a).Exclusive (made ++ a.asks) := by
  cases a with
  | reserve eps =>
    exact (h.mono fun _ => mem_append_left _).settle (q := .of eps)
      (mem_append_right _ mem_cons_self) false fits_tryReserve
  | reserveUntil eps past =>
    exact (h.mono fun _ => mem_append_left _).settle (q := .of eps)
      (mem_append_right _ mem_cons_self) true (fits_tryUntil past)
  | wake i timedOut past =>
    rw [LedgerStep.asks, append_nil, MoveLedger.step]
    split
    · exact h
    · next deadline q hi =>
      have hrest : { m with waiting := m.waiting.eraseIdx i }.Exclusive made :=
        { h with waiting := fun w hw => h.waiting w (mem_of_mem_eraseIdx hw) }
      refine hrest.settle (h.waiting _ (mem_of_getElem? hi)) deadline ?_
      cases deadline with
      | true => exact fits_wakeUntil timedOut past
      | false => exact fits_tryReserve
  | drop i =>
    rw [LedgerStep.asks, append_nil, MoveLedger.step]
    split
    · exact h
    · next q hi => exact h.release hi

/-- **Reservations are exclusive** after any interleaving: each ticket is for
the endpoints one caller asked for, no two tickets ask for one server, what is
busy is what the tickets ask for, and every refused caller found one of the
endpoints it asked for busy. -/
theorem reservations_exclusive (steps : List LedgerStep) :
    (steps.foldl MoveLedger.step new).Exclusive (steps.flatMap LedgerStep.asks) := by
  have hrun : ∀ (m : MoveLedger) (made : List (List String)), m.Exclusive made →
      (steps.foldl MoveLedger.step m).Exclusive (made ++ steps.flatMap LedgerStep.asks) := by
    induction steps with
    | nil => exact fun m made h => by simpa using h
    | cons a steps ih =>
      intro m made h
      have hnext := ih _ _ (h.step a)
      rwa [append_assoc, ← flatMap_cons] at hnext
  exact hrun new [] ⟨by simp [new], by simp [new], .nil, by simp [new], by simp [new]⟩

end MoveLedger

end ReverseRusty
