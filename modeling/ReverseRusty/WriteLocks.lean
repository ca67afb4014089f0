import Mathlib

/-!
# ReverseRusty.WriteLocks

The locks of logical ids (`coordinator/write_locks.rs`).

A call takes the bulk barrier for reading, registers its id, waits for the id's
lock and then has a guard; dropping the guard frees the lock, retires the
registration and leaves the barrier.  Each is a step of its own: a call may wait
on a lock object whose holder is about to retire.  A wait on the condition
variable is a step that is taken only when the lock is free.

Main result: `writeLocks_exclude`.
-/

namespace ReverseRusty

open Multiset (replicate)

attribute [local simp] Multiset.filterMap_cons

/-- One call of `lock`, from when it passed the barrier to the end of the guard's
drop.  A lock object is named by the number of those before it. -/
inductive LockCall where
  | entered (id : UInt64)
  | registered (id : UInt64) (lock : Nat)
  | guard (id : UInt64) (lock : Nat)
  | released (id : UInt64) (lock : Nat)
  | retired
deriving DecidableEq, Repr

namespace LockCall

/-- The lock object a call has for an id that it waits for, holds, or held by a
guard whose drop is not done. -/
@[simp] def lockFor (id : UInt64) : LockCall → Option Nat
  | .registered k lock | .guard k lock | .released k lock => if k = id then some lock else none
  | .entered _ | .retired => none

@[simp] def holds : LockCall → Option Nat
  | .guard _ lock => some lock
  | _ => none

end LockCall

structure Registration where
  lock : Nat
  users : Nat
deriving DecidableEq, Repr

/-- The locks and the calls under way, in no order.  Each of them reads the
barrier; `bulk` is set while a bulk guard is out. -/
structure LogicalWriteLocks where
  bulk : Bool
  entries : UInt64 → Option Registration
  held : Nat → Bool
  created : Nat
  calls : Multiset LockCall

namespace LogicalWriteLocks

def empty : LogicalWriteLocks := ⟨false, fun _ => none, fun _ => false, 0, 0⟩

@[simp] def entryOr (s : LogicalWriteLocks) (id : UInt64) : Registration :=
  (s.entries id).getD ⟨s.created, 0⟩

def retireEntry (e : Registration) : Option Registration :=
  if e.users - 1 = 0 then none else some { e with users := e.users - 1 }

/-- One step of one thread. -/
inductive Step (s : LogicalWriteLocks) : LogicalWriteLocks → Prop
  | enter (id : UInt64) : s.bulk = false → Step s { s with calls := .entered id ::ₘ s.calls }
  | register {id : UInt64} {rest : Multiset LockCall} : s.calls = .entered id ::ₘ rest →
      Step s { s with
        entries := Function.update s.entries id
          (some ⟨(s.entryOr id).lock, (s.entryOr id).users + 1⟩)
        created := if s.entries id = none then s.created + 1 else s.created
        calls := .registered id (s.entryOr id).lock ::ₘ rest }
  | acquire {id : UInt64} {lock : Nat} {rest : Multiset LockCall} :
      s.calls = .registered id lock ::ₘ rest → s.held lock = false →
      Step s { s with
        held := Function.update s.held lock true
        calls := .guard id lock ::ₘ rest }
  | release {id : UInt64} {lock : Nat} {rest : Multiset LockCall} :
      s.calls = .guard id lock ::ₘ rest →
      Step s { s with
        held := Function.update s.held lock false
        calls := .released id lock ::ₘ rest }
  | retire {id : UInt64} {lock : Nat} {rest : Multiset LockCall} :
      s.calls = .released id lock ::ₘ rest →
      Step s { s with
        entries := Function.update s.entries id ((s.entries id).bind retireEntry)
        calls := .retired ::ₘ rest }
  | leave {rest : Multiset LockCall} : s.calls = .retired ::ₘ rest → Step s { s with calls := rest }
  | lockBulk : s.bulk = false → s.calls = 0 → Step s { s with bulk := true }
  | dropBulk : s.bulk = true → Step s { s with bulk := false }

/-! ## the invariant -/

/-- An entry against the lock objects that calls have for its id. -/
def Serves : Option Registration → Multiset Nat → Prop
  | none, locks => locks = 0
  | some e, locks => 0 < e.users ∧ locks = replicate e.users e.lock

structure Sound (s : LogicalWriteLocks) : Prop where
  barrier : s.bulk = true → s.calls = 0
  serves : ∀ id, Serves (s.entries id) (s.calls.filterMap (LockCall.lockFor id))
  once : (s.calls.filterMap LockCall.holds).Nodup
  held : ∀ lock, s.held lock = true ↔ lock ∈ s.calls.filterMap LockCall.holds

variable {s t : LogicalWriteLocks}

variable {entry : Option Registration} {locks : Multiset Nat}

theorem serves_register {fresh : Nat} (h : Serves entry locks) :
    Serves (some ⟨(entry.getD ⟨fresh, 0⟩).lock, (entry.getD ⟨fresh, 0⟩).users + 1⟩)
      ((entry.getD ⟨fresh, 0⟩).lock ::ₘ locks) := by
  cases entry with
  | none =>
    obtain rfl : locks = 0 := h
    exact ⟨Nat.one_pos, rfl⟩
  | some e => exact ⟨Nat.succ_pos _, by rw [h.2]; exact (Multiset.replicate_succ _ _).symm⟩

theorem serves_retire {lock : Nat} (h : Serves entry (lock ::ₘ locks)) :
    Serves (entry.bind retireEntry) locks := by
  cases entry with
  | none => exact absurd h (Multiset.cons_ne_zero)
  | some e =>
    obtain ⟨users, hpos⟩ := Nat.exists_eq_succ_of_ne_zero h.1.ne'
    have hlocks : lock ::ₘ locks = e.lock ::ₘ replicate users e.lock := by
      rw [h.2, hpos, Multiset.replicate_succ]
    have hlock : lock = e.lock := by
      have hmem : lock ∈ replicate e.users e.lock := h.2 ▸ Multiset.mem_cons_self ..
      exact Multiset.eq_of_mem_replicate hmem
    rw [hlock, Multiset.cons_inj_right] at hlocks
    by_cases hlast : users = 0
    · simp [retireEntry, Serves, hpos, hlast, hlocks]
    · simpa [retireEntry, Serves, hpos, hlast, hlocks] using Nat.pos_of_ne_zero hlast

theorem Sound.step (h : Sound s) (hstep : Step s t) : Sound t := by
  obtain ⟨hbarrier, hserves, honce, hheld⟩ := h
  cases hstep with
  | enter id hbulk =>
    exact ⟨by simp [hbulk], by simpa using hserves,
      by simpa using honce, by simpa using hheld⟩
  | @register id rest hcalls =>
    simp only [hcalls, Multiset.filterMap_cons] at hbarrier hserves honce hheld
    refine ⟨by simpa using hbarrier, fun k => ?_, by simpa using honce,
      by simpa using hheld⟩
    by_cases heq : k = id
    · subst heq
      simpa using serves_register (hserves k)
    · simpa [heq, Ne.symm heq] using hserves k
  | @acquire id lock rest hcalls hfree =>
    simp only [hcalls, Multiset.filterMap_cons] at hbarrier hserves honce hheld
    have hnew := (hheld lock).not.mp (by simp [hfree])
    refine ⟨by simpa using hbarrier, by simpa using hserves, ?_,
      fun l => ?_⟩
    · simpa using And.intro hnew honce
    · by_cases heq : l = lock
      · simp [heq]
      · simpa [heq] using hheld l
  | @release id lock rest hcalls =>
    simp only [hcalls, Multiset.filterMap_cons] at hbarrier hserves honce hheld
    obtain ⟨hnone, honce⟩ : lock ∉ rest.filterMap LockCall.holds ∧
        (rest.filterMap LockCall.holds).Nodup := by simpa using honce
    refine ⟨by simpa using hbarrier, by simpa using hserves, ?_,
      fun l => ?_⟩
    · simpa using honce
    · by_cases heq : l = lock
      · simpa [heq] using hnone
      · simpa [heq] using hheld l
  | @retire id lock rest hcalls =>
    simp only [hcalls, Multiset.filterMap_cons] at hbarrier hserves honce hheld
    refine ⟨by simpa using hbarrier, fun k => ?_, by simpa using honce,
      by simpa using hheld⟩
    by_cases heq : k = id
    · subst heq
      simpa using serves_retire (by simpa using hserves k)
    · simpa [heq, Ne.symm heq] using hserves k
  | leave hcalls =>
    simp only [hcalls, Multiset.filterMap_cons] at hbarrier hserves honce hheld
    exact ⟨fun hbulk => absurd (hbarrier hbulk) Multiset.cons_ne_zero, by simpa using hserves,
      by simpa using honce, by simpa using hheld⟩
  | lockBulk hbulk hnone => exact ⟨fun _ => hnone, hserves, honce, hheld⟩
  | dropBulk hbulk => exact ⟨by simp, hserves, honce, hheld⟩

theorem Sound.run (h : Sound s) (hrun : Relation.ReflTransGen Step s t) : Sound t := by
  induction hrun with
  | refl => exact h
  | tail _ hstep ih => exact ih.step hstep

theorem sound_empty : Sound empty :=
  ⟨by simp [empty], fun _ => rfl, Multiset.nodup_zero, by simp [empty]⟩

/-! ## exclusion -/

/-- What the locks promise of a moment. -/
structure Excludes (s : LogicalWriteLocks) : Prop where
  /-- No two guards of one id. -/
  guards : ∀ id l l' rest, s.calls ≠ .guard id l ::ₘ .guard id l' ::ₘ rest
  /-- No guard of an id beside a bulk guard. -/
  bulk : s.bulk = true → ∀ id l, .guard id l ∉ s.calls
  /-- An entry stands while a call waits for its id or holds it, its drop included. -/
  entries : ∀ id, s.entries id ≠ none ↔ ∃ c ∈ s.calls, c.lockFor id ≠ none
  /-- Calls on one id have one lock object, the one of the entry. -/
  shared : ∀ id, ∀ c ∈ s.calls, ∀ l, c.lockFor id = some l →
    (s.entries id).map Registration.lock = some l
  /-- Without such calls the registry is empty. -/
  drained : (∀ c ∈ s.calls, ∀ id, c.lockFor id = none) → ∀ id, s.entries id = none

theorem Sound.shared (h : Sound s) {id : UInt64} {c : LockCall} (hc : c ∈ s.calls) {l : Nat}
    (hl : c.lockFor id = some l) : (s.entries id).map Registration.lock = some l := by
  have hmem : l ∈ s.calls.filterMap (LockCall.lockFor id) := (Multiset.mem_filterMap _ _).mpr ⟨c, hc, hl⟩
  have hserves := h.serves id
  cases hentry : s.entries id with
  | none =>
    rw [hentry] at hserves
    rw [show s.calls.filterMap (LockCall.lockFor id) = 0 from hserves] at hmem
    exact absurd hmem (Multiset.notMem_zero l)
  | some e =>
    rw [hentry] at hserves
    rw [hserves.2] at hmem
    rw [Multiset.eq_of_mem_replicate hmem]
    rfl

theorem Sound.entries (h : Sound s) (id : UInt64) :
    s.entries id ≠ none ↔ ∃ c ∈ s.calls, c.lockFor id ≠ none := by
  constructor
  · intro hentry
    obtain ⟨e, he⟩ := Option.ne_none_iff_exists'.mp hentry
    have hserves := h.serves id
    rw [he] at hserves
    have hmem : e.lock ∈ s.calls.filterMap (LockCall.lockFor id) := by
      rw [hserves.2]
      exact Multiset.mem_replicate.mpr ⟨hserves.1.ne', rfl⟩
    obtain ⟨c, hc, hlock⟩ := (Multiset.mem_filterMap _ _).mp hmem
    exact ⟨c, hc, Option.ne_none_iff_exists'.mpr ⟨_, hlock⟩⟩
  · rintro ⟨c, hc, hlock⟩ hnone
    obtain ⟨l, hl⟩ := Option.ne_none_iff_exists'.mp hlock
    simpa [hnone] using h.shared hc hl

theorem Sound.guards (h : Sound s) {id : UInt64} {l l' : Nat} {rest : Multiset LockCall} :
    s.calls ≠ .guard id l ::ₘ .guard id l' ::ₘ rest := by
  intro hcalls
  have hfirst : (s.entries id).map Registration.lock = some l :=
    @Sound.shared s h id (.guard id l) (by simp [hcalls]) l (if_pos rfl)
  have hsecond : (s.entries id).map Registration.lock = some l' :=
    @Sound.shared s h id (.guard id l') (by simp [hcalls]) l' (if_pos rfl)
  have honce := h.once
  rw [hcalls] at honce
  simp [Option.some.inj (hfirst.symm.trans hsecond)] at honce

/-- **The write locks** exclude, at every moment of every interleaving of calls,
guard drops and bulk calls. -/
theorem writeLocks_exclude (hrun : Relation.ReflTransGen Step empty s) : Excludes s where
  guards _ _ _ _ := (sound_empty.run hrun).guards
  bulk hbulk id l hmem := by
    rw [(sound_empty.run hrun).barrier hbulk] at hmem
    exact Multiset.notMem_zero _ hmem
  entries := (sound_empty.run hrun).entries
  shared _ _ hc _ hl := (sound_empty.run hrun).shared hc hl
  drained hnone id := by
    by_contra hentry
    obtain ⟨c, hc, hlock⟩ := ((sound_empty.run hrun).entries id).mp hentry
    exact hlock (hnone c hc id)

theorem waiter_excluded : ∃ s, s.calls = {.registered 7 0, .guard 7 0} ∧ Excludes s :=
  ⟨_, rfl, writeLocks_exclude <| ((((Relation.ReflTransGen.refl.tail (.enter 7 rfl)).tail
    (.register rfl)).tail (.acquire rfl rfl)).tail (.enter 7 rfl)).tail (.register rfl)⟩

end LogicalWriteLocks

end ReverseRusty
