import Mathlib

/-!
# ReverseRusty.MoveFence

The optimistic fence around moves (`coordinator/move_fence.rs`).

A mover takes the lock of movers, makes the counter odd, moves, and makes it even
again.  A reader takes an even stamp, runs its body and keeps what it computed if
the counter still shows the stamp; after four passes it takes the lock itself.
Every load, increment and hand-off of the lock is a step of its own.

Main result: `fenced_reads_quiet`.
-/

namespace ReverseRusty

def optimisticAttempts : Nat := 4

/-- A mover from when it took the lock: before its first increment, between the
two, and with the lock not yet given back. -/
inductive MovePhase where
  | locked
  | moving
  | ended
deriving DecidableEq, Repr

/-- A read: with so many passes left, in its body under a stamp, with a value to
be checked, in the body of its exclusive pass, or done. -/
inductive ReadPhase (V : Type) where
  | waiting (attempts : Nat)
  | body (attempts stamp : Nat)
  | check (attempts stamp : Nat) (out : V)
  | exclusive
  | done (out : Option V)

/-- A read, whether its caller has a deadline, and a ghost: no move was in progress
since the body began. -/
structure FencedRead (V : Type) where
  deadline : Bool
  quiet : Bool
  phase : ReadPhase V

/-- The fence, and the moves and reads under way. -/
structure MoveFence (V : Type) where
  seq : Nat
  locked : Bool
  movers : Multiset MovePhase
  reads : Multiset (FencedRead V)

variable {V : Type}

namespace FencedRead

def exclusive (r : FencedRead V) : Bool :=
  match r.phase with
  | .exclusive => true
  | _ => false

def note (moving : Prop) [Decidable moving] (r : FencedRead V) : FencedRead V :=
  match r.phase with
  | .body .. | .exclusive => { r with quiet := r.quiet && !decide moving }
  | _ => r

end FencedRead

namespace MoveFence

def new : MoveFence V := ⟨0, false, 0, 0⟩

def InProgress (s : MoveFence V) : Prop := MovePhase.moving ∈ s.movers

instance (s : MoveFence V) : Decidable s.InProgress := inferInstanceAs (Decidable (_ ∈ _))

inductive Act (s : MoveFence V) : MoveFence V → Prop
  | lockMovers : s.locked = false → Act s { s with locked := true, movers := .locked ::ₘ s.movers }
  | beginMove {rest : Multiset MovePhase} : s.movers = .locked ::ₘ rest →
      Act s { s with seq := s.seq + 1, movers := .moving ::ₘ rest }
  | endMove {rest : Multiset MovePhase} : s.movers = .moving ::ₘ rest →
      Act s { s with seq := s.seq + 1, movers := .ended ::ₘ rest }
  | unlockMovers {rest : Multiset MovePhase} : s.movers = .ended ::ₘ rest →
      Act s { s with locked := false, movers := rest }
  | readUntil (deadline : Bool) :
      Act s { s with reads := ⟨deadline, true, .waiting optimisticAttempts⟩ ::ₘ s.reads }
  | stamp {d q : Bool} {n : Nat} {rest : Multiset (FencedRead V)} :
      s.reads = ⟨d, q, .waiting (n + 1)⟩ ::ₘ rest → s.seq % 2 = 0 →
      Act s { s with reads := ⟨d, true, .body n s.seq⟩ ::ₘ rest }
  | compute {d q : Bool} {n stamp : Nat} {rest : Multiset (FencedRead V)} (out : V) :
      s.reads = ⟨d, q, .body n stamp⟩ ::ₘ rest →
      Act s { s with reads := ⟨d, q, .check n stamp out⟩ ::ₘ rest }
  | check {d q : Bool} {n stamp : Nat} {out : V} {rest : Multiset (FencedRead V)} :
      s.reads = ⟨d, q, .check n stamp out⟩ ::ₘ rest →
      Act s { s with
        reads := ⟨d, q, if s.seq = stamp then .done (some out) else .waiting n⟩ ::ₘ rest }
  | excludeMovers {d q : Bool} {rest : Multiset (FencedRead V)} :
      s.reads = ⟨d, q, .waiting 0⟩ ::ₘ rest → s.locked = false →
      Act s { s with locked := true, reads := ⟨d, true, .exclusive⟩ ::ₘ rest }
  | computeAlone {d q : Bool} {rest : Multiset (FencedRead V)} (out : V) :
      s.reads = ⟨d, q, .exclusive⟩ ::ₘ rest →
      Act s { s with locked := false, reads := ⟨d, q, .done (some out)⟩ ::ₘ rest }
  | giveUp {q : Bool} {n : Nat} {rest : Multiset (FencedRead V)} :
      s.reads = ⟨true, q, .waiting n⟩ ::ₘ rest →
      (if n = 0 then s.locked = true else s.seq % 2 = 1) →
      Act s { s with reads := ⟨true, q, .done none⟩ ::ₘ rest }

def Step (s t : MoveFence V) : Prop :=
  ∃ t', Act s t' ∧ t = { t' with reads := t'.reads.map (FencedRead.note t'.InProgress) }

end MoveFence

/-! ## the invariant -/

/-- A stamp is even, and the counter is past it once the read is not quiet. -/
def FencedRead.Sound (seq : Nat) (r : FencedRead V) : Prop :=
  match r.phase with
  | .waiting _ => True
  | .body _ stamp | .check _ stamp _ =>
    stamp % 2 = 0 ∧ stamp ≤ seq ∧ (r.quiet = true ∨ stamp < seq)
  | .exclusive => r.quiet = true
  | .done out => (out ≠ none → r.quiet = true) ∧ (out = none → r.deadline = true)

variable {r : FencedRead V}

variable {seq : Nat}

theorem FencedRead.Sound.mono {seq' : Nat} (h : r.Sound seq) (hle : seq ≤ seq') : r.Sound seq' := by
  unfold FencedRead.Sound at *
  split at h <;> grind

variable {moving : Prop}

theorem FencedRead.Sound.note [Decidable moving] (h : r.Sound seq) (hodd : moving → seq % 2 = 1)
    (hfree : r.exclusive = true → ¬ moving) : (r.note moving).Sound seq := by
  unfold FencedRead.Sound FencedRead.note FencedRead.exclusive at *
  split <;> grind

@[simp] theorem FencedRead.exclusive_note [Decidable moving] :
    (r.note moving).exclusive = r.exclusive := by
  unfold FencedRead.note
  split <;> simp_all [FencedRead.exclusive]

theorem countP_exclusive_cons (r : FencedRead V) (rest : Multiset (FencedRead V)) :
    (r ::ₘ rest).countP (·.exclusive = true) =
      rest.countP (·.exclusive = true) + r.exclusive.toNat := by
  rw [Multiset.countP_cons]
  cases r.exclusive <;> rfl

namespace MoveFence

structure Sound (s : MoveFence V) : Prop where
  holder : s.movers.card + s.reads.countP (·.exclusive = true) = s.locked.toNat
  parity : s.seq % 2 = s.movers.count .moving
  reads : ∀ r ∈ s.reads, r.Sound s.seq

variable {s t : MoveFence V}

/-- A read that goes on without taking the lock or giving it back. -/
theorem Sound.goOn (h : Sound s) {r r' : FencedRead V} {rest : Multiset (FencedRead V)}
    (hreads : s.reads = r ::ₘ rest) (hlock : r'.exclusive = r.exclusive)
    (hsound : r.Sound s.seq → r'.Sound s.seq) : Sound { s with reads := r' ::ₘ rest } := by
  obtain ⟨hholder, hparity, hall⟩ := h
  rw [hreads] at hholder hall
  obtain ⟨hr, hrest⟩ := Multiset.forall_mem_cons.mp hall
  refine ⟨?_, hparity, Multiset.forall_mem_cons.mpr ⟨hsound hr, hrest⟩⟩
  rwa [countP_exclusive_cons, hlock, ← countP_exclusive_cons]

theorem Sound.act (h : Sound s) (hact : Act s t) : Sound t := by
  obtain ⟨hholder, hparity, hreads⟩ := id h
  cases hact with
  | lockMovers hfree =>
    refine ⟨?_, by simpa using hparity, hreads⟩
    simp only [hfree, Bool.toNat_false, Bool.toNat_true, Multiset.card_cons] at hholder ⊢
    omega
  | @beginMove rest hmovers =>
    rw [hmovers] at hholder hparity
    refine ⟨by simpa using hholder, ?_, fun r hr => (hreads r hr).mono (Nat.le_succ _)⟩
    have hone : rest.count .moving = 0 := by
      have hle := Multiset.count_le_card MovePhase.moving rest
      have hbit := Bool.toNat_le s.locked
      rw [Multiset.card_cons] at hholder
      omega
    simp [hone] at hparity ⊢
    omega
  | @endMove rest hmovers =>
    rw [hmovers] at hholder hparity
    refine ⟨by simpa using hholder, ?_, fun r hr => (hreads r hr).mono (Nat.le_succ _)⟩
    simp at hparity ⊢
    omega
  | @unlockMovers rest hmovers =>
    rw [hmovers] at hholder hparity
    refine ⟨?_, by simpa using hparity, hreads⟩
    have hbit := Bool.toNat_le s.locked
    rw [Multiset.card_cons] at hholder
    simp only [Bool.toNat_false]
    omega
  | readUntil deadline =>
    refine ⟨by rw [countP_exclusive_cons]; exact hholder, hparity, ?_⟩
    exact Multiset.forall_mem_cons.mpr ⟨trivial, hreads⟩
  | stamp hr heven => exact h.goOn hr rfl fun _ => ⟨heven, le_rfl, .inl rfl⟩
  | compute out hr => exact h.goOn hr rfl id
  | @check d q n stamp out rest hr =>
    refine h.goOn hr ?_ fun hsound => ?_
    · split <;> rfl
    · by_cases hsame : s.seq = stamp
      · rw [if_pos hsame]
        exact ⟨fun _ => hsound.2.2.resolve_right (by omega), nofun⟩
      · rw [if_neg hsame]
        trivial
  | @excludeMovers d q rest hr hfree =>
    rw [hr] at hholder hreads
    refine ⟨?_, hparity, ?_⟩
    · rw [countP_exclusive_cons] at hholder ⊢
      simp only [hfree, FencedRead.exclusive, Bool.toNat_false, Bool.toNat_true] at hholder ⊢
      omega
    · exact Multiset.forall_mem_cons.mpr ⟨rfl, (Multiset.forall_mem_cons.mp hreads).2⟩
  | @computeAlone d q rest out hr =>
    rw [hr] at hholder hreads
    obtain ⟨hquiet, hrest⟩ := Multiset.forall_mem_cons.mp hreads
    refine ⟨?_, hparity, Multiset.forall_mem_cons.mpr ⟨⟨fun _ => hquiet, nofun⟩, hrest⟩⟩
    have hbit := Bool.toNat_le s.locked
    rw [countP_exclusive_cons] at hholder ⊢
    simp only [FencedRead.exclusive, Bool.toNat_false, Bool.toNat_true] at hholder ⊢
    omega
  | giveUp hr _ => exact h.goOn hr rfl fun _ => ⟨fun hne => absurd rfl hne, fun _ => rfl⟩

theorem Sound.inProgress (h : Sound s) (hmoving : s.InProgress) : s.seq % 2 = 1 := by
  have hpos := Multiset.count_pos.mpr hmoving
  have hle := Multiset.count_le_card MovePhase.moving s.movers
  have hbit := Bool.toNat_le s.locked
  have hholder := h.holder
  rw [h.parity]
  omega

theorem Sound.step (h : Sound s) (hstep : Step s t) : Sound t := by
  obtain ⟨t, hact, rfl⟩ := hstep
  have ht := h.act hact
  refine ⟨?_, ht.parity, fun r hr => ?_⟩
  · rw [Multiset.countP_map, ← Multiset.countP_eq_card_filter]
    simpa using ht.holder
  · obtain ⟨r₀, hr₀, rfl⟩ := Multiset.mem_map.mp hr
    refine (ht.reads r₀ hr₀).note ht.inProgress fun hexclusive hmoving => ?_
    -- the read would hold the lock beside the mover
    have hmover := Multiset.card_pos_iff_exists_mem.mpr ⟨_, hmoving⟩
    have hread : 0 < t.reads.countP (·.exclusive = true) :=
      Multiset.countP_pos.mpr ⟨r₀, hr₀, hexclusive⟩
    have hbit := Bool.toNat_le t.locked
    have hholder := ht.holder
    omega

theorem Sound.run (h : Sound s) (hrun : Relation.ReflTransGen Step s t) : Sound t := by
  induction hrun with
  | refl => exact h
  | tail _ hstep ih => exact ih.step hstep

/-- **Fenced reads** at every moment of every interleaving of movers and readers:
at most one move is in progress; a value that was returned was computed by a body
during which none was; and a read ends without one only by its deadline. -/
theorem fenced_reads_quiet (hrun : Relation.ReflTransGen Step new s) :
    s.movers.count .moving ≤ 1 ∧
    (∀ r ∈ s.reads, ∀ v, r.phase = .done (some v) → r.quiet = true) ∧
    (∀ r ∈ s.reads, r.phase = .done none → r.deadline = true) := by
  have h : Sound s := Sound.run ⟨rfl, rfl, by simp [new]⟩ hrun
  refine ⟨?_, fun r hr v hphase => ?_, fun r hr hphase => ?_⟩
  · have hparity := h.parity
    omega
  · have hsound := h.reads r hr
    rw [FencedRead.Sound, hphase] at hsound
    exact hsound.1 nofun
  · have hsound := h.reads r hr
    rw [FencedRead.Sound, hphase] at hsound
    exact hsound.2 rfl

theorem moving_during_read :
    ∃ s : MoveFence Nat, s.movers = {.moving} ∧ s.reads = {⟨false, false, .body 3 0⟩} ∧
      s.movers.count .moving ≤ 1 := by
  have hread : Step (new : MoveFence Nat) ⟨0, false, 0, {⟨false, true, .waiting 4⟩}⟩ :=
    ⟨_, .readUntil false, rfl⟩
  have hstamp : Step (⟨0, false, 0, {⟨false, true, .waiting 4⟩}⟩ : MoveFence Nat)
      ⟨0, false, 0, {⟨false, true, .body 3 0⟩}⟩ := ⟨_, @Act.stamp _ _ false true 3 0 rfl rfl, rfl⟩
  have hlock : Step (⟨0, false, 0, {⟨false, true, .body 3 0⟩}⟩ : MoveFence Nat)
      ⟨0, true, {.locked}, {⟨false, true, .body 3 0⟩}⟩ := ⟨_, .lockMovers rfl, rfl⟩
  have hmove : Step (⟨0, true, {.locked}, {⟨false, true, .body 3 0⟩}⟩ : MoveFence Nat)
      ⟨1, true, {.moving}, {⟨false, false, .body 3 0⟩}⟩ := ⟨_, @Act.beginMove _ _ 0 rfl, rfl⟩
  have hrun := (((Relation.ReflTransGen.single hread).tail hstamp).tail hlock).tail hmove
  exact ⟨_, rfl, rfl, (fenced_reads_quiet hrun).1⟩

end MoveFence

end ReverseRusty
