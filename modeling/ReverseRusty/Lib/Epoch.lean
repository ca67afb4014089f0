import ReverseRusty.Lib.Visit

/-!
# ReverseRusty.Lib.Epoch

Stamp buffers reused from run to run.  Before a run every buffer it needs is
grown with zeros and the epoch is advanced; when the counter wraps, all
stamps are cleared and it restarts at one.

`Bounded` is what a whole history keeps: no stamp is above the epoch.  A new
epoch is then on no slot (`Bounded.nextEpoch`), so a run visits the
first occurrences of its stream, whatever the buffers held before
(`visitAll_fresh`).
-/

namespace ReverseRusty

open List

/-! ## runs on fresh stamps -/

section Fresh

variable {τ α : Type*} [DecidableEq τ] {epoch : τ} {emit : Nat → List α} {s : Visit τ α}
  {ids : List Nat}

/-- **On fresh stamps a run is determined by its stream.** -/
theorem visitAll_fresh (hin : ∀ i ∈ ids, i < s.stamps.length) (hfresh : epoch ∉ s.stamps) :
    (visitAll epoch emit s ids).out = s.out ++ ids.eraseDups.flatMap emit := by
  have hall : ids.filter (fun i => s.stamps[i]? ≠ some epoch) = ids := by
    rw [filter_eq_self]
    intro i _
    exact decide_eq_true fun hstamp => hfresh (mem_of_getElem? hstamp)
  rw [visitAll_out_eq hin, hall]

theorem stamps_visitAll (s : Visit τ α) (ids : List Nat) :
    (visitAll epoch emit s ids).stamps.length = s.stamps.length ∧
      ∀ t ∈ (visitAll epoch emit s ids).stamps, t ∈ s.stamps ∨ t = epoch := by
  induction ids generalizing s with
  | nil => exact ⟨rfl, fun t ht => .inl ht⟩
  | cons i ids ih =>
    obtain ⟨hlen, hmem⟩ := ih (visitOne epoch emit s i)
    have hone : (visitOne epoch emit s i).stamps.length = s.stamps.length ∧
        ∀ t ∈ (visitOne epoch emit s i).stamps, t ∈ s.stamps ∨ t = epoch := by
      unfold visitOne
      split
      · exact ⟨rfl, fun t ht => .inl ht⟩
      · exact ⟨length_set, fun t ht => mem_or_eq_of_mem_set ht⟩
    refine ⟨hlen.trans hone.1, fun t ht => ?_⟩
    rcases hmem t ht with ht | rfl
    · exact hone.2 t ht
    · exact .inr rfl

end Fresh

/-! ## buffers kept between runs -/

/-- One buffer of stamps per source, and the epoch of the last run. -/
structure Stamps where
  bufs : List (List UInt32)
  epoch : UInt32
deriving DecidableEq, Repr

namespace Stamps

def new : Stamps := ⟨[], 0⟩

/-- Grow a buffer with zeros to a length, never shrinking it. -/
def growTo (len : Nat) (buf : List UInt32) : List UInt32 :=
  buf ++ List.replicate (len - buf.length) 0

/-- Have a buffer for each of the lengths, at least that long. -/
def ensure (lens : List Nat) (s : Stamps) : Stamps :=
  { s with bufs := (s.bufs ++ List.replicate (lens.length - s.bufs.length) []).mapIdx fun i buf =>
      growTo (lens.getD i 0) buf }

/-- Advance the epoch; on a wrap clear every stamp and restart at one. -/
def nextEpoch (s : Stamps) : Stamps :=
  if s.epoch + 1 = 0 then { bufs := s.bufs.map fun buf => buf.map fun _ => 0, epoch := 1 }
  else { s with epoch := s.epoch + 1 }

/-- The buffer of a source. -/
def buf (s : Stamps) (i : Nat) : List UInt32 := s.bufs.getD i []

def put (s : Stamps) (i : Nat) (buf : List UInt32) : Stamps := { s with bufs := s.bufs.set i buf }

def Bounded (s : Stamps) : Prop := ∀ buf ∈ s.bufs, ∀ t ∈ buf, t ≤ s.epoch

/-- The epoch is new: no slot carries it. -/
def Fresh (s : Stamps) : Prop := ∀ buf ∈ s.bufs, s.epoch ∉ buf

/-- Each source has a buffer as long as it needs. -/
def Fits (lens : List Nat) (s : Stamps) : Prop :=
  ∀ (i n : Nat), lens[i]? = some n → i < s.bufs.length ∧ n ≤ (s.buf i).length

section Keep

variable {s : Stamps} {lens : List Nat}

theorem bounded_new : new.Bounded := by
  intro buf hbuf
  contradiction

theorem length_growTo (len : Nat) (buf : List UInt32) : len ≤ (growTo len buf).length := by
  rw [growTo, length_append, length_replicate]
  omega

variable {t : UInt32}

variable {buf : List UInt32}

theorem mem_growTo {len : Nat} (h : t ∈ growTo len buf) : t ∈ buf ∨ t = 0 := by
  rcases mem_append.mp h with h | h
  · exact .inl h
  · exact .inr (eq_of_mem_replicate h)

theorem mem_ensure (h : buf ∈ (s.ensure lens).bufs) (ht : t ∈ buf) :
    (∃ old ∈ s.bufs, t ∈ old) ∨ t = 0 := by
  obtain ⟨i, hi, rfl⟩ := mem_mapIdx.mp h
  rcases mem_growTo ht with ht | rfl
  · rcases mem_append.mp (getElem_mem hi) with hold | hnew
    · exact .inl ⟨_, hold, ht⟩
    · rw [eq_of_mem_replicate hnew] at ht
      contradiction
  · exact .inr rfl

theorem Bounded.ensure (h : s.Bounded) (lens : List Nat) : (s.ensure lens).Bounded := by
  intro buf hbuf t ht
  rcases mem_ensure hbuf ht with ⟨old, hold, ht⟩ | rfl
  · exact h old hold t ht
  · exact UInt32.zero_le

theorem fits_ensure (s : Stamps) (lens : List Nat) : (s.ensure lens).Fits lens := by
  intro i n hn
  have hlens : i < lens.length := (List.getElem?_eq_some_iff.mp hn).1
  have hi : i < (s.ensure lens).bufs.length := by
    rw [Stamps.ensure, length_mapIdx, length_append, length_replicate]
    omega
  refine ⟨hi, ?_⟩
  rw [buf, getD_eq_getElem _ _ hi]
  simp only [Stamps.ensure, getElem_mapIdx, getD_eq_getElem?_getD, hn, Option.getD_some]
  exact length_growTo _ _

/-! ### a new epoch -/

theorem Bounded.nextEpoch (h : s.Bounded) : s.nextEpoch.Bounded ∧ s.nextEpoch.Fresh := by
  unfold Stamps.nextEpoch
  split
  · -- the counter wrapped: every stamp is zero and the epoch one
    have hzero : ∀ buf ∈ s.bufs.map (fun buf => buf.map fun _ => (0 : UInt32)), ∀ t ∈ buf, t = 0 := by
      intro buf hbuf t ht
      obtain ⟨old, -, rfl⟩ := mem_map.mp hbuf
      obtain ⟨_, -, rfl⟩ := mem_map.mp ht
      rfl
    refine ⟨fun buf hbuf t ht => ?_, fun buf hbuf ht => ?_⟩
    · rw [hzero buf hbuf t ht]
      exact UInt32.zero_le
    · exact absurd (hzero buf hbuf 1 ht) (by decide)
  · next hwrap =>
    have hlt : s.epoch < s.epoch + 1 := by
      rw [UInt32.lt_iff_toNat_lt, UInt32.toNat_add]
      have hne : s.epoch.toNat + 1 ≠ 2 ^ 32 := by
        intro heq
        refine hwrap (UInt32.toNat_inj.mp ?_)
        rw [UInt32.toNat_add, show (1 : UInt32).toNat = 1 from rfl, heq]
        rfl
      have hbound := s.epoch.toNat_lt
      rw [show (1 : UInt32).toNat = 1 from rfl, Nat.mod_eq_of_lt (by omega)]
      omega
    refine ⟨fun buf hbuf t ht => ?_, fun buf hbuf ht => ?_⟩
    · exact UInt32.le_trans (h buf hbuf t ht) (UInt32.le_of_lt hlt)
    · exact absurd (h buf hbuf _ ht) (UInt32.not_le.mpr hlt)

theorem Fits.nextEpoch (h : s.Fits lens) : s.nextEpoch.Fits lens := by
  intro i n hn
  obtain ⟨hi, hlen⟩ := h i n hn
  unfold Stamps.nextEpoch
  split
  · refine ⟨by rwa [length_map], ?_⟩
    rw [buf, getD_eq_getElem _ _ hi] at hlen
    rw [buf, getD_eq_getElem _ _ (by rwa [length_map]), getElem_map, length_map]
    exact hlen
  · exact ⟨hi, hlen⟩

/-! ### a buffer put back after a run -/

@[simp] theorem epoch_put (s : Stamps) (i : Nat) (b : List UInt32) : (s.put i b).epoch = s.epoch :=
  rfl

variable {i : Nat}

theorem buf_put_of_ne {j : Nat} (h : i ≠ j) (b : List UInt32) : (s.put i b).buf j = s.buf j := by
  rw [buf, put, getD_eq_getElem?_getD, getElem?_set_ne h, ← getD_eq_getElem?_getD]
  rfl

theorem mem_buf (h : t ∈ s.buf i) : ∃ b ∈ s.bufs, t ∈ b := by
  rw [buf, getD_eq_getElem?_getD] at h
  cases hi : s.bufs[i]? with
  | none => simp [hi] at h
  | some b =>
    rw [hi] at h
    exact ⟨b, mem_of_getElem? hi, h⟩

variable {b : List UInt32}

theorem Bounded.put (h : s.Bounded) (hb : ∀ t ∈ b, t ∈ s.buf i ∨ t = s.epoch) :
    (s.put i b).Bounded := by
  intro buf hbuf t ht
  rcases mem_or_eq_of_mem_set hbuf with hold | rfl
  · exact h buf hold t ht
  · rcases hb t ht with hold | rfl
    · obtain ⟨old, hmem, ht⟩ := mem_buf hold
      exact h old hmem t ht
    · exact UInt32.le_refl _

theorem Fits.put (h : s.Fits lens) (hb : (s.buf i).length ≤ b.length) : (s.put i b).Fits lens := by
  intro j n hn
  obtain ⟨hj, hlen⟩ := h j n hn
  refine ⟨by rwa [Stamps.put, length_set], ?_⟩
  by_cases hij : i = j
  · subst hij
    have hi : i < (s.bufs.set i b).length := by rwa [length_set]
    rw [buf, Stamps.put, getD_eq_getElem _ _ hi, getElem_set_self]
    omega
  · rwa [buf_put_of_ne hij]

end Keep

end Stamps

end ReverseRusty
