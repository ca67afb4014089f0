import ReverseRusty.Lib.OpenTable
import ReverseRusty.Lib.Ragged
import ReverseRusty.Index

/-!
# ReverseRusty.Frozen

The on-disk form of a candidate index (`storage/segment.rs`): an
open-addressing table of slots, each naming a run of local ids in a shared
blob.

`probe_freeze` says that a frozen table answers every signature key with
the run it was built from.
-/

namespace ReverseRusty

open List
open Codec (u32 u64 dec_enc)

/-- One slot; key `0` is vacant. -/
structure FrozenSlot where
  key : UInt64
  offset : UInt32
  len : UInt32
deriving DecidableEq, Repr

def FrozenSlot.vacant : FrozenSlot := ⟨0, 0, 0⟩

/-- Slots are stored as their sixteen bytes. -/
def FrozenSlot.codec : Codec FrozenSlot where
  width := 16
  enc s := u64.enc s.key ++ (u32.enc s.offset ++ u32.enc s.len)
  dec bs := ⟨u64.dec (bs.take 8), u32.dec ((bs.drop 8).take 4),
    u32.dec (bs.drop 12)⟩
  length_enc s := by
    simp only [length_append, Codec.length_enc]
    rfl
  dec_enc s := by
    have hkey : (u64.enc s.key).length = 8 := u64.length_enc s.key
    have hoff : (u32.enc s.offset).length = 4 := u32.length_enc s.offset
    have hdrop : (u64.enc s.key ++ (u32.enc s.offset ++ u32.enc s.len)).drop 12 =
        u32.enc s.len := by
      rw [← append_assoc]
      exact drop_left' (by rw [length_append, hkey, hoff])
    rw [hdrop, take_left' hkey, drop_left' hkey, take_left' hoff, dec_enc,
      dec_enc, dec_enc]

structure FrozenIndex where
  slots : List FrozenSlot
  blob : List UInt32
deriving DecidableEq, Repr

namespace FrozenIndex

/-- Slots for `n` keys: half full, rounded up to a power of two. -/
def capacity (n : Nat) : Nat := if n = 0 then 1 else max (2 ^ Nat.clog 2 (n * 2)) 4

/-- Where the probe for a key starts; capacities are powers of two, so the
mask takes the key modulo the capacity. -/
def home (cap : Nat) (key : UInt64) : Nat := key.toNat &&& (cap - 1)

def slotsOf (runs : List (UInt64 × List UInt32)) : List FrozenSlot :=
  (runs.zip (rowStarts (runs.map Prod.snd))).map fun r =>
    ⟨r.1.1, UInt32.ofNat r.2, UInt32.ofNat r.1.2.length⟩

def freeze (runs : List (UInt64 × List UInt32)) : FrozenIndex where
  slots := freezeTable FrozenSlot.key 0 (home (capacity runs.length)) .vacant
    (capacity runs.length) (slotsOf runs)
  blob := (runs.map Prod.snd).flatten

/-- The run of ids under a key. -/
def probe (f : FrozenIndex) (key : UInt64) : Option (List UInt32) := do
  let slot ← probeFrom FrozenSlot.key 0 (fun i => (i + 1) &&& (f.slots.length - 1))
    f.slots.length f.slots (home f.slots.length key) key
  if slot.offset.toNat + slot.len.toNat ≤ f.blob.length then
    some (sliceAt f.blob slot.offset.toNat slot.len.toNat)
  else none

/-! ## capacities -/

theorem capacity_isPowerOfTwo (n : Nat) : ∃ k, capacity n = 2 ^ k := by
  unfold capacity
  split
  · exact ⟨0, rfl⟩
  · rcases Nat.le_total (2 ^ Nat.clog 2 (n * 2)) 4 with h | h
    · exact ⟨2, Nat.max_eq_right h⟩
    · exact ⟨Nat.clog 2 (n * 2), Nat.max_eq_left h⟩

theorem lt_capacity (n : Nat) : n < capacity n := by
  unfold capacity
  split
  · omega
  · have := Nat.le_pow_clog (by decide : 1 < 2) (n * 2)
    omega

theorem home_lt (n : Nat) (key : UInt64) : home (capacity n) key < capacity n := by
  obtain ⟨k, hk⟩ := capacity_isPowerOfTwo n
  rw [home, hk, Nat.and_two_pow_sub_one_eq_mod]
  exact Nat.mod_lt _ (Nat.two_pow_pos k)

/-- The masked step goes round the table. -/
theorem next_eq_mod (n i : Nat) : (i + 1) &&& (capacity n - 1) = (i + 1) % capacity n := by
  obtain ⟨k, hk⟩ := capacity_isPowerOfTwo n
  rw [hk, Nat.and_two_pow_sub_one_eq_mod]

/-! ## what a frozen index answers -/

section Freeze

variable {runs : List (UInt64 × List UInt32)}

theorem length_slotsOf (runs : List (UInt64 × List UInt32)) :
    (slotsOf runs).length = runs.length := by
  simp [slotsOf]

theorem map_key_slotsOf (runs : List (UInt64 × List UInt32)) :
    (slotsOf runs).map FrozenSlot.key = runs.map Prod.fst := by
  have hlen : runs.length ≤ (rowStarts (runs.map Prod.snd)).length := by simp
  rw [slotsOf, map_map]
  conv_rhs => rw [← map_fst_zip hlen, map_map]
  rfl

variable {key : UInt64} {ids : List UInt32}

variable {i : Nat}

theorem getElem?_slotsOf (h : runs[i]? = some (key, ids)) :
    (slotsOf runs)[i]? = some ⟨key, UInt32.ofNat (rowStart (runs.map Prod.snd) i),
      UInt32.ofNat ids.length⟩ := by
  have hi := (List.getElem?_eq_some_iff.mp h).1
  have hstart := @getElem?_rowStarts _ (runs.map Prod.snd) i (by simpa using hi)
  rw [slotsOf, getElem?_map, List.zip, getElem?_zipWith, h, hstart]
  rfl

theorem span_slotsOf (hblob : (freeze runs).blob.length < 2 ^ 32) (h : runs[i]? = some (key, ids)) :
    (UInt32.ofNat (rowStart (runs.map Prod.snd) i)).toNat = rowStart (runs.map Prod.snd) i ∧
      (UInt32.ofNat ids.length).toNat = ids.length ∧
      rowStart (runs.map Prod.snd) i + ids.length ≤ (freeze runs).blob.length ∧
      sliceAt (freeze runs).blob (rowStart (runs.map Prod.snd) i) ids.length = ids := by
  have hrow : (runs.map Prod.snd)[i]? = some ids := by rw [getElem?_map, h]; rfl
  have hend := rowStart_add_length_le hrow
  have hblob' : (runs.map Prod.snd).flatten.length < 2 ^ 32 := hblob
  refine ⟨UInt32.toNat_ofNat_of_lt' ?_, UInt32.toNat_ofNat_of_lt' ?_, hend, slice_flatten hrow⟩
  · simp only [UInt32.size]
    omega
  · simp only [UInt32.size]
    omega

variable (hkeys : ∀ r ∈ runs, r.1 ≠ 0) (hnodup : (runs.map Prod.fst).Nodup)

variable {s : FrozenSlot}

include hkeys in
theorem key_ne_zero_of_mem_slotsOf (hs : s ∈ slotsOf runs) : s.key ≠ 0 := by
  have hmem : s.key ∈ runs.map Prod.fst := map_key_slotsOf runs ▸ mem_map_of_mem hs
  obtain ⟨r, hr, heq⟩ := mem_map.mp hmem
  exact heq ▸ hkeys r hr

include hkeys in
/-- The vacant key finds nothing: a vacant slot spans no ids. -/
theorem probe_freeze_zero : ((freeze runs).probe 0).getD [] = [] := by
  unfold probe
  cases hslot : probeFrom FrozenSlot.key 0 (fun i => (i + 1) &&& ((freeze runs).slots.length - 1))
      (freeze runs).slots.length (freeze runs).slots (home (freeze runs).slots.length 0) 0 with
  | none => rfl
  | some t =>
    obtain ⟨hmem, hzero⟩ := mem_of_probeFrom hslot
    rcases mem_of_mem_freezeTable hmem with hplaced | rfl
    · exact absurd hzero (key_ne_zero_of_mem_slotsOf hkeys hplaced)
    · rfl

include hkeys hnodup

theorem filled_freeze : Filled FrozenSlot.key 0 (home (capacity runs.length)) (capacity runs.length)
    (slotsOf runs) (freeze runs).slots := by
  refine filled_freezeTable rfl (home_lt runs.length) ?_ ?_ ?_
  · rw [length_slotsOf]
    exact (lt_capacity _).le
  · exact fun _ => key_ne_zero_of_mem_slotsOf hkeys
  · rwa [map_key_slotsOf]

theorem exists_vacant_freeze : ∃ s ∈ (freeze runs).slots, s.key = 0 := by
  obtain ⟨p, t, ht, hvac⟩ := (filled_freeze hkeys hnodup).exists_vacant
    (by rw [length_slotsOf]; exact lt_capacity _)
  exact ⟨t, mem_of_getElem? ht, hvac⟩

/-- A run that starts within the offsets is found exactly when its length fits
the slot, too. -/
theorem probe_freeze_iff (h : runs[i]? = some (key, ids))
    (hstart : rowStart (runs.map Prod.snd) i < 2 ^ 32) :
    (freeze runs).probe key = some ids ↔ ids.length < 2 ^ 32 := by
  have hfilled := filled_freeze hkeys hnodup
  have hprobe := hfilled.probe (home_lt runs.length) (fun i _ => next_eq_mod runs.length i)
    (mem_of_getElem? (getElem?_slotsOf h))
  have hrow : (runs.map Prod.snd)[i]? = some ids := by rw [getElem?_map, h]; rfl
  have hend : rowStart (runs.map Prod.snd) i + ids.length ≤ (freeze runs).blob.length :=
    rowStart_add_length_le hrow
  have hoff : (UInt32.ofNat (rowStart (runs.map Prod.snd) i)).toNat = rowStart (runs.map Prod.snd) i :=
    UInt32.toNat_ofNat_of_lt' hstart
  have hlen : (UInt32.ofNat ids.length).toNat = ids.length % 2 ^ 32 := UInt32.toNat_ofNat'
  have hle : ids.length % 2 ^ 32 ≤ ids.length := Nat.mod_le _ _
  have hfound : (freeze runs).probe key = some (sliceAt (freeze runs).blob
      (rowStart (runs.map Prod.snd) i) (ids.length % 2 ^ 32)) := by
    rw [probe, hfilled.length]
    simp only [hprobe, Option.bind_eq_bind, Option.bind_some, hoff, hlen]
    rw [if_pos (by omega)]
  rw [hfound, Option.some.injEq]
  constructor
  · intro heq
    have hcut : ids.length ≤ ids.length % 2 ^ 32 := by
      conv_lhs => rw [← heq]
      exact length_take_le _ _
    exact hcut.trans_lt (Nat.mod_lt _ (by decide))
  · intro hfits
    rw [Nat.mod_eq_of_lt hfits]
    exact slice_flatten hrow

/-- **A frozen index answers a key with its run.** -/
theorem probe_freeze (hblob : (freeze runs).blob.length < 2 ^ 32) (h : (key, ids) ∈ runs) :
    (freeze runs).probe key = some ids := by
  obtain ⟨i, hi⟩ := mem_iff_getElem?.mp h
  obtain ⟨-, -, hend, -⟩ := span_slotsOf hblob hi
  exact (probe_freeze_iff hkeys hnodup hi (by omega)).mpr (by omega)

/-- **A frozen index has nothing under any other key.** -/
theorem probe_freeze_eq_none (hkey : key ≠ 0) (hnot : key ∉ runs.map Prod.fst) :
    (freeze runs).probe key = none := by
  have hfilled := filled_freeze hkeys hnodup
  rw [probe, hfilled.length, hfilled.probe_eq_none hkey (by rwa [map_key_slotsOf])]
  rfl

theorem span_of_mem_slots (hblob : (freeze runs).blob.length < 2 ^ 32)
    (hs : s ∈ (freeze runs).slots) (hkey : s.key ≠ 0) :
    s.offset.toNat + s.len.toNat ≤ (freeze runs).blob.length ∧
      (s.key, sliceAt (freeze runs).blob s.offset.toNat s.len.toNat) ∈ runs := by
  have hmem : s ∈ slotsOf runs :=
    (filled_freeze hkeys hnodup).stored.mem_iff.mp (mem_filter.mpr ⟨hs, by simpa using hkey⟩)
  obtain ⟨i, hi⟩ := mem_iff_getElem?.mp hmem
  have hlt : i < runs.length := length_slotsOf runs ▸ (List.getElem?_eq_some_iff.mp hi).1
  have hrun : runs[i]? = some (runs[i].1, runs[i].2) := getElem?_eq_getElem hlt
  rw [getElem?_slotsOf hrun] at hi
  cases hi
  obtain ⟨hstart, hlen, hend, hslice⟩ := span_slotsOf hblob hrun
  rw [hstart, hlen, hslice]
  exact ⟨hend, getElem_mem hlt⟩

end Freeze

end FrozenIndex

end ReverseRusty
