import ReverseRusty.Lib.Bytes
import ReverseRusty.SigKey

/-!
# ReverseRusty.HashRing

The consistent-hash ring over feature ids (`cluster/ring.rs`).

Each shard has virtual nodes at hashed positions, and a feature belongs to the
first virtual node clockwise of its own hash.  Where two virtual nodes fall on
one position the later shard has it.

Main result: `grown_ring_consistent`.
-/

namespace ReverseRusty

open List

/-! ## clockwise successors -/

section Successor

variable {α : Type*} [LinearOrder α]

/-- The first position clockwise of `h`, past the end the first of all. -/
def clockwise (positions : List α) (h : α) : Option α :=
  (positions.filter (h ≤ ·)).min?.or positions.min?

/-- No other position lies between `h` and `p`, going clockwise. -/
structure IsClockwise (positions : List α) (h p : α) : Prop where
  mem : p ∈ positions
  nearest : h ≤ p ∧ (∀ q ∈ positions, h ≤ q → p ≤ q) ∨
    (∀ q ∈ positions, q < h) ∧ ∀ q ∈ positions, p ≤ q

variable {positions : List α} {h p p' : α}

theorem IsClockwise.unique (hp : IsClockwise positions h p) (hp' : IsClockwise positions h p') :
    p = p' := by
  rcases hp.nearest with ⟨hle, hnear⟩ | ⟨hall, hnear⟩
  · rcases hp'.nearest with ⟨hle', hnear'⟩ | ⟨hall', -⟩
    · exact le_antisymm (hnear p' hp'.mem hle') (hnear' p hp.mem hle)
    · exact absurd hle (hall' p hp.mem).not_ge
  · rcases hp'.nearest with ⟨hle', -⟩ | ⟨-, hnear'⟩
    · exact absurd hle' (hall p' hp'.mem).not_ge
    · exact le_antisymm (hnear p' hp'.mem) (hnear' p hp.mem)

theorem IsClockwise.subset (hp : IsClockwise positions h p) {fewer : List α}
    (hfewer : fewer ⊆ positions) (hmem : p ∈ fewer) : IsClockwise fewer h p where
  mem := hmem
  nearest := hp.nearest.imp
    (fun ⟨hle, hnear⟩ => ⟨hle, fun q hq => hnear q (hfewer hq)⟩)
    (fun ⟨hall, hnear⟩ => ⟨fun q hq => hall q (hfewer hq), fun q hq => hnear q (hfewer hq)⟩)

theorem exists_clockwise (h : α) (hne : positions ≠ []) :
    ∃ p, clockwise positions h = some p ∧ IsClockwise positions h p := by
  unfold clockwise
  cases hmin : (positions.filter (h ≤ ·)).min? with
  | some p =>
    obtain ⟨hmem, hle⟩ := min?_eq_some_iff.mp hmin
    simp only [mem_filter, decide_eq_true_eq, and_imp] at hmem hle
    exact ⟨p, rfl, hmem.1, .inl ⟨hmem.2, hle⟩⟩
  | none =>
    obtain ⟨p, hp⟩ := Option.ne_none_iff_exists'.mp fun hnone => hne (min?_eq_none_iff.mp hnone)
    obtain ⟨hmem, hle⟩ := min?_eq_some_iff.mp hp
    refine ⟨p, hp, hmem, .inr ⟨fun q hq => ?_, hle⟩⟩
    simpa using filter_eq_nil_iff.mp (min?_eq_none_iff.mp hmin) q hq

end Successor

/-! ## the ring -/

/-- Positions on the ring: the hash, spread by two more multiplications. -/
def ringHash (bytes : List UInt8) : UInt64 :=
  let h := fnv1a64 bytes
  let h := h ^^^ (h >>> 33)
  let h := h * 0xff51afd7ed558ccd
  let h := h ^^^ (h >>> 33)
  let h := h * 0xc4ceb9fe1a85ec53
  h ^^^ (h >>> 33)

/-- The position of one virtual node of a shard. -/
def vnodePos (shard : Nat) (vnode : Nat) : UInt64 :=
  ringHash (leBytes 8 shard ++ leBytes 4 vnode)

/-- Points on the ring, each of a shard. -/
structure HashRing where
  ring : AList fun _ : UInt64 => Nat
  numShards : Nat

namespace HashRing

/-- The virtual nodes of a shard, at least one. -/
def vnodesOf (vnodes : UInt32) (shard : Nat) : List (UInt64 × Nat) :=
  (List.range (max vnodes.toNat 1)).map fun v => (vnodePos shard v, shard)

/-- Put virtual nodes on the ring; the last writer of a position has it. -/
def insertAll (ring : AList fun _ : UInt64 => Nat) (entries : List (UInt64 × Nat)) :
    AList fun _ : UInt64 => Nat :=
  entries.foldl (fun ring entry => ring.insert entry.1 entry.2) ring

def ofShards (vnodes : UInt32) (numShards : Nat) : HashRing :=
  ⟨insertAll ∅ ((List.range numShards).flatMap (vnodesOf vnodes)), numShards⟩

def new (numShards : Nat) (vnodes : UInt32) : Except String HashRing :=
  if numShards = 0 then .error "HashRing needs at least one shard" else .ok (ofShards vnodes numShards)

/-- The shard that owns a feature. -/
def lookup (r : HashRing) (feature : FeatureId) : Nat :=
  ((clockwise r.ring.keys (ringHash (leBytes 4 feature.toNat))).bind r.ring.lookup).getD 0

section Insert

variable {ring : AList fun _ : UInt64 => Nat} {entries : List (UInt64 × Nat)} {p : UInt64}

theorem lookup_insertAll {shard : Nat} (h : (insertAll ring entries).lookup p = some shard) :
    ring.lookup p = some shard ∨ (p, shard) ∈ entries := by
  induction entries generalizing ring with
  | nil => exact .inl h
  | cons entry entries ih =>
    rcases ih h with hold | hnew
    · by_cases hp : p = entry.1
      · subst hp
        rw [AList.lookup_insert] at hold
        exact .inr (mem_cons.mpr (.inl (Prod.ext rfl (Option.some.inj hold).symm)))
      · rw [AList.lookup_insert_ne hp] at hold
        exact .inl hold
    · exact .inr (mem_cons_of_mem _ hnew)

theorem keys_subset_insertAll : ring.keys ⊆ (insertAll ring entries).keys := by
  induction entries generalizing ring with
  | nil => exact List.Subset.refl _
  | cons entry entries ih =>
    intro q hq
    refine ih (AList.mem_keys.mp ((AList.mem_insert ring).mpr (.inr ?_)))
    exact AList.mem_keys.mpr hq

theorem mem_keys_insertAll {entry : UInt64 × Nat} (h : entry ∈ entries) :
    entry.1 ∈ (insertAll ring entries).keys := by
  induction entries generalizing ring with
  | nil => contradiction
  | cons head entries ih =>
    rcases mem_cons.mp h with rfl | h
    · have hin : entry.1 ∈ (ring.insert entry.1 entry.2).keys :=
        AList.mem_keys.mp ((AList.mem_insert ring).mpr (.inl rfl))
      exact (keys_subset_insertAll hin : _ ∈ (insertAll (ring.insert entry.1 entry.2) entries).keys)
    · exact ih h

end Insert

theorem exists_lookup {r : HashRing} (hne : r.ring.keys ≠ []) (feature : FeatureId) :
    ∃ p, IsClockwise r.ring.keys (ringHash (leBytes 4 feature.toNat)) p ∧
      r.ring.lookup p = some (r.lookup feature) := by
  obtain ⟨p, hp, hclock⟩ := exists_clockwise (ringHash (leBytes 4 feature.toNat)) hne
  obtain ⟨shard, hshard⟩ :=
    Option.isSome_iff_exists.mp (AList.lookup_isSome.mpr (AList.mem_keys.mpr hclock.mem))
  refine ⟨p, hclock, ?_⟩
  rw [lookup, hp, Option.bind_some, hshard, Option.getD_some]

/-- More virtual nodes: a feature is where it was, or on a shard of theirs. -/
theorem lookup_grown {old grown : HashRing} {added : List (UInt64 × Nat)} (hne : old.ring.keys ≠ [])
    (hgrown : grown.ring = insertAll old.ring added) (feature : FeatureId) :
    grown.lookup feature = old.lookup feature ∨ ∃ p, (p, grown.lookup feature) ∈ added := by
  have hmore : old.ring.keys ⊆ grown.ring.keys := hgrown ▸ keys_subset_insertAll
  obtain ⟨p, hp, hshard⟩ := exists_lookup hne feature
  obtain ⟨p', hp', hshard'⟩ :=
    exists_lookup (fun hnil => hne (subset_nil.mp (hnil ▸ hmore))) feature
  rcases lookup_insertAll (hgrown ▸ hshard') with hold | hin
  · -- the position was on the smaller ring, and nearest there too
    have hmem : p' ∈ old.ring.keys := AList.mem_keys.mp (AList.lookup_isSome.mp (hold ▸ rfl))
    rw [(hp'.subset hmore hmem).unique hp, hshard] at hold
    exact .inl (Option.some.inj hold).symm
  · exact .inr ⟨p', hin⟩

theorem keys_ofShards_ne_nil (vnodes : UInt32) (k : Nat) : (ofShards vnodes (k + 1)).ring.keys ≠ [] := by
  have hfirst : (vnodePos 0 0, 0) ∈ (List.range (k + 1)).flatMap (vnodesOf vnodes) :=
    mem_flatMap.mpr ⟨0, by simp, mem_map.mpr ⟨0, by simp, rfl⟩⟩
  exact ne_nil_of_mem (mem_keys_insertAll hfirst)

theorem shard_of_mem_vnodes {vnodes : UInt32} {p : UInt64} {shard : Nat} {shards : List Nat}
    (h : (p, shard) ∈ shards.flatMap (vnodesOf vnodes)) : shard ∈ shards := by
  obtain ⟨s, hs, hin⟩ := mem_flatMap.mp h
  obtain ⟨v, -, heq⟩ := mem_map.mp hin
  exact (Prod.mk.inj heq).2 ▸ hs

/-- **Growing a ring**: on the larger ring a feature is where it was or on a new
shard, so a feature on an old shard is where the smaller ring has it. -/
theorem grown_ring_consistent (vnodes : UInt32) (k m : Nat) (feature : FeatureId) :
    ∃ old grown, HashRing.new (k + 1) vnodes = .ok old ∧
      HashRing.new (k + 1 + m) vnodes = .ok grown ∧
      (grown.lookup feature = old.lookup feature ∨
        k + 1 ≤ grown.lookup feature ∧ grown.lookup feature < k + 1 + m) ∧
      (grown.lookup feature < k + 1 → old.lookup feature = grown.lookup feature) := by
  have hgrown : (ofShards vnodes (k + 1 + m)).ring = insertAll (ofShards vnodes (k + 1)).ring
      ((List.range' (k + 1) m).flatMap (vnodesOf vnodes)) := by
    rw [ofShards, range_add, flatMap_append, ← range'_eq_map_range]
    exact foldl_append
  refine ⟨_, _, if_neg (by omega), if_neg (by omega), ?_⟩
  rcases lookup_grown (keys_ofShards_ne_nil vnodes k) hgrown feature with hsame | ⟨p, hin⟩
  · exact ⟨.inl hsame, fun _ => hsame.symm⟩
  · obtain ⟨i, hi, heq⟩ := mem_range'.mp (shard_of_mem_vnodes hin)
    exact ⟨.inr (by omega), fun hlt => by omega⟩

end HashRing

end ReverseRusty
