import Mathlib

/-!
# ReverseRusty.Lib.Chunks

A list walked in chunks of a fixed size, the last one shorter.
-/

namespace ReverseRusty

open List

variable {α β : Type*}

/-- The number of chunks of size `n` of `len` elements. -/
def numChunks (n len : Nat) : Nat := (len + n - 1) / n

/-- Chunk `c` of size `n`. -/
def chunkOf (n : Nat) (xs : List α) (c : Nat) : List α := (xs.drop (c * n)).take n

theorem length_chunkOf (n : Nat) (xs : List α) (c : Nat) :
    (chunkOf n xs c).length = min n (xs.length - c * n) := by
  rw [chunkOf, length_take, length_drop]

theorem getElem?_chunkOf {n c t : Nat} {xs : List α} (h : t < n) :
    (chunkOf n xs c)[t]? = xs[c * n + t]? := by
  rw [chunkOf, getElem?_take_of_lt h, getElem?_drop]

/-- The places of the first `k` chunks are the first `k * n` places. -/
theorem flatMap_chunks (f : Nat → β) (n len k : Nat) :
    ((List.range k).flatMap fun c =>
      (List.range (min n (len - c * n))).map fun t => f (c * n + t)) =
      (List.range (min (k * n) len)).map f := by
  induction k with
  | zero => simp
  | succ k ih =>
    have hsplit : min ((k + 1) * n) len = min (k * n) len + min n (len - k * n) := by
      rw [Nat.succ_mul]
      omega
    rw [range_succ, flatMap_append, ih, hsplit, range_add, map_append,
      flatMap_singleton, map_map]
    congr 1
    refine map_congr_left fun t ht => ?_
    rw [mem_range] at ht
    have hle : min (k * n) len = k * n := by omega
    rw [Function.comp_apply, hle]

/-- **Walking in chunks visits every place in order.** -/
theorem flatMap_allChunks (f : Nat → β) {n : Nat} (hn : 0 < n) (len : Nat) :
    ((List.range (numChunks n len)).flatMap fun c =>
      (List.range (min n (len - c * n))).map fun t => f (c * n + t)) = (List.range len).map f := by
  have hle : len ≤ numChunks n len * n := by
    have hdiv := Nat.div_add_mod (len + n - 1) n
    have hmod := Nat.mod_lt (len + n - 1) hn
    rw [numChunks, Nat.mul_comm]
    omega
  rw [flatMap_chunks, Nat.min_eq_right hle]

end ReverseRusty
