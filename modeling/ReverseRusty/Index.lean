import ReverseRusty.Lib.Slice

/-!
# ReverseRusty.Index

The candidate index (`index.rs`): signature keys mapped to posting lists
of segment-local ids.  A posting changes representation as it grows:
`mem_ids_push` says that no change of representation loses an id, and
`forEachWhile_pushed` what a callback is offered.
-/

namespace ReverseRusty

open List

/-! ## postings -/

def inlineCap : Nat := 8

/-- Postings above this cardinality become compressed bitmaps. -/
def roaringThreshold : Nat := 256

/-- A posting list by cardinality: inline ids, a vector, or a bitmap whose
ids are read back in ascending order. -/
inductive Posting where
  | inline (ids : List Nat)
  | heap (ids : List Nat)
  | roaring (ids : List Nat)
deriving DecidableEq, Repr

namespace Posting

def new (first : Nat) : Posting := .inline [first]

def push : Posting → Nat → Posting
  | .inline ids, id => if ids.length < inlineCap then .inline (ids ++ [id]) else .heap (ids ++ [id])
  | .heap ids, id =>
    if (ids ++ [id]).length > roaringThreshold then .roaring (sortDedup (ids ++ [id]))
    else .heap (ids ++ [id])
  | .roaring ids, id => .roaring (sortDedup (ids ++ [id]))

/-- The ids in iteration order. -/
def ids : Posting → List Nat
  | .inline ids | .heap ids | .roaring ids => ids

/-- Offer ids in order to a callback with state, until it refuses one. -/
def offerWhile {σ : Type*} (f : σ → Nat → Bool × σ) : List Nat → σ → σ
  | [], s => s
  | id :: ids, s => if (f s id).1 then offerWhile f ids (f s id).2 else (f s id).2

/-- Iterate until the callback refuses an id. -/
def forEachWhile {σ : Type*} (f : σ → Nat → Bool × σ) : Posting → σ → σ
  | .inline ids | .heap ids | .roaring ids => offerWhile f ids

@[simp] theorem ids_new (i : Nat) : (new i).ids = [i] := rfl

@[simp] theorem mem_ids_push {p : Posting} {i j : Nat} : i ∈ (p.push j).ids ↔ i ∈ p.ids ∨ i = j := by
  unfold push
  split <;> (try split) <;> simp [ids]

theorem ids_push {p : Posting} {id : Nat} (h : (p.ids ++ [id]).Pairwise (· < ·)) :
    (p.push id).ids = p.ids ++ [id] := by
  cases p with
  | inline ids => rw [push]; split <;> rfl
  | heap ids =>
    rw [push]
    split
    · exact sortDedup_eq_self h
    · rfl
  | roaring ids => exact sortDedup_eq_self h

theorem ids_foldl_push {p : Posting} {ids : List Nat} (h : (p.ids ++ ids).Pairwise (· < ·)) :
    (ids.foldl push p).ids = p.ids ++ ids := by
  induction ids generalizing p with
  | nil => simp
  | cons id ids ih =>
    rw [← singleton_append, ← append_assoc] at h ⊢
    have hpush := ids_push (h.sublist (sublist_append_left _ ids))
    rw [singleton_append, foldl_cons, ih (by rwa [hpush]), hpush]

/-- The callback was offered `visited` and not `unvisited`: it accepted all
but the last of the one, and refused the last if there is any of the
other. -/
structure StopsAtRefusal {σ : Type*} (f : σ → Nat → Bool × σ) (s : σ)
    (visited unvisited : List Nat) : Prop where
  accepted : ∀ before id after, visited = before ++ id :: after → after ≠ [] →
    (f (before.foldl (fun s id => (f s id).2) s) id).1 = true
  refused : unvisited ≠ [] → ∃ before id, visited = before ++ [id] ∧
    (f (before.foldl (fun s id => (f s id).2) s) id).1 = false

section Offer

variable {σ : Type*} (f : σ → Nat → Bool × σ)

theorem offerWhile_eq (ids : List Nat) (s : σ) :
    ∃ visited unvisited, visited ++ unvisited = ids ∧ StopsAtRefusal f s visited unvisited ∧
      offerWhile f ids s = visited.foldl (fun s id => (f s id).2) s := by
  induction ids generalizing s with
  | nil => exact ⟨[], [], rfl, ⟨by simp, by simp⟩, rfl⟩
  | cons id ids ih =>
    rw [offerWhile]
    split
    · next hgo =>
      obtain ⟨visited, unvisited, happend, hstops, hstate⟩ := ih (f s id).2
      refine ⟨id :: visited, unvisited, by rw [cons_append, happend], ⟨?_, fun hleft => ?_⟩, hstate⟩
      · intro before i after hsplit hafter
        cases before with
        | nil =>
          cases hsplit
          exact hgo
        | cons b before =>
          obtain ⟨rfl, htail⟩ := cons.inj hsplit
          exact hstops.accepted before i after htail hafter
      · obtain ⟨before, i, rfl, hno⟩ := hstops.refused hleft
        exact ⟨id :: before, i, rfl, hno⟩
    · next hno =>
      refine ⟨[id], ids, rfl, ⟨?_, fun _ => ⟨[], id, rfl, by simpa using hno⟩⟩, rfl⟩
      intro before i after hsplit hafter
      obtain - | ⟨b, before⟩ := before
      · cases hsplit
        contradiction
      · simp at hsplit

/-- **Postings of all sizes agree**: after any ascending pushes, a callback
is offered the pushed ids in order, up to the first it refuses. -/
theorem forEachWhile_pushed (first : Nat) (rest : List Nat)
    (h : (first :: rest).Pairwise (· < ·)) (s : σ) :
    ∃ visited unvisited, visited ++ unvisited = first :: rest ∧
      StopsAtRefusal f s visited unvisited ∧
      (rest.foldl push (new first)).forEachWhile f s =
        visited.foldl (fun s id => (f s id).2) s := by
  have hids : (rest.foldl push (new first)).ids = first :: rest := ids_foldl_push h
  have hoffer : (rest.foldl push (new first)).forEachWhile f s = offerWhile f (first :: rest) s := by
    rw [← hids]
    cases rest.foldl push (new first) <;> rfl
  rw [hoffer]
  exact offerWhile_eq f (first :: rest) s

end Offer

/-- Ten ids are in a vector, and a callback that refuses the seventh is
offered seven. -/
theorem forEachWhile_ten :
    let f := fun (seen : List Nat) id => (id != 6, seen ++ [id])
    ∃ visited unvisited, visited ++ unvisited = range 10 ∧ StopsAtRefusal f [] visited unvisited ∧
      range 7 = visited.foldl (fun s id => (f s id).2) [] :=
  forEachWhile_pushed (fun seen id => (id != 6, seen ++ [id])) 0 (range 10).tail (by decide) []

end Posting

/-! ## the index -/

/-- Signature keys to postings. -/
abbrev CandidateIndex := AList fun _ : UInt64 => Posting

namespace CandidateIndex

def new : CandidateIndex := ∅

def get (idx : CandidateIndex) (key : UInt64) : Option Posting := idx.lookup key

def insertId (idx : CandidateIndex) (key : UInt64) (id : Nat) : CandidateIndex :=
  match idx.get key with
  | some p => AList.insert key (p.push id) idx
  | none => AList.insert key (Posting.new id) idx

def insertAll (idx : CandidateIndex) (keys : List UInt64) (id : Nat) : CandidateIndex :=
  keys.foldl (fun idx key => idx.insertId key id) idx

def numSignatures (idx : CandidateIndex) : Nat := idx.entries.length

def postings (idx : CandidateIndex) (key : UInt64) : List Nat :=
  match idx.get key with
  | some p => p.ids
  | none => []

@[simp] theorem postings_new (key : UInt64) : new.postings key = [] := rfl

variable {idx : CandidateIndex} {key k : UInt64} {i id : Nat}

theorem mem_postings_insertId :
    i ∈ (idx.insertId key id).postings k ↔ i ∈ idx.postings k ∨ (k = key ∧ i = id) := by
  by_cases hk : k = key
  · subst hk
    unfold insertId postings
    cases hget : idx.get k with
    | some p => simp [get, Posting.mem_ids_push]
    | none => simp [get]
  · unfold insertId postings
    cases hget : idx.get key with
    | some p => simp [get, AList.lookup_insert_ne hk, hk]
    | none => simp [get, AList.lookup_insert_ne hk, hk]

variable {keys : List UInt64}

@[simp] theorem mem_postings_insertAll :
    i ∈ (idx.insertAll keys id).postings k ↔ i ∈ idx.postings k ∨ (k ∈ keys ∧ i = id) := by
  unfold insertAll
  induction keys generalizing idx with
  | nil => simp
  | cons key keys ih =>
    rw [foldl_cons, ih, mem_postings_insertId, mem_cons]
    grind

theorem mem_keys_insertAll (h : k ∈ (idx.insertAll keys id).keys) : k ∈ idx.keys ∨ k ∈ keys := by
  unfold insertAll at h
  induction keys generalizing idx with
  | nil => exact .inl h
  | cons key keys ih =>
    rw [foldl_cons] at h
    rcases ih h with h | h
    · have hinsert : k = key ∨ k ∈ idx.keys := by
        rw [← AList.mem_keys] at h ⊢
        unfold insertId at h
        split at h <;> exact (AList.mem_insert _).mp h
      rcases hinsert with rfl | hold
      · exact .inr mem_cons_self
      · exact .inl hold
    · exact .inr (mem_cons_of_mem key h)

theorem mem_keys_of_postings (h : i ∈ idx.postings key) : key ∈ idx.keys := by
  rw [← AList.mem_keys, ← AList.lookup_isSome]
  unfold postings get at h
  cases hget : idx.lookup key with
  | some p => rfl
  | none => simp [hget] at h

theorem numSignatures_pos (h : i ∈ idx.postings key) : 0 < idx.numSignatures := by
  have hkey := mem_keys_of_postings h
  rw [AList.keys, List.keys] at hkey
  exact length_pos_of_mem (mem_map.mp hkey).choose_spec.1

end CandidateIndex

end ReverseRusty
