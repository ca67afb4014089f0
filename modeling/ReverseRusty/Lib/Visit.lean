import Mathlib

/-!
# ReverseRusty.Lib.Visit

Visiting each id of a stream at most once with an array of epoch stamps:
an id is skipped when its slot already holds the current epoch, otherwise
the slot is stamped and the id's contribution is appended to the output.

`visitAll_out` says what a whole run produces: the contributions of the
distinct unstamped ids, each once, in order of first arrival.
-/

namespace ReverseRusty

open List

section Visit

variable {τ α : Type*} [DecidableEq τ]

/-- Stamps of the ids seen so far and the output produced so far. -/
structure Visit (τ α : Type*) where
  stamps : List τ
  out : List α

def visitOne (epoch : τ) (emit : Nat → List α) (s : Visit τ α) (i : Nat) : Visit τ α :=
  if s.stamps[i]? = some epoch then s
  else { stamps := s.stamps.set i epoch, out := s.out ++ emit i }

def visitAll (epoch : τ) (emit : Nat → List α) (s : Visit τ α) (ids : List Nat) : Visit τ α :=
  ids.foldl (visitOne epoch emit) s

variable {epoch : τ} {emit : Nat → List α} {s : Visit τ α} {ids : List Nat}

@[simp] theorem visitAll_nil : visitAll epoch emit s [] = s := rfl

theorem visitAll_append (ids₁ ids₂ : List Nat) :
    visitAll epoch emit s (ids₁ ++ ids₂) = visitAll epoch emit (visitAll epoch emit s ids₁) ids₂ :=
  foldl_append

variable {κ : Type*}

theorem foldl_visitAll (stream : κ → List Nat) (keys : List κ) :
    keys.foldl (fun s k => visitAll epoch emit s (stream k)) s =
      visitAll epoch emit s (keys.flatMap stream) := by
  induction keys generalizing s with
  | nil => rfl
  | cons k keys ih => rw [foldl_cons, ih, flatMap_cons, visitAll_append]

/-- A run visits the first occurrences of the unstamped ids of its stream,
in order. -/
theorem visitAll_out_eq (hin : ∀ i ∈ ids, i < s.stamps.length) :
    (visitAll epoch emit s ids).out =
      s.out ++ (ids.filter fun i => s.stamps[i]? ≠ some epoch).eraseDups.flatMap emit := by
  induction ids generalizing s with
  | nil => simp
  | cons i ids ih =>
    have hi : i < s.stamps.length := hin i mem_cons_self
    have hids : ∀ j ∈ ids, j < s.stamps.length := fun j hj => hin j (mem_cons_of_mem i hj)
    rw [visitAll, foldl_cons, ← visitAll, visitOne]
    by_cases hstamp : s.stamps[i]? = some epoch
    · rw [if_pos hstamp, ih hids, filter_cons_of_neg (by simpa using hstamp)]
    · rw [if_neg hstamp, ih (by simpa using hids), filter_cons_of_pos (by simpa using hstamp),
        eraseDups_cons, filter_filter, flatMap_cons, append_assoc]
      -- the slot just stamped rules out the later occurrences of its id
      have hset : ∀ j ∈ ids, decide ((s.stamps.set i epoch)[j]? ≠ some epoch) =
          ((!j == i) && decide (s.stamps[j]? ≠ some epoch)) := by
        intro j hj
        rw [getElem?_set]
        by_cases hij : i = j
        · simp [hij, hids j hj]
        · simp [hij, Ne.symm hij]
      rw [filter_congr hset]

theorem nodup_eraseDups [DecidableEq κ] : ∀ xs : List κ, xs.eraseDups.Nodup
  | [] => by simp
  | x :: xs => by
      rw [eraseDups_cons, nodup_cons, mem_eraseDups]
      exact ⟨by simp, nodup_eraseDups _⟩
termination_by xs => xs.length
decreasing_by exact Nat.lt_succ_of_le (length_filter_le _ _)

/-- **A run visits each unstamped id of its stream exactly once.** -/
theorem visitAll_out (hin : ∀ i ∈ ids, i < s.stamps.length) :
    ∃ fresh : List Nat, fresh.Nodup ∧
      (∀ i, i ∈ fresh ↔ i ∈ ids ∧ s.stamps[i]? ≠ some epoch) ∧
      (visitAll epoch emit s ids).out = s.out ++ fresh.flatMap emit :=
  ⟨_, nodup_eraseDups _, fun i => by rw [mem_eraseDups, mem_filter, decide_eq_true_eq],
    visitAll_out_eq hin⟩

theorem flatMap_guard (p : α → Bool) (xs : List α) :
    (xs.flatMap fun x => if p x then [x] else []) = xs.filter p := by
  induction xs with
  | nil => rfl
  | cons x xs ih =>
    rw [flatMap_cons, ih, filter_cons]
    split <;> rfl

end Visit

end ReverseRusty
