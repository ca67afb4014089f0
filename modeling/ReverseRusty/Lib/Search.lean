import Mathlib

/-!
# ReverseRusty.Lib.Search

Depth-first search for a goal over a successor function.  The state is a stack
of nodes to expand and the nodes seen so far; a node is pushed when it is first
seen, so it is expanded at most once.

* `search_iff`: an answer says whether a start leads to a goal.
* `search_isSome`: with all successors in a finite list, fuel for one pop a
  node is enough.
-/

namespace ReverseRusty

open List

section Search

variable {α : Type*} [DecidableEq α]

/-- Push the nodes that were not seen. -/
def schedule : List α → List α × List α → List α × List α
  | [], s => s
  | n :: ns, s => if n ∈ s.2 then schedule ns s else schedule ns (n :: s.1, n :: s.2)

variable (succs : α → List α) (goal : α → Bool)

/-- Pop and expand nodes until a goal is popped or the stack is empty. -/
def search : Nat → List α × List α → Option Bool
  | 0, _ => none
  | _ + 1, ([], _) => some false
  | fuel + 1, (n :: rest, seen) =>
    if goal n then some true else search fuel (schedule (succs n) (rest, seen))

def LeadsTo : α → α → Prop := Relation.ReflTransGen fun n m => m ∈ succs n

variable {succs goal} {s : List α × List α}

theorem schedule_cons_of_mem {n : α} {ns stack seen : List α} (h : n ∈ seen) :
    schedule (n :: ns) (stack, seen) = schedule ns (stack, seen) :=
  if_pos h

theorem schedule_cons_of_not_mem {n : α} {ns stack seen : List α} (h : n ∉ seen) :
    schedule (n :: ns) (stack, seen) = schedule ns (n :: stack, n :: seen) :=
  if_neg h

theorem schedule_append (ns ns' : List α) (s : List α × List α) :
    schedule (ns ++ ns') s = schedule ns' (schedule ns s) := by
  induction ns generalizing s with
  | nil => rfl
  | cons n ns ih =>
    rw [cons_append, schedule, schedule]
    split
    · exact ih s
    · exact ih _

theorem mem_stack_schedule {ns : List α} {m : α} (h : m ∈ (schedule ns s).1) :
    m ∈ s.1 ∨ m ∈ ns := by
  induction ns generalizing s with
  | nil => exact .inl h
  | cons n ns ih =>
    rw [schedule] at h
    split at h
    · rcases ih h with h | h
      · exact .inl h
      · exact .inr (mem_cons_of_mem _ h)
    · rcases ih h with h | h
      · rcases mem_cons.mp h with rfl | h
        · exact .inr mem_cons_self
        · exact .inl h
      · exact .inr (mem_cons_of_mem _ h)

theorem mem_seen_schedule {ns : List α} {m : α} :
    m ∈ (schedule ns s).2 ↔ m ∈ s.2 ∨ m ∈ ns := by
  induction ns generalizing s with
  | nil => simp [schedule]
  | cons n ns ih =>
    rw [schedule]
    split
    · next hn => grind
    · grind

theorem stack_subset_schedule {ns : List α} {m : α} (h : m ∈ s.1) : m ∈ (schedule ns s).1 := by
  induction ns generalizing s with
  | nil => exact h
  | cons n ns ih =>
    rw [schedule]
    split
    · exact ih h
    · exact ih (mem_cons_of_mem _ h)

theorem mem_stack_of_seen {ns : List α} {m : α} (h : m ∈ (schedule ns s).2) :
    m ∈ s.2 ∨ m ∈ (schedule ns s).1 := by
  induction ns generalizing s with
  | nil => exact .inl h
  | cons n ns ih =>
    rw [schedule] at h ⊢
    split at h
    · next hn =>
      rw [if_pos hn]
      exact ih h
    · next hn =>
      rw [if_neg hn]
      rcases ih h with h | h
      · rcases mem_cons.mp h with rfl | h
        · exact .inr (stack_subset_schedule mem_cons_self)
        · exact .inl h
      · exact .inr h

/-! ## what an answer means -/

/-- What was seen is on the stack, or is no goal and has its successors seen. -/
def Explored (succs : α → List α) (goal : α → Bool) (s : List α × List α) : Prop :=
  ∀ n ∈ s.2, n ∈ s.1 ∨ (goal n = false ∧ ∀ m ∈ succs n, m ∈ s.2)

theorem Explored.schedule {n : α} {rest seen : List α}
    (h : Explored succs goal (n :: rest, seen)) (hgoal : goal n = false) :
    Explored succs goal (ReverseRusty.schedule (succs n) (rest, seen)) := by
  intro m hm
  rcases mem_stack_of_seen hm with hm | hm
  · rcases h m hm with hm' | ⟨hm', hsuccs⟩
    · rcases mem_cons.mp hm' with rfl | hm'
      · exact .inr ⟨hgoal, fun k hk => mem_seen_schedule.mpr (.inr hk)⟩
      · exact .inl (stack_subset_schedule hm')
    · exact .inr ⟨hm', fun k hk => mem_seen_schedule.mpr (.inl (hsuccs k hk))⟩
  · exact .inl hm

variable {fuel : Nat}

theorem exists_of_search (h : search succs goal fuel s = some true) :
    ∃ n ∈ s.1, ∃ m, LeadsTo succs n m ∧ goal m = true := by
  induction fuel generalizing s with
  | zero => simp [search] at h
  | succ fuel ih =>
    obtain ⟨stack, seen⟩ := s
    cases stack with
    | nil => simp [search] at h
    | cons n rest =>
      rw [search] at h
      split at h
      · next hgoal => exact ⟨n, mem_cons_self, n, .refl, hgoal⟩
      · obtain ⟨k, hk, m, hkm, hm⟩ := ih h
        rcases mem_stack_schedule hk with hk | hk
        · exact ⟨k, mem_cons_of_mem _ hk, m, hkm, hm⟩
        · exact ⟨n, mem_cons_self, m, .head hk hkm, hm⟩

theorem forall_of_search (hs : Explored succs goal s) (h : search succs goal fuel s = some false)
    {n m : α} (hn : n ∈ s.2) (hnm : LeadsTo succs n m) : goal m = false := by
  induction fuel generalizing s with
  | zero => simp [search] at h
  | succ fuel ih =>
    obtain ⟨stack, seen⟩ := s
    cases stack with
    | nil =>
      -- the seen nodes are closed under successors and hold no goal
      have hclosed : ∀ k ∈ seen, goal k = false ∧ ∀ m ∈ succs k, m ∈ seen := fun k hk =>
        (hs k hk).resolve_left not_mem_nil
      have hm : m ∈ seen := by
        clear ih
        induction hnm with
        | refl => exact hn
        | tail _ hstep hmem => exact (hclosed _ hmem).2 _ hstep
      exact (hclosed m hm).1
    | cons k rest =>
      rw [search] at h
      split at h
      · simp at h
      · next hgoal =>
        exact ih (hs.schedule (by simpa using hgoal)) h (mem_seen_schedule.mpr (.inl hn))

/-- **An answer says whether a start leads to a goal.** -/
theorem search_iff {starts : List α} {b : Bool}
    (h : search succs goal fuel (starts, starts) = some b) :
    b = true ↔ ∃ n ∈ starts, ∃ m, LeadsTo succs n m ∧ goal m = true := by
  cases b with
  | true => exact ⟨fun _ => exists_of_search h, fun _ => rfl⟩
  | false =>
    refine ⟨fun h => by simp at h, ?_⟩
    rintro ⟨n, hn, m, hnm, hm⟩
    have hno := forall_of_search (s := (starts, starts)) (fun k hk => .inl hk) h hn hnm
    rw [hm] at hno
    exact hno.symm

/-! ## fuel -/

def unseen (nodes seen : List α) : Nat := (nodes.filter (· ∉ seen)).length

theorem unseen_cons_lt {nodes seen : List α} {n : α} (hn : n ∈ nodes) (hs : n ∉ seen) :
    unseen nodes (n :: seen) < unseen nodes seen := by
  have hsplit : (nodes.filter (· ∉ n :: seen)) =
      (nodes.filter (· ∉ seen)).filter (· ≠ n) := by
    rw [filter_filter]
    refine filter_congr fun m _ => ?_
    simp [not_or]
  rw [unseen, unseen, hsplit]
  refine length_filter_lt_length_iff_exists.mpr ⟨n, ?_, by simp⟩
  exact mem_filter.mpr ⟨hn, by simpa using hs⟩

theorem schedule_measure {nodes ns : List α} (hns : ∀ n ∈ ns, n ∈ nodes) (s : List α × List α) :
    (schedule ns s).1.length + unseen nodes (schedule ns s).2 ≤ s.1.length + unseen nodes s.2 := by
  induction ns generalizing s with
  | nil => exact Nat.le_refl _
  | cons n ns ih =>
    have ih := ih fun m hm => hns m (mem_cons_of_mem _ hm)
    rw [schedule]
    split
    · exact ih s
    · next hn =>
      have hlt := unseen_cons_lt (hns n mem_cons_self) hn
      have hle := ih (n :: s.1, n :: s.2)
      simp only [length_cons] at hle
      omega

/-- **Enough fuel gives an answer.** -/
theorem search_isSome {nodes : List α} (hnodes : ∀ n, ∀ m ∈ succs n, m ∈ nodes)
    (hfuel : s.1.length + unseen nodes s.2 < fuel) : (search succs goal fuel s).isSome = true := by
  induction fuel generalizing s with
  | zero => omega
  | succ fuel ih =>
    obtain ⟨stack, seen⟩ := s
    cases stack with
    | nil => rfl
    | cons n rest =>
      rw [search]
      split
      · rfl
      · have hle : _ ≤ rest.length + unseen nodes seen :=
          schedule_measure (hnodes n) (rest, seen)
        simp only [length_cons] at hfuel
        exact ih (by omega)

end Search

end ReverseRusty
