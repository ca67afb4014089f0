import Mathlib

/-!
# ReverseRusty.Lib.Outcome

Computations that may fail: when a sequence of steps, a map or a fold in
`Except` answers, and with what.
-/

namespace ReverseRusty

open List

variable {ε α β σ : Type}

@[simp] theorem ok_bind (a : α) (f : α → Except ε β) :
    ((Except.ok a : Except ε α) >>= f) = f a := rfl

theorem bind_eq_ok {x : Except ε α} {f : α → Except ε β} {b : β} :
    (x >>= f) = .ok b ↔ ∃ a, x = .ok a ∧ f a = .ok b := by
  cases x with
  | error e => simp [bind, Except.bind]
  | ok a => simp [bind, Except.bind]

/-! ## maps -/

theorem mapM_eq_ok_iff {f : α → Except ε β} {xs : List α} {ys : List β} :
    xs.mapM f = .ok ys ↔ List.Forall₂ (fun x y => f x = .ok y) xs ys := by
  induction xs generalizing ys with
  | nil =>
    rw [forall₂_nil_left_iff, eq_comm]
    exact ⟨Except.ok.inj, congrArg Except.ok⟩
  | cons x xs ih =>
    simp only [mapM_cons, bind_eq_ok, forall₂_cons_left_iff, ih]
    constructor
    · rintro ⟨y, hy, ys', hys, hout⟩
      cases hout
      exact ⟨y, ys', hy, hys, rfl⟩
    · rintro ⟨y, ys', hy, hys, rfl⟩
      exact ⟨y, hy, ys', hys, rfl⟩

theorem mapM_eq_ok_map {f : α → Except ε β} {g : α → β} {xs : List α}
    (h : ∀ x ∈ xs, f x = .ok (g x)) : xs.mapM f = .ok (xs.map g) := by
  rw [mapM_eq_ok_iff, forall₂_map_right_iff, forall₂_same]
  exact h

/-- A loop whose steps answer answers. -/
theorem exists_mapM {f : α → Except ε β} {xs : List α} {R : α → β → Prop}
    (h : ∀ x ∈ xs, ∃ y, f x = .ok y ∧ R x y) :
    ∃ ys, xs.mapM f = .ok ys ∧ List.Forall₂ R xs ys := by
  induction xs with
  | nil => exact ⟨[], rfl, .nil⟩
  | cons x xs ih =>
    obtain ⟨y, hy, hR⟩ := h x mem_cons_self
    obtain ⟨ys, hys, hall⟩ := ih fun x' hx' => h x' (mem_cons_of_mem x hx')
    exact ⟨y :: ys, mapM_eq_ok_iff.mpr (.cons hy (mapM_eq_ok_iff.mp hys)), .cons hR hall⟩

theorem exists_of_mapM {f : α → Except ε β} {xs : List α} {ys : List β}
    (h : xs.mapM f = .ok ys) {x : α} (hx : x ∈ xs) : ∃ y, f x = .ok y := by
  obtain ⟨i, hi, rfl⟩ := getElem_of_mem hx
  have hall := mapM_eq_ok_iff.mp h
  have hlt : i < ys.length := hall.length_eq ▸ hi
  exact ⟨ys[i], hall.get hi hlt⟩

/-! ## folds -/

theorem foldlM_eq_ok_foldl {f : σ → α → Except ε σ} {g : σ → α → σ} {xs : List α}
    {P : σ → Prop} (hstep : ∀ s, P s → ∀ x ∈ xs, f s x = .ok (g s x) ∧ P (g s x)) {s : σ}
    (hs : P s) : xs.foldlM f s = .ok (xs.foldl g s) ∧ P (xs.foldl g s) := by
  induction xs generalizing s with
  | nil => exact ⟨rfl, hs⟩
  | cons x xs ih =>
    obtain ⟨hx, hP⟩ := hstep s hs x mem_cons_self
    rw [foldlM_cons, hx, ok_bind, foldl_cons]
    exact ih (fun s' hs' x' hx' => hstep s' hs' x' (mem_cons_of_mem x hx')) hP

/-- A loop keeps what each step keeps. -/
theorem exists_foldlM {f : σ → α → Except ε σ} {xs : List α}
    {P : List α → σ → Prop} (h : ∀ (done : List α) (x : α) (s : σ), x ∈ xs → P done s →
      ∃ s', f s x = .ok s' ∧ P (done ++ [x]) s') (done : List α) (s : σ) (hs : P done s) :
    ∃ s', xs.foldlM f s = .ok s' ∧ P (done ++ xs) s' := by
  induction xs generalizing done s with
  | nil => exact ⟨s, rfl, by simpa using hs⟩
  | cons x xs ih =>
    obtain ⟨s₁, hs₁, hP₁⟩ := h done x s mem_cons_self hs
    obtain ⟨s₂, hs₂, hP₂⟩ := ih (fun d y s' hy => h d y s' (mem_cons_of_mem x hy)) _ _ hP₁
    refine ⟨s₂, ?_, by simpa using hP₂⟩
    rw [foldlM_cons, hs₁]
    exact hs₂

theorem exists_of_foldlM {f : σ → α → Except ε σ} {xs : List α} {s s' : σ}
    (h : xs.foldlM f s = .ok s') {x : α} (hx : x ∈ xs) : ∃ s₁ s₂, f s₁ x = .ok s₂ := by
  induction xs generalizing s with
  | nil => contradiction
  | cons y ys ih =>
    rw [foldlM_cons, bind_eq_ok] at h
    obtain ⟨s₁, hy, hys⟩ := h
    rcases mem_cons.mp hx with rfl | hx
    · exact ⟨s, s₁, hy⟩
    · exact ih hys hx

/-! ## computations that answer alike -/

/-- Two computations fail with one error, or answer with related results. -/
inductive Alike (R : α → β → Prop) : Except ε α → Except ε β → Prop
  | error (e : ε) : Alike R (.error e) (.error e)
  | ok {a : α} {b : β} (h : R a b) : Alike R (.ok a) (.ok b)

namespace Alike

variable {γ δ τ : Type} {R : α → β → Prop} {S : γ → δ → Prop}

theorem bind {x : Except ε α} {y : Except ε β} {f : α → Except ε γ} {g : β → Except ε δ}
    (h : Alike R x y) (hfg : ∀ a b, R a b → Alike S (f a) (g b)) :
    Alike S (x >>= f) (y >>= g) := by
  cases h with
  | error e => exact .error e
  | ok h => exact hfg _ _ h

theorem bind_left (x : Except ε α) {f : α → Except ε γ} {g : α → Except ε δ}
    (hfg : ∀ a, Alike S (f a) (g a)) : Alike S (x >>= f) (x >>= g) := by
  cases x with
  | error e => exact .error e
  | ok a => exact hfg a

theorem ok_right {S : α → δ → Prop} {x : Except ε α} {y : Except ε β} {f : β → δ} (h : Alike R x y)
    (hf : ∀ a b, R a b → S a (f b)) : Alike S x (y >>= fun b => .ok (f b)) := by
  cases h with
  | error e => exact .error e
  | ok h => exact .ok (hf _ _ h)

theorem ok_left {S : γ → β → Prop} {x : Except ε α} {y : Except ε β} {f : α → γ} (h : Alike R x y)
    (hf : ∀ a b, R a b → S (f a) b) : Alike S (x >>= fun a => .ok (f a)) y := by
  cases h with
  | error e => exact .error e
  | ok h => exact .ok (hf _ _ h)

theorem exists_left {x : Except ε α} {b : β} (h : Alike R x (.ok b)) : ∃ a, x = .ok a ∧ R a b := by
  cases h with
  | ok h => exact ⟨_, rfl, h⟩

theorem exists_right {a : α} {y : Except ε β} (h : Alike R (.ok a) y) : ∃ b, y = .ok b ∧ R a b := by
  cases h with
  | ok h => exact ⟨_, rfl, h⟩

theorem foldlM {f : α → σ → Except ε α} {g : β → σ → Except ε β} {xs : List σ}
    (hstep : ∀ x ∈ xs, ∀ a b, R a b → Alike R (f a x) (g b x)) {a : α} {b : β} (h : R a b) :
    Alike R (xs.foldlM f a) (xs.foldlM g b) := by
  induction xs generalizing a b with
  | nil => exact .ok h
  | cons x xs ih =>
    rw [foldlM_cons, foldlM_cons]
    exact (hstep x mem_cons_self a b h).bind fun a' b' h' =>
      ih (fun y hy => hstep y (mem_cons_of_mem x hy)) h'

end Alike

/-! ## loops of checks -/

theorem forM_eq_ok_iff {f : α → Except ε Unit} {xs : List α} {u : Unit} :
    xs.forM f = .ok u ↔ ∀ x ∈ xs, f x = .ok () := by
  induction xs with
  | nil => simp [pure, Except.pure]
  | cons x xs ih =>
    change (f x >>= fun _ => xs.forM f) = .ok u ↔ _
    simp only [bind_eq_ok, ih, forall_mem_cons]
    exact ⟨fun ⟨_, hx, hxs⟩ => ⟨hx, hxs⟩, fun ⟨hx, hxs⟩ => ⟨(), hx, hxs⟩⟩

end ReverseRusty
