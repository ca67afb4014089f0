import Mathlib

/-!
# ReverseRusty.Lib.Dialogue

Programs that ask their surroundings and go on with the answers.

`Obeys G p tr Q` is a precondition for all surroundings at once: whatever is
answered, `p` asks only what `G` allows after what was said before, and ends
with `Q`.  It composes along the program (`obeys_bind`), and holds of every
run (`Obeys.run`).
-/

namespace ReverseRusty

open List

/-- A program that asks its surroundings. -/
inductive Dialogue (Op : Type) (Ans : Op → Type) (α : Type) where
  | done (value : α)
  | ask (op : Op) (next : Ans op → Dialogue Op Ans α)

namespace Dialogue

variable {Op : Type} {Ans : Op → Type} {α β σ : Type}

def bind : Dialogue Op Ans α → (α → Dialogue Op Ans β) → Dialogue Op Ans β
  | done value, f => f value
  | ask op next, f => ask op fun answer => (next answer).bind f

instance : Monad (Dialogue Op Ans) where
  pure := done
  bind := bind

def request (op : Op) : Dialogue Op Ans (Ans op) := ask op done

/-- What was asked and answered, in order. -/
abbrev Said (Ans : Op → Type) := List (Sigma Ans)

def run (machine : (op : Op) → σ → Ans op × σ) :
    Dialogue Op Ans α → σ → Said Ans → α × σ × Said Ans
  | done value, s, tr => (value, s, tr)
  | ask op next, s, tr =>
    (next (machine op s).1).run machine (machine op s).2 (tr ++ [⟨op, (machine op s).1⟩])

/-- Whatever is answered, the program asks what is allowed and ends well. -/
def Obeys (G : Said Ans → Op → Prop) :
    Dialogue Op Ans α → Said Ans → (α → Said Ans → Prop) → Prop
  | done value, tr, Q => Q value tr
  | ask op next, tr, Q => G tr op ∧ ∀ answer, (next answer).Obeys G (tr ++ [⟨op, answer⟩]) Q

/-- Everything was asked when it was allowed. -/
def Allowed (G : Said Ans → Op → Prop) (tr : Said Ans) : Prop :=
  ∀ before said after, tr = before ++ said :: after → G before said.1

section Obeys

variable {G : Said Ans → Op → Prop} {p : Dialogue Op Ans α} {f : α → Dialogue Op Ans β}
  {tr : Said Ans} {Q Q' : α → Said Ans → Prop}

@[simp] theorem obeys_pure {value : α} : Obeys G (pure value) tr Q ↔ Q value tr := Iff.rfl

@[simp] theorem obeys_request {op : Op} {Q : Ans op → Said Ans → Prop} :
    Obeys G (request op) tr Q ↔ G tr op ∧ ∀ answer, Q answer (tr ++ [⟨op, answer⟩]) := Iff.rfl

@[simp] theorem obeys_bind {Q : β → Said Ans → Prop} :
    Obeys G (p >>= f) tr Q ↔ Obeys G p tr fun a tr' => Obeys G (f a) tr' Q := by
  induction p generalizing tr with
  | done value => exact Iff.rfl
  | ask op next ih => exact and_congr_right fun _ => forall_congr' fun answer => ih answer

theorem Obeys.mono (h : Obeys G p tr Q) (hQ : ∀ a tr, Q a tr → Q' a tr) : Obeys G p tr Q' := by
  induction p generalizing tr with
  | done value => exact hQ value tr h
  | ask op next ih => exact ⟨h.1, fun answer => ih answer (h.2 answer)⟩

variable {ε : Type}

/-- A program that may fail goes on only after a value. -/
@[simp] theorem obeys_run_bind {x : ExceptT ε (Dialogue Op Ans) α}
    {g : α → ExceptT ε (Dialogue Op Ans) β} {Q : Except ε β → Said Ans → Prop} :
    Obeys G (x >>= g).run tr Q ↔ Obeys G x.run tr fun found tr' =>
      match found with
      | .ok a => Obeys G (g a).run tr' Q
      | .error e => Q (.error e) tr' := by
  have hbind : (x >>= g).run = x.run >>= ExceptT.bindCont g := rfl
  rw [hbind, obeys_bind]
  refine Iff.of_eq (congrArg _ (funext fun found => funext fun tr' => ?_))
  cases found <;> rfl

@[simp] theorem obeys_run_lift {Q : Except ε α → Said Ans → Prop} :
    Obeys G (monadLift p : ExceptT ε (Dialogue Op Ans) α).run tr Q ↔
      Obeys G p tr fun a => Q (.ok a) := by
  have hlift : (monadLift p : ExceptT ε (Dialogue Op Ans) α).run = p >>= fun a => pure (.ok a) := rfl
  rw [hlift, obeys_bind]
  exact Iff.rfl

theorem allowed_nil : Allowed G ([] : Said Ans) := by
  intro before said after h
  exact absurd h.symm (append_ne_nil_of_right_ne_nil _ (cons_ne_nil _ _))

theorem Allowed.concat (h : Allowed G tr) {said : Sigma Ans} (hG : G tr said.1) :
    Allowed G (tr ++ [said]) := by
  intro before x after heq
  rcases eq_nil_or_concat after with rfl | ⟨after, y, rfl⟩
  · obtain ⟨rfl, hx⟩ := append_inj' heq rfl
    cases hx
    exact hG
  · rw [concat_eq_append, ← cons_append, ← append_assoc] at heq
    exact h before x after (append_inj' heq rfl).1

theorem Obeys.run (h : Obeys G p tr Q) (htr : Allowed G tr)
    (machine : (op : Op) → σ → Ans op × σ) (s : σ) :
    Q (p.run machine s tr).1 (p.run machine s tr).2.2 ∧
      Allowed G (p.run machine s tr).2.2 := by
  induction p generalizing tr s with
  | done value => exact ⟨h, htr⟩
  | ask op next ih => exact ih _ (h.2 _) (htr.concat h.1) _

end Obeys

end Dialogue

end ReverseRusty
