import Mathlib

/-!
# ReverseRusty.Lib.Components

The connected components of "occur in a common group", for a list of groups
over any type.  `connected_append` says what one more group joins, and
`Components` that a list of groups is the components of another.
-/

namespace ReverseRusty

variable {α : Type*}

/-- The elements occur in a common group. -/
def Together (groups : List (List α)) (a b : α) : Prop := ∃ g ∈ groups, a ∈ g ∧ b ∈ g

/-- The elements are joined by a chain of groups. -/
def Connected (groups : List (List α)) : α → α → Prop := Relation.TransGen (Together groups)

section Connected

variable {groups groups' : List (List α)} {g : List α} {a b c : α}

theorem Together.symm (h : Together groups a b) : Together groups b a := by
  obtain ⟨g, hg, ha, hb⟩ := h
  exact ⟨g, hg, hb, ha⟩

theorem Connected.symm (h : Connected groups a b) : Connected groups b a := by
  induction h with
  | single h => exact .single h.symm
  | tail _ h ih => exact .head h.symm ih

theorem Connected.trans (hab : Connected groups a b) (hbc : Connected groups b c) :
    Connected groups a c :=
  Relation.TransGen.trans hab hbc

theorem Connected.mono (h : ∀ a b, Together groups a b → Together groups' a b)
    (hab : Connected groups a b) : Connected groups' a b :=
  Relation.TransGen.mono h _ _ hab

theorem connected_congr (h : ∀ a b, Together groups a b ↔ Together groups' a b) :
    Connected groups a b ↔ Connected groups' a b :=
  ⟨.mono fun a b => (h a b).mp, .mono fun a b => (h a b).mpr⟩

/-- A group reaches an element of its own or one joined to one of its own. -/
def Touches (groups : List (List α)) (g : List α) (a : α) : Prop :=
  a ∈ g ∨ ∃ x ∈ g, Connected groups a x

theorem together_append : Together (groups ++ [g]) a b ↔ Together groups a b ∨ a ∈ g ∧ b ∈ g := by
  simp [Together, or_and_right, exists_or]

theorem Touches.of_connected (h : Connected groups a b) (hb : Touches groups g b) :
    Touches groups g a := by
  rcases hb with hb | ⟨x, hx, hbx⟩
  · exact .inr ⟨b, hb, h⟩
  · exact .inr ⟨x, hx, h.trans hbx⟩

/-- **One more group joins what it touches.** -/
theorem connected_append : Connected (groups ++ [g]) a b ↔
    Connected groups a b ∨ Touches groups g a ∧ Touches groups g b := by
  constructor
  · intro h
    induction h with
    | single h =>
      rcases together_append.mp h with h | ⟨ha, hb⟩
      · exact .inl (.single h)
      · exact .inr ⟨.inl ha, .inl hb⟩
    | tail _ h ih =>
      rcases together_append.mp h with h | ⟨hb, hc⟩
      · have hbc : Connected groups _ _ := .single h
        rcases ih with ih | ⟨ha, hb⟩
        · exact .inl (ih.trans hbc)
        · exact .inr ⟨ha, hb.of_connected hbc.symm⟩
      · rcases ih with ih | ⟨ha, -⟩
        · exact .inr ⟨.inr ⟨_, hb, ih⟩, .inl hc⟩
        · exact .inr ⟨ha, .inl hc⟩
  · have hold : ∀ {a b}, Connected groups a b → Connected (groups ++ [g]) a b :=
      .mono fun a b h => together_append.mpr (.inl h)
    have hnew : ∀ {a b}, a ∈ g → b ∈ g → Connected (groups ++ [g]) a b :=
      fun ha hb => .single (together_append.mpr (.inr ⟨ha, hb⟩))
    rintro (h | ⟨ha | ⟨x, hx, hax⟩, hb | ⟨y, hy, hby⟩⟩)
    · exact hold h
    · exact hnew ha hb
    · exact (hnew ha hy).trans (hold hby).symm
    · exact (hold hax).trans (hnew hx hb)
    · exact ((hold hax).trans (hnew hx hy)).trans (hold hby).symm

end Connected

/-! ## the order of groups and members -/

/-- The same groups in another order, their members in another order. -/
def Reordered (groups groups' : List (List α)) : Prop :=
  ∃ mid, List.Forall₂ List.Perm groups mid ∧ mid.Perm groups'

namespace Reordered

variable {groups groups' : List (List α)}

theorem map {β : Type*} {f : List α → List β} (hf : ∀ xs ys, xs.Perm ys → (f xs).Perm (f ys))
    (h : Reordered groups groups') : Reordered (groups.map f) (groups'.map f) := by
  obtain ⟨mid, hmembers, hgroups⟩ := h
  refine ⟨mid.map f, ?_, hgroups.map f⟩
  rw [List.forall₂_map_left_iff, List.forall₂_map_right_iff]
  exact hmembers.imp hf

theorem together_iff (h : Reordered groups groups') (a b : α) :
    Together groups a b ↔ Together groups' a b := by
  obtain ⟨mid, hmembers, hgroups⟩ := h
  have hmid : Together mid a b ↔ Together groups' a b := by
    simp only [Together, hgroups.mem_iff]
  rw [← hmid]
  clear hmid hgroups
  induction hmembers with
  | nil => rfl
  | cons hg _ ih =>
    simp only [Together, List.mem_cons, exists_eq_or_imp, hg.mem_iff] at ih ⊢
    exact or_congr_right ih

end Reordered

structure Components (groups result : List (List α)) : Prop where
  disjoint : result.Pairwise List.Disjoint
  joined : ∀ a b, Together result a b ↔ Connected groups a b

namespace Components

variable {groups result : List (List α)} {r : List α} {a : α}

theorem mem_iff (h : Components groups result) (hr : r ∈ result) (ha : a ∈ r) (x : α) :
    x ∈ r ↔ Connected groups a x := by
  rw [← h.joined]
  constructor
  · exact fun hx => ⟨r, hr, ha, hx⟩
  · rintro ⟨r', hr', ha', hx⟩
    by_cases heq : r = r'
    · rwa [heq]
    · have : Std.Symm (@List.Disjoint α) := ⟨fun _ _ hd x hx hx' => hd hx' hx⟩
      exact absurd ha' (h.disjoint.forall hr hr' heq ha)

theorem exists_mem (h : Components groups result) {g : List α} (hg : g ∈ groups) (ha : a ∈ g) :
    ∃ r ∈ result, a ∈ r := by
  obtain ⟨r, hr, har, -⟩ := (h.joined a a).mpr (.single ⟨g, hg, ha, ha⟩)
  exact ⟨r, hr, har⟩

end Components

/-! ## sets closed under an equivalence -/

/-- A map from each element to the list of its class. -/
structure Classes {α : Type*} (cls : α → List α) : Prop where
  self : ∀ a, a ∈ cls a
  same : ∀ {a b}, b ∈ cls a → cls b = cls a

/-- The elements equivalent to one of the list. -/
def widened {α : Type*} (cls : α → List α) (xs : List α) : List α :=
  xs.flatMap cls

section Widened

variable {α : Type*} {cls : α → List α} {xs : List α}

theorem mem_widened {a : α} : a ∈ widened cls xs ↔ ∃ x ∈ xs, a ∈ cls x :=
  List.mem_flatMap

namespace Classes

theorem symm (h : Classes cls) {a b : α} (hab : b ∈ cls a) : a ∈ cls b :=
  h.same hab ▸ h.self a

theorem meets_widened (h : Classes cls) {p : α → Prop} :
    (∃ a ∈ widened cls xs, p a) ↔ ∃ x ∈ xs, ∃ a, p a ∧ x ∈ cls a := by
  constructor
  · rintro ⟨a, ha, hp⟩
    obtain ⟨x, hx, hax⟩ := mem_widened.mp ha
    exact ⟨x, hx, a, hp, h.symm hax⟩
  · rintro ⟨x, hx, a, hp, hxa⟩
    exact ⟨a, mem_widened.mpr ⟨x, hx, h.symm hxa⟩, hp⟩

end Classes

end Widened

end ReverseRusty
