import Mathlib

/-!
# ReverseRusty.Lib.OpenTable

Open-addressing hash tables with linear probing, filled once and never
shrunk.  A slot is vacant when its key is the given `vacant` key.

`Chained` is the probe-sequence invariant: walking from the home position
of a stored key reaches its slot through occupied slots with other keys.
`probe_freeze` and `probe_freeze_eq_none` say what lookups in a table
filled from a list of distinct keys return.
-/

namespace ReverseRusty

open List

section Table

variable {σ κ : Type*} [DecidableEq κ] (key : σ → κ) (vacant : κ)

/-- Put an entry into the first vacant slot from position `i` on. -/
def placeFrom : Nat → List σ → Nat → σ → List σ
  | 0, slots, _, _ => slots
  | fuel + 1, slots, i, s =>
    match slots[i]? with
    | none => slots
    | some t =>
      if key t = vacant then slots.set i s
      else placeFrom fuel slots ((i + 1) % slots.length) s

/-- Walk from position `i` to the slot with key `k`, up to a vacant slot;
`next` is the position after another. -/
def probeFrom (next : Nat → Nat) : Nat → List σ → Nat → κ → Option σ
  | 0, _, _, _ => none
  | fuel + 1, slots, i, k =>
    match slots[i]? with
    | none => none
    | some t =>
      if key t = k then some t
      else if key t = vacant then none
      else probeFrom next fuel slots (next i) k

variable {key vacant} {slots : List σ} {i : Nat} {s : σ} {k : κ}

/-! ## one placement -/

variable {d : Nat}

theorem step_mod {L i : Nat} : ((i + 1) % L + d) % L = (i + (d + 1)) % L := by
  rw [Nat.mod_add_mod]
  congr 1
  omega

variable {fuel : Nat}

theorem placeFrom_eq (hi : i < slots.length)
    (hfree : ∃ d < fuel, ∃ t, slots[(i + d) % slots.length]? = some t ∧ key t = vacant) :
    ∃ d < fuel, (∀ j < d, ∃ t, slots[(i + j) % slots.length]? = some t ∧ key t ≠ vacant) ∧
      (∃ t, slots[(i + d) % slots.length]? = some t ∧ key t = vacant) ∧
      placeFrom key vacant fuel slots i s = slots.set ((i + d) % slots.length) s := by
  induction fuel generalizing i with
  | zero =>
    obtain ⟨d, hd, -⟩ := hfree
    omega
  | succ fuel ih =>
    have hmod : i % slots.length = i := Nat.mod_eq_of_lt hi
    have hget : slots[i]? = some slots[i] := getElem?_eq_getElem hi
    unfold placeFrom
    simp only [hget]
    by_cases hvac : key slots[i] = vacant
    · refine ⟨0, by omega, fun j hj => absurd hj (Nat.not_lt_zero j), ?_, ?_⟩
      · exact ⟨slots[i], by rw [Nat.add_zero, hmod, hget], hvac⟩
      · rw [if_pos hvac, Nat.add_zero, hmod]
    · rw [if_neg hvac]
      have hnext : (i + 1) % slots.length < slots.length := Nat.mod_lt _ (by omega)
      have hfree' : ∃ d < fuel, ∃ t,
          slots[((i + 1) % slots.length + d) % slots.length]? = some t ∧ key t = vacant := by
        obtain ⟨d, hd, t, ht, htv⟩ := hfree
        cases d with
        | zero =>
          rw [Nat.add_zero, hmod, hget] at ht
          cases ht
          exact absurd htv hvac
        | succ d => exact ⟨d, by omega, t, by rw [step_mod, ht], htv⟩
      obtain ⟨d, hd, hocc, hfound, heq⟩ := ih hnext hfree'
      simp only [step_mod] at hocc hfound heq
      refine ⟨d + 1, by omega, fun j hj => ?_, hfound, heq⟩
      cases j with
      | zero => exact ⟨slots[i], by rw [Nat.add_zero, hmod, hget], hvac⟩
      | succ j => exact hocc j (by omega)

theorem mem_of_mem_placeFrom {t : σ}
    (h : t ∈ placeFrom key vacant fuel slots i s) : t ∈ slots ∨ t = s := by
  fun_induction placeFrom with
  | case1 => exact .inl h
  | case2 => exact .inl h
  | case3 => exact mem_or_eq_of_mem_set h
  | case4 _ _ _ _ _ _ _ ih => exact ih h

theorem exists_steps {L i p : Nat} (hp : p < L) : ∃ d < L, (i + d) % L = p := by
  have hL : 0 < L := by omega
  refine ⟨(p + (L - i % L)) % L, Nat.mod_lt _ hL, ?_⟩
  have hi := Nat.mod_lt i hL
  rw [Nat.add_mod_mod, ← Nat.mod_add_mod]
  have : i % L + (p + (L - i % L)) = p + L := by omega
  rw [this, Nat.add_mod_right, Nat.mod_eq_of_lt hp]

/-! ## the probe-sequence invariant -/

/-- Every stored key is reached from its home position through occupied
slots with other keys. -/
def Chained (key : σ → κ) (vacant : κ) (home : κ → Nat) (slots : List σ) : Prop :=
  ∀ (p : Nat) (t : σ), slots[p]? = some t → key t ≠ vacant →
    ∃ d < slots.length, (home (key t) + d) % slots.length = p ∧
      ∀ j < d, ∃ u, slots[(home (key t) + j) % slots.length]? = some u ∧
        key u ≠ vacant ∧ key u ≠ key t

variable {next : Nat → Nat}

theorem probeFrom_eq_some {t : σ} (hnext : ∀ i < slots.length, next i = (i + 1) % slots.length)
    (hi : i < slots.length) (hd : d < fuel) (ht : slots[(i + d) % slots.length]? = some t)
    (hpath : ∀ j < d, ∃ u, slots[(i + j) % slots.length]? = some u ∧
      key u ≠ vacant ∧ key u ≠ key t) :
    probeFrom key vacant next fuel slots i (key t) = some t := by
  induction fuel generalizing i d with
  | zero => omega
  | succ fuel ih =>
    have hmod : i % slots.length = i := Nat.mod_eq_of_lt hi
    unfold probeFrom
    cases d with
    | zero =>
      rw [Nat.add_zero, hmod] at ht
      simp [ht]
    | succ d =>
      obtain ⟨u, hu, huv, huk⟩ := hpath 0 (by omega)
      rw [Nat.add_zero, hmod] at hu
      simp only [hu, if_neg huk, if_neg huv]
      have hlt : (i + 1) % slots.length < slots.length := Nat.mod_lt _ (by omega)
      rw [hnext i hi]
      refine ih hlt (d := d) (by omega) (by rw [step_mod, ht]) fun j hj => ?_
      rw [step_mod]
      exact hpath (j + 1) (by omega)

theorem mem_of_probeFrom {t : σ} (h : probeFrom key vacant next fuel slots i k = some t) :
    t ∈ slots ∧ key t = k := by
  induction fuel generalizing i with
  | zero => simp [probeFrom] at h
  | succ fuel ih =>
    unfold probeFrom at h
    split at h
    · contradiction
    · next u hu =>
      split at h
      · next huk =>
        cases h
        exact ⟨mem_of_getElem? hu, huk⟩
      · split at h
        · contradiction
        · exact ih h

/-! ## filling a table -/

def freezeTable (key : σ → κ) (vacant : κ) (home : κ → Nat) (empty : σ) (cap : Nat)
    (entries : List σ) : List σ :=
  entries.foldl (fun slots s => placeFrom key vacant cap slots (home (key s)) s)
    (List.replicate cap empty)

/-- What holds of a table after some entries were placed. -/
structure Filled (key : σ → κ) (vacant : κ) (home : κ → Nat) (cap : Nat) (placed : List σ)
    (slots : List σ) : Prop where
  length : slots.length = cap
  stored : (slots.filter (fun t => key t ≠ vacant)).Perm placed
  chained : Chained key vacant home slots

theorem perm_filter_set {p : Nat} {t : σ} (hp : slots[p]? = some t) (ht : key t = vacant)
    (hs : key s ≠ vacant) :
    ((slots.set p s).filter (fun t => key t ≠ vacant)).Perm
      (s :: slots.filter (fun t => key t ≠ vacant)) := by
  obtain ⟨hlt, rfl⟩ := List.getElem?_eq_some_iff.mp hp
  have hold : slots = slots.take p ++ slots[p] :: slots.drop (p + 1) := by
    rw [← drop_eq_getElem_cons hlt, take_append_drop]
  have hset : slots.set p s = slots.take p ++ s :: slots.drop (p + 1) :=
    set_eq_take_append_cons_drop.trans (if_pos hlt)
  conv_rhs => rw [hold]
  rw [hset, filter_append, filter_append, filter_cons_of_pos (by simpa using hs),
    filter_cons_of_neg (by simpa using ht)]
  exact perm_middle

variable {home : κ → Nat} {cap : Nat} {placed : List σ}

theorem Filled.exists_vacant (h : Filled key vacant home cap placed slots)
    (hlen : placed.length < cap) :
    ∃ (p : Nat) (t : σ), slots[p]? = some t ∧ key t = vacant := by
  by_contra hnone
  have hall : slots.filter (fun t => key t ≠ vacant) = slots := by
    rw [filter_eq_self]
    intro t ht
    obtain ⟨p, hp⟩ := mem_iff_getElem?.mp ht
    rw [decide_eq_true_eq]
    exact fun hv => hnone ⟨p, t, hp, hv⟩
  have := h.stored.length_eq
  rw [hall, h.length] at this
  omega

/-- **One placement of a new key keeps the table filled.** -/
theorem Filled.place (h : Filled key vacant home cap placed slots) (hhome : ∀ k, home k < cap)
    (hlen : placed.length < cap) (hs : key s ≠ vacant) (hnew : key s ∉ placed.map key) :
    Filled key vacant home cap (s :: placed)
      (placeFrom key vacant cap slots (home (key s)) s) := by
  obtain ⟨p, t, hp, ht⟩ := h.exists_vacant hlen
  have hplt : p < slots.length := (List.getElem?_eq_some_iff.mp hp).1
  obtain ⟨d₀, hd₀, hstep⟩ := @exists_steps slots.length (home (key s)) p hplt
  have hhs : home (key s) < slots.length := h.length ▸ hhome (key s)
  have hfree : ∃ d < cap, ∃ t, slots[(home (key s) + d) % slots.length]? = some t ∧
      key t = vacant := ⟨d₀, h.length ▸ hd₀, t, by rw [hstep, hp], ht⟩
  obtain ⟨d, hd, hocc, ⟨u, hu, huv⟩, heq⟩ := placeFrom_eq (s := s) hhs hfree
  have hother : ∀ (q : Nat) (v : σ), slots[q]? = some v → key v ≠ vacant → key v ≠ key s := by
    intro q v hv hvv heqk
    have hmem : v ∈ placed := h.stored.subset (by simp [mem_of_getElem? hv, hvv])
    exact hnew (heqk ▸ mem_map_of_mem hmem)
  rw [heq]
  generalize hpos : (home (key s) + d) % slots.length = q at hu
  have hq : q < slots.length := (List.getElem?_eq_some_iff.mp hu).1
  have hkeep : ∀ (r : Nat) (v : σ), slots[r]? = some v → key v ≠ vacant → (slots.set q s)[r]? = some v := by
    intro r v hv hvv
    have hne : q ≠ r := by
      intro hqr
      rw [← hqr, hu] at hv
      cases hv
      exact hvv huv
    rw [getElem?_set_ne hne, hv]
  refine ⟨by rw [length_set, h.length], ?_, fun r v hv hvv => ?_⟩
  · exact (perm_filter_set hu huv hs).trans (h.stored.cons s)
  · simp only [length_set]
    by_cases hqr : q = r
    · -- the new entry: its path is the walk just made
      rw [← hqr, getElem?_set_self hq] at hv
      cases hv
      refine ⟨d, h.length ▸ hd, by rw [hpos, hqr], fun j hj => ?_⟩
      obtain ⟨w, hw, hwv⟩ := hocc j hj
      exact ⟨w, hkeep _ w hw hwv, hwv, hother _ w hw hwv⟩
    · -- an old entry: its path had no vacant slot, so it is untouched
      rw [getElem?_set_ne hqr] at hv
      obtain ⟨e, he, hrr, hpath⟩ := h.chained r v hv hvv
      refine ⟨e, he, hrr, fun j hj => ?_⟩
      obtain ⟨w, hw, hwv, hwk⟩ := hpath j hj
      exact ⟨w, hkeep _ w hw hwv, hwv, hwk⟩

theorem filled_empty {empty : σ} (hempty : key empty = vacant) :
    Filled key vacant home cap [] (List.replicate cap empty) where
  length := length_replicate
  stored := by
    rw [perm_nil, filter_eq_nil_iff]
    intro t ht
    rw [eq_of_mem_replicate ht]
    simpa using hempty
  chained p t ht htv := by
    have := eq_of_mem_replicate (mem_of_getElem? ht)
    exact absurd (this ▸ hempty) htv

theorem Filled.placeAll {entries : List σ} (h : Filled key vacant home cap placed slots)
    (hhome : ∀ k, home k < cap) (hlen : placed.length + entries.length ≤ cap)
    (hvac : ∀ s ∈ entries, key s ≠ vacant) (hnodup : (entries.map key).Nodup)
    (hnew : ∀ s ∈ entries, key s ∉ placed.map key) :
    Filled key vacant home cap (placed ++ entries)
      (entries.foldl (fun slots s => placeFrom key vacant cap slots (home (key s)) s) slots) := by
  induction entries generalizing placed slots with
  | nil => simpa using h
  | cons s entries ih =>
    rw [map_cons, nodup_cons] at hnodup
    rw [length_cons] at hlen
    have hstep := h.place hhome (by omega) (hvac s mem_cons_self)
      (hnew s mem_cons_self)
    have hrest := ih hstep (by rw [length_cons]; omega)
      (fun s' hs' => hvac s' (mem_cons_of_mem s hs')) hnodup.2 fun s' hs' hmem => by
        rw [map_cons, mem_cons] at hmem
        rcases hmem with hmem | hmem
        · exact hnodup.1 (hmem ▸ mem_map_of_mem hs')
        · exact hnew s' (mem_cons_of_mem s hs') hmem
    exact { hrest with stored := hrest.stored.trans perm_middle.symm }

theorem filled_freezeTable {empty : σ} {entries : List σ} (hempty : key empty = vacant)
    (hhome : ∀ k, home k < cap) (hlen : entries.length ≤ cap)
    (hvac : ∀ s ∈ entries, key s ≠ vacant) (hnodup : (entries.map key).Nodup) :
    Filled key vacant home cap entries (freezeTable key vacant home empty cap entries) :=
  (filled_empty hempty).placeAll hhome (by simpa using hlen) hvac hnodup (by simp)

theorem mem_of_mem_freezeTable {t empty : σ} {entries : List σ}
    (h : t ∈ freezeTable key vacant home empty cap entries) : t ∈ entries ∨ t = empty := by
  have hfold : ∀ (entries slots : List σ), t ∈ entries.foldl
      (fun slots s => placeFrom key vacant cap slots (home (key s)) s) slots →
        t ∈ entries ∨ t ∈ slots := by
    intro entries
    induction entries with
    | nil => exact fun slots ht => .inr ht
    | cons s entries ih =>
      intro slots ht
      rcases ih _ ht with ht | ht
      · exact .inl (mem_cons_of_mem s ht)
      · rcases mem_of_mem_placeFrom ht with ht | rfl
        · exact .inr ht
        · exact .inl mem_cons_self
  exact (hfold entries _ h).imp_right eq_of_mem_replicate

/-- **A filled table returns the entry of each of its keys.** -/
theorem Filled.probe (h : Filled key vacant home cap placed slots) (hhome : ∀ k, home k < cap)
    (hnext : ∀ i < cap, next i = (i + 1) % cap) (hs : s ∈ placed) :
    probeFrom key vacant next cap slots (home (key s)) (key s) = some s := by
  obtain ⟨hmem, hocc⟩ := mem_filter.mp (h.stored.symm.subset hs)
  obtain ⟨p, hp⟩ := mem_iff_getElem?.mp hmem
  obtain ⟨d, hd, hpos, hpath⟩ := h.chained p s hp (of_decide_eq_true hocc)
  rw [h.length] at hd
  rw [← h.length] at hnext hhome
  exact probeFrom_eq_some hnext (hhome _) hd (by rw [hpos, hp]) hpath

/-- **A filled table has nothing under any other key.** -/
theorem Filled.probe_eq_none (h : Filled key vacant home cap placed slots) (hk : k ≠ vacant)
    (hnot : k ∉ placed.map key) : probeFrom key vacant next cap slots (home k) k = none := by
  cases hprobe : probeFrom key vacant next cap slots (home k) k with
  | none => rfl
  | some t =>
    obtain ⟨hmem, htk⟩ := mem_of_probeFrom hprobe
    have hplaced : t ∈ placed := h.stored.subset (by simp [hmem, htk, hk])
    exact absurd (htk ▸ mem_map_of_mem hplaced) hnot

end Table

end ReverseRusty
