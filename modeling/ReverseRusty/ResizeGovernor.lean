import ReverseRusty.Dict

/-!
# ReverseRusty.ResizeGovernor

The hysteresis between a recommended and an accepted resize
(`autoscale/resize_governor.rs`).  Instants and durations are in nanoseconds.

A run is the list of what the governor saw and said, newest first; `lastChange`,
`awaiting` and `heldBy` read from it what an accept has to respect.

Main result: `accepts_right`.  The bounds, the persistence and the cooldown
hold in every run; the hold of an operation that fell short needs that the
observation after an outcome is one of the layout it reported.
-/

namespace ReverseRusty

open List

def maxGovernedShards : Nat := 1024

structure ResizeGovernorConfig where
  requiredObservations : UInt32
  cooldown : Nat
  maxStep : Nat
  maxShards : Nat
  minReliefPercent : Nat

structure ResizeObservation where
  numShards : Nat
  placementGeneration : Nat
  recommended : Option Nat
  maxSelectiveCorpus : Nat

namespace ResizeObservation

def layout (o : ResizeObservation) : Nat × Nat := (o.numShards, o.placementGeneration)

/-- The recommendation, when it is one to grow. -/
def growth (o : ResizeObservation) : Option Nat := o.recommended.filter (o.numShards < ·)

end ResizeObservation

inductive ResizeVerdict where
  | idle
  | atCeiling (maxShards : Nat)
  | deferred (target observations required : Nat)
  | coolingDown (target remainingMs : Nat)
  | ineffective (beforeMaxSelective afterMaxSelective minReliefPercent : Nat)
  | accept (source target ifPlacementGeneration : Nat)
deriving DecidableEq

structure GovernedOperation where
  placementGeneration : Nat
  beforeMaxSelective : Nat
deriving DecidableEq

/-- The operation left the hottest shard too hot. -/
def GovernedOperation.Short (op : GovernedOperation) (o : ResizeObservation)
    (c : ResizeGovernorConfig) : Prop :=
  0 < c.minReliefPercent ∧
    min (op.beforeMaxSelective * (100 - c.minReliefPercent)) (2 ^ 64 - 1) / 100 < o.maxSelectiveCorpus

instance (op : GovernedOperation) (o : ResizeObservation) (c : ResizeGovernorConfig) :
    Decidable (op.Short o c) := inferInstanceAs (Decidable (_ ∧ _))

/-- What the governor remembers between observations. -/
structure ResizeGovernor where
  layout : Option (Nat × Nat)
  lastLayoutChange : Option Nat
  streak : Nat
  pendingAccept : Option GovernedOperation
  unmeasured : Option GovernedOperation
  ineffective : Option (Nat × Nat)

namespace ResizeGovernor

def new : ResizeGovernor := ⟨none, none, 0, none, none, none⟩

variable (g : ResizeGovernor) (now : Nat) (o : ResizeObservation) (c : ResizeGovernorConfig)

/-- Take in the observed layout.  One the governor did not produce ends a
measurement and a hold. -/
def see : ResizeGovernor :=
  if g.layout = none then { g with layout := some o.layout }
  else if g.layout = some o.layout then g
  else if g.unmeasured.any (·.placementGeneration = o.placementGeneration) then
    { g with layout := some o.layout, lastLayoutChange := some now, streak := 0 }
  else
    { g with
      layout := some o.layout
      lastLayoutChange := some now
      streak := 0
      unmeasured := none
      ineffective := none }

/-- Measure a completed operation. -/
def measure : ResizeGovernor :=
  { g with
    unmeasured := none
    ineffective :=
      match g.unmeasured with
      | none => g.ineffective
      | some op =>
        if op.placementGeneration = o.placementGeneration ∧ op.Short o c then
          some (op.beforeMaxSelective, o.maxSelectiveCorpus)
        else g.ineffective }

def decideGrowth : ResizeVerdict × ResizeGovernor :=
  match o.growth with
  | none => (.idle, { g with streak := 0, ineffective := none })
  | some recommended =>
    match g.ineffective with
    | some (before, after) => (.ineffective before after c.minReliefPercent, { g with streak := 0 })
    | none =>
      let ceiling := min c.maxShards maxGovernedShards
      let target := min (min recommended (o.numShards + c.maxStep)) ceiling
      if target ≤ o.numShards then (.atCeiling ceiling, { g with streak := 0 })
      else
        let streak := min (g.streak + 1) u32Max
        if streak < c.requiredObservations.toNat then
          (.deferred target streak c.requiredObservations.toNat, { g with streak := streak })
        else
          match g.lastLayoutChange.filter (now - · < c.cooldown) with
          | some changed =>
            (.coolingDown target (min ((c.cooldown - (now - changed)) / 1000000) (2 ^ 64 - 1)),
              { g with streak := streak })
          | none =>
            (.accept o.numShards target o.placementGeneration,
              { g with
                streak := streak
                pendingAccept := some ⟨o.placementGeneration, o.maxSelectiveCorpus⟩ })

def observe : ResizeVerdict × ResizeGovernor := ((g.see now o).measure o c).decideGrowth now o c

def recordOutcome (produced : Option Nat) : ResizeGovernor :=
  match g.pendingAccept, produced with
  | none, _ => { g with streak := 0 }
  | some _, none => { g with streak := 0, pendingAccept := none }
  | some accepted, some generation =>
    { g with
      streak := 0
      pendingAccept := none
      lastLayoutChange := some now
      unmeasured := some ⟨generation, accepted.beforeMaxSelective⟩ }

end ResizeGovernor

/-! ## runs -/

inductive Moment where
  | observed (now : Nat) (o : ResizeObservation) (verdict : ResizeVerdict)
  | reported (now : Nat) (produced : Option Nat)

/-- The runs whose observations are as `ok` asks of the governor before. -/
inductive Governs (c : ResizeGovernorConfig) (ok : ResizeGovernor → ResizeObservation → Prop) :
    List Moment → ResizeGovernor → Prop
  | new : Governs c ok [] .new
  | observed {ms : List Moment} {g : ResizeGovernor} (now : Nat) (o : ResizeObservation) :
      Governs c ok ms g → ok g o →
      Governs c ok (.observed now o (g.observe now o c).1 :: ms) (g.observe now o c).2
  | reported {ms : List Moment} {g : ResizeGovernor} (now : Nat) (produced : Option Nat) :
      Governs c ok ms g → Governs c ok (.reported now produced :: ms) (g.recordOutcome now produced)

/-- An operation that waits to be measured is measured now. -/
def Timely (g : ResizeGovernor) (o : ResizeObservation) : Prop :=
  ∀ op ∈ g.unmeasured, op.placementGeneration = o.placementGeneration

def lastLayout : List Moment → Option (Nat × Nat)
  | [] => none
  | .observed _ o _ :: _ => some o.layout
  | .reported .. :: ms => lastLayout ms

/-- The corpus an accepted operation was to relieve, until its outcome. -/
def pendingOf : List Moment → Option Nat
  | .observed _ o (.accept ..) :: _ => some o.maxSelectiveCorpus
  | .observed .. :: ms => pendingOf ms
  | .reported .. :: _ | [] => none

def lastChange : List Moment → Option Nat
  | [] => none
  | .observed now o _ :: ms =>
    if lastLayout ms = none ∨ lastLayout ms = some o.layout then lastChange ms else some now
  | .reported now produced :: ms =>
    if pendingOf ms = none ∨ produced = none then lastChange ms else some now

def awaiting : List Moment → Option GovernedOperation
  | [] => none
  | .observed _ o _ :: ms => (awaiting ms).filter (·.placementGeneration ≠ o.placementGeneration)
  | .reported _ produced :: ms =>
    match pendingOf ms, produced with
    | some before, some generation => some ⟨generation, before⟩
    | _, _ => awaiting ms

/-- The layout of an operation whose first observation was short of relief, as
long as every observation shows it and recommends growth. -/
def heldBy (c : ResizeGovernorConfig) : List Moment → Option (Nat × Nat)
  | [] => none
  | .observed _ o _ :: ms =>
    if o.growth = none then none
    else if ∃ op ∈ awaiting ms, op.placementGeneration = o.placementGeneration ∧ op.Short o c then
      some o.layout
    else (heldBy c ms).filter (· = o.layout)
  | .reported .. :: ms => heldBy c ms

def Moment.Grows (layout : Nat × Nat) : Moment → Prop
  | .observed _ o _ => o.layout = layout ∧ o.growth ≠ none
  | .reported .. => False

/-- An accept at the end of a run. -/
structure AcceptRight (c : ResizeGovernorConfig) (ms : List Moment) (now : Nat)
    (o : ResizeObservation) (source target : Nat) : Prop where
  grows : source = o.numShards ∧ source < target
  bounded : (∃ r ∈ o.recommended, target ≤ r) ∧ target ≤ source + c.maxStep ∧ target ≤ c.maxShards
  persisted : ∃ recent older, ms = recent ++ older ∧
    recent.length = c.requiredObservations.toNat ∧ ∀ m ∈ recent, m.Grows o.layout
  cooled : ∀ changed ∈ lastChange ms, c.cooldown ≤ now - changed

/-! ## the governor against its run -/

/-- The governor is what its run says. -/
structure Follows (ms : List Moment) (g : ResizeGovernor) : Prop where
  layout : g.layout = lastLayout ms
  change : g.lastLayoutChange = lastChange ms
  pending : g.pendingAccept.map GovernedOperation.beforeMaxSelective = pendingOf ms
  streak : ∃ recent older, ms = recent ++ older ∧ g.streak ≤ recent.length ∧
    ∀ m ∈ recent, ∃ l, g.layout = some l ∧ m.Grows l

/-- It measures and holds what its run says, too. -/
structure Holds (c : ResizeGovernorConfig) (ms : List Moment) (g : ResizeGovernor) : Prop where
  unmeasured : g.unmeasured = awaiting ms
  held : ∀ l ∈ heldBy c ms, g.ineffective ≠ none ∧ g.layout = some l

/-- What a decision leaves of the governor, and what it takes to accept. -/
structure Decided (g : ResizeGovernor) (now : Nat) (o : ResizeObservation) (c : ResizeGovernorConfig)
    (v : ResizeVerdict) (g' : ResizeGovernor) : Prop where
  layout : g'.layout = g.layout
  change : g'.lastLayoutChange = g.lastLayoutChange
  unmeasured : g'.unmeasured = g.unmeasured
  ineffective : o.growth ≠ none → g'.ineffective = g.ineffective
  streak : g'.streak ≠ 0 → o.growth ≠ none ∧ g'.streak ≤ g.streak + 1
  pending : ∀ ms, g.pendingAccept.map GovernedOperation.beforeMaxSelective = pendingOf ms →
    g'.pendingAccept.map GovernedOperation.beforeMaxSelective = pendingOf (.observed now o v :: ms)
  accept : ∀ source target generation, v = .accept source target generation →
    (source = o.numShards ∧ source < target) ∧
    ((∃ r ∈ o.recommended, target ≤ r) ∧ target ≤ source + c.maxStep ∧ target ≤ c.maxShards) ∧
    g.ineffective = none ∧ o.growth ≠ none ∧ c.requiredObservations.toNat ≤ g'.streak ∧
    ∀ changed ∈ g.lastLayoutChange, c.cooldown ≤ now - changed

section Steps

variable {c : ResizeGovernorConfig} {ms : List Moment} {g : ResizeGovernor} {now : Nat}
  {o : ResizeObservation}

theorem decided_decideGrowth :
    Decided g now o c (g.decideGrowth now o c).1 (g.decideGrowth now o c).2 := by
  unfold ResizeGovernor.decideGrowth
  cases hgrowth : o.growth with
  | none => constructor <;> simp_all [pendingOf]
  | some recommended =>
    obtain ⟨hrec, hlt⟩ := Option.filter_eq_some_iff.mp hgrowth
    cases hheld : g.ineffective with
    | some held => constructor <;> simp_all [pendingOf]
    | none =>
      dsimp only
      split
      · constructor <;> simp_all [pendingOf]
      · split
        · constructor <;> simp_all [pendingOf]
        · split
          · constructor <;> simp_all [pendingOf]
          · next hroom hlong _ hcool =>
            refine ⟨rfl, rfl, rfl, fun _ => by simp [hheld], ?_, fun ms _ => rfl, ?_⟩
            · intro _
              exact ⟨by simp [hgrowth], Nat.min_le_left ..⟩
            · rintro source target generation haccept
              cases haccept
              refine ⟨⟨rfl, by omega⟩, ⟨⟨recommended, hrec, by omega⟩, by omega, by omega⟩, hheld,
                by simp [hgrowth], Nat.le_of_not_lt hlong, fun changed hchanged => ?_⟩
              have hnone := Option.filter_eq_none_iff.mp hcool changed hchanged
              simpa using hnone

theorem unmeasured_see (hok : Timely g o) : (g.see now o).unmeasured = g.unmeasured := by
  unfold ResizeGovernor.see
  split_ifs with _ _ hany
  · rfl
  · rfl
  · rfl
  · cases hun : g.unmeasured with
    | none => rfl
    | some op => simp [hun, hok op hun] at hany

theorem ineffective_measure (hne : g.ineffective ≠ none) : (g.measure o c).ineffective ≠ none := by
  unfold ResizeGovernor.measure
  cases g.unmeasured with
  | none => exact hne
  | some op =>
    dsimp only
    split
    · simp
    · exact hne

theorem mem_heldBy {v : ResizeVerdict} {l : Nat × Nat} (hl : l ∈ heldBy c (.observed now o v :: ms)) :
    o.growth ≠ none ∧ o.layout = l ∧
      ((∃ op ∈ awaiting ms, op.placementGeneration = o.placementGeneration ∧ op.Short o c) ∨
        l ∈ heldBy c ms) := by
  unfold heldBy at hl
  split_ifs at hl with hgrowth hshort
  · contradiction
  · exact ⟨hgrowth, Option.some.inj hl, .inl hshort⟩
  · obtain ⟨hheld, heq⟩ := Option.filter_eq_some_iff.mp hl
    exact ⟨hgrowth, (of_decide_eq_true heq).symm, .inr hheld⟩

theorem Follows.measured (h : Follows ms g) (o : ResizeObservation) (now : Nat)
    (v : ResizeVerdict) :
    ((g.see now o).measure o c).layout = some o.layout ∧
    ((g.see now o).measure o c).lastLayoutChange = lastChange (.observed now o v :: ms) ∧
    ((g.see now o).measure o c).pendingAccept = g.pendingAccept ∧
    ∃ recent older, ms = recent ++ older ∧ ((g.see now o).measure o c).streak ≤ recent.length ∧
      ∀ m ∈ recent, m.Grows o.layout := by
  obtain ⟨recent, older, hms, hle, hall⟩ := h.streak
  by_cases hfirst : g.layout = none
  · have hsee : g.see now o = { g with layout := some o.layout } := if_pos hfirst
    rw [hsee]
    refine ⟨rfl, ?_, rfl, recent, older, hms, hle, fun m hm => ?_⟩
    · rw [lastChange, if_pos (.inl (h.layout ▸ hfirst))]
      exact h.change
    · obtain ⟨l, hl, -⟩ := hall m hm
      rw [hfirst] at hl
      contradiction
  · by_cases hsame : g.layout = some o.layout
    · have hsee : g.see now o = g := by simp [ResizeGovernor.see, hsame]
      rw [hsee]
      refine ⟨hsame, ?_, rfl, recent, older, hms, hle, fun m hm => ?_⟩
      · rw [lastChange, if_pos (.inr (h.layout ▸ hsame))]
        exact h.change
      · obtain ⟨l, hl, hgrows⟩ := hall m hm
        rwa [Option.some.inj (hsame.symm.trans hl)]
    · have hchange : lastChange (.observed now o v :: ms) = some now := by
        rw [lastChange, if_neg]
        rw [← h.layout]
        exact not_or.mpr ⟨hfirst, hsame⟩
      rw [hchange]
      refine ⟨?_, ?_, ?_, [], ms, rfl, ?_, by simp⟩ <;>
        simp only [ResizeGovernor.measure, ResizeGovernor.see, if_neg hfirst, if_neg hsame] <;>
        split <;> rfl

/-- An operation that is measured in time holds further growth from then on. -/
theorem Holds.measured (h : Holds c ms g) (hok : Timely g o) {v : ResizeVerdict} {l : Nat × Nat}
    (hl : l ∈ heldBy c (.observed now o v :: ms)) :
    ((g.see now o).measure o c).ineffective ≠ none ∧ o.layout = l := by
  obtain ⟨-, heq, ⟨op, hop, hshort⟩ | hbefore⟩ := mem_heldBy hl
  · refine ⟨?_, heq⟩
    have hun : (g.see now o).unmeasured = some op := (unmeasured_see hok).trans (h.unmeasured ▸ hop)
    simp [ResizeGovernor.measure, hun, hshort]
  · obtain ⟨hne, hlayout⟩ := h.held l hbefore
    have hsame : g.see now o = g := by simp [ResizeGovernor.see, hlayout, heq]
    rw [hsame]
    exact ⟨ineffective_measure hne, heq⟩

theorem Follows.observed (h : Follows ms g) (c : ResizeGovernorConfig) :
    Follows (.observed now o (g.observe now o c).1 :: ms) (g.observe now o c).2 := by
  obtain ⟨hlayout, hchange, hpending, recent, older, rfl, hle, hall⟩ :=
    h.measured (c := c) o now (g.observe now o c).1
  have hd : Decided _ now o c (g.observe now o c).1 (g.observe now o c).2 := decided_decideGrowth
  refine ⟨hd.layout.trans hlayout, hd.change.trans hchange, hd.pending _ (hpending ▸ h.pending), ?_⟩
  by_cases hzero : (g.observe now o c).2.streak = 0
  · exact ⟨[], _, rfl, hzero.le, by simp⟩
  · obtain ⟨hgrowth, hstreak⟩ := hd.streak hzero
    refine ⟨_ :: recent, older, rfl, by rw [length_cons]; omega, fun m hm => ?_⟩
    refine ⟨o.layout, hd.layout.trans hlayout, ?_⟩
    rcases mem_cons.mp hm with rfl | hm
    · exact ⟨rfl, hgrowth⟩
    · exact hall m hm

theorem Holds.observed (hf : Follows ms g) (h : Holds c ms g) (hok : Timely g o) :
    Holds c (.observed now o (g.observe now o c).1 :: ms) (g.observe now o c).2 := by
  have hlayout := (hf.measured (c := c) o now (g.observe now o c).1).1
  have hd : Decided _ now o c (g.observe now o c).1 (g.observe now o c).2 := decided_decideGrowth
  refine ⟨hd.unmeasured.trans ?_, fun l hl => ?_⟩
  · cases hun : awaiting ms with
    | none => simp [awaiting, hun, ResizeGovernor.measure]
    | some op =>
      simp [awaiting, hun, ResizeGovernor.measure, Option.filter, hok op (h.unmeasured.trans hun)]
  · obtain ⟨hne, rfl⟩ := h.measured hok hl
    refine ⟨?_, hd.layout.trans hlayout⟩
    rw [hd.ineffective fun hnone => ?_]
    · exact hne
    · simp [heldBy, hnone] at hl

theorem Follows.pendingOf_eq_none (h : Follows ms g) :
    pendingOf ms = none ↔ g.pendingAccept = none := by
  simp [← h.pending]

theorem Follows.reported (h : Follows ms g) (produced : Option Nat) :
    Follows (.reported now produced :: ms) (g.recordOutcome now produced) := by
  have hpending := h.pending
  unfold ResizeGovernor.recordOutcome
  split
  · next hidle =>
    refine ⟨h.layout, ?_, ?_, [], _, rfl, le_rfl, by simp⟩
    · rw [lastChange, if_pos (.inl (h.pendingOf_eq_none.mpr hidle))]
      exact h.change
    · simp [hidle, pendingOf]
  · next hidle =>
    refine ⟨h.layout, ?_, rfl, [], _, rfl, le_rfl, by simp⟩
    rw [lastChange, if_pos (.inr rfl)]
    exact h.change
  · next accepted generation haccepted =>
    rw [haccepted, Option.map_some] at hpending
    refine ⟨h.layout, ?_, rfl, [], _, rfl, le_rfl, by simp⟩
    simp [lastChange, ← hpending]

theorem Holds.reported (hf : Follows ms g) (h : Holds c ms g) (produced : Option Nat) :
    Holds c (.reported now produced :: ms) (g.recordOutcome now produced) := by
  have hpending := hf.pending
  unfold ResizeGovernor.recordOutcome
  split
  · next hidle =>
    exact ⟨by simp [awaiting, hf.pendingOf_eq_none.mpr hidle, h.unmeasured], h.held⟩
  · exact ⟨by simp [awaiting, h.unmeasured], h.held⟩
  · next accepted generation haccepted =>
    rw [haccepted, Option.map_some] at hpending
    exact ⟨by simp [awaiting, ← hpending], h.held⟩

variable {ok : ResizeGovernor → ResizeObservation → Prop}

theorem Governs.follows (h : Governs c ok ms g) : Follows ms g := by
  induction h with
  | new => exact ⟨rfl, rfl, rfl, [], [], rfl, le_rfl, by simp⟩
  | observed now o _ _ ih => exact ih.observed c
  | reported now produced _ ih => exact ih.reported produced

theorem Governs.holds (h : Governs c ok ms g) (hok : ∀ g o, ok g o → Timely g o) :
    Holds c ms g := by
  induction h with
  | new => exact ⟨rfl, by simp [heldBy]⟩
  | observed now o hbefore hnext ih => exact Holds.observed hbefore.follows ih (hok _ _ hnext)
  | reported now produced hbefore ih => exact Holds.reported hbefore.follows ih produced

/-- **The governor accepts right** in every run of observations and outcomes:
the step is bounded, the recommendation persisted and the cooldown is over.  No
operation that fell short holds further growth, if in the run an operation that
waits to be measured is measured by the next observation. -/
theorem accepts_right {source target generation : Nat}
    (h : Governs c ok (.observed now o (.accept source target generation) :: ms) g) :
    AcceptRight c (.observed now o (.accept source target generation) :: ms) now o source target ∧
      ((∀ g o, ok g o → Timely g o) →
        heldBy c (.observed now o (.accept source target generation) :: ms) = none) := by
  have hfollows := h.follows
  generalize hv : ResizeVerdict.accept source target generation = v at h hfollows ⊢
  cases h with
  | @observed _ g₀ _ _ hbefore hnext =>
    have hd : Decided _ now o c (g₀.observe now o c).1 (g₀.observe now o c).2 :=
      decided_decideGrowth
    obtain ⟨hlayout, hchange, -, -⟩ := hbefore.follows.measured (c := c) o now (g₀.observe now o c).1
    obtain ⟨hgrows, hbounded, hfree, hgrowth, hlong, hcool⟩ := hd.accept _ _ _ hv.symm
    obtain ⟨recent, older, hms, hle, hall⟩ := hfollows.streak
    refine ⟨⟨hgrows, hbounded, ?_, hchange ▸ hcool⟩, fun hok => ?_⟩
    · refine ⟨recent.take c.requiredObservations.toNat,
        recent.drop c.requiredObservations.toNat ++ older, ?_, ?_, fun m hm => ?_⟩
      · rw [← append_assoc, take_append_drop, hms]
      · exact length_take_of_le (hlong.trans hle)
      · obtain ⟨l, hl, hm⟩ := hall m (mem_of_mem_take hm)
        rwa [Option.some.inj ((hd.layout.trans hlayout).symm.trans hl)]
    · by_contra hne
      obtain ⟨l, hl⟩ := Option.ne_none_iff_exists'.mp hne
      exact ((hbefore.holds hok).measured (hok _ _ hnext) hl).1 hfree

end Steps

/-- Two observations, ten nanoseconds apart from a change, and a tenth of relief. -/
def patientConfig : ResizeGovernorConfig := ⟨2, 10, 2, 8, 10⟩

/-- A hot shard of a layout of two. -/
def hotPair : ResizeObservation := ⟨2, 1, some 5, 100⟩

/-- A layout of four that relieved nothing. -/
def hotFour : ResizeObservation := ⟨4, 2, some 6, 100⟩

/-- A run to its second accept, newest first: the first operation fell short and
holds growth until an observation without a recommendation; then two more
observations pass, and the cooldown since the new layout. -/
def secondGrowth : List Moment :=
  [.observed 40 hotFour (.accept 4 6 2), .observed 30 hotFour (.deferred 6 1 2),
    .observed 25 ⟨4, 2, none, 100⟩ .idle, .observed 22 hotFour (.ineffective 100 100 10),
    .reported 20 (some 2), .observed 2 hotPair (.accept 2 4 1),
    .observed 1 hotPair (.deferred 4 1 2)]

theorem second_growth_accepted :
    (∃ g, Governs patientConfig Timely secondGrowth g) ∧
      AcceptRight patientConfig secondGrowth 40 hotFour 4 6 ∧
      heldBy patientConfig secondGrowth = none := by
  -- nothing waits to be measured but at the first observation of the new layout
  have hnone {g : ResizeGovernor} {o : ResizeObservation} (hg : g.unmeasured = none) :
      Timely g o := by simp [Timely, hg]
  have h : Governs patientConfig Timely _ _ := .observed 40 hotFour
    (.observed 30 hotFour (.observed 25 ⟨4, 2, none, 100⟩ (.observed 22 hotFour
      (.reported 20 (some 2) (.observed 2 hotPair (.observed 1 hotPair .new (hnone rfl)) (hnone rfl)))
      (by rintro op ⟨⟩; rfl)) (hnone rfl)) (hnone rfl)) (hnone rfl)
  exact ⟨⟨_, h⟩, (accepts_right h).1, (accepts_right h).2 fun _ _ hok => hok⟩

/-- One observation is enough, without a cooldown. -/
def eagerConfig : ResizeGovernorConfig := ⟨1, 0, 2, 8, 10⟩

/-- An observation of the old layout, made after the outcome was reported, uses up
the measurement: the layout produced relieves nothing, and more growth is accepted. -/
theorem stale_observation_unholds :
    ∃ g, Governs eagerConfig (fun _ _ => True)
      [.observed 3 ⟨4, 2, some 5, 100⟩ (.accept 4 5 2), .observed 2 hotPair (.accept 2 4 1),
        .reported 1 (some 2), .observed 0 hotPair (.accept 2 4 1)] g ∧
    heldBy eagerConfig [.observed 3 ⟨4, 2, some 5, 100⟩ (.accept 4 5 2),
        .observed 2 hotPair (.accept 2 4 1), .reported 1 (some 2),
        .observed 0 hotPair (.accept 2 4 1)] = some (4, 2) := by
  refine ⟨_, .observed 3 ⟨4, 2, some 5, 100⟩ (.observed 2 hotPair (.reported 1 (some 2)
    (.observed 0 hotPair .new trivial)) trivial) trivial, ?_⟩
  decide

end ReverseRusty
