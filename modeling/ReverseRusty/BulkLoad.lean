import ReverseRusty.Lib.Dialogue

/-!
# ReverseRusty.BulkLoad

Loading a corpus into an empty cluster (`coordinator/ingest/bulk.rs`).

The coordinator marks every shard, reserves the ids, sends each shard its bucket,
takes a checkpoint on a durable cluster, and clears the marks.  It is a dialogue
with the shards: a call may fail before or after it took effect, and a crash leaves
what was said up to then, so what has to hold at every moment holds after every
beginning of the dialogue.

Main result: `bulk_load_marked`.
-/

namespace ReverseRusty

open List

open Dialogue

/-! ## buckets -/

structure LoadEntry where
  logical : UInt64
  text : String
  tags : List (String × String)
deriving DecidableEq

inductive LoadTarget where
  | reject
  | replicated
  | selective (shards : List Nat)

/-- Sort the queries into one bucket a shard, with the ids of those accepted.
`place` is the parser, the compiler and the placement: none for a text that does
not parse. -/
def bucketize (place : String → Option (Except String LoadTarget)) (n : Nat)
    (entries : List LoadEntry) : Except String (List (List LoadEntry) × List UInt64) :=
  entries.foldlM (fun (buckets, ids) entry =>
    match place entry.text with
    | none => .ok (buckets, ids)
    | some (.error e) => .error e
    | some (.ok .reject) => .ok (buckets, ids)
    | some (.ok .replicated) => .ok (buckets.map (· ++ [entry]), ids ++ [entry.logical])
    | some (.ok (.selective shards)) =>
      .ok (shards.foldl (fun buckets s => buckets.modify s (· ++ [entry])) buckets,
        ids ++ [entry.logical])) (List.replicate n [], [])

/-! ## the dialogue -/

structure LoadShard where
  keepsMark : Bool
  mark : Bool
  rows : List LoadEntry

inductive LoadOp where
  | setBulkLoadIncomplete (shard : Nat) (incomplete : Bool)
  | ingestExtracted (shard : Nat) (bucket : List LoadEntry)
  | checkpoint
deriving DecidableEq

/-- What became of a call; only `done` is reported as a success. -/
inductive CallFate where
  | done
  | failedBefore
  | failedAfter
deriving DecidableEq

abbrev Loading := Dialogue LoadOp fun _ => CallFate

abbrev LoadTrace := Said fun _ : LoadOp => CallFate

def tell (op : LoadOp) : Loading Bool := do
  let fate ← request op
  return fate = .done

def LoadOp.effect (i : Nat) (s : LoadShard) : LoadOp → LoadShard
  | .setBulkLoadIncomplete j incomplete =>
    if i = j then { s with mark := s.keepsMark && incomplete } else s
  | .ingestExtracted j bucket => if i = j then { s with rows := s.rows ++ bucket } else s
  | .checkpoint => s

/-- Shard `i` after what was said. -/
def LoadShard.after (s : LoadShard) (i : Nat) (tr : LoadTrace) : LoadShard :=
  tr.foldl (fun s said => if said.2 = .failedBefore then s else said.1.effect i s) s

/-- Clear marks, whatever is answered. -/
def takeBackBulkLoadMarks : List Nat → Loading Unit
  | [] => pure ()
  | i :: is => do
    let _ ← tell (.setBulkLoadIncomplete i false)
    takeBackBulkLoadMarks is

def markBulkLoadBegun : List Nat → Loading Bool
  | [] => pure true
  | i :: is => do
    if ← tell (.setBulkLoadIncomplete i true) then markBulkLoadBegun is
    else do
      takeBackBulkLoadMarks (List.range (i + 1))
      return false

def ingestBuckets : List (List LoadEntry × Nat) → Loading Bool
  | [] => pure true
  | (bucket, i) :: rest => do
    if bucket = [] then ingestBuckets rest
    else if ← tell (.ingestExtracted i bucket) then ingestBuckets rest
    else return false

def markBulkLoadComplete : List Nat → Loading Bool
  | [] => pure true
  | i :: is => do
    if ← tell (.setBulkLoadIncomplete i false) then markBulkLoadComplete is else return false

/-- How a load ends: refused before a row is sent, stopped later, or complete. -/
inductive LoadEnd where
  | refused
  | stopped (reserved : List UInt64)
  | loaded (reserved : List UInt64)
deriving DecidableEq

/-- Load a corpus.  Reserving ids that are all different cannot fail. -/
def ingestWithTags (durable : Bool) (place : String → Option (Except String LoadTarget))
    (shards : List LoadShard) (entries : List LoadEntry) : Loading LoadEnd :=
  if shards.any fun s => s.rows ≠ [] then pure .refused
  else
    match bucketize place shards.length entries with
    | .error _ => pure .refused
    | .ok (buckets, ids) =>
      if ids.Nodup then do
        if ← markBulkLoadBegun (List.range shards.length) then
          if ← ingestBuckets buckets.zipIdx then
            if ← (if durable then tell .checkpoint else pure true) then
              if ← markBulkLoadComplete (List.range shards.length) then return .loaded ids
              else return .stopped ids
            else return .stopped ids
          else return .stopped ids
        else return .refused
      else pure .refused

def LoadEnd.reserved : LoadEnd → List UInt64
  | .refused => []
  | .stopped ids | .loaded ids => ids

/-! ## what the shards hold -/

/-- The bucket of shard `i`, empty when the corpus is refused. -/
def corpusBucket (place : String → Option (Except String LoadTarget)) (n : Nat)
    (entries : List LoadEntry) (i : Nat) : List LoadEntry :=
  match bucketize place n entries with
  | .error _ => []
  | .ok (buckets, _) => buckets.getD i []

/-- Every shard, as it was and as it is after what was said, is in `P`. -/
def EveryShard (shards : List LoadShard) (P : Nat → LoadShard → LoadShard → Prop)
    (tr : LoadTrace) : Prop :=
  ∀ i s, shards[i]? = some s → P i s (s.after i tr)

/-- Some of the corpus has landed, and not all of it. -/
def PartlyLoaded (shards : List LoadShard) (bucket : Nat → List LoadEntry)
    (tr : LoadTrace) : Prop :=
  ¬ EveryShard shards (fun _ s s' => s'.rows = s.rows) tr ∧
    ¬ EveryShard shards (fun i s s' => s'.rows = s.rows ++ bucket i) tr

def NotSilent (shards : List LoadShard) (bucket : Nat → List LoadEntry)
    (tr : LoadTrace) : Prop :=
  PartlyLoaded shards bucket tr → EveryShard shards (fun _ _ s' => s'.mark = true) tr

def LoadOp.isClear : LoadOp → Bool
  | .setBulkLoadIncomplete _ incomplete => !incomplete
  | _ => false

def ClearsDone (tr : LoadTrace) : Prop := ∀ said ∈ tr, said.1.isClear → said.2 = .done

section Load

variable {shards : List LoadShard} {bucket : Nat → List LoadEntry} {tr : LoadTrace}
  {P P' : Nat → LoadShard → LoadShard → Prop} {op : LoadOp} {fate : CallFate}

theorem LoadShard.after_concat (s : LoadShard) (i : Nat) :
    s.after i (tr ++ [⟨op, fate⟩]) =
      if fate = .failedBefore then s.after i tr else op.effect i (s.after i tr) := by
  rw [LoadShard.after, foldl_append, LoadShard.after]
  rfl

theorem EveryShard.done (h : EveryShard shards P tr)
    (hdo : ∀ i s s', P i s s' → P' i s (op.effect i s')) :
    EveryShard shards P' (tr ++ [⟨op, .done⟩]) := by
  intro i s hs
  rw [LoadShard.after_concat, if_neg (by decide)]
  exact hdo i s _ (h i s hs)

theorem EveryShard.said (h : EveryShard shards P tr) (hno : ∀ i s s', P i s s' → P' i s s')
    (hdo : ∀ i s s', P i s s' → P' i s (op.effect i s')) :
    EveryShard shards P' (tr ++ [⟨op, fate⟩]) := by
  intro i s hs
  rw [LoadShard.after_concat]
  split
  · exact hno i s _ (h i s hs)
  · exact hdo i s _ (h i s hs)

theorem EveryShard.mono (h : EveryShard shards P tr) (hP : ∀ i s s', P i s s' → P' i s s') :
    EveryShard shards P' tr := fun i s hs => hP i s _ (h i s hs)

@[simp] theorem rows_effect_set (i j : Nat) (s : LoadShard) (incomplete : Bool) :
    (LoadOp.effect i s (.setBulkLoadIncomplete j incomplete)).rows = s.rows := by
  grind [LoadOp.effect]

@[simp] theorem mark_effect_ingest (i j : Nat) (s : LoadShard) (rows : List LoadEntry) :
    (LoadOp.effect i s (.ingestExtracted j rows)).mark = s.mark := by
  grind [LoadOp.effect]

theorem ClearsDone.of_concat (h : ClearsDone (tr ++ [⟨op, fate⟩])) : ClearsDone tr :=
  fun said hmem => h said (mem_append_left _ hmem)

/-! ## the phases -/

/-- No call is made while the corpus is partly and silently there. -/
abbrev LoudLoad (shards : List LoadShard) (bucket : Nat → List LoadEntry) :
    LoadTrace → LoadOp → Prop := fun tr _ => NotSilent shards bucket tr

theorem notSilent_of_rows (h : EveryShard shards P tr)
    (hP : ∀ i s s', P i s s' → s'.rows = s.rows) : NotSilent shards bucket tr :=
  fun hpart => absurd (h.mono hP) hpart.1

@[simp] theorem obeys_tell {G : LoadTrace → LoadOp → Prop} {Q : Bool → LoadTrace → Prop} :
    Obeys G (tell op) tr Q ↔
      G tr op ∧ ∀ fate, Q (fate = .done) (tr ++ [⟨op, fate⟩]) := Iff.rfl

variable {is : List Nat}

theorem takeBack_obeys (h : EveryShard shards (fun i s s' => s'.rows = s.rows ∧
      (ClearsDone tr → i ∉ is → s.mark = false → s'.mark = false)) tr) :
    Obeys (LoudLoad shards bucket) (takeBackBulkLoadMarks is) tr fun _ tr' =>
      EveryShard shards (fun _ s s' => s'.rows = s.rows ∧
        (ClearsDone tr' → s.mark = false → s'.mark = false)) tr' := by
  induction is generalizing tr with
  | nil =>
    rw [takeBackBulkLoadMarks, obeys_pure]
    exact h.mono fun i s s' hs => ⟨hs.1, fun hc => hs.2 hc not_mem_nil⟩
  | cons j is ih =>
    simp only [takeBackBulkLoadMarks, obeys_bind, obeys_tell]
    refine ⟨notSilent_of_rows h fun _ _ _ hs => hs.1, fun fate => ih ?_⟩
    by_cases hfate : fate = .done
    · subst hfate
      refine h.done fun i s s' hs => ⟨by simpa using hs.1, fun hc hi hm => ?_⟩
      have hstill := hs.2 hc.of_concat
      grind [LoadOp.effect]
    · refine h.said (fun i s s' hs => ⟨hs.1, fun hc => ?_⟩)
        fun i s s' hs => ⟨by simpa using hs.1, fun hc => ?_⟩
      all_goals exact absurd (hc _ (mem_append_right _ mem_cons_self) rfl) hfate

variable {k : Nat}

theorem markBegun_obeys {m : Nat}
    (h : EveryShard shards (fun i s s' => s'.keepsMark = true ∧ s'.rows = s.rows ∧
      (i < k → s'.mark = true) ∧ (k ≤ i → s'.mark = s.mark)) tr) :
    Obeys (LoudLoad shards bucket) (markBulkLoadBegun (List.range' k m)) tr fun ok tr' =>
      EveryShard shards (fun i s s' => s'.rows = s.rows ∧ (ok = true → i < k + m → s'.mark = true) ∧
        (ok = false → ClearsDone tr' → s.mark = false → s'.mark = false)) tr' := by
  induction m generalizing tr k with
  | zero =>
    rw [range'_zero, markBulkLoadBegun, obeys_pure]
    exact h.mono fun i s s' hs => ⟨hs.2.1, fun _ => hs.2.2.1, by simp⟩
  | succ m ih =>
    simp only [range'_succ, markBulkLoadBegun, obeys_bind, obeys_tell]
    refine ⟨notSilent_of_rows h fun _ _ _ hs => hs.2.1, fun fate => ?_⟩
    by_cases hfate : fate = .done
    · subst hfate
      refine (ih (k := k + 1) (h.done fun i s s' hs => ?_)).mono ?_
      · grind [LoadOp.effect]
      · exact fun ok tr' hend => hend.mono fun i s s' hs =>
          ⟨hs.1, fun hok hi => hs.2.1 hok (by omega), hs.2.2⟩
    · rw [decide_eq_false hfate]
      simp only [Bool.false_eq_true, if_false, obeys_bind, obeys_pure]
      refine (takeBack_obeys (h.said ?_ ?_)).mono fun _ tr' hend =>
        hend.mono fun i s s' hs => ⟨hs.1, by simp, fun _ => hs.2⟩
      all_goals
        intro i s s' hs
        refine ⟨by simpa using hs.2.1, fun _ hi hm => ?_⟩
        rw [mem_range] at hi
        grind [LoadOp.effect]

theorem ingestBuckets_obeys {buckets : List (List LoadEntry)}
    (hbucket : ∀ i, bucket (k + i) = buckets.getD i [])
    (h : EveryShard shards (fun i s s' => s'.mark = true ∧
      s'.rows = s.rows ++ if i < k then bucket i else []) tr) :
    Obeys (LoudLoad shards bucket) (ingestBuckets (buckets.zipIdx k)) tr fun ok tr' =>
      EveryShard shards (fun i s s' => s'.mark = true ∧
        (ok = true → s'.rows = s.rows ++ bucket i)) tr' := by
  induction buckets generalizing tr k with
  | nil =>
    rw [zipIdx_nil, ingestBuckets, obeys_pure]
    refine h.mono fun i s s' hs => ⟨hs.1, fun _ => hs.2.trans ?_⟩
    have := hbucket (i - k)
    grind
  | cons b buckets ih =>
    have hb : bucket k = b := hbucket 0
    have hrest : ∀ i, bucket (k + 1 + i) = buckets.getD i [] := by
      intro i
      have := hbucket (i + 1)
      grind
    rw [zipIdx_cons, ingestBuckets]
    by_cases hempty : b = []
    · rw [if_pos hempty]
      refine ih hrest (h.mono fun i s s' hs => ⟨hs.1, hs.2.trans ?_⟩)
      grind
    · rw [if_neg hempty]
      simp only [obeys_bind, obeys_tell]
      refine ⟨fun _ => h.mono fun _ _ _ hs => hs.1, fun fate => ?_⟩
      by_cases hfate : fate = .done
      · subst hfate
        refine ih hrest (h.done fun i s s' hs => ⟨by simpa using hs.1, ?_⟩)
        grind [LoadOp.effect]
      · rw [decide_eq_false hfate]
        simp only [Bool.false_eq_true, if_false, obeys_pure]
        exact h.said (fun i s s' hs => ⟨hs.1, by simp⟩) fun i s s' hs => ⟨by simpa using hs.1, by simp⟩

theorem markComplete_obeys (h : EveryShard shards (fun i s s' => s'.rows = s.rows ++ bucket i) tr) :
    Obeys (LoudLoad shards bucket) (markBulkLoadComplete is) tr fun _ tr' =>
      EveryShard shards (fun i s s' => s'.rows = s.rows ++ bucket i) tr' := by
  induction is generalizing tr with
  | nil => exact h
  | cons j is ih =>
    simp only [markBulkLoadComplete, obeys_bind, obeys_tell]
    refine ⟨fun hpart => absurd h hpart.2, fun fate => ?_⟩
    have hnext : EveryShard shards (fun i s s' => s'.rows = s.rows ++ bucket i)
        (tr ++ [⟨.setBulkLoadIncomplete j false, fate⟩]) :=
      h.said (fun _ _ _ hs => hs) fun i s s' hs => by simpa using hs
    cases hfate : decide (fate = .done) with
    | true => exact ih hnext
    | false => exact hnext

theorem checkpoint_obeys {durable : Bool} {Q : LoadTrace → Prop}
    (h : EveryShard shards P tr) (hloud : NotSilent shards bucket tr)
    (hQ : ∀ tr', EveryShard shards P tr' → Q tr') :
    Obeys (LoudLoad shards bucket) (if durable then tell .checkpoint else pure true) tr
      fun _ tr' => Q tr' := by
  cases durable with
  | false => exact hQ tr h
  | true => exact ⟨hloud, fun fate => hQ _ (h.said (fun _ _ _ hs => hs) fun _ _ _ hs => hs)⟩

end Load

section Main

variable {durable : Bool} {place : String → Option (Except String LoadTarget)}
  {shards : List LoadShard} {entries : List LoadEntry}

theorem ingestWithTags_obeys (hkeeps : ∀ s ∈ shards, s.keepsMark = true) :
    Obeys (LoudLoad shards (corpusBucket place shards.length entries))
      (ingestWithTags durable place shards entries) [] fun ended tr =>
        NotSilent shards (corpusBucket place shards.length entries) tr ∧
          (ended = .refused → ClearsDone tr →
            EveryShard shards (fun _ s s' => s.mark = false → s'.mark = false) tr) := by
  have hstart : EveryShard shards (fun _ s s' => s' = s) [] := fun _ _ _ => rfl
  have hnone : NotSilent shards (corpusBucket place shards.length entries) [] :=
    notSilent_of_rows hstart fun _ _ _ hs => congrArg _ hs
  have hkept : EveryShard shards (fun _ s s' => s.mark = false → s'.mark = false) [] :=
    hstart.mono fun _ _ _ hs => hs ▸ id
  unfold ingestWithTags
  split
  · exact ⟨hnone, fun _ _ => hkept⟩
  split
  · exact ⟨hnone, fun _ _ => hkept⟩
  rename_i buckets ids hbuckets
  split
  swap
  · exact ⟨hnone, fun _ _ => hkept⟩
  have hbucket : ∀ i, corpusBucket place shards.length entries (0 + i) = buckets.getD i [] := by
    intro i
    rw [corpusBucket, hbuckets, Nat.zero_add]
  simp only [obeys_bind]
  rw [range_eq_range']
  refine (markBegun_obeys fun i s hs => ?_).mono fun ok tr hmarked => ?_
  · exact ⟨hkeeps s (mem_of_getElem? hs), rfl, by simp, fun _ => rfl⟩
  cases ok with
  | false =>
    refine ⟨notSilent_of_rows hmarked fun _ _ _ hs => hs.1, fun _ hc => ?_⟩
    exact hmarked.mono fun _ _ _ hs => hs.2.2 rfl hc
  | true =>
    have hready : EveryShard shards (fun i s s' => s'.mark = true ∧ s'.rows = s.rows ++
        if i < 0 then corpusBucket place shards.length entries i else []) tr := by
      intro i s hs
      obtain ⟨hlt, -⟩ := List.getElem?_eq_some_iff.mp hs
      have hm := hmarked i s hs
      exact ⟨hm.2.1 rfl (by omega), by simpa using hm.1⟩
    simp only [if_true, obeys_bind]
    refine (ingestBuckets_obeys hbucket hready).mono fun ok tr hsent => ?_
    have hloud : NotSilent shards (corpusBucket place shards.length entries) tr :=
      fun _ => hsent.mono fun _ _ _ hs => hs.1
    cases ok with
    | false => exact ⟨hloud, by simp⟩
    | true =>
      simp only [if_true, obeys_bind]
      refine (checkpoint_obeys hsent hloud fun _ h => h).mono fun ok tr hsent => ?_
      cases ok with
      | false => exact ⟨fun _ => hsent.mono fun _ _ _ hs => hs.1, by simp⟩
      | true =>
        simp only [if_true, obeys_bind]
        refine (markComplete_obeys (hsent.mono fun _ _ _ hs => hs.2 rfl)).mono
          fun ok tr hdone => ?_
        cases ok <;> exact ⟨fun hpart => absurd hdone hpart.2, by simp⟩

/-- **A load is never silently partial**: when the shards keep marks, then after
every beginning of a load a corpus that is partly there is marked on every shard.
A load refused before it sends a row reserves nothing, and leaves no mark when every
clear succeeds. -/
theorem bulk_load_marked {σ : Type} (hkeeps : ∀ s ∈ shards, s.keepsMark = true)
    (machine : LoadOp → σ → CallFate × σ) (m : σ) :
    let (ended, _, tr) := (ingestWithTags durable place shards entries).run machine m []
    (∀ before, before <+: tr →
      NotSilent shards (corpusBucket place shards.length entries) before) ∧
    (ended = .refused → ended.reserved = [] ∧ (ClearsDone tr →
      EveryShard shards (fun _ s s' => s.mark = false → s'.mark = false) tr)) := by
  obtain ⟨⟨hend, hclean⟩, hall⟩ :=
    (@ingestWithTags_obeys durable place shards entries hkeeps).run allowed_nil machine m
  refine ⟨?_, fun hrefused => ⟨by rw [hrefused, LoadEnd.reserved], hclean hrefused⟩⟩
  rintro before ⟨after, hafter⟩
  cases after with
  | nil =>
    rw [append_nil] at hafter
    exact hafter ▸ hend
  | cons said after => exact hall before said after hafter.symm

end Main

def answering (_ : LoadOp) (fates : List CallFate) : CallFate × List CallFate :=
  (fates.headD .done, fates.tail)

/-- The text names its shard. -/
def placeByText (text : String) : Option (Except String LoadTarget) :=
  some (.ok (.selective [text.length]))

def pairLoad (keepsMark : Bool) (fates : List CallFate) : LoadEnd × List CallFate × LoadTrace :=
  (ingestWithTags false placeByText (List.replicate 2 ⟨keepsMark, false, []⟩)
    [⟨1, "", []⟩, ⟨2, "x", []⟩]).run answering fates []

/-- Half of the rows are sent and every shard is marked; and a mark that is not
acknowledged refuses the load, which reserves nothing. -/
theorem pairLoad_marked :
    (let tr := (pairLoad true [.done, .done, .done, .failedBefore]).2.2
     PartlyLoaded (List.replicate 2 ⟨true, false, []⟩)
        (corpusBucket placeByText 2 [⟨1, "", []⟩, ⟨2, "x", []⟩]) tr ∧
      EveryShard (List.replicate 2 ⟨true, false, []⟩) (fun _ _ s' => s'.mark = true) tr) ∧
    (let ended := (pairLoad true [.done, .failedAfter]).1
     ended = .refused ∧ ended.reserved = []) := by
  have hmarked := fun fates => @bulk_load_marked false placeByText
    (List.replicate 2 ⟨true, false, []⟩) [⟨1, "", []⟩, ⟨2, "x", []⟩] _ (by simp) answering fates
  have hpart : PartlyLoaded (List.replicate 2 ⟨true, false, []⟩)
      (corpusBucket placeByText 2 [⟨1, "", []⟩, ⟨2, "x", []⟩])
      (pairLoad true [.done, .done, .done, .failedBefore]).2.2 :=
    ⟨fun h => absurd (h 0 _ rfl) (by decide +kernel),
      fun h => absurd (h 1 _ rfl) (by decide +kernel)⟩
  have hrefused : (pairLoad true [.done, .failedAfter]).1 = .refused := by decide +kernel
  exact ⟨⟨hpart, (hmarked [.done, .done, .done, .failedBefore]).1 _ (prefix_refl _) hpart⟩,
    hrefused, ((hmarked [.done, .failedAfter]).2 hrefused).1⟩

/-- Shards that keep no mark hold half a corpus unmarked; and a first bucket that
does not arrive leaves the ids reserved and the marks, with no row written and no
clear failed. -/
theorem half_load_unmarked :
    (let tr := (pairLoad false [.done, .done, .done, .failedBefore]).2.2
     PartlyLoaded (List.replicate 2 ⟨false, false, []⟩)
        (corpusBucket placeByText 2 [⟨1, "", []⟩, ⟨2, "x", []⟩]) tr ∧
      ¬ EveryShard (List.replicate 2 ⟨false, false, []⟩) (fun _ _ s' => s'.mark = true) tr) ∧
    (let (ended, _, tr) := pairLoad true [.done, .done, .failedBefore]
     EveryShard (List.replicate 2 ⟨true, false, []⟩)
        (fun _ _ s' => s'.rows = [] ∧ s'.mark = true) tr ∧
      ClearsDone tr ∧ ended = .stopped [1, 2]) := by
  refine ⟨⟨⟨fun h => ?_, fun h => ?_⟩, fun h => ?_⟩, fun i s hs => ?_, ?_,
    by decide +kernel⟩
  · exact absurd (h 0 _ rfl) (by decide +kernel)
  · exact absurd (h 1 _ rfl) (by decide +kernel)
  · exact absurd (h 0 _ rfl) (by decide +kernel)
  · match i, hs with
    | 0, rfl => decide +kernel
    | 1, rfl => decide +kernel
  · unfold ClearsDone
    decide +kernel

end ReverseRusty
