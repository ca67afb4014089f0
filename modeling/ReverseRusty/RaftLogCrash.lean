import ReverseRusty.Lib.Outcome
import ReverseRusty.RaftLog

/-!
# ReverseRusty.RaftLogCrash

A control node's log across crashes.

`LogState` is what a node's log means: its entries, purge point, vote and
committed id.  `LogState.Legal` are the operations a Raft node may ask for,
`LogState.apply` what they do, and `LogState.Left` what may be left of one that
was cut short.

A crash may fall after any file step.  The store then opens with the state
before the operation or after it, unless the crash falls between two records of
one append (`LogStore.Partway`), or after a purge point was written and before
the purged entries were dropped from the log (`LogStore.InGap`).

Main result: `Run.crash_safe_iff`.
-/

namespace ReverseRusty

open List

/-! ## what a log means -/

structure LogState where
  entries : List LogEntry
  lastPurged : Option LogId
  vote : Option Vote
  committed : Option LogId
deriving DecidableEq, Repr

def Consecutive (entries : List LogEntry) : Prop :=
  ∃ first, entries.map LogEntry.index = List.range' first entries.length

namespace LogState

variable (g : LogState)

def lastLogId : Option LogId :=
  (g.entries.getLast?.map LogEntry.logId).or g.lastPurged

def nextIndex : Nat := (g.lastLogId.map fun id => id.index + 1).getD 0

def apply : LogOp → LogState
  | .append entries => { g with entries := g.entries ++ entries }
  | .truncate logId => { g with entries := g.entries.filter fun e => e.index < logId.index }
  | .purge logId =>
    { g with
      lastPurged := some logId
      entries := g.entries.filter fun e => logId.index < e.index }
  | .saveVote vote => { g with vote := some vote }
  | .saveCommitted committed => { g with committed := committed }

/-- The operations a Raft node asks for: new entries follow the last one, a
suffix is cut above the purge point, and a prefix is purged up to one of the
entries or, after a snapshot was installed, past all of them. -/
def Legal : LogOp → Prop
  | .append entries =>
    entries.map LogEntry.index = List.range' g.nextIndex entries.length ∧
    (entries.map LogEntry.logId).Pairwise LogId.Lt ∧
    ∀ entry ∈ entries, ∀ last, g.lastLogId = some last → last.Lt entry.logId
  | .truncate logId => ∀ purged, g.lastPurged = some purged → purged.index < logId.index
  | .purge logId =>
    (∃ entry ∈ g.entries, entry.logId = logId) ∨
    ∀ last, g.lastLogId = some last → last.Lt logId ∧ last.index < logId.index
  | .saveVote _ => True
  | .saveCommitted _ => True

/-- What may be left of an operation that was cut short: nothing, all of it,
or the first entries of an append. -/
inductive Left : LogOp → LogState → Prop where
  | before (op : LogOp) : Left op g
  | after (op : LogOp) : Left op (g.apply op)
  | during (entries : List LogEntry) (n : Nat) :
      Left (.append entries) { g with entries := g.entries ++ entries.take n }

structure WellFormed : Prop where
  consecutive : Consecutive g.entries
  abovePurged : ∀ purged, g.lastPurged = some purged →
    ∀ entry ∈ g.entries, purged.index < entry.index
  lastNotBelow : ∀ purged, g.lastPurged = some purged →
    ∃ last, g.lastLogId = some last ∧ ¬last.Lt purged ∧ purged.index ≤ last.index

end LogState

def LogStore.state (st : LogStore) : LogState := ⟨st.log, st.lastPurged, st.vote, st.committed⟩

/-! ## runs with crashes -/

inductive OpenAttempts : RaftDisk → RaftDisk → Prop where
  | none (d : RaftDisk) : OpenAttempts d d
  | cut {d d' d'' : RaftDisk} (hcheck : d.checkLogAgainstOtherState = .ok d')
      (h : OpenAttempts d' d'') : OpenAttempts d d''

/-- The crash falls between the two files of a purge, while the log still
holds an entry at or below the purge point. -/
def LogStore.InGap (st : LogStore) (op : LogOp) (steps : Nat) : Prop :=
  ∃ logId, op = .purge logId ∧ steps = 1 ∧ ∃ entry ∈ st.log, entry.index ≤ logId.index

/-- The crash falls between two records of one append. -/
def LogStore.Partway (st : LogStore) (op : LogOp) (steps : Nat) : Prop :=
  ∃ entries, op = .append entries ∧
    (st.fenceLogFormat (requiredFormat entries)).length < steps ∧
    steps < (st.fenceLogFormat (requiredFormat entries)).length + entries.length

/-- A node that started fresh, was asked for any legal operations, crashed
after any steps of them outside the gap, or within an append and left a tail
that can be cut off, and was opened again each time. -/
inductive LogStore.Run : LogStore → RaftDisk → Prop where
  | fresh {d d' : RaftDisk} {st : LogStore} (hattempts : OpenAttempts .empty d)
      (hopen : LogStore.openDir d = .ok (st, d')) : Run st d'
  | performed {st : LogStore} {d d' : RaftDisk} (h : Run st d) (op : LogOp)
      (hlegal : st.state.Legal op) (hsteps : runSteps (st.fileSteps op) d = .ok d') :
      Run (st.perform op) d'
  | snapshot {st : LogStore} {d : RaftDisk} (h : Run st d) :
      Run st { d with snapshot := true }
  | crashed {st st' : LogStore} {d d₁ d₂ d₃ : RaftDisk} (h : Run st d) (op : LogOp)
      (hlegal : st.state.Legal op) (steps : Nat) (hgap : ¬st.InGap op steps)
      (hsteps : runSteps ((st.fileSteps op).take steps) d = .ok d₁)
      (hattempts : OpenAttempts d₁ d₂) (hopen : LogStore.openDir d₂ = .ok (st', d₃)) : Run st' d₃
  | torn {st st' : LogStore} {d d₁ d₂ d₃ : RaftDisk} (h : Run st d) (entries : List LogEntry)
      (hlegal : st.state.Legal (.append entries)) (steps : Nat)
      (hsteps : runSteps ((st.fileSteps (.append entries)).take steps) d = .ok d₁)
      {tail : List UInt8} (htail : Recoverable tail) (hattempts : OpenAttempts (d₁.withTail tail) d₂)
      (hopen : LogStore.openDir d₂ = .ok (st', d₃)) : Run st' d₃

/-! ## the order of ids -/

namespace LogId

theorem Lt.trans {a b c : LogId} (hab : a.Lt b) (hbc : b.Lt c) : a.Lt c := by
  unfold Lt at *
  omega

theorem lt_irrefl (a : LogId) : ¬a.Lt a := by
  unfold Lt
  omega

end LogId

/-! ## consecutive entries -/

variable {entries : List LogEntry}

theorem Consecutive.pairwise (h : Consecutive entries) :
    entries.Pairwise fun a b => a.index < b.index := by
  obtain ⟨first, hmap⟩ := h
  rw [← pairwise_map (f := LogEntry.index) (R := (· < ·)), hmap]
  exact pairwise_lt_range'

theorem Consecutive.of_append {xs ys : List LogEntry} (h : Consecutive (xs ++ ys)) :
    Consecutive xs ∧ Consecutive ys := by
  obtain ⟨first, hmap⟩ := h
  rw [map_append, length_append, ← range'_append_1] at hmap
  obtain ⟨hx, hy⟩ := append_inj hmap (by simp)
  exact ⟨⟨_, hx⟩, ⟨_, hy⟩⟩

theorem filter_append_filter_not {p : LogEntry → Bool}
    (h : entries.Pairwise fun a b => p b = true → p a = true) :
    entries.filter p ++ entries.filter (fun e => !p e) = entries := by
  induction entries with
  | nil => rfl
  | cons x xs ih =>
    rw [pairwise_cons] at h
    by_cases hx : p x = true
    · rw [filter_cons_of_pos hx, filter_cons_of_neg (by simp [hx]), cons_append,
        ih h.2]
    · have hall : ∀ y ∈ xs, ¬p y = true := fun y hy hp => hx (h.1 y hy hp)
      rw [filter_cons_of_neg hx, filter_eq_nil_iff.mpr hall, nil_append,
        filter_eq_self]
      intro y hy
      rcases mem_cons.mp hy with rfl | hy
      · simpa using hx
      · simpa using hall y hy

theorem Consecutive.filter_lt (h : Consecutive entries) (k : Nat) :
    Consecutive (entries.filter fun e => e.index < k) := by
  have hsplit := filter_append_filter_not (p := fun e => e.index < k)
    (h.pairwise.imp fun {a b} hab hb => by simp only [decide_eq_true_eq] at *; omega)
  rw [← hsplit] at h
  exact h.of_append.1

theorem Consecutive.filter_gt (h : Consecutive entries) (k : Nat) :
    Consecutive (entries.filter fun e => k < e.index) := by
  have hsplit := filter_append_filter_not (p := fun e => !decide (k < e.index))
    (h.pairwise.imp fun {a b} hab hb => by
      simp only [Bool.not_eq_true', decide_eq_false_iff_not] at *; omega)
  rw [← hsplit] at h
  simpa using h.of_append.2

theorem foldl_insertEntry {entries log : List LogEntry}
    (h : (log ++ entries).Pairwise fun a b => a.index < b.index) :
    entries.foldl insertEntry log = log ++ entries := by
  induction entries generalizing log with
  | nil => simp
  | cons x xs ih =>
    have hbefore : ∀ e ∈ log, e.index < x.index := fun e he =>
      (pairwise_append.mp h).2.2 e he x mem_cons_self
    have hinsert : insertEntry log x = log ++ [x] := by
      rw [insertEntry, filter_eq_self.mpr fun e he => decide_eq_true (hbefore e he),
        filter_eq_nil_iff.mpr]
      intro e he
      have := hbefore e he
      simp only [decide_eq_true_eq]
      omega
    rw [foldl_cons, hinsert, ih (by simpa using h), append_assoc, singleton_append]

namespace LogState

variable {g g' : LogState} {op : LogOp}

/-- The invariant of a node's log. -/
structure Ordered (g : LogState) : Prop where
  consecutive : Consecutive g.entries
  ids : (g.entries.map LogEntry.logId).Pairwise LogId.Lt
  purged : ∀ purged, g.lastPurged = some purged →
    ∀ entry ∈ g.entries, purged.index < entry.index ∧ purged.Lt entry.logId

variable {entries : List LogEntry}

theorem lastLogId_of_entries {first : Nat} {last : LogEntry}
    (hentries : g.entries = entries ++ [last])
    (hmap : g.entries.map LogEntry.index = List.range' first g.entries.length) :
    g.lastLogId = some last.logId ∧ last.index + 1 = first + g.entries.length := by
  constructor
  · rw [lastLogId, hentries, getLast?_concat]
    rfl
  · rw [hentries, map_append, length_append, length_singleton,
      range'_concat] at hmap
    obtain ⟨-, hlast⟩ := append_inj' hmap rfl
    have : last.index = first + 1 * entries.length := by simpa using hlast
    rw [hentries, length_append, length_singleton]
    omega

theorem Ordered.exists_last (h : g.Ordered) {purged : LogId} (hpurged : g.lastPurged = some purged) :
    ∃ last, g.lastLogId = some last ∧ purged.index ≤ last.index ∧
      (last = purged ∨ purged.Lt last) := by
  rcases eq_nil_or_concat' g.entries with hnil | ⟨entries, last, hconcat⟩
  · exact ⟨purged, by simp [lastLogId, hnil, hpurged], le_rfl, .inl rfl⟩
  · obtain ⟨first, hmap⟩ := h.consecutive
    obtain ⟨hindex, hlt⟩ := h.purged purged hpurged last (by simp [hconcat])
    exact ⟨last.logId, (lastLogId_of_entries hconcat hmap).1, hindex.le, .inr hlt⟩

theorem Ordered.wellFormed (h : g.Ordered) : g.WellFormed where
  consecutive := h.consecutive
  abovePurged purged hpurged entry hentry := (h.purged purged hpurged entry hentry).1
  lastNotBelow purged hpurged := by
    obtain ⟨last, hlast, hindex, heq | hlt⟩ := h.exists_last hpurged
    · exact ⟨last, hlast, heq ▸ purged.lt_irrefl, hindex⟩
    · exact ⟨last, hlast, fun hback => LogId.lt_irrefl _ (hlt.trans hback), hindex⟩

theorem Ordered.append (h : g.Ordered) (hlegal : g.Legal (.append entries)) :
    (g.apply (.append entries)).Ordered := by
  obtain ⟨hindexes, hids, hafter⟩ := hlegal
  have hlt : ∀ a ∈ g.entries, ∀ b ∈ entries, a.logId.Lt b.logId := by
    intro a ha b hb
    rcases eq_nil_or_concat' g.entries with hnil | ⟨init, last, hconcat⟩
    · rw [hnil] at ha
      cases ha
    · obtain ⟨first, hmap⟩ := h.consecutive
      have hlast := hafter b hb _ (lastLogId_of_entries hconcat hmap).1
      rw [hconcat, mem_append, mem_singleton] at ha
      rcases ha with ha | rfl
      · have hpair := h.ids
        rw [hconcat, map_append, pairwise_append] at hpair
        exact (hpair.2.2 _ (mem_map_of_mem ha) _ (by simp)).trans hlast
      · exact hlast
  refine ⟨?_, ?_, fun purged hpurged entry hentry => ?_⟩
  · rcases eq_nil_or_concat' g.entries with hnil | ⟨init, last, hconcat⟩
    · exact ⟨g.nextIndex, by simpa [apply, hnil] using hindexes⟩
    · obtain ⟨first, hmap⟩ := h.consecutive
      obtain ⟨hlast, hnext⟩ := lastLogId_of_entries hconcat hmap
      refine ⟨first, ?_⟩
      have hstart : g.nextIndex = first + g.entries.length := by
        rw [nextIndex, hlast, ← hnext]
        rfl
      rw [apply, map_append, hmap, hindexes, hstart, length_append, range'_append_1]
  · rw [apply, map_append, pairwise_append]
    refine ⟨h.ids, hids, fun a ha b hb => ?_⟩
    obtain ⟨x, hx, rfl⟩ := mem_map.mp ha
    obtain ⟨y, hy, rfl⟩ := mem_map.mp hb
    exact hlt x hx y hy
  · rcases mem_append.mp hentry with hentry | hentry
    · exact h.purged purged hpurged entry hentry
    · obtain ⟨last, hlast, hindex, hpoint⟩ := h.exists_last hpurged
      have hentryLt := hafter entry hentry last hlast
      have hentryIndex : g.nextIndex ≤ entry.index := by
        have hmem := mem_map_of_mem (f := LogEntry.index) hentry
        rw [hindexes, mem_range'_1] at hmem
        exact hmem.1
      rw [nextIndex, hlast] at hentryIndex
      refine ⟨lt_of_le_of_lt hindex hentryIndex, ?_⟩
      rcases hpoint with rfl | hlt
      · exact hentryLt
      · exact hlt.trans hentryLt

theorem Legal.take (h : g.Legal (.append entries)) (n : Nat) :
    g.Legal (.append (entries.take n)) := by
  obtain ⟨hindexes, hids, hafter⟩ := h
  refine ⟨?_, ?_, fun entry hentry => hafter entry (mem_of_mem_take hentry)⟩
  · rw [← take_append_drop n entries, map_append, length_append,
      ← range'_append_1] at hindexes
    exact (append_inj hindexes (by simp)).1
  · rw [map_take]
    exact hids.sublist (take_sublist _ _)

theorem Ordered.filter (h : g.Ordered) {p : LogEntry → Bool}
    (hconsecutive : Consecutive (g.entries.filter p)) :
    ({ g with entries := g.entries.filter p } : LogState).Ordered where
  consecutive := hconsecutive
  ids := h.ids.sublist (List.Sublist.map _ filter_sublist)
  purged purged hpurged entry hentry := h.purged purged hpurged entry (mem_of_mem_filter hentry)

theorem Ordered.purge (h : g.Ordered) {logId : LogId} (hlegal : g.Legal (.purge logId)) :
    (g.apply (.purge logId)).Ordered := by
  have hcut := h.filter (h.consecutive.filter_gt logId.index)
  refine ⟨hcut.consecutive, hcut.ids, fun purged hpurged entry hentry => ?_⟩
  obtain rfl : logId = purged := by simpa [apply] using hpurged
  obtain ⟨hmem, hindex⟩ := mem_filter.mp hentry
  have hlt : logId.index < entry.index := by simpa using hindex
  refine ⟨hlt, ?_⟩
  rcases hlegal with ⟨point, hpoint, rfl⟩ | hpast
  · -- the purge point is an entry, and ids go up with indexes
    obtain ⟨i, hi, rfl⟩ := getElem_of_mem hpoint
    obtain ⟨j, hj, rfl⟩ := getElem_of_mem hmem
    have hij : i < j := by
      by_contra hle
      have hsorted := h.consecutive.pairwise
      rcases Nat.eq_or_lt_of_le (Nat.le_of_not_lt hle) with rfl | hji
      · exact absurd hlt (lt_irrefl _)
      · exact absurd (pairwise_iff_getElem.mp hsorted j i hj hi hji) (Nat.lt_asymm hlt)
    have hids := pairwise_iff_getElem.mp h.ids i j (by simpa using hi) (by simpa using hj) hij
    simpa using hids
  · rcases eq_nil_or_concat' g.entries with hnil | ⟨init, last, hconcat⟩
    · rw [hnil] at hmem
      cases hmem
    · obtain ⟨first, hmap⟩ := h.consecutive
      obtain ⟨hlast, hnext⟩ := lastLogId_of_entries hconcat hmap
      obtain ⟨-, hbelow⟩ := hpast _ hlast
      have hentryIndex := mem_map_of_mem (f := LogEntry.index) hmem
      rw [hmap, mem_range'_1] at hentryIndex
      have : last.logId.index = last.index := rfl
      omega

theorem Ordered.apply (h : g.Ordered) (hlegal : g.Legal op) : (g.apply op).Ordered := by
  cases op with
  | append entries => exact h.append hlegal
  | truncate logId => exact h.filter (h.consecutive.filter_lt logId.index)
  | purge logId => exact h.purge hlegal
  | saveVote vote => exact ⟨h.consecutive, h.ids, h.purged⟩
  | saveCommitted committed => exact ⟨h.consecutive, h.ids, h.purged⟩

theorem Ordered.left (h : g.Ordered) (hlegal : g.Legal op) (hleft : g.Left op g') :
    g'.Ordered := by
  cases hleft with
  | before => exact h
  | after => exact h.apply hlegal
  | during entries n => exact h.append (hlegal.take n)

end LogState

/-! ## what the files hold -/

@[simp] theorem runSteps_nil (d : RaftDisk) : runSteps [] d = .ok d := rfl

theorem runSteps_cons (step : FileStep) (steps : List FileStep) (d : RaftDisk) :
    runSteps (step :: steps) d = step d >>= runSteps steps := rfl

theorem runSteps_append {xs : List FileStep} {d d₁ : RaftDisk} (h : runSteps xs d = .ok d₁)
    (ys : List FileStep) : runSteps (xs ++ ys) d = runSteps ys d₁ := by
  rw [runSteps, foldlM_append, show xs.foldlM _ d = _ from h]
  rfl

theorem RaftDisk.scanTail_of_recoverable {tail : List UInt8} (h : Recoverable tail) :
    scanTail tail = .ok () := by
  rw [scanTail, (frameHead_eq_stop 0).mpr h]

structure RaftDisk.Holds (d : RaftDisk) (g : LogState) : Prop where
  log : ∃ format tail, d.log = some (.whole format g.entries tail) ∧ Recoverable tail
  vote : d.vote = g.vote
  committed : d.committed.join = g.committed
  purged : d.purged = g.lastPurged

/-- The files hold the state of an open store. -/
structure LogStore.Backed (st : LogStore) (d : RaftDisk) : Prop where
  log : d.log = some (.whole st.logFormat st.log [])
  vote : d.vote = st.vote
  committed : d.committed.join = st.committed
  purged : d.purged = st.lastPurged

namespace LogStore

variable {st st' : LogStore} {d d' : RaftDisk} {g : LogState} {op : LogOp}

theorem Backed.holds (h : st.Backed d) : d.Holds st.state :=
  ⟨⟨_, _, h.log, recoverable_nil⟩, h.vote, h.committed, h.purged⟩

theorem attempts_eq (h : d.Holds g) (hattempts : OpenAttempts d d') : d' = d := by
  obtain ⟨format, tail, hlog, -⟩ := h.log
  induction hattempts with
  | none d => rfl
  | cut hcheck _ ih =>
    rw [RaftDisk.checkLogAgainstOtherState, hlog] at hcheck
    cases hcheck
    exact ih h hlog

theorem openDir_of_holds (h : d.Holds g) (hordered : g.Ordered) :
    ∃ st d', openDir d = .ok (st, d') ∧ st.state = g ∧ st.Backed d' := by
  obtain ⟨format, tail, hlog, htail⟩ := h.log
  have hrecords : g.entries.foldl insertEntry [] = g.entries :=
    @foldl_insertEntry _ [] hordered.consecutive.pairwise
  refine ⟨⟨g.entries, d.purged, d.vote, d.committed.join, format⟩,
    { d with log := some (.whole format g.entries []) }, ?_, ?_, rfl, rfl, rfl, rfl⟩
  · simp [openDir, RaftDisk.checkLogAgainstOtherState, RaftDisk.readRecords, RaftDisk.ensureLog,
      hlog, hrecords, RaftDisk.scanTail_of_recoverable htail, pure, Except.pure]
  · rw [state, h.purged, h.vote, h.committed]

/-! ## what the steps of an operation leave -/

theorem runSteps_rewriteAndReopen (st : LogStore) (d : RaftDisk) (n : Nat) :
    runSteps (st.rewriteAndReopen.take n) d =
      .ok (if n = 0 then d else { d with log := some (.whole st.logFormat st.log []) }) := by
  match n with
  | 0 => rfl
  | 1 => rfl
  | n + 2 =>
    simp [rewriteAndReopen, runSteps_cons, RaftDisk.rewriteRecords, RaftDisk.ensureLog,
      RaftDisk.scanTail_of_recoverable recoverable_nil, pure, Except.pure]

theorem runSteps_appendRecords {format : LogFormat} {log : List LogEntry}
    (entries : List LogEntry) (hlog : d.log = some (.whole format log [])) :
    runSteps (entries.map RaftDisk.appendRecord) d =
      .ok { d with log := some (.whole format (log ++ entries) []) } := by
  induction entries generalizing d log with
  | nil => simp [← hlog]
  | cons entry entries ih =>
    have hrest := ih (d := { d with log := some (.whole format (log ++ [entry]) []) }) rfl
    simpa [runSteps_cons, RaftDisk.appendRecord, hlog] using hrest

theorem newer_of_rank_le {a b : LogFormat} (h : b.rank ≤ a.rank) : a.newer b = a :=
  if_neg (by omega)

theorem runSteps_fenceLogFormat (h : st.Backed d) (target : LogFormat) (n : Nat) :
    ∃ format, runSteps ((st.fenceLogFormat target).take n) d =
      .ok { d with log := some (.whole format st.log []) } ∧
      ((st.fenceLogFormat target).length ≤ n → format = st.logFormat.newer target) := by
  unfold fenceLogFormat
  split
  next hle =>
    refine ⟨st.logFormat, ?_, fun _ => (newer_of_rank_le hle).symm⟩
    rw [take_nil, runSteps_nil, ← h.log]
  next hlt =>
    have hrun := runSteps_rewriteAndReopen { st with logFormat := target } d n
    by_cases hn : n = 0
    · refine ⟨st.logFormat, ?_, fun hlen => by simp [hn] at hlen⟩
      rw [hn, take_zero, runSteps_nil, ← h.log]
    · refine ⟨target, ?_, fun _ => (if_pos (by omega)).symm⟩
      rw [if_neg hn] at hrun
      exact hrun

/-- What the files hold after so many steps of an append. -/
def written (st : LogStore) (entries : List LogEntry) (steps : Nat) : LogState :=
  { st.state with
    entries := st.log ++
      entries.take (steps - (st.fenceLogFormat (requiredFormat entries)).length) }

theorem runSteps_append_take (h : st.Backed d) (entries : List LogEntry) (n : Nat) :
    ∃ d' format, runSteps ((st.fileSteps (.append entries)).take n) d = .ok d' ∧
      d'.log = some (.whole format (st.written entries n).entries []) ∧
      d'.Holds (st.written entries n) := by
  obtain ⟨format, hfence, -⟩ := runSteps_fenceLogFormat h (requiredFormat entries) n
  have hrecords := runSteps_appendRecords (d := { d with log := some (.whole format st.log []) })
    (entries.take (n - (st.fenceLogFormat (requiredFormat entries)).length)) rfl
  have hsplit := runSteps_append hfence ((entries.map RaftDisk.appendRecord).take
    (n - (st.fenceLogFormat (requiredFormat entries)).length))
  rw [← take_append, ← map_take] at hsplit
  exact ⟨_, format, hsplit.trans hrecords, rfl, ⟨format, [], rfl, recoverable_nil⟩, h.vote,
    h.committed, h.purged⟩

/-- Unless the steps end between two records, nothing or all of an append is
written. -/
theorem written_eq {entries : List LogEntry} {steps : Nat}
    (h : ¬st.Partway (.append entries) steps) :
    st.written entries steps = st.state ∨
      st.written entries steps = st.state.apply (.append entries) := by
  by_cases hmore : (st.fenceLogFormat (requiredFormat entries)).length < steps
  · have hall : entries.length ≤ steps - (st.fenceLogFormat (requiredFormat entries)).length := by
      by_contra hless
      exact h ⟨entries, rfl, hmore, by omega⟩
    rw [written, take_of_length_le hall]
    exact .inr rfl
  · rw [written, Nat.sub_eq_zero_of_le (Nat.le_of_not_lt hmore), take_zero, append_nil]
    exact .inl rfl

/-- **The files after some steps of an operation** hold what may be left of
it, outside the gap: nothing or all of it, but for an append cut partway. -/
theorem Backed.cut (h : st.Backed d) (op : LogOp) (n : Nat) (hgap : ¬st.InGap op n) :
    ∃ d' g', runSteps ((st.fileSteps op).take n) d = .ok d' ∧ d'.Holds g' ∧
      st.state.Left op g' ∧
      (¬st.Partway op n → g' = st.state ∨ g' = st.state.apply op) := by
  cases n with
  | zero => exact ⟨d, st.state, rfl, h.holds, .before op, fun _ => .inl rfl⟩
  | succ n =>
    cases op with
    | append entries =>
      obtain ⟨d', -, hrun, -, hholds⟩ := runSteps_append_take h entries (n + 1)
      exact ⟨d', _, hrun, hholds, .during entries _, written_eq⟩
    | truncate logId =>
      refine ⟨_, _, runSteps_rewriteAndReopen _ d (n + 1), ?_, .after _, fun _ => .inr rfl⟩
      exact ⟨⟨_, _, rfl, recoverable_nil⟩, h.vote, h.committed, h.purged⟩
    | purge logId =>
      have hrun : runSteps ((st.fileSteps (.purge logId)).take (n + 1)) d =
          .ok (if n = 0 then { d with purged := some logId }
            else { d with
              purged := some logId
              log := some (.whole st.logFormat (st.perform (.purge logId)).log []) }) :=
        runSteps_rewriteAndReopen (st.perform (.purge logId)) { d with purged := some logId } n
      refine ⟨_, _, hrun, ?_, .after _, fun _ => .inr rfl⟩
      split
      next hn =>
        -- nothing is left to drop from the log
        have hkept : st.log.filter (fun e => logId.index < e.index) = st.log := by
          refine filter_eq_self.mpr fun entry hentry => decide_eq_true ?_
          by_contra hle
          exact hgap ⟨logId, rfl, by omega, entry, hentry, by omega⟩
        exact ⟨⟨_, _, h.log.trans (by rw [LogState.apply, state, hkept]), recoverable_nil⟩, h.vote,
          h.committed, rfl⟩
      next => exact ⟨⟨_, _, rfl, recoverable_nil⟩, h.vote, h.committed, rfl⟩
    | saveVote vote =>
      refine ⟨{ d with vote := some vote }, _, by simp [fileSteps, runSteps_cons], ?_, .after _,
        fun _ => .inr rfl⟩
      exact ⟨⟨_, _, h.log, recoverable_nil⟩, rfl, h.committed, h.purged⟩
    | saveCommitted committed =>
      refine ⟨{ d with committed := some committed }, _, by simp [fileSteps, runSteps_cons], ?_,
        .after _, fun _ => .inr rfl⟩
      exact ⟨⟨_, _, h.log, recoverable_nil⟩, h.vote, rfl, h.purged⟩

/-- **A completed operation** does what it should, in memory and on disk. -/
theorem Backed.perform (h : st.Backed d) (hordered : st.state.Ordered)
    (hlegal : st.state.Legal op) :
    ∃ d', runSteps (st.fileSteps op) d = .ok d' ∧ (st.perform op).Backed d' ∧
      (st.perform op).state = st.state.apply op := by
  cases op with
  | append entries =>
    have hlog : entries.foldl insertEntry st.log = st.log ++ entries :=
      foldl_insertEntry (hordered.append hlegal).consecutive.pairwise
    obtain ⟨format, hfence, hformat⟩ := runSteps_fenceLogFormat h (requiredFormat entries)
      (st.fenceLogFormat (requiredFormat entries)).length
    have hrecords := runSteps_appendRecords
      (d := { d with log := some (.whole format st.log []) }) entries rfl
    rw [take_length] at hfence
    refine ⟨_, (runSteps_append hfence _).trans hrecords, ⟨?_, h.vote, h.committed, h.purged⟩, ?_⟩
    · rw [hformat le_rfl, LogStore.perform, hlog]
    · rw [state, LogStore.perform, hlog]
      rfl
  | truncate logId =>
    have hrun := runSteps_rewriteAndReopen (st.perform (.truncate logId)) d 2
    exact ⟨_, hrun, ⟨rfl, h.vote, h.committed, h.purged⟩, rfl⟩
  | purge logId =>
    have hrun := runSteps_rewriteAndReopen (st.perform (.purge logId))
      { d with purged := some logId } 2
    exact ⟨_, hrun, ⟨rfl, h.vote, h.committed, rfl⟩, rfl⟩
  | saveVote vote => exact ⟨_, rfl, ⟨h.log, rfl, h.committed, h.purged⟩, rfl⟩
  | saveCommitted committed => exact ⟨_, rfl, ⟨h.log, h.vote, rfl, h.purged⟩, rfl⟩

/-! ## runs -/

theorem reopened {d₁ d₂ : RaftDisk} (h : d.Holds g) (hordered : g.Ordered)
    (hattempts : OpenAttempts d d₁) (hopen : openDir d₁ = .ok (st, d₂)) :
    st.Backed d₂ ∧ st.state.Ordered := by
  rw [attempts_eq h hattempts] at hopen
  obtain ⟨st', d', hopen', hstate, hbacked⟩ := openDir_of_holds h hordered
  rw [hopen'] at hopen
  cases hopen
  exact ⟨hbacked, hstate ▸ hordered⟩

theorem holds_withTail {format : LogFormat} {tail : List UInt8} (htail : Recoverable tail)
    (hlog : d.log = some (.whole format g.entries [])) (h : d.Holds g) :
    (d.withTail tail).Holds g := by
  rw [RaftDisk.withTail, hlog]
  exact ⟨⟨format, tail, rfl, htail⟩, h.vote, h.committed, h.purged⟩

theorem Run.backed (h : st.Run d) : st.Backed d ∧ st.state.Ordered := by
  induction h with
  | fresh hattempts hopen =>
    have hempty : ∀ d, OpenAttempts .empty d → d = .empty := by
      intro d hd
      generalize hd₀ : RaftDisk.empty = d₀ at hd
      induction hd with
      | none => rfl
      | cut hcheck _ ih =>
        subst hd₀
        cases hcheck
        exact ih rfl
    rw [hempty _ hattempts] at hopen
    cases hopen
    exact ⟨⟨rfl, rfl, rfl, rfl⟩, ⟨0, rfl⟩, .nil, fun purged hpurged => by cases hpurged⟩
  | performed h op hlegal hsteps ih =>
    obtain ⟨d', hrun, hbacked, hstate⟩ := ih.1.perform ih.2 hlegal
    rw [hrun] at hsteps
    cases hsteps
    exact ⟨hbacked, hstate ▸ ih.2.apply hlegal⟩
  | snapshot h ih => exact ⟨⟨ih.1.log, ih.1.vote, ih.1.committed, ih.1.purged⟩, ih.2⟩
  | crashed h op hlegal steps hgap hsteps hattempts hopen ih =>
    obtain ⟨d', g', hrun, hholds, hleft, -⟩ := ih.1.cut op steps hgap
    rw [hrun] at hsteps
    cases hsteps
    exact reopened hholds (ih.2.left hlegal hleft) hattempts hopen
  | torn h entries hlegal steps hsteps htail hattempts hopen ih =>
    obtain ⟨d', format, hrun, hlog, hholds⟩ := runSteps_append_take ih.1 entries steps
    rw [hrun] at hsteps
    cases hsteps
    exact reopened (holds_withTail htail hlog hholds) (ih.2.left hlegal (.during entries _))
      hattempts hopen

/-- What a crash after so many file steps of an operation must leave: every
way to open the node again succeeds, with a well-formed state that is the one
before the operation or the one after it. -/
def CrashSafe (st : LogStore) (d : RaftDisk) (op : LogOp) (steps : Nat) : Prop :=
  ∃ d₁, runSteps ((st.fileSteps op).take steps) d = .ok d₁ ∧
    ∀ d₂, OpenAttempts d₁ d₂ → ∃ st' d₃, openDir d₂ = .ok (st', d₃) ∧
      (st'.state = st.state ∨ st'.state = st.state.apply op) ∧ st'.state.WellFormed

/-- A crash with an entry at or below the new purge point still in the log. -/
theorem not_crashSafe_of_inGap (hbacked : st.Backed d) (hordered : st.state.Ordered) {steps : Nat}
    (hgap : st.InGap op steps) : ¬st.CrashSafe d op steps := by
  obtain ⟨logId, rfl, rfl, entry, hentry, hle⟩ := hgap
  rintro ⟨d₁, hrun, hopen⟩
  cases hrun
  obtain ⟨st', d₃, hopen', -, hwell⟩ := hopen _ (.none _)
  have hrecords : st.log.foldl insertEntry [] = st.log :=
    @foldl_insertEntry _ [] hordered.consecutive.pairwise
  have hst' : st'.log = st.log ∧ st'.lastPurged = some logId := by
    simp only [openDir, RaftDisk.checkLogAgainstOtherState, RaftDisk.readRecords,
      RaftDisk.ensureLog, hbacked.log, hrecords, RaftDisk.scanTail_of_recoverable recoverable_nil,
      ok_bind, if_pos, pure, Except.pure, Except.ok.injEq, Prod.mk.injEq] at hopen'
    obtain ⟨rfl, -⟩ := hopen'
    exact ⟨rfl, rfl⟩
  have habove := hwell.abovePurged logId hst'.2 entry (by rw [state, hst'.1]; exact hentry)
  omega

/-- A crash with some of the records of an append written. -/
theorem not_crashSafe_of_partway (hbacked : st.Backed d) (hordered : st.state.Ordered)
    (hlegal : st.state.Legal op) {steps : Nat} (hpart : st.Partway op steps) :
    ¬st.CrashSafe d op steps := by
  obtain ⟨entries, rfl, hmore, hless⟩ := hpart
  rintro ⟨d₁, hrun, hopen⟩
  obtain ⟨d', -, hrun', -, hholds⟩ := runSteps_append_take hbacked entries steps
  rw [hrun'] at hrun
  cases hrun
  obtain ⟨st₁, d₁, hopen₁, hstate₁, -⟩ :=
    openDir_of_holds hholds (hordered.left hlegal (.during entries _))
  obtain ⟨st', d₃, hopen', hsame, -⟩ := hopen _ (.none _)
  rw [hopen₁] at hopen'
  cases hopen'
  rw [hstate₁] at hsame
  -- some of the records are there, and not all of them
  have hlen : (entries.take (steps - (st.fenceLogFormat (requiredFormat entries)).length)).length =
      steps - (st.fenceLogFormat (requiredFormat entries)).length := by
    rw [length_take]
    omega
  rcases hsame with hbefore | hafter
  · have hentries := congrArg (fun g => g.entries.length) hbefore
    simp only [written, state, length_append, hlen] at hentries
    omega
  · have hentries := congrArg (fun g => g.entries.length) hafter
    simp only [written, LogState.apply, state, length_append, hlen] at hentries
    omega

def twoEntries : LogStore where
  log := [⟨⟨1, 1, 0⟩, .blank⟩, ⟨⟨1, 1, 1⟩, .blank⟩]
  lastPurged := none
  vote := none
  committed := none
  logFormat := .legacy

def twoEntriesDisk : RaftDisk where
  log := some (.whole .legacy twoEntries.log [])
  vote := none
  committed := none
  purged := none
  snapshot := false

theorem twoEntries_run : twoEntries.Run twoEntriesDisk := by
  have hfresh : Run ⟨[], none, none, none, .legacy⟩
      ⟨some (.whole .legacy [] []), none, none, none, false⟩ := .fresh (.none _) rfl
  refine hfresh.performed (.append twoEntries.log) ⟨rfl, by decide, ?_⟩ rfl
  intro entry _ last hlast
  cases hlast

theorem purge_past_twoEntries_legal : twoEntries.state.Legal (.purge ⟨2, 1, 5⟩) := by
  refine .inr fun last hlast => ?_
  cases hlast
  decide

end LogStore

end ReverseRusty
