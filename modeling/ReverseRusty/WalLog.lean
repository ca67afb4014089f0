import ReverseRusty.WalRecord

/-!
# ReverseRusty.WalLog

The write-ahead log over its whole life (`wal/write.rs`, `wal/recovery.rs`,
`storage/framed_log.rs`): a file, the handle that appends to it, and the
watermark the manifest last committed.

Every operation may fail where the code may fail.  A failed append leaves any
part of its record in the file and a handle that refuses, and the next open
sees the number it took when all of the record is there.
-/

namespace ReverseRusty

open List

namespace Wal

/-! ## the file -/

/-- The bytes `PWAL`. -/
def walMagic : List UInt8 := [0x50, 0x57, 0x41, 0x4C]

def walVersion : UInt32 := 7

def walHeaderSize : Nat := 8

def header (version : UInt32) : List UInt8 := walMagic ++ Codec.u32.enc version

def decodeNext (previous : UInt64) (body : List UInt8) : Except String (Entry × UInt64) := do
  let entry ← decodeEntry body
  if entry.seq ≤ previous then .error "WAL sequence numbers must be strictly increasing"
  else .ok (entry, entry.seq)

/-- `read_entries`: every complete record of a log, and its format. -/
def readEntries (data : List UInt8) : Except String (FrameScan Entry × UInt32) :=
  if data.length < walHeaderSize then .error "WAL too small"
  else if data.take 4 ≠ walMagic then .error "bad WAL magic"
  else
    let version := Codec.u32.dec ((data.drop 4).take 4)
    if version = 0 ∨ walVersion < version then .error s!"unsupported WAL format v{version}"
    else do
      let scan ← scanRecords decodeNext walHeaderSize 0 data
      return (scan, version)

def headerWasInterrupted (data : List UInt8) : Bool :=
  data.length < walHeaderSize &&
    (List.range' 1 walVersion.toNat).any fun v => data.isPrefixOf (header (UInt32.ofNat v))

/-- `Wal::open` on the bytes at its path: the bytes it leaves there and the
next number. -/
def openWal (data : List UInt8) : Except String (List UInt8 × Nat) :=
  if headerWasInterrupted data then .ok (header walVersion, 1)
  else do
    let (scan, version) ← readEntries data
    let last := scan.records.foldl (fun seq entry => max seq entry.seq) 0
    if last.toNat + 1 = 2 ^ 64 then .error "WAL sequence space exhausted"
    else
      let data := repairTail data scan.validLen
      -- an older header is brought up to the format of the frames to come
      let data := if version < walVersion then header walVersion ++ data.drop walHeaderSize else data
      .ok (data, last.toNat + 1)

/-! ## the store -/

/-- What an append asks for, before it has a number. -/
inductive Payload where
  | insert (write : Write)
  | upsert (write : Write)
  | tombstone (segIdx localId : UInt32)
  | deleteByLogical (logical : UInt64)
  | flushCheckpoint (segmentFile : String)

namespace Payload

def entry (seq : UInt64) : Payload → Entry
  | insert w => .insert seq w
  | upsert w => .upsert seq w
  | tombstone segIdx localId => .tombstone seq segIdx localId
  | deleteByLogical logical => .deleteByLogical seq logical
  | flushCheckpoint segmentFile => .flushCheckpoint seq segmentFile

def isCheckpoint : Payload → Bool
  | flushCheckpoint _ => true
  | _ => false

/-- Refused before a number is taken. -/
def zeroGeneration : Payload → Bool
  | insert w | upsert w => w.sourceGeneration == some 0
  | _ => false

end Payload

structure Handle where
  nextSeq : Nat
  refused : Bool
deriving DecidableEq, Repr

/-- A log, the process that has it open, and what was committed beside it.
`committed` are the watermarks of the manifests and `acked` the acknowledged
numbers, each with whether it is a checkpoint's; both newest first. -/
structure Store where
  file : List UInt8
  handle : Option Handle
  committed : List Nat
  acked : List (Nat × Bool)

/-- What becomes of the bytes of an append. -/
inductive WriteOutcome where
  | done
  /-- this many bytes reached the file before the write failed -/
  | failedWrite (written : Nat)
  /-- the record is whole, and was not synced -/
  | failedSync

/-- How far a reset got. -/
inductive ResetOutcome where
  | done
  /-- the empty log beside the old one could not be written -/
  | notWritten
  /-- it could not be renamed -/
  | notRenamed
  /-- it was renamed, and something after that failed -/
  | notOpened
deriving DecidableEq

/-- Why an append was not acknowledged. -/
inductive AppendError where
  | notOpen
  | invalid (message : String)
  | exhausted
  /-- by a handle that refuses -/
  | refused
  /-- at the write or at the sync -/
  | failed
deriving DecidableEq, Repr

namespace Store

/-- The log as its first open creates it. -/
def new : Store := ⟨header walVersion, some ⟨1, false⟩, [], []⟩

/-- The watermark the manifest holds. -/
def watermark (st : Store) : Nat := st.committed.headD 0

def write (st : Store) (h : Handle) (bytes : List UInt8) : Store :=
  { st with file := st.file ++ bytes, handle := some h }

/-- `LogAppender::append_at`. -/
def appendAt (st : Store) (h : Handle) (body : List UInt8) (outcome : WriteOutcome) :
    Except AppendError Unit × Store :=
  let refusing : Handle := { h with refused := true }
  if h.refused then (.error .refused, st.write h [])
  else
    match writeFrame body with
    | .error _ => (.error .failed, st.write refusing [])
    | .ok bytes =>
      match outcome with
      | .done => (.ok (), st.write h bytes)
      | .failedWrite n => (.error .failed, st.write refusing (bytes.take n))
      | .failedSync => (.error .failed, st.write refusing bytes)

def append (st : Store) (p : Payload) (outcome : WriteOutcome) : Except AppendError Nat × Store :=
  match st.handle with
  | none => (.error .notOpen, st)
  | some h =>
    if p.zeroGeneration then (.error (.invalid "zero WAL source generation"), st)
    else if h.nextSeq + 1 = 2 ^ 64 then (.error .exhausted, st)
    else
      -- the number is taken whether or not the record is written
      let h' : Handle := { h with nextSeq := h.nextSeq + 1 }
      match (p.entry (UInt64.ofNat h.nextSeq)).encode with
      | .error message => (.error (.invalid message), st.write h' [])
      | .ok body =>
        match st.appendAt h' body outcome with
        | (.error e, st') => (.error e, st')
        | (.ok (), st') =>
          (.ok h.nextSeq, { st' with acked := (h.nextSeq, p.isCheckpoint) :: st.acked })

/-- A manifest commit records the last number. -/
def commit (st : Store) : Store :=
  match st.handle with
  | none => st
  | some h => { st with committed := (h.nextSeq - 1) :: st.committed }

def reset (st : Store) (outcome : ResetOutcome) : Store :=
  match st.handle with
  | none => st
  | some h =>
    match outcome with
    | .done => { st with file := header walVersion, handle := some { h with refused := false } }
    | .notWritten => st
    | .notRenamed => { st with handle := some { h with refused := true } }
    | .notOpened => { st with file := header walVersion, handle := some { h with refused := true } }

/-- `close_until_reopen`, and what a failed sync does. -/
def close (st : Store) : Store :=
  { st with handle := st.handle.map fun h => { h with refused := true } }

def ensureSeqAfter (next watermark : Nat) : Nat :=
  if next ≤ watermark then min (watermark + 1) (2 ^ 64 - 1) else next

def reopen (st : Store) : Store :=
  match openWal st.file with
  | .error _ => { st with handle := none }
  | .ok (file, next) => { st with file, handle := some ⟨ensureSeqAfter next st.watermark, false⟩ }

end Store

inductive Op where
  | append (p : Payload) (outcome : WriteOutcome)
  | commit
  | reset (outcome : ResetOutcome)
  | close
  | reopen

namespace Store

def step (st : Store) : Op → Store
  | .append p outcome => (st.append p outcome).2
  | .commit => st.commit
  | .reset outcome => st.reset outcome
  | .close => st.close
  | .reopen => st.reopen

def run (st : Store) (ops : List Op) : Store := ops.foldl step st

/-- The acknowledged numbers, without those of checkpoints. -/
def mutations (st : Store) : List Nat := (st.acked.filter fun a => !a.2).map Prod.fst

/-- No append is acknowledged by the handle. -/
def Refuses (st : Store) : Prop := ∀ h, st.handle = some h → h.refused = true

end Store

namespace Op

/-- A log is reset only when the manifest covers every acknowledged mutation
in it. -/
def Allowed (st : Store) : Op → Prop
  | reset _ => ∀ n ∈ st.mutations, n ≤ st.watermark
  | _ => True

/-- The operations that leave a new handle. -/
def Renews : Op → Prop
  | reset outcome => outcome = .done
  | reopen => True
  | _ => False

end Op

/-- A store that operations lead to. -/
inductive Reachable : Store → Prop where
  | new : Reachable .new
  | step {st : Store} (h : Reachable st) (op : Op) (hop : op.Allowed st) : Reachable (st.step op)

/-! ## reading the file -/

section Reading

variable {s last : UInt64} {bodies : List LogBody} {entries : List Entry} {torn : List UInt8}

theorem decodeNext_eq_ok {previous seq : UInt64} {body : List UInt8} {entry : Entry}
    (h : decodeNext previous body = .ok (entry, seq)) :
    decodeEntry body = .ok entry ∧ previous < seq ∧ seq = entry.seq := by
  simp only [decodeNext, bind_eq_ok] at h
  obtain ⟨e, hbody, hout⟩ := h
  split at hout
  · contradiction
  · next hlt =>
    cases hout
    exact ⟨hbody, UInt64.not_le.mp hlt, rfl⟩

theorem foldl_max_seq (h : decodeAll decodeNext s bodies = .ok (entries, last)) :
    entries.foldl (fun seq entry => max seq entry.seq) s = last := by
  induction bodies generalizing s entries with
  | nil =>
    cases h
    rfl
  | cons b bs ih =>
    simp only [decodeAll, bind_eq_ok, Prod.exists] at h
    obtain ⟨entry, seq, hb, rest, last', hbs, hout⟩ := h
    cases hout
    obtain ⟨-, hlt, rfl⟩ := decodeNext_eq_ok hb
    rw [foldl_cons, show max s entry.seq = entry.seq from if_pos (UInt64.le_of_lt hlt), ih hbs]

theorem length_header (version : UInt32) : (header version).length = walHeaderSize := by
  rw [header, length_append, length_enc_u32]
  rfl

theorem not_length_lt (rest : List UInt8) :
    ¬ (header walVersion ++ rest).length < walHeaderSize := by
  rw [length_append, length_header]
  omega

theorem readEntries_eq (rest : List UInt8) :
    readEntries (header walVersion ++ rest) = do
      let scan ← scanRecords decodeNext (header walVersion).length 0 (header walVersion ++ rest)
      return (scan, walVersion) := by
  rw [readEntries, if_neg (not_length_lt rest)]
  rfl

theorem readEntries_of_recoverable (h : decodeAll decodeNext 0 bodies = .ok (entries, last))
    (htorn : Recoverable torn) :
    readEntries (header walVersion ++ (framesOf bodies ++ torn)) =
      .ok (⟨entries, walHeaderSize + (framesOf bodies).length, torn.length⟩, walVersion) := by
  rw [readEntries_eq, scanRecords_of_recoverable _ h htorn]
  rfl

theorem readEntries_of_not_recoverable (bodies : List LogBody) (htorn : TornRecord torn)
    (hno : ¬ Recoverable torn) :
    ∃ e, readEntries (header walVersion ++ (framesOf bodies ++ torn)) = .error e := by
  obtain ⟨e, he⟩ := @scanRecords_of_fail _ _ decodeNext 0 bodies (header walVersion) torn
    ((frameHead_torn htorn).2 hno)
  exact ⟨e, by rw [readEntries_eq, he]; rfl⟩

theorem headerWasInterrupted_header (rest : List UInt8) :
    headerWasInterrupted (header walVersion ++ rest) = false := by
  rw [headerWasInterrupted, decide_eq_false (not_length_lt rest), Bool.false_and]

/-- Opening a log keeps its whole records and goes on behind its last number. -/
theorem openWal_of_recoverable (h : decodeAll decodeNext 0 bodies = .ok (entries, last))
    (hlast : last.toNat + 1 < 2 ^ 64) (htorn : Recoverable torn) :
    openWal (header walVersion ++ (framesOf bodies ++ torn)) =
      .ok (header walVersion ++ framesOf bodies, last.toNat + 1) := by
  have hrepair : repairTail (header walVersion ++ (framesOf bodies ++ torn))
      (walHeaderSize + (framesOf bodies).length) = header walVersion ++ framesOf bodies := by
    rw [repairTail, ← append_assoc]
    exact take_left' (by rw [length_append, length_header])
  rw [openWal, headerWasInterrupted_header, if_neg Bool.false_ne_true,
    readEntries_of_recoverable h htorn, ok_bind]
  simp only [foldl_max_seq h, hrepair]
  rw [if_neg (by omega), if_neg (by decide)]

theorem openWal_of_not_recoverable (bodies : List LogBody) (htorn : TornRecord torn)
    (hno : ¬ Recoverable torn) :
    ∃ e, openWal (header walVersion ++ (framesOf bodies ++ torn)) = .error e := by
  obtain ⟨e, he⟩ := readEntries_of_not_recoverable bodies htorn hno
  exact ⟨e, by rw [openWal, headerWasInterrupted_header, if_neg Bool.false_ne_true, he]; rfl⟩

end Reading

/-! ## what an append does -/

theorem Payload.seq_entry (p : Payload) (seq : UInt64) : (p.entry seq).seq = seq := by
  cases p <;> rfl

theorem writeFrame_encode {e : Entry} {body bytes : List UInt8} (henc : e.encode = .ok body)
    (h : writeFrame body = .ok bytes) :
    ∃ b : LogBody, b.bytes = body ∧ bytes = frame b.bytes ∧ decodeEntry b.bytes = .ok e := by
  rw [writeFrame] at h
  split at h
  · contradiction
  · next hlen =>
    cases h
    have hdec := decodeEntry_encode henc
    refine ⟨⟨body, ?_, not_le.mp hlen⟩, rfl, rfl, hdec⟩
    rintro rfl
    exact absurd hdec (by rintro ⟨⟩)

theorem Store.append_cases (st : Store) (p : Payload) (outcome : WriteOutcome) :
    (∃ e, e ≠ .failed ∧ st.append p outcome = (.error e, st)) ∨
    ∃ h, st.handle = some h ∧ h.nextSeq + 1 ≠ 2 ^ 64 ∧
      ((∃ e, e ≠ .failed ∧ st.append p outcome =
          (.error e, st.write { h with nextSeq := h.nextSeq + 1 } [])) ∨
      h.refused = false ∧
        (st.append p outcome = (.error .failed, st.write ⟨h.nextSeq + 1, true⟩ []) ∨
        ∃ b : LogBody, decodeEntry b.bytes = .ok (p.entry (UInt64.ofNat h.nextSeq)) ∧
          (st.append p outcome = (.ok h.nextSeq,
            { st.write ⟨h.nextSeq + 1, false⟩ (frame b.bytes) with
                acked := (h.nextSeq, p.isCheckpoint) :: st.acked }) ∨
          ∃ n, st.append p outcome =
            (.error .failed, st.write ⟨h.nextSeq + 1, true⟩ ((frame b.bytes).take n))))) := by
  rw [append]
  cases hh : st.handle with
  | none => exact .inl ⟨.notOpen, nofun, rfl⟩
  | some h =>
    by_cases hgen : p.zeroGeneration = true
    · exact .inl ⟨.invalid _, nofun, if_pos hgen⟩
    · by_cases hmax : h.nextSeq + 1 = 2 ^ 64
      · exact .inl ⟨.exhausted, nofun, (if_neg hgen).trans (if_pos hmax)⟩
      · refine .inr ⟨h, rfl, hmax, ?_⟩
        simp only [hgen, hmax, if_false, Bool.false_eq_true]
        cases henc : (p.entry (UInt64.ofNat h.nextSeq)).encode with
        | error message => exact .inl ⟨.invalid message, nofun, rfl⟩
        | ok body =>
          simp only [appendAt]
          cases href : h.refused with
          | true => exact .inl ⟨.refused, nofun, rfl⟩
          | false =>
            refine .inr ⟨rfl, ?_⟩
            simp only [Bool.false_eq_true, if_false]
            cases hw : writeFrame body with
            | error e => exact .inl rfl
            | ok bytes =>
              obtain ⟨b, rfl, rfl, hdec⟩ := writeFrame_encode henc hw
              refine .inr ⟨b, hdec, ?_⟩
              cases outcome with
              | done => exact .inl rfl
              | failedWrite n => exact .inr ⟨n, rfl⟩
              | failedSync => exact .inr ⟨_, by rw [take_length]⟩

/-! ## the invariant -/

/-- The numbers a handle may still give are above every number in use, and one
that does not refuse has whole records before it. -/
structure Handle.Above (h : Handle) (committed : List Nat) (torn : List UInt8) (last : UInt64) :
    Prop where
  clean : h.refused = false → torn = []
  last_lt : last.toNat < h.nextSeq
  committed_lt : ∀ w ∈ committed, w < h.nextSeq
  lt : h.nextSeq < 2 ^ 64

theorem Handle.Above.next {h : Handle} {committed : List Nat} {torn torn' : List UInt8}
    {last last' : UInt64} (hab : h.Above committed torn last) (hmax : h.nextSeq + 1 ≠ 2 ^ 64)
    {refused : Bool} (hclean : refused = false → torn' = []) (hlast : last'.toNat ≤ h.nextSeq) :
    Handle.Above ⟨h.nextSeq + 1, refused⟩ committed torn' last' where
  clean := hclean
  last_lt := Nat.lt_succ_of_le hlast
  committed_lt := fun w hw => Nat.lt_succ_of_lt (hab.committed_lt w hw)
  lt := lt_of_le_of_ne hab.lt hmax

structure Store.Holds (st : Store) (bodies : List LogBody) (torn : List UInt8)
    (entries : List Entry) (last : UInt64) : Prop where
  file : st.file = header walVersion ++ (framesOf bodies ++ torn)
  part : TornRecord torn
  read : decodeAll decodeNext 0 bodies = .ok (entries, last)
  last_lt : last.toNat + 1 < 2 ^ 64
  handle : ∀ h, st.handle = some h → h.Above st.committed torn last
  committed_lt : st.watermark + 1 < 2 ^ 64
  committed_le : ∀ w ∈ st.committed, w ≤ st.watermark
  /-- an acknowledged mutation is in a committed manifest, or in the log -/
  covered : ∀ n ∈ st.mutations, n ≤ st.watermark ∨ n ≤ last.toNat
  increasing : st.mutations.Pairwise (· > ·)

namespace Store

/-- A store whose log can be told apart so. -/
def Sound (st : Store) : Prop := ∃ bodies torn entries last, st.Holds bodies torn entries last

variable {st : Store} {bodies : List LogBody} {torn : List UInt8} {entries : List Entry}
  {last : UInt64} {h : Handle} {b : LogBody} {e : Entry}

theorem Holds.sound (H : st.Holds bodies torn entries last) : st.Sound := ⟨_, _, _, _, H⟩

variable {n : Nat}

theorem watermark_lt (hpos : 0 < n) (hcommitted : ∀ w ∈ st.committed, w < n) :
    st.watermark < n := by
  rw [watermark]
  cases hlist : st.committed with
  | nil => exact hpos
  | cons w ws => exact hcommitted w (hlist ▸ mem_cons_self)

theorem Holds.watermark_lt (H : st.Holds bodies torn entries last) (hh : st.handle = some h) :
    st.watermark < h.nextSeq :=
  Store.watermark_lt (Nat.zero_lt_of_lt (H.handle h hh).last_lt) (H.handle h hh).committed_lt

theorem Holds.mutation_lt (H : st.Holds bodies torn entries last) (hh : st.handle = some h)
    (hn : n ∈ st.mutations) : n < h.nextSeq := by
  have hlast := (H.handle h hh).last_lt
  have hmark := H.watermark_lt hh
  obtain hle | hle := H.covered n hn <;> omega

theorem Holds.with_handle (H : st.Holds bodies torn entries last) (handle : Option Handle)
    (hhandle : ∀ h, handle = some h → h.Above st.committed torn last) :
    Holds { st with handle } bodies torn entries last :=
  { H with handle := hhandle }

theorem Holds.write_nothing (H : st.Holds bodies torn entries last) {h' : Handle}
    (hhandle : h'.Above st.committed torn last) : (st.write h' []).Holds bodies torn entries last := by
  rw [write, append_nil]
  exact H.with_handle _ fun h hh => Option.some.inj hh ▸ hhandle

theorem Holds.write_part (H : st.Holds bodies [] entries last) (hh : st.handle = some h)
    (hmax : h.nextSeq + 1 ≠ 2 ^ 64) (hn : n < (frame b.bytes).length) :
    (st.write ⟨h.nextSeq + 1, true⟩ ((frame b.bytes).take n)).Holds bodies
      ((frame b.bytes).take n) entries last := by
  have hab := H.handle h hh
  refine { H with file := ?_, part := .inr ⟨b, n, hn, rfl⟩, handle := ?_ }
  · rw [write, H.file, append_nil, append_assoc]
  · rintro h' ⟨⟩
    exact hab.next hmax nofun hab.last_lt.le

theorem Holds.write_whole (H : st.Holds bodies [] entries last) (hh : st.handle = some h)
    (hmax : h.nextSeq + 1 ≠ 2 ^ 64) (refused : Bool) (hdec : decodeEntry b.bytes = .ok e)
    (hseq : e.seq = UInt64.ofNat h.nextSeq) :
    (st.write ⟨h.nextSeq + 1, refused⟩ (frame b.bytes)).Holds (bodies ++ [b]) [] (entries ++ [e])
      (UInt64.ofNat h.nextSeq) := by
  have hab := H.handle h hh
  have hnat : (UInt64.ofNat h.nextSeq).toNat = h.nextSeq := UInt64.toNat_ofNat_of_lt' hab.lt
  have hnext : decodeNext last b.bytes = .ok (e, UInt64.ofNat h.nextSeq) := by
    have hlt : ¬ e.seq ≤ last := by
      rw [hseq, UInt64.le_iff_toNat_le, hnat]
      exact not_le.mpr hab.last_lt
    rw [decodeNext, hdec, ok_bind, if_neg hlt, hseq]
  refine { H with file := ?_, read := ?_, last_lt := ?_, handle := ?_, covered := ?_ }
  · rw [write, H.file, append_nil, append_nil, framesOf_append, append_assoc]
    simp [framesOf]
  · exact decodeAll_append.mpr ⟨entries, last, [e], H.read, by rw [decodeAll, hnext]; rfl, rfl⟩
  · have := hab.lt
    omega
  · rintro h' ⟨⟩
    exact hab.next hmax (fun _ => rfl) hnat.le
  · exact fun n hn => .inr (by rw [hnat]; exact (H.mutation_lt hh hn).le)

theorem mutations_ack (st : Store) (n : Nat) (checkpoint : Bool) :
    mutations { st with acked := (n, checkpoint) :: st.acked } =
      if checkpoint then st.mutations else n :: st.mutations := by
  cases checkpoint <;> rfl

theorem Holds.ack (H : st.Holds bodies torn entries last) (hn : n = last.toNat)
    (hlt : ∀ m ∈ st.mutations, m < n) (checkpoint : Bool) :
    Holds { st with acked := (n, checkpoint) :: st.acked } bodies torn entries last := by
  refine { H with covered := ?_, increasing := ?_ } <;> rw [mutations_ack]
  · split
    · exact H.covered
    · exact forall_mem_cons.mpr ⟨.inr hn.le, H.covered⟩
  · split
    · exact H.increasing
    · exact pairwise_cons.mpr ⟨hlt, H.increasing⟩

theorem Holds.append (H : st.Holds bodies torn entries last) (p : Payload)
    (outcome : WriteOutcome) :
    (st.append p outcome).2.Sound := by
  obtain ⟨_, -, heq⟩ | ⟨h, hh, hmax, ⟨_, -, heq⟩ | ⟨href, hwrite⟩⟩ := st.append_cases p outcome
  · exact heq ▸ H.sound
  · have hab := H.handle h hh
    exact heq ▸ (H.write_nothing (hab.next hmax hab.clean hab.last_lt.le)).sound
  · have hab := H.handle h hh
    obtain rfl := hab.clean href
    obtain heq | ⟨b, hdec, hwrite⟩ := hwrite
    · have hnext : Handle.Above ⟨h.nextSeq + 1, true⟩ _ [] _ := hab.next hmax nofun hab.last_lt.le
      exact heq ▸ (H.write_nothing hnext).sound
    · have hwhole := fun refused => H.write_whole hh hmax refused hdec (p.seq_entry _)
      obtain heq | ⟨n, heq⟩ := hwrite
      · have hlast := (UInt64.toNat_ofNat_of_lt' hab.lt).symm
        exact heq ▸ ((hwhole false).ack hlast (fun _ => H.mutation_lt hh) _).sound
      · by_cases hn : n < (frame b.bytes).length
        · exact heq ▸ (H.write_part hh hmax hn).sound
        · rw [take_of_length_le (not_lt.mp hn)] at heq
          exact heq ▸ (hwhole true).sound

theorem Holds.commit (H : st.Holds bodies torn entries last) :
    st.commit.Holds bodies torn entries last := by
  rw [Store.commit]
  cases hh : st.handle with
  | none => exact H
  | some h =>
    have hab := H.handle h hh
    have hmark := H.watermark_lt hh
    have hpos := Nat.zero_lt_of_lt hab.last_lt
    have hlt := hab.lt
    refine { H with handle := ?_, committed_lt := ?_, committed_le := ?_, covered := ?_ }
    · rintro h' ⟨⟩
      exact { hab with
        committed_lt := forall_mem_cons.mpr ⟨Nat.sub_one_lt_of_lt hpos, hab.committed_lt⟩ }
    · show h.nextSeq - 1 + 1 < 2 ^ 64
      omega
    · exact forall_mem_cons.mpr
        ⟨le_rfl, fun w hw => Nat.le_sub_one_of_lt (hab.committed_lt w hw)⟩
    · exact fun n hn => .inl (Nat.le_sub_one_of_lt (H.mutation_lt hh hn))

theorem Holds.emptied (H : st.Holds bodies torn entries last)
    (hcovered : ∀ n ∈ st.mutations, n ≤ st.watermark) (hh : st.handle = some h) (refused : Bool) :
    Holds { st with file := header walVersion, handle := some { h with refused } } [] [] [] 0 := by
  have hab := H.handle h hh
  refine { H with
    file := rfl, part := .inl rfl, read := rfl, last_lt := by decide, handle := ?_
    covered := fun n hn => .inl (hcovered n hn) }
  rintro h' ⟨⟩
  exact ⟨fun _ => rfl, Nat.zero_lt_of_lt hab.last_lt, hab.committed_lt, hab.lt⟩

theorem Holds.refused (H : st.Holds bodies torn entries last) (hh : st.handle = some h) :
    Holds { st with handle := some { h with refused := true } } bodies torn entries last := by
  refine H.with_handle _ ?_
  rintro h' ⟨⟩
  exact { H.handle h hh with clean := nofun }

theorem Holds.reset (H : st.Holds bodies torn entries last)
    (hcovered : ∀ n ∈ st.mutations, n ≤ st.watermark) (outcome : ResetOutcome) :
    (st.reset outcome).Sound := by
  rw [Store.reset]
  cases hh : st.handle with
  | none => exact H.sound
  | some h =>
    cases outcome with
    | done => exact (H.emptied hcovered hh false).sound
    | notWritten => exact H.sound
    | notRenamed => exact (H.refused hh).sound
    | notOpened => exact (H.emptied hcovered hh true).sound

theorem Holds.close (H : st.Holds bodies torn entries last) :
    st.close.Holds bodies torn entries last := by
  rw [Store.close]
  cases hh : st.handle with
  | none => exact H.with_handle _ nofun
  | some h => exact H.refused hh

theorem Holds.reopen (H : st.Holds bodies torn entries last) :
    ∃ torn, st.reopen.Holds bodies torn entries last := by
  rw [Store.reopen, H.file]
  by_cases hrec : Recoverable torn
  · rw [openWal_of_recoverable H.read H.last_lt hrec]
    have hlast := H.last_lt
    have hmark := H.committed_lt
    refine ⟨[], { H with file := by rw [append_nil], part := .inl rfl, handle := ?_ }⟩
    rintro h' ⟨⟩
    simp only [ensureSeqAfter]
    refine ⟨fun _ => rfl, ?_, fun w hw => ?_, ?_⟩
    on_goal 2 => have hw := H.committed_le w hw
    all_goals
      dsimp only
      split <;> omega
  · obtain ⟨e, he⟩ := openWal_of_not_recoverable bodies H.part hrec
    rw [he]
    exact ⟨torn, { H with file := rfl, handle := nofun }⟩

/-- **Every operation keeps the log readable and its numbers apart.** -/
theorem Holds.step (H : st.Holds bodies torn entries last) {op : Op} (hop : op.Allowed st) :
    (st.step op).Sound := by
  cases op with
  | append p outcome => exact H.append p outcome
  | commit => exact H.commit.sound
  | reset outcome => exact H.reset hop outcome
  | close => exact H.close.sound
  | reopen =>
    obtain ⟨torn, hreopen⟩ := H.reopen
    exact hreopen.sound

theorem holds_new : new.Holds [] [] [] 0 where
  file := rfl
  part := .inl rfl
  read := rfl
  last_lt := by decide
  handle := by
    rintro h ⟨⟩
    exact ⟨fun _ => rfl, by decide, nofun, by decide⟩
  committed_lt := by decide
  committed_le := nofun
  covered := nofun
  increasing := .nil

end Store

theorem Reachable.holds {st : Store} (h : Reachable st) : st.Sound := by
  induction h with
  | new => exact Store.holds_new.sound
  | step _ op hop ih =>
    obtain ⟨_, _, _, _, H⟩ := ih
    exact H.step hop

theorem Reachable.run {st : Store} (h : Reachable st) {ops : List Op}
    (hops : ∀ op ∈ ops, ∀ outcome, op ≠ .reset outcome) : Reachable (st.run ops) := by
  induction ops generalizing st with
  | nil => exact h
  | cons op ops ih =>
    rw [forall_mem_cons] at hops
    refine ih (h.step op ?_) hops.2
    cases op with
    | reset outcome => exact absurd rfl (hops.1 outcome)
    | _ => trivial

/-! ## handles that refuse -/

namespace Store

variable {st : Store}

variable {p : Payload} {outcome : WriteOutcome}

theorem refuses_of_failed (h : (st.append p outcome).1 = .error .failed) :
    (st.append p outcome).2.Refuses := by
  have hwrite : ∀ n bytes, (st.write ⟨n, true⟩ bytes).Refuses := by
    rintro n bytes h ⟨⟩
    rfl
  obtain ⟨_, hne, heq⟩ | ⟨_, -, -, ⟨_, hne, heq⟩ | ⟨-, heq | ⟨_, -, heq | ⟨_, heq⟩⟩⟩⟩ :=
    st.append_cases p outcome
  · exact absurd (by simpa [heq] using h) hne
  · exact absurd (by simpa [heq] using h) hne
  · exact heq ▸ hwrite _ _
  · simp [heq] at h
  · exact heq ▸ hwrite _ _

theorem handle_of_acked {n : Nat} (hack : (st.append p outcome).1 = .ok n) :
    ∃ h, st.handle = some h ∧ h.nextSeq = n := by
  obtain ⟨_, -, heq⟩ | ⟨h, hh, -, ⟨_, -, heq⟩ | ⟨-, heq | ⟨_, -, heq | ⟨_, heq⟩⟩⟩⟩ :=
    st.append_cases p outcome
  all_goals simp [heq] at hack
  exact ⟨h, hh, hack⟩

theorem not_acked_of_refuses (href : st.Refuses) (p : Payload) (outcome : WriteOutcome) (n : Nat) :
    (st.append p outcome).1 ≠ .ok n := by
  obtain ⟨_, -, heq⟩ | ⟨h, hh, -, ⟨_, -, heq⟩ | ⟨hno, -⟩⟩ := st.append_cases p outcome
  · simp [heq]
  · simp [heq]
  · exact absurd (href h hh) (by simp [hno])

theorem refuses_close (st : Store) : st.close.Refuses := by
  intro h hh
  obtain ⟨_, -, rfl⟩ := Option.map_eq_some_iff.mp hh
  rfl

theorem Refuses.step (href : st.Refuses) {op : Op} (hop : ¬ op.Renews) : (st.step op).Refuses := by
  cases op with
  | append p outcome =>
    obtain ⟨_, -, heq⟩ | ⟨h, hh, -, ⟨_, -, heq⟩ | ⟨hno, -⟩⟩ := st.append_cases p outcome
    · exact (congrArg (·.2.Refuses) heq).mpr href
    · refine (congrArg (·.2.Refuses) heq).mpr ?_
      rintro h' ⟨⟩
      exact href h hh
    · exact absurd (href h hh) (by simp [hno])
  | commit =>
    intro h hh
    simp only [Store.step, commit] at hh
    split at hh <;> exact href h hh
  | reset outcome =>
    intro h hh
    simp only [Store.step, Store.reset] at hh
    split at hh
    · exact href h hh
    · cases outcome with
      | done => exact absurd rfl hop
      | notWritten => exact href h hh
      | notRenamed => cases hh; rfl
      | notOpened => cases hh; rfl
  | close => exact refuses_close st
  | reopen => exact absurd trivial hop

theorem Refuses.run (href : st.Refuses) {ops : List Op} (hops : ∀ op ∈ ops, ¬ op.Renews) :
    (st.run ops).Refuses := by
  induction ops generalizing st with
  | nil => exact href
  | cons op ops ih =>
    rw [forall_mem_cons] at hops
    exact ih (href.step hops.1) hops.2

end Store

/-- **Numbers, files and handles over the life of a log.**  In every store
that appends (failing at the write, at the sync or not), commits, resets of
covered logs and reopens lead to:

* the acknowledged mutations have increasing numbers, and the next number is
  above all of them and above every committed watermark;
* the file is whole records and at most one torn one, and is read unless
  something in the torn one looks like a record; behind a handle that does
  not refuse there is no torn one;
* after a failed append or a close nothing is acknowledged before the log is
  reset or opened again. -/
theorem sequencing {st : Store} (h : Reachable st) :
    (st.mutations.Pairwise (· > ·) ∧
      ∀ p outcome n, (st.append p outcome).1 = .ok n →
        (∀ w ∈ st.committed, w < n) ∧ ∀ m ∈ st.mutations, m < n) ∧
    (∃ bodies torn entries last,
      st.file = header walVersion ++ (framesOf bodies ++ torn) ∧ TornRecord torn ∧
      decodeAll decodeNext 0 bodies = .ok (entries, last) ∧
      (∀ h, st.handle = some h → h.refused = false → torn = []) ∧
      (torn.length < 8 ∨ Unambiguous torn → readEntries st.file =
        .ok (⟨entries, walHeaderSize + (framesOf bodies).length, torn.length⟩, walVersion)) ∧
      (¬ (torn.length < 8 ∨ Unambiguous torn) → ∃ e, readEntries st.file = .error e)) ∧
    (∀ p outcome, (st.append p outcome).1 = .error .failed → (st.append p outcome).2.Refuses) ∧
    st.close.Refuses ∧
    (st.Refuses → ∀ ops : List Op, (∀ op ∈ ops, ¬ op.Renews) →
      ∀ p outcome n, ((st.run ops).append p outcome).1 ≠ .ok n) := by
  obtain ⟨bodies, torn, entries, last, H⟩ := h.holds
  have htorn := (frameHead_torn H.part).1
  refine ⟨⟨H.increasing, fun p outcome n hack => ?_⟩, ⟨bodies, torn, entries, last, H.file, H.part,
    H.read, fun h hh => (H.handle h hh).clean, fun hrec => ?_, fun hno => ?_⟩,
    fun _ _ => Store.refuses_of_failed, st.refuses_close,
    fun href ops hops => Store.not_acked_of_refuses (href.run hops)⟩
  · obtain ⟨h, hh, rfl⟩ := Store.handle_of_acked hack
    exact ⟨(H.handle h hh).committed_lt, fun m hm => H.mutation_lt hh hm⟩
  · rw [H.file]
    exact readEntries_of_recoverable H.read (htorn.mpr hrec)
  · rw [H.file]
    exact readEntries_of_not_recoverable bodies H.part (hno ∘ htorn.mp)

def tornOps : List Op :=
  [.append (.deleteByLogical 5) .done, .append (.deleteByLogical 6) (.failedWrite 9), .reopen]

theorem sequencing_torn :
    (Store.new.run tornOps).mutations = [1] ∧ (∀ m ∈ (Store.new.run tornOps).mutations, m < 2) ∧
      ∀ p outcome n, ((Store.new.run tornOps).close.append p outcome).1 ≠ .ok n := by
  have hreach : Reachable (Store.new.run tornOps) := Reachable.new.run (by simp [tornOps])
  have hack : ((Store.new.run tornOps).append (.deleteByLogical 7) .done).1 = .ok 2 := by
    decide +kernel
  have hclosed : Reachable (Store.new.run tornOps).close := hreach.step .close trivial
  exact ⟨by decide +kernel, ((sequencing hreach).1.2 _ _ 2 hack).2,
    (sequencing hclosed).2.2.2.2 (sequencing hreach).2.2.2.1 [] nofun⟩

/-! ## where the numbers repeat and files are refused -/

/-- An insert whose text holds a whole record of its own. -/
def quotingInsert : Write := ⟨1, 1, "\x02\x00\x00\x00%9:map", [], none, none, false⟩

/-- The body of the first insert of such a text. -/
def quotingBody : LogBody where
  bytes := [1, 0, 0, 0, 0, 0, 0, 0, 0, 1, 0, 0, 0, 0, 0, 0, 0, 1, 0, 0, 0, 10, 0, 0, 0,
    0x02, 0x00, 0x00, 0x00, 0x25, 0x39, 0x3A, 0x6D, 0x61, 0x70, 0, 0]
  ne_nil := by simp
  length_lt := by decide

/-- A log cut one byte short of such a record does not reopen, and neither
does one cut in its header whose tail is padded with zeros. -/
theorem quoting_insert_refused :
    (Entry.insert 1 quotingInsert).encode = .ok quotingBody.bytes ∧
    (decodeAll decodeNext 0 [quotingBody]).isOk = true ∧
    (scanRecords decodeNext walHeaderSize 0
      ((header walVersion ++ framesOf [quotingBody]).take (walHeaderSize + 44))).isOk = false ∧
    (scanRecords decodeNext walHeaderSize 0
      ((header walVersion ++ framesOf [quotingBody]).take (walHeaderSize + 20) ++
        List.replicate 30 0)).isOk = false := by
  refine ⟨by rfl, ?_, ?_, ?_⟩ <;> decide +kernel

/-- A delete, a flush that checkpoints and resets the log, and after a restart
another delete, which gets the number of the checkpoint. -/
def flushedOps : List Op :=
  [.append (.deleteByLogical 5) .done, .commit, .append (.flushCheckpoint "s") .done, .reset .done,
    .reopen, .append (.deleteByLogical 6) .done]

/-- The checkpoint of a flush gives its number away; a reset of a log nothing
was committed of gives a mutation's number away; a reset lets a handle that
refused append again; and a failed append may leave a log that is not read. -/
theorem numbers_repeat :
    (Store.new.run flushedOps).acked = [(2, false), (2, true), (1, false)] ∧
    (Store.new.run [.append (.deleteByLogical 5) .done, .reset .done, .reopen,
      .append (.deleteByLogical 6) .done]).acked = [(1, false), (1, false)] ∧
    (Store.new.run [.append (.deleteByLogical 5) .failedSync, .commit, .reset .done,
      .append (.deleteByLogical 6) .done]).acked = [(2, false)] ∧
    (readEntries (Store.new.step (.append (.insert quotingInsert) (.failedWrite 44))).file).isOk =
      false := by
  refine ⟨?_, ?_, ?_, ?_⟩ <;> decide +kernel

end Wal

end ReverseRusty
