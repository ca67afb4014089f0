import ReverseRusty.FramedLog
import ReverseRusty.Lib.Reader

/-!
# ReverseRusty.WalRecord

The records of the write-ahead log (`wal.rs`, `wal/write.rs`,
`wal/recovery.rs`): what the writer puts in a body, and how a body is read.

An insert ends in a tag block and an extension, which are told apart by the
number of bytes that remain.  Bodies of older writers stop earlier.
-/

namespace ReverseRusty

open List
open Reader (word text)
open Codec (u8 u16 u32 u64 i64)

namespace Wal

open Reader

/-! ## entries -/

/-- What an insert or an upsert stores. -/
structure Write where
  logical : UInt64
  version : UInt32
  text : String
  tags : List (String × String)
  priority : Option Int64
  sourceGeneration : Option UInt64
  classDAccepted : Bool
deriving DecidableEq, Repr

inductive Entry where
  | insert (seq : UInt64) (write : Write)
  | tombstone (seq : UInt64) (segIdx localId : UInt32)
  | flushCheckpoint (seq : UInt64) (segmentFile : String)
  | deleteByLogical (seq logical : UInt64)
  | upsert (seq : UInt64) (write : Write)
deriving DecidableEq, Repr

def Entry.seq : Entry → UInt64
  | .insert seq _ | .tombstone seq _ _ | .flushCheckpoint seq _ | .deleteByLogical seq _
  | .upsert seq _ => seq

def opInsert : UInt8 := 0
def opTombstone : UInt8 := 1
def opFlushCheckpoint : UInt8 := 2
def opDeleteLogical : UInt8 := 3
def opUpsert : UInt8 := 4
def opInsertClassD : UInt8 := 5
def opUpsertClassD : UInt8 := 6

/-- The bytes `SGEN`. -/
def sourceGenerationMagic : List UInt8 := [0x53, 0x47, 0x45, 0x4E]

/-! ## the writer -/

/-- A text behind a length that must fit its field. -/
def fits16 (s : String) (error : String) : Except String Unit :=
  if 2 ^ 16 ≤ s.utf8ByteSize then .error error else .ok ()

def encodeTag (tag : String × String) : List UInt8 := encodeText tag.1 ++ encodeText tag.2

/-- The tag block: a count, then each key and value behind its length. -/
def encodeTags (tags : List (String × String)) : List UInt8 :=
  u16.enc (UInt16.ofNat tags.length) ++ tags.flatMap encodeTag

def checkTags (tags : List (String × String)) : Except String Unit :=
  if 2 ^ 16 ≤ tags.length then .error "too many WAL tags"
  else tags.forM fun tag => do
    fits16 tag.1 "WAL tag key exceeds u16 length"
    fits16 tag.2 "WAL tag value exceeds u16 length"

/-- The bytes behind the tag block. -/
def encodeExtension : Option UInt64 → Option Int64 → List UInt8
  | some generation, priority =>
    sourceGenerationMagic ++ (u64.enc generation ++
      (u8.enc (if priority.isSome then 1 else 0) ++ priority.elim [] i64.enc))
  | none, priority => priority.elim [] i64.enc

/-- The fields of an insert up to its text. -/
def encodeFront (op : UInt8) (seq logical : UInt64) (version : UInt32) (text : String) :
    List UInt8 :=
  u64.enc seq ++ (u8.enc op ++ (u64.enc logical ++ (u32.enc version ++
    (u32.enc (UInt32.ofNat text.utf8ByteSize) ++ utf8 text))))

/-- `append_insert_like`: the body it frames, or its refusal. -/
def insertLikeBody (op : UInt8) (seq : UInt64) (w : Write) : Except String (List UInt8) :=
  if w.sourceGeneration = some 0 then .error "zero WAL source generation"
  else do
    checkTags w.tags
    if 2 ^ 32 ≤ w.text.utf8ByteSize then .error "WAL text exceeds u32 length"
    else .ok (encodeFront op seq w.logical w.version w.text
      ++ (encodeTags w.tags ++ encodeExtension w.sourceGeneration w.priority))

/-- The body each of the writer's appends frames, or its refusal. -/
def Entry.encode : Entry → Except String (List UInt8)
  | .insert seq w => insertLikeBody (if w.classDAccepted then opInsertClassD else opInsert) seq w
  | .upsert seq w => insertLikeBody (if w.classDAccepted then opUpsertClassD else opUpsert) seq w
  | .tombstone seq segIdx localId => .ok (u64.enc seq ++ (u8.enc opTombstone ++
      (u32.enc segIdx ++ u32.enc localId)))
  | .deleteByLogical seq logical => .ok (u64.enc seq ++ (u8.enc opDeleteLogical ++
      u64.enc logical))
  | .flushCheckpoint seq segmentFile =>
    if 2 ^ 32 ≤ segmentFile.utf8ByteSize then .error "WAL checkpoint name exceeds u32 length"
    else .ok (u64.enc seq ++ (u8.enc opFlushCheckpoint ++
      (u32.enc (UInt32.ofNat segmentFile.utf8ByteSize) ++ utf8 segmentFile)))

/-! ## the reader -/

/-- A text behind its 16-bit length. -/
def readText16 : Reader String := do
  let len ← word u16
  text len.toNat

def readTag : Reader (String × String) := do
  let key ← readText16
  let value ← readText16
  return (key, value)

/-- The tag block, which the first writers left out. -/
def readTags : Reader (List (String × String)) := do
  let remaining ← get
  if remaining = [] then return []
  else do
    let count ← word u16
    Reader.repeated readTag count.toNat

/-- The marked extension of a current writer. -/
def readGeneration : Reader (Option UInt64 × Option Int64) := do
  let magic ← Reader.take 4
  if magic ≠ sourceGenerationMagic then throw "unknown WAL payload extension"
  else do
    let generation ← word u64
    if generation = 0 then throw "zero WAL source generation"
    else do
      let present ← word u8
      if present = 0 then return (some generation, none)
      else if present = 1 then do
        let priority ← word i64
        return (some generation, some priority)
      else throw "invalid WAL priority-presence flag"

/-- What follows the tag block, by the number of bytes that remain. -/
def readExtension : Reader (Option UInt64 × Option Int64) := do
  let remaining ← get
  if remaining.length = 0 then return (none, none)
  else if remaining.length = 8 then do
    let priority ← word i64
    return (none, some priority)
  else if remaining.length = 13 ∨ remaining.length = 21 then readGeneration
  else throw "malformed WAL payload extension"

/-- The payload of an insert or an upsert. -/
def readWrite (classDAccepted : Bool) : Reader Write := do
  let logical ← word u64
  let version ← word u32
  let len ← word u32
  let text ← text len.toNat
  let tags ← readTags
  let (generation, priority) ← readExtension
  return ⟨logical, version, text, tags, priority, generation, classDAccepted⟩

def readEntry : Reader Entry := do
  let seq ← word u64
  let op ← word u8
  if op = opInsert ∨ op = opInsertClassD then do
    let w ← readWrite (op = opInsertClassD)
    return .insert seq w
  else if op = opUpsert ∨ op = opUpsertClassD then do
    let w ← readWrite (op = opUpsertClassD)
    return .upsert seq w
  else if op = opTombstone then do
    let segIdx ← word u32
    let localId ← word u32
    return .tombstone seq segIdx localId
  else if op = opDeleteLogical then do
    let logical ← word u64
    return .deleteByLogical seq logical
  else if op = opFlushCheckpoint then do
    let len ← word u32
    let segmentFile ← text len.toNat
    return .flushCheckpoint seq segmentFile
  else throw s!"unknown WAL opcode {op}"

/-- `decode_entry`. -/
def decodeEntry (body : List UInt8) : Except String Entry := readEntry.whole body

/-! ## what the reader makes of the writer's bytes -/

section Reads

variable {tags : List (String × String)} {generation : Option UInt64} {priority : Option Int64}

variable {s : String}

theorem reads_text16 (h : s.utf8ByteSize < 2 ^ 16) : Reads readText16 (encodeText s) s := by
  have htext := reads_text s
  rw [← UInt16.toNat_ofNat_of_lt' h] at htext
  exact (reads_word u16 (UInt16.ofNat s.utf8ByteSize)).bind htext

theorem reads_tag {tag : String × String} (hkey : tag.1.utf8ByteSize < 2 ^ 16)
    (hvalue : tag.2.utf8ByteSize < 2 ^ 16) : Reads readTag (encodeTag tag) tag :=
  (reads_text16 hkey).bind ((reads_text16 hvalue).map fun value => (tag.1, value))

structure TagsFit (tags : List (String × String)) : Prop where
  count : tags.length < 2 ^ 16
  keys : ∀ tag ∈ tags, tag.1.utf8ByteSize < 2 ^ 16
  values : ∀ tag ∈ tags, tag.2.utf8ByteSize < 2 ^ 16

theorem fits16_eq_ok {error : String} {u : Unit} :
    fits16 s error = .ok u ↔ s.utf8ByteSize < 2 ^ 16 := by
  unfold fits16
  split <;> simp_all

theorem checkTags_eq_ok {tags : List (String × String)} :
    checkTags tags = .ok () ↔ TagsFit tags := by
  unfold checkTags
  split
  · next hmany =>
    simp only [reduceCtorEq, false_iff]
    exact fun h => absurd h.count (not_lt.mpr hmany)
  · next hmany =>
    simp only [forM_eq_ok_iff, bind_eq_ok, fits16_eq_ok]
    constructor
    · exact fun h => ⟨not_le.mp hmany, fun tag ht => (h tag ht).elim fun _ h => h.1,
        fun tag ht => (h tag ht).elim fun _ h => h.2⟩
    · exact fun h tag ht => ⟨(), h.keys tag ht, h.values tag ht⟩

theorem reads_tags (h : TagsFit tags) : Reads readTags (encodeTags tags) tags := by
  intro rest
  have hcount : (UInt16.ofNat tags.length).toNat = tags.length :=
    UInt16.toNat_ofNat_of_lt' h.count
  have hblock : Reads (do
      let count ← word u16
      repeated readTag count.toNat) (encodeTags tags) tags := by
    refine (reads_word u16 (UInt16.ofNat tags.length)).bind ?_
    rw [hcount]
    exact reads_repeated fun tag ht => reads_tag (h.keys tag ht) (h.values tag ht)
  have hne : encodeTags tags ++ rest ≠ [] := by simp [encodeTags, u16, leBytes]
  rw [readTags, run_get, if_neg hne]
  exact hblock rest

theorem readGeneration_encode {generation : UInt64} (h : generation ≠ 0) :
    readGeneration (encodeExtension (some generation) priority) =
      .ok ((some generation, priority), []) := by
  have hmagic : Reads (take 4) sourceGenerationMagic sourceGenerationMagic :=
    reads_take sourceGenerationMagic
  rw [readGeneration, encodeExtension, hmagic.run, if_neg (by simp),
    (reads_word u64 generation).run, if_neg h, (reads_word u8 _).run]
  cases priority with
  | none => rfl
  | some value =>
    have hread := ((reads_word i64 value).map fun p => (some generation, some p)) []
    rw [append_nil] at hread
    exact hread

theorem length_extension_some (generation : UInt64) (priority : Option Int64) :
    (encodeExtension (some generation) priority).length = 13 ∨
      (encodeExtension (some generation) priority).length = 21 := by
  cases priority with
  | none => exact .inl (by simp [encodeExtension, sourceGenerationMagic, u64, u8])
  | some value =>
    exact .inr (by simp [encodeExtension, sourceGenerationMagic, u64, u8, i64])

theorem readExtension_encode (h : generation ≠ some 0) :
    readExtension (encodeExtension generation priority) = .ok ((generation, priority), []) := by
  rw [readExtension, run_get]
  cases generation with
  | some generation =>
    have hlen := length_extension_some generation priority
    rw [if_neg (by omega), if_neg (by omega), if_pos hlen]
    exact readGeneration_encode fun hzero => h (congrArg some hzero)
  | none =>
    cases priority with
    | none => rfl
    | some value =>
      have hlen : (encodeExtension none (some value)).length = 8 := i64.length_enc value
      rw [if_neg (by omega), if_pos hlen]
      have hread := ((reads_word i64 value).map fun p => ((none : Option UInt64), some p)) []
      rw [append_nil] at hread
      exact hread

def insertOp (upsert classDAccepted : Bool) : UInt8 :=
  match upsert, classDAccepted with
  | false, false => opInsert
  | false, true => opInsertClassD
  | true, false => opUpsert
  | true, true => opUpsertClassD

def insertEntry (upsert : Bool) (seq : UInt64) (w : Write) : Entry :=
  if upsert then .upsert seq w else .insert seq w

section Front

variable (classD : Bool) (logical : UInt64) (version : UInt32) {text : String}
  (htext : text.utf8ByteSize < 2 ^ 32) {bytes : List UInt8}
  (htags : ∃ rest, readTags bytes = .ok (tags, rest) ∧
    readExtension rest = .ok ((generation, priority), []))

include htext htags

theorem readWrite_front :
    readWrite classD (u64.enc logical ++ (u32.enc version ++
        (u32.enc (UInt32.ofNat text.utf8ByteSize) ++ (utf8 text ++ bytes)))) =
      .ok (⟨logical, version, text, tags, priority, generation, classD⟩, []) := by
  obtain ⟨rest, htags, hext⟩ := htags
  have hlen : (UInt32.ofNat text.utf8ByteSize).toNat = text.utf8ByteSize :=
    UInt32.toNat_ofNat_of_lt' htext
  rw [readWrite, (reads_word u64 logical).run, (reads_word u32 version).run,
    (reads_word u32 _).run, hlen, (reads_text text).run, run_bind htags, run_bind hext]
  rfl

theorem decodeEntry_front (upsert : Bool) (seq : UInt64) :
    decodeEntry (encodeFront (insertOp upsert classD) seq logical version text ++ bytes) =
      .ok (insertEntry upsert seq ⟨logical, version, text, tags, priority, generation, classD⟩) := by
  have hwrite := readWrite_front classD logical version htext htags
  refine Reads.whole ?_
  simp only [encodeFront, append_assoc]
  rw [readEntry, (reads_word u64 seq).run, (reads_word u8 _).run]
  cases upsert <;> cases classD <;> exact run_bind hwrite

end Front

end Reads

/-! ## whole bodies -/

theorem encode_insertLike {upsert : Bool} {seq : UInt64} {w : Write} :
    (insertEntry upsert seq w).encode = insertLikeBody (insertOp upsert w.classDAccepted) seq w := by
  cases upsert <;> cases hd : w.classDAccepted <;> simp [insertEntry, insertOp, Entry.encode, hd]

variable {body : List UInt8}

theorem decodeEntry_insertLike {upsert : Bool} {seq : UInt64} {w : Write}
    (h : insertLikeBody (insertOp upsert w.classDAccepted) seq w = .ok body) :
    decodeEntry body = .ok (insertEntry upsert seq w) := by
  rw [insertLikeBody] at h
  split at h
  · contradiction
  · next hgen =>
    simp only [bind_eq_ok] at h
    obtain ⟨_, htags, hbody⟩ := h
    split at hbody
    · contradiction
    · next htext =>
      cases hbody
      exact decodeEntry_front w.classDAccepted w.logical w.version (not_le.mp htext)
        ⟨_, reads_tags (checkTags_eq_ok.mp htags) _, readExtension_encode hgen⟩ upsert seq

/-- **A body the writer accepts is read back.** -/
theorem decodeEntry_encode {e : Entry} (h : e.encode = .ok body) : decodeEntry body = .ok e := by
  cases e with
  | insert seq w =>
    have hencode := @encode_insertLike false seq w
    exact decodeEntry_insertLike (hencode.symm.trans h)
  | upsert seq w =>
    have hencode := @encode_insertLike true seq w
    exact decodeEntry_insertLike (hencode.symm.trans h)
  | tombstone seq segIdx localId =>
    cases h
    refine Reads.whole ?_
    rw [readEntry, (reads_word u64 seq).run, (reads_word u8 _).run]
    have hread := (reads_word u32 localId).map (Entry.tombstone seq segIdx) []
    rw [append_nil] at hread
    exact (reads_word u32 segIdx).run.trans hread
  | deleteByLogical seq logical =>
    cases h
    refine Reads.whole ?_
    rw [readEntry, (reads_word u64 seq).run, (reads_word u8 _).run]
    have hread := (reads_word u64 logical).map (Entry.deleteByLogical seq) []
    rwa [append_nil] at hread
  | flushCheckpoint seq segmentFile =>
    rw [Entry.encode] at h
    split at h
    · contradiction
    · next hname =>
      cases h
      refine Reads.whole ?_
      have hlen : (UInt32.ofNat segmentFile.utf8ByteSize).toNat = segmentFile.utf8ByteSize :=
        UInt32.toNat_ofNat_of_lt' (not_le.mp hname)
      have hread := (reads_text segmentFile).map (Entry.flushCheckpoint seq) []
      rw [append_nil, ← hlen] at hread
      rw [readEntry, (reads_word u64 seq).run, (reads_word u8 _).run]
      exact (reads_word u32 _).run.trans hread

/-! ## bodies of older writers -/

/-- What an older writer put behind the text of an insert. -/
inductive LegacyTail where
  /-- the body ends at the text -/
  | noTags
  | tags (tags : List (String × String))
  | priority (tags : List (String × String)) (priority : Int64)

namespace LegacyTail

def tagList : LegacyTail → List (String × String)
  | noTags => []
  | tags ts => ts
  | priority ts _ => ts

def priority? : LegacyTail → Option Int64
  | noTags | tags _ => none
  | priority _ p => some p

def bytes : LegacyTail → List UInt8
  | noTags => []
  | tags ts => encodeTags ts
  | priority ts p => encodeTags ts ++ i64.enc p

theorem read (tail : LegacyTail) (h : TagsFit tail.tagList) :
    ∃ rest, readTags tail.bytes = .ok (tail.tagList, rest) ∧
      readExtension rest = .ok ((none, tail.priority?), []) := by
  cases tail with
  | noTags => exact ⟨[], rfl, rfl⟩
  | tags ts =>
    have hread := reads_tags h []
    rw [append_nil] at hread
    exact ⟨[], hread, rfl⟩
  | priority ts p =>
    exact ⟨_, reads_tags h _, @readExtension_encode none (some p) nofun⟩

end LegacyTail

/-- **Records round trip.**  A body the writer accepts decodes to the entry it
was written from, and so does a body of each shape that older writers wrote. -/
theorem records_round_trip :
    (∀ (e : Entry) (body : List UInt8), e.encode = .ok body → decodeEntry body = .ok e) ∧
    ∀ (upsert classD : Bool) (seq logical : UInt64) (version : UInt32) (text : String)
      (tail : LegacyTail), text.utf8ByteSize < 2 ^ 32 → TagsFit tail.tagList →
      decodeEntry (encodeFront (insertOp upsert classD) seq logical version text ++ tail.bytes) =
        .ok (insertEntry upsert seq
          ⟨logical, version, text, tail.tagList, tail.priority?, none, classD⟩) :=
  ⟨fun _ _ => decodeEntry_encode, fun upsert classD seq logical version _ tail htext htags =>
    decodeEntry_front classD logical version htext (tail.read htags) upsert seq⟩

theorem upsert_round_trip :
    (∃ body, (Entry.upsert 7 ⟨3, 1, "red shoe", [("site", "de")], some (-5), some 9, true⟩).encode =
        .ok body ∧
      decodeEntry body =
        .ok (.upsert 7 ⟨3, 1, "red shoe", [("site", "de")], some (-5), some 9, true⟩)) ∧
    decodeEntry (encodeFront opInsert 1 3 1 "red shoe") =
      .ok (.insert 1 ⟨3, 1, "red shoe", [], none, none, false⟩) := by
  refine ⟨⟨_, rfl, records_round_trip.1 _ _ rfl⟩, ?_⟩
  have hread := records_round_trip.2 false false 1 3 1 "red shoe" .noTags (by decide)
    ⟨by decide, by simp [LegacyTail.tagList], by simp [LegacyTail.tagList]⟩
  simpa [LegacyTail.bytes, insertOp, insertEntry, LegacyTail.tagList, LegacyTail.priority?] using hread

end Wal

end ReverseRusty
