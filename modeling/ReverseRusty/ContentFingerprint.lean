import ReverseRusty.Lib.PrefixCode
import ReverseRusty.Ownership
import ReverseRusty.SigKey

/-!
# ReverseRusty.ContentFingerprint

The fingerprint by which two copies of a shard are compared
(`cluster/shard/local/mutations.rs`): every live row is encoded, the encodings
are sorted, and two hashes run over all of them.

The parts of a row that may be left out carry no sign of it, and nothing stands
between two rows, so what is hashed of any rows does not decide them
(`borrowed_id_collides`).  Of rows as a shard server holds them it does
(`fingerprintBytes_eq_iff_perm`): the parts that are left out show in what stands
behind them.
-/

namespace ReverseRusty

open List
open Codec (u8 u32 u64 i64)

/-- A live row of a shard with its source document. -/
structure SourceEntry where
  logical : UInt64
  dsl : String
  version : UInt32
  rawTags : List (String × String)
  tagIds : List UInt32
  priority : Int64
  placement : QueryPlacement
deriving DecidableEq

namespace SourceEntry

def encodeText64 (s : String) : List UInt8 :=
  u64.enc (UInt64.ofNat s.utf8ByteSize) ++ utf8 s

def encodeText32 (s : String) : List UInt8 :=
  u32.enc (UInt32.ofNat s.utf8ByteSize) ++ utf8 s

def encodeTagIds (ids : List UInt32) : List UInt8 :=
  u64.enc (UInt64.ofNat ids.length) ++ ids.flatMap u32.enc

def encodePlacement (p : QueryPlacement) : List UInt8 :=
  u64.enc p.generation ++ (u32.enc p.numShards ++ (u8.enc p.mode.toByte ++
    (u32.enc (UInt32.ofNat p.positions.length) ++ p.positions.flatMap u32.enc)))

/-- The letters `SRCTAGS` and a zero byte. -/
def sourceTagsMark : List UInt8 := [83, 82, 67, 84, 65, 71, 83, 0]

def encodeSourceTags (tags : List (String × String)) : List UInt8 :=
  sourceTagsMark ++ (u64.enc (UInt64.ofNat tags.length) ++
    tags.flatMap fun tag => encodeText32 tag.1 ++ encodeText32 tag.2)

def encode (e : SourceEntry) : List UInt8 :=
  u64.enc e.logical ++ (u32.enc e.version ++ (encodeText64 e.dsl ++
    (encodeTagIds e.tagIds ++
      ((if e.priority != 0 then i64.enc e.priority else []) ++
        ((if e.placement.mode != .standalone then encodePlacement e.placement else []) ++
          (if !e.rawTags.isEmpty then encodeSourceTags e.rawTags else []))))))

end SourceEntry

def fnv1a64Seeded (seed : UInt64) (bytes : List UInt8) : UInt64 :=
  bytes.foldl (fun h b => (h ^^^ b.toUInt64) * fnvPrime) seed

def hiSeed : UInt64 := fnvBasis ^^^ 0x9e3779b97f4a7c15

/-- The encodings of a shard's rows, in byte order. -/
def encodedEntries (entries : List SourceEntry) : List (List UInt8) :=
  (entries.map SourceEntry.encode).mergeSort (· ≤ ·)

/-- What is hashed of a shard's rows. -/
def fingerprintBytes (entries : List SourceEntry) : List UInt8 := (encodedEntries entries).flatten

/-- The fingerprint of the rows a shard enumerates, of which it counts `live`. -/
def contentFingerprint128 (entries : List SourceEntry) (live : Nat) :
    Except String (UInt64 × UInt64 × UInt64) :=
  if entries.length ≠ live then
    .error ("content fingerprint refused: the source enumeration covers " ++
      toString entries.length ++ " of " ++ toString live ++ " live queries (a source-less or " ++
      "partial store); a fingerprint over it could equate divergent shards — fall back to the re-copy")
  else
    .ok ((encodedEntries entries).foldl fnv1a64Seeded fnvBasis,
      (encodedEntries entries).foldl fnv1a64Seeded hiSeed,
      UInt64.ofNat (encodedEntries entries).length)

theorem foldl_fnv1a64Seeded (seed : UInt64) (encoded : List (List UInt8)) :
    encoded.foldl fnv1a64Seeded seed = fnv1a64Seeded seed encoded.flatten := by
  rw [fnv1a64Seeded, foldl_flatten]
  rfl

variable {entries entries' : List SourceEntry}

/-- Rows decide the fingerprint through their number and what is hashed of them. -/
theorem contentFingerprint128_congr (hlen : entries.length = entries'.length)
    (h : fingerprintBytes entries = fingerprintBytes entries') (live : Nat) :
    contentFingerprint128 entries live = contentFingerprint128 entries' live := by
  have hcount : (encodedEntries entries).length = (encodedEntries entries').length := by
    simpa [encodedEntries] using hlen
  rw [fingerprintBytes, fingerprintBytes] at h
  simp only [contentFingerprint128, foldl_fnv1a64Seeded, hlen, hcount, h]

/-- The order in which a shard lists its rows does not matter. -/
theorem fingerprintBytes_perm (h : entries.Perm entries') :
    fingerprintBytes entries = fingerprintBytes entries' := by
  have hsorted : ∀ es, (encodedEntries es).Pairwise (· ≤ ·) := fun es => pairwise_mergeSort' _ _
  have hperm : (encodedEntries entries).Perm (encodedEntries entries') :=
    (mergeSort_perm ..).trans ((h.map _).trans (mergeSort_perm ..).symm)
  have hsame := hperm.eq_of_pairwise (fun _ _ _ _ => Std.le_antisymm) (hsorted _) (hsorted _)
  rw [fingerprintBytes, hsame, fingerprintBytes]

/-! ## rows of a shard server -/

namespace SourceEntry

/-- A row as a shard server holds it: it is placed, under a generation that
counts up from one, and has a text.  Its lengths fit the words that hold them. -/
structure Held (e : SourceEntry) : Prop where
  placed : e.placement.mode ≠ .standalone
  generation : e.placement.generation.toNat < 2 ^ 32
  named : 0 < e.dsl.utf8ByteSize
  dsl : e.dsl.utf8ByteSize < 2 ^ 32
  tagIds : e.tagIds.length < 2 ^ 64
  positions : e.placement.positions.length < 2 ^ 32
  rawTags : e.rawTags.length < 2 ^ 32
  tag : ∀ tag ∈ e.rawTags, tag.1.utf8ByteSize < 2 ^ 32 ∧ tag.2.utf8ByteSize < 2 ^ 32

/-- What every row begins with. -/
def encodeHead (e : SourceEntry) : List UInt8 :=
  u64.enc e.logical ++ (u32.enc e.version ++ (encodeText64 e.dsl ++ encodeTagIds e.tagIds))

/-- The priority, if there is one. -/
def encodePriority (e : SourceEntry) : List UInt8 :=
  if e.priority != 0 then i64.enc e.priority else []

/-- The source tags, if there are any. -/
def encodeTagged (e : SourceEntry) : List UInt8 :=
  if !e.rawTags.isEmpty then encodeSourceTags e.rawTags else []

theorem Held.encode_eq {e : SourceEntry} (h : e.Held) : e.encode =
    e.encodeHead ++ (e.encodePriority ++ (encodePlacement e.placement ++ e.encodeTagged)) := by
  have hplaced : (e.placement.mode != .standalone) = true := by simpa using h.placed
  simp only [encode, encodeHead, encodePriority, encodeTagged, hplaced, if_true, append_assoc]

theorem prefixCode_count64 : PrefixCode (fun n => u64.enc (UInt64.ofNat n)) (· < 2 ^ 64) :=
  u64.prefixCode_count fun _ hn => UInt64.toNat_ofNat_of_lt hn

theorem prefixCode_count32 : PrefixCode (fun n => u32.enc (UInt32.ofNat n)) (· < 2 ^ 32) :=
  u32.prefixCode_count fun _ hn => UInt32.toNat_ofNat_of_lt hn

theorem prefixCode_placement :
    PrefixCode encodePlacement fun p => p.positions.length < 2 ^ 32 := by
  have h := (u64.prefixCode.append (u32.prefixCode.append (u8.prefixCode.append
    (u32.prefixCode.counted prefixCode_count32)))).comap
    (f := fun p : QueryPlacement => (p.generation, p.numShards, p.mode.toByte, p.positions)) ?_
  · exact h.mono fun _ ha => ⟨trivial, trivial, trivial, ha, fun _ _ => trivial⟩
  · intro a b hab
    simp only [Prod.mk.injEq] at hab
    have hparts := a.fromRaw_parts
    rw [hab.1, hab.2.1, hab.2.2.1, hab.2.2.2, b.fromRaw_parts] at hparts
    exact (Except.ok.inj hparts).symm

theorem prefixCode_sourceTags : PrefixCode encodeSourceTags fun tags =>
    tags.length < 2 ^ 64 ∧
      ∀ tag ∈ tags, tag.1.utf8ByteSize < 2 ^ 32 ∧ tag.2.utf8ByteSize < 2 ^ 32 := by
  intro a b r r' ha hb heq
  simp only [encodeSourceTags, append_assoc] at heq
  refine ((PrefixCode.text prefixCode_count32).append (PrefixCode.text prefixCode_count32)).counted
    prefixCode_count64 a b r r' ha hb ?_
  rw [append_assoc, append_assoc]
  exact append_cancel_left heq

theorem prefixCode_head : PrefixCode
    (fun p : UInt64 × UInt32 × String × List UInt32 =>
      u64.enc p.1 ++ (u32.enc p.2.1 ++ (encodeText64 p.2.2.1 ++ encodeTagIds p.2.2.2)))
    fun p => True ∧ True ∧ p.2.2.1.utf8ByteSize < 2 ^ 64 ∧ p.2.2.2.length < 2 ^ 64 ∧
      ∀ id ∈ p.2.2.2, True :=
  u64.prefixCode.append (u32.prefixCode.append ((PrefixCode.text prefixCode_count64).append
    (u32.prefixCode.counted prefixCode_count64)))

/-- A small number is its low half and four zero bytes. -/
theorem enc_u64_of_lt {n : UInt64} (h : n.toNat < 2 ^ 32) :
    u64.enc n = u32.enc (UInt32.ofNat n.toNat) ++ [0, 0, 0, 0] := by
  have hsplit : leBytes 8 n.toNat = leBytes 4 n.toNat ++ leBytes 4 (n.toNat / 2 ^ 32) := by
    simp [leBytes, Nat.div_div_eq_div_mul]
  have hhigh : n.toNat / 2 ^ 32 = 0 := Nat.div_eq_of_lt h
  have hlow : (UInt32.ofNat n.toNat).toNat = n.toNat := UInt32.toNat_ofNat_of_lt' h
  show leBytes 8 n.toNat = leBytes 4 (UInt32.ofNat n.toNat).toNat ++ [0, 0, 0, 0]
  rw [hsplit, hhigh, hlow]
  rfl

section Step

variable {a b : SourceEntry} {r r' : List UInt8}

/-- A priority is not taken for a generation: four bytes behind a generation
comes the mode, and in a generation zeros. -/
theorem not_priority_placement (ha : a.Held) (hb : b.Held) (p : Int64)
    (h : i64.enc p ++ (encodePlacement a.placement ++ r) = encodePlacement b.placement ++ r') :
    False := by
  simp only [encodePlacement, append_assoc, enc_u64_of_lt ha.generation] at h
  obtain ⟨-, hrest⟩ := append_inj h (by simp; rfl)
  obtain ⟨-, hrest⟩ := u32.prefixCode _ _ _ _ trivial trivial hrest
  have hmode : b.placement.mode.toByte = 0 := by
    have hhead := congrArg List.head? hrest
    simpa [u8, leBytes] using hhead.symm
  refine hb.placed ?_
  cases hm : b.placement.mode with
  | standalone => rfl
  | selective | replicatedAlwaysVisible | replicatedBroad =>
    rw [hm] at hmode
    contradiction

/-- What may stand behind a row: nothing, or another row. -/
def Follows (r : List UInt8) : Prop := r = [] ∨ ∃ e rest, Held e ∧ r = e.encode ++ rest

/-- Source tags are not taken for the next row: behind an id and a version comes
the length of a text, and behind the mark a count with zeros in that place. -/
theorem not_tags_follow (ha : a.Held) (hr' : Follows r')
    (h : encodeSourceTags a.rawTags ++ r = r') : False := by
  rcases hr' with rfl | ⟨e, rest, he, rfl⟩
  · simp [encodeSourceTags, sourceTagsMark] at h
  · have hcount : (UInt64.ofNat a.rawTags.length).toNat < 2 ^ 32 := by
      rw [UInt64.toNat_ofNat_of_lt' (by have := ha.rawTags; simp only [UInt64.size]; omega)]
      exact ha.rawTags
    have htext : (UInt64.ofNat e.dsl.utf8ByteSize).toNat = e.dsl.utf8ByteSize :=
      UInt64.toNat_ofNat_of_lt' (by have := he.dsl; simp only [UInt64.size]; omega)
    have hlen : (UInt64.ofNat e.dsl.utf8ByteSize).toNat < 2 ^ 32 := by rw [htext]; exact he.dsl
    rw [he.encode_eq] at h
    simp only [encodeSourceTags, encodeHead, encodeText64, append_assoc, enc_u64_of_lt hcount,
      enc_u64_of_lt hlen] at h
    obtain ⟨-, hrest⟩ := append_inj h (by simp [sourceTagsMark]; rfl)
    obtain ⟨-, hrest⟩ := u32.prefixCode _ _ _ _ trivial trivial hrest
    obtain ⟨hzero, -⟩ := append_inj hrest (by simp; rfl)
    have hword : u32.enc (UInt32.ofNat (UInt64.ofNat e.dsl.utf8ByteSize).toNat) = u32.enc 0 :=
      hzero.symm
    have heq := congrArg u32.dec hword
    rw [u32.dec_enc, u32.dec_enc, htext] at heq
    have hnat := congrArg UInt32.toNat heq
    rw [UInt32.toNat_ofNat_of_lt' he.dsl] at hnat
    exact absurd hnat he.named.ne'

theorem priority_eq (ha : a.Held) (hb : b.Held)
    (h : a.encodePriority ++ (encodePlacement a.placement ++ r) =
      b.encodePriority ++ (encodePlacement b.placement ++ r')) :
    a.priority = b.priority ∧
      encodePlacement a.placement ++ r = encodePlacement b.placement ++ r' := by
  unfold encodePriority at h
  by_cases hpa : a.priority = 0
  · by_cases hpb : b.priority = 0
    · simpa [hpa, hpb] using h
    · simp only [hpa, bne_self_eq_false, Bool.false_eq_true, if_false, nil_append,
        bne_iff_ne.mpr hpb, if_true] at h
      exact (not_priority_placement hb ha _ h.symm).elim
  · by_cases hpb : b.priority = 0
    · simp only [hpb, bne_self_eq_false, Bool.false_eq_true, if_false, nil_append,
        bne_iff_ne.mpr hpa, if_true] at h
      exact (not_priority_placement ha hb _ h).elim
    · simp only [bne_iff_ne.mpr hpa, bne_iff_ne.mpr hpb, if_true] at h
      exact i64.prefixCode _ _ _ _ trivial trivial h

theorem rawTags_eq (ha : a.Held) (hb : b.Held) (hr : Follows r) (hr' : Follows r')
    (h : a.encodeTagged ++ r = b.encodeTagged ++ r') : a.rawTags = b.rawTags ∧ r = r' := by
  unfold encodeTagged at h
  have hfits {e : SourceEntry} (he : e.Held) : e.rawTags.length < 2 ^ 64 :=
    he.rawTags.trans (by decide)
  by_cases hta : a.rawTags = []
  · by_cases htb : b.rawTags = []
    · simpa [hta, htb] using h
    · simp only [hta, isEmpty_nil, Bool.not_true, Bool.false_eq_true, if_false, nil_append,
        isEmpty_eq_false_iff.mpr htb, Bool.not_false, if_true] at h
      exact (not_tags_follow hb hr h.symm).elim
  · by_cases htb : b.rawTags = []
    · simp only [htb, isEmpty_nil, Bool.not_true, Bool.false_eq_true, if_false, nil_append,
        isEmpty_eq_false_iff.mpr hta, Bool.not_false, if_true] at h
      exact (not_tags_follow ha hr' h).elim
    · simp only [isEmpty_eq_false_iff.mpr hta, isEmpty_eq_false_iff.mpr htb, Bool.not_false,
        if_true] at h
      exact prefixCode_sourceTags _ _ _ _ ⟨hfits ha, ha.tag⟩ ⟨hfits hb, hb.tag⟩ h

/-- **One row is told off** from what follows it. -/
theorem encode_step (ha : a.Held) (hb : b.Held) (hr : Follows r) (hr' : Follows r')
    (h : a.encode ++ r = b.encode ++ r') : a = b ∧ r = r' := by
  rw [ha.encode_eq, hb.encode_eq] at h
  simp only [append_assoc] at h
  have hhead {e : SourceEntry} (he : e.Held) : e.dsl.utf8ByteSize < 2 ^ 64 :=
    he.dsl.trans (by decide)
  obtain ⟨hsame, h⟩ := prefixCode_head (a.logical, a.version, a.dsl, a.tagIds)
    (b.logical, b.version, b.dsl, b.tagIds) _ _
    ⟨trivial, trivial, hhead ha, ha.tagIds, fun _ _ => trivial⟩
    ⟨trivial, trivial, hhead hb, hb.tagIds, fun _ _ => trivial⟩ h
  obtain ⟨hpriority, h⟩ := priority_eq ha hb h
  obtain ⟨hplacement, h⟩ := prefixCode_placement _ _ _ _ ha.positions hb.positions h
  obtain ⟨htags, h⟩ := rawTags_eq ha hb hr hr' h
  refine ⟨?_, h⟩
  cases a
  cases b
  simp only [Prod.mk.injEq] at hsame hpriority hplacement htags ⊢
  grind

end Step

/-- **Rows are read back from their concatenation.** -/
theorem flatMap_encode_inj {es es' : List SourceEntry} (h : ∀ e ∈ es, Held e)
    (h' : ∀ e ∈ es', Held e) (heq : es.flatMap encode = es'.flatMap encode) : es = es' := by
  have hfollows {es : List SourceEntry} (h : ∀ e ∈ es, Held e) : Follows (es.flatMap encode) := by
    cases es with
    | nil => exact .inl rfl
    | cons e es => exact .inr ⟨e, _, h e mem_cons_self, flatMap_cons⟩
  have hpos (e : SourceEntry) : encode e ≠ [] := by simp [encode, u64, leBytes]
  induction es generalizing es' with
  | nil =>
    cases es' with
    | nil => rfl
    | cons e es' =>
      rw [flatMap_cons] at heq
      exact absurd (append_eq_nil_iff.mp heq.symm).1 (hpos e)
  | cons e es ih =>
    cases es' with
    | nil =>
      rw [flatMap_cons] at heq
      exact absurd (append_eq_nil_iff.mp heq).1 (hpos e)
    | cons e' es' =>
      rw [flatMap_cons, flatMap_cons] at heq
      have hes := forall_mem_cons.mp h
      have hes' := forall_mem_cons.mp h'
      obtain ⟨rfl, hrest⟩ := encode_step hes.1 hes'.1 (hfollows hes.2) (hfollows hes'.2) heq
      rw [ih hes.2 hes'.2 hrest]

end SourceEntry

/-- **What is hashed decides the rows** of two shard servers, whatever their
order. -/
theorem fingerprintBytes_eq_iff_perm {entries entries' : List SourceEntry}
    (h : ∀ e ∈ entries, e.Held) (h' : ∀ e ∈ entries', e.Held) :
    fingerprintBytes entries = fingerprintBytes entries' ↔ entries.Perm entries' := by
  refine ⟨fun heq => ?_, fingerprintBytes_perm⟩
  -- sorting the encodings is encoding the rows in the order of their encodings
  have hsorted : ∀ es : List SourceEntry, fingerprintBytes es =
      (es.mergeSort fun a b => a.encode ≤ b.encode).flatMap SourceEntry.encode := by
    intro es
    have hmap := map_mergeSort (f := SourceEntry.encode) (r := fun a b => a.encode ≤ b.encode)
      (s := (· ≤ ·)) (l := es) fun _ _ _ _ => rfl
    rw [fingerprintBytes, encodedEntries, ← hmap, flatMap_def]
  rw [hsorted, hsorted] at heq
  have hsame := SourceEntry.flatMap_encode_inj (fun e he => h e (mem_mergeSort.mp he))
    (fun e he => h' e (mem_mergeSort.mp he)) heq
  have hperm := (mergeSort_perm entries fun a b => a.encode ≤ b.encode).symm
  rw [hsame] at hperm
  exact hperm.trans (mergeSort_perm ..)

/-- A row outside any cluster, without tags. -/
def plainEntry (logical : UInt64) (version : UInt32) (dsl : String) (priority : Int64) :
    SourceEntry := ⟨logical, dsl, version, [], [], priority, .standalone⟩

/-- A tagged row of the second of four shards. -/
def placedEntry (logical : UInt64) (dsl : String) (priority : Int64) : SourceEntry :=
  ⟨logical, dsl, 1, [("k", "v")], [3], priority, ⟨1, 4, .selective, [1], rfl⟩⟩

theorem other_priority_other_bytes :
    fingerprintBytes [placedEntry 1 "a" 0, placedEntry 2 "b" 0] ≠
      fingerprintBytes [placedEntry 1 "a" 1, placedEntry 2 "b" 0] := by
  have hheld (logical : UInt64) (priority : Int64) (dsl : String) (h : dsl = "a" ∨ dsl = "b") :
      (placedEntry logical dsl priority).Held := by
    rcases h with rfl | rfl <;> constructor <;> simp [placedEntry] <;> decide
  have h := @fingerprintBytes_eq_iff_perm [placedEntry 1 "a" 0, placedEntry 2 "b" 0]
    [placedEntry 1 "a" 1, placedEntry 2 "b" 0]
    (by simp only [forall_mem_cons]; exact ⟨hheld _ _ _ (.inl rfl), hheld _ _ _ (.inr rfl), by simp⟩)
    (by simp only [forall_mem_cons]; exact ⟨hheld _ _ _ (.inl rfl), hheld _ _ _ (.inr rfl), by simp⟩)
  exact h.not.mpr (by decide)

/-- The id of the second row stands where the first row's priority would: two
contents, one with a priority and the other without, have one fingerprint. -/
theorem borrowed_id_collides :
    ∃ text, contentFingerprint128 [plainEntry 1 1 "" 0, plainEntry 2 1 text 0] 2 =
      contentFingerprint128 [plainEntry 1 1 "" 2, plainEntry (1 + 8 * 2 ^ 32) 0 "" 0] 2 ∧
    ¬ [plainEntry 1 1 "" 0, plainEntry 2 1 text 0].Perm
      [plainEntry 1 1 "" 2, plainEntry (1 + 8 * 2 ^ 32) 0 "" 0] := by
  have hpair : ∀ {a b : SourceEntry}, a.encode ≤ b.encode →
      fingerprintBytes [a, b] = a.encode ++ b.encode := fun h => by
    rw [fingerprintBytes, encodedEntries, mergeSort_of_pairwise (by simpa using h)]
    simp
  refine ⟨"\x00\x00\x00\x00\x00\x00\x00\x00", ?_, by decide⟩
  apply contentFingerprint128_congr (by rfl)
  rw [hpair (by decide), hpair (by decide)]
  decide

end ReverseRusty
