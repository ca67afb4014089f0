import ReverseRusty.Lib.Bytes
import ReverseRusty.Lib.Checksum

/-!
# ReverseRusty.FramedLog

The framing that the write-ahead log and the other logs share
(`storage/framed_log.rs`).  A record is a length, a checksum and a body; a
scan reads complete records and stops at a tail that can be cut off.

A tail that could hide a record is refused: the checks that decide this look
at nothing but the bytes, so a torn record is refused too when its body looks
like one (`frameHead_eq_stop`).
-/

namespace ReverseRusty

open List
open Codec (u32 dec_enc)

/-! ## frames -/

/-- The body of a record, as the log writers frame it: not empty, and short
enough for its length field. -/
structure LogBody where
  bytes : List UInt8
  ne_nil : bytes ≠ []
  length_lt : bytes.length < 2 ^ 32

/-- The bytes of a record behind a given length. -/
def frameWith (len : UInt32) (body : List UInt8) : List UInt8 :=
  u32.enc len ++ (u32.enc (crc32 body) ++ body)

def frame (body : List UInt8) : List UInt8 := frameWith (UInt32.ofNat body.length) body

/-- `write_frame`: the bytes handed to the one `write_all`. -/
def writeFrame (body : List UInt8) : Except String (List UInt8) :=
  if 2 ^ 32 ≤ body.length then .error "log record exceeds u32 length" else .ok (frame body)

def frameWord (tail : List UInt8) (off : Nat) : UInt32 :=
  u32.dec ((tail.drop off).take 4)

/-! ## tails that may be cut off -/

/-- The length of the record that would start at an offset of a tail, when
all of it is there; 0 otherwise. -/
def embeddedLen (tail : List UInt8) (off : Nat) : Nat :=
  if off + 8 + (frameWord tail off).toNat ≤ tail.length then (frameWord tail off).toNat else 0

/-- Look for a complete record at some offsets, within a budget of bytes to
checksum. -/
def searchFrames (tail : List UInt8) : Nat → List Nat → Except String Unit
  | _, [] => .ok ()
  | budget, off :: offs =>
    if embeddedLen tail off = 0 then searchFrames tail budget offs
    else if budget < embeddedLen tail off then
      .error "ambiguous log tail exceeds repair validation budget"
    else if crc32 ((tail.drop (off + 8)).take (embeddedLen tail off)) = frameWord tail (off + 4) then
      .error "damaged log prefix precedes a complete record; refusing repair"
    else searchFrames tail (budget - embeddedLen tail off) offs

/-- Bytes that may be checksummed at the offsets of a tail, after the one
pass over its payload. -/
def repairBudget (tail : List UInt8) : Nat := max (tail.length * 4) 64 - (tail.length - 8)

/-- The offsets at which a hidden record is looked for. -/
def suspectOffsets (tail : List UInt8) : List Nat := List.range' 1 (tail.length - 8)

def validateTornSuffix (tail : List UInt8) : Except String Unit :=
  if hasChecksumPrefix (frameWord tail 4) (tail.drop 8) then
    .error "complete log payload has a damaged length; refusing repair"
  else searchFrames tail (repairBudget tail) (suspectOffsets tail)

/-! ## the scan -/

/-- What stands at a position of a log. -/
inductive FrameHead where
  /-- nothing, zero padding, or a tail to cut off -/
  | stop
  | fail (error : String)
  | frame (body rest : List UInt8)

def frameHead (cursor : Nat) (tail : List UInt8) : FrameHead :=
  -- zero padding cannot be a record in any of the formats
  if tail.all (· == 0) then .stop
  else if tail.length < 8 then .stop
  else
    let len := (frameWord tail 0).toNat
    if tail.length < 8 + len then
      match validateTornSuffix tail with
      | .ok () => .stop
      | .error e => .fail e
    else
      let body := (tail.drop 8).take len
      if crc32 body = frameWord tail 4 then .frame body (tail.drop (8 + len))
      else .fail s!"log CRC mismatch at byte {cursor}"

structure FrameScan (ρ : Type) where
  records : List ρ
  /-- where the last complete record ends -/
  validLen : Nat
  tornBytes : Nat
deriving DecidableEq, Repr

section Scan

variable {ρ σ : Type} (decode : σ → List UInt8 → Except String (ρ × σ))

/-- The loop of the scan.  A record takes at least eight bytes, so as many
turns as there are bytes always suffice. -/
def scanFrames : Nat → Nat → σ → List UInt8 → Except String (List ρ × Nat)
  | 0, cursor, _, _ => .ok ([], cursor)
  | fuel + 1, cursor, s, tail =>
    match frameHead cursor tail with
    | .stop => .ok ([], cursor)
    | .fail e => .error e
    | .frame body rest =>
      match decode s body with
      | .error e => .error s!"invalid log record at byte {cursor}: {e}"
      | .ok (r, s) => do
        let (rs, last) ← scanFrames fuel (cursor + 8 + body.length) s rest
        return (r :: rs, last)

/-- **The scan of a log file**, with a decoder that carries a state from
record to record. -/
def scanRecords (headerLen : Nat) (s : σ) (data : List UInt8) : Except String (FrameScan ρ) :=
  if data.length < headerLen then .error "truncated log header"
  else do
    let (records, validLen) ← scanFrames decode data.length headerLen s (data.drop headerLen)
    return ⟨records, validLen, data.length - validLen⟩

def decodeAll : σ → List LogBody → Except String (List ρ × σ)
  | s, [] => .ok ([], s)
  | s, b :: bs => do
    let (r, s) ← decode s b.bytes
    let (rs, s) ← decodeAll s bs
    return (r :: rs, s)

end Scan

/-- `repair_tail`: the file after its torn bytes were cut off. -/
def repairTail (data : List UInt8) (validLen : Nat) : List UInt8 := data.take validLen

/-- Where a cut of some records falls: the records that are whole, and what
is left of the one that is not. -/
def cutFrames : List LogBody → Nat → List LogBody × List UInt8
  | [], _ => ([], [])
  | b :: bs, cut =>
    if (frame b.bytes).length ≤ cut then
      let (whole, torn) := cutFrames bs (cut - (frame b.bytes).length)
      (b :: whole, torn)
    else ([], (frame b.bytes).take cut)

def framesOf (bodies : List LogBody) : List UInt8 := bodies.flatMap fun b => frame b.bytes

/-- Nothing, or a part of a record that is not the whole of it. -/
def TornRecord (torn : List UInt8) : Prop :=
  torn = [] ∨ ∃ b : LogBody, ∃ n < (frame b.bytes).length, torn = (frame b.bytes).take n

/-! ## what stands where a record was framed -/

section Frames

variable {body rest tail : List UInt8} {len : UInt32} {cursor : Nat}

@[simp] theorem length_frameWith (len : UInt32) (body : List UInt8) :
    (frameWith len body).length = 8 + body.length := by
  simp only [frameWith, length_append, Codec.length_enc]
  rw [show u32.width = 4 from rfl, ← Nat.add_assoc]

theorem length_enc_u32 (w : UInt32) : (u32.enc w).length = 4 := Codec.length_enc _ _

@[simp] theorem frameWord_len : frameWord (frameWith len body ++ rest) 0 = len := by
  rw [frameWord, frameWith, drop_zero, append_assoc,
    take_left' (length_enc_u32 _), dec_enc]

@[simp] theorem frameWord_crc : frameWord (frameWith len body ++ rest) 4 = crc32 body := by
  rw [frameWord, frameWith, append_assoc, drop_left' (length_enc_u32 _),
    append_assoc, take_left' (length_enc_u32 _), dec_enc]

@[simp] theorem drop_frameWith : (frameWith len body ++ rest).drop 8 = body ++ rest := by
  have hhead : (u32.enc len ++ u32.enc (crc32 body)).length = 8 := by
    rw [length_append, length_enc_u32, length_enc_u32]
  rw [frameWith, ← append_assoc, append_assoc, drop_left' hhead]

theorem ofLeBytes_of_all_zero {bs : List UInt8} (h : bs.all (· == 0) = true) :
    ofLeBytes bs = 0 := by
  induction bs with
  | nil => rfl
  | cons b bs ih =>
    rw [all_cons, Bool.and_eq_true, beq_iff_eq] at h
    rw [ofLeBytes, h.1, ih h.2]
    rfl

theorem eq_zero_of_all_zero (h : (frameWith len body ++ rest).all (· == 0) = true) : len = 0 := by
  rw [frameWith, append_assoc, all_append, Bool.and_eq_true] at h
  have hlen : u32.dec (u32.enc len) = 0 :=
    congrArg UInt32.ofNat (ofLeBytes_of_all_zero h.1)
  rwa [dec_enc] at hlen

theorem LogBody.len_toNat (b : LogBody) : (UInt32.ofNat b.bytes.length).toNat = b.bytes.length :=
  UInt32.toNat_ofNat_of_lt' b.length_lt

theorem LogBody.len_ne_zero (b : LogBody) : UInt32.ofNat b.bytes.length ≠ 0 := by
  intro h
  have hzero := congrArg UInt32.toNat h
  rw [b.len_toNat] at hzero
  exact b.ne_nil (length_eq_zero_iff.mp hzero)

@[simp] theorem length_frame (body : List UInt8) : (frame body).length = 8 + body.length :=
  length_frameWith _ _

theorem frameHead_frame (b : LogBody) (rest : List UInt8) :
    frameHead cursor (frame b.bytes ++ rest) = .frame b.bytes rest := by
  have hzero : ¬ (frame b.bytes ++ rest).all (· == 0) = true := fun h =>
    b.len_ne_zero (eq_zero_of_all_zero h)
  have hlen : (frame b.bytes ++ rest).length = 8 + b.bytes.length + rest.length := by simp
  have hdrop : (frame b.bytes ++ rest).drop (8 + b.bytes.length) = rest :=
    drop_left' (length_frame _)
  rw [frameHead, if_neg hzero, if_neg (by omega)]
  simp only [frame, frameWord_len, b.len_toNat, frameWord_crc, drop_frameWith, take_left']
  rw [if_neg (by rw [← frame, hlen]; omega), if_pos trivial, ← frame, hdrop]

end Frames

/-! ## which tails are cut off -/

section Tails

variable {tail : List UInt8}

/-- A tail in which nothing looks like a record: no part of its payload has
the checksum in its header, no complete record starts behind its first byte,
and there are few enough places to look. -/
structure Unambiguous (tail : List UInt8) : Prop where
  payload : ∀ n, 0 < n → n ≤ tail.length - 8 → crc32 ((tail.drop 8).take n) ≠ frameWord tail 4
  frames : ∀ off ∈ suspectOffsets tail, embeddedLen tail off ≠ 0 →
    crc32 ((tail.drop (off + 8)).take (embeddedLen tail off)) ≠ frameWord tail (off + 4)
  work : ((suspectOffsets tail).map (embeddedLen tail)).sum ≤ repairBudget tail

theorem searchFrames_eq_ok {budget : Nat} {offs : List Nat} :
    searchFrames tail budget offs = .ok () ↔
      (∀ off ∈ offs, embeddedLen tail off ≠ 0 →
        crc32 ((tail.drop (off + 8)).take (embeddedLen tail off)) ≠ frameWord tail (off + 4)) ∧
      (offs.map (embeddedLen tail)).sum ≤ budget := by
  induction offs generalizing budget with
  | nil => simp [searchFrames]
  | cons off offs ih =>
    rw [searchFrames, forall_mem_cons, map_cons, sum_cons]
    by_cases hzero : embeddedLen tail off = 0
    · rw [if_pos hzero, ih, hzero]
      simp
    · rw [if_neg hzero]
      by_cases hbudget : budget < embeddedLen tail off
      · rw [if_pos hbudget]
        simp only [reduceCtorEq, false_iff, not_and, not_le]
        exact fun _ => by omega
      · rw [if_neg hbudget]
        by_cases hcrc : crc32 ((tail.drop (off + 8)).take (embeddedLen tail off)) =
            frameWord tail (off + 4)
        · rw [if_pos hcrc]
          simp [hzero, hcrc]
        · rw [if_neg hcrc, ih, and_assoc]
          simp only [ne_eq, hzero, not_false_eq_true, forall_const, hcrc, true_and]
          exact and_congr_right fun _ => by omega

theorem validateTornSuffix_eq_ok : validateTornSuffix tail = .ok () ↔ Unambiguous tail := by
  rw [validateTornSuffix]
  split
  · next hpre =>
    obtain ⟨n, hpos, hn, hcrc⟩ := hasChecksumPrefix_iff.mp hpre
    simp only [reduceCtorEq, false_iff]
    exact fun h => h.payload n hpos (by simpa using hn) hcrc
  · next hpre =>
    rw [searchFrames_eq_ok]
    constructor
    · rintro ⟨hframes, hwork⟩
      refine ⟨fun n hpos hn hcrc => hpre ?_, hframes, hwork⟩
      exact hasChecksumPrefix_iff.mpr ⟨n, hpos, by simpa using hn, hcrc⟩
    · exact fun h => ⟨h.frames, h.work⟩

/-- A tail the scan cuts off. -/
def Recoverable (tail : List UInt8) : Prop :=
  tail.all (· == 0) = true ∨ tail.length < 8 ∨
    tail.length < 8 + (frameWord tail 0).toNat ∧ Unambiguous tail

/-- **The scan stops exactly at the tails that can be cut off.** -/
theorem frameHead_eq_stop (cursor : Nat) : frameHead cursor tail = .stop ↔ Recoverable tail := by
  rw [frameHead, Recoverable]
  by_cases hzero : tail.all (· == 0) = true
  · simp [hzero]
  · rw [if_neg hzero]
    by_cases hshort : tail.length < 8
    · simp [hshort]
    · rw [if_neg hshort]
      by_cases hlen : tail.length < 8 + (frameWord tail 0).toNat
      · simp only [hlen, if_true, hzero, hshort, false_or, true_and]
        rw [← validateTornSuffix_eq_ok]
        split <;> simp_all
      · simp only [hlen, if_false, hzero, hshort, false_or, false_and]
        split <;> simp

end Tails

/-! ## scanning framed records -/

section Scanning

variable {ρ σ : Type} {decode : σ → List UInt8 → Except String (ρ × σ)} {s s' : σ}
  {bodies : List LogBody} {recs : List ρ} {fuel cursor : Nat} {header tail : List UInt8}

theorem framesOf_cons (b : LogBody) (bs : List LogBody) :
    framesOf (b :: bs) = frame b.bytes ++ framesOf bs := flatMap_cons

theorem framesOf_append (bs bs' : List LogBody) :
    framesOf (bs ++ bs') = framesOf bs ++ framesOf bs' := flatMap_append

theorem length_le_framesOf (bodies : List LogBody) : bodies.length ≤ (framesOf bodies).length := by
  induction bodies with
  | nil => exact Nat.le_refl 0
  | cons b bs ih =>
    rw [framesOf_cons, length_append, length_frame, length_cons]
    omega

theorem scanFrames_frame (b : LogBody) (rest : List UInt8) :
    scanFrames decode (fuel + 1) cursor s (frame b.bytes ++ rest) =
      match decode s b.bytes with
      | .error e => .error s!"invalid log record at byte {cursor}: {e}"
      | .ok (r, s') => do
        let (rs, last) ← scanFrames decode fuel (cursor + (frame b.bytes).length) s' rest
        return (r :: rs, last) := by
  rw [scanFrames, frameHead_frame, length_frame, ← Nat.add_assoc]

theorem scanFrames_framesOf (hdec : decodeAll decode s bodies = .ok (recs, s'))
    (hfuel : bodies.length ≤ fuel) (tail : List UInt8) :
    scanFrames decode fuel cursor s (framesOf bodies ++ tail) = do
      let (rs, last) ← scanFrames decode (fuel - bodies.length)
        (cursor + (framesOf bodies).length) s' tail
      return (recs ++ rs, last) := by
  induction bodies generalizing s recs fuel cursor with
  | nil =>
    cases hdec
    cases hrest : scanFrames decode fuel cursor s' tail <;>
      simp [framesOf, hrest, bind, Except.bind, pure, Except.pure]
  | cons b bs ih =>
    simp only [decodeAll, bind_eq_ok, Prod.exists] at hdec
    obtain ⟨r, s₁, hb, rs, s₂, hbs, hout⟩ := hdec
    cases hout
    obtain ⟨fuel, rfl⟩ := Nat.exists_eq_add_one_of_ne_zero (Nat.ne_zero_of_lt hfuel)
    rw [framesOf_cons, append_assoc, scanFrames_frame, hb]
    simp only
    rw [ih hbs (Nat.le_of_succ_le_succ hfuel), length_append, ← Nat.add_assoc,
      length_cons, Nat.add_sub_add_right]
    cases hrest : scanFrames decode (fuel - bs.length)
        (cursor + (frame b.bytes).length + (framesOf bs).length) s' tail <;>
      simp [bind, Except.bind, pure, Except.pure]

theorem scanFrames_of_stop (h : frameHead cursor tail = .stop) :
    scanFrames decode fuel cursor s tail = .ok ([], cursor) := by
  cases fuel with
  | zero => rfl
  | succ fuel => rw [scanFrames, h]

theorem scanRecords_append (header rest : List UInt8) :
    scanRecords decode header.length s (header ++ rest) = do
      let (records, validLen) ← scanFrames decode (header ++ rest).length header.length s rest
      return ⟨records, validLen, (header ++ rest).length - validLen⟩ := by
  rw [scanRecords, if_neg (by simp), drop_left]

/-- **Whole records before a tail that can be cut off are all read.** -/
theorem scanRecords_of_recoverable (header : List UInt8)
    (hdec : decodeAll decode s bodies = .ok (recs, s'))
    (htail : Recoverable tail) :
    scanRecords decode header.length s (header ++ (framesOf bodies ++ tail)) =
      .ok ⟨recs, header.length + (framesOf bodies).length, tail.length⟩ := by
  have hlen := length_le_framesOf bodies
  have hfuel : bodies.length ≤ (header ++ (framesOf bodies ++ tail)).length := by
    simp only [length_append]
    omega
  rw [scanRecords_append, scanFrames_framesOf hdec hfuel,
    scanFrames_of_stop ((frameHead_eq_stop _).mpr htail)]
  simp only [ok_bind, pure, Except.pure, append_nil, length_append]
  congr 2
  omega

theorem scanFrames_of_fail (htail : ∀ cursor, ∃ e, frameHead cursor tail = .fail e)
    (hfuel : bodies.length < fuel) :
    ∃ e, scanFrames decode fuel cursor s (framesOf bodies ++ tail) = .error e := by
  induction bodies generalizing fuel cursor s with
  | nil =>
    obtain ⟨fuel, rfl⟩ := Nat.exists_eq_add_one_of_ne_zero (Nat.ne_zero_of_lt hfuel)
    obtain ⟨e, he⟩ := htail cursor
    exact ⟨e, by rw [framesOf, flatMap_nil, nil_append, scanFrames, he]⟩
  | cons b bs ih =>
    obtain ⟨fuel, rfl⟩ := Nat.exists_eq_add_one_of_ne_zero (Nat.ne_zero_of_lt hfuel)
    rw [framesOf_cons, append_assoc, scanFrames_frame]
    cases hb : decode s b.bytes with
    | error e => exact ⟨_, rfl⟩
    | ok r =>
      obtain ⟨e, he⟩ : ∃ e, scanFrames decode fuel (cursor + (frame b.bytes).length) r.2
          (framesOf bs ++ tail) = .error e := ih (Nat.lt_of_succ_lt_succ hfuel)
      exact ⟨e, by simp only [he]; rfl⟩

theorem scanRecords_of_fail (htail : ∀ cursor, ∃ e, frameHead cursor tail = .fail e) :
    ∃ e, scanRecords decode header.length s (header ++ (framesOf bodies ++ tail)) = .error e := by
  have hlen := length_le_framesOf bodies
  have hne : tail ≠ [] := by
    rintro rfl
    obtain ⟨e, he⟩ := htail 0
    simp [frameHead] at he
  have hpos := length_pos_iff.mpr hne
  have hfuel : bodies.length < (header ++ (framesOf bodies ++ tail)).length := by
    simp only [length_append]
    omega
  obtain ⟨e, he⟩ : ∃ e, scanFrames decode (header ++ (framesOf bodies ++ tail)).length
      header.length s (framesOf bodies ++ tail) = .error e := scanFrames_of_fail htail hfuel
  exact ⟨e, by rw [scanRecords_append, he]; rfl⟩

end Scanning

/-! ## a log cut anywhere -/

section Cut

variable {bodies whole : List LogBody} {torn : List UInt8} {cut : Nat}

theorem cutFrames_spec (h : cutFrames bodies cut = (whole, torn)) :
    (framesOf bodies).take cut = framesOf whole ++ torn ∧ whole <+: bodies ∧ TornRecord torn := by
  induction bodies generalizing cut whole torn with
  | nil =>
    cases h
    exact ⟨by simp [framesOf], prefix_rfl, .inl rfl⟩
  | cons b bs ih =>
    rw [cutFrames] at h
    split at h
    · next hle =>
      generalize hcut : cutFrames bs (cut - (frame b.bytes).length) = rest at h
      obtain ⟨whole', torn'⟩ := rest
      cases h
      obtain ⟨htake, hpre, htorn⟩ := ih hcut
      refine ⟨?_, (cons_prefix_cons).mpr ⟨rfl, hpre⟩, htorn⟩
      rw [framesOf_cons, framesOf_cons, take_append, htake,
        take_of_length_le hle, append_assoc]
    · next hle =>
      cases h
      refine ⟨?_, nil_prefix, .inr ⟨b, cut, not_le.mp hle, rfl⟩⟩
      rw [framesOf_cons, take_append_of_le_length (le_of_not_ge hle)]
      rfl

theorem frameWord_take (b : LogBody) {n : Nat} (h : 4 ≤ n) :
    (frameWord ((frame b.bytes).take n) 0).toNat = b.bytes.length := by
  have hword : frameWord ((frame b.bytes).take n) 0 = frameWord (frame b.bytes ++ []) 0 := by
    rw [frameWord, frameWord, append_nil, drop_zero, drop_zero, take_take,
      Nat.min_eq_left h]
  rw [hword, frame, frameWord_len, b.len_toNat]

/-- A torn record is cut off exactly when nothing in it looks like a record,
and refused otherwise. -/
theorem frameHead_torn (h : TornRecord torn) :
    (Recoverable torn ↔ torn.length < 8 ∨ Unambiguous torn) ∧
      (¬ Recoverable torn → ∀ cursor, ∃ e, frameHead cursor torn = .fail e) := by
  obtain rfl | ⟨b, n, hn, rfl⟩ := h
  · simp [Recoverable]
  · have hlen : ((frame b.bytes).take n).length = n := length_take_of_le hn.le
    by_cases hshort : n < 8
    · have hrec : Recoverable ((frame b.bytes).take n) := .inr (.inl (hlen.symm ▸ hshort))
      exact ⟨iff_of_true hrec (.inl (hlen.symm ▸ hshort)), fun hno => absurd hrec hno⟩
    · have hword := frameWord_take b (n := n) (by omega)
      have hdeclares : n < 8 + b.bytes.length := length_frame b.bytes ▸ hn
      have hzero : ((frame b.bytes).take n).all (· == 0) = false := by
        rw [Bool.eq_false_iff]
        intro hall
        have hfront : ofLeBytes (((frame b.bytes).take n).take 4) = 0 := ofLeBytes_of_all_zero
          (all_eq_true.mpr fun x hx => all_eq_true.mp hall x (mem_of_mem_take hx))
        rw [frameWord, drop_zero] at hword
        have hzero := congrArg (fun k => (UInt32.ofNat k).toNat) hfront
        exact b.ne_nil (length_eq_zero_iff.mp (hword.symm.trans hzero))
      refine ⟨by simp [Recoverable, hlen, hshort, hzero, hword, hdeclares], fun hno cursor => ?_⟩
      rw [← frameHead_eq_stop cursor] at hno
      rw [frameHead, hzero, hlen] at hno ⊢
      simp only [Bool.false_eq_true, if_false, hshort, hword, hdeclares, if_true] at hno ⊢
      cases hval : validateTornSuffix ((frame b.bytes).take n) with
      | ok u => simp [hval] at hno
      | error e => exact ⟨e, rfl⟩

theorem decodeAll_append {ρ σ : Type} {decode : σ → List UInt8 → Except String (ρ × σ)}
    {s s' : σ} {bs bs' : List LogBody} {recs : List ρ} :
    decodeAll decode s (bs ++ bs') = .ok (recs, s') ↔
      ∃ rs s₁ rs', decodeAll decode s bs = .ok (rs, s₁) ∧
        decodeAll decode s₁ bs' = .ok (rs', s') ∧ recs = rs ++ rs' := by
  induction bs generalizing s recs with
  | nil =>
    rw [nil_append]
    constructor
    · exact fun h => ⟨[], s, recs, rfl, h, rfl⟩
    · rintro ⟨rs, s₁, rs', hnil, h, rfl⟩
      cases hnil
      exact h
  | cons b bs ih =>
    simp only [cons_append, decodeAll, bind_eq_ok, Prod.exists]
    constructor
    · rintro ⟨r, s₁, hb, all, s₂, hall, hout⟩
      cases hout
      obtain ⟨rs, s₃, rs', hbs, hbs', rfl⟩ := ih.mp hall
      exact ⟨r :: rs, s₃, rs', ⟨r, s₁, hb, rs, s₃, hbs, rfl⟩, hbs', rfl⟩
    · rintro ⟨_, s₁, rs', ⟨r, s₂, hb, rs, s₃, hbs, hout⟩, hbs', rfl⟩
      cases hout
      exact ⟨r, s₂, hb, rs ++ rs', s', ih.mpr ⟨rs, s₁, rs', hbs, hbs', rfl⟩, rfl⟩

theorem length_decodeAll {ρ σ : Type} {decode : σ → List UInt8 → Except String (ρ × σ)}
    {s s' : σ} {bs : List LogBody} {recs : List ρ} (h : decodeAll decode s bs = .ok (recs, s')) :
    recs.length = bs.length := by
  induction bs generalizing s recs with
  | nil =>
    cases h
    rfl
  | cons b bs ih =>
    simp only [decodeAll, bind_eq_ok, Prod.exists] at h
    obtain ⟨r, s₁, -, rs, s₂, hbs, hout⟩ := h
    cases hout
    rw [length_cons, length_cons, ih hbs]

end Cut

theorem recoverable_nil : Recoverable [] := .inl rfl

/-- **A log cut anywhere behind its header reopens unless its torn record
looks like more than a torn record.**  When the tail, with any zero padding
behind it, can be cut off, the scan returns exactly the records whose frames
are whole, and records appended after the repair are read behind them.
Without padding a torn record can be cut off when it has less than a header
or nothing in it looks like a record; otherwise the scan fails. -/
theorem scanRecords_cut {ρ σ : Type} (decode : σ → List UInt8 → Except String (ρ × σ)) (s : σ)
    (header : List UInt8) (bodies : List LogBody) {recs : List ρ} {s' : σ}
    (hdec : decodeAll decode s bodies = .ok (recs, s')) (cut zeros : Nat) {whole : List LogBody}
    {torn : List UInt8} (hcut : cutFrames bodies cut = (whole, torn)) :
    ∃ s₁, decodeAll decode s whole = .ok (recs.take whole.length, s₁) ∧
      (Recoverable (torn ++ List.replicate zeros 0) →
        scanRecords decode header.length s
            ((header ++ framesOf bodies).take (header.length + cut) ++ List.replicate zeros 0) =
          .ok ⟨recs.take whole.length, header.length + (framesOf whole).length,
            torn.length + zeros⟩ ∧
        ∀ more recs' s₂, decodeAll decode s₁ more = .ok (recs', s₂) →
          scanRecords decode header.length s
              (repairTail
                ((header ++ framesOf bodies).take (header.length + cut) ++ List.replicate zeros 0)
                (header.length + (framesOf whole).length) ++ framesOf more) =
            .ok ⟨recs.take whole.length ++ recs', header.length + (framesOf (whole ++ more)).length,
              0⟩) ∧
      (Recoverable torn ↔ torn.length < 8 ∨ Unambiguous torn) ∧
      (¬ Recoverable torn → ∃ e, scanRecords decode header.length s
        ((header ++ framesOf bodies).take (header.length + cut)) = .error e) := by
  obtain ⟨htake, ⟨rest, rfl⟩, htorn⟩ := cutFrames_spec hcut
  obtain ⟨rs, s₁, rs', hwhole, -, rfl⟩ := decodeAll_append.mp hdec
  have hrecs : (rs ++ rs').take whole.length = rs := take_left' (length_decodeAll hwhole)
  have hfile : (header ++ framesOf (whole ++ rest)).take (header.length + cut) =
      header ++ (framesOf whole ++ torn) := by
    rw [take_length_add_append, htake]
  rw [hrecs, hfile]
  refine ⟨s₁, hwhole, fun htail => ⟨?_, fun more recs' s₂ hmore => ?_⟩, (frameHead_torn htorn).1,
    fun hno => scanRecords_of_fail ((frameHead_torn htorn).2 hno)⟩
  · have hscan := scanRecords_of_recoverable header hwhole htail
    rw [length_append, length_replicate] at hscan
    simpa only [append_assoc] using hscan
  · have hrepair : repairTail (header ++ (framesOf whole ++ torn) ++ List.replicate zeros 0)
        (header.length + (framesOf whole).length) = header ++ framesOf whole := by
      rw [repairTail, ← append_assoc header, append_assoc, take_left'
        (length_append)]
    have hall := decodeAll_append.mpr ⟨rs, s₁, recs', hwhole, hmore, rfl⟩
    have hscan := scanRecords_of_recoverable header hall recoverable_nil
    rw [hrepair, append_assoc, ← framesOf_append]
    simpa only [append_nil, length_nil] using hscan

def oneByte (b : UInt8) : LogBody := ⟨[b], by simp, by simp⟩

theorem scanRecords_cut_two :
    scanRecords (fun (_ : Unit) body => .ok (body, ())) 0 ()
      ((framesOf [oneByte 1, oneByte 2]).take 13) = .ok ⟨[[1]], 9, 4⟩ := by
  obtain ⟨_, -, hscan, -⟩ := scanRecords_cut (fun (_ : Unit) body => .ok (body, ())) () []
    [oneByte 1, oneByte 2] rfl 13 0
    (show cutFrames [oneByte 1, oneByte 2] 13 = ([oneByte 1], [1, 0, 0, 0]) from rfl)
  exact (hscan (.inr (.inl (by decide)))).1

/-! ## a damaged length -/

section Damaged

variable {len : UInt32} {rest : List UInt8}

/-- A record whose length was changed is refused, when no other bytes behind
its header have its checksum. -/
theorem frameHead_damaged (b : LogBody) (hlen : len ≠ UInt32.ofNat b.bytes.length)
    (hcrc : ∀ n, crc32 ((b.bytes ++ rest).take n) = crc32 b.bytes → (b.bytes ++ rest).take n = b.bytes)
    (cursor : Nat) : ∃ e, frameHead cursor (frameWith len b.bytes ++ rest) = .fail e := by
  have hzero : ¬ (frameWith len b.bytes ++ rest).all (· == 0) = true := by
    intro hall
    have hsum : crc32 b.bytes = 0 := by
      rw [← @frameWord_crc b.bytes rest len, frameWord]
      refine congrArg UInt32.ofNat (ofLeBytes_of_all_zero (all_eq_true.mpr fun x hx => ?_))
      exact all_eq_true.mp hall x (mem_of_mem_drop (mem_of_mem_take hx))
    have hempty : crc32 [] = 0 := by decide
    exact b.ne_nil (hcrc 0 (hempty.trans hsum.symm)).symm
  have hlength : (frameWith len b.bytes ++ rest).length = 8 + (b.bytes ++ rest).length := by
    simp [Nat.add_assoc]
  rw [frameHead, if_neg hzero, if_neg (by omega)]
  simp only [frameWord_len, frameWord_crc, drop_frameWith]
  split
  · -- the payload in front of the declared end has the stored checksum
    have hpre : hasChecksumPrefix (crc32 b.bytes) (b.bytes ++ rest) = true :=
      hasChecksumPrefix_iff.mpr ⟨b.bytes.length, length_pos_iff.mpr b.ne_nil, by simp,
        by rw [take_left]⟩
    rw [validateTornSuffix, frameWord_crc, drop_frameWith, if_pos hpre]
    exact ⟨_, rfl⟩
  · next hfits =>
    split
    · next hsum =>
      have hbody := congrArg List.length (hcrc _ hsum)
      rw [length_take, Nat.min_eq_left (by omega)] at hbody
      exact absurd (by rw [← hbody, UInt32.ofNat_toNat]) hlen
    · exact ⟨_, rfl⟩

/-- **A changed length never hides a record.**  Whatever the length of one
record is changed to, the scan fails, as long as no two different ranges of
the file have one checksum. -/
theorem scanRecords_damaged {ρ σ : Type} (decode : σ → List UInt8 → Except String (ρ × σ)) (s : σ)
    (header : List UInt8) (before after : List LogBody) (b : LogBody)
    (hcrc : ∀ x y, x <:+: header ++ framesOf (before ++ b :: after) →
      y <:+: header ++ framesOf (before ++ b :: after) → crc32 x = crc32 y → x = y)
    (len : UInt32) (hlen : len ≠ UInt32.ofNat b.bytes.length) :
    ∃ e, scanRecords decode header.length s
      (header ++ (framesOf before ++ (frameWith len b.bytes ++ framesOf after))) = .error e := by
  refine scanRecords_of_fail fun cursor => frameHead_damaged b hlen (fun n hsum => ?_) cursor
  have hfile : header ++ framesOf (before ++ b :: after) =
      header ++ framesOf before ++
        (u32.enc (UInt32.ofNat b.bytes.length) ++ u32.enc (crc32 b.bytes)) ++
        (b.bytes ++ framesOf after) := by
    simp [framesOf_append, framesOf_cons, frame, frameWith]
  have hpayload : b.bytes ++ framesOf after <:+: header ++ framesOf (before ++ b :: after) :=
    hfile ▸ (suffix_append _ _).isInfix
  exact hcrc _ _ (IsInfix.trans ⟨[], _, by rw [nil_append, take_append_drop]⟩ hpayload)
    ((prefix_append _ _).isInfix.trans hpayload) hsum

end Damaged

/-- The second of two records behind a header, its length changed to zero. -/
theorem scanRecords_damaged_zero :
    ∃ e, scanRecords (fun (_ : Unit) body => .ok (body, ())) 1 ()
      ([7] ++ (framesOf [oneByte 1] ++ (frameWith 0 [2] ++ framesOf []))) = .error e := by
  refine scanRecords_damaged _ () [7] [oneByte 1] [] (oneByte 2) (fun x y hx hy => ?_) 0 (by decide)
  let file : List UInt8 := [7] ++ framesOf [oneByte 1, oneByte 2]
  have hdistinct : ((file.tails.flatMap List.inits).dedup.map crc32).Nodup := by
    decide +kernel
  have hranges : ∀ z : List UInt8, z <:+: file →
      z ∈ (file.tails.flatMap List.inits).dedup := fun z hz => by
    obtain ⟨t, hpre, hsuf⟩ := infix_iff_prefix_suffix.mp hz
    exact mem_dedup.mpr (mem_flatMap.mpr
      ⟨t, (mem_tails _ _).mpr hsuf, (mem_inits _ _).mpr hpre⟩)
  exact inj_on_of_nodup_map hdistinct (hranges x hx) (hranges y hy)

end ReverseRusty
