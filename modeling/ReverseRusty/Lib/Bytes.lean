import ReverseRusty.Lib.Outcome

/-!
# ReverseRusty.Lib.Bytes

Aligned binary layouts: little-endian words, length-prefixed arrays padded
to eight bytes, and reading them back from an offset of a larger buffer.

* `Codec` — fixed-width encodings, each carrying its round trip.
* `HoldsAt` — a buffer holds given bytes at an offset; it splits along
  appends, which is how a section layout is walked.
* `readArray_holdsAt` — a reader started where an array was laid down
  returns the array and the offset right behind it.
* `Scan` — readers that advance an offset, and `Lays`: what a reader makes
  of the bytes it was written for.  `Lays.bind` composes layouts along the
  reader's own steps.
-/

namespace ReverseRusty

open List

/-! ## little-endian words -/

/-- The `w` little-endian bytes of a number. -/
def leBytes : Nat → Nat → List UInt8
  | 0, _ => []
  | w + 1, n => UInt8.ofNat n :: leBytes w (n / 256)

/-- The number of a little-endian byte string. -/
def ofLeBytes : List UInt8 → Nat
  | [] => 0
  | b :: bs => b.toNat + 256 * ofLeBytes bs

@[simp] theorem length_leBytes (w n : Nat) : (leBytes w n).length = w := by
  induction w generalizing n with
  | zero => rfl
  | succ w ih => rw [leBytes, length_cons, ih]

theorem ofLeBytes_leBytes {w n : Nat} (h : n < 256 ^ w) : ofLeBytes (leBytes w n) = n := by
  induction w generalizing n with
  | zero =>
    rw [Nat.pow_zero, Nat.lt_one_iff] at h
    rw [h, leBytes, ofLeBytes]
  | succ w ih =>
    have hdiv : n / 256 < 256 ^ w := by
      rw [Nat.div_lt_iff_lt_mul (by decide), ← Nat.pow_succ]
      exact h
    rw [leBytes, ofLeBytes, ih hdiv, UInt8.toNat_ofNat']
    exact Nat.mod_add_div n 256

/-! ## fixed-width codecs -/

/-- A fixed-width encoding. -/
structure Codec (α : Type*) where
  width : Nat
  enc : α → List UInt8
  dec : List UInt8 → α
  length_enc : ∀ a, (enc a).length = width
  dec_enc : ∀ a, dec (enc a) = a

attribute [simp] Codec.length_enc Codec.dec_enc

namespace Codec

def u8 : Codec UInt8 where
  width := 1
  enc x := leBytes 1 x.toNat
  dec bs := UInt8.ofNat (ofLeBytes bs)
  length_enc _ := length_leBytes ..
  dec_enc x := by rw [ofLeBytes_leBytes x.toNat_lt, UInt8.ofNat_toNat]

def u16 : Codec UInt16 where
  width := 2
  enc x := leBytes 2 x.toNat
  dec bs := UInt16.ofNat (ofLeBytes bs)
  length_enc _ := length_leBytes ..
  dec_enc x := by rw [ofLeBytes_leBytes x.toNat_lt, UInt16.ofNat_toNat]

def u32 : Codec UInt32 where
  width := 4
  enc x := leBytes 4 x.toNat
  dec bs := UInt32.ofNat (ofLeBytes bs)
  length_enc _ := length_leBytes ..
  dec_enc x := by rw [ofLeBytes_leBytes x.toNat_lt, UInt32.ofNat_toNat]

def u64 : Codec UInt64 where
  width := 8
  enc x := leBytes 8 x.toNat
  dec bs := UInt64.ofNat (ofLeBytes bs)
  length_enc _ := length_leBytes ..
  dec_enc x := by rw [ofLeBytes_leBytes x.toNat_lt, UInt64.ofNat_toNat]

/-- Signed words share the representation of unsigned ones. -/
def i64 : Codec Int64 where
  width := 8
  enc x := u64.enc x.toUInt64
  dec bs := (u64.dec bs).toInt64
  length_enc x := u64.length_enc _
  dec_enc x := by
    rw [u64.dec_enc]
    rfl

/-- Mask words share the representation of unsigned ones. -/
def bits64 : Codec (BitVec 64) where
  width := 8
  enc x := u64.enc ⟨x⟩
  dec bs := (u64.dec bs).toBitVec
  length_enc x := u64.length_enc _
  dec_enc x := by rw [u64.dec_enc]

end Codec

/-! ## bytes at an offset -/

/-- A buffer holds `bs` at offset `off`. -/
def HoldsAt (data : List UInt8) (off : Nat) (bs : List UInt8) : Prop := bs <+: data.drop off

theorem holdsAt_append (pre bs post : List UInt8) : HoldsAt (pre ++ bs ++ post) pre.length bs := by
  rw [HoldsAt, append_assoc, drop_left]
  exact prefix_append bs post

theorem HoldsAt.split {data a b : List UInt8} {off : Nat} (h : HoldsAt data off (a ++ b)) :
    HoldsAt data off a ∧ HoldsAt data (off + a.length) b := by
  obtain ⟨rest, hrest⟩ := h
  refine ⟨⟨b ++ rest, by rw [← hrest, append_assoc]⟩, ⟨rest, ?_⟩⟩
  rw [← drop_drop, ← hrest, append_assoc, drop_left]

theorem HoldsAt.end_le {data bs : List UInt8} {off : Nat} (h : HoldsAt data off bs)
    (hoff : off ≤ data.length) : off + bs.length ≤ data.length := by
  have hle := List.IsPrefix.length_le h
  rw [length_drop] at hle
  omega

theorem HoldsAt.take {data bs : List UInt8} {off : Nat} (h : HoldsAt data off bs) :
    (data.drop off).take bs.length = bs :=
  (prefix_iff_eq_take.mp h).symm

/-- Element `k` of a run of fixed-width pieces. -/
theorem HoldsAt.piece {β : Type*} {enc : β → List UInt8} {w : Nat} (hw : ∀ x, (enc x).length = w)
    {data : List UInt8} {off k : Nat} {xs : List β} {x : β}
    (h : HoldsAt data off (xs.flatMap enc)) (hk : xs[k]? = some x) :
    HoldsAt data (off + k * w) (enc x) := by
  induction xs generalizing off k with
  | nil => contradiction
  | cons y ys ih =>
    rw [flatMap_cons] at h
    obtain ⟨hy, hys⟩ := h.split
    cases k with
    | zero =>
      cases hk
      rwa [Nat.zero_mul, Nat.add_zero]
    | succ k =>
      have := ih hys hk
      rwa [hw, Nat.add_assoc, Nat.add_comm w, ← Nat.succ_mul] at this

/-! ## reading words -/

/-- Read one word, or fail when the buffer ends first. -/
def readAt {α : Type} (c : Codec α) (error : String) (data : List UInt8) (off : Nat) :
    Except String α :=
  if off + c.width ≤ data.length then .ok (c.dec ((data.drop off).take c.width)) else .error error

theorem readAt_holdsAt {α : Type} {c : Codec α} {error : String} {data : List UInt8} {off : Nat}
    {a : α} (h : HoldsAt data off (c.enc a)) (hoff : off ≤ data.length) :
    readAt c error data off = .ok a := by
  have hlen := h.end_le hoff
  have htake := h.take
  rw [c.length_enc] at hlen htake
  rw [readAt, if_pos hlen, htake, c.dec_enc]

/-! ## alignment -/

/-- A byte offset rounded up to the next multiple of eight. -/
def align8 (pos : Nat) : Nat := (pos + 7) / 8 * 8

/-- Append zero bytes up to the next multiple of eight. -/
def padTo8 (w : List UInt8) : List UInt8 := w ++ List.replicate (align8 w.length - w.length) 0

theorem padTo8_eq_self {w : List UInt8} (h : w.length % 8 = 0) : padTo8 w = w := by
  have : align8 w.length - w.length = 0 := by
    unfold align8
    omega
  rw [padTo8, this, replicate_zero, append_nil]

theorem length_padTo8 (w : List UInt8) : (padTo8 w).length = align8 w.length := by
  rw [padTo8, length_append, length_replicate]
  unfold align8
  omega

theorem length_padTo8_mod (w : List UInt8) : (padTo8 w).length % 8 = 0 := by
  rw [length_padTo8, align8]
  omega

/-! ## arrays -/

section Arrays

variable {α : Type} (c : Codec α)

/-- Bytes before the elements: the count, padded to eight bytes when the
elements are that wide. -/
def arrayHeader : Nat := if c.width < 8 then 4 else 8

/-- A length-prefixed array, padded to eight bytes. -/
def encodeArray (xs : List α) : List UInt8 :=
  padTo8 (Codec.u32.enc (UInt32.ofNat xs.length) ++ List.replicate (arrayHeader c - 4) 0
    ++ xs.flatMap c.enc)

/-- Append an array to an output stream. -/
def writeArray (w : List UInt8) (xs : List α) : List UInt8 :=
  padTo8 (w ++ Codec.u32.enc (UInt32.ofNat xs.length) ++ List.replicate (arrayHeader c - 4) 0
    ++ xs.flatMap c.enc)

/-- Decode `n` consecutive elements. -/
def decodeRun : Nat → List UInt8 → List α
  | 0, _ => []
  | n + 1, bs => c.dec (bs.take c.width) :: decodeRun n (bs.drop c.width)

/-- Check that a section of `count` elements fits the address space and the
buffer, and return its end. -/
def checkedSectionEnd (data : List UInt8) (dataOff count elemBytes : Nat) : Except String Nat :=
  if 2 ^ 64 ≤ count * elemBytes then .error "segment section length overflows usize"
  else if 2 ^ 64 ≤ dataOff + count * elemBytes then
    .error "segment section offset overflows usize"
  else if data.length < dataOff + count * elemBytes then
    .error "segment section extends past end of file"
  else .ok (dataOff + count * elemBytes)

def readArray (data : List UInt8) (off : Nat) : Except String (List α × Nat) := do
  let count ← readAt Codec.u32 "truncated u32" data off
  let dataOff := off + arrayHeader c
  let dataEnd ← checkedSectionEnd data dataOff count.toNat c.width
  return (decodeRun c count.toNat (data.drop dataOff), align8 dataEnd)

variable {c}

theorem length_flatMap_enc (xs : List α) : (xs.flatMap c.enc).length = xs.length * c.width := by
  induction xs with
  | nil => simp
  | cons x xs ih =>
    rw [flatMap_cons, length_append, ih, c.length_enc, length_cons]
    ring

theorem length_encodeArray_mod (xs : List α) : (encodeArray c xs).length % 8 = 0 :=
  length_padTo8_mod _

theorem length_encodeArray (xs : List α) :
    (encodeArray c xs).length = align8 (arrayHeader c + xs.length * c.width) := by
  have hheader : 4 ≤ arrayHeader c := by
    unfold arrayHeader
    split <;> omega
  rw [encodeArray, length_padTo8]
  simp only [length_append, length_replicate, length_flatMap_enc, Codec.length_enc]
  rw [show Codec.u32.width = 4 from rfl, Nat.add_sub_cancel' hheader]

theorem writeArray_eq {w : List UInt8} (hw : w.length % 8 = 0) (xs : List α) :
    writeArray c w xs = w ++ encodeArray c xs := by
  have hpad : ∀ bs : List UInt8, padTo8 (w ++ bs) = w ++ padTo8 bs := by
    intro bs
    have hlen : align8 (w ++ bs).length - (w ++ bs).length = align8 bs.length - bs.length := by
      rw [length_append]
      unfold align8
      omega
    rw [padTo8, padTo8, hlen, append_assoc]
  rw [writeArray, encodeArray, append_assoc, append_assoc, hpad, ← append_assoc]

theorem length_decodeRun (n : Nat) (bs : List UInt8) : (decodeRun c n bs).length = n := by
  induction n generalizing bs with
  | zero => rfl
  | succ n ih => rw [decodeRun, length_cons, ih]

theorem decodeRun_append (xs : List α) (rest : List UInt8) :
    decodeRun c xs.length (xs.flatMap c.enc ++ rest) = xs := by
  induction xs with
  | nil => rfl
  | cons x xs ih =>
    have hlen := c.length_enc x
    rw [flatMap_cons, length_cons, decodeRun, append_assoc,
      take_left' hlen, drop_left' hlen, c.dec_enc, ih]

/-- **A reader started where an array was laid down returns the array and
the offset right behind it.** -/
theorem readArray_holdsAt {data : List UInt8} {off : Nat} {xs : List α}
    (h : HoldsAt data off (encodeArray c xs)) (hoff : off ≤ data.length) (halign : off % 8 = 0)
    (hlen : xs.length < 2 ^ 32) (hdata : data.length < 2 ^ 64) :
    readArray c data off = .ok (xs, off + (encodeArray c xs).length) := by
  have hheader : arrayHeader c = 4 + (arrayHeader c - 4) := by
    unfold arrayHeader
    split <;> omega
  have hend := h.end_le hoff
  rw [length_encodeArray] at hend
  rw [encodeArray, padTo8] at h
  obtain ⟨h, -⟩ := h.split
  obtain ⟨hhead, helems⟩ := h.split
  obtain ⟨hcount, -⟩ := hhead.split
  have hcountNat : (UInt32.ofNat xs.length).toNat = xs.length :=
    UInt32.toNat_ofNat_of_lt' hlen
  have hoffset : off + (Codec.u32.enc (UInt32.ofNat xs.length)
      ++ List.replicate (arrayHeader c - 4) (0 : UInt8)).length = off + arrayHeader c := by
    rw [length_append, length_replicate, Codec.length_enc,
      show Codec.u32.width = 4 from rfl, ← hheader]
  rw [hoffset] at helems
  obtain ⟨rest, hrest⟩ := helems
  have hfits : off + arrayHeader c + xs.length * c.width ≤ data.length := by
    unfold align8 at hend
    omega
  have hnext : align8 (off + arrayHeader c + xs.length * c.width) =
      off + (encodeArray c xs).length := by
    rw [length_encodeArray]
    unfold align8
    omega
  unfold readArray
  rw [readAt_holdsAt hcount hoff]
  have hsection : checkedSectionEnd data (off + arrayHeader c) xs.length c.width =
      .ok (off + arrayHeader c + xs.length * c.width) := by
    rw [checkedSectionEnd, if_neg (by omega), if_neg (by omega), if_neg (by omega)]
  simp only [bind, Except.bind, pure, Except.pure, hcountNat, hsection]
  rw [← hrest, decodeRun_append, hnext]

end Arrays

/-! ## columns -/

/-- An array together with the codec of its elements. -/
structure Column where
  {α : Type}
  codec : Codec α
  values : List α

/-- Append columns to an output stream. -/
def writeColumns (w : List UInt8) (cols : List Column) : List UInt8 :=
  cols.foldl (fun w col => writeArray col.codec w col.values) w

def encodeColumns (cols : List Column) : List UInt8 :=
  cols.flatMap fun col => encodeArray col.codec col.values

theorem length_encodeColumns_mod (cols : List Column) : (encodeColumns cols).length % 8 = 0 := by
  induction cols with
  | nil => rfl
  | cons col cols ih =>
    have hcol := length_encodeArray_mod (c := col.codec) col.values
    rw [encodeColumns] at ih ⊢
    rw [flatMap_cons, length_append]
    omega

theorem writeColumns_eq {w : List UInt8} (hw : w.length % 8 = 0) (cols : List Column) :
    writeColumns w cols = w ++ encodeColumns cols := by
  induction cols generalizing w with
  | nil => rw [writeColumns, encodeColumns, foldl_nil, flatMap_nil, append_nil]
  | cons col cols ih =>
    have hcol := length_encodeArray_mod (c := col.codec) col.values
    rw [writeColumns, foldl_cons, writeArray_eq hw]
    have := ih (w := w ++ encodeArray col.codec col.values) (by rw [length_append]; omega)
    rw [writeColumns] at this
    rw [this, encodeColumns, encodeColumns, flatMap_cons, append_assoc]

def ColumnsFit (cols : List Column) : Prop := ∀ col ∈ cols, col.values.length < 2 ^ 32

instance (cols : List Column) : Decidable (ColumnsFit cols) :=
  inferInstanceAs (Decidable (∀ col ∈ cols, _))

theorem columnsFit_cons {α : Type} {c : Codec α} {xs : List α} {cols : List Column} :
    ColumnsFit (⟨c, xs⟩ :: cols) ↔ xs.length < 2 ^ 32 ∧ ColumnsFit cols := by
  simp [ColumnsFit]

theorem columnsFit_append {cols cols' : List Column} :
    ColumnsFit (cols ++ cols') ↔ ColumnsFit cols ∧ ColumnsFit cols' := by
  simp [ColumnsFit, or_imp, forall_and]

/-! ## scanning sections -/

/-- A reader that advances an offset into a buffer. -/
def Scan (α : Type) : Type := List UInt8 → Nat → Except String (α × Nat)

namespace Scan

instance : Monad Scan where
  pure a := fun _ off => .ok (a, off)
  bind p f := fun data off => do
    let (a, off) ← p data off
    f a data off

def column {α : Type} (c : Codec α) : Scan (List α) := readArray c

/-- Go on with a checked value. -/
def check {α : Type} (x : Except String α) : Scan α := fun _ off => do
  let a ← x
  return (a, off)

end Scan

section Answers

variable {α β : Type} {data : List UInt8} {off : Nat}

theorem Scan.bind_eq_ok {p : Scan α} {f : α → Scan β} {r : β × Nat} :
    (p >>= f) data off = .ok r ↔ ∃ a off', p data off = .ok (a, off') ∧ f a data off' = .ok r := by
  change ((p data off) >>= fun x => f x.1 data x.2) = .ok r ↔ _
  rw [ReverseRusty.bind_eq_ok]
  simp

theorem Scan.pure_eq_ok {a : α} {r : α × Nat} :
    (pure a : Scan α) data off = .ok r ↔ r = (a, off) := by
  change Except.ok (a, off) = .ok r ↔ _
  simp [eq_comm]

theorem Scan.check_eq_ok {x : Except String α} {r : α × Nat} :
    Scan.check x data off = .ok r ↔ x = .ok r.1 ∧ r.2 = off := by
  change (x >>= fun a => Except.ok (a, off)) = .ok r ↔ _
  rw [ReverseRusty.bind_eq_ok]
  constructor
  · rintro ⟨a, ha, hr⟩
    cases hr
    exact ⟨ha, rfl⟩
  · rintro ⟨hx, hr⟩
    exact ⟨r.1, hx, by rw [← hr]⟩

end Answers

/-- Where the aligned bytes `bs` stand, the reader returns `a` and stops
right behind them. -/
structure Lays {α : Type} (p : Scan α) (bs : List UInt8) (a : α) : Prop where
  aligned : bs.length % 8 = 0
  reads : ∀ (data : List UInt8) (off : Nat), data.length < 2 ^ 64 → off ≤ data.length →
    off % 8 = 0 → HoldsAt data off bs → p data off = .ok (a, off + bs.length)

section Lays

variable {α β : Type}

theorem lays_pure (a : α) : Lays (pure a : Scan α) [] a :=
  ⟨rfl, fun _ _ _ _ _ _ => rfl⟩

theorem lays_check {x : Except String α} {a : α} (h : x = .ok a) : Lays (Scan.check x) [] a :=
  ⟨rfl, fun _ _ _ _ _ _ => by rw [h]; rfl⟩

theorem lays_column {c : Codec α} {xs : List α} (h : xs.length < 2 ^ 32) :
    Lays (Scan.column c) (encodeArray c xs) xs :=
  ⟨length_encodeArray_mod xs,
    fun _ _ hdata hoff halign hholds => readArray_holdsAt hholds hoff halign h hdata⟩

/-- **Layouts compose** along the steps of the reader. -/
theorem Lays.bind {p : Scan α} {f : α → Scan β} {bs bs' : List UInt8} {a : α} {b : β}
    (hp : Lays p bs a) (hf : Lays (f a) bs' b) : Lays (p >>= f) (bs ++ bs') b := by
  refine ⟨?_, fun data off hdata hoff halign hholds => ?_⟩
  · have := hp.aligned
    have := hf.aligned
    rw [length_append]
    omega
  · obtain ⟨hleft, hright⟩ := hholds.split
    have halign' : (off + bs.length) % 8 = 0 := by
      have := hp.aligned
      omega
    have hread := hf.reads data _ hdata (hleft.end_le hoff) halign' hright
    show (p data off >>= fun r => f r.1 data r.2) = _
    rw [hp.reads data off hdata hoff halign hleft, length_append, ← Nat.add_assoc, ← hread]
    rfl

theorem lays_done (a : α) : Lays (pure a : Scan α) (encodeColumns []) a := lays_pure a

theorem Lays.column {c : Codec α} {xs : List α} {f : List α → Scan β} {cols : List Column} {b : β}
    (h : xs.length < 2 ^ 32) (hf : Lays (f xs) (encodeColumns cols) b) :
    Lays (Scan.column c >>= f) (encodeColumns (⟨c, xs⟩ :: cols)) b :=
  (lays_column h).bind hf

theorem Lays.columns {p : Scan α} {f : α → Scan β} {cols cols' : List Column} {a : α} {b : β}
    (hp : Lays p (encodeColumns cols) a) (hf : Lays (f a) (encodeColumns cols') b) :
    Lays (p >>= f) (encodeColumns (cols ++ cols')) b := by
  rw [encodeColumns, flatMap_append]
  exact hp.bind hf

theorem Lays.bind_nil {p : Scan α} {f : α → Scan β} {bs : List UInt8} {a : α} {b : β}
    (hp : Lays p [] a) (hf : Lays (f a) bs b) : Lays (p >>= f) bs b := by
  have := hp.bind hf
  rwa [nil_append] at this

end Lays

end ReverseRusty
