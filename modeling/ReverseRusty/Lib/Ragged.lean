import ReverseRusty.Lib.Bytes

/-!
# ReverseRusty.Lib.Ragged

A list of lists laid out as three columns: the start of each row in a
shared blob, its length, and the blob.  `slice_flatten` says that a row is
read back from its start and length.

`Spans` is the stored form, with fixed-width starts and lengths;
`rowAt_layOut` and `lays_scanSpans` are its round trips.
-/

namespace ReverseRusty

open List

variable {α : Type*}

/-- The elements of a blob from `off`, `len` of them. -/
def sliceAt (blob : List α) (off len : Nat) : List α := (blob.drop off).take len

/-- The start of row `i` in the blob of a list of rows. -/
def rowStart (rows : List (List α)) (i : Nat) : Nat := (rows.take i).flatten.length

def rowStarts (rows : List (List α)) : List Nat := (List.range rows.length).map (rowStart rows)

@[simp] theorem length_rowStarts (rows : List (List α)) : (rowStarts rows).length = rows.length := by
  simp [rowStarts]

theorem getElem?_rowStarts {rows : List (List α)} {i : Nat} (h : i < rows.length) :
    (rowStarts rows)[i]? = some (rowStart rows i) := by
  simp [rowStarts, h]

theorem flatten_eq_split {rows : List (List α)} {i : Nat} {row : List α}
    (h : rows[i]? = some row) :
    rows.flatten = (rows.take i).flatten ++ (row ++ (rows.drop (i + 1)).flatten) := by
  obtain ⟨hi, rfl⟩ := List.getElem?_eq_some_iff.mp h
  conv_lhs => rw [← take_append_drop i rows, drop_eq_getElem_cons hi]
  rw [flatten_append, flatten_cons]

/-- **A row is read back from its start and length.** -/
theorem slice_flatten {rows : List (List α)} {i : Nat} {row : List α} (h : rows[i]? = some row) :
    sliceAt rows.flatten (rowStart rows i) row.length = row := by
  rw [sliceAt, flatten_eq_split h, rowStart, drop_left, take_left]

theorem rowStart_add_length_le {rows : List (List α)} {i : Nat} {row : List α}
    (h : rows[i]? = some row) : rowStart rows i + row.length ≤ rows.flatten.length := by
  rw [flatten_eq_split h, length_append, length_append, rowStart]
  omega

variable {k : Nat}

/-- Element `k` of row `i` stands at the row's start plus `k`. -/
theorem getElem?_flatten_rowStart {rows : List (List α)} {i : Nat} {row : List α}
    (h : rows[i]? = some row) (hk : k < row.length) :
    rows.flatten[rowStart rows i + k]? = row[k]? := by
  rw [flatten_eq_split h, rowStart, getElem?_append_right (by omega), Nat.add_sub_cancel_left,
    getElem?_append_left hk]

/-- Between the partition points of a key in a list sorted by keys lie the
elements with that key. -/
theorem sliceAt_partition {κ : Type*} [LinearOrder κ] (f : α → κ) (k : κ) {xs : List α}
    (h : xs.Pairwise fun a b => f a ≤ f b) :
    sliceAt xs (xs.takeWhile (f · < k)).length
        ((xs.takeWhile (f · ≤ k)).length - (xs.takeWhile (f · < k)).length) =
      xs.filter (f · = k) := by
  induction xs with
  | nil => rfl
  | cons x xs ih =>
    obtain ⟨hx, hxs⟩ := pairwise_cons.mp h
    have hrest := ih hxs
    rcases lt_trichotomy (f x) k with hlt | heq | hgt
    · rw [takeWhile_cons_of_pos (by simpa using hlt),
        takeWhile_cons_of_pos (by simpa using hlt.le),
        filter_cons_of_neg (by simpa using hlt.ne), ← hrest]
      simp [sliceAt]
    · -- nothing before the run: the rest starts with it, too
      have hnil : xs.takeWhile (f · < k) = [] := by
        rw [takeWhile_eq_nil_iff]
        intro hpos
        simpa using heq ▸ hx _ (get_mem xs ⟨0, hpos⟩)
      rw [hnil] at hrest
      rw [takeWhile_cons_of_neg (by simp [heq]),
        takeWhile_cons_of_pos (by simp [heq]), filter_cons_of_pos (by simp [heq]),
        ← hrest]
      simp [sliceAt]
    · rw [takeWhile_cons_of_neg (by simpa using hgt.le),
        takeWhile_cons_of_neg (by simpa using hgt),
        filter_eq_nil_iff.mpr]
      · rfl
      · intro y hy
        rcases mem_cons.mp hy with rfl | hy
        · simpa using hgt.ne'
        · simpa using (lt_of_lt_of_le hgt (hx y hy)).ne'

theorem sliceAt_map {β : Type*} (f : α → β) (xs : List α) (off len : Nat) :
    sliceAt (xs.map f) off len = (sliceAt xs off len).map f := by
  rw [sliceAt, sliceAt, map_take, map_drop]

/-! ## sections of a file -/

/-- A file being written: its bytes, and where its sections start. -/
structure Sections where
  bytes : List UInt8
  offsets : List Nat

/-- Align, note the position, and let a writer append. -/
def Sections.add (s : Sections) (emit : List UInt8 → List UInt8) : Sections where
  bytes := emit (padTo8 s.bytes)
  offsets := s.offsets ++ [(padTo8 s.bytes).length]

/-- On an aligned stream the writer appends the aligned block `bs`. -/
structure Emits (emit : List UInt8 → List UInt8) (bs : List UInt8) : Prop where
  aligned : bs.length % 8 = 0
  emits : ∀ w : List UInt8, w.length % 8 = 0 → emit w = w ++ bs

theorem emits_writeColumns (cols : List Column) :
    Emits (fun w => writeColumns w cols) (encodeColumns cols) :=
  ⟨length_encodeColumns_mod cols, fun _ hw => writeColumns_eq hw cols⟩

variable {blocks : List (List UInt8)}

theorem foldl_add_sections {emits : List (List UInt8 → List UInt8)}
    (h : List.Forall₂ Emits emits blocks) {s : Sections} (hs : s.bytes.length % 8 = 0) :
    (emits.foldl Sections.add s).bytes = s.bytes ++ blocks.flatten ∧
      (emits.foldl Sections.add s).offsets =
        s.offsets ++ (rowStarts blocks).map (s.bytes.length + ·) := by
  induction h generalizing s with
  | nil => simp [rowStarts]
  | @cons emit bs emits blocks hemit _ ih =>
    have hadd : s.add emit = ⟨s.bytes ++ bs, s.offsets ++ [s.bytes.length]⟩ := by
      rw [Sections.add, padTo8_eq_self hs, hemit.emits _ hs]
    have halign : (s.bytes ++ bs).length % 8 = 0 := by
      have := hemit.aligned
      rw [length_append]
      omega
    have hstarts : rowStarts (bs :: blocks) = 0 :: (rowStarts blocks).map (bs.length + ·) := by
      rw [rowStarts, rowStarts, length_cons, range_succ_eq_map, map_cons,
        map_map, map_map]
      simp [rowStart, Function.comp_def]
    obtain ⟨hbytes, hoffsets⟩ := @ih (s.add emit) (by rw [hadd]; exact halign)
    rw [foldl_cons, hbytes, hoffsets, hadd, hstarts]
    refine ⟨by rw [flatten_cons, append_assoc], ?_⟩
    simp [Function.comp_def, Nat.add_assoc]

theorem holdsAt_section {pre post : List UInt8} {block : List UInt8} (h : blocks[k]? = some block) :
    HoldsAt (pre ++ blocks.flatten ++ post) (pre.length + rowStart blocks k) block := by
  rw [flatten_eq_split h, ← append_assoc, ← append_assoc]
  have hlen : pre.length + rowStart blocks k = (pre ++ (blocks.take k).flatten).length := by
    rw [length_append, rowStart]
  rw [hlen, append_assoc _ _ post]
  exact holdsAt_append _ _ _

/-! ## stored spans -/

/-- A fixed-width representation of lengths. -/
structure Count (ω : Type) where
  codec : Codec ω
  ofNat : Nat → ω
  toNat : ω → Nat
  size : Nat
  toNat_ofNat : ∀ n, n < size → toNat (ofNat n) = n

def Count.u16 : Count UInt16 where
  codec := .u16
  ofNat := UInt16.ofNat
  toNat := UInt16.toNat
  size := 2 ^ 16
  toNat_ofNat _ h := UInt16.toNat_ofNat_of_lt' h

def Count.u32 : Count UInt32 where
  codec := .u32
  ofNat := UInt32.ofNat
  toNat := UInt32.toNat
  size := 2 ^ 32
  toNat_ofNat _ h := UInt32.toNat_ofNat_of_lt' h

/-- Starts, lengths and the blob they point into. -/
structure Spans (ω : Type) where
  off : List UInt32
  len : List ω
  blob : List UInt32
deriving DecidableEq, Repr

/-- No rows at all. -/
def Spans.none {ω : Type} : Spans ω := ⟨[], [], []⟩

namespace Count

variable {ω : Type} (c : Count ω)

def layOut (rows : List (List UInt32)) : Spans ω where
  off := (rowStarts rows).map UInt32.ofNat
  len := rows.map fun row => c.ofNat row.length
  blob := rows.flatten

/-- Whether row `i` lies within the blob. -/
def fits (s : Spans ω) (i : Nat) : Bool :=
  (s.off[i]?.map UInt32.toNat).getD 0 + (s.len[i]?.map c.toNat).getD 0 ≤ s.blob.length

/-- Read row `i` back; a missing row is empty. -/
def rowAt (s : Spans ω) (i : Nat) : List UInt32 :=
  sliceAt s.blob ((s.off[i]?.map UInt32.toNat).getD 0) ((s.len[i]?.map c.toNat).getD 0)

def columns (s : Spans ω) : List Column := [⟨.u32, s.off⟩, ⟨c.codec, s.len⟩, ⟨.u32, s.blob⟩]

/-- Read the three columns. -/
def scanSpans : Scan (Spans ω) := do
  let off ← Scan.column .u32
  let len ← Scan.column c.codec
  let blob ← Scan.column .u32
  return ⟨off, len, blob⟩

variable {c}

@[simp] theorem length_off_layOut (rows : List (List UInt32)) :
    (c.layOut rows).off.length = rows.length := by
  simp [layOut]

@[simp] theorem length_len_layOut (rows : List (List UInt32)) :
    (c.layOut rows).len.length = rows.length := by
  simp [layOut]

section LayOut

variable {rows : List (List UInt32)} {i : Nat} {row : List UInt32} (h : rows[i]? = some row)
  (hrow : row.length < c.size) (hblob : (c.layOut rows).blob.length < 2 ^ 32)

include h hrow hblob

theorem span_layOut :
    ((c.layOut rows).off[i]?.map UInt32.toNat).getD 0 = rowStart rows i ∧
      ((c.layOut rows).len[i]?.map c.toNat).getD 0 = row.length := by
  have hi := (List.getElem?_eq_some_iff.mp h).1
  have hend := rowStart_add_length_le h
  have hblob' : rows.flatten.length < 2 ^ 32 := hblob
  have hstart : (UInt32.ofNat (rowStart rows i)).toNat = rowStart rows i :=
    UInt32.toNat_ofNat_of_lt' (by simp only [UInt32.size]; omega)
  simp [layOut, getElem?_rowStarts hi, h, hstart, c.toNat_ofNat _ hrow]

/-- **A row is read back from its stored span.** -/
theorem rowAt_layOut : c.rowAt (c.layOut rows) i = row := by
  obtain ⟨hoff, hlen⟩ := span_layOut h hrow hblob
  rw [rowAt, hoff, hlen]
  exact slice_flatten h

theorem fits_layOut : c.fits (c.layOut rows) i = true := by
  obtain ⟨hoff, hlen⟩ := span_layOut h hrow hblob
  rw [fits, hoff, hlen]
  exact decide_eq_true (rowStart_add_length_le h)

end LayOut

theorem rowAt_none (i : Nat) : c.rowAt .none i = [] := rfl

theorem lays_scanSpans {s : Spans ω} (h : ColumnsFit (c.columns s)) :
    Lays c.scanSpans (encodeColumns (c.columns s)) s := by
  simp only [columns, columnsFit_cons] at h
  exact .column h.1 (.column h.2.1 (.column h.2.2.1 (lays_done s)))

theorem blob_lt_of_columnsFit {s : Spans ω} (h : ColumnsFit (c.columns s)) :
    s.blob.length < 2 ^ 32 := by
  simp only [columns, columnsFit_cons] at h
  exact h.2.2.1

end Count

/-! ## reading through a cursor -/

section Cursor

variable {α : Type} {xs ys zs : List α} {i : Nat} {y : α}

/-- `ys` stands in `xs` from position `i` on. -/
def LiesAt (xs : List α) (i : Nat) (ys : List α) : Prop :=
  ∃ front back, front.length = i ∧ xs = front ++ (ys ++ back)

namespace LiesAt

theorem behind (front ys : List α) : LiesAt (front ++ ys) front.length ys :=
  ⟨front, [], rfl, by simp⟩

theorem le (h : LiesAt xs i ys) : i + ys.length ≤ xs.length := by
  obtain ⟨front, back, rfl, rfl⟩ := h
  simp only [length_append]
  omega

theorem left (h : LiesAt xs i (ys ++ zs)) : LiesAt xs i ys := by
  obtain ⟨front, back, rfl, rfl⟩ := h
  exact ⟨front, zs ++ back, rfl, by rw [append_assoc]⟩

theorem right (h : LiesAt xs i (ys ++ zs)) : LiesAt xs (i + ys.length) zs := by
  obtain ⟨front, back, rfl, rfl⟩ := h
  exact ⟨front ++ ys, back, length_append, by simp only [append_assoc]⟩

theorem head (h : LiesAt xs i (y :: ys)) : xs[i]? = some y := by
  obtain ⟨front, back, rfl, rfl⟩ := h
  simp

theorem tail (h : LiesAt xs i (y :: ys)) : LiesAt xs (i + 1) ys := by
  have hsplit : LiesAt xs i ([y] ++ ys) := h
  exact hsplit.right

theorem slice (h : LiesAt xs i ys) : sliceAt xs i ys.length = ys := by
  obtain ⟨front, back, rfl, rfl⟩ := h
  rw [sliceAt, drop_left, take_left]

end LiesAt

end Cursor

end ReverseRusty
