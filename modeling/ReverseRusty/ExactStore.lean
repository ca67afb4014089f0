import ReverseRusty.ColumnCount
import ReverseRusty.ExactColumns
import ReverseRusty.MmapAccess

/-!
# ReverseRusty.ExactStore

The exact store as it grows (`ExactStore::push`, `exact/store/write.rs`): each
push appends a query to the columns, with offsets of 32 bits into blobs that
only get longer.

A row reads back what its query was compiled to as long as its offsets fit when
it is pushed (`Room`, `bodyAt_ofPushes`); what is pushed behind it does not
matter.
-/

namespace ReverseRusty

open List
open ReverseRusty.Count (u16 u32)

/-! ## growing spans -/

namespace Count

variable {ω : Type} (c : Count ω)

/-- Append a row: its start is where the blob ends. -/
def push (s : Spans ω) (row : List UInt32) : Spans ω where
  off := s.off ++ [UInt32.ofNat s.blob.length]
  len := s.len ++ [c.ofNat row.length]
  blob := s.blob ++ row

theorem rowStarts_concat {α : Type*} (rows : List (List α)) (row : List α) :
    rowStarts (rows ++ [row]) = rowStarts rows ++ [rows.flatten.length] := by
  refine ext_getElem? fun k => ?_
  rcases Nat.lt_trichotomy k rows.length with hk | rfl | hk
  · rw [getElem?_rowStarts (by simp; omega), getElem?_append_left (by simpa using hk),
      getElem?_rowStarts hk, rowStart, rowStart, take_append_of_le_length hk.le]
  · rw [getElem?_rowStarts (by simp), getElem?_append_right (by simp), rowStart, take_left]
    simp
  · rw [getElem?_eq_none (by simpa using hk), getElem?_eq_none (by simpa using hk)]

theorem layOut_concat (rows : List (List UInt32)) (row : List UInt32) :
    c.layOut (rows ++ [row]) = c.push (c.layOut rows) row := by
  simp [layOut, push, rowStarts_concat]

theorem layOut_append (rows rows' : List (List UInt32)) :
    c.layOut (rows ++ rows') = rows'.foldl c.push (c.layOut rows) := by
  induction rows' generalizing rows with
  | nil => rw [append_nil, foldl_nil]
  | cons row rows' ih =>
    rw [foldl_cons, ← layOut_concat, ← ih, append_assoc]
    rfl

variable {c} {w : Nat} {rows : List (List UInt32)} {i : Nat} {row : List UInt32}

/-- A row whose start fits reads back as many elements as its stored length
says, whatever stands behind it. -/
theorem rowAt_layOut_narrow (hc : ∀ n, c.toNat (c.ofNat n) = n % 2 ^ w) (h : rows[i]? = some row)
    (hstart : rowStart rows i < 2 ^ 32) : c.rowAt (c.layOut rows) i = narrow w row := by
  have hi := (List.getElem?_eq_some_iff.mp h).1
  have hoff : (UInt32.ofNat (rowStart rows i)).toNat = rowStart rows i :=
    UInt32.toNat_ofNat_of_lt' hstart
  have hslice := slice_flatten h
  rw [sliceAt] at hslice
  have hread : c.rowAt (c.layOut rows) i =
      (rows.flatten.drop (rowStart rows i)).take (row.length % 2 ^ w) := by
    simp [rowAt, layOut, getElem?_rowStarts hi, h, hoff, hc, sliceAt]
  rw [hread, narrow]
  nth_rewrite 3 [← hslice]
  rw [take_take, Nat.min_eq_left (Nat.mod_le _ _)]

end Count

theorem rowAt_layOut_u16 {rows : List (List UInt32)} {i : Nat} {row : List UInt32}
    (h : rows[i]? = some row) (hstart : rowStart rows i < 2 ^ 32) :
    u16.rowAt (u16.layOut rows) i = narrow 16 row :=
  Count.rowAt_layOut_narrow (fun _ => UInt16.toNat_ofNat') h hstart

theorem rowAt_layOut_u32 {rows : List (List UInt32)} {i : Nat} {row : List UInt32}
    (h : rows[i]? = some row) (hstart : rowStart rows i < 2 ^ 32) :
    u32.rowAt (u32.layOut rows) i = narrow 32 row :=
  Count.rowAt_layOut_narrow (fun _ => UInt32.toNat_ofNat') h hstart

/-! ## the store -/

structure ExactStore where
  columns : ExactColumns
  tags : Spans UInt16
deriving DecidableEq, Repr

def PlacementColumns.push (c : PlacementColumns) (p : QueryPlacement) : PlacementColumns where
  generation := c.generation ++ [p.generation]
  numShards := c.numShards ++ [p.numShards]
  mode := c.mode ++ [p.mode.toByte]
  positions := u32.push c.positions p.positions

def ExactColumns.new : ExactColumns :=
  ⟨[], [], .none, .none, [], [], .none, [], [], [], .none, [], .none⟩

/-- Append a query to every column. -/
def ExactColumns.push (c : ExactColumns) (p : AddRequest) : ExactColumns where
  reqMask := c.reqMask ++ [titleMask p.dict p.ex.required]
  forbMask := c.forbMask ++ [titleMask p.dict p.ex.forbidden]
  req := u16.push c.req (unmasked p.dict p.ex.required)
  forb := u16.push c.forb (unmasked p.dict p.ex.forbidden)
  groupStart := c.groupStart ++ [UInt32.ofNat c.groups.off.length]
  groupCount := c.groupCount ++ [UInt16.ofNat p.ex.anyof.length]
  groups := p.ex.anyof.foldl u16.push c.groups
  version := c.version ++ [p.version]
  logical := c.logical ++ [p.logical]
  priority := c.priority ++ [p.priority]
  placement := c.placement.push p.placement
  sourceGeneration := c.sourceGeneration ++ [p.sourceGeneration]
  predicate := u32.push c.predicate (encodePredicate p.ex)

namespace ExactStore

def new : ExactStore := ⟨.new, .none⟩

def push (s : ExactStore) (p : AddRequest) : ExactStore :=
  ⟨s.columns.push p, u16.push s.tags p.tags⟩

def ofPushes (ps : List AddRequest) : ExactStore := ps.foldl push new

theorem ofPushes_concat (ps : List AddRequest) (p : AddRequest) :
    ofPushes (ps ++ [p]) = (ofPushes ps).push p := by
  simp [ofPushes]

/-- The columns verification reads, after any pushes. -/
structure Laid (c : ExactColumns) (ps : List AddRequest) : Prop where
  reqMask : c.reqMask = ps.map fun p => titleMask p.dict p.ex.required
  forbMask : c.forbMask = ps.map fun p => titleMask p.dict p.ex.forbidden
  req : c.req = u16.layOut (ps.map fun p => unmasked p.dict p.ex.required)
  forb : c.forb = u16.layOut (ps.map fun p => unmasked p.dict p.ex.forbidden)
  groupStart : c.groupStart = (rowStarts (ps.map fun p => p.ex.anyof)).map UInt32.ofNat
  groupCount : c.groupCount = ps.map fun p => UInt16.ofNat p.ex.anyof.length
  groups : c.groups = u16.layOut (ps.flatMap fun p => p.ex.anyof)
  predicate : c.predicate = u32.layOut (ps.map fun p => encodePredicate p.ex)

theorem laid_push {c : ExactColumns} {ps : List AddRequest} (h : Laid c ps) (p : AddRequest) :
    Laid (c.push p) (ps ++ [p]) := by
  refine ⟨?_, ?_, ?_, ?_, ?_, ?_, ?_, ?_⟩
  · simp [ExactColumns.push, h.reqMask]
  · simp [ExactColumns.push, h.forbMask]
  · rw [map_append, map_singleton, Count.layOut_concat, ← h.req]
    rfl
  · rw [map_append, map_singleton, Count.layOut_concat, ← h.forb]
    rfl
  · simp [ExactColumns.push, h.groupStart, h.groups, Count.rowStarts_concat, flatMap_def]
  · simp [ExactColumns.push, h.groupCount]
  · rw [flatMap_append, flatMap_singleton, Count.layOut_append, ← h.groups]
    rfl
  · rw [map_append, map_singleton, Count.layOut_concat, ← h.predicate]
    rfl

theorem laid_ofPushes (ps : List AddRequest) : Laid (ofPushes ps).columns ps := by
  induction ps using reverseRecOn with
  | nil => exact ⟨rfl, rfl, rfl, rfl, rfl, rfl, rfl, rfl⟩
  | append_singleton ps p ih =>
    rw [ofPushes_concat]
    exact laid_push ih p

end ExactStore

/-- The offsets of a query pushed now fit: those of its tails, its program and
its groups. -/
structure ExactColumns.Room (c : ExactColumns) (ex : Extracted) : Prop where
  required : c.req.blob.length < 2 ^ 32
  forbidden : c.forb.blob.length < 2 ^ 32
  groups : c.groups.off.length < 2 ^ 32
  members : ∀ k < ex.anyof.length,
    c.groups.blob.length + (ex.anyof.take k).flatten.length < 2 ^ 32
  program : c.predicate.blob.length < 2 ^ 32

namespace ExactStore

section Pushed

variable {ps : List AddRequest} {i : Nat} {p : AddRequest} (h : ps[i]? = some p)

include h

theorem getElem?_map_pushes {α : Type*} (f : AddRequest → α) : (ps.map f)[i]? = some (f p) := by
  rw [getElem?_map, h]
  rfl

omit h in
/-- A row starts where the blob ended when it was pushed. -/
theorem rowStart_map (f : AddRequest → List UInt32) :
    rowStart (ps.map f) i = (((ps.take i).map f).flatten).length := by
  rw [rowStart, map_take]

/-- **The program is read back** from any store, when its offset fits. -/
theorem predicateAt_ofPushes (hroom : (ofPushes (ps.take i)).columns.predicate.blob.length < 2 ^ 32) :
    ((ofPushes ps).columns.bodyAt i).predicate = narrow 32 (encodePredicate p.ex) := by
  rw [(laid_ofPushes (ps.take i)).predicate] at hroom
  rw [ExactColumns.bodyAt, (laid_ofPushes ps).predicate]
  exact rowAt_layOut_u32 (getElem?_map_pushes h fun p => encodePredicate p.ex)
    (by rw [rowStart_map]; exact hroom)

theorem groupsAt_ofPushes (hroom : (ofPushes (ps.take i)).columns.Room p.ex) :
    (ofPushes ps).columns.groupsAt i = (narrow 16 p.ex.anyof).map (narrow 16) := by
  have hlaid := laid_ofPushes ps
  have hbefore := laid_ofPushes (ps.take i)
  have hrow := getElem?_map_pushes h fun p => p.ex.anyof
  have hi : i < (ps.map fun p => p.ex.anyof).length := (List.getElem?_eq_some_iff.mp hrow).1
  have hgroups : rowStart (ps.map fun p => p.ex.anyof) i < 2 ^ 32 := by
    have hoff := hroom.groups
    rw [hbefore.groups, Count.length_off_layOut, flatMap_def, map_take] at hoff
    exact hoff
  have hstart : (UInt32.ofNat (rowStart (ps.map fun p => p.ex.anyof) i)).toNat =
      rowStart (ps.map fun p => p.ex.anyof) i := UInt32.toNat_ofNat_of_lt' hgroups
  have hcount : (UInt16.ofNat p.ex.anyof.length).toNat = p.ex.anyof.length % 2 ^ 16 :=
    UInt16.toNat_ofNat'
  have hread : (ofPushes ps).columns.groupsAt i =
      (List.range (p.ex.anyof.length % 2 ^ 16)).map fun k =>
        u16.rowAt (u16.layOut (ps.map fun p => p.ex.anyof).flatten)
          (rowStart (ps.map fun p => p.ex.anyof) i + k) := by
    simp only [ExactColumns.groupsAt, hlaid.groupStart, hlaid.groupCount, hlaid.groups,
      getElem?_map, getElem?_rowStarts hi, h, Option.map_some, Option.getD_some, hstart, hcount,
      flatMap_def]
  rw [hread]
  refine ext_getElem? fun k => ?_
  by_cases hk : k < p.ex.anyof.length % 2 ^ 16
  · have hlt : k < p.ex.anyof.length := Nat.lt_of_lt_of_le hk (Nat.mod_le _ _)
    have hflat := getElem?_flatten_rowStart hrow hlt
    rw [getElem?_eq_getElem hlt] at hflat
    have hmember : rowStart (ps.map fun p => p.ex.anyof).flatten
        (rowStart (ps.map fun p => p.ex.anyof) i + k) < 2 ^ 32 := by
      have hfits := hroom.members k hlt
      rw [hbefore.groups] at hfits
      have hsplit : (ps.map fun p => p.ex.anyof).flatten.take
          (rowStart (ps.map fun p => p.ex.anyof) i + k) =
            ((ps.take i).flatMap fun p => p.ex.anyof) ++ p.ex.anyof.take k := by
        rw [flatten_eq_split hrow, rowStart, take_length_add_append, take_append_of_le_length hlt.le,
          flatMap_def, map_take]
      rw [rowStart, hsplit, flatten_append, length_append]
      exact hfits
    have hkept : (narrow 16 p.ex.anyof)[k]? = some p.ex.anyof[k] := by
      rw [narrow, getElem?_take_of_lt hk, getElem?_eq_getElem hlt]
    rw [getElem?_map, getElem?_range hk, Option.map_some, rowAt_layOut_u16 hflat hmember,
      getElem?_map, hkept, Option.map_some]
  · rw [getElem?_eq_none (by simpa using hk), getElem?_eq_none]
    simpa [narrow] using Or.inl (Nat.le_of_not_lt hk)

/-- **A row reads back what its query was compiled to**, when its offsets fit. -/
theorem bodyAt_ofPushes (hroom : (ofPushes (ps.take i)).columns.Room p.ex) :
    (ofPushes ps).columns.bodyAt i = Body.compile p.dict p.ex := by
  have hlaid := laid_ofPushes ps
  have hbefore := laid_ofPushes (ps.take i)
  have hpredicate := predicateAt_ofPushes h hroom.program
  have hgroups := groupsAt_ofPushes h hroom
  have hreq := hroom.required
  have hforb := hroom.forbidden
  rw [hbefore.req] at hreq
  rw [hbefore.forb] at hforb
  have hreqTail : u16.rowAt (ofPushes ps).columns.req i =
      narrow 16 (unmasked p.dict p.ex.required) := by
    rw [hlaid.req]
    exact rowAt_layOut_u16 (getElem?_map_pushes h fun p => unmasked p.dict p.ex.required)
      (by rw [rowStart_map]; exact hreq)
  have hforbTail : u16.rowAt (ofPushes ps).columns.forb i =
      narrow 16 (unmasked p.dict p.ex.forbidden) := by
    rw [hlaid.forb]
    exact rowAt_layOut_u16 (getElem?_map_pushes h fun p => unmasked p.dict p.ex.forbidden)
      (by rw [rowStart_map]; exact hforb)
  rw [ExactColumns.bodyAt] at hpredicate ⊢
  rw [hreqTail, hforbTail, hgroups, Body.compile, ← hpredicate]
  simp [hlaid.reqMask, hlaid.forbMask, h]

end Pushed

end ExactStore

/-! ## verification -/

/-- `verify_slices`: verify row `i` of raw columns. -/
def ExactColumns.verifySlices (c : ExactColumns) (tags : Spans UInt16) (i : Nat) (v : TitleView)
    (pred : TagPredicate) : Checked Bool := do
  if !(← (c.bodyAt i).checkedVerify v) then return false
  if pred.isEmpty then return true
  return pred.matches (Count.u16.rowAt tags i)

/-- `ExactStore::verify`: verify row `i` of a store, which must be there. -/
def ExactStore.verify (s : ExactStore) (i : Nat) (v : TitleView) (pred : TagPredicate) :
    Checked Bool :=
  if i < s.columns.reqMask.length then do
    if !(← (s.columns.bodyAt i).checkedVerify v) then return false
    if pred.isEmpty then return true
    return pred.matches (Count.u16.rowAt s.tags i)
  else .error .outOfRange

theorem ExactStore.verify_ofPushes {ps : List AddRequest} {i : Nat} {p : AddRequest}
    (h : ps[i]? = some p) (v : TitleView) (pred : TagPredicate) :
    (ofPushes ps).verify i v pred =
      (ofPushes ps).columns.verifySlices (ofPushes ps).tags i v pred := by
  have hi := (List.getElem?_eq_some_iff.mp h).1
  rw [ExactStore.verify, (laid_ofPushes ps).reqMask, length_map, if_pos hi]
  rfl

theorem verifySlices_empty (c : ExactColumns) (tags : Spans UInt16) (i : Nat) (v : TitleView) :
    c.verifySlices tags i v .empty = (c.bodyAt i).checkedVerify v := by
  unfold ExactColumns.verifySlices
  cases (c.bodyAt i).checkedVerify v with
  | error e => rfl
  | ok b =>
    cases b with
    | true => rfl
    | false => rfl

end ReverseRusty
