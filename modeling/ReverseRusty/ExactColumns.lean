import ReverseRusty.Lib.Ragged
import ReverseRusty.ExactSpec

/-!
# ReverseRusty.ExactColumns

The exact store as the columns a segment file holds (`exact/store/*.rs`,
`storage/segment/*.rs`): fixed-width fields as arrays, variable-length ones
as spans of a shared blob.  Columns that would hold nothing but defaults
are left out of the file, and the format version says which are there.

`rowAt_ofRows` says that every row is read back from the columns, and
`lays_scanExact` that the columns are read back from their bytes.
-/

namespace ReverseRusty

open List
open ReverseRusty.Count (u16 u32 lays_scanSpans blob_lt_of_columnsFit rowAt_layOut)

inductive ExactSectionLayout where
  | base
  | priority
  | ownership
  | sourceGeneration
  | compoundPredicate
  | phrasePredicate
deriving DecidableEq, Repr

def ExactSectionLayout.formatVersion : ExactSectionLayout → Nat
  | .base => 3
  | .priority => 6
  | .ownership => 7
  | .sourceGeneration => 8
  | .compoundPredicate => 9
  | .phrasePredicate => 10

structure PlacementColumns where
  generation : List UInt64
  numShards : List UInt32
  mode : List UInt8
  positions : Spans UInt32
deriving DecidableEq, Repr

/-- The exact store, one column per field. -/
structure ExactColumns where
  reqMask : List MaskWord
  forbMask : List MaskWord
  req : Spans UInt16
  forb : Spans UInt16
  /-- the any-of groups of a query: the first and how many -/
  groupStart : List UInt32
  groupCount : List UInt16
  groups : Spans UInt16
  version : List UInt32
  logical : List UInt64
  priority : List Int64
  placement : PlacementColumns
  sourceGeneration : List UInt64
  predicate : Spans UInt32
deriving DecidableEq, Repr

def PlacementColumns.none : PlacementColumns := ⟨[], [], [], .none⟩

def PlacementColumns.of (ps : List QueryPlacement) : PlacementColumns where
  generation := ps.map QueryPlacement.generation
  numShards := ps.map QueryPlacement.numShards
  mode := ps.map fun p => p.mode.toByte
  positions := u32.layOut (ps.map QueryPlacement.positions)

namespace ExactColumns

def ofRows (rows : List Row) : ExactColumns where
  reqMask := rows.map fun r => r.body.reqMask
  forbMask := rows.map fun r => r.body.forbMask
  req := u16.layOut (rows.map fun r => r.body.reqTail)
  forb := u16.layOut (rows.map fun r => r.body.forbTail)
  groupStart := (rowStarts (rows.map fun r => r.body.groups)).map UInt32.ofNat
  groupCount := rows.map fun r => UInt16.ofNat r.body.groups.length
  groups := u16.layOut (rows.flatMap fun r => r.body.groups)
  version := rows.map Row.version
  logical := rows.map Row.logical
  priority := rows.map Row.priority
  placement := .of (rows.map Row.placement)
  sourceGeneration := rows.map Row.sourceGeneration
  predicate := u32.layOut (rows.map fun r => r.body.predicate)

def atVersion (c : ExactColumns) (formatVersion : Nat) : ExactColumns :=
  { c with
    priority := if 6 ≤ formatVersion then c.priority else []
    placement := if 7 ≤ formatVersion then c.placement else .none
    sourceGeneration := if 8 ≤ formatVersion then c.sourceGeneration else []
    predicate := if 9 ≤ formatVersion then c.predicate else .none }

/-! ## reading rows -/

/-- The any-of groups of row `i`. -/
def groupsAt (c : ExactColumns) (i : Nat) : List (List FeatureId) :=
  let start := (c.groupStart[i]?.map UInt32.toNat).getD 0
  (List.range ((c.groupCount[i]?.map UInt16.toNat).getD 0)).map fun k =>
    u16.rowAt c.groups (start + k)

def bodyAt (c : ExactColumns) (i : Nat) : Body where
  reqMask := c.reqMask.getD i 0
  forbMask := c.forbMask.getD i 0
  reqTail := u16.rowAt c.req i
  forbTail := u16.rowAt c.forb i
  groups := c.groupsAt i
  predicate := u32.rowAt c.predicate i

/-- Row `i`, given its placement and its tags; absent columns read as
their defaults. -/
def rowAt (c : ExactColumns) (placements : List QueryPlacement) (tags : Spans UInt16) (i : Nat) :
    Row where
  body := c.bodyAt i
  tags := u16.rowAt tags i
  priority := c.priority.getD i 0
  placement := placements.getD i .standalone
  sourceGeneration := c.sourceGeneration.getD i 0
  version := c.version.getD i 0
  logical := c.logical.getD i 0

/-! ## the file's columns -/

def columns (c : ExactColumns) (formatVersion : Nat) : List Column :=
  ⟨.bits64, c.reqMask⟩ :: ⟨.bits64, c.forbMask⟩ :: (u16.columns c.req ++
    (u16.columns c.forb ++ (⟨.u32, c.groupStart⟩ :: ⟨.u16, c.groupCount⟩ ::
      (u16.columns c.groups ++ (⟨.u32, c.version⟩ :: ⟨.u64, c.logical⟩ ::
        ((if 6 ≤ formatVersion then [⟨.i64, c.priority⟩] else []) ++
          ((if 7 ≤ formatVersion then
              ⟨.u64, c.placement.generation⟩ :: ⟨.u32, c.placement.numShards⟩ ::
                ⟨.u8, c.placement.mode⟩ :: u32.columns c.placement.positions
            else []) ++
            ((if 8 ≤ formatVersion then [⟨.u64, c.sourceGeneration⟩] else []) ++
              (if 9 ≤ formatVersion then u32.columns c.predicate else [])))))))))

end ExactColumns

/-! ## reading the section -/

/-- Fail unless a column has one element for each query. -/
def checkLength (length numQueries : Nat) (error : String) : Except String Unit :=
  ensure (length = numQueries) error

def scanPriority (formatVersion numQueries : Nat) : Scan (List Int64) :=
  if 6 ≤ formatVersion then do
    let priority ← Scan.column .i64
    Scan.check (checkLength priority.length numQueries "segment priority column length mismatch")
    return priority
  else return []

/-- Rebuild the placement of row `i` and check it. -/
def PlacementColumns.placementAt (c : PlacementColumns) (i : Nat) :
    Except String QueryPlacement := do
  ensure (u32.fits c.positions i) "segment ownership positions overrun placement blob"
  match QueryPlacement.fromRaw (c.generation.getD i 0) (c.numShards.getD i 0) (c.mode.getD i 0)
      (u32.rowAt c.positions i) with
  | .ok p => .ok p
  | .error e => .error e.message

def scanPlacement (formatVersion numQueries : Nat) :
    Scan (PlacementColumns × List QueryPlacement) :=
  if 7 ≤ formatVersion then do
    let generation ← Scan.column .u64
    let numShards ← Scan.column .u32
    let mode ← Scan.column .u8
    let positions ← u32.scanSpans
    let c : PlacementColumns := ⟨generation, numShards, mode, positions⟩
    Scan.check (ensure (generation.length = numQueries && numShards.length = numQueries
      && mode.length = numQueries && positions.off.length = numQueries
      && positions.len.length = numQueries) "segment ownership column length mismatch")
    let placements ← Scan.check ((List.range numQueries).mapM c.placementAt)
    return (c, placements)
  else return (.none, [])

def scanSourceGeneration (formatVersion numQueries : Nat) : Scan (List UInt64) :=
  if 8 ≤ formatVersion then do
    let generation ← Scan.column .u64
    Scan.check (checkLength generation.length numQueries
      "segment source-generation column length mismatch")
    return generation
  else return []

def scanPredicate (formatVersion : Nat) : Scan (Spans UInt32) :=
  if 9 ≤ formatVersion then u32.scanSpans else return .none

/-- Read the exact section. -/
def scanExact (formatVersion numQueries : Nat) : Scan (ExactColumns × List QueryPlacement) := do
  let reqMask ← Scan.column .bits64
  let forbMask ← Scan.column .bits64
  let req ← u16.scanSpans
  let forb ← u16.scanSpans
  let groupStart ← Scan.column .u32
  let groupCount ← Scan.column .u16
  let groups ← u16.scanSpans
  let version ← Scan.column .u32
  let logical ← Scan.column .u64
  let priority ← scanPriority formatVersion numQueries
  let (placement, placements) ← scanPlacement formatVersion numQueries
  let sourceGeneration ← scanSourceGeneration formatVersion numQueries
  let predicate ← scanPredicate formatVersion
  return (⟨reqMask, forbMask, req, forb, groupStart, groupCount, groups, version, logical, priority,
    placement, sourceGeneration, predicate⟩, placements)

/-! ## the section is read back -/

section Scan

variable {formatVersion : Nat} {rows : List Row}

theorem lays_scanPriority
    (h : ColumnsFit (if 6 ≤ formatVersion then [⟨.i64, rows.map Row.priority⟩] else [])) :
    Lays (scanPriority formatVersion rows.length)
      (encodeColumns (if 6 ≤ formatVersion then [⟨.i64, rows.map Row.priority⟩] else []))
      (if 6 ≤ formatVersion then rows.map Row.priority else []) := by
  unfold scanPriority
  split
  · next hv =>
    rw [if_pos hv, columnsFit_cons] at h
    exact .column h.1 (.bind_nil (lays_check (ensure_of (by simp) _)) (lays_done _))
  · exact lays_done _

theorem lays_scanSourceGeneration
    (h : ColumnsFit (if 8 ≤ formatVersion then [⟨.u64, rows.map Row.sourceGeneration⟩] else [])) :
    Lays (scanSourceGeneration formatVersion rows.length)
      (encodeColumns (if 8 ≤ formatVersion then [⟨.u64, rows.map Row.sourceGeneration⟩] else []))
      (if 8 ≤ formatVersion then rows.map Row.sourceGeneration else []) := by
  unfold scanSourceGeneration
  split
  · next hv =>
    rw [if_pos hv, columnsFit_cons] at h
    exact .column h.1 (.bind_nil (lays_check (ensure_of (by simp) _)) (lays_done _))
  · exact lays_done _

theorem mapM_range'_eq_ok {ε α : Type} {f : Nat → Except ε α} {xs : List α} {start : Nat}
    (h : ∀ (i : Nat) (x : α), xs[i]? = some x → f (start + i) = .ok x) :
    (List.range' start xs.length).mapM f = .ok xs := by
  induction xs generalizing start with
  | nil => rfl
  | cons x xs ih =>
    have hhead : f start = .ok x := h 0 x rfl
    have htail : (List.range' (start + 1) xs.length).mapM f = .ok xs := by
      refine ih fun i y hy => ?_
      rw [Nat.add_right_comm]
      exact h (i + 1) y hy
    rw [length_cons, range'_succ, mapM_cons, hhead, ok_bind, htail, ok_bind]
    rfl

variable {ps : List QueryPlacement}

theorem placementAt_of {i : Nat} {p : QueryPlacement} (h : ps[i]? = some p)
    (hblob : (PlacementColumns.of ps).positions.blob.length < 2 ^ 32) :
    (PlacementColumns.of ps).placementAt i = .ok p := by
  have hpos : (ps.map QueryPlacement.positions)[i]? = some p.positions := by
    rw [getElem?_map, h]
    rfl
  have hlen : p.positions.length < u32.size := by
    have hend := rowStart_add_length_le hpos
    have hblob' : (ps.map QueryPlacement.positions).flatten.length < 2 ^ 32 := hblob
    show p.positions.length < 2 ^ 32
    omega
  have hfits := Count.fits_layOut hpos hlen hblob
  have hrow := rowAt_layOut hpos hlen hblob
  have hparts := p.fromRaw_parts
  unfold PlacementColumns.placementAt
  simp [PlacementColumns.of, hfits, hrow, h, hparts]

theorem lays_scanPlacement (h : ColumnsFit (if 7 ≤ formatVersion then
      ⟨.u64, (PlacementColumns.of ps).generation⟩ :: ⟨.u32, (PlacementColumns.of ps).numShards⟩ ::
        ⟨.u8, (PlacementColumns.of ps).mode⟩ :: u32.columns (PlacementColumns.of ps).positions
      else [])) :
    Lays (scanPlacement formatVersion ps.length)
      (encodeColumns (if 7 ≤ formatVersion then
        ⟨.u64, (PlacementColumns.of ps).generation⟩ :: ⟨.u32, (PlacementColumns.of ps).numShards⟩ ::
          ⟨.u8, (PlacementColumns.of ps).mode⟩ ::
          u32.columns (PlacementColumns.of ps).positions else []))
      (if 7 ≤ formatVersion then .of ps else .none, if 7 ≤ formatVersion then ps else []) := by
  by_cases hv : 7 ≤ formatVersion
  · simp only [scanPlacement, if_pos hv, columnsFit_cons] at h ⊢
    obtain ⟨hgen, hshards, hmode, hpos⟩ := h
    have hplacements : (List.range ps.length).mapM (PlacementColumns.of ps).placementAt =
        .ok ps := by
      rw [range_eq_range']
      refine mapM_range'_eq_ok fun i p hp => ?_
      rw [Nat.zero_add]
      exact placementAt_of hp (blob_lt_of_columnsFit hpos)
    refine .column hgen (.column hshards (.column hmode ?_))
    rw [← append_nil (u32.columns _)]
    refine .columns (lays_scanSpans hpos) ?_
    refine .bind_nil (lays_check (ensure_of ?_ _)) ?_
    · simp [PlacementColumns.of]
    · exact .bind_nil (lays_check hplacements) (lays_done _)
  · simp only [scanPlacement, if_neg hv]
    exact lays_done _

theorem lays_scanPredicate
    (h : ColumnsFit (if 9 ≤ formatVersion then
      u32.columns (u32.layOut (rows.map fun r => r.body.predicate)) else [])) :
    Lays (scanPredicate formatVersion)
      (encodeColumns (if 9 ≤ formatVersion then
        u32.columns (u32.layOut (rows.map fun r => r.body.predicate)) else []))
      (if 9 ≤ formatVersion then u32.layOut (rows.map fun r => r.body.predicate)
        else .none) := by
  unfold scanPredicate
  split
  · next hv =>
    rw [if_pos hv] at h
    exact lays_scanSpans h
  · exact lays_done _

/-- **The exact section is read back**: the columns its version keeps, and
the placements of the rows when it keeps those. -/
theorem lays_scanExact (h : ColumnsFit ((ExactColumns.ofRows rows).columns formatVersion)) :
    Lays (scanExact formatVersion rows.length)
      (encodeColumns ((ExactColumns.ofRows rows).columns formatVersion))
      ((ExactColumns.ofRows rows).atVersion formatVersion,
        if 7 ≤ formatVersion then rows.map Row.placement else []) := by
  simp only [ExactColumns.columns, columnsFit_cons, columnsFit_append] at h
  obtain ⟨hreqMask, hforbMask, hreq, hforb, hstart, hcount, hgroups, hversion, hlogical, hpriority,
    hplacement, hsource, hpredicate⟩ := h
  have hlen : (rows.map Row.placement).length = rows.length := length_map _
  have hplaced := lays_scanPlacement hplacement
  rw [hlen] at hplaced
  refine .column hreqMask (.column hforbMask (.columns (lays_scanSpans hreq)
    (.columns (lays_scanSpans hforb) (.column hstart (.column hcount
      (.columns (lays_scanSpans hgroups) (.column hversion (.column hlogical
        (.columns (lays_scanPriority hpriority) (.columns hplaced
          (.columns (lays_scanSourceGeneration hsource) ?_)))))))))))
  rw [← append_nil (if 9 ≤ formatVersion then _ else _)]
  refine .columns (lays_scanPredicate hpredicate) ?_
  exact lays_done _

end Scan

/-! ## rows are read back -/

/-- The columns a format version leaves out hold nothing but defaults. -/
structure LeavesDefaults (formatVersion : Nat) (rows : List Row) : Prop where
  priority : 6 ≤ formatVersion ∨ ∀ r ∈ rows, r.priority = 0
  placement : 7 ≤ formatVersion ∨ ∀ r ∈ rows, r.placement = .standalone
  sourceGeneration : 8 ≤ formatVersion ∨ ∀ r ∈ rows, r.sourceGeneration = 0
  predicate : 9 ≤ formatVersion ∨ ∀ r ∈ rows, r.body.predicate = []

namespace ExactColumns

section Rows

variable {formatVersion : Nat} {rows : List Row} {i : Nat} {r : Row}
  (hfit : ColumnsFit ((ofRows rows).columns formatVersion)) (h : rows[i]? = some r)

include h

variable {α : Type*}

theorem getD_map (f : Row → α) (d : α) : (rows.map f).getD i d = f r := by
  rw [getD_eq_getElem?_getD, getElem?_map, h]
  rfl

/-- A column that is kept, or holds the default everywhere, reads back. -/
theorem getD_kept {n : Nat} (f : Row → α) (d : α) (hkept : n ≤ formatVersion ∨ ∀ r ∈ rows, f r = d) :
    (if n ≤ formatVersion then rows.map f else []).getD i d = f r := by
  by_cases hv : n ≤ formatVersion
  · rw [if_pos hv]
    exact getD_map h f d
  · rw [if_neg hv]
    exact ((hkept.resolve_left hv) r (mem_of_getElem? h)).symm

theorem getElem?_map_rows (f : Row → α) : (rows.map f)[i]? = some (f r) := by
  rw [getElem?_map, h]
  rfl

variable (hfits : r.body.Fits)

include hfit hfits

theorem groupWindow_ofRows :
    ((ofRows rows).groupStart[i]?.map UInt32.toNat).getD 0 =
        rowStart (rows.map fun r => r.body.groups) i ∧
      ((ofRows rows).groupCount[i]?.map UInt16.toNat).getD 0 = r.body.groups.length := by
  simp only [columns, columnsFit_cons, columnsFit_append] at hfit
  obtain ⟨-, -, -, -, -, -, hgroups, -⟩ := hfit
  have hrow := getElem?_map_rows h fun r => r.body.groups
  have hend := rowStart_add_length_le hrow
  have hoff : (rows.map fun r => r.body.groups).flatten.length < 2 ^ 32 := by
    simp only [Count.columns, columnsFit_cons] at hgroups
    exact (Count.length_off_layOut (rows.flatMap fun r => r.body.groups)) ▸ hgroups.1
  have hi : i < (rows.map fun r => r.body.groups).length := (List.getElem?_eq_some_iff.mp hrow).1
  have hstart : (UInt32.ofNat (rowStart (rows.map fun r => r.body.groups) i)).toNat =
      rowStart (rows.map fun r => r.body.groups) i :=
    UInt32.toNat_ofNat_of_lt' (by simp only [UInt32.size]; omega)
  have hcount : (UInt16.ofNat r.body.groups.length).toNat = r.body.groups.length :=
    UInt16.toNat_ofNat_of_lt' hfits.groups
  simp [ofRows, getElem?_rowStarts hi, h, hstart, hcount]

theorem groupsAt_ofRows : (ofRows rows).groupsAt i = r.body.groups := by
  obtain ⟨hstart, hcount⟩ := groupWindow_ofRows hfit h hfits
  simp only [columns, columnsFit_cons, columnsFit_append] at hfit
  obtain ⟨-, -, -, -, -, -, hgroups, -⟩ := hfit
  have hrow := getElem?_map_rows h fun r => r.body.groups
  unfold groupsAt
  simp only [hstart, hcount]
  refine ext_getElem? fun k => ?_
  by_cases hk : k < r.body.groups.length
  · have hget : r.body.groups[k]? = some r.body.groups[k] := getElem?_eq_getElem hk
    have hflat := getElem?_flatten_rowStart hrow hk
    rw [hget] at hflat
    rw [getElem?_map, getElem?_range hk, hget, Option.map_some]
    exact congrArg some (rowAt_layOut hflat
      (hfits.group _ (getElem_mem hk)) (blob_lt_of_columnsFit hgroups))
  · rw [getElem?_eq_none (by simpa using hk), getElem?_eq_none (by simpa using hk)]

theorem bodyAt_ofRows (hkept : LeavesDefaults formatVersion rows) :
    ((ofRows rows).atVersion formatVersion).bodyAt i = r.body := by
  have hgroups := groupsAt_ofRows hfit h hfits
  simp only [columns, columnsFit_cons, columnsFit_append] at hfit
  obtain ⟨-, -, hreq, hforb, -, -, -, -, -, -, -, -, hpredicate⟩ := hfit
  have hreqTail : u16.rowAt (ofRows rows).req i = r.body.reqTail :=
    rowAt_layOut (getElem?_map_rows h fun r => r.body.reqTail) hfits.reqTail
      (blob_lt_of_columnsFit hreq)
  have hforbTail : u16.rowAt (ofRows rows).forb i = r.body.forbTail :=
    rowAt_layOut (getElem?_map_rows h fun r => r.body.forbTail) hfits.forbTail
      (blob_lt_of_columnsFit hforb)
  have hprogram : u32.rowAt (if 9 ≤ formatVersion then (ofRows rows).predicate else .none) i =
      r.body.predicate := by
    by_cases hv : 9 ≤ formatVersion
    · rw [if_pos hv] at hpredicate ⊢
      exact rowAt_layOut (getElem?_map_rows h fun r => r.body.predicate)
        hfits.predicate (blob_lt_of_columnsFit hpredicate)
    · rw [if_neg hv, Count.rowAt_none]
      exact ((hkept.predicate.resolve_left hv) r (mem_of_getElem? h)).symm
  unfold bodyAt
  have hreqMask : (ofRows rows).reqMask.getD i 0 = r.body.reqMask := getD_map h _ _
  have hforbMask : (ofRows rows).forbMask.getD i 0 = r.body.forbMask := getD_map h _ _
  simp only [atVersion, hprogram, hreqTail, hforbTail, hreqMask, hforbMask]
  congr 1

/-- **Every row is read back from the stored columns.** -/
theorem rowAt_ofRows (htagged : r.tags.length < 2 ^ 16) (hkept : LeavesDefaults formatVersion rows)
    (htags : ColumnsFit (u16.columns (u16.layOut (rows.map Row.tags)))) :
    ((ofRows rows).atVersion formatVersion).rowAt
      (if 7 ≤ formatVersion then rows.map Row.placement else [])
      (u16.layOut (rows.map Row.tags)) i = r := by
  have hbody := bodyAt_ofRows hfit h hfits hkept
  have htag : u16.rowAt (u16.layOut (rows.map Row.tags)) i = r.tags :=
    rowAt_layOut (getElem?_map_rows h Row.tags) htagged
      (blob_lt_of_columnsFit htags)
  have hpriority := getD_kept h Row.priority 0 hkept.priority
  have hplacement := getD_kept h Row.placement .standalone hkept.placement
  have hsource := getD_kept h Row.sourceGeneration 0 hkept.sourceGeneration
  have hversion : (ofRows rows).version.getD i 0 = r.version := getD_map h _ _
  have hlogical : (ofRows rows).logical.getD i 0 = r.logical := getD_map h _ _
  unfold rowAt
  rw [hbody, htag]
  simp only [atVersion, ofRows] at hversion hlogical ⊢
  rw [hpriority, hplacement, hsource, hversion, hlogical]

end Rows

end ExactColumns

end ReverseRusty
