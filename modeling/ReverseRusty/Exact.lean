import ReverseRusty.Predicate
import ReverseRusty.Ownership

/-!
# ReverseRusty.Exact

The exact-verification store (`exact.rs`, `exact/store/*.rs`).  The source
keeps one column per field; here a stored query is one `Row`, whose body
is what verification reads and whose remaining fields are its identity.
Counts the source narrows to `u16`/`u32` are narrowed here too: a row
keeps as many elements as the narrowed count says.
-/

namespace ReverseRusty

abbrev TagId := UInt32

/-! ## tag filters -/

/-- Whether two sorted tag slices share an element: search the longer one
for each element of the shorter. -/
def sortedIntersects (a b : List TagId) : Bool :=
  if a.length ≤ b.length then a.any (binarySearch b) else b.any (binarySearch a)

/-- A compiled tag filter: every group must share a tag with the row. -/
structure TagPredicate where
  groups : List (List TagId)
deriving DecidableEq, Repr

namespace TagPredicate

def empty : TagPredicate := ⟨[]⟩

/-- Build a filter from per-key value sets. -/
def new (groups : List (List TagId)) : TagPredicate := ⟨groups.map sortDedup⟩

def isEmpty (p : TagPredicate) : Bool := p.groups.isEmpty

/-- Whether a row's tags satisfy the filter. -/
def «matches» (p : TagPredicate) (tags : List TagId) : Bool :=
  p.groups.all (sortedIntersects tags)

@[simp] theorem isEmpty_empty : empty.isEmpty = true := rfl

@[simp] theorem matches_of_isEmpty {p : TagPredicate} (h : p.isEmpty = true)
    (tags : List TagId) : p.matches tags = true := by
  rw [isEmpty, List.isEmpty_iff] at h
  simp [TagPredicate.matches, h]

end TagPredicate

/-! ## rows -/

/-- As many elements as a `w`-bit count of them says. -/
def narrow {α : Type*} (w : Nat) (xs : List α) : List α := xs.take (xs.length % 2 ^ w)

theorem narrow_eq_self {α : Type*} {w : Nat} {xs : List α} (h : xs.length < 2 ^ w) :
    narrow w xs = xs := by
  rw [narrow, Nat.mod_eq_of_lt h, List.take_length]

/-- The part of a stored query that verification reads. -/
structure Body where
  reqMask : MaskWord
  forbMask : MaskWord
  reqTail : List FeatureId
  forbTail : List FeatureId
  groups : List (List FeatureId)
  predicate : List UInt32
deriving DecidableEq, Repr

def unmasked (d : Dict) (feats : List FeatureId) : List FeatureId :=
  feats.filter fun f => d.maskBit f = noMaskBit

/-- Route each feature to its mask bit or its tail column, and encode the
compound clauses. -/
def Body.compile (d : Dict) (ex : Extracted) : Body where
  reqMask := titleMask d ex.required
  forbMask := titleMask d ex.forbidden
  reqTail := narrow 16 (unmasked d ex.required)
  forbTail := narrow 16 (unmasked d ex.forbidden)
  groups := (narrow 16 ex.anyof).map (narrow 16)
  predicate := narrow 32 (encodePredicate ex)

/-- A stored query. -/
structure Row where
  body : Body
  tags : List TagId
  priority : Int64
  placement : QueryPlacement
  sourceGeneration : UInt64
  version : UInt32
  logical : UInt64
deriving DecidableEq, Repr

/-! ## verification -/

def Body.verify (b : Body) (v : TitleView) : Bool :=
  (b.reqMask &&& v.posMask == b.reqMask)
    && (b.forbMask &&& v.negMask == 0)
    && b.reqTail.all (binarySearch v.pos)
    && !b.forbTail.any (binarySearch v.neg)
    && b.groups.all (fun g => g.any (binarySearch v.pos))
    && (b.predicate.isEmpty || verifyPredicate b.predicate v)

/-- Verify a title and the tags of a row. -/
def Row.verify (r : Row) (v : TitleView) (pred : TagPredicate) : Bool :=
  r.body.verify v && (pred.isEmpty || pred.matches r.tags)

theorem Row.verify_eq (r : Row) (v : TitleView) (pred : TagPredicate) :
    r.verify v pred = (r.body.verify v && pred.matches r.tags) := by
  rw [Row.verify]
  cases h : pred.isEmpty with
  | true => rw [TagPredicate.matches_of_isEmpty h, Bool.true_or]
  | false => rw [Bool.false_or]

/-- Whether a stored program has a quoted part. -/
def Row.hasPhrases (r : Row) : Bool := predicateHasPhrases r.body.predicate

/-! ## canonical bodies -/

def sorted {α : Type*} [LinearOrder α] (xs : List α) : List α := xs.insertionSort (· ≤ ·)

def Body.canonicalGroups (b : Body) : List (List FeatureId) := sorted (b.groups.map sorted)

/-- Equality of the semantic columns up to order. -/
def Body.bodiesEqual (a b : Body) : Bool :=
  a.reqMask == b.reqMask && a.forbMask == b.forbMask
    && a.reqTail.length == b.reqTail.length && a.forbTail.length == b.forbTail.length
    && a.groups.length == b.groups.length
    && sorted a.reqTail == sorted b.reqTail && sorted a.forbTail == sorted b.forbTail
    && a.canonicalGroups == b.canonicalGroups
    && predicateBooleanProgram a.predicate == predicateBooleanProgram b.predicate

/-- Mix the eight little-endian bytes of a word into a running hash. -/
def mixWord (h : UInt64) (w : UInt64) : UInt64 :=
  (List.range 8).foldl (fun h i => (h ^^^ ((w >>> UInt64.ofNat (8 * i)) &&& 0xff)) * fnvPrime) h

/-- The words a body signature hashes, with a separator before each
variable-length section. -/
def Body.signatureWords (b : Body) : List UInt64 :=
  let program := predicateBooleanProgram b.predicate
  [b.reqMask.toNat.toUInt64, b.forbMask.toNat.toUInt64]
    ++ 0xA1 :: (sorted b.reqTail).map UInt32.toUInt64
    ++ 0xA2 :: (sorted b.forbTail).map UInt32.toUInt64
    ++ 0xA3 :: b.canonicalGroups.flatMap (fun g => 0xA4 :: g.map UInt32.toUInt64)
    ++ 0xA5 :: program.1.toUInt64 :: program.2.map UInt32.toUInt64

/-- The 64-bit signature of a body's semantic columns. -/
def Body.signature (b : Body) : UInt64 :=
  b.signatureWords.foldl mixWord (fnv1a64 [0x62, 0x6f, 0x64, 0x79])

end ReverseRusty
