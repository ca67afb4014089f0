import ReverseRusty.Lib.Slice

/-!
# ReverseRusty.SigKey

Stable hashing (`util.rs`): FNV-1a over bytes, and the signature key that
folds a group of feature ids into the 64-bit key under which a query is
posted and with which a title probes.

A signature key is never zero: zero is the empty-slot sentinel of the
frozen on-disk tables, so `finalizeSig` folds it to one.
-/

namespace ReverseRusty

/-- A feature id: the dense (or synthetic) `u32` a feature name resolves to. -/
abbrev FeatureId := UInt32

def fnvBasis : UInt64 := 0xcbf29ce484222325

def fnvPrime : UInt64 := 0x100000001b3

def fnv1a64 (bytes : List UInt8) : UInt64 :=
  bytes.foldl (fun h b => (h ^^^ b.toUInt64) * fnvPrime) fnvBasis

/-- The avalanche that ends a signature key, before zero is reserved. -/
def avalancheSig (h : UInt64) : UInt64 :=
  let h := h ^^^ (h >>> 33)
  let h := h * 0xff51afd7ed558ccd
  h ^^^ (h >>> 33)

/-- Final avalanche and zero reservation for a signature key. -/
def finalizeSig (h : UInt64) : UInt64 :=
  if avalancheSig h = 0 then 1 else avalancheSig h

def mixFeature (h : UInt64) (f : FeatureId) : UInt64 :=
  (((h ^^^ f.toUInt64) * fnvPrime) ^^^ (f.toUInt64 >>> 13)) * fnvPrime

def sigKey (features : List FeatureId) : UInt64 :=
  finalizeSig (features.foldl mixFeature fnvBasis)

/-- The key of the empty group, under which always-candidates are posted
and which every broad-lane probe asks for. -/
def universalSig : UInt64 := sigKey []

theorem finalizeSig_ne_zero (h : UInt64) : finalizeSig h ≠ 0 := by
  unfold finalizeSig
  split
  · decide
  · assumption

/-- No signature key is the frozen tables' empty-slot sentinel. -/
theorem sigKey_ne_zero (features : List FeatureId) : sigKey features ≠ 0 :=
  finalizeSig_ne_zero _

end ReverseRusty
