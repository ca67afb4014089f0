import ReverseRusty.MmapBounds

/-!
# ReverseRusty.BaseBatch

A base segment as the batch driver hands it to the columnar kernel
(`eval_base_lane` in `segment/broad_batch/driver.rs`): both backings answer
like rows, groups and postings.
-/

namespace ReverseRusty

namespace BaseSegment

def hasHotEntries : BaseSegment → Bool
  | memory s => s.hasHotEntries
  | mmap m => m.hasHotEntries

def rowView : BaseSegment → RowView
  | memory s => s.rowView
  | mmap m => m.rowView

/-- The segment as the kernel asks it; a mapped one reads the file `data`. -/
def backend {w : Nat} (data : List UInt8) : BaseSegment → BroadBackend w
  | memory s => s.backend
  | mmap m => m.backend data

/-- The file a mapped segment reads holds what its sections name. -/
def Backs (data : List UInt8) : BaseSegment → Prop
  | memory _ => True
  | mmap m => m.Consistent data

section Attached

variable {d : Dict} {b : BaseSegment} {data : List UInt8}

theorem size_rowView : b.rowView.size = b.length := by
  cases b <;> rfl

theorem Attached.opened_mmap {m : MmapSegment} (h : (mmap m).Attached d) : m.Opened := by
  obtain ⟨seg, hseg, heq | ⟨ha, heq⟩⟩ := h.backing
  · contradiction
  · cases heq
    exact opened_of_openSegment
      (Segment.openSegment_writeSegment (hseg.valid (.refl d)).kept ha "")

/-- **Both backings answer like their rows.** -/
theorem Attached.reads_backend (h : b.Attached d) (hdata : b.Backs data) {w : Nat} :
    (b.backend data : BroadBackend w).Reads b.rowView := by
  cases b with
  | memory seg =>
    obtain ⟨seg', hseg, heq | ⟨-, heq⟩⟩ := h.backing
    · cases heq
      exact Segment.reads_backend (hseg.valid (.refl d)).grouped
    · contradiction
  | mmap m => exact MmapSegment.reads_backend h.opened_mmap hdata

/-- Without live quoted rows the kernel can evaluate every live body. -/
theorem Attached.plain_rowView (h : b.Attached d) (hplain : b.hasPhrasePredicates = false) :
    b.rowView.Plain := by
  cases b with
  | memory seg =>
    obtain ⟨seg', hseg, heq | ⟨-, heq⟩⟩ := h.backing
    · cases heq
      have hvalid := hseg.valid (.refl d)
      exact Segment.plain_rowView hvalid.grouped hvalid.kept hplain
    · contradiction
  | mmap m => exact MmapSegment.plain_rowView h.opened_mmap hplain

theorem Attached.verify_group (h : b.Attached d) {i m : Nat} (hm : m ∈ b.rowView.group i)
    (v : TitleView) : (b.rowView.row m).body.verify v = (b.rowView.row i).body.verify v := by
  rcases List.mem_cons.mp hm with rfl | hm
  · rfl
  · obtain ⟨seg, hseg, rfl | ⟨-, rfl⟩⟩ := h.backing
    · have hg := (hseg.valid (.refl d)).grouped
      have hmem : m ∈ seg.membersOf i := by
        split at hm
        · exact hm
        · contradiction
      obtain ⟨-, e, he, rfl⟩ := (hg.member i m).mp hmem
      obtain ⟨l, hl, -, -, hbody⟩ := hg.leader m e he
      show (seg.rowView.row m).body.verify v = (seg.rowView.row e.dupOf).body.verify v
      rw [Segment.row_rowView he, Segment.row_rowView hl]
      exact (verify_eq_of_bodiesEqual (hg.program _ l hl) (hg.program _ e he) hbody v).symm
    · contradiction

end Attached

end BaseSegment

end ReverseRusty
