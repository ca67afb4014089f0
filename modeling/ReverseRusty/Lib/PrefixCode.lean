import ReverseRusty.Lib.Text

/-!
# ReverseRusty.Lib.PrefixCode

Codes that can be told off from what stands behind them: no code word goes on
into another.  A counted list of such codes is one again, as long as its count
stands for its length.
-/

namespace ReverseRusty

open List

variable {α β ω : Type}

/-- Two code words followed by anything agree only if they and what follows
them do. -/
def PrefixCode (enc : α → List ω) (ok : α → Prop) : Prop :=
  ∀ a b r r', ok a → ok b → enc a ++ r = enc b ++ r' → a = b ∧ r = r'

namespace PrefixCode

variable {enc : α → List ω} {ok : α → Prop}

theorem word : PrefixCode (fun w : ω => [w]) fun _ => True := by
  intro a b r r' _ _ h
  exact List.cons.inj h

theorem injective (h : PrefixCode enc ok) {a b : α} (ha : ok a) (hb : ok b) (heq : enc a = enc b) :
    a = b :=
  (h a b [] [] ha hb (by rw [heq])).1

theorem mono (h : PrefixCode enc ok) {ok' : α → Prop} (himp : ∀ a, ok' a → ok a) :
    PrefixCode enc ok' :=
  fun a b r r' ha hb => h a b r r' (himp a ha) (himp b hb)

theorem comap (h : PrefixCode enc ok) {f : β → α} (hf : f.Injective) :
    PrefixCode (fun b => enc (f b)) fun b => ok (f b) := by
  intro a b r r' ha hb heq
  obtain ⟨hab, hr⟩ := h _ _ r r' ha hb heq
  exact ⟨hf hab, hr⟩

theorem append {enc' : β → List ω} {ok' : β → Prop} (h : PrefixCode enc ok)
    (h' : PrefixCode enc' ok') :
    PrefixCode (fun p : α × β => enc p.1 ++ enc' p.2) fun p => ok p.1 ∧ ok' p.2 := by
  rintro ⟨a, b⟩ ⟨c, d⟩ r r' ⟨ha, hb⟩ ⟨hc, hd⟩ heq
  simp only [append_assoc] at heq
  obtain ⟨rfl, hrest⟩ := h a c _ _ ha hc heq
  obtain ⟨rfl, hr⟩ := h' b d r r' hb hd hrest
  exact ⟨rfl, hr⟩

theorem flatMap (h : PrefixCode enc ok) {xs ys : List α} {r r' : List ω}
    (hlen : xs.length = ys.length) (hx : ∀ x ∈ xs, ok x) (hy : ∀ y ∈ ys, ok y)
    (heq : xs.flatMap enc ++ r = ys.flatMap enc ++ r') : xs = ys ∧ r = r' := by
  induction xs generalizing ys with
  | nil =>
    obtain rfl := length_eq_zero_iff.mp hlen.symm
    exact ⟨rfl, heq⟩
  | cons x xs ih =>
    cases ys with
    | nil => simp at hlen
    | cons y ys =>
      simp only [flatMap_cons, append_assoc] at heq
      obtain ⟨rfl, hrest⟩ := h x y _ _ (hx x mem_cons_self) (hy y mem_cons_self) heq
      obtain ⟨rfl, hr⟩ := ih (by simpa using hlen)
        (fun x' hx' => hx x' (mem_cons_of_mem x hx'))
        (fun y' hy' => hy y' (mem_cons_of_mem x hy')) hrest
      exact ⟨rfl, hr⟩

theorem counted (h : PrefixCode enc ok) {count : Nat → List ω} {bound : Nat}
    (hcount : PrefixCode count (· < bound)) :
    PrefixCode (fun xs : List α => count xs.length ++ xs.flatMap enc)
      fun xs => xs.length < bound ∧ ∀ x ∈ xs, ok x := by
  intro xs ys r r' hx hy heq
  simp only [append_assoc] at heq
  obtain ⟨hlen, hrest⟩ := hcount _ _ _ _ hx.1 hy.1 heq
  exact h.flatMap hlen hx.2 hy.2 hrest

end PrefixCode

theorem Codec.prefixCode (c : Codec α) : PrefixCode c.enc fun _ => True := by
  intro a b r r' _ _ heq
  obtain ⟨henc, hr⟩ := append_inj heq (by simp)
  exact ⟨by rw [← c.dec_enc a, henc, c.dec_enc], hr⟩

variable {bound : Nat}

theorem Codec.prefixCode_count (c : Codec α) {ofNat : Nat → α} {toNat : α → Nat}
    (hof : ∀ n < bound, toNat (ofNat n) = n) :
    PrefixCode (fun n => c.enc (ofNat n)) (· < bound) := by
  intro m n r r' hm hn heq
  obtain ⟨hcode, hr⟩ := c.prefixCode _ _ _ _ trivial trivial heq
  exact ⟨by rw [← hof m hm, hcode, hof n hn], hr⟩

theorem PrefixCode.text {count : Nat → List UInt8} (hcount : PrefixCode count (· < bound)) :
    PrefixCode (fun s : String => count s.utf8ByteSize ++ utf8 s) (·.utf8ByteSize < bound) := by
  intro s t r r' hs ht heq
  simp only [append_assoc] at heq
  obtain ⟨hlen, hrest⟩ := hcount _ _ _ _ hs ht heq
  obtain ⟨hbytes, hr⟩ := append_inj hrest (by rw [length_utf8, length_utf8, hlen])
  exact ⟨utf8_injective hbytes, hr⟩

end ReverseRusty
