import ReverseRusty.Lib.Text

/-!
# ReverseRusty.Lib.Reader

Strict readers of a byte string, which take bytes off its front or fail.

`Reader.Reads` says what a reader makes of the bytes that were written for
it, whatever follows them; it composes along the reader's own steps
(`Reads.bind`).
-/

namespace ReverseRusty

open List

/-- A reader that takes bytes off the front of what remains. -/
abbrev Reader := StateT (List UInt8) (Except String)

namespace Reader

variable {α β : Type}

/-- The next bytes. -/
def take (len : Nat) : Reader (List UInt8) := fun rest =>
  if len ≤ rest.length then .ok (rest.take len, rest.drop len) else .error "short record payload"

def word (c : Codec α) : Reader α := do
  let bytes ← take c.width
  return c.dec bytes

def text (len : Nat) : Reader String := do
  let bytes ← take len
  match fromUtf8 bytes with
  | some s => return s
  | none => throw "invalid utf-8 sequence"

def whole (p : Reader α) (bytes : List UInt8) : Except String α := do
  let (a, rest) ← p bytes
  if rest = [] then return a else throw "trailing record payload"

/-- Read a number of values one after the other. -/
def repeated (p : Reader α) : Nat → Reader (List α)
  | 0 => return []
  | n + 1 => do
    let a ← p
    let as ← repeated p n
    return a :: as

def Reads (p : Reader α) (bytes : List UInt8) (a : α) : Prop :=
  ∀ rest, p (bytes ++ rest) = .ok (a, rest)

variable {bytes : List UInt8}

theorem run_bind {p : Reader α} {f : α → Reader β} {rest : List UInt8} {a : α}
    (h : p bytes = .ok (a, rest)) : (p >>= f) bytes = f a rest := by
  change (p bytes >>= fun x => f x.1 x.2) = f a rest
  rw [h]
  rfl

/-- Looking at what remains takes nothing. -/
theorem run_get (f : List UInt8 → Reader β) (bytes : List UInt8) :
    (get >>= f) bytes = f bytes bytes := rfl

variable {bytes' : List UInt8}

theorem Reads.bind {p : Reader α} {f : α → Reader β} {a : α} {b : β} (h : Reads p bytes a)
    (h' : Reads (f a) bytes' b) : Reads (p >>= f) (bytes ++ bytes') b := by
  intro rest
  rw [append_assoc, run_bind (h _), h']

theorem Reads.pure (a : α) : Reads (Pure.pure a) [] a := fun _ => rfl

theorem Reads.run {p : Reader α} {f : α → Reader β} {a : α} (h : Reads p bytes a) :
    (p >>= f) (bytes ++ bytes') = f a bytes' :=
  run_bind (h bytes')

theorem Reads.map {p : Reader α} {a : α} (h : Reads p bytes a) (f : α → β) :
    Reads (do let a ← p; return f a) bytes (f a) :=
  fun rest => run_bind (h rest)

theorem reads_take (bytes : List UInt8) : Reads (take bytes.length) bytes bytes := by
  intro rest
  rw [take, if_pos (by simp), take_left, drop_left]

theorem reads_word (c : Codec α) (a : α) : Reads (word c) (c.enc a) a := by
  have htake := reads_take (c.enc a)
  rw [c.length_enc] at htake
  have hmap := htake.map c.dec
  rwa [c.dec_enc] at hmap

theorem reads_text (s : String) : Reads (text s.utf8ByteSize) (utf8 s) s := by
  intro rest
  have htake := reads_take (utf8 s) rest
  rw [length_utf8] at htake
  rw [text, run_bind htake]
  simp only [fromUtf8_utf8]
  rfl

theorem reads_repeated {p : Reader α} {enc : α → List UInt8} {as : List α}
    (h : ∀ a ∈ as, Reads p (enc a) a) : Reads (repeated p as.length) (as.flatMap enc) as := by
  induction as with
  | nil => exact Reads.pure []
  | cons a as ih =>
    rw [flatMap_cons]
    refine (h a mem_cons_self).bind ?_
    exact (ih fun b hb => h b (mem_cons_of_mem a hb)).map (a :: ·)

theorem Reads.whole {p : Reader α} {a : α} (h : p bytes = .ok (a, [])) : p.whole bytes = .ok a := by
  rw [Reader.whole, h]
  rfl

end Reader

end ReverseRusty
