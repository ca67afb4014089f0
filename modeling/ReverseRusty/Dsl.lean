import ReverseRusty.Lib.Outcome
import Mathlib

/-!
# ReverseRusty.Dsl

The query parser (`dsl.rs`): words, quoted phrases and any-of groups, each
with an optional leading dash, separated by whitespace.

The scanner works on characters and reports the position of what it refuses.
Its limits are checked at three places: the length before the scan, the size
of a group when it closes, the number of clauses at the end.
-/

namespace ReverseRusty

open List

namespace Dsl

/-! ## queries -/

inductive Atom where
  | term (word : String)
  | phrase (text : String)
  | anyOf (members : List String)
deriving DecidableEq, Repr

structure Clause where
  negated : Bool
  atom : Atom
deriving DecidableEq, Repr

structure Ast where
  clauses : List Clause
deriving DecidableEq, Repr

structure ParseLimits where
  /-- in bytes -/
  maxQueryLength : Nat
  maxClauses : Nat
  maxAnyOfSize : Nat
deriving DecidableEq, Repr

instance : LE ParseLimits where
  le a b := a.maxQueryLength ≤ b.maxQueryLength ∧ a.maxClauses ≤ b.maxClauses ∧
    a.maxAnyOfSize ≤ b.maxAnyOfSize

def defaultLimits : ParseLimits := ⟨10240, 256, 64⟩

/-- What the durable formats can hold. -/
def recoveryParseLimits : ParseLimits := ⟨2 ^ 32 - 1, 2 ^ 16 - 1, 2 ^ 16 - 1⟩

inductive ParseErrorKind where
  | trailingDash
  | unclosedGroup
  | unclosedQuote
  | emptyAnyOfGroup
  | queryTooLong
  | tooManyClauses
  | anyOfGroupTooLarge
deriving DecidableEq, Repr

structure ParseError where
  kind : ParseErrorKind
  /-- index of a character -/
  pos : Nat
deriving DecidableEq, Repr

/-! ## characters -/

/-- `char::is_whitespace`: the characters with the property White_Space. -/
def isWhitespace (c : Char) : Bool :=
  let n := c.toNat
  (0x9 ≤ n && n ≤ 0xD) || n == 0x20 || n == 0x85 || n == 0xA0 || n == 0x1680 ||
    (0x2000 ≤ n && n ≤ 0x200A) || n == 0x2028 || n == 0x2029 || n == 0x202F || n == 0x205F ||
    n == 0x3000

/-- `str::trim`. -/
def trim (cs : List Char) : List Char :=
  ((cs.dropWhile isWhitespace).reverse.dropWhile isWhitespace).reverse

/-- The characters a word goes on with. -/
def isWordChar (c : Char) : Bool := !isWhitespace c && c != '(' && c != '"'

/-! ## the scanner -/

/-- `push_member`. -/
def pushMember (members : List String) (cur : List Char) : List String :=
  if trim cur = [] then members else members ++ [String.ofList (trim cur)]

def groupStep (state : List String × List Char) (c : Char) : List String × List Char :=
  if c = ',' then (pushMember state.1 state.2, [])
  else if isWhitespace c then (state.1, state.2 ++ [' '])
  else (state.1, state.2 ++ [c])

def groupMembers (body : List Char) : List String :=
  let (members, cur) := body.foldl groupStep ([], [])
  pushMember members cur

/-- A scanned clause, the position behind it and the characters there. -/
abbrev Scanned := Except ParseError (Clause × Nat × List Char)

/-- An any-of group, behind its parenthesis. -/
def parseGroup (limits : ParseLimits) (negated : Bool) (opened : Nat) (chars : List Char) :
    Scanned :=
  let body := chars.takeWhile (· != ')')
  match chars.dropWhile (· != ')') with
  | [] => .error ⟨.unclosedGroup, opened⟩
  | _ :: rest =>
    let members := groupMembers body
    if members = [] then .error ⟨.emptyAnyOfGroup, opened⟩
    else if limits.maxAnyOfSize < members.length then .error ⟨.anyOfGroupTooLarge, opened⟩
    else .ok (⟨negated, .anyOf members⟩, opened + 1 + body.length + 1, rest)

def parsePhrase (negated : Bool) (opened : Nat) (chars : List Char) : Scanned :=
  let phrase := chars.takeWhile (· != '"')
  match chars.dropWhile (· != '"') with
  | [] => .error ⟨.unclosedQuote, opened⟩
  | _ :: rest =>
    .ok (⟨negated, .phrase (String.ofList (trim phrase))⟩, opened + 1 + phrase.length + 1, rest)

def parseWord (negated : Bool) (pos : Nat) (chars : List Char) : Scanned :=
  let word := chars.takeWhile isWordChar
  .ok (⟨negated, .term (String.ofList word)⟩, pos + word.length, chars.dropWhile isWordChar)

def parseAtom (limits : ParseLimits) (negated : Bool) (pos : Nat) : List Char → Scanned
  | '(' :: chars => parseGroup limits negated pos chars
  | '"' :: chars => parsePhrase negated pos chars
  | chars => parseWord negated pos chars

def parseClause (limits : ParseLimits) (pos : Nat) : List Char → Scanned
  -- a dash negates what stands right behind it, and nothing else may stand there
  | ['-'] => .error ⟨.trailingDash, pos⟩
  | '-' :: c :: chars =>
    if isWhitespace c then .error ⟨.trailingDash, pos⟩
    else parseAtom limits true (pos + 1) (c :: chars)
  | chars => parseAtom limits false pos chars

/-- The loop over the clauses.  Each takes a character or more, so as many
turns as there are characters suffice. -/
def parseClauses (limits : ParseLimits) : Nat → Nat → List Char → Except ParseError (List Clause)
  | 0, _, _ => .ok []
  | fuel + 1, pos, chars =>
    let start := pos + (chars.takeWhile isWhitespace).length
    match chars.dropWhile isWhitespace with
    | [] => .ok []
    | c :: rest => do
      let (clause, pos, chars) ← parseClause limits start (c :: rest)
      let clauses ← parseClauses limits fuel pos chars
      return clause :: clauses

def parseWithLimits (input : String) (limits : ParseLimits) : Except ParseError Ast :=
  if limits.maxQueryLength < input.utf8ByteSize then .error ⟨.queryTooLong, 0⟩
  else do
    let clauses ← parseClauses limits input.toList.length 0 input.toList
    if limits.maxClauses < clauses.length then .error ⟨.tooManyClauses, 0⟩
    else return ⟨clauses⟩

def parse (input : String) : Except ParseError Ast := parseWithLimits input defaultLimits

def parseForRecovery (input : String) : Except ParseError Ast :=
  parseWithLimits input recoveryParseLimits

/-! ## written queries -/

/-- How an atom is written. -/
def Atom.write : Atom → List Char
  | .term word => word.toList
  | .phrase text => '"' :: (text.toList ++ ['"'])
  | .anyOf members => '(' :: ([','].intercalate (members.map String.toList) ++ [')'])

def Clause.write (c : Clause) : List Char :=
  if c.negated then '-' :: c.atom.write else c.atom.write

/-- A member of a group that its written form gives back. -/
structure Member (m : String) : Prop where
  trimmed : trim m.toList = m.toList
  ne_nil : m.toList ≠ []
  chars : ∀ c ∈ m.toList, c ≠ ',' ∧ c ≠ ')' ∧ (isWhitespace c = true → c = ' ')

/-- A clause that its written form gives back. -/
def Clause.Writable (c : Clause) : Prop :=
  match c.atom with
  | .term word => word.toList ≠ [] ∧ (∀ x ∈ word.toList, isWordChar x = true) ∧
      (c.negated = false → word.toList.head? ≠ some '-')
  | .phrase text => trim text.toList = text.toList ∧ '"' ∉ text.toList
  | .anyOf members => members ≠ [] ∧ ∀ m ∈ members, Member m

/-- Clauses, each with the whitespace behind it. -/
def spell (cs : List (Clause × List Char)) : List Char := cs.flatMap fun c => c.1.write ++ c.2

def Atom.groupSize : Atom → Nat
  | .anyOf members => members.length
  | _ => 0

section Groups

variable {members acc : List String} {cur body rest : List Char} {x : Char}

theorem takeWhile_ne (h : x ∉ body) : (body ++ x :: rest).takeWhile (· != x) = body := by
  have hbody : ∀ a ∈ body, (a != x) = true := fun a ha => bne_iff_ne.mpr (ne_of_mem_of_not_mem ha h)
  rw [takeWhile_append_of_pos hbody]
  simp

theorem dropWhile_ne (h : x ∉ body) : (body ++ x :: rest).dropWhile (· != x) = x :: rest := by
  have hbody : ∀ a ∈ body, (a != x) = true := fun a ha => bne_iff_ne.mpr (ne_of_mem_of_not_mem ha h)
  rw [dropWhile_append_of_pos hbody]
  simp

theorem foldl_groupStep (h : ∀ c ∈ body, c ≠ ',' ∧ (isWhitespace c = true → c = ' ')) :
    body.foldl groupStep (acc, cur) = (acc, cur ++ body) := by
  induction body generalizing cur with
  | nil => simp
  | cons c body ih =>
    rw [forall_mem_cons] at h
    have hstep : groupStep (acc, cur) c = (acc, cur ++ [c]) := by
      rw [groupStep, if_neg h.1.1]
      split
      · next hwhite => rw [h.1.2 hwhite]
      · rfl
    rw [foldl_cons, hstep, ih h.2, append_assoc, singleton_append]

variable {m : String}

theorem Member.foldl_groupStep (h : Member m) :
    m.toList.foldl groupStep (acc, []) = (acc, m.toList) :=
  Dsl.foldl_groupStep fun c hc => ⟨(h.chars c hc).1, (h.chars c hc).2.2⟩

theorem Member.pushMember (h : Member m) : pushMember acc m.toList = acc ++ [m] := by
  rw [Dsl.pushMember, h.trimmed, if_neg h.ne_nil, String.ofList_toList]

theorem pushMember_foldl_intercalate (h : ∀ m ∈ members, Member m) (hne : members ≠ []) :
    let state := ([','].intercalate (members.map String.toList)).foldl groupStep (acc, [])
    pushMember state.1 state.2 = acc ++ members := by
  induction members generalizing acc with
  | nil => contradiction
  | cons m ms ih =>
    rw [forall_mem_cons] at h
    cases ms with
    | nil =>
      simp only [map_cons, map_nil, intercalate_singleton]
      rw [h.1.foldl_groupStep, h.1.pushMember]
    | cons m' ms =>
      have hcomma : groupStep (acc, m.toList) ',' = (acc ++ [m], []) := by
        rw [groupStep, if_pos rfl, h.1.pushMember]
      simp only [map_cons, intercalate_cons_cons, foldl_append,
        h.1.foldl_groupStep, foldl_cons, foldl_nil, hcomma]
      simpa using @ih (acc ++ [m]) h.2 (by simp)

theorem groupMembers_write (h : ∀ m ∈ members, Member m) (hne : members ≠ []) :
    groupMembers ([','].intercalate (members.map String.toList)) = members := by
  simpa [groupMembers] using @pushMember_foldl_intercalate members [] h hne

theorem not_mem_intercalate (h : ∀ m ∈ members, Member m) :
    ')' ∉ [','].intercalate (members.map String.toList) := by
  induction members with
  | nil => simp
  | cons m ms ih =>
    rw [forall_mem_cons] at h
    have hm : ')' ∉ m.toList := fun hc => (h.1.chars _ hc).2.1 rfl
    cases ms with
    | nil => simpa using hm
    | cons m' ms =>
      have hms := ih h.2
      simp only [map_cons, intercalate_cons_cons, mem_append, not_or] at hms ⊢
      exact ⟨⟨hm, by simp⟩, hms⟩

end Groups

/-! ## reading back -/

section Reading

variable {limits : ParseLimits} {pos fuel : Nat} {rest : List Char} {c : Clause}

/-- **An atom is read back** off the front of a text that goes on with
whitespace or ends. -/
theorem parseAtom_write (hc : c.Writable) (hsize : c.atom.groupSize ≤ limits.maxAnyOfSize)
    (hrest : ∀ x ∈ rest.head?, isWhitespace x = true) :
    parseAtom limits c.negated pos (c.atom.write ++ rest) =
      .ok (c, pos + c.atom.write.length, rest) := by
  obtain ⟨negated, atom⟩ := c
  cases atom with
  | anyOf members =>
    obtain ⟨hne, hmembers⟩ := hc
    have hbody := not_mem_intercalate hmembers
    simp only [Atom.write, cons_append, append_assoc, nil_append, parseAtom,
      parseGroup, takeWhile_ne hbody, dropWhile_ne hbody, groupMembers_write hmembers hne]
    rw [if_neg hne, if_neg (show ¬ limits.maxAnyOfSize < members.length from not_lt.mpr hsize)]
    simp only [length_cons, length_append, length_nil]
    congr 3
    omega
  | phrase text =>
    obtain ⟨htrim, hquote⟩ := hc
    simp only [Atom.write, cons_append, append_assoc, nil_append, parseAtom,
      parsePhrase, takeWhile_ne hquote, dropWhile_ne hquote, htrim, String.ofList_toList,
      length_cons, length_append, length_nil]
    congr 3
    omega
  | term word =>
    obtain ⟨hne, hchars, -⟩ := hc
    have htake : (word.toList ++ rest).takeWhile isWordChar = word.toList := by
      rw [takeWhile_append_of_pos hchars]
      cases rest with
      | nil => simp
      | cons x rest =>
        have hx : isWordChar x = false := by simp [isWordChar, hrest x rfl]
        simp [hx]
    have hdrop : (word.toList ++ rest).dropWhile isWordChar = rest := by
      have happ := @takeWhile_append_dropWhile _ isWordChar (word.toList ++ rest)
      rw [htake] at happ
      exact append_cancel_left happ
    have hword : parseAtom limits negated pos (word.toList ++ rest) =
        parseWord negated pos (word.toList ++ rest) := by
      obtain ⟨x, xs, hx⟩ := exists_cons_of_ne_nil hne
      have hxw : isWordChar x = true := hchars x (hx ▸ mem_cons_self)
      rw [hx, cons_append, parseAtom]
      · rintro chars ⟨⟩
        exact absurd hxw (by decide)
      · rintro chars ⟨⟩
        exact absurd hxw (by decide)
    rw [Atom.write, hword, parseWord, htake, hdrop, String.ofList_toList]

theorem Clause.Writable.head (hc : c.Writable) :
    ∃ x xs, c.atom.write = x :: xs ∧ isWhitespace x = false ∧ (c.negated = false → x ≠ '-') := by
  obtain ⟨negated, atom⟩ := c
  cases atom with
  | anyOf members => exact ⟨_, _, rfl, by decide, fun _ => by decide⟩
  | phrase text => exact ⟨_, _, rfl, by decide, fun _ => by decide⟩
  | term word =>
    obtain ⟨hne, hchars, hdash⟩ := hc
    obtain ⟨x, xs, hx⟩ := exists_cons_of_ne_nil hne
    have hxw : isWordChar x = true := hchars x (hx ▸ mem_cons_self)
    refine ⟨x, xs, hx, ?_, fun hpos hxd => hdash hpos ?_⟩
    · simp only [isWordChar, Bool.and_eq_true, Bool.not_eq_true'] at hxw
      exact hxw.1.1
    · rw [hx, hxd]
      rfl

theorem Clause.Writable.write_cons (hc : c.Writable) :
    ∃ x xs, c.write = x :: xs ∧ isWhitespace x = false := by
  obtain ⟨x, xs, hx, hwhite, -⟩ := hc.head
  rw [Clause.write]
  split
  · exact ⟨'-', _, rfl, by decide⟩
  · exact ⟨x, xs, hx, hwhite⟩

theorem parseClause_write (hc : c.Writable) (hsize : c.atom.groupSize ≤ limits.maxAnyOfSize)
    (hrest : ∀ x ∈ rest.head?, isWhitespace x = true) :
    parseClause limits pos (c.write ++ rest) = .ok (c, pos + c.write.length, rest) := by
  obtain ⟨x, xs, hx, hwhite, hdash⟩ := hc.head
  have hatom : ∀ p, parseAtom limits c.negated p (x :: (xs ++ rest)) =
      .ok (c, p + c.atom.write.length, rest) := fun p => by
    have hread := @parseAtom_write limits p rest c hc hsize hrest
    rwa [hx, cons_append, ← hx] at hread
  rw [Clause.write]
  split
  · next hneg =>
    rw [hneg] at hatom
    rw [hx, cons_append, cons_append, parseClause, if_neg (by simp [hwhite]), hatom,
      ← hx, length_cons]
    congr 3
    omega
  · next hneg =>
    rw [Bool.not_eq_true] at hneg
    rw [hneg] at hatom
    rw [hx, cons_append, parseClause, hatom, ← hx]
    · exact fun h => hdash hneg (List.cons.inj h).1
    · exact fun _ _ h => hdash hneg (List.cons.inj h).1

theorem parseClauses_spell {cs : List (Clause × List Char)} {lead : List Char}
    (hlead : ∀ x ∈ lead, isWhitespace x = true)
    (hcs : ∀ c ∈ cs, c.1.Writable ∧ c.1.atom.groupSize ≤ limits.maxAnyOfSize ∧
      ∀ x ∈ c.2, isWhitespace x = true)
    (hgaps : ∀ c ∈ cs.dropLast, c.2 ≠ []) (hfuel : cs.length ≤ fuel) :
    parseClauses limits fuel pos (lead ++ spell cs) = .ok (cs.map Prod.fst) := by
  induction cs generalizing fuel pos lead with
  | nil =>
    cases fuel with
    | zero => rfl
    | succ fuel =>
      have hdrop : (lead ++ spell []).dropWhile isWhitespace = [] := by
        rw [dropWhile_append_of_pos hlead]
        rfl
      rw [parseClauses, hdrop]
      rfl
  | cons c cs ih =>
    obtain ⟨⟨hc, hsize, hgap⟩, hcs⟩ := forall_mem_cons.mp hcs
    obtain ⟨fuel, rfl⟩ := Nat.exists_eq_add_one_of_ne_zero (Nat.ne_zero_of_lt hfuel)
    have hspell : spell (c :: cs) = c.1.write ++ (c.2 ++ spell cs) := by
      rw [spell, flatMap_cons, append_assoc, spell]
    -- what follows the clause is its gap, which is empty only at the end
    have hrest : ∀ x ∈ (c.2 ++ spell cs).head?, isWhitespace x = true := by
      intro x hx
      cases hg : c.2 with
      | cons y ys =>
        rw [hg] at hx
        exact hgap x (hg ▸ Option.some.inj hx ▸ mem_cons_self)
      | nil =>
        cases cs with
        | nil => simp [hg, spell] at hx
        | cons c' cs => exact absurd hg (hgaps c (by simp))
    obtain ⟨x, xs, hx, hwhite⟩ := hc.write_cons
    have hdrop : (lead ++ spell (c :: cs)).dropWhile isWhitespace =
        x :: (xs ++ (c.2 ++ spell cs)) := by
      rw [dropWhile_append_of_pos hlead, hspell, hx, cons_append,
        dropWhile_cons_of_neg (by simp [hwhite])]
    have hclause : ∀ p, parseClause limits p (x :: (xs ++ (c.2 ++ spell cs))) =
        .ok (c.1, p + c.1.write.length, c.2 ++ spell cs) := fun p => by
      rw [← cons_append, ← hx]
      exact parseClause_write hc hsize hrest
    rw [parseClauses, hdrop]
    simp only [hclause, ok_bind]
    rw [ih hgap hcs (fun c' hc' => hgaps c' ?_) (Nat.le_of_succ_le_succ hfuel)]
    · rfl
    · cases cs with
      | nil => simp at hc'
      | cons c'' cs => exact mem_cons_of_mem _ hc'

end Reading

/-! ## looser limits -/

section Looser

variable {l l' : ParseLimits} {pos fuel : Nat} {chars : List Char}

variable {r : Clause × Nat × List Char}

theorem parseAtom_mono (h : l ≤ l') {negated : Bool} (hr : parseAtom l negated pos chars = .ok r) :
    parseAtom l' negated pos chars = .ok r := by
  unfold parseAtom at hr ⊢
  split at hr
  · rw [parseGroup] at hr ⊢
    split at hr
    · contradiction
    · simp only at hr ⊢
      split at hr
      · contradiction
      · next hne =>
        split at hr
        · contradiction
        · next hsize => rwa [if_neg hne, if_neg (not_lt.mpr ((not_lt.mp hsize).trans h.2.2))]
  · exact hr
  · exact hr

theorem parseClause_mono (h : l ≤ l') (hr : parseClause l pos chars = .ok r) :
    parseClause l' pos chars = .ok r := by
  unfold parseClause at hr ⊢
  split at hr
  · contradiction
  · split at hr
    · contradiction
    · next hwhite =>
      rw [if_neg hwhite]
      exact parseAtom_mono h hr
  · exact parseAtom_mono h hr

theorem parseClauses_mono (h : l ≤ l') {clauses : List Clause}
    (hr : parseClauses l fuel pos chars = .ok clauses) :
    parseClauses l' fuel pos chars = .ok clauses := by
  induction fuel generalizing pos chars clauses with
  | zero => exact hr
  | succ fuel ih =>
    rw [parseClauses] at hr ⊢
    split at hr
    · exact hr
    · simp only [bind_eq_ok, Prod.exists] at hr ⊢
      obtain ⟨clause, pos', chars', hclause, rest, hrest, hout⟩ := hr
      exact ⟨clause, pos', chars', parseClause_mono h hclause, rest, ih hrest, hout⟩

/-- **What one set of limits accepts, a looser one accepts as the same query.** -/
theorem parseWithLimits_mono (h : l ≤ l') {input : String} {ast : Ast}
    (hr : parseWithLimits input l = .ok ast) : parseWithLimits input l' = .ok ast := by
  rw [parseWithLimits] at hr ⊢
  split at hr
  · contradiction
  · next hlen =>
    rw [if_neg (not_lt.mpr ((not_lt.mp hlen).trans h.1))]
    simp only [bind_eq_ok] at hr ⊢
    obtain ⟨clauses, hclauses, hout⟩ := hr
    refine ⟨clauses, parseClauses_mono h hclauses, ?_⟩
    split at hout
    · contradiction
    · next hcount => rwa [if_neg (not_lt.mpr ((not_lt.mp hcount).trans h.2.1))]

end Looser

theorem length_le_spell {cs : List (Clause × List Char)} (h : ∀ c ∈ cs, c.1.Writable) :
    cs.length ≤ (spell cs).length := by
  induction cs with
  | nil => exact Nat.le_refl 0
  | cons c cs ih =>
    rw [forall_mem_cons] at h
    obtain ⟨x, xs, hx, -⟩ := h.1.write_cons
    have hrest := ih h.2
    rw [spell] at hrest
    simp only [spell, flatMap_cons, length_append, hx, length_cons]
    omega

/-- **Written clauses parse to themselves, and looser limits change nothing.**
Clauses separated by any whitespace, within the limits, are given back as they
were; a text that parses under some limits parses to the same query under
looser ones, so every accepted text parses again at recovery. -/
theorem parse_written :
    (∀ (limits : ParseLimits) (lead : List Char) (cs : List (Clause × List Char)),
      (∀ x ∈ lead, isWhitespace x = true) →
      (∀ c ∈ cs, c.1.Writable ∧ ∀ x ∈ c.2, isWhitespace x = true) →
      (∀ c ∈ cs.dropLast, c.2 ≠ []) →
      (String.ofList (lead ++ spell cs)).utf8ByteSize ≤ limits.maxQueryLength →
      cs.length ≤ limits.maxClauses →
      (∀ c ∈ cs, c.1.atom.groupSize ≤ limits.maxAnyOfSize) →
      parseWithLimits (String.ofList (lead ++ spell cs)) limits = .ok ⟨cs.map Prod.fst⟩) ∧
    (∀ (input : String) (l l' : ParseLimits) (ast : Ast), l ≤ l' →
      parseWithLimits input l = .ok ast → parseWithLimits input l' = .ok ast) ∧
    ∀ (input : String) (l : ParseLimits) (ast : Ast), l ≤ recoveryParseLimits →
      parseWithLimits input l = .ok ast → parseForRecovery input = .ok ast := by
  refine ⟨fun limits lead cs hlead hcs hgaps hlen hcount hsize => ?_,
    fun _ _ _ _ h => parseWithLimits_mono h, fun _ _ _ h => parseWithLimits_mono h⟩
  have hfuel : cs.length ≤ (lead ++ spell cs).length :=
    (length_le_spell fun c hc => (hcs c hc).1).trans (by simp)
  rw [parseWithLimits, if_neg (not_lt.mpr hlen), String.toList_ofList,
    parseClauses_spell hlead (fun c hc => ⟨(hcs c hc).1, hsize c hc, (hcs c hc).2⟩) hgaps hfuel,
    ok_bind, if_neg (by rw [length_map]; exact not_lt.mpr hcount)]
  rfl

/-- A word, a phrase and a negated group. -/
def writtenQuery : List (Clause × List Char) :=
  [(⟨false, .term "mouse"⟩, [' ']), (⟨false, .phrase "north star"⟩, ['\t', ' ']),
    (⟨true, .anyOf ["for parts", "replica"]⟩, [])]

theorem parse_written_query :
    String.ofList (spell writtenQuery) = "mouse \"north star\"\t -(for parts,replica)" ∧
    parse "mouse \"north star\"\t -(for parts,replica)" = .ok ⟨writtenQuery.map Prod.fst⟩ ∧
    parseForRecovery "mouse \"north star\"\t -(for parts,replica)" =
      .ok ⟨writtenQuery.map Prod.fst⟩ := by
  have htext : String.ofList (spell writtenQuery) = "mouse \"north star\"\t -(for parts,replica)" := by
    decide +kernel
  have hparse := parse_written.1 defaultLimits [] writtenQuery (by simp) ?_ (by decide +kernel)
    (by decide +kernel) (by decide) (by decide)
  · rw [nil_append, htext] at hparse
    exact ⟨htext, hparse, parse_written.2.2 _ defaultLimits _ ⟨by decide, by decide, by decide⟩ hparse⟩
  · simp only [writtenQuery, forall_mem_cons]
    refine ⟨⟨⟨by simp, by simp [isWordChar, isWhitespace], by simp⟩, by simp [isWhitespace]⟩,
      ⟨⟨by decide +kernel, by simp⟩, by simp [isWhitespace]⟩,
      ⟨⟨by simp, fun m hm => ?_⟩, by simp⟩, nofun⟩
    simp only [mem_cons, not_mem_nil, or_false] at hm
    obtain rfl | rfl := hm
    · exact ⟨by decide +kernel, by simp, by simp [isWhitespace]⟩
    · exact ⟨by decide +kernel, by simp, by simp [isWhitespace]⟩

end Dsl

end ReverseRusty
