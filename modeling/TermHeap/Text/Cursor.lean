import TermHeap.Text.Position

/-!
# Cursors

A cursor is the unread rest of a text together with its place in the whole text. Character
classes are those of ASCII; characters from U+0080 on belong to none of them.
-/

namespace TermHeap

/-- White space: tab, line feed, vertical tab, form feed, carriage return and blank. -/
def isBlank (c : Char) : Bool := (9 ≤ c.toNat && c.toNat ≤ 13) || c.toNat = 32

/-- The decimal digits. -/
def isDigit (c : Char) : Bool := '0' ≤ c && c ≤ '9'

/-- The upper-case letters. -/
def isUpper (c : Char) : Bool := 'A' ≤ c && c ≤ 'Z'

/-- The lower-case letters. -/
def isLower (c : Char) : Bool := 'a' ≤ c && c ≤ 'z'

/-- The characters that begin an identifier. -/
def isIdentStart (c : Char) : Bool := isLower c || isUpper c || c = '_'

/-- The characters of an identifier. -/
def isIdentChar (c : Char) : Bool := isIdentStart c || isDigit c

/-- The unread rest of a text and its place. -/
structure Cursor where
  rest : List Char
  pos : Position
deriving DecidableEq, Repr, Inhabited

namespace Cursor

/-- The cursor at the start of a text. -/
def ofString (text : String) : Cursor := ⟨text.toList, .start⟩

/-- The next character. -/
def peek? (cur : Cursor) : Option Char := cur.rest.head?

/-- Step over one character. -/
def next (cur : Cursor) : Cursor :=
  match cur.rest with
  | [] => cur
  | c :: rest => ⟨rest, cur.pos.advance c⟩

/-- The longest run of characters of a class. -/
def span (cur : Cursor) (p : Char → Bool) : List Char := cur.rest.takeWhile p

/-- Step over the longest run of characters of a class. -/
def skip (cur : Cursor) (p : Char → Bool) : Cursor :=
  ⟨cur.rest.dropWhile p, cur.pos.advanceAll (cur.span p)⟩

/-- Step over white space. -/
def skipBlanks (cur : Cursor) : Cursor := cur.skip isBlank

/-- Skipping never goes back. -/
theorem length_skip_le (cur : Cursor) (p : Char → Bool) :
    (cur.skip p).rest.length ≤ cur.rest.length :=
  (List.dropWhile_suffix p).length_le

/-- Skipping white space never goes back. -/
theorem length_skipBlanks_le (cur : Cursor) : cur.skipBlanks.rest.length ≤ cur.rest.length :=
  cur.length_skip_le isBlank

/-- Stepping over a character leaves one less. -/
theorem length_next_lt {cur : Cursor} {c : Char} (h : cur.peek? = some c) :
    cur.next.rest.length < cur.rest.length := by
  obtain ⟨rest, pos⟩ := cur
  cases rest with
  | nil => simp [peek?] at h
  | cons c rest => simp [next]

/-- Skipping a class to which the next character belongs goes forward. -/
theorem length_skip_lt {cur : Cursor} {c : Char} {p : Char → Bool} (h : cur.peek? = some c)
    (hp : p c = true) : (cur.skip p).rest.length < cur.rest.length := by
  obtain ⟨rest, pos⟩ := cur
  cases rest with
  | nil => simp [peek?] at h
  | cons d rest =>
    simp only [peek?, List.head?_cons, Option.some.injEq] at h
    subst h
    have := (List.dropWhile_suffix (l := rest) p).length_le
    simp only [skip, List.dropWhile_cons, hp, if_true, List.length_cons]
    omega

end Cursor
end TermHeap
