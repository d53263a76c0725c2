/-!
# Positions in a text

Lines and columns count from 1, the offset from 0. A text is a row of characters below U+0100,
each of which is one byte, so the offset counts bytes.
-/

namespace TermHeap

/-- The place of the next character to be read. -/
structure Position where
  line : Nat
  column : Nat
  offset : Nat
deriving DecidableEq, Repr, Inhabited

namespace Position

/-- The place of the first character. -/
def start : Position := ⟨1, 1, 0⟩

/-- The place after a character: a line feed opens a new line. -/
def advance (p : Position) (c : Char) : Position :=
  if c = '\n' then ⟨p.line + 1, 1, p.offset + 1⟩ else ⟨p.line, p.column + 1, p.offset + 1⟩

/-- The place after a row of characters. -/
def advanceAll (p : Position) (cs : List Char) : Position := cs.foldl advance p

/-- The places before the first character and after each one. -/
def trail (p : Position) (cs : List Char) : Array Position :=
  (cs.foldl (fun (acc : Array Position × Position) c =>
    (acc.1.push (acc.2.advance c), acc.2.advance c)) (#[p], p)).1

end Position
end TermHeap
