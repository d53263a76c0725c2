import TermHeap.Clause.Parser
import TermHeap.Program.Basic

/-!
# Reading a program

A program is a row of clauses up to the end of the text.
-/

namespace TermHeap.Program

/-- Read clauses up to the end of the text and add them to a program. -/
def readInto (p : Program) (cur : Cursor) : Parsed Program :=
  match _h : cur.atEnd with
  | (true, stop) => (.ok p, stop)
  | (false, start) =>
    match _hc : Clause.read start with
    | (.error e, after) => (.error e, after)
    | (.ok c, after) => readInto (p.add c) after
termination_by cur.rest.length
decreasing_by
  have h₁ := Clause.length_read_lt _hc
  have h₂ := cur.length_skipBlanks_le
  simp only [Cursor.atEnd, Prod.mk.injEq] at _h
  rw [_h.2] at h₂
  omega

/-- Read the program that the rest of a text holds. -/
def read (cur : Cursor) : Parsed Program := readInto empty cur

/-- The program that a text holds. -/
def parse (text : String) : Except ParseError Program := (read (Cursor.ofString text)).1

end TermHeap.Program
