import TermHeap.Term.Printer
import TermHeap.Text.Cursor
import TermHeap.Text.Expected

/-!
# Errors of reading

Why a text could not be read, and at which place.
-/

namespace TermHeap

/-- The causes of a reading error. `found` is the next character, if there is one. -/
inductive ParseCause where
  /-- None of the expected tokens comes next. -/
  | expected (tokens : Expected) (found : Option Char)
  /-- A minus sign is not followed by a digit. -/
  | expectedDigit (found : Option Char)
  /-- An integer has no 32-bit value. -/
  | integerOutOfRange
  /-- A record has more arguments than its signature can tell. -/
  | tooManyArguments (count : Nat) (name : String)
  /-- A clause begins with a term that is no record. -/
  | headNotRecord (head : Term)

/-- What was found instead, in a message. -/
def foundText : Option Char → String
  | none => " but got EOF"
  | some c => " but got '" ++ c.toString ++ "'"

/-- The message for a cause. -/
def ParseCause.message : ParseCause → String
  | .expected tokens found => "Expecting " ++ tokens.text ++ foundText found
  | .expectedDigit found => "Expecting digit after '-'" ++ foundText found
  | .integerOutOfRange => "Integer out of range"
  | .tooManyArguments count name =>
    "Too many arguments (" ++ toString count ++ ") for '" ++ name ++ "'; at most "
      ++ toString maxArity ++ " are allowed"
  | .headNotRecord head => "Clause head must be a record but got '" ++ head.render ++ "'"

/-- A cause and its place. -/
structure ParseError where
  cause : ParseCause
  pos : Position

/-- The message of an error. -/
def ParseError.message (e : ParseError) : String := e.cause.message

/-- A value or an error, and the place where reading stopped. -/
abbrev Parsed (α : Type) := Except ParseError α × Cursor

/-- The error at the next character for not being one of the expected tokens. -/
def Cursor.unexpected {α : Type} (cur : Cursor) (tokens : Expected) : Parsed α :=
  (.error ⟨.expected tokens cur.peek?, cur.pos⟩, cur)

end TermHeap
