/-!
# Expected tokens

The set of tokens that a reader is willing to see next, and how such a set is written in an
error message.
-/

namespace TermHeap

/-- What may be expected at a place of a text. -/
inductive Token where
  | comma
  | leftParen
  | rightParen
  | rightBracket
  | period
  | neck
  | term
  | «end»
deriving DecidableEq, Repr

namespace Token

/-- The bit of a token in a set. -/
def bit : Token → Nat
  | .comma => 0
  | .leftParen => 1
  | .rightParen => 2
  | .rightBracket => 3
  | .period => 4
  | .neck => 5
  | .term => 6
  | .end => 7

/-- All tokens, in the order in which the members of a set are listed. -/
def all : List Token :=
  [.comma, .leftParen, .rightParen, .rightBracket, .period, .neck, .term, .end]

/-- All tokens, in the order in which a message names them. -/
def naming : List Token :=
  [.leftParen, .rightParen, .rightBracket, .comma, .period, .neck, .term, .end]

/-- The name of a token in a message. -/
def text : Token → String
  | .leftParen => "'('"
  | .rightParen => "')'"
  | .rightBracket => "']'"
  | .comma => "','"
  | .period => "'.'"
  | .neck => "':-'"
  | .term => "TERM"
  | .end => "EOF"

end Token

/-- A set of tokens. -/
structure Expected where
  mask : BitVec 8
deriving DecidableEq, Repr, Inhabited

namespace Expected

/-- The empty set. -/
def none : Expected := ⟨0#8⟩

/-- The set of one token. -/
def one (t : Token) : Expected := ⟨1#8 <<< t.bit⟩

/-- The tokens of either set. -/
def union (a b : Expected) : Expected := ⟨a.mask ||| b.mask⟩

/-- Whether a token is in the set. -/
def has (e : Expected) (t : Token) : Bool := e.mask.getLsbD t.bit

/-- The set of the tokens of a list. -/
def ofList (ts : List Token) : Expected := ts.foldl (fun e t => e.union (one t)) none

/-- The tokens of the set. -/
def members (e : Expected) : List Token := Token.all.filter e.has

/-- The names that follow the text `out`, with a comma before each and an "or" before the
last. -/
def alternativesAfter (out : String) : List String → String
  | [] => out
  | [last] => out ++ ", or " ++ last
  | name :: others => alternativesAfter (out ++ ", " ++ name) others

/-- Names with a comma between any two and an "or" before the last of several. -/
def alternatives : List String → String
  | [] => ""
  | first :: others => alternativesAfter first others

/-- The set in a message. -/
def text (e : Expected) : String := alternatives ((Token.naming.filter e.has).map Token.text)

end Expected
end TermHeap
