import TermHeap.Clause.Basic

/-!
# Programs

Clauses grouped by the name and the arity of their heads. Groups stand in the order in which they
first appear, the clauses of a group in the order in which they were added.
-/

namespace TermHeap

/-- The clauses for one name and arity. -/
structure Group where
  name : String
  arity : Nat
  clauses : Array Clause
deriving Repr, Inhabited

namespace Group

/-- Whether the group is the one for a name and an arity. -/
def matches? (g : Group) (name : String) (arity : Nat) : Bool :=
  g.arity == arity && g.name == name

/-- Add a clause at the end. -/
def add (g : Group) (c : Clause) : Group := { g with clauses := g.clauses.push c }

/-- The written form of a group: a heading, then a line for each clause. -/
def render (g : Group) : String :=
  "% " ++ g.name ++ "/" ++ toString g.arity ++ "\n"
    ++ g.clauses.foldl (fun out c => out ++ c.render ++ "\n") ""

end Group

/-- Groups of clauses. -/
structure Program where
  groups : Array Group
deriving Repr, Inhabited

namespace Program

/-- The program without clauses. -/
def empty : Program := ⟨#[]⟩

/-- The place of the group for a name and an arity. -/
def find? (p : Program) (name : String) (arity : Nat) : Option Nat :=
  p.groups.findIdx? (·.matches? name arity)

/-- Add a clause to its group, which is opened if need be. -/
def add (p : Program) (c : Clause) : Program :=
  match p.find? c.name c.arity with
  | some i => ⟨p.groups.modify i (·.add c)⟩
  | none => ⟨p.groups.push ⟨c.name, c.arity, #[c]⟩⟩

/-- The number of clauses of all groups. -/
def numClauses (p : Program) : Nat := p.groups.foldl (fun n g => n + g.clauses.size) 0

/-- The written form of a program, group by group. -/
def render (p : Program) : String := p.groups.foldl (fun out g => out ++ g.render) ""

end Program
end TermHeap
