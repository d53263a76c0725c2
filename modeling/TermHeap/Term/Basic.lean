import TermHeap.Cell.Basic

/-!
# Terms

First-order terms as trees: integers, atoms, variables, records and lists. A variable with the
empty name is anonymous: it stands for a variable of its own at each place.
-/

namespace TermHeap

/-- A term. -/
inductive Term where
  | int (value : Int32)
  | sym (name : String)
  /-- A variable, anonymous if the name is empty. -/
  | var (name : String)
  | record (name : String) (args : List Term)
  | cons (car cdr : Term)
  | nil
deriving Repr

instance : Inhabited Term := ⟨.nil⟩

namespace Term

/-- The anonymous variable. -/
def anonymous : Term := .var ""

/-- The direct subterms, from left to right. -/
def args : Term → List Term
  | .record _ args => args
  | .cons car cdr => [car, cdr]
  | _ => []

/-- The number of direct subterms. -/
def arity (t : Term) : Nat := t.args.length

/-- The subterm at a position: which part to go to, from level to level. -/
def at? (t : Term) : List Nat → Option Term
  | [] => some t
  | i :: path =>
    match t.args[i]? with
    | some u => u.at? path
    | none => none

/-- The parts below a subterm are found from there. -/
theorem at?_cons {t : Term} {i : Nat} (hi : i < t.args.length) (path : List Nat) :
    t.at? (i :: path) = t.args[i].at? path := by
  simp only [at?, List.getElem?_eq_getElem hi]

/-- The name of an atom, variable or record; other terms have the empty name. -/
def name : Term → String
  | .sym name => name
  | .var name => name
  | .record name _ => name
  | _ => ""

/-- Whether the term is a record. -/
def isRecord : Term → Bool
  | .record _ _ => true
  | _ => false

/-- The list `[e₁, …, eₙ | tail]`. -/
def list (elements : List Term) (tail : Term) : Term := elements.foldr .cons tail

mutual

/-- The number of nodes of a term. -/
def size : Term → Nat
  | .record _ args => 1 + sizeAll args
  | .cons car cdr => 1 + car.size + cdr.size
  | .int _ | .sym _ | .var _ | .nil => 1

/-- The number of nodes of several terms. -/
def sizeAll : List Term → Nat
  | [] => 0
  | t :: ts => t.size + sizeAll ts

end

/-- The nodes of two rows of terms add up. -/
@[simp] theorem sizeAll_append (ts us : List Term) :
    sizeAll (ts ++ us) = sizeAll ts + sizeAll us := by
  induction ts with
  | nil => simp [sizeAll]
  | cons t ts ih => simp [sizeAll, ih, Nat.add_assoc]

/-- A term has a node. -/
theorem size_pos (t : Term) : 0 < t.size := by
  cases t with
  | record name args =>
    rw [size]
    omega
  | cons car cdr =>
    rw [size]
    omega
  | _ => exact Nat.one_pos

/-- The direct subterms have fewer nodes than the term. -/
theorem sizeAll_args_lt (t : Term) : sizeAll t.args < t.size := by
  cases t with
  | record name args =>
    rw [Term.args, size]
    omega
  | cons car cdr =>
    simp only [args, size, sizeAll]
    omega
  | _ => exact Nat.one_pos

/-- The subterms of the terms of a worklist, each before its own subterms, from left to right. -/
def preorderFrom (pending : List Term) (done : Array Term) : Array Term :=
  match pending with
  | [] => done
  | .record name args :: rest => preorderFrom (args ++ rest) (done.push (.record name args))
  | .cons car cdr :: rest => preorderFrom (car :: cdr :: rest) (done.push (.cons car cdr))
  | .int value :: rest => preorderFrom rest (done.push (.int value))
  | .sym name :: rest => preorderFrom rest (done.push (.sym name))
  | .var name :: rest => preorderFrom rest (done.push (.var name))
  | .nil :: rest => preorderFrom rest (done.push .nil)
termination_by sizeAll pending
decreasing_by all_goals simp [size, sizeAll] <;> omega

/-- All subterms, the term itself first, in preorder. -/
def preorder (t : Term) : Array Term := preorderFrom [t] #[]

end Term
end TermHeap
