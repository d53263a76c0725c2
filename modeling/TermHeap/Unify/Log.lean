import TermHeap.Store.Build
import TermHeap.Store.Display
import TermHeap.Term.Printer
import TermHeap.Unify.Basic

/-!
# Logged work

The operations on a store that report what they do. How much is reported depends on the verbosity;
a record that points at no signature is always reported, on the error channel. What is reported
never changes what is done.
-/

namespace TermHeap

/-- The lines reported so far on the two channels. -/
structure Log where
  out : String
  err : String
deriving DecidableEq, Repr, Inhabited

namespace Log

/-- Nothing reported. -/
def empty : Log := ⟨"", ""⟩

/-- Report on the output channel. -/
def say (log : Log) (text : String) : Log := { log with out := log.out ++ text }

/-- Report on the error channel. -/
def warn (log : Log) (text : String) : Log := { log with err := log.err ++ text }

end Log

namespace Store

/-- Report that the variable at `a` is about to be bound to the cell at `target`. -/
def logBind (s : Store) (verbosity : Int) (a target : Addr) (log : Log) : Except Fault Log :=
  if verbosity > 1 then
    match s.render target with
    | .error e => .error e
    | .ok text =>
      .ok (log.say ("Mem::bind(): " ++ s.varName a ++ "@" ++ toString a ++ " := " ++ text ++ "\n"))
  else .ok log

/-- Bind a variable and report it. -/
def bindLogged (s : Store) (verbosity : Int) (a target : Addr) (log : Log) :
    Except Fault (Log × Store) := do
  let log ← s.logBind verbosity a target log
  let s ← s.bind a target
  return (log, s)

/-- Lay a term onto the heap and report it with its cells. -/
def addTermLogged (s : Store) (verbosity : Int) (t : Term) (log : Log) :
    Except Fault (Addr × Log × Store) := do
  let (root, s) ← s.addTerm t
  if verbosity > 1 then
    let cells ← s.renderRaw root s.heap.top
    let text := "Serializer::serialize(): " ++ t.render ++ " at " ++ toString root ++ ": " ++ cells
      ++ "\n"
    return (root, log.say text, s)
  else return (root, log, s)

/-- Report what a comparison came across. -/
def logNotice (s : Store) (verbosity : Int) (log : Log) : Notice → Except Fault Log
  | .signatures a b =>
    .ok (if verbosity > 0 then
      log.say ("Warning: unifying SIG cells at " ++ toString a ++ " and " ++ toString b ++ "\n")
    else log)
  | .records f g => do
    if verbosity > 1 then
      let left ← s.cellText (.sig f)
      let right ← s.cellText (.sig g)
      return log.say ("Unify: " ++ left ++ " vs " ++ right ++ "\n")
    else return log
  | .badRecord cell target =>
    .ok (log.warn ("Warning: RCD at " ++ toString cell ++ " points at " ++ toString target
      ++ " which is not a SIG\n"))

/-- Report the next step of a unifier. -/
def logStep (s : Store) (verbosity : Int) (u : Unifier) (log : Log) : Except Fault Log :=
  if u.failed then .ok log
  else
    match u.pending with
    | [] => .ok log
    | (a, b) :: _ =>
      match s.heap.compare? a b with
      | none => .error .noCell
      | some (.bind var target, _) => s.logBind verbosity var target log
      | some (_, some notice) => s.logNotice verbosity log notice
      | some (_, none) => .ok log

end Store

namespace Unifier

/-- Work off one pair and report it. -/
def stepLogged (order : Order) (verbosity : Int) (u : Unifier) (s : Store) (log : Log) :
    Except Fault (Unifier × Log × Store) :=
  match s.logStep verbosity u log with
  | .error e => .error e
  | .ok log =>
    match s with
    | ⟨heap, symbols, vars⟩ =>
      match u.step order heap with
      | .error e => .error e
      | .ok (u, heap) => .ok (u, log, ⟨heap, symbols, vars⟩)

/-- Work off pairs and report them until there are none or `fuel` steps were made. -/
def runLogged (order : Order) (verbosity : Int) (fuel : Nat) (u : Unifier) (s : Store) (log : Log) :
    Except Fault (Unifier × Log × Store) :=
  match fuel with
  | 0 => .ok (u, log, s)
  | fuel + 1 =>
    if u.status = .running then
      match u.stepLogged order verbosity s log with
      | .error e => .error e
      | .ok (u, log, s) => runLogged order verbosity fuel u s log
    else .ok (u, log, s)

end Unifier
end TermHeap
