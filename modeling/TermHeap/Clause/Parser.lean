import TermHeap.Clause.Basic
import TermHeap.Term.Parser

/-!
# Reading a clause

A clause is a record followed by a period, or by `:-` and goals that are separated by commas and
ended by a period. The main statement is `length_read_lt`: a clause has a character.
-/

namespace TermHeap.Clause

/-- What may follow a head. -/
def afterHead : Expected := (Expected.one .period).union (.one .neck)

/-- What may follow a goal. -/
def afterGoal : Expected := (Expected.one .comma).union (.one .period)

/-- Read goals up to a period, after those in `done` (latest first). -/
def readGoals (done : List Term) (cur : Cursor) : Parsed (List Term) :=
  match _h : Term.read cur with
  | (.error e, after) => (.error e, after)
  | (.ok goal, stop) =>
    let after := stop.skipBlanks
    if after.peek? = some '.' then (.ok (goal :: done).reverse, after.next)
    else if after.peek? = some ',' then readGoals (goal :: done) after.next
    else after.unexpected afterGoal
termination_by cur.rest.length
decreasing_by
  have h₁ := Term.length_read_lt _h
  have h₂ := stop.length_skipBlanks_le
  have h₃ := Cursor.length_next_lt ‹stop.skipBlanks.peek? = some ','›
  omega

/-- Read what follows a head: a period, or the neck and the goals. -/
def readBody (cur : Cursor) : Parsed (List Term) :=
  let cur := cur.skipBlanks
  if cur.peek? = some '.' then (.ok [], cur.next)
  else if cur.peek? = some ':' then
    let cur := cur.next
    if cur.peek? = some '-' then readGoals [] cur.next else cur.unexpected (.one .neck)
  else cur.unexpected afterHead

/-- Read the next clause. -/
def read (cur : Cursor) : Parsed Clause :=
  let cur := cur.skipBlanks
  match Term.read cur with
  | (.error e, after) => (.error e, after)
  | (.ok head, after) =>
    if head.isRecord then
      match readBody after with
      | (.error e, after) => (.error e, after)
      | (.ok body, after) => (.ok ⟨head, body⟩, after)
    else (.error ⟨.headNotRecord head, cur.pos⟩, after)

/-- Goals that could be read have a character. -/
theorem length_readGoals_lt {done goals : List Term} {cur after : Cursor}
    (h : readGoals done cur = (.ok goals, after)) : after.rest.length < cur.rest.length := by
  fun_induction readGoals done cur with
  | case1 => cases h
  | case2 done cur goal stop hr blanks hp =>
    cases h
    have h₁ := Term.length_read_lt hr
    have h₂ : blanks.rest.length ≤ stop.rest.length := stop.length_skipBlanks_le
    have h₃ := Cursor.length_next_lt hp
    omega
  | case3 done cur goal stop hr blanks hp hc ih =>
    have h₁ := Term.length_read_lt hr
    have h₂ : blanks.rest.length ≤ stop.rest.length := stop.length_skipBlanks_le
    have h₃ := Cursor.length_next_lt hc
    have h₄ := ih h
    omega
  | case4 => cases h

/-- What follows a head has a character. -/
theorem length_readBody_lt {goals : List Term} {cur after : Cursor}
    (h : readBody cur = (.ok goals, after)) : after.rest.length < cur.rest.length := by
  have hs := cur.length_skipBlanks_le
  unfold readBody at h
  dsimp only at h
  split at h
  · rename_i hp
    cases h
    have := Cursor.length_next_lt hp
    omega
  · split at h
    · rename_i hp
      have := Cursor.length_next_lt hp
      split at h
      · rename_i hm
        have := Cursor.length_next_lt hm
        have := length_readGoals_lt h
        omega
      · cases h
    · cases h

/-- A clause has a character. -/
theorem length_read_lt {c : Clause} {cur after : Cursor} (h : read cur = (.ok c, after)) :
    after.rest.length < cur.rest.length := by
  have hs := cur.length_skipBlanks_le
  unfold read at h
  dsimp only at h
  split at h
  · cases h
  · rename_i hr
    have := Term.length_read_lt hr
    split at h
    · split at h
      · cases h
      · rename_i hb
        cases h
        have := length_readBody_lt hb
        omega
    · cases h

/-- The clause that a text holds. -/
def parse (text : String) : Except ParseError Clause := (Cursor.ofString text).readWhole read

end TermHeap.Clause
