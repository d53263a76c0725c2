import TermHeap.Text.Integer

/-!
# Reading a term

A term is an integer, an atom, a variable, a record `f(t, …)`, a list `[t, …]`, or a term in
parentheses; white space may stand around every token. The reader alternates between two states,
a term is due or a term has just ended, and keeps the enclosing open terms on a stack, so the
nesting of a term is bounded by memory only. The main statement is `length_readStep_lt`: each step
goes forward in the text, so reading ends.
-/

namespace TermHeap
namespace Term

/-- An open term and what it has collected so far, latest first. -/
inductive Frame where
  /-- A term in parentheses. -/
  | paren
  /-- A list with its elements. -/
  | list (elements : List Term)
  /-- A record with its place, name and arguments. -/
  | record (start : Position) (name : String) (args : List Term)

/-- The tokens that may follow a term inside an open term. -/
def Frame.after : Frame → Expected
  | .paren => .one .rightParen
  | .list _ => (Expected.one .comma).union (.one .rightBracket)
  | .record _ _ _ => (Expected.one .comma).union (.one .rightParen)

/-- The state of the reader between two steps, with the open terms from the inside out. -/
inductive ReadState where
  /-- A term is due. -/
  | due (frames : List Frame)
  /-- A term has ended. -/
  | ended (value : Term) (frames : List Frame)

/-- What a step leads to. -/
inductive ReadStep where
  /-- Reading goes on. -/
  | more (state : ReadState)
  /-- Reading has ended. -/
  | done (result : Except ParseError Term)

/-- The term of an identifier that no argument list follows. -/
def ofIdentifier (name : List Char) : Term :=
  match name with
  | ['_'] => .anonymous
  | c :: _ => if isUpper c || c = '_' then .var (String.ofList name) else .sym (String.ofList name)
  | [] => .sym ""

/-- Begin a term at the character `c`. -/
def begin (frames : List Frame) (c : Char) (cur : Cursor) : ReadStep × Cursor :=
  if c = '(' then (.more (.due (.paren :: frames)), cur.next)
  else if c = '[' then
    let inside := cur.next.skipBlanks
    if inside.peek? = some ']' then (.more (.ended .nil frames), inside.next)
    else (.more (.due (.list [] :: frames)), inside)
  else if c = '-' || isDigit c then
    match cur.readInteger with
    | (.ok value, after) => (.more (.ended (.int value) frames), after)
    | (.error e, after) => (.done (.error e), after)
  else if isIdentStart c then
    let name := cur.span isIdentChar
    let after := (cur.skip isIdentChar).skipBlanks
    if after.peek? = some '(' then
      (.more (.due (.record cur.pos (String.ofList name) [] :: frames)), after.next)
    else (.more (.ended (ofIdentifier name) frames), after)
  else (.done (.error ⟨.expected (.one .term) (some c), cur.pos⟩), cur)

/-- Close a record that has all its arguments. -/
def closeRecord (start : Position) (name : String) (args : List Term) (frames : List Frame) :
    ReadStep :=
  if args.length ≤ maxArity then .more (.ended (.record name args.reverse) frames)
  else .done (.error ⟨.tooManyArguments args.length name, start⟩)

/-- Go on after a term that ended inside an open one, at the character `c`. -/
def resume (value : Term) (frame : Frame) (frames : List Frame) (c : Char) (cur : Cursor) :
    ReadStep × Cursor :=
  match frame, c with
  | .paren, ')' => (.more (.ended value frames), cur.next)
  | .list elements, ',' => (.more (.due (.list (value :: elements) :: frames)), cur.next)
  | .list elements, ']' =>
    (.more (.ended (Term.list (value :: elements).reverse .nil) frames), cur.next)
  | .record start name args, ',' =>
    (.more (.due (.record start name (value :: args) :: frames)), cur.next)
  | .record start name args, ')' => (closeRecord start name (value :: args) frames, cur.next)
  | _, _ => (.done (.error ⟨.expected frame.after (some c), cur.pos⟩), cur)

/-- One step of the reader. -/
def readStep (state : ReadState) (cur : Cursor) : ReadStep × Cursor :=
  match state with
  | .due frames =>
    let cur := cur.skipBlanks
    match cur.peek? with
    | none => (.done (.error ⟨.expected (.one .term) none, cur.pos⟩), cur)
    | some c => begin frames c cur
  | .ended value [] => (.done (.ok value), cur)
  | .ended value (frame :: frames) =>
    let cur := cur.skipBlanks
    match cur.peek? with
    | none => (.done (.error ⟨.expected frame.after none, cur.pos⟩), cur)
    | some c => resume value frame frames c cur

/-- Beginning a term steps over a character at least. -/
theorem length_begin_lt {frames : List Frame} {c : Char} {cur after : Cursor} {state : ReadState}
    (hc : cur.peek? = some c) (h : begin frames c cur = (.more state, after)) :
    after.rest.length < cur.rest.length := by
  have hn := Cursor.length_next_lt hc
  unfold begin at h
  split at h
  · cases h
    exact hn
  · split at h
    · have hs := cur.next.length_skipBlanks_le
      dsimp only at h
      split at h
      · rename_i hb
        cases h
        have := Cursor.length_next_lt hb
        omega
      · cases h
        omega
    · split at h
      · rename_i hi
        have := Cursor.length_readInteger_lt hc (by simpa using hi)
        split at h
        · rename_i heq
          cases h
          simpa [heq] using this
        · cases h
      · split at h
        · rename_i hi
          have hw : (cur.skip isIdentChar).rest.length < cur.rest.length :=
            Cursor.length_skip_lt hc (by simp [isIdentChar, hi])
          have hs := (cur.skip isIdentChar).length_skipBlanks_le
          dsimp only at h
          split at h
          · rename_i hb
            cases h
            have := Cursor.length_next_lt hb
            omega
          · cases h
            omega
        · cases h

/-- Going on after a term steps over a character. -/
theorem length_resume_lt {value : Term} {frame : Frame} {frames : List Frame} {c : Char}
    {cur after : Cursor} {state : ReadState} (hc : cur.peek? = some c)
    (h : resume value frame frames c cur = (.more state, after)) :
    after.rest.length < cur.rest.length := by
  have hn := Cursor.length_next_lt hc
  unfold resume at h
  split at h
  case h_6 => cases h
  all_goals
    obtain ⟨_, rfl⟩ := Prod.mk.inj h
    exact hn

/-- Each step that is not the last goes forward. -/
theorem length_readStep_lt {state state' : ReadState} {cur after : Cursor}
    (h : readStep state cur = (.more state', after)) : after.rest.length < cur.rest.length := by
  have hs := cur.length_skipBlanks_le
  unfold readStep at h
  split at h
  · dsimp only at h
    split at h
    · cases h
    · rename_i hc
      exact Nat.lt_of_lt_of_le (length_begin_lt hc h) hs
  · cases h
  · dsimp only at h
    split at h
    · cases h
    · rename_i hc
      exact Nat.lt_of_lt_of_le (length_resume_lt hc h) hs

/-- Step until the end. -/
def readFrom (state : ReadState) (cur : Cursor) : Parsed Term :=
  match _h : readStep state cur with
  | (.done result, after) => (result, after)
  | (.more state, after) => readFrom state after
termination_by cur.rest.length
decreasing_by exact length_readStep_lt _h

/-- Beginning a term never ends the whole term. -/
theorem begin_ne_done_ok (frames : List Frame) (c : Char) (cur after : Cursor) (t : Term) :
    begin frames c cur ≠ (.done (.ok t), after) := by
  unfold begin
  dsimp only
  repeat' split
  all_goals simp

/-- Going on after a term inside an open one never ends the whole term. -/
theorem resume_ne_done_ok (value : Term) (frame : Frame) (frames : List Frame) (c : Char)
    (cur after : Cursor) (t : Term) :
    resume value frame frames c cur ≠ (.done (.ok t), after) := by
  unfold resume closeRecord
  repeat' split
  all_goals simp

/-- Reading succeeds only when a term has ended that lies in no open one. -/
theorem readStep_eq_done_ok {state : ReadState} {cur after : Cursor} {t : Term}
    (h : readStep state cur = (.done (.ok t), after)) : state = .ended t [] ∧ after = cur := by
  unfold readStep at h
  split at h
  · dsimp only at h
    split at h
    · cases h
    · exact absurd h (begin_ne_done_ok _ _ _ _ _)
  · cases h
    exact ⟨rfl, rfl⟩
  · dsimp only at h
    split at h
    · cases h
    · exact absurd h (resume_ne_done_ok _ _ _ _ _ _ _)

/-- Successful reading never goes back. -/
theorem length_readFrom_le {state : ReadState} {cur after : Cursor} {t : Term}
    (h : readFrom state cur = (.ok t, after)) : after.rest.length ≤ cur.rest.length := by
  fun_induction readFrom state cur with
  | case1 state cur result stop hs =>
    cases h
    exact Nat.le_of_eq (by rw [(readStep_eq_done_ok hs).2])
  | case2 state cur state' stop hs ih =>
    exact Nat.le_of_lt (Nat.lt_of_le_of_lt (ih h) (length_readStep_lt hs))

/-- A term that is due has a character. -/
theorem length_readFrom_due_lt {frames : List Frame} {cur after : Cursor} {t : Term}
    (h : readFrom (.due frames) cur = (.ok t, after)) : after.rest.length < cur.rest.length := by
  rw [readFrom] at h
  split at h
  · rename_i hs
    cases h
    cases (readStep_eq_done_ok hs).1
  · rename_i hs
    exact Nat.lt_of_le_of_lt (length_readFrom_le h) (length_readStep_lt hs)

/-- Read the next term. What follows it is left unread, except that white space after an
identifier is passed over. -/
def read (cur : Cursor) : Parsed Term := readFrom (.due []) cur

/-- A term has a character. -/
theorem length_read_lt {cur after : Cursor} {t : Term} (h : read cur = (.ok t, after)) :
    after.rest.length < cur.rest.length := length_readFrom_due_lt h

end Term

/-- Whether only white space is left, and the place after that white space. -/
def Cursor.atEnd (cur : Cursor) : Bool × Cursor :=
  let cur := cur.skipBlanks
  (cur.rest.isEmpty, cur)

/-- Fail unless only white space is left. -/
def Cursor.readEnd (cur : Cursor) : Parsed Unit :=
  match cur.atEnd with
  | (true, cur) => (.ok (), cur)
  | (false, cur) => cur.unexpected (.one .end)

/-- Read with `item`, then fail unless only white space is left. -/
def Cursor.readWhole {α : Type} (cur : Cursor) (item : Cursor → Parsed α) :
    Except ParseError α :=
  match item cur with
  | (.error e, _) => .error e
  | (.ok value, after) =>
    match after.readEnd.1 with
    | .error e => .error e
    | .ok () => .ok value

/-- The term that a text holds. -/
def Term.parse (text : String) : Except ParseError Term := (Cursor.ofString text).readWhole Term.read

end TermHeap
