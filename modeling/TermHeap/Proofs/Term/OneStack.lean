import TermHeap.Proofs.Term.Acceptance

/-!
# One stack for the values of all open terms

A reader can keep the values of all open terms on one stack, on which each open term owns what lies
above its base, beside the set of tokens that it is willing to see next. Such a reader could take
from an empty stack, look below the bottom of a stack, or leave an open term by a token that ends
another kind of term. It never does: it makes the same steps as the reader whose open terms hold
their own values, and comes to the same end (`runs_read`), whatever an earlier reading left on the
stacks (`runs_start_iff`). The invariant is that its stacks are laid out from the open terms of the
other reader (`opened`, `values`), with the name of a record below its arguments.
-/

namespace TermHeap.OneStack
open Term (Frame ReadState ReadStep)

/-- The kinds of open terms. -/
inductive Kind where
  | paren
  | list
  | record (start : Position)

/-- The tokens that may follow a term inside an open term. -/
def Kind.after : Kind → Expected
  | .paren => .one .rightParen
  | .list => (Expected.one .comma).union (.one .rightBracket)
  | .record _ => (Expected.one .comma).union (.one .rightParen)

/-- An open term and the number of values below its own. -/
structure Opened where
  kind : Kind
  base : Nat

/-- The open terms from the inside out, the values with the latest first, the expected tokens. -/
structure State where
  opened : List Opened
  values : List Term
  expects : Expected

/-- What can go wrong with the stacks. -/
inductive Misuse where
  /-- No term is open. -/
  | nothingOpen
  /-- An open term lacks a value of its own. -/
  | noValue
  /-- The innermost open term ends in another way. -/
  | otherKind

/-- What a step leads to. -/
inductive Outcome where
  | more (state : State)
  | done (result : Except ParseError Term)

/-- Go on with the value of a term that has ended. -/
def settle (value : Term) (opened : List Opened) (values : List Term) : Outcome :=
  match opened with
  | [] => .done (.ok value)
  | o :: _ => .more ⟨opened, value :: values, o.kind.after⟩

/-- Whether a term may begin with the character. -/
def startsTerm (c : Char) : Bool :=
  isIdentStart c || isDigit c || c = '-' || c = '(' || c = '['

/-- Begin a term at the character `c`. -/
def begin (opened : List Opened) (values : List Term) (c : Char) (cur : Cursor) :
    Outcome × Cursor :=
  if c = '(' then
    (.more ⟨⟨.paren, values.length⟩ :: opened, values, .one .term⟩, cur.next)
  else if c = '[' then
    let inside := cur.next.skipBlanks
    if inside.peek? = some ']' then (settle .nil opened values, inside.next)
    else (.more ⟨⟨.list, values.length⟩ :: opened, values, .one .term⟩, inside)
  else if c = '-' || isDigit c then
    match cur.readInteger with
    | (.ok value, after) => (settle (.int value) opened values, after)
    | (.error e, after) => (.done (.error e), after)
  else
    let name := cur.span isIdentChar
    let after := (cur.skip isIdentChar).skipBlanks
    if after.peek? = some '(' then
      -- the name waits below the arguments
      let values := .sym (String.ofList name) :: values
      (.more ⟨⟨.record cur.pos, values.length⟩ :: opened, values, .one .term⟩, after.next)
    else (settle (Term.ofIdentifier name) opened values, after)

/-- The values above a base, in the order in which they came, and those below it. -/
def slice (base : Nat) (values : List Term) : Except Misuse (List Term × List Term) :=
  if base ≤ values.length then
    .ok ((values.take (values.length - base)).reverse, values.drop (values.length - base))
  else .error .noValue

/-- Leave the innermost open term at a closing parenthesis. -/
def closeParen (st : State) : Except Misuse Outcome :=
  match st.opened with
  | [] => .error .nothingOpen
  | ⟨.paren, _⟩ :: opened =>
    match st.values with
    | [] => .error .noValue
    | value :: values => .ok (settle value opened values)
  | ⟨.record start, base⟩ :: opened =>
    match slice base st.values with
    | .error e => .error e
    | .ok (_, []) => .error .noValue
    | .ok (args, label :: values) =>
      if args.length ≤ maxArity then .ok (settle (.record label.name args) opened values)
      else .ok (.done (.error ⟨.tooManyArguments args.length label.name, start⟩))
  | ⟨.list, _⟩ :: _ => .error .otherKind

/-- Leave the innermost open term at a closing bracket. -/
def closeBracket (st : State) : Except Misuse Outcome :=
  match st.opened with
  | [] => .error .nothingOpen
  | ⟨.list, base⟩ :: opened =>
    match slice base st.values with
    | .error e => .error e
    | .ok (elements, values) => .ok (settle (Term.list elements .nil) opened values)
  | _ => .error .otherKind

/-- One step at the character `c`. -/
def stepAt (st : State) (c : Char) (cur : Cursor) : Except Misuse (Outcome × Cursor) :=
  if st.expects.has .term && startsTerm c then .ok (begin st.opened st.values c cur)
  else if st.expects.has .comma && c = ',' then
    .ok (.more { st with expects := .one .term }, cur.next)
  else if st.expects.has .rightParen && c = ')' then (closeParen st).map (·, cur.next)
  else if st.expects.has .rightBracket && c = ']' then (closeBracket st).map (·, cur.next)
  else .ok (.done (.error ⟨.expected st.expects (some c), cur.pos⟩), cur)

/-- One step. -/
def step (st : State) (cur : Cursor) : Except Misuse (Outcome × Cursor) :=
  let cur := cur.skipBlanks
  match cur.peek? with
  | none => .ok (.done (.error ⟨.expected st.expects none, cur.pos⟩), cur)
  | some c => stepAt st c cur

/-- Steps without a fault lead from a state and a cursor to a result and a cursor. -/
inductive Runs : State → Cursor → Parsed Term → Prop where
  | done {st cur result after} : step st cur = .ok (.done result, after) →
      Runs st cur (result, after)
  | more {st cur st' mid out} : step st cur = .ok (.more st', mid) → Runs st' mid out →
      Runs st cur out

/-! ### The stacks of nested open terms -/

/-- The values of open terms, with the name of a record below its arguments. -/
def values : List Frame → List Term
  | [] => []
  | .paren :: fs => values fs
  | .list es :: fs => es ++ values fs
  | .record _ name es :: fs => es ++ .sym name :: values fs

/-- The open terms with their bases. -/
def opened : List Frame → List Opened
  | [] => []
  | .paren :: fs => ⟨.paren, (values fs).length⟩ :: opened fs
  | .list _ :: fs => ⟨.list, (values fs).length⟩ :: opened fs
  | .record start _ _ :: fs => ⟨.record start, (values fs).length + 1⟩ :: opened fs

/-- What a step of nested open terms leads to. -/
def outcome : ReadStep → Outcome
  | .more (.due fs) => .more ⟨opened fs, values fs, .one .term⟩
  | .more (.ended value fs) => settle value (opened fs) (values fs)
  | .done result => .done result

variable {fs : List Frame} {frame : Frame} {c : Char} {cur : Cursor} {t : Term}

/-- The values above the base are those of the open term. -/
lemma slice_append (own below : List Term) :
    slice below.length (own ++ below) = .ok (own.reverse, below) := by
  have len : (own ++ below).length - below.length = own.length := by
    rw [List.length_append]
    omega
  rw [slice, if_pos (by simp), len, List.take_left, List.drop_left]

/-- Where a term may begin, both readers begin the same one. -/
lemma begin_of_starts (starts : startsTerm c = true) :
    begin (opened fs) (values fs) c cur = (Term.begin fs c cur).map outcome id := by
  rw [begin, Term.begin]
  split
  · rfl
  split
  · dsimp only
    split <;> rfl
  split
  · cases hr : cur.readInteger with
    | mk result after => cases result <;> rfl
  · rename_i noParen noBracket noInteger
    have id : isIdentStart c = true := by
      simp_all [startsTerm]
    rw [if_pos id]
    dsimp only
    split <;> rfl

/-- Elsewhere a term is expected. -/
lemma begin_of_not_starts (starts : startsTerm c = false) :
    Term.begin fs c cur = (.done (.error ⟨.expected (.one .term) (some c), cur.pos⟩), cur) := by
  simp only [startsTerm, Bool.or_eq_false_iff, decide_eq_false_iff_not] at starts
  obtain ⟨⟨⟨⟨noIdent, noDigit⟩, noMinus⟩, noParen⟩, noBracket⟩ := starts
  rw [Term.begin, if_neg noParen, if_neg noBracket, if_neg (by simp [noMinus, noDigit]),
    if_neg (by simp [noIdent])]

/-- Where a term is due, both readers take the same step. -/
lemma stepAt_due (fs : List Frame) (c : Char) (cur : Cursor) :
    stepAt ⟨opened fs, values fs, .one .term⟩ c cur =
      .ok ((Term.begin fs c cur).map outcome id) := by
  have term : (Expected.one .term).has .term = true := rfl
  have comma : (Expected.one .term).has .comma = false := rfl
  have paren : (Expected.one .term).has .rightParen = false := rfl
  have bracket : (Expected.one .term).has .rightBracket = false := rfl
  simp only [stepAt, term, comma, paren, bracket, Bool.true_and, Bool.false_and, if_false,
    Bool.false_eq_true]
  cases starts : startsTerm c with
  | true => rw [if_pos rfl, begin_of_starts starts]
  | false =>
    rw [if_neg Bool.false_ne_true, begin_of_not_starts starts]
    rfl

/-- A parenthesis makes the record of the values above its base. -/
lemma closeParen_record (t : Term) (start : Position) (name : String) (es : List Term)
    (fs : List Frame) (ex : Expected) :
    closeParen
        ⟨opened (.record start name es :: fs), t :: values (.record start name es :: fs), ex⟩ =
      .ok (outcome (Term.closeRecord start name (t :: es) fs)) := by
  have own := slice_append (t :: es) (.sym name :: values fs)
  simp only [closeParen, opened, values, List.length_cons, List.cons_append] at own ⊢
  rw [own]
  dsimp only
  rw [List.length_reverse, Term.closeRecord]
  split <;> rfl

/-- A bracket makes the list of the values above its base. -/
lemma closeBracket_list (t : Term) (es : List Term) (fs : List Frame) (ex : Expected) :
    closeBracket ⟨opened (.list es :: fs), t :: values (.list es :: fs), ex⟩ =
      .ok (settle (Term.list (t :: es).reverse .nil) (opened fs) (values fs)) := by
  have own := slice_append (t :: es) (values fs)
  simp only [closeBracket, opened, values, List.cons_append] at own ⊢
  rw [own]

variable {st : State}

/-- Inside parentheses only a closing one is expected. -/
lemma stepAt_paren (ex : st.expects = Kind.paren.after) :
    stepAt st c cur =
      if c = ')' then (closeParen st).map (·, cur.next)
      else .ok (.done (.error ⟨.expected st.expects (some c), cur.pos⟩), cur) := by
  have expects : st.expects.has .term = false ∧ st.expects.has .comma = false ∧
      st.expects.has .rightParen = true ∧ st.expects.has .rightBracket = false := by
    rw [ex]
    decide
  simp [stepAt, expects]

/-- Inside a list a comma or a bracket is expected. -/
lemma stepAt_list (ex : st.expects = Kind.list.after) :
    stepAt st c cur =
      if c = ',' then .ok (.more { st with expects := .one .term }, cur.next)
      else if c = ']' then (closeBracket st).map (·, cur.next)
      else .ok (.done (.error ⟨.expected st.expects (some c), cur.pos⟩), cur) := by
  have expects : st.expects.has .term = false ∧ st.expects.has .comma = true ∧
      st.expects.has .rightParen = false ∧ st.expects.has .rightBracket = true := by
    rw [ex]
    decide
  simp [stepAt, expects]

/-- Inside a record a comma or a parenthesis is expected. -/
lemma stepAt_record (start : Position) (ex : st.expects = (Kind.record start).after) :
    stepAt st c cur =
      if c = ',' then .ok (.more { st with expects := .one .term }, cur.next)
      else if c = ')' then (closeParen st).map (·, cur.next)
      else .ok (.done (.error ⟨.expected st.expects (some c), cur.pos⟩), cur) := by
  have expects : st.expects.has .term = false ∧ st.expects.has .comma = true ∧
      st.expects.has .rightParen = true ∧ st.expects.has .rightBracket = false := by
    rw [ex, Kind.after]
    decide
  simp [stepAt, expects]

/-- Where a term has ended inside an open one, both readers take the same step. -/
lemma stepAt_ended (t : Term) (frame : Frame) (fs : List Frame) (c : Char) (cur : Cursor) :
    stepAt ⟨opened (frame :: fs), t :: values (frame :: fs), frame.after⟩ c cur =
      .ok ((Term.resume t frame fs c cur).map outcome id) := by
  cases frame with
  | paren =>
    rw [stepAt_paren rfl, Term.resume_paren]
    split <;> rfl
  | list es =>
    rw [stepAt_list rfl, Term.resume_list]
    split
    · rfl
    split
    · rw [closeBracket_list]
      rfl
    · rfl
  | record start name es =>
    rw [stepAt_record start rfl, Term.resume_record]
    split
    · rfl
    split
    · rw [closeParen_record]
      rfl
    · rfl

/-- Where a term is due, both readers take the same step behind white space. -/
lemma step_due (fs : List Frame) (cur : Cursor) :
    step ⟨opened fs, values fs, .one .term⟩ cur =
      .ok ((Term.readStep (.due fs) cur).map outcome id) := by
  rw [step, Term.readStep]
  cases cur.skipBlanks.peek? with
  | none => rfl
  | some c => exact stepAt_due fs c _

/-- Where a term has ended inside an open one, both readers take the same step behind white
space. -/
lemma step_ended (t : Term) (frame : Frame) (fs : List Frame) (cur : Cursor) :
    step ⟨opened (frame :: fs), t :: values (frame :: fs), frame.after⟩ cur =
      .ok ((Term.readStep (.ended t (frame :: fs)) cur).map outcome id) := by
  rw [step, Term.readStep]
  cases cur.skipBlanks.peek? with
  | none => rfl
  | some c => exact stepAt_ended t frame fs c _

/-- The stacks where a term has ended inside an open one. -/
lemma outcome_ended (t : Term) (frame : Frame) (fs : List Frame) :
    outcome (.more (.ended t (frame :: fs))) =
      .more ⟨opened (frame :: fs), t :: values (frame :: fs), frame.after⟩ := by
  cases frame <;> rfl

/-! ### Runs -/

/-- What a step leads to comes to a result and a cursor in the end. -/
def Leads (o : Outcome) (cur : Cursor) (out : Parsed Term) : Prop :=
  match o with
  | .more st => Runs st cur out
  | .done result => out = (result, cur)

/-- A run takes a step and then goes on. -/
lemma Runs.of_step {mid : Cursor} {o : Outcome} {out : Parsed Term}
    (h : step st cur = .ok (o, mid)) (ld : Leads o mid out) : Runs st cur out := by
  cases o with
  | more st' => exact .more h ld
  | done result =>
    cases ld
    exact .done h

/-- A step leads where the reader with nested open terms comes to. -/
lemma leads_readFrom (st : ReadState) (cur : Cursor) :
    Leads (outcome (.more st)) cur (Term.readFrom st cur) := by
  fun_induction Term.readFrom st cur with
  | case1 st cur result after hs =>
    cases st with
    | due fs =>
      have h := step_due fs cur
      rw [hs] at h
      exact .done h
    | ended t fs =>
      cases fs with
      | nil =>
        cases hs
        rfl
      | cons frame fs =>
        have h := step_ended t frame fs cur
        rw [hs] at h
        rw [outcome_ended]
        exact .done h
  | case2 st cur st' mid hs ih =>
    cases st with
    | due fs =>
      have h := step_due fs cur
      rw [hs] at h
      exact .of_step h ih
    | ended t fs =>
      cases fs with
      | nil => cases hs
      | cons frame fs =>
        have h := step_ended t frame fs cur
        rw [hs] at h
        rw [outcome_ended]
        exact .of_step h ih

/-- With one stack for all values a term is read as with nested open terms, and no step misuses the
stacks. -/
theorem runs_read (cur : Cursor) : Runs ⟨[], [], .one .term⟩ cur (Term.read cur) :=
  leads_readFrom (.due []) cur

/-- A run comes to one result only. -/
lemma Runs.unique {out out' : Parsed Term} (rn : Runs st cur out) (rn' : Runs st cur out') :
    out = out' := by
  induction rn with
  | done h =>
    cases rn' with
    | done h' =>
      cases h.symm.trans h'
      rfl
    | more h' => cases h.symm.trans h'
  | more h _ ih =>
    cases rn' with
    | done h' => cases h.symm.trans h'
    | more h' rn' =>
      cases h.symm.trans h'
      exact ih rn'

/-- The stacks with which reading starts: whatever was left on them is thrown away. -/
def State.start (_ : State) : State := ⟨[], [], .one .term⟩

/-- What an earlier reading left on the stacks makes no difference to the next one. -/
theorem runs_start_iff (old : State) {out : Parsed Term} :
    Runs old.start cur out ↔ out = Term.read cur := by
  constructor
  · intro rn
    exact rn.unique (runs_read cur)
  · rintro rfl
    exact runs_read cur

end TermHeap.OneStack
