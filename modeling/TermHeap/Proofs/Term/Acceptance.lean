import Mathlib.Data.List.TakeWhile
import TermHeap.Proofs.Term.Step

/-!
# Reading a term follows the grammar

The reader keeps the enclosing open terms on a stack, the grammar nests texts. They agree because
the reader, with whatever terms are open, passes a text that the grammar gives to a term and comes
to the end of that term (`accepts_of_spells`), unless a record in it has too many arguments, and
because what it has passed when a term that was
due has ended is such a text (`exists_spells`). The first goes by induction over the grammar, the
second by induction over the length of what is left. Open records and open lists collect their parts
in the same way, which `Collects` says once for both.
-/

namespace TermHeap
open Grammar

namespace Term

variable {pos : Position} {st st' : ReadState} {fs : List Frame} {c : Char} {w s r : List Char}
  {cur mid after : Cursor} {t T : Term} {ts es : List Term} {frame : Frame}

/-! ### Runs of the reader -/

/-- A run takes a step and goes on, unless that was the last one. -/
lemma readFrom_eq (st : ReadState) (cur : Cursor) :
    readFrom st cur =
      match readStep st cur with
      | (.done result, after) => (result, after)
      | (.more st', after) => readFrom st' after := by
  rw [readFrom]
  split
  · rename_i hs
    rw [hs]
  · rename_i hs
    rw [hs]

/-- A run goes on from where a step leads. -/
lemma readFrom_of_move (ps : cur.Passes s mid) (mv : Move cur.pos st s mid.rest st') :
    readFrom st cur = readFrom st' mid := by
  have step := Move.step (w := []) .nil mv
  rw [List.nil_append, ← ps.2, ← ps.eq] at step
  rw [readFrom_eq, step]

/-- A run that succeeds has ended, or it takes a step first. -/
lemma readFrom_cases (h : readFrom st cur = (.ok T, after)) :
    (st = .ended T [] ∧ after = cur) ∨
    ∃ w s st' mid, Blanks w ∧ cur.Passes (w ++ s) mid ∧
      Move (cur.pos.advanceAll w) st s mid.rest st' ∧ readFrom st' mid = (.ok T, after) := by
  rw [readFrom_eq] at h
  split at h
  · rename_i hs
    cases h
    exact .inl (readStep_eq_done_ok hs)
  · rename_i st' mid hs
    obtain ⟨w, s, bl, ps, mv⟩ := exists_move hs
    exact .inr ⟨w, s, st', mid, bl, ps, mv, h⟩

/-- Where a term is due, white space makes no difference. -/
lemma readFrom_due_congr (e : cur.skipBlanks = mid.skipBlanks) :
    readFrom (.due fs) cur = readFrom (.due fs) mid := by
  rw [readFrom_eq, readFrom_eq (.due fs) mid, readStep, readStep, e]

/-- Where a term has ended inside an open one, white space makes no difference. -/
lemma readFrom_ended_congr (e : cur.skipBlanks = mid.skipBlanks) :
    readFrom (.ended t (frame :: fs)) cur = readFrom (.ended t (frame :: fs)) mid := by
  rw [readFrom_eq, readFrom_eq (.ended t (frame :: fs)) mid, readStep, readStep, e]

/-- The run `p` goes on as `q`, or it has one of the outcomes `Q`. -/
def Yields (Q : Parsed Term → Prop) (p q : Parsed Term) : Prop := p = q ∨ Q p

/-- What goes on as a run goes on as that run does. -/
lemma Yields.trans {Q : Parsed Term → Prop} {p q r : Parsed Term} (y : Yields Q p q)
    (y' : Yields Q q r) : Yields Q p r := by
  rcases y with rfl | out
  · exact y'
  · exact .inr out

/-- Runs that go on as others can be chained. -/
instance {Q : Parsed Term → Prop} : Trans (Yields Q) (Yields Q) (Yields Q) := ⟨Yields.trans⟩

/-- The refusal of records with `n` arguments is one of the outcomes `Q`. -/
def Refuses (Q : Parsed Term → Prop) (n : Nat) : Prop :=
  ∀ name start after, Q (.error ⟨.tooManyArguments n name, start⟩, after)

/-! ### What may follow a term -/

/-- Behind white space, the text begins with a token that may follow a term, or it is at its end. -/
def Follows (r : List Char) : Prop :=
  ∀ c ∈ (r.dropWhile isBlank).head?, c ∈ [',', ')', ']', '.', ':']

/-- What is left before a token that may follow a term may follow a term. -/
lemma Follows.of_passes (ps : cur.Passes (c :: s) mid) (mem : c ∈ [',', ')', ']', '.', ':']) :
    Follows cur.rest := by
  have nb : isBlank c = false := by
    simp only [List.mem_cons, List.not_mem_nil, or_false] at mem
    rcases mem with rfl | rfl | rfl | rfl | rfl <;> rfl
  intro d hd
  rw [ps.1, List.cons_append, List.dropWhile_cons_of_neg (by simp [nb])] at hd
  cases hd
  exact mem

/-- The end of the text may follow a term, white space before it aside. -/
lemma Follows.of_blanks (bl : Blanks w) : Follows w := by
  intro c hc
  rw [List.dropWhile_eq_nil_iff.mpr (blanks_iff.mp bl)] at hc
  cases hc

/-- White space may come before what follows a term. -/
lemma Follows.blanks (fo : Follows r) (bl : Blanks w) : Follows (w ++ r) := by
  intro c hc
  rw [List.dropWhile_append_of_pos (blanks_iff.mp bl)] at hc
  exact fo c hc

/-- What follows a term cannot continue a name. -/
lemma Follows.stops (fo : Follows r) : Stops isIdentChar r := by
  cases r with
  | nil => nofun
  | cons c r =>
    apply stops_cons
    cases hb : isBlank c with
    | true =>
      cases hi : isIdentChar c with
      | false => rfl
      | true =>
        rw [isBlank_of_isIdentChar hi] at hb
        cases hb
    | false =>
      have mem := fo c (by rw [List.dropWhile_cons_of_neg (by simp [hb])]; rfl)
      simp only [List.mem_cons, List.not_mem_nil, or_false] at mem
      rcases mem with rfl | rfl | rfl | rfl | rfl <;> rfl

/-- What follows a term cannot continue an integer. -/
lemma Follows.stops_digit (fo : Follows r) : Stops isDigit r := by
  intro c hc
  cases hd : isDigit c with
  | false => rfl
  | true =>
    have := fo.stops c hc
    rw [isIdentChar_of_isDigit hd] at this
    cases this

/-! ### Open terms that collect their parts -/

/-- A kind of open term that collects parts, with a comma between any two of them, up to a closing
character. -/
structure Collects (frame : List Term → Frame) (close : Char) : Prop where
  follows : close ∈ [',', ')', ']', '.', ':']
  next : ∀ {pos t es fs r},
    Move pos (.ended t (frame es :: fs)) [','] r (.due (frame (t :: es) :: fs))
  cases : ∀ {pos t es fs s r st}, Move pos (.ended t (frame es :: fs)) s r st →
    (s = [','] ∧ st = .due (frame (t :: es) :: fs)) ∨ s = [close]

/-- An open list collects its items up to a bracket. -/
lemma collects_list : Collects .list ']' := by
  refine ⟨by decide, .nextElement, ?_⟩
  intro pos t es fs s r st mv
  cases mv with
  | nextElement => exact .inl ⟨rfl, rfl⟩
  | closeList => exact .inr rfl

/-- An open record collects its arguments up to a parenthesis. -/
lemma collects_record (start : Position) (f : String) : Collects (.record start f) ')' := by
  refine ⟨by decide, .nextArgument, ?_⟩
  intro pos t es fs s r st mv
  cases mv with
  | nextArgument => exact .inl ⟨rfl, rfl⟩
  | closeRecord _ => exact .inr rfl

/-! ### What the grammar derives is read -/

/-- A text that begins, behind white space, with a character that closes no list. -/
def Begins (s : List Char) : Prop :=
  ∃ w c r, s = w ++ c :: r ∧ Blanks w ∧ isBlank c = false ∧ c ≠ ']'

/-- How a text begins does not depend on what comes behind it. -/
lemma Begins.append (bg : Begins s) (r : List Char) : Begins (s ++ r) := by
  obtain ⟨w, c, x, rfl, bl, nb, ne⟩ := bg
  exact ⟨w, c, x ++ r, by simp, bl, nb, ne⟩

/-- A text may begin with any character that is no white space and closes no list. -/
lemma Begins.of_head (nb : isBlank c = false) (ne : c ≠ ']') : Begins (c :: r) :=
  ⟨[], c, r, rfl, .nil, nb, ne⟩

/-- An identifier begins with no white space and closes no list. -/
lemma begins_of_identifier (id : Identifier s) : Begins s := by
  obtain ⟨c, r, rfl, hc, _⟩ := identifier_head id
  apply Begins.of_head (isBlank_of_isIdentChar (isIdentChar_of_start hc))
  rintro rfl
  cases hc

/-- An integer begins with no white space and closes no list. -/
lemma begins_of_literal {z : Int} (lit : Literal s z) : Begins s := by
  obtain ⟨c, r, rfl, hc⟩ := literal_head lit
  rcases hc with rfl | hc
  · exact .of_head rfl (by decide)
  · apply Begins.of_head (isBlank_of_isIdentChar (isIdentChar_of_isDigit hc))
    rintro rfl
    cases hc

variable {Q : Parsed Term → Prop}

/-- Where the text stands before what may follow a term, the reader comes to the end of the term and
to the end of the text, white space behind it apart, unless it has one of the outcomes `Q`. -/
def Accepts (Q : Parsed Term → Prop) (s : List Char) (t : Term) : Prop :=
  ∀ (fs : List Frame) (cur mid : Cursor), cur.Passes s mid → Follows mid.rest →
    ∃ after : Cursor, after.skipBlanks = mid.skipBlanks ∧
      Yields Q (readFrom (.due fs) cur) (readFrom (.ended t fs) after)

/-- A term that has ended inside an open one is followed by a step of the open one. -/
lemma readFrom_ended (e : after.skipBlanks = cur.skipBlanks) (ps : cur.Passes s mid)
    (mv : Move cur.pos (.ended t (frame :: fs)) s mid.rest st') :
    readFrom (.ended t (frame :: fs)) after = readFrom st' mid := by
  rw [readFrom_ended_congr e]
  exact readFrom_of_move ps mv

/-- A record with too many arguments is refused where it is closed. -/
lemma readFrom_refused {start : Position} {f : String} (e : after.skipBlanks = cur.skipBlanks)
    (ps : cur.Passes [')'] mid) (gt : ¬ (t :: es).length ≤ maxArity) :
    readFrom (.ended t (.record start f es :: fs)) after =
      (.error ⟨.tooManyArguments (t :: es).length f, start⟩, mid) := by
  obtain ⟨hc, next⟩ := ps.next_eq
  rw [readFrom_ended_congr e, readFrom_eq, readStep,
    Cursor.skipBlanks_of_stops (ps.stops (p := isBlank) rfl), hc]
  simp only [resume_record, if_neg (show ¬ ')' = ',' by decide), if_true, closeRecord, if_neg gt,
    next]

/-- The parts of a row are collected one by one. -/
lemma readFrom_row {frame : List Term → Frame} {close : Char} (cl : Collects frame close)
    (row : Row (Accepts Q) s ts) (fs : List Frame) (es : List Term) (ps : cur.Passes s mid)
    (stop : mid.Passes [close] after) :
    ∃ t es' last, t :: es' = ts.reverse ++ es ∧ Cursor.skipBlanks last = mid.skipBlanks ∧
      Yields Q (readFrom (.due (frame es :: fs)) cur)
        (readFrom (.ended t (frame es' :: fs)) last) := by
  induction row generalizing es cur with
  | @one s t ac =>
    obtain ⟨last, e, h⟩ := ac (frame es :: fs) cur mid ps (.of_passes stop cl.follows)
    exact ⟨t, es, last, rfl, e, h⟩
  | @more s t s' ts ac _ ih =>
    obtain ⟨comma, ps₁, ps₂⟩ := ps.split
    obtain ⟨next, ps₂, ps₃⟩ := ps₂.split (s := [','])
    obtain ⟨last, e, h⟩ := ac (frame es :: fs) cur comma ps₁ (.of_passes ps₂ (by decide))
    obtain ⟨u, es', last', eq, e', h'⟩ := ih (t :: es) ps₃
    refine ⟨u, es', last', ?_, e', ?_⟩
    · rw [eq, List.reverse_cons, List.append_assoc]
      rfl
    · rw [readFrom_ended e ps₂ cl.next] at h
      exact h.trans h'

/-- White space on both sides of a term is accepted. -/
lemma accepts_padded {w' : List Char} (bl : Blanks w) (ac : Accepts Q s t) (bl' : Blanks w') :
    Accepts Q (w ++ s ++ w') t := by
  intro fs cur mid ps fo
  obtain ⟨behind, ps, ps₃⟩ := ps.split
  obtain ⟨first, ps₁, ps₂⟩ := ps.split
  have fo' : Follows behind.rest := by
    rw [ps₃.1]
    exact fo.blanks bl'
  obtain ⟨after, e, h⟩ := ac fs first behind ps₂ fo'
  refine ⟨after, e.trans (Cursor.skipBlanks_of_passes bl' ps₃), ?_⟩
  rw [readFrom_due_congr (Cursor.skipBlanks_of_passes bl ps₁)]
  exact h

/-- Integers are accepted. -/
lemma accepts_int {v : Int32} (lit : Literal s v.toInt) : Accepts Q s (.int v) := by
  intro fs cur mid ps fo
  exact ⟨mid, rfl, .inl (readFrom_of_move ps (.int lit fo.stops_digit))⟩

/-- Atoms and variables are accepted. -/
lemma accepts_name (nm : Name s t) : Accepts Q s t := by
  intro fs cur mid ps fo
  obtain ⟨w, bl, stop, ps'⟩ := mid.exists_skipBlanks
  have np : mid.skipBlanks.rest.head? ≠ some '(' := by
    intro hp
    exact absurd (fo '(' hp) (by decide)
  -- the reader looks behind white space whether arguments follow
  refine ⟨mid.skipBlanks, mid.skipBlanks_skipBlanks, .inl ?_⟩
  exact readFrom_of_move (ps.trans ps') (.name nm bl (ps'.1 ▸ fo.stops) stop np)

/-- The empty list is accepted. -/
lemma accepts_nil (bl : Blanks w) : Accepts Q ('[' :: w ++ [']']) .nil := by
  intro fs cur mid ps _
  exact ⟨mid, rfl, .inl (readFrom_of_move ps (.emptyList bl))⟩

/-- Terms in parentheses are accepted. -/
lemma accepts_paren (ac : Accepts Q s t) : Accepts Q ('(' :: s ++ [')']) t := by
  intro fs cur mid ps _
  obtain ⟨close, ps, ps₃⟩ := ps.split
  obtain ⟨inside, ps₁, ps₂⟩ := ps.split (s := ['('])
  obtain ⟨after, e, h⟩ := ac (.paren :: fs) inside close ps₂ (.of_passes ps₃ (by decide))
  refine ⟨mid, rfl, ?_⟩
  calc readFrom (.due fs) cur
    _ = readFrom (.due (.paren :: fs)) inside := readFrom_of_move ps₁ .openParen
    Yields Q _ (readFrom (.ended t (.paren :: fs)) after) := h
    _ = readFrom (.ended t fs) mid := readFrom_ended e ps₃ .closeParen

/-- Records are accepted if their arguments are, or they are refused for their number. -/
lemma accepts_record {f : List Char} (id : Identifier f) (bl : Blanks w)
    (row : Row (Accepts Q) s ts) (room : ts.length ≤ maxArity ∨ Refuses Q ts.length) :
    Accepts Q (f ++ w ++ '(' :: s ++ [')']) (.record (String.ofList f) ts) := by
  intro fs cur mid ps _
  have shape : f ++ w ++ '(' :: s ++ [')'] = f ++ w ++ ['('] ++ s ++ [')'] := by simp
  rw [shape] at ps
  obtain ⟨close, ps, ps₃⟩ := ps.split
  obtain ⟨inside, ps₁, ps₂⟩ := ps.split
  obtain ⟨t, es, last, eq, e, h⟩ :=
    readFrom_row (collects_record cur.pos (String.ofList f)) row fs [] ps₂ ps₃
  rw [List.append_nil] at eq
  have len : (t :: es).length = ts.length := by rw [eq, List.length_reverse]
  have closed : Yields Q (readFrom (.ended t (.record cur.pos (String.ofList f) es :: fs)) last)
      (readFrom (.ended (.record (String.ofList f) (t :: es).reverse) fs) mid) := by
    by_cases le : (t :: es).length ≤ maxArity
    · exact .inl (readFrom_ended e ps₃ (.closeRecord le))
    · right
      rw [readFrom_refused e ps₃ le, len]
      exact room.resolve_left (len ▸ le) _ _ _
  refine ⟨mid, rfl, ?_⟩
  calc readFrom (.due fs) cur
    _ = readFrom (.due (.record cur.pos (String.ofList f) [] :: fs)) inside :=
        readFrom_of_move ps₁ (.openRecord id bl)
    Yields Q _ (readFrom (.ended t (.record cur.pos (String.ofList f) es :: fs)) last) := h
    Yields Q _ (readFrom (.ended (.record (String.ofList f) (t :: es).reverse) fs) mid) := closed
    _ = readFrom (.ended (.record (String.ofList f) ts) fs) mid := by rw [eq, List.reverse_reverse]

/-- Lists are accepted if their items are. -/
lemma accepts_list (bg : Begins s) (row : Row (Accepts Q) s ts) :
    Accepts Q ('[' :: s ++ [']']) (Term.list ts .nil) := by
  intro fs cur mid ps _
  obtain ⟨close, ps, ps₃⟩ := ps.split
  obtain ⟨inside, ps₁, ps₂⟩ := ps.split (s := ['['])
  obtain ⟨t, es, last, eq, e, h⟩ := readFrom_row collects_list row fs [] ps₂ ps₃
  rw [List.append_nil] at eq
  -- the reader passes the white space before the first part together with the bracket
  obtain ⟨w, c, x, rfl, bl, nb, ne⟩ := bg
  obtain ⟨first, ps₂, ps₄⟩ := ps₂.split
  have opens : first.rest.head? ≠ some ']' := by
    rw [ps₄.1]
    rintro ⟨⟩
    exact ne rfl
  refine ⟨mid, rfl, ?_⟩
  calc readFrom (.due fs) cur
    _ = readFrom (.due (.list [] :: fs)) first :=
        readFrom_of_move (ps₁.trans ps₂) (.openList bl (ps₄.stops nb) opens)
    _ = readFrom (.due (.list [] :: fs)) inside :=
        (readFrom_due_congr (Cursor.skipBlanks_of_passes bl ps₂)).symm
    Yields Q _ (readFrom (.ended t (.list es :: fs)) last) := h
    _ = readFrom (.ended (Term.list (t :: es).reverse .nil) fs) mid :=
        readFrom_ended e ps₃ .closeList
    _ = readFrom (.ended (Term.list ts .nil) fs) mid := by rw [eq, List.reverse_reverse]

/-- A row begins as its first entry does. -/
lemma Row.begins {R : List Char → Term → Prop} (row : Row (fun s t => Begins s ∧ R s t) s ts) :
    Begins s := by
  cases row with
  | one h => exact h.1
  | more h _ => exact h.1.append _

/-- The reader accepts every text that the grammar gives to a term, unless it refuses a record in
it for its number of arguments. -/
theorem accepts_of_spells {fits : Nat → Prop} (sp : Spells fits s t)
    (room : ∀ n, fits n → n ≤ maxArity ∨ Refuses Q n) : Begins s ∧ Accepts Q s t := by
  refine sp.induct (P := fun s t => Begins s ∧ Accepts Q s t)
    ?padded ?int ?name ?record ?nil ?list ?paren
  case padded =>
    intro w s w' t bl ih bl'
    obtain ⟨⟨w₀, c, r, rfl, bl₀, nb, ne⟩, ac⟩ := ih
    have bg : Begins (w ++ (w₀ ++ c :: r)) :=
      ⟨w ++ w₀, c, r, (List.append_assoc ..).symm, bl.append bl₀, nb, ne⟩
    exact ⟨bg.append w', accepts_padded bl ac bl'⟩
  case int =>
    intro s v lit
    exact ⟨begins_of_literal lit, accepts_int lit⟩
  case name =>
    intro s t nm
    exact ⟨begins_of_identifier nm.identifier, accepts_name nm⟩
  case record =>
    intro f w s ts id bl row le
    refine ⟨?_, accepts_record id bl (row.mono fun _ _ h => h.2) (room _ le)⟩
    exact (((begins_of_identifier id).append w).append _).append _
  case nil =>
    intro w bl
    exact ⟨.of_head rfl (by decide), accepts_nil bl⟩
  case list =>
    intro s ts row
    exact ⟨.of_head rfl (by decide), accepts_list (Row.begins row) (row.mono fun _ _ h => h.2)⟩
  case paren =>
    intro s t ih
    exact ⟨.of_head rfl (by decide), accepts_paren ih.2⟩

/-! ### What is read is derived by the grammar -/

/-- A run from where a term is due, which ends well, comes to the end of that term first, and what
it passes until then is a text of the term. -/
def Explained (fs : List Frame) (cur : Cursor) (T : Term) (after : Cursor) : Prop :=
  ∃ s t mid, cur.Passes s mid ∧ Spells (· ≤ maxArity) s t ∧
    readFrom (.ended t fs) mid = (.ok T, after)

/-- What is passed while an open term collects its parts is a row of texts. -/
lemma exists_row {frame : List Term → Frame} {close : Char} (cl : Collects frame close) {n : Nat}
    (ih : ∀ fs cur, cur.rest.length < n → readFrom (.due fs) cur = (.ok T, after) →
      Explained fs cur T after)
    (lt : cur.rest.length < n) (h : readFrom (.due (frame es :: fs)) cur = (.ok T, after)) :
    ∃ s ts t es' place mid st, Row (Spells (· ≤ maxArity)) s ts ∧ ts.reverse ++ es = t :: es' ∧
      cur.Passes (s ++ [close]) mid ∧
      Move place (.ended t (frame es' :: fs)) [close] mid.rest st ∧
      readFrom st mid = (.ok T, after) := by
  generalize len : cur.rest.length = m
  induction m using Nat.strongRecOn generalizing cur es with
  | ind m ihm =>
    obtain ⟨s, t, behind, ps, sp, h⟩ := ih _ _ lt h
    obtain ⟨⟨⟩, _⟩ | ⟨w, x, st, next, bl, ps', mv, h⟩ := readFrom_cases h
    have sp' : Spells (· ≤ maxArity) (s ++ w) t := sp.blanks_after bl
    have both := ps.trans ps'
    rw [← List.append_assoc] at both
    rcases cl.cases mv with ⟨rfl, rfl⟩ | rfl
    · -- behind the comma the same open term goes on collecting
      have shorter : next.rest.length < cur.rest.length := by
        rw [both.1, List.length_append, List.length_append, List.length_singleton]
        omega
      obtain ⟨s', ts, u, es', place, mid, st, row, eq, ps'', mv', h⟩ :=
        ihm _ (len ▸ shorter) (Nat.lt_trans shorter lt) h rfl
      refine ⟨_, t :: ts, u, es', place, mid, st, .more sp' row, ?_, ?_, mv', h⟩
      · rw [← eq, List.reverse_cons, List.append_assoc]
        rfl
      · have all := both.trans ps''
        rwa [List.append_assoc, ← List.append_assoc [','], ← List.append_assoc] at all
    · exact ⟨_, [t], t, es, _, next, st, .one sp', rfl, both, mv, h⟩

/-- What the reader passes when a term that was due has ended is a text of that term. -/
theorem exists_spells (h : readFrom (.due fs) cur = (.ok T, after)) : Explained fs cur T after := by
  generalize len : cur.rest.length = n
  induction n using Nat.strongRecOn generalizing cur fs with
  | ind n ih =>
    have ih' : ∀ fs cur, cur.rest.length < n → readFrom (.due fs) cur = (.ok T, after) →
        Explained fs cur T after := fun fs cur lt h => ih _ lt h rfl
    obtain ⟨⟨⟩, _⟩ | ⟨w, s, st, mid, bl, ps, mv, h⟩ := readFrom_cases h
    have shorter : s ≠ [] → mid.rest.length < n := by
      intro ne
      have := List.length_pos_iff.mpr ne
      rw [← len, ps.1, List.length_append, List.length_append]
      omega
    cases mv with
    | openParen =>
      obtain ⟨s, t, close, ps₁, sp, h⟩ := ih' _ _ (shorter (by simp)) h
      obtain ⟨⟨⟩, _⟩ | ⟨w', s', st, last, bl', ps₂, mv, h⟩ := readFrom_cases h
      cases mv with
      | closeParen =>
        refine ⟨_, t, last, (ps.trans ps₁).trans ps₂, ?_, h⟩
        have := Spells.blanks_before bl (.paren (sp.blanks_after bl'))
        simpa using this
    | emptyList bl' => exact ⟨_, _, mid, ps, Spells.blanks_before bl (.nil bl'), h⟩
    | int lit _ => exact ⟨_, _, mid, ps, Spells.blanks_before bl (.int lit), h⟩
    | name nm bl' _ _ _ =>
      exact ⟨_, _, mid, ps, Spells.blanks_before bl (Spells.blanks_after (.name nm) bl'), h⟩
    | openList bl' _ _ =>
      obtain ⟨s, ts, t, es, place, last, st, row, eq, ps₁, mv, h⟩ :=
        exists_row collects_list ih' (shorter (by simp)) h
      cases mv with
      | closeList =>
        rw [← eq, List.append_nil, List.reverse_reverse] at h
        refine ⟨_, _, last, ps.trans ps₁, ?_, h⟩
        have := Spells.blanks_before bl (.list (Row.blanks_before bl' row))
        simpa using this
    | openRecord id bl' =>
      obtain ⟨s, ts, t, es, place, last, st, row, eq, ps₁, mv, h⟩ :=
        exists_row (collects_record _ _) ih' (shorter (by simp)) h
      cases mv with
      | closeRecord le =>
        rw [← eq, List.append_nil] at le
        rw [← eq, List.append_nil, List.reverse_reverse] at h
        rw [List.length_reverse] at le
        refine ⟨_, _, last, ps.trans ps₁, ?_, h⟩
        have := Spells.blanks_before bl (.record id bl' row le)
        simpa using this

/-! ### Reading a whole term -/

/-- What is read as a term is a text of that term. -/
theorem spells_of_read (h : read cur = (.ok t, after)) :
    ∃ s, cur.Passes s after ∧ Spells (· ≤ maxArity) s t := by
  obtain ⟨s, u, mid, ps, sp, h⟩ := exists_spells h
  rw [readFrom_eq] at h
  cases h
  exact ⟨s, ps, sp⟩

/-- A text of a term is read as that term, if what follows may follow a term. -/
theorem read_of_spells (sp : Spells (· ≤ maxArity) s t) (ps : cur.Passes s mid)
    (fo : Follows mid.rest) :
    ∃ after : Cursor, after.skipBlanks = mid.skipBlanks ∧ read cur = (.ok t, after) := by
  obtain ⟨after, e, h⟩ :=
    (accepts_of_spells (Q := fun _ => False) sp fun n => .inl).2 [] cur mid ps fo
  refine ⟨after, e, ?_⟩
  rw [read, h.resolve_right id, readFrom_eq]
  rfl

end Term

/-! ### Whole texts -/

variable {cur : Cursor} {s w : List Char} {t : Term}

/-- Only white space is left exactly if nothing is left behind white space. -/
lemma Cursor.atEnd_iff : (cur.atEnd).1 = true ↔ Blanks cur.rest := by
  rw [atEnd, List.isEmpty_iff]
  obtain ⟨w, bl, stop, ps⟩ := cur.exists_skipBlanks
  constructor
  · intro e
    rw [ps.1, e, List.append_nil]
    exact bl
  · intro all
    exact List.dropWhile_eq_nil_iff.mpr (blanks_iff.mp all)

/-- The end is read if only white space is left. -/
lemma Cursor.readEnd_eq_ok : (cur.readEnd).1 = .ok () ↔ Blanks cur.rest := by
  rw [← atEnd_iff, readEnd]
  split
  · rename_i h
    simp [h]
  · rename_i h
    simp [h, unexpected]

/-- A whole text is read if an item is read and only white space is left. -/
lemma Cursor.readWhole_eq_ok {α : Type} {item : Cursor → Parsed α} {v : α} :
    cur.readWhole item = .ok v ↔ ∃ after, item cur = (.ok v, after) ∧ Blanks after.rest := by
  rw [readWhole]
  split
  · rename_i hi
    simp [hi]
  · rename_i v' after hi
    simp only [hi, Prod.mk.injEq, Except.ok.injEq]
    split
    · rename_i he
      constructor
      · nofun
      · intro ⟨after', ⟨_, e⟩, bl⟩
        subst e
        rw [readEnd_eq_ok.mpr bl] at he
        cases he
    · rename_i he
      constructor
      · intro e
        cases e
        exact ⟨after, ⟨rfl, rfl⟩, readEnd_eq_ok.mp he⟩
      · intro ⟨after', ⟨e, _⟩, _⟩
        rw [e]

/-- The beginning of a text is passed from its start. -/
lemma Cursor.passes_ofString {text : String} (eq : text.toList = s ++ w) :
    ∃ mid, (Cursor.ofString text).Passes s mid ∧ mid.rest = w :=
  ⟨⟨w, Position.start.advanceAll s⟩, ⟨eq, rfl⟩, rfl⟩

/-- A whole text is read as a term exactly if the grammar gives it to that term. -/
lemma Term.parse_eq_ok {text : String} :
    Term.parse text = .ok t ↔ Spells (· ≤ maxArity) text.toList t := by
  rw [Term.parse, Cursor.readWhole_eq_ok]
  constructor
  · intro ⟨after, h, bl⟩
    obtain ⟨s, ps, sp⟩ := Term.spells_of_read h
    rw [show text.toList = s ++ after.rest from ps.1]
    exact sp.blanks_after bl
  · intro sp
    obtain ⟨mid, ps, e⟩ := Cursor.passes_ofString (List.append_nil text.toList).symm
    obtain ⟨after, e', h⟩ := Term.read_of_spells sp ps (e ▸ .of_blanks .nil)
    refine ⟨after, h, ?_⟩
    have none : mid.atEnd.1 = true := Cursor.atEnd_iff.mpr (e ▸ .nil)
    rwa [Cursor.atEnd, ← e', ← Cursor.atEnd, Cursor.atEnd_iff] at none

end TermHeap
