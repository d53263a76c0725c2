import Mathlib.Tactic.Lemma
import TermHeap.Clause.Basic

/-!
# The grammar of texts

Which texts stand for a term, a clause or a program, said of their characters and without a reader:

* `term := int | name | ident ws* '(' row ')' | '[' ws* ']' | '[' row ']' | '(' term ')'`
* `row := term (',' term)*`
* `body := '.' | ':-' row '.'`
* `clause := term body`, where the term is a record
* `program := clause*`

White space may stand around every term, and so around every token, but not inside an integer or an
identifier. `Spells fits s t` says that the text `s` stands for the term `t` and that every record
in it has a number of arguments that `fits`.
-/

namespace TermHeap.Grammar

/-- White space: blanks, tabs, line feeds, vertical tabs, form feeds and carriage returns. -/
def Blanks (s : List Char) : Prop := ∀ c ∈ s, c ∈ [' ', '\t', '\n', '\x0b', '\x0c', '\r']

/-- A letter or an underscore, then letters, digits and underscores. -/
def Identifier : List Char → Prop
  | [] => False
  | c :: s => (c.isAlpha ∨ c = '_') ∧ ∀ d ∈ s, d.isAlphanum ∨ d = '_'

/-- It can be decided whether a text is an identifier. -/
instance : DecidablePred Identifier
  | [] => inferInstanceAs (Decidable False)
  | c :: s =>
    -- by way of the members, not of all characters
    have : Decidable (∀ d ∈ s, d.isAlphanum ∨ d = '_') := List.decidableBAll _ s
    inferInstanceAs (Decidable ((c.isAlpha ∨ c = '_') ∧ ∀ d ∈ s, d.isAlphanum ∨ d = '_'))

/-- Digits, at least one. -/
def Digits (s : List Char) : Prop := s ≠ [] ∧ ∀ c ∈ s, c.isDigit

/-- The text of an integer in decimal, with a minus sign if need be. -/
inductive Literal : List Char → Int → Prop where
  | natural {s} : Digits s → Literal s (Nat.ofDigitChars 10 s 0)
  | negative {s} : Digits s → Literal ('-' :: s) (-Nat.ofDigitChars 10 s 0)

/-- The term that an identifier stands for by itself. -/
inductive Name : List Char → Term → Prop where
  | anonymous : Name ['_'] (.var "")
  | named {c s} : Identifier (c :: s) → c.isUpper ∨ c = '_' → c :: s ≠ ['_'] →
      Name (c :: s) (.var (String.ofList (c :: s)))
  | symbol {c s} : Identifier (c :: s) → c.isLower → Name (c :: s) (.sym (String.ofList (c :: s)))

/-- Texts with a comma between any two of them, each of which is related to a term. -/
inductive Row (R : List Char → Term → Prop) : List Char → List Term → Prop where
  | one {s t} : R s t → Row R s [t]
  | more {s t r ts} : R s t → Row R r ts → Row R (s ++ ',' :: r) (t :: ts)

/-- The text `s` stands for the term `t`, in which records have no other numbers of arguments than
those that fit. -/
inductive Spells (fits : Nat → Prop) : List Char → Term → Prop where
  | padded {w s w' t} : Blanks w → Spells fits s t → Blanks w' → Spells fits (w ++ s ++ w') t
  | int {s} {v : Int32} : Literal s v.toInt → Spells fits s (.int v)
  | name {s t} : Name s t → Spells fits s t
  | record {f w s ts} : Identifier f → Blanks w → Row (Spells fits) s ts → fits ts.length →
      Spells fits (f ++ w ++ '(' :: s ++ [')']) (.record (String.ofList f) ts)
  | nil {w} : Blanks w → Spells fits ('[' :: w ++ [']']) .nil
  | list {s ts} : Row (Spells fits) s ts → Spells fits ('[' :: s ++ [']']) (Term.list ts .nil)
  | paren {s t} : Spells fits s t → Spells fits ('(' :: s ++ [')']) t

/-- What follows the head of a clause, up to its period. -/
inductive SpellsBody (fits : Nat → Prop) : List Char → List Term → Prop where
  | fact : SpellsBody fits ['.'] []
  | rule {s goals} : Row (Spells fits) s goals → SpellsBody fits ([':', '-'] ++ s ++ ['.']) goals

/-- The text of a clause, up to its period. -/
inductive SpellsClause (fits : Nat → Prop) : List Char → Clause → Prop where
  | clause {s f ts r goals} : Spells fits s (.record f ts) → SpellsBody fits r goals →
      SpellsClause fits (s ++ r) ⟨.record f ts, goals⟩

/-- The text of a row of clauses, each up to its period. -/
inductive SpellsProgram (fits : Nat → Prop) : List Char → List Clause → Prop where
  | nil : SpellsProgram fits [] []
  | cons {s c r cs} : SpellsClause fits s c → SpellsProgram fits r cs →
      SpellsProgram fits (s ++ r) (c :: cs)

variable {fits : Nat → Prop} {w w' s : List Char} {t : Term} {ts : List Term}
  {R S : List Char → Term → Prop}

/-- There may be no white space. -/
lemma Blanks.nil : Blanks [] := nofun

/-- Each of these characters is white space. -/
lemma Blanks.one {c : Char} (mem : c ∈ [' ', '\t', '\n', '\x0b', '\x0c', '\r']) :
    Blanks [c] := by
  intro d hd
  rwa [List.mem_singleton.mp hd]

/-- White space may be put together. -/
lemma Blanks.append (bl : Blanks w) (bl' : Blanks w') : Blanks (w ++ w') := by
  intro c mem
  rcases List.mem_append.mp mem with mem | mem
  · exact bl c mem
  · exact bl' c mem

/-- A name is an identifier. -/
lemma Name.identifier (nm : Name s t) : Identifier s := by
  cases nm with
  | anonymous => exact ⟨.inr rfl, nofun⟩
  | named id _ _ => exact id
  | symbol id _ => exact id

/-- A row stays one for a relation that holds more often. -/
lemma Row.mono (row : Row R s ts) (sub : ∀ s t, R s t → S s t) : Row S s ts := by
  induction row with
  | one rel => exact .one (sub _ _ rel)
  | more rel _ ih => exact .more (sub _ _ rel) ih

/-- A row may be continued with a comma and another text. -/
lemma Row.snoc {r : List Char} (row : Row R s ts) (rel : R r t) :
    Row R (s ++ ',' :: r) (ts ++ [t]) := by
  induction row with
  | one rel' => exact .more rel' (.one rel)
  | more rel' _ ih =>
    rw [List.append_assoc, List.cons_append]
    exact .more rel' ih

/-- Induction over the text of a term, with the terms of a row one by one. -/
@[elab_as_elim]
lemma Spells.induct {P : List Char → Term → Prop} (sp : Spells fits s t)
    (padded : ∀ {w s w' t}, Blanks w → P s t → Blanks w' → P (w ++ s ++ w') t)
    (int : ∀ {s} {v : Int32}, Literal s v.toInt → P s (.int v))
    (name : ∀ {s t}, Name s t → P s t)
    (record : ∀ {f w s ts}, Identifier f → Blanks w → Row P s ts → fits ts.length →
      P (f ++ w ++ '(' :: s ++ [')']) (.record (String.ofList f) ts))
    (nil : ∀ {w}, Blanks w → P ('[' :: w ++ [']']) .nil)
    (list : ∀ {s ts}, Row P s ts → P ('[' :: s ++ [']']) (Term.list ts .nil))
    (paren : ∀ {s t}, P s t → P ('(' :: s ++ [')']) t) : P s t :=
  @Spells.rec fits (fun s t _ => P s t) (fun s ts _ => Row P s ts)
    (fun bl _ bl' ih => padded bl ih bl') int name
    (fun id bl _ fit ih => record id bl ih fit) nil (fun _ ih => list ih) (fun _ ih => paren ih)
    (fun _ ih => .one ih) (fun _ _ ih ih' => .more ih ih') s t sp

/-- White space before a term belongs to its text. -/
lemma Spells.blanks_before (bl : Blanks w) (sp : Spells fits s t) : Spells fits (w ++ s) t := by
  have := Spells.padded bl sp .nil
  rwa [List.append_nil] at this

/-- White space behind a term belongs to its text. -/
lemma Spells.blanks_after (sp : Spells fits s t) (bl : Blanks w) : Spells fits (s ++ w) t :=
  .padded .nil sp bl

/-- White space before a row belongs to it. -/
lemma Row.blanks_before (bl : Blanks w) (row : Row (Spells fits) s ts) :
    Row (Spells fits) (w ++ s) ts := by
  cases row with
  | one sp => exact .one (sp.blanks_before bl)
  | more sp row =>
    rw [← List.append_assoc]
    exact .more (sp.blanks_before bl) row

end TermHeap.Grammar
