import Condense.Term.Basic
import Mathlib.Data.List.Forall2

/-!
# Texts as S-expressions

How a text of words, quoted symbols and parentheses is read, one character after the other:
the part of SMT-LIB's notation that scripts are written in, without comments and string
literals. A text `Reads` as an item when, followed by a blank or a closing parenthesis, it
adds that item to what has been read. Nothing is said of texts that no reading brings to
such an end.
-/

namespace Condense

set_option autoImplicit false

inductive Sexp where
  | word (content : List Char)
  /-- A symbol between bars. -/
  | quoted (content : List Char)
  | list (items : List Sexp)

namespace Sexp

/-- The symbol that an atom stands for: bars around it are no part of it. -/
def symbol? : Sexp → Option (List Char)
  | word content | quoted content => some content
  | list _ => none

inductive Pending where
  | nothing
  | word (content : List Char)
  | quoted (content : List Char)

structure Reading where
  pending : Pending := .nothing
  /-- What the innermost open parenthesis holds so far. -/
  items : List Sexp := []
  /-- What the parentheses around it hold so far, the nearest first. -/
  around : List (List Sexp) := []

namespace Reading

def settle (r : Reading) : Reading :=
  match r.pending with
  | .word content => { r with pending := .nothing, items := r.items ++ [.word content] }
  | _ => r

def openList (r : Reading) : Reading :=
  { items := [], around := r.items :: r.around }

/-- A parenthesis that closes nothing is passed over. -/
def closeList (r : Reading) : Reading :=
  match r.around with
  | [] => r
  | outer :: rest => { items := outer ++ [.list r.items], around := rest }

def bare (r : Reading) (c : Char) : Reading :=
  if c = '(' then r.settle.openList
  else if c = ')' then r.settle.closeList
  else if c = '|' then { r.settle with pending := .quoted [] }
  else if c.isWhitespace then r.settle
  else
    match r.pending with
    | .word content => { r with pending := .word (content ++ [c]) }
    | _ => { r with pending := .word [c] }

def step (r : Reading) (c : Char) : Reading :=
  match r.pending with
  | .quoted content =>
      if c = '|' then { r with pending := .nothing, items := r.items ++ [.quoted content] }
      else { r with pending := .quoted (content ++ [c]) }
  | _ => r.bare c

def run (r : Reading) (text : List Char) : Reading :=
  text.foldl step r

theorem run_cons (r : Reading) (c : Char) (rest : List Char) :
    r.run (c :: rest) = (r.step c).run rest := rfl

theorem run_append (r : Reading) (first second : List Char) :
    r.run (first ++ second) = (r.run first).run second :=
  List.foldl_append

end Reading

def readAll (text : String) : List Sexp :=
  (Reading.run {} text.toList).items

def isWordChar (c : Char) : Bool :=
  c != '(' && c != ')' && c != '|' && !c.isWhitespace

def isWord (text : String) : Bool :=
  !text.toList.isEmpty && text.toList.all isWordChar

def isStop (c : Char) : Bool :=
  c == ')' || c.isWhitespace

/-- Before a stop, `text` adds `item` and leaves nothing pending. -/
def Reads (text : String) (item : Sexp) : Prop :=
  ∀ (items : List Sexp) (around : List (List Sexp)) (stop : Char), isStop stop = true →
    Reading.run ⟨.nothing, items, around⟩ (text.toList ++ [stop])
      = Reading.step ⟨.nothing, items ++ [item], around⟩ stop

section Atoms

variable {items : List Sexp} {around : List (List Sexp)}

theorem bare_of_word_char {c : Char} (plain : isWordChar c = true) (r : Reading) :
    r.bare c = match r.pending with
      | .word content => { r with pending := .word (content ++ [c]) }
      | _ => { r with pending := .word [c] } := by
  simp only [isWordChar, Bool.and_eq_true, bne_iff_ne, ne_eq, Bool.not_eq_true'] at plain
  rcases plain with ⟨⟨⟨notOpen, notClose⟩, notBar⟩, notBlank⟩
  simp [Reading.bare, notOpen, notClose, notBar, notBlank]

theorem run_word {content rest : List Char} (plain : ∀ c ∈ rest, isWordChar c = true) :
    Reading.run ⟨.word content, items, around⟩ rest = ⟨.word (content ++ rest), items, around⟩ := by
  induction rest generalizing content with
  | nil => simp [Reading.run]
  | cons c rest ih =>
      have stepped : Reading.step ⟨.word content, items, around⟩ c
          = ⟨.word (content ++ [c]), items, around⟩ :=
        bare_of_word_char (plain c (by simp)) _
      rw [Reading.run_cons, stepped, ih fun d member => plain d (by simp [member])]
      simp

theorem step_stop_word {content : List Char} {stop : Char} (stops : isStop stop = true) :
    Reading.step ⟨.word content, items, around⟩ stop
      = Reading.step ⟨.nothing, items ++ [.word content], around⟩ stop := by
  have cases : stop = ')' ∨ stop.isWhitespace = true := by
    simpa [isStop] using stops
  rcases cases with rfl | blank
  · rfl
  · have notOpen : stop ≠ '(' := by
      rintro rfl
      cases blank
    have notClose : stop ≠ ')' := by
      rintro rfl
      cases blank
    have notBar : stop ≠ '|' := by
      rintro rfl
      cases blank
    simp [Reading.step, Reading.bare, Reading.settle, notOpen, notClose, notBar, blank]

/-- A bare word is read as itself. -/
theorem reads_word {text : String} (bare : isWord text = true) :
    Reads text (.word text.toList) := by
  intro items around stop stops
  rw [isWord] at bare
  cases written : text.toList with
  | nil =>
      rw [written] at bare
      cases bare
  | cons c rest =>
      rw [written, List.isEmpty_cons, Bool.not_false, Bool.true_and, List.all_eq_true] at bare
      have first : Reading.step ⟨.nothing, items, around⟩ c = ⟨.word [c], items, around⟩ :=
        bare_of_word_char (bare c (by simp)) _
      rw [Reading.run_append, Reading.run_cons _ c rest, first,
        run_word fun d member => bare d (by simp [member])]
      exact step_stop_word stops

theorem run_quoted {content rest : List Char} (closed : '|' ∉ rest) :
    Reading.run ⟨.quoted content, items, around⟩ rest
      = ⟨.quoted (content ++ rest), items, around⟩ := by
  induction rest generalizing content with
  | nil => simp [Reading.run]
  | cons c rest ih =>
      rw [List.mem_cons, not_or] at closed
      have stepped : Reading.step ⟨.quoted content, items, around⟩ c
          = ⟨.quoted (content ++ [c]), items, around⟩ := by
        simp [Reading.step, Ne.symm closed.1]
      rw [Reading.run_cons, stepped, ih closed.2]
      simp

/-- Whatever stands between bars is one symbol, if no bar is in it. -/
theorem reads_quoted {content : List Char} (closed : '|' ∉ content) :
    Reads ("|" ++ String.ofList content ++ "|") (.quoted content) := by
  intro items around stop _
  have opened : Reading.step ⟨.nothing, items, around⟩ '|' = ⟨.quoted [], items, around⟩ := rfl
  have closing : Reading.step ⟨.quoted content, items, around⟩ '|'
      = ⟨.nothing, items ++ [.quoted content], around⟩ := rfl
  have spelled : ("|" ++ String.ofList content ++ "|").toList = '|' :: (content ++ ['|']) := by
    simp
  rw [spelled, List.cons_append, Reading.run_cons, opened, List.append_assoc, Reading.run_append,
    run_quoted closed, List.nil_append, List.singleton_append, Reading.run_cons, closing]
  rfl

end Atoms

section Lists

variable {texts : List String} {read : List Sexp}

theorem run_inside (each : List.Forall₂ Reads texts read) (held outer : List Sexp)
    (around : List (List Sexp)) :
    Reading.run ⟨.nothing, held, outer :: around⟩ ((" ".intercalate texts).toList ++ [')'])
      = ⟨.nothing, outer ++ [.list (held ++ read)], around⟩ := by
  induction each generalizing held with
  | nil => simp [Reading.run, Reading.step, Reading.bare, Reading.settle, Reading.closeList]
  | @cons text item texts read first rest ih =>
      cases rest with
      | nil =>
          rw [String.intercalate_singleton, first _ _ _ rfl]
          rfl
      | cons second rest =>
          have begun := first held (outer :: around) ' ' rfl
          have passed : Reading.step ⟨.nothing, held ++ [item], outer :: around⟩ ' '
              = ⟨.nothing, held ++ [item], outer :: around⟩ := rfl
          rw [String.intercalate_cons_cons, String.toList_append, String.toList_append,
            show " ".toList = [' '] from rfl, List.append_assoc, Reading.run_append, begun, passed,
            ih, List.append_assoc, List.singleton_append]

/-- A parenthesis around readable texts is the list of what they are read as. -/
theorem reads_list (each : List.Forall₂ Reads texts read) :
    Reads ("(" ++ " ".intercalate texts ++ ")") (.list read) := by
  intro items around stop _
  have opened : Reading.step ⟨.nothing, items, around⟩ '(' = ⟨.nothing, [], items :: around⟩ := rfl
  have inside := run_inside each [] items around
  rw [String.toList_append, String.toList_append, show "(".toList = ['('] from rfl,
    show ")".toList = [')'] from rfl, Reading.run_append, List.append_assoc,
    List.singleton_append, Reading.run_cons _ '(', opened, inside]
  rfl

theorem read_all_lines (each : List.Forall₂ Reads texts read) :
    readAll (String.join (texts.map (· ++ "\n"))) = read := by
  have reading (held : List Sexp) :
      Reading.run ⟨.nothing, held, []⟩ (String.join (texts.map (· ++ "\n"))).toList
        = ⟨.nothing, held ++ read, []⟩ := by
    induction each generalizing held with
    | nil => simp [Reading.run]
    | @cons text item texts read first rest ih =>
        have begun := first held [] '\n' rfl
        have passed : Reading.step ⟨.nothing, held ++ [item], []⟩ '\n'
            = ⟨.nothing, held ++ [item], []⟩ := rfl
        rw [List.map_cons, String.join_cons, String.toList_append, String.toList_append,
          show "\n".toList = ['\n'] from rfl, Reading.run_append, begun, passed, ih,
          List.append_assoc, List.singleton_append]
  rw [readAll, reading []]
  rfl

end Lists

end Sexp

end Condense
