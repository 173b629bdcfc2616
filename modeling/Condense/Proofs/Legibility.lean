import Condense.Proofs.Scripts

/-!
# Reading a script back

A term whose leaves show in its text can be read back from its script, so two such terms
with one script are one term. What keeps a leaf from showing is left out by `Legible`:
names with bars in them, constants called like a literal, literals with bits above their
width, and a name that stands for constants of two sorts.

The names of two free constants are written as one symbol exactly when they differ in
nothing but bars and underscores.
-/

namespace Condense

set_option autoImplicit false

namespace Sexp

def number (digits : List Char) : Nat :=
  Nat.ofDigitChars 10 digits 0

theorem number_to_string (n : Nat) : number (toString n).toList = n := by
  rw [number, Nat.toString_eq_ofList_toDigits, String.toList_ofList,
    Nat.ofDigitChars_ten_toDigits]

section Terms

variable (sortOf : String → SmtSort)

def constant (content : List Char) : Term :=
  .const (String.ofList content) (sortOf (String.ofList content))

def leaf : List Char → Term
  | '#' :: 'x' :: digits => .bitVec (Word.ofHex digits).toUInt64 (4 * digits.length)
  | content =>
      if content = "true".toList then .bool true
      else if content = "false".toList then .bool false
      else constant sortOf content

def literal? : Sexp → Sexp → Option Term
  | .word ('b' :: 'v' :: value), .word bits => some (.bitVec (number value).toUInt64 (number bits))
  | _, _ => none

def unary? (head : List Char) : Option (Term → Term) :=
  if head = "not".toList then some .not
  else ([.not, .neg].find? fun op : BvUnary => op.name.toList == head).map .bvUnary

def arithmetic? (head : List Char) : Option BvBinary :=
  [.add, .sub, .mul, .udiv, .sdiv, .urem, .srem, .and, .or, .xor, .shl, .lshr, .ashr].find?
    fun op : BvBinary => op.name.toList == head

def order? (head : List Char) : Option BvCompare :=
  [.ult, .ule, .ugt, .uge, .slt, .sle, .sgt, .sge].find?
    fun op : BvCompare => op.name.toList == head

def binary? (head : List Char) : Option (Term → Term → Term) :=
  if head = "and".toList then some .and
  else if head = "or".toList then some .or
  else if head = "xor".toList then some .xor
  else if head = "=".toList then some .eq
  else (arithmetic? head).map .bvBinary <|> (order? head).map .bvCompare

def indexed? : List Sexp → Option (Term → Term)
  | [_, .word name, .word first, .word second] =>
      if name = "extract".toList then some (.extract (number first) (number second)) else none
  | [_, .word name, .word extra] =>
      if name = "zero_extend".toList then some (.zeroExtend (number extra))
      else if name = "sign_extend".toList then some (.signExtend (number extra))
      else none
  | _ => none

/-- The term that an S-expression stands for, where constants have the sorts `sortOf`. -/
def toTerm? : Sexp → Option Term
  | .word content => some (leaf sortOf content)
  | .quoted content => some (constant sortOf content)
  | .list [.word head, a] => do return (← unary? head) (← toTerm? a)
  | .list [.list head, a] => do return (← indexed? head) (← toTerm? a)
  | .list [.word head, a, b] =>
      if head = "_".toList then literal? a b
      else do return (← binary? head) (← toTerm? a) (← toTerm? b)
  | .list [_, a, b, c] => do return .ite (← toTerm? a) (← toTerm? b) (← toTerm? c)
  | _ => none

end Terms

end Sexp

namespace Term

theorem spelled_of_barless {name : String} (barless : '|' ∉ name.toList) :
    spelled name = name.toList := by
  have kept : ∀ c ∈ name.toList, (if c = '|' then '_' else c) = c := by
    intro c member
    rw [if_neg]
    rintro rfl
    exact barless member
  rw [spelled, List.map_congr_left kept, List.map_id']

theorem symbol_atom (name : String) : (atom name).symbol? = some (spelled name) := by
  unfold atom
  split
  case isTrue simple =>
      have barless : '|' ∉ name.toList := fun member => ne_of_simple simple member rfl rfl
      rw [spelled_of_barless barless]
      rfl
  case isFalse => rfl

theorem name_eq_of_atom {a b : String} (barless : '|' ∉ a.toList) (barless' : '|' ∉ b.toList)
    (same : atom a = atom b) : a = b := by
  have symbols : some (spelled a) = some (spelled b) := by
    rw [← symbol_atom, same, symbol_atom]
  rw [spelled_of_barless barless, spelled_of_barless barless'] at symbols
  exact String.toList_inj.mp (Option.some.inj symbols)

def IsShown (sortOf : String → SmtSort) : Term → Prop
  | bitVec value bits => 1 ≤ bits ∧ bits ≤ 64 ∧ Word.truncate value bits = value
  | const name sort =>
      '|' ∉ name.toList ∧ name ≠ "true" ∧ name ≠ "false" ∧ sortOf name = sort
  | _ => True

section Leaves

variable (sortOf : String → SmtSort)

theorem to_term_literal {value : UInt64} {bits : Nat} (positive : 1 ≤ bits) (narrow : bits ≤ 64)
    (fits : Word.truncate value bits = value) :
    (literalSexp value bits).toTerm? sortOf = some (bitVec value bits) := by
  unfold literalSexp
  split
  case isTrue whole =>
      have small : value.toNat < 16 ^ (bits / 4) := by
        have width : bits = 4 * (bits / 4) := by omega
        have power : 2 ^ bits = 16 ^ (bits / 4) := by
          conv_lhs => rw [width]
          rw [Nat.pow_mul]
        rw [← power, ← fits, Word.truncate_to_nat value bits narrow]
        exact Nat.mod_lt _ (Nat.two_pow_pos bits)
      have length := Word.length_padded_hex (by omega) small
      have back : 4 * (bits / 4) = bits := by omega
      rw [String.toList_append, show "#x".toList = ['#', 'x'] from rfl]
      simp only [List.cons_append, List.nil_append, Sexp.toTerm?, Sexp.leaf, Word.of_hex_padded,
        length, back]
      rw [Nat.toUInt64_eq, UInt64.ofNat_toNat]
  case isFalse uneven =>
      rw [String.toList_append, show "bv".toList = ['b', 'v'] from rfl]
      simp only [List.cons_append, List.nil_append, Sexp.toTerm?, Sexp.literal?,
        Sexp.number_to_string, if_true]
      rw [Nat.toUInt64_eq, UInt64.ofNat_toNat]

theorem to_term_const {name : String} (barless : '|' ∉ name.toList) (notTrue : name ≠ "true")
    (notFalse : name ≠ "false") :
    (atom name).toTerm? sortOf = some (const name (sortOf name)) := by
  unfold atom
  split
  case isTrue simple =>
      have unmarked : ∀ digits, name.toList ≠ '#' :: 'x' :: digits := by
        intro digits marked
        exact ne_of_simple simple (by rw [marked]; exact List.mem_cons_self) rfl rfl
      rw [Sexp.toTerm?, Sexp.leaf]
      · rw [if_neg (fun same => notTrue (String.toList_inj.mp same)),
          if_neg (fun same => notFalse (String.toList_inj.mp same)), Sexp.constant,
          String.ofList_toList]
      · exact unmarked
  case isFalse quoted =>
      rw [spelled_of_barless barless, Sexp.toTerm?, Sexp.constant, String.ofList_toList]

end Leaves

section Applied

variable {sortOf : String → SmtSort} {head : List Char} {l r : Term}

theorem to_term_unary {make : Term → Term} (found : Sexp.unary? head = some make)
    (operand : l.sexp.toTerm? sortOf = some l) :
    (Sexp.list [.word head, l.sexp]).toTerm? sortOf = some (make l) := by
  rw [Sexp.toTerm?, found, operand]
  rfl

theorem to_term_binary {make : Term → Term → Term} (found : Sexp.binary? head = some make)
    (left : l.sexp.toTerm? sortOf = some l) (right : r.sexp.toTerm? sortOf = some r) :
    (Sexp.list [.word head, l.sexp, r.sexp]).toTerm? sortOf = some (make l r) := by
  have plain : head ≠ "_".toList := by
    rintro rfl
    cases found
  rw [Sexp.toTerm?, if_neg plain, found, left, right]
  rfl

theorem to_term_indexed {index : List Sexp} {make : Term → Term}
    (found : Sexp.indexed? index = some make) (operand : l.sexp.toTerm? sortOf = some l) :
    (Sexp.list [.list index, l.sexp]).toTerm? sortOf = some (make l) := by
  rw [Sexp.toTerm?, found, operand]
  rfl

end Applied

/-- A term whose leaves are shown is read back from its text. -/
theorem to_term_sexp (sortOf : String → SmtSort) (t : Term)
    (shown : ∀ s ∈ t.subterms, s.IsShown sortOf) : t.sexp.toTerm? sortOf = some t := by
  induction t with
  | bool value => cases value <;> rfl
  | bitVec value bits =>
      rcases shown (bitVec value bits) (by simp [subterms]) with ⟨positive, narrow, fits⟩
      exact to_term_literal sortOf positive narrow fits
  | const name sort =>
      rcases shown (const name sort) (by simp [subterms]) with ⟨barless, notTrue, notFalse, sorted⟩
      rw [← sorted]
      exact to_term_const sortOf barless notTrue notFalse
  | not t ih => exact to_term_unary rfl (ih fun s member => shown s (by simp [subterms, member]))
  | and l r left right =>
      exact to_term_binary rfl (left fun s member => shown s (by simp [subterms, member]))
        (right fun s member => shown s (by simp [subterms, member]))
  | or l r left right =>
      exact to_term_binary rfl (left fun s member => shown s (by simp [subterms, member]))
        (right fun s member => shown s (by simp [subterms, member]))
  | xor l r left right =>
      exact to_term_binary rfl (left fun s member => shown s (by simp [subterms, member]))
        (right fun s member => shown s (by simp [subterms, member]))
  | eq l r left right =>
      exact to_term_binary rfl (left fun s member => shown s (by simp [subterms, member]))
        (right fun s member => shown s (by simp [subterms, member]))
  | ite c yes no condition positive negative =>
      have first := condition fun s member => shown s (by simp [subterms, member])
      have second := positive fun s member => shown s (by simp [subterms, member])
      have third := negative fun s member => shown s (by simp [subterms, member])
      rw [sexp, Sexp.toTerm?, first, second, third]
      rfl
  | bvUnary op t ih =>
      have found : Sexp.unary? op.name.toList = some (bvUnary op) := by cases op <;> rfl
      exact to_term_unary found (ih fun s member => shown s (by simp [subterms, member]))
  | bvBinary op l r left right =>
      have found : Sexp.binary? op.name.toList = some (bvBinary op) := by cases op <;> rfl
      exact to_term_binary found (left fun s member => shown s (by simp [subterms, member]))
        (right fun s member => shown s (by simp [subterms, member]))
  | bvCompare op l r left right =>
      have found : Sexp.binary? op.name.toList = some (bvCompare op) := by cases op <;> rfl
      exact to_term_binary found (left fun s member => shown s (by simp [subterms, member]))
        (right fun s member => shown s (by simp [subterms, member]))
  | extract high low t ih =>
      have operand := ih fun s member => shown s (by simp [subterms, member])
      rw [sexp, to_term_indexed rfl operand, Sexp.number_to_string, Sexp.number_to_string]
  | zeroExtend extra t ih =>
      have operand := ih fun s member => shown s (by simp [subterms, member])
      rw [sexp, to_term_indexed rfl operand, Sexp.number_to_string]
  | signExtend extra t ih =>
      have operand := ih fun s member => shown s (by simp [subterms, member])
      rw [sexp, to_term_indexed rfl operand, Sexp.number_to_string]

/-- What lets a term be read back from its script. -/
structure Legible (t : Term) : Prop where
  /-- Every name is used at one sort only. -/
  sorted : ∀ name sort sort', const name sort ∈ t.subterms → const name sort' ∈ t.subterms →
    sort = sort'
  /-- No name holds a bar or looks like a literal. -/
  named : ∀ name sort, const name sort ∈ t.subterms →
    '|' ∉ name.toList ∧ name ≠ "true" ∧ name ≠ "false"
  /-- No literal has bits above its width. -/
  fits : ∀ value bits, bitVec value bits ∈ t.subterms →
    1 ≤ bits ∧ bits ≤ 64 ∧ Word.truncate value bits = value

theorem Legible.mem_constants {t : Term} (legible : t.Legible) {name : String} {sort : SmtSort} :
    (name, sort) ∈ t.constants ↔ const name sort ∈ t.subterms := by
  have single : t.SingleSorted := by
    rintro ⟨a, s⟩ first ⟨b, s'⟩ second same
    subst same
    exact legible.sorted a s s' (mem_occurrences.mp first) (mem_occurrences.mp second)
  rw [single.mem_constants, mem_occurrences]

end Term

def Constants.sortOf (constants : Constants) (name : String) : SmtSort :=
  (constants.lookup name).getD .bool

theorem Constants.Ascending.sort_of_mem {constants : Constants} (ascending : constants.Ascending)
    {name : String} {sort : SmtSort} (member : (name, sort) ∈ constants) :
    constants.sortOf name = sort := by
  unfold sortOf
  induction constants with
  | nil => cases member
  | cons first rest ih =>
      rcases List.mem_cons.mp member with rfl | later
      · rw [List.lookup_cons_self]
        rfl
      · have different : (name == first.1) = false :=
          beq_eq_false_iff_ne.mpr (ascending.name_ne later)
        rw [List.lookup_cons, different]
        exact ih (List.pairwise_cons.mp ascending).2 later

theorem Term.Legible.shown {t : Term} (legible : t.Legible) :
    ∀ s ∈ t.subterms, s.IsShown t.constants.sortOf := by
  intro s member
  cases s with
  | bitVec value bits => exact legible.fits value bits member
  | const name sort =>
      rcases legible.named name sort member with ⟨barless, notTrue, notFalse⟩
      have declared := t.constants_ascending.sort_of_mem (legible.mem_constants.mpr member)
      exact ⟨barless, notTrue, notFalse, declared⟩
  | _ => trivial

theorem SmtSort.eq_of_sexp {a b : SmtSort} (same : a.sexp = b.sexp) : a = b := by
  cases a with
  | bool =>
      cases b with
      | bool => rfl
      | bitVec bits => cases same
  | bitVec bits =>
      cases b with
      | bool => cases same
      | bitVec bits' =>
          simp only [sexp, Sexp.list.injEq, List.cons.injEq, Sexp.word.injEq, true_and,
            and_true] at same
          rw [← Sexp.number_to_string bits, same, Sexp.number_to_string]

namespace External

def opening (t : Term) : String :=
  String.join ((t.constants.map declaration ++ ["(assert " ++ t.text ++ ")"]).map (· ++ "\n"))

def query (strategy : Strategy) : String :=
  "(check-sat-using " ++ strategy.text ++ ")\n(exit)\n"

theorem script_eq (t : Term) (strategy : Strategy) :
    script t strategy = opening t ++ query strategy := by
  have lines (first rest : List String) (more : rest ≠ []) :
      "\n".intercalate (first ++ rest)
        = String.join (first.map (· ++ "\n")) ++ "\n".intercalate rest := by
    induction first with
    | nil => simp
    | cons line first ih =>
        rw [List.cons_append, String.intercalate_cons_of_ne_nil (by simp [more]), ih,
          List.map_cons, String.join_cons]
        simp only [String.append_assoc]
  have asked (s : String) : "\n".intercalate ["(check-sat-using " ++ s ++ ")", "(exit)\n"]
      = "(check-sat-using " ++ s ++ ")\n(exit)\n" := by
    simp [← String.toList_inj]
  have commands := lines (t.constants.map declaration ++ ["(assert " ++ t.text ++ ")"])
    ["(check-sat-using " ++ strategy.text ++ ")", "(exit)\n"] (List.cons_ne_nil _ _)
  rw [asked, List.append_assoc, List.singleton_append] at commands
  exact commands

def declare (constant : String × SmtSort) : Sexp :=
  .list [.word "declare-const".toList, Term.atom constant.1, constant.2.sexp]

def assertion (t : Term) : Sexp :=
  .list [.word "assert".toList, t.sexp]

/-- The free constants are declared in the order of their names, then the term is asserted. -/
theorem read_opening (t : Term) :
    Sexp.readAll (opening t) = t.constants.map declare ++ [assertion t] := by
  have two (name sort : String) : "(declare-const " ++ name ++ " " ++ sort ++ ")"
      = "(" ++ " ".intercalate ["declare-const", name, sort] ++ ")" := by
    simp [← String.toList_inj]
  have one (s : String) : "(assert " ++ s ++ ")" = "(" ++ " ".intercalate ["assert", s] ++ ")" := by
    simp [← String.toList_inj]
  apply Sexp.read_all_lines
  apply List.rel_append
  · rw [List.forall₂_map_left_iff, List.forall₂_map_right_iff, List.forall₂_same]
    intro constant _
    exact Sexp.reads_applied "declare-const" rfl
      (.cons (Term.reads_symbol constant.1) (.cons constant.2.reads_text .nil)) (two _ _)
  · exact .cons (Sexp.reads_applied "assert" rfl (.cons t.reads_text .nil) (one _)) .nil

theorem declare_inj {a b : String × SmtSort} (barless : '|' ∉ a.1.toList)
    (barless' : '|' ∉ b.1.toList) (same : declare a = declare b) : a = b := by
  simp only [declare, Sexp.list.injEq, List.cons.injEq, true_and, and_true] at same
  exact Prod.ext (Term.name_eq_of_atom barless barless' same.1) (SmtSort.eq_of_sexp same.2)

theorem eq_of_declared {first second : Constants} (barless : ∀ c ∈ first, '|' ∉ c.1.toList)
    (barless' : ∀ c ∈ second, '|' ∉ c.1.toList)
    (same : first.map declare = second.map declare) : first = second := by
  induction first generalizing second with
  | nil => exact (List.map_eq_nil_iff.mp same.symm).symm
  | cons a first ih =>
      cases second with
      | nil => cases same
      | cons b second =>
          rw [List.map_cons, List.map_cons, List.cons.injEq] at same
          have head := declare_inj (barless a (by simp)) (barless' b (by simp)) same.1
          have tail := ih (fun c member => barless c (by simp [member]))
            (fun c member => barless' c (by simp [member])) same.2
          rw [head, tail]

theorem barless_of_legible {t : Term} (legible : t.Legible) :
    ∀ c ∈ t.constants, '|' ∉ c.1.toList :=
  fun _ member => (legible.named _ _ (legible.mem_constants.mp member)).1

/-- Two legible terms that have one script are one term. -/
theorem script_determines_term {t u : Term} (strategy : Strategy) (legible : t.Legible)
    (legible' : u.Legible) (same : script t strategy = script u strategy) : t = u := by
  have openings : opening t = opening u := by
    rw [script_eq, script_eq] at same
    have chars := congrArg String.toList same
    rw [String.toList_append, String.toList_append] at chars
    exact String.toList_inj.mp (List.append_cancel_right chars)
  have commands : t.constants.map declare ++ [assertion t]
      = u.constants.map declare ++ [assertion u] := by
    rw [← read_opening, openings, read_opening]
  rcases List.append_inj' commands rfl with ⟨declared, asserted⟩
  have constants :=
    eq_of_declared (barless_of_legible legible) (barless_of_legible legible') declared
  have texts : t.sexp = u.sexp := by
    simpa [assertion] using asserted
  have first := Term.to_term_sexp _ t legible.shown
  have second := Term.to_term_sexp _ u legible'.shown
  rw [texts, constants, second] at first
  exact (Option.some.inj first).symm

/-- Names that are no simple symbols, and literals in both notations. -/
theorem script_determines_term_quoted :
    let t (literal : Term) : Term :=
      .and (.eq (.const "" (.bitVec 8)) literal)
        (.eq (.const "x )\n(;" (.bitVec 3)) (.bitVec 5 3))
    (t (.ofWord 0x1ff 8)).Legible ∧ (t (.bitVec 0xff 8)).Legible ∧
      script (t (.ofWord 0x1ff 8)) .standard = script (t (.bitVec 0xff 8)) .standard ∧
      t (.ofWord 0x1ff 8) = t (.bitVec 0xff 8) := by
  intro t
  have legible : (t (.bitVec 0xff 8)).Legible := by
    constructor
    · intro name sort sort' first second
      simp only [t, Term.subterms, List.cons_append, List.nil_append, List.mem_cons,
        List.not_mem_nil, reduceCtorEq, Term.const.injEq, false_or, or_false] at first second
      rcases first with ⟨rfl, rfl⟩ | ⟨rfl, rfl⟩ <;> simp_all
    · intro name sort member
      simp only [t, Term.subterms, List.cons_append, List.nil_append, List.mem_cons,
        List.not_mem_nil, reduceCtorEq, Term.const.injEq, false_or, or_false] at member
      rcases member with ⟨rfl, rfl⟩ | ⟨rfl, rfl⟩ <;> decide
    · intro value bits member
      simp only [t, Term.subterms, List.cons_append, List.nil_append, List.mem_cons,
        List.not_mem_nil, reduceCtorEq, Term.bitVec.injEq, false_or, or_false] at member
      rcases member with ⟨rfl, rfl⟩ | ⟨rfl, rfl⟩ <;> decide
  exact ⟨legible, legible, rfl, script_determines_term .standard legible legible rfl⟩

end External

namespace Term

/-- Names that differ in nothing but bars and underscores. -/
def BarTwins (a b : String) : Prop :=
  List.Forall₂ (fun c d => c = d ∨ c = '|' ∧ d = '_' ∨ c = '_' ∧ d = '|') a.toList b.toList

theorem spelled_eq_iff {a b : String} : spelled a = spelled b ↔ BarTwins a b := by
  have shown (c d : Char) : ((if c = '|' then '_' else c) = if d = '|' then '_' else d) ↔
      c = d ∨ c = '|' ∧ d = '_' ∨ c = '_' ∧ d = '|' := by
    by_cases bar : c = '|' <;> by_cases bar' : d = '|' <;> simp [bar, bar', eq_comm]
  rw [spelled, spelled, BarTwins, ← List.forall₂_eq_eq_eq, List.forall₂_map_left_iff,
    List.forall₂_map_right_iff]
  simp only [shown]

end Term

def Sexp.declared? : Sexp → Option (List Char)
  | .list [.word head, name, _] => if head = "declare-const".toList then name.symbol? else none
  | _ => none

namespace External

theorem declared_opening (t : Term) :
    (Sexp.readAll (opening t)).filterMap Sexp.declared?
      = t.constants.map fun constant => Term.spelled constant.1 := by
  have each (constant : String × SmtSort) :
      (declare constant).declared? = some (Term.spelled constant.1) :=
    Term.symbol_atom constant.1
  have asserted : (assertion t).declared? = none := rfl
  rw [read_opening, List.filterMap_append, List.filterMap_map, List.filterMap_cons, asserted,
    List.filterMap_nil, List.append_nil, ← List.filterMap_eq_map]
  congr 1
  funext constant
  exact each constant

/-- A script is its declarations and its assertion, in which a constant is the atom of its name,
and then the strategy. It declares pairwise different symbols exactly when no two names of
free constants differ in nothing but bars and underscores. -/
theorem script_keeps_constants_apart (t : Term) (strategy : Strategy) :
    ∃ opening, script t strategy
        = opening ++ ("(check-sat-using " ++ strategy.text ++ ")\n(exit)\n") ∧
      Sexp.readAll opening = t.constants.map declare ++ [assertion t] ∧
      (((Sexp.readAll opening).filterMap Sexp.declared?).Nodup ↔
        t.constants.Pairwise fun a b => ¬ Term.BarTwins a.1 b.1) := by
  refine ⟨opening t, script_eq t strategy, read_opening t, ?_⟩
  rw [declared_opening, List.Nodup, List.pairwise_map]
  simp only [ne_eq, Term.spelled_eq_iff]

/-- The names `a|b` and `a_b` become one symbol, once quoted and once not. -/
theorem script_merges_bar_with_underscore :
    let t : Term := .eq (.const "a|b" (.bitVec 8)) (.const "a_b" (.bitVec 8))
    t.constants = [("a_b", .bitVec 8), ("a|b", .bitVec 8)] ∧
      script t (.named "smt")
        = "(declare-const a_b (_ BitVec 8))\n(declare-const |a_b| (_ BitVec 8))\n" ++
          "(assert (= |a_b| a_b))\n(check-sat-using smt)\n(exit)\n" ∧
      (Term.atom "a|b").symbol? = (Term.atom "a_b").symbol? := by
  decide +kernel

end External

end Condense
