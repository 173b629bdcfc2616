import Condense.Proofs.Constants
import Condense.Proofs.Sexps
import Condense.Solver.External

/-!
# What a script says

The commands of a script before its strategy are S-expressions: one declaration for each
free constant and the assertion of the term. From the assertion and the sorts that the
declarations give the term can be read back, as long as its leaves show in the text: a
name with a bar in it is written as another name, and a constant called `true` looks like
the literal. The strategy may be any text, and nothing is read of it.
-/

namespace Condense

set_option autoImplicit false

namespace Word

def ofHex (digits : List Char) : Nat :=
  digits.foldl (fun n c => 16 * n + if c.isDigit then c.toNat - 48 else c.toNat - 87) 0

theorem of_hex_digits (n : Nat) : ofHex (Nat.toDigits 16 n) = n := by
  induction n using Nat.strong_induction_on with
  | _ n ih =>
      have digit : ∀ d < 16,
          (if d.digitChar.isDigit then d.digitChar.toNat - 48 else d.digitChar.toNat - 87) = d := by
        decide
      rw [Nat.toDigits_eq_if (by decide)]
      split
      case isTrue small =>
          rw [ofHex, List.foldl_cons, List.foldl_nil, digit n small]
          omega
      case isFalse large =>
          have front : ofHex (Nat.toDigits 16 (n / 16)) = n / 16 := ih (n / 16) (by omega)
          rw [ofHex] at front
          rw [ofHex, List.foldl_append, front, List.foldl_cons, List.foldl_nil,
            digit (n % 16) (Nat.mod_lt n (by decide))]
          omega

theorem of_hex_padded (value : UInt64) (width : Nat) :
    ofHex (paddedHex value width).toList = value.toNat := by
  have zeros (count : Nat) (digits : List Char) :
      ofHex (List.replicate count '0' ++ digits) = ofHex digits := by
    induction count with
    | zero => rfl
    | succ count ih =>
        rw [List.replicate_succ, List.cons_append, ← ih]
        rfl
  rw [paddedHex, String.toList_ofList, zeros, hex, of_hex_digits]

theorem length_padded_hex {value : UInt64} {width : Nat} (positive : 0 < width)
    (fits : value.toNat < 16 ^ width) : (paddedHex value width).toList.length = width := by
  have short : (hex value).length ≤ width :=
    (Nat.length_toDigits_le_iff (by decide) positive).mpr fits
  rw [paddedHex, String.toList_ofList, List.length_append, List.length_replicate]
  omega

end Word

namespace Sexp

theorem is_word_char_of_digits {base n : Nat} (large : 1 < base) (small : base ≤ 16) :
    ∀ c ∈ Nat.toDigits base n, isWordChar c = true := by
  induction n using Nat.strong_induction_on with
  | _ n ih =>
      have digit : ∀ d < 16, isWordChar d.digitChar = true := by decide
      intro c member
      rw [Nat.toDigits_eq_if large] at member
      split at member
      case isTrue one =>
          rw [List.mem_singleton.mp member]
          exact digit n (by omega)
      case isFalse more =>
          rcases List.mem_append.mp member with front | last
          · exact ih (n / base) (Nat.div_lt_self (by omega) large) c front
          · rw [List.mem_singleton.mp last]
            exact digit (n % base) (Nat.lt_of_lt_of_le (Nat.mod_lt n (by omega)) small)

theorem is_word_numeral (n : Nat) : isWord (toString n) = true := by
  have written : (toString n).toList = Nat.toDigits 10 n := Nat.toList_repr
  rw [isWord, written, Bool.and_eq_true, List.all_eq_true]
  constructor
  · simp
  · exact is_word_char_of_digits (by decide) (by decide)

theorem is_word_append {first second : String} (bare : isWord first = true)
    (plain : ∀ c ∈ second.toList, isWordChar c = true) : isWord (first ++ second) = true := by
  rw [isWord, Bool.and_eq_true] at bare ⊢
  rw [String.toList_append, List.all_append, bare.2, List.all_eq_true.mpr plain]
  simp_all

theorem reads_applied {text : String} {texts : List String} {read : List Sexp} (head : String)
    (bare : isWord head = true) (each : List.Forall₂ Reads texts read)
    (written : text = "(" ++ " ".intercalate (head :: texts) ++ ")") :
    Reads text (.list (.word head.toList :: read)) := by
  rw [written]
  exact reads_list (.cons (reads_word bare) each)

end Sexp

namespace SmtSort

def sexp : SmtSort → Sexp
  | bool => .word "Bool".toList
  | bitVec bits => .list [.word "_".toList, .word "BitVec".toList, .word (toString bits).toList]

theorem reads_text (sort : SmtSort) : Sexp.Reads sort.text sort.sexp := by
  cases sort with
  | bool => exact Sexp.reads_word rfl
  | bitVec bits =>
      apply Sexp.reads_applied "_" rfl
        (.cons (Sexp.reads_word rfl) (.cons (Sexp.reads_word (Sexp.is_word_numeral bits)) .nil))
      simp [text, ← String.toList_inj]

end SmtSort

namespace Term

/-- How a name is spelled in a script: a bar is shown as `_`. -/
def spelled (name : String) : List Char :=
  name.toList.map fun c => if c = '|' then '_' else c

def atom (name : String) : Sexp :=
  if isSimpleSymbol name then .word name.toList else .quoted (spelled name)

theorem symbol_chars_of_simple {name : String} (simple : isSimpleSymbol name = true) :
    name.toList ≠ [] ∧ ∀ c ∈ name.toList, isSymbolChar c = true := by
  unfold isSimpleSymbol at simple
  split at simple
  case h_1 => cases simple
  case h_2 c rest written =>
      rw [Bool.and_eq_true, List.all_eq_true] at simple
      rw [written]
      exact ⟨List.cons_ne_nil c rest, simple.2⟩

theorem ne_of_simple {name : String} {c d : Char} (simple : isSimpleSymbol name = true)
    (member : c ∈ name.toList) (reserved : isSymbolChar d = false) : c ≠ d := by
  intro same
  have plain := (symbol_chars_of_simple simple).2 c member
  rw [same, reserved] at plain
  cases plain

theorem is_word_of_simple {name : String} (simple : isSimpleSymbol name = true) :
    Sexp.isWord name = true := by
  rw [Sexp.isWord, Bool.and_eq_true, List.all_eq_true]
  constructor
  · simpa using (symbol_chars_of_simple simple).1
  · intro c member
    have other {d : Char} (reserved : isSymbolChar d = false) : c ≠ d :=
      ne_of_simple simple member reserved
    have blank : c.isWhitespace = false := by
      simp [Char.isWhitespace, other (d := ' ') rfl, other (d := '\t') rfl, other (d := '\r') rfl,
        other (d := '\n') rfl]
    simp [Sexp.isWordChar, other (d := '(') rfl, other (d := ')') rfl, other (d := '|') rfl, blank]

theorem reads_symbol (name : String) : Sexp.Reads (symbol name) (atom name) := by
  unfold symbol atom
  split
  case isTrue simple => exact Sexp.reads_word (is_word_of_simple simple)
  case isFalse quoted =>
      apply Sexp.reads_quoted
      intro member
      rcases List.mem_map.mp member with ⟨c, _, shown⟩
      split at shown
      · cases shown
      · contradiction

def literalSexp (value : UInt64) (bits : Nat) : Sexp :=
  if bits % 4 = 0 then .word ("#x" ++ Word.paddedHex value (bits / 4)).toList
  else .list [.word "_".toList, .word ("bv" ++ toString value.toNat).toList,
    .word (toString bits).toList]

theorem reads_literal (value : UInt64) (bits : Nat) :
    Sexp.Reads (literalText value bits) (literalSexp value bits) := by
  unfold literalText literalSexp
  split
  case isTrue whole =>
      apply Sexp.reads_word
      apply Sexp.is_word_append rfl
      intro c member
      rw [Word.paddedHex, String.toList_ofList, List.mem_append] at member
      rcases member with zero | digit
      · rw [List.eq_of_mem_replicate zero]
        rfl
      · exact Sexp.is_word_char_of_digits (by decide) (by decide) c digit
  case isFalse uneven =>
      have number : Sexp.isWord ("bv" ++ toString value.toNat) = true := by
        apply Sexp.is_word_append rfl
        intro c member
        rw [Nat.toString_eq_ofList_toDigits, String.toList_ofList] at member
        exact Sexp.is_word_char_of_digits (by decide) (by decide) c member
      apply Sexp.reads_applied "_" rfl
        (.cons (Sexp.reads_word number) (.cons (Sexp.reads_word (Sexp.is_word_numeral bits)) .nil))
      simp [← String.toList_inj]

def sexp : Term → Sexp
  | bool value => .word (if value then "true" else "false").toList
  | bitVec value bits => literalSexp value bits
  | const name _ => atom name
  | not t => .list [.word "not".toList, t.sexp]
  | and l r => .list [.word "and".toList, l.sexp, r.sexp]
  | or l r => .list [.word "or".toList, l.sexp, r.sexp]
  | xor l r => .list [.word "xor".toList, l.sexp, r.sexp]
  | eq l r => .list [.word "=".toList, l.sexp, r.sexp]
  | ite c yes no => .list [.word "ite".toList, c.sexp, yes.sexp, no.sexp]
  | bvUnary op t => .list [.word op.name.toList, t.sexp]
  | bvBinary op l r => .list [.word op.name.toList, l.sexp, r.sexp]
  | bvCompare op l r => .list [.word op.name.toList, l.sexp, r.sexp]
  | extract high low t =>
      .list [.list [.word "_".toList, .word "extract".toList, .word (toString high).toList,
        .word (toString low).toList], t.sexp]
  | zeroExtend extra t =>
      .list [.list [.word "_".toList, .word "zero_extend".toList, .word (toString extra).toList],
        t.sexp]
  | signExtend extra t =>
      .list [.list [.word "_".toList, .word "sign_extend".toList, .word (toString extra).toList],
        t.sexp]

theorem reads_indexed {argument text : String} {read : Sexp} (name : String) (numbers : List Nat)
    (bare : Sexp.isWord name = true) (operand : Sexp.Reads argument read)
    (written : text = "(" ++ " ".intercalate
      ["(" ++ " ".intercalate ("_" :: name :: numbers.map toString) ++ ")", argument] ++ ")") :
    Sexp.Reads text (.list [.list (.word "_".toList :: .word name.toList ::
      numbers.map fun n => .word (toString n).toList), read]) := by
  have each : List.Forall₂ Sexp.Reads (numbers.map toString)
      (numbers.map fun n => .word (toString n).toList) := by
    rw [List.forall₂_map_left_iff, List.forall₂_map_right_iff, List.forall₂_same]
    intro n _
    exact Sexp.reads_word (Sexp.is_word_numeral n)
  rw [written]
  apply Sexp.reads_list
  exact .cons (Sexp.reads_applied "_" rfl (.cons (Sexp.reads_word bare) each) rfl)
    (.cons operand .nil)

/-- Every term is readable, whatever its names and literals are. -/
theorem reads_text (t : Term) : Sexp.Reads t.text t.sexp := by
  -- The equations between texts hold for any texts of the operands.
  have one (name s : String) : "(" ++ name ++ " " ++ s ++ ")"
      = "(" ++ " ".intercalate [name, s] ++ ")" := by
    simp [← String.toList_inj]
  have two (name l r : String) : applied name l r
      = "(" ++ " ".intercalate [name, l, r] ++ ")" := by
    simp [applied, ← String.toList_inj]
  have three (c yes no : String) : "(ite " ++ c ++ " " ++ yes ++ " " ++ no ++ ")"
      = "(" ++ " ".intercalate ["ite", c, yes, no] ++ ")" := by
    simp [← String.toList_inj]
  have numbered (name n s : String) : "((_ " ++ name ++ " " ++ n ++ ") " ++ s ++ ")"
      = "(" ++ " ".intercalate ["(" ++ " ".intercalate ["_", name, n] ++ ")", s] ++ ")" := by
    simp [← String.toList_inj]
  have ranged (high low s : String) : "((_ extract " ++ high ++ " " ++ low ++ ") " ++ s ++ ")"
      = "(" ++ " ".intercalate ["(" ++ " ".intercalate ["_", "extract", high, low] ++ ")", s]
        ++ ")" := by
    simp [← String.toList_inj]
  induction t with
  | bool value => cases value <;> exact Sexp.reads_word rfl
  | bitVec value bits => exact reads_literal value bits
  | const name sort => exact reads_symbol name
  | not t ih => exact Sexp.reads_applied "not" rfl (.cons ih .nil) (one "not" t.text)
  | and l r left right =>
      exact Sexp.reads_applied "and" rfl (.cons left (.cons right .nil)) (two _ _ _)
  | or l r left right =>
      exact Sexp.reads_applied "or" rfl (.cons left (.cons right .nil)) (two _ _ _)
  | xor l r left right =>
      exact Sexp.reads_applied "xor" rfl (.cons left (.cons right .nil)) (two _ _ _)
  | eq l r left right =>
      exact Sexp.reads_applied "=" rfl (.cons left (.cons right .nil)) (two _ _ _)
  | ite c yes no condition positive negative =>
      exact Sexp.reads_applied "ite" rfl (.cons condition (.cons positive (.cons negative .nil)))
        (three _ _ _)
  | bvUnary op t ih =>
      have bare : Sexp.isWord op.name = true := by cases op <;> rfl
      exact Sexp.reads_applied op.name bare (.cons ih .nil) (one _ _)
  | bvBinary op l r left right =>
      have bare : Sexp.isWord op.name = true := by cases op <;> rfl
      exact Sexp.reads_applied op.name bare (.cons left (.cons right .nil)) (two _ _ _)
  | bvCompare op l r left right =>
      have bare : Sexp.isWord op.name = true := by cases op <;> rfl
      exact Sexp.reads_applied op.name bare (.cons left (.cons right .nil)) (two _ _ _)
  | extract high low t ih => exact reads_indexed "extract" [high, low] rfl ih (ranged _ _ _)
  | zeroExtend extra t ih =>
      exact reads_indexed "zero_extend" [extra] rfl ih (numbered "zero_extend" _ _)
  | signExtend extra t ih =>
      exact reads_indexed "sign_extend" [extra] rfl ih (numbered "sign_extend" _ _)

end Term

end Condense
