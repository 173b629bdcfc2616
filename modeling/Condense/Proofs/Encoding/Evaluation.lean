import Condense.Proofs.Arithmetic
import Condense.Proofs.Encoding.Derivation
import Condense.Solver.Exhaustive

/-!
# Terms of expressions evaluate to their meaning

The term of an expression, evaluated on words, is the meaning of the expression, which is
stated on integers. The argument has one lemma for each way in which the encoder makes a
term, and one induction over derivations that puts them together.
-/

namespace Condense

set_option autoImplicit false

/-- Under `model` the term has the value of type `ty` with the given bit pattern. -/
structure Represents (model : Model) (t : Term) (ty : Ty) (pattern : Nat) : Prop where
  evaluates : t.eval model = .ok (ty.sort.value pattern)
  fits : pattern < 2 ^ ty.width

def Model.Assigns (model : Model) (store : Store) (e : Expr) : Prop :=
  ∀ v ∈ e.occurrences, model v.name = some (v.ty.sort.value (store v.name v.ty.sort).toNat)

variable {model : Model}

theorem Ty.valid_bounds {ty : Ty} (valid : ty.isValid = true) : 1 ≤ ty.width ∧ ty.width ≤ 64 := by
  simpa [Ty.isValid] using valid

theorem Ty.sort_of_integer {ty : Ty} (integer : ty.isBool = false) :
    ty.sort = .bitVec ty.width := by
  cases ty with
  | bool => cases integer
  | int bits signed => rfl

theorem SmtSort.value_bit_vec {width : Nat} (bits : BitVec width) (narrow : width ≤ 64) :
    (SmtSort.bitVec width).value bits.toNat = Value.ofBits bits := by
  have word : bits.toNat.toUInt64 = Word.ofBits bits := by
    apply UInt64.toNat_inj.mp
    rw [Word.of_bits_to_nat bits narrow, Word.to_nat_of_fits narrow bits.isLt]
  rw [SmtSort.value, word, Value.of_word_of_bits bits narrow]

namespace Represents

theorem of_bits {t : Term} {ty : Ty} (integer : ty.isBool = false) (valid : ty.isValid = true)
    (bits : BitVec ty.width) (known : t.eval model = .ok (.ofBits bits)) :
    Represents model t ty bits.toNat := by
  have narrow := (Ty.valid_bounds valid).2
  refine ⟨?_, bits.isLt⟩
  rw [known, Ty.sort_of_integer integer, SmtSort.value_bit_vec bits narrow]

theorem to_bits {t : Term} {ty : Ty} {pattern : Nat} (integer : ty.isBool = false)
    (valid : ty.isValid = true) (known : Represents model t ty pattern) :
    ∃ bits : BitVec ty.width, pattern = bits.toNat ∧ t.eval model = .ok (.ofBits bits) := by
  have narrow := (Ty.valid_bounds valid).2
  have exact : (BitVec.ofNat ty.width pattern).toNat = pattern := by
    rw [BitVec.toNat_ofNat, Nat.mod_eq_of_lt known.fits]
  refine ⟨BitVec.ofNat ty.width pattern, exact.symm, ?_⟩
  rw [known.evaluates, Ty.sort_of_integer integer, ← SmtSort.value_bit_vec _ narrow, exact]

/-- Types of one sort have the same values; only the reading may differ. -/
theorem of_sort_eq {t : Term} {lty rty : Ty} {pattern : Nat} (same : lty.sort = rty.sort)
    (known : Represents model t rty pattern) : Represents model t lty pattern := by
  constructor
  · rw [same]
    exact known.evaluates
  · rw [Ty.width_eq_of_sort same]
    exact known.fits

theorem of_bool {t : Term} (truth : Bool) (known : t.eval model = .ok (.bool truth)) :
    Represents model t .bool truth.toNat := by
  refine ⟨?_, Bool.toNat_lt truth⟩
  rw [known]
  cases truth <;> rfl

theorem to_bool {t : Term} {pattern : Nat} (known : Represents model t .bool pattern) :
    ∃ truth : Bool, pattern = truth.toNat ∧ t.eval model = .ok (.bool truth) := by
  have small : pattern < 2 := known.fits
  refine ⟨Meaning.holds pattern, ?_, known.evaluates⟩
  have cases : pattern = 0 ∨ pattern = 1 := by omega
  rcases cases with rfl | rfl <;> rfl

end Represents

theorem Term.eval_eq {l r : Term} {lhs rhs : Value} (left : l.eval model = .ok lhs)
    (right : r.eval model = .ok rhs) : (Term.eq l r).eval model = .ok (.bool (lhs == rhs)) := by
  rw [Term.eval, left, right]
  rfl

theorem Term.eval_not {t : Term} {truth : Bool} (known : t.eval model = .ok (.bool truth)) :
    (Term.not t).eval model = .ok (.bool (!truth)) := by
  rw [Term.eval, known]
  rfl

theorem Term.eval_and {l r : Term} {lhs rhs : Bool} (left : l.eval model = .ok (.bool lhs))
    (right : r.eval model = .ok (.bool rhs)) :
    (Term.and l r).eval model = .ok (.bool (lhs && rhs)) := by
  rw [Term.eval, left, right]
  cases lhs <;> rfl

theorem Term.eval_or {l r : Term} {lhs rhs : Bool} (left : l.eval model = .ok (.bool lhs))
    (right : r.eval model = .ok (.bool rhs)) :
    (Term.or l r).eval model = .ok (.bool (lhs || rhs)) := by
  rw [Term.eval, left, right]
  cases lhs <;> rfl

theorem Term.eval_xor {l r : Term} {lhs rhs : Bool} (left : l.eval model = .ok (.bool lhs))
    (right : r.eval model = .ok (.bool rhs)) :
    (Term.xor l r).eval model = .ok (.bool (lhs != rhs)) := by
  rw [Term.eval, left, right]
  rfl

theorem Term.eval_ite {c yes no : Term} {truth : Bool}
    (condition : c.eval model = .ok (.bool truth)) :
    (Term.ite c yes no).eval model = if truth then yes.eval model else no.eval model := by
  rw [Term.eval, condition]
  rfl

theorem SmtSort.value_bit_vec_inj {width lhs rhs : Nat} (narrow : width ≤ 64)
    (left : lhs < 2 ^ width) (right : rhs < 2 ^ width) :
    (SmtSort.bitVec width).value lhs = (SmtSort.bitVec width).value rhs ↔ lhs = rhs := by
  have word (pattern : Nat) (fits : pattern < 2 ^ width) :
      (Word.truncate pattern.toUInt64 width).toNat = pattern := by
    rw [Word.truncate_to_nat _ _ narrow, Word.to_nat_of_fits narrow fits, Nat.mod_eq_of_lt fits]
  constructor
  · intro same
    injection same with words
    rw [← word lhs left, words, word rhs right]
  · intro same
    subst same
    rfl

theorem SmtSort.value_beq {ty : Ty} {lhs rhs : Nat} (valid : ty.isValid = true)
    (left : lhs < 2 ^ ty.width) (right : rhs < 2 ^ ty.width) :
    (ty.sort.value lhs == ty.sort.value rhs) = (lhs == rhs) := by
  cases ty with
  | bool =>
      have small : lhs < 2 ∧ rhs < 2 := ⟨left, right⟩
      have lhsCases : lhs = 0 ∨ lhs = 1 := by omega
      have rhsCases : rhs = 0 ∨ rhs = 1 := by omega
      rcases lhsCases with rfl | rfl <;> rcases rhsCases with rfl | rfl <;> rfl
  | int width signed =>
      rw [Bool.eq_iff_iff, beq_iff_eq, beq_iff_eq]
      exact SmtSort.value_bit_vec_inj (Ty.valid_bounds valid).2 left right

namespace Represents

theorem literal {c : Literal} (valid : c.ty.isValid = true) :
    Represents model (Encode.literal c) c.ty c.pattern := by
  obtain ⟨value, ty⟩ := c
  cases ty with
  | bool => exact of_bool _ rfl
  | int width signed =>
      have narrow : width.toNat ≤ 64 := (Ty.valid_bounds valid).2
      have pattern : (⟨value, .int width signed⟩ : Literal).pattern
          = (value.toBitVec.setWidth width.toNat).toNat := by
        rw [BitVec.toNat_setWidth]
        rfl
      rw [pattern]
      apply of_bits rfl valid (value.toBitVec.setWidth width.toNat)
      show Except.ok (Value.ofWord (Word.truncate value width.toNat) width.toNat)
        = Except.ok (Value.ofBits (value.toBitVec.setWidth width.toNat))
      rw [Word.truncate_eq_of_bits value _ narrow, Value.of_word_of_bits _ narrow]

theorem of_word {ty : Ty} {number : Nat} (integer : ty.isBool = false)
    (valid : ty.isValid = true) (fits : number < 2 ^ ty.width) :
    Represents model (.ofWord number.toUInt64 ty.width) ty number := by
  have narrow := (Ty.valid_bounds valid).2
  have cut : Word.truncate (Word.truncate number.toUInt64 ty.width) ty.width
      = Word.truncate number.toUInt64 ty.width := by
    apply UInt64.toNat_inj.mp
    rw [Word.truncate_to_nat _ _ narrow, Word.truncate_to_nat _ _ narrow, Nat.mod_mod]
  refine ⟨?_, fits⟩
  rw [Ty.sort_of_integer integer]
  show Except.ok (Value.ofWord (Word.truncate number.toUInt64 ty.width) ty.width) = _
  rw [Value.ofWord, cut]
  rfl

theorem eq {l r : Term} {ty : Ty} {lhs rhs : Nat} (valid : ty.isValid = true)
    (left : Represents model l ty lhs) (right : Represents model r ty rhs) :
    (Term.eq l r).eval model = .ok (.bool (lhs == rhs)) := by
  rw [Term.eval_eq left.evaluates right.evaluates,
    SmtSort.value_beq valid left.fits right.fits]

end Represents

namespace Encode

theorem eval_truth {t : Term} {ty : Ty} {pattern : Nat} (valid : ty.isValid = true)
    (known : Represents model t ty pattern) :
    (truth ty t).eval model = .ok (.bool (Meaning.holds pattern)) := by
  cases ty with
  | bool => exact known.evaluates
  | int width signed =>
      have zero : Represents model (.ofWord 0 width.toNat) (.int width signed) 0 :=
        .of_word rfl valid (Nat.two_pow_pos _)
      exact Term.eval_not (known.eq valid zero)

/-- A conversion extends by the sign of the source, or cuts bits off, which is the same
for both signs. -/
theorem eval_convert {t : Term} {source : Ty} {width : Nat} (integer : source.isBool = false)
    (valid : source.isValid = true) (positive : 1 ≤ width) (narrow : width ≤ 64)
    (bits : BitVec source.width) (known : t.eval model = .ok (.ofBits bits)) :
    (convert source width t).eval model
      = .ok (.ofBits (if source.isSigned then bits.signExtend width else bits.setWidth width)) := by
  cases source with
  | bool => cases integer
  | int origin signed =>
      have bounds : 1 ≤ origin.toNat ∧ origin.toNat ≤ 64 := Ty.valid_bounds valid
      change BitVec origin.toNat at bits
      show (convert (.int origin signed) width t).eval model
        = .ok (.ofBits (if signed then bits.signExtend width else bits.setWidth width))
      simp only [convert]
      by_cases same : origin.toNat = width
      · subst same
        rw [if_pos rfl, known, BitVec.signExtend_eq, BitVec.setWidth_eq, ite_self]
        rfl
      by_cases cuts : width < origin.toNat
      · have whole : width - 1 - 0 + 1 = width := by omega
        have cut : (if signed then bits.signExtend width else bits.setWidth width)
            = bits.setWidth width := by
          rw [BitVec.signExtend_eq_setWidth_of_le _ (by omega), ite_self]
        rw [if_neg same, if_pos cuts, cut,
          Term.eval_extract model (width - 1) 0 t bits (by omega) (by omega) bounds.2 known]
        rw [BitVec.ushiftRight_zero, whole]
      · have whole : origin.toNat + (width - origin.toNat) = width := by omega
        rw [if_neg same, if_neg cuts]
        cases signed with
        | true =>
            rw [if_pos rfl, if_pos rfl,
              Term.eval_sign_extend model _ t bits bounds.1 (by omega) known, whole]
        | false =>
            rw [if_neg (by decide), if_neg (by decide),
              Term.eval_zero_extend model _ t bits (by omega) known, whole]

/-- A boolean becomes one of the numbers 0 and 1, which every integer type has. -/
theorem represents_cast_bool {t : Term} {target : Ty} {truth : Bool}
    (integer : target.isBool = false) (accepted : target.isValid = true)
    (known : t.eval model = .ok (.bool truth)) :
    Represents model (convert .bool target.width t) target (target.wrap truth.toNat) := by
  have fits : 1 < 2 ^ target.width :=
    Nat.one_lt_two_pow (Nat.ne_of_gt (Ty.valid_bounds accepted).1)
  have kept : target.wrap truth.toNat = truth.toNat := by
    have small : truth.toNat < 2 ^ target.width := Nat.lt_of_le_of_lt (Bool.toNat_le truth) fits
    rw [Ty.wrap_eq_of_int, BitVec.ofInt_natCast, BitVec.toNat_ofNat, Nat.mod_eq_of_lt small]
  have choice : (convert .bool target.width t).eval model = _ := Term.eval_ite known
  rw [kept]
  cases truth with
  | true =>
      have one : Represents model (.ofWord 1 target.width) target 1 :=
        .of_word integer accepted fits
      exact ⟨choice.trans one.evaluates, one.fits⟩
  | false =>
      have zero : Represents model (.ofWord 0 target.width) target 0 :=
        .of_word integer accepted (Nat.two_pow_pos _)
      exact ⟨choice.trans zero.evaluates, zero.fits⟩

theorem represents_cast {t : Term} {source target : Ty} {pattern : Nat}
    (valid : source.isValid = true) (accepted : target.isValid = true)
    (known : Represents model t source pattern) :
    Represents model (castTo source target t) target (Meaning.cast source target pattern) := by
  cases target with
  | bool => exact .of_bool _ (eval_truth valid known)
  | int width signed =>
      have bounds : 1 ≤ width.toNat ∧ width.toNat ≤ 64 := Ty.valid_bounds accepted
      cases kind : source.isBool with
      | false =>
          obtain ⟨bits, rfl, evaluates⟩ := known.to_bits kind valid
          rw [Meaning.cast_eq_denote source _ bits rfl]
          exact .of_bits rfl accepted _
            (eval_convert kind valid bounds.1 bounds.2 bits evaluates)
      | true =>
          have boolean := Ty.eq_bool kind
          subst boolean
          obtain ⟨truth, rfl, evaluates⟩ := known.to_bool
          have reading : Ty.reading .bool truth.toNat = truth.toNat := if_neg (by simp [Ty.isSigned])
          rw [Meaning.cast, reading]
          exact represents_cast_bool rfl accepted evaluates

theorem eval_bit {t : Term} {truth : Bool} (known : t.eval model = .ok (.bool truth)) :
    (bit t).eval model = .ok (.ofBits (BitVec.ofBool truth)) := by
  rw [bit, Term.eval_ite known]
  cases truth <;> rfl

theorem eq_or_ne_of_order {op : BinaryOp} {signed : Bool} (compares : op.isComparison = true)
    (unordered : order? op signed = none) : op = .eq ∨ op = .ne := by
  cases op <;> cases signed <;> simp_all [order?, BinaryOp.isComparison]

theorem represents_order {l r : Term} {op : BinaryOp} {order : BvCompare} {lty rty : Ty}
    {lhs rhs : Nat} (valid : lty.isValid = true)
    (ordered : order? op lty.isSigned = some order) (left : Represents model l lty lhs)
    (right : Represents model r lty rhs) :
    Represents model
      (if lty.isBool then .bvCompare order (bit l) (bit r) else .bvCompare order l r) .bool
      (Meaning.binary op lty rty lhs rhs) := by
  cases kind : lty.isBool with
  | true =>
      have boolean := Ty.eq_bool kind
      subst boolean
      obtain ⟨a, rfl, aEvaluates⟩ := left.to_bool
      obtain ⟨b, rfl, bEvaluates⟩ := right.to_bool
      have meaning : Meaning.binary op .bool rty a.toNat b.toNat
          = (order.denote (BitVec.ofBool a) (BitVec.ofBool b)).toNat := by
        rw [← BitVec.toNat_ofBool a, ← BitVec.toNat_ofBool b]
        exact Meaning.order_eq_denote op .bool rty order (BitVec.ofBool a) (BitVec.ofBool b)
          ordered
      rw [if_pos rfl, meaning]
      exact .of_bool _ (Term.eval_bv_compare model order (bit l) (bit r) _ _ (by decide)
        (by decide) (eval_bit aEvaluates) (eval_bit bEvaluates))
  | false =>
      have bounds := Ty.valid_bounds valid
      obtain ⟨x, rfl, xEvaluates⟩ := left.to_bits kind valid
      obtain ⟨y, rfl, yEvaluates⟩ := right.to_bits kind valid
      rw [if_neg (by decide), Meaning.order_eq_denote op lty rty order x y ordered]
      exact .of_bool _
        (Term.eval_bv_compare model order l r x y bounds.1 bounds.2 xEvaluates yEvaluates)

theorem represents_comparison {l r : Term} {op : BinaryOp} {lty rty : Ty} {lhs rhs : Nat}
    (valid : lty.isValid = true) (compares : op.isComparison = true)
    (left : Represents model l lty lhs) (right : Represents model r lty rhs) :
    Represents model (comparison op lty l r) .bool (Meaning.binary op lty rty lhs rhs) := by
  unfold comparison
  cases ordered : order? op lty.isSigned with
  | some order => exact represents_order valid ordered left right
  | none =>
      have equal := left.eq valid right
      rcases eq_or_ne_of_order compares ordered with rfl | rfl
      · exact .of_bool _ equal
      · exact .of_bool _ (Term.eval_not equal)

theorem represents_arithmetic {l r : Term} {op : BinaryOp} {lty rty : Ty} {lhs rhs : Nat}
    (valid : lty.isValid = true) (integer : lty.isBool = false) (plain : isShift op = false)
    (computes : op.isComparison = false) (strict : op.isLogical = false)
    (left : Represents model l lty lhs) (right : Represents model r lty rhs) :
    Represents model (.bvBinary (arithmetic op lty.isSigned) l r) lty
      (Meaning.binary op lty rty lhs rhs) := by
  have bounds := Ty.valid_bounds valid
  obtain ⟨x, rfl, xEvaluates⟩ := left.to_bits integer valid
  obtain ⟨y, rfl, yEvaluates⟩ := right.to_bits integer valid
  rw [Meaning.arithmetic_eq_denote op lty rty x y integer plain computes strict]
  exact .of_bits integer valid _
    (Term.eval_bv_binary model _ l r x y bounds.1 bounds.2 xEvaluates yEvaluates)

/-- The converted count has the type of what is shifted, so a shift is an operator on two
operands of one type. -/
theorem represents_shift {l r : Term} {op : BinaryOp} {lty rty : Ty} {lhs rhs : Nat}
    (valid : lty.isValid = true) (accepted : rty.isValid = true)
    (integer : lty.isBool = false) (shifts : isShift op = true)
    (left : Represents model l lty lhs) (right : Represents model r rty rhs) :
    Represents model (.bvBinary (arithmetic op lty.isSigned) l (convert rty lty.width r)) lty
      (Meaning.binary op lty rty lhs rhs) := by
  have bounds := Ty.valid_bounds valid
  have conversion : castTo rty lty r = convert rty lty.width r := by
    cases lty with
    | bool => cases integer
    | int width signed => rfl
  have amount : Meaning.cast rty lty rhs = Meaning.count lty rty rhs := by
    cases lty with
    | bool => cases integer
    | int width signed => rfl
  have converted := represents_cast accepted valid right
  rw [conversion, amount] at converted
  obtain ⟨x, rfl, xEvaluates⟩ := left.to_bits integer valid
  obtain ⟨y, count, yEvaluates⟩ := converted.to_bits integer valid
  rw [Meaning.shift_eq_denote op lty rty x y rhs shifts count.symm]
  exact .of_bits integer valid _
    (Term.eval_bv_binary model _ l _ x y bounds.1 bounds.2 xEvaluates yEvaluates)

theorem represents_connective {l r : Term} {op : BinaryOp} {rty : Ty}
    {make : Term → Term → Term} {lhs rhs : Nat} (accepted : rty.isValid = true)
    (connects : connective? op = some make) (left : Represents model l .bool lhs)
    (right : Represents model r rty rhs) :
    Represents model (make l (truth rty r)) .bool (Meaning.binary op .bool rty lhs rhs) := by
  obtain ⟨a, rfl, aEvaluates⟩ := left.to_bool
  have bEvaluates := eval_truth accepted right
  have companion : Meaning.companion .bool rhs = (Meaning.holds rhs).toNat := rfl
  generalize Meaning.holds rhs = b at bEvaluates companion
  cases op <;> cases connects
  · have meaning : Meaning.binary .and .bool rty a.toNat rhs = (a && b).toNat := by
      rw [Meaning.binary, companion]
      cases a <;> cases b <;> rfl
    rw [meaning]
    exact .of_bool _ (Term.eval_and aEvaluates bEvaluates)
  · have meaning : Meaning.binary .or .bool rty a.toNat rhs = (a || b).toNat := by
      rw [Meaning.binary, companion]
      cases a <;> cases b <;> rfl
    rw [meaning]
    exact .of_bool _ (Term.eval_or aEvaluates bEvaluates)
  · have meaning : Meaning.binary .xor .bool rty a.toNat rhs = (a != b).toNat := by
      rw [Meaning.binary, companion]
      cases a <;> cases b <;> rfl
    rw [meaning]
    exact .of_bool _ (Term.eval_xor aEvaluates bEvaluates)

theorem Joined.represents {l r t : Term} {op : BinaryOp} {lty rty : Ty} {lhs rhs : Nat}
    (joined : Joined lty rty l r op t) (valid : lty.isValid = true)
    (accepted : rty.isValid = true) (left : Represents model l lty lhs)
    (right : Represents model r rty rhs) :
    Represents model t (if op.isComparison || op.isLogical then .bool else lty)
      (Meaning.binary op lty rty lhs rhs) := by
  cases joined with
  | land =>
      exact .of_bool _ (Term.eval_and (eval_truth valid left) (eval_truth accepted right))
  | lor =>
      exact .of_bool _ (Term.eval_or (eval_truth valid left) (eval_truth accepted right))
  | comparison compares same =>
      rw [compares]
      exact represents_comparison valid compares left (right.of_sort_eq same)
  | connective boolean connects =>
      have kind := Ty.eq_bool boolean
      subst kind
      rw [ite_self]
      exact represents_connective accepted connects left right
  | shift integer shifts =>
      have value : (op.isComparison || op.isLogical) = false := by
        cases op <;> cases shifts <;> rfl
      rw [value]
      exact represents_shift valid accepted integer shifts left right
  | arithmetic integer plain computes strict same =>
      rw [computes, strict]
      exact represents_arithmetic valid integer plain computes strict left (right.of_sort_eq same)

theorem represents_const {store : Store} {v : Variable}
    (assigned : model v.name = some (v.ty.sort.value (store v.name v.ty.sort).toNat)) :
    Represents model (.const v.name v.ty.sort) v.ty (store v.name v.ty.sort).toNat := by
  constructor
  · rw [Term.eval, assigned]
  · rw [← Ty.sort_bits]
    exact (store v.name v.ty.sort).isLt

/-- The term of an expression represents its meaning. -/
theorem Encoded.represents {scope scope' : Scope} {e : Expr} {t : Term} {store : Store}
    (derivation : Encoded scope e t scope') (assigned : model.Assigns store e) :
    Represents model t e.ty (e.value store) := by
  induction derivation with
  | known valid met => exact represents_const (assigned _ (by simp))
  | declared valid unmet => exact represents_const (assigned _ (by simp))
  | lit valid => exact .literal valid
  | lnot operand ih =>
      exact .of_bool _ (Term.eval_not (eval_truth operand.valid (ih assigned)))
  | @unary scope scope' id op a t computes integer operand ih =>
      have bounds := Ty.valid_bounds operand.valid
      obtain ⟨bits, pattern, evaluates⟩ := (ih assigned).to_bits integer operand.valid
      rw [Expr.ty, if_neg computes, Expr.value, pattern,
        Meaning.unary_eq_denote op a.ty bits computes]
      exact .of_bits integer operand.valid _
        (Term.eval_bv_unary model _ t bits bounds.2 evaluates)
  | binary left right joined first second =>
      have assignedLeft := first fun v member => assigned v (by simp [member])
      have assignedRight := second fun v member => assigned v (by simp [member])
      exact joined.represents left.valid right.valid assignedLeft assignedRight
  | @ternary scope middle last scope' id c yes no ct yt nt condition positive negative same
      first second third =>
      have assignedCondition := first fun v member => assigned v (by simp [member])
      have assignedYes := second fun v member => assigned v (by simp [member])
      have assignedNo := third fun v member => assigned v (by simp [member])
      have choice : (Term.ite (truth c.ty ct) yt nt).eval model = _ :=
        Term.eval_ite (eval_truth condition.valid assignedCondition)
      rw [Expr.ty, Expr.value]
      cases holds : Meaning.holds (c.value store) with
      | true =>
          rw [holds] at choice
          exact ⟨choice.trans assignedYes.evaluates, assignedYes.fits⟩
      | false =>
          rw [holds] at choice
          have aligned := assignedNo.of_sort_eq same
          exact ⟨choice.trans aligned.evaluates, aligned.fits⟩
  | paren inner ih => exact ih assigned
  | cast valid operand ih => exact represents_cast operand.valid valid (ih assigned)

end Encode

theorem Expr.encode_run (e : Expr) :
    e.encode = (Encode.term e []).bind fun result => .ok (Encode.truth e.ty result.1) := rfl

theorem Expr.encode_eq_ok {e : Expr} {t : Term} :
    e.encode = .ok t ↔
      ∃ t' scope, Encode.Encoded [] e t' scope ∧ t = Encode.truth e.ty t' := by
  rw [encode_run]
  constructor
  · intro success
    cases outcome : Encode.term e [] with
    | error refusal =>
        rw [outcome] at success
        cases success
    | ok result =>
        rw [outcome] at success
        cases success
        exact ⟨result.1, result.2, Encode.term_eq_ok.mp outcome, rfl⟩
  · intro encoded
    rcases encoded with ⟨t', scope, derivation, rfl⟩
    rw [Encode.term_eq_ok.mpr derivation]
    rfl

def Expr.modelIn (store : Store) (e : Expr) : Model := fun name =>
  (e.occurrences.find? fun v => v.name == name).map fun v =>
    v.ty.sort.value (store v.name v.ty.sort).toNat

/-- Where a name stands in both expressions, it stands for values of one sort. -/
def Expr.Compatible (a b : Expr) : Prop :=
  ∀ v ∈ a.occurrences, ∀ v' ∈ b.occurrences, v.name = v'.name → v.ty.sort = v'.ty.sort

theorem Expr.Compatible.model_in_assigns {e : Expr} (compatible : e.Compatible e)
    (store : Store) : (e.modelIn store).Assigns store e := by
  intro v member
  have found : (e.occurrences.find? fun v' => v'.name == v.name).isSome = true := by
    rw [List.find?_isSome]
    exact ⟨v, member, beq_self_eq_true _⟩
  obtain ⟨v', first⟩ := Option.isSome_iff_exists.mp found
  have named : v'.name = v.name := by simpa using List.find?_some first
  have sorted : v'.ty.sort = v.ty.sort :=
    compatible v' (List.mem_of_find?_eq_some first) v member named
  rw [Expr.modelIn, first, Option.map_some, named, sorted]

theorem Encode.Encoded.compatible {scope scope' : Encode.Scope} {e : Expr} {t : Term}
    (derivation : Encode.Encoded scope e t scope') : e.Compatible e :=
  fun _ member _ member' named => derivation.sort_eq member member' named

theorem Encode.Encoded.assigns {scope scope' : Encode.Scope} {e : Expr} {t : Term}
    (derivation : Encode.Encoded scope e t scope') (store : Store) :
    (e.modelIn store).Assigns store e :=
  derivation.compatible.model_in_assigns store

theorem Expr.compatible_of_encode {e : Expr} {t : Term} (accepted : e.encode = .ok t) :
    e.Compatible e := by
  obtain ⟨t', scope, derivation, _⟩ := Expr.encode_eq_ok.mp accepted
  exact derivation.compatible

theorem Expr.eval_of_encode {e : Expr} {t : Term} {store : Store} (accepted : e.encode = .ok t)
    (assigned : model.Assigns store e) :
    t.eval model = .ok (.bool (Meaning.holds (e.value store))) := by
  obtain ⟨t', scope, derivation, rfl⟩ := Expr.encode_eq_ok.mp accepted
  exact Encode.eval_truth derivation.valid (derivation.represents assigned)

/-- A condition's term is true exactly when the condition holds. -/
theorem Expr.encode_eval_eq_value (e : Expr) (t : Term) (accepted : e.encode = .ok t)
    (store : Store) :
    (e.modelIn store).Assigns store e ∧
      ∀ model : Model, model.Assigns store e →
        t.eval model = .ok (.bool (Meaning.holds (e.value store))) := by
  obtain ⟨t', scope, derivation, rfl⟩ := Expr.encode_eq_ok.mp accepted
  refine ⟨derivation.assigns store, ?_⟩
  intro model assigned
  exact Expr.eval_of_encode accepted assigned

/-- The least signed number divided by minus one wraps to itself, which is below zero. -/
theorem Expr.encode_eval_eq_value_least_quotient :
    let e : Expr := .binary 4 .lt (.binary 2 .div (.var 0 ⟨"x", .int 8 true⟩)
      (.lit 1 ⟨0xff, .int 8 true⟩)) (.lit 3 ⟨0, .int 8 true⟩)
    let t : Term := .bvCompare .slt (.bvBinary .sdiv (.const "x" (.bitVec 8))
      (.bitVec 0xff 8)) (.bitVec 0 8)
    let store : Store := fun _ sort => BitVec.ofNat sort.bits 0x80
    e.encode = .ok t ∧ t.eval (e.modelIn store) = .ok (.bool true) := by
  intro e t store
  have accepted : e.encode = .ok t := by rfl
  have least : Meaning.holds (e.value store) = true := by decide
  have result := Expr.encode_eval_eq_value e t accepted store
  rw [least] at result
  exact ⟨accepted, result.2 _ result.1⟩

end Condense
