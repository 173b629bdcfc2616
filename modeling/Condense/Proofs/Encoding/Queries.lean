import Condense.Proofs.Constants
import Condense.Proofs.Sorts

/-!
# Conditions become well-formed queries

The term of an expression has the sort of its type, only bit-vectors of 1 to 64 bits inside
it, and no literal with bits above its width. So where the encoder compares the types of two
operands it might as well ask their terms. The cautious encoder does ask, and could end with
a fault about sorts; it never does, and gives the answers of the encoder whatever names it
has kept from earlier conditions.
-/

namespace Condense

set_option autoImplicit false

/-- A term that can be handed to a solver. -/
structure Term.IsQuery (t : Term) : Prop where
  sorted : t.sort = .ok .bool
  widths : ∀ s ∈ t.subterms, ∀ width, s.sort = .ok (.bitVec width) → 1 ≤ width ∧ width ≤ 64
  /-- No literal has bits above its width. -/
  literals : ∀ value bits, .bitVec value bits ∈ t.subterms → value.toNat < 2 ^ bits
  single : t.SingleSorted

/-- A sort whose values a word can hold, and not of zero bits. -/
def SmtSort.IsProper (sort : SmtSort) : Prop :=
  1 ≤ sort.bits ∧ sort.bits ≤ 64

theorem SmtSort.bool_is_proper : SmtSort.bool.IsProper :=
  ⟨Nat.le_refl 1, Nat.le_of_ble_eq_true rfl⟩

theorem Ty.sort_is_proper {ty : Ty} (valid : ty.isValid = true) : ty.sort.IsProper := by
  rw [SmtSort.IsProper, Ty.sort_bits]
  exact Ty.valid_bounds valid

structure Term.IsRegular (t : Term) : Prop where
  proper : ∀ sort, t.Sorted sort → sort.IsProper
  fits : ∀ value bits, t = .bitVec value bits → value.toNat < 2 ^ bits

structure Formed (t : Term) (sort : SmtSort) : Prop where
  sorted : t.Sorted sort
  regular : ∀ s ∈ t.subterms, s.IsRegular

namespace Formed

variable {t l r : Term} {sort : SmtSort} {width : Nat}

theorem proper (formed : Formed t sort) : sort.IsProper :=
  (formed.regular t t.self_mem_subterms).proper sort formed.sorted

theorem node {inside : List Term} (sorted : t.Sorted sort) (proper : sort.IsProper)
    (compound : ∀ value bits, t ≠ .bitVec value bits) (shape : t.subterms = t :: inside)
    (regular : ∀ s ∈ inside, s.IsRegular) : Formed t sort := by
  refine ⟨sorted, ?_⟩
  rw [shape, List.forall_mem_cons]
  refine ⟨⟨?_, ?_⟩, regular⟩
  · intro other derivation
    rw [derivation.unique sorted]
    exact proper
  · intro value bits same
    exact absurd same (compound value bits)

theorem bool (value : Bool) : Formed (.bool value) .bool :=
  node .bool SmtSort.bool_is_proper nofun rfl (by simp)

theorem const (name : String) (proper : sort.IsProper) : Formed (.const name sort) sort :=
  node .const proper nofun rfl (by simp)

theorem of_word (value : UInt64) (proper : (SmtSort.bitVec width).IsProper) :
    Formed (.ofWord value width) (.bitVec width) := by
  refine ⟨.bitVec, ?_⟩
  intro s member
  rw [List.mem_singleton.mp member]
  constructor
  · intro other derivation
    rw [derivation.unique .bitVec]
    exact proper
  · intro word bits same
    injection same with sameWord sameBits
    rw [← sameWord, ← sameBits, Word.truncate_to_nat value width proper.2]
    exact Nat.mod_lt _ (Nat.two_pow_pos width)

theorem not (operand : Formed t .bool) : Formed (.not t) .bool :=
  node (.not operand.sorted) SmtSort.bool_is_proper nofun rfl operand.regular

theorem and (left : Formed l .bool) (right : Formed r .bool) : Formed (.and l r) .bool :=
  node (.and left.sorted right.sorted) SmtSort.bool_is_proper nofun rfl
    (List.forall_mem_append.mpr ⟨left.regular, right.regular⟩)

theorem or (left : Formed l .bool) (right : Formed r .bool) : Formed (.or l r) .bool :=
  node (.or left.sorted right.sorted) SmtSort.bool_is_proper nofun rfl
    (List.forall_mem_append.mpr ⟨left.regular, right.regular⟩)

theorem xor (left : Formed l .bool) (right : Formed r .bool) : Formed (.xor l r) .bool :=
  node (.xor left.sorted right.sorted) SmtSort.bool_is_proper nofun rfl
    (List.forall_mem_append.mpr ⟨left.regular, right.regular⟩)

theorem eq (left : Formed l sort) (right : Formed r sort) : Formed (.eq l r) .bool :=
  node (.eq left.sorted right.sorted) SmtSort.bool_is_proper nofun rfl
    (List.forall_mem_append.mpr ⟨left.regular, right.regular⟩)

theorem ite {c yes no : Term} (condition : Formed c .bool) (positive : Formed yes sort)
    (negative : Formed no sort) : Formed (.ite c yes no) sort :=
  node (.ite condition.sorted positive.sorted negative.sorted) positive.proper nofun rfl
    (List.forall_mem_append.mpr ⟨condition.regular,
      List.forall_mem_append.mpr ⟨positive.regular, negative.regular⟩⟩)

theorem bv_unary (op : BvUnary) (operand : Formed t (.bitVec width)) :
    Formed (.bvUnary op t) (.bitVec width) :=
  node (.bvUnary operand.sorted) operand.proper nofun rfl operand.regular

theorem bv_binary (op : BvBinary) (left : Formed l (.bitVec width))
    (right : Formed r (.bitVec width)) : Formed (.bvBinary op l r) (.bitVec width) :=
  node (.bvBinary left.sorted right.sorted) left.proper nofun rfl
    (List.forall_mem_append.mpr ⟨left.regular, right.regular⟩)

theorem bv_compare (op : BvCompare) (left : Formed l (.bitVec width))
    (right : Formed r (.bitVec width)) : Formed (.bvCompare op l r) .bool :=
  node (.bvCompare left.sorted right.sorted) SmtSort.bool_is_proper nofun rfl
    (List.forall_mem_append.mpr ⟨left.regular, right.regular⟩)

theorem extract {high low : Nat} (ordered : low ≤ high) (inside : high < width)
    (operand : Formed t (.bitVec width)) :
    Formed (.extract high low t) (.bitVec (high - low + 1)) := by
  have narrow : width ≤ 64 := operand.proper.2
  have proper : (SmtSort.bitVec (high - low + 1)).IsProper := by
    simp only [SmtSort.IsProper, SmtSort.bits]
    omega
  exact node (.extract ordered inside operand.sorted) proper nofun rfl operand.regular

theorem zero_extend {extra : Nat} (proper : (SmtSort.bitVec (width + extra)).IsProper)
    (operand : Formed t (.bitVec width)) :
    Formed (.zeroExtend extra t) (.bitVec (width + extra)) :=
  node (.zeroExtend operand.sorted) proper nofun rfl operand.regular

theorem sign_extend {extra : Nat} (proper : (SmtSort.bitVec (width + extra)).IsProper)
    (operand : Formed t (.bitVec width)) :
    Formed (.signExtend extra t) (.bitVec (width + extra)) :=
  node (.signExtend operand.sorted) proper nofun rfl operand.regular

end Formed

namespace Encode

section Terms

variable {t l r : Term} {lty rty source : Ty} {width : Nat}

theorem formed_truth {ty : Ty} (known : Formed t ty.sort) : Formed (truth ty t) .bool := by
  cases ty with
  | bool => exact known
  | int bits signed => exact .not (.eq known (.of_word 0 known.proper))

theorem formed_convert (proper : (SmtSort.bitVec width).IsProper)
    (known : Formed t source.sort) : Formed (convert source width t) (.bitVec width) := by
  have positive : 1 ≤ width := proper.1
  cases source with
  | bool => exact .ite known (.of_word 1 proper) (.of_word 0 proper)
  | int bits signed =>
      simp only [convert]
      by_cases same : bits.toNat = width
      · rw [if_pos same, ← same]
        exact known
      rw [if_neg same]
      by_cases cuts : width < bits.toNat
      · -- A part has the width that its bounds give, an extension that of a sum.
        have whole : width - 1 - 0 + 1 = width := by omega
        have part := Formed.extract (Nat.zero_le (width - 1)) (by omega) known
        rw [whole] at part
        rw [if_pos cuts]
        exact part
      · have whole : bits.toNat + (width - bits.toNat) = width := by omega
        have wide := proper
        rw [← whole] at wide
        rw [if_neg cuts]
        cases signed with
        | true =>
            have extended := Formed.sign_extend wide known
            rw [whole] at extended
            exact extended
        | false =>
            have extended := Formed.zero_extend wide known
            rw [whole] at extended
            exact extended

theorem formed_cast_to {target : Ty} (valid : target.isValid = true)
    (known : Formed t source.sort) : Formed (castTo source target t) target.sort := by
  cases target with
  | bool => exact formed_truth known
  | int bits signed => exact formed_convert (Ty.sort_is_proper valid) known

theorem formed_bit (known : Formed t .bool) : Formed (bit t) (.bitVec 1) :=
  have one : (SmtSort.bitVec 1).IsProper := SmtSort.bool_is_proper
  .ite known (.of_word 1 one) (.of_word 0 one)

theorem formed_literal {c : Literal} (valid : c.ty.isValid = true) :
    Formed (literal c) c.ty.sort := by
  obtain ⟨value, ty⟩ := c
  cases ty with
  | bool => exact .bool _
  | int bits signed => exact .of_word value (Ty.sort_is_proper valid)

theorem formed_comparison (op : BinaryOp) (left : Formed l lty.sort)
    (right : Formed r lty.sort) : Formed (comparison op lty l r) .bool := by
  unfold comparison
  cases order? op lty.isSigned with
  | none =>
      dsimp only
      split
      · exact .not (.eq left right)
      · exact .eq left right
  | some order =>
      cases lty with
      | bool => exact .bv_compare order (formed_bit left) (formed_bit right)
      | int bits signed => exact .bv_compare order left right

theorem Joined.formed {op : BinaryOp} (joined : Joined lty rty l r op t)
    (left : Formed l lty.sort) (right : Formed r rty.sort) :
    Formed t (if op.isComparison || op.isLogical then Ty.bool else lty).sort := by
  cases joined with
  | land => exact .and (formed_truth left) (formed_truth right)
  | lor => exact .or (formed_truth left) (formed_truth right)
  | comparison compares same =>
      rw [compares]
      exact formed_comparison op left (same ▸ right)
  | connective boolean connects =>
      have kind := Ty.eq_bool boolean
      subst kind
      rw [ite_self]
      cases op <;> cases connects
      · exact .and left (formed_truth right)
      · exact .or left (formed_truth right)
      · exact .xor left (formed_truth right)
  | shift integer shifts =>
      have value : (op.isComparison || op.isLogical) = false := by
        cases op <;> cases shifts <;> rfl
      have word := Ty.sort_of_integer integer
      rw [value, if_neg (by decide), word]
      rw [word] at left
      exact .bv_binary _ left (formed_convert left.proper right)
  | arithmetic integer plain computes strict same =>
      have word := Ty.sort_of_integer integer
      rw [computes, strict, Bool.or_false, if_neg (by decide), word]
      rw [← same, word] at right
      rw [word] at left
      exact .bv_binary _ left right

theorem Encoded.formed {scope scope' : Scope} {e : Expr} (derivation : Encoded scope e t scope') :
    Formed t e.ty.sort := by
  induction derivation with
  | known valid met => exact .const _ (Ty.sort_is_proper valid)
  | declared valid unmet => exact .const _ (Ty.sort_is_proper valid)
  | lit valid => exact formed_literal valid
  | lnot operand ih => exact .not (formed_truth ih)
  | unary computes integer operand ih =>
      rw [Expr.ty, if_neg computes, Ty.sort_of_integer integer]
      rw [Ty.sort_of_integer integer] at ih
      exact .bv_unary _ ih
  | binary left right joined first second => exact joined.formed first second
  | ternary condition positive negative same first second third =>
      exact .ite (formed_truth first) second (same ▸ third)
  | paren inner ih => exact ih
  | cast valid operand ih => exact formed_cast_to valid ih

end Terms

namespace Cautious

/-- Encodes with faults, as a term that is asked for its sort may give one. -/
abbrev Checker := StateT Scope (Except Fault)

def ofEncoder {α : Type} (act : Encoder α) : Checker α := fun scope =>
  (act scope).mapError Unsupported.toFault

def refuse {α : Type} (e : Expr) (obstacle : Obstacle) : Checker α :=
  ofEncoder (Encode.refuse e obstacle)

def ifAlike (e : Expr) (obstacle : Obstacle) (l r made : Term) : Checker Term := do
  if (← l.sort) = (← r.sort) then return made else refuse e obstacle

def combine (e : Expr) (op : BinaryOp) (lty rty : Ty) (l r : Term) : Checker Term :=
  if lty.isBool then
    match connective? op with
    | some make => return make l (truth rty r)
    | none => refuse e .booleanArithmetic
  else
    let r := if isShift op then convert rty lty.width r else r
    ifAlike e .operands l r (.bvBinary (arithmetic op lty.isSigned) l r)

def join (e : Expr) (op : BinaryOp) (lty rty : Ty) (l r : Term) : Checker Term :=
  if op = .land then return .and (truth lty l) (truth rty r)
  else if op = .lor then return .or (truth lty l) (truth rty r)
  else if op.isComparison then ifAlike e .comparison l r (comparison op lty l r)
  else combine e op lty rty l r

def withWidth (e : Expr) (act : Checker Term) : Checker Term :=
  if e.ty.isValid then act else refuse e .width

def term : Expr → Checker Term
  | e@(.var ..) | e@(.lit ..) | e@(.call ..) => ofEncoder (Encode.term e)
  | e@(.unary _ op a) => withWidth e do
      if op = .lnot then return .not (truth a.ty (← term a))
      else if a.ty.isBool then refuse e .booleanArithmetic
      else return .bvUnary (if op = .neg then .neg else .not) (← term a)
  | e@(.binary _ op l r) => withWidth e do
      let lt ← term l
      let rt ← term r
      join e op l.ty r.ty lt rt
  | e@(.ternary _ c yes no) => withWidth e do
      let ct ← term c
      let yt ← term yes
      let nt ← term no
      ifAlike e .ternaryArms yt nt (.ite (truth c.ty ct) yt nt)
  | e@(.paren _ a) => withWidth e (term a)
  | e@(.cast _ ty a) => withWidth e do
      return castTo a.ty ty (← term a)

/-- Forgets the names of earlier conditions first. -/
def translate (e : Expr) : Checker Term := do
  set ([] : Scope)
  return truth e.ty (← term e)

section Agreement

variable {α β : Type} {scope : Scope}

theorem bind_agrees {x : Encoder α} {f : α → Encoder β} {g : α → Checker β}
    (next : ∀ a middle, x scope = .ok (a, middle) → g a middle = ofEncoder (f a) middle) :
    (ofEncoder x >>= g) scope = ofEncoder (x >>= f) scope := by
  show ((x scope).mapError _).bind (fun result => g result.1 result.2)
    = ((x scope).bind fun result => f result.1 result.2).mapError _
  cases outcome : x scope with
  | error refusal => rfl
  | ok result => exact next result.1 result.2 outcome

theorem with_width_agrees {e : Expr} {act : Encoder Term} {act' : Checker Term}
    (inner : act' scope = ofEncoder act scope) :
    withWidth e act' scope = ofEncoder (Encode.withWidth e act) scope := by
  unfold withWidth Encode.withWidth
  split
  · exact inner
  · rfl

theorem if_alike_agrees {e : Expr} {obstacle : Obstacle} {l r made : Term} {lsort rsort : SmtSort}
    (left : l.Sorted lsort) (right : r.Sorted rsort) :
    ifAlike e obstacle l r made
      = ofEncoder (if lsort = rsort then pure made else Encode.refuse e obstacle) := by
  funext scope
  unfold ifAlike
  rw [left.sort_eq, right.sort_eq]
  show (if lsort = rsort then pure made else refuse e obstacle : Checker Term) scope = _
  split <;> rfl

theorem combine_agrees {e : Expr} {op : BinaryOp} {lty rty : Ty} {l r : Term}
    (left : Formed l lty.sort) (right : Formed r rty.sort) :
    combine e op lty rty l r = ofEncoder (Encode.combine e op lty rty l r) := by
  unfold combine Encode.combine
  cases boolean : lty.isBool with
  | true =>
      rw [if_pos rfl, if_pos rfl]
      cases connective? op <;> rfl
  | false =>
      rw [if_neg Bool.false_ne_true, if_neg Bool.false_ne_true]
      cases shifts : isShift op with
      | false => exact if_alike_agrees left.sorted right.sorted
      | true =>
          -- The converted count has the width of what is shifted, so the answer is never no.
          rw [Ty.sort_of_integer boolean] at left
          have count := formed_convert left.proper right
          show ifAlike e .operands l (convert rty lty.width r) _ = _
          rw [if_alike_agrees left.sorted count.sorted, if_pos rfl]
          rfl

theorem join_agrees {e : Expr} {op : BinaryOp} {lty rty : Ty} {l r : Term}
    (left : Formed l lty.sort) (right : Formed r rty.sort) :
    join e op lty rty l r = ofEncoder (Encode.join e op lty rty l r) := by
  unfold join Encode.join
  split
  · rfl
  split
  · rfl
  split
  · exact if_alike_agrees left.sorted right.sorted
  · exact combine_agrees left right

/-- Both encoders answer alike from every scope. An operand that is encoded has the sort of its
type, so asking for sorts tells nothing new. -/
theorem term_agrees (e : Expr) : term e = ofEncoder (Encode.term e) := by
  induction e with
  | var id v => rw [term]
  | lit id c => rw [term]
  | call id name ty args _ => rw [term]
  | unary id op a ih =>
      funext scope
      rw [term, Encode.term, ih]
      apply with_width_agrees
      split
      · exact bind_agrees fun _ _ _ => rfl
      split
      · rfl
      · exact bind_agrees fun _ _ _ => rfl
  | binary id op l r left right =>
      funext scope
      rw [term, Encode.term, left, right]
      apply with_width_agrees
      apply bind_agrees
      intro lt middle first
      apply bind_agrees
      intro rt last second
      rw [join_agrees (term_eq_ok.mp first).formed (term_eq_ok.mp second).formed]
  | ternary id c yes no condition positive negative =>
      funext scope
      rw [term, Encode.term, condition, positive, negative]
      apply with_width_agrees
      apply bind_agrees
      intro ct middle _
      apply bind_agrees
      intro yt later first
      apply bind_agrees
      intro nt last second
      rw [if_alike_agrees (term_eq_ok.mp first).formed.sorted (term_eq_ok.mp second).formed.sorted]
  | paren id a ih =>
      funext scope
      rw [term, Encode.term, ih]
      exact with_width_agrees rfl
  | cast id ty a ih =>
      funext scope
      rw [term, Encode.term, ih]
      apply with_width_agrees
      exact bind_agrees fun _ _ _ => rfl

theorem translate_run (e : Expr) (before : Scope) :
    (translate e).run' before = e.encode.mapError Unsupported.toFault := by
  rw [translate, term_agrees, Expr.encode_run]
  show ((ofEncoder (Encode.term e) []).bind fun result =>
    Except.ok (truth e.ty result.1, result.2)).map Prod.fst = _
  unfold ofEncoder
  cases Encode.term e [] <;> rfl

end Agreement

end Cautious

end Encode

theorem Expr.is_query_of_encode {e : Expr} {t : Term} (accepted : e.encode = .ok t) :
    t.IsQuery := by
  obtain ⟨t', scope, derivation, rfl⟩ := Expr.encode_eq_ok.mp accepted
  have formed := Encode.formed_truth derivation.formed
  refine ⟨formed.sorted.sort_eq, ?_, ?_, Expr.single_sorted_of_encode accepted⟩
  · intro s member width sorted
    exact (formed.regular s member).proper _ (Term.sort_eq_ok.mp sorted)
  · intro value bits member
    exact (formed.regular _ member).fits value bits rfl

/-- From every scope the cautious encoder answers as the encoder does: with a fault that says what
is unsupported, or with a query whose free constants are the variables of the condition. -/
theorem Expr.translates_to_query (e : Expr) (before : Encode.Scope) :
    (Encode.Cautious.translate e).run' before = e.encode.mapError Unsupported.toFault ∧
    ((∃ detail, (Encode.Cautious.translate e).run' before = .error (.unsupported detail)) ∨
      ∃ t, (Encode.Cautious.translate e).run' before = .ok t ∧ t.IsQuery ∧
        ∀ constant, constant ∈ t.constants ↔
          ∃ v ∈ e.occurrences, constant = (v.name, v.ty.sort)) := by
  rw [Encode.Cautious.translate_run e before]
  refine ⟨rfl, ?_⟩
  cases accepted : e.encode with
  | error unsupported => exact .inl ⟨_, rfl⟩
  | ok t =>
      exact .inr ⟨t, rfl, Expr.is_query_of_encode accepted, Expr.mem_constants_of_encode accepted⟩

end Condense
