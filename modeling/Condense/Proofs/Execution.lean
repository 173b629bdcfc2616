import Condense.Proofs.Meaning
import Condense.Proofs.Trees

/-!
# Running expressions

A big-step evaluator with calls. A call gives a value of its declared type and may change
the store; what it does is up to an interpretation about which nothing is assumed. `&&`,
`||` and `?:` evaluate only the operands they need, left to right. An operator applied to
operands of the wrong types has no result.

An expression without calls leaves the store alone and has the value that
`Condense.Proofs.Meaning` gives it.
-/

namespace Condense

set_option autoImplicit false

/-- What calls do: from the name, the declared type, the operands with their types and the
store, a value and a new store. -/
abbrev Calls := String → (ty : Ty) → List (Ty × Nat) → Store → BitVec ty.width × Store

def UnaryOp.accepts (op : UnaryOp) (ty : Ty) : Bool :=
  op = .lnot || !ty.isBool

/-- Logical operators take anything, comparisons two operands of one sort. With a boolean
on the left there are only `&`, `|` and `^`; a shift takes any count; other operators take
integers of one width. -/
def BinaryOp.accepts (op : BinaryOp) (lty rty : Ty) : Bool :=
  if op.isLogical then true
  else if op.isComparison then lty.sort = rty.sort
  else if lty.isBool then op = .and || op = .or || op = .xor
  else op = .shl || op = .shr || lty.sort = rty.sort

/-- Whether the left operand alone decides the result, and `r` is not evaluated. -/
def BinaryOp.settles (op : BinaryOp) (lhs : Nat) : Bool :=
  match op with
  | .land => !Meaning.holds lhs
  | .lor => Meaning.holds lhs
  | _ => false

theorem BinaryOp.logical_cases {op : BinaryOp} (junction : op.isLogical = true) :
    op = .land ∨ op = .lor := by
  cases op with
  | land => exact .inl rfl
  | lor => exact .inr rfl
  | _ => cases junction

namespace Expr

mutual

/-- The bit pattern of an expression and the store after it. -/
def run (calls : Calls) : Expr → Store → Option (Nat × Store)
  | var _ v, store => some ((store v.name v.ty.sort).toNat, store)
  | lit _ c, store => some (c.pattern, store)
  | unary _ op e, store =>
      (e.run calls store).bind fun (operand, store) =>
        if op.accepts e.ty then some (Meaning.unary op e.ty operand, store) else none
  | binary _ op l r, store =>
      (l.run calls store).bind fun (lhs, store) =>
        if op.settles lhs then some ((Meaning.holds lhs).toNat, store)
        else (r.run calls store).bind fun (rhs, store) =>
          if op.accepts l.ty r.ty then some (Meaning.binary op l.ty r.ty lhs rhs, store)
          else none
  | ternary _ c yes no, store =>
      (c.run calls store).bind fun (condition, store) =>
        if yes.ty.sort = no.ty.sort then
          if Meaning.holds condition then yes.run calls store else no.run calls store
        else none
  | paren _ e, store => e.run calls store
  | cast _ ty e, store =>
      (e.run calls store).bind fun (operand, store) =>
        some (Meaning.cast e.ty ty operand, store)
  | call _ name ty args, store =>
      (runAll calls args store).bind fun (operands, store) =>
        let (result, store) := calls name ty operands store
        some (result.toNat, store)

def runAll (calls : Calls) : List Expr → Store → Option (List (Ty × Nat) × Store)
  | [], store => some ([], store)
  | e :: rest, store =>
      (e.run calls store).bind fun (operand, store) =>
        (runAll calls rest store).bind fun (operands, store) =>
          some ((e.ty, operand) :: operands, store)

end

end Expr

namespace Meaning

theorem holds_to_nat (truth : Bool) : holds truth.toNat = truth := by
  cases truth <;> rfl

theorem to_nat_holds {pattern : Nat} (small : pattern < 2) :
    (holds pattern).toNat = pattern := by
  have cases : pattern = 0 ∨ pattern = 1 := by omega
  rcases cases with rfl | rfl <;> rfl

theorem unary_lt (op : UnaryOp) (ty : Ty) (operand : Nat) :
    unary op ty operand < 2 ^ (if op = .lnot then Ty.bool else ty).width := by
  cases op with
  | lnot => exact Bool.toNat_lt _
  | not => exact Ty.wrap_lt ty _
  | neg => exact Ty.wrap_lt ty _

theorem cast_lt (source target : Ty) (operand : Nat) :
    cast source target operand < 2 ^ target.width := by
  cases target with
  | bool => exact Bool.toNat_lt _
  | int bits signed => exact Ty.wrap_lt _ _

/-- A negative number needs a bit for its sign, so its type has a value 1. -/
theorem quotient_lt {ty : Ty} {lhs : Nat} (rhs : Nat) (fits : lhs < 2 ^ ty.width) :
    quotient ty lhs rhs < 2 ^ ty.width := by
  have positive : 0 < 2 ^ ty.width := Nat.two_pow_pos _
  unfold quotient
  dsimp only
  split
  · split
    · omega
    · next negative =>
        have signed : 2 ^ ty.width ≤ 2 * lhs := by
          unfold Ty.reading at negative
          split at negative
          · next sign => exact sign.2
          · omega
        omega
  · exact Ty.wrap_lt ty _

theorem remainder_lt {ty : Ty} {lhs : Nat} (rhs : Nat) (fits : lhs < 2 ^ ty.width) :
    remainder ty lhs rhs < 2 ^ ty.width := by
  unfold remainder
  dsimp only
  split
  · exact fits
  · exact Ty.wrap_lt ty _

theorem companion_lt {lty rty : Ty} {rhs : Nat} (right : rhs < 2 ^ rty.width)
    (same : lty.isBool = false → lty.sort = rty.sort) :
    companion lty rhs < 2 ^ lty.width := by
  unfold companion
  cases kind : lty.isBool with
  | true =>
      cases lty with
      | bool => exact Bool.toNat_lt _
      | int bits signed => cases kind
  | false =>
      rw [if_neg (by decide), Ty.width_eq_of_sort (same kind)]
      exact right

theorem binary_lt {op : BinaryOp} {lty rty : Ty} {lhs rhs : Nat}
    (accepted : op.accepts lty rty = true) (left : lhs < 2 ^ lty.width)
    (right : rhs < 2 ^ rty.width) :
    binary op lty rty lhs rhs
      < 2 ^ (if op.isComparison || op.isLogical then Ty.bool else lty).width := by
  have bitwise (plain : op = .and ∨ op = .or ∨ op = .xor) :
      companion lty rhs < 2 ^ lty.width := by
    apply companion_lt right
    intro integer
    rcases plain with rfl | rfl | rfl <;>
      simpa [BinaryOp.accepts, BinaryOp.isLogical, BinaryOp.isComparison, integer] using accepted
  cases op with
  | add => exact Ty.wrap_lt _ _
  | sub => exact Ty.wrap_lt _ _
  | mul => exact Ty.wrap_lt _ _
  | div => exact quotient_lt rhs left
  | rem => exact remainder_lt rhs left
  | and => exact Nat.and_lt_two_pow _ (bitwise (by simp))
  | or => exact Nat.or_lt_two_pow left (bitwise (by simp))
  | xor => exact Nat.xor_lt_two_pow left (bitwise (by simp))
  | shl => exact Ty.wrap_lt _ _
  | shr => exact Ty.wrap_lt _ _
  | eq => exact Bool.toNat_lt _
  | ne => exact Bool.toNat_lt _
  | lt => exact Bool.toNat_lt _
  | le => exact Bool.toNat_lt _
  | gt => exact Bool.toNat_lt _
  | ge => exact Bool.toNat_lt _
  | land => exact Bool.toNat_lt _
  | lor => exact Bool.toNat_lt _

end Meaning

theorem Literal.pattern_lt (c : Literal) : c.pattern < 2 ^ c.ty.width := by
  obtain ⟨value, ty⟩ := c
  cases ty with
  | bool => exact Bool.toNat_lt _
  | int bits signed => exact Nat.mod_lt _ (Nat.two_pow_pos _)

namespace Expr

variable {calls : Calls} {store after : Store} {pattern : Nat}

section Inversion

variable {id : NodeId}

theorem run_unary {op : UnaryOp} {e : Expr} :
    (unary id op e).run calls store = some (pattern, after) ↔
      ∃ operand, e.run calls store = some (operand, after) ∧ op.accepts e.ty = true ∧
        pattern = Meaning.unary op e.ty operand := by
  rw [run, Option.bind_eq_some_iff]
  constructor
  · intro found
    rcases found with ⟨⟨operand, middle⟩, known, result⟩
    dsimp only at result
    by_cases accepted : op.accepts e.ty = true
    · rw [if_pos accepted] at result
      cases result
      exact ⟨operand, known, accepted, rfl⟩
    · rw [if_neg accepted] at result
      cases result
  · intro found
    rcases found with ⟨operand, known, accepted, rfl⟩
    exact ⟨(operand, after), known, if_pos accepted⟩

theorem run_binary {op : BinaryOp} {l r : Expr} :
    (binary id op l r).run calls store = some (pattern, after) ↔
      ∃ lhs middle, l.run calls store = some (lhs, middle) ∧
        (op.settles lhs = true ∧ pattern = (Meaning.holds lhs).toNat ∧ after = middle ∨
          op.settles lhs = false ∧ ∃ rhs, r.run calls middle = some (rhs, after) ∧
            op.accepts l.ty r.ty = true ∧
            pattern = Meaning.binary op l.ty r.ty lhs rhs) := by
  rw [run, Option.bind_eq_some_iff]
  constructor
  · intro found
    rcases found with ⟨⟨lhs, middle⟩, known, result⟩
    dsimp only at result
    refine ⟨lhs, middle, known, ?_⟩
    cases settled : op.settles lhs with
    | true =>
        rw [if_pos settled] at result
        cases result
        exact .inl ⟨rfl, rfl, rfl⟩
    | false =>
        rw [if_neg (by simp [settled]), Option.bind_eq_some_iff] at result
        obtain ⟨⟨rhs, last⟩, second, result⟩ := result
        dsimp only at result
        by_cases accepted : op.accepts l.ty r.ty = true
        · rw [if_pos accepted] at result
          cases result
          exact .inr ⟨rfl, rhs, second, accepted, rfl⟩
        · rw [if_neg accepted] at result
          cases result
  · intro found
    rcases found with ⟨lhs, middle, known, ⟨settled, rfl, rfl⟩ | ⟨open', rhs, second, accepted, rfl⟩⟩
    · exact ⟨(lhs, after), known, if_pos settled⟩
    · refine ⟨(lhs, middle), known, ?_⟩
      dsimp only
      rw [if_neg (by simp [open']), Option.bind_eq_some_iff]
      exact ⟨(rhs, after), second, if_pos accepted⟩

theorem run_ternary {c yes no : Expr} :
    (ternary id c yes no).run calls store = some (pattern, after) ↔
      ∃ condition middle, c.run calls store = some (condition, middle) ∧
        yes.ty.sort = no.ty.sort ∧
        (if Meaning.holds condition then yes else no).run calls middle
          = some (pattern, after) := by
  rw [run, Option.bind_eq_some_iff]
  constructor
  · intro found
    rcases found with ⟨⟨condition, middle⟩, known, result⟩
    dsimp only at result
    by_cases same : yes.ty.sort = no.ty.sort
    · rw [if_pos same, ← apply_ite (fun arm : Expr => arm.run calls middle)] at result
      exact ⟨condition, middle, known, same, result⟩
    · rw [if_neg same] at result
      cases result
  · intro found
    rcases found with ⟨condition, middle, known, same, result⟩
    refine ⟨(condition, middle), known, ?_⟩
    dsimp only
    rw [if_pos same, ← apply_ite (fun arm : Expr => arm.run calls middle)]
    exact result

theorem run_cast {ty : Ty} {e : Expr} :
    (cast id ty e).run calls store = some (pattern, after) ↔
      ∃ operand, e.run calls store = some (operand, after) ∧
        pattern = Meaning.cast e.ty ty operand := by
  rw [run, Option.bind_eq_some_iff]
  constructor
  · intro found
    rcases found with ⟨⟨operand, middle⟩, known, result⟩
    cases result
    exact ⟨operand, known, rfl⟩
  · intro found
    rcases found with ⟨operand, known, rfl⟩
    exact ⟨(operand, after), known, rfl⟩

theorem run_call {name : String} {ty : Ty} {args : List Expr} :
    (call id name ty args).run calls store = some (pattern, after) ↔
      ∃ operands middle, runAll calls args store = some (operands, middle) ∧
        pattern = (calls name ty operands middle).1.toNat ∧
        after = (calls name ty operands middle).2 := by
  rw [run, Option.bind_eq_some_iff]
  constructor
  · intro found
    rcases found with ⟨⟨operands, middle⟩, known, result⟩
    cases result
    exact ⟨operands, middle, known, rfl, rfl⟩
  · intro found
    rcases found with ⟨operands, middle, known, rfl, rfl⟩
    exact ⟨(operands, middle), known, rfl⟩

theorem run_all_cons {e : Expr} {rest : List Expr} {operands : List (Ty × Nat)} :
    runAll calls (e :: rest) store = some (operands, after) ↔
      ∃ operand middle others, e.run calls store = some (operand, middle) ∧
        runAll calls rest middle = some (others, after) ∧
        operands = (e.ty, operand) :: others := by
  rw [runAll, Option.bind_eq_some_iff]
  constructor
  · intro found
    rcases found with ⟨⟨operand, middle⟩, known, result⟩
    rw [Option.bind_eq_some_iff] at result
    obtain ⟨⟨others, last⟩, later, result⟩ := result
    cases result
    exact ⟨operand, middle, others, known, later, rfl⟩
  · intro found
    rcases found with ⟨operand, middle, others, known, later, rfl⟩
    refine ⟨(operand, middle), known, ?_⟩
    rw [Option.bind_eq_some_iff]
    exact ⟨(others, after), later, rfl⟩

end Inversion

theorem run_lt {e : Expr} (known : e.run calls store = some (pattern, after)) :
    pattern < 2 ^ e.ty.width := by
  induction e generalizing store after pattern with
  | var id v =>
      cases known
      rw [Expr.ty, ← Ty.sort_bits]
      exact (store v.name v.ty.sort).isLt
  | lit id c =>
      cases known
      exact c.pattern_lt
  | unary id op e ih =>
      obtain ⟨operand, _, _, rfl⟩ := run_unary.mp known
      exact Meaning.unary_lt op e.ty operand
  | binary id op l r left right =>
      obtain ⟨lhs, middle, first, ⟨settled, rfl, _⟩ | ⟨_, rhs, second, accepted, rfl⟩⟩ :=
        run_binary.mp known
      · have logical : op.isLogical = true := by
          cases op <;> first | rfl | cases settled
        rw [Expr.ty, logical, Bool.or_true, if_pos rfl]
        exact Bool.toNat_lt _
      · exact Meaning.binary_lt accepted (left first) (right second)
  | ternary id c yes no condition positive negative =>
      obtain ⟨truth, middle, _, same, result⟩ := run_ternary.mp known
      rw [Expr.ty]
      split at result
      · exact positive result
      · rw [Ty.width_eq_of_sort same]
        exact negative result
  | paren id e ih => exact ih known
  | cast id ty e ih =>
      obtain ⟨operand, _, rfl⟩ := run_cast.mp known
      exact Meaning.cast_lt e.ty ty operand
  | call id name ty args _ =>
      obtain ⟨operands, middle, _, rfl, _⟩ := run_call.mp known
      exact (calls name ty operands middle).1.isLt

/-- Without calls the store stays and the result is the value. -/
theorem run_call_free {e : Expr} (free : e.hasCall = false)
    (known : e.run calls store = some (pattern, after)) :
    pattern = e.value store ∧ after = store := by
  induction e generalizing store after pattern with
  | var id v =>
      cases known
      exact ⟨rfl, rfl⟩
  | lit id c =>
      cases known
      exact ⟨rfl, rfl⟩
  | unary id op e ih =>
      rw [has_call_unary] at free
      obtain ⟨operand, first, _, rfl⟩ := run_unary.mp known
      obtain ⟨rfl, rfl⟩ := ih free first
      exact ⟨rfl, rfl⟩
  | binary id op l r left right =>
      rw [has_call_binary, Bool.or_eq_false_iff] at free
      obtain ⟨lhs, middle, first, rest⟩ := run_binary.mp known
      obtain ⟨rfl, rfl⟩ := left free.1 first
      rcases rest with ⟨settled, rfl, rfl⟩ | ⟨_, rhs, second, _, rfl⟩
      · refine ⟨?_, rfl⟩
        rw [value]
        cases op with
        | land =>
            have fails : Meaning.holds (l.value after) = false := by
              simpa [BinaryOp.settles] using settled
            rw [Meaning.binary, fails, Bool.false_and]
        | lor =>
            have holds : Meaning.holds (l.value after) = true := settled
            rw [Meaning.binary, holds, Bool.true_or]
        | _ => cases settled
      · obtain ⟨rfl, rfl⟩ := right free.2 second
        exact ⟨rfl, rfl⟩
  | ternary id c yes no condition positive negative =>
      rw [has_call_ternary, Bool.or_eq_false_iff, Bool.or_eq_false_iff] at free
      obtain ⟨truth, middle, first, _, result⟩ := run_ternary.mp known
      obtain ⟨rfl, rfl⟩ := condition free.1 first
      rw [value]
      split at result
      · next holds =>
          rw [if_pos holds]
          exact positive free.2.1 result
      · next fails =>
          rw [if_neg fails]
          exact negative free.2.2 result
  | paren id e ih =>
      rw [has_call_paren] at free
      exact ih free known
  | cast id ty e ih =>
      rw [has_call_cast] at free
      obtain ⟨operand, first, rfl⟩ := run_cast.mp known
      obtain ⟨rfl, rfl⟩ := ih free first
      exact ⟨rfl, rfl⟩
  | call id name ty args _ =>
      rw [has_call_call] at free
      cases free

end Expr

end Condense
