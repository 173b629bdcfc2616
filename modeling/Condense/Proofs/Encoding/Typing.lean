import Condense.Proofs.Encoding.Queries
import Condense.Proofs.Encoding.Refusals

/-!
# Which expressions have a term

Typing is a judgement on the tree that knows no order of traversal: no call occurs, every
node has a type of a width that terms can have, the operands of every node have types that go
together, and a name stands for values of one sort. The encoder accepts exactly the typed
expressions. What it accepts is typed because every node of an expression with a term has a
term as well, and what is typed is accepted because a refusal would name an obstacle, and
none stands in a typed expression.

Two rules are weaker than they look. A sort does not show whether numbers are signed, so one
name may stand for a signed and for an unsigned number of the same width. And `&`, `|` and
`^` with a boolean on the left take a number on the right, though not the other way round.
-/

namespace Condense

set_option autoImplicit false

namespace BinaryOp

def isArithmetic (op : BinaryOp) : Bool :=
  !op.isComparison && !op.isLogical

def IsConnective (op : BinaryOp) : Prop :=
  op = .and ∨ op = .or ∨ op = .xor

theorem is_arithmetic_iff {op : BinaryOp} :
    op.isArithmetic = true ↔ op.isComparison = false ∧ op.isLogical = false := by
  rw [isArithmetic, Bool.and_eq_true, Bool.not_eq_true', Bool.not_eq_true']

theorem not_connective_of_none {op : BinaryOp} (unknown : Encode.connective? op = none) :
    ¬op.IsConnective := by
  rintro (rfl | rfl | rfl) <;> cases unknown

theorem connective_of_some {op : BinaryOp} {make : Term → Term → Term}
    (connects : Encode.connective? op = some make) : op.IsConnective := by
  cases op <;> cases connects
  · exact .inl rfl
  · exact .inr (.inl rfl)
  · exact .inr (.inr rfl)

end BinaryOp

namespace Ty

variable {ty lty rty : Ty}

theorem valid_iff : ty.isValid = true ↔ ty = .bool ∨ 1 ≤ ty.width ∧ ty.width ≤ 64 := by
  cases ty with
  | bool => simp [isValid, width]
  | int bits signed => simp [isValid]

theorem sort_eq_iff : lty.sort = rty.sort ↔ rty.isBool = lty.isBool ∧ rty.width = lty.width := by
  cases lty <;> cases rty <;> simp [sort, isBool, width, eq_comm]

theorem eq_iff_signed (same : lty.sort = rty.sort) : lty = rty ↔ lty.isSigned = rty.isSigned := by
  cases lty <;> cases rty <;> simp_all [sort, isSigned, UInt64.toNat_inj]

end Ty

/-- The types of operands that an operator takes. -/
structure BinaryOp.Admits (op : BinaryOp) (lty rty : Ty) : Prop where
  comparison : op.isComparison = true → lty.sort = rty.sort
  /-- A number goes with a number of its width; it may be shifted by anything. -/
  arithmetic : op.isArithmetic = true → lty.isBool = false → Encode.isShift op = false →
    rty.isBool = false ∧ rty.width = lty.width
  /-- On a boolean there are three operators, which take anything on the right. -/
  connective : op.isArithmetic = true → lty.isBool = true → op.IsConnective

namespace BinaryOp

variable {op : BinaryOp} {lty rty : Ty}

theorem admits_of_logical (logical : op.isLogical = true) : op.Admits lty rty := by
  have computes : op.isArithmetic = false := by simp [isArithmetic, logical]
  have orders : op.isComparison = false := by cases op <;> cases logical <;> rfl
  exact ⟨by simp [orders], by simp [computes], by simp [computes]⟩

theorem admits_of_comparison (compares : op.isComparison = true) (same : lty.sort = rty.sort) :
    op.Admits lty rty := by
  have computes : op.isArithmetic = false := by simp [isArithmetic, compares]
  exact ⟨fun _ => same, by simp [computes], by simp [computes]⟩

theorem Admits.not_clash {obstacle : Obstacle} (admits : op.Admits lty rty) :
    ¬Encode.Clash lty rty op obstacle := by
  intro clash
  cases clash with
  | comparison compares differ => exact differ (admits.comparison compares)
  | boolean computes strict boolean unknown =>
      have arithmetic := is_arithmetic_iff.mpr ⟨computes, strict⟩
      exact not_connective_of_none unknown (admits.connective arithmetic boolean)
  | operands computes strict integer plain differ =>
      have arithmetic := is_arithmetic_iff.mpr ⟨computes, strict⟩
      obtain ⟨kind, width⟩ := admits.arithmetic arithmetic integer plain
      exact differ (Ty.sort_eq_iff.mpr ⟨kind.trans integer.symm, width⟩)

end BinaryOp

namespace Expr

def Admissible : Expr → Prop
  | unary _ op a => op = .lnot ∨ a.ty.isBool = false
  | binary _ op l r => op.Admits l.ty r.ty
  | ternary _ _ yes no => yes.ty.sort = no.ty.sort
  | _ => True

/-- What typing asks of the nodes one by one. -/
structure IsShaped (e : Expr) : Prop where
  callFree : e.hasCall = false
  widths : ∀ node ∈ e.nodes, node.ty = .bool ∨ 1 ≤ node.ty.width ∧ node.ty.width ≤ 64
  operands : ∀ node ∈ e.nodes, node.Admissible

structure IsTyped (e : Expr) : Prop extends IsShaped e where
  names : ∀ v ∈ e.occurrences, ∀ v' ∈ e.occurrences, v.name = v'.name → v.ty.sort = v'.ty.sort

end Expr

namespace Encode

theorem Joined.admits {lty rty : Ty} {l r t : Term} {op : BinaryOp}
    (joined : Joined lty rty l r op t) : op.Admits lty rty := by
  cases joined with
  | land => exact BinaryOp.admits_of_logical rfl
  | lor => exact BinaryOp.admits_of_logical rfl
  | comparison compares same => exact BinaryOp.admits_of_comparison compares same
  | connective boolean connects =>
      have connective := BinaryOp.connective_of_some connects
      have computes : op.isComparison = false := by
        rcases connective with rfl | rfl | rfl <;> rfl
      exact ⟨by simp [computes], by simp [boolean], fun _ _ => connective⟩
  | shift integer shifts =>
      have computes : op.isComparison = false := by cases op <;> cases shifts <;> rfl
      exact ⟨by simp [computes], by simp [shifts], by simp [integer]⟩
  | arithmetic integer plain computes strict same =>
      obtain ⟨kind, width⟩ := Ty.sort_eq_iff.mp same
      exact ⟨by simp [computes], fun _ _ _ => ⟨kind.trans integer, width⟩, by simp [integer]⟩

namespace Encoded

variable {scope scope' : Scope} {e node : Expr} {t : Term}

/-- Every node of an expression with a term has a term, in the scope that is there when the
node is reached. -/
theorem inside (derivation : Encoded scope e t scope') (member : node ∈ e.nodes) :
    ∃ before t' after, Encoded before node t' after := by
  induction derivation with
  | known valid met =>
      obtain rfl := List.mem_singleton.mp member
      exact ⟨_, _, _, .known valid met⟩
  | declared valid unmet =>
      obtain rfl := List.mem_singleton.mp member
      exact ⟨_, _, _, .declared valid unmet⟩
  | lit valid =>
      obtain rfl := List.mem_singleton.mp member
      exact ⟨[], _, _, .lit valid⟩
  | lnot operand ih =>
      rcases List.mem_cons.mp member with rfl | below
      · exact ⟨_, _, _, .lnot operand⟩
      · exact ih below
  | unary computes integer operand ih =>
      rcases List.mem_cons.mp member with rfl | below
      · exact ⟨_, _, _, .unary computes integer operand⟩
      · exact ih below
  | binary left right joined first second =>
      rcases List.mem_cons.mp member with rfl | below
      · exact ⟨_, _, _, .binary left right joined⟩
      rcases List.mem_append.mp below with inLeft | inRight
      · exact first inLeft
      · exact second inRight
  | ternary condition positive negative same first second third =>
      rcases List.mem_cons.mp member with rfl | below
      · exact ⟨_, _, _, .ternary condition positive negative same⟩
      rcases List.mem_append.mp below with inCondition | inArm
      · exact first inCondition
      rcases List.mem_append.mp inArm with inYes | inNo
      · exact second inYes
      · exact third inNo
  | paren inner ih =>
      rcases List.mem_cons.mp member with rfl | below
      · exact ⟨_, _, _, .paren inner⟩
      · exact ih below
  | cast valid operand ih =>
      rcases List.mem_cons.mp member with rfl | below
      · exact ⟨_, _, _, .cast valid operand⟩
      · exact ih below

theorem is_call_eq (derivation : Encoded scope e t scope') : e.isCall = false := by
  cases derivation <;> rfl

theorem admissible (derivation : Encoded scope e t scope') : e.Admissible := by
  cases derivation with
  | lnot operand => exact .inl rfl
  | unary computes integer operand => exact .inr integer
  | binary left right joined => exact joined.admits
  | ternary condition positive negative same => exact same
  | _ => trivial

theorem typed (derivation : Encoded scope e t scope') : e.IsTyped where
  callFree := by
    rw [Expr.hasCall, List.any_eq_false]
    intro node member
    obtain ⟨before, t', after, encoded⟩ := derivation.inside member
    simp [encoded.is_call_eq]
  widths := by
    intro node member
    obtain ⟨before, t', after, encoded⟩ := derivation.inside member
    exact Ty.valid_iff.mp encoded.valid
  operands := by
    intro node member
    obtain ⟨before, t', after, encoded⟩ := derivation.inside member
    exact encoded.admissible
  names := derivation.compatible

end Encoded

end Encode

namespace Expr

variable {e : Expr} {t : Term} {u : Unsupported}

theorem mem_occurrences_of_node {id : NodeId} {v : Variable} (member : .var id v ∈ e.nodes) :
    v ∈ e.occurrences :=
  List.mem_filterMap.mpr ⟨.var id v, member, rfl⟩

/-- Where the nodes are as they should be, the names are all that can be refused. -/
theorem IsShaped.two_types (shaped : e.IsShaped) (founded : u.IsFounded e) :
    u.obstacle = .twoTypes ∧
      ∃ v ∈ e.occurrences, ∃ v' ∈ e.occurrences, v.name = v'.name ∧ v.ty.sort ≠ v'.ty.sort := by
  obtain ⟨node, obstacle⟩ := u
  obtain ⟨inside, stands⟩ := founded
  dsimp only at inside stands ⊢
  have admissible := shaped.operands node inside
  cases stands with
  | width invalid =>
      have valid := Ty.valid_iff.mpr (shaped.widths node inside)
      rw [invalid] at valid
      cases valid
  | twoTypes occurs named differ =>
      exact ⟨rfl, _, occurs, _, mem_occurrences_of_node inside, named, differ⟩
  | booleanOperand computes boolean =>
      rcases admissible with negates | integer
      · exact absurd negates computes
      · rw [boolean] at integer
        cases integer
  | ternaryArms differ => exact absurd admissible differ
  | clash clash => exact absurd clash admissible.not_clash
  | call =>
      have callFree := shaped.callFree
      rw [hasCall, List.any_eq_false] at callFree
      exact absurd rfl (callFree _ inside)

theorem typed_of_encode (accepted : e.encode = .ok t) : e.IsTyped := by
  obtain ⟨t', scope, derivation, _⟩ := encode_eq_ok.mp accepted
  exact derivation.typed

theorem encode_of_typed (typed : e.IsTyped) : ∃ t, e.encode = .ok t := by
  cases outcome : e.encode with
  | ok t => exact ⟨t, rfl⟩
  | error u =>
      obtain ⟨_, v, occurs, v', occurs', named, differ⟩ :=
        typed.two_types (founded_of_encode outcome)
      exact absurd (typed.names v occurs v' occurs' named) differ

theorem refused_of_untyped (untyped : ¬e.IsTyped) :
    ∃ u, e.encode = .error u ∧ u.IsFounded e := by
  cases outcome : e.encode with
  | ok t => exact absurd (typed_of_encode outcome) untyped
  | error u => exact ⟨u, rfl, founded_of_encode outcome⟩

/-- Exactly the typed expressions have a term, whichever encoder is asked and whatever names it
has kept. -/
theorem encodes_iff_typed (e : Expr) (before : Encode.Scope) :
    ((∃ t, e.encode = .ok t) ↔ e.IsTyped) ∧
      ((∃ t, (Encode.Cautious.translate e).run' before = .ok t) ↔ e.IsTyped) := by
  have encodes : (∃ t, e.encode = .ok t) ↔ e.IsTyped := by
    constructor
    · intro accepted
      obtain ⟨t, accepted⟩ := accepted
      exact typed_of_encode accepted
    · exact encode_of_typed
  refine ⟨encodes, ?_⟩
  rw [← encodes, Encode.Cautious.translate_run]
  cases e.encode <;> simp [Except.mapError]

/-- In an expression with a term, one name stands for one sort of values, so its occurrences are
one variable exactly when they agree on the sign. A name that stands for two sorts is refused,
and as such where nothing else is wrong. -/
theorem encode_gives_names_one_sort (e : Expr) :
    (∀ t, e.encode = .ok t →
      ∀ v ∈ e.occurrences, ∀ v' ∈ e.occurrences, v.name = v'.name →
        v.ty.sort = v'.ty.sort ∧ (v = v' ↔ v.ty.isSigned = v'.ty.isSigned)) ∧
    ∀ v ∈ e.occurrences, ∀ v' ∈ e.occurrences, v.name = v'.name → v.ty.sort ≠ v'.ty.sort →
      ∃ u, e.encode = .error u ∧ u.IsFounded e ∧ (e.IsShaped → u.obstacle = .twoTypes) := by
  constructor
  · intro t accepted v occurs v' occurs' named
    have same := (typed_of_encode accepted).names v occurs v' occurs' named
    refine ⟨same, ?_⟩
    rw [← Ty.eq_iff_signed same]
    constructor
    · intro equal
      rw [equal]
    · intro typed
      cases v
      cases v'
      cases named
      cases typed
      rfl
  · intro v occurs v' occurs' named differ
    have untyped : ¬e.IsTyped := fun typed => differ (typed.names v occurs v' occurs' named)
    obtain ⟨u, refused, founded⟩ := refused_of_untyped untyped
    exact ⟨u, refused, founded, fun shaped => (shaped.two_types founded).1⟩

/-- A signed and an unsigned byte of one name are two variables, and are one constant of the
term: that they are equal is a tautology. -/
theorem encode_merges_signs :
    let signed : Variable := ⟨"x", .int 8 true⟩
    let unsigned : Variable := ⟨"x", .int 8 false⟩
    let e : Expr := .binary 2 .eq (.var 0 signed) (.var 1 unsigned)
    let x : Term := .const "x" (.bitVec 8)
    signed ∈ e.occurrences ∧ unsigned ∈ e.occurrences ∧ signed.name = unsigned.name ∧
      signed.ty ≠ unsigned.ty ∧ e.encode = .ok (.eq x x) := by
  intro signed unsigned e x
  exact ⟨by decide, by decide, rfl, by decide, rfl⟩

end Expr

/-- An operator that booleans have, with a boolean on the left and a number on the right. -/
def BinaryOp.Mixes (op : BinaryOp) (lty rty : Ty) : Prop :=
  op.IsConnective ∧ lty.isBool = true ∧ rty.isBool = false

theorem BinaryOp.Admits.agrees {op : BinaryOp} {lty rty : Ty} (admits : op.Admits lty rty)
    (arithmetic : op.isArithmetic = true) (plain : Encode.isShift op = false) :
    lty.sort = rty.sort ∨ op.Mixes lty rty := by
  cases left : lty.isBool with
  | false =>
      obtain ⟨kind, width⟩ := admits.arithmetic arithmetic left plain
      exact .inl (Ty.sort_eq_iff.mpr ⟨kind.trans left.symm, width⟩)
  | true =>
      cases right : rty.isBool with
      | false => exact .inr ⟨admits.connective arithmetic left, left, right⟩
      | true => exact .inl (by rw [Ty.eq_bool left, Ty.eq_bool right])

namespace Expr

/-- To the right of a boolean, a number is read as if it were cast to a boolean. -/
theorem encode_of_mixed {op : BinaryOp} {l r : Expr} (mixes : op.Mixes l.ty r.ty)
    (id id' : NodeId) :
    (binary id op l r).encode = (binary id op l (cast id' .bool r)).encode := by
  obtain ⟨connective, boolean, _⟩ := mixes
  have kind := Ty.eq_bool boolean
  have valid : Ty.bool.isValid = true := rfl
  have typed (rhs : Expr) : (binary id op l rhs).ty = .bool := by
    rw [ty, kind, ite_self]
  have read (e e' : Expr) (lt rt : Term) : Encode.join e op .bool r.ty lt rt
      = Encode.join e' op .bool .bool lt (Encode.truth r.ty rt) := by
    rcases connective with rfl | rfl | rfl <;> rfl
  have recast : Encode.term (cast id' .bool r)
      = (do return Encode.truth r.ty (← Encode.term r)) := by
    rw [Encode.term, Encode.withWidth, ty, if_pos valid]
    rfl
  have terms : Encode.term (binary id op l r)
      = Encode.term (binary id op l (cast id' .bool r)) := by
    rw [Encode.term, Encode.term, recast, Encode.withWidth, Encode.withWidth, typed, typed,
      if_pos valid, if_pos valid, kind, ty]
    simp only [bind_assoc, pure_bind, read _ (binary id op l (cast id' .bool r))]
  rw [encode, encode, terms, typed, typed]

/-- An operator on numbers and bits, shifts apart, takes operands of one sort, except for a
boolean on the left and a number on the right of `&`, `|` or `^`: there the number is read as a
truth value. All other operands that differ are refused, whichever of them is the boolean. -/
theorem encode_refuses_mismatch (e : Expr) :
    (∀ t, e.encode = .ok t →
      ∀ id op l r, .binary id op l r ∈ e.nodes → op.isArithmetic = true →
        Encode.isShift op = false → l.ty.sort = r.ty.sort ∨ op.Mixes l.ty r.ty) ∧
    (∀ id op l r, .binary id op l r ∈ e.nodes → op.isArithmetic = true →
      Encode.isShift op = false → l.ty.sort ≠ r.ty.sort → ¬op.Mixes l.ty r.ty →
        ∃ u, e.encode = .error u ∧ u.IsFounded e) ∧
    ∀ id id' op l r, op.Mixes l.ty r.ty →
      (binary id op l r).encode = (binary id op l (cast id' .bool r)).encode := by
  refine ⟨?_, ?_, ?_⟩
  · intro t accepted id op l r member arithmetic plain
    have admits : op.Admits l.ty r.ty := (typed_of_encode accepted).operands _ member
    exact admits.agrees arithmetic plain
  · intro id op l r member arithmetic plain differ unmixed
    apply refused_of_untyped
    intro typed
    have admits : op.Admits l.ty r.ty := typed.operands _ member
    exact (admits.agrees arithmetic plain).elim differ unmixed
  · intro id id' op l r mixes
    exact encode_of_mixed mixes id id'

/-- A boolean and a byte have a term in one order and none in the other. -/
theorem encode_mixes_flag_with_byte :
    let flag : Expr := .var 0 ⟨"b", .bool⟩
    let byte : Expr := .var 1 ⟨"x", .int 8 false⟩
    flag.ty.sort ≠ byte.ty.sort ∧
      (Expr.binary 2 .and flag byte).encode
        = .ok (.and (.const "b" .bool) (.not (.eq (.const "x" (.bitVec 8)) (.bitVec 0 8)))) ∧
      (Expr.binary 2 .and byte flag).encode = .error ⟨.binary 2 .and byte flag, .operands⟩ := by
  intro flag byte
  exact ⟨by decide, rfl, rfl⟩

end Expr

end Condense
