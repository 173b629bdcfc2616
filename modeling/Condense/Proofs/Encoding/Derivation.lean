import Condense.Encode
import Condense.Proofs.Trees

/-!
# Derivations of encodings

`Encoded scope e t scope'` says that `t` is the term of `e`, where `scope` holds the sorts
of the names met before `e` and `scope'` those met after it. Derivations follow the
expression, one rule for each kind of node, and the encoder succeeds exactly where there is
one. Proofs about terms of expressions go by induction on derivations and never open the
encoder again.
-/

namespace Condense.Encode

set_option autoImplicit false

/-- The term of a node with two operands, by the rule that makes it. -/
inductive Joined (lty rty : Ty) (l r : Term) : BinaryOp → Term → Prop where
  | land : Joined lty rty l r .land (.and (truth lty l) (truth rty r))
  | lor : Joined lty rty l r .lor (.or (truth lty l) (truth rty r))
  | comparison {op : BinaryOp} (compares : op.isComparison = true)
      (same : lty.sort = rty.sort) : Joined lty rty l r op (comparison op lty l r)
  | connective {op : BinaryOp} {make : Term → Term → Term} (boolean : lty.isBool = true)
      (connects : connective? op = some make) : Joined lty rty l r op (make l (truth rty r))
  | shift {op : BinaryOp} (integer : lty.isBool = false) (shifts : isShift op = true) :
      Joined lty rty l r op
        (.bvBinary (arithmetic op lty.isSigned) l (convert rty lty.width r))
  | arithmetic {op : BinaryOp} (integer : lty.isBool = false) (plain : isShift op = false)
      (computes : op.isComparison = false) (strict : op.isLogical = false)
      (same : lty.sort = rty.sort) :
      Joined lty rty l r op (.bvBinary (arithmetic op lty.isSigned) l r)

/-- The types of two operands for which an operator has no term, and what stands in the way. -/
inductive Clash (lty rty : Ty) : BinaryOp → Obstacle → Prop where
  | comparison {op : BinaryOp} (compares : op.isComparison = true)
      (differ : lty.sort ≠ rty.sort) : Clash lty rty op .comparison
  | boolean {op : BinaryOp} (computes : op.isComparison = false) (strict : op.isLogical = false)
      (boolean : lty.isBool = true) (unknown : connective? op = none) :
      Clash lty rty op .booleanArithmetic
  | operands {op : BinaryOp} (computes : op.isComparison = false) (strict : op.isLogical = false)
      (integer : lty.isBool = false) (plain : isShift op = false)
      (differ : lty.sort ≠ rty.sort) : Clash lty rty op .operands

inductive Encoded : Scope → Expr → Term → Scope → Prop where
  | known {scope : Scope} {id : NodeId} {v : Variable} (valid : v.ty.isValid = true)
      (met : scope.lookup v.name = some v.ty.sort) :
      Encoded scope (.var id v) (.const v.name v.ty.sort) scope
  | declared {scope : Scope} {id : NodeId} {v : Variable} (valid : v.ty.isValid = true)
      (unmet : scope.lookup v.name = none) :
      Encoded scope (.var id v) (.const v.name v.ty.sort) ((v.name, v.ty.sort) :: scope)
  | lit {scope : Scope} {id : NodeId} {c : Literal} (valid : c.ty.isValid = true) :
      Encoded scope (.lit id c) (literal c) scope
  | lnot {scope scope' : Scope} {id : NodeId} {a : Expr} {t : Term}
      (operand : Encoded scope a t scope') :
      Encoded scope (.unary id .lnot a) (.not (truth a.ty t)) scope'
  | unary {scope scope' : Scope} {id : NodeId} {op : UnaryOp} {a : Expr} {t : Term}
      (computes : op ≠ .lnot) (integer : a.ty.isBool = false)
      (operand : Encoded scope a t scope') :
      Encoded scope (.unary id op a) (.bvUnary (if op = .neg then .neg else .not) t) scope'
  | binary {scope middle scope' : Scope} {id : NodeId} {op : BinaryOp} {l r : Expr}
      {lt rt t : Term} (left : Encoded scope l lt middle) (right : Encoded middle r rt scope')
      (joined : Joined l.ty r.ty lt rt op t) : Encoded scope (.binary id op l r) t scope'
  | ternary {scope first second scope' : Scope} {id : NodeId} {c yes no : Expr}
      {ct yt nt : Term} (condition : Encoded scope c ct first)
      (positive : Encoded first yes yt second) (negative : Encoded second no nt scope')
      (same : yes.ty.sort = no.ty.sort) :
      Encoded scope (.ternary id c yes no) (.ite (truth c.ty ct) yt nt) scope'
  | paren {scope scope' : Scope} {id : NodeId} {a : Expr} {t : Term}
      (inner : Encoded scope a t scope') : Encoded scope (.paren id a) t scope'
  | cast {scope scope' : Scope} {id : NodeId} {ty : Ty} {a : Expr} {t : Term}
      (valid : ty.isValid = true) (operand : Encoded scope a t scope') :
      Encoded scope (.cast id ty a) (castTo a.ty ty t) scope'

section Encoder

variable {α β : Type} {scope scope' : Scope}

theorem pure_eq_ok {a b : α} :
    (pure a : Encoder α) scope = .ok (b, scope') ↔ a = b ∧ scope = scope' := by
  show Except.ok (a, scope) = Except.ok (b, scope') ↔ _
  simp

theorem refuse_ne_ok {e : Expr} {obstacle : Obstacle} {b : α} :
    ¬(refuse e obstacle : Encoder α) scope = .ok (b, scope') := by
  intro impossible
  cases impossible

theorem bind_eq_ok {x : Encoder α} {f : α → Encoder β} {b : β} :
    (x >>= f) scope = .ok (b, scope') ↔
      ∃ a middle, x scope = .ok (a, middle) ∧ f a middle = .ok (b, scope') := by
  show (x scope).bind (fun result => f result.1 result.2) = .ok (b, scope') ↔ _
  cases x scope with
  | error refusal => simp [Except.bind]
  | ok result =>
      constructor
      · intro rest
        exact ⟨result.1, result.2, rfl, rest⟩
      · intro found
        rcases found with ⟨a, middle, same, rest⟩
        cases same
        exact rest

theorem bind_pure_eq_ok {x : Encoder α} {f : α → β} {b : β} :
    (x >>= fun a => pure (f a)) scope = .ok (b, scope') ↔
      ∃ a, x scope = .ok (a, scope') ∧ f a = b := by
  rw [bind_eq_ok]
  simp only [pure_eq_ok]
  constructor
  · intro found
    rcases found with ⟨a, middle, first, same, rfl⟩
    exact ⟨a, first, same⟩
  · intro found
    rcases found with ⟨a, first, same⟩
    exact ⟨a, scope', first, same, rfl⟩

theorem with_width_eq_ok {e : Expr} {act : Encoder Term} {t : Term} :
    withWidth e act scope = .ok (t, scope') ↔
      e.ty.isValid = true ∧ act scope = .ok (t, scope') := by
  unfold withWidth
  by_cases valid : e.ty.isValid = true
  · rw [if_pos valid]
    simp [valid]
  · rw [if_neg valid]
    simp [valid, refuse_ne_ok]

theorem get_eq_ok {met : Scope} :
    (get : Encoder Scope) scope = .ok (met, scope') ↔ scope = met ∧ scope = scope' := by
  show Except.ok (scope, scope) = Except.ok (met, scope') ↔ _
  simp

theorem modify_eq_ok {f : Scope → Scope} {u : Unit} :
    (modify f : Encoder Unit) scope = .ok (u, scope') ↔ f scope = scope' := by
  show Except.ok ((), f scope) = Except.ok (u, scope') ↔ _
  simp

theorem declare_eq_ok {e : Expr} {name : String} {sort : SmtSort} {u : Unit} :
    declare e name sort scope = .ok (u, scope') ↔
      (scope.lookup name = some sort ∧ scope = scope') ∨
        (scope.lookup name = none ∧ (name, sort) :: scope = scope') := by
  unfold declare
  rw [bind_eq_ok]
  simp only [get_eq_ok]
  constructor
  · intro found
    rcases found with ⟨_, _, ⟨rfl, rfl⟩, success⟩
    cases found : scope.lookup name with
    | none =>
        rw [found] at success
        simpa [modify_eq_ok] using success
    | some existing =>
        rw [found] at success
        dsimp only at success
        split at success
        · next same => simpa [pure_eq_ok, same] using success
        · cases refuse_ne_ok success
  · intro found
    rcases found with ⟨met, rfl⟩ | ⟨unmet, rfl⟩
    · exact ⟨scope, scope, ⟨rfl, rfl⟩, by simp [met, pure_eq_ok]⟩
    · exact ⟨scope, scope, ⟨rfl, rfl⟩, by simp [unmet, modify_eq_ok]⟩

end Encoder

theorem combine_outcome (e : Expr) {op : BinaryOp} (lty rty : Ty) (l r : Term)
    (computes : op.isComparison = false) (strict : op.isLogical = false) :
    (∃ t, Joined lty rty l r op t ∧ combine e op lty rty l r = pure t) ∨
      ∃ obstacle, Clash lty rty op obstacle ∧ combine e op lty rty l r = refuse e obstacle := by
  unfold combine
  cases boolean : lty.isBool with
  | true =>
      rw [if_pos rfl]
      cases connects : connective? op with
      | some make => exact .inl ⟨_, .connective boolean connects, rfl⟩
      | none => exact .inr ⟨_, .boolean computes strict boolean connects, rfl⟩
  | false =>
      rw [if_neg Bool.false_ne_true]
      cases shifts : isShift op with
      | true => exact .inl ⟨_, .shift boolean shifts, if_pos rfl⟩
      | false =>
          rw [if_neg Bool.false_ne_true]
          by_cases same : lty.sort = rty.sort
          · exact .inl ⟨_, .arithmetic boolean shifts computes strict same, if_pos same⟩
          · exact .inr ⟨_, .operands computes strict boolean shifts same, if_neg same⟩

theorem join_eq_combine {op : BinaryOp} (e : Expr) (lty rty : Ty) (l r : Term)
    (computes : op.isComparison = false) (strict : op.isLogical = false) :
    join e op lty rty l r = combine e op lty rty l r := by
  have both : op ≠ .land := by
    intro same
    rw [same] at strict
    cases strict
  have either : op ≠ .lor := by
    intro same
    rw [same] at strict
    cases strict
  rw [join, if_neg both, if_neg either, if_neg (by simp [computes])]

theorem join_comparison {op : BinaryOp} (e : Expr) (lty rty : Ty) (l r : Term)
    (compares : op.isComparison = true) :
    join e op lty rty l r
      = if lty.sort = rty.sort then pure (comparison op lty l r) else refuse e .comparison := by
  have both : op ≠ .land := by
    intro same
    rw [same] at compares
    cases compares
  have either : op ≠ .lor := by
    intro same
    rw [same] at compares
    cases compares
  rw [join, if_neg both, if_neg either, if_pos compares]

/-- Two operands have a term together, or their types clash. -/
theorem join_outcome (e : Expr) (op : BinaryOp) (lty rty : Ty) (l r : Term) :
    (∃ t, Joined lty rty l r op t ∧ join e op lty rty l r = pure t) ∨
      ∃ obstacle, Clash lty rty op obstacle ∧ join e op lty rty l r = refuse e obstacle := by
  cases compares : op.isComparison with
  | true =>
      rw [join_comparison e lty rty l r compares]
      by_cases same : lty.sort = rty.sort
      · exact .inl ⟨_, .comparison compares same, if_pos same⟩
      · exact .inr ⟨_, .comparison compares same, if_neg same⟩
  | false =>
      cases strict : op.isLogical with
      | false =>
          rw [join_eq_combine e lty rty l r compares strict]
          exact combine_outcome e lty rty l r compares strict
      | true =>
          cases op <;> cases strict
          · exact .inl ⟨_, .land, rfl⟩
          · exact .inl ⟨_, .lor, rfl⟩

theorem joined_of_join {e : Expr} {op : BinaryOp} {lty rty : Ty} {l r t : Term}
    {scope scope' : Scope} (success : join e op lty rty l r scope = .ok (t, scope')) :
    Joined lty rty l r op t ∧ scope = scope' := by
  rcases join_outcome e op lty rty l r with ⟨made, joined, run⟩ | ⟨obstacle, _, run⟩
  · rw [run] at success
    obtain ⟨rfl, rfl⟩ := pure_eq_ok.mp success
    exact ⟨joined, rfl⟩
  · rw [run] at success
    exact absurd success refuse_ne_ok

theorem join_of_joined {e : Expr} {op : BinaryOp} {lty rty : Ty} {l r t : Term} (scope : Scope)
    (joined : Joined lty rty l r op t) : join e op lty rty l r scope = .ok (t, scope) := by
  cases joined with
  | land => rfl
  | lor => rfl
  | comparison compares same =>
      rw [join_comparison e lty rty l r compares, if_pos same]
      rfl
  | connective boolean connects =>
      have computes : op.isComparison = false := by cases op <;> cases connects <;> rfl
      have strict : op.isLogical = false := by cases op <;> cases connects <;> rfl
      rw [join_eq_combine e lty rty l r computes strict, combine, if_pos boolean, connects]
      rfl
  | shift integer shifts =>
      have computes : op.isComparison = false := by cases op <;> cases shifts <;> rfl
      have strict : op.isLogical = false := by cases op <;> cases shifts <;> rfl
      rw [join_eq_combine e lty rty l r computes strict, combine, if_neg (by simp [integer]),
        if_pos shifts]
      rfl
  | arithmetic integer plain computes strict same =>
      rw [join_eq_combine e lty rty l r computes strict, combine, if_neg (by simp [integer]),
        if_neg (by simp [plain]), if_pos same]
      rfl

theorem join_eq_ok {e : Expr} {op : BinaryOp} {lty rty : Ty} {l r t : Term}
    {scope scope' : Scope} :
    join e op lty rty l r scope = .ok (t, scope') ↔ Joined lty rty l r op t ∧ scope = scope' := by
  constructor
  · exact joined_of_join
  · intro joins
    rw [← joins.2]
    exact join_of_joined scope joins.1

theorem Encoded.valid {e : Expr} {t : Term} {scope scope' : Scope}
    (derivation : Encoded scope e t scope') : e.ty.isValid = true := by
  induction derivation with
  | known valid met => exact valid
  | declared valid unmet => exact valid
  | lit valid => exact valid
  | lnot operand ih => rfl
  | unary computes integer operand ih =>
      rw [Expr.ty, if_neg computes]
      exact ih
  | binary left right joined first second =>
      rw [Expr.ty]
      split
      · rfl
      · exact first
  | ternary condition positive negative same first second third => exact second
  | paren inner ih => exact ih
  | cast valid operand ih => exact valid

/-- Names keep the sort at which they were first met, and every variable is met. -/
theorem Encoded.lookup {e : Expr} {t : Term} {scope scope' : Scope}
    (derivation : Encoded scope e t scope') :
    (∀ name sort, scope.lookup name = some sort → scope'.lookup name = some sort) ∧
      ∀ v ∈ e.occurrences, scope'.lookup v.name = some v.ty.sort := by
  induction derivation with
  | known valid met =>
      refine ⟨fun name sort known => known, ?_⟩
      intro v member
      rw [Expr.occurrences_var, List.mem_singleton] at member
      rw [member]
      exact met
  | @declared scope id v valid unmet =>
      constructor
      · intro name sort known
        have other : (name == v.name) = false := by
          rw [beq_eq_false_iff_ne]
          intro same
          rw [same, unmet] at known
          cases known
        rw [List.lookup_cons, other]
        exact known
      · intro v' member
        rw [Expr.occurrences_var, List.mem_singleton] at member
        rw [member, List.lookup_cons, beq_self_eq_true]
  | lit valid => exact ⟨fun name sort known => known, by simp⟩
  | lnot operand ih => exact ih
  | unary computes integer operand ih => exact ih
  | binary left right joined first second =>
      refine ⟨fun name sort known => second.1 _ _ (first.1 _ _ known), ?_⟩
      intro v member
      rcases List.mem_append.mp (Expr.occurrences_binary .. ▸ member) with inLeft | inRight
      · exact second.1 _ _ (first.2 v inLeft)
      · exact second.2 v inRight
  | ternary condition positive negative same first second third =>
      refine ⟨fun name sort known => third.1 _ _ (second.1 _ _ (first.1 _ _ known)), ?_⟩
      intro v member
      rcases List.mem_append.mp (Expr.occurrences_ternary .. ▸ member) with inCondition | inArm
      · exact third.1 _ _ (second.1 _ _ (first.2 v inCondition))
      rcases List.mem_append.mp inArm with inYes | inNo
      · exact third.1 _ _ (second.2 v inYes)
      · exact third.2 v inNo
  | paren inner ih => exact ih
  | cast valid operand ih => exact ih

theorem Encoded.sort_eq {e : Expr} {t : Term} {scope scope' : Scope} {v v' : Variable}
    (derivation : Encoded scope e t scope') (member : v ∈ e.occurrences)
    (member' : v' ∈ e.occurrences) (named : v.name = v'.name) : v.ty.sort = v'.ty.sort := by
  have known := derivation.lookup.2 v member
  rw [named, derivation.lookup.2 v' member'] at known
  exact (Option.some.inj known).symm

section Inversion

variable {scope scope' : Scope} {id : NodeId} {t : Term}

theorem encoded_var {v : Variable} :
    Encoded scope (.var id v) t scope' ↔
      v.ty.isValid = true ∧ Term.const v.name v.ty.sort = t ∧
        (scope.lookup v.name = some v.ty.sort ∧ scope = scope' ∨
          scope.lookup v.name = none ∧ (v.name, v.ty.sort) :: scope = scope') := by
  constructor
  · intro derivation
    cases derivation with
    | known valid met => exact ⟨valid, rfl, .inl ⟨met, rfl⟩⟩
    | declared valid unmet => exact ⟨valid, rfl, .inr ⟨unmet, rfl⟩⟩
  · intro encodes
    rcases encodes with ⟨valid, rfl, ⟨met, rfl⟩ | ⟨unmet, rfl⟩⟩
    · exact .known valid met
    · exact .declared valid unmet

theorem encoded_lit {c : Literal} :
    Encoded scope (.lit id c) t scope' ↔
      c.ty.isValid = true ∧ literal c = t ∧ scope = scope' := by
  constructor
  · intro derivation
    cases derivation with
    | lit valid => exact ⟨valid, rfl, rfl⟩
  · intro encodes
    rcases encodes with ⟨valid, rfl, rfl⟩
    exact .lit valid

theorem encoded_lnot {a : Expr} :
    Encoded scope (.unary id .lnot a) t scope' ↔
      ∃ t', Encoded scope a t' scope' ∧ Term.not (truth a.ty t') = t := by
  constructor
  · intro derivation
    cases derivation with
    | lnot operand => exact ⟨_, operand, rfl⟩
    | unary computes integer operand => exact absurd rfl computes
  · intro encodes
    rcases encodes with ⟨t', operand, rfl⟩
    exact .lnot operand

theorem encoded_unary {op : UnaryOp} {a : Expr} (computes : op ≠ .lnot) :
    Encoded scope (.unary id op a) t scope' ↔
      a.ty.isBool = false ∧
        ∃ t', Encoded scope a t' scope' ∧
          Term.bvUnary (if op = .neg then .neg else .not) t' = t := by
  constructor
  · intro derivation
    cases derivation with
    | lnot operand => exact absurd rfl computes
    | unary computes integer operand => exact ⟨integer, _, operand, rfl⟩
  · intro encodes
    rcases encodes with ⟨integer, t', operand, rfl⟩
    exact .unary computes integer operand

theorem encoded_binary {op : BinaryOp} {l r : Expr} :
    Encoded scope (.binary id op l r) t scope' ↔
      ∃ lt middle, Encoded scope l lt middle ∧
        ∃ rt, Encoded middle r rt scope' ∧ Joined l.ty r.ty lt rt op t := by
  constructor
  · intro derivation
    cases derivation with
    | binary left right joined => exact ⟨_, _, left, _, right, joined⟩
  · intro encodes
    rcases encodes with ⟨lt, middle, left, rt, right, joined⟩
    exact .binary left right joined

theorem encoded_ternary {c yes no : Expr} :
    Encoded scope (.ternary id c yes no) t scope' ↔
      ∃ ct first, Encoded scope c ct first ∧
        ∃ yt second, Encoded first yes yt second ∧
          ∃ nt, Encoded second no nt scope' ∧
            yes.ty.sort = no.ty.sort ∧ Term.ite (truth c.ty ct) yt nt = t := by
  constructor
  · intro derivation
    cases derivation with
    | ternary condition positive negative same =>
        exact ⟨_, _, condition, _, _, positive, _, negative, same, rfl⟩
  · intro encodes
    rcases encodes with ⟨ct, first, condition, yt, second, positive, nt, negative, same, rfl⟩
    exact .ternary condition positive negative same

theorem encoded_paren {a : Expr} :
    Encoded scope (.paren id a) t scope' ↔ Encoded scope a t scope' := by
  constructor
  · intro derivation
    cases derivation with
    | paren inner => exact inner
  · exact .paren

theorem encoded_cast {ty : Ty} {a : Expr} :
    Encoded scope (.cast id ty a) t scope' ↔
      ty.isValid = true ∧ ∃ t', Encoded scope a t' scope' ∧ castTo a.ty ty t' = t := by
  constructor
  · intro derivation
    cases derivation with
    | cast valid operand => exact ⟨valid, _, operand, rfl⟩
  · intro encodes
    rcases encodes with ⟨valid, t', operand, rfl⟩
    exact .cast valid operand

theorem not_encoded_call {name : String} {ty : Ty} {args : List Expr} :
    ¬Encoded scope (.call id name ty args) t scope' := by
  intro derivation
  cases derivation

end Inversion

theorem with_width_of_encodes {e : Expr} {act : Encoder Term} {t : Term} {scope scope' : Scope}
    (encodes : act scope = .ok (t, scope') ↔ Encoded scope e t scope') :
    withWidth e act scope = .ok (t, scope') ↔ Encoded scope e t scope' := by
  rw [with_width_eq_ok, encodes]
  constructor
  · intro derived
    exact derived.2
  · intro derivation
    exact ⟨derivation.valid, derivation⟩

theorem term_eq_ok {e : Expr} {t : Term} {scope scope' : Scope} :
    term e scope = .ok (t, scope') ↔ Encoded scope e t scope' := by
  induction e generalizing t scope scope' with
  | var id v =>
      rw [term, with_width_eq_ok, bind_pure_eq_ok, encoded_var, Expr.ty]
      simp only [declare_eq_ok, exists_const, and_comm]
  | lit id c => rw [term, with_width_eq_ok, pure_eq_ok, encoded_lit, Expr.ty]
  | unary id op a ih =>
      rw [term]
      apply with_width_of_encodes
      by_cases negates : op = .lnot
      · rw [if_pos negates, negates, bind_pure_eq_ok, encoded_lnot]
        simp only [ih]
      · rw [if_neg negates, encoded_unary negates]
        cases boolean : a.ty.isBool with
        | true => simp [refuse_ne_ok]
        | false =>
            rw [if_neg (by decide), bind_pure_eq_ok]
            simp [ih]
  | binary id op l r left right =>
      rw [term]
      apply with_width_of_encodes
      rw [encoded_binary]
      simp [bind_eq_ok, left, right, join_eq_ok]
  | ternary id c yes no condition positive negative =>
      rw [term]
      apply with_width_of_encodes
      rw [encoded_ternary]
      simp only [bind_eq_ok, condition, positive, negative]
      by_cases same : yes.ty.sort = no.ty.sort
      · simp [same, pure_eq_ok]
      · simp [same, refuse_ne_ok]
  | paren id a ih =>
      rw [term]
      apply with_width_of_encodes
      rw [ih, encoded_paren]
  | cast id ty a ih =>
      rw [term, with_width_eq_ok, bind_pure_eq_ok, encoded_cast, Expr.ty]
      simp only [ih]
  | call id name ty args _ =>
      rw [term]
      apply with_width_of_encodes
      simp only [refuse_ne_ok, not_encoded_call]

end Condense.Encode
