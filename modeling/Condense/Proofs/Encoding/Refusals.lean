import Condense.Proofs.Encoding.Evaluation

/-!
# Why an expression is refused

A refusal names a node of the expression and an obstacle, and the obstacle does stand at that
node: its type has no width that terms can have, its operands have types that do not go
together, it is a call, or it is a variable that occurs elsewhere at another sort. The last
of these is the only one that a node does not show by itself, so the induction carries what
the scope holds: sorts of variables of the whole expression and nothing else.
-/

namespace Condense

set_option autoImplicit false

inductive Obstacle.StandsAt (e : Expr) : Obstacle → Expr → Prop where
  | width {node : Expr} (invalid : node.ty.isValid = false) : StandsAt e .width node
  /-- The name stands elsewhere in `e` at another sort. -/
  | twoTypes {id : NodeId} {v other : Variable} (occurs : other ∈ e.occurrences)
      (named : other.name = v.name) (differ : other.ty.sort ≠ v.ty.sort) :
      StandsAt e .twoTypes (.var id v)
  | booleanOperand {id : NodeId} {op : UnaryOp} {a : Expr} (computes : op ≠ .lnot)
      (boolean : a.ty.isBool = true) : StandsAt e .booleanArithmetic (.unary id op a)
  | clash {id : NodeId} {op : BinaryOp} {l r : Expr} {obstacle : Obstacle}
      (clash : Encode.Clash l.ty r.ty op obstacle) : StandsAt e obstacle (.binary id op l r)
  | ternaryArms {id : NodeId} {c yes no : Expr} (differ : yes.ty.sort ≠ no.ty.sort) :
      StandsAt e .ternaryArms (.ternary id c yes no)
  | call {id : NodeId} {name : String} {ty : Ty} {args : List Expr} :
      StandsAt e .call (.call id name ty args)

/-- The refusal names a node of `e` and an obstacle that stands there. -/
structure Unsupported.IsFounded (u : Unsupported) (e : Expr) : Prop where
  inside : u.expr ∈ e.nodes
  stands : u.obstacle.StandsAt e u.expr

namespace Encode

section Errors

variable {α β : Type} {scope : Scope} {u : Unsupported}

theorem pure_ne_error {a : α} : ¬(pure a : Encoder α) scope = .error u := by
  intro impossible
  cases impossible

theorem refuse_eq_error {e : Expr} {obstacle : Obstacle} :
    (refuse e obstacle : Encoder α) scope = .error u ↔ u = ⟨e, obstacle⟩ := by
  show Except.error ⟨e, obstacle⟩ = Except.error u ↔ _
  rw [Except.error.injEq, eq_comm]

theorem bind_eq_error {x : Encoder α} {f : α → Encoder β} :
    (x >>= f) scope = .error u ↔
      x scope = .error u ∨ ∃ a middle, x scope = .ok (a, middle) ∧ f a middle = .error u := by
  show (x scope).bind (fun result => f result.1 result.2) = .error u ↔ _
  cases x scope with
  | error refusal => simp [Except.bind]
  | ok result =>
      obtain ⟨a, middle⟩ := result
      simp [Except.bind, and_assoc]

theorem bind_pure_eq_error {x : Encoder α} {f : α → β} :
    (x >>= fun a => pure (f a)) scope = .error u ↔ x scope = .error u := by
  rw [bind_eq_error]
  simp only [pure_ne_error, and_false, exists_false, or_false]

theorem with_width_eq_error {e : Expr} {act : Encoder Term} :
    withWidth e act scope = .error u ↔
      e.ty.isValid = false ∧ u = ⟨e, .width⟩ ∨ e.ty.isValid = true ∧ act scope = .error u := by
  unfold withWidth
  cases e.ty.isValid with
  | true => simp
  | false => simp [refuse_eq_error]

theorem met_of_declare {e : Expr} {name : String} {sort : SmtSort}
    (refused : declare e name sort scope = .error u) :
    ∃ existing, scope.lookup name = some existing ∧ existing ≠ sort ∧ u = ⟨e, .twoTypes⟩ := by
  unfold declare at refused
  rcases bind_eq_error.mp refused with impossible | ⟨met, middle, read, refused⟩
  · cases impossible
  obtain ⟨rfl, rfl⟩ := get_eq_ok.mp read
  cases found : scope.lookup name with
  | none =>
      rw [found] at refused
      cases refused
  | some existing =>
      rw [found] at refused
      dsimp only at refused
      by_cases same : existing = sort
      · rw [if_pos same] at refused
        exact absurd refused pure_ne_error
      · rw [if_neg same] at refused
        exact ⟨existing, rfl, same, refuse_eq_error.mp refused⟩

end Errors

theorem clash_of_join {e : Expr} {op : BinaryOp} {lty rty : Ty} {l r : Term} {scope : Scope}
    {u : Unsupported} (refused : join e op lty rty l r scope = .error u) :
    ∃ obstacle, Clash lty rty op obstacle ∧ u = ⟨e, obstacle⟩ := by
  rcases join_outcome e op lty rty l r with ⟨t, _, run⟩ | ⟨obstacle, clash, run⟩
  · rw [run] at refused
    exact absurd refused pure_ne_error
  · rw [run] at refused
    exact ⟨obstacle, clash, refuse_eq_error.mp refused⟩

def Scope.Within (scope : Scope) (e : Expr) : Prop :=
  ∀ name sort, scope.lookup name = some sort →
    ∃ v ∈ e.occurrences, v.name = name ∧ v.ty.sort = sort

theorem Encoded.within {whole e : Expr} {t : Term} {scope scope' : Scope}
    (derivation : Encoded scope e t scope') (part : e.occurrences ⊆ whole.occurrences)
    (within : scope.Within whole) : scope'.Within whole := by
  induction derivation with
  | known valid met => exact within
  | @declared scope id v valid unmet =>
      intro name sort found
      rw [List.lookup_cons] at found
      by_cases named : name = v.name
      · rw [named, beq_self_eq_true] at found
        exact ⟨v, part (by simp), named.symm, Option.some.inj found⟩
      · rw [beq_eq_false_iff_ne.mpr named] at found
        exact within name sort found
  | lit valid => exact within
  | lnot operand ih => exact ih part within
  | unary computes integer operand ih => exact ih part within
  | binary left right joined first second =>
      rw [Expr.occurrences_binary, List.append_subset] at part
      exact second part.2 (first part.1 within)
  | ternary condition positive negative same first second third =>
      rw [Expr.occurrences_ternary, List.append_subset, List.append_subset] at part
      exact third part.2.2 (second part.2.1 (first part.1 within))
  | paren inner ih => exact ih part within
  | cast valid operand ih => exact ih part within

section Refusals

variable {whole : Expr} {scope : Scope} {u : Unsupported}

theorem stands_of_with_width {e : Expr} {act : Encoder Term}
    (inner : act scope = .error u → u.expr ∈ e.nodes ∧ u.obstacle.StandsAt whole u.expr)
    (refused : withWidth e act scope = .error u) :
    u.expr ∈ e.nodes ∧ u.obstacle.StandsAt whole u.expr := by
  rcases with_width_eq_error.mp refused with ⟨invalid, rfl⟩ | ⟨_, refused⟩
  · exact ⟨e.self_mem_nodes, .width invalid⟩
  · exact inner refused

/-- A refusal comes from the node itself or from the first operand that is refused. The
operands before that one have a term, and leave only sorts of variables in the scope. -/
theorem stands_of_term {e : Expr} (part : e.occurrences ⊆ whole.occurrences)
    (within : scope.Within whole) (refused : term e scope = .error u) :
    u.expr ∈ e.nodes ∧ u.obstacle.StandsAt whole u.expr := by
  induction e generalizing scope with
  | var id v =>
      rw [term] at refused
      refine stands_of_with_width ?_ refused
      intro refused
      obtain ⟨existing, met, differ, rfl⟩ := met_of_declare (bind_pure_eq_error.mp refused)
      obtain ⟨other, occurs, named, rfl⟩ := within _ _ met
      exact ⟨Expr.self_mem_nodes _, .twoTypes occurs named differ⟩
  | lit id c =>
      rw [term] at refused
      exact stands_of_with_width (fun refused => absurd refused pure_ne_error) refused
  | unary id op a ih =>
      rw [term] at refused
      refine stands_of_with_width ?_ refused
      intro refused
      have operand : term a scope = .error u →
          u.expr ∈ (Expr.unary id op a).nodes ∧ u.obstacle.StandsAt whole u.expr := by
        intro refused
        obtain ⟨inside, stands⟩ := ih part within refused
        exact ⟨List.mem_cons_of_mem _ inside, stands⟩
      by_cases negates : op = .lnot
      · rw [if_pos negates] at refused
        exact operand (bind_pure_eq_error.mp refused)
      · rw [if_neg negates] at refused
        cases boolean : a.ty.isBool with
        | true =>
            rw [if_pos boolean] at refused
            obtain rfl := refuse_eq_error.mp refused
            exact ⟨Expr.self_mem_nodes _, .booleanOperand negates boolean⟩
        | false =>
            rw [if_neg (by simp [boolean])] at refused
            exact operand (bind_pure_eq_error.mp refused)
  | binary id op l r left right =>
      rw [Expr.occurrences_binary, List.append_subset] at part
      rw [term] at refused
      refine stands_of_with_width ?_ refused
      intro refused
      rw [Expr.nodes, List.mem_cons, List.mem_append]
      rcases bind_eq_error.mp refused with refused | ⟨lt, middle, first, refused⟩
      · obtain ⟨inside, stands⟩ := left part.1 within refused
        exact ⟨.inr (.inl inside), stands⟩
      have within := (term_eq_ok.mp first).within part.1 within
      rcases bind_eq_error.mp refused with refused | ⟨rt, last, second, refused⟩
      · obtain ⟨inside, stands⟩ := right part.2 within refused
        exact ⟨.inr (.inr inside), stands⟩
      obtain ⟨obstacle, clash, rfl⟩ := clash_of_join refused
      exact ⟨.inl rfl, .clash clash⟩
  | ternary id c yes no condition positive negative =>
      rw [Expr.occurrences_ternary, List.append_subset, List.append_subset] at part
      rw [term] at refused
      refine stands_of_with_width ?_ refused
      intro refused
      rw [Expr.nodes, List.mem_cons, List.mem_append, List.mem_append]
      rcases bind_eq_error.mp refused with refused | ⟨ct, middle, first, refused⟩
      · obtain ⟨inside, stands⟩ := condition part.1 within refused
        exact ⟨.inr (.inl inside), stands⟩
      have within := (term_eq_ok.mp first).within part.1 within
      rcases bind_eq_error.mp refused with refused | ⟨yt, later, second, refused⟩
      · obtain ⟨inside, stands⟩ := positive part.2.1 within refused
        exact ⟨.inr (.inr (.inl inside)), stands⟩
      have within := (term_eq_ok.mp second).within part.2.1 within
      rcases bind_eq_error.mp refused with refused | ⟨nt, last, third, refused⟩
      · obtain ⟨inside, stands⟩ := negative part.2.2 within refused
        exact ⟨.inr (.inr (.inr inside)), stands⟩
      by_cases same : yes.ty.sort = no.ty.sort
      · rw [if_pos same] at refused
        exact absurd refused pure_ne_error
      · rw [if_neg same] at refused
        obtain rfl := refuse_eq_error.mp refused
        exact ⟨.inl rfl, .ternaryArms same⟩
  | paren id a ih =>
      rw [term] at refused
      refine stands_of_with_width ?_ refused
      intro refused
      obtain ⟨inside, stands⟩ := ih part within refused
      exact ⟨List.mem_cons_of_mem _ inside, stands⟩
  | cast id ty a ih =>
      rw [term] at refused
      refine stands_of_with_width ?_ refused
      intro refused
      obtain ⟨inside, stands⟩ := ih part within (bind_pure_eq_error.mp refused)
      exact ⟨List.mem_cons_of_mem _ inside, stands⟩
  | call id name ty args _ =>
      rw [term] at refused
      refine stands_of_with_width ?_ refused
      intro refused
      obtain rfl := refuse_eq_error.mp refused
      exact ⟨Expr.self_mem_nodes _, .call⟩

end Refusals

end Encode

/-- Nothing is refused without a reason that stands in the expression. -/
theorem Expr.founded_of_encode {e : Expr} {u : Unsupported} (refused : e.encode = .error u) :
    u.IsFounded e := by
  rw [encode_run] at refused
  have empty : Encode.Scope.Within [] e := by
    intro name sort found
    cases found
  cases outcome : Encode.term e [] with
  | ok result =>
      rw [outcome] at refused
      cases refused
  | error refusal =>
      rw [outcome] at refused
      obtain rfl := Except.error.inj refused
      obtain ⟨inside, stands⟩ := Encode.stands_of_term (List.Subset.refl _) empty outcome
      exact ⟨inside, stands⟩

end Condense
