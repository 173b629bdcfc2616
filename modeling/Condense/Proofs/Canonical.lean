import Condense.Expr.Equiv
import Condense.Proofs.Encoding.Evaluation

/-!
# Canonical forms

The canonical form of an expression has no parentheses, no casts to an operand's own type
and no node ids. Expressions are equivalent exactly when their canonical forms are equal,
and an expression has the type and the term of its canonical form, so one proof serves a
whole class. An expression without a term is refused for the reason that its canonical form
is refused for.
-/

namespace Condense

set_option autoImplicit false

namespace Expr

mutual

/-- Leaves out wrappers at every depth and forgets node ids. -/
def canon : Expr → Expr
  | var _ v => var 0 v
  | lit _ c => lit 0 c
  | unary _ op e => unary 0 op e.canon
  | binary _ op l r => binary 0 op l.canon r.canon
  | ternary _ c yes no => ternary 0 c.canon yes.canon no.canon
  | paren _ e => e.canon
  | cast _ ty e => if e.ty = ty then e.canon else cast 0 ty e.canon
  | call _ name ty args => call 0 name ty (canonAll args)

def canonAll : List Expr → List Expr
  | [] => []
  | e :: rest => e.canon :: canonAll rest

end

theorem ty_canon (e : Expr) : e.canon.ty = e.ty := by
  induction e with
  | var id v => rfl
  | lit id c => rfl
  | unary id op e ih => rw [canon, ty, ty, ih]
  | binary id op l r left right => rw [canon, ty, ty, left]
  | ternary id c yes no condition positive negative => exact positive
  | paren id e ih => exact ih
  | cast id target e ih =>
      rw [canon]
      by_cases same : e.ty = target
      · rw [if_pos same, ih]
        exact same
      · rw [if_neg same]
        rfl
  | call id name result args _ => rfl

theorem ty_eq_of_canon {a b : Expr} (same : a.canon = b.canon) : a.ty = b.ty := by
  rw [← ty_canon a, same, ty_canon]

/-- Neither parentheses nor a cast to the operand's own type at the root. -/
def IsBare : Expr → Prop
  | paren .. => False
  | cast _ target e => e.ty ≠ target
  | _ => True

theorem strip_is_bare (e : Expr) : e.strip.IsBare := by
  induction e with
  | var id v => trivial
  | lit id c => trivial
  | unary id op e _ => trivial
  | binary id op l r _ _ => trivial
  | ternary id c yes no _ _ _ => trivial
  | paren id e ih => exact ih
  | cast id target e ih =>
      rw [strip]
      by_cases same : e.ty = target
      · rw [if_pos same]
        exact ih
      · rw [if_neg same]
        exact same
  | call id name result args _ => trivial

theorem canon_strip (e : Expr) : e.strip.canon = e.canon := by
  induction e with
  | var id v => rfl
  | lit id c => rfl
  | unary id op e _ => rfl
  | binary id op l r _ _ => rfl
  | ternary id c yes no _ _ _ => rfl
  | paren id e ih => exact ih
  | cast id target e ih =>
      rw [strip]
      by_cases same : e.ty = target
      · rw [if_pos same, ih, canon, if_pos same]
      · rw [if_neg same]
  | call id name result args _ => rfl

theorem canon_cast_of_ne (id : NodeId) {target : Ty} {e : Expr} (changes : e.ty ≠ target) :
    (cast id target e).canon = cast 0 target e.canon := by
  rw [canon, if_neg changes]

theorem are_equiv_iff_canon {args : List Expr}
    (each : ∀ arg ∈ args, ∀ b, arg.isEquiv b = true ↔ arg.canon = b.canon) (others : List Expr) :
    areEquiv args others = true ↔ canonAll args = canonAll others := by
  induction args generalizing others with
  | nil => cases others <;> simp [areEquiv, canonAll]
  | cons first rest ih =>
      cases others with
      | nil => simp [areEquiv, canonAll]
      | cons other others =>
          have head := each first (by simp) other
          have tail := ih (fun arg member => each arg (by simp [member])) others
          rw [areEquiv, canonAll, canonAll, Bool.and_eq_true, head, tail, List.cons.injEq]

/-- Each case strips the second expression, which changes neither its canonical form nor
the class, and leaves nothing but a node of some kind at its root. -/
theorem is_equiv_iff_canon (a b : Expr) : a.isEquiv b = true ↔ a.canon = b.canon := by
  induction a generalizing b with
  | var id v =>
      rw [isEquiv, ← canon_strip b]
      have bare := strip_is_bare b
      revert bare
      cases b.strip <;> simp +contextual [IsBare, canon]
  | lit id c =>
      rw [isEquiv, ← canon_strip b]
      have bare := strip_is_bare b
      revert bare
      cases b.strip <;> simp +contextual [IsBare, canon]
  | unary id op a ih =>
      rw [isEquiv, ← canon_strip b]
      have bare := strip_is_bare b
      revert bare
      cases b.strip <;> simp +contextual [IsBare, canon, ih]
  | binary id op l r left right =>
      rw [isEquiv, ← canon_strip b]
      have bare := strip_is_bare b
      revert bare
      cases b.strip <;> simp +contextual [IsBare, canon, left, right, and_assoc]
  | ternary id c yes no condition positive negative =>
      rw [isEquiv, ← canon_strip b]
      have bare := strip_is_bare b
      revert bare
      cases b.strip <;>
        simp +contextual [IsBare, canon, condition, positive, negative, and_assoc]
  | paren id a ih =>
      rw [isEquiv, canon]
      exact ih b
  | cast id target a ih =>
      rw [isEquiv]
      by_cases same : a.ty = target
      · rw [if_pos same, canon, if_pos same]
        exact ih b
      · rw [if_neg same, canon_cast_of_ne id same, ← canon_strip b]
        have bare := strip_is_bare b
        revert bare
        cases b.strip <;> simp +contextual [IsBare, canon, ih]
  | call id name result args each =>
      rw [isEquiv, ← canon_strip b]
      have bare := strip_is_bare b
      revert bare
      cases b.strip <;>
        simp +contextual [IsBare, canon, are_equiv_iff_canon each, and_assoc]

theorem is_equiv_refl (e : Expr) : e.isEquiv e = true :=
  (is_equiv_iff_canon e e).mpr rfl

theorem is_equiv_comm (a b : Expr) : a.isEquiv b = b.isEquiv a := by
  rw [Bool.eq_iff_iff, is_equiv_iff_canon, is_equiv_iff_canon, eq_comm]

theorem is_equiv_trans {a b c : Expr} (first : a.isEquiv b = true) (second : b.isEquiv c = true) :
    a.isEquiv c = true := by
  rw [is_equiv_iff_canon] at first second ⊢
  exact first.trans second

end Expr

def Unsupported.canon (u : Unsupported) : Unsupported :=
  ⟨u.expr.canon, u.obstacle⟩

namespace Encode

theorem cast_to_self (ty : Ty) (t : Term) : castTo ty ty t = t := by
  cases ty with
  | bool => rfl
  | int bits signed => exact if_pos rfl

section Canonical

variable {α β : Type}

def canonical (act : Encoder α) : Encoder α := fun scope =>
  (act scope).mapError Unsupported.canon

@[simp] theorem canonical_pure (a : α) : canonical (pure a) = pure a := rfl

@[simp] theorem canonical_refuse (e : Expr) (obstacle : Obstacle) :
    canonical (refuse e obstacle : Encoder α) = refuse e.canon obstacle := rfl

@[simp] theorem canonical_bind (act : Encoder α) (next : α → Encoder β) :
    canonical (act >>= next) = canonical act >>= fun a => canonical (next a) := by
  funext scope
  have first : (act >>= next) scope = (act scope).bind fun result => next result.1 result.2 := rfl
  have second : (canonical act >>= fun a => canonical (next a)) scope
      = ((act scope).mapError Unsupported.canon).bind fun result =>
        (next result.1 result.2).mapError Unsupported.canon := rfl
  rw [canonical, first, second]
  cases act scope with
  | ok result => rfl
  | error refusal => rfl

@[simp] theorem canonical_with_width (e : Expr) (act : Encoder Term) :
    canonical (withWidth e act) = withWidth e.canon (canonical act) := by
  rw [withWidth, withWidth, Expr.ty_canon]
  split
  · rfl
  · rfl

@[simp] theorem canonical_declare (e : Expr) (name : String) (sort : SmtSort) :
    canonical (declare e name sort) = declare e.canon name sort := by
  have met : canonical (get : Encoder Scope) = get := rfl
  rw [declare, declare, canonical_bind, met]
  congr 1
  funext scope
  cases scope.lookup name with
  | none => rfl
  | some existing =>
      dsimp only
      split
      · rfl
      · rfl

@[simp] theorem canonical_join (e : Expr) (op : BinaryOp) (lty rty : Ty) (l r : Term) :
    canonical (join e op lty rty l r) = join e.canon op lty rty l r := by
  unfold join combine
  repeat' split
  all_goals rfl

theorem term_of_invalid {e : Expr} (invalid : e.ty.isValid = false) :
    term e = refuse e .width := by
  cases e <;> rw [term, withWidth, if_neg (by simp [invalid])]

theorem canonical_wrapped {e inner : Expr} (same : e.canon = inner.canon) :
    canonical (withWidth e (term inner)) = canonical (term inner) := by
  have typed : e.ty = inner.ty := Expr.ty_eq_of_canon same
  cases valid : inner.ty.isValid with
  | true => rw [withWidth, typed, if_pos valid]
  | false =>
      rw [withWidth, typed, if_neg (by simp [valid]), term_of_invalid valid, canonical_refuse,
        canonical_refuse, same]

theorem term_canon (e : Expr) : term e.canon = canonical (term e) := by
  induction e with
  | var id v =>
      simp only [Expr.canon, term, canonical_with_width, canonical_bind, canonical_declare,
        canonical_pure]
  | lit id c => simp only [Expr.canon, term, canonical_with_width, canonical_pure]
  | unary id op a ih =>
      simp only [term, canonical_with_width, Expr.canon, ih, Expr.ty_canon]
      congr 1
      split
      · simp only [canonical_bind, canonical_pure]
      split
      · simp only [canonical_refuse, Expr.canon]
      · simp only [canonical_bind, canonical_pure]
  | binary id op l r left right =>
      simp only [Expr.canon, term, left, right, Expr.ty_canon, canonical_with_width,
        canonical_bind, canonical_join]
  | ternary id c yes no condition positive negative =>
      simp only [term, canonical_with_width, Expr.canon, condition, positive, negative,
        Expr.ty_canon, canonical_bind]
      by_cases same : yes.ty.sort = no.ty.sort
      · simp only [if_pos same, canonical_pure]
      · simp only [if_neg same, canonical_refuse, Expr.canon]
  | paren id a ih =>
      have wrapped : (Expr.paren id a).canon = a.canon := by rw [Expr.canon]
      rw [wrapped, ih, term, canonical_wrapped wrapped]
  | cast id target a ih =>
      by_cases same : a.ty = target
      · have wrapped : (Expr.cast id target a).canon = a.canon := by rw [Expr.canon, if_pos same]
        have kept : (do return castTo a.ty target (← term a)) = term a := by
          rw [same]
          simp only [cast_to_self, bind_pure]
        rw [wrapped, ih, term, kept, canonical_wrapped wrapped]
      · rw [Expr.canon_cast_of_ne id same, term, term, ih, Expr.ty_canon, canonical_with_width,
          Expr.canon_cast_of_ne id same, canonical_bind]
        simp only [canonical_pure]
  | call id name result args _ =>
      simp only [Expr.canon, term, canonical_with_width, canonical_refuse]

end Canonical

end Encode

theorem Expr.encode_canon (e : Expr) : e.canon.encode = e.encode.mapError Unsupported.canon := by
  have run : (Encode.term e.canon).run []
      = ((Encode.term e).run []).mapError Unsupported.canon := by
    rw [Encode.term_canon]
    rfl
  rw [encode, encode, run, ty_canon]
  cases (Encode.term e).run [] with
  | ok result => rfl
  | error refusal => rfl

theorem Expr.encode_of_is_equiv {a b : Expr} (equivalent : a.isEquiv b = true) {t : Term} :
    a.encode = .ok t ↔ b.encode = .ok t := by
  have accepted (e : Expr) : e.canon.encode = .ok t ↔ e.encode = .ok t := by
    rw [encode_canon]
    cases e.encode <;> simp [Except.mapError]
  rw [← accepted a, (Expr.is_equiv_iff_canon a b).mp equivalent, accepted b]

/-- Equivalent expressions have the same term, or are refused for the same reason at
equivalent subexpressions. -/
theorem Expr.encode_congruence (a b : Expr) (equivalent : a.isEquiv b = true) :
    a.ty = b.ty ∧
      ((∃ t, a.encode = .ok t ∧ b.encode = .ok t) ∨
        ∃ x y obstacle, a.encode = .error ⟨x, obstacle⟩ ∧ b.encode = .error ⟨y, obstacle⟩ ∧
          x.isEquiv y = true) := by
  have same : a.canon = b.canon := (is_equiv_iff_canon a b).mp equivalent
  have typed : a.ty = b.ty := by rw [← ty_canon a, same, ty_canon]
  have results : a.encode.mapError Unsupported.canon = b.encode.mapError Unsupported.canon := by
    rw [← encode_canon, same, encode_canon]
  refine ⟨typed, ?_⟩
  cases left : a.encode with
  | ok t =>
      cases right : b.encode with
      | ok t' =>
          rw [left, right] at results
          cases results
          exact .inl ⟨t, rfl, rfl⟩
      | error refusal =>
          rw [left, right] at results
          cases results
  | error refusal =>
      cases right : b.encode with
      | ok t =>
          rw [left, right] at results
          cases results
      | error refusal' =>
          rw [left, right] at results
          obtain ⟨x, obstacle⟩ := refusal
          obtain ⟨y, obstacle'⟩ := refusal'
          have refused : Unsupported.canon ⟨x, obstacle⟩ = Unsupported.canon ⟨y, obstacle'⟩ :=
            Except.error.inj results
          obtain ⟨exprs, obstacles⟩ := Unsupported.mk.inj refused
          dsimp only at exprs obstacles
          subst obstacles
          exact .inr ⟨x, y, obstacle, rfl, rfl, (is_equiv_iff_canon x y).mpr exprs⟩

/-- Wrappers around a value and around its shift count do not show in the term. -/
theorem Expr.encode_congruence_shift :
    let value : Expr := .var 0 ⟨"x", .int 8 true⟩
    let count : Expr := .var 1 ⟨"n", .int 32 false⟩
    let bare : Expr := .binary 2 .shr value count
    let wrapped : Expr := .paren 8
      (.binary 7 .shr (.cast 4 (.int 8 true) (.paren 3 value)) (.paren 6 (.paren 5 count)))
    bare.isEquiv wrapped = true ∧ bare.ty = wrapped.ty ∧
      ∃ t, bare.encode = .ok t ∧ wrapped.encode = .ok t := by
  intro value count bare wrapped
  have equivalent : bare.isEquiv wrapped = true := by decide
  obtain ⟨typed, accepted | refused⟩ := Expr.encode_congruence bare wrapped equivalent
  · exact ⟨equivalent, typed, accepted⟩
  · obtain ⟨x, y, obstacle, impossible, _⟩ := refused
    cases impossible

end Condense
