import Condense.Proofs.Lockstep

/-!
# Digests and the memo

Equivalent expressions have equal digests. The memo gives the digest of an expression as
long as an id stands for one content; a table of the digests by id, fixed beforehand, says
what the memo may ever hold. Any sequence of questions is then answered as if there were
no memo. Whatever the ids stand for, a digest once known is never replaced, and asking twice
gives the same digest.
-/

namespace Condense

set_option autoImplicit false

namespace Expr

theorem digests_canon {args : List Expr} (each : ∀ arg ∈ args, arg.canon.digest = arg.digest) :
    digests (canonAll args) = digests args := by
  induction args with
  | nil => rfl
  | cons first rest ih =>
      rw [canonAll, digests, digests, each first (by simp),
        ih fun arg member => each arg (by simp [member])]

theorem digest_canon (e : Expr) : e.canon.digest = e.digest := by
  induction e with
  | var id v => rfl
  | lit id c => rfl
  | unary id op a ih => rw [canon, digest, digest, ih]
  | binary id op l r left right => rw [canon, digest, digest, left, right]
  | ternary id c yes no condition positive negative =>
      rw [canon, digest, digest, condition, positive, negative]
  | paren id a ih => rw [canon, digest, ih]
  | cast id ty a ih =>
      by_cases same : a.ty = ty
      · rw [canon, digest, if_pos same, if_pos same, ih]
      · rw [canon_cast_of_ne id same, digest, digest, ty_canon, if_neg same, if_neg same, ih]
  | call id name ty args each => rw [canon, digest, digest, digests_canon each]

theorem digest_of_is_equiv {a b : Expr} (equivalent : a.isEquiv b = true) :
    a.digest = b.digest := by
  rw [← digest_canon a, (is_equiv_iff_canon a b).mp equivalent, digest_canon]

theorem ty_anonymous (e : Expr) : e.anonymous.ty = e.ty := by
  induction e with
  | var id v => rfl
  | lit id c => rfl
  | unary id op a ih => rw [anonymous, ty, ty, ih]
  | binary id op l r left right => rw [anonymous, ty, ty, left]
  | ternary id c yes no condition positive negative => exact positive
  | paren id a ih => exact ih
  | cast id ty a ih => rfl
  | call id name ty args _ => rfl

theorem canon_anonymous_all {args : List Expr}
    (each : ∀ arg ∈ args, arg.anonymous.canon = arg.canon) :
    canonAll (anonymousAll args) = canonAll args := by
  induction args with
  | nil => rfl
  | cons first rest ih =>
      rw [anonymousAll, canonAll, canonAll, each first (by simp),
        ih fun arg member => each arg (by simp [member])]

theorem canon_anonymous (e : Expr) : e.anonymous.canon = e.canon := by
  induction e with
  | var id v => rfl
  | lit id c => rfl
  | unary id op a ih => rw [anonymous, canon, canon, ih]
  | binary id op l r left right => rw [anonymous, canon, canon, left, right]
  | ternary id c yes no condition positive negative =>
      rw [anonymous, canon, canon, condition, positive, negative]
  | paren id a ih => rw [anonymous, canon, canon, ih]
  | cast id ty a ih => rw [anonymous, canon, canon, ty_anonymous, ih]
  | call id name ty args each => rw [anonymous, canon, canon, canon_anonymous_all each]

theorem digest_of_anonymous {a b : Expr} (same : a.anonymous = b.anonymous) :
    a.digest = b.digest := by
  rw [← digest_canon a, ← canon_anonymous a, same, canon_anonymous, digest_canon]

/-- In all the trees together, nodes with one id have the same content. -/
def Identified (trees : List Expr) : Prop :=
  ∀ a ∈ nodesOf trees, ∀ b ∈ nodesOf trees, a.id = b.id → a.anonymous = b.anonymous

/-- The table has the digest of every node of the expression under its id. -/
def Tabled (table : NodeId → UInt64) (e : Expr) : Prop :=
  ∀ node ∈ e.nodes, table node.id = node.digest

theorem Identified.exists_table {trees : List Expr} (identified : Identified trees) :
    ∃ table, ∀ e ∈ trees, e.Tabled table := by
  refine ⟨fun id => ((nodesOf trees).find? fun node => node.id == id).elim 0 digest, ?_⟩
  intro e tree node inside
  have member : node ∈ nodesOf trees := mem_nodes_of.mpr ⟨e, tree, inside⟩
  have found : ((nodesOf trees).find? fun other => other.id == node.id).isSome = true := by
    rw [List.find?_isSome]
    exact ⟨node, member, beq_self_eq_true _⟩
  obtain ⟨first, found⟩ := Option.isSome_iff_exists.mp found
  have same : first.id = node.id := by simpa using List.find?_some found
  show ((nodesOf trees).find? fun other => other.id == node.id).elim 0 digest = node.digest
  rw [found]
  exact digest_of_anonymous (identified first (List.mem_of_find?_eq_some found) node member same)

end Expr

namespace Memo

theorem get_insert (memo : Memo) (id other : NodeId) (digest : UInt64) :
    (memo.insert id digest).get? other = if id = other then some digest else memo.get? other := by
  simp [get?, insert, Std.TreeMap.getElem?_insert]

section Remember

variable {memo : Memo} {id : NodeId} {compute : StateM Memo UInt64}

theorem remember_run (memo : Memo) (id : NodeId) (compute : StateM Memo UInt64) :
    remember id compute memo = match memo.get? id with
      | some digest => (digest, memo)
      | none => ((compute memo).1, (compute memo).2.insert id (compute memo).1) := by
  unfold remember
  rw [StateM.bind_run]
  show (match memo.get? id with
    | some digest => pure digest
    | none => _ : StateM Memo UInt64) memo = _
  cases memo.get? id <;> rfl

theorem remember_known {digest : UInt64} (known : memo.get? id = some digest) :
    remember id compute memo = (digest, memo) := by
  rw [remember_run, known]

theorem remember_unknown (unknown : memo.get? id = none) :
    remember id compute memo
      = ((compute memo).1, (compute memo).2.insert id (compute memo).1) := by
  rw [remember_run, unknown]

theorem get_remember (memo : Memo) (id : NodeId) (compute : StateM Memo UInt64) :
    (remember id compute memo).2.get? id = some (remember id compute memo).1 := by
  cases known : memo.get? id with
  | some digest => rw [remember_known known, known]
  | none => rw [remember_unknown known, get_insert, if_pos rfl]

end Remember

def keeping (invariant : Memo → Prop) : Logic (StateM Memo) where
  gives act property := ∀ memo, invariant memo → invariant (act memo).2 ∧ property (act memo).1
  weaken := fun given stronger memo kept => ⟨(given memo kept).1, stronger _ (given memo kept).2⟩
  pure := fun holds _ kept => ⟨kept, holds⟩
  bind := fun first second memo kept => second _ (first memo kept).2 _ (first memo kept).1

theorem remember_gives {invariant : Memo → Prop} {property : UInt64 → Prop} {id : NodeId}
    {compute : StateM Memo UInt64} (given : (keeping invariant).gives compute property)
    (recalls : ∀ memo digest, invariant memo → memo.get? id = some digest → property digest)
    (inserts : ∀ memo after digest, invariant memo → memo.get? id = none → invariant after →
      property digest → invariant (after.insert id digest)) :
    (keeping invariant).gives (remember id compute) property := by
  intro memo kept
  cases known : memo.get? id with
  | some digest =>
      rw [remember_known known]
      exact ⟨kept, recalls memo digest kept known⟩
  | none =>
      rw [remember_unknown known]
      obtain ⟨after, holds⟩ := given memo kept
      exact ⟨inserts memo _ _ kept known after holds, holds⟩

section Walk

variable {logic : Logic (StateM Memo)} {accurate : Prop}

theorem walk_all_gives {args : List Expr}
    (each : ∀ arg ∈ args, logic.gives (walk false arg) fun d => accurate → d = arg.digest) :
    logic.gives (walkAll args) fun ds => accurate → ds = Expr.digests args := by
  induction args with
  | nil => exact logic.pure fun _ => rfl
  | cons first rest ih =>
      rw [walkAll]
      apply logic.bind (each first (by simp))
      intro d head
      apply logic.bind (ih fun arg member => each arg (by simp [member]))
      intro ds tail
      apply logic.pure
      intro given
      rw [Expr.digests, head given, tail given]

/-- What remembering a node keeps, the walk over an expression keeps. The digest is right
wherever those remembered are. -/
theorem walk_gives {e : Expr} (wrapped : Bool)
    (remembers : ∀ node ∈ e.nodes, ∀ compute,
      logic.gives compute (fun d => accurate → d = node.digest) →
        logic.gives (remember node.id compute) fun d => accurate → d = node.digest) :
    logic.gives (walk wrapped e) fun d => accurate → d = e.digest := by
  induction e generalizing wrapped with
  | var id v =>
      rw [walk]
      exact remembers _ (Expr.self_mem_nodes _) _ (logic.pure fun _ => rfl)
  | lit id c =>
      rw [walk]
      exact remembers _ (Expr.self_mem_nodes _) _ (logic.pure fun _ => rfl)
  | unary id op a ih =>
      rw [walk]
      apply remembers _ (Expr.self_mem_nodes _)
      apply logic.bind (ih false fun node inside => remembers node (by simp [Expr.nodes, inside]))
      intro d operand
      apply logic.pure
      intro given
      rw [Expr.digest, operand given]
  | binary id op l r left right =>
      rw [walk]
      apply remembers _ (Expr.self_mem_nodes _)
      apply logic.bind (left false fun node inside => remembers node (by simp [Expr.nodes, inside]))
      intro dl first
      apply logic.bind
        (right false fun node inside => remembers node (by simp [Expr.nodes, inside]))
      intro dr second
      apply logic.pure
      intro given
      rw [Expr.digest, first given, second given]
  | ternary id c yes no condition positive negative =>
      rw [walk]
      apply remembers _ (Expr.self_mem_nodes _)
      apply logic.bind
        (condition false fun node inside => remembers node (by simp [Expr.nodes, inside]))
      intro dc first
      apply logic.bind
        (positive false fun node inside => remembers node (by simp [Expr.nodes, inside]))
      intro dy second
      apply logic.bind
        (negative false fun node inside => remembers node (by simp [Expr.nodes, inside]))
      intro dn third
      apply logic.pure
      intro given
      rw [Expr.digest, first given, second given, third given]
  | paren id a ih =>
      have inner : logic.gives (walk true a) fun d => accurate → d = (Expr.paren id a).digest :=
        ih true fun node inside => remembers node (by simp [Expr.nodes, inside])
      rw [walk]
      split
      · exact inner
      · exact remembers _ (Expr.self_mem_nodes _) _ inner
  | cast id ty a ih =>
      have operand (wrapped : Bool) :=
        ih wrapped fun node inside => remembers node (by simp [Expr.nodes, inside])
      rw [walk]
      by_cases same : a.ty = ty
      · have inner : logic.gives (walk true a)
            fun d => accurate → d = (Expr.cast id ty a).digest := by
          rw [Expr.digest, if_pos same]
          exact operand true
        rw [if_pos same]
        split
        · exact inner
        · exact remembers _ (Expr.self_mem_nodes _) _ inner
      · rw [if_neg same]
        apply remembers _ (Expr.self_mem_nodes _)
        apply logic.bind (operand false)
        intro d right
        apply logic.pure
        intro given
        rw [Expr.digest, if_neg same, right given]
  | call id name ty args each =>
      rw [walk]
      apply remembers _ (Expr.self_mem_nodes _)
      refine logic.bind (walk_all_gives fun arg member => each arg member false
        fun node inside => remembers node ?_) fun ds operands => ?_
      · rw [Expr.nodes, List.mem_cons, Expr.mem_nodes_of]
        exact .inr ⟨arg, member, inside⟩
      · apply logic.pure
        intro given
        rw [Expr.digest, operands given]

end Walk

def Extends (memo after : Memo) : Prop :=
  ∀ id digest, memo.get? id = some digest → after.get? id = some digest

theorem digest_extends (e : Expr) (memo : Memo) : memo.Extends (digest e memo).2 := by
  have walked : (keeping memo.Extends).gives (walk false e) fun d => False → d = e.digest := by
    apply walk_gives
    intro node _ compute given
    apply remember_gives given
    · intro _ _ _ _ impossible
      cases impossible
    · intro before after d grown unknown grown' _ id d' known
      have other : node.id ≠ id := by
        intro same
        rw [same, grown id d' known] at unknown
        cases unknown
      rw [get_insert, if_neg other]
      exact grown' id d' known
  exact (walked memo fun _ _ known => known).1

def Within (table : NodeId → UInt64) (memo : Memo) : Prop :=
  ∀ id digest, memo.get? id = some digest → digest = table id

theorem digest_of_tabled {table : NodeId → UInt64} {e : Expr} {memo : Memo}
    (tabled : e.Tabled table) (within : memo.Within table) :
    (digest e memo).1 = e.digest ∧ (digest e memo).2.Within table := by
  have walked : (keeping (Within table)).gives (walk false e) fun d => True → d = e.digest := by
    apply walk_gives
    intro node inside compute given
    apply remember_gives given
    · intro before d kept known _
      rw [kept node.id d known, tabled node inside]
    · intro before after d _ _ kept right id d' known
      rw [get_insert] at known
      split at known
      · next same =>
          rw [← Option.some.inj known, right trivial, ← same, tabled node inside]
      · exact kept id d' known
  obtain ⟨kept, right⟩ := walked memo within
  exact ⟨right trivial, kept⟩

theorem digest_eq_remember (e : Expr) : ∃ compute, digest e = remember e.id compute := by
  unfold digest
  cases e with
  | cast id ty a =>
      rw [walk]
      split
      · exact ⟨_, rfl⟩
      · exact ⟨_, rfl⟩
  | _ => exact ⟨_, rfl⟩

theorem get_digest (e : Expr) (memo : Memo) :
    (digest e memo).2.get? e.id = some (digest e memo).1 := by
  obtain ⟨compute, same⟩ := digest_eq_remember e
  rw [same]
  exact get_remember memo e.id compute

/-- A known digest is given without a change to the memo. -/
theorem digest_known {e : Expr} {memo : Memo} {d : UInt64} (known : memo.get? e.id = some d) :
    digest e memo = (d, memo) := by
  obtain ⟨compute, same⟩ := digest_eq_remember e
  rw [same, remember_known known]

/-- Digests that are known and differ belong to expressions that are not equivalent. -/
theorem is_equiv_of_tabled {table : NodeId → UInt64} {a b : Expr} {memo : Memo}
    (left : a.Tabled table) (right : b.Tabled table) (within : memo.Within table) :
    memo.isEquiv a b = a.isEquiv b := by
  unfold isEquiv
  cases known : memo.get? a.id with
  | none => rfl
  | some da =>
      cases known' : memo.get? b.id with
      | none => rfl
      | some db =>
          have first : da = a.digest := by
            rw [within a.id da known, left a a.self_mem_nodes]
          have second : db = b.digest := by
            rw [within b.id db known', right b b.self_mem_nodes]
          dsimp only
          cases equivalent : a.isEquiv b with
          | false => exact Bool.and_false _
          | true =>
              rw [Bool.and_true, first, second, Expr.digest_of_is_equiv equivalent,
                beq_self_eq_true]

end Memo

inductive Inquiry where
  | digest (e : Expr)
  | equivalent (a b : Expr)

namespace Inquiry

def about : Inquiry → List Expr
  | digest e => [e]
  | equivalent a b => [a, b]

def ask : Inquiry → StateM Memo (UInt64 ⊕ Bool)
  | digest e => return .inl (← Memo.digest e)
  | equivalent a b => return .inr ((← get).isEquiv a b)

/-- The answer by definition, without a memo and whatever the ids. -/
def answer : Inquiry → UInt64 ⊕ Bool
  | digest e => .inl e.digest
  | equivalent a b => .inr (a.isEquiv b)

variable {table : NodeId → UInt64} {memo : Memo}

theorem ask_of_tabled {inquiry : Inquiry} (tabled : ∀ e ∈ inquiry.about, e.Tabled table)
    (within : memo.Within table) :
    (inquiry.ask memo).1 = inquiry.answer ∧ (inquiry.ask memo).2.Within table := by
  cases inquiry with
  | digest e =>
      obtain ⟨right, kept⟩ := Memo.digest_of_tabled (tabled e (by simp [about])) within
      exact ⟨congrArg Sum.inl right, kept⟩
  | equivalent a b =>
      have right := Memo.is_equiv_of_tabled (tabled a (by simp [about]))
        (tabled b (by simp [about])) within
      exact ⟨congrArg Sum.inr right, within⟩

theorem ask_all_of_tabled {inquiries : List Inquiry}
    (tabled : ∀ e ∈ inquiries.flatMap about, e.Tabled table) (within : memo.Within table) :
    (inquiries.mapM ask memo).1 = inquiries.map answer := by
  induction inquiries generalizing memo with
  | nil => rfl
  | cons inquiry rest ih =>
      rw [List.flatMap_cons] at tabled
      obtain ⟨right, kept⟩ := ask_of_tabled
        (fun e member => tabled e (List.mem_append_left _ member)) within
      have later := ih (fun e member => tabled e (List.mem_append_right _ member)) kept
      rw [List.mapM_cons, StateM.bind_run, StateM.bind_run, right, later]
      rfl

end Inquiry

/-- A memo that starts empty answers any sequence of inquiries by definition, as long as an
id stands for one content in all the expressions together. Equivalent expressions have
equal digests, so that different digests never hide an equivalence. -/
theorem Memo.asked_is_faithful (inquiries : List Inquiry)
    (identified : Expr.Identified (inquiries.flatMap Inquiry.about)) :
    (inquiries.mapM Inquiry.ask {}).1 = inquiries.map Inquiry.answer ∧
      ∀ a b : Expr, a.isEquiv b = true → a.digest = b.digest := by
  obtain ⟨table, tabled⟩ := identified.exists_table
  have empty : Memo.Within table {} := by simp [Memo.Within, Memo.get?]
  exact ⟨Inquiry.ask_all_of_tabled tabled empty, fun _ _ => Expr.digest_of_is_equiv⟩

/-- `(x)` and `!x`, which share the node of `x`, and a node that is digested through a
wrapper before it is compared. -/
theorem Memo.asked_is_faithful_shared :
    let x : Expr := .var 1 ⟨"x", .bool⟩
    let wrapped : Expr := .paren 2 x
    let negated : Expr := .unary 3 .lnot x
    let inquiries : List Inquiry :=
      [.digest wrapped, .equivalent x wrapped, .digest negated, .equivalent x negated]
    Expr.Identified (inquiries.flatMap Inquiry.about) ∧
      (inquiries.mapM Inquiry.ask {}).1
        = [.inl x.digest, .inr true, .inl negated.digest, .inr false] := by
  intro x wrapped negated inquiries
  have identified : Expr.Identified (inquiries.flatMap Inquiry.about) := by
    simp [Expr.Identified, inquiries, Inquiry.about, Expr.nodesOf, Expr.nodes, x, wrapped,
      negated, Expr.id, Expr.anonymous]
  refine ⟨identified, ?_⟩
  rw [(Memo.asked_is_faithful inquiries identified).1]
  rfl

end Condense
