import Condense.Json.Statement
import Condense.Pass.Identities
import Condense.Proofs.Refinement
import Condense.Proofs.Renumbering

/-!
# The literals of what is read

Reading makes up no literal and changes none: every literal of an expression stands in the
value that it was read from. A literal that was masked when it was written is masked when
it is read, and nothing masks the others.

An integer literal in boolean position is decided in two ways, by the identities from the
whole word and by the encoder from the bits within the width. They differ exactly on the
words that are not zero but have only zeros within the width, so they agree on all of what
is read from a value whose literals are masked.
-/

namespace Condense

set_option autoImplicit false

namespace Json

mutual

def parts : Json → List Json
  | array items => array items :: partsOfItems items
  | object fields => object fields :: partsOfFields fields
  | j => [j]

def partsOfItems : List Json → List Json
  | [] => []
  | item :: rest => item.parts ++ partsOfItems rest

def partsOfFields : List (String × Json) → List Json
  | [] => []
  | (_, value) :: rest => value.parts ++ partsOfFields rest

end

/-- The literal that a value spells out. No literal is nested deeper than three levels. -/
def literal? (j : Json) : Option Literal :=
  Literal.ofJson? 3 j

def IsMasked (j : Json) : Prop :=
  ∀ part ∈ j.parts, ∀ c ∈ part.literal?, c.IsMasked

instance (j : Json) : Decidable j.IsMasked :=
  inferInstanceAs (Decidable (∀ part ∈ j.parts, ∀ c ∈ part.literal?,
    c.ty.isBool = false → Word.truncate c.value c.ty.width = c.value))

theorem self_mem_parts (j : Json) : j ∈ j.parts := by
  cases j <;> simp [parts]

theorem parts_of_item {items : List Json} {item : Json} (member : item ∈ items) :
    item.parts ⊆ (array items).parts := by
  have inside : item.parts ⊆ partsOfItems items := by
    induction items with
    | nil => cases member
    | cons first rest ih =>
        rw [partsOfItems]
        rcases List.mem_cons.mp member with rfl | later
        · exact List.subset_append_left _ _
        · exact List.Subset.trans (ih later) (List.subset_append_right _ _)
  rw [parts]
  exact List.Subset.trans inside (List.subset_cons_self _ _)

theorem parts_of_field {fields : List (String × Json)} {name : String} {value : Json}
    (member : (name, value) ∈ fields) : value.parts ⊆ (object fields).parts := by
  have inside : value.parts ⊆ partsOfFields fields := by
    induction fields with
    | nil => cases member
    | cons first rest ih =>
        rw [partsOfFields]
        rcases List.mem_cons.mp member with rfl | later
        · exact List.subset_append_left _ _
        · exact List.Subset.trans (ih later) (List.subset_append_right _ _)
  rw [parts]
  exact List.Subset.trans inside (List.subset_cons_self _ _)

theorem mapM_origin {α β : Type} {read : α → Option β} {items : List α} {results : List β}
    (success : items.mapM read = some results) {result : β} (member : result ∈ results) :
    ∃ item ∈ items, read item = some result := by
  induction items generalizing results with
  | nil =>
      cases success
      cases member
  | cons first rest ih =>
      rw [List.mapM_cons] at success
      cases head : read first with
      | none => simp [head] at success
      | some value =>
          cases tail : rest.mapM read with
          | none => simp [head, tail] at success
          | some values =>
              have all : value :: values = results := by simpa [head, tail] using success
              rw [← all] at member
              rcases List.mem_cons.mp member with rfl | later
              · exact ⟨first, by simp, head⟩
              · rcases ih tail later with ⟨item, inside, origin⟩
                exact ⟨item, by simp [inside], origin⟩

theorem mem_of_field {fields : List (String × Json)} {name : String} {value : Json}
    (given : field fields name = some (some value)) : (name, value) ∈ fields := by
  unfold field at given
  split at given
  · cases given
  · next entry single =>
      cases given
      have member : entry ∈ fields.filter fun entry => entry.1 == name := by simp [single]
      rcases List.mem_filter.mp member with ⟨listed, named⟩
      rw [← eq_of_beq named]
      exact listed
  · cases given

theorem parts_of_record {j value : Json} {names : List String} {values : List (Option Json)}
    (success : j.record names = some values) (given : some value ∈ values) :
    value.parts ⊆ j.parts := by
  unfold record at success
  split at success
  · next items =>
      split at success
      · cases success
        exact parts_of_item (by simpa using given)
      · cases success
  · next fields =>
      rcases mapM_origin success given with ⟨name, _, origin⟩
      exact parts_of_field (mem_of_field origin)
  · cases success

end Json

theorem Ty.of_json_two {depth : Nat} {j : Json} {ty : Ty} (read : ofJson? depth j = some ty) :
    ofJson? 2 j = some ty := by
  unfold ofJson? at read
  split at read
  · exact read
  · split at read
    · next named =>
        cases read
        unfold Json.name? at named
        split at named
        · cases named
          rfl
        · cases named
          rfl
        · cases named
    · cases read

theorem Literal.spelled_of_json {depth : Nat} {j : Json} {c : Literal}
    (read : ofJson? depth j = some c) : j.literal? = some c := by
  unfold ofJson? at read
  split at read
  · split at read
    · next value ty fields =>
        rcases Option.map_eq_some_iff.mp read with ⟨ty', known, rfl⟩
        rw [Json.literal?, ofJson?, fields]
        exact Option.map_eq_some_iff.mpr ⟨ty', Ty.of_json_two known, rfl⟩
    · cases read
  · cases read

namespace Expr

/-- What an expression that was read from a value comes from: a literal from a literal in
the value, and each operand from a value inside, with less room. -/
structure ComesFrom (depth : Nat) (j : Json) (e : Expr) : Prop where
  literal : ∀ id c, e = lit id c → ∃ part ∈ j.parts, part.literal? = some c
  operand : ∀ child ∈ e.children, ∃ content : Json, content.parts ⊆ j.parts ∧
    ∃ inner < depth, unnumbered? inner content = some child

theorem ComesFrom.outward {depth depth' : Nat} {inner j : Json} {e : Expr}
    (origin : ComesFrom depth inner e) (within : inner.parts ⊆ j.parts) (more : depth ≤ depth') :
    ComesFrom depth' j e where
  literal := by
    intro id c same
    rcases origin.literal id c same with ⟨part, member, spelled⟩
    exact ⟨part, within member, spelled⟩
  operand := by
    intro child member
    rcases origin.operand child member with ⟨content, inside, room, less, read⟩
    exact ⟨content, List.Subset.trans inside within, room, Nat.lt_of_lt_of_le less more, read⟩

theorem comes_from_array {depth : Nat} {items : List Json} {e : Expr}
    (compound : ∀ id c, e ≠ lit id c)
    (each : ∀ child ∈ e.children, ∃ item ∈ items, unnumbered? depth item = some child) :
    ComesFrom (depth + 1) (.array items) e where
  literal := fun id c same => absurd same (compound id c)
  operand := by
    intro child member
    rcases each child member with ⟨item, listed, read⟩
    exact ⟨item, Json.parts_of_item listed, depth, Nat.lt_succ_self depth, read⟩

theorem comes_from_items {depth : Nat} {kind : String} {content : Json} {e : Expr}
    (read : ofItems? depth kind content = some e) : ComesFrom depth content e := by
  unfold ofItems? at read
  split at read
  · rcases Option.bind_eq_some_iff.mp read with ⟨op, _, rest⟩
    rcases Option.bind_eq_some_iff.mp rest with ⟨a, inner, made⟩
    cases made
    exact comes_from_array (by simp) (by simp [children, inner])
  · rcases Option.bind_eq_some_iff.mp read with ⟨ty, _, rest⟩
    rcases Option.bind_eq_some_iff.mp rest with ⟨a, inner, made⟩
    cases made
    exact comes_from_array (by simp) (by simp [children, inner])
  · rcases Option.bind_eq_some_iff.mp read with ⟨op, _, rest⟩
    rcases Option.bind_eq_some_iff.mp rest with ⟨l, left, rest⟩
    rcases Option.bind_eq_some_iff.mp rest with ⟨r, right, made⟩
    cases made
    exact comes_from_array (by simp) (by simp [children, left, right])
  · rcases Option.bind_eq_some_iff.mp read with ⟨c, condition, rest⟩
    rcases Option.bind_eq_some_iff.mp rest with ⟨yes, positive, rest⟩
    rcases Option.bind_eq_some_iff.mp rest with ⟨no, negative, made⟩
    cases made
    exact comes_from_array (by simp) (by simp [children, condition, positive, negative])
  · next depth name ty items =>
      rcases Option.bind_eq_some_iff.mp read with ⟨ty', _, rest⟩
      rcases Option.bind_eq_some_iff.mp rest with ⟨args, inner, made⟩
      cases made
      -- The operands of a call are one level further in than those of other nodes.
      have within : (Json.array items).parts ⊆ (Json.array [.text name, ty, .array items]).parts :=
        Json.parts_of_item (by simp)
      have origin : ComesFrom (depth + 1) (.array items) (call 0 name ty' args) :=
        comes_from_array (by simp) fun child member => Json.mapM_origin inner member
      exact origin.outward within (Nat.le_succ _)
  · cases read

theorem comes_from_kind {depth : Nat} {kind : Json} {e : Expr}
    (read : ofKind? depth kind = some e) : ComesFrom depth kind e := by
  unfold ofKind? at read
  split at read
  · next depth name content =>
      have within : content.parts ⊆ (Json.object [(name, content)]).parts :=
        Json.parts_of_field (List.mem_singleton.mpr rfl)
      split at read
      · rcases Option.map_eq_some_iff.mp read with ⟨v, _, rfl⟩
        exact ⟨by simp, by simp [children]⟩
      · rcases Option.map_eq_some_iff.mp read with ⟨c, known, rfl⟩
        refine ⟨?_, by simp [children]⟩
        rintro _ _ ⟨⟩
        exact ⟨content, within content.self_mem_parts, Literal.spelled_of_json known⟩
      · rcases Option.map_eq_some_iff.mp read with ⟨a, known, rfl⟩
        refine ⟨by simp, ?_⟩
        intro child member
        rw [List.mem_singleton.mp member]
        exact ⟨content, within, depth, Nat.lt_succ_self depth, known⟩
      · exact (comes_from_items read).outward within (Nat.le_succ depth)
  · cases read

theorem comes_from {depth : Nat} {j : Json} {e : Expr} (read : unnumbered? depth j = some e) :
    ComesFrom depth j e := by
  unfold unnumbered? at read
  split at read
  · cases read
  · next depth =>
      rcases Option.bind_eq_some_iff.mp read with ⟨kind, node, known⟩
      have within : kind.parts ⊆ j.parts := by
        unfold kindOf? at node
        split at node
        · next id kind' fields =>
            cases node
            exact Json.parts_of_record fields (by simp)
        · cases node
      exact (comes_from_kind known).outward within (Nat.le_succ depth)

/-- Every literal of an expression stands in the value that it was read from. -/
theorem literal_stands {depth : Nat} {j : Json} {e : Expr} (read : unnumbered? depth j = some e)
    {id : NodeId} {c : Literal} (member : lit id c ∈ e.nodes) :
    ∃ part ∈ j.parts, part.literal? = some c := by
  induction depth using Nat.strongRecOn generalizing j e with
  | ind depth ih =>
      have origin := comes_from read
      rw [e.nodes_eq, List.mem_cons] at member
      rcases member with root | deeper
      · exact origin.literal id c root.symm
      · rcases mem_nodes_of.mp deeper with ⟨child, operand, within⟩
        rcases origin.operand child operand with ⟨content, inside, room, less, known⟩
        rcases ih room less known within with ⟨part, listed, spelled⟩
        exact ⟨part, inside listed, spelled⟩

/-- In boolean position the identities and the encoder come to the same truth value. -/
def FoldsAsEncoded (e : Expr) : Prop :=
  ∀ (model : Model) (nodes : Nodes), ∃ t truth, e.encode = .ok t ∧
    t.eval model = .ok (.bool truth) ∧
    (Identities.collapse e nodes).1.1.asBool = some truth

theorem encode_lit {c : Literal} (valid : c.ty.isValid = true) (id : NodeId) :
    ∃ t, (lit id c).encode = .ok t ∧
      ∀ model, t.eval model = .ok (.bool (Meaning.holds c.pattern)) := by
  refine ⟨_, encode_eq_ok.mpr ⟨_, [], .lit valid, rfl⟩, ?_⟩
  intro model
  exact Encode.eval_truth valid (Represents.literal valid)

theorem as_bool_collapse {c : Literal} (integer : c.ty.isBool = false) (id : NodeId)
    (nodes : Nodes) :
    (Identities.collapse (lit id c) nodes).1.1.asBool = some c.isNonzero := by
  have made : (Identities.collapse (lit id c) nodes).1.1
      = lit nodes.next (.ofBool c.isNonzero) := by
    rw [Identities.collapse, if_neg (by simp [integer])]
    rfl
  rw [made]
  cases c.isNonzero <;> rfl

theorem folds_as_encoded_iff_holds {c : Literal} (integer : c.ty.isBool = false)
    (valid : c.ty.isValid = true) (id : NodeId) :
    (lit id c).FoldsAsEncoded ↔ Meaning.holds c.pattern = c.isNonzero := by
  rcases encode_lit valid id with ⟨t, accepted, evaluates⟩
  constructor
  · intro folds
    rcases folds (fun _ => none) ⟨0, {}⟩ with ⟨t', truth, accepted', value, folded⟩
    rw [accepted] at accepted'
    cases accepted'
    rw [evaluates] at value
    cases value
    rw [as_bool_collapse integer] at folded
    exact (Option.some.inj folded).symm
  · intro same model nodes
    refine ⟨t, _, accepted, evaluates model, ?_⟩
    rw [as_bool_collapse integer, same]

/-- The encoder sees the bits within the width and the identities see the whole word, so
they differ on a word that is not zero but has only zeros within the width. -/
theorem folds_as_encoded_iff {c : Literal} (integer : c.ty.isBool = false)
    (valid : c.ty.isValid = true) (id : NodeId) :
    (lit id c).FoldsAsEncoded ↔ (Word.truncate c.value c.ty.width = 0 → c.value = 0) := by
  have pattern : c.pattern = (Word.truncate c.value c.ty.width).toNat := by
    rw [Word.truncate_to_nat _ _ (Ty.valid_bounds valid).2]
    unfold Literal.pattern
    split
    · next boolean =>
        rw [boolean] at integer
        cases integer
    · next bits signed kind => rw [kind, Ty.width]
  have cut : Meaning.holds c.pattern = (Word.truncate c.value c.ty.width != 0) := by
    rw [pattern, Bool.eq_iff_iff]
    simp [Meaning.holds, ← UInt64.toNat_inj]
  rw [folds_as_encoded_iff_holds integer valid, cut, Literal.isNonzero, Bool.eq_iff_iff,
    bne_iff_ne, bne_iff_ne, not_iff_not]
  constructor
  · intro same
    exact same.mp
  · intro zero
    refine ⟨zero, ?_⟩
    intro nothing
    rw [nothing, Word.truncate, UInt64.zero_and]

theorem read_eq_some {j : Json} {next after : NodeId} {e : Expr}
    (success : Expr.read j next = some (e, after)) :
    ∃ e', unnumbered? j.depth j = some e' ∧ e'.numbered next = (e, after) := by
  have unfolded : Expr.read j next
      = (unnumbered? j.depth j).bind fun e => some (e.numbered next) := by
    show ((unnumbered? j.depth j).bind fun e => some (e, next)).bind
      (fun result => some (result.1.numbered result.2)) = _
    cases unnumbered? j.depth j <;> rfl
  rw [unfolded] at success
  rcases Option.bind_eq_some_iff.mp success with ⟨e', known, numbered⟩
  exact ⟨e', known, Option.some.inj numbered⟩

/-- Numbering the nodes leaves their literals as they were read. -/
theorem literal_stands_of_read {j : Json} {next after : NodeId} {e : Expr}
    (success : Expr.read j next = some (e, after)) {id : NodeId} {c : Literal}
    (member : lit id c ∈ e.nodes) : ∃ part ∈ j.parts, part.literal? = some c := by
  rcases read_eq_some success with ⟨e', known, numbered⟩
  have same : e.anonymous = e'.anonymous := by
    rw [← (e'.numbered_spec next).1, numbered]
  rcases lit_mem_of_anonymous_eq same member with ⟨id', inside⟩
  exact literal_stands known inside

/-- Every integer literal of what is read stands in the value as it is, and it is decided in
two ways that differ exactly where it has bits above its width and none within. If the
literals of the value are masked, so are those of the expression, and they are decided in
one way. -/
theorem read_literals_fold_as_encoded {j : Json} {next after : NodeId} {e : Expr}
    (success : Expr.read j next = some (e, after)) {id : NodeId} {c : Literal}
    (member : lit id c ∈ e.nodes) (integer : c.ty.isBool = false)
    (valid : c.ty.isValid = true) :
    (∃ part ∈ j.parts, part.literal? = some c) ∧
      ((lit id c).FoldsAsEncoded ↔ (Word.truncate c.value c.ty.width = 0 → c.value = 0)) ∧
      (j.IsMasked →
        Word.truncate c.value c.ty.width = c.value ∧ (lit id c).FoldsAsEncoded) := by
  have extent := folds_as_encoded_iff integer valid id
  rcases literal_stands_of_read success member with ⟨part, listed, spelled⟩
  refine ⟨⟨part, listed, spelled⟩, extent, ?_⟩
  intro masked
  have whole := masked part listed c spelled integer
  refine ⟨whole, extent.mpr ?_⟩
  intro zero
  rw [← whole, zero]

/-- A negated literal, which is the least number of eight bits, given without the names of
its fields. -/
theorem read_literals_fold_as_encoded_least :
    let j : Json := .object [("kind", .object [("Unary", .array [.text "LNot",
      .object [("id", .natural 7), ("kind", .object [("Constant", .array [.natural 128,
        .object [("Int", .object [("signed", .bool true), ("bits", .natural 8)])]])])]])]),
      ("id", .natural 7)]
    let c : Literal := ⟨128, .int 8 true⟩
    Expr.read j 5 = some (unary 6 .lnot (lit 5 c), 7) ∧ j.IsMasked ∧
      Word.truncate c.value c.ty.width = c.value ∧ (lit 5 c).FoldsAsEncoded := by
  intro j c
  have success : Expr.read j 5 = some (unary 6 .lnot (lit 5 c), 7) := by rfl
  have masked : j.IsMasked := by decide
  have member : lit 5 c ∈ (unary 6 .lnot (lit 5 c)).nodes := by simp [nodes]
  have folds := read_literals_fold_as_encoded success member rfl rfl
  exact ⟨success, masked, folds.2.2 masked⟩

/-- A word of nine bits read as an unsigned literal of eight: the identities take it for
true, while its term is false. -/
theorem read_keeps_bits_above_width :
    let j : Json := .object [("id", .natural 0), ("kind", .object [("Constant",
      .object [("value", .natural 256),
        ("ty", .object [("Int", .object [("bits", .natural 8), ("signed", .bool false)])])])])]
    let c : Literal := ⟨256, .int 8 false⟩
    Expr.read j 0 = some (lit 0 c, 1) ∧ Word.truncate c.value c.ty.width ≠ c.value ∧
      (∀ nodes, (Identities.collapse (lit 0 c) nodes).1.1.asBool = some true) ∧
      ∃ t, (lit 0 c).encode = .ok t ∧ ∀ model, t.eval model = .ok (.bool false) := by
  intro j c
  have nonzero : c.isNonzero = true := by decide
  have low : Meaning.holds c.pattern = false := by decide
  rcases encode_lit (by rfl : c.ty.isValid = true) 0 with ⟨t, accepted, evaluates⟩
  rw [low] at evaluates
  refine ⟨rfl, by decide, ?_, t, accepted, evaluates⟩
  intro nodes
  rw [as_bool_collapse rfl, nonzero]

end Expr

end Condense
