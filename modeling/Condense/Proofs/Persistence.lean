import Condense.Json.Settings
import Condense.Json.Statement
import Condense.Proofs.Renumbering

/-!
# What is written can be read

Every reader gives back what its writer wrote, where it may go as deep as the value is
nested: types, literals and variables as they are, expressions, statements and programs
without their ids, strategies and options as they are. With the numbering of the nodes
that reading ends with, a program comes back with ids of its own and is otherwise the one
that was written.

This is about values. That the text of a value is read as that value is taken for granted.
-/

namespace Condense

set_option autoImplicit false

namespace Json

theorem room_inside {inner depth : Nat} (room : inner + 1 ≤ depth) :
    ∃ rest, depth = rest + 1 ∧ inner ≤ rest :=
  ⟨depth - 1, by omega, by omega⟩

theorem depth_le_items {items : List Json} {item : Json} (member : item ∈ items) :
    item.depth ≤ depthOfItems items := by
  induction items with
  | nil => cases member
  | cons first rest ih =>
      rw [depthOfItems]
      rcases List.mem_cons.mp member with rfl | later
      · exact Nat.le_max_left _ _
      · exact Nat.le_trans (ih later) (Nat.le_max_right _ _)

theorem depth_le_fields {fields : List (String × Json)} {entry : String × Json}
    (member : entry ∈ fields) : entry.2.depth ≤ depthOfFields fields := by
  induction fields with
  | nil => cases member
  | cons first rest ih =>
      rw [depthOfFields]
      rcases List.mem_cons.mp member with rfl | later
      · exact Nat.le_max_left _ _
      · exact Nat.le_trans (ih later) (Nat.le_max_right _ _)

theorem depth_tagged (name : String) (content : Json) :
    (tagged name content).depth = content.depth + 1 := by
  simp [tagged, depth, depthOfFields]

theorem room_in_variant {name : String} {content : Json} {depth : Nat}
    (room : (tagged name content).depth ≤ depth) :
    ∃ rest, depth = rest + 1 ∧ content.depth ≤ rest :=
  room_inside (depth_tagged name content ▸ room)

theorem room_in_array {items : List Json} {depth : Nat} (room : (array items).depth ≤ depth) :
    ∃ rest, depth = rest + 1 ∧ ∀ item ∈ items, item.depth ≤ rest := by
  rw [Json.depth] at room
  rcases room_inside room with ⟨rest, rfl, each⟩
  exact ⟨rest, rfl, fun item member => Nat.le_trans (depth_le_items member) each⟩

theorem room_in_object {fields : List (String × Json)} {depth : Nat}
    (room : (object fields).depth ≤ depth) :
    ∃ rest, depth = rest + 1 ∧ ∀ entry ∈ fields, entry.2.depth ≤ rest := by
  rw [Json.depth] at room
  rcases room_inside room with ⟨rest, rfl, each⟩
  exact ⟨rest, rfl, fun entry member => Nat.le_trans (depth_le_fields member) each⟩

theorem mapM_written {α β : Type} {write : α → Json} {read : Json → Option β} {result : α → β}
    {items : List α} (each : ∀ item ∈ items, read (write item) = some (result item)) :
    (items.map write).mapM read = some (items.map result) := by
  induction items with
  | nil => rfl
  | cons first rest ih =>
      rw [List.map_cons, List.mapM_cons, each first (by simp),
        ih fun item member => each item (by simp [member])]
      rfl

end Json

theorem UnaryOp.of_to_json (op : UnaryOp) (depth : Nat) :
    UnaryOp.ofJson? depth op.toJson = some op := by
  cases op <;> cases depth <;> rfl

theorem BinaryOp.of_to_json (op : BinaryOp) (depth : Nat) :
    BinaryOp.ofJson? depth op.toJson = some op := by
  cases op <;> cases depth <;> rfl

theorem Ty.of_to_json {ty : Ty} {depth : Nat} (room : ty.toJson.depth ≤ depth) :
    Ty.ofJson? depth ty.toJson = some ty := by
  cases ty with
  | bool => rcases depth with _ | _ | depth <;> rfl
  | int bits signed =>
      rcases Json.room_in_variant room with ⟨depth, rfl, inner⟩
      rcases Json.room_in_object inner with ⟨depth, rfl, _⟩
      rfl

theorem Literal.of_to_json {c : Literal} {depth : Nat} (room : c.toJson.depth ≤ depth) :
    Literal.ofJson? depth c.toJson = some c := by
  rcases Json.room_in_object room with ⟨depth, rfl, inner⟩
  show (Ty.ofJson? depth c.ty.toJson).map _ = _
  rw [Ty.of_to_json (inner ("ty", c.ty.toJson) (by simp))]
  rfl

theorem Variable.of_to_json {v : Variable} {depth : Nat} (room : v.toJson.depth ≤ depth) :
    Variable.ofJson? depth v.toJson = some v := by
  rcases Json.room_in_object room with ⟨depth, rfl, inner⟩
  show (Ty.ofJson? depth v.ty.toJson).map _ = _
  rw [Ty.of_to_json (inner ("ty", v.ty.toJson) (by simp))]
  rfl

namespace Expr

theorem to_jsons_eq_map (args : List Expr) : toJsons args = args.map toJson := by
  induction args with
  | nil => rfl
  | cons first rest ih => rw [toJsons, ih, List.map_cons]

theorem room_in_node {id : NodeId} {kind : String} {content : Json} {depth : Nat}
    (room : (nodeJson id kind content).depth ≤ depth) :
    ∃ rest, depth = rest + 2 ∧ content.depth ≤ rest := by
  rcases Json.room_in_object room with ⟨rest, rfl, inner⟩
  rcases Json.room_in_variant (inner ("kind", .tagged kind content) (by simp)) with
    ⟨rest, rfl, inside⟩
  exact ⟨rest, rfl, inside⟩

theorem room_in_items {id : NodeId} {kind : String} {items : List Json} {depth : Nat}
    (room : (nodeJson id kind (.array items)).depth ≤ depth) :
    ∃ rest, depth = rest + 3 ∧ ∀ item ∈ items, item.depth ≤ rest := by
  rcases room_in_node room with ⟨rest, rfl, inner⟩
  rcases Json.room_in_array inner with ⟨rest, rfl, each⟩
  exact ⟨rest, rfl, each⟩

/-- What is written of an expression is read as the expression without its ids. -/
theorem unnumbered_to_json (e : Expr) {depth : Nat} (room : e.toJson.depth ≤ depth) :
    unnumbered? depth e.toJson = some e.anonymous := by
  induction e generalizing depth with
  | var id v =>
      rcases room_in_node room with ⟨depth, rfl, inner⟩
      show (Variable.ofJson? depth v.toJson).map (var 0) = _
      rw [Variable.of_to_json inner]
      rfl
  | lit id c =>
      rcases room_in_node room with ⟨depth, rfl, inner⟩
      show (Literal.ofJson? depth c.toJson).map (lit 0) = _
      rw [Literal.of_to_json inner]
      rfl
  | unary id op e ih =>
      rcases room_in_items room with ⟨depth, rfl, inner⟩
      show (do
        return unary 0 (← UnaryOp.ofJson? depth op.toJson) (← unnumbered? depth e.toJson)) = _
      rw [op.of_to_json, ih (inner _ (by simp))]
      rfl
  | binary id op l r left right =>
      rcases room_in_items room with ⟨depth, rfl, inner⟩
      show (do
        return binary 0 (← BinaryOp.ofJson? depth op.toJson) (← unnumbered? depth l.toJson)
          (← unnumbered? depth r.toJson)) = _
      rw [op.of_to_json, left (inner _ (by simp)), right (inner _ (by simp))]
      rfl
  | ternary id c yes no condition positive negative =>
      rcases room_in_items room with ⟨depth, rfl, inner⟩
      show (do
        return ternary 0 (← unnumbered? depth c.toJson) (← unnumbered? depth yes.toJson)
          (← unnumbered? depth no.toJson)) = _
      rw [condition (inner _ (by simp)), positive (inner _ (by simp)),
        negative (inner _ (by simp))]
      rfl
  | paren id e ih =>
      rcases room_in_node room with ⟨depth, rfl, inner⟩
      show (unnumbered? depth e.toJson).map (paren 0) = _
      rw [ih inner]
      rfl
  | cast id ty e ih =>
      rcases room_in_items room with ⟨depth, rfl, inner⟩
      show (do return cast 0 (← Ty.ofJson? depth ty.toJson) (← unnumbered? depth e.toJson)) = _
      rw [Ty.of_to_json (inner _ (by simp)), ih (inner _ (by simp))]
      rfl
  | call id name ty args each =>
      rcases room_in_items room with ⟨depth, rfl, inner⟩
      rcases Json.room_in_array (inner (.array (toJsons args)) (by simp)) with ⟨depth, rfl, within⟩
      rw [to_jsons_eq_map] at within
      have read : (toJsons args).mapM (unnumbered? depth) = some (anonymousAll args) := by
        rw [to_jsons_eq_map, anonymous_all_eq_map]
        apply Json.mapM_written
        intro arg member
        exact each arg member (within _ (List.mem_map_of_mem member))
      show (do
        return call 0 name (← Ty.ofJson? (depth + 1) ty.toJson)
          (← (toJsons args).mapM (unnumbered? depth))) = _
      rw [Ty.of_to_json (inner _ (by simp)), read]
      rfl

/-- An expression is never written as the null that stands for its absence. -/
theorem to_json_object (e : Expr) : ∃ fields, e.toJson = .object fields := by
  cases e with
  | _ => exact ⟨_, rfl⟩

end Expr

namespace Statement

theorem to_json_form (s : Statement) :
    (∃ fields, s.toJson = .object fields) ∨ ∃ name, s.toJson = .text name := by
  cases s with
  | breakLoop => exact .inr ⟨_, rfl⟩
  | continueLoop => exact .inr ⟨_, rfl⟩
  | ret e => cases e <;> exact .inl ⟨_, rfl⟩
  | _ => exact .inl ⟨_, rfl⟩

theorem room_in_parts {kind : String} {parts : List (String × Json)} {depth : Nat}
    (room : (Json.tagged kind (.object parts)).depth ≤ depth) :
    ∃ rest, depth = rest + 2 ∧ ∀ part ∈ parts, part.2.depth ≤ rest := by
  rcases Json.room_in_variant room with ⟨rest, rfl, inner⟩
  rcases Json.room_in_object inner with ⟨rest, rfl, each⟩
  exact ⟨rest, rfl, each⟩

mutual

/-- What is written of a statement is read as the statement without the ids of its nodes. -/
theorem unnumbered_to_json : (s : Statement) → {depth : Nat} → s.toJson.depth ≤ depth →
    unnumbered? depth s.toJson = some s.anonymous
  | block body, depth, room => by
      rcases Json.room_in_variant room with ⟨depth, rfl, inner⟩
      rcases Json.room_in_array inner with ⟨depth, rfl, each⟩
      show ((toJsons body).mapM (unnumbered? depth)).map block = _
      rw [unnumbered_to_jsons body each]
      rfl
  | ifThen c yes, depth, room => by
      rcases room_in_parts room with ⟨depth, rfl, inner⟩
      have condition := c.unnumbered_to_json (inner ("condition", c.toJson) (by simp))
      have positive := unnumbered_to_json yes (inner ("then", yes.toJson) (by simp))
      show (do
        return ifThen (← Expr.unnumbered? depth c.toJson) (← unnumbered? depth yes.toJson)) = _
      rw [condition, positive]
      rfl
  | ifElse c yes no, depth, room => by
      rcases room_in_parts room with ⟨depth, rfl, inner⟩
      have condition := c.unnumbered_to_json (inner ("condition", c.toJson) (by simp))
      have positive := unnumbered_to_json yes (inner ("then", yes.toJson) (by simp))
      have negative := unnumbered_to_json no (inner ("else_", no.toJson) (by simp))
      have present : unnumbered? (depth + 2) (ifElse c yes no).toJson = (do
          return ifElse (← Expr.unnumbered? depth c.toJson) (← unnumbered? depth yes.toJson)
            (← unnumbered? depth no.toJson)) := by
        rw [toJson]
        rcases no.to_json_form with ⟨_, written⟩ | ⟨_, written⟩
        · rw [written]
          rfl
        · rw [written]
          rfl
      rw [present, condition, positive, negative]
      rfl
  | whileDo c body, depth, room => by
      rcases room_in_parts room with ⟨depth, rfl, inner⟩
      have condition := c.unnumbered_to_json (inner ("condition", c.toJson) (by simp))
      have repeated := unnumbered_to_json body (inner ("body", body.toJson) (by simp))
      show (do
        return whileDo (← Expr.unnumbered? depth c.toJson) (← unnumbered? depth body.toJson)) = _
      rw [condition, repeated]
      rfl
  | doWhile body c, depth, room => by
      rcases room_in_parts room with ⟨depth, rfl, inner⟩
      have repeated := unnumbered_to_json body (inner ("body", body.toJson) (by simp))
      have condition := c.unnumbered_to_json (inner ("condition", c.toJson) (by simp))
      show (do
        return doWhile (← unnumbered? depth body.toJson) (← Expr.unnumbered? depth c.toJson)) = _
      rw [repeated, condition]
      rfl
  | eval e, depth, room => by
      rcases Json.room_in_variant room with ⟨depth, rfl, inner⟩
      show (Expr.unnumbered? depth e.toJson).map eval = _
      rw [e.unnumbered_to_json inner]
      rfl
  | ret (some e), depth, room => by
      rcases Json.room_in_variant room with ⟨depth, rfl, inner⟩
      rcases e.to_json_object with ⟨fields, written⟩
      have present : unnumbered? (depth + 1) (ret (some e)).toJson
          = (Expr.unnumbered? depth e.toJson).map fun e => ret (some e) := by
        rw [toJson, written]
        rfl
      rw [present, e.unnumbered_to_json inner]
      rfl
  | ret none, depth, room => by
      rcases Json.room_in_variant room with ⟨depth, rfl, _⟩
      rfl
  | breakLoop, depth, _ => by cases depth <;> rfl
  | continueLoop, depth, _ => by cases depth <;> rfl

theorem unnumbered_to_jsons : (body : List Statement) → {depth : Nat} →
    (∀ item ∈ toJsons body, item.depth ≤ depth) →
    (toJsons body).mapM (unnumbered? depth) = some (anonymousAll body)
  | [], _, _ => rfl
  | s :: rest, depth, each => by
      rw [toJsons, List.mapM_cons, unnumbered_to_json s (each s.toJson (by simp [toJsons])),
        unnumbered_to_jsons rest fun item member => each item (by simp [toJsons, member])]
      rfl

end

end Statement

theorem Routine.unnumbered_to_json {r : Routine} {depth : Nat} (room : r.toJson.depth ≤ depth) :
    unnumbered? depth r.toJson = some r.anonymous := by
  rcases Json.room_in_object room with ⟨depth, rfl, inner⟩
  have body := r.body.unnumbered_to_json (inner ("body", r.body.toJson) (by simp))
  have address : address? (some (.option (r.address.map .natural))) = some r.address := by
    cases r.address <;> rfl
  show (do
    return Routine.mk r.name (← Statement.unnumbered? depth r.body.toJson)
      (← address? (some (.option (r.address.map .natural))))) = _
  rw [body, address]
  rfl

theorem Program.unnumbered_to_json {p : Program} {depth : Nat} (room : p.toJson.depth ≤ depth) :
    unnumbered? depth p.toJson = some p.anonymous := by
  rcases Json.room_in_object room with ⟨depth, rfl, inner⟩
  have listed := inner ("functions", .array (p.routines.map Routine.toJson)) (by simp)
  rcases Json.room_in_array listed with ⟨depth, rfl, each⟩
  have routines : (p.routines.map Routine.toJson).mapM (Routine.unnumbered? depth)
      = some (p.routines.map Routine.anonymous) := by
    apply Json.mapM_written
    intro r member
    exact r.unnumbered_to_json (each _ (List.mem_map_of_mem member))
  show ((p.routines.map Routine.toJson).mapM (Routine.unnumbered? depth)).map Program.mk = _
  rw [routines]
  rfl

namespace Strategy

mutual

theorem of_to_json : (s : Strategy) → {depth : Nat} → s.toJson.depth ≤ depth →
    ofJson? depth s.toJson = some s
  | named name, depth, room => by
      rcases Json.room_in_variant room with ⟨depth, rfl, _⟩
      rfl
  | andThen steps, depth, room => by
      rcases Json.room_in_variant room with ⟨depth, rfl, inner⟩
      rcases Json.room_in_array inner with ⟨depth, rfl, each⟩
      show ((toJsons steps).mapM (ofJson? depth)).map andThen = _
      rw [of_to_jsons steps each]
      rfl
  | orElse choices, depth, room => by
      rcases Json.room_in_variant room with ⟨depth, rfl, inner⟩
      rcases Json.room_in_array inner with ⟨depth, rfl, each⟩
      show ((toJsons choices).mapM (ofJson? depth)).map orElse = _
      rw [of_to_jsons choices each]
      rfl
  | tryFor inside milliseconds, depth, room => by
      rcases Json.room_in_variant room with ⟨depth, rfl, inner⟩
      rcases Json.room_in_array inner with ⟨depth, rfl, each⟩
      show (ofJson? depth inside.toJson).map (tryFor · milliseconds) = _
      rw [of_to_json inside (each inside.toJson (by simp))]
      rfl

theorem of_to_jsons : (all : List Strategy) → {depth : Nat} →
    (∀ item ∈ toJsons all, item.depth ≤ depth) →
    (toJsons all).mapM (ofJson? depth) = some all
  | [], _, _ => rfl
  | s :: rest, depth, each => by
      rw [toJsons, List.mapM_cons, of_to_json s (each s.toJson (by simp [toJsons])),
        of_to_jsons rest fun item member => each item (by simp [toJsons, member])]
      rfl

end

end Strategy

theorem Options.of_to_json {options : Options} {depth : Nat}
    (room : options.toJson.depth ≤ depth) : ofJson? depth options.toJson = some options := by
  rcases Json.room_in_object room with ⟨depth, rfl, inner⟩
  have strategy := options.strategy.of_to_json (inner ("tactic", _) (by simp))
  show (do
    return Options.mk options.maxIterations (← Strategy.ofJson? depth options.strategy.toJson)
      options.foldOperands) = _
  rw [strategy]
  rfl

/-- Programs come back with other ids, each of them unused before and given to one node
only; options come back as they were. -/
theorem written_values_are_read :
    (∀ (p : Program) (next : NodeId), ∃ q after, Program.read p.toJson next = some (q, after) ∧
      q.anonymous = p.anonymous ∧ (q.nodes.map Expr.id).Nodup ∧
      ∀ node ∈ q.nodes, next ≤ node.id ∧ node.id < after) ∧
    ∀ options : Options, Options.read? options.toJson = some options := by
  constructor
  · intro p next
    rcases p.anonymous.numbered_spec next with ⟨content, taken⟩
    refine ⟨_, _, ?_, content.trans p.anonymous_anonymous, taken.distinct, taken.within⟩
    show (do
      let (program, after) ← StateT.lift (Program.unnumbered? p.toJson.depth p.toJson) next
      some (program.numbered after)) = _
    rw [Program.unnumbered_to_json (Nat.le_refl p.toJson.depth)]
    rfl
  · intro options
    exact Options.of_to_json (Nat.le_refl options.toJson.depth)

end Condense
