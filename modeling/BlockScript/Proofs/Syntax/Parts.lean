import BlockScript.Syntax

/-!
# Statements inside statements

The statements that a statement is made of, directly (`Statement.parts`) or at any depth
(`Node.nodes`).  A node is a statement together with the way to it, which tells it from other
statements that are written alike.
-/

namespace BlockScript

namespace Statement

/-- The statements that a statement is directly made of, in the order of the text. -/
def parts : Statement → List Statement
  | .block body => body
  | .branch _ thenBranch elseBranch => thenBranch :: elseBranch.toList
  | .loop _ body => [body]
  | _ => []

theorem sizeOf_lt_of_mem_parts {part whole : Statement} (member : part ∈ whole.parts) :
    sizeOf part < sizeOf whole := by
  cases whole with
  | block body =>
    have smaller : sizeOf part < sizeOf body := List.sizeOf_lt_of_mem member
    simp only [block.sizeOf_spec]
    omega
  | branch condition thenBranch elseBranch =>
    simp only [branch.sizeOf_spec]
    rcases List.mem_cons.mp member with rfl | inElse
    · omega
    · obtain rfl := Option.mem_toList.mp inElse
      simp only [Option.some.sizeOf_spec]
      omega
  | loop condition body =>
    obtain rfl := List.mem_singleton.mp member
    simp only [loop.sizeOf_spec]
    omega
  | expression | declare | setBlock => cases member

end Statement

/-! ### Nodes -/

/-- A statement of a program and the way to it: its place among the statements of the program or of
the innermost statement around it, behind the way to that one. -/
structure Node where
  way : List Nat
  statement : Statement

namespace Node

/-- Statements in order as nodes behind a way, with their places counted on from the first one. -/
def listed (way : List Nat) (place : Nat) : List Statement → List Node
  | [] => []
  | statement :: rest => ⟨way ++ [place], statement⟩ :: listed way (place + 1) rest

/-- The nodes right inside a node. -/
def parts (node : Node) : List Node :=
  listed node.way 0 node.statement.parts

theorem map_statement_listed (way : List Nat) (place : Nat) (statements : List Statement) :
    (listed way place statements).map Node.statement = statements := by
  induction statements generalizing place with
  | nil => rfl
  | cons statement rest ih => rw [listed, List.map_cons, ih]

theorem map_statement_parts (node : Node) : node.parts.map Node.statement = node.statement.parts :=
  map_statement_listed _ _ _

theorem sizeOf_lt_of_mem_parts {part whole : Node} (member : part ∈ whole.parts) :
    sizeOf part.statement < sizeOf whole.statement := by
  refine Statement.sizeOf_lt_of_mem_parts ?_
  rw [← map_statement_parts]
  exact List.mem_map_of_mem member

/-- A node and all nodes inside it, in the order of the text. -/
def nodes (node : Node) : List Node :=
  node :: node.parts.attach.flatMap fun part => nodes part.1
termination_by sizeOf node.statement
decreasing_by exact sizeOf_lt_of_mem_parts part.2

theorem nodes_eq (node : Node) : node.nodes = node :: node.parts.flatMap nodes := by
  rw [nodes, List.flatMap_subtype, List.unattach_attach]
  intro part member
  rfl

theorem mem_nodes_self (node : Node) : node ∈ node.nodes := by
  rw [nodes_eq]
  exact List.mem_cons_self

/-- What is right inside a node is inside whatever the node is in. -/
theorem mem_nodes_of_mem_parts {whole node part : Node} (inside : node ∈ whole.nodes)
    (isPart : part ∈ node.parts) : part ∈ whole.nodes := by
  induction whole using nodes.induct with
  | case1 whole ih =>
    rw [nodes_eq] at inside ⊢
    refine List.mem_cons_of_mem _ (List.mem_flatMap.mpr ?_)
    rcases List.mem_cons.mp inside with rfl | deeper
    · exact ⟨part, isPart, part.mem_nodes_self⟩
    · obtain ⟨other, isOther, inOther⟩ := List.mem_flatMap.mp deeper
      exact ⟨other, isOther, ih ⟨other, isOther⟩ inOther⟩

/-- The way to the nodes of a list leads through the list, by the place of a statement in it. -/
theorem way_of_mem_listed {way : List Nat} {place : Nat} {statements : List Statement} {node : Node}
    (member : node ∈ listed way place statements) :
    ∃ here, place ≤ here ∧ node.way = way ++ [here] := by
  induction statements generalizing place with
  | nil => cases member
  | cons statement rest ih =>
    rcases List.mem_cons.mp member with rfl | later
    · exact ⟨place, Nat.le_refl _, rfl⟩
    · obtain ⟨here, le, same⟩ := ih later
      exact ⟨here, Nat.le_of_succ_le le, same⟩

/-- The way to what is inside a node begins with the way to the node. -/
theorem way_of_mem_nodes {node other : Node} (member : other ∈ node.nodes) :
    node.way <+: other.way := by
  induction node using nodes.induct with
  | case1 node ih =>
    rw [nodes_eq] at member
    rcases List.mem_cons.mp member with rfl | inside
    · exact List.prefix_rfl
    · obtain ⟨part, isPart, inPart⟩ := List.mem_flatMap.mp inside
      obtain ⟨here, _, same⟩ := way_of_mem_listed isPart
      exact (same ▸ List.prefix_append _ _).trans (ih ⟨part, isPart⟩ inPart)

/-- Behind the way to a list comes the place in the list, for all nodes inside its statements. -/
theorem place_of_mem_listed {way : List Nat} {place : Nat} {statements : List Statement}
    {node : Node} (member : node ∈ (listed way place statements).flatMap nodes) :
    ∃ here, place ≤ here ∧ node.way[way.length]? = some here := by
  obtain ⟨whole, listed, inside⟩ := List.mem_flatMap.mp member
  obtain ⟨here, le, same⟩ := way_of_mem_listed listed
  obtain ⟨rest, way_eq⟩ := way_of_mem_nodes inside
  refine ⟨here, le, ?_⟩
  rw [← way_eq, same]
  simp

theorem nodup_listed {way : List Nat} {place : Nat} {statements : List Statement}
    (nodup : ∀ node ∈ listed way place statements, node.nodes.Nodup) :
    ((listed way place statements).flatMap nodes).Nodup := by
  induction statements generalizing place with
  | nil => exact List.nodup_nil
  | cons statement rest ih =>
    rw [listed, List.flatMap_cons]
    have others := ih fun node member => nodup node (List.mem_cons_of_mem _ member)
    refine List.nodup_append.mpr ⟨nodup _ List.mem_cons_self, others, ?_⟩
    -- What is inside the first statement and what is inside a later one part at this list.
    rintro node inFirst _ inRest rfl
    obtain ⟨tail, first⟩ := way_of_mem_nodes inFirst
    obtain ⟨here, later, same⟩ := place_of_mem_listed inRest
    rw [← first] at same
    simp at same
    omega

theorem nodup_nodes (node : Node) : node.nodes.Nodup := by
  induction node using nodes.induct with
  | case1 node ih =>
    rw [nodes_eq, List.nodup_cons]
    refine ⟨?_, nodup_listed fun part member => ih ⟨part, member⟩⟩
    intro inside
    obtain ⟨here, _, same⟩ := place_of_mem_listed inside
    simp at same

end Node

/-- All statements of a program, in the order of the text. -/
def Program.nodes (program : Program) : List Node :=
  (Node.listed [] 0 program.statements).flatMap Node.nodes

/-- The statements of a program, and those inside them at any depth. -/
def Program.inside (program : Program) : List Statement :=
  program.nodes.map Node.statement

theorem Program.mem_inside_of_mem {program : Program} {statement : Statement}
    (member : statement ∈ program.statements) : statement ∈ program.inside := by
  rw [← Node.map_statement_listed [] 0 program.statements] at member
  obtain ⟨node, listed, rfl⟩ := List.mem_map.mp member
  exact List.mem_map_of_mem (List.mem_flatMap.mpr ⟨node, listed, node.mem_nodes_self⟩)

/-- The parts of what is inside a program are inside it as well. -/
theorem Program.mem_inside_of_mem_parts {program : Program} {statement part : Statement}
    (inside : statement ∈ program.inside) (isPart : part ∈ statement.parts) :
    part ∈ program.inside := by
  obtain ⟨node, member, rfl⟩ := List.mem_map.mp inside
  obtain ⟨whole, listed, inWhole⟩ := List.mem_flatMap.mp member
  rw [← Node.map_statement_parts] at isPart
  obtain ⟨piece, isPiece, rfl⟩ := List.mem_map.mp isPart
  exact List.mem_map_of_mem
    (List.mem_flatMap.mpr ⟨whole, listed, Node.mem_nodes_of_mem_parts inWhole isPiece⟩)

theorem Program.nodup_nodes (program : Program) : program.nodes.Nodup :=
  Node.nodup_listed fun node _ => node.nodup_nodes

end BlockScript
