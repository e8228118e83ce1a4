import ScopeBlocks.Workspace.Export

/-! Workspaces without their empty stacks and empty chains, at any depth. They are what a document tells of
a workspace: a workspace is written as its pruned one is. -/
namespace ScopeBlocks

namespace Block

mutual

def pruned : Block → Block
  | ⟨id, kind, position, disabled, fields, ⟨values⟩, ⟨statements⟩, mutation⟩ =>
    ⟨id, kind, position, disabled, fields, ⟨prunedSockets values⟩, ⟨prunedChains statements⟩, mutation⟩

def prunedOption : Option Block → Option Block
  | none => none
  | some b => some b.pruned

def prunedSockets : List (String × Socket Block) → List (String × Socket Block)
  | [] => []
  | (name, ⟨block, shadow⟩) :: rest =>
    (name, ⟨prunedOption block, prunedOption shadow⟩) :: prunedSockets rest

def prunedChains : List (String × List Block) → List (String × List Block)
  | [] => []
  | (name, chain) :: rest =>
    if chain.isEmpty then prunedChains rest else (name, prunedChain chain) :: prunedChains rest

def prunedChain : List Block → List Block
  | [] => []
  | b :: rest => b.pruned :: prunedChain rest

end

theorem prunedChain_eq_map (chain : List Block) : prunedChain chain = chain.map pruned := by
  induction chain with
  | nil => rfl
  | cons b rest ih => rw [prunedChain, List.map_cons, ih]

theorem isEmpty_prunedChain (chain : List Block) : (prunedChain chain).isEmpty = chain.isEmpty := by
  cases chain <;> rfl

theorem prunedSockets_eq_map (values : List (String × Socket Block)) : prunedSockets values =
    values.map fun e => (e.1, ⟨prunedOption e.2.block, prunedOption e.2.shadow⟩) := by
  induction values with
  | nil => rfl
  | cons e rest ih =>
    obtain ⟨name, block, shadow⟩ := e
    rw [prunedSockets, List.map_cons, ih]

theorem prunedChains_eq_map (statements : List (String × List Block)) : prunedChains statements =
    (statements.filter (!·.2.isEmpty)).map fun e => (e.1, e.2.map pruned) := by
  induction statements with
  | nil => rfl
  | cons e rest ih =>
    obtain ⟨name, chain⟩ := e
    cases chain with
    | nil => simpa [prunedChains] using ih
    | cons b chain => simp [prunedChains, prunedChain_eq_map, ih]

mutual

/-- Empty chains leave no trace in a document. -/
theorem node_pruned (tag : String) (next : List Xml.Node) :
    (b : Block) → node tag next b.pruned = node tag next b
  | ⟨id, kind, position, disabled, fields, ⟨values⟩, ⟨statements⟩, mutation⟩ => by
    simp only [pruned, node, valueNodes_pruned values, statementNodes_pruned statements]
    rfl

theorem optionNodes_pruned (tag : String) :
    (b : Option Block) → optionNodes tag (prunedOption b) = optionNodes tag b
  | none => rfl
  | some b => by rw [prunedOption, optionNodes, optionNodes, node_pruned tag [] b]

theorem valueNodes_pruned : (values : List (String × Socket Block)) →
    valueNodes (prunedSockets values) = valueNodes values
  | [] => rfl
  | (name, ⟨block, shadow⟩) :: rest => by
    rw [prunedSockets, valueNodes, valueNodes, optionNodes_pruned "shadow" shadow,
      optionNodes_pruned "block" block, valueNodes_pruned rest]

theorem statementNodes_pruned : (statements : List (String × List Block)) →
    statementNodes (prunedChains statements) = statementNodes statements
  | [] => rfl
  | (name, chain) :: rest => by
    rw [prunedChains, statementNodes]
    split
    next => exact statementNodes_pruned rest
    next h =>
      rw [statementNodes, isEmpty_prunedChain, if_neg h, chainNodes_pruned chain,
        statementNodes_pruned rest]

theorem chainNodes_pruned : (chain : List Block) → chainNodes (prunedChain chain) = chainNodes chain
  | [] => rfl
  | b :: rest => by
    rw [prunedChain, chainNodes, chainNodes, isEmpty_prunedChain, chainNodes_pruned rest,
      node_pruned "block" _ b]

end

end Block

namespace Workspace

def pruned (w : Workspace) : Workspace :=
  ⟨w.vars, (w.stackList.filter (!·.isEmpty)).map (·.map Block.pruned)⟩

theorem toXml_pruned (w : Workspace) : w.pruned.toXml = w.toXml := by
  have hstacks : w.pruned.stackList.flatMap Block.chainNodes =
      w.stackList.flatMap Block.chainNodes := by
    change ((w.stackList.filter _).map _).flatMap _ = _
    generalize w.stackList = chains
    induction chains with
    | nil => rfl
    | cons chain chains ih =>
      cases chain with
      | nil => simpa [Block.chainNodes] using ih
      | cons b chain =>
        have hchain := Block.chainNodes_pruned (b :: chain)
        rw [Block.prunedChain_eq_map, List.map_cons] at hchain
        simpa [hchain] using ih
  rw [toXml, toXml, node, node, hstacks]
  rfl

end Workspace

end ScopeBlocks
