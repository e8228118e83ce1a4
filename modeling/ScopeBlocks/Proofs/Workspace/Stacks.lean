import ScopeBlocks.Workspace.Block

/-! The blocks in stacks, and the stacks that run. -/
namespace ScopeBlocks

theorem Block.mem_chainSubtree {b c : Block} {bs : List Block} (hb : b ∈ bs) (hc : c ∈ b.subtree) :
    c ∈ chainSubtree bs := by
  induction bs with
  | nil => cases hb
  | cons a rest ih =>
    rw [chainSubtree]
    rcases List.mem_cons.1 hb with rfl | hb
    · exact List.mem_append_left _ hc
    · exact List.mem_append_right _ (ih hb)

namespace Workspace

variable {w : Workspace} {stack : List Block}

theorem mem_stackList (h : stack ∈ w.orderedStacks) : stack ∈ w.stackList :=
  (List.mem_filter.1 ((List.mergeSort_perm _ _).mem_iff.1 h)).1

theorem mem_blocks (h : stack ∈ w.orderedStacks) {b c : Block} (hb : b ∈ stack) (hc : c ∈ b.subtree) :
    c ∈ w.blocks :=
  List.mem_flatMap.2 ⟨stack, mem_stackList h, Block.mem_chainSubtree hb hc⟩

theorem orderedStacks_single (vars : List Variable) (b : Block) :
    (⟨vars, [[b]]⟩ : Workspace).orderedStacks = [[b]] := by simp [orderedStacks]

end Workspace

end ScopeBlocks
