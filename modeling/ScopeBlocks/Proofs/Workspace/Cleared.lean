import ScopeBlocks.Proofs.Workspace.Enabled

/-! Clearing workspaces of disabled blocks, one at a time. What runs stays the same. -/
namespace ScopeBlocks

/-- A place for a block in a socket, with what else the socket holds. -/
inductive Hole where
  | plugged (under : Option Block)
  | shadow (above : Option Block)

def Hole.fill : Hole → Block → Socket Block
  | plugged under, b => ⟨some b, under⟩
  | shadow above, b => ⟨above, some b⟩

namespace Block

/-- A block with one disabled block in it cleared: a statement is left out of its chain, and so is a shadow under
another block; any other block in a socket is enabled, since it supplies its value as it is. -/
inductive Clears : Block → Block → Prop
  | statement {b d : Block} {name : String} {before after : List Block} {l₁ l₂ : List (String × List Block)}
      (hb : b.statements = ⟨l₁ ++ (name, before ++ d :: after) :: l₂⟩) (hd : d.disabled = true) :
      Clears b { b with statements := ⟨l₁ ++ (name, before ++ after) :: l₂⟩ }
  | inStatement {b c c' : Block} {name : String} {before after : List Block}
      {l₁ l₂ : List (String × List Block)}
      (hb : b.statements = ⟨l₁ ++ (name, before ++ c :: after) :: l₂⟩) (hc : c.Clears c') :
      Clears b { b with statements := ⟨l₁ ++ (name, before ++ c' :: after) :: l₂⟩ }
  | hidden {b c d : Block} {name : String} {l₁ l₂ : List (String × Socket Block)}
      (hb : b.values = ⟨l₁ ++ (name, ⟨some c, some d⟩) :: l₂⟩) (hd : d.disabled = true) :
      Clears b { b with values := ⟨l₁ ++ (name, ⟨some c, none⟩) :: l₂⟩ }
  | value {b d : Block} {name : String} (hole : Hole) {l₁ l₂ : List (String × Socket Block)}
      (hb : b.values = ⟨l₁ ++ (name, hole.fill d) :: l₂⟩) (hd : d.disabled = true) :
      Clears b { b with values := ⟨l₁ ++ (name, hole.fill { d with disabled := false }) :: l₂⟩ }
  | inValue {b c c' : Block} {name : String} (hole : Hole) {l₁ l₂ : List (String × Socket Block)}
      (hb : b.values = ⟨l₁ ++ (name, hole.fill c) :: l₂⟩) (hc : c.Clears c') :
      Clears b { b with values := ⟨l₁ ++ (name, hole.fill c') :: l₂⟩ }

theorem enabledChains_append (l₁ l₂ : List (String × List Block)) :
    enabledChains (l₁ ++ l₂) = enabledChains l₁ ++ enabledChains l₂ := by
  induction l₁ with
  | nil => rfl
  | cons e l₁ ih => exact congrArg (_ :: ·) ih

theorem enabledSockets_cons (name : String) (s : Socket Block) (rest : List (String × Socket Block)) :
    enabledSockets ((name, s) :: rest) = (name, ⟨s.effective.map enabled, none⟩) :: enabledSockets rest := by
  obtain ⟨block, shadow⟩ := s
  cases block <;> cases shadow <;> rfl

theorem enabledSockets_append (l₁ l₂ : List (String × Socket Block)) :
    enabledSockets (l₁ ++ l₂) = enabledSockets l₁ ++ enabledSockets l₂ := by
  induction l₁ with
  | nil => rfl
  | cons e l₁ ih =>
    rw [List.cons_append, enabledSockets_cons, enabledSockets_cons, ih, List.cons_append]

theorem enabled_eq_of_statements {b : Block} {chains : List (String × List Block)}
    (h : enabledChains chains = enabledChains b.statements.entries) :
    ({ b with statements := ⟨chains⟩ } : Block).enabled = b.enabled := by
  obtain ⟨id, kind, position, disabled, fields, ⟨values⟩, ⟨statements⟩, mutation⟩ := b
  rw [enabled, enabled, h]

theorem enabled_eq_of_values {b : Block} {sockets : List (String × Socket Block)}
    (h : enabledSockets sockets = enabledSockets b.values.entries) :
    ({ b with values := ⟨sockets⟩ } : Block).enabled = b.enabled := by
  obtain ⟨id, kind, position, disabled, fields, ⟨values⟩, ⟨statements⟩, mutation⟩ := b
  rw [enabled, enabled, h]

theorem effective_fill {c c' : Block} (h : c'.enabled = c.enabled) (hole : Hole) :
    (hole.fill c').effective.map enabled = (hole.fill c).effective.map enabled := by
  cases hole with
  | plugged under => exact congrArg some h
  | shadow above => cases above <;> simp [Hole.fill, Socket.effective, h]

theorem enabled_disable (b : Block) (disabled : Bool) : ({ b with disabled } : Block).enabled = b.enabled := by
  cases b; rfl

theorem enabled_reposition (b : Block) (position : Option (Int × Int)) :
    ({ b with position } : Block).enabled = b.enabled := by
  cases b; rfl

theorem enabledChain_leave {d : Block} (hd : d.disabled = true) (before after : List Block) :
    enabledChain (before ++ d :: after) = enabledChain (before ++ after) := by
  rw [enabledChain_append, enabledChain_append, enabledChain, if_pos hd]

theorem Clears.disabled {b b' : Block} (h : b.Clears b') : b'.disabled = b.disabled := by
  cases h <;> rfl

theorem Clears.position {b b' : Block} (h : b.Clears b') : b'.position = b.position := by
  cases h <;> rfl

theorem enabledChain_inside {c c' : Block} (hdisabled : c'.disabled = c.disabled)
    (h : c'.enabled = c.enabled) (before after : List Block) :
    enabledChain (before ++ c' :: after) = enabledChain (before ++ c :: after) := by
  rw [enabledChain_append, enabledChain_append, enabledChain, enabledChain, hdisabled, h]

theorem Clears.enabled {b b' : Block} (h : b.Clears b') : b'.enabled = b.enabled := by
  induction h with
  | statement hb hd =>
    refine enabled_eq_of_statements ?_
    rw [hb, enabledChains_append, enabledChains_append, enabledChains, enabledChains,
      enabledChain_leave hd]
  | inStatement hb hc ih =>
    refine enabled_eq_of_statements ?_
    rw [hb, enabledChains_append, enabledChains_append, enabledChains, enabledChains,
      enabledChain_inside hc.disabled ih]
  | hidden hb hd =>
    refine enabled_eq_of_values ?_
    rw [hb, enabledSockets_append, enabledSockets_append, enabledSockets_cons, enabledSockets_cons]
    rfl
  | value hole hb hd =>
    refine enabled_eq_of_values ?_
    rw [hb, enabledSockets_append, enabledSockets_append, enabledSockets_cons, enabledSockets_cons,
      effective_fill (enabled_disable _ _)]
  | inValue hole hb hc ih =>
    refine enabled_eq_of_values ?_
    rw [hb, enabledSockets_append, enabledSockets_append, enabledSockets_cons, enabledSockets_cons,
      effective_fill ih]

/-- A chain whose first block stands at a place. -/
def standingAt (position : Option (Int × Int)) : List Block → List Block
  | [] => []
  | b :: rest => { b with position } :: rest

theorem enabledChain_standingAt (position : Option (Int × Int)) (bs : List Block) :
    enabledChain (standingAt position bs) = enabledChain bs := by
  cases bs with
  | nil => rfl
  | cons b rest => rw [standingAt, enabledChain, enabledChain, enabled_reposition]

end Block

namespace Workspace

/-- A workspace with one disabled block cleared. A stack stays at its place when its first block goes, and one
that has no blocks left may go as well. -/
inductive Clears : Workspace → Workspace → Prop
  | statement {vars : List Variable} {l₁ l₂ : List (List Block)} {d : Block} {before after : List Block}
      (hd : d.disabled = true) : Clears ⟨vars, l₁ ++ (before ++ d :: after) :: l₂⟩
        ⟨vars, l₁ ++ Block.standingAt ((before ++ d :: after).head?.bind Block.position) (before ++ after) :: l₂⟩
  | inStatement {vars : List Variable} {l₁ l₂ : List (List Block)} {c c' : Block} {before after : List Block}
      (hc : c.Clears c') :
      Clears ⟨vars, l₁ ++ (before ++ c :: after) :: l₂⟩ ⟨vars, l₁ ++ (before ++ c' :: after) :: l₂⟩
  | stack {vars : List Variable} {l₁ l₂ : List (List Block)} :
      Clears ⟨vars, l₁ ++ [] :: l₂⟩ ⟨vars, l₁ ++ l₂⟩

variable {w w' : Workspace}

theorem stackKey_standingAt (position : Option (Int × Int)) {bs : List Block} (h : bs ≠ []) :
    stackKey (Block.standingAt position bs) =
      match position with
      | some (x, y) => (0, y, x)
      | none => (1, 0, 0) := by
  cases bs with
  | nil => exact absurd rfl h
  | cons b rest => rfl

theorem places_eq_of_stack {vars : List Variable} {l₁ l₂ : List (List Block)} {stack stack' : List Block}
    (hchain : Block.enabledChain stack' = Block.enabledChain stack)
    (hkey : Block.enabledChain stack ≠ [] → stackKey stack' = stackKey stack) :
    (⟨vars, l₁ ++ stack' :: l₂⟩ : Workspace).running = (⟨vars, l₁ ++ stack :: l₂⟩ : Workspace).running := by
  have hplaces : places (l₁ ++ stack' :: l₂) = places (l₁ ++ stack :: l₂) := by
    rw [places_append, places_append]
    congr 1
    cases hempty : Block.enabledChain stack with
    | nil => simp [places, hchain, hempty]
    | cons b rest =>
      simp only [places, List.map_cons, hchain, hkey (by rw [hempty]; exact List.cons_ne_nil _ _)]
  rw [running_eq, running_eq, hplaces]

theorem Clears.vars (h : w.Clears w') : w'.vars = w.vars := by
  cases h <;> rfl

/-- The same blocks run, in the same order. -/
theorem Clears.running (h : w.Clears w') : w'.running = w.running := by
  cases h with
  | @statement vars l₁ l₂ d before after hd =>
    refine places_eq_of_stack ?_ fun hne => ?_
    · rw [Block.enabledChain_standingAt, Block.enabledChain_leave hd]
    · have hleft : before ++ after ≠ [] := by
        intro hempty
        rw [Block.enabledChain_leave hd, hempty] at hne
        exact hne rfl
      rw [stackKey_standingAt _ hleft]
      rfl
  | @inStatement vars l₁ l₂ c c' before after hc =>
    refine places_eq_of_stack (Block.enabledChain_inside hc.disabled hc.enabled _ _) fun _ => ?_
    cases before <;> simp [stackKey, hc.position]
  | @stack vars l₁ l₂ =>
    rw [running_eq, running_eq, places_append, places_append]
    rfl

theorem variableOf_eq (h : w'.vars = w.vars) : w'.variableOf = w.variableOf := by
  unfold variableOf nameOf?
  rw [h]

/-- However many disabled blocks are cleared, the plan is the same, but for the stacks in which it is cut. -/
theorem plan_cleared (h : Relation.ReflTransGen Clears w w') :
    w'.running = w.running ∧ w'.vars = w.vars := by
  induction h with
  | refl => exact ⟨rfl, rfl⟩
  | tail _ hstep ih => exact ⟨hstep.running.trans ih.1, hstep.vars.trans ih.2⟩

end Workspace

end ScopeBlocks
