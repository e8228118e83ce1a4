import Mathlib.Logic.Equiv.Fintype
import ScopeBlocks.Workspace.Planning
import ScopeBlocks.Workspace.Code

/-! Workspaces whose variables are called otherwise: in the list of variables, and in the field by which a
block names its variable. Nothing else in a block is touched. -/
namespace ScopeBlocks

def Field.rename (f : String → String) (x : Field) : Field := { x with text := f x.text }

namespace Block

/-- The kinds of blocks that name a variable. -/
def variableKinds : List String := ["variables_get", "variables_set", "math_change", "controls_for"]

def renameFields (f : String → String) (kind : String) (fields : Dict Field) : Dict Field :=
  if variableKinds.contains kind then
    ⟨fields.entries.map fun e => (e.1, if e.1 = "VAR" then e.2.rename f else e.2)⟩
  else fields

variable (f : String → String)

mutual

def rename : Block → Block
  | ⟨id, kind, position, disabled, fields, ⟨values⟩, ⟨statements⟩, mutation⟩ =>
    ⟨id, kind, position, disabled, renameFields f kind fields, ⟨renameSockets values⟩,
      ⟨renameChains statements⟩, mutation⟩

def renameOption : Option Block → Option Block
  | none => none
  | some b => some b.rename

def renameSockets : List (String × Socket Block) → List (String × Socket Block)
  | [] => []
  | (name, ⟨block, shadow⟩) :: rest =>
    (name, ⟨renameOption block, renameOption shadow⟩) :: renameSockets rest

def renameChains : List (String × List Block) → List (String × List Block)
  | [] => []
  | (name, chain) :: rest => (name, renameChain chain) :: renameChains rest

def renameChain : List Block → List Block
  | [] => []
  | b :: rest => b.rename :: renameChain rest

end

theorem renameOption_eq_map (o : Option Block) : renameOption f o = o.map (rename f) := by
  cases o <;> rfl

theorem renameChain_eq_map (chain : List Block) : renameChain f chain = chain.map (rename f) := by
  induction chain with
  | nil => rfl
  | cons b rest ih => rw [renameChain, List.map_cons, ih]

section

variable (b : Block)

@[simp] theorem rename_id : (b.rename f).id = b.id := by cases b; rfl
@[simp] theorem rename_kind : (b.rename f).kind = b.kind := by cases b; rfl
@[simp] theorem rename_position : (b.rename f).position = b.position := by cases b; rfl
@[simp] theorem rename_disabled : (b.rename f).disabled = b.disabled := by cases b; rfl
@[simp] theorem rename_mutation : (b.rename f).mutation = b.mutation := by cases b; rfl

@[simp] theorem rename_fields : (b.rename f).fields = renameFields f b.kind b.fields := by cases b; rfl

@[simp] theorem namesVariable_rename :
    Workspace.namesVariable (b.rename f) = Workspace.namesVariable b := by
  rw [Workspace.namesVariable, Workspace.namesVariable, rename_kind]

end

/-! Fields and sockets. -/

theorem lookup_renameSockets (values : List (String × Socket Block)) (name : String) :
    (renameSockets f values).lookup name = (values.lookup name).map fun s =>
      ⟨s.block.map (rename f), s.shadow.map (rename f)⟩ := by
  induction values with
  | nil => rfl
  | cons e rest ih =>
    obtain ⟨key, block, shadow⟩ := e
    rw [renameSockets, List.lookup_cons, List.lookup_cons, renameOption_eq_map, renameOption_eq_map, ih]
    cases name == key <;> rfl

theorem keys_renameSockets (values : List (String × Socket Block)) :
    (renameSockets f values).map Prod.fst = values.map Prod.fst := by
  induction values with
  | nil => rfl
  | cons e rest ih => rw [renameSockets, List.map_cons, List.map_cons, ih]

theorem keys_renameChains (statements : List (String × List Block)) :
    (renameChains f statements).map Prod.fst = statements.map Prod.fst := by
  induction statements with
  | nil => rfl
  | cons e rest ih => rw [renameChains, List.map_cons, List.map_cons, ih]

variable {f}

theorem get?_renameFields (kind : String) (fields : Dict Field) (name : String) :
    (renameFields f kind fields).get? name =
      if variableKinds.contains kind ∧ name = "VAR" then (fields.get? name).map (Field.rename f)
      else fields.get? name := by
  have hlookup : ∀ l : List (String × Field),
      (l.map fun e => (e.1, if e.1 = "VAR" then e.2.rename f else e.2)).lookup name =
        if name = "VAR" then (l.lookup name).map (Field.rename f) else l.lookup name := by
    intro l
    induction l with
    | nil => simp
    | cons e l ih =>
      obtain ⟨key, x⟩ := e
      rw [List.map_cons, List.lookup_cons, List.lookup_cons, ih]
      by_cases hkey : name = key
      · subst hkey
        by_cases hvar : name = "VAR" <;> simp [hvar]
      · rw [beq_false_of_ne hkey]
  unfold renameFields Dict.get?
  by_cases hkind : variableKinds.contains kind = true
  · rw [if_pos hkind, hlookup]
    simp only [hkind, true_and]
  · rw [if_neg hkind, if_neg fun h => hkind h.1]

@[simp] theorem field?_rename (b : Block) {name : String} (h : name ≠ "VAR") :
    (b.rename f).field? name = b.field? name := by
  rw [field?, field?, rename_fields, get?_renameFields, if_neg fun hv => h hv.2]

@[simp] theorem input?_rename (b : Block) (name : String) :
    (b.rename f).input? name = (b.input? name).map (rename f) := by
  obtain ⟨id, kind, position, disabled, fields, ⟨values⟩, ⟨statements⟩, mutation⟩ := b
  change ((renameSockets f values).lookup name).bind Socket.effective =
    ((values.lookup name).bind Socket.effective).map (rename f)
  rw [lookup_renameSockets]
  cases values.lookup name with
  | none => rfl
  | some s =>
    obtain ⟨block, shadow⟩ := s
    cases block <;> rfl

@[simp] theorem keys_rename (b : Block) : (b.rename f).values.keys ++ (b.rename f).statements.keys =
    b.values.keys ++ b.statements.keys := by
  obtain ⟨id, kind, position, disabled, fields, ⟨values⟩, ⟨statements⟩, mutation⟩ := b
  exact congrArg₂ (· ++ ·) (keys_renameSockets f values) (keys_renameChains f statements)

theorem lookup_renameChains (statements : List (String × List Block)) (name : String) :
    (renameChains f statements).lookup name = (statements.lookup name).map (renameChain f) := by
  induction statements with
  | nil => rfl
  | cons e rest ih =>
    obtain ⟨key, chain⟩ := e
    rw [renameChains, List.lookup_cons, List.lookup_cons, ih]
    cases name == key <;> rfl

@[simp] theorem contains_rename (b : Block) (name : String) :
    (b.rename f).statements.contains name = b.statements.contains name := by
  obtain ⟨id, kind, position, disabled, fields, ⟨values⟩, ⟨statements⟩, mutation⟩ := b
  change ((renameChains f statements).lookup name).isSome = (statements.lookup name).isSome
  rw [lookup_renameChains, Option.isSome_map]

/-! What a block says besides its variable. -/

@[simp] theorem mutationCount_rename (b : Block) (name : String) :
    (b.rename f).mutationCount name = b.mutationCount name := by
  rw [mutationCount, mutationCount, rename_mutation]

@[simp] theorem numberField_rename (b : Block) {name : String} (h : name ≠ "VAR") :
    (b.rename f).numberField name = b.numberField name := by
  rw [numberField, numberField, field?_rename b h]

@[simp] theorem knownBound?_rename (b : Block) (name : String) (default : Number) :
    (b.rename f).knownBound? name default = b.knownBound? name default := by
  rw [knownBound?, knownBound?, input?_rename]
  cases b.input? name with
  | none => rfl
  | some input =>
    simp only [Option.map_some, rename_kind, field?_rename input (show "NUM" ≠ "VAR" by decide)]

/-! The blocks in a block. -/

mutual

theorem active_rename : (b : Block) → (b.rename f).active = b.active.map (rename f)
  | ⟨id, kind, position, disabled, fields, ⟨values⟩, ⟨statements⟩, mutation⟩ => by
    rw [rename, active, active, List.map_cons, List.map_append, socketsActive_rename values,
      chainsActive_rename statements, rename]

theorem socketsActive_rename : (values : List (String × Socket Block)) →
    socketsActive (renameSockets f values) = (socketsActive values).map (rename f)
  | [] => rfl
  | (_, ⟨some b, _⟩) :: rest | (_, ⟨none, some b⟩) :: rest => by
    simp only [renameSockets, renameOption, socketsActive, List.map_append, active_rename b,
      socketsActive_rename rest]
  | (_, ⟨none, none⟩) :: rest => by
    simp only [renameSockets, renameOption, socketsActive, socketsActive_rename rest]

theorem chainsActive_rename : (statements : List (String × List Block)) →
    chainsActive (renameChains f statements) = (chainsActive statements).map (rename f)
  | [] => rfl
  | (_, chain) :: rest => by
    rw [renameChains, chainsActive, chainsActive, List.map_append, chainActive_rename chain,
      chainsActive_rename rest]

theorem chainActive_rename : (chain : List Block) →
    chainActive (renameChain f chain) = (chainActive chain).map (rename f)
  | [] => rfl
  | b :: rest => by
    rw [renameChain, chainActive, chainActive, List.map_append, active_rename b,
      chainActive_rename rest]

end

/-! Names. -/

/-- The texts by which a block names its variable. -/
def variableTexts (b : Block) : List String :=
  if variableKinds.contains b.kind then
    (b.fields.entries.filter (·.1 = "VAR")).map (·.2.text)
  else []

theorem renameFields_congr {g : String → String} {b : Block} (h : ∀ x ∈ b.variableTexts, f x = g x) :
    renameFields f b.kind b.fields = renameFields g b.kind b.fields := by
  unfold renameFields
  unfold variableTexts at h
  split
  next hkind =>
    rw [if_pos hkind] at h
    congr 1
    refine List.map_congr_left fun e he => ?_
    by_cases hvar : e.1 = "VAR"
    · have hsame : f e.2.text = g e.2.text :=
        h _ (List.mem_map.2 ⟨e, List.mem_filter.2 ⟨he, by simpa using hvar⟩, rfl⟩)
      simp only [if_pos hvar, Field.rename, hsame]
    · simp only [if_neg hvar]
  next => rfl

section

variable {g : String → String}

mutual

theorem rename_congr : (b : Block) → (∀ c ∈ b.subtree, ∀ x ∈ c.variableTexts, f x = g x) →
    b.rename f = b.rename g
  | ⟨id, kind, position, disabled, fields, ⟨values⟩, ⟨statements⟩, mutation⟩, h => by
    simp only [subtree, List.mem_cons, List.mem_append] at h
    rw [rename, rename, renameFields_congr (h _ (.inl rfl)),
      renameSockets_congr values fun c hc => h c (.inr (.inl hc)),
      renameChains_congr statements fun c hc => h c (.inr (.inr hc))]

theorem renameOption_congr : (o : Option Block) →
    (∀ c ∈ optionSubtree o, ∀ x ∈ c.variableTexts, f x = g x) → renameOption f o = renameOption g o
  | none, _ => rfl
  | some b, h => congrArg some (rename_congr b h)

theorem renameSockets_congr : (values : List (String × Socket Block)) →
    (∀ c ∈ socketsSubtree values, ∀ x ∈ c.variableTexts, f x = g x) →
    renameSockets f values = renameSockets g values
  | [], _ => rfl
  | (name, ⟨block, shadow⟩) :: rest, h => by
    simp only [socketsSubtree, List.mem_append] at h
    rw [renameSockets, renameSockets, renameOption_congr block fun c hc => h c (.inl (.inl hc)),
      renameOption_congr shadow fun c hc => h c (.inl (.inr hc)),
      renameSockets_congr rest fun c hc => h c (.inr hc)]

theorem renameChains_congr : (statements : List (String × List Block)) →
    (∀ c ∈ chainsSubtree statements, ∀ x ∈ c.variableTexts, f x = g x) →
    renameChains f statements = renameChains g statements
  | [], _ => rfl
  | (name, chain) :: rest, h => by
    simp only [chainsSubtree, List.mem_append] at h
    rw [renameChains, renameChains, renameChain_congr chain fun c hc => h c (.inl hc),
      renameChains_congr rest fun c hc => h c (.inr hc)]

theorem renameChain_congr : (chain : List Block) →
    (∀ c ∈ chainSubtree chain, ∀ x ∈ c.variableTexts, f x = g x) →
    renameChain f chain = renameChain g chain
  | [], _ => rfl
  | b :: rest, h => by
    simp only [chainSubtree, List.mem_append] at h
    rw [renameChain, renameChain, rename_congr b fun c hc => h c (.inl hc),
      renameChain_congr rest fun c hc => h c (.inr hc)]

end

end

end Block

def Variable.rename (f : String → String) (v : Variable) : Variable := { v with name := f v.name }

namespace Workspace

def rename (f : String → String) (w : Workspace) : Workspace :=
  ⟨w.vars.map (Variable.rename f), w.stackList.map (Block.renameChain f)⟩

/-- All names of variables: those that are listed, and those by which blocks name their variables. -/
def variableTexts (w : Workspace) : List String :=
  w.vars.map Variable.name ++ w.blocks.flatMap Block.variableTexts

/-- A renaming gives any two names different ones. A variable without a name stays without one. -/
structure Renaming (w : Workspace) (f : String → String) : Prop where
  nameless : f "" = ""
  named : ∀ x ∈ w.variableTexts, x ≠ "" → f x ≠ ""
  injective : ∀ x ∈ w.variableTexts, ∀ y ∈ w.variableTexts, x ≠ "" → y ≠ "" → f x = f y → x = y

variable {w : Workspace} {f g : String → String}

theorem rename_congr (h : ∀ x ∈ w.variableTexts, f x = g x) : w.rename f = w.rename g := by
  obtain ⟨vars, chains⟩ := w
  have hvars : vars.map (Variable.rename f) = vars.map (Variable.rename g) :=
    List.map_congr_left fun v hv => by
      rw [Variable.rename, Variable.rename,
        h _ (List.mem_append_left _ (List.mem_map.2 ⟨v, hv, rfl⟩))]
  have hchains : chains.map (Block.renameChain f) = chains.map (Block.renameChain g) :=
    List.map_congr_left fun stack hs => Block.renameChain_congr stack fun c hc x hx =>
      h x (List.mem_append_right _ (List.mem_flatMap.2 ⟨c, List.mem_flatMap.2 ⟨stack, hs, hc⟩, hx⟩))
  rw [rename, rename, hvars, hchains]

/-- A renaming is one by a permutation of all texts. -/
theorem Renaming.exists_perm (h : w.Renaming f) :
    ∃ g : Equiv.Perm String, g "" = "" ∧ w.rename f = w.rename g := by
  let names : List String := "" :: w.variableTexts
  have hinjective : ∀ x ∈ names, ∀ y ∈ names, f x = f y → x = y := by
    have hempty : ∀ x ∈ names, f x = "" → x = "" := by
      intro x hx hfx
      rcases List.mem_cons.1 hx with rfl | hx
      · rfl
      · exact Decidable.byContradiction fun hne => h.named x hx hne hfx
    intro x hx y hy hxy
    by_cases hx0 : x = ""
    · subst hx0
      exact (hempty y hy (by rw [← hxy, h.nameless])).symm
    · by_cases hy0 : y = ""
      · subst hy0
        exact hempty x hx (by rw [hxy, h.nameless])
      · exact h.injective x ((List.mem_cons.1 hx).resolve_left hx0) y
          ((List.mem_cons.1 hy).resolve_left hy0) hx0 hy0 hxy
  obtain ⟨g, hg⟩ := Equiv.Perm.exists_extending_pair (fun x : names.toFinset => x.1)
    (fun x : names.toFinset => f x.1) Subtype.val_injective fun x y hxy => Subtype.ext
      (hinjective _ (List.mem_toFinset.1 x.2) _ (List.mem_toFinset.1 y.2) hxy)
  have hsame : ∀ x ∈ names, g x = f x := fun x hx => hg ⟨x, List.mem_toFinset.2 hx⟩
  refine ⟨g, ?_, rename_congr fun x hx => (hsame x (List.mem_cons_of_mem _ hx)).symm⟩
  rw [hsame "" List.mem_cons_self, h.nameless]

/-! Stacks and variables of the renamed workspace. -/

theorem orderedStacks_rename : (w.rename f).orderedStacks = w.orderedStacks.map (Block.renameChain f) := by
  have hkey (stack : List Block) : stackKey (Block.renameChain f stack) = stackKey stack := by
    cases stack with
    | nil => rfl
    | cons b rest =>
      simp only [stackKey, Block.renameChain, List.head?_cons, Option.bind_some, Block.rename_position]
  have hempty (stack : List Block) : (Block.renameChain f stack).isEmpty = stack.isEmpty := by
    cases stack <;> rfl
  unfold orderedStacks rename
  rw [List.filter_map, List.map_mergeSort (s := fun a b => keyLE (stackKey a) (stackKey b))]
  · simp only [Function.comp_def, hempty]
  · intro a _ b _
    rw [hkey, hkey]

theorem nameOf?_rename (id : String) : (w.rename f).nameOf? id = (w.nameOf? id).map f := by
  unfold nameOf? rename
  rw [← List.map_reverse, List.find?_map, Option.map_map, Option.map_map]
  rfl

theorem variableOf_rename (hg : Function.Injective g) (hempty : g "" = "") {b : Block}
    (h : namesVariable b = true) : (w.rename g).variableOf (b.rename g) = g (w.variableOf b) := by
  have hkind : Block.variableKinds.contains b.kind = true := h
  have hisEmpty (x : String) : (g x).isEmpty = x.isEmpty := by
    rw [Bool.eq_iff_iff, String.isEmpty_iff, String.isEmpty_iff]
    exact ⟨fun hx => hg (hx.trans hempty.symm), fun hx => by rw [hx, hempty]⟩
  unfold variableOf
  rw [Block.rename_fields, Block.get?_renameFields, if_pos ⟨hkind, rfl⟩]
  cases b.fields.get? "VAR" with
  | none => exact hempty.symm
  | some x =>
    dsimp only [Option.map_some, Field.rename]
    rw [hisEmpty]
    split
    · cases x.id with
      | none => exact hempty.symm
      | some id =>
        rw [Option.bind_some, Option.bind_some, nameOf?_rename]
        cases w.nameOf? id with
        | none => exact hempty.symm
        | some name => rfl
    · rfl

theorem variableNames_rename (hg : Function.Injective g) (hempty : g "" = "") :
    (w.rename g).variableNames = w.variableNames.map g := by
  have hvars : (w.rename g).vars.map Variable.name = (w.vars.map Variable.name).map g := by
    rw [rename, List.map_map, List.map_map]
    rfl
  have hblocks : ((w.rename g).orderedStacks.flatMap Block.chainActive).filter namesVariable =
      ((w.orderedStacks.flatMap Block.chainActive).filter namesVariable).map (Block.rename g) := by
    rw [orderedStacks_rename, List.flatMap_map]
    simp only [Block.chainActive_rename]
    rw [← List.map_flatMap, List.filter_map]
    simp only [Function.comp_def, Block.namesVariable_rename]
  unfold variableNames
  simp only [hblocks, hvars, List.map_append, List.map_map]
  congr 1
  refine List.map_congr_left fun b hb => ?_
  exact variableOf_rename hg hempty (List.mem_filter.1 hb).2

end Workspace

end ScopeBlocks
