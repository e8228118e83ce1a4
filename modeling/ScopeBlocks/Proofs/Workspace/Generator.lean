import ScopeBlocks.Workspace.Code

/-! A generator that is used for one workspace after another. It writes the code of a workspace block by block, up to
the first one that is at fault, and keeps what it has come to till then; but nothing of it is left when it begins the
next workspace. -/
namespace ScopeBlocks

/-- How deep the lines to come stand, what has been written, the names that are taken, the variables of the workspace
and the ids of the blocks that have been marked. -/
structure Generator where
  depth : Nat
  output : String
  names : Names
  vars : List Variable
  ids : List String

/-- A part of generation. Where it fails, what it has changed stays changed. -/
abbrev Generating (α : Type) := ExceptT CompileError (StateM Generator) α

namespace Generator

open Block (Planned Inputs)
open Text (quote)

def new : Generator := ⟨0, "", .empty, [], []⟩

def margin : Nat → String
  | 0 => ""
  | depth + 1 => margin depth ++ "  "

/-- The state after some lines and the marks of some blocks. -/
def wrote (g : Generator) (code : Coding (List String)) (ids : List String) : Generator :=
  { g with
    output := g.output ++ unlines ((code.run g.names).1.map (margin g.depth ++ ·))
    names := (code.run g.names).2
    ids := g.ids ++ ids }

def lift {α : Type} (p : Planned α) : Generating α := fun g => (p, g)

def put (code : Coding (List String)) : Generating Unit := fun g => (.ok (), g.wrote code [])

def write (p : Planned (Coding (List String))) : Generating Unit := lift p >>= put

def mark (id : String) : Generating Unit :=
  fun g => (.ok (), g.wrote (return ["mark(" ++ quote id ++ ");"]) [id])

/-- A part that stands one step further in; the way back is left out where it fails. -/
def nested (m : Generating Unit) : Generating Unit := do
  modify fun g => { g with depth := g.depth + 1 }
  m
  modify fun g => { g with depth := g.depth - 1 }

/-- The kinds of blocks that have chains. -/
def chainKinds : List String :=
  ["controls_if", "controls_repeat", "controls_repeat_ext", "controls_whileUntil", "controls_for"]

/-- How the chains of a block are written, by their names. -/
abbrev Chains := List (String × Generating Unit)

def Chains.get (chains : Chains) (name : String) : Generating Unit := (chains.lookup name).getD (pure ())

def loop (head : Planned (Coding (List String))) (body : Generating Unit) : Generating Unit := do
  write head
  nested body
  put (return ["\x7d"])

def branchHead (word : String) (cond : Term) : Coding (List String) := do
  return [word ++ cond.code (← get) ++ ") \x7b"]

def branches (ins : Inputs) (chains : Chains) (word : String) : List Nat → Generating Unit
  | [] => pure ()
  | i :: rest => do
    write do return branchHead word (← ins.get s!"IF{i}" (.truth false))
    nested (chains.get s!"DO{i}")
    branches ins chains "\x7d else if (" rest

def choice (b : Block) (ins : Inputs) (chains : Chains) : Generating Unit := do
  let declared := min (b.mutationCount "elseif" + 1) (Word.limit - 1)
  let n ← lift (b.socketCount declared ["IF", "DO"])
  branches ins chains "if (" (List.range n)
  if 0 < b.mutationCount "else" ∨ b.statements.contains "ELSE" then
    put (return ["\x7d else \x7b"])
    nested (chains.get "ELSE")
  put (return ["\x7d"])

def whileHead (negated : Bool) (cond : Term) : Coding (List String) := do
  let code := cond.code (← get)
  return ["while (" ++ (if negated then "!(" ++ code ++ ")" else code) ++ ") \x7b"]

def rangeHeadOf (name : String) (bounds : Bounds) : Coding (List String) := do
  bounds.lines ((← get).identOf name)

/-- The lines of a block after its mark, those of its chains in their place. -/
def statementOf (v : Block → String) (b : Block) (ins : Inputs) (chains : Chains) : Generating Unit :=
  match b.kind with
  | "controls_if" => choice b ins chains
  | "controls_repeat" => loop (.ok (Count.lines (.fixed (b.numberField "TIMES")))) (chains.get "DO")
  | "controls_repeat_ext" => loop (do return (← b.countOf ins).lines) (chains.get "DO")
  | "controls_whileUntil" =>
    loop (do return whileHead (b.field? "MODE" = some "UNTIL") (← ins.get "BOOL" (.truth false))) (chains.get "DO")
  | "controls_for" => loop (do return rangeHeadOf (v b) (← b.boundsOf ins)) (chains.get "DO")
  | _ => write do return (← b.actionOf v ins []).lines

/-- Only a statement is marked. -/
def checkStatement (b : Block) : Planned Unit :=
  match Shape.ofKind? b.kind with
  | some .statement => .ok ()
  | some .value => .error (.misplaced b.id b.kind .asStatement)
  | none => .error b.unknown

mutual

def statement (v : Block → String) : Block → Generating Unit
  | ⟨id, kind, position, disabled, fields, values, ⟨statements⟩, mutation⟩ => do
    lift (checkStatement ⟨id, kind, position, disabled, fields, values, ⟨statements⟩, mutation⟩)
    mark id
    statementOf v ⟨id, kind, position, disabled, fields, values, ⟨statements⟩, mutation⟩
      (Block.inputs v values.entries) (chains v statements)

def chain (v : Block → String) : List Block → Generating Unit
  | [] => pure ()
  | b :: rest =>
    if b.disabled then chain v rest
    else do
      statement v b
      chain v rest

def chains (v : Block → String) : List (String × List Block) → Chains
  | [] => []
  | (name, c) :: rest => (name, chain v c) :: chains v rest

end

/-- A value that stands in a stack is written without a mark. -/
def item (v : Block → String) (b : Block) : Generating Unit :=
  if Shape.ofKind? b.kind = some .value then
    write do
      let t ← b.term v
      return do return [t.code (← get) ++ ";"]
  else statement v b

def stack (v : Block → String) : List Block → Generating Unit
  | [] => pure ()
  | b :: rest => do
    item v b
    stack v rest

def gap : Generating Unit := modify fun g => { g with output := g.output ++ "\n" }

def allStacks (v : Block → String) : List (List Block) → Generating Unit
  | [] => pure ()
  | [s] => stack v (s.filter (!·.disabled))
  | s :: next :: rest => do
    stack v (s.filter (!·.disabled))
    gap
    allStacks v (next :: rest)

/-- The name of the variable that a block gives, among the variables of the workspace. -/
def variableOf (g : Generator) : Block → String := Workspace.variableOf ⟨g.vars, []⟩

/-- Everything is cleared, the variables are declared, and then the stacks are written in running order. Code and ids
are handed over. -/
def program (w : Workspace) : Generating Compiled := do
  modify fun g => { g with depth := 0, output := "", names := .empty, vars := w.vars, ids := [] }
  modify fun g => { g with names := w.variableNames.foldl (fun n name => (n.identify name).2) g.names }
  modify fun g => { g with output := g.output ++ Workspace.header g.names }
  allStacks (← get).variableOf w.orderedStacks
  let g ← get
  set { g with output := "", ids := [] }
  return ⟨g.output, g.ids⟩

/-- What a generator makes of a workspace, and what it is left as. -/
def generate (g : Generator) (w : Workspace) : Except CompileError Compiled × Generator := (program w).run g

end Generator

end ScopeBlocks
