import ScopeBlocks.Workspace.Code

/-! Faults of workspaces. Its blocks are visited in the order in which code is generated for them, each block before
those in the sockets and chains that its kind reads. The first of them that is at fault is the reason why there is no
code; if none is, there is code. -/
namespace ScopeBlocks

namespace Block

/-! Sockets with numbers. -/

/-- A text without a plus sign before it. -/
def unsigned : List Char → List Char
  | '+' :: rest => rest
  | text => text

/-- The number in a text of digits, which may have a plus sign before them. -/
def numberIn? (text : List Char) : Option Nat :=
  if unsigned text ≠ [] ∧ (unsigned text).all Char.isDigit then some (Decimal.ofDigits (unsigned text)) else none

/-- The number that a key gives after one of some words, however large. -/
def socketNumber? (words : List String) (key : String) : Option Nat :=
  (words.findSome? fun w => if w.toList.isPrefixOf key.toList then
    some (key.toList.drop w.length) else none).bind numberIn?

/-- As many numbered sockets as are declared, or as the highest present one below a limit needs. -/
def numbered (limit : Nat) (b : Block) (declared : Nat) (words : List String) : Nat :=
  let present := ((b.values.keys ++ b.statements.keys).filterMap (socketNumber? words)).filter (· < limit)
  present.foldl (fun n i => max n (i + 1)) declared

/-- The number of numbered sockets of a choice, each with its condition and its chain, or of a joined text. -/
def numberedSockets (limit : Nat) (b : Block) : Nat :=
  if b.kind = "controls_if" then b.numbered limit (b.mutationCount "elseif" + 1) ["IF", "DO"]
  else if b.kind = "text_join" then b.numbered limit (b.mutationCount "items") ["ADD"]
  else 0

/-! Visits. -/

/-- Where a visited block stands: in a stack, in a chain of another block or in one of its sockets. -/
inductive Standing where
  | stacked | chained | plugged
  deriving DecidableEq, Repr

structure Visit where
  standing : Standing
  block : Block

/-- What a block reads: the value in a socket or the statements in a chain. -/
inductive Part where
  | socket (name : String)
  | chain (name : String)

/-- What a block reads by its kind, in order. -/
def parts (limit : Nat) (b : Block) : List Part :=
  match b.kind with
  | "move_stage" => [.socket "steps"]
  | "move_stage_3d" => [.socket "x_steps", .socket "y_steps", .socket "z_steps"]
  | "text_print" | "text_prompt_ext" => [.socket "TEXT"]
  | "variables_set" => [.socket "VALUE"]
  | "math_change" => [.socket "DELTA"]
  | "controls_if" =>
    (List.range (b.numberedSockets limit)).flatMap (fun i => [.socket s!"IF{i}", .chain s!"DO{i}"]) ++ [.chain "ELSE"]
  | "controls_repeat" => [.chain "DO"]
  | "controls_repeat_ext" => [.socket "TIMES", .chain "DO"]
  | "controls_whileUntil" => [.socket "BOOL", .chain "DO"]
  | "controls_for" => [.socket "FROM", .socket "TO", .socket "BY", .chain "DO"]
  | "math_arithmetic" | "logic_compare" | "logic_operation" => [.socket "A", .socket "B"]
  | "math_modulo" => [.socket "DIVIDEND", .socket "DIVISOR"]
  | "logic_negate" => [.socket "BOOL"]
  | "text_join" => (List.range (b.numberedSockets limit)).map fun i => .socket s!"ADD{i}"
  | _ => []

/-- The visits of a part, given those of sockets and of chains by their names. -/
def Part.among (sockets chains : List (String × List Visit)) : Part → List Visit
  | .socket name => (sockets.lookup name).getD []
  | .chain name => (chains.lookup name).getD []

section

variable (limit : Nat)

mutual

/-- A block and the blocks in what it reads: the effective blocks of sockets and the enabled blocks of chains. -/
def visits (standing : Standing) : Block → List Visit
  | ⟨id, kind, position, disabled, fields, ⟨values⟩, ⟨statements⟩, mutation⟩ =>
    ⟨standing, ⟨id, kind, position, disabled, fields, ⟨values⟩, ⟨statements⟩, mutation⟩⟩ ::
      (parts limit ⟨id, kind, position, disabled, fields, ⟨values⟩, ⟨statements⟩, mutation⟩).flatMap
        (Part.among (socketVisits values) (chainVisits statements))

def socketVisits : List (String × Socket Block) → List (String × List Visit)
  | [] => []
  | (name, ⟨some b, _⟩) :: rest => (name, visits .plugged b) :: socketVisits rest
  | (name, ⟨none, some b⟩) :: rest => (name, visits .plugged b) :: socketVisits rest
  | (name, ⟨none, none⟩) :: rest => (name, []) :: socketVisits rest

def chainVisits : List (String × List Block) → List (String × List Visit)
  | [] => []
  | (name, c) :: rest => (name, visitsAll c) :: chainVisits rest

def visitsAll : List Block → List Visit
  | [] => []
  | b :: rest => if b.disabled then visitsAll rest else visits .chained b ++ visitsAll rest

end

def partVisits (b : Block) : Part → List Visit :=
  Part.among (socketVisits limit b.values.entries) (chainVisits limit b.statements.entries)

theorem visits_eq (standing : Standing) (b : Block) :
    b.visits limit standing = ⟨standing, b⟩ :: (b.parts limit).flatMap (b.partVisits limit) := by
  obtain ⟨id, kind, position, disabled, fields, ⟨values⟩, ⟨statements⟩, mutation⟩ := b
  rw [visits]
  rfl

/-! Faults. -/

/-- The operator of an arithmetic block that is none of the four. -/
def badOperator? (b : Block) : Option String :=
  if b.kind = "math_arithmetic" then
    (b.field? "OP").filter fun op => op ∉ ["ADD", "MINUS", "MULTIPLY", "DIVIDE"]
  else none

/-- What is wrong with a block that stands where it may. -/
def ownFault? (b : Block) : Option CompileError :=
  match b.badOperator? with
  | some op => some (.unsupportedOperator b.id op)
  | none =>
    let n := b.numberedSockets limit
    if maxSockets < n then some (.tooManySockets b.id (min n (Word.limit - 1))) else none

/-- What is wrong with a visited block: it may be unknown, out of place, or at fault by itself. -/
def Visit.fault? (v : Visit) : Option CompileError :=
  match Shape.ofKind? v.block.kind with
  | none => some (.unknownBlock v.block.id v.block.kind)
  | some .value =>
    if v.standing = .chained then some (.misplaced v.block.id v.block.kind .asStatement) else v.block.ownFault? limit
  | some .statement =>
    if v.standing = .plugged then some (.misplaced v.block.id v.block.kind .asValue) else v.block.ownFault? limit

end

end Block

/-- The blocks of a workspace for which code is generated, in order. -/
def Workspace.visits (limit : Nat) (w : Workspace) : List Block.Visit :=
  w.orderedStacks.flatMap fun stack => (stack.filter (!·.disabled)).flatMap (Block.visits limit .stacked)

namespace Block

theorem readWord?_eq (text : List Char) : readWord? text = (numberIn? text).filter (· < Word.limit) := by
  change (if unsigned text ≠ [] ∧ (unsigned text).all Char.isDigit ∧
    Decimal.ofDigits (unsigned text) < Word.limit then some (Decimal.ofDigits (unsigned text)) else none) = _
  rw [numberIn?]
  by_cases hdigits : unsigned text ≠ [] ∧ (unsigned text).all Char.isDigit = true
  · rw [if_pos hdigits]
    by_cases hlt : Decimal.ofDigits (unsigned text) < Word.limit
    · rw [if_pos ⟨hdigits.1, hdigits.2, hlt⟩, Option.filter_some_pos (by simpa using hlt)]
    · rw [if_neg fun h => hlt h.2.2, Option.filter_some_neg (by simpa using hlt)]
  · rw [if_neg hdigits, if_neg fun h => hdigits ⟨h.1, h.2.1⟩]
    rfl

theorem socketIndex?_eq (words : List String) (key : String) :
    socketIndex? words key = (socketNumber? words key).filter (· < Word.limit) := by
  unfold socketIndex? socketNumber?
  cases words.findSome? _ with
  | none => rfl
  | some text => exact readWord?_eq text

theorem mutationCount_lt (b : Block) (name : String) : b.mutationCount name < Word.limit := by
  unfold mutationCount
  cases hcount : (b.mutation.get? name).bind fun text => readWord? text.toList with
  | none => decide
  | some n =>
    obtain ⟨text, -, hread⟩ := Option.bind_eq_some_iff.1 hcount
    rw [readWord?_eq] at hread
    simpa using (Option.filter_eq_some_iff.1 hread).2

theorem foldl_min (l : List Nat) (top n : Nat) :
    l.foldl (fun n i => max n (min (i + 1) top)) (min n top) = min (l.foldl (fun n i => max n (i + 1)) n) top := by
  induction l generalizing n with
  | nil => rfl
  | cons i l ih =>
    have hmax : max (min n top) (min (i + 1) top) = min (max n (i + 1)) top := by omega
    rw [List.foldl_cons, List.foldl_cons, hmax, ih]

/-- Sockets are counted up to the highest word, which is far beyond what is allowed. -/
theorem socketCount_eq (b : Block) (declared : Nat) (words : List String) :
    b.socketCount (min declared (Word.limit - 1)) words =
      if maxSockets < b.numbered Word.limit declared words then
        .error (.tooManySockets b.id (min (b.numbered Word.limit declared words) (Word.limit - 1)))
      else .ok (b.numbered Word.limit declared words) := by
  have hpresent : (b.values.keys ++ b.statements.keys).filterMap (socketIndex? words) =
      ((b.values.keys ++ b.statements.keys).filterMap (socketNumber? words)).filter (· < Word.limit) := by
    rw [List.filter_filterMap]
    exact congrArg (List.filterMap · _) (funext fun key => socketIndex?_eq words key)
  have hcount : b.socketCount (min declared (Word.limit - 1)) words =
      if maxSockets < min (b.numbered Word.limit declared words) (Word.limit - 1) then
        .error (.tooManySockets b.id (min (b.numbered Word.limit declared words) (Word.limit - 1)))
      else .ok (min (b.numbered Word.limit declared words) (Word.limit - 1)) := by
    unfold socketCount
    dsimp only
    rw [hpresent, foldl_min]
    rfl
  rw [hcount]
  have hmax : maxSockets < Word.limit - 1 := by decide
  generalize b.numbered Word.limit declared words = n
  by_cases hmany : maxSockets < n
  · have hword : maxSockets < min n (Word.limit - 1) := Nat.lt_min.2 ⟨hmany, hmax⟩
    rw [if_pos hmany, if_pos hword]
  · have hmin : min n (Word.limit - 1) = n := Nat.min_eq_left (by omega)
    rw [hmin]

end Block

end ScopeBlocks
