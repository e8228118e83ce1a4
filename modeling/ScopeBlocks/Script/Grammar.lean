import ScopeBlocks.Script.Surface

/-! The grammar of scripts over tokens. The next one or two tokens decide which rule applies, so that
no rule is tried twice. Nesting and repetition draw on one budget, and one as long as the text lasts:
every use of it follows a token. -/
namespace ScopeBlocks.Script.Surface.Grammar

/-- A rule takes tokens from the front of a list, or does not apply. -/
abbrev Rule (α : Type) := List Token → Option (α × List Token)

def expect (l : Lexeme) : List Token → Option (List Token)
  | t :: rest => if t.lexeme = l then some rest else none
  | [] => none

def name : Rule Located
  | ⟨.name text, place⟩ :: rest => some (⟨text, place⟩, rest)
  | _ => none

/-- Operands of a rule joined to the left by operators of one level. -/
def chainFrom (level : BinaryOp → Bool) (operand : Rule Expr) : Nat → Expr → Rule Expr
  | 0, left, ts => some (left, ts)
  | n + 1, left, ts =>
    match ts with
    | ⟨.operator op, _⟩ :: rest =>
      if level op then do
        let (right, rest) ← operand rest
        chainFrom level operand n (.binary op left right) rest
      else some (left, ts)
    | _ => some (left, ts)

def chain (n : Nat) (level : BinaryOp → Bool) (operand : Rule Expr) : Rule Expr := fun ts => do
  let (left, rest) ← operand ts
  chainFrom level operand n left rest

/-- The arguments after an opening parenthesis, and the closing one. -/
def moreArgs (arg : Rule Expr) : Nat → Rule (List Expr)
  | 0, _ => none
  | n + 1, ts => do
    let (e, rest) ← arg ts
    match rest with
    | ⟨.comma, _⟩ :: rest =>
      let (es, rest) ← moreArgs arg n rest
      return (e :: es, rest)
    | ⟨.closeParen, _⟩ :: rest => return ([e], rest)
    | _ => none

def args (n : Nat) (arg : Rule Expr) : Rule (List Expr)
  | ⟨.closeParen, _⟩ :: rest => some ([], rest)
  | ts => moreArgs arg n ts

def primary (n : Nat) (inner : Rule Expr) : Rule Expr
  | ⟨.number x, _⟩ :: rest => some (.literal (.number x), rest)
  | ⟨.text s, _⟩ :: rest => some (.literal (.string s), rest)
  | ⟨.keyword .trueWord, _⟩ :: rest => some (.literal (.bool true), rest)
  | ⟨.keyword .falseWord, _⟩ :: rest => some (.literal (.bool false), rest)
  | ⟨.keyword .nullWord, _⟩ :: rest => some (.literal .null, rest)
  | ⟨.name text, place⟩ :: ⟨.openParen, _⟩ :: rest => do
    let (es, rest) ← args n inner rest
    return (.call ⟨text, place⟩ es, rest)
  | ⟨.name text, place⟩ :: rest => some (.name ⟨text, place⟩, rest)
  | ⟨.openParen, _⟩ :: rest => do
    let (e, rest) ← inner rest
    return (e, ← expect .closeParen rest)
  | _ => none

/-- Fields read from an expression, one after another. -/
def fieldsFrom : Nat → Expr → Rule Expr
  | n + 1, e, ⟨.dot, _⟩ :: rest => do
    let (field, rest) ← name rest
    fieldsFrom n (.member e field.text) rest
  | _, e, ts => some (e, ts)

def postfixExpr (n : Nat) (inner : Rule Expr) : Rule Expr := fun ts => do
  let (e, rest) ← primary n inner ts
  fieldsFrom n e rest

def unaryExpr (operand : Rule Expr) : Nat → Rule Expr
  | n + 1, ⟨.bang, _⟩ :: rest => do
    let (e, rest) ← unaryExpr operand n rest
    return (.unary .not e, rest)
  | n + 1, ⟨.operator .sub, _⟩ :: rest => do
    let (e, rest) ← unaryExpr operand n rest
    return (.unary .neg e, rest)
  | _, ts => operand ts

def isOr : BinaryOp → Bool
  | .or => true
  | _ => false

def isAnd : BinaryOp → Bool
  | .and => true
  | _ => false

def isEquality : BinaryOp → Bool
  | .eq | .ne => true
  | _ => false

def isComparison : BinaryOp → Bool
  | .lt | .le | .gt | .ge => true
  | _ => false

def isSum : BinaryOp → Bool
  | .add | .sub => true
  | _ => false

def isProduct : BinaryOp → Bool
  | .mul | .div | .rem => true
  | _ => false

/-- The levels of operators, the loosest first, down to `inner` expressions in parentheses. -/
def levels (n : Nat) (inner : Rule Expr) : Rule Expr :=
  chain n isOr <| chain n isAnd <| chain n isEquality <| chain n isComparison <| chain n isSum <|
    chain n isProduct <| unaryExpr (postfixExpr n inner) n

def expr : Nat → Rule Expr
  | 0, _ => none
  | n + 1, ts => levels (n + 1) (expr n) ts

def initialValue (n : Nat) : Rule (Option Expr)
  | ⟨.assign .set, _⟩ :: rest => do
    let (e, rest) ← expr n rest
    return (some e, rest)
  | ts => some (none, ts)

def declaration (n : Nat) : Rule Binding := fun ts => do
  let (target, rest) ← name ts
  let (init, rest) ← initialValue n rest
  return (.declare target init, rest)

def assignment (n : Nat) : Rule Assignment
  | ⟨.name text, place⟩ :: ⟨.assign op, _⟩ :: rest => do
    let (e, rest) ← expr n rest
    return (⟨⟨text, place⟩, op, e⟩, rest)
  | _ => none

def forInit (n : Nat) : Rule (Option Binding)
  | ⟨.semicolon, place⟩ :: rest => some (none, ⟨.semicolon, place⟩ :: rest)
  | ⟨.keyword .var, _⟩ :: rest => do
    let (b, rest) ← declaration n rest
    return (some b, rest)
  | ts => do
    let (a, rest) ← assignment n ts
    return (some (.assign a), rest)

def forCond (n : Nat) : Rule (Option Expr)
  | ⟨.semicolon, place⟩ :: rest => some (none, ⟨.semicolon, place⟩ :: rest)
  | ts => do
    let (e, rest) ← expr n ts
    return (some e, rest)

def forUpdate (n : Nat) : Rule (Option Assignment)
  | ⟨.closeParen, place⟩ :: rest => some (none, ⟨.closeParen, place⟩ :: rest)
  | ts => do
    let (a, rest) ← assignment n ts
    return (some a, rest)

/-- A condition in parentheses and the block that it guards. -/
def guarded (n : Nat) (block : Rule (List Statement)) : Rule (Expr × List Statement) := fun ts => do
  let (cond, rest) ← expr n (← expect .openParen ts)
  let (body, rest) ← block (← expect .closeParen rest)
  return ((cond, body), rest)

/-- The further branches of a choice, and its last one without a condition. -/
def otherBranches (budget : Nat) (block : Rule (List Statement)) :
    Nat → Rule (List (Expr × List Statement) × Option (List Statement))
  | n + 1, ⟨.keyword .elseWord, _⟩ :: ⟨.keyword .ifWord, _⟩ :: rest => do
    let (b, rest) ← guarded budget block rest
    let ((bs, last), rest) ← otherBranches budget block n rest
    return ((b :: bs, last), rest)
  | _, ⟨.keyword .elseWord, _⟩ :: rest => do
    let (body, rest) ← block rest
    return (([], some body), rest)
  | _, ts => some (([], none), ts)

/-- A statement whose inner blocks are read by `block`. -/
def statement (n : Nat) (block : Rule (List Statement)) : Rule Statement
  | ⟨.keyword .var, _⟩ :: rest => do
    let (b, rest) ← declaration n rest
    return (.bind b, ← expect .semicolon rest)
  | ⟨.keyword .ifWord, _⟩ :: rest => do
    let (b, rest) ← guarded n block rest
    let ((bs, last), rest) ← otherBranches n block n rest
    return (.branch (b :: bs) last, rest)
  | ⟨.keyword .whileWord, _⟩ :: rest => do
    let ((cond, body), rest) ← guarded n block rest
    return (.whileLoop cond body, rest)
  | ⟨.keyword .forWord, _⟩ :: rest => do
    let (init, rest) ← forInit n (← expect .openParen rest)
    let (cond, rest) ← forCond n (← expect .semicolon rest)
    let (update, rest) ← forUpdate n (← expect .semicolon rest)
    let (body, rest) ← block (← expect .closeParen rest)
    return (.forLoop init cond update body, rest)
  | ⟨.keyword .breakWord, place⟩ :: rest => do
    return (.jump .exitLoop place, ← expect .semicolon rest)
  | ⟨.keyword .continueWord, place⟩ :: rest => do
    return (.jump .nextRound place, ← expect .semicolon rest)
  | ⟨.name text, place⟩ :: ⟨.assign op, p⟩ :: rest => do
    let (a, rest) ← assignment n (⟨.name text, place⟩ :: ⟨.assign op, p⟩ :: rest)
    return (.bind (.assign a), ← expect .semicolon rest)
  | ts => do
    let (e, rest) ← expr n ts
    return (.eval e, ← expect .semicolon rest)

def inBraces (inner : Rule (List Statement)) : Rule (List Statement) := fun ts => do
  let (body, rest) ← inner (← expect .openBrace ts)
  return (body, ← expect .closeBrace rest)

/-- Statements up to a closing brace or the end. -/
def statements : Nat → Rule (List Statement)
  | 0, _ => none
  | n + 1, ts =>
    match ts with
    | [] => some ([], [])
    | ⟨.closeBrace, place⟩ :: rest => some ([], ⟨.closeBrace, place⟩ :: rest)
    | ts => do
      let (s, rest) ← statement (n + 1) (inBraces (statements n)) ts
      let (more, rest) ← statements n rest
      return (s :: more, rest)

/-- The statements that a whole text consists of. -/
def read? (text : List Char) : Option (List Statement) := do
  let tokens ← Token.scan? text
  match ← statements (tokens.length + 1) tokens with
  | (body, []) => return body
  | _ => none

end ScopeBlocks.Script.Surface.Grammar
