import ScopeBlocks.Script.Token

/-! The rules that a script is written by, over its tokens. A rule tries its alternatives in order and goes
on with the first one that fits, and what it repeats it repeats as often as it can. Where it fits it leaves
a pair with the pairs of the rules within it; some rules leave those only. -/
namespace ScopeBlocks.Script

namespace Token

/-- What follows a token in its text. -/
def rest (t : Token) : List Char := ((lexeme? t.place).map (·.2)).getD []

def chars (t : Token) : List Char := t.place.take (t.place.length - t.rest.length)

end Token

namespace Rules

/-- The levels of operators, the loosest first. -/
inductive Level where
  | or | and | equality | comparison | sum | product
  deriving DecidableEq, Repr

namespace Level

def has : Level → BinaryOp → Bool
  | or, .or | and, .and | equality, .eq | equality, .ne | comparison, .lt | comparison, .le
  | comparison, .gt | comparison, .ge | sum, .add | sum, .sub | product, .mul | product, .div
  | product, .rem => true
  | _, _ => false

def text : Level → String
  | or => "or"
  | and => "and"
  | equality => "eq"
  | comparison => "rel"
  | sum => "add"
  | product => "mul"

end Level

/-- The rules that leave pairs. Those of one token come first, with the text between quotes and the end. -/
inductive Symbol where
  | keyword (word : Keyword) | ident | number | string | assignOp | operator (level : Level) | unaryOp
  | quoted (double : Bool) | ending
  | program | block | varBinding | assign | exprStmt | condBlock | elseClause | ifStmt | whileStmt
  | forInit | forCond | forUpdate | forStmt | breakStmt | continueStmt
  | chain (level : Level) | unary | fields | call
  deriving DecidableEq, Repr

inductive Form where
  /-- A lexeme that leaves no pair. -/
  | literal (lexeme : Lexeme)
  | token (symbol : Symbol)
  | ending
  | rule (symbol : Symbol)
  | seq (first second : Form)
  | either (first second : Form)
  | many (form : Form)
  | maybe (form : Form)
  deriving Repr

namespace Form

def word (w : Keyword) : Form := .token (.keyword w)

def inOrder : Form → List Form → Form
  | f, [] => f
  | f, g :: rest => .seq f (inOrder g rest)

def firstOf : Form → List Form → Form
  | f, [] => f
  | f, g :: rest => .either f (firstOf g rest)

def expr : Form := .rule (.chain .or)

/-- An operand on a level of operators. -/
def operand : Level → Form
  | .or => .rule (.chain .and)
  | .and => .rule (.chain .equality)
  | .equality => .rule (.chain .comparison)
  | .comparison => .rule (.chain .sum)
  | .sum => .rule (.chain .product)
  | .product => .rule .unary

def primary : Form :=
  firstOf (.token .number) [.token .string, word .trueWord, word .falseWord, word .nullWord,
    .rule .call, .token .ident, inOrder (.literal .openParen) [expr, .literal .closeParen]]

def statement : Form :=
  firstOf (.seq (.rule .varBinding) (.literal .semicolon))
    [.rule .ifStmt, .rule .whileStmt, .rule .forStmt, .rule .breakStmt, .rule .continueStmt,
      .seq (.rule .assign) (.literal .semicolon), .rule .exprStmt]

end Form

namespace Symbol

open Form (word inOrder)

/-- What a rule consists of. -/
def form : Symbol → Form
  | program => .seq (.many .statement) .ending
  | block => inOrder (.literal .openBrace) [.many .statement, .literal .closeBrace]
  | varBinding =>
    inOrder (word .var) [.token ident, .maybe (.seq (.literal (.assign .set)) .expr)]
  | assign => inOrder (.token ident) [.token assignOp, .expr]
  | exprStmt => .seq .expr (.literal .semicolon)
  | condBlock => inOrder (.literal .openParen) [.expr, .literal .closeParen, .rule block]
  | elseClause => .seq (word .elseWord) (.rule block)
  | ifStmt =>
    inOrder (word .ifWord) [.rule condBlock,
      .many (inOrder (word .elseWord) [word .ifWord, .rule condBlock]), .maybe (.rule elseClause)]
  | whileStmt =>
    inOrder (word .whileWord) [.literal .openParen, .expr, .literal .closeParen, .rule block]
  | forInit => .maybe (.either (.rule varBinding) (.rule assign))
  | forCond => .maybe .expr
  | forUpdate => .maybe (.rule assign)
  | forStmt =>
    inOrder (word .forWord) [.literal .openParen, .rule forInit, .literal .semicolon, .rule forCond,
      .literal .semicolon, .rule forUpdate, .literal .closeParen, .rule block]
  | breakStmt => .seq (word .breakWord) (.literal .semicolon)
  | continueStmt => .seq (word .continueWord) (.literal .semicolon)
  | chain level => .seq (.operand level) (.many (.seq (.token (operator level)) (.operand level)))
  | unary => .seq (.many (.token unaryOp)) (.rule fields)
  | fields => .seq .primary (.many (.seq (.literal .dot) (.token ident)))
  | call =>
    inOrder (.token ident) [.literal .openParen,
      .maybe (.seq .expr (.many (.seq (.literal .comma) .expr))), .literal .closeParen]
  | s => .token s

/-- The lexemes of a rule of one token. -/
def accepts : Symbol → Lexeme → Bool
  | keyword word, .keyword w => word == w
  | ident, .name _ | number, .number _ | string, .text _ | assignOp, .assign _ => true
  | operator level, .operator op => level.has op
  | unaryOp, .bang | unaryOp, .operator .sub => true
  | _, _ => false

def text : Symbol → String
  | keyword word => "kw_" ++ word.text
  | ident => "ident"
  | number => "number"
  | string => "string"
  | assignOp => "assign_op"
  | operator level => level.text ++ "_op"
  | unaryOp => "unary_op"
  | quoted double => if double then "dq_chars" else "sq_chars"
  | ending => "EOI"
  | program => "program"
  | block => "block"
  | varBinding => "var_binding"
  | assign => "assign"
  | exprStmt => "expr_stmt"
  | condBlock => "cond_block"
  | elseClause => "else_clause"
  | ifStmt => "if_stmt"
  | whileStmt => "while_stmt"
  | forInit => "for_init"
  | forCond => "for_cond"
  | forUpdate => "for_update"
  | forStmt => "for_stmt"
  | breakStmt => "break_stmt"
  | continueStmt => "continue_stmt"
  | chain level => level.text ++ "_expr"
  | unary => "unary"
  | fields => "postfix"
  | call => "call"

end Symbol

/-- What a rule leaves where it fits: where that is, the text it fits, and the pairs within it. -/
structure Pair where
  symbol : Symbol
  place : List Char
  text : List Char
  inner : List Pair
  deriving Repr

/-- The place of the next token. -/
def placeOf : List Token → List Char
  | [] => []
  | t :: _ => t.place

/-- The text from one token up to another one. -/
def textOf (ts rest : List Token) : List Char :=
  match (ts.take (ts.length - rest.length)).getLast? with
  | none => []
  | some last => (placeOf ts).take ((placeOf ts).length - last.rest.length)

/-- The pair of a rule of one token. A text has one for what is between its quotes. -/
def Pair.ofToken (s : Symbol) (t : Token) : Pair where
  symbol := s
  place := t.place
  text := t.chars
  inner := match t.lexeme with
    | .text _ =>
      [⟨.quoted (t.chars.head? == some '"'), t.place.drop 1, (t.chars.drop 1).dropLast, []⟩]
    | _ => []

/-- How a form fits at the head of some tokens: with the pairs that it leaves and the tokens that follow,
or not at all. -/
inductive Fits : Form → List Token → Option (List Pair × List Token) → Prop
  | literal {t : Token} {rest : List Token} : Fits (.literal t.lexeme) (t :: rest) (some ([], rest))
  | noLiteral {l : Lexeme} {ts : List Token} (h : ∀ t ∈ ts.head?, t.lexeme ≠ l) :
      Fits (.literal l) ts none
  | token {s : Symbol} {t : Token} {rest : List Token} (h : s.accepts t.lexeme = true) :
      Fits (.token s) (t :: rest) (some ([.ofToken s t], rest))
  | noToken {s : Symbol} {ts : List Token} (h : ∀ t ∈ ts.head?, s.accepts t.lexeme = false) :
      Fits (.token s) ts none
  | ending : Fits .ending [] (some ([⟨.ending, [], [], []⟩], []))
  | noEnding {t : Token} {rest : List Token} : Fits .ending (t :: rest) none
  | rule {s : Symbol} {ts rest : List Token} {ps : List Pair} (h : Fits s.form ts (some (ps, rest))) :
      Fits (.rule s) ts (some ([⟨s, placeOf ts, textOf ts rest, ps⟩], rest))
  | noRule {s : Symbol} {ts : List Token} (h : Fits s.form ts none) : Fits (.rule s) ts none
  | seq {f g : Form} {ts mid rest : List Token} {ps qs : List Pair} (first : Fits f ts (some (ps, mid)))
      (second : Fits g mid (some (qs, rest))) : Fits (.seq f g) ts (some (ps ++ qs, rest))
  | noFirst {f g : Form} {ts : List Token} (h : Fits f ts none) : Fits (.seq f g) ts none
  | noSecond {f g : Form} {ts mid : List Token} {ps : List Pair} (first : Fits f ts (some (ps, mid)))
      (h : Fits g mid none) : Fits (.seq f g) ts none
  | left {f g : Form} {ts rest : List Token} {ps : List Pair} (h : Fits f ts (some (ps, rest))) :
      Fits (.either f g) ts (some (ps, rest))
  | right {f g : Form} {ts : List Token} {r : Option (List Pair × List Token)} (left : Fits f ts none)
      (h : Fits g ts r) : Fits (.either f g) ts r
  | stop {f : Form} {ts : List Token} (h : Fits f ts none) : Fits (.many f) ts (some ([], ts))
  | more {f : Form} {ts mid rest : List Token} {ps qs : List Pair} (h : Fits f ts (some (ps, mid)))
      (again : Fits (.many f) mid (some (qs, rest))) : Fits (.many f) ts (some (ps ++ qs, rest))
  | present {f : Form} {ts rest : List Token} {ps : List Pair} (h : Fits f ts (some (ps, rest))) :
      Fits (.maybe f) ts (some (ps, rest))
  | absent {f : Form} {ts : List Token} (h : Fits f ts none) : Fits (.maybe f) ts (some ([], ts))

/-- Whether a text is one of the grammar, with the pairs that it leaves. -/
def Grammatical (text : List Char) (pairs : List Pair) : Prop :=
  ∃ tokens, Token.scan? text = some tokens ∧ Fits (.rule .program) tokens (some (pairs, []))

end Rules

end ScopeBlocks.Script
