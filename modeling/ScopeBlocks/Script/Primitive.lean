/-! The fixed set of names that a script can call, and the words that it cannot use as names. -/
namespace ScopeBlocks.Script

inductive Primitive where
  | print
  | prompt
  | mark
  | waitSeconds
  | capture
  | getPosition
  | autofocus
  | getSharpnessMetric
  | moveStage
  | moveStage3d
  deriving DecidableEq, Repr

namespace Primitive

def all : List Primitive :=
  [print, prompt, mark, waitSeconds, capture, getPosition, autofocus, getSharpnessMetric, moveStage,
    moveStage3d]

def name : Primitive → String
  | print => "print"
  | prompt => "prompt"
  | mark => "mark"
  | waitSeconds => "wait_seconds"
  | capture => "capture"
  | getPosition => "get_position"
  | autofocus => "autofocus"
  | getSharpnessMetric => "get_sharpness_metric"
  | moveStage => "move_stage"
  | moveStage3d => "move_stage_3d"

def ofName? (s : String) : Option Primitive := all.find? (·.name == s)

/-- Whether a call is answered from outside, later, instead of at once. -/
def isAsync : Primitive → Bool
  | print | prompt | mark => false
  | _ => true

theorem mem_all (p : Primitive) : p ∈ all := by cases p <;> decide

theorem ofName?_name (p : Primitive) : ofName? p.name = some p := by cases p <;> decide

theorem name_of_ofName? {s : String} {p : Primitive} (h : ofName? s = some p) : p.name = s := by
  have := List.find?_some h
  simpa using this

end Primitive

inductive Keyword where
  | var | ifWord | elseWord | whileWord | forWord | breakWord | continueWord | trueWord | falseWord
  | nullWord
  deriving DecidableEq, Repr

namespace Keyword

def all : List Keyword :=
  [var, ifWord, elseWord, whileWord, forWord, breakWord, continueWord, trueWord, falseWord, nullWord]

def text : Keyword → String
  | var => "var"
  | ifWord => "if"
  | elseWord => "else"
  | whileWord => "while"
  | forWord => "for"
  | breakWord => "break"
  | continueWord => "continue"
  | trueWord => "true"
  | falseWord => "false"
  | nullWord => "null"

def ofText? (s : String) : Option Keyword := all.find? (·.text == s)

theorem ofText?_text (k : Keyword) : ofText? k.text = some k := by cases k <;> decide

end Keyword

/-- Whether a name is a keyword or that of a primitive. -/
def isReserved (s : String) : Bool :=
  (Keyword.ofText? s).isSome || (Primitive.ofName? s).isSome

end ScopeBlocks.Script
