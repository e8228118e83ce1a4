/-! The ways in which XML text can be wrong, each with its message. Offsets count bytes. -/
namespace ScopeBlocks.Xml

inductive ReferenceError where
  | sign
  | empty
  | digit
  | overflow
  | zero
  | notACharacter (code : Nat)
  deriving DecidableEq, Repr

def ReferenceError.message : ReferenceError → String
  | .sign => "unexpected number sign"
  | .empty => "cannot parse integer from empty string"
  | .digit => "invalid digit found in string"
  | .overflow => "number too large to fit in target type"
  | .zero => "0x0 character is not permitted in XML"
  | .notACharacter code => "\x60" ++ toString code ++ "\x60 is not a valid codepoint"

inductive EntityError where
  | unterminated (start stop : Nat)
  | unknown (start stop : Nat) (name : String)
  | reference (cause : ReferenceError)
  deriving DecidableEq, Repr

def EntityError.message : EntityError → String
  | .unterminated start stop =>
    s!"Error while escaping character at range {start}..{stop}: Cannot find ';' after '&'"
  | .unknown start stop name => s!"at {start}..{stop}: unrecognized entity " ++ "\x60" ++ name ++ "\x60"
  | .reference cause => "invalid character reference: " ++ cause.message

inductive AttributeError where
  | noEquals (offset : Nat)
  | noValue (offset : Nat)
  | noQuote (offset : Nat)
  | notClosed (offset : Nat) (quote : Char)
  | duplicate (offset first : Nat)
  deriving DecidableEq, Repr

def AttributeError.message : AttributeError → String
  | .noEquals offset =>
    s!"position {offset}: attribute key must be directly followed by " ++ "\x60=\x60 or space"
  | .noValue offset => s!"position {offset}: " ++ "\x60=\x60 must be followed by an attribute value"
  | .noQuote offset =>
    s!"position {offset}: attribute value must be enclosed in " ++ "\x60\"\x60 or \x60'\x60"
  | .notClosed offset quote => s!"position {offset}: missing closing quote " ++ "\x60" ++
    quote.toString ++ "\x60 in attribute value"
  | .duplicate offset first =>
    s!"position {offset}: duplicated attribute, previous declaration at position {first}"

/-- Markup that has no end, tags that do not belong together, and wrong attributes and entities. -/
inductive Error where
  | tagNotClosed
  | cdataNotClosed
  | commentNotClosed
  | doctypeNotClosed
  | instructionNotClosed
  | unknownMarkup
  | mismatchedEnd (expected found : String)
  | unmatchedEnd (found : String)
  | missingEnd (name : String)
  | namelessDoctype
  | attribute (cause : AttributeError)
  | entity (cause : EntityError)
  deriving DecidableEq, Repr

/-- A thing that the end of the text came before. -/
def notClosed (what stop : String) : String :=
  "syntax error: " ++ what ++ " not closed: \x60" ++ stop ++ "\x60 not found before end of input"

def Error.message : Error → String
  | .tagNotClosed => notClosed "tag" ">"
  | .cdataNotClosed => notClosed "CDATA" "]]>"
  | .commentNotClosed => notClosed "comment" "-->"
  | .doctypeNotClosed => notClosed "DOCTYPE" ">"
  | .instructionNotClosed => notClosed "processing instruction or xml declaration" "?>"
  | .unknownMarkup => "syntax error: unknown or missed symbol in markup"
  | .mismatchedEnd expected found => "ill-formed document: expected \x60</" ++ expected ++
    ">\x60, but \x60</" ++ found ++ ">\x60 was found"
  | .unmatchedEnd found =>
    "ill-formed document: close tag \x60</" ++ found ++ ">\x60 does not match any open tag"
  | .missingEnd name => "ill-formed document: start tag not closed: \x60</" ++ name ++
    ">\x60 not found before end of input"
  | .namelessDoctype => "ill-formed document: \x60<!DOCTYPE>\x60 declaration does not contain a " ++
    "name of a document type"
  | .attribute cause => cause.message
  | .entity cause => cause.message

end ScopeBlocks.Xml
