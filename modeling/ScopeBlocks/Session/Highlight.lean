/-! The block that a script is at, and whether stepping stops there. -/
namespace ScopeBlocks

structure Highlight where
  current : Option String
  paused : Bool
  deriving DecidableEq, Repr

namespace Highlight

def none : Highlight := ⟨.none, false⟩

/-- Shows a block and asks for a pause there. -/
def mark (_ : Highlight) (id : String) : Highlight := ⟨some id, true⟩

/-- Lets the script go on; the block stays highlighted. -/
def clearPause (h : Highlight) : Highlight := { h with paused := false }

end Highlight

end ScopeBlocks
