/-! The sizes of machine words. -/
namespace ScopeBlocks.Word

/-- Where the words of 64 bits end. -/
def limit : Nat := 0x10000000000000000

/-- Where those with a sign end; they begin as far below zero. -/
def half : Nat := 0x8000000000000000

/-- Where the words of 32 bits end. -/
def shortLimit : Nat := 0x100000000

def isSigned (n : Int) : Bool := -half ≤ n && n < half

end ScopeBlocks.Word
