/-! Text between quotes, with a backslash before the characters that would end it or that are written
as letters. -/
namespace ScopeBlocks.Text

/-- How one character is written between double quotes. -/
def escapeChar (c : Char) : List Char :=
  match c with
  | '"' => ['\\', '"']
  | '\\' => ['\\', '\\']
  | '\n' => ['\\', 'n']
  | '\r' => ['\\', 'r']
  | '\t' => ['\\', 't']
  | c => [c]

def quoteChars (cs : List Char) : List Char := '"' :: cs.flatMap escapeChar ++ ['"']

def quote (s : String) : String := String.ofList (quoteChars s.toList)

/-- The characters up to the first quote without a backslash before it, and what follows the quote. -/
def closeQuote? (quote : Char) : List Char → Option (List Char × List Char)
  | [] => none
  | ['\\'] => none
  | '\\' :: c :: rest => (closeQuote? quote rest).map fun (raw, r) => ('\\' :: c :: raw, r)
  | c :: rest =>
    if c = quote then some ([], rest)
    else (closeQuote? quote rest).map fun (raw, r) => (c :: raw, r)

/-- The characters that a text between quotes stands for; a backslash before a character without a
meaning of its own is kept. -/
def unescape : List Char → List Char
  | [] => []
  | ['\\'] => ['\\']
  | '\\' :: c :: rest =>
    match c with
    | 'n' => '\n' :: unescape rest
    | 't' => '\t' :: unescape rest
    | 'r' => '\r' :: unescape rest
    | '\\' => '\\' :: unescape rest
    | '"' => '"' :: unescape rest
    | '\'' => '\'' :: unescape rest
    | c => '\\' :: c :: unescape rest
  | c :: rest => c :: unescape rest

theorem closeQuote?_length {q : Char} {s raw rest : List Char}
    (h : closeQuote? q s = some (raw, rest)) : rest.length < s.length := by
  fun_induction closeQuote? q s generalizing raw rest with
  | case1 => simp at h
  | case2 => simp at h
  | case3 c r ih =>
    obtain ⟨⟨raw', r'⟩, h', he⟩ := Option.map_eq_some_iff.1 h
    have := ih h'
    simp only [Prod.mk.injEq] at he
    obtain ⟨_, rfl⟩ := he
    simp only [List.length_cons]
    omega
  | case4 r => simp only [Option.some.injEq, Prod.mk.injEq] at h; simp [← h.2]
  | case5 c r _ _ _ ih =>
    obtain ⟨⟨raw', r'⟩, h', he⟩ := Option.map_eq_some_iff.1 h
    have := ih h'
    simp only [Prod.mk.injEq] at he
    obtain ⟨_, rfl⟩ := he
    simp only [List.length_cons]
    omega

end ScopeBlocks.Text
