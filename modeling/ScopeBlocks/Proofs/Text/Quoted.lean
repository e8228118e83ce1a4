import ScopeBlocks.Text.Quoted

/-! A text between quotes is read back whatever stands in it and whatever follows it. -/
namespace ScopeBlocks.Text

theorem escapeChar_cases (c : Char) :
    (c = '"' ∨ c = '\\' ∨ c = '\n' ∨ c = '\r' ∨ c = '\t') ∨
      (escapeChar c = [c] ∧ c ≠ '"' ∧ c ≠ '\\') := by
  unfold escapeChar
  split <;> simp_all

theorem closeQuote?_plain {c : Char} (hq : c ≠ '"') (hb : c ≠ '\\') (s : List Char) :
    closeQuote? '"' (c :: s) = (closeQuote? '"' s).map fun (raw, r) => (c :: raw, r) := by
  conv => lhs; unfold closeQuote?
  split <;> simp_all

theorem unescape_plain {c : Char} (hb : c ≠ '\\') (s : List Char) :
    unescape (c :: s) = c :: unescape s := by
  conv => lhs; unfold unescape
  split <;> simp_all

/-- The quote that ends a written text is found, and no earlier one. -/
theorem closeQuote?_escaped (cs rest : List Char) :
    closeQuote? '"' (cs.flatMap escapeChar ++ '"' :: rest) = some (cs.flatMap escapeChar, rest) := by
  induction cs with
  | nil => simp [closeQuote?]
  | cons c cs ih =>
    rw [List.flatMap_cons, List.append_assoc]
    rcases escapeChar_cases c with hs | ⟨he, hq, hb⟩
    · rcases hs with rfl | rfl | rfl | rfl | rfl <;> simp [escapeChar, closeQuote?, ih]
    · rw [he, List.singleton_append, closeQuote?_plain hq hb, ih]
      rfl

theorem unescape_escaped (cs : List Char) : unescape (cs.flatMap escapeChar) = cs := by
  induction cs with
  | nil => rfl
  | cons c cs ih =>
    rw [List.flatMap_cons]
    rcases escapeChar_cases c with hs | ⟨he, -, hb⟩
    · rcases hs with rfl | rfl | rfl | rfl | rfl <;> simp [escapeChar, unescape, ih]
    · rw [he, List.singleton_append, unescape_plain hb, ih]

end ScopeBlocks.Text
