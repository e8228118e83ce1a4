import ScopeBlocks.Proofs.Workspace.CodeWrites

/-! The text of whole plans: what stacks and the declarations above them are read back as. -/
namespace ScopeBlocks

open Script

/-- Whether a text of complete lines writes some statements, whatever follows it. -/
def WriteText (text : String) (ss : List Script.Statement) : Prop :=
  ∃ ls, AllWritten ls ss ∧ ∀ rest,
    Token.lexemes? (text.toList ++ rest) = Token.prepend ls (Token.lexemes? rest)

namespace WriteText

variable {text more : String} {ss ts : List Script.Statement}

theorem nil : WriteText "" [] := ⟨[], .nil, fun rest => by simp⟩

theorem append (h : WriteText text ss) (h' : WriteText more ts) :
    WriteText (text ++ more) (ss ++ ts) := by
  obtain ⟨ls, hw, hs⟩ := h
  obtain ⟨ms, hw', hs'⟩ := h'
  refine ⟨ls ++ ms, hw.append hw', fun rest => ?_⟩
  rw [String.toList_append, List.append_assoc, hs, hs', Token.prepend_prepend]

theorem blankLine : WriteText "\n" [] := ⟨[], .nil, fun rest => by simp⟩

theorem unlines {lines : List String} (h : WriteLines lines ss) : WriteText (unlines lines) ss := by
  obtain ⟨ls, hs, hw⟩ := h
  exact ⟨ls, hw, hs.join⟩

theorem parse (h : WriteText text ss) :
    (Script.parse text).toOption = if placedAll false ss then some ss else none := by
  obtain ⟨ls, hw, hs⟩ := h
  refine parse_of_written ?_ hw
  have hall := hs []
  simp only [List.append_nil, Token.lexemes?_nil] at hall
  simpa [Token.lexemes?, Token.prepend] using hall

end WriteText

def Item.Proper : Item → Prop
  | .value _ => True
  | .action _ a => a.Proper

theorem Item.writes (i : Item) (h : i.Proper) : Parallel WriteLines i.lines i.tree := by
  cases i with
  | value term =>
    unfold Item.lines Item.tree
    refine .bind .get ?_
    rintro names _ ⟨rfl, hv⟩
    exact .pure (.eval ((term.writes hv).loosen (by decide)))
  | action id a =>
    unfold Item.lines Item.tree
    exact .bind (a.writes h) fun lines ss hl => .pure ((writes_mark id).append hl)

theorem stackLines_writes (stack : List Item) (h : ∀ i ∈ stack, i.Proper) :
    Parallel WriteLines (stackLines stack) (stackTree stack) := by
  induction stack with
  | nil => exact .pure .nil
  | cons item rest ih =>
    have hrest := ih fun i hi => h i (List.mem_cons_of_mem _ hi)
    refine .bind (item.writes (h item List.mem_cons_self)) fun lines ss hl => ?_
    exact .bind hrest fun more ts hm => .pure (hl.append hm)

/-- Texts that write some statements when they stand one after another, blank lines between them. -/
def WriteTexts (texts : List String) (ss : List Script.Statement) : Prop :=
  WriteText ("\n".intercalate texts) ss

theorem WriteTexts.cons {text : String} {texts : List String} {ss ts : List Script.Statement}
    (h : WriteText text ss) (h' : WriteTexts texts ts) : WriteTexts (text :: texts) (ss ++ ts) := by
  unfold WriteTexts at h' ⊢
  cases texts with
  | nil =>
    have hw := h.append h'
    simpa using hw
  | cons next texts =>
    rw [String.intercalate_cons_cons]
    have hw := (h.append .blankLine).append h'
    simpa using hw

theorem stackTexts_write (plans : List (List Item)) (h : ∀ stack ∈ plans, ∀ i ∈ stack, i.Proper) :
    Parallel WriteTexts (stackTexts plans) (stackTrees plans) := by
  induction plans with
  | nil => exact .pure .nil
  | cons stack rest ih =>
    have hstack := stackLines_writes stack (h stack List.mem_cons_self)
    have hrest := ih fun s hs => h s (List.mem_cons_of_mem _ hs)
    refine .bind hstack fun lines ss hl => ?_
    exact .bind hrest fun texts ts ht => .pure (.cons (.unlines hl) ht)

theorem header_writes {names : Names} (hv : names.Valid) :
    WriteText (Workspace.header names) (headerTree names) := by
  have hlines : ∀ idents : List String, (∀ ident ∈ idents, IsIdent ident) →
      WriteLines (idents.map fun ident => "var " ++ ident ++ " = null;")
        (idents.map fun ident => .bind (declaration ident (.literal .null))) := by
    intro idents h
    induction idents with
    | nil => exact .nil
    | cons ident idents ih =>
      have hfirst := writes_declareLine (h ident List.mem_cons_self) (Writes.null.loosen (by decide))
      have hline : "var " ++ ident ++ " = null;" = "var " ++ ident ++ " = " ++ "null" ++ ";" := by
        simp only [String.append_assoc]
        rfl
      rw [List.map_cons, hline]
      exact hfirst.append (ih fun i hi => h i (List.mem_cons_of_mem _ hi))
  have hdeclared := hlines names.declared fun ident hi => Names.isIdent_of_mem_declared hv hi
  unfold Workspace.header headerTree
  generalize names.declared = idents at hdeclared ⊢
  rcases idents with _ | ⟨ident, idents⟩
  · exact .nil
  · have hw := (WriteText.unlines hdeclared).append .blankLine
    rw [List.append_nil] at hw
    exact hw

namespace Workspace

/-- The script of plans: the declarations, and then the stacks in order. -/
def planScript (names : Names) (plans : List (List Item)) : Script.Program :=
  headerTree names ++ ((stackTrees plans).run names).1

theorem compile_eq_ok {w : Workspace} {c : Compiled} (h : w.compile = .ok c) :
    ∃ plans, w.plan = .ok plans ∧
      c.code = header w.names ++ "\n".intercalate ((stackTexts plans).run w.names).1 ∧
      c.ids = plans.flatMap (·.flatMap Item.ids) := by
  unfold compile at h
  cases hplan : w.plan with
  | error e =>
    rw [hplan] at h
    cases h
  | ok plans =>
    rw [hplan] at h
    cases h
    exact ⟨plans, rfl, rfl, rfl⟩

theorem valid_names (w : Workspace) : w.names.Valid := Names.valid_ofVariables _

/-- The text of plans is read back as the script of the plans. -/
theorem parse_plan {w : Workspace} {c : Compiled} {plans : List (List Item)}
    (hcode : c.code = header w.names ++ "\n".intercalate ((stackTexts plans).run w.names).1)
    (h : ∀ stack ∈ plans, ∀ i ∈ stack, i.Proper) :
    (Script.parse c.code).toOption =
      if placedAll false (planScript w.names plans) then some (planScript w.names plans)
      else none := by
  have hstacks := (stackTexts_write plans h w.names w.valid_names).1
  rw [hcode]
  exact ((header_writes w.valid_names).append hstacks).parse

end Workspace

end ScopeBlocks
