import ScopeBlocks.Proofs.Script.Printing
import ScopeBlocks.Proofs.Workspace.Names
import ScopeBlocks.Workspace.Code

/-! The script of a plan, made without any text: trees of expressions and statements, and the helper
variables of loops named in the order in which they are met. The code of the plan writes this script. -/
namespace ScopeBlocks

open Script

/-- A negative number is a magnitude with a sign; a zero has none. What is not finite stands as the
name that its text is. -/
def Number.tree : Number → Script.Expr
  | .nan => .var "NaN"
  | .infinite false => .var "Infinity"
  | .infinite true => .unary .neg (.var "Infinity")
  | .finite negative steps exact =>
    if negative ∧ steps ≠ 0 then .unary .neg (.literal (.number (.finite false steps exact)))
    else .literal (.number (.finite false steps exact))

def textTree (s : String) : Script.Expr := .literal (.string s)

mutual

def Term.tree (names : Names) : Term → Script.Expr
  | .number x => x.tree
  | .text s => textTree s
  | .truth b => .literal (.bool b)
  | .null => .literal .null
  | .var name => .var (names.identOf name)
  | .position axis => .call .getPosition [textTree axis]
  | .sharpness => .call .getSharpnessMetric []
  | .binary op left right => .binary op (left.tree names) (right.tree names)
  | .negate operand => .unary .not (operand.tree names)
  | .join parts => joinTree names (textTree "") parts
  | .prompt numeric message =>
    .call .prompt (message.tree names :: if numeric then [textTree "number"] else [])

/-- The parts of a text added to what stands before them. -/
def joinTree (names : Names) (before : Script.Expr) : List Term → Script.Expr
  | [] => before
  | part :: rest => joinTree names (.binary .add before (part.tree names)) rest

end

def setTo (ident : String) (e : Script.Expr) : Script.Assignment := ⟨ident, .set, e⟩

def increase (ident : String) (e : Script.Expr) : Script.Assignment := ⟨ident, .add, e⟩

def declaration (ident : String) (e : Script.Expr) : Script.Binding := .declare ident (some e)

/-- A loop that counts from zero up to a bound. -/
def countedTree (counter : String) (times : Script.Expr) (body : List Script.Statement) :
    Script.Statement :=
  .forLoop (some (declaration counter (.literal (.number 0))))
    (some (.binary .lt (.var counter) times))
    (some (increase counter (.literal (.number 1)))) body

/-- A loop over known bounds: upwards or downwards as they lie, by the size of the step. -/
def rangeTree (ident : String) (start stop step : Number) (body : List Script.Statement) :
    Script.Statement :=
  let (compare, change) := if start.le stop then (BinaryOp.le, AssignOp.add) else (.ge, .sub)
  .forLoop (some (.assign (setTo ident start.tree)))
    (some (.binary compare (.var ident) stop.tree)) (some ⟨ident, change, step.abs.tree⟩) body

/-- The statements before a loop over computed bounds: the step is given the sign in which they lie. -/
def rangeSetupTree (start stop step : String) (startTree stopTree stepTree : Script.Expr) : List Script.Statement :=
  let flip : Script.Statement := .bind (.assign (setTo step (.unary .neg (.var step))))
  [.bind (declaration start startTree), .bind (declaration stop stopTree),
    .bind (declaration step stepTree),
    .branch [(.binary .lt (.var step) (.literal (.number 0)), [flip])] none,
    .branch [(.binary .gt (.var start) (.var stop), [flip])] none]

def computedRangeTree (ident start stop step : String) (body : List Script.Statement) :
    Script.Statement :=
  .forLoop (some (.assign (setTo ident (.var start))))
    (some (.binary .or
      (.binary .and (.binary .ge (.var step) (.literal (.number 0)))
        (.binary .le (.var ident) (.var stop)))
      (.binary .and (.binary .lt (.var step) (.literal (.number 0)))
        (.binary .ge (.var ident) (.var stop)))))
    (some (increase ident (.var step))) body

/-- A loop and the statements before it, once its body is known. -/
abbrev LoopTree := List Script.Statement → List Script.Statement

def Count.tree : Count → Coding LoopTree
  | .fixed times => do
    let counter ← helper "count"
    return fun body => [countedTree counter times.tree body]
  | .computed times => do
    let stop ← helper "repeat_end"
    let counter ← helper "count"
    let limit := times.tree (← get)
    return fun body => [.bind (declaration stop limit), countedTree counter (.var stop) body]

def Bounds.tree (ident : String) : Bounds → Coding LoopTree
  | .fixed start stop step => return fun body => [rangeTree ident start stop step body]
  | .computed start stop step => do
    let names ← get
    let s ← helper (ident ++ "_start")
    let e ← helper (ident ++ "_end")
    let i ← helper (ident ++ "_inc")
    return fun body => rangeSetupTree s e i (start.tree names) (stop.tree names) (step.tree names) ++
      [computedRangeTree ident s e i body]

def callTree (p : Primitive) (args : List Script.Expr) : Script.Statement := .eval (.call p args)

def markTree (id : String) : Script.Statement := callTree .mark [textTree id]

mutual

def Action.tree : Action → Coding (List Script.Statement)
  | .capture => return [callTree .capture []]
  | .autofocus focus => return [callTree .autofocus [textTree focus.text]]
  | .wait seconds => return [callTree .waitSeconds [seconds.tree]]
  | .moveStage axis mode steps =>
    return [callTree .moveStage [textTree axis, textTree mode.text, steps.tree (← get)]]
  | .moveStage3d mode x y z => do
    let names ← get
    return [callTree .moveStage3d [textTree mode.text, x.tree names, y.tree names, z.tree names]]
  | .print text => return [callTree .print [text.tree (← get)]]
  | .set name value => do
    let names ← get
    return [.bind (.assign (setTo (names.identOf name) (value.tree names)))]
  | .change name delta => do
    let names ← get
    return [.bind (.assign (increase (names.identOf name) (delta.tree names)))]
  | .choose branches otherwise => do
    let bs ← branchTrees branches
    return [.branch bs (← otherwiseTree otherwise)]
  | .countedLoop count body => do
    let loop ← count.tree
    return loop (← chainTree body)
  | .whileLoop negated cond body => do
    let c := cond.tree (← get)
    return [.whileLoop (if negated then .unary .not c else c) (← chainTree body)]
  | .rangeLoop name bounds body => do
    let loop ← bounds.tree ((← get).identOf name)
    return loop (← chainTree body)
  | .exitLoop => return [.exitLoop]
  | .nextRound => return [.nextRound]

def chainTree : List (String × Action) → Coding (List Script.Statement)
  | [] => return []
  | (id, action) :: rest => do
    let own ← action.tree
    return (markTree id :: own) ++ (← chainTree rest)

def branchTrees : List (Term × List (String × Action)) →
    Coding (List (Script.Expr × List Script.Statement))
  | [] => return []
  | (cond, body) :: rest => do
    let c := cond.tree (← get)
    let b ← chainTree body
    return (c, b) :: (← branchTrees rest)

def otherwiseTree : Option (List (String × Action)) → Coding (Option (List Script.Statement))
  | none => return none
  | some body => return some (← chainTree body)

end

def Item.tree : Item → Coding (List Script.Statement)
  | .value term => return [.eval (term.tree (← get))]
  | .action id a => return markTree id :: (← a.tree)

def stackTree : List Item → Coding (List Script.Statement)
  | [] => return []
  | item :: rest => do
    let own ← item.tree
    return own ++ (← stackTree rest)

def stackTrees : List (List Item) → Coding (List Script.Statement)
  | [] => return []
  | stack :: rest => do
    let own ← stackTree stack
    return own ++ (← stackTrees rest)

def headerTree (names : Names) : List Script.Statement :=
  names.declared.map fun ident => .bind (declaration ident (.literal .null))

/-! Numbers. -/

theorem Number.text_negative {k : Nat} (hk : Number.Representable k) (h : k ≠ 0) :
    (Number.finite true k hk).text = "-" ++ (Number.finite false k hk).text := by
  rw [← String.toList_inj]
  unfold Number.text Number.textChars
  simp only [if_neg h, String.toList_append, String.toList_ofList]
  split <;> rfl

theorem Number.text_zero (negative : Bool) (hk : Number.Representable 0) :
    (Number.finite negative 0 hk).text = "0" := by
  unfold Number.text Number.textChars
  dsimp only
  rw [if_pos rfl]

theorem Number.text_head {k : Nat} (hk : Number.Representable k) :
    ∃ c cs, (Number.finite false k hk).text.toList = c :: cs ∧ c.isDigit = true := by
  obtain ⟨d, htext, -⟩ := Number.textChars_finite hk
  obtain ⟨c, cs, hd, hc⟩ := Number.positional_head d
  refine ⟨c, cs, ?_, hc⟩
  unfold Number.text
  rw [String.toList_ofList, htext, hd]

theorem isIdent_nan : IsIdent "NaN" := ⟨⟨⟨'N', _, rfl, rfl⟩, List.all_eq_true.1 rfl⟩, by decide⟩

theorem isIdent_infinity : IsIdent "Infinity" := ⟨⟨⟨'I', _, rfl, rfl⟩, List.all_eq_true.1 rfl⟩, by decide⟩

namespace IsIdent

theorem writes {x : String} (h : IsIdent x) : Writes x 0 (.var x) := .var h.scans h.primitive

theorem writes_neg {x : String} (h : IsIdent x) : Writes ("-" ++ x) 2 (.unary .neg (.var x)) := by
  obtain ⟨⟨c, cs, hx, hc⟩, -⟩ := h.word
  exact (h.writes.loosen (by decide)).neg hx (by rintro rfl; cases hc)

end IsIdent

theorem Number.writes_magnitude {k : Nat} (hk : Number.Representable k) :
    Writes (Number.finite false k hk).text 0 (.literal (.number (.finite false k hk))) :=
  ⟨_, Token.scans_number hk, .number _⟩

theorem Number.writes_text (x : Number) : Writes x.text 2 x.tree := by
  cases x with
  | nan => exact isIdent_nan.writes.loosen (by decide)
  | infinite negative =>
    cases negative with
    | false => exact isIdent_infinity.writes.loosen (by decide)
    | true => exact isIdent_infinity.writes_neg
  | finite negative k hk =>
    unfold Number.tree
    dsimp only
    split
    next h =>
      obtain ⟨rfl, h0⟩ := h
      obtain ⟨c, cs, htext, hc⟩ := Number.text_head hk
      rw [Number.text_negative hk h0]
      exact ((Number.writes_magnitude hk).loosen (by decide)).neg htext (by rintro rfl; cases hc)
    next h =>
      have htext : (Number.finite negative k hk).text = (Number.finite false k hk).text := by
        cases negative with
        | false => rfl
        | true =>
          obtain rfl : k = 0 := by simpa using h
          rw [Number.text_zero, Number.text_zero]
      rw [htext]
      exact (Number.writes_magnitude hk).loosen (by decide)

theorem Number.writes_operand (x : Number) : Writes x.operand 2 x.tree := by
  unfold Number.operand
  split
  next => exact (((Number.writes_text x).loosen (by decide)).parens).loosen (by decide)
  next => exact Number.writes_text x

theorem writes_whole {k n : Nat} {s : String} {x : Number} (hs : toString n = s)
    (hx : Number.ofNat n = x) (hn : n * Number.unit = k) (hk : Number.Representable k)
    (hlt : n < 1000000000000000) : Writes s 0 (.literal (.number x)) := by
  rw [← hx, ← hs, Number.ofNat_eq_finite hn hk, ← Number.text_whole hn hk hlt]
  exact Number.writes_magnitude hk

theorem writes_zero : Writes "0" 0 (.literal (.number 0)) :=
  writes_whole (n := 0) rfl rfl (Nat.zero_mul _) Number.representable_zero (by decide)

theorem writes_one : Writes "1" 0 (.literal (.number 1)) :=
  writes_whole (n := 1) rfl rfl (Nat.one_mul _) Number.representable_unit (by decide)

/-! Terms. -/

theorem writes_textTree (s : String) : Writes (Text.quote s) 0 (textTree s) := .quote s

theorem separated_joinCode (names : Names) (parts : List Term) {rest : List Char}
    (h : Token.Separated rest) : Token.Separated ((joinCode names parts).toList ++ rest) := by
  cases parts with
  | nil => exact h
  | cons part parts =>
    unfold joinCode
    simp

theorem position_eq (axis : String) :
    "get_position(" ++ Text.quote axis ++ ")" = callCode .getPosition [Text.quote axis] := by
  rw [← String.toList_inj]
  simp [callCode, Primitive.name]

theorem prompt_eq (message : String) : "prompt(" ++ message ++ ")" = callCode .prompt [message] := by
  rw [← String.toList_inj]
  simp [callCode, Primitive.name]

theorem promptNumber_eq (message : String) :
    "prompt(" ++ message ++ ", \"number\")" = callCode .prompt [message, Text.quote "number"] := by
  rw [← String.toList_inj]
  simp [callCode, Primitive.name, Text.quote, Text.quoteChars, Text.escapeChar]

/-- That the parts of a text are operands of one chain of sums. -/
def Joined (names : Names) (parts : List Term) : Prop :=
  ∃ tail : List (BinaryOp × List Lexeme × Script.Expr),
    Token.Scans (joinCode names parts).toList (tail.flatMap fun t => .operator t.1 :: t.2.1) ∧
    (∀ t ∈ tail, t.1 = .add) ∧ (∀ t ∈ tail, t.2.2.Written 3 t.2.1) ∧
    ∀ before, joinTree names before parts =
      tail.foldl (fun e t => .binary t.1 e t.2.2) before

namespace Joined

variable {names : Names} {part : Term} {parts : List Term}

theorem nil : Joined names [] :=
  ⟨[], fun rest _ => by unfold joinCode; simp, by simp, by simp, fun before => by unfold joinTree; rfl⟩

theorem cons (h : Writes (part.code names) 2 (part.tree names)) (hparts : Joined names parts) :
    Joined names (part :: parts) := by
  obtain ⟨ls, hs, hw⟩ := h
  obtain ⟨tail, hscan, hops, hws, htree⟩ := hparts
  refine ⟨(.add, ls, part.tree names) :: tail, fun rest hrest => ?_, fun t ht => ?_, fun t ht => ?_,
    fun before => ?_⟩
  · have hop := Token.scans_binary .add (' ' :: ((part.code names).toList ++
      ((joinCode names parts).toList ++ rest))) (by simp)
    have hpart := hs _ (separated_joinCode names parts hrest)
    rw [hscan rest hrest] at hpart
    unfold joinCode
    simp only [BinaryOp.text] at hop
    simp at hop ⊢
    rw [hop, hpart]
    simp
  · exact (List.mem_cons.1 ht).elim (fun he => by rw [he]) (hops t)
  · exact (List.mem_cons.1 ht).elim (fun he => by rw [he]; exact hw.loosen) (hws t)
  · unfold joinTree
    rw [htree]
    rfl

theorem writes (h : Joined names (part :: parts)) :
    Writes (Term.code names (.join (part :: parts))) 2 (Term.tree names (.join (part :: parts))) := by
  obtain ⟨tail, hscan, hops, hw, htree⟩ := h
  have hchain := Expr.Written.chain (k := 1)
    ((Expr.Written.text "").loosen_le (m := 3) (by decide)) tail
    (fun t ht => by rw [hops t ht]; rfl) hw
  have hcode : Term.code names (.join (part :: parts)) =
      "(" ++ (Text.quote "" ++ joinCode names (part :: parts)) ++ ")" := by
    conv => lhs; unfold Term.code
    simp only [String.append_assoc]
  have hterm : Term.tree names (.join (part :: parts)) =
      tail.foldl (fun e t => .binary t.1 e t.2.2) (textTree "") := by
    conv => lhs; unfold Term.tree
    rw [htree]
  rw [hcode, hterm]
  refine (Writes.parens ⟨_, fun rest hrest => ?_, hchain.loosen_le (by decide)⟩).loosen (by decide)
  have hq := Token.scans_quote ""
  simp [hq, hscan rest hrest]

end Joined

namespace Term

variable {names : Names}

theorem binary_writes (op : BinaryOp) {left right : Term}
    (hl : Writes (left.code names) 2 (left.tree names))
    (hr : Writes (right.code names) 2 (right.tree names)) :
    Writes ((binary op left right).code names) 2 ((binary op left right).tree names) := by
  have hcode : "(" ++ left.code names ++ " " ++ op.text ++ " " ++ right.code names ++ ")" =
      "(" ++ (left.code names ++ " " ++ op.text ++ " " ++ right.code names) ++ ")" := by
    simp only [String.append_assoc]
  unfold code tree
  rw [hcode]
  exact (((Writes.binary op hl hr).loosen (Writes.rank_le op)).parens).loosen (by decide)

theorem position_writes (axis : String) :
    Writes ((position axis).code names) 2 ((position axis).tree names) := by
  unfold code tree
  rw [position_eq]
  exact (Writes.call .getPosition [(Text.quote axis, textTree axis)] (by
    simpa using (writes_textTree axis).loosen (by decide))).loosen (by decide)

theorem prompt_writes (numeric : Bool) {message : Term}
    (h : Writes (message.code names) 2 (message.tree names)) :
    Writes ((prompt numeric message).code names) 2 ((prompt numeric message).tree names) := by
  have hm := h.loosen (m := 8) (by decide)
  cases numeric <;> unfold code tree
  case true =>
    have hn := (writes_textTree "number").loosen (m := 8) (by decide)
    rw [promptNumber_eq]
    exact (Writes.call .prompt [(message.code names, message.tree names),
      (Text.quote "number", textTree "number")] (by simpa using ⟨hm, hn⟩)).loosen (by decide)
  case false =>
    rw [prompt_eq]
    exact (Writes.call .prompt [(message.code names, message.tree names)]
      (by simpa using hm)).loosen (by decide)

end Term

mutual

/-- The code of a term stands as an operand without further parentheses. -/
theorem Term.writes {names : Names} (h : names.Valid) : (t : Term) →
    Writes (t.code names) 2 (t.tree names)
  | .number x => by
    unfold Term.code Term.tree
    exact Number.writes_operand x
  | .text s => by
    unfold Term.code Term.tree
    exact (writes_textTree s).loosen (by decide)
  | .truth b => by
    unfold Term.code Term.tree
    exact (Writes.truth b).loosen (by decide)
  | .null => by
    unfold Term.code Term.tree
    exact Writes.null.loosen (by decide)
  | .var name => by
    unfold Term.code Term.tree
    exact (Names.isIdent_identOf h name).writes.loosen (by decide)
  | .position axis => Term.position_writes axis
  | .sharpness => by
    unfold Term.code Term.tree
    exact (Writes.call .getSharpnessMetric [] (by simp)).loosen (by decide)
  | .binary op left right => Term.binary_writes op (left.writes h) (right.writes h)
  | .negate operand => by
    unfold Term.code Term.tree
    exact ((operand.writes h).loosen (by decide)).not
  | .join [] => by
    unfold Term.code Term.tree joinTree
    exact (writes_textTree "").loosen (by decide)
  | .join (part :: parts) => Joined.writes (.cons (part.writes h) (parts_joined h parts))
  | .prompt numeric message => Term.prompt_writes numeric (message.writes h)

theorem parts_joined {names : Names} (h : names.Valid) : (parts : List Term) → Joined names parts
  | [] => .nil
  | part :: parts => .cons (part.writes h) (parts_joined h parts)

end

end ScopeBlocks
