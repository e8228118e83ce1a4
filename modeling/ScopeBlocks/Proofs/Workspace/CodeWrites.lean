import ScopeBlocks.Proofs.Workspace.PlanScript

/-! The code of a plan writes the script of the plan. Code and script are made by two readers of one
plan which draw the same helper names, so both are followed step by step with the same names. -/
namespace ScopeBlocks

open Script

/-- Two codings that give related results and leave the same names, all of them identifiers. -/
def Parallel {α β : Type} (R : α → β → Prop) (m : Coding α) (t : Coding β) : Prop :=
  ∀ names : Names, names.Valid →
    R (m names).1 (t names).1 ∧ (m names).2 = (t names).2 ∧ (t names).2.Valid

namespace Parallel

variable {α β γ δ : Type} {R : α → β → Prop} {S : γ → δ → Prop}

theorem pure {a : α} {b : β} (h : R a b) : Parallel R (Pure.pure a) (Pure.pure b) :=
  fun _ hv => ⟨h, rfl, hv⟩

theorem bind {m : Coding α} {t : Coding β} {f : α → Coding γ} {g : β → Coding δ}
    (h : Parallel R m t) (hfg : ∀ a b, R a b → Parallel S (f a) (g b)) :
    Parallel S (m >>= f) (t >>= g) := by
  intro names hv
  obtain ⟨hr, heq, hv'⟩ := h names hv
  have hnext := hfg _ _ hr (t names).2 hv'
  show S (f (m names).1 (m names).2).1 _ ∧ (f (m names).1 (m names).2).2 = _ ∧ _
  rw [heq]
  exact hnext

theorem get : Parallel (fun n n' : Names => n = n' ∧ n.Valid) MonadState.get MonadState.get :=
  fun _ hv => ⟨⟨rfl, hv⟩, rfl, hv⟩

theorem helper (base : String) :
    Parallel (fun x y : String => x = y ∧ IsIdent x) (helper base) (helper base) :=
  fun names hv => ⟨⟨rfl, names.isIdent_distinct base⟩, rfl, names.valid_distinct hv base⟩

theorem withNames {f : Names → Coding γ} {g : Names → Coding δ}
    (h : ∀ names : Names, names.Valid → Parallel S (f names) (g names)) :
    Parallel S (MonadState.get >>= f) (MonadState.get >>= g) :=
  .bind .get fun names _ ⟨heq, hv⟩ => heq ▸ h names hv

theorem withHelper {base : String} {f : String → Coding γ} {g : String → Coding δ}
    (h : ∀ x, IsIdent x → Parallel S (f x) (g x)) :
    Parallel S (ScopeBlocks.helper base >>= f) (ScopeBlocks.helper base >>= g) :=
  .bind (.helper base) fun x _ ⟨heq, hx⟩ => heq ▸ h x hx

end Parallel

/-! Lines of the kinds that plans need. -/

theorem writes_callLine {line : String} (p : Primitive) (args : List (String × Script.Expr))
    (h : ∀ a ∈ args, Writes a.1 2 a.2) (hline : line = callCode p (args.map Prod.fst) ++ ";") :
    WriteLines [line] [callTree p (args.map Prod.snd)] := by
  rw [hline]
  exact .eval ((Writes.call p args fun a ha => (h a ha).loosen (by decide)).loosen (by decide))

theorem writes_mark (id : String) : WriteLines ["mark(" ++ Text.quote id ++ ");"] [markTree id] := by
  refine writes_callLine .mark [(Text.quote id, textTree id)] ?_ ?_
  · simpa using (writes_textTree id).loosen (by decide)
  · rw [← String.toList_inj]
    simp [callCode, Primitive.name]

section

variable {x code : String} {e : Script.Expr}

theorem writes_setTo (hx : IsIdent x) (h : Writes code 8 e) :
    WritesAssignment (x ++ " = " ++ code) (setTo x e) := by
  have hcode : x ++ " = " ++ code = x ++ " " ++ AssignOp.set.text ++ " " ++ code := by
    rw [← String.toList_inj]
    simp [AssignOp.text]
  rw [hcode]
  exact writes_assignment hx.scans hx.primitive .set h

theorem writes_increase (hx : IsIdent x) (h : Writes code 8 e) :
    WritesAssignment (x ++ " += " ++ code) (increase x e) := by
  have hcode : x ++ " += " ++ code = x ++ " " ++ AssignOp.add.text ++ " " ++ code := by
    rw [← String.toList_inj]
    simp [AssignOp.text]
  rw [hcode]
  exact writes_assignment hx.scans hx.primitive .add h

theorem writes_setLine (hx : IsIdent x) (h : Writes code 8 e) :
    WriteLines [x ++ " = " ++ code ++ ";"] [.bind (.assign (setTo x e))] :=
  .bind (writes_assign (writes_setTo hx h))

theorem writes_increaseLine (hx : IsIdent x) (h : Writes code 8 e) :
    WriteLines [x ++ " += " ++ code ++ ";"] [.bind (.assign (increase x e))] :=
  .bind (writes_assign (writes_increase hx h))

theorem writes_declareLine (hx : IsIdent x) (h : Writes code 8 e) :
    WriteLines ["var " ++ x ++ " = " ++ code ++ ";"] [.bind (declaration x e)] :=
  .bind (writes_declare hx.scans hx.primitive h)

end

/-- Heads of loops, each with the loop that it makes of a body. -/
def WritesLoop (head : List String) (loop : LoopTree) : Prop :=
  ∀ lines ss, WriteLines lines ss → WriteLines (head ++ lines ++ ["\x7d"]) (loop ss)

theorem writes_countedHead {counter times : String} {e : Script.Expr} (hc : IsIdent counter)
    (ht : Writes times 2 e) :
    WritesLoop [countedHead counter times] fun body => [countedTree counter e body] := by
  intro lines ss hb
  have hi := writes_declare hc.scans hc.primitive (writes_zero.loosen (by decide))
  have hcond := Writes.binary .lt (hc.writes.loosen (by decide)) ht
  have hu := writes_increase hc (writes_one.loosen (by decide))
  have hw := WriteLines.forLoop hi (hcond.loosen (by decide)) hu hb
  have hline : countedHead counter times = "for (" ++ ("var " ++ counter ++ " = " ++ "0") ++ "; " ++
      (counter ++ " " ++ BinaryOp.lt.text ++ " " ++ times) ++ "; " ++ (counter ++ " += " ++ "1") ++
      ") \x7b" := by
    rw [← String.toList_inj]
    unfold countedHead
    simp [BinaryOp.text]
  rw [hline]
  exact hw

section

variable {ident : String} {start stop step : Number}

theorem rangeHead_up (hle : start.le stop = true) :
    rangeHead ident start stop step = "for (" ++ (ident ++ " = " ++ start.text) ++ "; " ++
      (ident ++ " " ++ BinaryOp.le.text ++ " " ++ stop.text) ++ "; " ++
        (ident ++ " += " ++ step.abs.text) ++ ") \x7b" := by
  have hcompare : " <= " = " " ++ BinaryOp.le.text ++ " " := rfl
  unfold rangeHead
  rw [hle]
  simp only [if_true, hcompare, String.append_assoc]

theorem rangeHead_down (hle : start.le stop = false) :
    rangeHead ident start stop step = "for (" ++ (ident ++ " = " ++ start.text) ++ "; " ++
      (ident ++ " " ++ BinaryOp.ge.text ++ " " ++ stop.text) ++ "; " ++
        (ident ++ " " ++ AssignOp.sub.text ++ " " ++ step.abs.text) ++ ") \x7b" := by
  have hcompare : " >= " = " " ++ BinaryOp.ge.text ++ " " := rfl
  have hchange : " -= " = " " ++ AssignOp.sub.text ++ " " := rfl
  unfold rangeHead
  rw [hle]
  simp only [Bool.false_eq_true, if_false, hcompare, hchange, String.append_assoc]

theorem writes_rangeHead (hi : IsIdent ident) (start stop step : Number) :
    WritesLoop [rangeHead ident start stop step] fun body =>
      [rangeTree ident start stop step body] := by
  intro lines ss hb
  have hinit := writes_assign (writes_setTo hi (start.writes_text.loosen (by decide)))
  have hident := hi.writes.loosen (m := 2) (by decide)
  have hstep := step.abs.writes_text.loosen (m := 8) (by decide)
  rcases hle : start.le stop with _ | _
  · have hcond := Writes.binary .ge hident stop.writes_text
    have hw := WriteLines.forLoop hinit (hcond.loosen (by decide))
      (writes_assignment hi.scans hi.primitive .sub hstep) hb
    rw [rangeHead_down hle]
    simp only [rangeTree, hle, Bool.false_eq_true, if_false]
    exact hw
  · have hcond := Writes.binary .le hident stop.writes_text
    have hw := WriteLines.forLoop hinit (hcond.loosen (by decide)) (writes_increase hi hstep) hb
    rw [rangeHead_up hle]
    simp only [rangeTree, hle, if_true]
    exact hw

end

theorem writes_flip {left right step : String} (op : BinaryOp) {e f : Script.Expr}
    (hs : IsIdent step) (hl : Writes left 2 e) (hr : Writes right 2 f) :
    WriteLines ["if (" ++ (left ++ " " ++ op.text ++ " " ++ right) ++ ") \x7b",
      "  " ++ step ++ " = -" ++ step ++ ";", "\x7d"]
      [.branch [(.binary op e f, [.bind (.assign (setTo step (.unary .neg (.var step))))])] none] := by
  have hset := (writes_setLine hs (hs.writes_neg.loosen (m := 8) (by decide))).indented
  have hw := WriteLines.branch ((Writes.binary op hl hr).loosen (Writes.rank_le op)) hset .nil .none
  have hline : "  " ++ step ++ " = -" ++ step ++ ";" = "  " ++ (step ++ " = " ++ ("-" ++ step) ++ ";") := by
    rw [← String.toList_inj]
    simp
  rw [hline]
  exact hw

theorem writes_rangeSetup {start stop step startCode stopCode stepCode : String}
    {startTree stopTree stepTree : Script.Expr} (hs : IsIdent start) (he : IsIdent stop)
    (hi : IsIdent step) (h₁ : Writes startCode 8 startTree) (h₂ : Writes stopCode 8 stopTree)
    (h₃ : Writes stepCode 8 stepTree) :
    WriteLines (rangeSetup start stop step startCode stopCode stepCode)
      (rangeSetupTree start stop step startTree stopTree stepTree) := by
  have hnegative := writes_flip .lt hi (hi.writes.loosen (by decide))
    (writes_zero.loosen (by decide))
  have hdown := writes_flip .gt hi (hs.writes.loosen (by decide))
    (he.writes.loosen (by decide))
  have hw := (((writes_declareLine hs h₁).append (writes_declareLine he h₂)).append
    (writes_declareLine hi h₃)).append (hnegative.append hdown)
  have hline₁ : "if (" ++ step ++ " < 0) \x7b" =
      "if (" ++ (step ++ " " ++ BinaryOp.lt.text ++ " " ++ "0") ++ ") \x7b" := by
    rw [← String.toList_inj]
    simp [BinaryOp.text]
  have hline₂ : "if (" ++ start ++ " > " ++ stop ++ ") \x7b" =
      "if (" ++ (start ++ " " ++ BinaryOp.gt.text ++ " " ++ stop) ++ ") \x7b" := by
    rw [← String.toList_inj]
    simp [BinaryOp.text]
  unfold rangeSetup
  rw [hline₁, hline₂]
  exact hw

theorem computedRangeHead_eq (ident start stop step : String) :
    computedRangeHead ident start stop step = "for (" ++ (ident ++ " = " ++ start) ++ "; " ++
      ("(" ++ (("(" ++ (step ++ " " ++ BinaryOp.ge.text ++ " " ++ "0") ++ ")") ++ " " ++
        BinaryOp.and.text ++ " " ++ ("(" ++ (ident ++ " " ++ BinaryOp.le.text ++ " " ++ stop) ++ ")")) ++
        ")" ++ " " ++ BinaryOp.or.text ++ " " ++
      ("(" ++ (("(" ++ (step ++ " " ++ BinaryOp.lt.text ++ " " ++ "0") ++ ")") ++ " " ++
        BinaryOp.and.text ++ " " ++ ("(" ++ (ident ++ " " ++ BinaryOp.ge.text ++ " " ++ stop) ++ ")")) ++
        ")")) ++ "; " ++ (ident ++ " += " ++ step) ++ ") \x7b" := by
  have hfirst : "; ((" = "; " ++ "(" ++ "(" := rfl
  have hup : " >= 0) && (" = " " ++ BinaryOp.ge.text ++ " " ++ "0" ++ ")" ++ " " ++
    BinaryOp.and.text ++ " " ++ "(" := rfl
  have hle : " <= " = " " ++ BinaryOp.le.text ++ " " := rfl
  have hor : ")) || ((" = ")" ++ ")" ++ " " ++ BinaryOp.or.text ++ " " ++ "(" ++ "(" := rfl
  have hdown : " < 0) && (" = " " ++ BinaryOp.lt.text ++ " " ++ "0" ++ ")" ++ " " ++
    BinaryOp.and.text ++ " " ++ "(" := rfl
  have hge : " >= " = " " ++ BinaryOp.ge.text ++ " " := rfl
  have hlast : ")); " = ")" ++ ")" ++ "; " := rfl
  unfold computedRangeHead
  simp only [hfirst, hup, hle, hor, hdown, hge, hlast, String.append_assoc]

theorem writes_computedRangeHead {ident start stop step : String} (hv : IsIdent ident)
    (hs : IsIdent start) (he : IsIdent stop) (hi : IsIdent step) :
    WritesLoop [computedRangeHead ident start stop step] fun body =>
      [computedRangeTree ident start stop step body] := by
  intro lines ss hb
  have hv2 := hv.writes.loosen (m := 2) (by decide)
  have he2 := he.writes.loosen (m := 2) (by decide)
  have hi2 := hi.writes.loosen (m := 2) (by decide)
  have hz := writes_zero.loosen (m := 2) (by decide)
  have compare : ∀ (op : BinaryOp) {l r : String} {e f : Script.Expr}, Writes l 2 e → Writes r 2 f →
      Writes ("(" ++ (l ++ " " ++ op.text ++ " " ++ r) ++ ")") 2 (.binary op e f) := fun _ _ _ _ _ hl hr =>
    (((Writes.binary _ hl hr).loosen (Writes.rank_le _)).parens).loosen (by decide)
  have hup := compare .and (compare .ge hi2 hz) (compare .le hv2 he2)
  have hdown := compare .and (compare .lt hi2 hz) (compare .ge hv2 he2)
  have hw := WriteLines.forLoop
    (writes_assign (writes_setTo hv (hs.writes.loosen (by decide)))) (Writes.binary .or hup hdown)
    (writes_increase hv (hi.writes.loosen (by decide))) hb
  rw [computedRangeHead_eq]
  exact hw

/-! Heads of loops whose bounds are computed come after the statements that compute them. -/

namespace WritesLoop

variable {lines head : List String} {ss : List Script.Statement} {loop : LoopTree}

theorem after (h : WriteLines lines ss) (hl : WritesLoop head loop) :
    WritesLoop (lines ++ head) fun body => ss ++ loop body := by
  intro more ts hm
  have hw := h.append (hl more ts hm)
  rw [← List.append_assoc, ← List.append_assoc] at hw
  exact hw

end WritesLoop

theorem Count.writes (c : Count) : Parallel WritesLoop c.lines c.tree := by
  cases c with
  | fixed times =>
    unfold Count.lines Count.tree
    exact .withHelper fun counter hc => .pure (writes_countedHead hc times.writes_operand)
  | computed times =>
    unfold Count.lines Count.tree
    refine .withHelper fun stop hs => .withHelper fun counter hc => .withNames fun names hv => ?_
    have hlimit := writes_declareLine hs ((times.writes hv).loosen (by decide))
    exact .pure (.after hlimit (writes_countedHead hc (hs.writes.loosen (by decide))))

theorem Bounds.writes {ident : String} (hi : IsIdent ident) (b : Bounds) :
    Parallel WritesLoop (b.lines ident) (b.tree ident) := by
  cases b with
  | fixed start stop step =>
    unfold Bounds.lines Bounds.tree
    exact .pure (writes_rangeHead hi start stop step)
  | computed start stop step =>
    unfold Bounds.lines Bounds.tree
    refine .withNames fun names hv => .withHelper fun s hs => .withHelper fun e he => ?_
    refine .withHelper fun i hinc => ?_
    have hsetup := writes_rangeSetup hs he hinc ((start.writes hv).loosen (by decide))
      ((stop.writes hv).loosen (by decide)) ((step.writes hv).loosen (by decide))
    exact .pure (.after hsetup (writes_computedRangeHead hi hs he hinc))

/-! Choices. -/

/-- Lines of a choice up to what is done otherwise. -/
def WritesChoice (lines : List String) (bs : List (Script.Expr × List Script.Statement)) : Prop :=
  ∀ last o, WriteOtherwise last o → WriteLines (lines ++ last ++ ["\x7d"]) [.branch bs o]

mutual

/-- Every choice has a branch. -/
def Action.Proper : Action → Prop
  | .choose branches otherwise =>
    branches ≠ [] ∧ branchesProper branches ∧ otherwiseProper otherwise
  | .countedLoop _ body => chainProper body
  | .whileLoop _ _ body => chainProper body
  | .rangeLoop _ _ body => chainProper body
  | _ => True

def chainProper : List (String × Action) → Prop
  | [] => True
  | (_, action) :: rest => action.Proper ∧ chainProper rest

def branchesProper : List (Term × List (String × Action)) → Prop
  | [] => True
  | (_, body) :: rest => chainProper body ∧ branchesProper rest

def otherwiseProper : Option (List (String × Action)) → Prop
  | none => True
  | some body => chainProper body

end

theorem moveStage3d_eq (m x y z : String) :
    "move_stage_3d(" ++ m ++ ", " ++ x ++ ", " ++ y ++ ", " ++ z ++ ");" =
      callCode .moveStage3d [m, x, y, z] ++ ";" := by
  rw [← String.toList_inj]
  simp [callCode, Primitive.name]

theorem moveStage_eq (axis mode steps : String) :
    "move_stage(" ++ axis ++ ", " ++ mode ++ ", " ++ steps ++ ");" =
      callCode .moveStage [axis, mode, steps] ++ ";" := by
  rw [← String.toList_inj]
  simp [callCode, Primitive.name]

/-! One lemma for each kind of action; those that hold other actions take what is said of these. -/

namespace Action

theorem capture_writes : Parallel WriteLines capture.lines capture.tree := by
  exact .pure (writes_callLine .capture [] (by simp) rfl)

theorem autofocus_writes (focus : Focus) :
    Parallel WriteLines (autofocus focus).lines (autofocus focus).tree := by
  refine .pure (writes_callLine .autofocus [(Text.quote focus.text, textTree focus.text)] ?_ ?_)
  · simpa using (writes_textTree focus.text).loosen (by decide)
  · rw [← String.toList_inj]
    simp [callCode, Primitive.name]

theorem wait_writes (seconds : Number) :
    Parallel WriteLines (wait seconds).lines (wait seconds).tree := by
  refine .pure (writes_callLine .waitSeconds [(seconds.operand, seconds.tree)] ?_ ?_)
  · simpa using seconds.writes_operand
  · rw [← String.toList_inj]
    simp [callCode, Primitive.name]

theorem moveStage_writes (axis : String) (mode : MoveMode) (steps : Term) :
    Parallel WriteLines (moveStage axis mode steps).lines (moveStage axis mode steps).tree := by
  refine .withNames fun names hv => ?_
  refine .pure (writes_callLine .moveStage [(Text.quote axis, textTree axis),
    (Text.quote mode.text, textTree mode.text), (steps.code names, steps.tree names)] ?_
      (moveStage_eq _ _ _))
  have haxis := (writes_textTree axis).loosen (m := 2) (by decide)
  have hmode := (writes_textTree mode.text).loosen (m := 2) (by decide)
  simpa using ⟨haxis, hmode, steps.writes hv⟩

theorem moveStage3d_writes (mode : MoveMode) (x y z : Term) :
    Parallel WriteLines (moveStage3d mode x y z).lines (moveStage3d mode x y z).tree := by
  refine .withNames fun names hv => ?_
  refine .pure (writes_callLine .moveStage3d [(Text.quote mode.text, textTree mode.text),
    (x.code names, x.tree names), (y.code names, y.tree names), (z.code names, z.tree names)] ?_
      (moveStage3d_eq _ _ _ _))
  have hmode := (writes_textTree mode.text).loosen (m := 2) (by decide)
  simpa using ⟨hmode, x.writes hv, y.writes hv, z.writes hv⟩

theorem print_writes (text : Term) : Parallel WriteLines (print text).lines (print text).tree := by
  refine .withNames fun names hv => ?_
  refine .pure (writes_callLine .print [(text.code names, text.tree names)] ?_ ?_)
  · simpa using text.writes hv
  · rw [← String.toList_inj]
    simp [callCode, Primitive.name]

theorem set_writes (name : String) (value : Term) :
    Parallel WriteLines (set name value).lines (set name value).tree := by
  refine .withNames fun names hv => .pure ?_
  exact writes_setLine (Names.isIdent_identOf hv name) ((value.writes hv).loosen (by decide))

theorem change_writes (name : String) (delta : Term) :
    Parallel WriteLines (change name delta).lines (change name delta).tree := by
  refine .withNames fun names hv => .pure ?_
  exact writes_increaseLine (Names.isIdent_identOf hv name) ((delta.writes hv).loosen (by decide))

section

variable {body : List (String × Action)} (hbody : Parallel WriteLines (chainLines body) (chainTree body))
include hbody

theorem choose_writes (cond : Term) {rest : List (Term × List (String × Action))}
    {otherwise : Option (List (String × Action))}
    (hrest : Parallel WriteBranches (branchLines "\x7d else if (" rest) (branchTrees rest))
    (hother : Parallel WriteOtherwise (otherwiseLines otherwise) (otherwiseTree otherwise)) :
    Parallel WriteLines (choose ((cond, body) :: rest) otherwise).lines
      (choose ((cond, body) :: rest) otherwise).tree := by
  have hchoice : Parallel WritesChoice _ _ := .withNames fun names hv =>
    .bind hbody fun lines ss hb => .bind hrest fun more bs hm => .pure fun last o ho =>
      WriteLines.branch ((cond.writes hv).loosen (by decide)) hb hm ho
  refine .bind hchoice fun lines bs hl => ?_
  exact .bind hother fun last o ho => .pure (hl last o ho)

theorem countedLoop_writes (count : Count) :
    Parallel WriteLines (countedLoop count body).lines (countedLoop count body).tree := by
  refine .bind count.writes fun head loop hl => ?_
  exact .bind hbody fun lines ss hb => .pure (hl lines ss hb)

theorem whileLoop_writes (negated : Bool) (cond : Term) :
    Parallel WriteLines (whileLoop negated cond body).lines (whileLoop negated cond body).tree := by
  refine .withNames fun names hv => .bind hbody fun lines ss hb => .pure ?_
  have hc := cond.writes hv
  cases negated with
  | false => exact .whileLoop (hc.loosen (by decide)) hb
  | true => exact .whileLoop ((hc.loosen (by decide)).not.loosen (by decide)) hb

theorem rangeLoop_writes (name : String) (bounds : Bounds) :
    Parallel WriteLines (rangeLoop name bounds body).lines (rangeLoop name bounds body).tree := by
  refine .withNames fun names hv => ?_
  refine .bind (bounds.writes (Names.isIdent_identOf hv name)) fun head loop hl => ?_
  exact .bind hbody fun lines ss hb => .pure (hl lines ss hb)

end

theorem exitLoop_writes : Parallel WriteLines exitLoop.lines exitLoop.tree := by
  exact .pure .exitLoop

theorem nextRound_writes : Parallel WriteLines nextRound.lines nextRound.tree := by
  exact .pure .nextRound

end Action

mutual

/-- The lines of an action write its statements. -/
theorem Action.writes : (a : Action) → a.Proper → Parallel WriteLines a.lines a.tree
  | .capture, _ => Action.capture_writes
  | .autofocus focus, _ => Action.autofocus_writes focus
  | .wait seconds, _ => Action.wait_writes seconds
  | .moveStage axis mode steps, _ => Action.moveStage_writes axis mode steps
  | .moveStage3d mode x y z, _ => Action.moveStage3d_writes mode x y z
  | .print text, _ => Action.print_writes text
  | .set name value, _ => Action.set_writes name value
  | .change name delta, _ => Action.change_writes name delta
  | .choose [] otherwise, h => by
    unfold Action.Proper at h
    exact absurd rfl h.1
  | .choose ((cond, body) :: rest) otherwise, h => by
    unfold Action.Proper branchesProper at h
    obtain ⟨-, ⟨hbody, hrest⟩, hother⟩ := h
    exact Action.choose_writes (chain_writes body hbody) cond (branches_writes rest hrest)
      (otherwise_writes otherwise hother)
  | .countedLoop count body, h => by
    unfold Action.Proper at h
    exact Action.countedLoop_writes (chain_writes body h) count
  | .whileLoop negated cond body, h => by
    unfold Action.Proper at h
    exact Action.whileLoop_writes (chain_writes body h) negated cond
  | .rangeLoop name bounds body, h => by
    unfold Action.Proper at h
    exact Action.rangeLoop_writes (chain_writes body h) name bounds
  | .exitLoop, _ => Action.exitLoop_writes
  | .nextRound, _ => Action.nextRound_writes

theorem chain_writes : (c : List (String × Action)) → chainProper c →
    Parallel WriteLines (chainLines c) (chainTree c)
  | [], _ => by
    unfold chainLines chainTree
    exact .pure .nil
  | (id, action) :: rest, h => by
    unfold chainProper at h
    unfold chainLines chainTree
    refine .bind (action.writes h.1) fun lines ss hl => ?_
    refine .bind (chain_writes rest h.2) fun more ts hm => .pure ?_
    exact (((writes_mark id).append hl).indented).append hm

theorem branches_writes : (bs : List (Term × List (String × Action))) → branchesProper bs →
    Parallel WriteBranches (branchLines "\x7d else if (" bs) (branchTrees bs)
  | [], _ => by
    unfold branchLines branchTrees
    exact .pure .nil
  | (cond, body) :: rest, h => by
    unfold branchesProper at h
    unfold branchLines branchTrees
    refine .withNames fun names hv => ?_
    refine .bind (chain_writes body h.1) fun lines ss hb => ?_
    refine .bind (branches_writes rest h.2) fun more bs hm => .pure ?_
    exact .cons ((cond.writes hv).loosen (by decide)) hb hm

theorem otherwise_writes : (o : Option (List (String × Action))) → otherwiseProper o →
    Parallel WriteOtherwise (otherwiseLines o) (otherwiseTree o)
  | none, _ => by
    unfold otherwiseLines otherwiseTree
    exact .pure .none
  | some body, h => by
    unfold otherwiseProper at h
    unfold otherwiseLines otherwiseTree
    exact .bind (chain_writes body h) fun lines ss hb => .pure (.some hb)

end

end ScopeBlocks
