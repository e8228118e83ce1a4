import ScopeBlocks.Proofs.Script.Stepping

/-! Failures in expressions. Where a variable holds a failure in place of a value, an expression without calls
still comes to a value: of the kind that it had, or a failure that was there already. That kinds are kept is
not enough to go through the parts of an expression, since an object may lack the fields of another one; of
objects, arrays and null only themselves or failures come up. -/
namespace ScopeBlocks.Script

def Expr.isPlain : Expr → Bool
  | .literal _ | .var _ => true
  | .call _ _ => false
  | .member object _ => object.isPlain
  | .unary _ operand => operand.isPlain
  | .binary op left right => op != .and && op != .or && (left.isPlain && right.isPlain)

variable {s t : Store} {v w : Value}

/-- What a plain expression comes to. -/
inductive Comes (s : Store) : Expr → Value → Prop
  | literal (v : Value) : Comes s (.literal v) v
  | var {name : String} {v : Value} (h : s.read name = .ok v) : Comes s (.var name) v
  | member {object : Expr} {field : String} {v w : Value} (h : Comes s object v)
      (hw : v.member field = .ok w) : Comes s (.member object field) w
  | unary {op : UnaryOp} {operand : Expr} {v w : Value} (h : Comes s operand v)
      (hw : op.apply v = .ok w) : Comes s (.unary op operand) w
  | binary {op : BinaryOp} {left right : Expr} {v w x : Value} (hand : op ≠ .and) (hor : op ≠ .or)
      (hv : Comes s left v) (hw : Comes s right w) (hx : op.apply v w = .ok x) :
      Comes s (.binary op left right) x

section

variable {σ : Type} {host : Host σ} {tape : Tape σ}

theorem eval_binary {op : BinaryOp} (hand : op ≠ .and) (hor : op ≠ .or) (left right : Expr) :
    (Expr.binary op left right).eval host s = (do
      let v ← left.eval host s
      .ofFault (op.apply v (← right.eval host s))) := by
  cases op <;> first | rfl | exact absurd rfl hand | exact absurd rfl hor

theorem Comes.eval {e : Expr} (h : Comes s e v) : e.eval host s tape = (.ok v, tape) := by
  induction h with
  | literal v => rfl
  | var h =>
    rw [Expr.eval, h]
    rfl
  | member _ hw ih =>
    rw [Expr.eval, Evaluation.bind_apply, ih]
    dsimp only
    rw [hw]
    rfl
  | unary _ hw ih =>
    rw [Expr.eval, Evaluation.bind_apply, ih]
    dsimp only
    rw [hw]
    rfl
  | binary hand hor _ _ hx ih ih' =>
    rw [eval_binary hand hor, Evaluation.bind_apply, ih]
    dsimp only
    rw [Evaluation.bind_apply, ih']
    dsimp only
    rw [hx]
    rfl

theorem Evaluation.ok_of_fault {x : Except Fault Value} {tape' : Tape σ}
    (h : Evaluation.ofFault x tape = (.ok v, tape')) : x = .ok v := by
  cases x with
  | ok a =>
    cases h
    rfl
  | error c => cases h

theorem Evaluation.ok_of_bind {α β : Type} {x : Evaluation σ α} {f : α → Evaluation σ β} {b : β} {tape' : Tape σ}
    (h : (x >>= f) tape = (.ok b, tape')) : ∃ a mid, x tape = (.ok a, mid) ∧ f a mid = (.ok b, tape') := by
  rw [Evaluation.bind_apply] at h
  cases hx : x tape with
  | mk r mid =>
    rw [hx] at h
    cases r with
    | ok a => exact ⟨a, mid, rfl, h⟩
    | error e => cases h

theorem comes_of_eval {e : Expr} (he : e.isPlain = true) {tape' : Tape σ}
    (h : e.eval host s tape = (.ok v, tape')) : Comes s e v := by
  fun_induction Expr.isPlain e generalizing v tape tape' with
  | case1 =>
    cases h
    exact .literal _
  | case2 name =>
    rw [Expr.eval] at h
    exact .var (Evaluation.ok_of_fault h)
  | case3 => cases he
  | case4 object field ih =>
    rw [Expr.eval] at h
    obtain ⟨w, mid, hobject, h⟩ := Evaluation.ok_of_bind h
    exact .member (ih he hobject) (Evaluation.ok_of_fault h)
  | case5 op operand ih =>
    rw [Expr.eval] at h
    obtain ⟨w, mid, hoperand, h⟩ := Evaluation.ok_of_bind h
    exact .unary (ih he hoperand) (Evaluation.ok_of_fault h)
  | case6 op left right ihl ihr =>
    simp only [Bool.and_eq_true, bne_iff_ne] at he
    obtain ⟨⟨hand, hor⟩, hleft, hright⟩ := he
    rw [eval_binary hand hor] at h
    obtain ⟨w, mid, hl, h⟩ := Evaluation.ok_of_bind h
    obtain ⟨x, mid', hr, h⟩ := Evaluation.ok_of_bind h
    exact .binary hand hor (ihl hleft hl) (ihr hright hr) (Evaluation.ok_of_fault h)

end

/-! What operators take. -/

namespace Value

theorem add_text (h : v.kind = .string ∨ w.kind = .string) : ∃ s, v.add w = .ok (.string s) := by
  cases v with
  | string s => exact ⟨_, rfl⟩
  | _ =>
    cases w with
    | string s => exact ⟨_, rfl⟩
    | _ => rcases h with h | h <;> cases h

theorem add_error (hv : v.kind ≠ .string) (hw : w.kind ≠ .string)
    (h : v.kind = .error ∨ w.kind = .error) : ∃ message, v.add w = .ok (.error message) := by
  cases v with
  | string s => exact absurd rfl hv
  | error message =>
    cases w with
    | string s => exact absurd rfl hw
    | _ => exact ⟨message, rfl⟩
  | _ =>
    cases w with
    | error message => exact ⟨message, rfl⟩
    | _ => rcases h with h | h <;> cases h

theorem add_number {x : Value} (h : v.add w = .ok x) (hv : v.kind ≠ .string) (hw : w.kind ≠ .string)
    (hv' : v.kind ≠ .error) (hw' : w.kind ≠ .error) : ∃ a b : Number, v = .number a ∧ w = .number b := by
  cases v with
  | string s => exact absurd rfl hv
  | error message => exact absurd rfl hv'
  | number a =>
    cases w with
    | number b => exact ⟨a, b, rfl, rfl⟩
    | string s => exact absurd rfl hw
    | error message => exact absurd rfl hw'
    | _ => cases h
  | _ =>
    cases w with
    | string s => exact absurd rfl hw
    | error message => exact absurd rfl hw'
    | _ => cases h

theorem arithmetic_error (f : Number → Number → Number) (h : v.kind = .error ∨ w.kind = .error) :
    ∃ message, v.arithmetic f w = .ok (.error message) := by
  cases v with
  | error message => exact ⟨message, by cases w <;> rfl⟩
  | _ =>
    cases w with
    | error message => exact ⟨message, rfl⟩
    | _ => rcases h with h | h <;> cases h

theorem arithmetic_number {f : Number → Number → Number} {x : Value} (h : v.arithmetic f w = .ok x)
    (hv : v.kind ≠ .error) (hw : w.kind ≠ .error) : ∃ a b : Number, v = .number a ∧ w = .number b := by
  cases v with
  | error message => exact absurd rfl hv
  | number a =>
    cases w with
    | number b => exact ⟨a, b, rfl, rfl⟩
    | error message => exact absurd rfl hw
    | _ => cases h
  | _ =>
    cases w with
    | error message => exact absurd rfl hw
    | _ => cases h

theorem compareBy_error (accept : Ordering → Bool) (h : v.kind = .error ∨ w.kind = .error) :
    v.compareBy accept w = .ok (.bool false) := by
  cases v with
  | error message => cases w <;> rfl
  | _ =>
    cases w with
    | error message => rfl
    | _ => rcases h with h | h <;> cases h

theorem compareBy_same {accept : Ordering → Bool} {x : Value} (h : v.compareBy accept w = .ok x)
    (hv : v.kind ≠ .error) (hw : w.kind ≠ .error) :
    (∃ a b : Number, v = .number a ∧ w = .number b) ∨ ∃ s t : String, v = .string s ∧ w = .string t := by
  cases v with
  | error message => exact absurd rfl hv
  | number a =>
    cases w with
    | number b => exact .inl ⟨a, b, rfl, rfl⟩
    | error message => exact absurd rfl hw
    | _ => cases h
  | string s =>
    cases w with
    | string t => exact .inr ⟨s, t, rfl, rfl⟩
    | error message => exact absurd rfl hw
    | _ => cases h
  | _ =>
    cases w with
    | error message => exact absurd rfl hw
    | _ => cases h

theorem compareBy_bool {accept : Ordering → Bool} {x : Value} (h : v.compareBy accept w = .ok x) :
    ∃ b, x = .bool b := by
  unfold compareBy at h
  split at h <;> cases h <;> exact ⟨_, rfl⟩

end Value

/-! Values beside failures. -/

/-- A value in place of which there may be another one where some variables fail: a failure, or one that the
same operators take. -/
inductive Value.GivesWay : Value → Value → Prop
  | same (v : Value) : GivesWay v v
  | failed (v : Value) (message : String) : GivesWay v (.error message)
  | bool (a b : Bool) : GivesWay (.bool a) (.bool b)
  | number (x y : Number) : GivesWay (.number x) (.number y)
  | string (x y : String) : GivesWay (.string x) (.string y)

namespace Value.GivesWay

variable {v' w' x : Value}

theorem kind (h : v.GivesWay w) : w.kind = v.kind ∨ ∃ message, w = .error message := by
  cases h with
  | failed _ message => exact .inr ⟨message, rfl⟩
  | _ => exact .inl rfl

theorem member {field : String} (h : v.GivesWay w) (hx : v.member field = .ok x) :
    ∃ y, w.member field = .ok y ∧ x.GivesWay y := by
  cases h with
  | same => exact ⟨x, hx, .same x⟩
  | failed v message => exact ⟨.error message, rfl, .failed x message⟩
  | _ => cases hx

theorem unary {op : UnaryOp} (h : v.GivesWay w) (hx : op.apply v = .ok x) :
    ∃ y, op.apply w = .ok y ∧ x.GivesWay y := by
  cases op with
  | not =>
    cases hx
    exact ⟨_, rfl, .bool _ _⟩
  | neg =>
    cases h with
    | same => exact ⟨x, hx, .same x⟩
    | failed v message => exact ⟨.error message, rfl, .failed x message⟩
    | number a b =>
      cases hx
      exact ⟨_, rfl, .number _ _⟩
    | _ => cases hx

/-- What stands in place of a value and is no failure is of its kind, and neither was that value one. -/
theorem kind_of_ne (h : v.GivesWay w) (hw : w.kind ≠ .error) : w.kind = v.kind := by
  rcases h.kind with hkind | ⟨message, rfl⟩
  · exact hkind
  · exact absurd rfl hw

theorem of_number {a : Number} (h : (Value.number a).GivesWay w) (hw : w.kind ≠ .error) :
    ∃ b, w = .number b := by
  cases h with
  | same => exact ⟨a, rfl⟩
  | number _ b => exact ⟨b, rfl⟩
  | failed => exact absurd rfl hw

theorem add (h : v.GivesWay w) (h' : v'.GivesWay w') (hx : v.add v' = .ok x) :
    ∃ y, w.add w' = .ok y ∧ x.GivesWay y := by
  by_cases htext : w.kind = .string ∨ w'.kind = .string
  · have hold : v.kind = .string ∨ v'.kind = .string :=
      htext.imp (fun hk => (h.kind_of_ne (by rw [hk]; decide)).symm.trans hk)
        fun hk => (h'.kind_of_ne (by rw [hk]; decide)).symm.trans hk
    obtain ⟨s, hs⟩ := add_text htext
    obtain ⟨s', hs'⟩ := add_text hold
    rw [hs'] at hx
    cases hx
    exact ⟨_, hs, .string s' s⟩
  · obtain ⟨hw, hw'⟩ := not_or.1 htext
    by_cases herror : w.kind = .error ∨ w'.kind = .error
    · obtain ⟨message, hmessage⟩ := add_error hw hw' herror
      exact ⟨_, hmessage, .failed x message⟩
    · obtain ⟨he, he'⟩ := not_or.1 herror
      have hk := h.kind_of_ne he
      have hk' := h'.kind_of_ne he'
      obtain ⟨a, b, rfl, rfl⟩ := add_number hx (hk ▸ hw) (hk' ▸ hw') (hk ▸ he) (hk' ▸ he')
      obtain ⟨c, rfl⟩ := h.of_number he
      obtain ⟨d, rfl⟩ := h'.of_number he'
      cases hx
      exact ⟨_, rfl, .number _ _⟩

theorem of_text {a : String} (h : (Value.string a).GivesWay w) (hw : w.kind ≠ .error) :
    ∃ b, w = .string b := by
  cases h with
  | same => exact ⟨a, rfl⟩
  | string _ b => exact ⟨b, rfl⟩
  | failed => exact absurd rfl hw

theorem arithmetic {f : Number → Number → Number} (h : v.GivesWay w) (h' : v'.GivesWay w')
    (hx : v.arithmetic f v' = .ok x) : ∃ y, w.arithmetic f w' = .ok y ∧ x.GivesWay y := by
  by_cases herror : w.kind = .error ∨ w'.kind = .error
  · obtain ⟨message, hmessage⟩ := arithmetic_error f herror
    exact ⟨_, hmessage, .failed x message⟩
  · obtain ⟨he, he'⟩ := not_or.1 herror
    obtain ⟨a, b, rfl, rfl⟩ := arithmetic_number hx (h.kind_of_ne he ▸ he) (h'.kind_of_ne he' ▸ he')
    obtain ⟨c, rfl⟩ := h.of_number he
    obtain ⟨d, rfl⟩ := h'.of_number he'
    cases hx
    exact ⟨_, rfl, .number _ _⟩

theorem compareBy {accept : Ordering → Bool} (h : v.GivesWay w) (h' : v'.GivesWay w')
    (hx : v.compareBy accept v' = .ok x) : ∃ y, w.compareBy accept w' = .ok y ∧ x.GivesWay y := by
  obtain ⟨a, rfl⟩ := compareBy_bool hx
  by_cases herror : w.kind = .error ∨ w'.kind = .error
  · exact ⟨_, compareBy_error accept herror, .bool a false⟩
  · obtain ⟨he, he'⟩ := not_or.1 herror
    rcases compareBy_same hx (h.kind_of_ne he ▸ he) (h'.kind_of_ne he' ▸ he') with
      ⟨x, y, rfl, rfl⟩ | ⟨x, y, rfl, rfl⟩
    · obtain ⟨c, rfl⟩ := h.of_number he
      obtain ⟨d, rfl⟩ := h'.of_number he'
      exact ⟨_, rfl, .bool _ _⟩
    · obtain ⟨c, rfl⟩ := h.of_text he
      obtain ⟨d, rfl⟩ := h'.of_text he'
      exact ⟨_, rfl, .bool _ _⟩

theorem binary {op : BinaryOp} (h : v.GivesWay w) (h' : v'.GivesWay w') (hx : op.apply v v' = .ok x) :
    ∃ y, op.apply w w' = .ok y ∧ x.GivesWay y := by
  cases op with
  | add => exact h.add h' hx
  | sub | mul | div | rem => exact h.arithmetic h' hx
  | lt | le | gt | ge => exact h.compareBy h' hx
  | eq | ne | and | or =>
    cases hx
    exact ⟨_, rfl, .bool _ _⟩

end Value.GivesWay

/-! Stores beside failures. -/

/-- One store beside another that differs from it only in that some of its variables hold failures. -/
def Store.Fails (s t : Store) : Prop :=
  ∀ name, (t.get? name).isSome = (s.get? name).isSome ∧
    (t.get? name = s.get? name ∨ ∃ message, t.get? name = some (.error message))

theorem Store.Fails.read {name : String} (h : s.Fails t) (hv : s.read name = .ok v) :
    ∃ w, t.read name = .ok w ∧ v.GivesWay w := by
  unfold Store.read at hv ⊢
  rcases (h name).2 with heq | ⟨message, hmessage⟩
  · rw [heq]
    exact ⟨v, hv, .same v⟩
  · rw [hmessage]
    exact ⟨_, rfl, .failed v message⟩

theorem Comes.givesWay {e : Expr} (h : Comes s e v) (hst : s.Fails t) :
    ∃ w, Comes t e w ∧ v.GivesWay w := by
  induction h with
  | literal v => exact ⟨v, .literal v, .same v⟩
  | var h =>
    obtain ⟨w, hw, hv⟩ := hst.read h
    exact ⟨w, .var hw, hv⟩
  | member _ hw ih =>
    obtain ⟨w, hobject, hv⟩ := ih
    obtain ⟨y, hy, hx⟩ := hv.member hw
    exact ⟨y, .member hobject hy, hx⟩
  | unary _ hw ih =>
    obtain ⟨w, hoperand, hv⟩ := ih
    obtain ⟨y, hy, hx⟩ := hv.unary hw
    exact ⟨y, .unary hoperand hy, hx⟩
  | binary hand hor _ _ hx ihl ihr =>
    obtain ⟨l, hl, hv⟩ := ihl
    obtain ⟨r, hr, hw⟩ := ihr
    obtain ⟨y, hy, hx⟩ := hv.binary hw hx
    exact ⟨y, .binary hand hor hl hr hy, hx⟩

/-! Where a failure comes from. -/

/-- The failures in a value: itself, or those in the fields of an object. -/
inductive Value.Carries (message : String) : Value → Prop
  | self : Carries message (.error message)
  | field {fields : Dict Value} {name : String} {v : Value} (h : fields.get? name = some v)
      (hv : Carries message v) : Carries message (.object fields)

/-- Whether a failure is in a variable or in a literal of an expression. -/
inductive Supplied (message : String) (t : Store) : Expr → Prop
  | literal {v : Value} (h : v.Carries message) : Supplied message t (.literal v)
  | var {name : String} {v : Value} (h : t.get? name = some v) (hv : v.Carries message) :
      Supplied message t (.var name)
  | member {object : Expr} {field : String} (h : Supplied message t object) :
      Supplied message t (.member object field)
  | unary {op : UnaryOp} {operand : Expr} (h : Supplied message t operand) :
      Supplied message t (.unary op operand)
  | left {op : BinaryOp} {left right : Expr} (h : Supplied message t left) :
      Supplied message t (.binary op left right)
  | right {op : BinaryOp} {left right : Expr} (h : Supplied message t right) :
      Supplied message t (.binary op left right)

namespace Value.Carries

variable {message : String} {x : Value}

theorem of_member {field : String} (h : v.member field = .ok x) (hx : x.Carries message) :
    v.Carries message := by
  cases v with
  | object fields =>
    cases h
    cases hfield : fields.get? field with
    | none =>
      rw [hfield] at hx
      cases hx
    | some w =>
      rw [hfield] at hx
      exact .field hfield hx
  | error =>
    cases h
    exact hx
  | _ => cases h

theorem of_unary {op : UnaryOp} (h : op.apply v = .ok x) (hx : x.Carries message) :
    v.Carries message := by
  cases op with
  | not =>
    cases h
    cases hx
  | neg =>
    unfold UnaryOp.apply at h
    split at h <;> cases h <;> first | exact hx | cases hx

theorem of_binary {op : BinaryOp} (h : op.apply v w = .ok x) (hx : x.Carries message) :
    v.Carries message ∨ w.Carries message := by
  have hadd (h : v.add w = .ok x) : v.Carries message ∨ w.Carries message := by
    unfold Value.add at h
    split at h <;> cases h <;> first | exact .inl hx | exact .inr hx | cases hx
  have harithmetic (f : Number → Number → Number) (h : v.arithmetic f w = .ok x) :
      v.Carries message ∨ w.Carries message := by
    unfold Value.arithmetic at h
    split at h <;> cases h <;> first | exact .inl hx | exact .inr hx | cases hx
  have hcompare (accept : Ordering → Bool) (h : v.compareBy accept w = .ok x) :
      v.Carries message ∨ w.Carries message := by
    obtain ⟨b, rfl⟩ := compareBy_bool h
    cases hx
  cases op with
  | add => exact hadd h
  | sub | mul | div | rem => exact harithmetic _ h
  | lt | le | gt | ge => exact hcompare _ h
  | eq | ne | and | or =>
    cases h
    cases hx

end Value.Carries

theorem Comes.supplied {e : Expr} {message : String} (h : Comes t e w) (hw : w.Carries message) :
    Supplied message t e := by
  induction h with
  | literal => exact .literal hw
  | @var name v h =>
    unfold Store.read at h
    cases hget : t.get? name with
    | none =>
      rw [hget] at h
      cases h
    | some u =>
      rw [hget] at h
      cases h
      exact .var hget hw
  | member _ h ih => exact .member (ih (hw.of_member h))
  | unary _ h ih => exact .unary (ih (hw.of_unary h))
  | binary _ _ _ _ h ihl ihr =>
    rcases hw.of_binary h with hl | hr
    · exact .left (ihl hl)
    · exact .right (ihr hr)

/-- Failures in place of values bring no new errors into an expression without calls, whatever surrounds it:
where it came to a value it still does, of the same kind or one of the failures that it met. -/
theorem failures_bring_none {σ τ : Type} {e : Expr} (he : e.isPlain = true) (hst : s.Fails t)
    (host : Host σ) (tape : Tape σ) (hv : (e.eval host s tape).1 = .ok v) (host' : Host τ)
    (tape' : Tape τ) :
    ∃ w, e.eval host' t tape' = (.ok w, tape') ∧
      (w.kind = v.kind ∨ ∃ message, w = .error message ∧ Supplied message t e) := by
  have hcomes : Comes s e v := comes_of_eval he (Prod.ext hv rfl)
  obtain ⟨w, hw, hvw⟩ := hcomes.givesWay hst
  refine ⟨w, hw.eval, hvw.kind.imp_right ?_⟩
  rintro ⟨message, rfl⟩
  exact ⟨message, rfl, hw.supplied .self⟩

def answeredStore : Store :=
  ⟨[("offset", .number (.ofInt 2)), ("reply", .object ⟨[("x", .number (.ofInt 3))]⟩)]⟩

def unansweredStore : Store := ⟨[("offset", .number (.ofInt 2)), ("reply", .error "no answer")]⟩

theorem unansweredStore_fails : answeredStore.Fails unansweredStore := by
  intro name
  simp only [answeredStore, unansweredStore, Dict.get?, List.lookup_cons]
  cases name == "offset" with
  | true => exact ⟨rfl, .inl rfl⟩
  | false =>
    cases name == "reply" with
    | true => exact ⟨rfl, .inr ⟨"no answer", rfl⟩⟩
    | false => exact ⟨rfl, .inl rfl⟩

def shiftedReply : Expr := .binary .add (.member (.var "reply") "x") (.var "offset")

theorem shiftedReply_unanswered : shiftedReply.isPlain = true ∧
    (shiftedReply.eval silentHost answeredStore ⟨.ofEntries [], ()⟩).1 =
      .ok (.number (Number.add (.ofInt 3) (.ofInt 2))) ∧
    ∃ w, shiftedReply.eval silentHost unansweredStore ⟨.ofEntries [], ()⟩ =
      (.ok w, ⟨.ofEntries [], ()⟩) ∧ (w.kind = .number ∨ ∃ message, w = .error message ∧
        Supplied message unansweredStore shiftedReply) := by
  have hanswered : (shiftedReply.eval silentHost answeredStore ⟨.ofEntries [], ()⟩).1 =
      .ok (.number (Number.add (.ofInt 3) (.ofInt 2))) := rfl
  exact ⟨rfl, hanswered, failures_bring_none rfl unansweredStore_fails silentHost _ hanswered silentHost _⟩

end ScopeBlocks.Script
