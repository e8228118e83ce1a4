import ScopeBlocks.Proofs.Script.Reading

/-! Programs that have been read: every jump in them stands in a loop. -/
namespace ScopeBlocks.Script

namespace Surface.Statement

variable {source : List Char}

mutual

theorem check_placed (inLoop : Bool) : (s : Statement) → {x : Script.Statement} →
    s.check source inLoop = .ok x → x.placed inLoop = true
  | .bind b, x, h => by
    rw [check] at h
    obtain ⟨_, _, ⟨⟩⟩ := bind_eq_ok h
    rfl
  | .eval e, x, h => by
    rw [check] at h
    obtain ⟨_, _, ⟨⟩⟩ := bind_eq_ok h
    rfl
  | .branch branches otherwise, x, h => by
    rw [check] at h
    obtain ⟨bs, hbs, h⟩ := bind_eq_ok h
    obtain ⟨o, ho, ⟨⟩⟩ := bind_eq_ok h
    rw [Script.Statement.placed, checkBranches_placed inLoop branches hbs,
      checkOtherwise_placed inLoop otherwise ho]
    rfl
  | .whileLoop cond body, x, h => by
    rw [check] at h
    obtain ⟨_, _, h⟩ := bind_eq_ok h
    obtain ⟨b, hb, ⟨⟩⟩ := bind_eq_ok h
    rw [Script.Statement.placed, checkAll_placed true body hb]
  | .forLoop init cond update body, x, h => by
    rw [check] at h
    obtain ⟨_, _, h⟩ := bind_eq_ok h
    obtain ⟨_, _, h⟩ := bind_eq_ok h
    obtain ⟨_, _, h⟩ := bind_eq_ok h
    obtain ⟨b, hb, ⟨⟩⟩ := bind_eq_ok h
    rw [Script.Statement.placed, checkAll_placed true body hb]
  | .jump j place, x, h => by
    rw [check] at h
    cases inLoop with
    | false => cases h
    | true => cases j <;> cases h <;> rfl

theorem checkAll_placed (inLoop : Bool) : (ss : List Statement) → {xs : List Script.Statement} →
    checkAll source inLoop ss = .ok xs → placedAll inLoop xs = true
  | [], xs, h => by
    cases h
    rfl
  | s :: rest, xs, h => by
    rw [checkAll] at h
    obtain ⟨x, hx, h⟩ := bind_eq_ok h
    obtain ⟨xs, hxs, ⟨⟩⟩ := bind_eq_ok h
    rw [placedAll, check_placed inLoop s hx, checkAll_placed inLoop rest hxs]
    rfl

theorem checkBranches_placed (inLoop : Bool) : (branches : List (Expr × List Statement)) →
    {bs : List (Script.Expr × List Script.Statement)} →
      checkBranches source inLoop branches = .ok bs → placedBranches inLoop bs = true
  | [], bs, h => by
    cases h
    rfl
  | (cond, body) :: rest, bs, h => by
    rw [checkBranches] at h
    obtain ⟨_, _, h⟩ := bind_eq_ok h
    obtain ⟨b, hb, h⟩ := bind_eq_ok h
    obtain ⟨bs, hbs, ⟨⟩⟩ := bind_eq_ok h
    rw [placedBranches, checkAll_placed inLoop body hb, checkBranches_placed inLoop rest hbs]
    rfl

theorem checkOtherwise_placed (inLoop : Bool) : (otherwise : Option (List Statement)) →
    {o : Option (List Script.Statement)} →
      checkOtherwise source inLoop otherwise = .ok o → placedOtherwise inLoop o = true
  | none, o, h => by
    cases h
    rfl
  | some body, o, h => by
    rw [checkOtherwise] at h
    obtain ⟨b, hb, ⟨⟩⟩ := bind_eq_ok h
    rw [placedOtherwise, checkAll_placed inLoop body hb]

end

end Surface.Statement

/-- A program as it is read has no jump outside of its loops. -/
theorem placed_of_parse {text : String} {program : Program} (h : parse text = .ok program) :
    placedAll false program = true := by
  rw [parse] at h
  split at h
  next body _ => exact Surface.Statement.checkAll_placed false body h
  next => cases h

end ScopeBlocks.Script
