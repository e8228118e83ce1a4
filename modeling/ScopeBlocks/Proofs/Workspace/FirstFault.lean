import ScopeBlocks.Proofs.Workspace.Faults
import ScopeBlocks.Proofs.Workspace.Reuse
import ScopeBlocks.Proofs.Workspace.Stacks

/-! The first fault of a workspace. Planning comes upon the faults of blocks in the order of their visits, and has
nothing else to fail for. -/
namespace ScopeBlocks

namespace Block

def problem? {α : Type} : Planned α → Option CompileError
  | .error e => some e
  | .ok _ => none

/-- Whether a plan fails for the first fault among some visits, and for nothing else. -/
def Finds {α : Type} (p : Planned α) (vs : List Visit) : Prop :=
  problem? p = vs.findSome? (Visit.fault? Word.limit)

/-- Whether no visit among some comes upon a fault. -/
def Quiet (vs : List Visit) : Prop := vs.findSome? (Visit.fault? Word.limit) = none

namespace Finds

variable {α β : Type} {p : Planned α} {f : α → Planned β} {vs ws : List Visit} {v : Visit}

theorem ok (a : α) : Finds (.ok a : Planned α) [] := rfl

theorem bind (hp : Finds p vs) (hf : ∀ a, Finds (f a) ws) : Finds (p >>= f) (vs ++ ws) := by
  unfold Finds at hp ⊢
  rw [List.findSome?_append, ← hp]
  cases p with
  | error e => rfl
  | ok a => exact hf a

theorem map (hp : Finds p vs) (g : α → β) : Finds (p >>= fun a => pure (g a)) vs := by
  have h := hp.bind fun a => Finds.ok (g a)
  rwa [List.append_nil] at h

theorem visit (hv : v.fault? Word.limit = none) (hp : Finds p vs) : Finds p (v :: vs) := by
  unfold Finds
  rw [List.findSome?_cons, hv]
  exact hp

theorem fault {e : CompileError} (hv : v.fault? Word.limit = some e) : Finds (.error e : Planned α) (v :: vs) := by
  unfold Finds
  rw [List.findSome?_cons, hv]
  rfl

theorem mapM {ι : Type} {f : ι → Planned β} {g : ι → List Visit} {l : List ι} (h : ∀ i ∈ l, Finds (f i) (g i)) :
    Finds (l.mapM f) (l.flatMap g) := by
  induction l with
  | nil => exact .ok []
  | cons i l ih =>
    rw [List.mapM_cons, List.flatMap_cons]
    refine (h i List.mem_cons_self).bind fun a => ?_
    exact (ih fun j hj => h j (List.mem_cons_of_mem _ hj)).map (a :: ·)

theorem quiet (hvs : Quiet vs) (hp : Finds p ws) : Finds p (vs ++ ws) := by
  unfold Finds
  rw [List.findSome?_append, hvs]
  exact hp

section

variable {reads : Part → List Visit} {part : Part} {rest : List Part}

theorem read (hp : Finds p (reads part)) (hf : ∀ a, Finds (f a) (rest.flatMap reads)) :
    Finds (p >>= f) ((part :: rest).flatMap reads) := by
  rw [List.flatMap_cons]
  exact hp.bind hf

theorem last (hp : Finds p (reads part)) (g : α → β) :
    Finds (p >>= fun a => pure (g a)) ([part].flatMap reads) := by
  rw [List.flatMap_singleton]
  exact hp.map g

end

end Finds

/-! Values. -/

section

variable {b : Block}

theorem fault?_plugged (hvalue : Shape.ofKind? b.kind = some .value) :
    Visit.fault? Word.limit ⟨.plugged, b⟩ = b.ownFault? Word.limit := by
  simp [Visit.fault?, hvalue]

theorem fault?_chained (hstatement : Shape.ofKind? b.kind = some .statement) :
    Visit.fault? Word.limit ⟨.chained, b⟩ = b.ownFault? Word.limit := by
  simp [Visit.fault?, hstatement]

theorem ownFault?_eq_none (harithmetic : b.kind ≠ "math_arithmetic") (hchoice : b.kind ≠ "controls_if")
    (hjoin : b.kind ≠ "text_join") : b.ownFault? Word.limit = none := by
  simp [ownFault?, badOperator?, numberedSockets, harithmetic, hchoice, hjoin]

theorem arithmeticOp_cases (hkind : b.kind = "math_arithmetic") :
    (∃ op, b.arithmeticOp = .ok op ∧ b.ownFault? Word.limit = none) ∨
      ∃ e, b.arithmeticOp = .error e ∧ b.ownFault? Word.limit = some e := by
  have hsockets : b.numberedSockets Word.limit = 0 := by simp [numberedSockets, hkind]
  unfold arithmeticOp
  split
  case h_6 other hadd hminus hmultiply hdivide hother =>
    refine .inr ⟨_, rfl, ?_⟩
    have hbad : b.badOperator? = some other := by
      rw [badOperator?, if_pos hkind, hother, Option.filter_some_pos]
      simp_all
    rw [ownFault?, hbad]
  all_goals
    rename_i hop
    have hgood : b.badOperator? = none := by rw [badOperator?, if_pos hkind, hop]; rfl
    exact .inl ⟨_, rfl, by simp [ownFault?, hgood, hsockets]⟩

theorem numberedSockets_cases {p : Planned Nat} (harithmetic : b.kind ≠ "math_arithmetic")
    (hp : p = if maxSockets < b.numberedSockets Word.limit then
      .error (.tooManySockets b.id (min (b.numberedSockets Word.limit) (Word.limit - 1)))
      else .ok (b.numberedSockets Word.limit)) :
    (p = .ok (b.numberedSockets Word.limit) ∧ b.ownFault? Word.limit = none) ∨
      ∃ e, p = .error e ∧ b.ownFault? Word.limit = some e := by
  have hown : b.badOperator? = none := by rw [badOperator?, if_neg harithmetic]
  by_cases hmany : maxSockets < b.numberedSockets Word.limit
  · rw [if_pos hmany] at hp
    refine .inr ⟨_, hp, ?_⟩
    rw [ownFault?, hown]
    exact if_pos hmany
  · rw [if_neg hmany] at hp
    refine .inl ⟨hp, ?_⟩
    rw [ownFault?, hown]
    exact if_neg hmany

end

section

variable {b : Block} {ins : Inputs} {reads : Part → List Visit}
  (hins : ∀ name default, Finds (ins.get name default) (reads (.socket name)))

include hins

theorem binaryTerm_finds (op : Script.BinaryOp) (left right : String) (default : Term) :
    Finds (binaryTerm ins op left right default) ([Part.socket left, .socket right].flatMap reads) :=
  (hins left default).read fun l => (hins right default).last (Term.binary op l)

/-- The plan of a value fails for the block itself or for the blocks in the sockets that it reads. -/
theorem termOf_finds (v : Block → String) :
    Finds (termOf v b ins) (⟨.plugged, b⟩ :: (b.parts Word.limit).flatMap reads) := by
  have hsimple {p : Planned Term} {names : List Part} (hvalue : Shape.ofKind? b.kind = some .value)
      (hkinds : b.kind ≠ "math_arithmetic" ∧ b.kind ≠ "controls_if" ∧ b.kind ≠ "text_join")
      (hparts : b.parts Word.limit = names) (hp : Finds p (names.flatMap reads)) :
      Finds p (⟨.plugged, b⟩ :: (b.parts Word.limit).flatMap reads) := by
    rw [hparts]
    exact .visit ((fault?_plugged hvalue).trans (ownFault?_eq_none hkinds.1 hkinds.2.1 hkinds.2.2)) hp
  unfold termOf
  split <;> rename_i hkind
  case h_8 =>
    have hvalue : Shape.ofKind? b.kind = some .value := by rw [hkind]; rfl
    rcases arithmeticOp_cases hkind with ⟨op, hop, hown⟩ | ⟨e, he, hown⟩
    · rw [hop]
      refine .visit ((fault?_plugged hvalue).trans hown) ?_
      have hparts : b.parts Word.limit = [.socket "A", .socket "B"] := by simp only [parts, hkind]
      rw [hparts]
      exact binaryTerm_finds hins op "A" "B" _
    · rw [he]
      exact .fault ((fault?_plugged hvalue).trans hown)
  case h_13 =>
    have hvalue : Shape.ofKind? b.kind = some .value := by rw [hkind]; rfl
    have hcount := socketCount_eq b (b.mutationCount "items") ["ADD"]
    rw [Nat.min_eq_left (Nat.le_sub_one_of_lt (b.mutationCount_lt "items"))] at hcount
    have hnumbered : b.numberedSockets Word.limit = b.numbered Word.limit (b.mutationCount "items") ["ADD"] := by
      simp [numberedSockets, hkind]
    rw [← hnumbered] at hcount
    rcases numberedSockets_cases (by rw [hkind]; decide) hcount with ⟨hok, hown⟩ | ⟨e, he, hown⟩
    · rw [hok]
      refine .visit ((fault?_plugged hvalue).trans hown) ?_
      have hparts : b.parts Word.limit =
          (List.range (b.numberedSockets Word.limit)).map fun i => .socket s!"ADD{i}" := by simp only [parts, hkind]
      rw [hparts, List.flatMap_map]
      exact (Finds.mapM fun i _ => hins s!"ADD{i}" (.text "")).map Term.join
    · rw [he]
      exact .fault ((fault?_plugged hvalue).trans hown)
  case h_16 =>
    split
    next hstatement => exact .fault (by simp [Visit.fault?, hstatement])
    next hstatement =>
      have hunknown : Shape.ofKind? b.kind = none := by
        simp_all [Shape.ofKind?, valueKinds]
      exact .fault (by simp [Visit.fault?, hunknown, unknown])
  case h_1 | h_2 | h_3 | h_4 | h_5 | h_6 | h_7 | h_14 =>
    exact hsimple (by rw [hkind]; rfl) (by simp [hkind]) (by simp only [parts, hkind]; rfl) (.ok _)
  case h_9 | h_10 | h_11 =>
    exact hsimple (by rw [hkind]; rfl) (by simp [hkind]) (by simp only [parts, hkind]) (binaryTerm_finds hins _ _ _ _)
  case h_12 | h_15 =>
    exact hsimple (by rw [hkind]; rfl) (by simp [hkind]) (by simp only [parts, hkind]) ((hins _ _).last _)

end

/-! Sockets. -/

def OneSocketEach (bs : List Block) : Prop := ∀ b ∈ bs, b.values.keys.Nodup

theorem OneSocketEach.sublist {bs cs : List Block} (h : OneSocketEach bs) (hcs : cs ⊆ bs) : OneSocketEach cs :=
  fun b hb => h b (hcs hb)

theorem lookup_inputs_eq_none (v : Block → String) {values : List (String × Socket Block)} {name : String}
    (h : name ∉ values.map Prod.fst) : (inputs v values).lookup name = none := by
  induction values with
  | nil => rfl
  | cons e rest ih =>
    obtain ⟨key, block, shadow⟩ := e
    rw [List.map_cons, List.mem_cons, not_or] at h
    have hkey : (name == key) = false := beq_false_of_ne h.1
    cases block <;> cases shadow <;> rw [inputs]
    case none.none => exact ih h.2
    all_goals
      rw [List.lookup_cons, hkey]
      exact ih h.2

mutual

theorem term_finds (v : Block → String) : (b : Block) → OneSocketEach b.subtree →
    Finds (b.term v) (b.visits Word.limit .plugged)
  | ⟨id, kind, position, disabled, fields, ⟨values⟩, ⟨statements⟩, mutation⟩, h => by
    rw [subtree] at h
    rw [term, visits]
    have hsockets : OneSocketEach (socketsSubtree values) := h.sublist fun d hd =>
      List.mem_cons_of_mem _ (List.mem_append_left _ hd)
    exact termOf_finds (inputs_finds v values (h _ List.mem_cons_self) hsockets) v

theorem inputs_finds (v : Block → String) : (values : List (String × Socket Block)) →
    (values.map Prod.fst).Nodup → OneSocketEach (socketsSubtree values) → (name : String) → (default : Term) →
    Finds ((inputs v values).get name default) (((socketVisits Word.limit values).lookup name).getD [])
  | [], _, _, _, default => .ok default
  | (key, ⟨some b, shadow⟩) :: rest, hnodup, h, name, default => by
    rw [socketsSubtree] at h
    rw [inputs, socketVisits, Inputs.get, List.lookup_cons, List.lookup_cons]
    cases name == key with
    | true => exact term_finds v b (h.sublist fun d hd => by simp [optionSubtree, hd])
    | false =>
      have hrest : OneSocketEach (socketsSubtree rest) := h.sublist fun d hd => List.mem_append_right _ hd
      exact inputs_finds v rest (List.nodup_cons.1 hnodup).2 hrest name default
  | (key, ⟨none, some b⟩) :: rest, hnodup, h, name, default => by
    rw [socketsSubtree] at h
    rw [inputs, socketVisits, Inputs.get, List.lookup_cons, List.lookup_cons]
    cases name == key with
    | true => exact term_finds v b (h.sublist fun d hd => by simp [optionSubtree, hd])
    | false =>
      have hrest : OneSocketEach (socketsSubtree rest) := h.sublist fun d hd => List.mem_append_right _ hd
      exact inputs_finds v rest (List.nodup_cons.1 hnodup).2 hrest name default
  | (key, ⟨none, none⟩) :: rest, hnodup, h, name, default => by
    rw [socketsSubtree] at h
    obtain ⟨hkey, hnodup⟩ := List.nodup_cons.1 hnodup
    rw [inputs, socketVisits, List.lookup_cons]
    cases hname : name == key with
    | true =>
      rw [beq_iff_eq.1 hname, Inputs.get, lookup_inputs_eq_none v hkey]
      exact .ok default
    | false =>
      have hrest : OneSocketEach (socketsSubtree rest) := h.sublist fun d hd => List.mem_append_right _ hd
      exact inputs_finds v rest hnodup hrest name default

end

theorem socket_visits (b : Block) (name : String) : b.partVisits Word.limit (.socket name) =
    ((b.input? name).map (visits Word.limit .plugged)).getD [] := by
  rw [input?, Dict.get?]
  change ((socketVisits Word.limit b.values.entries).lookup name).getD [] = _
  induction b.values.entries with
  | nil => rfl
  | cons e rest ih =>
    obtain ⟨key, block, shadow⟩ := e
    cases block <;> cases shadow <;> rw [socketVisits, List.lookup_cons, List.lookup_cons] <;>
      cases name == key <;> first | rfl | exact ih

theorem chain_visits_eq_nil {b : Block} {name : String} (h : b.statements.contains name = false) :
    b.partVisits Word.limit (.chain name) = [] := by
  rw [Dict.contains, Dict.get?] at h
  change ((chainVisits Word.limit b.statements.entries).lookup name).getD [] = _
  generalize b.statements.entries = statements at h ⊢
  induction statements with
  | nil => rfl
  | cons e rest ih =>
    rw [List.lookup_cons] at h
    rw [chainVisits, List.lookup_cons]
    cases hname : name == e.1 with
    | true => rw [hname] at h; cases h
    | false => rw [hname] at h; exact ih h

/-! Statements. -/

/-- Nothing is wrong with a number, whatever its text. -/
theorem number_quiet {c : Block} (hc : c.kind = "math_number") : Quiet (c.visits Word.limit .plugged) := by
  have hparts : c.parts Word.limit = [] := by
    simp only [parts, hc]
    rfl
  have hown : c.ownFault? Word.limit = none :=
    ownFault?_eq_none (by rw [hc]; decide) (by rw [hc]; decide) (by rw [hc]; decide)
  rw [visits_eq, hparts, Quiet, List.findSome?_cons, (fault?_plugged (by rw [hc]; rfl)).trans hown]
  rfl

section

variable {b : Block} {ins : Inputs} {bodies : Bodies}

theorem knownBound_quiet {name : String} {default x : Number} (h : b.knownBound? name default = some x) :
    Quiet (b.partVisits Word.limit (.socket name)) := by
  rw [socket_visits]
  unfold knownBound? at h
  split at h
  next c hc =>
    rw [hc]
    split at h
    next hnumber => exact number_quiet hnumber
    next => cases h
  next hc =>
    rw [hc]
    rfl

variable (hins : ∀ name default, Finds (ins.get name default) (b.partVisits Word.limit (.socket name)))

include hins

theorem boundsOf_finds {α : Type} {f : Bounds → Planned α} {rest : List Part}
    (hf : ∀ bounds, Finds (f bounds) (rest.flatMap (b.partVisits Word.limit))) :
    Finds (b.boundsOf ins >>= f)
      ((.socket "FROM" :: .socket "TO" :: .socket "BY" :: rest).flatMap (b.partVisits Word.limit)) := by
  unfold boundsOf
  split
  next start stop step hstart hstop hstep =>
    rw [List.flatMap_cons, List.flatMap_cons, List.flatMap_cons]
    exact .quiet (knownBound_quiet hstart) (.quiet (knownBound_quiet hstop) (.quiet (knownBound_quiet hstep) (hf _)))
  next =>
    simp only [bind_assoc, pure_bind]
    exact (hins _ _).read fun _ => (hins _ _).read fun _ => (hins _ _).read fun _ => hf _

theorem countOf_finds {α : Type} {f : Count → Planned α} {rest : List Part}
    (hf : ∀ count, Finds (f count) (rest.flatMap (b.partVisits Word.limit))) :
    Finds (b.countOf ins >>= f) ((.socket "TIMES" :: rest).flatMap (b.partVisits Word.limit)) := by
  have hsocket := socket_visits b "TIMES"
  unfold countOf
  split
  next hnone =>
    rw [List.flatMap_cons, hsocket, hnone]
    exact hf _
  next times htimes =>
    split
    next hnumber =>
      rw [List.flatMap_cons, hsocket, htimes]
      exact .quiet (number_quiet hnumber) (hf _)
    next =>
      simp only [bind_assoc, pure_bind]
      exact (hins _ _).read fun _ => hf _

variable (hbodies : ∀ name, Finds (bodies.get name) (b.partVisits Word.limit (.chain name)))

include hbodies

theorem branchesOf_finds (n : Nat) : Finds (branchesOf ins bodies n)
    ((List.range n).flatMap fun i => [Part.socket s!"IF{i}", .chain s!"DO{i}"].flatMap (b.partVisits Word.limit)) :=
  Finds.mapM fun i _ => (hins s!"IF{i}" (.truth false)).read fun cond => (hbodies s!"DO{i}").last (Prod.mk cond)

theorem chooseOf_finds (hkind : b.kind = "controls_if") : Finds (b.chooseOf ins bodies)
    (⟨.chained, b⟩ :: (b.parts Word.limit).flatMap (b.partVisits Word.limit)) := by
  have hstatement : Shape.ofKind? b.kind = some .statement := by rw [hkind]; rfl
  have hcount := socketCount_eq b (b.mutationCount "elseif" + 1) ["IF", "DO"]
  have hnumbered : b.numberedSockets Word.limit =
      b.numbered Word.limit (b.mutationCount "elseif" + 1) ["IF", "DO"] := by
    simp [numberedSockets, hkind]
  rw [← hnumbered] at hcount
  have hparts : b.parts Word.limit = (List.range (b.numberedSockets Word.limit)).flatMap
      (fun i => [.socket s!"IF{i}", .chain s!"DO{i}"]) ++ [.chain "ELSE"] := by simp only [parts, hkind]
  unfold chooseOf
  rcases numberedSockets_cases (by rw [hkind]; decide) hcount with ⟨hok, hown⟩ | ⟨e, he, hown⟩
  · dsimp only
    rw [hok]
    refine .visit ((fault?_chained hstatement).trans hown) ?_
    rw [hparts, List.flatMap_append, List.flatMap_assoc]
    refine (branchesOf_finds hins hbodies _).bind fun branches => ?_
    split
    next => exact (hbodies "ELSE").last fun c => Action.choose branches (some c)
    next hnone =>
      rw [not_or, Bool.not_eq_true] at hnone
      rw [List.flatMap_singleton, chain_visits_eq_nil hnone.2]
      exact .ok _
  · dsimp only
    rw [he]
    exact .fault ((fault?_chained hstatement).trans hown)

/-- The plan of a statement fails for the block itself or for the blocks in the sockets and chains that it reads. -/
theorem actionOf_finds (v : Block → String) : Finds (actionOf v b ins bodies)
    (⟨.chained, b⟩ :: (b.parts Word.limit).flatMap (b.partVisits Word.limit)) := by
  have hsimple {p : Planned Action} {names : List Part} (hstatement : Shape.ofKind? b.kind = some .statement)
      (hkinds : b.kind ≠ "math_arithmetic" ∧ b.kind ≠ "controls_if" ∧ b.kind ≠ "text_join")
      (hparts : b.parts Word.limit = names) (hp : Finds p (names.flatMap (b.partVisits Word.limit))) :
      Finds p (⟨.chained, b⟩ :: (b.parts Word.limit).flatMap (b.partVisits Word.limit)) := by
    rw [hparts]
    exact .visit ((fault?_chained hstatement).trans (ownFault?_eq_none hkinds.1 hkinds.2.1 hkinds.2.2)) hp
  unfold actionOf
  split <;> rename_i hkind
  case h_9 => exact chooseOf_finds hins hbodies hkind
  case h_15 =>
    split
    next hvalue => exact .fault (by simp [Visit.fault?, hvalue])
    next hvalue =>
      have hunknown : Shape.ofKind? b.kind = none := by
        simp_all [Shape.ofKind?, statementKinds]
      exact .fault (by simp [Visit.fault?, hunknown, unknown])
  case h_1 | h_2 | h_3 | h_14 =>
    exact hsimple (by rw [hkind]; rfl) (by simp [hkind]) (by simp only [parts, hkind]; rfl) (.ok _)
  case h_4 | h_6 | h_7 | h_8 =>
    exact hsimple (by rw [hkind]; rfl) (by simp [hkind]) (by simp only [parts, hkind]) ((hins _ _).last _)
  case h_5 =>
    exact hsimple (by rw [hkind]; rfl) (by simp [hkind]) (by simp only [parts, hkind])
      ((hins _ _).read fun x => (hins _ _).read fun y => (hins _ _).last _)
  case h_10 =>
    exact hsimple (by rw [hkind]; rfl) (by simp [hkind]) (by simp only [parts, hkind]) ((hbodies _).last _)
  case h_11 =>
    exact hsimple (by rw [hkind]; rfl) (by simp [hkind]) (by simp only [parts, hkind])
      (countOf_finds hins fun count => (hbodies _).last _)
  case h_12 =>
    exact hsimple (by rw [hkind]; rfl) (by simp [hkind]) (by simp only [parts, hkind])
      ((hins _ _).read fun cond => (hbodies _).last _)
  case h_13 =>
    exact hsimple (by rw [hkind]; rfl) (by simp [hkind]) (by simp only [parts, hkind])
      (boundsOf_finds hins fun bounds => (hbodies _).last _)

end

mutual

theorem action_finds (v : Block → String) : (b : Block) → OneSocketEach b.subtree →
    Finds (b.action v) (b.visits Word.limit .chained)
  | ⟨id, kind, position, disabled, fields, ⟨values⟩, ⟨statements⟩, mutation⟩, h => by
    rw [subtree] at h
    have hsockets : OneSocketEach (socketsSubtree values) := h.sublist fun d hd =>
      List.mem_cons_of_mem _ (List.mem_append_left _ hd)
    have hchains : OneSocketEach (chainsSubtree statements) := h.sublist fun d hd =>
      List.mem_cons_of_mem _ (List.mem_append_right _ hd)
    rw [action, visits_eq]
    have hinputs := inputs_finds v values (h _ List.mem_cons_self) hsockets
    exact actionOf_finds hinputs (bodies_finds v statements hchains) v

theorem chain_finds (v : Block → String) : (bs : List Block) → OneSocketEach (chainSubtree bs) →
    Finds (chain v bs) (visitsAll Word.limit bs)
  | [], _ => .ok []
  | b :: rest, h => by
    rw [chainSubtree] at h
    have hrest := chain_finds v rest (h.sublist fun d hd => List.mem_append_right _ hd)
    rw [chain, visitsAll]
    split
    next => exact hrest
    next => exact (action_finds v b (h.sublist fun d hd => List.mem_append_left _ hd)).bind fun a => hrest.map _

theorem bodies_finds (v : Block → String) : (statements : List (String × List Block)) →
    OneSocketEach (chainsSubtree statements) → (name : String) →
    Finds ((bodies v statements).get name) (((chainVisits Word.limit statements).lookup name).getD [])
  | [], _, _ => .ok []
  | (key, c) :: rest, h, name => by
    rw [chainsSubtree] at h
    rw [bodies, chainVisits, Bodies.get, List.lookup_cons, List.lookup_cons]
    cases name == key with
    | true => exact chain_finds v c (h.sublist fun d hd => List.mem_append_left _ hd)
    | false => exact bodies_finds v rest (h.sublist fun d hd => List.mem_append_right _ hd) name

end

/-! Stacks. -/

theorem Finds.standing {α : Type} {p : Planned α} {b : Block} {standing standing' : Standing}
    (hsame : Visit.fault? Word.limit ⟨standing', b⟩ = Visit.fault? Word.limit ⟨standing, b⟩)
    (h : Finds p (b.visits Word.limit standing)) : Finds p (b.visits Word.limit standing') := by
  rw [Finds, visits_eq, List.findSome?_cons] at h ⊢
  rwa [hsame]

theorem item_finds (v : Block → String) {b : Block} (h : OneSocketEach b.subtree) :
    Finds (b.item v) (b.visits Word.limit .stacked) := by
  unfold item
  split
  next hvalue => exact ((term_finds v b h).map _).standing (by simp [Visit.fault?, hvalue])
  next hvalue =>
    refine ((action_finds v b h).map _).standing ?_
    unfold Visit.fault?
    cases hshape : Shape.ofKind? b.kind with
    | none => rfl
    | some shape =>
      cases shape with
      | statement => rfl
      | value => exact absurd hshape hvalue

end Block

namespace Workspace

open Block

section

variable {w : Workspace} (h : OneSocketEach w.blocks)

include h

theorem plan_finds : Finds w.plan (w.visits Word.limit) := by
  refine Finds.mapM fun stack hstack => Finds.mapM fun b hb => item_finds w.variableOf (h.sublist fun d hd => ?_)
  exact mem_blocks hstack (List.mem_filter.1 hb).1 hd

theorem compile_finds : Finds w.compile (w.visits Word.limit) := (plan_finds h).map _

/-- There is no code if and only if a visited block is at fault, the first such block is the reason, and a generator
that has been used before, be it without success, gives the same as a new one. -/
theorem compile_faults :
    (∀ e, w.compile = .error e ↔ (w.visits Word.limit).findSome? (Visit.fault? Word.limit) = some e) ∧
      ((∃ e, w.compile = .error e) ↔ ∃ v ∈ w.visits Word.limit, (v.fault? Word.limit).isSome) ∧
      (Generator.new.generate w).1 = w.compile ∧
      ∀ (g : Generator) (before : Workspace),
        ((g.generate before).2.generate w).1 = (Generator.new.generate w).1 := by
  have hfinds (e : CompileError) :
      w.compile = .error e ↔ (w.visits Word.limit).findSome? (Visit.fault? Word.limit) = some e := by
    rw [← compile_finds h]
    cases w.compile with
    | error e' => simp [problem?]
    | ok c => simp [problem?]
  refine ⟨hfinds, ?_, Generator.generate_eq .new w, fun g before => ?_⟩
  · rw [← List.findSome?_isSome_iff, Option.isSome_iff_exists]
    exact exists_congr hfinds
  · rw [Generator.generate_eq, Generator.generate_eq]

end

/-- A loop around a block that is unknown but disabled and a print of an operation that does not exist, with a
statement in one of its sockets. -/
def powered : Workspace :=
  let power := { Block.ofKind "power" "math_arithmetic" with
    fields := .singleton "OP" ⟨"POWER", none⟩, values := .singleton "A" ⟨some (Block.ofKind "move" "capture"), none⟩ }
  let print := { Block.ofKind "print" "text_print" with values := .singleton "TEXT" ⟨some power, none⟩ }
  ⟨[], [[{ Block.ofKind "loop" "controls_repeat" with
    statements := .singleton "DO" [{ Block.ofKind "off" "nothing" with disabled := true }, print] }]]⟩

theorem powered_fault : powered.compile = .error (.unsupportedOperator "power" "POWER") ∧
    ∀ (g : Generator) (before : Workspace),
      ((g.generate before).2.generate powered).1 = .error (.unsupportedOperator "power" "POWER") := by
  have hsockets : OneSocketEach powered.blocks := by
    unfold OneSocketEach
    decide +kernel
  obtain ⟨hfirst, -, hnew, hreused⟩ := compile_faults hsockets
  have hc : powered.compile = .error (.unsupportedOperator "power" "POWER") := by
    rw [hfirst, visits, powered, orderedStacks_single]
    decide +kernel
  exact ⟨hc, fun g before => (hreused g before).trans (hnew.trans hc)⟩

/-- A joined text of which no count is declared, with a socket whose number is no word. -/
def overlongJoined : Workspace :=
  ⟨[], [[{ Block.ofKind "j" "text_join" with
    values := .singleton "ADD18446744073709551616" ⟨some (Block.ofKind "t" "text"), none⟩ }]]⟩

/-- There is code all the same, although the socket counts among those of the block. -/
theorem overlongJoined_compiles : overlongJoined.compile = .ok ⟨"\"\";\n", []⟩ ∧
    (overlongJoined.visits (Word.limit + 1)).findSome? (Visit.fault? (Word.limit + 1)) =
      some (.tooManySockets "j" (Word.limit - 1)) := by
  have hstacks : overlongJoined.orderedStacks = overlongJoined.stackList := by simp [orderedStacks, overlongJoined]
  constructor
  · rw [compile, plan, names, variableNames, hstacks]
    rfl
  · rw [visits, hstacks]
    decide +kernel

end Workspace

end ScopeBlocks
