import ScopeBlocks.Proofs.Script.Renamed
import ScopeBlocks.Proofs.Workspace.DeclaredScript
import ScopeBlocks.Proofs.Workspace.Renaming
import ScopeBlocks.Proofs.Workspace.TwinNames

/-! The script of a workspace whose variables are called otherwise. Its identifiers differ, those of the
helpers of loops among them, but it is the same script under one renaming of identifiers, which gives no two
of them one name. -/
namespace ScopeBlocks

open Names (Grown Paired Twinned numberWords)
open Script (renameAll renameBranches renameOtherwise)

/-! Codings. -/

/-- Whether a map takes the identifiers of variables to those of the renamed variables. -/
def Calls (g : String → String) (assigned : List (String × String)) (ρ : String → String)
    (n n' : Names) : Prop :=
  ∀ x ∈ assigned.map Prod.fst, n'.identOf (g x) = ρ (n.identOf x)

/-- Whether two codings, begun where some identifiers have been given out side by side, give out as many
new ones, and come to results that are related by every map that takes the one side to the other. -/
def Twin {α β : Type} (g : String → String) (assigned ps : List (String × String))
    (Q : (String → String) → α → β → Prop) (m : Coding α) (m' : Coding β) : Prop :=
  ∀ n n' qs, Paired g assigned qs n n' → ps ⊆ qs →
    ∃ rs, Grown qs rs n n' (m n).2 (m' n').2 ∧ Paired g assigned rs (m n).2 (m' n').2 ∧
      ∀ ρ, Names.Fits ρ rs → Q ρ (m n).1 (m' n').1

namespace Twin

variable {α β γ δ : Type} {g : String → String} {assigned ps : List (String × String)}
  {R : (String → String) → α → β → Prop} {Q : (String → String) → γ → δ → Prop}

theorem pure {a : α} {b : β} (h : ∀ ρ, Names.Fits ρ ps → R ρ a b) :
    Twin g assigned ps R (Pure.pure a) (Pure.pure b) :=
  fun _ _ qs hpaired hps => ⟨qs, .refl, hpaired, fun ρ hρ => h ρ (hρ.mono hps)⟩

theorem bind {m : Coding α} {m' : Coding β} {f : α → Coding γ} {f' : β → Coding δ}
    (h : Twin g assigned ps R m m')
    (hf : ∀ qs a b, ps ⊆ qs → (∀ ρ, Names.Fits ρ qs → R ρ a b) → Twin g assigned qs Q (f a) (f' b)) :
    Twin g assigned ps Q (m >>= f) (m' >>= f') := by
  intro n n' qs hpaired hps
  obtain ⟨rs, hqs, hpaired₁, hR⟩ := h n n' qs hpaired hps
  obtain ⟨ts, hrs, hpaired₂, hQ⟩ :=
    hf rs _ _ (List.Subset.trans hps hqs.subset) hR _ _ rs hpaired₁ fun _ hp => hp
  exact ⟨ts, hqs.trans hrs, hpaired₂, hQ⟩

theorem weaken {m : Coding α} {m' : Coding β} {qs : List (String × String)}
    (h : Twin g assigned ps R m m') (hsub : ps ⊆ qs) : Twin g assigned qs R m m' :=
  fun n n' rs hpaired hrs => h n n' rs hpaired (List.Subset.trans hsub hrs)

theorem imp {m : Coding α} {m' : Coding β} {E : (String → String) → α → β → Prop}
    (h : Twin g assigned ps R m m') (hE : ∀ ρ a b, R ρ a b → E ρ a b) : Twin g assigned ps E m m' := by
  intro n n' qs hpaired hps
  obtain ⟨rs, hqs, hpaired', hR⟩ := h n n' qs hpaired hps
  exact ⟨rs, hqs, hpaired', fun ρ hρ => hE ρ _ _ (hR ρ hρ)⟩

theorem get : Twin g assigned ps (fun ρ n n' => Calls g assigned ρ n n') MonadState.get MonadState.get :=
  fun _ _ qs hpaired _ =>
    ⟨qs, .refl, hpaired, fun _ hρ x hx => hρ _ (hpaired.known x hx).2.2⟩

theorem helper {base base' : String} (hbase : base ∉ numberWords) (hbase' : base' ∉ numberWords) :
    Twin g assigned ps (fun ρ ident ident' => ident' = ρ ident) (helper base) (helper base') :=
  fun _ _ _ hpaired _ => ⟨_, .distinct base base', hpaired.distinct hbase hbase', fun _ hρ =>
    hρ _ List.mem_cons_self⟩

theorem helper_after {x x' : String} {word : String} (hword : '_' ∈ word.toList) : Twin g assigned ps
    (fun ρ ident ident' => ident' = ρ ident) (ScopeBlocks.helper (x ++ word))
      (ScopeBlocks.helper (x' ++ word)) := by
  exact helper (Names.append_not_mem_numberWords x hword) (Names.append_not_mem_numberWords x' hword)

theorem mapM {ι κ : Type} {f : ι → Coding α} {f' : κ → Coding β} {r : ι → κ} {l : List ι}
    (h : ∀ i ∈ l, Twin g assigned ps R (f i) (f' (r i))) :
    Twin g assigned ps (fun ρ => List.Forall₂ (R ρ)) (l.mapM f) ((l.map r).mapM f') := by
  induction l with
  | nil => exact .pure fun _ _ => .nil
  | cons i l ih =>
    rw [List.map_cons, List.mapM_cons, List.mapM_cons]
    refine (h i List.mem_cons_self).bind fun qs a b hqs hab => ?_
    have hrest := (ih fun j hj => h j (List.mem_cons_of_mem _ hj)).weaken hqs
    refine hrest.bind fun rs as bs hrs habs => .pure fun ρ hρ => ?_
    exact .cons (hab ρ (hρ.mono hrs)) (habs ρ hρ)

theorem mapM_same {ι : Type} {f : ι → Coding α} {f' : ι → Coding β} {l : List ι}
    (h : ∀ i ∈ l, Twin g assigned ps R (f i) (f' i)) :
    Twin g assigned ps (fun ρ => List.Forall₂ (R ρ)) (l.mapM f) (l.mapM f') := by
  have hmapped : Twin g assigned ps (fun ρ => List.Forall₂ (R ρ)) (l.mapM f) ((l.map id).mapM f') :=
    .mapM h
  rwa [List.map_id] at hmapped

end Twin

/-! Expressions. -/

theorem Number.rename_tree {x : Number} (h : x.isFinite = true) (ρ : String → String) :
    x.tree.rename ρ = x.tree := by
  cases x with
  | nan | infinite => cases h
  | finite negative k hk =>
    unfold Number.tree
    dsimp only
    split <;> rfl

theorem Number.rename_tree_of_words {x : Number} {ρ : String → String}
    (h : x.isFinite = true ∨ ∀ word ∈ numberWords, ρ word = word) : x.tree.rename ρ = x.tree := by
  rcases h with h | h
  · exact Number.rename_tree h ρ
  · have hinfinity : ρ "Infinity" = "Infinity" := h _ (by decide)
    have hnan : ρ "NaN" = "NaN" := h _ (by decide)
    cases x with
    | nan => exact congrArg Script.Expr.var hnan
    | infinite negative =>
      have hvar : (Script.Expr.var "Infinity").rename ρ = .var "Infinity" :=
        congrArg Script.Expr.var hinfinity
      cases negative with
      | false => exact hvar
      | true => exact congrArg (Script.Expr.unary .neg) hvar
    | finite => exact Number.rename_tree rfl ρ

theorem Number.text_mem_numberWords {x : Number} (h : x.isFinite = false) : x.abs.text ∈ numberWords := by
  have hwords : Number.text .nan ∈ numberWords ∧ Number.text (.infinite false) ∈ numberWords := by decide
  cases x with
  | nan => exact hwords.1
  | infinite negative => exact hwords.2
  | finite negative k hk => cases h

theorem Number.isFinite_abs (x : Number) : x.abs.isFinite = x.isFinite := by
  cases x <;> rfl

theorem Number.isFinite_one : (1 : Number).isFinite = true := by
  rw [show (1 : Number) = .ofNat 1 from rfl,
    Number.ofNat_eq_finite (Nat.one_mul _) Number.representable_unit]
  rfl

namespace Block

section

variable {ρ g : String → String} {ident ident' : Block → String} {ops : Operands}

def Operands.rename (ρ : String → String) (operands : Operands) : Operands :=
  operands.map fun p => (p.1, p.2.rename ρ)

theorem Operands.get_rename (ops : Operands) (name : String) {default : Script.Expr}
    (hd : default.rename ρ = default) :
    (Operands.rename ρ ops).get name default = (ops.get name default).rename ρ := by
  unfold Operands.rename Operands.get
  induction ops with
  | nil => exact hd.symm
  | cons p rest ih =>
    obtain ⟨key, e⟩ := p
    rw [List.map_cons, List.lookup_cons, List.lookup_cons]
    cases name == key with
    | true => rfl
    | false => exact ih

theorem rename_zeroTree : zeroTree.rename ρ = zeroTree :=
  Number.rename_tree (congrArg Number.isFinite Number.ofNat_zero) ρ

theorem operationTree_rename (op : Script.BinaryOp) (left right : String) {default : Script.Expr}
    (hd : default.rename ρ = default) : operationTree (Operands.rename ρ ops) op left right default =
      (operationTree ops op left right default).rename ρ := by
  rw [operationTree, operationTree, ops.get_rename left hd, ops.get_rename right hd]
  rfl

theorem partsTree_rename (parts : List Script.Expr) :
    partsTree (parts.map (Script.Expr.rename ρ)) = (partsTree parts).rename ρ := by
  have hfrom : ∀ before : Script.Expr,
      (parts.map (Script.Expr.rename ρ)).foldl (fun e part => .binary .add e part) (before.rename ρ) =
        (parts.foldl (fun e part => .binary .add e part) before).rename ρ := by
    induction parts with
    | nil => exact fun _ => rfl
    | cons part parts ih => exact fun before => ih (.binary .add before part)
  exact hfrom (textTree "")

theorem promptTree_rename (b : Block) (message : Script.Expr) :
    (b.rename g).promptTree (message.rename ρ) = (b.promptTree message).rename ρ := by
  have hnumeric : (b.rename g).isNumericPrompt = b.isNumericPrompt := by simp [isNumericPrompt]
  unfold promptTree
  rw [hnumeric]
  cases b.isNumericPrompt <;> rfl

theorem sockets_rename (b : Block) (declared : Nat) (words : List String) :
    (b.rename g).sockets declared words = b.sockets declared words := by
  rw [sockets, sockets, keys_rename]

variable (ops) in
theorem exprOf_rename (b : Block)
    (hvar : b.kind = "variables_get" → ident' (b.rename g) = ρ (ident b)) :
    exprOf ident' (b.rename g) (Operands.rename ρ ops) = (exprOf ident b ops).rename ρ := by
  have hget (name : String) {default : Script.Expr} (hd : default.rename ρ = default) :=
    ops.get_rename name hd
  unfold exprOf
  rw [rename_kind]
  split <;> rename_i hkind
  case h_1 =>
    rw [numberField_rename b (by decide)]
    exact (Number.rename_tree (isFinite_finiteOf _) ρ).symm
  case h_2 | h_3 | h_6 =>
    rw [field?_rename b (by decide)]
    rfl
  case h_4 | h_7 | h_16 => rfl
  case h_5 => exact congrArg Script.Expr.var (hvar hkind)
  case h_8 =>
    have hop : (b.rename g).arithmetic = b.arithmetic := by simp [arithmetic]
    rw [hop]
    exact operationTree_rename _ _ _ rename_zeroTree
  case h_9 => exact operationTree_rename _ _ _ rename_zeroTree
  case h_10 =>
    have hop : (b.rename g).compareOp = b.compareOp := by simp [compareOp]
    rw [hop]
    exact operationTree_rename _ _ _ rename_zeroTree
  case h_11 =>
    have hop : (b.rename g).logicOp = b.logicOp := by simp [logicOp]
    rw [hop]
    exact operationTree_rename _ _ _ rfl
  case h_12 => exact congrArg (Script.Expr.unary .not) (hget "BOOL" rfl)
  case h_13 =>
    rw [sockets_rename, mutationCount_rename, ← partsTree_rename, List.map_map]
    exact congrArg partsTree (List.map_congr_left fun i _ => hget _ rfl)
  case h_14 =>
    rw [field?_rename b (by decide)]
    exact promptTree_rename b (textTree _)
  case h_15 =>
    rw [hget "TEXT" rfl]
    exact promptTree_rename b _

mutual

theorem expr_rename : (b : Block) →
    (∀ c ∈ b.active, c.kind = "variables_get" → ident' (c.rename g) = ρ (ident c)) →
    (b.rename g).expr ident' = (b.expr ident).rename ρ
  | ⟨id, kind, position, disabled, fields, ⟨values⟩, ⟨statements⟩, mutation⟩, h => by
    simp only [active, List.mem_cons, List.mem_append] at h
    have hops := operands_rename values fun c hc => h c (.inr (.inl hc))
    have hown := exprOf_rename (operands ident values) _ (h _ (.inl rfl))
    rw [← hops] at hown
    rw [expr]
    exact hown

theorem operands_rename : (values : List (String × Socket Block)) →
    (∀ c ∈ socketsActive values, c.kind = "variables_get" → ident' (c.rename g) = ρ (ident c)) →
    operands ident' (renameSockets g values) = Operands.rename ρ (operands ident values)
  | [], _ => rfl
  | (name, ⟨some b, _⟩) :: rest, h | (name, ⟨none, some b⟩) :: rest, h => by
    simp only [socketsActive, List.mem_append] at h
    have hb := expr_rename b fun c hc => h c (.inl hc)
    have hrest := operands_rename rest fun c hc => h c (.inr hc)
    simp only [renameSockets, renameOption, operands, hb, hrest]
    rfl
  | (_, ⟨none, none⟩) :: rest, h => by
    rw [socketsActive] at h
    exact operands_rename rest h

end

end

/-! Statements. -/

/-- Statements that are others under new identifiers. -/
def Relabelled (ρ : String → String) (ss ss' : List Script.Statement) : Prop := ss' = renameAll ρ ss

/-- Loops that are others around every body. -/
def LoopRelabelled (ρ : String → String) (loop loop' : LoopTree) : Prop :=
  ∀ body, loop' (renameAll ρ body) = renameAll ρ (loop body)

theorem rangeTree_rename {ρ : String → String} (ident : String) {start stop step : Number}
    (h : ∀ x ∈ [start, stop, step], x.isFinite = true ∨ ∀ word ∈ numberWords, ρ word = word)
    (body : List Script.Statement) : rangeTree (ρ ident) start stop step (renameAll ρ body) =
      (rangeTree ident start stop step body).rename ρ := by
  have hstart : start.tree.rename ρ = start.tree := Number.rename_tree_of_words (h start (by simp))
  have hstop : stop.tree.rename ρ = stop.tree := Number.rename_tree_of_words (h stop (by simp))
  have habs := h step (by simp)
  rw [← Number.isFinite_abs] at habs
  have hstep : step.abs.tree.rename ρ = step.abs.tree := Number.rename_tree_of_words habs
  cases hle : start.le stop <;>
    simp [rangeTree, hle, setTo, Script.Statement.rename, Script.Binding.rename,
      Script.Assignment.rename, Script.Expr.rename, hstart, hstop, hstep]

section

variable {g : String → String} {assigned ps : List (String × String)} {b : Block}
  {ops ops' : Names → Operands} {inn inn' : Inner} {v v' : Block → String}

/-- Whether operands are others under new identifiers wherever the variables have theirs. -/
def OperandsTwin (g : String → String) (assigned : List (String × String))
    (ops ops' : Names → Operands) : Prop :=
  ∀ ρ n n', Calls g assigned ρ n n' → ops' n' = Operands.rename ρ (ops n)

theorem OperandsTwin.get (h : OperandsTwin g assigned ops ops') {ρ : String → String} {n n' : Names}
    (hn : Calls g assigned ρ n n') (name : String) {default : Script.Expr}
    (hd : default.rename ρ = default) :
    (ops' n').get name default = ((ops n).get name default).rename ρ := by
  rw [h ρ n n' hn, Operands.get_rename _ name hd]

variable (hops : OperandsTwin g assigned ops ops')

include hops

theorem repeatTree_twin : Twin g assigned ps LoopRelabelled (b.repeatTree ops)
    ((b.rename g).repeatTree ops') := by
  unfold repeatTree
  rw [input?_rename]
  cases b.input? "TIMES" with
  | none =>
    refine .bind (.helper (by decide) (by decide)) fun qs c c' _ hc => .pure fun ρ hρ body => ?_
    rw [hc ρ hρ]
    exact congrArg (fun e => [countedTree (ρ c) e (renameAll ρ body)]) rename_zeroTree.symm
  | some times =>
    dsimp only [Option.map_some]
    rw [rename_kind]
    split
    · refine .bind (.helper (by decide) (by decide)) fun qs c c' _ hc => .pure fun ρ hρ body => ?_
      rw [hc ρ hρ, numberField_rename times (by decide)]
      exact congrArg (fun e => [countedTree (ρ c) e (renameAll ρ body)])
        (Number.rename_tree (isFinite_finiteOf _) ρ).symm
    · refine .bind (.helper (by decide) (by decide)) fun qs e e' _ he => .bind (.helper (by decide) (by decide)) fun rs c c' hrs hc => ?_
      refine .bind .get fun ts n n' hts hn => .pure fun ρ hρ body => ?_
      rw [hc ρ (hρ.mono hts), he ρ (hρ.mono (List.Subset.trans hrs hts)),
        hops.get (hn ρ hρ) "TIMES" rename_zeroTree]
      rfl

theorem forTree_twin {ident ident' : String} (hident : ∀ ρ, Names.Fits ρ ps → ident' = ρ ident)
    (hkind : b.kind = "controls_for")
    (hspliced : ∀ x, b.Splices x → x.isFinite = true ∨ ∀ word ∈ numberWords, (word, word) ∈ ps) :
    Twin g assigned ps LoopRelabelled (b.forTree ident ops) ((b.rename g).forTree ident' ops') := by
  unfold forTree
  simp only [knownBound?_rename]
  split
  next start stop step hstart hstop hstep =>
    refine .pure fun ρ hρ body => ?_
    rw [hident ρ hρ]
    refine congrArg (fun s => [s]) (rangeTree_rename ident (fun x hx => ?_) body)
    refine (hspliced x ⟨hkind, start, stop, step, hstart, hstop, hstep, hx⟩).imp_right fun h => ?_
    exact fun word hword => (hρ _ (h word hword)).symm
  next =>
    refine .bind .get fun p₁ n n' h₁ hn => ?_
    refine .bind (.helper_after (by decide)) fun p₂ s s' h₂ hs => ?_
    refine .bind (.helper_after (by decide)) fun p₃ e e' h₃ he => ?_
    refine .bind (.helper_after (by decide)) fun p₄ i i' h₄ hi => ?_
    refine .pure fun ρ hρ body => ?_
    have hρ₃ := hρ.mono h₄
    have hρ₂ := hρ₃.mono h₃
    have hρ₁ := hρ₂.mono h₂
    have hone : (Number.tree 1).rename ρ = Number.tree 1 := Number.rename_tree Number.isFinite_one ρ
    rw [hident ρ (hρ₁.mono h₁), hs ρ hρ₂, he ρ hρ₃, hi ρ hρ,
      hops.get (hn ρ hρ₁) "FROM" rename_zeroTree, hops.get (hn ρ hρ₁) "TO" rename_zeroTree,
      hops.get (hn ρ hρ₁) "BY" hone, Script.renameAll_append]
    rfl

theorem chooseTree_twin
    (hinner : ∀ name, Twin g assigned ps Relabelled (inn.get name) (inn'.get name)) :
    Twin g assigned ps Relabelled (b.chooseTree ops inn) ((b.rename g).chooseTree ops' inn') := by
  have hbranches : Twin g assigned ps (fun ρ bs bs' => bs' = renameBranches ρ bs)
      (branchesTree ops inn (List.range b.branchCount))
      (branchesTree ops' inn' (List.range b.branchCount)) := by
    have hall : Twin g assigned ps
        (fun ρ => List.Forall₂ fun p p' => p' = (p.1.rename ρ, renameAll ρ p.2))
        (branchesTree ops inn (List.range b.branchCount))
        (branchesTree ops' inn' (List.range b.branchCount)) := by
      refine .mapM_same fun i _ => .bind .get fun qs n n' hqs hn => ?_
      refine ((hinner _).weaken hqs).bind fun rs ss ss' hrs hss => .pure fun ρ hρ => ?_
      rw [hss ρ hρ, hops.get (hn ρ (hρ.mono hrs)) _ rfl]
    refine hall.imp fun ρ bs bs' hbs => ?_
    induction hbs with
    | nil => rfl
    | cons hp _ ih => rw [hp, ih, renameBranches]
  have hcount : (b.rename g).branchCount = b.branchCount := by
    rw [branchCount, branchCount, mutationCount_rename, sockets_rename]
  have helse : (b.rename g).hasElse = b.hasElse := by
    rw [hasElse, hasElse, mutationCount_rename, contains_rename]
  unfold chooseTree
  rw [hcount, helse]
  refine hbranches.bind fun qs bs bs' hqs hbs => ?_
  split
  · refine ((hinner "ELSE").weaken hqs).bind fun rs ss ss' hrs hss => .pure fun ρ hρ => ?_
    rw [Relabelled, hbs ρ (hρ.mono hrs), hss ρ hρ]
    rfl
  · refine .pure fun ρ hρ => ?_
    rw [Relabelled, hbs ρ hρ]
    rfl

omit hops in
theorem isFinite_numberField (b : Block) (name : String) (ρ : String → String) :
    (b.numberField name).tree.rename ρ = (b.numberField name).tree :=
  Number.rename_tree (isFinite_finiteOf _) ρ

/-- Whether the variable of a block has an identifier on both sides, and its bounds are finite or the words
for others are the same ones there. -/
structure Known (g : String → String) (assigned ps : List (String × String)) (v v' : Block → String)
    (b : Block) : Prop where
  requested : Workspace.namesVariable b = true → v b ∈ assigned.map Prod.fst
  renamed : Workspace.namesVariable b = true → v' (b.rename g) = g (v b)
  spliced : ∀ x, b.Splices x → x.isFinite = true ∨ ∀ word ∈ numberWords, (word, word) ∈ ps

omit hops in
theorem Known.ident (h : Known g assigned ps v v' b) (hnames : Workspace.namesVariable b = true)
    {ρ : String → String} {n n' : Names} (hn : Calls g assigned ρ n n') :
    n'.identOf (v' (b.rename g)) = ρ (n.identOf (v b)) := by
  rw [h.renamed hnames, hn _ (h.requested hnames)]

theorem ownOf_twin (h : Known g assigned ps v v' b)
    (hinner : ∀ name, Twin g assigned ps Relabelled (inn.get name) (inn'.get name)) :
    Twin g assigned ps Relabelled (ownOf v b ops inn) (ownOf v' (b.rename g) ops' inn') := by
  unfold ownOf
  rw [rename_kind]
  split <;> rename_i hkind
  case h_1 => exact .pure fun _ _ => rfl
  case h_2 =>
    have hfocus : (b.rename g).focusOf = b.focusOf := by simp [focusOf]
    rw [hfocus]
    exact .pure fun _ _ => rfl
  case h_3 =>
    rw [numberField_rename b (by decide)]
    refine .pure fun ρ _ => ?_
    exact congrArg (fun e => [callTree .waitSeconds [e]]) (isFinite_numberField b "SECONDS" ρ).symm
  case h_4 =>
    have haxis : (b.rename g).axisOf = b.axisOf := by simp [axisOf]
    have hmode : (b.rename g).modeOf = b.modeOf := by simp [modeOf]
    rw [haxis, hmode]
    refine .bind .get fun qs n n' _ hn => .pure fun ρ hρ => ?_
    rw [hops.get (hn ρ hρ) "steps" rename_zeroTree]
    rfl
  case h_5 =>
    have hmode : (b.rename g).modeOf = b.modeOf := by simp [modeOf]
    rw [hmode]
    refine .bind .get fun qs n n' _ hn => .pure fun ρ hρ => ?_
    have hget (name : String) := hops.get (hn ρ hρ) name rename_zeroTree
    rw [hget "x_steps", hget "y_steps", hget "z_steps"]
    rfl
  case h_6 =>
    refine .bind .get fun qs n n' _ hn => .pure fun ρ hρ => ?_
    rw [hops.get (hn ρ hρ) "TEXT" rfl]
    rfl
  case h_7 =>
    have hnames : Workspace.namesVariable b = true := by simp [Workspace.namesVariable, hkind]
    refine .bind .get fun qs n n' _ hn => .pure fun ρ hρ => ?_
    rw [hops.get (hn ρ hρ) "VALUE" rename_zeroTree, h.ident hnames (hn ρ hρ)]
    rfl
  case h_8 =>
    have hnames : Workspace.namesVariable b = true := by simp [Workspace.namesVariable, hkind]
    refine .bind .get fun qs n n' _ hn => .pure fun ρ hρ => ?_
    rw [hops.get (hn ρ hρ) "DELTA" rename_zeroTree, h.ident hnames (hn ρ hρ)]
    rfl
  case h_9 => exact chooseTree_twin hops hinner
  case h_10 =>
    rw [numberField_rename b (by decide)]
    refine .bind (.helper (by decide) (by decide)) fun qs c c' hqs hc => ?_
    refine ((hinner "DO").weaken hqs).bind fun rs ss ss' hrs hss => .pure fun ρ hρ => ?_
    rw [Relabelled, hc ρ (hρ.mono hrs), hss ρ hρ]
    exact congrArg (fun e => [countedTree (ρ c) e (renameAll ρ ss)])
      (isFinite_numberField b "TIMES" ρ).symm
  case h_11 =>
    refine (repeatTree_twin hops).bind fun qs loop loop' hqs hloop => ?_
    refine ((hinner "DO").weaken hqs).bind fun rs ss ss' hrs hss => .pure fun ρ hρ => ?_
    rw [Relabelled, hss ρ hρ]
    exact hloop ρ (hρ.mono hrs) ss
  case h_12 =>
    rw [field?_rename b (by decide)]
    refine .bind .get fun qs n n' hqs hn => ?_
    refine ((hinner "DO").weaken hqs).bind fun rs ss ss' hrs hss => .pure fun ρ hρ => ?_
    rw [Relabelled, hops.get (hn ρ (hρ.mono hrs)) "BOOL" rfl, hss ρ hρ]
    split <;> rfl
  case h_13 =>
    have hnames : Workspace.namesVariable b = true := by simp [Workspace.namesVariable, hkind]
    refine .bind .get fun qs n n' hqs hn => ?_
    have hloop : Twin g assigned qs LoopRelabelled (b.forTree (n.identOf (v b)) ops)
        ((b.rename g).forTree (n'.identOf (v' (b.rename g))) ops') :=
      forTree_twin hops (fun ρ hρ => h.ident hnames (hn ρ hρ)) hkind
        fun x hx => (h.spliced x hx).imp_right fun hwords word hword => hqs (hwords word hword)
    refine hloop.bind fun rs loop loop' hrs hloop => ?_
    refine ((hinner "DO").weaken (List.Subset.trans hqs hrs)).bind fun ts ss ss' hts hss => ?_
    refine .pure fun ρ hρ => ?_
    rw [Relabelled, hss ρ hρ]
    exact hloop ρ (hρ.mono hts) ss
  case h_14 =>
    rw [field?_rename b (by decide)]
    refine .pure fun _ _ => ?_
    split <;> rfl
  case h_15 => exact .pure fun _ _ => rfl

end

section

variable {g : String → String} {assigned ps : List (String × String)} {v v' : Block → String}

theorem operandsTwin_of_known {values : List (String × Socket Block)}
    (h : ∀ c ∈ socketsActive values, Known g assigned ps v v' c) : OperandsTwin g assigned
      (fun n => operands (fun b => n.identOf (v b)) values)
      (fun n => operands (fun b => n.identOf (v' b)) (renameSockets g values)) := by
  intro ρ n n' hn
  refine operands_rename values fun c hc hkind => (h c hc).ident ?_ hn
  simp [Workspace.namesVariable, hkind]

mutual

/-- The statements of a block are the same under new identifiers. -/
theorem own_twin : (b : Block) → (∀ c ∈ b.active, Known g assigned ps v v' c) →
    Twin g assigned ps Relabelled (b.own v) ((b.rename g).own v')
  | ⟨id, kind, position, disabled, fields, ⟨values⟩, ⟨statements⟩, mutation⟩, h => by
    simp only [active, List.mem_cons, List.mem_append] at h
    rw [own]
    exact ownOf_twin (operandsTwin_of_known fun c hc => h c (.inr (.inl hc))) (h _ (.inl rfl))
      (inner_twin statements fun c hc => h c (.inr (.inr hc)))

theorem statementsOf_twin : (chain : List Block) →
    (∀ c ∈ chainActive chain, Known g assigned ps v v' c) →
    Twin g assigned ps Relabelled (statementsOf v chain) (statementsOf v' (renameChain g chain))
  | [], _ => .pure fun _ _ => rfl
  | b :: rest, h => by
    simp only [chainActive, List.mem_append] at h
    rw [renameChain, statementsOf, statementsOf, rename_disabled, rename_id]
    split
    · exact statementsOf_twin rest fun c hc => h c (.inr hc)
    · refine (own_twin b fun c hc => h c (.inl hc)).bind fun qs ss ss' hqs hss => ?_
      have hrest := statementsOf_twin rest fun c hc => h c (.inr hc)
      refine (hrest.weaken hqs).bind fun rs ts ts' hrs hts => .pure fun ρ hρ => ?_
      rw [Relabelled, hss ρ (hρ.mono hrs), hts ρ hρ, Script.renameAll_append]
      rfl

theorem inner_twin : (statements : List (String × List Block)) →
    (∀ c ∈ chainsActive statements, Known g assigned ps v v' c) → (name : String) →
    Twin g assigned ps Relabelled ((inner v statements).get name)
      ((inner v' (renameChains g statements)).get name)
  | [], _, _ => .pure fun _ _ => rfl
  | (key, chain) :: rest, h, name => by
    simp only [chainsActive, List.mem_append] at h
    rw [renameChains, inner, inner, Inner.get, Inner.get, List.lookup_cons, List.lookup_cons]
    cases name == key with
    | true => exact statementsOf_twin chain fun c hc => h c (.inl hc)
    | false => exact inner_twin rest (fun c hc => h c (.inr hc)) name

end

theorem itemTree_twin (b : Block)
    (h : ∀ c ∈ b.active, Known g assigned ps v v' c) :
    Twin g assigned ps Relabelled (b.itemTree v) ((b.rename g).itemTree v') := by
  unfold itemTree
  rw [rename_kind, rename_id]
  split
  · refine .bind .get fun qs n n' _ hn => .pure fun ρ hρ => ?_
    rw [Relabelled, expr_rename b fun c hc hkind =>
      (h c hc).ident (by simp [Workspace.namesVariable, hkind]) (hn ρ hρ)]
    rfl
  · refine (own_twin b h).bind fun qs ss ss' _ hss => .pure fun ρ hρ => ?_
    rw [Relabelled, hss ρ hρ]
    rfl

end

end Block

/-! Bounds that are written down. -/

namespace Block

/-- A block that is a number is not infinite or no number, where it can be read as one at all. -/
def IsFinite (b : Block) : Prop :=
  b.kind = "math_number" → ∀ text ∈ b.field? "NUM",
    ∀ x ∈ Number.readChars? (Text.trimChars text.toList), x.isFinite = true

instance (b : Block) : Decidable b.IsFinite :=
  inferInstanceAs (Decidable (b.kind = "math_number" → ∀ text ∈ b.field? "NUM",
    ∀ x ∈ Number.readChars? (Text.trimChars text.toList), x.isFinite = true))

theorem mem_subtree_self (b : Block) : b ∈ b.subtree := by
  obtain ⟨id, kind, position, disabled, fields, ⟨values⟩, ⟨statements⟩, mutation⟩ := b
  rw [subtree]
  exact List.mem_cons_self

theorem input?_mem_subtree {b c : Block} {name : String} (h : b.input? name = some c) :
    c ∈ b.subtree := by
  obtain ⟨id, kind, position, disabled, fields, ⟨values⟩, ⟨statements⟩, mutation⟩ := b
  change (values.lookup name).bind Socket.effective = some c at h
  have hvalues : c ∈ socketsSubtree values := by
    induction values with
    | nil => cases h
    | cons e rest ih =>
      obtain ⟨key, ⟨block, shadow⟩⟩ := e
      simp only [socketsSubtree, List.mem_append]
      rw [List.lookup_cons] at h
      cases hkey : name == key with
      | false =>
        rw [hkey] at h
        exact .inr (ih h)
      | true =>
        rw [hkey] at h
        cases block with
        | some d =>
          cases h
          exact .inl (.inl c.mem_subtree_self)
        | none =>
          cases shadow with
          | none => cases h
          | some d =>
            cases h
            exact .inl (.inr c.mem_subtree_self)
  rw [subtree]
  exact List.mem_cons_of_mem _ (List.mem_append_left _ hvalues)

theorem finite_of_splices {b : Block} (h : ∀ c ∈ b.subtree, c.IsFinite) {x : Number}
    (hx : b.Splices x) : x.isFinite = true := by
  have hbound {name : String} {default y : Number} (hd : default.isFinite = true)
      (hy : b.knownBound? name default = some y) : y.isFinite = true := by
    unfold knownBound? at hy
    split at hy
    next input hinput =>
      split at hy
      next hkind =>
        obtain ⟨text, htext, hread⟩ := Option.bind_eq_some_iff.1 hy
        exact h input (input?_mem_subtree hinput) hkind text htext y hread
      next => cases hy
    next =>
      cases hy
      exact hd
  have hzero : (0 : Number).isFinite = true := congrArg Number.isFinite Number.ofNat_zero
  obtain ⟨-, start, stop, step, hstart, hstop, hstep, hmem⟩ := hx
  simp only [List.mem_cons, List.not_mem_nil, or_false] at hmem
  rcases hmem with rfl | rfl | rfl
  · exact hbound hzero hstart
  · exact hbound hzero hstop
  · exact hbound Number.isFinite_one hstep

mutual

theorem finite_active : (b : Block) → (∀ c ∈ b.subtree, c.IsFinite) → ∀ d ∈ b.active, ∀ x,
    d.Splices x → x.isFinite = true
  | ⟨id, kind, position, disabled, fields, ⟨values⟩, ⟨statements⟩, mutation⟩, h, d, hd => by
    have hall := h
    simp only [subtree, List.mem_cons, List.mem_append] at hall
    simp only [active, List.mem_cons, List.mem_append] at hd
    rcases hd with rfl | hd | hd
    · exact fun x => finite_of_splices h
    · exact finite_socketsActive values (fun c hc => hall c (.inr (.inl hc))) d hd
    · exact finite_chainsActive statements (fun c hc => hall c (.inr (.inr hc))) d hd

theorem finite_socketsActive : (values : List (String × Socket Block)) →
    (∀ c ∈ socketsSubtree values, c.IsFinite) → ∀ d ∈ socketsActive values, ∀ x,
    d.Splices x → x.isFinite = true
  | [], _, _, hd => absurd hd List.not_mem_nil
  | (_, ⟨some b, _⟩) :: rest, h, d, hd => by
    simp only [socketsSubtree, optionSubtree, List.mem_append] at h
    rcases List.mem_append.1 hd with hd | hd
    · exact finite_active b (fun c hc => h c (.inl (.inl hc))) d hd
    · exact finite_socketsActive rest (fun c hc => h c (.inr hc)) d hd
  | (_, ⟨none, some b⟩) :: rest, h, d, hd => by
    simp only [socketsSubtree, optionSubtree, List.mem_append] at h
    rcases List.mem_append.1 hd with hd | hd
    · exact finite_active b (fun c hc => h c (.inl (.inr hc))) d hd
    · exact finite_socketsActive rest (fun c hc => h c (.inr hc)) d hd
  | (_, ⟨none, none⟩) :: rest, h, d, hd => by
    simp only [socketsSubtree, List.mem_append] at h
    exact finite_socketsActive rest (fun c hc => h c (.inr hc)) d hd

theorem finite_chainsActive : (statements : List (String × List Block)) →
    (∀ c ∈ chainsSubtree statements, c.IsFinite) → ∀ d ∈ chainsActive statements, ∀ x,
    d.Splices x → x.isFinite = true
  | [], _, _, hd => absurd hd List.not_mem_nil
  | (_, chain) :: rest, h, d, hd => by
    simp only [chainsSubtree, List.mem_append] at h
    rcases List.mem_append.1 hd with hd | hd
    · exact finite_chainActive chain (fun c hc => h c (.inl hc)) d hd
    · exact finite_chainsActive rest (fun c hc => h c (.inr hc)) d hd

theorem finite_chainActive : (chain : List Block) → (∀ c ∈ chainSubtree chain, c.IsFinite) →
    ∀ d ∈ chainActive chain, ∀ x, d.Splices x → x.isFinite = true
  | [], _, _, hd => absurd hd List.not_mem_nil
  | b :: rest, h, d, hd => by
    simp only [chainSubtree, List.mem_append] at h
    rcases List.mem_append.1 hd with hd | hd
    · exact finite_active b (fun c hc => h c (.inl hc)) d hd
    · exact finite_chainActive rest (fun c hc => h c (.inr hc)) d hd

end

end Block

theorem relabelled_flatten {ρ : String → String} {sss sss' : List (List Script.Statement)}
    (h : List.Forall₂ (Block.Relabelled ρ) sss sss') : Block.Relabelled ρ sss.flatten sss'.flatten := by
  induction h with
  | nil => rfl
  | cons hss _ ih =>
    rw [Block.Relabelled, List.flatten_cons, List.flatten_cons, Script.renameAll_append, hss, ih]

namespace Workspace

/-- Whether all number blocks that can be read are finite. -/
def FiniteNumbers (w : Workspace) : Prop := ∀ b ∈ w.blocks, b.IsFinite

instance (w : Workspace) : Decidable w.FiniteNumbers :=
  inferInstanceAs (Decidable (∀ b ∈ w.blocks, b.IsFinite))

variable {w : Workspace} {g : String → String} (hg : Function.Injective g) (hempty : g "" = "")

include hg hempty

theorem known_active (hfinite : w.FiniteNumbers) {stack : List Block} (hs : stack ∈ w.orderedStacks)
    {b : Block} (hb : b ∈ stack) {ps : List (String × String)} : ∀ c ∈ b.active,
      Block.Known g w.names.assigned ps w.variableOf (w.rename g).variableOf c := by
  intro c hc
  refine ⟨requests_active hs hb c hc, variableOf_rename hg hempty, fun x hx => .inl ?_⟩
  refine Block.finite_chainActive stack (fun d hd => ?_) c (Block.mem_chainActive hb hc) x hx
  exact hfinite d (List.mem_flatMap.2 ⟨stack, mem_stackList hs, hd⟩)

/-- The script of the renamed workspace is that of the workspace under a renaming of identifiers. -/
theorem script_rename (hfinite : w.FiniteNumbers) :
    ∃ ρ : Equiv.Perm String, (w.rename g).script = renameAll ρ w.script := by
  have hnames : (w.rename g).names = .ofVariables (w.variableNames.map g) := by
    rw [names, variableNames_rename hg hempty]
  have hstart : Twinned g w.names (w.rename g).names := hnames ▸ .ofVariables hg w.variableNames
  have hstack : ∀ stack ∈ w.orderedStacks, Twin g w.names.assigned [] Block.Relabelled
      (w.stackScript stack) ((w.rename g).stackScript (Block.renameChain g stack)) := by
    intro stack hs
    unfold stackScript
    rw [Block.renameChain_eq_map, List.filter_map]
    simp only [Function.comp_def, Block.rename_disabled]
    refine (Twin.mapM fun b hb => ?_).bind fun qs parts parts' _ hparts => .pure fun ρ hρ =>
      relabelled_flatten (hparts ρ hρ)
    exact Block.itemTree_twin b
      (known_active hg hempty hfinite hs (List.mem_filter.1 hb).1)
  -- helpers get their identifiers on the way, so the map is known only when the last one is given out
  obtain ⟨rs, hgrown, hend, hall⟩ := Twin.mapM hstack _ _ _ (hstart.paired hg) (List.nil_subset _)
  obtain ⟨ρ, hρ⟩ := hend.exists_perm
  refine ⟨ρ, ?_⟩
  have hheader : headerTree (w.rename g).names = renameAll ρ (headerTree w.names) := by
    rw [headerTree, headerTree, hstart.declared (hρ.mono hgrown.subset)]
    generalize w.names.declared = idents
    induction idents with
    | nil => rfl
    | cons ident idents ih => rw [List.map_cons, List.map_cons, List.map_cons, ih]; rfl
  rw [script, script, Script.renameAll_append, hheader, orderedStacks_rename]
  exact congrArg _ (relabelled_flatten (hall ρ hρ))

end Workspace

end ScopeBlocks
