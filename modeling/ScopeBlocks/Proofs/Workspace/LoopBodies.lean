import ScopeBlocks.Proofs.Workspace.RenamedRuns
import ScopeBlocks.Proofs.Workspace.TwinRuns

/-! The body of a loop. It is coded when the helpers of the loop have their names, so that it mentions none of
them. Coded after other helpers it is the same under a renaming of its own ones. -/
namespace ScopeBlocks

open Names (Paired numberWords)
open Script (freeAll mentionsAll placedAll renameAll)

/-! Names with helpers. -/

namespace Names

variable {n n' m : Names}

/-- Identifiers that no helper gets: those of variables, and words for numbers. -/
def fixed (n : Names) : List String := (n.declared ++ numberWords).dedup

theorem mem_fixed {x : String} : x ∈ n.fixed ↔ x ∈ n.declared ∨ x ∈ numberWords := by
  rw [fixed, List.mem_dedup, List.mem_append]

/-- Whether names are others to which helpers have been added. -/
structure Adds (n n' : Names) : Prop where
  assigned : n'.assigned = n.assigned
  taken : n.taken ⊆ n'.taken

namespace Adds

theorem refl : Adds n n := ⟨rfl, fun _ hx => hx⟩

theorem distinct (h : Adds n n') (base : String) : Adds n (n'.distinct base).2 :=
  ⟨h.assigned, List.subset_cons_of_subset _ h.taken⟩

theorem fixed (h : Adds n n') : n'.fixed = n.fixed := by
  rw [Names.fixed, Names.fixed, declared, declared, h.assigned]

theorem declared_taken (h : Adds n n') (htaken : n.declared ⊆ n.taken) : n'.declared ⊆ n'.taken := by
  rw [declared, h.assigned]
  exact List.Subset.trans htaken h.taken

theorem identOf (h : Adds n n') {x : String} (hx : x ∈ n.assigned.map Prod.fst) :
    n'.identOf x = n.identOf x := by
  unfold Names.identOf identify
  rw [h.assigned]
  cases hident : n.assigned.lookup x with
  | some ident => rfl
  | none =>
    obtain ⟨p, hp, rfl⟩ := List.mem_map.1 hx
    have hne := List.lookup_eq_none_iff.1 hident p hp
    simp at hne

end Adds

theorem distinct_not_fixed (htaken : n.declared ⊆ n.taken) {base : String} (hbase : base ∉ numberWords) :
    (n.distinct base).1 ∉ n.fixed := by
  intro hmem
  rcases mem_fixed.1 hmem with hdeclared | hword
  · exact n.freshIdent_not_mem _ (htaken hdeclared)
  · exact hbase (freshIdent_mem_numberWords hword ▸ hword)

theorem paired_fixed (h : n.Adds n') (htaken : n.declared ⊆ n.taken) :
    Paired (fun x => x) n.assigned (n.fixed.map fun x => (x, x)) n n' := by
  have hfst : (n.fixed.map fun x => (x, x)).map Prod.fst = n.fixed := by simp [Function.comp_def]
  have hsnd : (n.fixed.map fun x => (x, x)).map Prod.snd = n.fixed := by simp [Function.comp_def]
  refine ⟨?_, ?_, fun p hp => ?_, fun p hp => ?_, fun x hx => ?_⟩
  · rw [hfst]
    exact List.nodup_dedup _
  · rw [hsnd]
    exact List.nodup_dedup _
  · obtain ⟨x, hx, rfl⟩ := List.mem_map.1 hp
    exact (mem_fixed.1 hx).imp_left fun hd => htaken hd
  · obtain ⟨x, hx, rfl⟩ := List.mem_map.1 hp
    exact (mem_fixed.1 hx).imp_left fun hd => h.taken (htaken hd)
  · refine ⟨hx, h.assigned ▸ hx, ?_⟩
    rw [h.identOf hx]
    exact List.mem_map.2 ⟨_, mem_fixed.2 (.inl (identOf_mem_declared hx)), rfl⟩

end Names

namespace Block

variable {v : Block → String} {n n' : Names} {b : Block}

def body (v : Block → String) (b : Block) : Coding (List Script.Statement) :=
  (inner v b.statements.entries).get "DO"

theorem own_eq (b : Block) : b.own v = ownOf v b
    (fun names => operands (fun c => names.identOf (v c)) b.values.entries) (inner v b.statements.entries) := by
  obtain ⟨id, kind, position, disabled, fields, values, ⟨statements⟩, mutation⟩ := b
  rw [own]

/-- Whether a block can be coded under some names: its variables have their identifiers, which are taken. -/
structure Served (v : Block → String) (n : Names) (b : Block) : Prop where
  taken : n.declared ⊆ n.taken
  requests : Requests v n.assigned b.active

theorem Served.inner (h : b.Served v n) : Requests v n.assigned (chainsActive b.statements.entries) := by
  obtain ⟨id, kind, position, disabled, fields, ⟨values⟩, ⟨statements⟩, mutation⟩ := b
  intro c hc
  refine h.requests c ?_
  rw [active]
  exact List.mem_cons_of_mem _ (List.mem_append_right _ hc)

theorem Served.sockets (h : b.Served v n) : Requests v n.assigned (socketsActive b.values.entries) := by
  obtain ⟨id, kind, position, disabled, fields, ⟨values⟩, ⟨statements⟩, mutation⟩ := b
  intro c hc
  refine h.requests c ?_
  rw [active]
  exact List.mem_cons_of_mem _ (List.mem_append_left _ hc)

theorem Served.adds (h : b.Served v n) (hadds : n.Adds n') : b.Served v n' :=
  ⟨hadds.declared_taken h.taken, hadds.assigned ▸ h.requests⟩

theorem Served.inside (h : b.Served v n) {l : Bool} {d : Block} (hd : b.Inside l d) : d.Served v n := by
  induction hd with
  | here => exact h
  | inChain _ hchain hc _ _ ih =>
    exact ih ⟨h.taken, fun d hd => h.requests d (chainActive_subset hchain (mem_chainActive hc hd))⟩

variable (v b) in
theorem body_placed : Returns (placedAll true · = true) (b.body v) := by
  refine inner_placed v b.statements.entries true "DO" fun chain _ c _ _ => ?_
  intro l d _ _
  exact Bool.or_true l

theorem body_free (h : b.Served v n) : ∀ u ∈ freeAll (b.body v n).1, u.name ∈ n.fixed := by
  have hdeclared : Keeping n.assigned (Declared n.declared fun u => u.name ∈ numberWords) (b.body v) :=
    inner_declared b.statements.entries "DO" h.inner fun _ _ _ _ _ _ _ _ _ _ hinfinite =>
      Number.text_mem_numberWords hinfinite
  exact fun u hu => Names.mem_fixed.2 ((hdeclared n rfl).1 u hu)

theorem body_twin (h : b.Served v n) :
    Twin (fun x => x) n.assigned (n.fixed.map fun x => (x, x)) Relabelled (b.body v) (b.body v) := by
  have hknown (c : Block) (hc : c ∈ chainsActive b.statements.entries) :
      Known (fun x => x) n.assigned (n.fixed.map fun x => (x, x)) v v c := by
    refine ⟨h.inner c hc, fun _ => ?_, fun x _ => .inr fun word hword => ?_⟩
    · rw [rename_self fun _ => rfl]
    · exact List.mem_map.2 ⟨word, Names.mem_fixed.2 (.inr hword), rfl⟩
  have htwin := inner_twin b.statements.entries hknown "DO"
  rwa [renameChains_self fun _ => rfl] at htwin

/-- After more helpers, a body is the same but for its own ones: what has a name already it leaves alone. -/
theorem body_relabelled (h : b.Served v n) (hadds : n.Adds n') : ∃ (ρ : Equiv.Perm String) (known : List String),
    (b.body v n').1 = renameAll ρ (b.body v n).1 ∧ mentionsAll (b.body v n).1 ⊆ known ∧
      n.fixed ⊆ known ∧ (∀ x ∈ n.fixed, ρ x = x) ∧ ∀ x ∈ n'.taken, x ∉ n.fixed → x ∉ known.map ρ := by
  obtain ⟨rs, hgrown, hpaired, hall⟩ :=
    body_twin h n n' _ (Names.paired_fixed hadds h.taken) fun _ hp => hp
  obtain ⟨ρ, hρ⟩ := hpaired.exists_perm
  have hself (x : String) (hx : x ∈ n.fixed) : (x, x) ∈ rs := hgrown.subset (List.mem_map.2 ⟨x, hx, rfl⟩)
  refine ⟨ρ, rs.map Prod.fst, hall ρ hρ, mentions_of_relabelled hρ hall, fun x hx => ?_,
    fun x hx => (hρ _ (hself x hx)).symm, fun x hx hfixed hmem => ?_⟩
  · exact List.mem_map.2 ⟨(x, x), hself x hx, rfl⟩
  · obtain ⟨y, hy, rfl⟩ := List.mem_map.1 hmem
    obtain ⟨p, hp, rfl⟩ := List.mem_map.1 hy
    rw [← hρ p hp] at hx hfixed
    rcases hgrown.fresh p hp with hold | ⟨-, hnew⟩
    · obtain ⟨z, hz, rfl⟩ := List.mem_map.1 hold
      exact hfixed hz
    · exact hnew hx

theorem body_leaves (h : b.Served v n) {x : String} (hx : x ∈ n.taken) (hfixed : x ∉ n.fixed) {σ : Type}
    (host : Script.Host σ) (w : Script.Walk σ) :
    (Script.walkAll host (b.body v n).1 w).2.store.get? x = w.store.get? x := by
  obtain ⟨ρ, known, hsame, hmentions, -, hfixes, hapart⟩ := body_relabelled h .refl
  have hstart : Script.Walk.Alongside ρ known w.store n.fixed w w :=
    ⟨⟨fun y hy => by rw [hfixes y hy], fun _ _ => rfl⟩, rfl, rfl, rfl⟩
  have halong : Script.Behaviour.Alongside ρ known w.store n.fixed n.fixed (Script.walkAll host (b.body v n).1)
      (Script.walkAll host (renameAll ρ (b.body v n).1)) :=
    Script.walkAll_alongside ρ.injective _ hmentions (body_free h)
  rw [← hsame] at halong
  exact (halong w w hstart).walk.store.beside x (hapart x hx hfixed)

/-! Operands under more names. -/

section

variable {ident ident' : Block → String}

theorem exprOf_congr (b : Block) (ops : Operands) (h : b.kind = "variables_get" → ident' b = ident b) :
    exprOf ident' b ops = exprOf ident b ops := by
  unfold exprOf
  split
  case h_5 hkind => rw [h hkind]
  all_goals rfl

mutual

theorem expr_congr : (b : Block) → (∀ c ∈ b.active, c.kind = "variables_get" → ident' c = ident c) →
    b.expr ident' = b.expr ident
  | ⟨id, kind, position, disabled, fields, ⟨values⟩, ⟨statements⟩, mutation⟩, h => by
    simp only [active, List.mem_cons, List.mem_append] at h
    have hops := operands_congr values fun c hc => h c (.inr (.inl hc))
    rw [expr, expr, hops]
    exact exprOf_congr _ _ (h _ (.inl rfl))

theorem operands_congr : (values : List (String × Socket Block)) →
    (∀ c ∈ socketsActive values, c.kind = "variables_get" → ident' c = ident c) →
    operands ident' values = operands ident values
  | [], _ => rfl
  | (name, ⟨some b, _⟩) :: rest, h | (name, ⟨none, some b⟩) :: rest, h => by
    simp only [socketsActive, List.mem_append] at h
    have hb := expr_congr b fun c hc => h c (.inl hc)
    have hrest := operands_congr rest fun c hc => h c (.inr hc)
    rw [operands, operands, hb, hrest]
  | (_, ⟨none, none⟩) :: rest, h => by
    rw [socketsActive] at h
    exact operands_congr rest h

end

end

theorem operands_adds (h : b.Served v n) (hadds : n.Adds n') :
    operands (fun c => n'.identOf (v c)) b.values.entries =
      operands (fun c => n.identOf (v c)) b.values.entries := by
  refine operands_congr _ fun c hc hkind => hadds.identOf (h.sockets c hc ?_)
  simp [Workspace.namesVariable, hkind]

end Block

/-- The blocks that a workspace generates can be coded under the names of its variables, whatever helpers there are
besides. -/
theorem Workspace.served {w : Workspace} {d : Block} (h : w.Generates d) {n : Names} (hadds : w.names.Adds n) :
    d.Served w.variableOf n := by
  obtain ⟨stack, hs, b, hb, -, l, hd⟩ := h
  have hstack : stack ∈ w.orderedStacks := by
    refine (List.mergeSort_perm _ _).mem_iff.2 (List.mem_filter.2 ⟨hs, ?_⟩)
    cases stack with
    | nil => cases hb
    | cons c rest => rfl
  have htaken : w.names.declared ⊆ w.names.taken := fun x hx =>
    ((Names.Orderly.ofVariables w.variableNames).taken x).2 hx
  have hserved : b.Served w.variableOf w.names := ⟨htaken, requests_active hstack hb⟩
  exact (hserved.inside hd).adds hadds

end ScopeBlocks
