import ScopeBlocks.Proofs.Script.Indexed.Growth

/-! Filling the tables succeeds just where the check of a script does, and fails with its error. What has
been checked then stands in the tables, which stay sound. -/
namespace ScopeBlocks.Script.Indexed

/-- Where a check succeeds, so does the filling of the tables, which keeps them sound; where it fails, both
fail with one error. -/
def Built {α β : Type} (opened : Nat → Prop) (t : Tables) (x : Build α) (y : Except ParseError β)
    (R : Tables → α → β → Prop) : Prop :=
  match y with
  | .error e => x t = .error e
  | .ok b => ∃ a u, x t = .ok (a, u) ∧ Grows opened t u ∧ (t.Sound → u.Sound) ∧ R u a b

namespace Built

variable {α β γ δ : Type} {opened : Nat → Prop} {t : Tables} {x : Build α} {y : Except ParseError β}
  {R : Tables → α → β → Prop}

theorem bind {f : α → Build γ} {g : β → Except ParseError δ} {Q : Tables → γ → δ → Prop}
    (h : Built opened t x y R)
    (hf : ∀ a b u, y = .ok b → Grows opened t u → R u a b → Built opened u (f a) (g b) Q) :
    Built opened t (x >>= f) (y >>= g) Q := by
  cases y with
  | error e =>
    change x t = .error e at h
    change (x t >>= fun p => f p.1 p.2) = .error e
    rw [h]
    rfl
  | ok b =>
    obtain ⟨a, u, hx, hu, hsound, hR⟩ := h
    have hbind : (x >>= f) t = f a u := by
      change (x t >>= fun p => f p.1 p.2) = f a u
      rw [hx]
      rfl
    have hnext := hf a b u rfl hu hR
    change Built opened t (x >>= f) (g b) Q
    unfold Built at hnext ⊢
    rw [hbind]
    generalize g b = r at hnext ⊢
    cases r with
    | error e => exact hnext
    | ok d =>
      obtain ⟨c, v, hv, hgrows, hsound', hQ⟩ := hnext
      exact ⟨c, v, hv, hu.trans hgrows, hsound' ∘ hsound, hQ⟩

theorem pure {a : α} {b : β} (h : R t a b) : Built opened t (Pure.pure a) (.ok b) R :=
  ⟨a, t, rfl, .refl opened t, id, h⟩

theorem mono {Q : Tables → α → β → Prop} (h : Built (fun _ => False) t x y R)
    (hR : ∀ u a b, Extends t u → R u a b → Q u a b) : Built opened t x y Q := by
  cases y with
  | error e => exact h
  | ok b =>
    obtain ⟨a, u, hx, hu, hsound, ha⟩ := h
    exact ⟨a, u, hx, hu.of_extends opened, hsound, hR u a b hu ha⟩

theorem made {g : β → γ} (h : Built opened t x y R) :
    Built opened t x (y >>= fun b => Pure.pure (g b)) fun u a c => ∃ b, c = g b ∧ R u a b := by
  cases y with
  | error e => exact h
  | ok b =>
    obtain ⟨a, u, hx, hu, hsound, ha⟩ := h
    exact ⟨a, u, hx, hu, hsound, b, rfl, ha⟩

theorem check (r : Except ParseError α) : Built opened t (Build.check r) r fun _ a b => a = b := by
  cases r with
  | error e => rfl
  | ok a => exact ⟨a, t, rfl, .refl opened t, id, rfl⟩

end Built

/-! Adding a row. -/

section

variable {β : Type} {opened : Nat → Prop} {t : Tables} {b : β}

theorem built_addExpr {e : Expr} {R : Tables → Nat → β → Prop} (he : e.Sound t.exprs.length)
    (hR : ∀ u i, Extends t u → u.exprs[i]? = some e → R u i b) :
    Built opened t (Build.addExpr e) (.ok b) R := by
  have hgrows : Extends t { t with exprs := t.exprs ++ [e] } :=
    ⟨getElem?_concat_mono, id, Nat.le_refl _, fun _ h => h⟩
  refine ⟨t.exprs.length, _, rfl, hgrows.of_extends opened, fun h => ?_, hR _ _ hgrows (by simp)⟩
  refine ⟨h.root, h.block, fun hf => ?_, fun hs => hgrows.sound (h.statement hs)⟩
  rcases getElem?_concat_cases hf with hold | ⟨rfl, rfl⟩
  · exact h.expr hold
  · exact he

theorem built_addStatement {s : Statement} {R : Tables → Nat → β → Prop} (hs : s.Sound t)
    (hR : ∀ u i, Extends t u → u.statements[i]? = some s → R u i b) :
    Built opened t (Build.addStatement s) (.ok b) R := by
  have hgrows : Extends t { t with statements := t.statements ++ [s] } :=
    ⟨id, getElem?_concat_mono, Nat.le_refl _, fun _ h => h⟩
  refine ⟨t.statements.length, _, rfl, hgrows.of_extends opened, fun h => ?_,
    hR _ _ hgrows (by simp)⟩
  refine ⟨h.root, fun hids i hi => ?_, h.expr, fun hf => ?_⟩
  · exact Nat.lt_of_lt_of_le (h.block hids i hi) hgrows.statements
  · rcases getElem?_concat_cases hf with hold | ⟨rfl, rfl⟩
    · exact hgrows.sound (h.statement hold)
    · exact hgrows.sound hs

/-- A block is new, and while it is filled no other one changes. -/
theorem built_block {fill : Nat → Build Unit} {y : Except ParseError β}
    {R : Tables → Nat → β → Prop}
    (h : ∀ u, u.blocks[t.blocks.length]? = some [] → Built (· = t.blocks.length) u
      (fill t.blocks.length) y fun v _ b => R v t.blocks.length b) :
    Built opened t (Build.block fill) y R := by
  have hgrows : Extends t { t with blocks := t.blocks ++ [[]] } :=
    ⟨id, id, by simp, fun _ => getElem?_concat_mono⟩
  have hfill := h { t with blocks := t.blocks ++ [[]] } (by simp)
  have hblock : Build.block fill t =
      (fill t.blocks.length { t with blocks := t.blocks ++ [[]] }).map
        fun p => (t.blocks.length, p.2) := by
    change (fill _ _ >>= _) = _
    cases fill t.blocks.length { t with blocks := t.blocks ++ [[]] } <;> rfl
  unfold Built at hfill ⊢
  rw [hblock]
  cases y with
  | error e => 
    dsimp only at hfill ⊢
    rw [hfill]
    rfl
  | ok b =>
    obtain ⟨_, v, hv, hv', hsound, hR⟩ := hfill
    refine ⟨t.blocks.length, v, by rw [hv]; rfl, ?_, fun ht => hsound ?_, hR⟩
    · refine ⟨hv'.expr, hv'.statement, Nat.le_trans hgrows.blocks hv'.blocks, fun _ hids => ?_⟩
      exact hv'.block (Nat.ne_of_lt (lt_of_getElem? hids)) (hgrows.block id hids)
    · refine ⟨by simp, fun hids i hi => ?_, ht.expr, fun hs => hgrows.sound (ht.statement hs)⟩
      rcases getElem?_concat_cases hids with hold | ⟨-, rfl⟩
      · exact ht.block hold i hi
      · cases hi

theorem built_pushTo {k i : Nat} {ids : List Nat} {γ : Type} {f : Unit → Build γ}
    {y : Except ParseError β} {R : Tables → γ → β → Prop} (hk : t.blocks[k]? = some ids)
    (hi : i < t.statements.length) (h : ∀ u, Grows (· = k) t u → u.blocks[k]? = some (ids ++ [i]) →
      Built (· = k) u (f ()) y R) : Built (· = k) t (Build.pushTo k i >>= f) y R := by
  have hgrows : Grows (· = k) t { t with blocks := t.blocks.modify k (· ++ [i]) } := by
    refine ⟨id, id, by simp, fun hl hids => ?_⟩
    simp [hids, Ne.symm hl]
  have hnext := h _ hgrows (by simp [hk])
  have hpush : (Build.pushTo k i >>= f) t =
      f () { t with blocks := t.blocks.modify k (· ++ [i]) } := rfl
  unfold Built at hnext ⊢
  rw [hpush]
  cases y with
  | error e => exact hnext
  | ok b =>
    obtain ⟨a, v, hv, hv', hsound, hR⟩ := hnext
    refine ⟨a, v, hv, hgrows.trans hv', fun ht => hsound ?_, hR⟩
    refine ⟨by simpa using ht.root, @fun l js hjs j hj => ?_, ht.expr,
      fun hs => hgrows.sound (ht.statement hs)⟩
    by_cases hl : l = k
    · subst hl
      obtain rfl : js = ids ++ [i] := by simpa [hk, eq_comm] using hjs
      rcases List.mem_append.1 hj with hj | hj
      · exact ht.block hk j hj
      · exact List.mem_singleton.1 hj ▸ hi
    · simp only [List.getElem?_modify, Ne.symm hl, if_false, Option.map_eq_map, Option.map_id'] at hjs
      exact ht.block hjs j hj

end

/-! What is built. -/

theorem variable_free {source : List Char} {x : Surface.Located} {name : String}
    (h : x.variable source = .ok name) : Primitive.ofName? name = none := by
  unfold Surface.Located.variable at h
  split at h
  next => cases h
  next hfree =>
    cases h
    exact hfree

section

variable {source : List Char} {opened : Nat → Prop} {t : Tables}

mutual

theorem built_expr (t : Tables) : (e : Surface.Expr) →
    Built opened t (Build.expr source e) (e.check source) fun u i x => ExprAt u x i
  | .literal v => by
    rw [Build.expr, Surface.Expr.check]
    exact built_addExpr ⟨nofun, nofun⟩ fun u i _ h => h
  | .name x => by
    rw [Build.expr, Surface.Expr.check]
    refine (Built.check _).bind fun a b u hb _ hab => ?_
    subst hab
    refine built_addExpr ⟨nofun, fun y hy => ?_⟩ fun v i _ h => h
    cases hy
    exact variable_free hb
  | .call callee args => by
    rw [Build.expr, Surface.Expr.check]
    refine (Built.check _).bind fun p q u _ _ hpq => ?_
    subst hpq
    refine (built_exprs u args).bind fun js es v _ _ hargs => ?_
    exact built_addExpr ⟨hargs.lt, nofun⟩ fun w i hw h => ⟨js, h, hw.exprsAt es hargs⟩
  | .member object field => by
    rw [Build.expr, Surface.Expr.check]
    refine (built_expr t object).bind fun j e u _ _ he => ?_
    exact built_addExpr ⟨by simpa [Expr.parts] using he.lt, nofun⟩ fun v i hv h => ⟨j, h, hv.exprAt e he⟩
  | .unary op operand => by
    rw [Build.expr, Surface.Expr.check]
    refine (built_expr t operand).bind fun j e u _ _ he => ?_
    exact built_addExpr ⟨by simpa [Expr.parts] using he.lt, nofun⟩ fun v i hv h => ⟨j, h, hv.exprAt e he⟩
  | .binary op left right => by
    rw [Build.expr, Surface.Expr.check]
    refine (built_expr t left).bind fun j l u _ _ hl => ?_
    refine (built_expr u right).bind fun k r v _ hv hr => ?_
    have hl := hv.exprAt l hl
    refine built_addExpr ⟨by simpa [Expr.parts] using ⟨hl.lt, hr.lt⟩, nofun⟩ fun w i hw h => ?_
    exact ⟨j, k, h, hw.exprAt l hl, hw.exprAt r hr⟩

theorem built_exprs (t : Tables) : (es : List Surface.Expr) →
    Built opened t (Build.exprs source es) (Surface.Expr.checkArgs source es)
      fun u js xs => ExprsAt u xs js
  | [] => by
    rw [Build.exprs, Surface.Expr.checkArgs]
    exact .pure rfl
  | e :: rest => by
    rw [Build.exprs, Surface.Expr.checkArgs]
    refine (built_expr t e).bind fun j x u _ _ hx => ?_
    refine (built_exprs u rest).bind fun js xs v _ hv hxs => ?_
    exact .pure ⟨j, js, rfl, hv.exprAt x hx, hxs⟩

end

theorem built_part {α β : Type} {build : α → Build Nat} {check : α → Except ParseError β}
    {At : Tables → β → Nat → Prop}
    (h : ∀ a, Built opened t (build a) (check a) fun u i b => At u b i) {o : Option α}
    {y : Except ParseError (Option β)} (hnone : o = none → y = .ok none)
    (hsome : ∀ a, o = some a → y = check a >>= fun b => pure (some b)) :
    Built opened t (Build.part build o) y fun u i b => PartAt (At u) b i := by
  cases o with
  | none =>
    rw [hnone rfl]
    exact .pure rfl
  | some a =>
    rw [hsome a rfl]
    exact (h a).bind fun i b u _ _ hb => .pure ⟨i, rfl, hb⟩

theorem built_exprPart (t : Tables) (o : Option Surface.Expr) :
    Built opened t (Build.part (Build.expr source) o) (Surface.Expr.check? source o)
      fun u i b => PartAt (ExprAt u) b i :=
  built_part (built_expr t) (by rintro rfl; rfl) (by rintro a rfl; rfl)

theorem built_assignment (t : Tables) (a : Surface.Assignment) :
    Built opened t (Build.assignment source a) (a.check source) fun u i b => AssignmentAt u b i := by
  refine (Built.check _).bind fun x y u hy _ hxy => ?_
  subst hxy
  refine (built_expr u a.value).bind fun j e v _ _ he => ?_
  have hsound : Statement.Sound v (.assign x a.op j) :=
    ⟨by simpa [Statement.exprs] using he.lt, nofun, nofun, nofun, by
      rintro _ ⟨⟩
      exact variable_free hy⟩
  exact built_addStatement hsound fun w i hw h => ⟨j, h, hw.exprAt e he⟩

theorem PartAt.lt {o : Option Script.Expr} {i : Option Nat} (h : PartAt (ExprAt t) o i) :
    ∀ j ∈ i, j < t.exprs.length := by
  cases o with
  | none =>
    cases h
    nofun
  | some e =>
    obtain ⟨j, rfl, he⟩ := h
    rintro _ ⟨⟩
    exact he.lt

theorem built_binding (t : Tables) (b : Surface.Binding) :
    Built opened t (Build.binding source b) (b.check source) fun u i x => BindingAt u x i := by
  cases b with
  | declare target init =>
    refine (Built.check _).bind fun x y u hy _ hxy => ?_
    subst hxy
    refine (built_exprPart u init).bind fun j o v _ _ ho => ?_
    have hsound : Statement.Sound v (.declare x j) :=
      ⟨by simpa [Statement.exprs] using ho.lt, nofun, nofun, nofun, by
        rintro _ ⟨⟩
        exact variable_free hy⟩
    exact built_addStatement hsound fun w i hw h => ⟨j, h, Grows.part (fun e _ => hw.exprAt e) ho⟩
  | assign a =>
    exact (built_assignment t a).made.mono fun u i x _ ⟨b, hx, hb⟩ => hx ▸ hb

theorem BindingAt.clause {b : Script.Binding} {i : Nat} (h : BindingAt t b i) :
    ∃ c, t.statements[i]? = some c ∧ c.name?.isSome = true := by
  cases b with
  | declare | assign =>
    obtain ⟨j, hs, -⟩ := h
    exact ⟨_, hs, rfl⟩

theorem PartAt.clauses {α : Type} {At : α → Nat → Prop}
    (h : ∀ a i, At a i → ∃ c, t.statements[i]? = some c ∧ c.name?.isSome = true) {o : Option α}
    {i : Option Nat} (ho : PartAt At o i) :
    ∀ j ∈ i, ∃ c, t.statements[j]? = some c ∧ c.name?.isSome = true := by
  cases o with
  | none =>
    cases ho
    nofun
  | some a =>
    obtain ⟨j, rfl, ha⟩ := ho
    rintro _ ⟨⟩
    exact h a j ha

theorem StatementAt.lt {s : Script.Statement} {low i : Nat} (h : StatementAt t low s i) :
    i < t.statements.length := by
  cases s with
  | bind b =>
    obtain ⟨c, hc, -⟩ := BindingAt.clause h
    exact lt_of_getElem? hc
  | eval =>
    obtain ⟨_, h, -⟩ := h
    exact lt_of_getElem? h
  | branch =>
    obtain ⟨_, _, h, -⟩ := h
    exact lt_of_getElem? h
  | whileLoop =>
    obtain ⟨_, _, _, h, -⟩ := h
    exact lt_of_getElem? h
  | forLoop =>
    obtain ⟨_, _, _, _, _, h, -⟩ := h
    exact lt_of_getElem? h
  | exitLoop | nextRound => exact lt_of_getElem? h

/-! Where blocks of a statement's own stand from an index on, they do so from any lower one. -/

theorem BranchesAt.weaken {bs : List (Script.Expr × List Script.Statement)} {low low' : Nat}
    {ks : List (Nat × Nat)} (h : BranchesAt t low bs ks) (hl : low' ≤ low) :
    BranchesAt t low' bs ks := by
  induction bs generalizing ks with
  | nil => exact h
  | cons b rest ih =>
    obtain ⟨j, k, ids, cs, hks, hc, hk, hids, hbody, hrest⟩ := h
    exact ⟨j, k, ids, cs, hks, hc, Nat.le_trans hl hk, hids, hbody, ih hrest⟩

theorem LastAt.weaken {o : Option (List Script.Statement)} {low low' : Nat} {k : Option Nat}
    (h : LastAt t low o k) (hl : low' ≤ low) : LastAt t low' o k := by
  cases o with
  | none => exact h
  | some body =>
    obtain ⟨k, ids, hk, hlow, hrest⟩ := h
    exact ⟨k, ids, hk, Nat.le_trans hl hlow, hrest⟩

theorem StatementAt.weaken {s : Script.Statement} {low low' i : Nat} (h : StatementAt t low s i)
    (hl : low' ≤ low) : StatementAt t low' s i := by
  cases s with
  | bind | eval | exitLoop | nextRound => exact h
  | branch branches otherwise =>
    obtain ⟨bs, o, hs, hbs, ho⟩ := h
    exact ⟨bs, o, hs, hbs.weaken hl, ho.weaken hl⟩
  | whileLoop cond body =>
    obtain ⟨j, k, ids, hs, hc, hk, hrest⟩ := h
    exact ⟨j, k, ids, hs, hc, Nat.le_trans hl hk, hrest⟩
  | forLoop init cond update body =>
    obtain ⟨n, c, v, k, ids, hs, hn, hc, hv, hk, hrest⟩ := h
    exact ⟨n, c, v, k, ids, hs, hn, hc, hv, Nat.le_trans hl hk, hrest⟩

theorem BranchesAt.conds {bs : List (Script.Expr × List Script.Statement)} {low : Nat}
    {ks : List (Nat × Nat)} (h : BranchesAt t low bs ks) :
    (∀ j ∈ ks.map Prod.fst, j < t.exprs.length) ∧ ∀ k ∈ ks.map Prod.snd, k < t.blocks.length := by
  induction bs generalizing ks with
  | nil =>
    cases h
    simp
  | cons b rest ih =>
    obtain ⟨j, k, ids, cs, rfl, hc, -, hids, -, hrest⟩ := h
    obtain ⟨hconds, hblocks⟩ := ih hrest
    exact ⟨List.forall_mem_cons.2 ⟨hc.lt, hconds⟩,
      List.forall_mem_cons.2 ⟨lt_of_getElem? hids, hblocks⟩⟩

theorem LastAt.lt {o : Option (List Script.Statement)} {low : Nat} {k : Option Nat}
    (h : LastAt t low o k) : ∀ l ∈ k, l < t.blocks.length := by
  cases o with
  | none =>
    cases h
    nofun
  | some body =>
    obtain ⟨l, ids, rfl, -, hids, -⟩ := h
    rintro _ ⟨⟩
    exact lt_of_getElem? hids

def OwnBlockAt (t : Tables) (low : Nat) (ss : List Script.Statement) (k : Nat) : Prop :=
  low ≤ k ∧ BlockAt t ss k

theorem built_ownBlock {fill : Nat → Build Unit} {y : Except ParseError (List Script.Statement)}
    (h : ∀ u k ids, u.blocks[k]? = some ids → Built (· = k) u (fill k) y fun v _ xs =>
      ∃ js, v.blocks[k]? = some (ids ++ js) ∧ StatementsAt v (k + 1) xs js) :
    Built opened t (Build.block fill) y fun u k xs => OwnBlockAt u t.blocks.length xs k := by
  refine built_block (R := fun u k xs => OwnBlockAt u t.blocks.length xs k) fun u hu => ?_
  have hfill := h u _ _ hu
  unfold Built at hfill ⊢
  cases y with
  | error e => exact hfill
  | ok xs =>
    obtain ⟨_, v, hv, hgrows, hsound, hxs⟩ := hfill
    exact ⟨_, v, hv, hgrows, hsound, Nat.le_refl _, hxs⟩

/-! Rows whose parts stand in the tables are sound. -/

section

variable {v : Tables} {k : Nat} {ids : List Nat}

theorem sound_branch {low low' : Nat} {branches : List (Script.Expr × List Script.Statement)}
    {otherwise : Option (List Script.Statement)} {bs : List (Nat × Nat)} {o : Option Nat}
    (hbs : BranchesAt v low branches bs) (ho : LastAt v low' otherwise o) :
    Statement.Sound v (.branch bs o) :=
  ⟨hbs.conds.1, fun k hk => (List.mem_append.1 hk).elim (hbs.conds.2 k)
    fun hk => ho.lt k (Option.mem_toList.1 hk), nofun, nofun, nofun⟩

theorem sound_whileLoop {cond : Script.Expr} {j : Nat} (hc : ExprAt v cond j)
    (hids : v.blocks[k]? = some ids) : Statement.Sound v (.whileLoop j k) := by
  refine ⟨by simpa [Statement.exprs] using hc.lt, nofun, ?_, nofun, nofun⟩
  rintro _ ⟨⟩
  exact lt_of_getElem? hids

theorem sound_forLoop {init : Option Script.Binding} {cond : Option Script.Expr}
    {update : Option Script.Assignment} {n c u : Option Nat} (hinit : PartAt (BindingAt v) init n)
    (hcond : PartAt (ExprAt v) cond c) (hupdate : PartAt (AssignmentAt v) update u)
    (hids : v.blocks[k]? = some ids) : Statement.Sound v (.forLoop n c u k) := by
  refine ⟨fun j hj => hcond.lt j (Option.mem_toList.1 hj), nofun, ?_, fun j hj => ?_, nofun⟩
  · rintro _ ⟨⟩
    exact lt_of_getElem? hids
  · rcases List.mem_append.1 hj with hj | hj
    · exact hinit.clauses (fun _ _ => BindingAt.clause) j (Option.mem_toList.1 hj)
    · exact hupdate.clauses (fun a _ => BindingAt.clause (b := .assign a)) j (Option.mem_toList.1 hj)

end

mutual

theorem built_statement (t : Tables) (inLoop : Bool) : (s : Surface.Statement) →
    Built (fun _ => False) t (Build.statement source inLoop s) (s.check source inLoop)
      fun u i x => StatementAt u t.blocks.length x i
  | .bind b => by
    rw [Build.statement, Surface.Statement.check]
    exact (built_binding t b).made.mono fun u i x _ ⟨b, hx, hb⟩ => hx ▸ hb
  | .eval e => by
    rw [Build.statement, Surface.Statement.check]
    refine (built_expr t e).bind fun j x u _ _ hx => ?_
    refine built_addStatement ⟨by simpa [Statement.exprs] using hx.lt, nofun, nofun, nofun, nofun⟩ ?_
    exact fun v i hv h => ⟨j, h, hv.exprAt x hx⟩
  | .branch branches otherwise => by
    rw [Build.statement, Surface.Statement.check]
    refine (built_branches t inLoop branches).bind fun bs xs u _ hu hbs => ?_
    refine (built_last u inLoop otherwise).bind fun o y v _ hv ho => ?_
    have hbs := hv.branchesAt xs (fun _ _ => id) hbs
    refine built_addStatement (sound_branch hbs ho) fun w i hw h => ?_
    exact ⟨bs, o, h, hw.branchesAt xs (fun _ _ => id) hbs,
      (hw.lastAt y (fun _ _ => id) ho).weaken hu.blocks⟩
  | .whileLoop cond body => by
    rw [Build.statement, Surface.Statement.check]
    refine (built_expr t cond).bind fun j c u _ hu hc => ?_
    refine (built_ownBlock (built_fill true body)).bind fun k xs v _ hv ⟨hlow, ids, hids, hxs⟩ => ?_
    have hc := hv.exprAt c hc
    refine built_addStatement (sound_whileLoop hc hids) fun w i hw h => ?_
    exact ⟨j, k, ids, h, hw.exprAt c hc, Nat.le_trans hu.blocks hlow, hw.block id hids,
      hw.statementsAt xs (fun _ _ => id) hxs⟩
  | .forLoop init cond update body => by
    rw [Build.statement, Surface.Statement.check]
    have hinit : Built (fun _ => False) t (Build.part (Build.binding source) init)
        (Surface.Binding.check? source init) fun u i b => PartAt (BindingAt u) b i :=
      built_part (built_binding t) (by rintro rfl; rfl) (by rintro a rfl; rfl)
    refine hinit.bind fun n b u _ hu hb => ?_
    refine (built_exprPart u cond).bind fun c e v _ hv he => ?_
    have hupdate : Built (fun _ => False) v (Build.part (Build.assignment source) update)
        (Surface.Assignment.check? source update) fun u i a => PartAt (AssignmentAt u) a i :=
      built_part (built_assignment v) (by rintro rfl; rfl) (by rintro a rfl; rfl)
    refine hupdate.bind fun m a w _ hw ha => ?_
    refine (built_ownBlock (built_fill true body)).bind fun k xs z _ hz ⟨hlow, ids, hids, hxs⟩ => ?_
    have hb := Grows.part (fun _ _ => (hv.trans (hw.trans hz)).bindingAt) hb
    have he := Grows.part (fun e _ => (hw.trans hz).exprAt e) he
    have ha := Grows.part (fun _ _ => hz.assignmentAt) ha
    refine built_addStatement (sound_forLoop hb he ha hids) fun q i hq h => ?_
    exact ⟨n, c, m, k, ids, h, Grows.part (fun _ _ => hq.bindingAt) hb,
      Grows.part (fun e _ => hq.exprAt e) he, Grows.part (fun _ _ => hq.assignmentAt) ha,
      Nat.le_trans (hu.trans (hv.trans hw)).blocks hlow, hq.block id hids,
      hq.statementsAt xs (fun _ _ => id) hxs⟩
  | .jump j place => by
    rw [Build.statement, Surface.Statement.check]
    cases inLoop with
    | false => rfl
    | true => cases j <;> exact built_addStatement ⟨nofun, nofun, nofun, nofun, nofun⟩ fun u i _ h => h

theorem built_fill (inLoop : Bool) : (ss : List Surface.Statement) → (t : Tables) → (k : Nat) →
    (ids : List Nat) → t.blocks[k]? = some ids →
    Built (· = k) t (Build.fill source inLoop k ss) (Surface.Statement.checkAll source inLoop ss)
      fun u _ xs => ∃ js, u.blocks[k]? = some (ids ++ js) ∧ StatementsAt u (k + 1) xs js
  | [], t, k, ids, hk => by
    rw [Build.fill, Surface.Statement.checkAll]
    exact .pure ⟨[], by simpa using hk, rfl⟩
  | s :: rest, t, k, ids, hk => by
    rw [Build.fill, Surface.Statement.checkAll]
    have hs : Built (· = k) t (Build.statement source inLoop s) (s.check source inLoop)
        fun u i x => u.blocks[k]? = some ids ∧ StatementAt u t.blocks.length x i :=
      (built_statement t inLoop s).mono fun u i x hu hx => ⟨hu.block id hk, hx⟩
    refine hs.bind fun i x u _ _ ⟨hk', hx⟩ => ?_
    have hx := hx.weaken (lt_of_getElem? hk)
    refine built_pushTo hk' hx.lt fun v hv hvk => ?_
    have hx := hv.statementAt x (fun l hl => by omega) hx
    have hrest := (built_fill inLoop rest v k _ hvk).bind (Q := fun u _ ys =>
        ∃ js, u.blocks[k]? = some (ids ++ js) ∧ StatementsAt u (k + 1) ys js)
      (f := pure) (g := fun xs => pure (x :: xs)) fun _ xs w _ hw ⟨js, hids, hxs⟩ =>
        .pure ⟨i :: js, by simpa using hids, i, js, rfl, hw.statementAt x (fun l hl => by omega) hx, hxs⟩
    simpa using hrest

theorem built_branches (t : Tables) (inLoop : Bool) :
    (branches : List (Surface.Expr × List Surface.Statement)) →
    Built (fun _ => False) t (Build.branches source inLoop branches)
      (Surface.Statement.checkBranches source inLoop branches)
        fun u bs xs => BranchesAt u t.blocks.length xs bs
  | [] => by
    rw [Build.branches, Surface.Statement.checkBranches]
    exact .pure rfl
  | (cond, body) :: rest => by
    rw [Build.branches, Surface.Statement.checkBranches]
    refine (built_expr t cond).bind fun j c u _ hu hc => ?_
    refine (built_ownBlock (built_fill inLoop body)).bind fun k xs v _ hv ⟨hlow, ids, hids, hxs⟩ => ?_
    refine (built_branches v inLoop rest).bind fun bs ys w _ hw hys => ?_
    exact .pure ⟨j, k, ids, bs, rfl, (hv.trans hw).exprAt c hc, Nat.le_trans hu.blocks hlow,
      hw.block id hids, hw.statementsAt xs (fun _ _ => id) hxs, hys.weaken (hu.trans hv).blocks⟩

theorem built_last (t : Tables) (inLoop : Bool) : (otherwise : Option (List Surface.Statement)) →
    Built (fun _ => False) t (Build.last source inLoop otherwise)
      (Surface.Statement.checkOtherwise source inLoop otherwise)
        fun u o x => LastAt u t.blocks.length x o
  | none => by
    rw [Build.last, Surface.Statement.checkOtherwise]
    exact .pure rfl
  | some body => by
    rw [Build.last, Surface.Statement.checkOtherwise]
    refine (built_ownBlock (built_fill inLoop body)).bind fun k xs v _ hv ⟨hlow, ids, hids, hxs⟩ => ?_
    exact .pure ⟨k, ids, rfl, hlow, hids, hxs⟩

end

end

end ScopeBlocks.Script.Indexed
