import ScopeBlocks.Proofs.Script.SameRuns
import ScopeBlocks.Proofs.Workspace.RenamedScript
import ScopeBlocks.Proofs.Workspace.SharedNames

/-! Scripts of two workspaces that plan the same blocks, but have declared other variables besides. After the
declarations both do the same: the variables that are mentioned have the same values under their two names. -/
namespace ScopeBlocks

open Names (Grown Paired Unnamed)
open Script (mentionsAll renameAll)

/-! Blocks under their own names. -/

namespace Block

variable {f : String → String}

theorem renameFields_self (hf : ∀ x, f x = x) (kind : String) (fields : Dict Field) :
    renameFields f kind fields = fields := by
  unfold renameFields
  split
  · have hmap : (fields.entries.map fun e => (e.1, if e.1 = "VAR" then e.2.rename f else e.2)) =
        fields.entries := List.map_id'' (fun e => by
      have hfield : e.2.rename f = e.2 := by rw [Field.rename, hf]
      rw [hfield, ite_self]) _
    rw [hmap]
  · rfl

mutual

theorem rename_self (hf : ∀ x, f x = x) : (b : Block) → b.rename f = b
  | ⟨id, kind, position, disabled, fields, ⟨values⟩, ⟨statements⟩, mutation⟩ => by
    rw [rename, renameFields_self hf, renameSockets_self hf values, renameChains_self hf statements]

theorem renameSockets_self (hf : ∀ x, f x = x) : (values : List (String × Socket Block)) →
    renameSockets f values = values
  | [] => rfl
  | (name, ⟨some b, some c⟩) :: rest => by
    rw [renameSockets, renameOption, renameOption, rename_self hf b, rename_self hf c,
      renameSockets_self hf rest]
  | (name, ⟨some b, none⟩) :: rest | (name, ⟨none, some b⟩) :: rest => by
    rw [renameSockets, renameOption, renameOption, rename_self hf b, renameSockets_self hf rest]
  | (name, ⟨none, none⟩) :: rest => by
    rw [renameSockets, renameOption, renameSockets_self hf rest]

theorem renameChains_self (hf : ∀ x, f x = x) : (statements : List (String × List Block)) →
    renameChains f statements = statements
  | [] => rfl
  | (name, chain) :: rest => by
    rw [renameChains, renameChain_self hf chain, renameChains_self hf rest]

theorem renameChain_self (hf : ∀ x, f x = x) : (chain : List Block) → renameChain f chain = chain
  | [] => rfl
  | b :: rest => by rw [renameChain, rename_self hf b, renameChain_self hf rest]

end

end Block

theorem itemTree_twin_self {assigned ps : List (String × String)} {v : Block → String} (b : Block)
    (h : ∀ c ∈ b.active, Block.Known id assigned ps v v c) :
    Twin id assigned ps Block.Relabelled (b.itemTree v) (b.itemTree v) := by
  have htwin := Block.itemTree_twin b h
  rwa [Block.rename_self (f := id) fun _ => rfl] at htwin

/-! What such scripts mention. -/

/-- Statements that are others under every map of some identifiers mention nothing else. -/
theorem mentions_of_relabelled {rs : List (String × String)} {ss ss' : List Script.Statement}
    {ρ : String → String} (hρ : Names.Fits ρ rs) (h : ∀ ρ, Names.Fits ρ rs → Block.Relabelled ρ ss ss') :
    mentionsAll ss ⊆ rs.map Prod.fst := by
  -- a map that differs from the given one just where there is nothing to fit
  let ρ' (x : String) : String := if x ∈ rs.map Prod.fst then ρ x else ρ x ++ "_"
  have hρ' : Names.Fits ρ' rs := fun p hp => by
    rw [hρ p hp]
    exact (if_pos (List.mem_map_of_mem hp)).symm
  have hsame : (mentionsAll ss).map ρ = (mentionsAll ss).map ρ' := by
    rw [← Script.mentionsAll_rename, ← Script.mentionsAll_rename, ← h ρ hρ, h ρ' hρ']
  intro x hx
  by_contra hnew
  have hlonger : ρ x = ρ x ++ "_" := (List.map_inj_left.1 hsame x hx).trans (if_neg hnew)
  have hlength := congrArg String.length hlonger
  simp at hlength

/-! Declarations. -/

section Header

variable {σ : Type}

def declarations (idents : List String) : List Script.Statement :=
  idents.map fun ident => .bind (declaration ident (.literal .null))

/-- Variables that have just been declared. -/
def Script.Store.declare (store : Script.Store) (idents : List String) : Script.Store :=
  idents.foldl (fun store ident => store.define ident .null) store

theorem Script.Store.get?_declare (store : Script.Store) (idents : List String) (x : String) :
    (store.declare idents).get? x = if x ∈ idents then some .null else store.get? x := by
  induction idents generalizing store with
  | nil => rfl
  | cons ident idents ih =>
    rw [declare, List.foldl_cons]
    refine (ih _).trans ?_
    rw [define, Dict.get?_insert]
    by_cases hx : x ∈ idents
    · rw [if_pos hx, if_pos (List.mem_cons_of_mem _ hx)]
    · by_cases heq : x = ident <;> simp [hx, heq]

theorem walk_declarations (host : Script.Host σ) (idents : List String) (ss : List Script.Statement) (store : Script.Store) (world : Script.Watched σ)
    (answers : List Script.Value) (left : Nat) (pieces : List Script.Piece) : ∃ after,
      Script.walkAll host (declarations idents ++ ss) ⟨store, world, answers, idents.length + left, pieces⟩ =
        Script.walkAll host ss ⟨store.declare idents, world, answers, left, after⟩ := by
  induction idents generalizing store pieces with
  | nil => exact ⟨pieces, by rw [List.length_nil, Nat.zero_add]; rfl⟩
  | cons ident idents ih =>
    obtain ⟨after, hafter⟩ := ih (store.define ident .null)
      (pieces ++ [.statement (.bind (declaration ident (.literal .null)))])
    refine ⟨after, ?_⟩
    rw [List.length_cons, Nat.add_right_comm]
    exact hafter

theorem silent_declarations (host : Script.Host σ) (idents : List String) (ss : List Script.Statement)
    (store : Script.Store) (world : Script.Watched σ) (answers : List Script.Value) (pieces : List Script.Piece) {left : Nat} (h : left < idents.length) :
    let r := Script.walkAll host (declarations idents ++ ss) ⟨store, world, answers, left, pieces⟩
    r.1 = .cut ∧ r.2.world = world ∧ r.2.answers = answers := by
  induction idents generalizing store pieces left with
  | nil => exact absurd h (Nat.not_lt_zero _)
  | cons ident idents ih =>
    cases left with
    | zero => exact ⟨rfl, rfl, rfl⟩
    | succ left => exact ih _ _ (Nat.lt_of_succ_lt_succ h)

theorem headerTree_eq (names : Names) : headerTree names = declarations names.declared := rfl

theorem placed_declarations (idents : List String) (ss : List Script.Statement) :
    Script.placedAll false (declarations idents ++ ss) = Script.placedAll false ss := by
  induction idents with
  | nil => rfl
  | cons ident idents ih => exact ih

end Header

/-! Runs. -/

section

variable {n n' : Names} {words : List String} {m m' : Coding (List Script.Statement)}

/-- Two scripts whose statements are the same under two namings do the same, if what the one of them uses
without having declared it is called alike in both. -/
theorem sameRuns_of_twin (hn : n.Orderly) (hn' : n'.Orderly) (hwords : Unnamed words n)
    (hwords' : Unnamed words n') (hnodup : words.Nodup)
    (htwin : Twin id (n.shared n') (n.sharedPairs n' words) Block.Relabelled m m')
    (hfree : ∀ u ∈ Script.freeAll (headerTree n ++ (m n).1), (u.name, u.name) ∈ n.sharedPairs n' words) :
    let script := headerTree n ++ (m n).1
    let script' := headerTree n' ++ (m' n').1
    Script.placedAll false script' = Script.placedAll false script ∧
      (Script.placedAll false script = true → Script.SameRuns script script') := by
  intro script script'
  obtain ⟨rs, hgrown, hpaired, hall⟩ :=
    htwin n n' _ (hn.paired hn' hwords hwords' hnodup) fun _ hp => hp
  obtain ⟨ρ, hρ⟩ := hpaired.exists_perm
  have hmentions := mentions_of_relabelled hρ hall
  have hrest : (m' n').1 = renameAll ρ (m n).1 := hall ρ hρ
  have hsame : Script.placedAll false script' = Script.placedAll false script := by
    simp only [script, script', headerTree_eq, placed_declarations, hrest, Script.placedAll_rename]
  refine ⟨hsame, fun hplaced => ?_⟩
  have hstore : Script.Store.Alongside ρ (rs.map Prod.fst) (.declare .empty n'.declared) (rs.map Prod.fst)
      (.declare .empty n.declared) (.declare .empty n'.declared) := by
    refine ⟨fun x hx => ?_, fun _ _ => rfl⟩
    obtain ⟨p, hp, rfl⟩ := List.mem_map.1 hx
    rw [← hρ p hp, Script.Store.get?_declare, Script.Store.get?_declare]
    simp only [hn.declared_iff hn' hwords hwords' hgrown p hp]
    rfl
  refine Script.sameRuns_of_walks hplaced (fun u hu => (hρ _ (hgrown.subset (hfree u hu))).symm)
    (hsame.trans hplaced)
    (fun host s answers left hleft => silent_declarations host n.declared _ .empty _ answers [] hleft)
    (fun host s answers left hleft => silent_declarations host n'.declared _ .empty _ answers [] hleft)
    fun host s answers left => ?_
  obtain ⟨after, hafter⟩ := walk_declarations host n.declared (m n).1 .empty ⟨s, []⟩ answers left []
  obtain ⟨after', hafter'⟩ := walk_declarations host n'.declared (m' n').1 .empty ⟨s, []⟩ answers left []
  have halongside : Script.Behaviour.Alongside ρ (rs.map Prod.fst) (.declare .empty n'.declared) (rs.map Prod.fst)
      (rs.map Prod.fst) (Script.walkAll host (m n).1) (Script.walkAll host (renameAll ρ (m n).1)) :=
    Script.walkAll_alongside ρ.injective (m n).1 hmentions fun u hu => hmentions (Script.free_mentions _ u hu)
  have hends := halongside ⟨.declare .empty n.declared, ⟨s, []⟩, answers, left, after⟩
    ⟨.declare .empty n'.declared, ⟨s, []⟩, answers, left, after'⟩ ⟨hstore, rfl, rfl, rfl⟩
  rw [← hrest, ← hafter, ← hafter'] at hends
  exact ⟨hends.completion, hends.walk.world, hends.walk.answers⟩

end

end ScopeBlocks
