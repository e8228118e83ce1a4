import ScopeBlocks.Proofs.Workspace.DeclaredRuns
import ScopeBlocks.Proofs.Workspace.RenamedPlan
import ScopeBlocks.Proofs.Workspace.RenamedScript

/-! It cannot be seen what the variables of a workspace are called. Two of them may have names that become
one identifier, or a name may be a keyword, a primitive or that of the helper of a loop: the code of the
workspace does what it does under any other names. -/
namespace ScopeBlocks

open Script (Indistinguishable freeAll placedAll)

namespace Block

theorem mem_active_self (b : Block) : b ∈ b.active := by
  obtain ⟨id, kind, position, disabled, fields, ⟨values⟩, ⟨statements⟩, mutation⟩ := b
  rw [active]
  exact List.mem_cons_self

theorem chainActive_subset {b : Block} {name : String} {chain : List Block}
    (h : b.statements.get? name = some chain) : chainActive chain ⊆ b.active := by
  obtain ⟨id, kind, position, disabled, fields, ⟨values⟩, ⟨statements⟩, mutation⟩ := b
  change statements.lookup name = some chain at h
  have hchains : chainActive chain ⊆ chainsActive statements := by
    induction statements with
    | nil => cases h
    | cons e rest ih =>
      obtain ⟨key, other⟩ := e
      rw [List.lookup_cons] at h
      rw [chainsActive]
      cases hkey : name == key with
      | true =>
        rw [hkey] at h
        cases h
        exact List.subset_append_left _ _
      | false =>
        rw [hkey] at h
        exact List.subset_append_of_subset_right _ (ih h)
  rw [active]
  exact List.subset_cons_of_subset _ (List.subset_append_of_subset_right _ hchains)

theorem mem_active_of_inside {l : Bool} {b d : Block} (h : b.Inside l d) : d ∈ b.active := by
  induction h with
  | here => exact mem_active_self _
  | inChain _ hchain hc _ _ ih => exact chainActive_subset hchain (mem_chainActive hc ih)

end Block

namespace Workspace

variable {w : Workspace} {f : String → String}

/-- The script of a workspace whose numbers are finite uses nothing that it has not declared. -/
theorem closed_script (h : w.FiniteNumbers) (u : Script.Use) : u ∉ freeAll w.script := by
  intro hu
  obtain ⟨-, d, ⟨stack, hs, b, hb, -, l, hd⟩, x, hx, hinfinite, -⟩ := free_script hu
  have hfinite : x.isFinite = true :=
    Block.finite_chainActive stack (fun c hc => h c (List.mem_flatMap.2 ⟨stack, hs, hc⟩)) d
      (Block.mem_chainActive hb (Block.mem_active_of_inside hd)) x hx
  rw [hfinite] at hinfinite
  cases hinfinite

/-- Whether neither of two texts is a script, or both are and cannot be told from each other. -/
def SameCode (code code' : String) : Prop :=
  (∃ e e', Script.parse code = .error e ∧ Script.parse code' = .error e') ∨
    ∃ p p', Script.parse code = .ok p ∧ Script.parse code' = .ok p' ∧ Indistinguishable p p'

theorem parse_of_unplaced {c : Compiled} (h : w.compile = .ok c)
    (hplaced : placedAll false w.script = false) : ∃ e, Script.parse c.code = .error e := by
  cases hread : Script.parse c.code with
  | error e => exact ⟨e, rfl⟩
  | ok p =>
    have hp := ((parse_eq_ok_iff h).1 hread).1
    rw [hplaced] at hp
    cases hp

theorem sameCode_rename {g : String → String} (hg : Function.Injective g) (hempty : g "" = "")
    (hfinite : w.FiniteNumbers) {c c' : Compiled} (hc : w.compile = .ok c)
    (hc' : (w.rename g).compile = .ok c') : SameCode c.code c'.code := by
  obtain ⟨ρ, hscript⟩ := script_rename hg hempty hfinite
  have hplaced' : placedAll false (w.rename g).script = placedAll false w.script := by
    rw [hscript, Script.placedAll_rename]
  cases hplaced : placedAll false w.script with
  | false =>
    obtain ⟨e, he⟩ := parse_of_unplaced hc hplaced
    obtain ⟨e', he'⟩ := parse_of_unplaced hc' (hplaced'.trans hplaced)
    exact .inl ⟨e, e', he, he'⟩
  | true =>
    have hp := (parse_eq_ok_iff hc).2 ⟨hplaced, rfl⟩
    have hp' := (parse_eq_ok_iff hc').2 ⟨hplaced'.trans hplaced, hscript⟩
    exact .inr ⟨_, _, hp, hp', Script.indistinguishable_rename ρ.injective (closed_script hfinite)⟩

/-- However the variables of a workspace with finite numbers are called instead, it is refused for the same
reason, or its code marks the same blocks and does the same. -/
theorem rename_invisible (hf : w.Renaming f) (hfinite : w.FiniteNumbers) :
    Alike (fun c c' => c'.ids = c.ids ∧ SameCode c.code c'.code) w.compile (w.rename f).compile := by
  -- on texts that name no variable f may take two to one, so a permutation stands in for it
  obtain ⟨g, hempty, hsame⟩ := hf.exists_perm
  rw [hsame]
  exact compile_alike.imp fun c c' hc hc' hids =>
    ⟨hids, sameCode_rename g.injective hempty hfinite hc hc'⟩

/-- A loop with computed bounds, whose helpers are called after its variable. -/
def summation : Workspace :=
  let stop := Block.ofKind "stop" "math_arithmetic"
  let delta := { Block.ofKind "delta" "math_number" with fields := .singleton "NUM" ⟨"2", none⟩ }
  let change := { Block.ofKind "change" "math_change" with
    fields := .singleton "VAR" ⟨"total", none⟩, values := .singleton "DELTA" ⟨some delta, none⟩ }
  let loop := { Block.ofKind "loop" "controls_for" with
    fields := .singleton "VAR" ⟨"i", none⟩, values := .singleton "TO" ⟨some stop, none⟩
    statements := .singleton "DO" [change] }
  ⟨[⟨none, "total"⟩], [[loop]]⟩

/-- Its variables may as well be called like a keyword and like the first helper that belongs to that one. -/
theorem summation_renamed :
    let f (name : String) : String :=
      if name = "i" then "while" else if name = "total" then "while2_start" else name
    summation.Renaming f ∧ summation.FiniteNumbers ∧
      ∃ c c' p p', summation.compile = .ok c ∧ (summation.rename f).compile = .ok c' ∧ c'.ids = c.ids ∧
        Script.parse c.code = .ok p ∧ Script.parse c'.code = .ok p' ∧ Indistinguishable p p' := by
  intro f
  have hf : summation.Renaming f := ⟨by decide, by decide, by decide⟩
  have hfinite : summation.FiniteNumbers := by decide +kernel
  refine ⟨hf, hfinite, ?_⟩
  have hstacks : summation.orderedStacks = summation.stackList := orderedStacks_single _ _
  have hcompile : summation.compile.toOption.isSome = true := by
    rw [compile, plan, hstacks]
    rfl
  obtain ⟨c, hc, hp⟩ := exists_compiled hcompile (jumpsInLoops_single _ rfl)
  have hsame := rename_invisible hf hfinite
  rw [hc] at hsame
  generalize (summation.rename f).compile = renamed at hsame
  cases hsame with
  | @ok _ c' h =>
    obtain ⟨hids, ⟨e, -, he, -⟩ | ⟨p, p', hread, hread', hruns⟩⟩ := h
    · rw [hp] at he
      cases he
    · exact ⟨c, c', p, p', hc, rfl, hids, hread, hread', hruns⟩

end Workspace

end ScopeBlocks
