import ScopeBlocks.Proofs.Workspace.Cleared
import ScopeBlocks.Proofs.Workspace.RenamedRuns
import ScopeBlocks.Proofs.Workspace.TwinRuns

/-! Disabled blocks and runs. However many disabled statements are left out of a workspace, its code marks the
same blocks and does the same. That a block in a socket is disabled makes no difference: it supplies its value,
and does so if it is enabled. -/
namespace ScopeBlocks

open Names (Unnamed numberWords)
open Script (SameRuns freeAll placedAll)

namespace Workspace

variable {w w' : Workspace}

theorem active_running {b c : Block} (hb : b ∈ w.running) (hc : c ∈ b.active) :
    ∃ stack ∈ w.orderedStacks, ∃ d ∈ Block.chainActive stack, d.enabled = c := by
  obtain ⟨stack, hs, hb⟩ := List.mem_flatMap.1 hb
  exact ⟨stack, hs, List.mem_map.1 (Block.chainActive_enabled stack (Block.mem_chainActive hb hc))⟩

theorem requests_running {b : Block} (hb : b ∈ w.running) :
    Block.Requests w.variableOf w.names.assigned b.active := by
  intro c hc hnames
  obtain ⟨stack, hs, d, hd, rfl⟩ := active_running hb hc
  rw [variableOf_enabled]
  refine Names.mem_assigned_ofVariables (List.mem_append_left _ (List.mem_map.2 ⟨d, ?_, rfl⟩))
  refine List.mem_filter.2 ⟨List.mem_flatMap.2 ⟨stack, hs, hd⟩, ?_⟩
  rwa [namesVariable, Block.enabled_kind] at hnames

theorem finite_running (hfinite : w.FiniteNumbers) {b c : Block} (hb : b ∈ w.running) (hc : c ∈ b.active)
    {x : Number} (hx : c.Splices x) : x.isFinite = true := by
  obtain ⟨stack, hs, d, hd, rfl⟩ := active_running hb hc
  simp only [Block.Splices, Block.enabled_kind, Block.knownBound?_enabled] at hx
  refine Block.finite_chainActive stack (fun e he => ?_) d hd x hx
  exact hfinite e (List.mem_flatMap.2 ⟨stack, mem_stackList hs, he⟩)

/-- Whether two workspaces have the same words for numbers among their variables, if either of them may write
down such a number as a bound. -/
def SameWords (w w' : Workspace) : Prop :=
  w.FiniteNumbers ∨ ∀ word ∈ numberWords, word ∈ w.variableNames ↔ word ∈ w'.variableNames

instance (w w' : Workspace) : Decidable (SameWords w w') :=
  inferInstanceAs (Decidable (w.FiniteNumbers ∨ ∀ word ∈ numberWords, _))

theorem orderly_names (w : Workspace) : w.names.Orderly := .ofVariables _

theorem mem_assigned_names {x : String} : x ∈ w.names.assigned.map Prod.fst ↔ x ∈ w.variableNames :=
  Names.mem_assigned_ofVariables_iff

/-- Words that are the same in two workspaces, if they stand for anything in them. -/
theorem exists_words (h : SameWords w w') : ∃ words : List String, words.Nodup ∧
    Unnamed words w.names ∧ Unnamed words w'.names ∧ (w.FiniteNumbers ∨
      ∀ word ∈ numberWords, (word, word) ∈ w.names.sharedPairs w'.names words) := by
  have hnone (n : Names) : Unnamed [] n := ⟨List.nil_subset _, fun _ h => absurd h List.not_mem_nil⟩
  rcases h with hfinite | hsame
  · exact ⟨[], .nil, hnone _, hnone _, .inl hfinite⟩
  · have hnodup : numberWords.Nodup := by decide
    refine ⟨numberWords.filter (· ∉ w.variableNames), hnodup.filter _,
      ⟨List.filter_subset_self _, fun word hword => ?_⟩, ⟨List.filter_subset_self _, fun word hword => ?_⟩,
      .inr fun word hword => ?_⟩
    · rw [mem_assigned_names]
      simpa using (List.mem_filter.1 hword).2
    · obtain ⟨hword, hnone⟩ := List.mem_filter.1 hword
      rw [mem_assigned_names, ← hsame word hword]
      simpa using hnone
    · refine w.orderly_names.word_mem_sharedPairs w'.orderly_names hword ?_ fun hnone => ?_
      · rw [mem_assigned_names, mem_assigned_names, hsame word hword]
      · rw [mem_assigned_names] at hnone
        exact List.mem_filter.2 ⟨hword, by simpa using hnone⟩

/-- Whether neither of two texts is a script, or both are and do the same. -/
def SameEffects (code code' : String) : Prop :=
  (∃ e e', Script.parse code = .error e ∧ Script.parse code' = .error e') ∨
    ∃ p p', Script.parse code = .ok p ∧ Script.parse code' = .ok p' ∧ SameRuns p p'

section

variable (hrunning : w'.running = w.running) (hvars : w'.vars = w.vars)

include hrunning hvars

theorem flatten_plan_eq : List.flatten <$> w'.plan = List.flatten <$> w.plan := by
  rw [plan_running, plan_running, hrunning, variableOf_eq hvars]

/-- The scripts of two workspaces in which the same blocks run. -/
theorem script_eq_of_running {c c' : Compiled} (hc : w.compile = .ok c) (hc' : w'.compile = .ok c') :
    ∃ m : Coding (List Script.Statement), w.script = headerTree w.names ++ (m w.names).1 ∧
      w'.script = headerTree w'.names ++ (m w'.names).1 ∧ ∀ words,
        (w.FiniteNumbers ∨ ∀ word ∈ numberWords, (word, word) ∈ w.names.sharedPairs w'.names words) →
          Twin id (w.names.shared w'.names) (w.names.sharedPairs w'.names words) Block.Relabelled m m := by
  obtain ⟨plans, hplan, -⟩ := compile_eq_ok hc
  obtain ⟨plans', hplan', -⟩ := compile_eq_ok hc'
  refine ⟨List.flatten <$> w.running.mapM (Block.itemTree w.variableOf), script_running hplan, ?_,
    fun words hwords => ?_⟩
  · rw [script_running hplan', hrunning, variableOf_eq hvars]
    rfl
  · rw [map_eq_pure_bind]
    refine (Twin.mapM_same fun b hb => itemTree_twin_self b fun c hc => ?_).bind
      fun qs parts parts' _ hparts => .pure fun ρ hρ => relabelled_flatten (hparts ρ hρ)
    refine ⟨fun hnames => Names.mem_shared.2 ⟨requests_running hb c hc hnames, ?_⟩, fun _ => ?_,
      fun x hx => hwords.imp_left fun hfinite => finite_running hfinite hb hc hx⟩
    · have hnames' := requests_running (w := w') (hrunning ▸ hb) c hc hnames
      rwa [variableOf_eq hvars] at hnames'
    · rw [Block.rename_self (f := id) fun _ => rfl, id]

theorem sameEffects_of_running (hwords : SameWords w w') {c c' : Compiled} (hc : w.compile = .ok c)
    (hc' : w'.compile = .ok c') : SameEffects c.code c'.code := by
  obtain ⟨m, hscript, hscript', htwin⟩ := script_eq_of_running hrunning hvars hc hc'
  obtain ⟨words, hnodup, hunnamed, hunnamed', hspliced⟩ := exists_words hwords
  have hfree : ∀ u ∈ freeAll w.script, (u.name, u.name) ∈ w.names.sharedPairs w'.names words := by
    intro u hu
    rcases hspliced with hfinite | hpairs
    · exact absurd hu (closed_script hfinite u)
    · obtain ⟨-, -, -, x, -, hx, rfl⟩ := free_script hu
      exact hpairs _ (Number.text_mem_numberWords hx)
  rw [hscript] at hfree
  obtain ⟨hsame, hruns⟩ := sameRuns_of_twin w.orderly_names w'.orderly_names hunnamed hunnamed' hnodup
    (htwin words hspliced) hfree
  rw [← hscript, ← hscript'] at hsame hruns
  cases hplaced : placedAll false w.script with
  | false =>
    obtain ⟨e, he⟩ := parse_of_unplaced hc hplaced
    obtain ⟨e', he'⟩ := parse_of_unplaced hc' (hsame.trans hplaced)
    exact .inl ⟨e, e', he, he'⟩
  | true =>
    have hp := (parse_eq_ok_iff hc).2 ⟨hplaced, rfl⟩
    have hp' := (parse_eq_ok_iff hc').2 ⟨hsame.trans hplaced, rfl⟩
    exact .inr ⟨_, _, hp, hp', hruns hplaced⟩

theorem compile_alike_of_running : Alike (fun c c' => c'.ids = c.ids) w.compile w'.compile := by
  have hplan := flatten_plan_eq hrunning hvars
  have hids (plans : List (List Item)) :
      plans.flatMap (·.flatMap Item.ids) = plans.flatten.flatMap Item.ids := by
    rw [List.flatten_eq_flatMap, List.flatMap_assoc]
    rfl
  unfold compile
  cases hp : w.plan with
  | error e =>
    rw [hp] at hplan
    cases hp' : w'.plan with
    | error e' =>
      rw [hp'] at hplan
      cases hplan
      exact .error e
    | ok plans' =>
      rw [hp'] at hplan
      cases hplan
  | ok plans =>
    rw [hp] at hplan
    cases hp' : w'.plan with
    | error e' =>
      rw [hp'] at hplan
      cases hplan
    | ok plans' =>
      rw [hp'] at hplan
      refine .ok ?_
      rw [hids, hids]
      exact congrArg (List.flatMap Item.ids) (Except.ok.inj hplan)

end

/-- However many disabled blocks are cleared from a workspace, it is refused for the same reason, or its code
marks the same blocks and does the same. A disabled statement is left out; a disabled block in a socket is
enabled, for that is how it is taken. -/
theorem cleared_invisible (h : Relation.ReflTransGen Clears w w') (hwords : SameWords w w') :
    Alike (fun c c' => c'.ids = c.ids ∧ SameEffects c.code c'.code) w.compile w'.compile := by
  obtain ⟨hrunning, hvars⟩ := plan_cleared h
  exact (compile_alike_of_running hrunning hvars).imp fun c c' hc hc' hids =>
    ⟨hids, sameEffects_of_running hrunning hvars hwords hc hc'⟩

def textBlock (disabled : Bool) : Block :=
  { Block.ofKind "text" "text" with disabled, fields := .singleton "TEXT" ⟨"on", none⟩ }

def printBlock (text : Option Block) : Block :=
  { Block.ofKind "print" "text_print" with values := .singleton "TEXT" ⟨text, none⟩ }

def twice (body : List Block) : Block :=
  { Block.ofKind "loop" "controls_repeat" with
    fields := .singleton "TIMES" ⟨"2", none⟩, statements := .singleton "DO" body }

/-- A loop with a disabled statement, which alone names a variable, and a disabled text. -/
def switchedOff : Workspace :=
  let change := { Block.ofKind "change" "math_change" with
    disabled := true, fields := .singleton "VAR" ⟨"total", none⟩ }
  ⟨[], [[twice [change, printBlock (some (textBlock true))]]]⟩

/-- The loop without the statement, and with the text enabled. -/
def clearedOff : Workspace := ⟨[], [[twice [printBlock (some (textBlock false))]]]⟩

theorem switchedOff_cleared :
    Relation.ReflTransGen Clears switchedOff clearedOff ∧ SameWords switchedOff clearedOff ∧
      ∃ c c' p p', switchedOff.compile = .ok c ∧ clearedOff.compile = .ok c' ∧ c'.ids = c.ids ∧
        Script.parse c.code = .ok p ∧ Script.parse c'.code = .ok p' ∧ SameRuns p p' := by
  have hstatement : Clears switchedOff ⟨[], [[twice [printBlock (some (textBlock true))]]]⟩ :=
    @Clears.inStatement [] [] [] _ _ [] [] (@Block.Clears.statement _ _ "DO" [] _ [] [] rfl rfl)
  have hvalue : Block.Clears (printBlock (some (textBlock true))) (printBlock (some (textBlock false))) :=
    @Block.Clears.value _ (textBlock true) "TEXT" (.plugged none) [] [] rfl rfl
  have htext : Clears ⟨[], [[twice [printBlock (some (textBlock true))]]]⟩ clearedOff :=
    @Clears.inStatement [] [] [] _ _ [] [] (@Block.Clears.inStatement _ _ _ "DO" [] [] [] [] rfl hvalue)
  have hcleared : Relation.ReflTransGen Clears switchedOff clearedOff := .tail (.single hstatement) htext
  have hwords : SameWords switchedOff clearedOff := .inl (by decide +kernel)
  refine ⟨hcleared, hwords, ?_⟩
  have hstacks : switchedOff.orderedStacks = switchedOff.stackList := orderedStacks_single _ _
  have hcompile : switchedOff.compile.toOption.isSome = true := by
    rw [compile, plan, hstacks]
    rfl
  obtain ⟨c, hc, hp⟩ := exists_compiled hcompile (jumpsInLoops_single _ rfl)
  have hsame := cleared_invisible hcleared hwords
  rw [hc] at hsame
  generalize clearedOff.compile = cleared at hsame
  cases hsame with
  | @ok _ c' h =>
    obtain ⟨hids, ⟨e, -, he, -⟩ | ⟨p, p', hread, hread', hruns⟩⟩ := h
    · rw [hp] at he
      cases he
    · exact ⟨c, c', p, p', hc, rfl, hids, hread, hread', hruns⟩

/-- What the script of a workspace comes to within some units, on a host that does nothing. -/
def idleRun (w : Workspace) (units : Nat) : Script.Driver Unit :=
  let host : Script.Host Unit := ⟨fun _ s => s, fun _ _ s => (none, s), fun _ s => s⟩
  let d := Script.Driver.start w.script ()
  d.hear (d.machine.runBounded host.watched units d.world)

/-- A disabled text in a socket is printed all the same, though nothing is printed once it is taken out. -/
theorem disabled_text_printed :
    let prints (w : Workspace) (shown : String) := ∃ c, w.compile = .ok c ∧
      Script.parse c.code = .ok w.script ∧ (idleRun w 3).ended = some (.ok ()) ∧
        (idleRun w 3).world.trace = [.mark "print", .print shown]
    prints ⟨[], [[printBlock (some (textBlock true))]]⟩ "on" ∧ prints ⟨[], [[printBlock none]]⟩ "" := by
  intro prints
  have hprints (w : Workspace) (shown : String) (hcompile : w.compile.toOption.isSome = true)
      (hplaced : placedAll false w.script = true) (hended : (idleRun w 3).ended = some (.ok ()))
      (htrace : (idleRun w 3).world.trace = [.mark "print", .print shown]) : prints w shown := by
    cases hc : w.compile with
    | error e =>
      rw [hc] at hcompile
      cases hcompile
    | ok c => exact ⟨c, hc, (parse_eq_ok_iff hc).2 ⟨hplaced, rfl⟩, hended, htrace⟩
  have hstacks (text : Option Block) : (⟨[], [[printBlock text]]⟩ : Workspace).orderedStacks =
      [[printBlock text]] := orderedStacks_single _ _
  constructor <;> refine hprints _ _ ?_ ?_ ?_ ?_
  all_goals
    simp only [compile, plan, idleRun, script, names, variableNames, hstacks]
    decide +kernel

end Workspace

end ScopeBlocks
