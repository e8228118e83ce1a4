import ScopeBlocks.Proofs.Workspace.DeclaredScript

/-! Runs of the code of workspaces miss no variable, but for the bounds of counting loops that are written
down as names because they are no finite numbers. -/
namespace ScopeBlocks.Workspace

open Script (Use freeAll)

variable {w : Workspace}

/-- However the code of a workspace is driven, no run changes a variable that is not there, and none reads one
but in place of a bound that a counting loop writes down and that is no finite number. -/
theorem reads_declared {c : Compiled} (h : w.compile = .ok c) {program : Script.Program}
    (hp : Script.parse c.code = .ok program) {σ : Type} {host : Script.Host σ} {s : σ}
    {calls : List Script.DriverCall} {d : Script.Driver σ}
    (hd : Script.Driver.Driven host calls (.start program s) d) :
    (∀ name, d.ended ≠ some (.error (.fault (.undeclared name)))) ∧
      ∀ name, d.ended = some (.error (.fault (.unbound name))) → name ∉ w.names.declared ∧
        ∃ b, w.Generates b ∧ ∃ x, b.Splices x ∧ x.isFinite = false ∧ name = x.abs.text := by
  have hmissed (u : Use) (hu : d.ended = some (.error (.fault u.fault))) : u ∈ freeAll w.script :=
    script_of_parse h hp ▸ Script.free_of_missed hd hu
  refine ⟨fun name hname => ?_, fun name hname => ?_⟩
  · obtain ⟨-, b, -, x, -, -, hu⟩ := free_script (hmissed (.change name) hname)
    cases hu
  · obtain ⟨hdeclared, b, hb, x, hx, hf, hu⟩ := free_script (hmissed (.read name) hname)
    exact ⟨hdeclared, b, hb, x, hx, hf, Use.read.inj hu⟩

/-! One loop alone. -/

theorem jumpsInLoops_single (vars : List Variable) {b : Block} (h : b.isLoop = true) :
    (⟨vars, [[b]]⟩ : Workspace).JumpsInLoops := by
  intro stack hs c hc _ l d hd hkind
  obtain rfl := List.mem_singleton.1 hs
  obtain rfl := List.mem_singleton.1 hc
  cases hd with
  | here => simp [Block.isLoop, hkind] at h
  | inChain => simp [h]

theorem exists_compiled (hcompile : w.compile.toOption.isSome = true) (hjumps : w.JumpsInLoops) :
    ∃ c, w.compile = .ok c ∧ Script.parse c.code = .ok w.script := by
  cases hc : w.compile with
  | error e =>
    rw [hc] at hcompile
    cases hcompile
  | ok c => exact ⟨c, rfl, parse_of_jumps hc hjumps⟩

/-- A loop whose bounds are computed, over a variable that only its body names. -/
def tally : Workspace :=
  let stop := Block.ofKind "stop" "math_arithmetic"
  let change := { Block.ofKind "change" "math_change" with
    fields := .singleton "VAR" ⟨"total", none⟩ }
  let loop := { Block.ofKind "loop" "controls_for" with
    fields := .singleton "VAR" ⟨"i", none⟩, values := .singleton "TO" ⟨some stop, none⟩
    statements := .singleton "DO" [change] }
  ⟨[], [[loop]]⟩

theorem tally_reads_declared :
    let host : Script.Host Unit := ⟨fun _ s => s, fun _ _ s => (none, s), fun _ s => s⟩
    ∃ c d, tally.compile = .ok c ∧ Script.parse c.code = .ok tally.script ∧
      Script.Driver.Driven host [.runBounded 40] (.start tally.script ()) d ∧
      d.ended = some (.ok ()) ∧
      (∀ name, d.ended ≠ some (.error (.fault (.undeclared name)))) ∧
      ∀ name, d.ended = some (.error (.fault (.unbound name))) → name ∉ tally.names.declared ∧
        ∃ b, tally.Generates b ∧ ∃ x, b.Splices x ∧ x.isFinite = false ∧ name = x.abs.text := by
  intro host
  have hstacks : tally.orderedStacks = tally.stackList := orderedStacks_single _ _
  have hcompile : tally.compile.toOption.isSome = true := by
    rw [compile, plan, hstacks]
    rfl
  obtain ⟨c, hc, hp⟩ := exists_compiled hcompile (jumpsInLoops_single _ rfl)
  have hd : Script.Driver.Driven host [.runBounded 40] (.start tally.script ()) _ :=
    .cons (.runBounded 40) (.nil rfl)
  refine ⟨c, _, hc, hp, hd, ?_, reads_declared hc hp hd⟩
  rw [script, names, variableNames, hstacks]
  decide +kernel

/-- A loop that begins at infinity. -/
def endlessLoop : Workspace :=
  let start := { Block.ofKind "start" "math_number" with fields := .singleton "NUM" ⟨"inf", none⟩ }
  let loop := { Block.ofKind "loop" "controls_for" with
    fields := .singleton "VAR" ⟨"i", none⟩, values := .singleton "FROM" ⟨some start, none⟩ }
  ⟨[], [[loop]]⟩

/-- The infinity is written down as a name, though a number field that is not finite counts as zero wherever
else it stands. -/
theorem endlessLoop_reads_infinity :
    let host : Script.Host Unit := ⟨fun _ s => s, fun _ _ s => (none, s), fun _ s => s⟩
    ∃ c d, endlessLoop.compile = .ok c ∧ Script.parse c.code = .ok endlessLoop.script ∧
      Script.Driver.Driven host [.runBounded 3] (.start endlessLoop.script ()) d ∧
      d.ended = some (.error (.fault (.unbound "Infinity"))) := by
  intro host
  have hstacks : endlessLoop.orderedStacks = endlessLoop.stackList := orderedStacks_single _ _
  have hcompile : endlessLoop.compile.toOption.isSome = true := by
    rw [compile, plan, hstacks]
    rfl
  obtain ⟨c, hc, hp⟩ := exists_compiled hcompile (jumpsInLoops_single _ rfl)
  refine ⟨c, _, hc, hp, .cons (.runBounded 3) (.nil rfl), ?_⟩
  rw [script, names, variableNames, hstacks]
  decide +kernel

end ScopeBlocks.Workspace
