import ScopeBlocks.Toml.Document

/-! How scripts are run: where the instrument is, how long to wait for it, and what a failed action means
for a run. Times are in milliseconds. -/
namespace ScopeBlocks

/-- Whether a run goes on after an action has failed. -/
inductive FailurePolicy where
  | continue
  | abort
  deriving DecidableEq, Repr

structure Settings where
  baseUrl : String := "http://127.0.0.1:8000"
  propertyPrefix : String := "api/v2"
  positionerName : String := "ESP32Stage"
  pollInterval : Nat := 1000
  /-- The polls after which an action is given up; none never gives up. -/
  maxPolls : Option Nat := some 600
  runTick : Nat := 10
  cooldown : Nat := 2000
  sliceBudget : Nat := 10000
  failurePolicy : FailurePolicy := .continue
  deriving DecidableEq, Repr

namespace Settings

open Toml (Value Entries)

def text? : Value → Option String
  | .string s => some s
  | _ => none

def count? (limit : Nat) : Value → Option Nat
  | .integer n => if 0 ≤ n ∧ n < limit then some n.toNat else none
  | _ => none

def policyNamed? : String → Option FailurePolicy
  | "continue" => some .continue
  | "abort" => some .abort
  | _ => none

def isHollow : Value → Bool
  | .array [] | .table _ [] => true
  | _ => false

/-- A policy by its name, or as the only key of a table, with an empty value. -/
def policy? : Value → Option FailurePolicy
  | .string s => policyNamed? s
  | .table _ [(key, v)] => if isHollow v then policyNamed? key else none
  | _ => none

/-- What a key is set to, or what holds without it. -/
def entry {α : Type} (entries : Entries) (key : String) (read : Value → Option α) (default : α) :
    Option α :=
  match entries.lookup key with
  | none => some default
  | some v => read v

def ofEntries (entries : Entries) : Option Settings := do
  let standard : Settings := {}
  return {
    baseUrl := ← entry entries "base_url" text? standard.baseUrl
    propertyPrefix := ← entry entries "property_prefix" text? standard.propertyPrefix
    positionerName := ← entry entries "positioner_name" text? standard.positionerName
    pollInterval := ← entry entries "poll_interval_ms" (count? Word.limit) standard.pollInterval
    maxPolls := ← entry entries "max_polls" (fun v => some <$> count? Word.shortLimit v) standard.maxPolls
    runTick := ← entry entries "run_tick_ms" (count? Word.limit) standard.runTick
    cooldown := ← entry entries "cooldown_ms" (count? Word.limit) standard.cooldown
    sliceBudget := ← entry entries "slice_budget" (count? Word.limit) standard.sliceBudget
    failurePolicy := ← entry entries "failure_policy" policy? standard.failurePolicy }

/-- The settings in a TOML document; keys that it does not set keep their standard values. -/
def ofToml? (document : String) : Option Settings := (Toml.read? document).bind ofEntries

def invalidMessage : String := "invalid runner configuration"

end Settings

end ScopeBlocks
