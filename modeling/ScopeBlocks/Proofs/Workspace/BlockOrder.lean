import Mathlib.Data.List.Dedup
import Mathlib.Data.List.Sort
import ScopeBlocks.Proofs.Workspace.Enabled
import ScopeBlocks.Proofs.Workspace.ReadBack
import ScopeBlocks.Proofs.Workspace.Reload

/-! The order of blocks. Stacks run as they stand, chains from their first block to their last one, and in a choice
the numbered chains run by their numbers, before the last one. -/
namespace ScopeBlocks

/-! Stacks. -/

namespace Workspace

/-- Whether a stack runs no later than another one: as their first blocks stand, from top to bottom and from left to
right, and after all others if the first block stands nowhere. -/
def NoLater (s t : List Block) : Prop :=
  match s.head?.bind Block.position, t.head?.bind Block.position with
  | some (x, y), some (x', y') => y < y' ∨ (y = y' ∧ x ≤ x')
  | none, some _ => False
  | _, none => True

theorem keyLE_stackKey {s t : List Block} : keyLE (stackKey s) (stackKey t) = true ↔ NoLater s t := by
  rw [keyLE_iff]
  unfold NoLater stackKey
  cases s.head?.bind Block.position <;> cases t.head?.bind Block.position <;> simp

/-- Whether stacks are those of a workspace that have blocks, in running order: of stacks at one place the earlier one
comes first. -/
structure RunningOrder (w : Workspace) (order : List (List Block)) : Prop where
  perm : order.Perm (w.stackList.filter (!·.isEmpty))
  sorted : order.Pairwise NoLater
  stable : ∀ s t, NoLater s t → [s, t].Sublist (w.stackList.filter (!·.isEmpty)) → [s, t].Sublist order

theorem orderedStacks_runningOrder (w : Workspace) : w.RunningOrder w.orderedStacks where
  perm := List.mergeSort_perm _ _
  sorted := by
    have hsorted : w.orderedStacks.Pairwise fun s t => keyLE (stackKey s) (stackKey t) = true :=
      List.pairwise_mergeSort (fun s t u => keyLE_trans (stackKey s) (stackKey t) (stackKey u))
        (fun s t => keyLE_total (stackKey s) (stackKey t)) _
    exact hsorted.imp keyLE_stackKey.1
  stable s t hle hsub := by
    have hkeys : keyLE (stackKey s) (stackKey t) = true := keyLE_stackKey.2 hle
    exact List.pair_sublist_mergeSort (fun _ _ _ => keyLE_trans _ _ _) (fun _ _ => keyLE_total _ _) hkeys hsub

end Workspace

/-! Chains. -/

namespace Block

section

variable (chains : Block → List String)

mutual

/-- A block and the enabled blocks in its chains, each before those in its own chains. Which chains a block has, and
in which order, is given by their names. -/
def sequence : Block → List Block
  | ⟨id, kind, position, disabled, fields, values, ⟨statements⟩, mutation⟩ =>
    ⟨id, kind, position, disabled, fields, values, ⟨statements⟩, mutation⟩ ::
      (chains ⟨id, kind, position, disabled, fields, values, ⟨statements⟩, mutation⟩).flatMap fun name =>
        ((sequences statements).lookup name).getD []

def chainSequence : List Block → List Block
  | [] => []
  | b :: rest => if b.disabled then chainSequence rest else sequence b ++ chainSequence rest

def sequences : List (String × List Block) → List (String × List Block)
  | [] => []
  | (name, c) :: rest => (name, chainSequence c) :: sequences rest

end

/-- The enabled blocks in a chain of a block and inside it; none if there is no such chain. -/
def inChain (b : Block) (name : String) : List Block := ((sequences chains b.statements.entries).lookup name).getD []

theorem sequence_eq (b : Block) : b.sequence chains = b :: (chains b).flatMap (b.inChain chains) := by
  obtain ⟨id, kind, position, disabled, fields, values, ⟨statements⟩, mutation⟩ := b
  rw [sequence]
  rfl

theorem lookup_sequences (statements : List (String × List Block)) (name : String) :
    (sequences chains statements).lookup name = (statements.lookup name).map (chainSequence chains) := by
  induction statements with
  | nil => rfl
  | cons e rest ih =>
    rw [sequences, List.lookup_cons, List.lookup_cons]
    cases name == e.1 with
    | true => rfl
    | false => exact ih

theorem inChain_eq (b : Block) (name : String) :
    b.inChain chains name = chainSequence chains ((b.statements.get? name).getD []) := by
  rw [inChain, lookup_sequences, Dict.get?]
  cases b.statements.entries.lookup name with
  | none => rfl
  | some c => rfl

theorem inChain_of_notMem {b : Block} {name : String} (h : name ∉ b.statements.keys) : b.inChain chains name = [] := by
  have hnone : b.statements.get? name = none := by
    rw [← Option.not_isSome_iff_eq_none]
    exact fun hsome => h (Dict.contains_iff.1 hsome)
  rw [inChain_eq, hnone]
  rfl

end

/-- Whether two ways to order the chains of a block come to the same, whatever is in the chains that it has. -/
def SameChains (chains chains' : Block → List String) (b : Block) : Prop :=
  ∀ f : String → List Block, (∀ name, name ∉ b.statements.keys → f name = []) →
    (chains' b).flatMap f = (chains b).flatMap f

section

variable {chains chains' : Block → List String}

mutual

theorem sequence_congr : (b : Block) → (∀ d ∈ b.sequence chains, SameChains chains chains' d) →
    b.sequence chains' = b.sequence chains
  | ⟨id, kind, position, disabled, fields, values, ⟨statements⟩, mutation⟩, h => by
    have hself := h _ (by rw [sequence_eq]; exact List.mem_cons_self)
    rw [sequence_eq, sequence_eq, hself _ fun _ => inChain_of_notMem chains']
    congr 1
    refine List.flatMap_congr fun name hname => sequences_congr statements name fun d hd => h d ?_
    rw [sequence_eq]
    exact List.mem_cons_of_mem _ (List.mem_flatMap.2 ⟨name, hname, hd⟩)

theorem chainSequence_congr : (bs : List Block) → (∀ d ∈ chainSequence chains bs, SameChains chains chains' d) →
    chainSequence chains' bs = chainSequence chains bs
  | [], _ => rfl
  | b :: rest, h => by
    rw [chainSequence] at h
    rw [chainSequence, chainSequence]
    split
    next hoff =>
      rw [if_pos hoff] at h
      exact chainSequence_congr rest h
    next hon =>
      rw [if_neg hon] at h
      rw [sequence_congr b fun d hd => h d (List.mem_append_left _ hd),
        chainSequence_congr rest fun d hd => h d (List.mem_append_right _ hd)]

theorem sequences_congr : (statements : List (String × List Block)) → (name : String) →
    (∀ d ∈ ((sequences chains statements).lookup name).getD [], SameChains chains chains' d) →
    ((sequences chains' statements).lookup name).getD [] = ((sequences chains statements).lookup name).getD []
  | [], _, _ => rfl
  | (key, c) :: rest, name, h => by
    rw [sequences, List.lookup_cons] at h
    rw [sequences, sequences, List.lookup_cons, List.lookup_cons]
    cases hkey : name == key with
    | true =>
      rw [hkey] at h
      exact chainSequence_congr c h
    | false =>
      rw [hkey] at h
      exact sequences_congr rest name h

end

end

theorem flatMap_chainNames {b : Block} (h : b.kind = "controls_if") {α : Type} (f : String → List α) :
    b.chainNames.flatMap f =
      (List.range b.branchCount).flatMap (fun i => f s!"DO{i}") ++ if b.hasElse then f "ELSE" else [] := by
  rw [chainNames_choice h, List.flatMap_append, List.flatMap_map]
  split <;> simp

/-! The chains of a choice by their numbers. -/

/-- The number of a chain of a choice, which stands in its name without a sign or zeros before it. -/
def chainNumber? (key : String) : Option Nat :=
  let n := Decimal.ofDigits (key.toList.drop 2)
  if key = s!"DO{n}" then some n else none

/-- The numbers for which a block has a chain, in order. -/
def chainNumbers (b : Block) : List Nat :=
  ((b.statements.keys.filterMap chainNumber?).insertionSort (· ≤ ·)).dedup

/-- The names of the chains that a block runs: the chain of a loop, and the chains of a choice with a number below a
limit, before its last one. -/
def orderedChains (limit : Nat) (b : Block) : List String :=
  if b.isLoop then ["DO"]
  else if b.kind = "controls_if" then (b.chainNumbers.filter (· < limit)).map (s!"DO{·}") ++ ["ELSE"]
  else []

theorem toList_toString (n : Nat) : (toString n).toList = (⟨n, 0⟩ : Decimal).digits := by
  rw [Nat.toString_eq_repr, Nat.toList_repr]
  rfl

theorem chainNumber?_eq_some {key : String} {n : Nat} : chainNumber? key = some n ↔ key = s!"DO{n}" := by
  unfold chainNumber?
  dsimp only
  constructor
  · intro h
    split at h
    next hkey =>
      cases h
      exact hkey
    next => cases h
  · rintro rfl
    have hdigits : Decimal.ofDigits ((s!"DO{n}").toList.drop 2) = n := by
      have hdrop : (s!"DO{n}").toList.drop 2 = (⟨n, 0⟩ : Decimal).digits := by
        rw [← toList_toString]
        simp [toString, String.toList_append]
      rw [hdrop, Script.Token.ofDigits_digits]
    rw [hdigits, if_pos rfl]

theorem mem_chainNumbers {b : Block} {n : Nat} : n ∈ b.chainNumbers ↔ s!"DO{n}" ∈ b.statements.keys := by
  simp only [chainNumbers, List.mem_dedup, List.mem_insertionSort, List.mem_filterMap, chainNumber?_eq_some,
    exists_eq_right]

theorem chainNumbers_ascending (b : Block) : b.chainNumbers.Pairwise (· < ·) := by
  have hsorted := List.pairwise_insertionSort (· ≤ ·) (b.statements.keys.filterMap chainNumber?)
  have hdedup := hsorted.sublist (List.dedup_sublist _)
  exact (hdedup.and (List.nodup_dedup _)).imp fun h => lt_of_le_of_ne h.1 h.2

theorem flatMap_filter_of_nil {α β : Type} {p : α → Bool} {f : α → List β} {l : List α}
    (h : ∀ a ∈ l, p a = false → f a = []) : (l.filter p).flatMap f = l.flatMap f := by
  induction l with
  | nil => rfl
  | cons a l ih =>
    have hrest := ih fun c hc => h c (List.mem_cons_of_mem _ hc)
    rw [List.flatMap_cons, ← hrest]
    cases hp : p a with
    | true => rw [List.filter_cons_of_pos hp, List.flatMap_cons]
    | false => rw [List.filter_cons_of_neg (by simp [hp]), h a List.mem_cons_self hp, List.nil_append]

theorem eq_filter_range {count : Nat} {ns : List Nat} (hsorted : ns.Pairwise (· < ·)) (h : ∀ n ∈ ns, n < count) :
    ns = (List.range count).filter (· ∈ ns) := by
  refine hsorted.eq_of_mem_iff (List.pairwise_lt_range.filter _) fun n => ?_
  simpa using h n

/-- A choice that counts all its chains below a limit runs them by their numbers, whatever count is declared. -/
theorem sameChains_ordered {b : Block} {limit : Nat} (hcount : b.kind = "controls_if" → b.branchCount ≤ limit)
    (h : b.kind = "controls_if" → ∀ n ∈ b.chainNumbers, n < limit → n < b.branchCount) :
    SameChains chainNames (orderedChains limit) b := by
  intro f hf
  unfold orderedChains chainNames
  split
  · rfl
  · split
    next hkind =>
      have hotherwise : (if b.hasElse = true then ["ELSE"] else []).flatMap f = ["ELSE"].flatMap f := by
        split
        · rfl
        next hnone =>
          have habsent : "ELSE" ∉ b.statements.keys := by
            intro hmem
            simp [hasElse, Dict.contains_iff.2 hmem] at hnone
          simp [hf _ habsent]
      have hsorted := b.chainNumbers_ascending.filter (decide <| · < limit)
      have hbelow : ∀ n ∈ b.chainNumbers.filter (decide <| · < limit), n < b.branchCount := fun n hn => by
        obtain ⟨hmem, hlt⟩ := List.mem_filter.1 hn
        exact h hkind n hmem (of_decide_eq_true hlt)
      have hnumbered : (b.chainNumbers.filter (decide <| · < limit)).flatMap (fun n => f s!"DO{n}") =
          (List.range b.branchCount).flatMap fun n => f s!"DO{n}" := by
        rw [eq_filter_range hsorted hbelow]
        refine flatMap_filter_of_nil fun n hn habsent => hf _ fun hmem => ?_
        have hlt : n < limit := Nat.lt_of_lt_of_le (List.mem_range.1 hn) (hcount hkind)
        have hin : n ∈ b.chainNumbers.filter (decide <| · < limit) :=
          List.mem_filter.2 ⟨mem_chainNumbers.2 hmem, decide_eq_true hlt⟩
        exact of_decide_eq_false habsent hin
      rw [List.flatMap_append, List.flatMap_append, List.flatMap_map, List.flatMap_map, hnumbered, hotherwise]
    next => rfl

/-! Sockets with numbers. -/

theorem readWord?_digits {ds : List Char} (hne : ds ≠ []) (hdigits : ∀ c ∈ ds, c.isDigit = true)
    (hlt : Decimal.ofDigits ds < Word.limit) : readWord? ds = some (Decimal.ofDigits ds) := by
  unfold readWord?
  extract_lets digits
  have hunsigned : digits = ds := by
    unfold digits
    split
    next rest _ =>
      have hplus := hdigits '+' List.mem_cons_self
      cases hplus
    next => rfl
  have hword : digits ≠ [] ∧ digits.all Char.isDigit = true ∧ Decimal.ofDigits digits < Word.limit := by
    rw [hunsigned]
    exact ⟨hne, List.all_eq_true.2 hdigits, hlt⟩
  rw [if_pos hword, hunsigned]

theorem readWord?_toString {n : Nat} (h : n < Word.limit) : readWord? (toString n).toList = some n := by
  have hvalue : Decimal.ofDigits (⟨n, 0⟩ : Decimal).digits = n := Script.Token.ofDigits_digits _
  have hne : (⟨n, 0⟩ : Decimal).digits ≠ [] := Nat.toDigits_ne_nil
  have hread := readWord?_digits hne (fun _ => Script.Token.isDigit_of_mem_digits) (by rwa [hvalue])
  rw [toList_toString, hread, hvalue]

theorem socketIndex?_chain {n : Nat} (h : n < Word.limit) : socketIndex? ["IF", "DO"] s!"DO{n}" = some n := by
  have hkey : (s!"DO{n}").toList = 'D' :: 'O' :: (toString n).toList := String.toList_append
  rw [socketIndex?, hkey]
  exact readWord?_toString h

theorem socketIndex?_condition {n : Nat} (h : n < Word.limit) : socketIndex? ["IF", "DO"] s!"IF{n}" = some n := by
  have hkey : (s!"IF{n}").toList = 'I' :: 'F' :: (toString n).toList := String.toList_append
  rw [socketIndex?, hkey]
  exact readWord?_toString h

theorem lt_of_socketCount {b : Block} {declared m i : Nat} {words : List String} {key : String}
    (h : b.socketCount declared words = .ok m) (hkey : key ∈ b.values.keys ++ b.statements.keys)
    (hi : socketIndex? words key = some i) : i < m := by
  unfold socketCount at h
  dsimp only at h
  split at h
  · cases h
  next hfits =>
    cases h
    obtain ⟨-, hindices⟩ := (foldl_count_le (n := declared)).1 (Nat.le_refl _)
    have hindex := hindices i (List.mem_filterMap.2 ⟨key, hkey, hi⟩)
    have hlimit : maxSockets < Word.limit - 1 := by decide
    omega

end Block

end ScopeBlocks
