/-! Lists cut at the first place where another list stands, and text cut at its line breaks. -/
namespace ScopeBlocks.Text

/-- What stands between the occurrences of a character. -/
def pieces (mark : Char) : List Char → List (List Char)
  | [] => [[]]
  | c :: rest =>
    if c = mark then [] :: pieces mark rest
    else
      match pieces mark rest with
      | [] => [[c]]
      | piece :: more => (c :: piece) :: more

/-- The lines of a text; after its last line break there is none. -/
def lines (s : List Char) : List (List Char) :=
  let all := pieces '\n' s
  if all.getLast? = some [] then all.dropLast else all

variable {α : Type}

theorem length_dropWhile_le (p : α → Bool) (l : List α) : (l.dropWhile p).length ≤ l.length :=
  (List.dropWhile_sublist p).length_le

variable [BEq α]

/-- What follows a list at the head of another. -/
def after? (start s : List α) : Option (List α) :=
  if start.isPrefixOf s then some (s.drop start.length) else none

/-- What stands before the first occurrence of `stop`, and what stands after it. -/
def cut? (stop : List α) : List α → Option (List α × List α)
  | [] => if stop.isEmpty then some ([], []) else none
  | c :: rest =>
    if stop.isPrefixOf (c :: rest) then some ([], (c :: rest).drop stop.length)
    else (cut? stop rest).map fun (before, after) => (c :: before, after)

theorem cut?_length {stop s before after : List α} (h : cut? stop s = some (before, after)) :
    after.length ≤ s.length := by
  fun_induction cut? stop s generalizing before after with
  | case1 => simp_all
  | case2 => simp_all
  | case3 c rest hp =>
    simp only [Option.some.injEq, Prod.mk.injEq] at h
    rw [← h.2, List.length_drop]
    omega
  | case4 c rest hp ih =>
    obtain ⟨⟨b, a⟩, h', he⟩ := Option.map_eq_some_iff.1 h
    have := ih h'
    simp only [Prod.mk.injEq] at he
    obtain ⟨_, rfl⟩ := he
    simp only [List.length_cons]
    omega

theorem length_of_after?_bind_cut? {start stop s before after : List α}
    (h : (after? start s).bind (cut? stop) = some (before, after)) : after.length ≤ s.length := by
  unfold after? at h
  split at h
  · have := cut?_length h
    rw [List.length_drop] at this
    omega
  · simp at h

end ScopeBlocks.Text
