import ScopeBlocks.Proofs.Xml.NodeReadBack

/-! Texts that are cut. What has been scanned stays as it is, however the text goes on; and the events of an
element go below the level at which it begins with none of them, so that its end tag is the first event
that leaves it. -/
namespace ScopeBlocks

namespace Text

variable {start stop s before after : List Char}

theorem after?_append (h : after? start s = some after) (t : List Char) :
    after? start (s ++ t) = some (after ++ t) := by
  unfold after? at h ⊢
  split at h
  next hs =>
    have hstarts := List.isPrefixOf_iff_prefix.1 hs
    cases h
    rw [if_pos (List.isPrefixOf_iff_prefix.2 (hstarts.trans (List.prefix_append s t))),
      List.drop_append_of_le_length hstarts.length_le]
  next => cases h

theorem isPrefixOf_append (h : start.length ≤ s.length) (t : List Char) :
    start.isPrefixOf (s ++ t) = start.isPrefixOf s := by
  rw [Bool.eq_iff_iff, List.isPrefixOf_iff_prefix, List.isPrefixOf_iff_prefix]
  exact ⟨fun hs => List.prefix_of_prefix_length_le hs (List.prefix_append s t) h,
    fun hs => hs.trans (List.prefix_append s t)⟩

theorem length_of_cut? (h : cut? stop s = some (before, after)) : stop.length ≤ s.length := by
  fun_induction cut? stop s generalizing before after with
  | case1 hstop => simp [List.isEmpty_iff.1 hstop]
  | case2 => cases h
  | case3 c rest hstop => exact (List.isPrefixOf_iff_prefix.1 hstop).length_le
  | case4 c rest _ ih =>
    obtain ⟨⟨_, _⟩, h, -⟩ := Option.map_eq_some_iff.1 h
    exact Nat.le_succ_of_le (ih h)

theorem cut?_append (hne : stop ≠ []) (h : cut? stop s = some (before, after)) (t : List Char) :
    cut? stop (s ++ t) = some (before, after ++ t) := by
  have hlength := length_of_cut? h
  fun_induction cut? stop s generalizing before after with
  | case1 hstop => exact absurd (List.isEmpty_iff.1 hstop) hne
  | case2 => cases h
  | case3 c rest hstop =>
    cases h
    rw [List.cons_append, cut?, ← List.cons_append, isPrefixOf_append hlength, if_pos hstop,
      List.drop_append_of_le_length hlength]
  | case4 c rest hstop ih =>
    obtain ⟨⟨b, a⟩, h, he⟩ := Option.map_eq_some_iff.1 h
    cases he
    rw [List.cons_append, cut?, ← List.cons_append, isPrefixOf_append hlength, if_neg hstop,
      ih h (length_of_cut? h)]
    rfl

end Text

namespace Xml

namespace Event

variable {opened o : List (List Char)} {s content rest : List Char} {e : Event}

theorem tagEnd?_append {q : Option Char} (h : tagEnd? q s = some (content, rest)) (t : List Char) :
    tagEnd? q (s ++ t) = some (content, rest ++ t) := by
  fun_induction tagEnd? q s generalizing content rest with
  | case1 => cases h
  | case2 => cases h; rfl
  | case3 c s hc ih =>
    obtain ⟨⟨b, a⟩, h, he⟩ := Option.map_eq_some_iff.1 h
    cases he
    rw [List.cons_append, tagEnd?_unquoted hc, ih h]
    rfl
  | case4 q c s ih =>
    obtain ⟨⟨b, a⟩, h, he⟩ := Option.map_eq_some_iff.1 h
    cases he
    rw [List.cons_append, tagEnd?_quote, ih h]
    rfl

theorem declarationEnd?_append {d : Nat} (h : declarationEnd? d s = some (content, rest))
    (t : List Char) : declarationEnd? d (s ++ t) = some (content, rest ++ t) := by
  fun_induction declarationEnd? d s generalizing content rest with
  | case1 => cases h
  | case2 d s ih =>
    obtain ⟨⟨b, a⟩, h, he⟩ := Option.map_eq_some_iff.1 h
    cases he
    rw [List.cons_append, declarationEnd?, ih h]
    rfl
  | case3 => cases h; rfl
  | case4 d s ih =>
    obtain ⟨⟨b, a⟩, h, he⟩ := Option.map_eq_some_iff.1 h
    cases he
    rw [List.cons_append, declarationEnd?, ih h]
    rfl
  | case5 d c s hopen hclose ih =>
    obtain ⟨⟨b, a⟩, h, he⟩ := Option.map_eq_some_iff.1 h
    cases he
    rw [List.cons_append, declarationEnd?.eq_5 _ _ _ hopen hclose, ih h]
    rfl

theorem closing_append (h : closing opened s = .ok (e, o, rest)) (t : List Char) :
    closing opened (s ++ t) = .ok (e, o, rest ++ t) := by
  unfold closing at h ⊢
  cases hend : tagEnd? none s with
  | none =>
    rw [hend] at h
    cases h
  | some found =>
    obtain ⟨content, r⟩ := found
    rw [hend] at h
    rw [tagEnd?_append hend]
    dsimp only at h ⊢
    cases opened with
    | nil => cases h
    | cons expected opened =>
      dsimp only at h ⊢
      split at h
      next hname =>
        cases h
        rw [if_pos hname]
      next => cases h

theorem opening_append (h : opening opened s = .ok (e, o, rest)) (t : List Char) :
    opening opened (s ++ t) = .ok (e, o, rest ++ t) := by
  unfold opening at h ⊢
  cases hend : tagEnd? none s with
  | none =>
    rw [hend] at h
    cases h
  | some found =>
    obtain ⟨content, r⟩ := found
    rw [hend] at h
    rw [tagEnd?_append hend]
    dsimp only at h ⊢
    split at h
    next hslash =>
      cases h
      rw [if_pos hslash]
    next hslash =>
      cases h
      rw [if_neg hslash]

theorem instruction_append (h : instruction opened s = .ok (e, o, rest)) (t : List Char) :
    instruction opened (s ++ t) = .ok (e, o, rest ++ t) := by
  cases s with
  | nil => cases h
  | cons c s =>
    rw [List.cons_append]
    unfold instruction at h ⊢
    split at h
    next => cases h
    next hclose =>
      split at h
      next _ r hcut =>
        cases h
        split
        next heq => exact absurd (List.cons.inj heq).1 fun hc => hclose s (hc ▸ rfl)
        next => rw [← List.cons_append, Text.cut?_append (by decide) hcut]
      next => cases h

theorem doctype_append (h : doctype opened s = .ok (e, o, rest)) (t : List Char) :
    doctype opened (s ++ t) = .ok (e, o, rest ++ t) := by
  unfold doctype at h ⊢
  split at h
  next hname =>
    have hlength : 7 ≤ s.length := by
      have htake : min 7 s.length = 7 := by simpa using congrArg List.length hname
      omega
    rw [List.take_append_of_le_length hlength, if_pos hname, List.drop_append_of_le_length hlength]
    split at h
    next => cases h
    next body r hend =>
      rw [declarationEnd?_append hend]
      dsimp only at h ⊢
      split at h
      next => cases h
      next hblank =>
        cases h
        rw [if_neg hblank]
  next => cases h

theorem bounded_append {start stop before after : List Char} (hne : stop ≠ [])
    (h : (Text.after? start s).bind (Text.cut? stop) = some (before, after)) (t : List Char) :
    (Text.after? start (s ++ t)).bind (Text.cut? stop) = some (before, after ++ t) := by
  obtain ⟨inner, hafter, hcut⟩ := Option.bind_eq_some_iff.1 h
  rw [Text.after?_append hafter, Option.bind_some, Text.cut?_append hne hcut]

theorem declaration_append (h : declaration opened s = .ok (e, o, rest)) (t : List Char) :
    declaration opened (s ++ t) = .ok (e, o, rest ++ t) := by
  cases s with
  | nil => cases h
  | cons c s =>
    unfold declaration at h ⊢
    rw [List.cons_append]
    split at h
    next heq =>
      cases heq
      split at h
      next content r hcut =>
        cases h
        rw [← List.cons_append, bounded_append (by decide) hcut]
        rfl
      next => cases h
    next heq =>
      cases heq
      split at h
      next content r hcut =>
        cases h
        rw [← List.cons_append, bounded_append (by decide) hcut]
        rfl
      next => cases h
    next heq =>
      cases heq
      exact doctype_append h t
    next heq =>
      cases heq
      exact doctype_append h t
    next => cases h

/-- The markup at the head of a text is the same, however the text goes on. -/
theorem markup_append (h : markup opened s = .ok (e, o, rest)) (t : List Char) :
    markup opened (s ++ t) = .ok (e, o, rest ++ t) := by
  cases s with
  | nil => cases h
  | cons c s =>
    unfold markup at h ⊢
    rw [List.cons_append]
    split at h
    next heq =>
      cases heq
      exact closing_append h t
    next heq =>
      cases heq
      exact instruction_append h t
    next heq =>
      cases heq
      exact declaration_append h t
    next hslash hquestion hbang =>
      split
      next heq => exact absurd (List.cons.inj heq).1 fun hc => hslash s (hc ▸ rfl)
      next heq => exact absurd (List.cons.inj heq).1 fun hc => hquestion s (hc ▸ rfl)
      next heq => exact absurd (List.cons.inj heq).1 fun hc => hbang s (hc ▸ rfl)
      next => exact opening_append h t

/-- A text starts with markup that is wrong, is a run of text to its end, or has a first event that is the
same however the text goes on. -/
theorem scanFrom_cases (opened : List (List Char)) {s : List Char} (hne : s ≠ []) :
    (∃ cause, scanFrom opened s = [.failure cause]) ∨ (∃ run, scanFrom opened s = [.text run, .eof]) ∨
      ∃ e opened' rest, rest.length < s.length ∧
        ∀ more, scanFrom opened (s ++ more) = e :: scanFrom opened' (rest ++ more) := by
  obtain ⟨c, s, rfl⟩ := List.exists_cons_of_ne_nil hne
  by_cases hc : c = '<'
  · subst hc
    cases hmarkup : markup opened s with
    | error cause =>
      refine .inl ⟨cause, ?_⟩
      rw [scanFrom]
      split
      next h =>
        rw [hmarkup] at h
        cases h
        rfl
      next h =>
        rw [hmarkup] at h
        cases h
    | ok next =>
      obtain ⟨e, opened', rest⟩ := next
      exact .inr (.inr ⟨e, opened', rest, Nat.lt_succ_of_le (markup_length hmarkup),
        fun more => scanFrom_markup (markup_append hmarkup more)⟩)
  · rw [scanFrom.eq_3 _ _ _ hc]
    cases hrest : s.dropWhile inText with
    | nil =>
      rw [scanFrom]
      exact .inr (.inl ⟨_, rfl⟩)
    | cons d rest =>
      have hd : d = '<' := by
        have hstop := List.head?_dropWhile_not inText s
        rw [hrest] at hstop
        simpa [inText] using hstop
      have hrun : ∀ x ∈ c :: s.takeWhile inText, x ≠ '<' := by
        intro x hx
        rcases List.mem_cons.1 hx with rfl | hx
        · exact hc
        · simpa [inText] using List.all_eq_true.1 List.all_takeWhile x hx
      refine .inr (.inr ⟨.text (c :: s.takeWhile inText), opened, s.dropWhile inText, ?_, fun more => ?_⟩)
      · exact Nat.lt_succ_of_le (Text.length_dropWhile_le inText s)
      · have hhead : (s.dropWhile inText ++ more).head? = some '<' := by rw [hrest, hd]; rfl
        rw [← scanFrom_text (List.cons_ne_nil _ _) hrun hhead, List.cons_append, List.cons_append,
          ← List.append_assoc, List.takeWhile_append_dropWhile]

theorem scanFrom_ne_eof (opened : List (List Char)) {s : List Char} (hne : s ≠ []) :
    scanFrom opened s ≠ [.eof] := by
  intro h
  rcases scanFrom_cases opened hne with ⟨cause, hs⟩ | ⟨run, hs⟩ | ⟨e, opened', rest, -, hs⟩
  · rw [hs] at h
    cases h
  · rw [hs] at h
    cases h
  · have hhere := hs []
    rw [List.append_nil, List.append_nil, h] at hhere
    have hnone := (List.cons.inj hhere).2.symm
    rw [scanFrom.eq_def] at hnone
    split at hnone
    · cases hnone
    · split at hnone <;> cases hnone
    · cases hnone

/-- The elements that an event opens, or closes. -/
def rise : Event → Int
  | .startTag _ => 1
  | .endTag => -1
  | _ => 0

def climb : List Event → Int
  | [] => 0
  | e :: es => e.rise + climb es

@[simp] theorem climb_nil : climb [] = 0 := rfl

@[simp] theorem climb_cons (e : Event) (es : List Event) : climb (e :: es) = e.rise + climb es := rfl

@[simp] theorem climb_append (es fs : List Event) : climb (es ++ fs) = climb es + climb fs := by
  induction es with
  | nil => simp
  | cons e es ih => simp [ih, Int.add_assoc]

/-- Events that close what they open, and nothing else. -/
structure Level (es : List Event) : Prop where
  total : climb es = 0
  above : ∀ part, part <+: es → 0 ≤ climb part

theorem level_nil : Level [] where
  total := rfl
  above part h := by simp [List.prefix_nil.1 h]

theorem Level.append {es fs : List Event} (he : Level es) (hf : Level fs) : Level (es ++ fs) where
  total := by rw [climb_append, he.total, hf.total, Int.add_zero]
  above part h := by
    rcases List.prefix_or_prefix_of_prefix h (List.prefix_append es fs) with hpart | ⟨more, rfl⟩
    · exact he.above part hpart
    · rw [climb_append, he.total, Int.zero_add]
      exact hf.above more ((List.prefix_append_right_inj es).1 h)

theorem level_singleton {e : Event} (h : e.rise = 0) : Level [e] where
  total := by simp [h]
  above part hpart := by
    rcases List.prefix_cons_iff.1 hpart with rfl | ⟨more, rfl, hmore⟩
    · exact Int.le_refl _
    · simp [List.prefix_nil.1 hmore, h]

theorem Level.open {es part : List Event} (h : Level es) {t : Tag}
    (hpart : part <+: .startTag t :: es ++ [.endTag]) :
    part = [] ∨ 0 < climb part ∨ part = .startTag t :: es ++ [.endTag] := by
  rw [List.prefix_concat_iff] at hpart
  rcases hpart with hwhole | hpart
  · exact .inr (.inr hwhole)
  · rcases List.prefix_cons_iff.1 hpart with rfl | ⟨more, rfl, hmore⟩
    · exact .inl rfl
    · have habove := h.above more hmore
      rw [climb_cons, show rise (.startTag t) = 1 from rfl]
      exact .inr (.inl (by omega))

theorem Level.wrap {es : List Event} (h : Level es) (t : Tag) :
    Level (.startTag t :: es ++ [.endTag]) where
  total := by
    rw [climb_append, climb_cons, climb_cons, climb_nil, h.total]
    rfl
  above part hpart := by
    rcases h.open hpart with rfl | hpos | rfl
    · exact Int.le_refl _
    · exact Int.le_of_lt hpos
    · rw [climb_append, climb_cons, climb_cons, climb_nil, h.total]
      exact Int.le_refl _

end Event

namespace Node

open Event

theorem events_element (depth : Nat) (name : String) (attributes : List (String × String))
    (children : List Node) : (Node.element name attributes children).events depth =
      .startTag ⟨tagText name attributes⟩ :: (eventsAll (depth + 1) children ++ [.text (gap depth)]) ++
        [.endTag] := by
  rw [events]
  simp

mutual

theorem level_events (depth : Nat) : (n : Node) → Level (n.events depth)
  | .empty name attributes => by
    rw [events]
    exact level_singleton rfl
  | .text name attributes content => by
    rw [events]
    exact (level_singleton (e := .text (escape content.toList)) rfl).wrap _
  | .element name attributes children => by
    rw [events_element]
    exact (level_content depth children).wrap _

theorem level_content (depth : Nat) (children : List Node) :
    Level (eventsAll (depth + 1) children ++ [.text (gap depth)]) :=
  (level_eventsAll (depth + 1) children).append (level_singleton rfl)

theorem level_eventsAll (depth : Nat) : (ns : List Node) → Level (eventsAll depth ns)
  | [] => by
    rw [eventsAll]
    exact level_nil
  | n :: ns => by
    rw [eventsAll]
    exact ((level_singleton (e := .text (gap depth)) rfl).append (level_events depth n)).append
      (level_eventsAll depth ns)

end

end Node

end Xml

end ScopeBlocks
