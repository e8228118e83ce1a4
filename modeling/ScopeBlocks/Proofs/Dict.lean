import ScopeBlocks.Dict

/-! Dictionaries whose keys ascend, as those do that insertions have built. Entries that are put in behind
all others stay where they are put, so that such a dictionary is built again from its own entries. -/
namespace ScopeBlocks.Dict

variable {α : Type u}

/-- Each key lies before the keys after it. -/
def Ascending (l : List (String × α)) : Prop := l.Pairwise (·.1 < ·.1)

def Sorted (d : Dict α) : Prop := Ascending d.entries

instance (d : Dict α) : Decidable d.Sorted := inferInstanceAs (Decidable (d.entries.Pairwise _))

theorem contains_iff {d : Dict α} {key : String} : d.contains key = true ↔ key ∈ d.keys := by
  simp [contains, get?, keys, List.lookup_isSome_iff]

theorem mem_keys_insert {d : Dict α} {key k : String} {value : α} :
    k ∈ (d.insert key value).keys ↔ k = key ∨ k ∈ d.keys := by
  simp only [← contains_iff, contains, get?_insert]
  split <;> simp_all

theorem insert_last {l : List (String × α)} {key : String} (value : α) (h : ∀ e ∈ l, e.1 < key) :
    (⟨l⟩ : Dict α).insert key value = ⟨l ++ [(key, value)]⟩ := by
  refine congrArg Dict.mk ?_
  induction l with
  | nil => rfl
  | cons e l ih =>
    obtain ⟨k, v⟩ := e
    have hk : k < key := h _ List.mem_cons_self
    have hne : key ≠ k := by
      rintro rfl
      exact String.lt_irrefl _ hk
    simp only [insertInto, if_neg hne, if_neg (String.lt_asymm hk), List.cons_append,
      ih fun e he => h e (List.mem_cons_of_mem _ he)]

theorem Ascending.lt_of_append {l es : List (String × α)} {e : String × α}
    (h : Ascending (l ++ e :: es)) : ∀ x ∈ l, x.1 < e.1 := fun x hx =>
  (List.pairwise_append.1 h).2.2 x hx e List.mem_cons_self

theorem foldl_insert {l es : List (String × α)} (h : Ascending (l ++ es)) :
    es.foldl (fun d e => d.insert e.1 e.2) (⟨l⟩ : Dict α) = ⟨l ++ es⟩ := by
  induction es generalizing l with
  | nil => simp
  | cons e es ih =>
    have hmore : Ascending (l ++ [e] ++ es) := by simpa using h
    rw [List.foldl_cons, insert_last _ h.lt_of_append, ih hmore, List.append_assoc,
      List.singleton_append]

theorem ofList_ascending {es : List (String × α)} (h : Ascending es) : ofList es = ⟨es⟩ :=
  foldl_insert (l := []) h

theorem empty_union {d : Dict α} (h : d.Sorted) : (empty : Dict α).union d = d :=
  foldl_insert (l := []) h

theorem Ascending.nodup {l : List (String × α)} (h : Ascending l) : (l.map Prod.fst).Nodup := by
  rw [List.nodup_iff_pairwise_ne, List.pairwise_map]
  refine h.imp ?_
  rintro a b hab heq
  rw [heq] at hab
  exact String.lt_irrefl _ hab

theorem Ascending.map {β : Type v} {f : String × α → String × β} {l : List (String × α)}
    (h : Ascending l) (hf : ∀ e, (f e).1 = e.1) : Ascending (l.map f) := by
  simpa only [Ascending, List.pairwise_map, hf] using h

end ScopeBlocks.Dict
