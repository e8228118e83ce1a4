/-! Dictionaries keyed by text, held in ascending order of their keys; the order of texts is that of
their code points, which is that of their bytes. -/
namespace ScopeBlocks

structure Dict (α : Type u) where
  entries : List (String × α)
  deriving Repr

namespace Dict

variable {α : Type u} {β : Type v}

def empty : Dict α := ⟨[]⟩

instance : EmptyCollection (Dict α) := ⟨empty⟩
instance : Inhabited (Dict α) := ⟨empty⟩

instance [DecidableEq α] : DecidableEq (Dict α) := fun a b =>
  if h : a.entries = b.entries then .isTrue (by cases a; cases b; simp_all)
  else .isFalse (fun e => h (e ▸ rfl))

/-- The entry takes the place of one with its key, or the place that its key's order gives it. -/
def insertInto (key : String) (value : α) : List (String × α) → List (String × α)
  | [] => [(key, value)]
  | (k, v) :: rest =>
    if key = k then (key, value) :: rest
    else if key < k then (key, value) :: (k, v) :: rest
    else (k, v) :: insertInto key value rest

def insert (d : Dict α) (key : String) (value : α) : Dict α := ⟨insertInto key value d.entries⟩

def get? (d : Dict α) (key : String) : Option α := d.entries.lookup key

def contains (d : Dict α) (key : String) : Bool := (d.get? key).isSome

def isEmpty (d : Dict α) : Bool := d.entries.isEmpty

def keys (d : Dict α) : List String := d.entries.map Prod.fst

def values (d : Dict α) : List α := d.entries.map Prod.snd

/-- Of entries with one key the last counts. -/
def ofList (entries : List (String × α)) : Dict α :=
  entries.foldl (fun d e => d.insert e.1 e.2) empty

/-- The entries of the second dictionary added to the first, taking the place of its own. -/
def union (d e : Dict α) : Dict α := e.entries.foldl (fun d x => d.insert x.1 x.2) d

def singleton (key : String) (value : α) : Dict α := ⟨[(key, value)]⟩

@[simp] theorem get?_empty (key : String) : (empty : Dict α).get? key = none := rfl

theorem lookup_insertInto (key k : String) (value : α) (l : List (String × α)) :
    (insertInto key value l).lookup k = if k = key then some value else l.lookup k := by
  induction l with
  | nil => simp [insertInto, List.lookup_cons]; split <;> simp_all
  | cons e rest ih =>
    obtain ⟨a, v⟩ := e
    unfold insertInto
    split
    · subst_vars
      simp only [List.lookup_cons]
      split <;> split <;> simp_all
    · split
      · simp only [List.lookup_cons]
        split <;> split <;> simp_all
      · simp only [List.lookup_cons]
        split
        · split <;> simp_all
        · simp_all

theorem get?_insert (d : Dict α) (key k : String) (value : α) :
    (d.insert key value).get? k = if k = key then some value else d.get? k :=
  lookup_insertInto key k value d.entries

end Dict

end ScopeBlocks
