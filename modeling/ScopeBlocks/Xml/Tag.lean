import ScopeBlocks.Dict
import ScopeBlocks.Xml.Entity

/-! Tags: a name and attributes. Attributes are read one after another, each with its entities, and the
first wrong one is reported by its place in the tag. -/
namespace ScopeBlocks.Xml

open Text (byteLength length_dropWhile_le)

def isBlank (c : Char) : Bool := c == ' ' || c == '\t' || c == '\r' || c == '\n'

structure Tag where
  content : List Char
  deriving DecidableEq, Repr

namespace Tag

def nameChars (t : Tag) : List Char := t.content.takeWhile (!isBlank ·)

def name (t : Tag) : String := String.ofList t.nameChars

def inKey (c : Char) : Bool := c != '=' && !isBlank c

/-- The offset at which a rest of a content begins. -/
def offsetOf (total : Nat) (rest : List Char) : Nat := total - byteLength rest

/-- The value at the head of a text between quotes, and what follows it. -/
def quotedValue (total : Nat) : List Char → Except Error (List Char × List Char)
  | [] => .error (.attribute (.noValue total))
  | q :: body =>
    if q = '"' ∨ q = '\'' then
      match body.dropWhile (· != q) with
      | _ :: rest => .ok (body.takeWhile (· != q), rest)
      | [] => .error (.attribute (.notClosed total q))
    else .error (.attribute (.noQuote (offsetOf total (q :: body))))

theorem quotedValue_length {total : Nat} {s value rest : List Char}
    (h : quotedValue total s = .ok (value, rest)) : rest.length < s.length := by
  unfold quotedValue at h
  split at h
  · simp at h
  · rename_i q body
    split at h
    · split at h
      · rename_i c r hr
        simp only [Except.ok.injEq, Prod.mk.injEq] at h
        obtain ⟨_, rfl⟩ := h
        have := length_dropWhile_le (· != q) body
        rw [hr] at this
        simp only [List.length_cons] at *
        omega
      · simp at h
    · simp at h

def afterEquals (total : Nat) (s : List Char) : Except Error (List Char) :=
  match s.dropWhile isBlank with
  | '=' :: rest => .ok (rest.dropWhile isBlank)
  | rest => .error (.attribute (.noEquals (offsetOf total rest)))

theorem afterEquals_length {total : Nat} {s rest : List Char} (h : afterEquals total s = .ok rest) :
    rest.length < s.length := by
  unfold afterEquals at h
  split at h
  · rename_i r hr
    simp only [Except.ok.injEq] at h
    subst h
    have h1 := length_dropWhile_le isBlank r
    have h2 := length_dropWhile_le isBlank s
    rw [hr] at h2
    simp only [List.length_cons] at *
    omega
  · simp at h

/-- A key and what follows its equals sign, unless an earlier attribute has it. The first character
belongs to the key whatever it is. -/
def newKey (total : Nat) (seen : List (List Char × Nat)) (c : Char) (s : List Char) :
    Except Error (List Char × List Char) :=
  match afterEquals total (s.dropWhile inKey) with
  | .error e => .error e
  | .ok rest =>
    let key := c :: s.takeWhile inKey
    match seen.lookup key with
    | some first => .error (.attribute (.duplicate (offsetOf total (c :: s)) first))
    | none => .ok (key, rest)

theorem newKey_length {total : Nat} {seen : List (List Char × Nat)} {c : Char}
    {s key rest : List Char} (h : newKey total seen c s = .ok (key, rest)) :
    rest.length < s.length := by
  unfold newKey at h
  split at h
  · simp at h
  · rename_i r hr
    dsimp only at h
    split at h
    · simp at h
    · simp only [Except.ok.injEq, Prod.mk.injEq] at h
      rw [← h.2]
      exact Nat.lt_of_lt_of_le (afterEquals_length hr) (length_dropWhile_le _ _)

/-- The attributes in the rest of a content whose length in bytes is `total`. -/
def attributesFrom (total : Nat) (seen : List (List Char × Nat)) (s : List Char) :
    Except Error (List (String × String)) :=
  match _hs : s.dropWhile isBlank with
  | [] => .ok []
  | c :: rest =>
    match _hk : newKey total seen c rest with
    | .error e => .error e
    | .ok (key, r) =>
      match _hv : quotedValue total r with
      | .error e => .error e
      | .ok (raw, r) =>
        match unescape raw with
        | .error e => .error (.entity e)
        | .ok value => do
          let more ← attributesFrom total ((key, offsetOf total (c :: rest)) :: seen) r
          return (String.ofList key, String.ofList value) :: more
termination_by s.length
decreasing_by
  have h1 := length_dropWhile_le isBlank s
  rw [_hs, List.length_cons] at h1
  have h2 := newKey_length _hk
  have h3 := quotedValue_length _hv
  omega

def attributes (t : Tag) : Except Error (Dict String) := do
  let pairs ← attributesFrom (byteLength t.content) [] (t.content.dropWhile (!isBlank ·))
  return .ofList pairs

end Tag

end ScopeBlocks.Xml
