/-!
Tables from names to values, as a list of pairs in which each name stands once. `get?_insert` says
what a lookup finds after an insertion.
-/
namespace LoxLang

/-- A finite map from names, in the order in which they were first inserted. -/
structure Table (α : Type) where
  entries : List (String × α)

namespace Table

variable {α : Type}

def empty : Table α := ⟨[]⟩

/-- Looks a name up in a list of pairs. -/
def find? (name : String) : List (String × α) → Option α
  | [] => none
  | (key, value) :: rest => if key = name then some value else find? name rest

/-- Replaces the value of a name, or adds the name at the end. -/
def put (name : String) (value : α) : List (String × α) → List (String × α)
  | [] => [(name, value)]
  | (key, old) :: rest =>
    if key = name then (key, value) :: rest else (key, old) :: put name value rest

def get? (t : Table α) (name : String) : Option α :=
  find? name t.entries

def contains (t : Table α) (name : String) : Bool :=
  (t.get? name).isSome

/-- Gives a name a value, whether it had one or not. -/
def insert (t : Table α) (name : String) (value : α) : Table α :=
  ⟨put name value t.entries⟩

/-- The table of some pairs; of two for one name the later counts. -/
def ofList (pairs : List (String × α)) : Table α :=
  pairs.foldl (fun t (name, value) => t.insert name value) empty

theorem find?_put (entries : List (String × α)) (name other : String) (value : α) :
    find? other (put name value entries) =
      if name = other then some value else find? other entries := by
  induction entries with
  | nil => simp [put, find?]
  | cons entry rest ih =>
    obtain ⟨key, old⟩ := entry
    by_cases hk : key = name <;> by_cases ho : name = other <;> simp_all [put, find?]

@[simp] theorem get?_empty (name : String) : (empty : Table α).get? name = none := rfl

@[simp] theorem get?_insert (t : Table α) (name other : String) (value : α) :
    (t.insert name value).get? other = if name = other then some value else t.get? other :=
  find?_put t.entries name other value

end Table

end LoxLang
