/-!
# Ordered maps from names

Objects and contexts keep their entries in the order in which the names first came up. `Fields α`
is the list of entries; `insert` gives a name a new value at its old place or at the end, so
every map built by it has each name once.
-/

namespace PipeExpr

/-- Entries of an ordered map. -/
abbrev Fields (α : Type) := List (String × α)

namespace Fields

variable {α β : Type}

/-- The value of a name. -/
def get? (fields : Fields α) (name : String) : Option α :=
  match fields with
  | [] => none
  | (key, value) :: rest => if key = name then some value else get? rest name

/-- Whether a name has a value. -/
def has (fields : Fields α) (name : String) : Bool := (fields.get? name).isSome

/-- The names, in order. -/
def names (fields : Fields α) : List String := fields.map Prod.fst

/-- Gives a name a value: at its place if it has one already, else at the end. -/
def insert (fields : Fields α) (name : String) (value : α) : Fields α :=
  match fields with
  | [] => [(name, value)]
  | (key, old) :: rest =>
    if key = name then (key, value) :: rest else (key, old) :: insert rest name value

/-- Whether names stand in strictly ascending order. -/
def ascending : List String → Bool
  | first :: second :: rest => first < second && ascending (second :: rest)
  | _ => true

/-- Whether no name comes up twice: sorted, the names ascend strictly. -/
def distinct (names : List String) : Bool :=
  ascending (names.mergeSort fun a b => decide (a ≤ b))

/-- The map of a list of entries. Of a name that comes up again the first place and the last value
count; entries with distinct names stay as they are. -/
def ofList (entries : List (String × α)) : Fields α :=
  if distinct (entries.map Prod.fst) then entries
  else entries.foldl (fun fields (name, value) => fields.insert name value) []

end Fields

end PipeExpr
