/-!
# Maps in ascending key order

A finite map is the list of its entries in ascending order of the keys, each key
once. The list is canonical: maps built by the operations below are equal when
they give the same answers.
-/

namespace Hinting

structure SortedMap (α β : Type) where
  entries : List (α × β) := []
deriving DecidableEq

/-- A finite set is a map that says nothing about its keys. -/
abbrev SortedSet (α : Type) := SortedMap α Unit

namespace SortedMap

variable {α β γ : Type}

def empty : SortedMap α β := {}

/-- The keys in ascending order. -/
def keys (m : SortedMap α β) : List α :=
  m.entries.map Prod.fst

def size (m : SortedMap α β) : Nat :=
  m.entries.length

def isEmpty (m : SortedMap α β) : Bool :=
  m.entries.isEmpty

/-- Changes every value and no key. -/
def mapValues (change : β → γ) (m : SortedMap α β) : SortedMap α γ :=
  ⟨m.entries.map fun (key, value) => (key, change value)⟩

variable [Ord α]

/-- Replaces the value at `key` by what `change` makes of it, adding the key in
its place when it is missing. -/
def updateEntries (key : α) (change : Option β → β) : List (α × β) → List (α × β)
  | [] => [(key, change none)]
  | (other, value) :: rest =>
    match compare key other with
    | .lt => (key, change none) :: (other, value) :: rest
    | .eq => (key, change (some value)) :: rest
    | .gt => (other, value) :: updateEntries key change rest

def update (m : SortedMap α β) (key : α) (change : Option β → β) : SortedMap α β :=
  ⟨updateEntries key change m.entries⟩

def insert (m : SortedMap α β) (key : α) (value : β) : SortedMap α β :=
  m.update key fun _ => value

def get? (m : SortedMap α β) (key : α) : Option β :=
  (m.entries.find? fun entry => compare key entry.1 == .eq).map Prod.snd

def contains (m : SortedMap α β) (key : α) : Bool :=
  (m.get? key).isSome

end SortedMap

namespace SortedSet

variable {α : Type} [Ord α]

def add (s : SortedSet α) (a : α) : SortedSet α :=
  s.insert a ()

def ofList (as : List α) : SortedSet α :=
  as.foldl add SortedMap.empty

/-- The elements of both sets. -/
def union (s t : SortedSet α) : SortedSet α :=
  t.keys.foldl add s

end SortedSet

end Hinting
