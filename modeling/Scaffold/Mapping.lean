/-! # Mappings

A mapping is a list of named entries in insertion order. Writing to a name that is there keeps the
entry's place and takes the new content. -/

namespace Scaffold

/-- Named entries in insertion order. -/
abbrev Mapping (α : Type) := List (String × α)

namespace Mapping

variable {α : Type}

/-- The content under a name. -/
def get? (m : Mapping α) (name : String) : Option α := m.lookup name

/-- Writes an entry over the one of its name, or puts it at the end. -/
def put (m : Mapping α) (name : String) (a : α) : Mapping α :=
  match m with
  | [] => [(name, a)]
  | (n, b) :: rest => if n = name then (n, a) :: rest else (n, b) :: put rest name a

/-- The mapping of entries given in order. -/
def ofPairs (pairs : List (String × α)) : Mapping α :=
  pairs.foldl (fun m p => put m p.1 p.2) []

/-- The names, in order. -/
def names (m : Mapping α) : List String := m.map Prod.fst

theorem get?_put_self (m : Mapping α) (name : String) (a : α) :
    (put m name a).get? name = some a := by
  induction m with
  | nil => simp [put, get?]
  | cons p rest ih =>
    obtain ⟨n, b⟩ := p
    by_cases h : n = name
    · subst h; simp [put, get?]
    · simp only [put, if_neg h, get?, List.lookup_cons]
      rw [show (name == n) = false by simpa using fun e => h e.symm]
      exact ih

theorem get?_put_of_ne (m : Mapping α) {name other : String} (a : α) (h : other ≠ name) :
    (put m name a).get? other = m.get? other := by
  induction m with
  | nil => simp [put, get?, List.lookup_cons, show (other == name) = false by simpa using h]
  | cons p rest ih =>
    obtain ⟨n, b⟩ := p
    by_cases hn : n = name
    · subst hn
      simp [put, get?, List.lookup_cons, show (other == n) = false by simpa using h]
    · simp only [put, if_neg hn, get?, List.lookup_cons]
      split
      · rfl
      · exact ih

end Mapping

end Scaffold
