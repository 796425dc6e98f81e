/-!
# Bindings

A finite map from names to values, kept in the order in which the names were first bound. Binding a
name again replaces its value in place.
-/

namespace Lox

/-- Names with their values. -/
abbrev Bindings (α : Type) := List (String × α)

namespace Bindings

variable {α : Type}

def get? (name : String) : Bindings α → Option α
  | [] => none
  | (x, v) :: more => if x = name then some v else get? name more

/-- Bind a name to a value. -/
def set (name : String) (value : α) : Bindings α → Bindings α
  | [] => [(name, value)]
  | (x, v) :: more => if x = name then (x, value) :: more else (x, v) :: set name value more

/-- The bindings of names to values taken in order, a later one replacing an earlier one. -/
def ofPairs (pairs : List (String × α)) : Bindings α :=
  pairs.foldl (fun bindings (name, value) => set name value bindings) []

@[simp] theorem get?_nil (name : String) : get? name ([] : Bindings α) = none := rfl

@[simp] theorem get?_set_self (name : String) (value : α) (b : Bindings α) :
    get? name (set name value b) = some value := by
  induction b with
  | nil => simp [set, get?]
  | cons p more ih =>
    obtain ⟨x, v⟩ := p
    by_cases h : x = name <;> simp [set, get?, h, ih]

theorem get?_set_of_ne {name other : String} (h : other ≠ name) (value : α) (b : Bindings α) :
    get? other (set name value b) = get? other b := by
  induction b with
  | nil => simp [set, get?, Ne.symm h]
  | cons p more ih =>
    obtain ⟨x, v⟩ := p
    by_cases hx : x = name
    · subst hx
      simp [set, get?, Ne.symm h]
    · simp [set, get?, hx, ih]

end Bindings

end Lox
