import Lox.Proofs.Methods.Preservation

/-!
# Tables of methods

The table of a class holds, for each name, the last of the methods of this name in the body of the
class. Only the methods that are named for it are initializers.
-/

namespace Lox

namespace Bindings

variable {α : Type}

theorem get?_foldl_set (pairs : List (String × α)) (b : Bindings α) (x : String) :
    get? x (pairs.foldl (fun b (name, value) => set name value b) b)
      = ((pairs.filter (·.1 == x)).getLast?.map Prod.snd).or (get? x b) := by
  induction pairs generalizing b with
  | nil => rfl
  | cons p pairs ih =>
      obtain ⟨name, value⟩ := p
      rw [List.foldl_cons, ih]
      by_cases h : name = x
      · subst h
        rw [List.filter_cons_of_pos (by simp), List.getLast?_cons, get?_set_self]
        cases (pairs.filter (·.1 == name)).getLast? <;> rfl
      · rw [List.filter_cons_of_neg (by simpa using h), get?_set_of_ne (Ne.symm h)]

/-- The bindings of pairs hold the last value of each name. -/
theorem get?_ofPairs (pairs : List (String × α)) (x : String) :
    get? x (ofPairs pairs) = (pairs.filter (·.1 == x)).getLast?.map Prod.snd := by
  rw [ofPairs, get?_foldl_set, get?_nil, Option.or_none]

end Bindings

/-- The last of the methods that has the name. -/
def Closure.lastNamed (x : String) (made : List Closure) : Option Closure :=
  (made.filter (·.decl.name.lexeme == x)).getLast?

theorem Closure.lastNamed_eq_none_iff {x : String} {made : List Closure} :
    lastNamed x made = none ↔ ∀ m ∈ made, m.decl.name.lexeme ≠ x := by
  simp [lastNamed]

theorem Closure.mem_of_lastNamed {x : String} {made : List Closure} {m : Closure}
    (h : lastNamed x made = some m) : m ∈ made ∧ m.decl.name.lexeme = x := by
  obtain ⟨hm, hname⟩ := List.mem_filter.mp (List.mem_of_getLast? h)
  exact ⟨hm, by simpa using hname⟩

namespace Machine.State

/-- The methods that are made for a class, in the order of its body. -/
def methodsMade (σ : State) (methods : List FunctionDecl) : List Closure :=
  (σ.makeMethods methods).1.map Prod.snd

theorem makeMethods_eq_map (σ : State) (methods : List FunctionDecl) :
    (σ.makeMethods methods).1
      = (σ.methodsMade methods).map fun m => (m.decl.name.lexeme, m) := by
  induction methods generalizing σ with
  | nil => rfl
  | cons m ms ih =>
      have hrest := ih σ.useIdentity
      unfold methodsMade at hrest ⊢
      rw [makeMethods]
      simp only [List.map_cons]
      rw [← hrest]
      rfl

/-- They are made of what the body declares. -/
theorem map_decl_methodsMade (σ : State) (methods : List FunctionDecl) :
    (σ.methodsMade methods).map Closure.decl = methods := by
  induction methods generalizing σ with
  | nil => rfl
  | cons m ms ih => exact congrArg (m :: ·) (ih σ.useIdentity)

/-- A method is an initializer if it is named for it. -/
theorem isInitializer_of_mem_methodsMade {σ : State} {methods : List FunctionDecl} {m : Closure}
    (h : m ∈ σ.methodsMade methods) : m.isInitializer = m.decl.isInitializer := by
  induction methods generalizing σ with
  | nil => cases h
  | cons decl ms ih =>
      rcases List.mem_cons.mp h with rfl | h
      · rfl
      · exact ih h

theorem get?_ofPairs_makeMethods (σ : State) (methods : List FunctionDecl) (x : String) :
    Bindings.get? x (.ofPairs (σ.makeMethods methods).1)
      = Closure.lastNamed x (σ.methodsMade methods) := by
  rw [Bindings.get?_ofPairs, makeMethods_eq_map, List.filter_map, Closure.lastNamed,
    List.getLast?_map, Option.map_map]
  exact Option.map_id'

end Machine.State

namespace Machine.Config

variable {final : Answer}

/-- The body of the class that the next step declares, and the methods that are made of it. -/
def methodsMade? : Config final → Option (List FunctionDecl × List Closure)
  | .exec (.classDecl name none methods) _ σ =>
      some (methods, (σ.define name.lexeme .nil).methodsMade methods)
  | .answer (a := .value) (.cls parent) (.push (.superclass name _ methods) _) σ =>
      let σ := σ.define name.lexeme .nil
      some (methods, (σ.enter [("super", .cls parent)] σ.chain).methodsMade methods)
  | _ => none

/-- The next step declares the class with this body, of which these methods are made. -/
structure DeclaresWith (c : Config final) (d : Class) (body : List FunctionDecl)
    (made : List Closure) : Prop where
  declares : c.declares? = some (d, d.superclass?)
  methods : c.methodsMade? = some (body, made)

theorem exists_declaresWith {c : Config final} {d : Class} {parent : Option Class}
    (h : c.declares? = some (d, parent)) : ∃ body made, c.DeclaresWith d body made := by
  have hparent := superclass?_of_declares? h
  subst hparent
  have hmade : ∃ body made, c.methodsMade? = some (body, made) := by
    unfold declares? at h
    split at h
    · exact ⟨_, _, rfl⟩
    · split at h
      · exact ⟨_, _, rfl⟩
      · cases h
    · cases h
  obtain ⟨body, made, hmade⟩ := hmade
  exact ⟨body, made, h, hmade⟩

namespace DeclaresWith

variable {c : Config final} {d : Class} {body : List FunctionDecl} {made : List Closure}

/-- The methods of the class are those that are made of its body. -/
theorem exists_state (h : c.DeclaresWith d body made) :
    ∃ σ : State, made = σ.methodsMade body
      ∧ d.methods = .ofPairs (σ.makeMethods body).1 := by
  obtain ⟨hdeclares, hmethods⟩ := h
  unfold declares? at hdeclares
  split at hdeclares
  · cases hmethods
    obtain ⟨hd, -⟩ := Prod.mk.inj (Option.some.inj hdeclares)
    exact ⟨_, rfl, by rw [← hd]; rfl⟩
  · split at hdeclares
    · cases hmethods
      obtain ⟨hd, -⟩ := Prod.mk.inj (Option.some.inj hdeclares)
      exact ⟨_, rfl, by rw [← hd]; rfl⟩
    · cases hdeclares
  · cases hdeclares

theorem map_decl (h : c.DeclaresWith d body made) : made.map Closure.decl = body := by
  obtain ⟨σ, rfl, -⟩ := h.exists_state
  exact σ.map_decl_methodsMade body

/-- The table of the class holds the last method of each name. -/
theorem get?_methods (h : c.DeclaresWith d body made) (x : String) :
    d.methods.get? x = Closure.lastNamed x made := by
  obtain ⟨σ, rfl, hmethods⟩ := h.exists_state
  rw [hmethods, σ.get?_ofPairs_makeMethods]

/-- A method is an initializer if it is found under the name of one. -/
theorem isInitializer_iff (h : c.DeclaresWith d body made) {x : String} {m : Closure}
    (hm : d.methods.get? x = some m) : m.isInitializer = true ↔ x = initializerName := by
  rw [h.get?_methods] at hm
  obtain ⟨hmem, hname⟩ := Closure.mem_of_lastNamed hm
  obtain ⟨σ, rfl, -⟩ := h.exists_state
  rw [State.isInitializer_of_mem_methodsMade hmem, FunctionDecl.isInitializer, beq_iff_eq, hname]

end DeclaresWith

end Machine.Config

end Lox
