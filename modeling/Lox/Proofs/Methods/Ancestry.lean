import Lox.Proofs.Methods.Held
import Lox.Proofs.Methods.Tables

/-!
# The ancestry of a class

A class extends a class that exists when it is declared. So the links to superclasses lead to earlier
and earlier classes, and come to an end. A method is found in the first class on the way whose body
declares one of its name.
-/

namespace Lox

open Machine (Answer Config State)

namespace Class

variable {d a b : Class} {j k : Nat} {x : String} {m : Closure}

/-- The class that this many links to superclasses lead to. -/
def ancestor? : Nat → Class → Option Class
  | 0, d => some d
  | k + 1, d => d.superclass?.bind (ancestor? k)

theorem ancestor?_add (h : d.ancestor? j = some a) (k : Nat) :
    d.ancestor? (j + k) = a.ancestor? k := by
  induction j generalizing d with
  | zero =>
      cases h
      rw [Nat.zero_add]
  | succ j ih =>
      obtain ⟨parent, hparent, h⟩ := Option.bind_eq_some_iff.mp h
      rw [Nat.add_right_comm, ancestor?, hparent]
      exact ih h

/-- The method of the nearest class that has one of the name in its own table. -/
theorem exists_nearest (h : d.findMethod? x = some m) :
    ∃ k a, d.ancestor? k = some a ∧ a.methods.get? x = some m
      ∧ ∀ j < k, ∀ b, d.ancestor? j = some b → b.methods.get? x = none := by
  induction d with
  | root id name methods => exact ⟨0, _, rfl, h, fun j hj => absurd hj (Nat.not_lt_zero j)⟩
  | extending id name methods parent ih =>
      rw [findMethod?] at h
      split at h
      · next hown =>
        cases h
        exact ⟨0, _, rfl, hown, fun j hj => absurd hj (Nat.not_lt_zero j)⟩
      · next hown =>
        obtain ⟨k, a, ha, hm, hnearer⟩ := ih h
        refine ⟨k + 1, a, ha, hm, fun j hj b hb => ?_⟩
        cases j with
        | zero =>
            cases hb
            exact hown
        | succ j => exact hnearer j (Nat.lt_of_succ_lt_succ hj) b hb

/-- A name that is not found is in no table on the way. -/
theorem get?_methods_eq_none (h : d.findMethod? x = none) (ha : d.ancestor? k = some a) :
    a.methods.get? x = none := by
  induction d generalizing k with
  | root id name methods =>
      cases k with
      | zero =>
          cases ha
          exact h
      | succ k => cases ha
  | extending id name methods parent ih =>
      rw [findMethod?] at h
      split at h
      · cases h
      · next hown =>
        cases k with
        | zero =>
            cases ha
            exact hown
        | succ k => exact ih h ha

variable {final : Answer} {moments moments' : Config final → Prop} {body : List FunctionDecl}
  {made : List Closure}

/-- The moment declares the class with this body, of which these methods are made. The class does not
exist yet, and what it extends does. -/
structure MadeAt (moment : Config final) (d : Class) (body : List FunctionDecl)
    (made : List Closure) : Prop where
  declares : moment.DeclaresWith d body made
  new : ¬ moment.Holds (.cls d)
  superclass : ∀ parent, d.superclass? = some parent →
    moment.Holds (.cls parent) ∧ parent.id < d.id

/-- The class was declared so at one of these moments. -/
def Made (moments : Config final → Prop) (d : Class) (body : List FunctionDecl)
    (made : List Closure) : Prop :=
  ∃ moment, moments moment ∧ d.MadeAt moment body made

theorem Made.map_decl (h : d.Made moments body made) : made.map Closure.decl = body := by
  obtain ⟨moment, -, hmade⟩ := h
  exact hmade.declares.map_decl

/-- The table of the class has the last method of each name. -/
theorem Made.get?_methods (h : d.Made moments body made) (x : String) :
    d.methods.get? x = Closure.lastNamed x made := by
  obtain ⟨moment, -, hmade⟩ := h
  exact hmade.declares.get?_methods x

theorem Made.get?_methods_eq_none_iff (h : d.Made moments body made) :
    d.methods.get? x = none ↔ ∀ f ∈ body, f.name.lexeme ≠ x := by
  rw [h.get?_methods, Closure.lastNamed_eq_none_iff, ← h.map_decl, List.forall_mem_map]

/-- The method is the last one of the name in the body of the class. -/
def DeclaresLast (moments : Config final → Prop) (x : String) (d : Class) (m : Closure) : Prop :=
  ∃ body made, d.Made moments body made ∧ made.map Closure.decl = body
    ∧ Closure.lastNamed x made = some m

/-- The body of the class has no method of the name. -/
def DeclaresNone (moments : Config final → Prop) (x : String) (d : Class) : Prop :=
  ∀ body made, d.Made moments body made → ∀ f ∈ body, f.name.lexeme ≠ x

/-- All classes that the links lead to were declared at these moments. -/
def Lineage (moments : Config final → Prop) (d : Class) : Prop :=
  ∀ k a, d.ancestor? k = some a → ∃ body made, a.Made moments body made

namespace Lineage

theorem mono (h : d.Lineage moments) (hmoments : ∀ m, moments m → moments' m) :
    d.Lineage moments' := by
  intro k a ha
  obtain ⟨body, made, moment, hmoment, hmade⟩ := h k a ha
  exact ⟨body, made, moment, hmoments moment hmoment, hmade⟩

theorem ancestor (h : d.Lineage moments) (ha : d.ancestor? j = some a) : a.Lineage moments :=
  fun k b hb => h (j + k) b ((ancestor?_add ha k).trans hb)

/-- Every link leads to a class that is older. -/
theorem id_add_le (h : d.Lineage moments) (ha : d.ancestor? k = some a) : a.id + k ≤ d.id := by
  induction k generalizing d with
  | zero =>
      cases ha
      exact Nat.le_refl _
  | succ k ih =>
      obtain ⟨parent, hparent, ha⟩ := Option.bind_eq_some_iff.mp ha
      obtain ⟨body, made, moment, -, hmade⟩ := h 0 d rfl
      have hlink : d.ancestor? 1 = some parent := by rw [ancestor?, hparent]; rfl
      exact Nat.lt_of_le_of_lt (ih (h.ancestor hlink) ha) (hmade.superclass parent hparent).2

theorem id_lt (h : d.Lineage moments) (hjk : j < k) (ha : d.ancestor? j = some a)
    (hb : d.ancestor? k = some b) : b.id < a.id := by
  obtain ⟨i, rfl⟩ := Nat.exists_eq_add_of_lt hjk
  rw [Nat.add_assoc, ancestor?_add ha] at hb
  exact Nat.lt_of_lt_of_le (Nat.lt_add_of_pos_right (Nat.succ_pos i)) ((h.ancestor ha).id_add_le hb)

/-- The links come to an end. -/
theorem ancestor?_eq_none (h : d.Lineage moments) : d.ancestor? (d.id + 1) = none := by
  cases ha : d.ancestor? (d.id + 1) with
  | none => rfl
  | some a =>
      have hle := Nat.le_trans (Nat.le_add_left _ _) (h.id_add_le ha)
      exact absurd hle (Nat.not_succ_le_self _)

/-- What is found is the last method of its name in the nearest class that declares one. -/
theorem nearest (h : d.Lineage moments) (hm : d.findMethod? x = some m) :
    ∃ k a, d.ancestor? k = some a ∧ a.DeclaresLast moments x m
      ∧ ∀ j < k, ∀ b, d.ancestor? j = some b → b.DeclaresNone moments x := by
  obtain ⟨k, a, ha, hown, hnearer⟩ := exists_nearest hm
  obtain ⟨body, made, hmade⟩ := h k a ha
  refine ⟨k, a, ha, ⟨body, made, hmade, hmade.map_decl, ?_⟩, fun j hj b hb body made hmade => ?_⟩
  · rw [← hmade.get?_methods, hown]
  · exact hmade.get?_methods_eq_none_iff.mp (hnearer j hj b hb)

/-- Nothing is found if no class on the way declares it, and only then. -/
theorem findMethod?_eq_none_iff (h : d.Lineage moments) :
    d.findMethod? x = none ↔ ∀ k a, d.ancestor? k = some a → a.DeclaresNone moments x := by
  constructor
  · intro hnone k a ha body made hmade
    exact hmade.get?_methods_eq_none_iff.mp (get?_methods_eq_none hnone ha)
  · intro hnone
    cases hm : d.findMethod? x with
    | none => rfl
    | some m =>
        obtain ⟨k, a, ha, ⟨body, made, hmade, hdecl, hlast⟩, -⟩ := h.nearest hm
        obtain ⟨hmem, hname⟩ := Closure.mem_of_lastNamed hlast
        have hbody : m.decl ∈ body := hdecl ▸ List.mem_map_of_mem hmem
        exact absurd hname (hnone k a ha body made hmade m.decl hbody)

end Lineage

end Class

namespace Machine

variable {final : Answer} {moments : Config final → Prop} {σ : State}

/-- The identities of the classes that are held are used up, and all that they extend were declared at
these moments. -/
def State.MakesClasses (moments : Config final → Prop) (holds : Value → Prop) (σ : State) : Prop :=
  ∀ d, holds (.cls d) → d.id < σ.nextIdentity ∧ d.Lineage moments

/-- A class takes the next identity that is left when its methods are made. -/
theorem State.id_makeClass (σ : State) (name : String) (superclass : Option Class)
    (methods : List FunctionDecl) :
    σ.nextIdentity ≤ (σ.makeClass name superclass methods).1.id
      ∧ (σ.makeClass name superclass methods).2.nextIdentity
        = (σ.makeClass name superclass methods).1.id + 1 := by
  cases superclass with
  | none =>
      have hgrows := (State.Grows.refl (fun _ => True) σ).makeMethods methods
      exact ⟨hgrows.nextIdentity_le, rfl⟩
  | some parent =>
      have hgrows := (State.Grows.refl (fun _ => True) σ).enter [("super", .cls parent)] σ.chain
      exact ⟨(hgrows.makeMethods methods).nextIdentity_le, rfl⟩

namespace Config

variable {c c' : Config final} {d : Class} {parent : Option Class}

theorem id_declareClass (name : Token) (superclass : Option Class) (methods : List FunctionDecl)
    (stack : Stack final .flow) :
    σ.nextIdentity ≤ ((σ.define name.lexeme .nil).makeClass name.lexeme superclass methods).1.id
      ∧ ((σ.define name.lexeme .nil).makeClass name.lexeme superclass methods).1.id
        < (declareClass name superclass methods stack σ).state.nextIdentity := by
  obtain ⟨hle, hnext⟩ := (σ.define name.lexeme .nil).id_makeClass name.lexeme superclass methods
  have hstate : (declareClass name superclass methods stack σ).state.nextIdentity
      = ((σ.define name.lexeme .nil).makeClass name.lexeme superclass methods).2.nextIdentity := by
    unfold declareClass
    dsimp only
    split <;> rfl
  have hdefine : (σ.define name.lexeme .nil).nextIdentity = σ.nextIdentity := by
    unfold State.define
    split <;> rfl
  rw [hstate, hnext]
  exact ⟨hdefine ▸ hle, Nat.lt_succ_self _⟩

/-- The class that is declared is new. -/
theorem id_of_declares? (h : c.declares? = some (d, parent)) (hstep : c.step = .inl c') :
    c.state.nextIdentity ≤ d.id ∧ d.id < c'.state.nextIdentity := by
  unfold declares? at h
  split at h
  · next name methods stack σ =>
    cases h
    cases hstep
    exact id_declareClass name none methods stack
  · next v name blame methods stack σ =>
    split at h
    · next superclass =>
      cases h
      cases hstep
      exact id_declareClass name (some superclass) methods stack
    · cases h
  · cases h

/-- What a class extends is held when it is declared. -/
theorem holds_superclass {p : Class} (h : c.declares? = some (d, some p)) : c.Holds (.cls p) := by
  unfold declares? at h
  split at h
  · cases h
  · split at h
    · cases h
      exact .inr (.inr rfl)
    · cases h
  · cases h

end Config

/-- A step keeps this up, where the moment itself joins those at which classes were declared. -/
theorem State.MakesClasses.step {c c' : Config final} (h : c.state.MakesClasses moments c.Holds)
    (hstep : c.step = .inl c') :
    c'.state.MakesClasses (fun m => moments m ∨ m = c) c'.Holds := by
  have hle : c.state.nextIdentity ≤ c'.state.nextIdentity :=
    (Config.grows_of_step (W := fun _ => True) hstep fun _ _ => trivial).nextIdentity_le
  intro d hd
  rcases hd.of_step hstep with hd | hfresh | ⟨d', parent, hclass, hdeclares⟩
  · obtain ⟨hid, hlineage⟩ := h d hd
    exact ⟨Nat.lt_of_lt_of_le hid hle, hlineage.mono fun m => .inl⟩
  · exact hfresh.elim
  · cases hclass
    obtain ⟨hnew, hused⟩ := Config.id_of_declares? hdeclares hstep
    obtain ⟨body, made, hwith⟩ := Config.exists_declaresWith hdeclares
    refine ⟨hused, fun k a ha => ?_⟩
    have hparent := Config.superclass?_of_declares? hdeclares
    cases k with
    | zero =>
        cases ha
        refine ⟨body, made, c, .inr rfl, hwith, fun hheld => ?_, fun p hp => ?_⟩
        · exact absurd (h _ hheld).1 (Nat.not_lt_of_le hnew)
        · obtain rfl := hparent.symm.trans hp
          have hheld := Config.holds_superclass hdeclares
          exact ⟨hheld, Nat.lt_of_lt_of_le (h p hheld).1 hnew⟩
    | succ k =>
        obtain ⟨p, hp, ha⟩ := Option.bind_eq_some_iff.mp ha
        obtain rfl := hparent.symm.trans hp
        have hlineage := (h p (Config.holds_superclass hdeclares)).2
        exact hlineage.mono (fun m => .inl) k a ha

end Machine

end Lox
