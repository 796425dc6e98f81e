import Mathlib.Order.Nat
import Lox.Frames

/-!
# Extensions of a store of frames

What a step does to the store, as seen from an environment that is not the current one: frames are
added, bindings change their values, but no name is ever unbound, and no frame below the current
one gets a new name.
-/

namespace Lox

namespace Bindings

variable {α : Type} {x : String} {v : α}

theorem eq_of_get?_singleton {name : String} {value : α}
    (h : get? x [(name, value)] = some v) : v = value := by
  simp only [get?] at h
  split at h
  · exact (Option.some.inj h).symm
  · cases h

theorem isSome_get?_set (name : String) (value : α) (b : Bindings α) :
    (get? x (set name value b)).isSome = (x == name || (get? x b).isSome) := by
  by_cases h : x = name
  · subst h
    simp
  · simp [get?_set_of_ne h, h]

theorem get?_set_eq_some {name : String} {value : α} {b : Bindings α}
    (h : get? x (set name value b) = some v) : get? x b = some v ∨ v = value := by
  by_cases hx : x = name
  · subst hx
    rw [get?_set_self, Option.some.injEq] at h
    exact .inr h.symm
  · exact .inl (by rwa [get?_set_of_ne hx] at h)

theorem isSome_get?_foldl_set (pairs : List (String × α)) (b : Bindings α) :
    (get? x (pairs.foldl (fun b (name, value) => set name value b) b)).isSome
      = ((get? x b).isSome || (pairs.map Prod.fst).contains x) := by
  induction pairs generalizing b with
  | nil => simp
  | cons p pairs ih =>
      rw [List.foldl_cons, ih, isSome_get?_set, List.map_cons, List.contains_cons, Bool.or_assoc,
        Bool.or_left_comm]

theorem isSome_get?_ofPairs (pairs : List (String × α)) :
    (get? x (ofPairs pairs)).isSome = (pairs.map Prod.fst).contains x := by
  rw [ofPairs, isSome_get?_foldl_set, get?_nil, Option.isSome_none, Bool.false_or]

theorem get?_foldl_set_eq_some {pairs : List (String × α)} {b : Bindings α}
    (hv : get? x (pairs.foldl (fun b (name, value) => set name value b) b) = some v) :
    get? x b = some v ∨ v ∈ pairs.map Prod.snd := by
  induction pairs generalizing b with
  | nil => exact .inl hv
  | cons p pairs ih =>
      rcases ih hv with hb | hmem
      · rcases get?_set_eq_some hb with hb | rfl
        · exact .inl hb
        · exact .inr List.mem_cons_self
      · exact .inr (List.mem_cons_of_mem _ hmem)

theorem mem_of_get?_ofPairs {pairs : List (String × α)} (hv : get? x (ofPairs pairs) = some v) :
    v ∈ pairs.map Prod.snd :=
  (get?_foldl_set_eq_some hv).resolve_left nofun

end Bindings

namespace Frames

variable {α : Type} {fs fs' fs'' : Frames α} {f g h : Nat} {x y : String} {v w : α}

theorem bindings_eq_nil (hf : fs.size ≤ f) : fs.bindings f = [] := by
  simp only [size] at hf
  simp [bindings, hf]

theorem binds_of_get? (hv : fs.get? f x = some v) : fs.binds f x = true := by
  simp [binds, hv]

theorem lt_size_of_binds (hb : fs.binds f x = true) : f < fs.size := by
  by_contra hf
  simp [binds, get?, bindings_eq_nil (Nat.le_of_not_lt hf)] at hb

theorem get?_push_of_lt (b : Bindings α) (hf : f < fs.size) :
    (fs.push b).get? f x = fs.get? f x := by
  simp only [get?, bindings_push_of_lt fs b hf]

@[simp] theorem get?_push_size (b : Bindings α) :
    (fs.push b).get? fs.size x = b.get? x := by
  simp only [get?, bindings_push_size]

theorem get?_push_eq_some {b : Bindings α} (hv : (fs.push b).get? f x = some v) :
    fs.get? f x = some v ∨ f = fs.size ∧ b.get? x = some v := by
  have hlt : f < fs.size + 1 := by simpa using lt_size_of_binds (binds_of_get? hv)
  rcases Nat.lt_succ_iff_lt_or_eq.mp hlt with hf | rfl
  · exact .inl (by rwa [get?_push_of_lt b hf] at hv)
  · exact .inr ⟨rfl, by rwa [get?_push_size] at hv⟩

theorem get?_define_self (hf : f < fs.size) : (fs.define f x v).get? f x = some v := by
  simp only [get?, bindings_define_self fs hf, Bindings.get?_set_self]

theorem get?_define_of_ne (hne : g ≠ f ∨ y ≠ x) : (fs.define f x v).get? g y = fs.get? g y := by
  by_cases hg : g = f
  · subst hg
    have hy : y ≠ x := hne.resolve_left (fun h => h rfl)
    by_cases hlt : g < fs.size
    · simp only [get?, bindings_define_self fs hlt, Bindings.get?_set_of_ne hy]
    · have hle := Nat.le_of_not_lt hlt
      rw [get?, get?, bindings_eq_nil hle, bindings_eq_nil (by simpa using hle)]
  · simp only [get?, bindings_define_of_ne fs hg]

theorem get?_define_eq_some (hw : (fs.define f x v).get? g y = some w) :
    fs.get? g y = some w ∨ g = f ∧ y = x ∧ w = v := by
  by_cases hne : g ≠ f ∨ y ≠ x
  · exact .inl (by rwa [get?_define_of_ne hne] at hw)
  · obtain ⟨rfl, rfl⟩ : g = f ∧ y = x := by simpa [not_or] using hne
    have hlt : g < fs.size := by simpa using lt_size_of_binds (binds_of_get? hw)
    rw [get?_define_self hlt, Option.some.injEq] at hw
    exact .inr ⟨rfl, rfl, hw.symm⟩

theorem binds_define_self (hf : f < fs.size) : (fs.define f x v).binds f x = true :=
  binds_of_get? (get?_define_self hf)

theorem binds_define_of_ne (hne : g ≠ f ∨ y ≠ x) :
    (fs.define f x v).binds g y = fs.binds g y := by
  simp only [binds, get?_define_of_ne hne]

/-- The second store has all the frames and bound names of the first, and no new names in frames
below `h`. -/
structure Extends (h : Nat) (fs fs' : Frames α) : Prop where
  size_le : fs.size ≤ fs'.size
  binds : ∀ {f x}, fs.binds f x = true → fs'.binds f x = true
  below : ∀ {f x}, f < h → fs'.binds f x = true → fs.binds f x = true

theorem Extends.refl (h : Nat) (fs : Frames α) : Extends h fs fs :=
  ⟨Nat.le_refl _, id, fun _ hb => hb⟩

/-- A new frame is above all others. -/
theorem extends_push (fs : Frames α) (b : Bindings α) : Extends fs.size fs (fs.push b) where
  size_le := by simp
  binds := fun {f x} hb => by
    simpa only [Frames.binds, get?_push_of_lt b (lt_size_of_binds hb)] using hb
  below := fun {f x} hf hb => by
    simpa only [Frames.binds, get?_push_of_lt b hf] using hb

theorem binds_define (hb : fs.binds g y = true) : (fs.define f x v).binds g y = true := by
  by_cases hne : g ≠ f ∨ y ≠ x
  · rwa [binds_define_of_ne hne]
  · obtain ⟨rfl, rfl⟩ : g = f ∧ y = x := by simpa [not_or] using hne
    exact binds_define_self (lt_size_of_binds hb)

/-- Binding a name changes no frame below. -/
theorem extends_define (fs : Frames α) (f : FrameId) (x : String) (v : α) :
    Extends f fs (fs.define f x v) where
  size_le := by simp
  binds := binds_define
  below := fun {g y} hg hb => by rwa [binds_define_of_ne (.inl (Nat.ne_of_lt hg))] at hb

/-- Assigning to a bound name binds no new one. -/
theorem extends_define_of_binds (h : Nat) (hb : fs.binds f x = true) :
    Extends h fs (fs.define f x v) where
  size_le := by simp
  binds := binds_define
  below := fun {g y} _ hd => by
    by_cases hne : g ≠ f ∨ y ≠ x
    · rwa [binds_define_of_ne hne] at hd
    · obtain ⟨rfl, rfl⟩ : g = f ∧ y = x := by simpa [not_or] using hne
      exact hb

theorem get?_of_getAt {chain : Chain} {d : Nat} (hv : fs.getAt chain d x = some v) :
    ∃ f, chain[d]? = some f ∧ fs.get? f x = some v := by
  unfold getAt at hv
  split at hv
  · exact ⟨_, by assumption, hv⟩
  · simp at hv

theorem lookup_singleton : fs.lookup [f] x = fs.get? f x := by
  simp only [lookup]
  cases fs.get? f x <;> rfl

theorem get?_of_lookup {chain : Chain} (hv : fs.lookup chain x = some v) :
    ∃ f ∈ chain, fs.get? f x = some v := by
  induction chain with
  | nil => simp [lookup] at hv
  | cons f chain ih =>
      rw [lookup] at hv
      split at hv
      · exact ⟨f, List.mem_cons_self, by simp_all⟩
      · obtain ⟨g, hg, hgv⟩ := ih hv
        exact ⟨g, List.mem_cons_of_mem f hg, hgv⟩

theorem binds_of_holder? {chain : Chain} (hf : fs.holder? chain x = some f) :
    fs.binds f x = true := by
  simpa using List.find?_some (p := fun f => fs.binds f x) hf

theorem binds_of_holderAt? {chain : Chain} {d : Nat} (hf : fs.holderAt? chain d x = some f) :
    chain[d]? = some f ∧ fs.binds f x = true := by
  unfold holderAt? at hf
  split at hf
  · split at hf
    · simp_all
    · simp at hf
  · simp at hf

end Frames

end Lox
