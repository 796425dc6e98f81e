import Lox.Proofs.Machine.Preservation

/-!
# Regions of the store

A region holds places of the store: the global frame, some frames and objects of a first state, and
everything that is created after it. A state is confined to a region if what its places hold leads
to places of the region only, and all other places are as they were in the first state. The
operations of a step keep a state confined if they begin inside the region.
-/

namespace Lox

namespace Machine

/-- Places of the store, among them the global frame and all that come after the state `σ₀`. -/
structure Region (σ₀ : State) where
  frames : FrameId → Prop
  objects : ObjectId → Prop
  frames_global : frames globalFrame
  frames_new : ∀ {f}, σ₀.frames.size ≤ f → frames f
  objects_new : ∀ {i}, σ₀.objects.size ≤ i → objects i

/-- All frames of the environment lie in the region. -/
def Region.Holds {σ₀ : State} (R : Region σ₀) (chain : Chain) : Prop :=
  ∀ f ∈ chain, R.frames f

end Machine

open Machine (State Region)

variable {σ₀ : State} {R : Region σ₀}

variable (R) in
/-- All methods of the class and of those above it are declared in the region. -/
def Class.Within : Class → Prop
  | .root _ _ methods => ∀ x m, methods.get? x = some m → R.Holds m.chain
  | .extending _ _ methods superclass =>
      (∀ x m, methods.get? x = some m → R.Holds m.chain) ∧ superclass.Within

variable (R) in
/-- The value leads into the region. -/
def Value.Within : Value → Prop
  | .function f => R.Holds f.chain
  | .cls c => c.Within R
  | .object i => R.objects i
  | _ => True

theorem Class.Within.findMethod? {c : Class} {x : String} {m : Closure} (hc : c.Within R)
    (hm : c.findMethod? x = some m) : R.Holds m.chain := by
  induction c with
  | root id name methods => exact hc x m hm
  | extending id name methods superclass ih =>
      rw [Class.findMethod?] at hm
      split at hm
      · exact hc.1 x m (by simp_all)
      · exact ih hc.2 hm

theorem Class.Within.make (id : Identity) (name : String) {superclass : Option Class}
    {methods : Bindings Closure} (hm : ∀ x m, methods.get? x = some m → R.Holds m.chain)
    (hs : ∀ c, superclass = some c → c.Within R) :
    (Class.make id name methods superclass).Within R := by
  cases superclass with
  | none => exact hm
  | some c => exact ⟨hm, hs c rfl⟩

theorem Value.IsScalar.within {v : Value} (hv : v.IsScalar) : v.Within R := by
  cases v <;> trivial

namespace Machine

theorem Region.Holds.mem {chain : Chain} {d : Nat} {f : FrameId} (h : R.Holds chain)
    (hf : chain[d]? = some f) : R.frames f :=
  h f (List.mem_of_getElem? hf)

theorem Region.Holds.cons {chain : Chain} {f : FrameId} (h : R.Holds chain) (hf : R.frames f) :
    R.Holds (f :: chain) := by
  intro g hg
  rcases List.mem_cons.mp hg with rfl | hg
  · exact hf
  · exact h g hg

namespace Region

/-- What the region holds leads into the region, and all else is as in the first state. -/
structure Confines (R : Region σ₀) (σ : State) : Prop where
  frames_le : σ₀.frames.size ≤ σ.frames.size
  objects_le : σ₀.objects.size ≤ σ.objects.size
  bindings : ∀ {f x v}, R.frames f → σ.frames.get? f x = some v → v.Within R
  classes : ∀ {i o}, R.objects i → σ.objects[i]? = some o → o.cls.Within R
  fields : ∀ {i o x v}, R.objects i → σ.objects[i]? = some o → o.fields.get? x = some v → v.Within R
  bindings_eq : ∀ {f}, ¬ R.frames f → σ.frames.bindings f = σ₀.frames.bindings f
  objects_eq : ∀ {i}, ¬ R.objects i → σ.objects[i]? = σ₀.objects[i]?

namespace Confines

variable {σ σ' : State} {v : Value} {f : FrameId} {x : String} {chain : Chain}

/-- Only the frames and the objects count. -/
theorem congr (h : R.Confines σ) (hf : σ'.frames = σ.frames) (ho : σ'.objects = σ.objects) :
    R.Confines σ' := by
  obtain ⟨h₁, h₂, h₃, h₄, h₅, h₆, h₇⟩ := h
  constructor
  · rwa [hf]
  · rwa [ho]
  · rwa [hf]
  · rwa [ho]
  · rwa [ho]
  · rwa [hf]
  · rwa [ho]

theorem push (h : R.Confines σ) {b : Bindings Value}
    (hb : ∀ x v, b.get? x = some v → v.Within R) :
    R.Confines { σ with frames := σ.frames.push b } := by
  constructor
  · have hle := h.frames_le
    rw [Frames.size_push]
    omega
  · exact h.objects_le
  · intro f x v hf hv
    rcases Frames.get?_push_eq_some hv with hv | ⟨-, hv⟩
    · exact h.bindings hf hv
    · exact hb x v hv
  · exact h.classes
  · exact h.fields
  · intro f hf
    have hlt : f < σ₀.frames.size := Nat.lt_of_not_le fun hle => hf (R.frames_new hle)
    rw [Frames.bindings_push_of_lt _ _ (Nat.lt_of_lt_of_le hlt h.frames_le)]
    exact h.bindings_eq hf
  · exact h.objects_eq

theorem defineIn (h : R.Confines σ) (hf : R.frames f) (x : String) (hv : v.Within R) :
    R.Confines (σ.defineIn f x v) := by
  constructor
  · rw [State.defineIn, Frames.size_define]
    exact h.frames_le
  · exact h.objects_le
  · intro g y w hg hw
    rcases Frames.get?_define_eq_some hw with hw | ⟨-, -, rfl⟩
    · exact h.bindings hg hw
    · exact hv
  · exact h.classes
  · exact h.fields
  · intro g hg
    have hne : g ≠ f := by
      rintro rfl
      exact hg hf
    rw [State.defineIn, Frames.bindings_define_of_ne _ hne]
    exact h.bindings_eq hg
  · exact h.objects_eq

theorem define (h : R.Confines σ) (hchain : R.Holds σ.chain) (x : String) (hv : v.Within R) :
    R.Confines (σ.define x v) ∧ (σ.define x v).chain = σ.chain := by
  unfold State.define
  split
  · exact ⟨h, rfl⟩
  · next f outer hσ =>
    refine ⟨h.defineIn (hchain f ?_) x hv, rfl⟩
    rw [hσ]
    exact List.mem_cons_self

/-- A new frame lies in the region. -/
theorem enter (h : R.Confines σ) {b : Bindings Value} (hb : ∀ x v, b.get? x = some v → v.Within R)
    (hchain : R.Holds chain) :
    R.Confines (σ.enter b chain) ∧ R.Holds (σ.enter b chain).chain :=
  ⟨(h.push hb).congr rfl rfl, hchain.cons (R.frames_new h.frames_le)⟩

theorem bind (h : R.Confines σ) {m : Closure} (hm : R.Holds m.chain) {object : ObjectId}
    (hobject : R.objects object) :
    R.Confines (σ.bind m object).2 ∧ R.Holds (σ.bind m object).1.chain
      ∧ (σ.bind m object).2.chain = σ.chain := by
  refine ⟨(h.push (b := [("this", .object object)]) fun x v hv => ?_).congr rfl rfl,
    hm.cons (R.frames_new h.frames_le), rfl⟩
  obtain rfl := Bindings.eq_of_get?_singleton hv
  exact hobject

theorem allocate (h : R.Confines σ) {c : Class} (hc : c.Within R) :
    R.Confines (σ.allocate c) ∧ R.objects σ.objects.size := by
  refine ⟨⟨h.frames_le, ?_, h.bindings, ?_, ?_, h.bindings_eq, ?_⟩, R.objects_new h.objects_le⟩
  · have hle := h.objects_le
    simp only [State.allocate, Array.size_push]
    omega
  · intro i o hi ho
    rcases State.getElem?_allocate_eq_some ho with ho | rfl
    · exact h.classes hi ho
    · exact hc
  · intro i o x v hi ho hv
    rcases State.getElem?_allocate_eq_some ho with ho | rfl
    · exact h.fields hi ho hv
    · simp at hv
  · intro i hi
    have hlt : i < σ₀.objects.size := Nat.lt_of_not_le fun hle => hi (R.objects_new hle)
    have hne : i ≠ σ.objects.size := Nat.ne_of_lt (Nat.lt_of_lt_of_le hlt h.objects_le)
    simp only [State.allocate, Array.getElem?_push, if_neg hne]
    exact h.objects_eq hi

theorem setField (h : R.Confines σ) {object : ObjectId} (hobject : R.objects object) (x : String)
    (hv : v.Within R) : R.Confines (σ.setField object x v) := by
  refine ⟨h.frames_le, ?_, h.bindings, ?_, ?_, h.bindings_eq, ?_⟩
  · simpa [State.setField] using h.objects_le
  · intro i o hi ho
    rcases State.getElem?_setField_eq_some ho with ho | ⟨o', ho', rfl⟩
    · exact h.classes hi ho
    · exact h.classes (o := o') hi ho'
  · intro i o y w hi ho hw
    rcases State.getElem?_setField_eq_some ho with ho | ⟨o', ho', rfl⟩
    · exact h.fields hi ho hw
    · rcases Bindings.get?_set_eq_some hw with hw | rfl
      · exact h.fields hi ho' hw
      · exact hv
  · intro i hi
    have hne : object ≠ i := by
      rintro rfl
      exact hi hobject
    simp only [State.setField, Array.getElem?_modify, if_neg hne]
    exact h.objects_eq hi

theorem getAt (h : R.Confines σ) (hchain : R.Holds chain) {d : Nat}
    (hv : σ.frames.getAt chain d x = some v) : v.Within R := by
  unfold Frames.getAt at hv
  split at hv
  · next f hf => exact h.bindings (hchain.mem hf) hv
  · cases hv

theorem holds_global : R.Holds globalChain := by
  intro f hf
  obtain rfl : f = globalFrame := by simpa [globalChain] using hf
  exact R.frames_global

theorem lookup? (h : R.Confines σ) (hchain : R.Holds σ.chain) {id : NodeId}
    (hv : σ.lookup? id x = some v) : v.Within R := by
  unfold State.lookup? at hv
  split at hv
  · exact h.getAt hchain hv
  · rw [globalChain, Frames.lookup_singleton] at hv
    exact h.bindings R.frames_global hv

/-- An assignment goes to a frame of the environment or to the global one. -/
theorem target? (hchain : R.Holds σ.chain) {id : NodeId} (hf : σ.target? id x = some f) :
    R.frames f := by
  unfold State.target? at hf
  split at hf
  · exact hchain.mem (Frames.binds_of_holderAt? hf).1
  · exact holds_global f (List.mem_of_find?_eq_some hf)

theorem property? (h : R.Confines σ) {object : ObjectId} (hobject : R.objects object)
    {property : State.Property} (hp : σ.property? object x = some property) :
    match property with
    | .field v => v.Within R
    | .method m => R.Holds m.chain := by
  unfold State.property? at hp
  split at hp
  · cases hp
  · next o ho =>
    split at hp
    · next v hv =>
      cases hp
      exact h.fields hobject ho hv
    · obtain ⟨m, hm, rfl⟩ := Option.map_eq_some_iff.mp hp
      exact (h.classes hobject ho).findMethod? hm

theorem superMethod (h : R.Confines σ) (hchain : R.Holds σ.chain) {id : NodeId}
    {keyword method : Token} {m : Closure} {object : ObjectId}
    (hm : σ.superMethod id keyword method = .ok (m, object)) :
    R.Holds m.chain ∧ R.objects object := by
  unfold State.superMethod at hm
  split at hm
  · cases hm
  · split at hm
    · cases hm
    · next c hc =>
      have hclass : Value.Within R (.cls c) := h.getAt hchain hc
      split at hm
      · cases hm
      · next i hthis =>
        have hobject : Value.Within R (.object i) := h.getAt hchain hthis
        split at hm
        · next found hfound =>
          cases hm
          exact ⟨Class.Within.findMethod? hclass hfound, hobject⟩
        · cases hm
      · cases hm
    · cases hm

theorem holds_of_mem_makeMethods (hchain : R.Holds σ.chain) {methods : List FunctionDecl}
    {p : String × Closure} (hp : p ∈ (σ.makeMethods methods).1) : R.Holds p.2.chain := by
  induction methods generalizing σ with
  | nil => cases hp
  | cons m ms ih =>
      rcases List.mem_cons.mp hp with rfl | hp
      · exact hchain
      · exact ih (σ := σ.useIdentity) hchain hp

theorem makeMethods (h : R.Confines σ) (hchain : R.Holds σ.chain) (methods : List FunctionDecl) :
    R.Confines (σ.makeMethods methods).2
      ∧ ∀ x m, (Bindings.ofPairs (σ.makeMethods methods).1).get? x = some m → R.Holds m.chain := by
  obtain ⟨n, hn⟩ := σ.makeMethods_eq methods
  refine ⟨?_, fun x m hm => ?_⟩
  · rw [hn]
    exact h.congr rfl rfl
  · obtain ⟨p, hp, rfl⟩ := List.mem_map.mp (Bindings.mem_of_get?_ofPairs hm)
    exact holds_of_mem_makeMethods hchain hp

theorem makeClass (h : R.Confines σ) (hchain : R.Holds σ.chain) (name : String)
    {superclass : Option Class} (hs : ∀ c, superclass = some c → c.Within R)
    (methods : List FunctionDecl) :
    R.Confines (σ.makeClass name superclass methods).2
      ∧ (σ.makeClass name superclass methods).1.Within R
      ∧ (σ.makeClass name superclass methods).2.chain = σ.chain := by
  cases superclass with
  | none =>
      obtain ⟨hmade, hm⟩ := h.makeMethods hchain methods
      exact ⟨hmade.congr rfl rfl, .make _ name hm hs, rfl⟩
  | some c =>
      have hb : ∀ x v, Bindings.get? x [("super", Value.cls c)] = some v → v.Within R := by
        intro x v hv
        obtain rfl := Bindings.eq_of_get?_singleton hv
        exact hs c rfl
      obtain ⟨hentered, hinside⟩ := h.enter hb hchain
      obtain ⟨hmade, hm⟩ := hentered.makeMethods hinside methods
      exact ⟨hmade.congr rfl rfl, .make _ name hm hs, rfl⟩

end Confines

end Region

end Machine

end Lox
