import Mathlib.Tactic.Common
import Lox.Machine.Step
import Lox.Proofs.Relabelling.Trees

/-!
# Relabelling states

A relabelling goes through everything that holds a piece of syntax: closures, the classes and values
made of them, the frames and objects that hold these, and pending tasks. Distances are known by the
identities of nodes, so that a state gets a new table of them. Every operation on states commutes
with a relabelling, as long as the new table has at the new identity of a node what the old one has
at the old.
-/

namespace Lox

namespace Bindings

variable {α β : Type} (f : α → β)

/-- The bindings with another value for each name. -/
def mapValues (b : Bindings α) : Bindings β :=
  b.map fun (x, v) => (x, f v)

theorem get?_mapValues (x : String) (b : Bindings α) :
    get? x (b.mapValues f) = (get? x b).map f := by
  induction b with
  | nil => rfl
  | cons p b ih =>
      obtain ⟨y, v⟩ := p
      by_cases h : y = x
      · simp [mapValues, get?, h]
      · simpa [mapValues, get?, h] using ih

theorem set_mapValues (x : String) (v : α) (b : Bindings α) :
    set x (f v) (b.mapValues f) = (set x v b).mapValues f := by
  induction b with
  | nil => rfl
  | cons p b ih =>
      obtain ⟨y, w⟩ := p
      by_cases h : y = x
      · simp [mapValues, set, h]
      · simpa [mapValues, set, h] using ih

theorem mapValues_id (b : Bindings α) : b.mapValues id = b :=
  List.map_id b

theorem ofPairs_mapValues (pairs : List (String × α)) :
    ofPairs (mapValues f pairs) = (ofPairs pairs).mapValues f := by
  have h : ∀ b : Bindings α, (mapValues f pairs).foldl (fun b (x, v) => set x v b) (b.mapValues f)
      = (pairs.foldl (fun b (x, v) => set x v b) b).mapValues f := by
    induction pairs with
    | nil => exact fun b => rfl
    | cons p pairs ih =>
        intro b
        rw [List.foldl_cons, ← ih, ← set_mapValues]
        rfl
  exact h []

end Bindings

namespace Frames

variable {α β : Type} (f : α → β) (fs : Frames α)

/-- The frames with other values. -/
def map : Frames β :=
  ⟨fs.cells.map (Bindings.mapValues f)⟩

theorem map_id : fs.map id = fs := by
  have hid : Bindings.mapValues (id : α → α) = id := funext Bindings.mapValues_id
  rw [map, hid, Array.map_id]

@[simp] theorem size_map : (fs.map f).size = fs.size := by
  simp [map, size]

theorem bindings_map (g : FrameId) : (fs.map f).bindings g = (fs.bindings g).mapValues f := by
  simp only [map, bindings, Array.getElem?_map]
  cases fs.cells[g]? <;> rfl

@[simp] theorem get?_map (g : FrameId) (x : String) :
    (fs.map f).get? g x = (fs.get? g x).map f := by
  rw [get?, get?, bindings_map, Bindings.get?_mapValues]

@[simp] theorem binds_map (g : FrameId) (x : String) : (fs.map f).binds g x = fs.binds g x := by
  rw [binds, binds, get?_map, Option.isSome_map]

theorem push_map (b : Bindings α) : (fs.map f).push (b.mapValues f) = (fs.push b).map f := by
  simp [map, push]

theorem define_map (g : FrameId) (x : String) (v : α) :
    (fs.map f).define g x (f v) = (fs.define g x v).map f := by
  have hcell : ∀ i : Nat,
      ((fs.map f).define g x (f v)).cells[i]? = ((fs.define g x v).map f).cells[i]? := by
    intro i
    simp only [map, define, Array.getElem?_modify, Array.getElem?_map]
    split
    · cases fs.cells[i]? with
      | none => rfl
      | some b => exact congrArg some (Bindings.set_mapValues f x v b)
    · rfl
  exact congrArg Frames.mk (Array.ext_getElem? hcell)

@[simp] theorem lookup_map (chain : Chain) (x : String) :
    (fs.map f).lookup chain x = (fs.lookup chain x).map f := by
  induction chain with
  | nil => rfl
  | cons g chain ih =>
      rw [lookup, lookup, get?_map, ih]
      cases fs.get? g x <;> rfl

@[simp] theorem getAt_map (chain : Chain) (d : Nat) (x : String) :
    (fs.map f).getAt chain d x = (fs.getAt chain d x).map f := by
  unfold getAt
  cases chain[d]? with
  | none => rfl
  | some g => exact get?_map f fs g x

@[simp] theorem holder?_map (chain : Chain) (x : String) :
    (fs.map f).holder? chain x = fs.holder? chain x := by
  simp [holder?]

@[simp] theorem holderAt?_map (chain : Chain) (d : Nat) (x : String) :
    (fs.map f).holderAt? chain d x = fs.holderAt? chain d x := by
  simp [holderAt?]

end Frames

/-! ## Values -/

section Values

variable (φ : Relabelling)

def Closure.relabel (f : Closure) : Closure :=
  { f with decl := f.decl.relabel φ }

def Class.relabel : Class → Class
  | .root id name methods => .root id name (methods.mapValues (Closure.relabel φ))
  | .extending id name methods superclass =>
      .extending id name (methods.mapValues (Closure.relabel φ)) superclass.relabel

def Value.relabel : Value → Value
  | .function f => .function (f.relabel φ)
  | .cls c => .cls (c.relabel φ)
  | v => v

def Object.relabel (o : Object) : Object :=
  ⟨o.cls.relabel φ, o.fields.mapValues (Value.relabel φ)⟩

@[simp] theorem Class.relabel_name (c : Class) : (c.relabel φ).name = c.name := by
  cases c <;> rfl

@[simp] theorem Class.relabel_id (c : Class) : (c.relabel φ).id = c.id := by
  cases c <;> rfl

theorem Class.relabel_make (id : Identity) (name : String) (methods : Bindings Closure)
    (superclass : Option Class) :
    Class.make id name (methods.mapValues (Closure.relabel φ)) (superclass.map (Class.relabel φ))
      = (Class.make id name methods superclass).relabel φ := by
  cases superclass <;> rfl

@[simp] theorem Class.findMethod?_relabel (x : String) (c : Class) :
    (c.relabel φ).findMethod? x = (c.findMethod? x).map (Closure.relabel φ) := by
  induction c with
  | root id name methods => exact Bindings.get?_mapValues _ x methods
  | extending id name methods superclass ih =>
      rw [Class.relabel, findMethod?, findMethod?, Bindings.get?_mapValues, ih]
      cases methods.get? x <;> rfl

@[simp] theorem Class.relabel_arity (c : Class) : (c.relabel φ).arity = c.arity := by
  rw [Class.arity, Class.arity, Class.findMethod?_relabel]
  cases c.findMethod? initializerName with
  | none => rfl
  | some init => exact FunctionDecl.relabel_arity φ init.decl

@[simp] theorem Value.relabel_truthy (v : Value) : (v.relabel φ).truthy = v.truthy := by
  cases v <;> rfl

@[simp] theorem Value.relabel_equal (v w : Value) :
    (v.relabel φ).equal (w.relabel φ) = v.equal w := by
  cases v <;> cases w <;> simp [Value.relabel, Value.equal, Closure.relabel]

@[simp] theorem closure_relabel_refl : Closure.relabel .refl = id := by
  funext f
  rw [Closure.relabel, FunctionDecl.relabel_refl]
  rfl

@[simp] theorem class_relabel_refl : Class.relabel .refl = id := by
  funext c
  induction c with
  | root id name methods => simp [Class.relabel, Bindings.mapValues_id]
  | extending id name methods superclass ih => simp [Class.relabel, Bindings.mapValues_id, ih]

@[simp] theorem value_relabel_refl : Value.relabel .refl = id := by
  funext v
  cases v <;> simp [Value.relabel]

@[simp] theorem object_relabel_refl : Object.relabel .refl = id := by
  funext o
  simp [Object.relabel, Bindings.mapValues_id]

end Values

/-! ## States -/

namespace Machine

variable (φ : Relabelling) (D : Distances)

def Failure.relabel : Failure → Failure
  | .fault f line => .fault f (φ.line line)
  | .output e => .output e

@[simp] theorem Failure.relabel_message (f : Failure) : (f.relabel φ).message = f.message := by
  cases f <;> rfl

/-- The state after a relabelling, with this table of distances. -/
def State.relabel (σ : State) : State :=
  { σ with
    frames := σ.frames.map (Value.relabel φ)
    objects := σ.objects.map (Object.relabel φ)
    distances := D }

/-- The table has at the new identity of a node what the state has at the old one. -/
def State.Matches (σ : State) : Prop :=
  ∀ id, D[φ.id id]? = σ.distances[id]?

namespace State

variable {φ D} (σ : State)

@[simp] theorem relabel_chain : (σ.relabel φ D).chain = σ.chain := rfl

@[simp] theorem relabel_depth : (σ.relabel φ D).depth = σ.depth := rfl

@[simp] theorem relabel_sink : (σ.relabel φ D).sink = σ.sink := rfl

@[simp] theorem relabel_nextIdentity : (σ.relabel φ D).nextIdentity = σ.nextIdentity := rfl

@[simp] theorem relabel_frames : (σ.relabel φ D).frames = σ.frames.map (Value.relabel φ) := rfl

@[simp] theorem relabel_objects : (σ.relabel φ D).objects = σ.objects.map (Object.relabel φ) := rfl

@[simp] theorem relabel_distances : (σ.relabel φ D).distances = D := rfl

@[simp] theorem relabel_refl : σ.relabel .refl σ.distances = σ := by
  simp [relabel, Frames.map_id]

theorem relabel_useIdentity :
    (σ.relabel φ D).useIdentity = σ.useIdentity.relabel φ D := rfl

theorem relabel_enter (b : Bindings Value) (outer : Chain) :
    (σ.relabel φ D).enter (b.mapValues (Value.relabel φ)) outer
      = (σ.enter b outer).relabel φ D := by
  simp only [enter, within, relabel, Frames.size_map, Frames.push_map]

theorem relabel_defineIn (g : FrameId) (x : String) (v : Value) :
    (σ.relabel φ D).defineIn g x (v.relabel φ) = (σ.defineIn g x v).relabel φ D := by
  simp only [defineIn, relabel]
  rw [Frames.define_map (Value.relabel φ)]

theorem relabel_define (x : String) (v : Value) :
    (σ.relabel φ D).define x (v.relabel φ) = (σ.define x v).relabel φ D := by
  unfold define
  rw [relabel_chain]
  cases σ.chain with
  | nil => rfl
  | cons g outer => exact relabel_defineIn σ g x v

theorem relabel_define_nil (x : String) :
    (σ.relabel φ D).define x .nil = (σ.define x .nil).relabel φ D :=
  relabel_define σ x .nil

theorem relabel_closure (f : FunctionDecl) (b : Bool) :
    (σ.relabel φ D).closure (f.relabel φ) b = (σ.closure f b).relabel φ := rfl

theorem relabel_makeMethods (ms : List FunctionDecl) :
    (σ.relabel φ D).makeMethods (FunctionDecl.listRelabel φ ms)
      = (Bindings.mapValues (Closure.relabel φ) (σ.makeMethods ms).1,
          (σ.makeMethods ms).2.relabel φ D) := by
  induction ms generalizing σ with
  | nil => rfl
  | cons m ms ih =>
      rw [FunctionDecl.listRelabel, makeMethods, makeMethods, relabel_useIdentity, ih]
      simp [Bindings.mapValues, relabel_closure]

theorem relabel_bind (m : Closure) (object : ObjectId) :
    (σ.relabel φ D).bind (m.relabel φ) object
      = ((σ.bind m object).1.relabel φ, (σ.bind m object).2.relabel φ D) := by
  have hpush := Frames.push_map (Value.relabel φ) σ.frames [("this", .object object)]
  simp only [bind, relabel, Closure.relabel, Frames.size_map]
  rw [← hpush]
  rfl

theorem relabel_allocate (c : Class) :
    (σ.relabel φ D).allocate (c.relabel φ) = (σ.allocate c).relabel φ D := by
  simp [allocate, relabel, Object.relabel, Bindings.mapValues]

theorem relabel_setField (object : ObjectId) (x : String) (v : Value) :
    (σ.relabel φ D).setField object x (v.relabel φ) = (σ.setField object x v).relabel φ D := by
  have hobject : ∀ i : Nat, ((σ.relabel φ D).setField object x (v.relabel φ)).objects[i]?
      = ((σ.setField object x v).relabel φ D).objects[i]? := by
    intro i
    simp only [setField, relabel, Array.getElem?_modify, Array.getElem?_map]
    split
    · cases σ.objects[i]? with
      | none => rfl
      | some o =>
          simp only [Option.map_some, Object.relabel]
          rw [Bindings.set_mapValues (Value.relabel φ)]
    · rfl
  have hobjects := Array.ext_getElem? hobject
  simp only [setField, relabel] at hobjects ⊢
  rw [hobjects]

theorem relabel_makeClass (x : String) (superclass : Option Class) (ms : List FunctionDecl) :
    (σ.relabel φ D).makeClass x (superclass.map (Class.relabel φ)) (FunctionDecl.listRelabel φ ms)
      = ((σ.makeClass x superclass ms).1.relabel φ,
          (σ.makeClass x superclass ms).2.relabel φ D) := by
  cases superclass with
  | none =>
      simp only [makeClass, Option.map_none]
      rw [relabel_makeMethods]
      simp only [Bindings.ofPairs_mapValues, relabel_nextIdentity]
      rw [← Class.relabel_make]
      rfl
  | some c =>
      have henter := relabel_enter (φ := φ) (D := D) σ [("super", .cls c)] σ.chain
      simp only [makeClass, Option.map_some]
      rw [show [("super", Value.cls (c.relabel φ))]
        = Bindings.mapValues (Value.relabel φ) [("super", .cls c)] from rfl]
      rw [relabel_chain, henter, relabel_makeMethods]
      simp only [Bindings.ofPairs_mapValues, relabel_nextIdentity]
      rw [← Class.relabel_make]
      rfl

def Property.relabel (φ : Relabelling) : Property → Property
  | .field v => .field (v.relabel φ)
  | .method m => .method (m.relabel φ)

theorem relabel_property? (object : ObjectId) (x : String) :
    (σ.relabel φ D).property? object x = (σ.property? object x).map (Property.relabel φ) := by
  simp only [property?, relabel_objects, Array.getElem?_map]
  cases σ.objects[object]? with
  | none => rfl
  | some o =>
      simp only [Option.map_some, Object.relabel, Bindings.get?_mapValues,
        Class.findMethod?_relabel]
      cases o.fields.get? x with
      | some v => rfl
      | none => cases o.cls.findMethod? x <;> rfl

theorem relabel_display (v : Value) : (σ.relabel φ D).display (v.relabel φ) = σ.display v := by
  cases v with
  | boolean b => cases b <;> rfl
  | function f => simp [display, Value.relabel, Closure.relabel]
  | cls c => simp [display, Value.relabel]
  | object id =>
      simp only [display, Value.relabel, relabel_objects, Array.getElem?_map]
      cases σ.objects[id]? with
      | none => rfl
      | some o => simp [Object.relabel]
  | _ => rfl

theorem relabel_canPrint (line : String) :
    (σ.relabel φ D).canPrint line = σ.canPrint line := rfl

variable {σ}

theorem Matches.relabel_lookup? (h : σ.Matches φ D) (id : NodeId) (x : String) :
    (σ.relabel φ D).lookup? (φ.id id) x = (σ.lookup? id x).map (Value.relabel φ) := by
  simp only [lookup?, relabel_distances, h id, relabel_frames, relabel_chain]
  cases σ.distances[id]? <;> simp

theorem Matches.relabel_target? (h : σ.Matches φ D) (id : NodeId) (x : String) :
    (σ.relabel φ D).target? (φ.id id) x = σ.target? id x := by
  simp only [target?, relabel_distances, h id, relabel_frames, relabel_chain]
  cases σ.distances[id]? <;> simp

theorem Matches.relabel_superMethod (h : σ.Matches φ D) (id : NodeId) (keyword method : Token) :
    (σ.relabel φ D).superMethod (φ.id id) (φ.token keyword) (φ.token method)
      = match σ.superMethod id keyword method with
        | .ok (m, object) => .ok (m.relabel φ, object)
        | .error f => .error (f.relabel φ) := by
  simp only [superMethod, relabel_distances, h id, relabel_frames, relabel_chain,
    Relabelling.token_lexeme, Frames.getAt_map]
  cases σ.distances[id]? with
  | none => rfl
  | some d =>
      dsimp only
      cases σ.frames.getAt σ.chain d keyword.lexeme with
      | none => rfl
      | some v =>
          cases v with
          | cls c =>
              simp only [Option.map_some, Value.relabel]
              cases σ.frames.getAt σ.chain (d - 1) "this" with
              | none => rfl
              | some w =>
                  cases w with
                  | object o =>
                      simp only [Option.map_some, Class.findMethod?_relabel]
                      cases c.findMethod? method.lexeme <;> rfl
                  | _ => rfl
          | _ => rfl

end State

end Machine

end Lox
