import Lox.Bindings

/-!
# Frames

The variables of a run live in frames, which are cells of a store that only grows. An environment is
a chain of frames from the innermost outwards. Chains share their outer frames, so that an
assignment through one of them is seen through every other.
-/

namespace Lox

/-- The place of a frame in the store. -/
abbrev FrameId := Nat

/-- The frames of an environment, the innermost first. -/
abbrev Chain := List FrameId

/-- The frames that exist, each with its bindings. -/
structure Frames (α : Type) where
  cells : Array (Bindings α)

namespace Frames

variable {α : Type}

def empty : Frames α := ⟨#[]⟩

/-- The place of the next frame. -/
def size (fs : Frames α) : Nat :=
  fs.cells.size

/-- The bindings of a frame; a frame that does not exist has none. -/
def bindings (fs : Frames α) (f : FrameId) : Bindings α :=
  (fs.cells[f]?).getD []

/-- The value of a name in one frame. -/
def get? (fs : Frames α) (f : FrameId) (name : String) : Option α :=
  (fs.bindings f).get? name

/-- The frame binds the name. -/
def binds (fs : Frames α) (f : FrameId) (name : String) : Bool :=
  (fs.get? f name).isSome

/-- The store with a new frame, which is at place `fs.size`. -/
def push (fs : Frames α) (bindings : Bindings α) : Frames α :=
  ⟨fs.cells.push bindings⟩

/-- Bind a name in one frame. -/
def define (fs : Frames α) (f : FrameId) (name : String) (value : α) : Frames α :=
  ⟨fs.cells.modify f (Bindings.set name value)⟩

/-- The value of a name in the nearest frame of the chain that binds it. -/
def lookup (fs : Frames α) : Chain → String → Option α
  | [], _ => none
  | f :: outer, name =>
      match fs.get? f name with
      | some value => some value
      | none => fs.lookup outer name

/-- The nearest frame of the chain that binds the name. -/
def holder? (fs : Frames α) (chain : Chain) (name : String) : Option FrameId :=
  chain.find? fun f => fs.binds f name

/-- Assign to a name in the nearest frame of the chain that binds it. The result says whether there
is such a frame, and comes with the frames afterwards. -/
def tryAssign (fs : Frames α) : Chain → String → α → Bool × Frames α
  | [], _, _ => (false, fs)
  | f :: outer, name, value =>
      if fs.binds f name then (true, fs.define f name value) else fs.tryAssign outer name value

/-- The frames after an assignment that succeeds. -/
def assign (fs : Frames α) (chain : Chain) (name : String) (value : α) : Option (Frames α) :=
  match fs.tryAssign chain name value with
  | (true, fs) => some fs
  | (false, _) => none

/-- The chain that begins the given number of frames further out; it has to have a frame. -/
def ancestor? (chain : Chain) (distance : Nat) : Option Chain :=
  match chain.drop distance with
  | [] => none
  | f :: outer => some (f :: outer)

/-- The value of a name in the frame at the given distance. -/
def getAt (fs : Frames α) (chain : Chain) (distance : Nat) (name : String) : Option α :=
  match chain[distance]? with
  | some f => fs.get? f name
  | none => none

/-- The frame at the given distance, if it binds the name. -/
def holderAt? (fs : Frames α) (chain : Chain) (distance : Nat) (name : String) : Option FrameId :=
  match chain[distance]? with
  | some f => if fs.binds f name then some f else none
  | none => none

/-- Assign to a name in the frame at the given distance, if there is one and it binds the name. The
result says whether it does, and comes with the frames afterwards. -/
def tryAssignAt (fs : Frames α) (chain : Chain) (distance : Nat) (name : String) (value : α) :
    Bool × Frames α :=
  match ancestor? chain distance with
  | some (f :: _) => if fs.binds f name then (true, fs.define f name value) else (false, fs)
  | _ => (false, fs)

/-- The frames after an assignment at a distance that succeeds. -/
def assignAt (fs : Frames α) (chain : Chain) (distance : Nat) (name : String) (value : α) :
    Option (Frames α) :=
  match fs.tryAssignAt chain distance name value with
  | (true, fs) => some fs
  | (false, _) => none

theorem bindings_push_of_lt (fs : Frames α) (b : Bindings α) {f : FrameId} (h : f < fs.size) :
    (fs.push b).bindings f = fs.bindings f := by
  simp only [size] at h
  simp [bindings, push, Array.getElem?_push_lt h, h]

@[simp] theorem bindings_push_size (fs : Frames α) (b : Bindings α) :
    (fs.push b).bindings fs.size = b := by
  simp [bindings, push, size]

@[simp] theorem size_push (fs : Frames α) (b : Bindings α) : (fs.push b).size = fs.size + 1 := by
  simp [push, size]

@[simp] theorem size_define (fs : Frames α) (f : FrameId) (name : String) (value : α) :
    (fs.define f name value).size = fs.size := by
  simp [define, size]

theorem bindings_define_self (fs : Frames α) {f : FrameId} (h : f < fs.size) (name : String)
    (value : α) : (fs.define f name value).bindings f = (fs.bindings f).set name value := by
  simp only [size] at h
  simp [bindings, define, Array.getElem_modify, h]

theorem bindings_define_of_ne (fs : Frames α) {f g : FrameId} (h : g ≠ f) (name : String)
    (value : α) : (fs.define f name value).bindings g = fs.bindings g := by
  simp [bindings, define, Array.getElem?_modify, Ne.symm h]

end Frames

end Lox
