import Lox.Proofs.Machine.Preservation
import Lox.Proofs.Scope.Supers

/-!
# The home of a use of `super`

A use of `super` is evaluated in an environment that leads, through the scopes around the use, to the
frame of `this` and from there to the environment in which the methods of its class were declared.
That class is the home of the use. Since `this` and `super` are bound once and never again, the home
of a use stays what it is.
-/

namespace Lox

open Machine (State)

/-- All frames that exist keep what they bind to implicit names. -/
structure Frames.KeepsImplicit (fs fs' : Frames Value) : Prop where
  size_le : fs.size ≤ fs'.size
  get?_eq : ∀ {f x}, f < fs.size → Implicit x → fs'.get? f x = fs.get? f x

namespace Frames.KeepsImplicit

variable {fs fs' fs'' : Frames Value} {f : FrameId} {x : String} {v : Value}

theorem refl (fs : Frames Value) : fs.KeepsImplicit fs :=
  ⟨Nat.le_refl _, fun _ _ => rfl⟩

theorem trans (h : fs.KeepsImplicit fs') (h' : fs'.KeepsImplicit fs'') : fs.KeepsImplicit fs'' :=
  ⟨h.size_le.trans h'.size_le, fun hf hx =>
    (h'.get?_eq (Nat.lt_of_lt_of_le hf h.size_le) hx).trans (h.get?_eq hf hx)⟩

theorem push (fs : Frames Value) (b : Bindings Value) : fs.KeepsImplicit (fs.push b) :=
  ⟨by simp, fun hf _ => Frames.get?_push_of_lt b hf⟩

theorem define (fs : Frames Value) (f : FrameId) (v : Value) (hx : ¬ Implicit x) :
    fs.KeepsImplicit (fs.define f x v) :=
  ⟨by simp, fun _ hy => Frames.get?_define_of_ne (.inr (by rintro rfl; exact hx hy))⟩

theorem get? (h : fs.KeepsImplicit fs') (hx : Implicit x) (hv : fs.get? f x = some v) :
    fs'.get? f x = some v :=
  (h.get?_eq (Frames.lt_size_of_binds (Frames.binds_of_get? hv)) hx).trans hv

end Frames.KeepsImplicit

/-- What came before a moment: the classes that were declared, and the distances that were
recorded. -/
@[ext] structure Past where
  declared : Class → Prop
  known : NodeId → Option Nat → Prop

/-- The later past has all that the earlier one has. -/
structure Past.Grows (past past' : Past) : Prop where
  declared : ∀ c, past.declared c → past'.declared c
  known : ∀ id r, past.known id r → past'.known id r

theorem Past.Grows.refl (past : Past) : past.Grows past :=
  ⟨fun _ => id, fun _ _ => id⟩

def Past.declare (past : Past) (c : Class) : Past :=
  { past with declared := fun d => past.declared d ∨ d = c }

theorem Past.grows_declare (past : Past) (c : Class) : past.Grows (past.declare c) :=
  ⟨fun _ => .inl, fun _ _ => id⟩

/-- The class was declared, and its methods in one environment, which begins with the frame of
`super` if there is a superclass. What is known for the uses of `super` in the methods is the distance
to that frame. -/
structure Class.Declared (past : Past) (fs : Frames Value) (c : Class) : Prop where
  declared : past.declared c
  environment : ∃ env, (∀ x m, c.methods.get? x = some m → m.chain = env)
    ∧ ∀ parent, c.superclass? = some parent →
      ∃ g outer, env = g :: outer ∧ fs.get? g "super" = some (.cls parent)
  proper : ∀ x m, c.methods.get? x = some m →
    m.decl.Proper past.known ∧ m.decl.SupersKnown past.known c.superclass?.isSome

/-- The class and those above it were declared. -/
def Class.Housed (past : Past) (fs : Frames Value) : Class → Prop
  | .root id name methods => (Class.root id name methods).Declared past fs
  | .extending id name methods parent =>
      (Class.extending id name methods parent).Declared past fs ∧ parent.Housed past fs

variable {past past' : Past} {fs fs' : Frames Value}

theorem Class.Housed.own {c : Class} (h : c.Housed past fs) : c.Declared past fs := by
  cases c with
  | root id name methods => exact h
  | extending id name methods parent => exact h.1

@[simp] theorem Class.methods_make (id : Identity) (name : String) (methods : Bindings Closure)
    (superclass : Option Class) : (Class.make id name methods superclass).methods = methods := by
  cases superclass <;> rfl

@[simp] theorem Class.superclass?_make (id : Identity) (name : String) (methods : Bindings Closure)
    (superclass : Option Class) :
    (Class.make id name methods superclass).superclass? = superclass := by
  cases superclass <;> rfl

@[simp] theorem Machine.State.superclass?_makeClass (σ : State) (name : String)
    (superclass : Option Class) (methods : List FunctionDecl) :
    (σ.makeClass name superclass methods).1.superclass? = superclass := by
  cases superclass <;> rfl

theorem Class.Housed.make {id : Identity} {name : String} {methods : Bindings Closure}
    {superclass : Option Class} (h : (Class.make id name methods superclass).Declared past fs)
    (hs : ∀ c, superclass = some c → c.Housed past fs) :
    (Class.make id name methods superclass).Housed past fs := by
  cases superclass with
  | none => exact h
  | some c => exact ⟨h, hs c rfl⟩

/-- A class whose methods are declared in the environment of a state. -/
theorem Class.Declared.make {σ : State} {id : Identity} {name : String} {superclass : Option Class}
    {methods : List FunctionDecl}
    (hdeclared : past.declared
      (.make id name (.ofPairs (σ.makeMethods methods).1) superclass))
    (hsuper : ∀ c, superclass = some c →
      ∃ g outer, σ.chain = g :: outer ∧ fs.get? g "super" = some (.cls c))
    (hproper : FunctionDecl.ListProper past.known methods)
    (hsupers : ∀ m ∈ methods, m.SupersKnown past.known superclass.isSome) :
    (Class.make id name (.ofPairs (σ.makeMethods methods).1) superclass).Declared past fs := by
  have hmade {x : String} {m : Closure}
      (hm : Bindings.get? x (.ofPairs (σ.makeMethods methods).1) = some m) :
      m.decl ∈ methods ∧ m.chain = σ.chain :=
    State.of_mem_makeMethods (Bindings.mem_of_get?_ofPairs hm)
  refine ⟨hdeclared, ⟨σ.chain, fun x m hm => ?_, fun parent hparent => ?_⟩, fun x m hm => ?_⟩
  · rw [methods_make] at hm
    exact (hmade hm).2
  · rw [superclass?_make] at hparent
    exact hsuper parent hparent
  · rw [methods_make] at hm
    rw [superclass?_make]
    have hdecl := (hmade hm).1
    exact ⟨FunctionDecl.listProper_iff.mp hproper _ hdecl, hsupers _ hdecl⟩

theorem Class.Declared.mono {c : Class} (h : c.Declared past fs) (hp : past.Grows past')
    (hfs : fs.KeepsImplicit fs') : c.Declared past' fs' := by
  obtain ⟨env, hmethods, hparent⟩ := h.environment
  refine ⟨hp.declared c h.declared, ⟨env, hmethods, fun parent hc => ?_⟩, fun x m hm => ?_⟩
  · obtain ⟨g, outer, henv, hg⟩ := hparent parent hc
    exact ⟨g, outer, henv, hfs.get? (.inr rfl) hg⟩
  · obtain ⟨hproper, hsupers⟩ := h.proper x m hm
    exact ⟨hproper.imp hp.known, hsupers.imp hp.known⟩

theorem Class.Housed.mono {c : Class} (h : c.Housed past fs) (hp : past.Grows past')
    (hfs : fs.KeepsImplicit fs') : c.Housed past' fs' := by
  induction c with
  | root id name methods => exact Class.Declared.mono h hp hfs
  | extending id name methods parent ih => exact ⟨h.1.mono hp hfs, ih h.2⟩

/-- A method that is found belongs to a class that was declared. -/
theorem Class.Housed.findMethod? {c : Class} {x : String} {m : Closure} (h : c.Housed past fs)
    (hm : c.findMethod? x = some m) :
    ∃ d : Class, d.Housed past fs ∧ d.methods.get? x = some m := by
  induction c with
  | root id name methods => exact ⟨_, h, hm⟩
  | extending id name methods parent ih =>
      rw [Class.findMethod?] at hm
      split at hm
      · next found hfound =>
        cases hm
        exact ⟨_, h, hfound⟩
      · exact ih h.2 hm

/-- Two classes that declared their methods in the same environment extend the same class. -/
theorem Class.Declared.superclass_eq {c c' : Class} (h : c.Declared past fs)
    (h' : c'.Declared past fs) {x x' : String} {m m' : Closure} (hm : c.methods.get? x = some m)
    (hm' : c'.methods.get? x' = some m') (hchain : m.chain = m'.chain) {parent parent' : Class}
    (hparent : c.superclass? = some parent) (hparent' : c'.superclass? = some parent') :
    parent = parent' := by
  obtain ⟨env, hmethods, hsuper⟩ := h.environment
  obtain ⟨env', hmethods', hsuper'⟩ := h'.environment
  obtain ⟨g, outer, henv, hg⟩ := hsuper parent hparent
  obtain ⟨g', outer', henv', hg'⟩ := hsuper' parent' hparent'
  rw [hmethods x m hm, hmethods' x' m' hm', henv, henv'] at hchain
  obtain ⟨rfl, -⟩ := List.cons.inj hchain
  rw [hg, Option.some.injEq, Value.cls.injEq] at hg'
  exact hg'

/-! ## Homes -/

/-- The class `c` is the home of the use: its method `m` contains the use, and the environment leads
through `k` frames, which do not bind `this`, to the frame `f`, in which `this` is bound to the object
`o` around the environment of the method. -/
structure Home (past : Past) (fs : Frames Value) (chain : Chain) (use : NodeId × Nat) (c : Class)
    (m : Closure) (k : Nat) (f : FrameId) (o : ObjectId) : Prop where
  housed : c.Housed past fs
  own : ∃ x, c.methods.get? x = some m
  mem_supers : (use.1, use.2 + k) ∈ m.decl.supers
  drop_eq : chain.drop k = f :: m.chain
  this : fs.get? f "this" = some (.object o)
  inside : ∀ g ∈ chain.take k, g < fs.size ∧ fs.get? g "this" = none

/-- All uses have a home. -/
def Homes (past : Past) (fs : Frames Value) (chain : Chain) (uses : List (NodeId × Nat)) : Prop :=
  ∀ use ∈ uses, ∃ c m k f o, Home past fs chain use c m k f o

variable {chain : Chain} {use : NodeId × Nat} {uses uses' : List (NodeId × Nat)} {c : Class}
  {m : Closure} {k : Nat} {f : FrameId} {o : ObjectId}

@[simp] theorem homes_nil : Homes past fs chain [] := by
  simp [Homes]

@[simp] theorem homes_append :
    Homes past fs chain (uses ++ uses') ↔ Homes past fs chain uses ∧ Homes past fs chain uses' :=
  List.forall_mem_append

theorem Home.mono (h : Home past fs chain use c m k f o) (hp : past.Grows past')
    (hfs : fs.KeepsImplicit fs') : Home past' fs' chain use c m k f o where
  housed := h.housed.mono hp hfs
  own := h.own
  mem_supers := h.mem_supers
  drop_eq := h.drop_eq
  this := hfs.get? (.inl rfl) h.this
  inside g hg := by
    obtain ⟨hlt, hnone⟩ := h.inside g hg
    exact ⟨Nat.lt_of_lt_of_le hlt hfs.size_le, (hfs.get?_eq hlt (.inl rfl)).trans hnone⟩

theorem Homes.mono (h : Homes past fs chain uses) (hp : past.Grows past')
    (hfs : fs.KeepsImplicit fs') : Homes past' fs' chain uses := by
  intro use huse
  obtain ⟨c, m, k, f, o, hhome⟩ := h use huse
  exact ⟨c, m, k, f, o, hhome.mono hp hfs⟩

/-- Inside a new frame that does not bind `this`, the uses of a scope have the homes that they have
outside. -/
theorem Homes.enter (h : Homes past fs chain (outside uses)) {b : Bindings Value}
    (hb : b.get? "this" = none) : Homes past (fs.push b) (fs.size :: chain) uses := by
  intro use huse
  obtain ⟨c, m, k, f, o, hhome⟩ := h (use.1, use.2 + 1) (List.mem_map_of_mem huse)
  have hkept := hhome.mono (.refl past) (.push fs b)
  refine ⟨c, m, k + 1, f, o, hkept.housed, hkept.own, ?_, ?_, hkept.this, fun g hg => ?_⟩
  · have hmem := hkept.mem_supers
    rwa [show use.2 + 1 + k = use.2 + (k + 1) by omega] at hmem
  · rw [List.drop_succ_cons]
    exact hkept.drop_eq
  · rw [List.take_succ_cons, List.mem_cons] at hg
    rcases hg with rfl | hg
    · exact ⟨by simp, by simpa using hb⟩
    · exact hkept.inside g hg

/-- Once a method is bound to an object, its class is the home of the uses in it. -/
theorem homes_bind {x : String} (h : c.Housed past fs) (hm : c.methods.get? x = some m)
    (o : ObjectId) :
    Homes past (fs.push [("this", .object o)]) (fs.size :: m.chain) m.decl.supers := by
  intro use huse
  refine ⟨c, m, 0, fs.size, o, h.mono (.refl past) (.push fs _), ⟨x, hm⟩, huse, rfl, ?_, by simp⟩
  simp [Bindings.get?]

/-- A name is found in the first frame that binds it. -/
theorem Frames.lookup_of_drop {env : Chain} {x : String} {v : Value}
    (hdrop : chain.drop k = f :: env) (hinside : ∀ g ∈ chain.take k, fs.get? g x = none)
    (hv : fs.get? f x = some v) : fs.lookup chain x = some v := by
  induction k generalizing chain with
  | zero =>
      rw [List.drop_zero] at hdrop
      rw [hdrop, Frames.lookup, hv]
  | succ k ih =>
      cases chain with
      | nil => cases hdrop
      | cons g rest =>
          rw [List.take_succ_cons, List.forall_mem_cons] at hinside
          rw [Frames.lookup, hinside.1]
          exact ih hdrop hinside.2

namespace Home

/-- What `this` denotes is the object of the home. -/
theorem lookup_this (h : Home past fs chain use c m k f o) :
    fs.lookup chain "this" = some (.object o) :=
  Frames.lookup_of_drop h.drop_eq (fun g hg => (h.inside g hg).2) h.this

theorem getAt_this (h : Home past fs chain use c m k f o) :
    fs.getAt chain k "this" = some (.object o) := by
  have hf : (chain.drop k)[0]? = some f := by rw [h.drop_eq]; rfl
  rw [List.getElem?_drop, Nat.add_zero] at hf
  simp [Frames.getAt, hf, h.this]

/-- The class of the home extends a class, which is what `super` denotes one frame further out than
`this`. -/
theorem exists_superclass (h : Home past fs chain use c m k f o) :
    ∃ parent, c.superclass? = some parent ∧ fs.getAt chain (k + 1) "super" = some (.cls parent)
      ∧ past.known use.1 (some (use.2 + k + 1)) := by
  obtain ⟨x, hm⟩ := h.own
  obtain ⟨env, hmethods, hsuper⟩ := h.housed.own.environment
  obtain ⟨hderived, hknown⟩ := (h.housed.own.proper x m hm).2 _ h.mem_supers
  obtain ⟨parent, hparent⟩ := Option.isSome_iff_exists.mp hderived
  obtain ⟨g, outer, henv, hg⟩ := hsuper parent hparent
  refine ⟨parent, hparent, ?_, hknown⟩
  have hat : (chain.drop k)[1]? = some g := by rw [h.drop_eq, hmethods x m hm, henv]; rfl
  rw [List.getElem?_drop] at hat
  simp [Frames.getAt, hat, hg]

/-- The method that is read is that of the superclass of the home, and it is to be bound to what
`this` denotes. -/
theorem superMethod_eq {σ : State} {id : NodeId} {keyword method : Token} {parent : Class}
    (h : Home past σ.frames σ.chain (id, 0) c m k f o) (hkeyword : keyword.lexeme = "super")
    (hparent : c.superclass? = some parent)
    (hknown : ∀ id r, past.known id r → σ.distances[id]? = r) :
    σ.superMethod id keyword method =
      match parent.findMethod? method.lexeme with
      | some found => .ok (found, o)
      | none => .error (.atToken (.undefinedProperty method.lexeme) method) := by
  obtain ⟨parent', hparent', hsuper, hid⟩ := h.exists_superclass
  obtain rfl : parent = parent' := Option.some.inj (hparent.symm.trans hparent')
  have hd := hknown _ _ hid
  rw [Nat.zero_add] at hd
  cases hfound : parent.findMethod? method.lexeme <;>
    simp [State.superMethod, hd, hkeyword, hsuper, h.getAt_this, hfound]

end Home

/-! ## Housed values and states -/

/-- The uses of `super` in a function have homes, and an initializer is bound to an object. -/
structure Closure.Housed (past : Past) (fs : Frames Value) (f : Closure) : Prop where
  proper : f.decl.Proper past.known
  homes : Homes past fs f.chain f.decl.supers
  receiver : f.isInitializer = true →
    ∃ g outer o, f.chain = g :: outer ∧ fs.get? g "this" = some (.object o)

/-- The functions and classes in a value are housed. -/
def Value.Housed (past : Past) (fs : Frames Value) : Value → Prop
  | .function f => f.Housed past fs
  | .cls c => c.Housed past fs
  | _ => True

theorem Closure.Housed.mono {f : Closure} (h : f.Housed past fs) (hp : past.Grows past')
    (hfs : fs.KeepsImplicit fs') : f.Housed past' fs' where
  proper := h.proper.imp hp.known
  homes := h.homes.mono hp hfs
  receiver hf := by
    obtain ⟨g, outer, o, hchain, hg⟩ := h.receiver hf
    exact ⟨g, outer, o, hchain, hfs.get? (.inl rfl) hg⟩

theorem Value.Housed.mono {v : Value} (h : v.Housed past fs) (hp : past.Grows past')
    (hfs : fs.KeepsImplicit fs') : v.Housed past' fs' := by
  cases v with
  | function f => exact Closure.Housed.mono h hp hfs
  | cls c => exact Class.Housed.mono h hp hfs
  | _ => trivial

/-- A later store, in the same past. -/
theorem Value.Housed.keep {v : Value} (h : v.Housed past fs) (hfs : fs.KeepsImplicit fs') :
    v.Housed past fs' :=
  h.mono (.refl past) hfs

theorem Value.IsScalar.housed {v : Value} (hv : v.IsScalar) : v.Housed past fs := by
  cases v <;> trivial

namespace Machine

/-- All values of a state and all classes of the past are housed. -/
structure State.Housed (past : Past) (σ : State) : Prop where
  declared : ∀ {c : Class}, past.declared c → c.Housed past σ.frames
  frames : ∀ {f x v}, σ.frames.get? f x = some v → v.Housed past σ.frames
  classes : ∀ {i : ObjectId} {o : Object}, σ.objects[i]? = some o → o.cls.Housed past σ.frames
  fields : ∀ {i : ObjectId} {o : Object} {x v}, σ.objects[i]? = some o →
    o.fields.get? x = some v → v.Housed past σ.frames

namespace State.Housed

variable {σ σ' : State} {v : Value} {x : String}

/-- Only the frames and the objects count. -/
theorem congr (h : σ.Housed past) (hf : σ'.frames = σ.frames) (ho : σ'.objects = σ.objects) :
    σ'.Housed past := by
  obtain ⟨hdeclared, hframes, hclasses, hfields⟩ := h
  constructor
  · rwa [hf]
  · rwa [hf]
  · rwa [hf, ho]
  · rwa [hf, ho]

/-- In a later past, the classes that were declared since have to be housed. -/
theorem mono (h : σ.Housed past) (hp : past.Grows past')
    (hnew : ∀ c, past'.declared c → past.declared c ∨ c.Housed past' σ.frames) :
    σ.Housed past' where
  declared {c} hc := (hnew c hc).elim (fun hc => (h.declared hc).mono hp (.refl _)) id
  frames hv := (h.frames hv).mono hp (.refl _)
  classes ho := (h.classes ho).mono hp (.refl _)
  fields ho hv := (h.fields ho hv).mono hp (.refl _)

/-- The values stay housed in a later store that has only housed values in addition. -/
theorem keep (h : σ.Housed past) (hkeep : σ.frames.KeepsImplicit σ'.frames)
    (ho : σ'.objects = σ.objects)
    (hnew : ∀ f x v, σ'.frames.get? f x = some v →
      σ.frames.get? f x = some v ∨ v.Housed past σ'.frames) : σ'.Housed past where
  declared hc := (h.declared hc).mono (.refl past) hkeep
  frames hv := (hnew _ _ _ hv).elim (fun hv => (h.frames hv).keep hkeep) id
  classes ho' := (h.classes (ho ▸ ho')).mono (.refl past) hkeep
  fields ho' hv := (h.fields (ho ▸ ho') hv).keep hkeep

theorem push (h : σ.Housed past) {b : Bindings Value}
    (hb : ∀ x v, b.get? x = some v → v.Housed past (σ.frames.push b)) :
    State.Housed past { σ with frames := σ.frames.push b } := by
  refine h.keep (.push σ.frames b) rfl fun f x v hv => ?_
  rcases Frames.get?_push_eq_some hv with hv | ⟨-, hv⟩
  · exact .inl hv
  · exact .inr (hb x v hv)

theorem enter (h : σ.Housed past) {b : Bindings Value} (chain : Chain)
    (hb : ∀ x v, b.get? x = some v → v.Housed past σ.frames) : (σ.enter b chain).Housed past := by
  refine (h.push fun x v hv => ?_).congr rfl rfl
  exact (hb x v hv).keep (.push σ.frames b)

theorem defineIn (h : σ.Housed past) (f : FrameId) (hx : ¬ Implicit x)
    (hv : v.Housed past σ.frames) : (σ.defineIn f x v).Housed past := by
  have hkeep := Frames.KeepsImplicit.define σ.frames f v hx
  refine h.keep hkeep rfl fun g y w hw => ?_
  rcases Frames.get?_define_eq_some hw with hw | ⟨-, -, rfl⟩
  · exact .inl hw
  · exact .inr (hv.keep hkeep)

theorem define (h : σ.Housed past) (hx : ¬ Implicit x) (hv : v.Housed past σ.frames) :
    (σ.define x v).Housed past ∧ σ.frames.KeepsImplicit (σ.define x v).frames
      ∧ (σ.define x v).chain = σ.chain := by
  unfold State.define
  split
  · exact ⟨h, .refl _, rfl⟩
  · exact ⟨h.defineIn _ hx hv, .define _ _ _ hx, rfl⟩

theorem allocate (h : σ.Housed past) {c : Class} (hc : c.Housed past σ.frames) :
    (σ.allocate c).Housed past := by
  refine ⟨h.declared, h.frames, fun ho => ?_, fun ho hv => ?_⟩
  · rcases getElem?_allocate_eq_some ho with ho | rfl
    · exact h.classes ho
    · exact hc
  · rcases getElem?_allocate_eq_some ho with ho | rfl
    · exact h.fields ho hv
    · simp at hv

theorem setField (h : σ.Housed past) (object : ObjectId) (x : String)
    (hv : v.Housed past σ.frames) : (σ.setField object x v).Housed past := by
  refine ⟨h.declared, h.frames, fun {i o} ho => ?_, fun {i o y w} ho hw => ?_⟩
  · rcases getElem?_setField_eq_some ho with ho | ⟨o', ho', rfl⟩
    · exact h.classes ho
    · exact h.classes (o := o') ho'
  · rcases getElem?_setField_eq_some ho with ho | ⟨o', ho', rfl⟩
    · exact h.fields ho hw
    · rcases Bindings.get?_set_eq_some hw with hw | rfl
      · exact h.fields ho' hw
      · exact hv

theorem bind {x : String} {c : Class} {m : Closure} (h : σ.Housed past)
    (hc : c.Housed past σ.frames) (hm : c.findMethod? x = some m) (object : ObjectId) :
    (σ.bind m object).2.Housed past
      ∧ (σ.bind m object).1.Housed past (σ.bind m object).2.frames
      ∧ σ.frames.KeepsImplicit (σ.bind m object).2.frames := by
  obtain ⟨d, hd, hown⟩ := hc.findMethod? hm
  refine ⟨(h.push fun y v hv => ?_).congr rfl rfl, ⟨?_, homes_bind hd hown object, fun _ => ?_⟩,
    .push _ _⟩
  · obtain rfl := Bindings.eq_of_get?_singleton hv
    trivial
  · exact (hd.own.proper _ _ hown).1
  · exact ⟨_, _, object, rfl, by simp [State.bind, Bindings.get?]⟩

theorem getAt (h : σ.Housed past) {chain : Chain} {d : Nat}
    (hv : σ.frames.getAt chain d x = some v) : v.Housed past σ.frames := by
  obtain ⟨f, -, hf⟩ := Frames.get?_of_getAt hv
  exact h.frames hf

theorem lookup? (h : σ.Housed past) {id : NodeId} (hv : σ.lookup? id x = some v) :
    v.Housed past σ.frames := by
  unfold State.lookup? at hv
  split at hv
  · exact h.getAt hv
  · rw [globalChain, Frames.lookup_singleton] at hv
    exact h.frames hv

theorem declare (h : σ.Housed past) {c : Class} (hc : c.Housed (past.declare c) σ.frames) :
    σ.Housed (past.declare c) := by
  refine h.mono (past.grows_declare c) fun d hd => ?_
  rcases hd with hd | rfl
  · exact .inl hd
  · exact .inr hc

/-- A class that is made is housed once it belongs to the past. -/
theorem makeClass (h : σ.Housed past) (name : String) {superclass : Option Class}
    (hs : ∀ c, superclass = some c → c.Housed past σ.frames) {methods : List FunctionDecl}
    (hproper : FunctionDecl.ListProper past.known methods)
    (hsupers : ∀ m ∈ methods, m.SupersKnown past.known superclass.isSome) {c : Class} {τ : State}
    (hmade : σ.makeClass name superclass methods = (c, τ)) :
    τ.Housed (past.declare c) ∧ c.Housed (past.declare c) τ.frames
      ∧ σ.frames.KeepsImplicit τ.frames ∧ τ.chain = σ.chain := by
  have hgrows := past.grows_declare c
  cases superclass with
  | none =>
      obtain ⟨n, hn⟩ := σ.makeMethods_eq methods
      simp only [State.makeClass, hn, State.useIdentity, State.within, Prod.mk.injEq] at hmade
      obtain ⟨hc, rfl⟩ := hmade
      have hclass : c.Housed (past.declare c) σ.frames := by
        subst hc
        exact .make (.make (.inr rfl) (by simp) hproper hsupers) (by simp)
      exact ⟨(h.declare hclass).congr rfl rfl, hclass, .refl _, rfl⟩
  | some parent =>
      let σ₁ := σ.enter [("super", .cls parent)] σ.chain
      have hσ₁ : σ₁.Housed past := h.enter σ.chain fun x v hv => by
        obtain rfl := Bindings.eq_of_get?_singleton hv
        exact hs parent rfl
      have hkeep : σ.frames.KeepsImplicit σ₁.frames := .push _ _
      have hsuper : ∀ c, some parent = some c →
          ∃ g outer, σ₁.chain = g :: outer ∧ σ₁.frames.get? g "super" = some (.cls c) := by
        rintro c ⟨⟩
        exact ⟨_, _, rfl, by simp [σ₁, State.enter, State.within, Bindings.get?]⟩
      obtain ⟨n, hn⟩ := σ₁.makeMethods_eq methods
      simp only [State.makeClass, σ₁, hn, State.useIdentity, State.within, Prod.mk.injEq] at hmade
      obtain ⟨hc, rfl⟩ := hmade
      have hclass : c.Housed (past.declare c) σ₁.frames := by
        subst hc
        exact .make (.make (.inr rfl) hsuper hproper hsupers)
          (fun c hc => (hs c hc).mono hgrows hkeep)
      exact ⟨(hσ₁.declare hclass).congr rfl rfl, hclass, hkeep, rfl⟩

end State.Housed

end Machine

end Lox
