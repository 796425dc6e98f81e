import Lox.Proofs.Session.History

/-!
# Static dispatch of `super`

A use of `super` belongs to the innermost class around it, more precisely to the class that the
declaration of that class has made in the environment in which the use is evaluated. It reads a
method of what that class extended when it was declared, whatever the class of the object is and
whatever the names of the classes are bound to by then.
-/

namespace Lox

open Machine (State Config Stack)

/-- The class is the innermost one around the use of `super`, in the environment of the use: one of
its methods contains the use inside `k` scopes, and behind their frames and the frame of `this` lies
the environment in which this very class has its methods. -/
def Class.Encloses (c : Class) (chain : Chain) (id : NodeId) : Prop :=
  ∃ x m k f, c.methods.get? x = some m ∧ (id, k) ∈ m.decl.supers ∧ chain.drop k = f :: m.chain

namespace Home

variable {past : Past} {fs : Frames Value} {chain : Chain} {id : NodeId} {c c' : Class}
  {m : Closure} {k : Nat} {f : FrameId} {o : ObjectId}

theorem encloses (h : Home past fs chain (id, 0) c m k f o) : c.Encloses chain id := by
  obtain ⟨x, hm⟩ := h.own
  have huse := h.mem_supers
  rw [Nat.zero_add] at huse
  exact ⟨x, m, k, f, hm, huse, h.drop_eq⟩

/-- A class of the past that encloses the use extends what the class of the home extends. -/
theorem superclass?_eq (h : Home past fs chain (id, 0) c m k f o) (hc' : c'.Declared past fs)
    (hencloses : c'.Encloses chain id) {distances : NodeId → Option Nat}
    (hknown : ∀ id r, past.known id r → distances id = r) : c'.superclass? = c.superclass? := by
  obtain ⟨x', m', k', f', hm', huse', hdrop'⟩ := hencloses
  obtain ⟨parent, hparent, -, hid⟩ := h.exists_superclass
  obtain ⟨hderived', hid'⟩ := (hc'.proper x' m' hm').2 _ huse'
  obtain ⟨parent', hparent'⟩ := Option.isSome_iff_exists.mp hderived'
  obtain rfl : k' = k := by
    have hsame := (hknown _ _ hid').symm.trans (hknown _ _ hid)
    simpa using hsame
  rw [h.drop_eq] at hdrop'
  obtain ⟨-, hchain⟩ := List.cons.inj hdrop'
  obtain ⟨x, hm⟩ := h.own
  rw [hparent, hparent', h.housed.own.superclass_eq hc' hm hm' hchain hparent hparent']

end Home

/-- The next step reads a method of a superclass, and there is one. -/
def Machine.Config.readsMethod {final : Machine.Answer} (c : Config final) : Bool :=
  match c, c.step with
  | .eval (.super _ _ _) _ _, .inl (.answer (a := .value) _ _ _) => true
  | _, _ => false

namespace Session

variable {s s' : Session} {source : String} {program : List Stmt} {moments : Config .flow → Prop}
  {n : Nat}

/-- At every moment at which the run of an accepted source evaluates `super`, in a session with any
history, there is a class, declared before, that is the innermost one around the use. Whichever class
that is: when it was declared, it extended a class, `this` denotes an object, and the next step gives
the method that this superclass finds, bound to that object, or fails with an undefined property if
it finds none. -/
theorem super_reads_declared_superclass (hs : s.ReachedThrough moments)
    (hcheck : s.check source = (some program, s')) {id : NodeId} {keyword method : Token}
    {stack : Stack .flow .value} {σ : State}
    (hc : (Config.ofProgram program s'.σ).advance n
      = .inl (.eval (.super id keyword method) stack σ)) :
    (∃ (c : Class) (parent : Option Class),
        c.DeclaredDuring (Earlier moments (Config.ofProgram program s'.σ) n) parent
          ∧ c.Encloses σ.chain id)
      ∧ ∀ (c : Class) (parent : Option Class),
        c.DeclaredDuring (Earlier moments (Config.ofProgram program s'.σ) n) parent →
        c.Encloses σ.chain id →
        ∃ (superclass : Class) (object : ObjectId), parent = some superclass
          ∧ σ.frames.lookup σ.chain "this" = some (.object object)
          ∧ (Config.eval (.super id keyword method) stack σ).step
            = .inl (match superclass.findMethod? method.lexeme with
              | some found =>
                  .answer (a := .value) (.function (σ.bind found object).1) stack
                    (σ.bind found object).2
              | none =>
                  .fail (.fault (.undefinedProperty method.lexeme) method.line) stack σ) := by
  have hknown : ∀ id r, s'.Known id r → σ.distances[id]? = r :=
    fun id r hid => (hs.reachable.scoped_advance hcheck hc).knows hid
  cases hs.housed_advance hcheck hc with
  | eval hσ he hstack =>
    obtain ⟨hkeyword, hhomes⟩ := he
    obtain ⟨home, m, k, f, object, hhome⟩ := hhomes (id, 0) (by simp)
    obtain ⟨superclass, hsuperclass, -⟩ := hhome.exists_superclass
    refine ⟨?_, fun c parent hdeclared hencloses => ?_⟩
    · obtain ⟨parent, hdeclared⟩ := hhome.housed.own.declared
      exact ⟨home, parent, hdeclared, hhome.encloses⟩
    · have hhoused := hσ.declared ⟨parent, hdeclared⟩
      obtain ⟨moment, -, hmoment⟩ := hdeclared
      refine ⟨superclass, object, ?_, hhome.lookup_this, ?_⟩
      · rw [← Config.superclass?_of_declares? hmoment,
          hhome.superclass?_eq hhoused.own hencloses hknown, hsuperclass]
      · simp only [Config.step, Config.evalStep, Config.readSuper,
          hhome.superMethod_eq (by simpa using hkeyword) hsuperclass hknown]
        cases superclass.findMethod? method.lexeme <;> rfl

/-- A function that a method has returned reads `m` of the class that `B` extended in an aborted run,
for an object of a subclass of `B`, although other values are bound to the names of both classes. -/
theorem super_after_aborted_run_and_rebinding :
    ∃ (s s' : Session) (moments : Config .flow → Prop) (program : List Stmt) (id : NodeId)
      (keyword method : Token) (stack : Stack .flow .value) (σ : State) (c superclass : Class)
      (found : Closure) (object : ObjectId),
      s.ReachedThrough moments ∧ s.check "A = nil; B = nil; g();" = (some program, s')
        ∧ (Config.ofProgram program s'.σ).advance 18
          = .inl (.eval (.super id keyword method) stack σ)
        ∧ c.DeclaredDuring (Earlier moments (Config.ofProgram program s'.σ) 18) (some superclass)
        ∧ c.Encloses σ.chain id ∧ superclass.findMethod? method.lexeme = some found
        ∧ (Config.eval (.super id keyword method) stack σ).step
          = .inl (.answer (a := .value) (.function (σ.bind found object).1) stack
              (σ.bind found object).2) := by
  have h : (((initial .unlimited fun _ => 0).run 200
      ("class A { m() {} } class B < A { m() {} f() { fun g() { { super.m; } } return g; } }"
        ++ "class C < B { m() {} } var g = C().f(); nil.x;")).bind fun r =>
        (r.2.check "A = nil; B = nil; g();").1.bind fun program =>
          ((Config.ofProgram program (r.2.check "A = nil; B = nil; g();").2.σ).advance 18).getLeft?.map
            Config.readsMethod)
      = some true := by
    decide +kernel
  simp only [Option.bind_eq_some_iff, Option.map_eq_some_iff] at h
  obtain ⟨⟨status, s⟩, hrun, program, hprogram, c, hc, hanswer⟩ := h
  have hc := Sum.getLeft?_eq_some_iff.mp hc
  have hcheck : s.check "A = nil; B = nil; g();"
      = (some program, (s.check "A = nil; B = nil; g();").2) := by
    rw [← hprogram]
  have hs := ReachedThrough.run (.initial .unlimited fun _ => 0) hrun
  unfold Config.readsMethod at hanswer
  split at hanswer
  · next id keyword method stack σ v stack' σ' _ hstep =>
    obtain ⟨⟨c, parent, hdeclared, hencloses⟩, hall⟩ := super_reads_declared_superclass hs hcheck hc
    obtain ⟨superclass, object, rfl, -, hreads⟩ := hall c parent hdeclared hencloses
    cases hfound : superclass.findMethod? method.lexeme with
    | none =>
        rw [hfound, hstep] at hreads
        cases hreads
    | some found =>
        rw [hfound] at hreads
        exact ⟨s, _, _, program, id, keyword, method, stack, σ, c, superclass, found, object, hs,
          hcheck, hc, hdeclared, hencloses, hfound, hreads⟩
  · cases hanswer

end Session

end Lox
