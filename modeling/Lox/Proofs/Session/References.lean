import Lox.Proofs.Session.Invariant

/-!
# References to local bindings

The distance that is recorded for a reference leads to the frame of its binding, at every moment of
every run. A read that is recorded as local therefore always finds its name. An assignment finds it
too, except inside the initializer of the very variable that it assigns to.
-/

namespace Lox

open Machine (State Config Stack Answer Pending Place globalFrame)

namespace Machine

variable {final : Answer} {known : NodeId → Option Nat → Prop} {σ : State} {p : Place} {d : Nat}

/-- The frame at the distance is not the global one, and it binds the name. -/
def State.BindsAt (σ : State) (d : Nat) (x : String) : Prop :=
  ∃ f, σ.chain[d]? = some f ∧ f ≠ globalFrame ∧ σ.frames.binds f x = true

theorem State.BindsAt.getAt {x : String} (h : σ.BindsAt d x) :
    ∃ v, σ.frames.getAt σ.chain d x = some v := by
  obtain ⟨f, hf, -, hb⟩ := h
  simp only [Frames.getAt, hf]
  exact Option.isSome_iff_exists.mp hb

namespace Config

/-- The node that is about to read a name, and the token of that name. -/
def reading? : Config final → Option (NodeId × Token)
  | .eval (.var id name) _ _ => some (id, name)
  | .eval (.this id keyword) _ _ => some (id, keyword)
  | .eval (.super id keyword _) _ _ => some (id, keyword)
  | _ => none

/-- A method of a superclass is about to be read. -/
def readsSuper : Config final → Bool
  | .eval (.super _ _ _) _ _ => true
  | _ => false

/-- The name that turned out to have no binding. -/
def undefinedName? : Config final → Option String
  | .fail (.fault (.undefinedVariable x) _) _ _ => some x
  | _ => none

/-- A variable or `this` is read in the frame at its distance. -/
theorem step_read_local {id : NodeId} {name : Token} {e : Expr} {stack : Stack final .value}
    (he : e = .var id name ∨ e = .this id name) (hd : σ.distances[id]? = some d)
    (hb : σ.BindsAt d name.lexeme) :
    ∃ c', (Config.eval e stack σ).step = .inl c' ∧ c'.undefinedName? = none := by
  obtain ⟨v, hv⟩ := hb.getAt
  have hlookup : σ.lookup? id name.lexeme = some v := by simpa [State.lookup?, hd] using hv
  refine ⟨.answer (a := .value) v stack σ, ?_, rfl⟩
  rcases he with rfl | rfl <;> simp [step, evalStep, readVariable, hlookup]

theorem step_read_global {id : NodeId} {name : Token} {stack : Stack final .value}
    (hd : σ.distances[id]? = none) :
    (Config.eval (.var id name) stack σ).step = .inl
      (match σ.frames.get? globalFrame name.lexeme with
        | some v => .answer (a := .value) v stack σ
        | none => .faultAt (.undefinedVariable name.lexeme) name stack σ) := by
  have hlookup : σ.lookup? id name.lexeme = σ.frames.get? globalFrame name.lexeme := by
    simp only [State.lookup?, hd, globalChain, Frames.lookup_singleton]
  cases hv : σ.frames.get? globalFrame name.lexeme with
  | none => simp only [step, evalStep, readVariable, hlookup, hv]
  | some v => simp only [step, evalStep, readVariable, hlookup, hv]

/-- Reading a method of a superclass finds `super` and `this` if they are bound next to each
other. -/
theorem step_read_super {id : NodeId} {keyword method : Token} {stack : Stack final .value}
    (hd : σ.distances[id]? = some (d + 1)) (hsuper : σ.BindsAt (d + 1) keyword.lexeme)
    (hthis : σ.BindsAt d "this") :
    ∃ c', (Config.eval (.super id keyword method) stack σ).step = .inl c'
      ∧ c'.undefinedName? = none := by
  obtain ⟨v, hv⟩ := hsuper.getAt
  obtain ⟨w, hw⟩ := hthis.getAt
  refine ⟨_, rfl, ?_⟩
  simp only [evalStep, readSuper, State.superMethod, hd, hv, Nat.add_sub_cancel, hw]
  cases v with
  | cls superclass =>
      cases w with
      | object object =>
          cases hfound : superclass.findMethod? method.lexeme with
          | none => simp only [hfound]; rfl
          | some found => simp only [hfound]; rfl
      | _ => rfl
  | _ => rfl

end Config

/-- In a scoped configuration, a node that reads a name finds the binding at its distance. -/
theorem Config.Scoped.reads {c : Config final} (hc : c.Scoped known) {id : NodeId} {name : Token}
    (hread : c.reading? = some (id, name)) :
    (∀ d, c.state.distances[id]? = some d → c.state.BindsAt d name.lexeme
        ∧ (c.readsSuper = true → 0 < d ∧ c.state.BindsAt (d - 1) "this")
        ∧ ∃ c', c.step = .inl c' ∧ c'.undefinedName? = none)
      ∧ (c.state.distances[id]? = none → ∃ stack,
          c = .eval (.var id name) stack c.state ∧
          c.step = .inl
            (match c.state.frames.get? globalFrame name.lexeme with
              | some v => .answer (a := .value) v stack c.state
              | none => .faultAt (.undefinedVariable name.lexeme) name stack c.state)) := by
  cases hc with
  | exec => simp [Config.reading?] at hread
  | answer => simp [Config.reading?] at hread
  | fail => simp [Config.reading?] at hread
  | @eval p e stack σ hσ he hstack =>
      simp only [Config.state]
      cases e with
      | var id' name' =>
          obtain ⟨rfl, rfl⟩ : id' = id ∧ name' = name := by simpa [Config.reading?] using hread
          simp only [Expr.WellScoped] at he
          have hid := hσ.sound.knows he.2.2
          refine ⟨fun d hd => ?_, fun hd => ⟨stack, rfl, Config.step_read_global hd⟩⟩
          have hvisible := hid.symm.trans hd
          have hb : σ.BindsAt d name'.lexeme :=
            hσ.stands.binds_at hvisible (hσ.stands.pending_ne_of_isPending hvisible he.2.1)
          exact ⟨hb, nofun, Config.step_read_local (.inl rfl) hd hb⟩
      | this id' keyword =>
          obtain ⟨rfl, rfl⟩ : id' = id ∧ keyword = name := by simpa [Config.reading?] using hread
          simp only [Expr.WellScoped] at he
          obtain ⟨hkeyword, n, hn, hid⟩ := he
          have hid := hσ.sound.knows hid
          refine ⟨fun d hd => ?_, fun hd => by simp [hid] at hd⟩
          obtain rfl : n = d := Option.some.inj (hid.symm.trans hd)
          have hb : σ.BindsAt n keyword.lexeme :=
            hkeyword ▸ hσ.stands.binds_at hn (hσ.stands.pending_ne_of_implicit (.inl rfl))
          exact ⟨hb, nofun, Config.step_read_local (.inr rfl) hd hb⟩
      | super id' keyword method =>
          obtain ⟨rfl, rfl⟩ : id' = id ∧ keyword = name := by simpa [Config.reading?] using hread
          simp only [Expr.WellScoped] at he
          obtain ⟨hkeyword, n, hthis, hsuper, hid⟩ := he
          have hid := hσ.sound.knows hid
          refine ⟨fun d hd => ?_, fun hd => by simp [hid] at hd⟩
          obtain rfl : n + 1 = d := Option.some.inj (hid.symm.trans hd)
          have hb : σ.BindsAt (n + 1) keyword.lexeme :=
            hkeyword ▸ hσ.stands.binds_at hsuper (hσ.stands.pending_ne_of_implicit (.inr rfl))
          have hb' : σ.BindsAt n "this" :=
            hσ.stands.binds_at hthis (hσ.stands.pending_ne_of_implicit (.inl rfl))
          exact ⟨hb, fun _ => ⟨Nat.succ_pos n, hb'⟩, Config.step_read_super hd hb hb'⟩
      | _ => simp [Config.reading?] at hread

/-- The variable whose initializer waits for the value of the expression on top. -/
def Stack.initializing? {final : Answer} : {a : Answer} → Stack final a → Option String
  | .value, .push (b := .flow) (.define name) _ => some name.lexeme
  | .value, .push (b := .value) _ below => below.initializing?
  | _, _ => none

/-- The assignment whose value is there, and the variable that is being initialized around it. -/
def Config.assigning? : Config final → Option (NodeId × Token × Option String)
  | .answer (a := .value) _ (.push (.assign id name) stack) _ => some (id, name, stack.initializing?)
  | _ => none

theorem Config.exists_of_assigning? {c : Config final} {id : NodeId} {name : Token}
    {x : Option String} (h : c.assigning? = some (id, name, x)) :
    ∃ v stack σ, c = .answer (a := .value) v (.push (.assign id name) stack) σ
      ∧ stack.initializing? = x := by
  unfold Config.assigning? at h
  split at h
  · obtain ⟨rfl, rfl, rfl⟩ := by simpa using h
    exact ⟨_, _, _, rfl, rfl⟩
  · cases h

/-- What is pending where a value arrives is the variable that is being initialized there. -/
theorem Stack.Scoped.initializing?_eq {fs : Frames Value} {chain : Chain} {a : Answer}
    {stack : Stack final a} (hs : stack.Scoped known fs p chain) (ha : a = .value) :
    stack.initializing? = p.pending := by
  induction hs with
  | done =>
      subst ha
      rfl
  | push htask _ ih =>
      cases htask with
      | loopBody => cases ha
      | block => cases ha
      | body => cases ha
      | program => cases ha
      | discard => rfl
      | print => rfl
      | define => rfl
      | branch => rfl
      | loopTest => rfl
      | ret => rfl
      | superclass => rfl
      | _ => exact ih rfl

theorem Pending.Leads.of_assign {fs : Frames Value} {chain chain' : Chain} {p' : Place}
    {id : NodeId} {name : Token}
    (h : Pending.Leads known fs p chain (.assign id name) p' chain') :
    p' = p ∧ known id (p.visible.distance? name.lexeme) := by
  cases h with
  | assign _ _ hid => exact ⟨rfl, hid⟩

/-- In a scoped configuration, an assignment to a local binding overwrites it, unless the variable
is the one that is being initialized with the value of the assignment. -/
theorem Config.Scoped.assigns {id : NodeId} {name : Token} {v : Value} {stack : Stack final .value}
    (hc : Config.Scoped known (.answer (a := .value) v (.push (.assign id name) stack) σ))
    (hd : σ.distances[id]? = some d) :
    (stack.initializing? ≠ some name.lexeme → ∃ f, σ.chain[d]? = some f ∧ f ≠ globalFrame
        ∧ σ.frames.binds f name.lexeme = true
        ∧ (Config.answer (a := .value) v (.push (.assign id name) stack) σ).step
          = .inl (.answer (a := .value) v stack (σ.defineIn f name.lexeme v)))
      ∧ (stack.initializing? = some name.lexeme →
        (Config.answer (a := .value) v (.push (.assign id name) stack) σ).step
          = .inl (.faultAt (.undefinedVariable name.lexeme) name stack σ)) := by
  cases hc with
  | @answer _ p _ _ _ hσ hx hstack =>
      obtain ⟨p', chain', htask, hbelow⟩ := hstack.of_push
      obtain ⟨rfl, hid⟩ := htask.of_assign
      have hvisible := (hσ.sound.knows hid).symm.trans hd
      rw [hbelow.initializing?_eq rfl]
      refine ⟨fun hne => ?_, fun heq => ?_⟩
      · obtain ⟨f, hf, hglobal, hb⟩ := hσ.stands.binds_at hvisible hne
        have htarget : σ.target? id name.lexeme = some f := by
          simp [State.target?, hd, Frames.holderAt?, hf, hb]
        refine ⟨f, hf, hglobal, hb, ?_⟩
        simp only [Config.step, Config.resume, Config.resumeValue, Config.assignVariable, htarget]
      · obtain ⟨f, hf, hb⟩ := hσ.stands.not_binds_at hvisible heq
        have htarget : σ.target? id name.lexeme = none := by
          simp [State.target?, hd, Frames.holderAt?, hf, hb]
        simp only [Config.step, Config.resume, Config.resumeValue, Config.assignVariable, htarget]

end Machine

namespace Session

variable {s s' : Session} {source : String} {program : List Stmt} {n : Nat}

/-- At every moment of the run of an accepted source, in a session with any history, a variable,
`this` or `super` that is evaluated next and has a distance finds its name in the frame at that
distance, which is not the global one. For `super`, the frame before that one binds `this`. One
without a distance is a variable that is read in the global frame. -/
theorem read_finds_recorded_frame (hs : s.Reachable)
    (hcheck : s.check source = (some program, s')) {c : Config .flow}
    (hc : (Config.ofProgram program s'.σ).advance n = .inl c) {id : NodeId} {name : Token}
    (hread : c.reading? = some (id, name)) :
    (∀ d, c.state.distances[id]? = some d → c.state.BindsAt d name.lexeme
        ∧ (c.readsSuper = true → 0 < d ∧ c.state.BindsAt (d - 1) "this")
        ∧ ∃ c', c.step = .inl c' ∧ c'.undefinedName? = none)
      ∧ (c.state.distances[id]? = none → ∃ stack,
          c = .eval (.var id name) stack c.state ∧
          c.step = .inl
            (match c.state.frames.get? globalFrame name.lexeme with
              | some v => .answer (a := .value) v stack c.state
              | none => .faultAt (.undefinedVariable name.lexeme) name stack c.state)) :=
  (hs.scoped_advance hcheck hc).reads hread

/-- A method of a class from an aborted run reads `super` two frames out. -/
theorem read_of_super_after_aborted_run :
    ∃ (s s' : Session) (program : List Stmt) (c : Config .flow) (id : NodeId) (name : Token),
      s.Reachable ∧ s.check "b.f();" = (some program, s')
        ∧ (Config.ofProgram program s'.σ).advance 8 = .inl c ∧ c.reading? = some (id, name)
        ∧ name.lexeme = "super" ∧ c.state.BindsAt 2 "super" := by
  have h : (((initial .unlimited fun _ => 0).run 80
      "class A { f() {} } class B < A { f() { super.f(); } } var b = B(); b.g;").bind fun r =>
        (r.2.check "b.f();").1.bind fun program =>
          ((Config.ofProgram program (r.2.check "b.f();").2.σ).advance 8).getLeft?.bind fun c =>
            c.reading?.map fun q => (r.1, q.2.lexeme, c.state.distances[q.1]?))
      = some (.runtimeError, "super", some 2) := by
    decide +kernel
  simp only [Option.bind_eq_some_iff, Option.map_eq_some_iff] at h
  obtain ⟨⟨status, s⟩, hrun, program, hprogram, c, hc, ⟨id, name⟩, hread, hfacts⟩ := h
  obtain ⟨-, hname, hd⟩ : status = .runtimeError ∧ name.lexeme = "super" ∧ _ = some 2 := by
    simpa using hfacts
  have hreachable := Reachable.run (.initial .unlimited fun _ => 0) hrun
  have hcheck : s.check "b.f();" = (some program, (s.check "b.f();").2) := by rw [← hprogram]
  have hc := Sum.getLeft?_eq_some_iff.mp hc
  have hreads := read_finds_recorded_frame hreachable hcheck hc hread
  exact ⟨s, _, program, c, id, name, hreachable, hcheck, hc, hread, hname,
    hname ▸ (hreads.1 2 hd).1⟩

theorem exists_assignment (s : Session) (source : String) (n : Nat) {x : String}
    {y : Option String} {d : Nat}
    (h : ((s.check source).1.bind fun program =>
      ((Config.ofProgram program (s.check source).2.σ).advance n).getLeft?.bind fun c =>
        c.assigning?.map fun q => (q.2.1.lexeme, q.2.2, c.state.distances[q.1]?))
      = some (x, y, some d)) :
    ∃ program v id name stack σ, s.check source = (some program, (s.check source).2)
      ∧ (Config.ofProgram program (s.check source).2.σ).advance n
        = .inl (.answer (a := .value) v (.push (.assign id name) stack) σ)
      ∧ σ.distances[id]? = some d ∧ name.lexeme = x ∧ stack.initializing? = y := by
  simp only [Option.bind_eq_some_iff, Option.map_eq_some_iff] at h
  obtain ⟨program, hprogram, c, hc, ⟨id, name, x'⟩, hassign, hfacts⟩ := h
  obtain ⟨v, stack, σ, rfl, rfl⟩ := Config.exists_of_assigning? hassign
  obtain ⟨hname, hinitializing, hd⟩ : name.lexeme = x ∧ stack.initializing? = y
      ∧ σ.distances[id]? = some d := by
    simpa [Config.state] using hfacts
  exact ⟨program, v, id, name, stack, σ, by rw [← hprogram], Sum.getLeft?_eq_some_iff.mp hc, hd,
    hname, hinitializing⟩

/-- At every moment of the run of an accepted source, an assignment with a distance whose value is
there overwrites the binding of its name in the frame at that distance, unless it stands in the
initializer of the variable that it assigns to. In that case, and in that case only, the variable is
undefined. -/
theorem assignment_overwrites_unless_initializing (hs : s.Reachable)
    (hcheck : s.check source = (some program, s')) {v : Value} {id : NodeId} {name : Token}
    {stack : Stack .flow .value} {σ : State}
    (hc : (Config.ofProgram program s'.σ).advance n
      = .inl (.answer (a := .value) v (.push (.assign id name) stack) σ))
    {d : Nat} (hd : σ.distances[id]? = some d) :
    (stack.initializing? ≠ some name.lexeme → ∃ f, σ.chain[d]? = some f ∧ f ≠ globalFrame
        ∧ σ.frames.binds f name.lexeme = true
        ∧ (Config.answer (a := .value) v (.push (.assign id name) stack) σ).step
          = .inl (.answer (a := .value) v stack (σ.defineIn f name.lexeme v)))
      ∧ (stack.initializing? = some name.lexeme →
        (Config.answer (a := .value) v (.push (.assign id name) stack) σ).step
          = .inl (.faultAt (.undefinedVariable name.lexeme) name stack σ)) :=
  (hs.scoped_advance hcheck hc).assigns hd

/-- An assignment in the initializer of another variable overwrites its own. -/
theorem assignment_in_other_initializer :
    ∃ (s s' : Session) (program : List Stmt) (v : Value) (id : NodeId) (name : Token)
      (stack : Stack .flow .value) (σ : State) (f : FrameId),
      s.Reachable ∧ s.check "{ var a; { var b = a = true; } }" = (some program, s')
        ∧ (Config.ofProgram program s'.σ).advance 7
          = .inl (.answer (a := .value) v (.push (.assign id name) stack) σ)
        ∧ σ.distances[id]? = some 1 ∧ name.lexeme = "a" ∧ stack.initializing? = some "b"
        ∧ σ.chain[1]? = some f
        ∧ (Config.answer (a := .value) v (.push (.assign id name) stack) σ).step
          = .inl (.answer (a := .value) v stack (σ.defineIn f name.lexeme v)) := by
  obtain ⟨program, v, id, name, stack, σ, hcheck, hc, hd, hname, hinitializing⟩ :=
    exists_assignment (initial .unlimited fun _ => 0) "{ var a; { var b = a = true; } }" 7
      (show _ = some ("a", some "b", some 1) by decide +kernel)
  have hassigns := assignment_overwrites_unless_initializing (.initial ..) hcheck hc hd
  obtain ⟨f, hf, -, -, hstep⟩ := hassigns.1 (by rw [hinitializing, hname]; decide)
  exact ⟨_, _, program, v, id, name, stack, σ, f, .initial .., hcheck, hc, hd, hname, hinitializing,
    hf, hstep⟩

/-- An assignment in the initializer of its own variable fails, although resolution has recorded a
distance for it: the variable is declared, but its frame does not bind it yet. -/
theorem assignment_in_own_initializer_fails :
    ¬ ∀ (s s' : Session) (source : String) (program : List Stmt) (n : Nat) (v : Value) (id : NodeId)
      (name : Token) (stack : Stack .flow .value) (σ : State) (d : Nat),
      s.Reachable → s.check source = (some program, s') →
      (Config.ofProgram program s'.σ).advance n
        = .inl (.answer (a := .value) v (.push (.assign id name) stack) σ) →
      σ.distances[id]? = some d →
      ∃ f, σ.chain[d]? = some f
        ∧ (Config.answer (a := .value) v (.push (.assign id name) stack) σ).step
          = .inl (.answer (a := .value) v stack (σ.defineIn f name.lexeme v)) := by
  intro h
  have hs : (initial .unlimited fun _ => 0).Reachable := .initial ..
  obtain ⟨program, v, id, name, stack, σ, hcheck, hc, hd, hname, hinitializing⟩ :=
    exists_assignment (initial .unlimited fun _ => 0) "{ var a = a = 1; print a; }" 4
      (show _ = some ("a", some "a", some 0) by decide +kernel)
  obtain ⟨f, -, hstep⟩ := h _ _ _ _ _ _ _ _ _ _ _ hs hcheck hc hd
  have hfails := ((hs.scoped_advance hcheck hc).assigns hd).2 (by rw [hinitializing, hname])
  rw [hfails] at hstep
  cases hstep

end Session

end Lox
