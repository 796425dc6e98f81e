import Lox.Proofs.Renaming.Simulation

/-!
# Operations before and after a renaming

On related values and states, the operations that steps are made of give related results.
-/

namespace Lox

variable {ρ : Renaming} {tags : List Bool}

theorem Class.Renamed.id_eq {c c' : Class} (h : c.Renamed ρ tags c') : c'.id = c.id := by
  cases h <;> rfl

theorem Class.Renamed.name_eq {c c' : Class} (h : c.Renamed ρ tags c') : c'.name = c.name := by
  cases h <;> rfl

theorem Class.Renamed.findMethod? {c c' : Class} (h : c.Renamed ρ tags c') (x : String) :
    Option.Rel (Closure.Renamed ρ tags [false]) (c.findMethod? x) (c'.findMethod? x) := by
  induction h with
  | root id name hm => exact hm x trivial
  | @extending id name methods methods' c c' hm _ ih =>
      have hrel := hm x trivial
      rw [Class.findMethod?, Class.findMethod?]
      generalize methods.get? x = m at hrel ⊢
      generalize methods'.get? x = m' at hrel ⊢
      cases hrel with
      | some hf => exact .some hf
      | none => exact ih

theorem Class.Renamed.make (id : Identity) (name : String) {methods methods' : Bindings Closure}
    {c c' : Option Class}
    (hm : Bindings.Pointwise (Closure.Renamed ρ tags [false]) methods methods')
    (hc : Option.Rel (Class.Renamed ρ tags) c c') :
    (Class.make id name methods c).Renamed ρ tags (Class.make id name methods' c') := by
  cases hc with
  | some hc => exact .extending id name hm hc
  | none => exact .root id name hm

theorem Closure.Renamed.arity_eq {inner : List Bool} {f f' : Closure}
    (h : f.Renamed ρ tags inner f') : f'.decl.arity = f.decl.arity := by
  obtain ⟨marked, path, -, -, rfl⟩ := h
  obtain ⟨id, ⟨name, params, body⟩, chain, isInitializer⟩ := f
  simp [FunctionDecl.rename, FunctionDecl.arity]

theorem Class.Renamed.arity_eq {c c' : Class} (h : c.Renamed ρ tags c') : c'.arity = c.arity := by
  have hrel := h.findMethod? initializerName
  unfold Class.arity
  generalize c.findMethod? initializerName = m at hrel ⊢
  generalize c'.findMethod? initializerName = m' at hrel ⊢
  cases hrel with
  | some hf => exact hf.arity_eq
  | none => rfl

theorem Value.Renamed.truthy_eq {v v' : Value} (h : v.Renamed ρ tags v') :
    v'.truthy = v.truthy := by
  cases h <;> rfl

theorem Value.Renamed.equal_eq {v v' w w' : Value} (hv : v.Renamed ρ tags v')
    (hw : w.Renamed ρ tags w') : v'.equal w' = v.equal w := by
  cases hv with
  | function hf =>
      cases hw with
      | function hg =>
          obtain ⟨_, _, -, -, rfl⟩ := hf
          obtain ⟨_, _, -, -, rfl⟩ := hg
          rfl
      | _ => rfl
  | cls hc =>
      cases hw with
      | cls hd => simp only [Value.equal, hc.id_eq, hd.id_eq]
      | _ => rfl
  | _ => cases hw <;> rfl

namespace Machine

variable {σ σ' : State} {marked : List Bool} {v v' w w' : Value} {x : String} {d : Nat}

theorem arity?_eq (h : v.Renamed ρ tags v') : arity? v' = arity? v := by
  cases h with
  | function hf => simp only [arity?, hf.arity_eq]
  | cls hc => simp only [arity?, hc.arity_eq]
  | _ => rfl

theorem State.Renamed.display_eq (h : σ.Renamed ρ tags σ') (hv : v.Renamed ρ tags v') :
    σ'.display v' = σ.display v := by
  cases hv with
  | boolean b => cases b <;> rfl
  | function hf =>
      obtain ⟨_, _, -, -, rfl⟩ := hf
      simp only [State.display, FunctionDecl.name_rename]
  | cls hc => exact hc.name_eq
  | object id =>
      have hrel := h.objects id
      simp only [State.display]
      generalize σ.objects[id]? = o at hrel ⊢
      generalize σ'.objects[id]? = o' at hrel ⊢
      cases hrel with
      | some ho => simp only [ho.cls.name_eq]
      | none => rfl
  | _ => rfl

/-- Both sides give related values, or both fail. -/
inductive ResultRenamed (ρ : Renaming) (tags : List Bool) :
    Except Failure Value → Except Failure Value → Prop
  | ok {v v' : Value} (hv : v.Renamed ρ tags v') : ResultRenamed ρ tags (.ok v) (.ok v')
  | error (failure failure' : Failure) : ResultRenamed ρ tags (.error failure) (.error failure')

theorem renamed_applyUnary (operator : Token) (hv : v.Renamed ρ tags v') :
    ResultRenamed ρ tags (applyUnary operator v) (applyUnary operator v') := by
  unfold applyUnary
  split
  · cases hv with
    | number x => exact .ok (.number _)
    | _ => exact .error _ _
  · rw [hv.truthy_eq]
    exact .ok (.boolean _)
  · exact .error _ _

theorem renamed_applyNumeric (operator : Token) (x y : Float) :
    ResultRenamed ρ tags (applyNumeric operator x y) (applyNumeric operator x y) := by
  unfold applyNumeric
  split <;> first | exact .ok (.number _) | exact .ok (.boolean _) | exact .error _ _

theorem renamed_applyPlus (operator : Token) (hv : v.Renamed ρ tags v')
    (hw : w.Renamed ρ tags w') :
    ResultRenamed ρ tags (applyPlus operator v w) (applyPlus operator v' w') := by
  cases hv with
  | number x =>
      cases hw with
      | number y => exact .ok (.number _)
      | _ => exact .error _ _
  | string s =>
      cases hw with
      | string t => exact .ok (.string _)
      | _ => exact .error _ _
  | _ => exact .error _ _

theorem renamed_applyBinary (operator : Token) (hv : v.Renamed ρ tags v')
    (hw : w.Renamed ρ tags w') :
    ResultRenamed ρ tags (applyBinary v operator w) (applyBinary v' operator w') := by
  unfold applyBinary
  split
  · rw [hv.equal_eq hw]
    exact .ok (.boolean _)
  · rw [hv.equal_eq hw]
    exact .ok (.boolean _)
  · exact renamed_applyPlus operator hv hw
  · cases hv with
    | number x =>
        cases hw with
        | number y => exact renamed_applyNumeric operator x y
        | _ => exact .error _ _
    | _ => exact .error _ _

namespace State

/-- A name has related values at a distance, under the name that it has there. -/
theorem Renamed.getAt (h : σ.Renamed ρ tags σ') {chain : Chain} (hchain : Tagged tags marked chain)
    (d : Nat) (hx : x ≠ ρ.new) :
    Option.Rel (Value.Renamed ρ tags) (σ.frames.getAt chain d x)
      (σ'.frames.getAt chain d (ρ.name (marked.getD d false) x)) := by
  unfold Frames.getAt
  cases hd : chain[d]? with
  | none => exact .none
  | some f => exact h.frames.get? (hchain.getElem? hd) hx

theorem Renamed.getAt_implicit (h : σ.Renamed ρ tags σ') {chain : Chain}
    (hchain : Tagged tags marked chain) (d : Nat) (hx : Implicit x) :
    Option.Rel (Value.Renamed ρ tags) (σ.frames.getAt chain d x) (σ'.frames.getAt chain d x) := by
  have hrel := h.getAt hchain d (Renaming.new_ne_of_implicit hx)
  rwa [Renaming.name_of_ne (Renaming.old_ne_of_implicit hx)] at hrel

theorem Renamed.distances_eq (h : σ.Renamed ρ tags σ') : σ'.distances = σ.distances := by
  rw [h.rest_eq]

theorem Renamed.lookup? (h : σ.Renamed ρ tags σ') (hchain : Tagged tags marked σ.chain)
    (id : NodeId) (hx : x ≠ ρ.new) :
    Option.Rel (Value.Renamed ρ tags) (σ.lookup? id x)
      (σ'.lookup? id (ρ.name (ρ.refers marked id) x)) := by
  unfold State.lookup?
  rw [h.distances_eq, h.chain_eq, h.distances id, Renaming.refers]
  cases ρ.distance id with
  | some d => exact h.getAt hchain d hx
  | none =>
      simp only [globalChain, Frames.lookup_singleton]
      exact h.frames.get? h.untagged hx

theorem Renamed.lookup?_implicit (h : σ.Renamed ρ tags σ') (hchain : Tagged tags marked σ.chain)
    (id : NodeId) (hx : Implicit x) :
    Option.Rel (Value.Renamed ρ tags) (σ.lookup? id x) (σ'.lookup? id x) := by
  have hrel := h.lookup? hchain id (Renaming.new_ne_of_implicit hx)
  rwa [Renaming.name_of_ne (Renaming.old_ne_of_implicit hx)] at hrel

/-- An assignment goes to the same frame on both sides. -/
theorem Renamed.target?_eq (h : σ.Renamed ρ tags σ') (hchain : Tagged tags marked σ.chain)
    (id : NodeId) (hx : x ≠ ρ.new) :
    σ'.target? id (ρ.name (ρ.refers marked id) x) = σ.target? id x := by
  unfold State.target?
  rw [h.distances_eq, h.chain_eq, h.distances id, Renaming.refers]
  cases ρ.distance id with
  | some d =>
      simp only [Frames.holderAt?, Renaming.leads]
      cases hd : σ.chain[d]? with
      | none => rfl
      | some f => simp only [h.frames.binds (hchain.getElem? hd) hx]
  | none =>
      have hb := h.frames.binds h.untagged hx
      simp only [Renaming.leads, Renaming.name_false] at hb ⊢
      simp only [Frames.holder?, globalChain, List.find?_cons, hb, List.find?_nil]

/-- The frame that is assigned to has the tag of the scope that the assignment refers to. -/
theorem Renamed.tag_of_target? (h : σ.Renamed ρ tags σ') (hchain : Tagged tags marked σ.chain)
    {id : NodeId} {f : FrameId} (hf : σ.target? id x = some f) :
    tags[f]? = some (ρ.refers marked id) := by
  unfold State.target? at hf
  rw [h.distances id] at hf
  unfold Renaming.refers
  cases hd : ρ.distance id with
  | some d =>
      rw [hd] at hf
      exact hchain.getElem? (Frames.binds_of_holderAt? hf).1
  | none =>
      rw [hd] at hf
      have hmem := List.mem_of_find?_eq_some hf
      obtain rfl : f = globalFrame := by simpa [globalChain] using hmem
      exact h.untagged

theorem Renamed.property? (h : σ.Renamed ρ tags σ') (object : ObjectId) (x : String) :
    match σ.property? object x, σ'.property? object x with
    | some (.field v), some (.field v') => v.Renamed ρ tags v'
    | some (.method m), some (.method m') => m.Renamed ρ tags [false] m'
    | none, none => True
    | _, _ => False := by
  have hrel := h.objects object
  unfold State.property?
  generalize σ.objects[object]? = o at hrel ⊢
  generalize σ'.objects[object]? = o' at hrel ⊢
  cases hrel with
  | none => trivial
  | @some o o' ho =>
      have hfield := ho.fields x trivial
      have hmethod := ho.cls.findMethod? x
      dsimp only
      generalize o.fields.get? x = v at hfield ⊢
      generalize o'.fields.get? x = v' at hfield ⊢
      generalize o.cls.findMethod? x = m at hmethod ⊢
      generalize o'.cls.findMethod? x = m' at hmethod ⊢
      cases hfield with
      | some hv => exact hv
      | none =>
          cases hmethod with
          | some hm => exact hm
          | none => trivial

theorem Renamed.superMethod (h : σ.Renamed ρ tags σ') (hchain : Tagged tags marked σ.chain)
    (id : NodeId) {keyword : Token} (method : Token) (hx : Implicit keyword.lexeme) :
    match σ.superMethod id keyword method, σ'.superMethod id keyword method with
    | .ok (m, object), .ok (m', object') => m.Renamed ρ tags [false] m' ∧ object' = object
    | .error _, .error _ => True
    | _, _ => False := by
  unfold State.superMethod
  rw [h.distances_eq, h.chain_eq]
  cases σ.distances[id]? with
  | none => trivial
  | some d =>
      have hsuper := h.getAt_implicit hchain d hx
      have hthis := h.getAt_implicit hchain (d - 1) (.inl rfl)
      dsimp only
      generalize σ.frames.getAt σ.chain d keyword.lexeme = v at hsuper ⊢
      generalize σ'.frames.getAt σ.chain d keyword.lexeme = v' at hsuper ⊢
      generalize σ.frames.getAt σ.chain (d - 1) "this" = w at hthis ⊢
      generalize σ'.frames.getAt σ.chain (d - 1) "this" = w' at hthis ⊢
      cases hsuper with
      | none => trivial
      | some hv =>
          cases hv with
          | @cls c c' hc =>
              cases hthis with
              | none => trivial
              | some hw =>
                  cases hw with
                  | object object =>
                      have hmethod := hc.findMethod? method.lexeme
                      dsimp only
                      generalize c.findMethod? method.lexeme = m at hmethod ⊢
                      generalize c'.findMethod? method.lexeme = m' at hmethod ⊢
                      cases hmethod with
                      | some hm => exact ⟨hm, rfl⟩
                      | none => trivial
                  | _ => trivial
          | _ => trivial

theorem Renamed.setField (h : σ.Renamed ρ tags σ') (object : ObjectId) (x : String)
    (hv : v.Renamed ρ tags v') : (σ.setField object x v).Renamed ρ tags (σ'.setField object x v') := by
  obtain ⟨hrest, hframes, hsize, hobjects, huntagged, hdistances⟩ := h
  refine ⟨by rw [hrest]; rfl, hframes, by simpa [State.setField] using hsize, fun i => ?_,
    huntagged, hdistances⟩
  have hrel := hobjects i
  simp only [State.setField, Array.getElem?_modify]
  generalize σ.objects[i]? = o at hrel ⊢
  generalize σ'.objects[i]? = o' at hrel ⊢
  cases hrel with
  | none => split <;> exact .none
  | some ho =>
      split
      · exact .some ⟨ho.cls, ho.fields.set trivial (fun _ _ heq => heq) hv⟩
      · exact .some ho

theorem Renamed.allocate (h : σ.Renamed ρ tags σ') {c c' : Class} (hc : c.Renamed ρ tags c') :
    (σ.allocate c).Renamed ρ tags (σ'.allocate c') := by
  obtain ⟨hrest, hframes, hsize, hobjects, huntagged, hdistances⟩ := h
  refine ⟨by rw [hrest]; rfl, hframes, by simpa [State.allocate] using hsize, fun i => ?_,
    huntagged, hdistances⟩
  simp only [State.allocate, Array.getElem?_push, ← hsize]
  split
  · exact .some ⟨hc, Bindings.related_nil⟩
  · exact hobjects i

theorem Renamed.enter (h : σ.Renamed ρ tags σ') {m : Bool} {b b' : Bindings Value}
    (hb : Bindings.Related (· ≠ ρ.new) (ρ.name m) (Value.Renamed ρ tags) b b') {outer : Chain}
    (hchain : Tagged tags marked outer) :
    (σ.enter b outer).Renamed ρ (tags ++ [m]) (σ'.enter b' outer)
      ∧ Tagged (tags ++ [m]) (m :: marked) (σ.enter b outer).chain := by
  have hsize : σ'.frames.size = σ.frames.size := h.frames.size_eq'.trans h.frames.size_eq.symm
  refine ⟨(h.push hb).congr ⟨rfl, rfl, rfl⟩ ?_, ?_⟩
  · rw [State.enter, State.enter, hsize, h.rest_eq]
    rfl
  · have htagged := hchain.push m
    rwa [← h.frames.size_eq] at htagged

theorem related_implicit (hx : Implicit x) (hv : v.Renamed ρ tags v') :
    Bindings.Related (· ≠ ρ.new) (ρ.name false) (Value.Renamed ρ tags) [(x, v)] [(x, v')] :=
  Bindings.related_nil.set (Renaming.new_ne_of_implicit hx) (fun _ _ heq => heq) hv

theorem Renamed.bind (h : σ.Renamed ρ tags σ') {m m' : Closure} (hm : m.Renamed ρ tags [false] m')
    (object : ObjectId) :
    (σ.bind m object).2.Renamed ρ (tags ++ [false]) (σ'.bind m' object).2
      ∧ (σ.bind m object).1.Renamed ρ (tags ++ [false]) [] (σ'.bind m' object).1 := by
  have hsize : σ'.frames.size = σ.frames.size := h.frames.size_eq'.trans h.frames.size_eq.symm
  have hpushed := h.push (related_implicit (.inl rfl) (.object object))
  refine ⟨hpushed.congr ⟨rfl, rfl, rfl⟩ (by rw [h.rest_eq]; rfl), ?_⟩
  obtain ⟨inner, path, hchain, hb, rfl⟩ := hm
  have htagged := hchain.push false
  rw [← h.frames.size_eq] at htagged
  refine ⟨false :: inner, path, htagged, hb, ?_⟩
  simp only [State.bind, hsize, h.nextIdentity_eq, List.nil_append, List.cons_append]

theorem Renamed.makeMethods (h : σ.Renamed ρ tags σ') (hchain : Tagged tags marked σ.chain)
    {methods : List FunctionDecl} (hb : FunctionDecl.ListBuilt ρ.Fresh methods) (path : List Nat)
    (place : Nat) :
    List.Forall₂ (fun p q => q.1 = p.1 ∧ p.2.Renamed ρ tags [false] q.2)
        (σ.makeMethods methods).1
        (σ'.makeMethods (FunctionDecl.listRename ρ (false :: marked) path place methods)).1
      ∧ (σ.makeMethods methods).2.Renamed ρ tags
        (σ'.makeMethods (FunctionDecl.listRename ρ (false :: marked) path place methods)).2
      ∧ (σ.makeMethods methods).2.chain = σ.chain := by
  induction methods generalizing σ σ' place with
  | nil =>
      simp only [FunctionDecl.listRename, State.makeMethods]
      exact ⟨.nil, h, trivial⟩
  | cons m ms ih =>
      simp only [FunctionDecl.ListBuilt] at hb
      obtain ⟨hrest, hstate, hsame⟩ := ih h.useIdentity hchain hb.2 (place + 1)
      simp only [FunctionDecl.listRename, State.makeMethods]
      refine ⟨.cons ⟨by rw [FunctionDecl.name_rename], ?_⟩ hrest, hstate, hsame⟩
      refine ⟨marked, place :: path, hchain, hb.1, ?_⟩
      simp only [State.closure, h.chain_eq, h.nextIdentity_eq, FunctionDecl.isInitializer,
        FunctionDecl.name_rename, List.cons_append, List.nil_append]

end State

end Machine

end Lox
