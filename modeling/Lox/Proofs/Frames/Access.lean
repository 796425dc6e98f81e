import Lox.Machine.Step
import Lox.Proofs.Frames.Extension

/-!
# Access by name and by distance

A name is read in, and assigned to, the nearest frame of a chain that binds it. Where the distance
of this frame is known, access by distance is the same. An assignment changes the value of one name
in one frame, and this is seen through every chain that shares the frame.
-/

namespace Lox.Frames

variable {α : Type} {fs fs' : Frames α} {f g : FrameId} {chain : Chain} {x y : String} {v w : α}
  {d : Nat}

/-- The frame at the distance binds the name, and no nearer frame of the chain does. -/
structure Nearest (fs : Frames α) (chain : Chain) (x : String) (d : Nat) (f : FrameId) : Prop where
  frame : chain[d]? = some f
  binds : fs.binds f x = true
  nearer : ∀ i < d, ∀ g, chain[i]? = some g → fs.binds g x = false

/-- The holder of a name is the nearest frame that binds it. -/
theorem holder?_eq_some_iff : fs.holder? chain x = some f ↔ ∃ d, fs.Nearest chain x d f := by
  unfold holder?
  rw [List.find?_eq_some_iff_getElem]
  constructor
  · rintro ⟨hb, d, hd, hf, hnearer⟩
    refine ⟨d, by rw [List.getElem?_eq_getElem hd, hf], hb, fun i hi g hg => ?_⟩
    obtain ⟨hlt, rfl⟩ := List.getElem?_eq_some_iff.mp hg
    simpa using hnearer i hi
  · rintro ⟨d, hframe, hb, hnearer⟩
    obtain ⟨hd, hf⟩ := List.getElem?_eq_some_iff.mp hframe
    refine ⟨hb, d, hd, hf, fun i hi => ?_⟩
    have hlt : i < chain.length := hi.trans hd
    simpa using hnearer i hi _ (List.getElem?_eq_getElem hlt)

theorem Nearest.holder? (h : fs.Nearest chain x d f) : fs.holder? chain x = some f :=
  holder?_eq_some_iff.mpr ⟨d, h⟩

theorem holder?_eq_none_iff : fs.holder? chain x = none ↔ ∀ f ∈ chain, fs.binds f x = false := by
  simp [Frames.holder?]

theorem holderAt?_eq_some_iff :
    fs.holderAt? chain d x = some f ↔ chain[d]? = some f ∧ fs.binds f x = true := by
  refine ⟨binds_of_holderAt?, ?_⟩
  rintro ⟨hf, hb⟩
  simp only [holderAt?, hf, hb, if_true]

theorem holderAt?_eq_none (h : ∀ f, chain[d]? = some f → fs.binds f x = false) :
    fs.holderAt? chain d x = none := by
  cases hholder : fs.holderAt? chain d x with
  | none => rfl
  | some f =>
      obtain ⟨hf, hb⟩ := binds_of_holderAt? hholder
      rw [h f hf] at hb
      cases hb

/-- A name is read in its holder. -/
theorem lookup_eq_bind (fs : Frames α) (chain : Chain) (x : String) :
    fs.lookup chain x = (fs.holder? chain x).bind fun f => fs.get? f x := by
  induction chain with
  | nil => rfl
  | cons f outer ih =>
      cases hv : fs.get? f x with
      | none => simpa [lookup, Frames.holder?, binds, hv] using ih
      | some v => simp [lookup, Frames.holder?, binds, hv]

theorem getAt_eq_bind (fs : Frames α) (chain : Chain) (d : Nat) (x : String) :
    fs.getAt chain d x = (fs.holderAt? chain d x).bind fun f => fs.get? f x := by
  unfold getAt holderAt?
  cases chain[d]? with
  | none => rfl
  | some f => cases hv : fs.get? f x <;> simp [binds, hv]

theorem binds_define_eq (hb : fs.binds f x = true) (g : FrameId) (y : String) :
    (fs.define f x v).binds g y = fs.binds g y := by
  by_cases h : g ≠ f ∨ y ≠ x
  · exact binds_define_of_ne h
  · obtain ⟨rfl, rfl⟩ : g = f ∧ y = x := by simpa [not_or] using h
    rw [binds_define_self (lt_size_of_binds hb), hb]

theorem get?_define (hb : fs.binds f x = true) (g : FrameId) (y : String) :
    (fs.define f x v).get? g y = if g = f ∧ y = x then some v else fs.get? g y := by
  split
  · next h =>
    obtain ⟨rfl, rfl⟩ := h
    exact get?_define_self (lt_size_of_binds hb)
  · next h => exact get?_define_of_ne (Decidable.not_and_iff_or_not.mp h)

/-- Through a chain, the new value is seen where the frame of the assignment holds the name. -/
theorem lookup_define (hb : fs.binds f x = true) (chain : Chain) (y : String) :
    (fs.define f x v).lookup chain y
      = if y = x ∧ fs.holder? chain x = some f then some v else fs.lookup chain y := by
  have hholder : (fs.define f x v).holder? chain y = fs.holder? chain y := by
    simp only [Frames.holder?, binds_define_eq hb]
  rw [lookup_eq_bind, lookup_eq_bind, hholder]
  cases hg : fs.holder? chain y with
  | none =>
      rw [if_neg]
      · rfl
      · rintro ⟨rfl, hf⟩
        cases hg.symm.trans hf
  | some g =>
      rw [Option.bind_some, Option.bind_some, get?_define hb]
      refine if_congr ?_ rfl rfl
      constructor
      · rintro ⟨rfl, rfl⟩
        exact ⟨rfl, hg⟩
      · rintro ⟨rfl, hf⟩
        exact ⟨Option.some.inj (hg.symm.trans hf), rfl⟩

theorem getAt_define (hb : fs.binds f x = true) (chain : Chain) (d : Nat) (y : String) :
    (fs.define f x v).getAt chain d y
      = if y = x ∧ chain[d]? = some f then some v else fs.getAt chain d y := by
  unfold getAt
  cases hg : chain[d]? with
  | none => simp
  | some g =>
      simp only [get?_define hb, Option.some.injEq]
      exact if_congr And.comm rfl rfl

/-- The second store differs from the first one in the value of a name that one of its frames binds.
The new value is what is read through every chain that shares this frame, and all other reads give
what they gave before. -/
structure Overwrites (fs : Frames α) (f : FrameId) (x : String) (v : α) (fs' : Frames α) :
    Prop where
  binds : fs.binds f x = true
  size : fs'.size = fs.size
  get? : ∀ g y, fs'.get? g y = if g = f ∧ y = x then some v else fs.get? g y
  lookup : ∀ chain y, fs'.lookup chain y
    = if y = x ∧ fs.holder? chain x = some f then some v else fs.lookup chain y
  getAt : ∀ chain d y, fs'.getAt chain d y
    = if y = x ∧ chain[d]? = some f then some v else fs.getAt chain d y

theorem overwrites_define (hb : fs.binds f x = true) : fs.Overwrites f x v (fs.define f x v) :=
  ⟨hb, size_define fs f x v, get?_define hb, lookup_define hb, getAt_define hb⟩

/-- The result of an assignment to the given frame, where there is one. -/
def write (fs : Frames α) (target : Option FrameId) (x : String) (v : α) : Bool × Frames α :=
  match target with
  | some f => (true, fs.define f x v)
  | none => (false, fs)

theorem eq_of_write_eq_false {target : Option FrameId} (h : fs.write target x v = (false, fs')) :
    fs' = fs := by
  cases target with
  | none => exact (congrArg Prod.snd h).symm
  | some f => cases congrArg Prod.fst h

/-- The recursion outwards writes to the holder of the name. -/
theorem tryAssign_eq_write (fs : Frames α) (chain : Chain) (x : String) (v : α) :
    fs.tryAssign chain x v = fs.write (fs.holder? chain x) x v := by
  induction chain with
  | nil => rfl
  | cons f outer ih =>
      rw [tryAssign, ih, Frames.holder?, Frames.holder?, List.find?_cons]
      cases fs.binds f x <;> rfl

/-- The walk to a distance writes to the frame it comes to. -/
theorem tryAssignAt_eq_write (fs : Frames α) (chain : Chain) (d : Nat) (x : String) (v : α) :
    fs.tryAssignAt chain d x v = fs.write (fs.holderAt? chain d x) x v := by
  unfold tryAssignAt ancestor? holderAt?
  rw [← List.head?_drop]
  cases chain.drop d with
  | nil => rfl
  | cons f outer => cases hb : fs.binds f x <;> simp [hb, write]

theorem assign_eq_some_iff :
    fs.assign chain x v = some fs' ↔ ∃ f, fs.holder? chain x = some f ∧ fs.define f x v = fs' := by
  rw [assign, tryAssign_eq_write]
  cases fs.holder? chain x <;> simp [write]

theorem assignAt_eq_some_iff :
    fs.assignAt chain d x v = some fs'
      ↔ ∃ f, fs.holderAt? chain d x = some f ∧ fs.define f x v = fs' := by
  rw [assignAt, tryAssignAt_eq_write]
  cases fs.holderAt? chain d x <;> simp [write]

/-- At the distance of the nearest frame that binds the name, access by distance and access by name
are the same and succeed. Where no frame of the chain binds the name both fail, as does every access
past the end of the chain. An assignment that succeeds overwrites one value in the frame it is
about, and one that fails leaves all frames as they are. -/
theorem access_by_distance (fs : Frames α) (chain : Chain) (x : String) (v : α) :
    (∀ d f, fs.Nearest chain x d f →
        (∃ w, fs.getAt chain d x = some w ∧ fs.lookup chain x = some w)
          ∧ ∃ fs', fs.assignAt chain d x v = some fs' ∧ fs.assign chain x v = some fs')
      ∧ ((∀ f ∈ chain, fs.binds f x = false) →
          fs.lookup chain x = none ∧ fs.assign chain x v = none
            ∧ ∀ d, fs.getAt chain d x = none ∧ fs.assignAt chain d x v = none)
      ∧ (∀ d, chain.length ≤ d →
          fs.getAt chain d x = none ∧ fs.assignAt chain d x v = none)
      ∧ (∀ fs', fs.assign chain x v = some fs' →
          ∃ d f, fs.Nearest chain x d f ∧ fs.Overwrites f x v fs')
      ∧ (∀ d fs', fs.assignAt chain d x v = some fs' →
          ∃ f, chain[d]? = some f ∧ fs.Overwrites f x v fs')
      ∧ (∀ fs', fs.tryAssign chain x v = (false, fs') → fs' = fs)
      ∧ ∀ d fs', fs.tryAssignAt chain d x v = (false, fs') → fs' = fs := by
  have hmiss (d : Nat) (h : ∀ f, chain[d]? = some f → fs.binds f x = false) :
      fs.getAt chain d x = none ∧ fs.assignAt chain d x v = none := by
    have hholder := holderAt?_eq_none h
    exact ⟨by rw [getAt_eq_bind, hholder]; rfl,
      by rw [assignAt, tryAssignAt_eq_write, hholder]; rfl⟩
  refine ⟨fun d f h => ⟨?_, ?_⟩, fun h => ⟨?_, ?_, fun d => ?_⟩, fun d hd => ?_, fun fs' h => ?_,
    fun d fs' h => ?_, fun fs' h => ?_, fun d fs' h => ?_⟩
  · obtain ⟨w, hw⟩ := Option.isSome_iff_exists.mp h.binds
    refine ⟨w, ?_, ?_⟩
    · rw [getAt_eq_bind, holderAt?_eq_some_iff.mpr ⟨h.frame, h.binds⟩, Option.bind_some, hw]
    · rw [lookup_eq_bind, h.holder?, Option.bind_some, hw]
  · refine ⟨fs.define f x v, ?_, ?_⟩
    · exact assignAt_eq_some_iff.mpr ⟨f, holderAt?_eq_some_iff.mpr ⟨h.frame, h.binds⟩, rfl⟩
    · exact assign_eq_some_iff.mpr ⟨f, h.holder?, rfl⟩
  · rw [lookup_eq_bind, holder?_eq_none_iff.mpr h]
    rfl
  · rw [assign, tryAssign_eq_write, holder?_eq_none_iff.mpr h]
    rfl
  · exact hmiss d fun f hf => h f (List.mem_of_getElem? hf)
  · refine hmiss d fun f hf => ?_
    rw [List.getElem?_eq_none hd] at hf
    cases hf
  · obtain ⟨f, hf, rfl⟩ := assign_eq_some_iff.mp h
    obtain ⟨d, hnearest⟩ := holder?_eq_some_iff.mp hf
    exact ⟨d, f, hnearest, overwrites_define hnearest.binds⟩
  · obtain ⟨f, hf, rfl⟩ := assignAt_eq_some_iff.mp h
    obtain ⟨hframe, hb⟩ := binds_of_holderAt? hf
    exact ⟨f, hframe, overwrites_define hb⟩
  · rw [tryAssign_eq_write] at h
    exact eq_of_write_eq_false h
  · rw [tryAssignAt_eq_write] at h
    exact eq_of_write_eq_false h

/-- Two frames inside of a common one, the first of which shadows one of its names. -/
def siblings : Frames Nat :=
  ⟨#[[("a", 1), ("n", 5)], [("a", 2)], [("b", 3)]]⟩

/-- What one sibling assigns to a name of the common frame, the other one reads. An assignment past
the common frame fails. -/
theorem assigned_in_common_frame :
    siblings.Nearest [1, 0] "n" 1 0
      ∧ (∃ fs', siblings.assignAt [1, 0] 1 "n" 9 = some fs'
        ∧ siblings.assign [1, 0] "n" 9 = some fs' ∧ fs'.lookup [2, 0] "n" = some 9
        ∧ fs'.getAt [2, 0] 1 "n" = some 9 ∧ fs'.lookup [1, 0] "a" = some 2)
      ∧ (siblings.assign [1, 0] "c" 9 = none ∧ siblings.getAt [1, 0] 1 "c" = none)
      ∧ siblings.assignAt [1, 0] 2 "n" 9 = none
      ∧ (siblings.tryAssign [1, 0] "c" 9).2 = siblings
      ∧ (siblings.tryAssignAt [1, 0] 2 "n" 9).2 = siblings := by
  have hnearest : siblings.Nearest [1, 0] "n" 1 0 := by
    refine ⟨rfl, by decide, ?_⟩
    rintro i hi g hg
    obtain rfl : i = 0 := by omega
    obtain rfl : 1 = g := Option.some.inj hg
    decide
  obtain ⟨hsame, -, hpast, -, hat, -, hkept⟩ := access_by_distance siblings [1, 0] "n" 9
  obtain ⟨-, habsent, -, -, -, hkept', -⟩ := access_by_distance siblings [1, 0] "c" 9
  obtain ⟨fs', hassignAt, hassign⟩ := (hsame 1 0 hnearest).2
  obtain ⟨f, hframe, hover⟩ := hat 1 fs' hassignAt
  obtain rfl : 0 = f := Option.some.inj hframe
  obtain ⟨-, hfails, hnone⟩ := habsent (by decide)
  refine ⟨hnearest, ⟨fs', hassignAt, hassign, ?_, ?_, ?_⟩, ⟨hfails, (hnone 1).1⟩,
    (hpast 2 le_rfl).2, hkept' _ rfl, hkept 2 _ rfl⟩
  · rw [hover.lookup, if_pos (by decide)]
  · rw [hover.getAt, if_pos (by decide)]
  · rw [hover.lookup, if_neg (by decide)]
    rfl

end Lox.Frames

namespace Lox.Machine

/-- The assignment of a node: by its distance if it is local, and otherwise by name in the global
frame. -/
def State.tryAssign (σ : State) (id : NodeId) (x : String) (v : Value) : Bool × Frames Value :=
  match σ.distances[id]? with
  | some d => σ.frames.tryAssignAt σ.chain d x v
  | none => σ.frames.tryAssign globalChain x v

/-- A run assigns in this way, and goes on with the frames afterwards whether it succeeds or not. -/
theorem Config.assignVariable_eq {final : Answer} (id : NodeId) (name : Token) (v : Value)
    (stack : Stack final .value) (σ : State) :
    Config.assignVariable id name v stack σ = match σ.tryAssign id name.lexeme v with
      | (true, fs) => .answer (a := .value) v stack { σ with frames := fs }
      | (false, fs) =>
          .faultAt (.undefinedVariable name.lexeme) name stack { σ with frames := fs } := by
  have hassign : σ.tryAssign id name.lexeme v
      = σ.frames.write (σ.target? id name.lexeme) name.lexeme v := by
    unfold State.tryAssign State.target?
    cases σ.distances[id]? with
    | none => exact Frames.tryAssign_eq_write ..
    | some d => exact Frames.tryAssignAt_eq_write ..
  rw [hassign, assignVariable]
  cases σ.target? id name.lexeme <;> rfl

end Lox.Machine
