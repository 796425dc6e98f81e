import Lox.Proofs.Calls.Returns
import Lox.Proofs.Methods.Held

/-!
# Calls of classes and initializers

A call of a class gives the object that it makes, and a call of an initializer gives the object that the
initializer is bound to, whatever their bodies return.
-/

namespace Lox.Machine.Config

variable {inner final : Answer} {σ τ : State} {v : Value} {f : Closure} {d : Class} {paren : Token}
  {arguments : List Value} {n : Nat}

/-- A call of a class that does not fail is a call of its initializer, if it has one, and then gives
the object. -/
theorem eq_object_of_callClass
    (h : (callClass d paren arguments .done σ : Config .value).advance n = .inr ⟨.ok v, τ⟩) :
    v = .object σ.objects.size := by
  cases hinit : d.findMethod? initializerName with
  | none =>
      rw [callClass_of_none hinit] at h
      cases outcome_eq_of_end rfl h
      rfl
  | some init =>
      let base : Stack .value .value := .push (.construct σ.objects.size) .done
      let bound := (σ.allocate d).bind init σ.objects.size
      have hcall : callClass d paren arguments .done σ
          = (callFunction bound.1 paren arguments (.done : Stack .value .value) bound.2).onto base :=
        (callClass_of_some hinit paren arguments _).trans
          (onto_callFunction bound.1 paren arguments .done).symm
      rw [hcall] at h
      obtain ⟨_, m, _, w, σ', -, -, -, -, hrest⟩ := exists_answer h
      match m, hrest with
      | 0, hrest => cases hrest
      | 1, hrest => cases hrest
      | m + 2, hrest =>
          cases hrest
          rfl

/-- A call of a class that does not fail gives an object that is new, and that is an object of this very
class in the end. -/
theorem object_of_class_call
    (h : (call (.cls d) paren arguments .done σ : Config .value).advance n = .inr ⟨.ok v, τ⟩) :
    ∃ i o, v = .object i ∧ σ.objects[i]? = none ∧ τ.objects[i]? = some o ∧ o.cls = d := by
  by_cases harity : d.arity = arguments.length
  · have hcall : call (.cls d) paren arguments (.done : Stack .value .value) σ
        = callClass d paren arguments .done σ := if_neg (not_not_intro harity)
    rw [hcall] at h
    have hgrows := grows_of_end h (W := fun _ => True) fun _ _ _ _ _ => trivial
    obtain ⟨o, ho, hcls⟩ := stored_callClass d paren arguments (.done : Stack .value .value)
    obtain ⟨o', ho', hcls'⟩ := hgrows.cls ho
    exact ⟨σ.objects.size, o', eq_object_of_callClass h, by simp, ho', hcls'.trans hcls⟩
  · have hcall : call (.cls d) paren arguments (.done : Stack .value .value) σ
        = faultAt (.wrongArity d.arity arguments.length) paren .done σ := if_pos harity
    rw [hcall] at h
    exact absurd (result_of_fail h) nofun

/-- A call of an initializer that does not fail gives the object that the initializer is bound to, as
long as nothing in the call binds `this` or assigns to it. -/
theorem value_of_initializer {object : ObjectId} (hf : f.isInitializer = true)
    (hbound : f.BoundTo σ.frames object)
    (hthis : ∀ j c x, (call (.function f) paren arguments .done σ : Config .value).advance j
      = .inl c → c.written? = some x → x ≠ "this")
    (h : (call (.function f) paren arguments .done σ : Config .value).advance n = .inr ⟨.ok v, τ⟩) :
    v = .object object := by
  obtain ⟨body, -, -, -, hcall⟩ := exists_body h
  have hstart : σ.Grows (· ≠ "this")
      (call (.function f) paren arguments (.done : Stack .value .value) σ).state :=
    grows_call (.refl _ σ) (.function f) paren arguments .done
  rw [hcall] at h hstart hthis
  obtain ⟨k, m, last, flow, σ', rfl, hlast, -, hgiven, hrest⟩ := exists_answer h
  have hmoment : (body.onto (.push (.body f paren) (.done : Stack .value .value))).advance k
      = .inl (.answer flow (.push (.body f paren) .done) σ') := by
    rw [← hgiven]
    exact advance_onto hlast
  obtain ⟨g, outer, hchain, hg⟩ := hbound
  -- Nothing in the call has written to `this`, so that the frame keeps the object.
  have hkept : σ'.frames.get? g "this" = some (.object object) :=
    (hstart.trans (grows_of_advance hmoment fun j c x => hthis j c x)).get? (by simp) hg
  have hread : σ'.frames.getAt f.chain 0 "this" = some (.object object) := by
    simp [Frames.getAt, hchain, hkept]
  cases m with
  | zero => cases hrest
  | succ m =>
      have hend : (endCall f paren flow .done σ' : Config .value).advance m = .inr ⟨.ok v, τ⟩ := hrest
      simp only [endCall, hf, hread, if_true] at hend
      cases m with
      | zero => cases hend
      | succ m =>
          cases hend
          rfl

end Lox.Machine.Config
