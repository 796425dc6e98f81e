import Mathlib.Algebra.Order.BigOperators.Group.List
import Mathlib.Algebra.Order.Ring.Nat
import Lox.Proofs.Relabelling.Trees

/-!
# Trees that differ in their identities

If two trees are the same but for the identities of their nodes, and neither has an identity twice,
then one is the other with new identities.
-/

namespace Lox

/-- New identities for nodes, where tokens keep their lines. -/
def Relabelling.ofIds (g : NodeId → NodeId) : Relabelling where
  id := g
  line n := n

@[simp] theorem Relabelling.ofIds_id (g : NodeId → NodeId) : (Relabelling.ofIds g).id = g := rfl

@[simp] theorem Relabelling.ofIds_token (g : NodeId → NodeId) (t : Token) :
    (Relabelling.ofIds g).token t = t := rfl

@[simp] theorem Relabelling.anonymous_token (t : Token) : Relabelling.anonymous.token t = t := rfl

section Ids

variable (φ : Relabelling)

mutual

theorem Expr.ids_relabel : ∀ e : Expr, (e.relabel φ).ids = e.ids.map φ.id
  | .literal _ => rfl
  | .group inner => by simp [Expr.ids_relabel inner]
  | .unary _ operand => by simp [Expr.ids_relabel operand]
  | .binary left _ right => by simp [Expr.ids_relabel left, Expr.ids_relabel right]
  | .logical left _ right => by simp [Expr.ids_relabel left, Expr.ids_relabel right]
  | .conditional c t e => by simp [Expr.ids_relabel c, Expr.ids_relabel t, Expr.ids_relabel e]
  | .var _ _ => rfl
  | .assign _ _ value => by simp [Expr.ids_relabel value]
  | .call callee _ arguments => by simp [Expr.ids_relabel callee, Expr.listIds_relabel arguments]
  | .get object _ => by simp [Expr.ids_relabel object]
  | .set object _ value => by simp [Expr.ids_relabel object, Expr.ids_relabel value]
  | .this _ _ => rfl
  | .super _ _ _ => rfl

theorem Expr.listIds_relabel : ∀ es : List Expr,
    Expr.listIds (Expr.listRelabel φ es) = (Expr.listIds es).map φ.id
  | [] => rfl
  | e :: es => by simp [Expr.ids_relabel e, Expr.listIds_relabel es]

end

theorem Expr.ids?_relabel (e : Option Expr) :
    Expr.ids? (e.map (Expr.relabel φ)) = (Expr.ids? e).map φ.id := by
  cases e with
  | none => rfl
  | some e => exact Expr.ids_relabel φ e

mutual

theorem Stmt.ids_relabel : ∀ s : Stmt, (s.relabel φ).ids = s.ids.map φ.id
  | .expression e => Expr.ids_relabel φ e
  | .print e => Expr.ids_relabel φ e
  | .var _ initializer => Expr.ids?_relabel φ initializer
  | .block body => Stmt.listIds_relabel body
  | .ifThen c t => by simp [Expr.ids_relabel φ c, Stmt.ids_relabel t]
  | .ifElse c t e => by simp [Expr.ids_relabel φ c, Stmt.ids_relabel t, Stmt.ids_relabel e]
  | .loop c body => by simp [Expr.ids_relabel φ c, Stmt.ids_relabel body]
  | .function decl => FunctionDecl.ids_relabel decl
  | .ret _ value => Expr.ids?_relabel φ value
  | .classDecl _ superclass methods => by
      rw [Stmt.relabel, Stmt.ids, Stmt.ids, Expr.ids?_relabel φ superclass,
        FunctionDecl.listIds_relabel methods, List.map_append]

theorem Stmt.listIds_relabel : ∀ ss : List Stmt,
    Stmt.listIds (Stmt.listRelabel φ ss) = (Stmt.listIds ss).map φ.id
  | [] => rfl
  | s :: ss => by simp [Stmt.ids_relabel s, Stmt.listIds_relabel ss]

theorem FunctionDecl.ids_relabel : ∀ f : FunctionDecl, (f.relabel φ).ids = f.ids.map φ.id
  | ⟨_, _, body⟩ => Stmt.listIds_relabel body

theorem FunctionDecl.listIds_relabel : ∀ fs : List FunctionDecl,
    FunctionDecl.listIds (FunctionDecl.listRelabel φ fs) = (FunctionDecl.listIds fs).map φ.id
  | [] => rfl
  | f :: fs => by simp [FunctionDecl.ids_relabel f, FunctionDecl.listIds_relabel fs]

end

end Ids

section Alike

variable {g : NodeId → NodeId}

theorem map_append_eq_append {xs ys xs' ys' : List NodeId} (h : (xs ++ ys).map g = xs' ++ ys')
    (hlen : xs.length = xs'.length) : xs.map g = xs' ∧ ys.map g = ys' := by
  rw [List.map_append] at h
  exact List.append_inj h (by rw [List.length_map, hlen])

theorem Expr.length_ids_of_alike {e e' : Expr}
    (h : e.relabel .anonymous = e'.relabel .anonymous) : e.ids.length = e'.ids.length := by
  have hids := congrArg (List.length ∘ Expr.ids) h
  simpa [Expr.ids_relabel] using hids

mutual

theorem Expr.relabel_of_alike : ∀ {e e' : Expr}, e.relabel .anonymous = e'.relabel .anonymous →
    e.ids.map g = e'.ids → e.relabel (.ofIds g) = e'
  | .literal value, e', h, _ => by
      cases e' <;> simp at h
      simp [h]
  | .group inner, e', h, hids => by
      cases e' <;> simp at h
      simp [Expr.relabel_of_alike h hids]
  | .unary _ operand, e', h, hids => by
      cases e' <;> simp at h
      simp [h.1, Expr.relabel_of_alike h.2 hids]
  | .binary left _ right, e', h, hids => by
      cases e' <;> simp at h
      obtain ⟨hl, ht, hr⟩ := h
      obtain ⟨hleft, hright⟩ := map_append_eq_append hids (Expr.length_ids_of_alike hl)
      simp [ht, Expr.relabel_of_alike hl hleft, Expr.relabel_of_alike hr hright]
  | .logical left _ right, e', h, hids => by
      cases e' <;> simp at h
      obtain ⟨hl, ht, hr⟩ := h
      obtain ⟨hleft, hright⟩ := map_append_eq_append hids (Expr.length_ids_of_alike hl)
      simp [ht, Expr.relabel_of_alike hl hleft, Expr.relabel_of_alike hr hright]
  | .conditional c t e, e', h, hids => by
      cases e' <;> simp at h
      obtain ⟨hc, ht, he⟩ := h
      obtain ⟨hct, hids⟩ := map_append_eq_append hids
        (by simp [Expr.length_ids_of_alike hc, Expr.length_ids_of_alike ht])
      obtain ⟨hcids, htids⟩ := map_append_eq_append hct (Expr.length_ids_of_alike hc)
      simp [Expr.relabel_of_alike hc hcids, Expr.relabel_of_alike ht htids,
        Expr.relabel_of_alike he hids]
  | .var id _, e', h, hids => by
      cases e' <;> simp at h
      simp at hids
      simp [h, hids]
  | .assign id _ value, e', h, hids => by
      cases e' <;> simp at h
      obtain ⟨-, ht, hv⟩ := h
      obtain ⟨hvalue, hid⟩ := map_append_eq_append hids (Expr.length_ids_of_alike hv)
      simp at hid
      simp [ht, hid, Expr.relabel_of_alike hv hvalue]
  | .call callee _ arguments, e', h, hids => by
      cases e' <;> simp at h
      obtain ⟨hc, ht, ha⟩ := h
      obtain ⟨hcallee, harguments⟩ := map_append_eq_append hids (Expr.length_ids_of_alike hc)
      simp [ht, Expr.relabel_of_alike hc hcallee, Expr.listRelabel_of_alike ha harguments]
  | .get object _, e', h, hids => by
      cases e' <;> simp at h
      simp [h.2, Expr.relabel_of_alike h.1 hids]
  | .set object _ value, e', h, hids => by
      cases e' <;> simp at h
      obtain ⟨ho, ht, hv⟩ := h
      obtain ⟨hvalue, hobject⟩ := map_append_eq_append hids (Expr.length_ids_of_alike hv)
      simp [ht, Expr.relabel_of_alike ho hobject, Expr.relabel_of_alike hv hvalue]
  | .this id _, e', h, hids => by
      cases e' <;> simp at h
      simp at hids
      simp [h, hids]
  | .super id _ _, e', h, hids => by
      cases e' <;> simp at h
      simp at hids
      simp [h, hids]

theorem Expr.listRelabel_of_alike : ∀ {es es' : List Expr},
    Expr.listRelabel .anonymous es = Expr.listRelabel .anonymous es' →
    (Expr.listIds es).map g = Expr.listIds es' → Expr.listRelabel (.ofIds g) es = es'
  | [], es', h, _ => by
      cases es' <;> simp at h
      rfl
  | e :: es, es', h, hids => by
      cases es' <;> simp at h
      obtain ⟨he, hes⟩ := map_append_eq_append hids (Expr.length_ids_of_alike h.1)
      simp [Expr.relabel_of_alike h.1 he, Expr.listRelabel_of_alike h.2 hes]

end

theorem Expr.ids?_eq_of_alike {e e' : Option Expr}
    (h : e.map (Expr.relabel .anonymous) = e'.map (Expr.relabel .anonymous)) :
    (Expr.ids? e).length = (Expr.ids? e').length := by
  have hids := congrArg (List.length ∘ Expr.ids?) h
  simpa only [Function.comp_apply, Expr.ids?_relabel, List.length_map] using hids

theorem Expr.map_relabel_of_alike {e e' : Option Expr}
    (h : e.map (Expr.relabel .anonymous) = e'.map (Expr.relabel .anonymous))
    (hids : (Expr.ids? e).map g = Expr.ids? e') : e.map (Expr.relabel (.ofIds g)) = e' := by
  cases e with
  | none => exact (Option.map_eq_none_iff.mp h.symm).symm
  | some e =>
      obtain ⟨e', rfl, he⟩ := Option.map_eq_some_iff.mp h.symm
      exact congrArg some (Expr.relabel_of_alike he.symm hids)

theorem Stmt.length_ids_of_alike {s s' : Stmt}
    (h : s.relabel .anonymous = s'.relabel .anonymous) : s.ids.length = s'.ids.length := by
  have hids := congrArg (List.length ∘ Stmt.ids) h
  simpa only [Function.comp_apply, Stmt.ids_relabel, List.length_map] using hids

theorem Stmt.length_listIds_of_alike {ss ss' : List Stmt}
    (h : Stmt.listRelabel .anonymous ss = Stmt.listRelabel .anonymous ss') :
    (Stmt.listIds ss).length = (Stmt.listIds ss').length := by
  have hids := congrArg (List.length ∘ Stmt.listIds) h
  simpa only [Function.comp_apply, Stmt.listIds_relabel, List.length_map] using hids

theorem FunctionDecl.length_ids_of_alike {f f' : FunctionDecl}
    (h : f.relabel .anonymous = f'.relabel .anonymous) : f.ids.length = f'.ids.length := by
  have hids := congrArg (List.length ∘ FunctionDecl.ids) h
  simpa only [Function.comp_apply, FunctionDecl.ids_relabel, List.length_map] using hids

mutual

theorem Stmt.relabel_of_alike : ∀ {s s' : Stmt}, s.relabel .anonymous = s'.relabel .anonymous →
    s.ids.map g = s'.ids → s.relabel (.ofIds g) = s'
  | .expression e, s', h, hids => by
      cases s' <;> simp only [Stmt.relabel, reduceCtorEq, Stmt.expression.injEq] at h
      exact congrArg Stmt.expression (Expr.relabel_of_alike h hids)
  | .print e, s', h, hids => by
      cases s' <;> simp only [Stmt.relabel, reduceCtorEq, Stmt.print.injEq] at h
      exact congrArg Stmt.print (Expr.relabel_of_alike h hids)
  | .var name initializer, s', h, hids => by
      cases s' <;> simp only [Stmt.relabel, reduceCtorEq, Stmt.var.injEq,
        Relabelling.anonymous_token] at h
      obtain ⟨rfl, hinitializer⟩ := h
      exact congrArg (Stmt.var name) (Expr.map_relabel_of_alike hinitializer hids)
  | .block body, s', h, hids => by
      cases s' <;> simp only [Stmt.relabel, reduceCtorEq, Stmt.block.injEq] at h
      exact congrArg Stmt.block (Stmt.listRelabel_of_alike h hids)
  | .ifThen c t, s', h, hids => by
      cases s' <;> simp only [Stmt.relabel, reduceCtorEq, Stmt.ifThen.injEq] at h
      obtain ⟨hc, ht⟩ := h
      obtain ⟨hcids, htids⟩ := map_append_eq_append hids (Expr.length_ids_of_alike hc)
      simp only [Stmt.relabel, Expr.relabel_of_alike hc hcids, Stmt.relabel_of_alike ht htids]
  | .ifElse c t e, s', h, hids => by
      cases s' <;> simp only [Stmt.relabel, reduceCtorEq, Stmt.ifElse.injEq] at h
      obtain ⟨hc, ht, he⟩ := h
      obtain ⟨hct, hids⟩ := map_append_eq_append hids
        (by simp [Expr.length_ids_of_alike hc, Stmt.length_ids_of_alike ht])
      obtain ⟨hcids, htids⟩ := map_append_eq_append hct (Expr.length_ids_of_alike hc)
      simp only [Stmt.relabel, Expr.relabel_of_alike hc hcids, Stmt.relabel_of_alike ht htids,
        Stmt.relabel_of_alike he hids]
  | .loop c body, s', h, hids => by
      cases s' <;> simp only [Stmt.relabel, reduceCtorEq, Stmt.loop.injEq] at h
      obtain ⟨hc, hb⟩ := h
      obtain ⟨hcids, hbids⟩ := map_append_eq_append hids (Expr.length_ids_of_alike hc)
      simp only [Stmt.relabel, Expr.relabel_of_alike hc hcids, Stmt.relabel_of_alike hb hbids]
  | .function decl, s', h, hids => by
      cases s' <;> simp only [Stmt.relabel, reduceCtorEq, Stmt.function.injEq] at h
      exact congrArg Stmt.function (FunctionDecl.relabel_of_alike h hids)
  | .ret keyword value, s', h, hids => by
      cases s' <;> simp only [Stmt.relabel, reduceCtorEq, Stmt.ret.injEq,
        Relabelling.anonymous_token] at h
      obtain ⟨rfl, hvalue⟩ := h
      exact congrArg (Stmt.ret keyword) (Expr.map_relabel_of_alike hvalue hids)
  | .classDecl name superclass methods, s', h, hids => by
      cases s' <;> simp only [Stmt.relabel, reduceCtorEq, Stmt.classDecl.injEq,
        Relabelling.anonymous_token] at h
      obtain ⟨rfl, hs, hm⟩ := h
      obtain ⟨hsids, hmids⟩ := map_append_eq_append hids (Expr.ids?_eq_of_alike hs)
      rw [Stmt.relabel, Expr.map_relabel_of_alike hs hsids,
        FunctionDecl.listRelabel_of_alike hm hmids]
      rfl

theorem Stmt.listRelabel_of_alike : ∀ {ss ss' : List Stmt},
    Stmt.listRelabel .anonymous ss = Stmt.listRelabel .anonymous ss' →
    (Stmt.listIds ss).map g = Stmt.listIds ss' → Stmt.listRelabel (.ofIds g) ss = ss'
  | [], ss', h, _ => by
      cases ss' <;> simp only [Stmt.listRelabel, reduceCtorEq] at h
      rfl
  | s :: ss, ss', h, hids => by
      cases ss' <;> simp only [Stmt.listRelabel, reduceCtorEq, List.cons.injEq] at h
      obtain ⟨hs, hss⟩ := map_append_eq_append hids (Stmt.length_ids_of_alike h.1)
      simp only [Stmt.listRelabel, Stmt.relabel_of_alike h.1 hs, Stmt.listRelabel_of_alike h.2 hss]

theorem FunctionDecl.relabel_of_alike : ∀ {f f' : FunctionDecl},
    f.relabel .anonymous = f'.relabel .anonymous → f.ids.map g = f'.ids →
    f.relabel (.ofIds g) = f'
  | ⟨name, params, body⟩, ⟨name', params', body'⟩, h, hids => by
      simp only [FunctionDecl.relabel, FunctionDecl.mk.injEq, Relabelling.anonymous_token] at h
      obtain ⟨rfl, hparams, hbody⟩ := h
      have htoken : Relabelling.anonymous.token = id := rfl
      rw [htoken, List.map_id, List.map_id] at hparams
      rw [FunctionDecl.relabel, Stmt.listRelabel_of_alike hbody hids, ← hparams]
      exact congrArg (FunctionDecl.mk name · body') (List.map_id params)

theorem FunctionDecl.listRelabel_of_alike : ∀ {fs fs' : List FunctionDecl},
    FunctionDecl.listRelabel .anonymous fs = FunctionDecl.listRelabel .anonymous fs' →
    (FunctionDecl.listIds fs).map g = FunctionDecl.listIds fs' →
    FunctionDecl.listRelabel (.ofIds g) fs = fs'
  | [], fs', h, _ => by
      cases fs' <;> simp only [FunctionDecl.listRelabel, reduceCtorEq] at h
      rfl
  | f :: fs, fs', h, hids => by
      cases fs' <;> simp only [FunctionDecl.listRelabel, reduceCtorEq, List.cons.injEq] at h
      obtain ⟨hf, hfs⟩ := map_append_eq_append hids (FunctionDecl.length_ids_of_alike h.1)
      simp only [FunctionDecl.listRelabel, FunctionDecl.relabel_of_alike h.1 hf,
        FunctionDecl.listRelabel_of_alike h.2 hfs]

end

/-- Different identities can be replaced by any others, with all the rest sent elsewhere. -/
theorem exists_injective_map {xs ys : List Nat} (hlen : xs.length = ys.length) (hx : xs.Nodup)
    (hy : ys.Nodup) : ∃ g : Nat → Nat, Function.Injective g ∧ xs.map g = ys := by
  have hbound {i : Nat} (h : i ∈ xs) : xs.idxOf i < ys.length :=
    hlen ▸ List.idxOf_lt_length_of_mem h
  let g (i : Nat) : Nat := if h : i ∈ xs then ys.get ⟨xs.idxOf i, hbound h⟩ else ys.sum + 1 + i
  have hmem {i : Nat} (h : i ∈ xs) : g i = ys.get ⟨xs.idxOf i, hbound h⟩ := dif_pos h
  have hnot {i : Nat} (h : i ∉ xs) : g i = ys.sum + 1 + i := dif_neg h
  have hle {i : Nat} (h : i ∈ xs) : g i ≤ ys.sum := by
    rw [hmem h]
    exact List.single_le_sum (fun _ _ => Nat.zero_le _) _ (List.get_mem ys _)
  refine ⟨g, fun i j hij => ?_, ?_⟩
  · by_cases hi : i ∈ xs <;> by_cases hj : j ∈ xs
    · rw [hmem hi, hmem hj] at hij
      exact (List.idxOf_inj hi).mp (congrArg Fin.val (List.nodup_iff_injective_get.mp hy hij))
    · have hbound := hle hi
      rw [hij, hnot hj] at hbound
      omega
    · have hbound := hle hj
      rw [← hij, hnot hi] at hbound
      omega
    · rw [hnot hi, hnot hj] at hij
      exact Nat.add_left_cancel hij
  · refine List.ext_getElem (by rw [List.length_map, hlen]) fun i hi _ => ?_
    rw [List.getElem_map, hmem (List.getElem_mem _)]
    simp only [List.get_eq_getElem, List.Nodup.idxOf_getElem hx]

/-- Programs that differ in nothing but identities are relabelled into one another. -/
theorem exists_relabel_of_alike {ss ss' : List Stmt}
    (h : Stmt.listRelabel .anonymous ss = Stmt.listRelabel .anonymous ss')
    (hnodup : (Stmt.listIds ss).Nodup) (hnodup' : (Stmt.listIds ss').Nodup) :
    ∃ g : NodeId → NodeId, Function.Injective g ∧ Stmt.listRelabel (.ofIds g) ss = ss' := by
  obtain ⟨g, hg, hids⟩ := exists_injective_map (Stmt.length_listIds_of_alike h) hnodup hnodup'
  exact ⟨g, hg, Stmt.listRelabel_of_alike h hids⟩

end Alike

end Lox
