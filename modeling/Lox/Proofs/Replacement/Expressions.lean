import Lox.Proofs.Grammar.Complete.Expressions
import Lox.Proofs.Relabelling.Parsing
import Lox.Proofs.Replacement.Seams

/-!
# Expressions before a seam

An expression that ends at a seam or before it is found again in the other input, where its nodes get
other identities. The token behind the seam must not be one with which an expression goes on.
-/

namespace Lox.Grammar

/-- The symbols that the rules of expressions look for. -/
def sought : List Symbol :=
  .bang :: .comma :: Nonterminal.expression.continuing

/-- An expression may end at the seam. -/
structure Seam.Calm (S : Seam) : Prop extends S.Fair where
  quiet : ∀ s ∈ sought, S.Quiet (· == .symbol s)
  opened : S.first = [] → 0 < S.floor

variable {S : Seam} {n m : Nat}

namespace Seam

theorem Fair.calm_raised (h : S.Fair) : S.raised.Calm where
  toFair := h.raised
  quiet s hs := h.quiet_raised fun s' hs' => by
    have hne : ∀ s ∈ sought, ∀ s' ∈ [Symbol.leftBrace, .whileWord], s' ≠ s := by decide
    simpa using hne s hs s' hs'
  opened _ := Nat.succ_pos _

end Seam

section Tokens

variable {α γ : Type} {T : α → Prop} {f : α → γ} {k k' : Option Token → Rule α}

theorem beq_forWord {s : Symbol} (hs : s ∈ sought) :
    (Terminal.symbol .forWord == .symbol s) = false := by
  have hfor : Symbol.forWord ≠ s := by
    rintro rfl
    exact absurd hs (by decide)
  simpa using hfor

theorem tracks_accept (hS : S.Calm) {s : Symbol} (hs : s ∈ sought) :
    Tracks S m (fun t? => t?.isSome) id (accept s) (accept s) :=
  tracks_takeIf hS.toFair (beq_forWord hs) (hS.quiet s hs)

theorem tracks_accept_bind (hS : S.Calm) {s : Symbol} (hs : s ∈ sought)
    (hnone : Tracks S (m + 1) T f (k none) (k' none))
    (hsome : ∀ t, TracksAny S m f (k (some t)) (k' (some t))) :
    Tracks S (m + 1) T f (accept s >>= k) (accept s >>= k') :=
  tracks_takeIf_bind hS.toFair (beq_forWord hs) (hS.quiet s hs) hnone hsome

theorem tracks_acceptAny_bind (hS : S.Calm) {symbols : List Symbol}
    (hsub : ∀ s ∈ symbols, s ∈ sought) (hnone : Tracks S (m + 1) T f (k none) (k' none))
    (hsome : ∀ t, TracksAny S m f (k (some t)) (k' (some t))) :
    Tracks S (m + 1) T f (acceptAny symbols >>= k) (acceptAny symbols >>= k') := by
  apply tracks_takeIf_bind hS.toFair ?_ ?_ hnone hsome
  · have hfor : Symbol.forWord ∉ symbols := fun h => absurd (hsub _ h) (by decide)
    simpa using hfor
  · intro hle t l hsecond ht
    dsimp only at ht ⊢
    split at ht
    · next s hterminal =>
      obtain ⟨u, l', hfirst, hu⟩ := hS.quiet s (hsub s (by simpa using ht)) hle t l hsecond
        (beq_iff_eq.mpr hterminal)
      refine ⟨u, l', hfirst, ?_⟩
      rw [beq_iff_eq.mp hu]
      exact ht
    · cases ht

end Tokens

section Suffixes

variable {expression₁ expression₂ : Rule Expr}

theorem tracks_argumentList (hS : S.Calm)
    (h : TracksTaken S m (Expr.relabel .anonymous) expression₁ expression₂) :
    TracksTaken S m (Suffix.relabel .anonymous) (argumentList expression₁)
      (argumentList expression₂) := by
  have hclose (as bs : List Expr)
      (hab : bs.map (Expr.relabel .anonymous) = as.map (Expr.relabel .anonymous)) :
      TracksTaken S m (Suffix.relabel .anonymous)
        (do let paren ← expect .rightParen .argumentsEnd; pure (Suffix.call paren as))
        (do let paren ← expect .rightParen .argumentsEnd; pure (Suffix.call paren bs)) := by
    refine (tracks_expect hS.toFair (by decide) _).taken_pure fun paren paren' hparen => ?_
    obtain rfl : paren' = paren := hparen
    rw [Suffix.relabel, Suffix.relabel, Expr.listRelabel_eq_map, Expr.listRelabel_eq_map, hab]
  unfold argumentList
  refine (tracks_sees hS.toFair (by decide) (by decide)).bind_taken fun empty empty' hempty => ?_
  obtain rfl : empty' = empty := hempty
  cases empty' with
  | true => exact hclose [] [] rfl
  | false =>
      exact (tracks_commaSeparated .tooManyArguments hS.toFair hS.opened
        (hS.quiet .comma (by decide)) h).bind_last hclose

theorem tracks_suffix? (hS : S.Calm)
    (h : TracksTaken S m (Expr.relabel .anonymous) expression₁ expression₂) :
    Tracks S (m + 1) (fun s? => s?.isSome) (Option.map (Suffix.relabel .anonymous))
      (suffix? expression₁) (suffix? expression₂) := by
  unfold suffix?
  refine tracks_acceptAny_bind hS (by decide) (.pure Bool.false_ne_true rfl) fun t => ?_
  dsimp only
  split
  · refine (tracks_expectName hS.toFair _).bind_pure fun name name' hname => ?_
    exact congrArg (fun t : Token => some (Suffix.relabel .anonymous (.get t))) hname
  · exact (tracks_argumentList hS h).bind_pure fun s s' hs => congrArg some hs

/-- Where an identity is handed out, any other one will do. -/
theorem tracks_freshId_pure {node node' : NodeId → Expr}
    (h : ∀ i j, (node' j).relabel .anonymous = (node i).relabel .anonymous) :
    TracksAny S m (Expr.relabel .anonymous) (do let id ← freshId; pure (node id))
      (do let id ← freshId; pure (node' id)) :=
  tracks_freshId.bind_pure fun i j _ => h i j

theorem tracks_primary (hS : S.Fair)
    (h : TracksTaken S m (Expr.relabel .anonymous) expression₁ expression₂) :
    TracksTaken S (m + 1) (Expr.relabel .anonymous) (primary expression₁)
      (primary expression₂) := by
  have hliteral (value : Literal) : TracksAny S m (Expr.relabel .anonymous)
      (pure (Expr.literal value)) (pure (Expr.literal value)) :=
    .pure id rfl
  unfold primary
  refine tracks_peek_bind (fun line => advances_fail _) (fun t => ?_) ?_
  · generalize t.kind = kind
    split
    iterate 5
      · exact tracksAt_take_bind (hliteral _)
    · exact tracksAt_take_bind (tracks_freshId_pure fun _ _ => rfl)
    · refine tracksAt_take_bind ((tracks_expect hS (by decide) _).any_bind fun _ _ _ => ?_)
      refine (tracks_expectName hS _).any_bind fun method method' hmethod => ?_
      obtain rfl : method' = method := hmethod
      exact tracks_freshId_pure fun _ _ => rfl
    · exact tracksAt_take_bind (tracks_freshId_pure fun _ _ => rfl)
    · refine tracksAt_take_bind (h.any_bind fun inner inner' hinner => ?_)
      refine (tracks_expect hS (by decide) _).bind_pure fun _ _ _ => ?_
      exact congrArg Expr.group hinner
    · exact (tracks_fail _).at
  · intro c a d hrun _ hc _ hlt c' _ _
    obtain ⟨t, l, hfirst, ht⟩ := hS.first hlt
    have hkind : c.next.kind = .symbol .forWord := by
      rw [Cursor.next, hc, hfirst, List.headD_cons]
      exact kind_of_symbol ht
    rw [bind_apply, peek] at hrun
    dsimp only at hrun
    rw [hkind] at hrun
    cases hrun

theorem tracks_postfixed (hS : S.Calm)
    (h : TracksTaken S m (Expr.relabel .anonymous) expression₁ expression₂) :
    TracksTaken S (m + 1) (Expr.relabel .anonymous) (postfixed expression₁)
      (postfixed expression₂) := by
  unfold postfixed
  refine (tracks_primary hS.toFair h).taken_bind fun base base' hbase => ?_
  have hsuffixes := tracks_collect hS.opened (fun _ => tracks_suffix? hS h) fun _ c hc => by
    rw [suffix?, bind_apply, acceptAny, takeIf_nil hc]
    rfl
  refine hsuffixes.bind_pure fun suffixes suffixes' hs => ?_
  rw [relabel_foldl_apply, relabel_foldl_apply, hbase, hs]

end Suffixes

theorem tracks_leftAssociative (hS : S.Calm) {level : Level} (hlevel : level ∈ levels)
    {operand operand' : Rule Expr}
    (h : TracksTaken S m (Expr.relabel .anonymous) operand operand') :
    TracksTaken S m (Expr.relabel .anonymous) (leftAssociative level operand)
      (leftAssociative level operand') := by
  have hoperators : ∀ level ∈ levels, ∀ s ∈ level.operators, s ∈ sought := by
    decide
  have hnode := relabel_node (φ := .anonymous) level hlevel
  unfold leftAssociative
  refine h.taken_bind fun first first' hfirst => ?_
  have hstep : Tracks S m (fun x? => x?.isSome) (Option.map (relabelOperand .anonymous))
      (rightOperand? level operand) (rightOperand? level operand') := by
    refine Tracks.le ?_ (Nat.le_succ m)
    refine tracks_acceptAny_bind hS (hoperators level hlevel) (.pure Bool.false_ne_true rfl)
      fun operator => ?_
    refine h.bind_pure fun right right' hright => ?_
    exact congrArg (fun e => some (operator, e)) hright
  have hmore := tracks_collect hS.opened (fun _ => hstep) fun _ c hc => by
    rw [rightOperand?, bind_apply, acceptAny, takeIf_nil hc]
    rfl
  refine hmore.bind_pure fun more more' hmore => ?_
  calc (more'.foldl (fun l x => level.node l x.1 x.2) first').relabel .anonymous
      = (more'.map (relabelOperand .anonymous)).foldl (fun l x => level.node l x.1 x.2)
          (first'.relabel .anonymous) := relabel_foldl_node hnode more' first'
    _ = (more.map (relabelOperand .anonymous)).foldl (fun l x => level.node l x.1 x.2)
          (first.relabel .anonymous) := by rw [hfirst, hmore]
    _ = (more.foldl (fun l x => level.node l x.1 x.2) first).relabel .anonymous :=
        (relabel_foldl_node hnode more first).symm

theorem tracks_binaryOver (hS : S.Calm) {unary unary' : Rule Expr}
    (h : TracksTaken S m (Expr.relabel .anonymous) unary unary') {ls : List Level}
    (hls : ∀ level ∈ ls, level ∈ levels) :
    TracksTaken S m (Expr.relabel .anonymous) (binaryOver unary ls) (binaryOver unary' ls) := by
  induction ls with
  | nil => exact h
  | cons level tighter ih =>
      apply tracks_leftAssociative hS (hls level List.mem_cons_self)
      exact ih fun level' hmem => hls level' (List.mem_cons_of_mem level hmem)

section Rules

variable {self self' : Nonterminal → Rule Expr}

theorem tracks_unaryRule (hS : S.Calm)
    (hself : ∀ x, TracksTaken S m (Expr.relabel .anonymous) (self x) (self' x)) :
    TracksTaken S (m + 1) (Expr.relabel .anonymous) (unaryRule self) (unaryRule self') := by
  unfold unaryRule
  refine tracks_acceptAny_bind hS (by decide) ?_ fun operator => ?_
  · exact tracks_postfixed hS (hself .expression)
  · exact (hself .unary).bind_pure fun _ _ h => congrArg (Expr.unary operator) h

theorem tracks_conditionalRule (hS : S.Calm)
    (hself : ∀ x, TracksTaken S m (Expr.relabel .anonymous) (self x) (self' x)) :
    TracksTaken S (m + 1) (Expr.relabel .anonymous) (conditionalRule self)
      (conditionalRule self') := by
  unfold conditionalRule
  refine (tracks_binaryOver hS (tracks_unaryRule hS hself) fun _ => id).taken_bind
    fun condition condition' hc => ?_
  refine tracks_accept_bind hS (by decide) (.pure id hc) fun question => ?_
  refine (hself .conditional).any_bind fun thenBranch thenBranch' ht => ?_
  refine (tracks_expect hS.toFair (by decide) _).any_bind fun _ _ _ => ?_
  refine (hself .conditional).bind_pure fun elseBranch elseBranch' he => ?_
  simp only [Expr.relabel, hc, ht, he]

theorem tracks_assignTo {target target' value value' : Expr} (equals : Token)
    (htarget : target'.relabel .anonymous = target.relabel .anonymous)
    (hvalue : value'.relabel .anonymous = value.relabel .anonymous) :
    TracksAny S m (Expr.relabel .anonymous) (assignTo target equals value)
      (assignTo target' equals value') := by
  cases target with
  | var id name =>
      cases target' <;> simp only [Expr.relabel, reduceCtorEq, Expr.var.injEq] at htarget
      obtain ⟨-, hname⟩ := htarget
      obtain rfl : _ = name := hname
      exact tracks_freshId_pure fun _ _ => congrArg (Expr.assign 0 _) hvalue
  | get object name =>
      cases target' <;> simp only [Expr.relabel, reduceCtorEq, Expr.get.injEq] at htarget
      obtain ⟨hobject, hname⟩ := htarget
      refine .pure id ?_
      simp only [Expr.relabel, hobject, hvalue, hname]
  | _ =>
      exact tracks_record_bind _ equals (.pure id)

theorem tracks_assignmentRule (hS : S.Calm)
    (hself : ∀ x, TracksTaken S m (Expr.relabel .anonymous) (self x) (self' x)) :
    TracksTaken S (m + 1) (Expr.relabel .anonymous) (assignmentRule self)
      (assignmentRule self') := by
  unfold assignmentRule
  refine (tracks_conditionalRule hS hself).taken_bind fun target target' ht => ?_
  refine tracks_accept_bind hS (by decide) (.pure id ht) fun equals => ?_
  exact (hself .expression).any_bind fun value value' hv => tracks_assignTo equals ht hv

end Rules

/-- Where the second input is at its end, a rule that takes a token does not succeed before the floor
in the first one. -/
theorem tracks_of_zero {α γ : Type} {f : α → γ} {r r' : Rule α} (hS : S.Fair)
    (hr : Advances (fun _ => True) r) : TracksTaken S 0 f r r' where
  advances := hr
  found c a d hrun hclean hfloor c' hmeets hlen := by
    have hlt := ((hr c).ok a d hrun).2.2 trivial hclean
    have hc' : c'.rest = [] := List.length_eq_zero_iff.mp (Nat.le_zero.mp hlen)
    obtain ⟨t, l, l', -, hl', -⟩ | ⟨hc, hsecond⟩ | ⟨hc, -⟩ := hmeets.cases
    · exact absurd (hc'.symm.trans hl') (List.cons_ne_nil t l').symm
    · rw [hc] at hlt
      obtain ⟨t, l, s, h, -⟩ := hS.second (lt_of_le_of_lt hfloor hlt)
      exact absurd ((hc'.symm.trans hsecond).trans h) (List.cons_ne_nil t l).symm
    · rw [hc] at hlt
      exact absurd hlt (Nat.not_lt_zero _)

theorem tracks_expressionUpTo (hS : S.Calm) (n : Nat) :
    ∀ m x, TracksTaken S m (Expr.relabel .anonymous) (expressionUpTo n x)
      (expressionUpTo m x) := by
  induction n with
  | zero => exact fun m x => tracks_fail _
  | succ n ih =>
      have hsucc (m : Nat) (x : Nonterminal) : TracksTaken S (m + 1) (Expr.relabel .anonymous)
          (expressionUpTo (n + 1) x) (expressionUpTo (m + 1) x) := by
        cases x with
        | expression => exact tracks_assignmentRule hS (ih m)
        | conditional => exact tracks_conditionalRule hS (ih m)
        | unary => exact tracks_unaryRule hS (ih m)
      intro m x
      cases m with
      | zero => exact tracks_of_zero hS.toFair (hsucc 0 x).advances
      | succ m => exact hsucc m x

theorem tracks_expression (hS : S.Calm) (m : Nat) :
    TracksTaken S m (Expr.relabel .anonymous) expression expression where
  advances c := by
    have h := (tracks_expressionUpTo hS c.rest.length 0 .expression).advances c
    exact ⟨h.ok, h.error⟩
  found c a d hrun hclean hfloor c' hmeets _ :=
    (tracks_expressionUpTo hS c.rest.length c'.rest.length .expression).found c a d hrun hclean
      hfloor c' hmeets le_rfl

end Lox.Grammar
