import Lox.Proofs.Concatenation.Statements
import Lox.Proofs.Replacement.Expressions

/-!
# Statements before a seam

A statement that ends at a seam or before it is found again in the other input. If a statement begins
at the seam, then what is found there has to be known already.
-/

namespace Lox.Grammar

variable {S : Seam} {n m : Nat}

/-- Where a result may go beyond the seam, the statements that begin there are the same. -/
def Seam.Filled (S : Seam) : Prop :=
  S.floor < S.first.length → ∀ n m, ∀ c s d, statementUpTo n c = .ok s d →
    d.errors.length = c.errors.length → c.rest = S.first → S.floor ≤ d.rest.length →
      ∀ c' : Cursor, c'.rest = S.second → c'.rest.length ≤ m →
        ∃ s' d', statementUpTo m c' = .ok s' d' ∧ d'.errors = c'.errors ∧ S.Meets d.rest d'.rest
          ∧ s'.relabel .anonymous = s.relabel .anonymous

section Recovery

variable {α γ : Type} {f : α → γ} {r r' : Rule α}

/-- A rule that fails leaves an error behind. -/
theorem tracks_recover (h : TracksTaken S m f r r') :
    TracksTaken S m (Option.map f) (recover r) (recover r') where
  advances c := by
    constructor
    · intro a? d hrun
      unfold recover at hrun
      split at hrun
      · next a c' hrc =>
        cases hrun
        obtain ⟨hrest, herrors, htaken⟩ := (h.advances c).ok a _ hrc
        exact ⟨hrest, herrors, fun _ => htaken trivial⟩
      · next e c' hrc =>
        cases hrun
        obtain ⟨hrest, herrors⟩ := (h.advances c).error e c' hrc
        have hlen := (synchronize_suffix c'.rest).length_le
        simp only [Cursor.record, List.length_append, List.length_singleton]
        exact ⟨hlen.trans hrest, by omega, fun _ hclean => by omega⟩
    · intro e d hrun
      unfold recover at hrun
      split at hrun <;> cases hrun
  found c a? d hrun hclean hfloor c' hmeets hlen := by
    unfold recover at hrun
    split at hrun
    · next a c₁ hrc =>
      cases hrun
      obtain ⟨b, d', hrun', hsame, hmeets', hb⟩ := h.found c a _ hrc hclean hfloor c' hmeets hlen
      exact ⟨some b, d', by rw [recover, hrun'], hsame, hmeets', congrArg some hb⟩
    · next e c₁ hrc =>
      cases hrun
      have herrors := ((h.advances c).error e c₁ hrc).2
      simp only [Cursor.record, List.length_append, List.length_singleton] at hclean
      omega

end Recovery

section Rules

variable {statement statement' : Rule Stmt} {declaration declaration' : Rule (Option Stmt)}

theorem tracks_beforeBrace {α γ : Type} {f : α → γ} {item item' : Rule α} (hS : S.Fair)
    (h : TracksTaken S m f item item') :
    Tracks S.raised m (fun a? => a?.isSome) (Option.map f) (beforeBrace item)
      (beforeBrace item') := by
  unfold beforeBrace
  refine (tracks_sees hS (by decide) (by decide)).bind_last fun closed closed' hclosed => ?_
  obtain rfl : closed' = closed := hclosed
  have hatEnd : TracksAny S.raised m id atEnd atEnd := by
    apply tracks_atEnd
    · intro hle
      obtain ⟨t, k, hfirst, -⟩ := hS.first hle
      exact hfirst ▸ List.cons_ne_nil t k
    · intro hle
      obtain ⟨t, k, s, hsecond, -⟩ := hS.second hle
      exact hsecond ▸ List.cons_ne_nil t k
  refine hatEnd.bind_last fun ended ended' hended => ?_
  obtain rfl : ended' = ended := hended
  split
  · exact .pure Bool.false_ne_true rfl
  · have hitem : TracksTaken S.raised m (Option.map f) (do let a ← item; pure (some a))
        (do let b ← item'; pure (some b)) :=
      h.raise.taken_pure fun a b hab => congrArg some hab
    exact hitem.mono fun _ _ => trivial

theorem beforeBrace_at_end {α : Type} {item : Rule α} {c : Cursor} (hc : c.rest = []) :
    beforeBrace item c = .ok none c := by
  have hend : atEnd c = .ok true c := by rw [atEnd, hc, List.isEmpty_nil]
  rw [beforeBrace, bind_apply, sees]
  dsimp only
  rw [bind_apply, hend]
  dsimp only
  rw [Bool.or_true, if_pos rfl]
  rfl

theorem tracks_block (hS : S.Fair)
    (hd : TracksTaken S m (Option.map (Stmt.relabel .anonymous)) declaration declaration') :
    TracksTaken S m (Stmt.listRelabel .anonymous) (block declaration) (block declaration') := by
  have hdeclarations : TracksAny S.raised m (Stmt.listRelabel .anonymous)
      (declarations declaration) (declarations declaration') := by
    unfold declarations
    refine (tracks_collect hS.calm_raised.opened (fun _ => tracks_beforeBrace hS hd)
      fun _ c hc => beforeBrace_at_end hc).bind_pure fun found found' hfound => ?_
    rw [relabel_filterMap_id, relabel_filterMap_id, hfound]
  unfold block
  refine hdeclarations.bind_taken fun body body' hbody => ?_
  exact (tracks_expect hS (by decide) _).taken_pure fun _ _ _ => hbody

theorem tracks_callable (hS : S.Fair) (sort : Callable)
    (hd : TracksTaken S m (Option.map (Stmt.relabel .anonymous)) declaration declaration') :
    TracksTaken S m (FunctionDecl.relabel .anonymous) (callable declaration sort)
      (callable declaration' sort) := by
  unfold callable
  refine (tracks_expectName hS _).bind_last fun name name' hname => ?_
  obtain rfl : name' = name := hname
  refine (tracks_expect hS (by decide) _).bind_last fun _ _ _ => ?_
  have hrest (params params' : List Token) (hparams : params'.map id = params.map id) :
      TracksTaken S m (FunctionDecl.relabel .anonymous)
        (do let _ ← expect .rightParen .parametersEnd
            let _ ← expect .leftBrace (.bodyStart sort)
            let body ← block declaration
            pure (FunctionDecl.mk name' params body))
        (do let _ ← expect .rightParen .parametersEnd
            let _ ← expect .leftBrace (.bodyStart sort)
            let body ← block declaration'
            pure (FunctionDecl.mk name' params' body)) := by
    obtain rfl : params' = params := by simpa using hparams
    refine (tracks_expect hS (by decide) _).bind_last fun _ _ _ => ?_
    refine (tracks_expect hS (by decide) _).bind_last fun _ _ _ => ?_
    refine (tracks_block hS hd).taken_pure fun body body' hbody => ?_
    simp only [FunctionDecl.relabel, hbody]
  refine (tracks_sees hS (by decide) (by decide)).bind_taken fun empty empty' hempty => ?_
  obtain rfl : empty' = empty := hempty
  cases empty' with
  | true => exact hrest [] [] rfl
  | false =>
      have hcalm := hS.calm_raised
      exact (tracks_commaSeparated .tooManyParameters hS.raised hcalm.opened
        (hcalm.quiet .comma (by decide)) (tracks_expectName hS.raised _)).bind_taken hrest

theorem tracks_superclass? (hS : S.Calm) :
    TracksAny S m (Option.map (Expr.relabel .anonymous)) superclass? superclass? := by
  unfold superclass?
  refine (tracks_accept hS (by decide)).any_bind fun less? less?' hless => ?_
  obtain rfl : less?' = less? := hless
  cases less?' with
  | none => exact .pure id rfl
  | some less =>
      refine (tracks_expectName hS.toFair _).any_bind fun name name' hname => ?_
      obtain rfl : name' = name := hname
      exact tracks_freshId.bind_pure fun _ _ _ => rfl

theorem tracks_classRule (hS : S.Fair)
    (hd : TracksTaken S m (Option.map (Stmt.relabel .anonymous)) declaration declaration') :
    TracksTaken S m (Stmt.relabel .anonymous) (classRule declaration)
      (classRule declaration') := by
  unfold classRule
  refine (tracks_expectName hS _).bind_last fun name name' hname => ?_
  obtain rfl : name' = name := hname
  refine (tracks_superclass? hS.calm_raised).bind_taken fun superclass superclass' hs => ?_
  refine (tracks_expect hS (by decide) _).bind_last fun _ _ _ => ?_
  refine (tracks_collect hS.calm_raised.opened (fun _ => tracks_beforeBrace hS
    (tracks_callable hS .method hd)) fun _ c hc => beforeBrace_at_end hc).bind_taken
    fun methods methods' hmethods => ?_
  refine (tracks_expect hS (by decide) _).taken_pure fun _ _ _ => ?_
  simp only [Stmt.relabel, FunctionDecl.listRelabel_eq_map, hs, hmethods]

theorem tracks_varRule (hS : S.Fair) :
    TracksTaken S m (Stmt.relabel .anonymous) varRule varRule := by
  unfold varRule
  refine (tracks_expectName hS _).bind_last fun name name' hname => ?_
  obtain rfl : name' = name := hname
  have hrest (e e' : Option Expr)
      (he : e'.map (Expr.relabel .anonymous) = e.map (Expr.relabel .anonymous)) :
      TracksTaken S m (Stmt.relabel .anonymous)
        (do let _ ← expect .semicolon .variableEnd; pure (Stmt.var name' e))
        (do let _ ← expect .semicolon .variableEnd; pure (Stmt.var name' e')) := by
    refine (tracks_expect hS (by decide) _).taken_pure fun _ _ _ => ?_
    simp only [Stmt.relabel, he]
  refine (tracks_accept hS.calm_raised (by decide)).bind_taken fun equal? equal?' hequal => ?_
  obtain rfl : equal?' = equal? := hequal
  cases equal?' with
  | none => exact hrest none none rfl
  | some equal =>
      refine (tracks_expression hS.calm_raised m).bind_taken fun value value' hvalue => ?_
      exact hrest (some value) (some value') (congrArg some hvalue)

/-! ## Statements -/

theorem tracks_expressionRule (hS : S.Fair) :
    TracksTaken S m (Stmt.relabel .anonymous) expressionRule expressionRule := by
  refine (tracks_expression hS.calm_raised m).bind_taken fun e e' he => ?_
  exact (tracks_expect hS (by decide) _).taken_pure fun _ _ _ => congrArg Stmt.expression he

theorem tracks_printRule (hS : S.Fair) :
    TracksTaken S m (Stmt.relabel .anonymous) printRule printRule := by
  refine (tracks_expression hS.calm_raised m).bind_taken fun e e' he => ?_
  exact (tracks_expect hS (by decide) _).taken_pure fun _ _ _ => congrArg Stmt.print he

theorem tracks_expressionUnless (hS : S.Fair) {s : Symbol} (hfor : s ≠ .forWord)
    (hs : s ∉ [Symbol.leftBrace, .whileWord]) :
    TracksAny S.raised m (Option.map (Expr.relabel .anonymous)) (expressionUnless s)
      (expressionUnless s) := by
  unfold expressionUnless
  refine (tracks_sees hS hfor hs).any_bind fun missing missing' hmissing => ?_
  obtain rfl : missing' = missing := hmissing
  cases missing' with
  | true => exact .pure id rfl
  | false =>
      exact (tracks_expression hS.calm_raised m).bind_pure fun e e' he => congrArg some he

theorem tracks_returnRule (hS : S.Fair) (keyword : Token) :
    TracksTaken S m (Stmt.relabel .anonymous) (returnRule keyword) (returnRule keyword) := by
  unfold returnRule
  refine (tracks_expressionUnless hS (by decide) (by decide)).bind_taken fun value value' hv => ?_
  refine (tracks_expect hS (by decide) _).taken_pure fun _ _ _ => ?_
  simp only [Stmt.relabel, hv]

theorem tracks_ifRule (hS : S.Fair) (helse : S.Quiet (· == .symbol .elseWord))
    (hs : TracksTaken S m (Stmt.relabel .anonymous) statement statement') :
    TracksTaken S m (Stmt.relabel .anonymous) (ifRule statement) (ifRule statement') := by
  unfold ifRule
  refine (tracks_expect hS (by decide) _).bind_last fun _ _ _ => ?_
  refine (tracks_expression hS.calm_raised m).bind_taken fun condition condition' hc => ?_
  refine (tracks_expect hS (by decide) _).taken_bind fun _ _ _ => ?_
  refine hs.any_bind fun thenBranch thenBranch' ht => ?_
  refine (tracks_takeIf hS rfl helse).any_bind fun else? else?' h => ?_
  obtain rfl : else?' = else? := h
  cases else?' with
  | none =>
      refine .pure id ?_
      simp only [Stmt.relabel, hc, ht]
  | some word =>
      refine hs.bind_pure fun elseBranch elseBranch' he => ?_
      simp only [Stmt.relabel, hc, ht, he]

theorem tracks_whileRule (hS : S.Fair)
    (hs : TracksTaken S m (Stmt.relabel .anonymous) statement statement') :
    TracksTaken S m (Stmt.relabel .anonymous) (whileRule statement) (whileRule statement') := by
  unfold whileRule
  refine (tracks_expect hS (by decide) _).bind_last fun _ _ _ => ?_
  refine (tracks_expression hS.calm_raised m).bind_taken fun condition condition' hc => ?_
  refine (tracks_expect hS (by decide) _).bind_last fun _ _ _ => ?_
  refine hs.taken_pure fun body body' hb => ?_
  simp only [Stmt.relabel, hc, hb]

theorem tracks_forInitializer (hS : S.Fair) :
    TracksAny S.raised m (Option.map (Stmt.relabel .anonymous)) forInitializer
      forInitializer := by
  unfold forInitializer
  refine (tracks_takeIf hS.raised rfl (hS.quiet_raised (by decide))).any_bind fun t? t?' h => ?_
  obtain rfl : t?' = t? := h
  cases t?' with
  | none => exact (tracks_expressionRule hS.raised).bind_pure fun s s' hs => congrArg some hs
  | some t =>
      dsimp only
      split
      · exact .pure id rfl
      · exact (tracks_varRule hS.raised).bind_pure fun s s' hs => congrArg some hs

theorem tracks_forRule (hS : S.Fair)
    (hs : TracksTaken S m (Stmt.relabel .anonymous) statement statement') :
    TracksTaken S m (Stmt.relabel .anonymous) (forRule statement) (forRule statement') := by
  unfold forRule
  refine (tracks_expect hS (by decide) _).bind_last fun _ _ _ => ?_
  refine (tracks_forInitializer hS).bind_taken fun initializer initializer' hi => ?_
  refine (tracks_expressionUnless hS (by decide) (by decide)).bind_taken
    fun condition condition' hc => ?_
  refine (tracks_expect hS (by decide) _).bind_last fun _ _ _ => ?_
  refine (tracks_expressionUnless hS (by decide) (by decide)).bind_taken
    fun increment increment' hincr => ?_
  refine (tracks_expect hS (by decide) _).bind_last fun _ _ _ => ?_
  refine hs.taken_pure fun body body' hb => ?_
  rw [relabel_forLoop, relabel_forLoop, hi, hc, hincr, hb]

/-- A statement begins at the seam as a for statement. -/
theorem kind_next_first (hS : S.Fair) {c : Cursor} (hlt : S.floor < S.first.length)
    (hc : c.rest = S.first) : c.next.kind = .symbol .forWord := by
  obtain ⟨t, k, hfirst, ht⟩ := hS.first hlt
  rw [Cursor.next, hc, hfirst, List.headD_cons]
  exact kind_of_symbol ht

theorem kind_next_second (hS : S.Fair) {c : Cursor} (hlt : S.floor < S.first.length)
    (hc : c.rest = S.second) :
    ∃ s ∈ [Symbol.leftBrace, .whileWord], c.next.kind = .symbol s := by
  obtain ⟨t, k, s, hsecond, ht, hs⟩ := hS.second hlt
  refine ⟨s, hs, ?_⟩
  rw [Cursor.next, hc, hsecond, List.headD_cons]
  exact kind_of_symbol ht

theorem tracks_statementRule (hS : S.Fair) (helse : S.Quiet (· == .symbol .elseWord))
    (hfilled : S.Filled) {n : Nat}
    (hs : TracksTaken S m (Stmt.relabel .anonymous) (statementUpTo n) (statementUpTo m))
    (hd : TracksTaken S m (Option.map (Stmt.relabel .anonymous)) (declarationUpTo n)
      (declarationUpTo m)) :
    TracksTaken S (m + 1) (Stmt.relabel .anonymous)
      (statementRule (statementUpTo n) (declarationUpTo n))
      (statementRule (statementUpTo m) (declarationUpTo m)) := by
  unfold statementRule
  refine tracks_peek_bind (fun line => (tracks_expressionRule hS (m := 0)).advances)
    (fun t => ?_) ?_
  · split
    · exact tracksAt_take_bind (tracks_forRule hS hs).any
    · exact tracksAt_take_bind (tracks_ifRule hS helse hs).any
    · exact tracksAt_take_bind (tracks_whileRule hS hs).any
    · exact tracksAt_take_bind (tracks_returnRule hS t).any
    · refine tracksAt_take_bind ((tracks_block hS hd).bind_pure fun body body' hbody => ?_)
      simp only [Stmt.relabel, hbody]
    · exact tracksAt_take_bind (tracks_printRule hS).any
    · exact (tracks_expressionRule hS).at
  · intro c s d hrun hclean hc hfloor hlt c' hc' hlen
    exact hfilled hlt (n + 1) (m + 1) c s d hrun hclean hc hfloor c' hc' hlen

/-- What begins at the seam is a statement. -/
theorem declarationRule_apply {statement : Rule Stmt} {declaration : Rule (Option Stmt)}
    {c : Cursor} {s : Symbol} (hs : s ∈ [Symbol.forWord, .leftBrace, .whileWord])
    (hkind : c.next.kind = .symbol s) :
    declarationRule statement declaration c = statementRule statement declaration c := by
  rw [declarationRule, bind_apply, peek]
  dsimp only
  rw [hkind]
  simp only [List.mem_cons, List.not_mem_nil, or_false] at hs
  rcases hs with rfl | rfl | rfl <;> rfl

theorem tracks_declarationRule (hS : S.Fair) (helse : S.Quiet (· == .symbol .elseWord))
    (hfilled : S.Filled) {n : Nat}
    (hs : TracksTaken S m (Stmt.relabel .anonymous) (statementUpTo n) (statementUpTo m))
    (hd : TracksTaken S m (Option.map (Stmt.relabel .anonymous)) (declarationUpTo n)
      (declarationUpTo m)) :
    TracksTaken S (m + 1) (Stmt.relabel .anonymous)
      (declarationRule (statementUpTo n) (declarationUpTo n))
      (declarationRule (statementUpTo m) (declarationUpTo m)) := by
  have hstatement := tracks_statementRule hS helse hfilled hs hd
  unfold declarationRule
  refine tracks_peek_bind (fun line => hstatement.advances) (fun t => ?_) ?_
  · split
    · exact tracksAt_take_bind (tracks_classRule hS hd).any
    · refine tracksAt_take_bind ((tracks_callable hS .function hd).bind_pure fun f f' hf => ?_)
      simp only [Stmt.relabel, hf]
    · exact tracksAt_take_bind (tracks_varRule hS).any
    · exact hstatement.at
  · intro c s d hrun hclean hc hfloor hlt c' hc' hlen
    have hmeets : S.Meets c.rest c'.rest := by
      rw [hc, hc']
      exact S.meets_seam
    obtain ⟨s', hs', hkind'⟩ := kind_next_second hS hlt hc'
    change declarationRule (statementUpTo n) (declarationUpTo n) c = .ok s d at hrun
    rw [declarationRule_apply (List.mem_cons_self) (kind_next_first hS hlt hc)] at hrun
    obtain ⟨t, d', hrun', h⟩ := hstatement.found c s d hrun hclean hfloor c' hmeets hlen
    refine ⟨t, d', ?_, h⟩
    change declarationRule (statementUpTo m) (declarationUpTo m) c' = .ok t d'
    rw [declarationRule_apply (List.mem_cons_of_mem _ hs') hkind', hrun']

end Rules

theorem tracks_statementUpTo_declarationUpTo (hS : S.Fair)
    (helse : S.Quiet (· == .symbol .elseWord)) (hfilled : S.Filled) (n : Nat) :
    ∀ m, TracksTaken S m (Stmt.relabel .anonymous) (statementUpTo n) (statementUpTo m) ∧
      TracksTaken S m (Option.map (Stmt.relabel .anonymous)) (declarationUpTo n)
        (declarationUpTo m) := by
  induction n with
  | zero =>
      intro m
      refine ⟨tracks_fail _, ?_⟩
      cases m <;> exact tracks_recover (tracks_fail _)
  | succ n ih =>
      have hsucc (m : Nat) :
          TracksTaken S (m + 1) (Stmt.relabel .anonymous) (statementUpTo (n + 1))
              (statementUpTo (m + 1)) ∧
            TracksTaken S (m + 1) (Option.map (Stmt.relabel .anonymous)) (declarationUpTo (n + 1))
              (declarationUpTo (m + 1)) :=
        ⟨tracks_statementRule hS helse hfilled (ih m).1 (ih m).2,
          tracks_recover (tracks_declarationRule hS helse hfilled (ih m).1 (ih m).2)⟩
      intro m
      cases m with
      | zero =>
          exact ⟨tracks_of_zero hS (hsucc 0).1.advances, tracks_of_zero hS (hsucc 0).2.advances⟩
      | succ m => exact hsucc m

theorem tracks_programUpTo (hS : S.Fair) (helse : S.Quiet (· == .symbol .elseWord))
    (hfilled : S.Filled) (hfirst : S.first ≠ []) (hsecond : S.second ≠ []) (n m : Nat) :
    TracksAny S m (Stmt.listRelabel .anonymous) (programUpTo n) (programUpTo m) := by
  unfold programUpTo
  refine (tracks_collect (f := Option.map (Stmt.relabel .anonymous))
    (fun h => absurd h hfirst) (fun _ => ?_) fun _ c hc => ?_).bind_pure
    fun found found' hfound => ?_
  · refine (tracks_atEnd (fun _ => hfirst) fun _ => hsecond).bind_last fun ended ended' h => ?_
    obtain rfl : ended' = ended := h
    split
    · exact .pure Bool.false_ne_true rfl
    · have hd := (tracks_statementUpTo_declarationUpTo hS helse hfilled n m).2
      have hitem : TracksTaken S m (Option.map (Option.map (Stmt.relabel .anonymous)))
          (do let d ← declarationUpTo n; pure (some d))
          (do let d ← declarationUpTo m; pure (some d)) :=
        hd.taken_pure fun a b hab => congrArg some hab
      exact hitem.mono fun _ _ => trivial
  · rw [bind_apply, atEnd, hc]
    rfl
  · rw [relabel_filterMap_id, relabel_filterMap_id, hfound]

end Lox.Grammar
