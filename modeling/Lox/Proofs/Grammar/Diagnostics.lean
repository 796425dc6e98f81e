import Mathlib.Data.List.TakeWhile
import Lox.Proofs.Grammar.Broken
import Lox.Proofs.Grammar.Language
import Lox.Proofs.Grammar.Programs

/-!
# One diagnostic for a missing semicolon

A program without one of its semicolons has one error at most, where what the parser skips to
recover can be left out of the program that has the semicolon. There are more where that begins a
declaration or ends a block.
-/

namespace Lox.Grammar

open Ebnf (name)

variable {d : Bool} {e u v w after rest : List Terminal} {n : Nat}

/-- What the rule of a place does with the words around a missing semicolon, on inputs of at most
`n` terminals. Behind what is skipped come the rest of the place and what the place goes on with. -/
def Place.Recovers (after : List Terminal) (n : Nat) :
    Place → List Terminal → List Terminal → Prop
  | .statement d, u, v => ∀ rest, resumption after = v ++ rest → (u ++ after).length ≤ n →
      (d = true → Stops [.elseWord] rest) → Breaks (statementUpTo n) u after v rest
  | .block, u, v => ∀ rest w, resumption after = v ++ rest → u = .symbol .leftBrace :: w →
      (w ++ after).length ≤ n →
      Leaves (Grammar.block (declarationUpTo n)) (w ++ after) rest fun _ => True
  | .function, u, v => ∀ rest sort, resumption after = v ++ rest → (u ++ after).length ≤ n →
      Leaves (callable (declarationUpTo n) sort) (u ++ after) rest fun _ => True
  | .declaration, u, v => ∀ rest, resumption after = v ++ rest → (u ++ after).length ≤ n →
      Stops [.elseWord] rest → Leaves (declarationUpTo n) (u ++ after) rest fun _ => True

theorem recovers_simple (hafter : Boundary after)
    (h : Derives (name .exprStmt) (u ++ [.symbol .semicolon])
      ∨ Derives (name .printStmt) (u ++ [.symbol .semicolon])
      ∨ Derives (name .returnStmt) (u ++ [.symbol .semicolon])) :
    (Place.statement false).Recovers after n u [] := by
  intro rest hrest hn _
  obtain rfl : resumption after = rest := hrest
  have hpos := List.length_pos_iff.mpr (Marked.simple h).begins.ne_nil
  rw [List.length_append] at hn
  obtain ⟨n, rfl⟩ : ∃ m, n = m + 1 := ⟨n - 1, by omega⟩
  rw [statementUpTo]
  exact breaks_statementRule hafter h

theorem recovers_braces (h : Marked .block u v) (ih : ∀ n, Place.block.Recovers after n u v) :
    (Place.statement false).Recovers after n u v := by
  intro rest hrest hn _
  obtain ⟨t, w, rfl, ht⟩ := h.begins
  obtain rfl : t = .symbol .leftBrace := beq_iff_eq.mp ht
  simp only [List.cons_append, List.length_cons] at hn
  obtain ⟨n, rfl⟩ : ∃ m, n = m + 1 := ⟨n - 1, by omega⟩
  have hblock := ih n rest w hrest rfl (by omega)
  rw [statementUpTo, statementRule]
  refine breaks_peek_bind fun tok htok => ?_
  simp only [kind_of_symbol htok]
  refine breaks_take_bind fun _ => Leaves.breaks (P := fun _ => True) ?_
  exact hblock.last fun body _ => .pure trivial

theorem recovers_loop {head : List Terminal} (hhead : IsLoopHead head)
    (ih : ∀ n, (Place.statement d).Recovers after n u v) :
    (Place.statement d).Recovers after n (head ++ u) v := by
  intro rest hrest hn helse
  have hpos : 0 < head.length := by
    rcases hhead with ⟨e, rfl, -⟩ | ⟨i, c, e, rfl, -⟩
    · exact Nat.succ_pos _
    · exact Nat.succ_pos _
  simp only [List.length_append] at hn
  obtain ⟨n, rfl⟩ : ∃ m, n = m + 1 := ⟨n - 1, by omega⟩
  have hbody := ih n rest hrest (by rw [List.length_append]; omega) helse
  rw [statementUpTo]
  exact breaks_loop hhead hbody

theorem recovers_ifThen (he : Derives (name .expression) e)
    (ih : ∀ n, (Place.statement d).Recovers after n u v) :
    (Place.statement true).Recovers after n
      (.symbol .ifWord :: .symbol .leftParen :: (e ++ .symbol .rightParen :: u)) v := by
  intro rest hrest hn helse
  simp only [List.length_append, List.length_cons] at hn
  obtain ⟨n, rfl⟩ : ∃ m, n = m + 1 := ⟨n - 1, by omega⟩
  have hthen := ih n rest hrest (by rw [List.length_append]; omega) fun _ => helse rfl
  rw [statementUpTo, ← List.append_nil v]
  exact breaks_ifRule he hthen (fun _ => rfl) (.inl ⟨rfl, helse rfl⟩)

/-- The statement in front of the else does not fail, as the parser would go on with the else then. -/
theorem recovers_thenBranch (hresumes : Stops [.elseWord] (resumption after))
    (he : Derives (name .expression) e)
    (ih : ∀ n, (Place.statement false).Recovers after n u v) (hw : Nearest d w) :
    (Place.statement d).Recovers after n
      (.symbol .ifWord :: .symbol .leftParen :: (e ++ .symbol .rightParen :: u))
      (v ++ .symbol .elseWord :: w) := by
  intro rest hrest hn helse
  rw [List.append_assoc] at hrest
  have hv : v ≠ [] := by
    rintro rfl
    rw [hrest] at hresumes
    exact hresumes .elseWord List.mem_cons_self rfl
  have hlen := length_resumption_le after
  rw [hrest] at hlen
  simp only [List.length_append, List.length_cons] at hn hlen
  obtain ⟨n, rfl⟩ : ∃ m, n = m + 1 := ⟨n - 1, by omega⟩
  have hthen := ih n _ hrest (by rw [List.length_append]; omega) nofun
  have helse' := (takes_upTo n).1 d w rest (by rw [List.length_append]; omega) hw helse
  rw [statementUpTo]
  exact breaks_ifRule he hthen (fun hnil => absurd hnil hv) (.inr ⟨w, rfl, helse'⟩)

theorem recovers_elseBranch (he : Derives (name .expression) e) (hw : Nearest false w)
    (ih : ∀ n, (Place.statement d).Recovers after n u v) :
    (Place.statement d).Recovers after n (.symbol .ifWord :: .symbol .leftParen
      :: (e ++ .symbol .rightParen :: (w ++ .symbol .elseWord :: u))) v := by
  intro rest hrest hn helse
  simp only [List.length_append, List.length_cons] at hn
  obtain ⟨n, rfl⟩ : ∃ m, n = m + 1 := ⟨n - 1, by omega⟩
  have hthen := (takes_upTo n).1 false w (.symbol .elseWord :: u ++ after)
    (by simp only [List.length_append, List.length_cons]; omega) hw nofun
  have helse' := ih n rest hrest (by rw [List.length_append]; omega) helse
  rw [statementUpTo]
  exact breaks_elseBranch he hthen helse'

theorem recovers_block {ws₁ ws₂ : List (List Terminal)}
    (h₁ : ∀ w ∈ ws₁, Derives (name .declaration) w) (h : Marked .declaration u v)
    (h₂ : ∀ w ∈ ws₂, Derives (name .declaration) w)
    (ih : ∀ n, Place.declaration.Recovers after n u v) :
    Place.block.Recovers after n (.symbol .leftBrace :: (ws₁.flatten ++ u))
      (v ++ (ws₂.flatten ++ [.symbol .rightBrace])) := by
  rintro rest w hrest heq hn
  obtain ⟨-, rfl⟩ := List.cons_eq_cons.mp heq
  simp only [List.append_assoc, List.singleton_append] at hrest
  have hlen := length_resumption_le after
  rw [hrest, List.length_append] at hlen
  rw [List.append_assoc] at hn ⊢
  have hbroken := ih n _ hrest (by rw [List.length_append] at hn; omega)
    (stops_else h₂ (stops_symbol (by decide)))
  exact leaves_block (takes_upTo n).2 h₁ h.begins h₂ hbroken (by omega) hn

theorem recovers_function {params : List Terminal}
    (hparams : params = [] ∨ Derives (name .parameters) params) (h : Marked .block u v)
    (ih : ∀ n, Place.block.Recovers after n u v) :
    Place.function.Recovers after n
      (.identifier :: .symbol .leftParen :: (params ++ .symbol .rightParen :: u)) v := by
  intro rest sort hrest hn
  obtain ⟨t, w, rfl, ht⟩ := h.begins
  obtain rfl : t = .symbol .leftBrace := beq_iff_eq.mp ht
  have hblock := ih n rest w hrest rfl ?_
  · simpa using leaves_callable sort hparams hblock
  · simp only [List.length_append, List.length_cons] at hn ⊢
    omega

theorem recovers_statement (h : Marked (.statement d) u v)
    (ih : ∀ n, (Place.statement d).Recovers after n u v) :
    Place.declaration.Recovers after n u v := by
  intro rest hrest hn helse
  obtain ⟨t, u, rfl, ht⟩ := h.begins
  rw [List.cons_append, List.length_cons] at hn
  obtain ⟨n, rfl⟩ : ∃ m, n = m + 1 := ⟨n - 1, by omega⟩
  have hstatement := ih (n + 1) rest hrest hn fun _ => helse
  rw [statementUpTo] at hstatement
  rw [declarationUpTo]
  refine Breaks.recover ?_ hrest
  unfold declarationRule
  refine breaks_peek_bind fun tok htok => ?_
  rw [← htok] at ht
  split
  iterate 3
    · next hkind => cases terminal_of_kind ht hkind
  · exact hstatement

theorem recovers_varDecl (hafter : Boundary after)
    (h : Derives (name .varDecl) (u ++ [.symbol .semicolon])) :
    Place.declaration.Recovers after n u [] := by
  intro rest hrest hn _
  obtain rfl : resumption after = rest := hrest
  obtain ⟨w, heq, hw⟩ := derives_varDecl_iff.mp h
  obtain rfl : u = .symbol .varWord :: .identifier :: w := List.append_cancel_right heq
  rw [List.cons_append, List.length_cons] at hn
  obtain ⟨n, rfl⟩ : ∃ m, n = m + 1 := ⟨n - 1, by omega⟩
  rw [declarationUpTo]
  refine Breaks.recover ?_ (List.nil_append _).symm
  unfold declarationRule
  refine breaks_peek_bind fun tok htok => ?_
  simp only [kind_of_symbol htok]
  exact breaks_take_bind fun _ => breaks_varRule hafter hw

theorem recovers_funDecl (ih : ∀ n, Place.function.Recovers after n u v) :
    Place.declaration.Recovers after n (.symbol .funWord :: u) v := by
  intro rest hrest hn _
  rw [List.cons_append, List.length_cons] at hn
  obtain ⟨n, rfl⟩ : ∃ m, n = m + 1 := ⟨n - 1, by omega⟩
  have hfunction := ih n rest .function hrest (by omega)
  rw [declarationUpTo]
  refine Breaks.recover ?_ hrest
  unfold declarationRule
  refine breaks_peek_bind fun tok htok => ?_
  simp only [kind_of_symbol htok]
  refine breaks_take_bind fun _ => Leaves.breaks (P := fun _ => True) ?_
  exact hfunction.last fun decl _ => .pure trivial

theorem recovers_classDecl {superclass : List Terminal} {ws₁ ws₂ : List (List Terminal)}
    (hsuperclass : superclass = [] ∨ superclass = [.symbol .less, .identifier])
    (h₁ : ∀ w ∈ ws₁, Derives (name .function) w) (h : Marked .function u v)
    (h₂ : ∀ w ∈ ws₂, Derives (name .function) w)
    (ih : ∀ n, Place.function.Recovers after n u v) :
    Place.declaration.Recovers after n (.symbol .classWord :: .identifier
        :: (superclass ++ .symbol .leftBrace :: (ws₁.flatten ++ u)))
      (v ++ (ws₂.flatten ++ [.symbol .rightBrace])) := by
  intro rest hrest hn _
  have hrest' : resumption after = v ++ (ws₂.flatten ++ .symbol .rightBrace :: rest) := by
    rw [hrest]
    simp
  have hlen := length_resumption_le after
  rw [hrest', List.length_append] at hlen
  simp only [List.length_append, List.length_cons] at hn
  obtain ⟨n, rfl⟩ : ∃ m, n = m + 1 := ⟨n - 1, by omega⟩
  have hbroken := ih n _ .method hrest' (by rw [List.length_append]; omega)
  have hclass := leaves_classRule (takes_upTo n).2 hsuperclass h₁ h.begins h₂ hbroken (by omega)
    (by simp only [List.length_append]; omega)
  rw [declarationUpTo]
  refine Breaks.recover ?_ hrest
  unfold declarationRule
  refine breaks_peek_bind fun tok htok => ?_
  simp only [kind_of_symbol htok]
  refine breaks_take_bind fun _ => Leaves.breaks (P := fun _ => True) ?_
  simpa using hclass

/-- By induction on what the semicolon stands in, the parser goes on behind what it skips with what the
rules around the statement have left to take. An else would be left without its if. -/
theorem Marked.recovers {place : Place} (h : Marked place u v) (hafter : Boundary after)
    (helse : Stops [.elseWord] (resumption after)) (n : Nat) : place.Recovers after n u v := by
  induction h generalizing n with
  | simple h => exact recovers_simple hafter h
  | braces h ih => exact recovers_braces h ih
  | loop hhead _ ih => exact recovers_loop hhead ih
  | ifThen he _ ih => exact recovers_ifThen he ih
  | thenBranch he _ hw ih => exact recovers_thenBranch helse he ih hw
  | elseBranch he hw _ ih => exact recovers_elseBranch he hw ih
  | block h₁ h h₂ ih => exact recovers_block h₁ h h₂ ih
  | function hparams h ih => exact recovers_function hparams h ih
  | statement h ih => exact recovers_statement h ih
  | varDecl h => exact recovers_varDecl hafter h
  | funDecl _ ih => exact recovers_funDecl ih
  | classDecl hsuperclass h₁ h h₂ ih => exact recovers_classDecl hsuperclass h₁ h h₂ ih

/-! ## Programs -/

theorem leaves_programUpTo {ws₁ ws₂ : List (List Terminal)}
    (h₁ : ∀ w ∈ ws₁, Derives (name .declaration) w) (h : Marked .declaration u v)
    (h₂ : ∀ w ∈ ws₂, Derives (name .declaration) w) (hafter : Boundary after)
    (hrest : resumption after = v ++ ws₂.flatten) (helse : Stops [.elseWord] (resumption after))
    (hn : (ws₁.flatten ++ (u ++ after)).length ≤ n) :
    Leaves (programUpTo n) (ws₁.flatten ++ (u ++ after)) [] fun _ => True := by
  have hbegins := h.begins
  have hpos := List.length_pos_iff.mpr hbegins.ne_nil
  have hlen := length_resumption_le after
  rw [hrest] at hlen
  simp only [List.length_append] at hlen hn
  have hne {ws : List (List Terminal)} (hws : ∀ w ∈ ws, Derives (name .declaration) w) :
      ∀ w ∈ ws, w ≠ [] :=
    fun w hw => (begins_declaration (hws w hw)).ne_nil
  have hend : Stops [.elseWord] ([] : List Terminal) := nofun
  have htakes := (takes_upTo n).2
  have hitems : Leaves (collect fun _ => beforeEnd (declarationUpTo n))
      (ws₁.flatten ++ (u ++ after)) [] fun _ => True := by
    refine leaves_collect (hne h₁) (hne h₂) ?_ (fun _ i w hw => ?_) (fun _ => ?_)
      (fun _ i w hw => ?_) fun _ => takes_beforeEnd_end _
    · simp only [List.length_append, List.length_nil]
      omega
    · refine takes_beforeEnd_item (hne h₁ w (List.mem_of_getElem? hw))
        (htakes.item h₁ ((hbegins.append after).stops (by decide)) ?_ hw)
      simp only [List.length_append]
      omega
    · refine leaves_beforeEnd (hbegins.append after).ne_nil
        (h.recovers hafter helse n _ (by rw [hrest, List.append_nil]) ?_ (stops_else h₂ hend))
      rw [List.length_append]
      omega
    · refine takes_beforeEnd_item (hne h₂ w (List.mem_of_getElem? hw))
        (htakes.item h₂ hend ?_ hw)
      rw [List.append_nil]
      omega
  unfold programUpTo
  exact hitems.last fun found _ => .pure trivial

/-- A semicolon outside of the parentheses of declarations in a row ends a statement in one of
them. -/
theorem exists_marked {p q : List Terminal} {ws : List (List Terminal)}
    (h : p ++ .symbol .semicolon :: q = ws.flatten) (hws : ∀ w ∈ ws, Derives (name .declaration) w)
    (hp : parentheses.word p = 0) :
    ∃ (ws₁ ws₂ : List (List Terminal)) (u v : List Terminal), p = ws₁.flatten ++ u
      ∧ q = v ++ ws₂.flatten ∧ (∀ w ∈ ws₁, Derives (name .declaration) w)
      ∧ (∀ w ∈ ws₂, Derives (name .declaration) w) ∧ Marked .declaration u v := by
  rw [← List.append_nil ws.flatten] at h
  rcases split_flatten h.symm with ⟨ws₁, ws₂, u, v, rfl, rfl, rfl⟩ | ⟨p', -, hnil⟩
  · rw [List.forall_mem_append, List.forall_mem_cons] at hws
    obtain ⟨h₁, hword, h₂⟩ := hws
    refine ⟨ws₁, ws₂, u, v, rfl, by rw [List.append_nil], h₁, h₂, marked_of_derives hword ?_⟩
    rwa [word_parentheses_append, word_flatten_parentheses h₁, Int.zero_add] at hp
  · simp at hnil

/-- Without the semicolon, declarations in a row have one more error at most. -/
theorem leaves_without_semicolon {p q : List Terminal} {ws ws' : List (List Terminal)}
    (hp : parentheses.word p = 0) (haccepted : p ++ .symbol .semicolon :: q = ws.flatten)
    (hws : ∀ w ∈ ws, Derives (name .declaration) w)
    (hresumes : p ++ .symbol .semicolon :: resumption q = ws'.flatten)
    (hws' : ∀ w ∈ ws', Derives (name .declaration) w) (helse : Stops [.elseWord] (resumption q)) :
    Leaves (programUpTo (p ++ q).length) (p ++ q) [] fun _ => True := by
  -- The accepted program says what stands behind the semicolon, the other one what is left to take.
  have hafter : Boundary q := by
    obtain ⟨ws₁, ws₂, u, v, -, rfl, -, h₂, hmarked⟩ := exists_marked haccepted hws hp
    refine hmarked.boundary fun _ => ?_
    rw [← List.append_nil ws₂.flatten]
    exact boundary_flatten h₂ (.inr nofun)
  obtain ⟨ws₁, ws₂, u, v, rfl, hrest, h₁, h₂, hmarked⟩ := exists_marked hresumes hws' hp
  rw [List.append_assoc]
  exact leaves_programUpTo h₁ hmarked h₂ hafter hrest helse (Nat.le_refl _)

/-! ## Tokens -/

/-- What stands behind the end of the input does not count. -/
theorem ofTokens_append_of_isEnd {before : List Token} (h : ∃ t ∈ before, isEnd t = true)
    (tokens : List Token) (firstId : NodeId) :
    Cursor.ofTokens (before ++ tokens) firstId = Cursor.ofTokens before firstId := by
  obtain ⟨t, ht⟩ := Option.isSome_iff_exists.mp (List.find?_isSome.mpr h)
  have hrest : (before ++ tokens).takeWhile (!isEnd ·) = before.takeWhile (!isEnd ·) := by
    rw [List.takeWhile_append, if_neg]
    intro hlen
    obtain ⟨t, ht, hend⟩ := h
    have hall := List.takeWhile_eq_self_iff.mp ((List.takeWhile_prefix _).eq_of_length hlen) t ht
    simp [hend] at hall
  simp only [Cursor.ofTokens, hrest, List.find?_append, ht, Option.some_or]

/-- The terminals of an accepted program around one of its semicolons are declarations in a row. -/
theorem exists_declarations_around {before after : List Token} {semicolon : Token}
    {firstId : NodeId} (hbefore : ∀ t ∈ before, (!isEnd t) = true)
    (hsemicolon : semicolon.terminal = .symbol .semicolon)
    (h : (parseProgram (before ++ semicolon :: after) firstId).errors = []) :
    ∃ ws : List (List Terminal), before.map Token.terminal
        ++ .symbol .semicolon :: (after.takeWhile (!isEnd ·)).map Token.terminal = ws.flatten
      ∧ ∀ v ∈ ws, Derives (name .declaration) v := by
  obtain ⟨ws, heq, hws⟩ := exists_declarations h
  have hnotEnd : (!isEnd semicolon) = true := by
    rw [isEnd, hsemicolon]
    rfl
  rw [List.takeWhile_append_of_pos hbefore, List.takeWhile_cons_of_pos (p := (!isEnd ·)) hnotEnd,
    List.map_append, List.map_cons, hsemicolon] at heq
  exact ⟨ws, heq, hws⟩

/-- Recovery skips no end of input. -/
theorem takeWhile_synchronize (tokens : List Token) :
    (synchronize (tokens.takeWhile (!isEnd ·))).takeWhile (!isEnd ·)
      = synchronize (tokens.takeWhile (!isEnd ·)) := by
  refine List.takeWhile_eq_self_iff.mpr fun t ht => ?_
  have hnot := List.mem_takeWhile_imp ((synchronize_suffix _).subset ht)
  exact hnot

theorem stops_synchronize {tokens : List Token} {s : Symbol}
    (h : ∀ t, (synchronize tokens).head? = some t → t.terminal ≠ .symbol s) :
    Stops [s] (resumption (tokens.map Token.terminal)) := by
  rw [← map_synchronize]
  intro s' hs' hhead
  rw [List.head?_map, Option.map_eq_some_iff] at hhead
  obtain ⟨t, ht, hterminal⟩ := hhead
  rw [List.mem_singleton.mp hs'] at hterminal
  exact h t ht hterminal

theorem length_errors_le_one {tokens : List Token} {firstId : NodeId} {w : List Terminal}
    (hw : (Cursor.ofTokens tokens firstId).input = w)
    (h : Leaves (programUpTo w.length) w [] fun _ => True) :
    (parseProgram tokens firstId).errors.length ≤ 1 := by
  obtain ⟨statements, c, hrun, -, herrors, -⟩ := h _ hw
  rw [← hw, Cursor.input, List.length_map] at hrun
  unfold parseProgram
  dsimp only
  rw [hrun]
  exact herrors

/-- Without a semicolon outside of its parentheses, an accepted program has one error at most, where
it is accepted as well if it goes on behind what the parser skips, and that is not with an else. -/
theorem errors_without_semicolon_le_one {before after : List Token} {semicolon : Token}
    {firstId : NodeId} (hsemicolon : semicolon.terminal = .symbol .semicolon)
    (haccepted : (parseProgram (before ++ semicolon :: after) firstId).errors = [])
    (hbalanced : (before.map Token.terminal).count (.symbol .leftParen)
      = (before.map Token.terminal).count (.symbol .rightParen))
    (hresumes : (parseProgram (before ++ semicolon :: synchronize (after.takeWhile (!isEnd ·)))
      firstId).errors = [])
    (helse : ∀ t, (synchronize (after.takeWhile (!isEnd ·))).head? = some t →
      t.terminal ≠ .symbol .elseWord) :
    (parseProgram (before ++ after) firstId).errors.length ≤ 1 := by
  by_cases hend : ∃ t ∈ before, isEnd t = true
  · have hsame : parseProgram (before ++ after) firstId
        = parseProgram (before ++ semicolon :: after) firstId := by
      simp only [parseProgram, ofTokens_append_of_isEnd hend]
    rw [hsame, haccepted]
    exact Nat.zero_le 1
  have hbefore : ∀ t ∈ before, (!isEnd t) = true := by simpa using hend
  obtain ⟨ws, haccepted, hws⟩ := exists_declarations_around hbefore hsemicolon haccepted
  obtain ⟨ws', hresumes, hws'⟩ := exists_declarations_around hbefore hsemicolon hresumes
  rw [takeWhile_synchronize, map_synchronize] at hresumes
  have hp : parentheses.word (before.map Token.terminal) = 0 := by
    rw [word_parentheses_eq, hbalanced, Int.sub_self]
  have hleaves := leaves_without_semicolon hp haccepted hws hresumes hws' (stops_synchronize helse)
  refine length_errors_le_one ?_ hleaves
  rw [input_ofTokens, List.takeWhile_append_of_pos hbefore, List.map_append]

/-- In a block of two statements, one without its semicolon. -/
theorem errors_without_first_semicolon :
    (parseProgram ([⟨.symbol .leftBrace, "\x7b", 1⟩, .ofName "a" 1] ++ ⟨.symbol .semicolon, ";", 1⟩
        :: [.ofName "b" 2, ⟨.symbol .semicolon, ";", 2⟩, ⟨.symbol .rightBrace, "\x7d", 3⟩,
          .endAt 3]) 0).errors = []
      ∧ (parseProgram ([⟨.symbol .leftBrace, "\x7b", 1⟩, .ofName "a" 1] ++ [.ofName "b" 2,
        ⟨.symbol .semicolon, ";", 2⟩, ⟨.symbol .rightBrace, "\x7d", 3⟩, .endAt 3]) 0).errors.length
        ≤ 1 :=
  ⟨by decide +kernel, @errors_without_semicolon_le_one _ _ ⟨.symbol .semicolon, ";", 1⟩ 0 rfl
    (by decide +kernel) rfl (by decide +kernel) (by decide)⟩

/-- A missing semicolon may give two errors: the keyword in whose place it is missed is skipped, and
then the function that it begins is none. -/
theorem two_errors_without_semicolon :
    ¬ ∀ (before after : List Token) (semicolon : Token) (firstId : NodeId),
      semicolon.terminal = .symbol .semicolon →
      (parseProgram (before ++ semicolon :: after) firstId).errors = [] →
      (parseProgram (before ++ after) firstId).errors.length ≤ 1 := by
  intro h
  have hle := h [⟨.symbol .printWord, "print", 1⟩, .ofName "a" 1] [⟨.symbol .funWord, "fun", 1⟩,
    .ofName "f" 1, ⟨.symbol .leftParen, "(", 1⟩, ⟨.symbol .rightParen, ")", 1⟩,
    ⟨.symbol .leftBrace, "\x7b", 1⟩, ⟨.symbol .printWord, "print", 1⟩, .ofName "b" 1,
    ⟨.symbol .semicolon, ";", 1⟩, ⟨.symbol .rightBrace, "\x7d", 1⟩, .endAt 1]
    ⟨.symbol .semicolon, ";", 1⟩ 0 rfl (by decide +kernel)
  exact absurd hle (by decide +kernel)

end Lox.Grammar
