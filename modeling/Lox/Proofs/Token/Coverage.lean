import Lox.Proofs.Concatenation.Lexing
import Lox.Proofs.Token.LongestMatch

/-!
# The source behind the items

The items of a source stand for segments of it that follow one another without a gap. Between them
there is nothing but blanks and comments. A scanner takes one segment at each pass, and behind the
last one it yields the end of input, and nothing from then on.
-/

namespace Lox.Lexer

/-- A part of a source and the item that stands for it. -/
structure Segment where
  text : List Char
  item? : Option Item

/-- What accounts for a segment that ends on the given line, with other segments after it. -/
inductive Segment.Accounted (line : Nat) (after : List Segment) : Segment → Prop
  | blank {c : Char} (hblank : isBlank c = true) : Accounted line after ⟨[c], none⟩
  | comment {body : List Char} (hbody : '\n' ∉ body) :
      Accounted line after ⟨'/' :: '/' :: body, none⟩
  | token {kind : Token.Kind} {text : List Char} (hend : kind ≠ .endOfInput)
      (hpayload : ∀ payload, kind = .string payload → text = '"' :: payload.toList ++ ['"']) :
      Accounted line after ⟨text, some (.token ⟨kind, String.ofList text, line⟩)⟩
  | unexpected {c : Char} : Accounted line after ⟨[c], some (.error ⟨.unexpected c, line⟩)⟩
  | unterminated {body : List Char} (hbody : '"' ∉ body) (hlast : after = []) :
      Accounted line after ⟨'"' :: body, some (.error ⟨.unterminatedString, line⟩)⟩

/-- The segments that pieces stand in, which begin on the given line. -/
def segmentsFrom (line : Nat) : List Piece → List Segment
  | [] => []
  | p :: ps => ⟨p.text, p.item? (p.lastLine line)⟩ :: segmentsFrom (p.lastLine line) ps

theorem flatMap_text_segmentsFrom (line : Nat) (ps : List Piece) :
    (segmentsFrom line ps).flatMap Segment.text = ps.flatMap Piece.text := by
  induction ps generalizing line with
  | nil => rfl
  | cons p ps ih => rw [segmentsFrom, List.flatMap_cons, List.flatMap_cons, ih]

theorem itemsFrom_eq_filterMap (line : Nat) (ps : List Piece) :
    itemsFrom line ps = (segmentsFrom line ps).filterMap Segment.item?
      ++ [.token (.endAt (endLine line ps))] := by
  induction ps generalizing line with
  | nil => rfl
  | cons p ps ih =>
      rw [itemsFrom, segmentsFrom, List.filterMap_cons, ih]
      cases p.item? (p.lastLine line) <;> rfl

/-- A segment between others is that of a piece between others. -/
theorem exists_piece_of_segment {line : Nat} {ps : List Piece} {before after : List Segment}
    {s : Segment} (h : segmentsFrom line ps = before ++ s :: after) :
    ∃ qs p rs, ps = qs ++ p :: rs ∧ before.flatMap Segment.text = qs.flatMap Piece.text
      ∧ s = ⟨p.text, p.item? (p.lastLine (endLine line qs))⟩
      ∧ after = segmentsFrom (p.lastLine (endLine line qs)) rs := by
  induction before generalizing line ps with
  | nil =>
      cases ps with
      | nil => cases h
      | cons p ps =>
          obtain ⟨rfl, rfl⟩ := List.cons_eq_cons.mp h
          exact ⟨[], p, ps, rfl, rfl, rfl, rfl⟩
  | cons b before ih =>
      cases ps with
      | nil => cases h
      | cons p ps =>
          obtain ⟨rfl, hrest⟩ := List.cons_eq_cons.mp h
          obtain ⟨qs, q, rs, rfl, htext, hs, hafter⟩ := ih hrest
          refine ⟨p :: qs, q, rs, rfl, ?_, hs, hafter⟩
          rw [List.flatMap_cons, List.flatMap_cons, htext]

/-- A piece between others is what is read at its place. -/
theorem exists_readPiece {source : List Char} {qs rs : List Piece} {p : Piece}
    (h : pieces source = qs ++ p :: rs) :
    ∃ c cs, p = (readPiece c cs).1 ∧ rs = pieces (readPiece c cs).2
      ∧ source = qs.flatMap Piece.text ++ c :: cs := by
  fun_induction pieces source generalizing qs with
  | case1 => simp at h
  | case2 c cs ih =>
      cases qs with
      | nil =>
          obtain ⟨rfl, rfl⟩ := List.cons_eq_cons.mp h
          exact ⟨c, cs, rfl, rfl, rfl⟩
      | cons q qs =>
          obtain ⟨rfl, hrest⟩ := List.cons_eq_cons.mp h
          obtain ⟨d, ds, hp, hrs, hsource⟩ := ih hrest
          refine ⟨d, ds, hp, hrs, ?_⟩
          rw [List.flatMap_cons, List.append_assoc, ← hsource, text_readPiece]

theorem accounted_of_form {p : Piece} {kind? : Option Token.Kind} (hkind : p.form? = some kind?)
    (hform : Form kind? p.text) (line : Nat) (after : List Segment) :
    Segment.Accounted line after ⟨p.text, p.item? line⟩ := by
  cases kind? with
  | none =>
      rw [item?_of_form?_none hkind]
      generalize p.text = text at hform
      cases hform with
      | blank hblank => exact .blank hblank
      | comment hbody => exact .comment hbody
  | some kind =>
      rw [item?_of_form?_some hkind]
      refine .token ?_ ?_
      · rintro rfl
        nomatch hform
      · rintro payload rfl
        generalize p.text = text at hform
        cases hform with
        | string _ => rw [String.toList_ofList]

/-- What is read at the front of an input is accounted for. -/
theorem accounted_readPiece (c : Char) (cs : List Char) (line line' : Nat) :
    Segment.Accounted line (segmentsFrom line' (pieces (readPiece c cs).2))
      ⟨(readPiece c cs).1.text, (readPiece c cs).1.item? line⟩ := by
  rcases readPiece_cases c cs with ⟨kind?, hkind, hform⟩ | ⟨rfl, hopen, hread⟩ | ⟨-, hread⟩
  · exact accounted_of_form hkind hform line _
  · rw [hread]
    exact .unterminated hopen (by rw [pieces, segmentsFrom])
  · rw [hread]
    exact .unexpected

theorem Segment.Accounted.text_of_string {line : Nat} {after : List Segment} {s : Segment}
    (h : s.Accounted line after) {payload lexeme : String} {line' : Nat}
    (hitem : s.item? = some (.token ⟨.string payload, lexeme, line'⟩)) :
    s.text = '"' :: payload.toList ++ ['"'] := by
  cases h with
  | token _ hpayload =>
      simp only [Option.some.injEq, Item.token.injEq, Token.mk.injEq] at hitem
      exact hpayload payload hitem.1
  | _ => simp at hitem

/-- The scanner of a source that has taken a text, where a lexeme was begun behind `start`. -/
def Scanner.ofTaken (source : String) (start taken : List Char) : Scanner :=
  ⟨source, byteLength start, byteLength taken, 1 + taken.count '\n'⟩

/-- A pass takes the segment at its place, and it is accounted for there. -/
theorem pass_of_segment {source : String} {before after : List Segment} {s : Segment}
    (h : segmentsFrom 1 (pieces source.toList) = before ++ s :: after) (start : List Char) :
    s.Accounted (1 + (before.flatMap Segment.text ++ s.text).count '\n') after
      ∧ (Scanner.ofTaken source start (before.flatMap Segment.text)).pass
        = some (s.item?, .ofTaken source (before.flatMap Segment.text)
          (before.flatMap Segment.text ++ s.text)) := by
  obtain ⟨qs, p, rs, hpieces, htext, rfl, rfl⟩ := exists_piece_of_segment h
  obtain ⟨c, cs, rfl, rfl, hplace⟩ := exists_readPiece hpieces
  have hfirst : endLine 1 qs = 1 + (qs.flatMap Piece.text).count '\n' := endLine_eq 1 qs
  have hline : (readPiece c cs).1.lastLine (endLine 1 qs)
      = 1 + (qs.flatMap Piece.text ++ (readPiece c cs).1.text).count '\n' := by
    rw [Piece.lastLine, hfirst, List.count_append, Nat.add_assoc]
  have hat : (Scanner.ofTaken source start (qs.flatMap Piece.text)).At (qs.flatMap Piece.text)
      (c :: cs) := ⟨hplace, rfl⟩
  have hpass := Scanner.pass_eq hat
  have hbehind : (Scanner.ofTaken source start (qs.flatMap Piece.text)).behind
      (readPiece c cs).1.text = .ofTaken source (qs.flatMap Piece.text)
        (qs.flatMap Piece.text ++ (readPiece c cs).1.text) := by
    simp only [Scanner.behind, Scanner.past, Scanner.ofTaken, byteLength_append, List.count_append,
      Nat.add_assoc]
  rw [htext, ← hline]
  refine ⟨accounted_readPiece c cs _ _, ?_⟩
  rw [hpass, hbehind, hfirst]
  rfl

/-- The source is made up of segments, one for each item in order and one for each blank and
comment. A scanner that stands before a segment takes it at one pass, and then stands behind it on
the line on which it ends; the lexeme and the text of a string inside its quotes are slices of the
source. The calls of the iterator yield the items of the segments, the end of input on the last line,
and nothing from then on. -/
theorem scanner_covers_source (source : String) :
    ∃ segments : List Segment, segments.flatMap Segment.text = source.toList
      ∧ Scanner.new source = .ofTaken source [] []
      ∧ (∀ before s after, segments = before ++ s :: after →
        let first := before.flatMap Segment.text
        let last := first ++ s.text
        s.Accounted (1 + last.count '\n') after
          ∧ (∀ start, (Scanner.ofTaken source start first).pass
            = some (s.item?, .ofTaken source first last))
          ∧ (Scanner.ofTaken source first last).lexeme? = some (String.ofList s.text)
          ∧ ∀ payload lexeme line, s.item? = some (.token ⟨.string payload, lexeme, line⟩) →
            slice? source (byteLength first + 1) (byteLength last - 1) = some payload)
      ∧ let yielded := segments.filterMap Segment.item?
          ++ [.token (.endAt (1 + source.toList.count '\n'))]
        (Scanner.new source).drain = some yielded
          ∧ ∀ n, (Scanner.new source).answers n = some ((List.range n).map (yielded[·]?)) := by
  have htext : (segmentsFrom 1 (pieces source.toList)).flatMap Segment.text = source.toList := by
    rw [flatMap_text_segmentsFrom, flatMap_text_pieces]
  have hyielded : itemsFrom 1 (pieces source.toList)
      = (segmentsFrom 1 (pieces source.toList)).filterMap Segment.item?
        ++ [.token (.endAt (1 + source.toList.count '\n'))] := by
    rw [itemsFrom_eq_filterMap, endLine_eq, flatMap_text_pieces]
  refine ⟨segmentsFrom 1 (pieces source.toList), htext, rfl, fun before s after hsplit => ?_, ?_, ?_⟩
  · have hplace : source.toList
        = before.flatMap Segment.text ++ s.text ++ after.flatMap Segment.text := by
      rw [← htext, hsplit, List.flatMap_append, List.flatMap_cons, List.append_assoc]
    have haccounted := (pass_of_segment hsplit []).1
    refine ⟨haccounted, fun start => (pass_of_segment hsplit start).2, slice?_of_append hplace,
      fun payload lexeme line hitem => ?_⟩
    rw [haccounted.text_of_string hitem] at hplace ⊢
    rw [slice?_of_quoted hplace, String.ofList_toList]
  · rw [← hyielded]
    exact (Scanner.at_new source).drain_eq
  · rw [← hyielded]
    exact (Scanner.at_new source).answers_eq

end Lox.Lexer
