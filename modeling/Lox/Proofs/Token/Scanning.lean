import Lox.Proofs.Token.Bytes
import Lox.Proofs.Token.Pieces

/-!
# A scanner takes pieces

A scanner that stands between two characters of a source takes the piece that is read there, with
all bytes of its characters and all its line breaks. So it always stands between two characters when
a lexeme begins, every slice it takes is there, and its items are those of the pieces.
-/

namespace Lox.Lexer

namespace Scanner

variable {s : Scanner} {before after : List Char}

/-- The bytes behind the cursor. -/
def left (s : Scanner) : List Char :=
  (octets s.source.toList).drop s.curr

theorem size_eq (s : Scanner) : s.size = (octets s.source.toList).length := by
  rw [← map_toByteArray, List.length_map, Array.length_toList]
  rfl

theorem byteAt_eq (s : Scanner) (i : Nat) :
    s.byteAt i = (octets s.source.toList)[i]?.getD '\x00' := by
  have hget : s.source.toByteArray[i]? = s.source.toByteArray.data.toList[i]? := by
    rw [Array.getElem?_toList]
    rfl
  rw [byteAt, ← map_toByteArray, List.getElem?_map, hget]
  cases s.source.toByteArray.data.toList[i]? <;> rfl

theorem left_of_lt (h : s.curr < s.size) : s.left = s.peek :: s.forward.left := by
  rw [size_eq] at h
  rw [left, List.drop_eq_getElem_cons h, peek, byteAt_eq, List.getElem?_eq_getElem h]
  rfl

theorem left_of_le (h : s.size ≤ s.curr) : s.left = [] := by
  rw [size_eq] at h
  exact List.drop_eq_nil_of_le h

theorem peek_eq (s : Scanner) : s.peek = s.left.headD '\x00' := by
  rw [peek, byteAt_eq, left, List.headD_eq_head?_getD, List.head?_drop]

theorem peekNext_eq (s : Scanner) : s.peekNext = s.left.tail.headD '\x00' := by
  rw [peekNext, byteAt_eq, left, List.tail_drop, List.headD_eq_head?_getD, List.head?_drop]

/-- A loop over bytes takes the longest run of bytes that pass. -/
theorem skipWhile_eq (p : Char → Bool) (s : Scanner) :
    s.skipWhile p = { s with curr := s.curr + (s.left.takeWhile p).length } := by
  fun_induction skipWhile p s with
  | case1 s hlt hp ih =>
      rw [ih, left_of_lt hlt, List.takeWhile_cons_of_pos hp, List.length_cons]
      simp only [forward, mk.injEq, true_and, and_true]
      omega
  | case2 s hlt hp =>
      rw [left_of_lt hlt, List.takeWhile_cons_of_neg hp]
      rfl
  | case3 s hge =>
      rw [left_of_le (Nat.le_of_not_lt hge)]
      rfl

/-- A string takes the longest run of bytes without a quote, and counts the line breaks in it. -/
theorem skipString_eq (s : Scanner) :
    s.skipString = { s with
      curr := s.curr + (s.left.takeWhile (· != '"')).length
      line := s.line + (s.left.takeWhile (· != '"')).count '\n' } := by
  fun_induction skipString s with
  | case1 s hlt hquote =>
      rw [left_of_lt hlt, List.takeWhile_cons_of_neg (by simpa using hquote)]
      rfl
  | case2 s hlt hquote hbreak ih =>
      rw [ih, left_of_lt hlt, List.takeWhile_cons_of_pos (by simpa using hquote), List.length_cons,
        eq_of_beq hbreak, List.count_cons_self]
      simp only [forward, breakLine, left, mk.injEq, true_and]
      constructor <;> omega
  | case3 s hlt hquote hbreak ih =>
      rw [ih, left_of_lt hlt, List.takeWhile_cons_of_pos (by simpa using hquote), List.length_cons,
        List.count_cons_of_ne (by simpa using hbreak)]
      simp only [forward, left, mk.injEq, true_and, and_true]
      omega
  | case4 s hge =>
      rw [left_of_le (Nat.le_of_not_lt hge)]
      rfl

/-- The scanner behind a text that it has taken. -/
def past (s : Scanner) (text : List Char) : Scanner :=
  { s with curr := s.curr + byteLength text, line := s.line + text.count '\n' }

theorem past_past (s : Scanner) (text more : List Char) :
    (s.past text).past more = s.past (text ++ more) := by
  simp only [past, byteLength_append, List.count_append, Nat.add_assoc]

/-- The scanner stands between two texts that make up its source. -/
structure At (s : Scanner) (before after : List Char) : Prop where
  source : s.source.toList = before ++ after
  curr : s.curr = byteLength before

theorem at_new (source : String) : (new source).At [] source.toList :=
  ⟨rfl, rfl⟩

theorem At.past {text : List Char} (h : s.At before (text ++ after)) :
    (s.past text).At (before ++ text) after := by
  refine ⟨?_, ?_⟩
  · rw [List.append_assoc]
    exact h.source
  · rw [byteLength_append, ← h.curr]
    rfl

theorem At.left (h : s.At before after) : s.left = octets after := by
  rw [Scanner.left, h.source, h.curr, octets_append, ← length_octets, List.drop_left]

theorem At.skipWhile {p : Char → Bool} (h : s.At before after) (hp : Uniform p)
    (hbreak : p '\n' = false) : s.skipWhile p = s.past (after.takeWhile p) := by
  have hcount : (after.takeWhile p).count '\n' = 0 := by
    refine List.count_eq_zero_of_not_mem fun hmem => ?_
    rw [List.mem_takeWhile_imp hmem] at hbreak
    cases hbreak
  rw [skipWhile_eq, h.left, takeWhile_octets hp, length_octets, Scanner.past, hcount]
  rfl

theorem At.skipString (h : s.At before after) :
    s.skipString = s.past (after.takeWhile (· != '"')) := by
  rw [skipString_eq, h.left, takeWhile_octets (uniform_bne (by decide)), length_octets, count_octets]
  rfl

theorem At.lt_size (h : s.At before after) (hafter : after ≠ []) : s.curr < s.size := by
  obtain ⟨c, cs, rfl⟩ := List.exists_cons_of_ne_nil hafter
  by_contra hge
  have hleft := left_of_le (Nat.le_of_not_lt hge)
  rw [h.left, octets_cons] at hleft
  exact octets_ne_nil c (List.append_eq_nil_iff.mp hleft).1

theorem At.curr_eq_size (h : s.At before []) : s.curr = s.size := by
  rw [size_eq, h.source, length_octets, h.curr, List.append_nil]

theorem head_octets {p : Char → Bool} (hp : Uniform p) (hzero : p '\x00' = false)
    (cs : List Char) : p ((octets cs).headD '\x00') = cs.head?.any p := by
  cases cs with
  | nil => exact hzero
  | cons c cs =>
      obtain ⟨d, ds, hds⟩ := List.exists_cons_of_ne_nil (octets_ne_nil c)
      rw [octets_cons, hds]
      exact hp.eq_of_mem (c := c) (d := d) (by simp [hds])

theorem At.peek {p : Char → Bool} (h : s.At before after) (hp : Uniform p)
    (hzero : p '\x00' = false) : p s.peek = after.head?.any p := by
  rw [peek_eq, h.left, head_octets hp hzero]

theorem forward_eq_past {c : Char} (s : Scanner) (hc : c.toNat < 128)
    (hbreak : c ≠ '\n') : s.forward = s.past [c] := by
  have hlength : byteLength [c] = 1 := by rw [← length_octets, octets_ascii hc]; rfl
  simp only [Scanner.forward, Scanner.past, hlength, List.count_singleton, beq_iff_eq, hbreak, if_false,
    Nat.add_zero]

theorem At.takeIf {x : Char} (h : s.At before after) (hx : x.toNat < 128) (hbreak : x ≠ '\n')
    (hzero : x ≠ '\x00') :
    s.takeIf x = if after.head? = some x then (true, s.past [x]) else (false, s) := by
  have hpeek : (s.peek == x) = after.head?.any (· == x) :=
    h.peek (uniform_beq hx) (by simpa using hzero.symm)
  rw [Scanner.takeIf, hpeek]
  cases after with
  | nil => simp
  | cons c cs =>
      have hend : s.atEnd = false := by
        simpa [atEnd] using h.lt_size (List.cons_ne_nil c cs)
      by_cases hc : c = x
      · subst hc
        simp [hend, forward_eq_past s hx hbreak]
      · simp [hc]

/-- What a scanner finds that takes a piece. -/
def find (s : Scanner) (p : Piece) : Found :=
  let t := s.past p.text
  match p with
  | .blank _ => (.ok none, t)
  | .comment _ => (.ok none, t)
  | .token kind _ => (.ok (some kind), t)
  | .unexpected c => (.error ⟨.unexpected c, t.line⟩, t)
  | .unterminated _ => (.error ⟨.unterminatedString, t.line⟩, t)

theorem At.advance? {x : Char} (h : s.At before (x :: after)) (hx : x.toNat < 128)
    (hbreak : x ≠ '\n') : s.advance? = some (s.peek, s.past [x]) := by
  rw [Scanner.advance?, if_pos (h.lt_size (List.cons_ne_nil x after)),
    forward_eq_past s hx hbreak]

theorem At.lexeme? {text : List Char} (h : s.At before (text ++ after)) (hstart : s.start = s.curr) :
    (s.past text).lexeme? = some (String.ofList text) := by
  have hfirst : (s.past text).start = byteLength before := hstart.trans h.curr
  have hlast : (s.past text).curr = byteLength (before ++ text) := h.past.curr
  have hplace : s.source.toList = before ++ text ++ after := by
    rw [List.append_assoc]
    exact h.source
  rw [Scanner.lexeme?, hfirst, hlast]
  exact slice?_of_append hplace

theorem At.slice?_body {body : List Char} (h : s.At before (('"' :: body ++ ['"']) ++ after))
    (hstart : s.start = s.curr) :
    slice? (s.past ('"' :: body ++ ['"'])).source ((s.past ('"' :: body ++ ['"'])).start + 1)
      ((s.past ('"' :: body ++ ['"'])).curr - 1) = some (String.ofList body) := by
  have hfirst : (s.past ('"' :: body ++ ['"'])).start = byteLength before := hstart.trans h.curr
  have hplace : s.source.toList = before ++ ('"' :: body ++ ['"']) ++ after := by
    rw [List.append_assoc]
    exact h.source
  rw [hfirst, h.past.curr]
  exact slice?_of_quoted hplace

theorem scanString_past (h : s.At before ('"' :: after)) (hstart : s.start = s.curr) :
    (s.past ['"']).scanString = some (s.find (readString after).1) := by
  have hopen : (s.past ['"']).At (before ++ ['"']) after := h.past
  have hsplit : after.takeWhile (· != '"') ++ after.dropWhile (· != '"') = after :=
    List.takeWhile_append_dropWhile
  have hbody := hopen.skipString
  unfold scanString readString
  simp only [hbody, past_past, List.singleton_append]
  generalize after.takeWhile (· != '"') = body at *
  have hrest : (s.past ('"' :: body)).At (before ++ '"' :: body) (after.dropWhile (· != '"')) :=
    At.past (by rw [List.cons_append, hsplit]; exact h)
  cases hdrop : after.dropWhile (· != '"') with
  | nil =>
      rw [hdrop] at hrest
      have hend : (s.past ('"' :: body)).atEnd = true := by
        simp [atEnd, hrest.curr_eq_size]
      rw [if_pos hend]
      rfl
  | cons quote rest =>
      rw [hdrop] at hrest hsplit
      obtain rfl : quote = '"' := by
        have hhead := List.head?_dropWhile_not (· != '"') after
        rw [hdrop] at hhead
        simpa using hhead
      have hend : ¬ (s.past ('"' :: body)).atEnd = true := by
        simpa [atEnd] using hrest.lt_size (List.cons_ne_nil _ _)
      have hclose := hrest.advance? (by decide) (by decide)
      rw [past_past] at hclose
      have hquoted : s.At before (('"' :: body ++ ['"']) ++ rest) := by
        rw [← hsplit] at h
        simpa using h
      have hbody := hquoted.slice?_body hstart
      rw [if_neg hend, hclose]
      simp only [Option.bind_eq_bind, Option.bind_some, hbody]
      rfl

theorem ne_point_of_isDigit {d : Char} (h : d.isDigit = true) : (d != '.') = true := by
  rw [bne_iff_ne]
  rintro rfl
  exact absurd h (by decide)

theorem numberOf_whole {whole : List Char} (hwhole : ∀ d ∈ whole, d.isDigit = true) :
    numberOf whole = numberValue whole [] := by
  have hpoint (d : Char) (hd : d ∈ whole) : (d != '.') = true := ne_point_of_isDigit (hwhole d hd)
  rw [numberOf, List.takeWhile_eq_self_iff.mpr hpoint, List.dropWhile_eq_nil_iff.mpr hpoint,
    List.drop_nil]

theorem numberOf_point {whole : List Char} (hwhole : ∀ d ∈ whole, d.isDigit = true)
    (fraction : List Char) : numberOf (whole ++ '.' :: fraction) = numberValue whole fraction := by
  have hpoint (d : Char) (hd : d ∈ whole) : (d != '.') = true := ne_point_of_isDigit (hwhole d hd)
  rw [numberOf, List.takeWhile_append_of_pos hpoint, List.dropWhile_append_of_pos hpoint]
  simp

/-- The value of a number is that of its text. -/
theorem readNumber_eq {c : Char} (hc : c.isDigit = true) (cs : List Char) :
    (readNumber c cs).1 = .token (.number (numberOf (readNumber c cs).1.text))
      (readNumber c cs).1.text := by
  have hwhole : ∀ d ∈ c :: cs.takeWhile Char.isDigit, d.isDigit = true :=
    List.forall_mem_cons.mpr ⟨hc, fun d hd => List.mem_takeWhile_imp hd⟩
  unfold readNumber
  dsimp only
  split
  · split
    · rw [Piece.text, numberOf_point hwhole]
    · rw [Piece.text, numberOf_whole hwhole]
  · rw [Piece.text, numberOf_whole hwhole]

theorem At.peekNext {p : Char → Bool} {c : Char} (h : s.At before (c :: after))
    (hc : c.toNat < 128) (hp : Uniform p) (hzero : p '\x00' = false) :
    p s.peekNext = after.head?.any p := by
  rw [peekNext_eq, h.left, octets_cons, octets_ascii hc, List.singleton_append, List.tail_cons,
    head_octets hp hzero]

theorem skipNumber_past {c : Char} (h : s.At before (c :: after)) :
    (s.past [c]).skipNumber = s.past (readNumber c after).1.text := by
  have hopen : (s.past [c]).At (before ++ [c]) after := h.past
  have hwhole := hopen.skipWhile uniform_isDigit (by decide)
  rw [past_past, List.singleton_append] at hwhole
  have hbehind : (s.past (c :: after.takeWhile Char.isDigit)).At
      (before ++ c :: after.takeWhile Char.isDigit) (after.dropWhile Char.isDigit) :=
    At.past (by rwa [List.cons_append, List.takeWhile_append_dropWhile])
  have hpoint := hbehind.peek (p := (· == '.')) (uniform_beq (by decide)) (by decide)
  unfold skipNumber readNumber
  dsimp only at hpoint ⊢
  rw [hwhole, hpoint]
  generalize after.takeWhile Char.isDigit = whole at *
  cases hrest : after.dropWhile Char.isDigit with
  | nil => rfl
  | cons x more =>
      rw [hrest] at hbehind
      by_cases hx : x = '.'
      · subst hx
        have hdot : ((s.past (c :: whole)).past ['.']).At (before ++ c :: whole ++ ['.']) more :=
          hbehind.past
        rw [hbehind.peekNext (by decide) uniform_isDigit (by decide),
          forward_eq_past _ (by decide : ('.' : Char).toNat < 128) (by decide),
          hdot.skipWhile uniform_isDigit (by decide), past_past, past_past]
        cases more with
        | nil => rfl
        | cons d more =>
            cases hd : d.isDigit <;> simp [hd, Piece.text]
      · simp [hx, Piece.text]

theorem scanNumber_past {c : Char} (h : s.At before (c :: after)) (hstart : s.start = s.curr)
    (hc : c.isDigit = true) :
    (s.past [c]).scanNumber = some (s.find (readNumber c after).1) := by
  have hat : s.At before ((readNumber c after).1.text ++ (readNumber c after).2) := by
    rwa [text_readNumber]
  have hlexeme := hat.lexeme? hstart
  rw [readNumber_eq hc]
  simp only [scanNumber, skipNumber_past h, hlexeme, Option.bind_eq_bind, Option.bind_some,
    String.toList_ofList]
  rfl

theorem scanName_past {c : Char} (h : s.At before (c :: after)) (hstart : s.start = s.curr) :
    (s.past [c]).scanName = some (s.find (readName c after).1) := by
  have hopen : (s.past [c]).At (before ++ [c]) after := h.past
  have hname := hopen.skipWhile uniform_isNamePart (by decide)
  rw [past_past, List.singleton_append] at hname
  have hat : s.At before ((readName c after).1.text ++ (readName c after).2) := by
    rwa [text_readName]
  have hlexeme := hat.lexeme? hstart
  rw [readName, Piece.text] at hlexeme
  simp only [scanName, hname, hlexeme, Option.bind_eq_bind, Option.bind_some, String.toList_ofList]
  rfl

theorem readPiece_of_loneMark? {c : Char} {mark : Symbol} (h : loneMark? c = some mark)
    (cs : List Char) : readPiece c cs = (.token (.symbol mark) [c], cs) := by
  unfold loneMark? at h
  split at h <;> cases h <;> rfl

theorem readPiece_of_equalMarks? {c : Char} {double single : Symbol}
    (h : equalMarks? c = some (double, single)) (cs : List Char) :
    (readPiece c cs).1 = if cs.head? = some '=' then .token (.symbol double) [c, '=']
      else .token (.symbol single) [c] := by
  unfold equalMarks? at h
  cases cs with
  | nil => split at h <;> cases h <;> rfl
  | cons x cs =>
      by_cases hx : x = '='
      · subst hx
        split at h <;> cases h <;> rfl
      · have hne : ('=' == x) = false := by simpa using Ne.symm hx
        rw [List.head?_cons, if_neg (by simpa using hx)]
        split at h <;> cases h <;>
          simp [readPiece, readMark, Symbol.ofMark?, Symbol.marks, Symbol.letters, isBlank,
            isNameStart, List.isPrefixOf, hne]

theorem readPiece_slash (cs : List Char) :
    (readPiece '/' cs).1 = if cs.head? = some '/' then (readComment cs).1
      else .token (.symbol .slash) ['/'] := by
  cases cs with
  | nil => rfl
  | cons x cs =>
      by_cases hx : x = '/'
      · subst hx
        rfl
      · rw [List.head?_cons, if_neg (by simpa using hx)]
        simp [readPiece, readMark, Symbol.ofMark?, Symbol.marks, Symbol.letters, isBlank,
            isNameStart, List.isPrefixOf, hx]

/-- The first character of a mark is told by the scanner. -/
theorem ofMark?_eq_none {c : Char} (hlone : loneMark? c = none) (hequal : equalMarks? c = none)
    (hslash : c ≠ '/') (cs : List Char) : Symbol.ofMark? (c :: cs) = none := by
  have hall : ∀ s ∈ Symbol.marks, s.letters.head?.all fun l =>
      (loneMark? l).isSome || (equalMarks? l).isSome || l == '/' := by decide
  refine List.find?_eq_none.mpr fun s hs hpre => ?_
  have hfirst := hall s hs
  obtain ⟨more, hmore⟩ := List.isPrefixOf_iff_prefix.mp hpre
  cases hletters : s.letters with
  | nil => cases s <;> cases hletters
  | cons l ls =>
      rw [hletters, List.cons_append] at hmore
      obtain ⟨rfl, -⟩ := List.cons_eq_cons.mp hmore
      simp [hletters, hlone, hequal, hslash] at hfirst

theorem refuse_forward {c : Char} (h : s.At before (c :: after)) (hstart : s.start = s.curr)
    (hbreak : c ≠ '\n') : s.forward.refuse = some (s.find (.unexpected c)) := by
  have hchar : charAt? s.forward.source s.forward.start = some c := by
    have hfirst : s.forward.start = byteLength before := hstart.trans h.curr
    rw [hfirst]
    exact charAt?_of_append h.source
  have hpast : { s.forward with curr := s.forward.start + c.utf8Size } = s.past [c] := by
    rw [past, byteLength_singleton, ← hstart, List.count_singleton, if_neg (by simpa using hbreak)]
    rfl
  have hline : (s.past [c]).line = s.line := by
    rw [← hpast]
    rfl
  simp only [refuse, hchar, Option.bind_eq_bind, Option.bind_some, hpast, find, Piece.text, hline]
  rfl

theorem scanSlash_past (h : s.At before ('/' :: after)) :
    (s.past ['/']).scanSlash = s.find (readPiece '/' after).1 := by
  have hopen : (s.past ['/']).At (before ++ ['/']) after := h.past
  rw [scanSlash, hopen.takeIf (by decide) (by decide) (by decide), readPiece_slash]
  by_cases hslash : after.head? = some '/'
  · obtain ⟨more, rfl⟩ : ∃ more, after = '/' :: more := by
      cases after with
      | nil => cases hslash
      | cons x more => exact ⟨more, by rw [Option.some.inj hslash]⟩
    have hinside : ((s.past ['/']).past ['/']).At (before ++ ['/'] ++ ['/']) more := hopen.past
    have hcomment := hinside.skipWhile
      (uniform_bne (by decide : ('\n' : Char).toNat < 128)) (by decide)
    simp only [if_pos hslash]
    rw [hcomment, past_past, past_past]
    rfl
  · simp only [if_neg hslash]
    rfl

theorem scanFrom_of_loneMark? {c : Char} {mark : Symbol} (hlone : loneMark? c = some mark)
    (hascii : c.toNat < 128) (s : Scanner) (after : List Char) :
    s.forward.scanFrom c = some (s.find (readPiece c after).1) := by
  have hbreak : c ≠ '\n' := by
    rintro rfl
    cases hlone
  unfold scanFrom
  rw [hlone, readPiece_of_loneMark? hlone, forward_eq_past s hascii hbreak]
  rfl

theorem scanFrom_of_equalMarks? {c : Char} {marks : Symbol × Symbol}
    (h : s.At before (c :: after)) (hlone : loneMark? c = none)
    (hequal : equalMarks? c = some marks) (hascii : c.toNat < 128) :
    s.forward.scanFrom c = some (s.find (readPiece c after).1) := by
  have hbreak : c ≠ '\n' := by
    rintro rfl
    cases hequal
  have hopen : (s.past [c]).At (before ++ [c]) after := h.past
  unfold scanFrom
  rw [hlone, hequal, readPiece_of_equalMarks? hequal, forward_eq_past s hascii hbreak]
  simp only
  rw [hopen.takeIf (by decide) (by decide) (by decide)]
  by_cases hdouble : after.head? = some '='
  · simp only [if_pos hdouble]
    rw [past_past]
    rfl
  · simp only [if_neg hdouble]
    rfl

/-- No lexeme begins with the character. -/
structure BeginsNothing (c : Char) : Prop where
  lone : loneMark? c = none
  equal : equalMarks? c = none
  blank : isBlank c = false
  quote : c ≠ '"'
  slash : c ≠ '/'
  digit : c.isDigit = false
  name : isNameStart c = false

theorem BeginsNothing.readPiece {c : Char} (h : BeginsNothing c) (cs : List Char) :
    (readPiece c cs).1 = .unexpected c := by
  simp [Lexer.readPiece, readMark, h.blank, h.quote, h.slash, h.digit, h.name,
    ofMark?_eq_none h.lone h.equal h.slash]

theorem BeginsNothing.scanFrom {c : Char} (h : BeginsNothing c) (s : Scanner) :
    s.scanFrom c = s.refuse := by
  have hblank := h.blank
  unfold Scanner.scanFrom
  rw [h.lone, h.equal]
  simp only
  split
  · cases hblank
  · cases hblank
  · cases hblank
  · cases hblank
  · exact absurd rfl h.slash
  · exact absurd rfl h.quote
  · rw [h.digit, h.name]
    rfl

/-- All letters of lexemes are below 128. -/
theorem beginsNothing_of_le {c : Char} (h : 128 ≤ c.toNat) : BeginsNothing c where
  lone := by
    unfold loneMark?
    split <;> first | rfl | exact absurd h (by decide)
  equal := by
    unfold equalMarks?
    split <;> first | rfl | exact absurd h (by decide)
  blank := by
    have hne {x : Char} (hx : x.toNat < 128) : (c == x) = false := by
      refine beq_false_of_ne ?_
      rintro rfl
      omega
    rw [isBlank, hne (by decide), hne (by decide), hne (by decide), hne (by decide)]
    rfl
  quote := by
    rintro rfl
    exact absurd h (by decide)
  slash := by
    rintro rfl
    exact absurd h (by decide)
  digit := Bool.eq_false_iff.mpr fun hc => Nat.not_lt_of_le h (toNat_lt_of_isDigit hc)
  name := Bool.eq_false_iff.mpr fun hc =>
    Nat.not_lt_of_le h (toNat_lt_of_isNamePart (by rw [isNamePart, hc, Bool.true_or]))

/-- A character that is no mark begins a blank, a comment, a string, a number or a name, or else it
is refused. -/
theorem scanFrom_of_noMark {c : Char} (h : s.At before (c :: after)) (hstart : s.start = s.curr)
    (hlone : loneMark? c = none) (hequal : equalMarks? c = none) (hascii : c.toNat < 128) :
    s.forward.scanFrom c = some (s.find (readPiece c after).1) := by
  by_cases hnothing : BeginsNothing c
  · have hbreak : c ≠ '\n' := by
      rintro rfl
      cases hnothing.blank
    rw [hnothing.scanFrom, hnothing.readPiece, refuse_forward h hstart hbreak]
  unfold scanFrom
  rw [hlone, hequal]
  simp only
  split
  · rw [forward_eq_past s hascii (by decide)]
    rfl
  · rw [forward_eq_past s hascii (by decide)]
    rfl
  · rw [forward_eq_past s hascii (by decide)]
    rfl
  · rfl
  · rw [forward_eq_past s hascii (by decide), scanSlash_past h]
  · rw [forward_eq_past s hascii (by decide), scanString_past h hstart]
    rfl
  · rename_i hspace hreturn htab hbreak hslash hquote
    have hblank : isBlank c = false := by
      simp only [isBlank, beq_false_of_ne hspace, beq_false_of_ne hreturn, beq_false_of_ne htab,
        beq_false_of_ne hbreak, Bool.or_false]
    have hquote' : (c == '"') = false := beq_false_of_ne hquote
    cases hdigit : c.isDigit with
    | true =>
        rw [if_pos rfl, forward_eq_past s hascii hbreak, scanNumber_past h hstart hdigit]
        simp [readPiece, hblank, hquote', hdigit]
    | false =>
        cases hname : isNameStart c with
        | true =>
            rw [if_neg (by simp), if_pos rfl, forward_eq_past s hascii hbreak,
              scanName_past h hstart]
            simp [readPiece, hblank, hquote', hdigit, hname]
        | false => exact absurd ⟨hlone, hequal, hblank, hquote, hslash, hdigit, hname⟩ hnothing

theorem scanFrom_forward {c : Char} (h : s.At before (c :: after)) (hstart : s.start = s.curr) :
    s.forward.scanFrom s.peek = some (s.find (readPiece c after).1) := by
  rcases Nat.lt_or_ge c.toNat 128 with hascii | hwide
  · have hpeek : s.peek = c := by
      rw [peek_eq, h.left, octets_cons, octets_ascii hascii]
      rfl
    rw [hpeek]
    cases hlone : loneMark? c with
    | some mark => exact scanFrom_of_loneMark? hlone hascii s after
    | none =>
        cases hequal : equalMarks? c with
        | some marks => exact scanFrom_of_equalMarks? h hlone hequal hascii
        | none => exact scanFrom_of_noMark h hstart hlone hequal hascii
  -- The first byte of a wide character begins nothing either, and the whole character is refused.
  · have hpeek : 128 ≤ s.peek.toNat := by
      obtain ⟨d, ds, hds⟩ := List.exists_cons_of_ne_nil (octets_ne_nil c)
      rw [peek_eq, h.left, octets_cons, hds]
      exact le_of_mem_octets hwide (by simp [hds])
    have hbreak : c ≠ '\n' := by
      rintro rfl
      exact absurd hwide (by decide)
    rw [(beginsNothing_of_le hpeek).scanFrom, (beginsNothing_of_le hwide).readPiece,
      refuse_forward h hstart hbreak]

theorem emit_find (p : Piece) (h : s.At before (p.text ++ after)) (hstart : s.start = s.curr) :
    emit (s.find p) = some (p.item? (s.past p.text).line, s.past p.text) := by
  cases p with
  | token kind text =>
      simp only [find, emit, h.lexeme? hstart, Option.bind_eq_bind, Option.bind_some]
      rfl
  | blank | comment | unexpected | unterminated => rfl

/-- The scanner behind a lexeme that begins at the cursor. -/
def behind (s : Scanner) (text : List Char) : Scanner :=
  { s with start := s.curr }.past text

/-- Behind a piece the scanner stands before the rest of the source. -/
theorem At.behind {c : Char} (h : s.At before (c :: after)) :
    (s.behind (readPiece c after).1.text).At (before ++ (readPiece c after).1.text)
      (readPiece c after).2 := by
  have hbegin : { s with start := s.curr }.At before
      ((readPiece c after).1.text ++ (readPiece c after).2) := by
    rw [text_readPiece]
    exact ⟨h.source, h.curr⟩
  exact hbegin.past

/-- One pass takes the piece at the cursor, and yields its item. -/
theorem pass_eq {c : Char} (h : s.At before (c :: after)) :
    s.pass = some ((readPiece c after).1.item? ((readPiece c after).1.lastLine s.line),
      s.behind (readPiece c after).1.text) := by
  have hbegin : { s with start := s.curr }.At before (c :: after) := ⟨h.source, h.curr⟩
  have hpiece := emit_find (readPiece c after).1 ((text_readPiece c after).symm ▸ hbegin) rfl
  have htaken := hbegin.lt_size (List.cons_ne_nil c after)
  simp only [pass, advance?, if_pos htaken, Option.bind_eq_bind, Option.bind_some,
    scanFrom_forward hbegin rfl, hpiece]
  rfl

/-- Before the end a call takes the piece at the cursor, and goes on if it is no item. -/
theorem next_eq {c : Char} (h : s.At before (c :: after)) :
    s.next = match (readPiece c after).1.item? ((readPiece c after).1.lastLine s.line) with
      | some item => some (some item, s.behind (readPiece c after).1.text)
      | none => (s.behind (readPiece c after).1.text).next := by
  have hlt := h.lt_size (List.cons_ne_nil c after)
  have hpass := pass_eq h
  rw [next, if_pos hlt.le, if_neg hlt.ne]
  cases hitem : (readPiece c after).1.item? ((readPiece c after).1.lastLine s.line) with
  | none =>
      rw [hitem] at hpass
      split <;> simp_all
  | some item =>
      rw [hitem] at hpass
      split <;> simp_all

theorem next_of_end (h : s.At before []) :
    s.next = some (some (.token (.endAt s.line)), s.forward) := by
  rw [next, if_pos h.curr_eq_size.le, if_pos h.curr_eq_size]

/-- Behind the end of input the iterator yields nothing and stays where it is. -/
theorem next_of_size_lt (h : s.size < s.curr) : s.next = some (none, s) := by
  rw [next, if_neg (Nat.not_le_of_lt h)]

theorem At.size_lt_forward (h : s.At before []) : s.forward.size < s.forward.curr :=
  Nat.lt_succ_of_le h.curr_eq_size.ge

theorem drain_of_item {t : Scanner} {item : Item} (h : s.next = some (some item, t)) :
    s.drain = t.drain.map (item :: ·) := by
  rw [drain]
  split <;> simp_all

theorem drain_of_none {t : Scanner} (h : s.next = some (none, t)) : s.drain = some [] := by
  rw [drain]
  split <;> simp_all

theorem drain_congr {t : Scanner} (h : s.next = t.next) : s.drain = t.drain := by
  rw [drain, drain, h]

/-- The calls yield the items of the pieces behind the cursor. -/
theorem At.drain_eq (h : s.At before after) : s.drain = some (itemsFrom s.line (pieces after)) := by
  fun_induction pieces after generalizing s before with
  | case1 =>
      rw [drain_of_item (next_of_end h), drain_of_none (next_of_size_lt h.size_lt_forward)]
      rfl
  | case2 c cs ih =>
      have hrest := ih h.behind
      have hnext := next_eq h
      rw [itemsFrom]
      cases hitem : (readPiece c cs).1.item? ((readPiece c cs).1.lastLine s.line) with
      | none =>
          rw [hitem] at hnext
          exact (drain_congr hnext).trans hrest
      | some item =>
          rw [hitem] at hnext
          rw [drain_of_item hnext, hrest]
          rfl

/-- The answers of this many calls. -/
def answers : Nat → Scanner → Option (List (Option Item))
  | 0, _ => some []
  | n + 1, s => s.next.bind fun (item?, t) => (answers n t).map (item? :: ·)

theorem answers_congr {t : Scanner} (h : s.next = t.next) (n : Nat) :
    s.answers n = t.answers n := by
  cases n with
  | zero => rfl
  | succ n => rw [answers, answers, h]

theorem answers_succ {t : Scanner} {item? : Option Item} {answered : List (Option Item)} {n : Nat}
    (h : s.next = some (item?, t)) (hrest : t.answers n = some answered) :
    s.answers (n + 1) = some (item? :: answered) := by
  rw [answers, h, Option.bind_some]
  exact congrArg (Option.map (item? :: ·)) hrest

/-- Behind the end of input all calls yield nothing. -/
theorem answers_of_size_lt (h : s.size < s.curr) (n : Nat) :
    s.answers n = some (List.replicate n none) := by
  induction n with
  | zero => rfl
  | succ n ih => exact answers_succ (next_of_size_lt h) ih

theorem map_getElem?_cons {α : Type} (x : α) (xs : List α) (n : Nat) :
    (List.range (n + 1)).map ((x :: xs)[·]?) = some x :: (List.range n).map (xs[·]?) := by
  rw [List.range_succ_eq_map, List.map_cons, List.map_map]
  rfl

/-- The calls yield the items of the pieces behind the cursor, and nothing from then on. -/
theorem At.answers_eq (h : s.At before after) (n : Nat) :
    s.answers n = some ((List.range n).map ((itemsFrom s.line (pieces after))[·]?)) := by
  fun_induction pieces after generalizing s before n with
  | case1 =>
      cases n with
      | zero => rfl
      | succ n =>
          have hnone : (List.range n).map ([][·]? : Nat → Option Item) = List.replicate n none := by
            simp [List.map_const']
          rw [answers_succ (next_of_end h) (answers_of_size_lt h.size_lt_forward n), itemsFrom,
            map_getElem?_cons, hnone]
  | case2 c cs ih =>
      have hrest := ih h.behind
      have hnext := next_eq h
      rw [itemsFrom]
      cases hitem : (readPiece c cs).1.item? ((readPiece c cs).1.lastLine s.line) with
      | none =>
          rw [hitem] at hnext
          exact (answers_congr hnext n).trans (hrest n)
      | some item =>
          rw [hitem] at hnext
          cases n with
          | zero => rfl
          | succ n =>
              rw [answers_succ hnext (hrest n), map_getElem?_cons]
              rfl

end Scanner

/-- The items of a source are those of its pieces. -/
theorem items_eq_itemsFrom (source : String) : items source = itemsFrom 1 (pieces source.toList) := by
  rw [items, (Scanner.at_new source).drain_eq]
  rfl

end Lox.Lexer
