import Mathlib.Data.List.TakeWhile
import Lox.Token.Lexer

/-!
# The bytes of a source

The bytes of a text read as the characters with their codes. A character below 128 is one byte and
stands for itself, and all bytes of any other character are above that. So a class of characters
that does not tell those from 128 on apart passes as many bytes as characters, and a text between
two others is the slice of the source between their bytes.
-/

namespace Lox.Lexer

/-- The bytes of a text. -/
def octets (text : List Char) : List Char :=
  text.flatMap fun c => (String.utf8EncodeChar c).map Char.ofUInt8

def byteLength (text : List Char) : Nat :=
  (String.ofList text).utf8ByteSize

theorem octets_append (text more : List Char) : octets (text ++ more) = octets text ++ octets more :=
  List.flatMap_append

theorem octets_cons (c : Char) (cs : List Char) : octets (c :: cs) = octets [c] ++ octets cs :=
  octets_append [c] cs

theorem map_toByteArray (source : String) :
    source.toByteArray.data.toList.map Char.ofUInt8 = octets source.toList := by
  obtain ⟨text, rfl⟩ : ∃ text, source = String.ofList text := ⟨_, String.ofList_toList.symm⟩
  rw [String.toList_ofList, octets, ← List.map_flatMap]
  congr 1
  exact List.toList_data_toByteArray

theorem length_octets (text : List Char) : (octets text).length = byteLength text := by
  have hbytes := congrArg List.length (map_toByteArray (String.ofList text))
  rw [List.length_map, Array.length_toList, String.toList_ofList] at hbytes
  exact hbytes.symm

theorem byteLength_append (text more : List Char) :
    byteLength (text ++ more) = byteLength text + byteLength more := by
  rw [← length_octets, octets_append, List.length_append, length_octets, length_octets]

theorem byteLength_singleton (c : Char) : byteLength [c] = c.utf8Size := by
  rw [← length_octets, octets, List.flatMap_singleton, List.length_map,
    String.length_utf8EncodeChar]

theorem toNat_ofUInt8 (b : UInt8) : (Char.ofUInt8 b).toNat = b.toNat :=
  UInt8.toNat_toUInt32 b

theorem octets_ascii {c : Char} (h : c.toNat < 128) : octets [c] = [c] := by
  have hle : c.val.toNat ≤ 127 := Nat.le_of_lt_succ h
  rw [octets, List.flatMap_singleton, String.utf8EncodeChar]
  simp only [if_pos hle, List.map_cons, List.map_nil, List.cons.injEq, and_true]
  rw [← Char.toNat_inj, toNat_ofUInt8, UInt8.toNat_ofNat']
  exact Nat.mod_eq_of_lt (by omega)

theorem le_toNat_ofUInt8 {n : Nat} (h : 128 ≤ n) (hn : n < 256) :
    128 ≤ (Char.ofUInt8 (UInt8.ofNat n)).toNat := by
  rwa [toNat_ofUInt8, UInt8.toNat_ofNat', Nat.mod_eq_of_lt hn]

/-- The bytes of a character from 128 on are all from 128 on. -/
theorem le_of_mem_octets {c d : Char} (h : 128 ≤ c.toNat) (hd : d ∈ octets [c]) :
    128 ≤ d.toNat := by
  have hbig : ¬ c.val.toNat ≤ 127 := Nat.not_le_of_lt h
  rw [octets, List.flatMap_singleton, List.mem_map] at hd
  obtain ⟨b, hb, rfl⟩ := hd
  rw [String.utf8EncodeChar] at hb
  simp only [if_neg hbig] at hb
  split at hb
  · simp only [List.mem_cons, List.not_mem_nil, or_false] at hb
    rcases hb with rfl | rfl <;> exact le_toNat_ofUInt8 (by omega) (by omega)
  split at hb
  · simp only [List.mem_cons, List.not_mem_nil, or_false] at hb
    rcases hb with rfl | rfl | rfl <;> exact le_toNat_ofUInt8 (by omega) (by omega)
  · simp only [List.mem_cons, List.not_mem_nil, or_false] at hb
    rcases hb with rfl | rfl | rfl | rfl <;> exact le_toNat_ofUInt8 (by omega) (by omega)

/-- The class does not tell the characters from 128 on apart. -/
def Uniform (p : Char → Bool) : Prop :=
  ∀ c d : Char, 128 ≤ c.toNat → 128 ≤ d.toNat → p c = p d

theorem uniform_of_false {p : Char → Bool} (h : ∀ c : Char, 128 ≤ c.toNat → p c = false) :
    Uniform p :=
  fun c d hc hd => (h c hc).trans (h d hd).symm

theorem uniform_beq {x : Char} (hx : x.toNat < 128) : Uniform (· == x) := by
  refine uniform_of_false fun c hc => beq_false_of_ne ?_
  rintro rfl
  omega

theorem uniform_bne {x : Char} (hx : x.toNat < 128) : Uniform (· != x) :=
  fun c d hc hd => congrArg not (uniform_beq hx c d hc hd)

theorem toNat_lt_of_isDigit {c : Char} (h : c.isDigit = true) : c.toNat < 128 := by
  simp only [Char.isDigit, ge_iff_le, UInt32.le_iff_toNat_le, Bool.and_eq_true,
    decide_eq_true_eq] at h
  exact Nat.lt_of_le_of_lt h.2 (by decide)

theorem toNat_lt_of_isNamePart {c : Char} (h : isNamePart c = true) : c.toNat < 128 := by
  have hcases : ((c.isUpper || c.isLower) || c == '_' || c.isDigit) = true := h
  simp only [Bool.or_eq_true, beq_iff_eq] at hcases
  rcases hcases with ((hupper | hlower) | rfl) | hdigit
  · exact Nat.lt_of_le_of_lt (of_decide_eq_true hupper).2 (by decide)
  · have hle := of_decide_eq_true (Bool.and_eq_true_iff.mp hlower).2
    exact Nat.lt_of_le_of_lt hle (by decide)
  · decide
  · exact toNat_lt_of_isDigit hdigit

theorem uniform_isDigit : Uniform Char.isDigit :=
  uniform_of_false fun _ hc =>
    Bool.eq_false_iff.mpr fun h => Nat.not_lt_of_le hc (toNat_lt_of_isDigit h)

theorem uniform_isNamePart : Uniform isNamePart :=
  uniform_of_false fun _ hc =>
    Bool.eq_false_iff.mpr fun h => Nat.not_lt_of_le hc (toNat_lt_of_isNamePart h)

theorem Uniform.eq_of_mem {p : Char → Bool} (hp : Uniform p) {c d : Char} (hd : d ∈ octets [c]) :
    p d = p c := by
  rcases Nat.lt_or_ge c.toNat 128 with h | h
  · rw [octets_ascii h, List.mem_singleton] at hd
    rw [hd]
  · exact hp d c (le_of_mem_octets h hd) h

theorem octets_ne_nil (c : Char) : octets [c] ≠ [] := by
  intro h
  have hpos := c.utf8Size_pos
  rw [← byteLength_singleton, ← length_octets, h] at hpos
  cases hpos

theorem takeWhile_octets {p : Char → Bool} (hp : Uniform p) (cs : List Char) :
    (octets cs).takeWhile p = octets (cs.takeWhile p) := by
  induction cs with
  | nil => rfl
  | cons c cs ih =>
      rw [octets_cons, List.takeWhile_cons]
      cases hc : p c with
      | true =>
          rw [List.takeWhile_append_of_pos fun d hd => (hp.eq_of_mem hd).trans hc, ih, if_pos rfl,
            ← octets_cons]
      | false =>
          obtain ⟨d, ds, hds⟩ := List.exists_cons_of_ne_nil (octets_ne_nil c)
          have hd : p d = false := (hp.eq_of_mem (hds ▸ List.mem_cons_self)).trans hc
          rw [hds, List.cons_append, List.takeWhile_cons_of_neg (by simp [hd]), if_neg (by simp)]
          rfl

theorem count_octets (cs : List Char) : (octets cs).count '\n' = cs.count '\n' := by
  have hchar (c : Char) : (octets [c]).count '\n' = [c].count '\n' := by
    rcases Nat.lt_or_ge c.toNat 128 with h | h
    · rw [octets_ascii h]
    · have hwide (d : Char) (hd : 128 ≤ d.toNat) : d ≠ '\n' := by
        rintro rfl
        exact absurd hd (by decide)
      rw [List.count_eq_zero_of_not_mem fun hmem => hwide _ (le_of_mem_octets h hmem) rfl,
        List.count_singleton, if_neg (by simpa using hwide c h)]
  induction cs with
  | nil => rfl
  | cons c cs ih =>
      rw [octets_cons, List.count_append, hchar, ih, ← List.count_append, List.singleton_append]

theorem extract_middle (first middle last : String) {start stop : (first ++ middle ++ last).Pos}
    (hstart : start.offset.byteIdx = first.utf8ByteSize)
    (hstop : stop.offset.byteIdx = first.utf8ByteSize + middle.utf8ByteSize) :
    (first ++ middle ++ last).extract start stop = middle := by
  rw [← String.toByteArray_inj, String.toByteArray_extract, hstart, hstop, String.append_assoc,
    String.toByteArray_append, String.toByteArray_append]
  have hskip := ByteArray.extract_append_size_add (a := first.toByteArray)
    (b := middle.toByteArray ++ last.toByteArray) (i := 0) (j := middle.toByteArray.size)
  exact hskip.trans (ByteArray.extract_append_eq_left rfl)

theorem isValid_byteLength {source : String} {before after : List Char}
    (h : source.toList = before ++ after) :
    (String.Pos.Raw.mk (byteLength before)).IsValid source := by
  refine String.Pos.Raw.isValid_iff_exists_append.mpr
    ⟨String.ofList before, String.ofList after, ?_, rfl⟩
  rw [← String.ofList_append, ← h, String.ofList_toList]

/-- A text between two others is the slice between their bytes. -/
theorem slice?_of_append {source : String} {before text after : List Char}
    (h : source.toList = before ++ text ++ after) :
    slice? source (byteLength before) (byteLength (before ++ text))
      = some (String.ofList text) := by
  have hstart := isValid_byteLength (h.trans (List.append_assoc ..))
  have hstop := isValid_byteLength h
  have hle : byteLength before ≤ byteLength (before ++ text) := by
    rw [byteLength_append]
    exact Nat.le_add_right _ _
  rw [slice?, dif_pos ⟨hstart, hstop⟩, if_pos hle]
  obtain rfl : source = String.ofList before ++ String.ofList text ++ String.ofList after := by
    rw [← String.ofList_append, ← String.ofList_append, ← h, String.ofList_toList]
  exact congrArg some (extract_middle _ _ _ rfl (byteLength_append before text))

/-- The text inside of quotes is a slice one byte shorter at both ends. -/
theorem slice?_of_quoted {source : String} {before body after : List Char}
    (h : source.toList = before ++ ('"' :: body ++ ['"']) ++ after) :
    slice? source (byteLength before + 1) (byteLength (before ++ ('"' :: body ++ ['"'])) - 1)
      = some (String.ofList body) := by
  have hquote (text : List Char) : byteLength (text ++ ['"']) = byteLength text + 1 :=
    byteLength_append text ['"']
  have hsplit : source.toList = before ++ ['"'] ++ body ++ ('"' :: after) := by
    rw [h]
    simp
  have hlast : before ++ ('"' :: body ++ ['"']) = before ++ ['"'] ++ body ++ ['"'] := by simp
  rw [hlast, hquote, Nat.add_sub_cancel, ← hquote]
  exact slice?_of_append hsplit

/-- The character behind a text begins at the byte behind it. -/
theorem charAt?_of_append {source : String} {before after : List Char} {c : Char}
    (h : source.toList = before ++ c :: after) :
    charAt? source (byteLength before) = some c := by
  have hvalid := isValid_byteLength h
  have hsplits : (⟨_, hvalid⟩ : source.Pos).Splits (String.ofList before)
      (String.singleton c ++ String.ofList after) := by
    refine ⟨?_, rfl⟩
    rw [String.singleton_eq_ofList, ← String.ofList_append, ← String.ofList_append,
      List.singleton_append, ← h, String.ofList_toList]
  rw [charAt?, dif_pos hvalid, String.Pos.get?_eq_some_get hsplits.ne_endPos_of_singleton,
    hsplits.next.get_eq_of_singleton]
  rfl

end Lox.Lexer
