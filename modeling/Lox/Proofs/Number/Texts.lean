import Lox.Proofs.Number.Signs

/-!
# Texts of unsigned numbers

The text of a finite number without a sign begins with a digit, and consists of digits and points.
-/

namespace Lox

open Decimal

variable {s t : String} {x : Float} {size : Magnitude}

/-- The character is a digit or a point. -/
def IsNumeric (c : Char) : Prop :=
  c.isDigit = true ∨ c = '.'

/-- The text consists of digits and points, the first of them a digit. -/
structure Numeric (text : String) : Prop where
  lead : ∃ d cs, text.toList = d :: cs ∧ d.isDigit = true
  chars : ∀ c ∈ text.toList, IsNumeric c

theorem Numeric.append (h : Numeric s) (ht : ∀ c ∈ t.toList, IsNumeric c) : Numeric (s ++ t) := by
  obtain ⟨d, cs, hs, hd⟩ := h.lead
  constructor
  · exact ⟨d, cs ++ t.toList, by rw [String.toList_append, hs, List.cons_append], hd⟩
  · rw [String.toList_append]
    exact List.forall_mem_append.mpr ⟨h.chars, ht⟩

theorem isDigit_of_mem_digits {n : Nat} {c : Char} (h : c ∈ Nat.toDigits 10 n) :
    c.isDigit = true :=
  Nat.isDigit_of_mem_toDigits (by decide) (by decide) h

theorem isNumeric_of_mem_repr {n : Nat} : ∀ c ∈ (Nat.repr n).toList, IsNumeric c := by
  intro c hc
  rw [Nat.toList_repr] at hc
  exact .inl (isDigit_of_mem_digits hc)

theorem numeric_repr (n : Nat) : Numeric (Nat.repr n) := by
  obtain ⟨d, cs, hdigits⟩ := List.exists_cons_of_ne_nil (Nat.toDigits_ne_nil (n := n) (b := 10))
  refine ⟨⟨d, cs, by rw [Nat.toList_repr, hdigits], ?_⟩, isNumeric_of_mem_repr⟩
  exact isDigit_of_mem_digits (by rw [hdigits]; exact List.mem_cons_self)

theorem isNumeric_of_mem_zeros {k : Nat} : ∀ c ∈ ("".pushn '0' k).toList, IsNumeric c := by
  rw [String.pushn_eq_repeat_push]
  induction k with
  | zero => simp [Nat.repeat]
  | succ k ih =>
      rw [Nat.repeat, String.toList_push]
      exact List.forall_mem_append.mpr ⟨ih, by simp [IsNumeric]⟩

/-- Some digits of a number, but not all, stand before the point. -/
theorem numeric_split {n k : Nat} (hk : 0 < k) :
    Numeric (String.ofList ((Nat.repr n).toList.take k) ++ "."
      ++ String.ofList ((Nat.repr n).toList.drop k)) := by
  have hall := isNumeric_of_mem_repr (n := n)
  obtain ⟨lead, cs, hrepr, hlead⟩ := (numeric_repr n).lead
  obtain ⟨k, rfl⟩ := Nat.exists_eq_add_one_of_ne_zero hk.ne'
  have hwhole : Numeric (String.ofList ((Nat.repr n).toList.take (k + 1))) := by
    constructor
    · exact ⟨lead, cs.take k, by rw [String.toList_ofList, hrepr, List.take_succ_cons], hlead⟩
    · rw [String.toList_ofList]
      exact fun c hc => hall c (List.mem_of_mem_take hc)
  refine (hwhole.append (by simp [IsNumeric])).append ?_
  rw [String.toList_ofList]
  exact fun c hc => hall c (List.mem_of_mem_drop hc)

/-- A number without an exponent is written with digits and at most one point. -/
theorem numeric_positional (d : Decimal.Scaled) : Numeric d.positional := by
  unfold Decimal.Scaled.positional
  dsimp only
  split
  · exact (numeric_repr _).append isNumeric_of_mem_zeros
  split
  · rw [List.splitAt_eq]
    exact numeric_split (by omega)
  · have hzero : Numeric "0." := ⟨⟨'0', ['.'], rfl, rfl⟩, by simp [IsNumeric]⟩
    exact (hzero.append isNumeric_of_mem_zeros).append isNumeric_of_mem_repr

/-- The double is a number, and not an infinite one. -/
def Number.isFinite (x : Float) : Bool :=
  match Parts.ofFloat x with
  | .finite _ _ => true
  | _ => false

theorem Number.exists_parts (h : Number.isFinite x = true) :
    ∃ negative size, Parts.ofFloat x = .finite negative size := by
  unfold Number.isFinite at h
  split at h
  · next negative size hparts => exact ⟨negative, size, hparts⟩
  · cases h

theorem shiftRight_of_msb {bits : UInt64} (h : bits.toBitVec.msb = false) : bits >>> 63 = 0 := by
  rw [BitVec.msb_eq_false_iff_two_mul_lt] at h
  apply UInt64.toNat_inj.mp
  rw [UInt64.toNat_shiftRight]
  change bits.toNat >>> 63 = 0
  rw [Nat.shiftRight_eq_div_pow]
  exact Nat.div_eq_of_lt (by change 2 * bits.toNat < 2 ^ 64 at h; omega)

theorem finite_of_hasNoSign (hsign : HasNoSign x) (hx : Number.isFinite x = true) :
    ∃ size, Parts.ofFloat x = .finite false size := by
  obtain ⟨negative, size, hparts⟩ := Number.exists_parts hx
  refine ⟨size, ?_⟩
  cases negative with
  | false => exact hparts
  | true =>
      unfold Parts.ofFloat Parts.ofBits at hparts
      dsimp only at hparts
      rw [shiftRight_of_msb hsign] at hparts
      split at hparts
      · split at hparts <;> cases hparts
      · split at hparts <;> cases hparts

/-- The text of a finite number without a sign, in a syntax tree. -/
theorem numeric_treeText (hsign : HasNoSign x) (hx : Number.isFinite x = true) :
    Numeric (Number.treeText x) := by
  obtain ⟨size, hparts⟩ := finite_of_hasNoSign hsign hx
  unfold Number.treeText Number.textWith
  rw [hparts]
  change Numeric ("" ++ _)
  rw [String.empty_append]
  split
  · exact (numeric_repr _).append (by simp [IsNumeric])
  · exact numeric_positional _

end Lox
