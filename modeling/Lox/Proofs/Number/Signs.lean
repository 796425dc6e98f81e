import Mathlib.Data.Fin.Basic
import Mathlib.Order.Compare
import Lox.Token.Lexer

/-!
# Numbers without a sign

A number that is read from decimal digits is never negative, and is not the negative zero either.
This is followed through the exact form of a double: rounding and division of unsigned numbers give
unsigned ones, and packing them leaves the sign bit clear.
-/

namespace Lox.Decimal

open Float.Model (Format UnpackedFloat)

variable {spec : Format} {a b : UnpackedFloat}

/-- The sign, where there is one, is positive. -/
def Unsigned : UnpackedFloat → Prop
  | .notANumber => True
  | .infinity sign => sign = .positive
  | .zero sign => sign = .positive
  | .finite sign _ _ _ => sign = .positive

theorem unsigned_dite {c : Prop} [Decidable c] {x : c → UnpackedFloat} {y : ¬c → UnpackedFloat}
    (hx : ∀ h, Unsigned (x h)) (hy : ∀ h, Unsigned (y h)) :
    Unsigned (if h : c then x h else y h) := by
  split
  · exact hx _
  · exact hy _

theorem unsigned_roundWithAccuracy (m : Nat) (e : Int) (accuracy : UnpackedFloat.Accuracy) :
    Unsigned (UnpackedFloat.roundWithAccuracy spec .positive m e accuracy) := by
  unfold UnpackedFloat.roundWithAccuracy
  exact unsigned_dite (fun _ => rfl) fun _ => rfl

theorem unsigned_div (ha : Unsigned a) (hb : Unsigned b) :
    Unsigned (UnpackedFloat.div spec a b) := by
  unfold UnpackedFloat.div
  cases a <;> cases b <;> cases ha <;> cases hb
  all_goals first | trivial | exact unsigned_roundWithAccuracy _ _ _

theorem unsigned_ofNat (n : Nat) : Unsigned (UnpackedFloat.ofNat spec n) := by
  unfold UnpackedFloat.ofNat UnpackedFloat.ofInt UnpackedFloat.normalize
  split
  · next h =>
    rw [compare_lt_iff_lt] at h
    omega
  · rfl
  · exact unsigned_roundWithAccuracy _ _ _

theorem unsigned_ofScientific (m : Nat) (e : Int) :
    Unsigned (UnpackedFloat.ofScientific spec m e) := by
  unfold UnpackedFloat.ofScientific
  refine unsigned_dite (fun _ => rfl) fun _ => ?_
  refine iteInduction (motive := Unsigned) (fun _ => rfl) fun _ => ?_
  refine iteInduction (motive := Unsigned) (fun _ => rfl) fun _ => ?_
  refine iteInduction (motive := Unsigned) (fun _ => ?_) fun _ => ?_
  · exact unsigned_roundWithAccuracy _ _ _
  · exact unsigned_div rfl rfl

theorem msb_packComponents (e : BitVec Format.binary64.exponentBits)
    (m : BitVec Format.binary64.mantissaBitsWithoutImplicit) :
    (UnpackedFloat.packComponents .binary64 .positive e m).msb = false := by
  unfold UnpackedFloat.packComponents
  rw [BitVec.msb_append, BitVec.msb_append]
  rfl

theorem msb_pack (h : Unsigned a) : (UnpackedFloat.pack .binary64 a).msb = false := by
  cases a with
  | notANumber => exact msb_packComponents _ _
  | infinity sign =>
      cases h
      exact msb_packComponents _ _
  | zero sign =>
      cases h
      exact msb_packComponents _ _
  | finite sign m e hm =>
      cases h
      unfold UnpackedFloat.pack
      dsimp only
      split
      · exact msb_packComponents _ _
      split <;> exact msb_packComponents _ _

theorem unpackSign_eq {bits : BitVec 64} (h : bits.msb = false) :
    @UnpackedFloat.unpackSign .binary64 bits = 0#1 := by
  unfold UnpackedFloat.unpackSign
  apply BitVec.eq_of_getLsbD_eq
  intro i hi
  obtain rfl : i = 0 := by omega
  have hlast : bits.getLsbD 63 = false := by
    rw [← h, BitVec.msb_eq_getLsbD_last]
  rw [BitVec.getLsbD_cast, BitVec.getLsbD_extractLsb]
  exact (Bool.true_and _).trans hlast

theorem unsigned_unpack {bits : BitVec 64} (h : bits.msb = false) :
    Unsigned (UnpackedFloat.unpack .binary64 bits) := by
  unfold UnpackedFloat.unpack
  dsimp only
  rw [unpackSign_eq h]
  refine iteInduction (motive := Unsigned) (fun _ => ?_) fun _ => ?_
  · exact iteInduction (motive := Unsigned) (fun _ => rfl) fun _ => trivial
  refine iteInduction (motive := Unsigned) (fun _ => ?_) fun _ => rfl
  exact unsigned_dite (fun _ => rfl) fun _ => rfl

/-- The sign bit of the double is clear. -/
def HasNoSign (x : Float) : Prop :=
  x.toBits.toBitVec.msb = false

theorem hasNoSign_powers (e : Fin 23) : HasNoSign Float.exactlyRepresentablePowersOfTen[e] := by
  revert e
  unfold HasNoSign
  decide +kernel

/-- A number that is read from a mantissa and a decimal exponent has no sign. -/
theorem hasNoSign_ofScientific (m k : Nat) : HasNoSign (Float.ofScientific m true k) := by
  unfold Float.ofScientific
  split
  · next h =>
    have hm : Unsigned m.toUInt64.toFloat.toModel.unpack :=
      unsigned_unpack (msb_pack (unsigned_ofNat _))
    have hpower := unsigned_unpack (hasNoSign_powers ⟨k, by omega⟩)
    exact msb_pack (unsigned_div hm hpower)
  · exact msb_pack (unsigned_ofScientific _ _)

end Lox.Decimal
