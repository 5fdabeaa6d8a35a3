import Mathlib
import Rover.Number.Reading

/-!
Which numbers are finite. A ratio is rounded to a finite number or to none, and so a number that is
read from a text is finite but for a few words, which are read as the infinities and as what is not
a number.
-/

namespace Rover

open Float.Model (UnpackedFloat Format)

theorem isFinite_iff (number : Float) :
    number.isFinite = true ↔ (number.isNaN || number.isInf) = false := by
  show number.toModel.unpack.isFinite = true ↔
    (number.toModel.unpack.isNaN || number.toModel.unpack.isInf) = false
  cases number.toModel.unpack <;> simp [UnpackedFloat.isFinite, UnpackedFloat.isNaN,
    UnpackedFloat.isInf]

namespace Binary64

section Bits

variable {bits : UInt64}

theorem unpackExponent_ne (bounded : bits.toNat / hiddenBit % 2048 ≠ 2047) :
    @UnpackedFloat.unpackExponent Format.binary64 bits.toBitVec ≠ -1#11 := by
  intro all
  have same := congrArg BitVec.toNat all
  apply bounded
  simpa [UnpackedFloat.unpackExponent, Nat.shiftRight_eq_div_pow, hiddenBit] using same

theorem unpack_ofBits (bounded : bits.toNat / hiddenBit % 2048 ≠ 2047) :
    (Float.Model.ofBits bits).unpack = UnpackedFloat.unpack Format.binary64 bits.toBitVec := by
  have packed := @UnpackedFloat.pack_unpack Format.binary64 bits.toBitVec (by decide)
  rw [if_neg] at packed
  · exact congrArg (UnpackedFloat.unpack Format.binary64) packed
  · intro none
    rw [UnpackedFloat.isNaNBits, decide_eq_true_eq] at none
    exact unpackExponent_ne bounded none.1

theorem isFinite_ofBits (bounded : bits.toNat / hiddenBit % 2048 ≠ 2047) :
    (Float.ofBits bits).isFinite = true := by
  show (Float.Model.ofBits bits).unpack.isFinite = true
  rw [unpack_ofBits bounded, UnpackedFloat.unpack]
  dsimp only
  rw [if_neg (unpackExponent_ne bounded)]
  split
  · split <;> rfl
  · rfl

end Bits

theorem isFinite_ofMagnitude (negative : Bool) {magnitude : Nat}
    (small : magnitude < 2047 * hiddenBit) :
    (Float.ofBits
      (UInt64.ofNat ((if negative then 1 <<< 63 else 0) + magnitude))).isFinite = true := by
  apply isFinite_ofBits
  have width : hiddenBit = 2 ^ 52 := rfl
  have sign : 1 <<< 63 = 2 ^ 63 := rfl
  rw [width] at small ⊢
  rw [UInt64.toNat_ofNat', sign]
  -- The sign stands above the exponent, and is cut off with the remainder.
  cases negative
  · rw [if_neg Bool.false_ne_true]
    omega
  · rw [if_pos rfl]
    omega

theorem isFinite_ofRatio? {negative : Bool} {num den : Nat} {number : Float}
    (found : ofRatio? negative num den = some number) : number.isFinite = true := by
  unfold ofRatio? at found
  dsimp only at found
  split at found
  · cases found
    exact @isFinite_ofMagnitude negative 0 (by decide)
  · split at found
    · next small =>
        cases found
        exact isFinite_ofMagnitude negative small
    · cases found

theorem isFinite_infinity (negative : Bool) : (infinity negative).isFinite = false := by
  cases negative <;> decide

theorem isFinite_nan : nan.isFinite = false := by
  decide

end Binary64

namespace Reading

def namesInfinity (letters : List Char) : Prop :=
  word letters = "inf" ∨ word letters = "infinity"

/-- The words for numbers that are not finite. An infinity may have a sign. -/
inductive Nonfinite : List Char → Prop where
  | infinity {letters : List Char} (named : namesInfinity letters) : Nonfinite letters
  | signed {letters : List Char} {sign : Char} (isSign : sign = '+' ∨ sign = '-')
      (named : namesInfinity letters) : Nonfinite (sign :: letters)
  | nan {letters : List Char} (named : word letters = "nan") : Nonfinite letters

section Read

variable {negative : Bool} {chars letters : List Char} {source : Text} {number : Float}

theorem sign_of_namesInfinity (named : namesInfinity letters) :
    sign letters = (false, letters) := by
  unfold sign
  split
  · simp [namesInfinity, word, String.ext_iff] at named
  · simp [namesInfinity, word, String.ext_iff] at named
  · rfl

theorem special?_of_nonfinite (names : Nonfinite chars) :
    ∃ number, special? chars = some number ∧ number.isFinite = false := by
  have infinite (named : namesInfinity (sign chars).2) :
      ∃ number, special? chars = some number ∧ number.isFinite = false :=
    ⟨_, if_pos named, Binary64.isFinite_infinity _⟩
  cases names with
  | infinity named => exact infinite (by rwa [sign_of_namesInfinity named])
  | signed isSign named => rcases isSign with rfl | rfl <;> exact infinite named
  | nan named =>
      by_cases named' : namesInfinity (sign chars).2
      · exact infinite named'
      · exact ⟨_, (if_neg named').trans (if_pos named), Binary64.isFinite_nan⟩

theorem nonfinite_of_special? (found : special? chars = some number) : Nonfinite chars := by
  unfold special? at found
  dsimp only at found
  split at found
  · next named =>
      unfold sign at named
      split at named
      · exact .signed (.inr rfl) named
      · exact .signed (.inl rfl) named
      · exact .infinity named
  · split at found
    · next named => exact .nan named
    · cases found

theorem isFinite_scaled {base value : Nat} {exponent : Int}
    (read : scaled negative base value exponent = .ok number) : number.isFinite = true := by
  unfold scaled at read
  dsimp only at read
  split at read
  · next nearest =>
      cases read
      split at nearest <;> exact Binary64.isFinite_ofRatio? nearest
  · cases read

theorem isFinite_decimalFloat (read : decimalFloat negative chars = .ok number) :
    number.isFinite = true := by
  unfold decimalFloat at read
  dsimp only at read
  split at read
  · split at read
    · exact isFinite_scaled read
    · split at read
      · split at read
        · exact isFinite_scaled read
        · cases read
      · cases read
  · cases read

theorem isFinite_hexFloat (read : hexFloat negative chars = .ok number) :
    number.isFinite = true := by
  unfold hexFloat at read
  dsimp only at read
  split at read
  · split at read
    · cases read
    · split at read
      · split at read
        · exact isFinite_scaled read
        · cases read
      · cases read
  · cases read

theorem float_of_nonfinite (names : Nonfinite source.chars) :
    ∃ number, float source = .ok number ∧ number.isFinite = false := by
  obtain ⟨number, found, infinite⟩ := special?_of_nonfinite names
  refine ⟨number, ?_, infinite⟩
  unfold float
  dsimp only
  rw [found]

/-- Only words for them are read as numbers that are not finite. A number that is too large is
refused. -/
theorem isFinite_float_iff (read : float source = .ok number) :
    number.isFinite = true ↔ ¬Nonfinite source.chars := by
  constructor
  · intro finite names
    obtain ⟨other, read', infinite⟩ := float_of_nonfinite names
    cases read.symm.trans read'
    rw [finite] at infinite
    cases infinite
  · intro others
    unfold float at read
    dsimp only at read
    split at read
    · next found => exact absurd (nonfinite_of_special? found) others
    · split at read
      · cases read
      · split at read
        · split at read
          · exact isFinite_hexFloat read
          · exact isFinite_decimalFloat read
        · exact isFinite_decimalFloat read

end Read

end Reading
end Rover
