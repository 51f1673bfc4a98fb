/-
# What a float keeps of a value

The result of an operation is worked out on parts and then stored in 64 bits. Storing
keeps the kinds apart: what is no number stays that, infinities and zeros keep their
sign, and a finite value keeps its sign, whatever its parts (`Binary64.stored_finite_cases`).
It keeps the parts themselves if they are canonical, that is, if the significand has 53
bits, or fewer at the least exponent -1074, and the exponent is at most 971
(`Binary64.stored_of_canonical`); a canonical value with a greater exponent becomes an
infinity (`Binary64.stored_of_overflow`). What is read from a float is canonical
(`Binary64.canonical_of_parts`).

Key definitions: `Binary64.stored`, `Binary64.HasSign`, `Binary64.Canonical`.
Key theorems: `Binary64.stored_finite_cases`, `Binary64.stored_of_canonical`,
`Binary64.stored_of_overflow`, `Binary64.canonical_of_parts`.
-/
import HornReasoner.Proofs.Binary64.Order

namespace HornReasoner
namespace Binary64

open Float.Model (UnpackedFloat Format)
open Float.Model.UnpackedFloat

variable {s : Sign} {m : ℕ} {e : ℤ} {u : UnpackedFloat}

/-- The parts that are read back once a value was stored. -/
def stored (u : UnpackedFloat) : UnpackedFloat :=
  (Float.Model.pack u).unpack

/-! ### Reading fields -/

theorem toNat_implicit (m : BitVec 52) : (1#1 ++ m).toNat = 2 ^ 52 + m.toNat := by
  rw [BitVec.toNat_append, ← Nat.shiftLeft_add_eq_or_of_lt m.isLt]
  rfl

/-- What a sign, 11 bits of exponent and 52 bits of fraction encode. -/
def ofFields (s : Sign) (e : BitVec 11) (f : BitVec 52) : UnpackedFloat :=
  if e = -1#11 then if f = 0#52 then .infinity s else .notANumber
  else if e = 0#11 then
    if h : f = 0#52 then .zero s
    else .finite s f.toNat (-1074) (by simpa [BitVec.toNat_pos, BitVec.pos_iff_ne_zero])
  else .finite s (2 ^ 52 + f.toNat) (e.toNat - 1075) (by positivity)

theorem unpack_eq_ofFields (b : BitVec Format.binary64.numBits) : unpack Format.binary64 b =
    ofFields (Sign.ofBitVec (unpackSign b)) (unpackExponent b) (unpackMantissa b) := by
  unfold unpack ofFields
  simp only [toNat_implicit]
  split
  · rfl
  · split
    · next h =>
      rw [h]
      split <;> rfl
    · rfl

theorem unpack_packComponents (s : Sign) (e : BitVec 11) (f : BitVec 52) :
    unpack Format.binary64 (packComponents Format.binary64 s e f) = ofFields s e f := by
  rw [unpack_eq_ofFields, unpackSign_packComponents, Sign.ofBitVec_toBitVec, unpackExponent_packComponents,
    unpackMantissa_packComponents]

/-! ### Storing -/

@[simp] theorem stored_notANumber : stored .notANumber = .notANumber :=
  rfl

@[simp] theorem stored_infinity (s : Sign) : stored (.infinity s) = .infinity s := by
  cases s <;> rfl

@[simp] theorem stored_zero (s : Sign) : stored (.zero s) = .zero s := by
  cases s <;> rfl

/-- A finite value overflows, or is stored by 11 bits of exponent, which are zero unless the
significand has 53 bits, and the lower 52 bits of the significand. -/
theorem stored_finite (hm : 0 < m) : stored (.finite s m e hm) =
    if 972 ≤ e then .infinity s
    else ofFields s (if m.log2 = 52 then BitVec.ofNat 11 (e + 1075).toNat else 0#11)
      (BitVec.ofNat 52 m) := by
  have hpack : pack Format.binary64 (.finite s m e hm) =
      if 2 ^ 11 ≤ (e + 1023 + 52).toNat + 1 then packedInfinity Format.binary64 s
      else if m.log2 + 1 = 53 then packComponents Format.binary64 s
        (BitVec.ofNat 11 (e + 1023 + 52).toNat) (BitVec.ofNat 52 m)
      else packComponents Format.binary64 s 0#11 (BitVec.ofNat 52 m) := rfl
  show unpack Format.binary64 (pack Format.binary64 _) = _
  rw [hpack, show e + 1023 + 52 = e + 1075 by omega]
  by_cases he : 972 ≤ e
  · rw [if_pos he, if_pos (by omega)]
    exact stored_infinity s
  · rw [if_neg he, if_neg (by omega)]
    by_cases hlog : m.log2 = 52
    · rw [if_pos hlog, if_pos (by omega), unpack_packComponents]
    · rw [if_neg hlog, if_neg (by omega), unpack_packComponents]

/-- What becomes of a finite value is an infinity, a zero or a finite value of its sign. -/
theorem stored_finite_cases (hm : 0 < m) : stored (.finite s m e hm) = .infinity s ∨
    stored (.finite s m e hm) = .zero s ∨ ∃ m' e' hm', stored (.finite s m e hm) = .finite s m' e' hm' := by
  rw [stored_finite]
  by_cases he : 972 ≤ e
  · exact Or.inl (if_pos he)
  · rw [if_neg he, ofFields]
    have hexp : (if m.log2 = 52 then BitVec.ofNat 11 (e + 1075).toNat else 0#11) ≠ -1#11 := by
      intro h
      have hnat := congrArg BitVec.toNat h
      split at hnat
      · simp at hnat
        omega
      · cases hnat
    generalize (if m.log2 = 52 then BitVec.ofNat 11 (e + 1075).toNat else 0#11) = b at hexp
    rw [if_neg hexp]
    by_cases hb : b = 0#11
    · by_cases hm : BitVec.ofNat 52 m = 0#52
      · exact Or.inr (Or.inl (by rw [if_pos hb, dif_pos hm]))
      · exact Or.inr (Or.inr ⟨_, _, _, by rw [if_pos hb, dif_neg hm]⟩)
    · exact Or.inr (Or.inr ⟨_, _, _, if_neg hb⟩)

/-- The value is a number with the sign given. -/
def HasSign (s : Sign) : UnpackedFloat → Prop
  | .infinity t => t = s
  | .zero t => t = s
  | .finite t _ _ _ => t = s
  | .notANumber => False

theorem HasSign.isNaN (h : HasSign s u) : u.isNaN = false := by
  cases u <;> first | rfl | exact h.elim

/-- **Storing keeps a sign.** -/
theorem HasSign.stored (h : HasSign s u) : HasSign s (stored u) := by
  cases u with
  | infinity t => rwa [stored_infinity]
  | notANumber => exact h.elim
  | zero t => rwa [stored_zero]
  | finite t m e hm =>
    obtain h' | h' | ⟨m', e', hm', h'⟩ := stored_finite_cases (s := t) (e := e) hm <;> rw [h'] <;> exact h

theorem isNaN_stored (u : UnpackedFloat) : (stored u).isNaN = u.isNaN := by
  cases u with
  | infinity s => rw [stored_infinity]
  | notANumber => rw [stored_notANumber]
  | zero s => rw [stored_zero]
  | finite s m e hm =>
    obtain h | h | ⟨m', e', hm', h⟩ := stored_finite_cases (s := s) (e := e) hm <;> rw [h] <;> rfl

/-! ### Canonical values -/

/-- A significand of 53 bits with an exponent that is not below -1074, or a smaller one with the
exponent -1074. -/
structure Canonical (m : ℕ) (e : ℤ) : Prop where
  lt : m < 2 ^ 53
  le : -1074 ≤ e
  normal : 2 ^ 52 ≤ m ∨ e = -1074

theorem stored_of_overflow (hm : 0 < m) (he : 972 ≤ e) : stored (.finite s m e hm) = .infinity s := by
  rw [stored_finite, if_pos he]

/-- **Canonical values are kept as they are.** -/
theorem stored_of_canonical (hm : 0 < m) (h : Canonical m e) (he : e ≤ 971) :
    stored (.finite s m e hm) = .finite s m e hm := by
  obtain ⟨hlt, hle, hnormal⟩ := h
  have hfraction : (BitVec.ofNat 52 m).toNat = m % 2 ^ 52 := BitVec.toNat_ofNat ..
  rw [stored_finite, if_neg (by omega), ofFields]
  by_cases hbits : 2 ^ 52 ≤ m
  · -- The highest bit of the significand is implicit.
    have hexp : (BitVec.ofNat 11 (e + 1075).toNat).toNat = (e + 1075).toNat := by
      rw [BitVec.toNat_ofNat]
      omega
    rw [if_pos ((Nat.log2_eq_iff hm.ne').mpr ⟨hbits, hlt⟩), if_neg, if_neg]
    · simp only [finite.injEq, true_and]
      omega
    · intro h
      have := congrArg BitVec.toNat h
      simp at this
      omega
    · intro h
      have := congrArg BitVec.toNat h
      simp at this
      omega
  · obtain rfl : e = -1074 := hnormal.resolve_left hbits
    have hlog : m.log2 ≠ 52 := fun h => hbits ((Nat.log2_eq_iff hm.ne').mp h).1
    have hne : BitVec.ofNat 52 m ≠ 0#52 := by
      intro h
      rw [h] at hfraction
      simp at hfraction
      omega
    rw [if_neg hlog, if_neg (by decide), if_pos rfl, dif_neg hne]
    simp only [finite.injEq, true_and, and_true]
    omega

theorem canonical_ofFields {b : BitVec 11} {f : BitVec 52} {t : Sign} {hm : 0 < m}
    (h : ofFields t b f = .finite s m e hm) : Canonical m e ∧ e ≤ 971 := by
  unfold ofFields at h
  by_cases hinf : b = -1#11
  · rw [if_pos hinf] at h
    split at h <;> cases h
  · rw [if_neg hinf] at h
    by_cases hzero : b = 0#11
    · rw [if_pos hzero] at h
      split at h
      · cases h
      · obtain ⟨-, rfl, rfl⟩ := finite.inj h
        exact ⟨⟨by omega, by omega, Or.inr rfl⟩, by omega⟩
    · rw [if_neg hzero] at h
      obtain ⟨-, rfl, rfl⟩ := finite.inj h
      have hpos : b.toNat ≠ 0 := fun hb => hzero (BitVec.eq_of_toNat_eq hb)
      have hlt : b.toNat ≠ 2047 := fun hb => hinf (BitVec.eq_of_toNat_eq hb)
      exact ⟨⟨by omega, by omega, Or.inl (by omega)⟩, by omega⟩

/-- **What is read from a float is canonical**, and its exponent is at most 971. -/
theorem canonical_of_parts {x : Float} {hm : 0 < m} (h : parts x = .finite s m e hm) :
    Canonical m e ∧ e ≤ 971 := by
  unfold parts Float.Model.unpack at h
  rw [unpack_eq_ofFields] at h
  exact canonical_ofFields h

end Binary64
end HornReasoner
