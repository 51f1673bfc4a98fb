/-
# Numerals in documents

A numeral is an optional minus sign, digits before the point, a point with digits
after it, and an exponent with its sign; the last two may be missing (`JsonNumeral`).
It is read up to its end whatever follows, unless that goes on like a numeral
(`Document.readNumber_text`). The digits before the point do not start with a zero
unless there is no other.

Integers are written as such numerals, and so are finite floats, with a point or an
exponent (`Decimal.Scaled.exists_numeral`). So an integer is read back as this integer, and a
float as some float. Whether it is the same one is up to its digits: the reader rounds
more than once, so this does not go without saying (`Decimal.ReadsBack`).

Key definitions: `JsonNumeral`, `EndsNumeral`, `Decimal.ReadsBack`, `Number.ReadsBack`.
Key theorems: `Document.readNumber_text`, `Decimal.Scaled.exists_numeral`,
`Number.readsBack_int`, `Number.readsBack_float`.
-/
import HornReasoner.Interchange.Record
import HornReasoner.Json.Reader
import HornReasoner.Json.Writer
import Mathlib.Data.List.TakeDrop

namespace HornReasoner

/-! ### Rows of digits -/

/-- Every character is a digit. -/
def IsDigits (cs : List Char) : Prop :=
  ∀ c ∈ cs, c.isDigit = true

/-- Digits that may stand before a point: a zero alone, or digits that do not start with a zero. -/
def IsWhole (cs : List Char) : Prop :=
  cs = ['0'] ∨ IsDigits cs ∧ ∃ d ds, cs = d :: ds ∧ d ≠ '0'

variable {cs ds rest : List Char} {n : Nat}

theorem IsDigits.append (h : IsDigits cs) (h' : IsDigits ds) : IsDigits (cs ++ ds) := by
  intro c hc
  rcases List.mem_append.mp hc with hc | hc
  · exact h c hc
  · exact h' c hc

theorem IsDigits.of_sublist (h : IsDigits ds) (hcs : cs.Sublist ds) : IsDigits cs :=
  fun c hc => h c (hcs.subset hc)

theorem isDigits_zeros (n : Nat) : IsDigits (List.replicate n '0') := by
  intro c hc
  rw [List.eq_of_mem_replicate hc]
  rfl

theorem isDigits_toDigits (n : Nat) : IsDigits (Nat.toDigits 10 n) := fun _ hc =>
  Nat.isDigit_of_mem_toDigits (by decide) (by decide) hc

theorem IsWhole.isDigits (h : IsWhole cs) : IsDigits cs := by
  rcases h with rfl | ⟨h, -⟩
  · exact isDigits_zeros 1
  · exact h

theorem isWhole_digit {d : Char} (hd : d.isDigit = true) : IsWhole [d] := by
  by_cases h : d = '0'
  · exact Or.inl (h ▸ rfl)
  · exact Or.inr ⟨fun c hc => List.mem_singleton.mp hc ▸ hd, d, [], rfl, h⟩

/-- Digits that start with no zero go on to do so. -/
theorem IsWhole.append (h : IsWhole cs) (hcs : cs ≠ ['0']) (hds : IsDigits ds) : IsWhole (cs ++ ds) := by
  obtain ⟨hdigits, d, more, rfl, hd⟩ := h.resolve_left hcs
  exact Or.inr ⟨hdigits.append hds, d, more ++ ds, rfl, hd⟩

theorem digitsValue_toDigits (n : Nat) : Decimal.digitsValue (Nat.toDigits 10 n) = n :=
  Nat.ofDigitChars_toDigits (by decide) (by decide)

theorem toDigits_ne_zero (hn : n ≠ 0) : Nat.toDigits 10 n ≠ ['0'] := fun h =>
  hn (by rw [← digitsValue_toDigits n, h]; rfl)

theorem IsWhole.take (h : IsWhole cs) (hn : 0 < n) : IsWhole (cs.take n) := by
  obtain ⟨n, rfl⟩ := Nat.exists_eq_add_of_lt hn
  rcases h with rfl | ⟨hdigits, d, ds, rfl, hd⟩
  · exact Or.inl (by simp)
  · exact Or.inr ⟨hdigits.of_sublist (List.take_sublist _ _), d, ds.take (0 + n), rfl, hd⟩

/-- A number starts with no zero. -/
theorem isWhole_toDigits (n : Nat) : IsWhole (Nat.toDigits 10 n) := by
  induction n using Nat.strongRecOn with
  | ind n ih =>
    rcases Nat.lt_or_ge n 10 with hn | hn
    · have hdigit := isDigits_toDigits n
      rw [Nat.toDigits_of_lt_base hn] at hdigit ⊢
      exact isWhole_digit (hdigit _ List.mem_cons_self)
    · have hdigits := isDigits_toDigits n
      rw [Nat.toDigits_of_base_le (by decide) hn] at hdigits ⊢
      refine (ih (n / 10) (by omega)).append (toDigits_ne_zero (by omega)) ?_
      exact hdigits.of_sublist (List.sublist_append_right _ _)

/-! ### Reading numerals -/

/-- What may follow a numeral without being read as a part of it. -/
def EndsNumeral (rest : List Char) : Prop :=
  ∀ c ∈ rest.head?, c.isDigit = false ∧ c ≠ '.' ∧ c ≠ 'e' ∧ c ≠ 'E'

theorem endsNumeral_nil : EndsNumeral [] := fun _ hc => by cases hc

theorem endsNumeral_cons {c : Char} (hc : c.isDigit = false ∧ c ≠ '.' ∧ c ≠ 'e' ∧ c ≠ 'E') :
    EndsNumeral (c :: rest) := fun _ hd => Option.some.inj hd ▸ hc

/-- A numeral by its parts. The exponent is its sign and its digits. -/
structure JsonNumeral where
  negative : Bool
  whole : List Char
  fraction : List Char
  exponent : Option (Bool × List Char)
  isWhole : IsWhole whole
  fractionDigits : IsDigits fraction
  exponentDigits : ∀ e ∈ exponent, IsDigits e.2 ∧ e.2 ≠ []

namespace JsonNumeral

/-- The point and the digits after it, if there are any. -/
def fractionText (n : JsonNumeral) : List Char :=
  if n.fraction = [] then [] else '.' :: n.fraction

/-- The exponent with its mark and sign. -/
def exponentText (n : JsonNumeral) : List Char :=
  match n.exponent with
  | none => []
  | some (negative, ds) => 'e' :: (if negative then '-' else '+') :: ds

/-- The text of the numeral. -/
def text (n : JsonNumeral) : List Char :=
  (if n.negative then ['-'] else []) ++ n.whole ++ n.fractionText ++ n.exponentText

/-- The value of the exponent. -/
def exponentValue (n : JsonNumeral) : Option Int :=
  n.exponent.map fun e =>
    let size : Int := Decimal.digitsValue e.2
    if e.1 then -size else size

/-- The numeral is one of a float. -/
def IsFloat (n : JsonNumeral) : Prop :=
  n.fraction ≠ [] ∨ n.exponent ≠ none

/-- The number that is read: without point and exponent an integer, if it fits. -/
def value (n : JsonNumeral) : Option Number :=
  if n.fraction.isEmpty && n.exponentValue.isNone then Document.wholeNumber n.negative n.whole
  else (Decimal.scaleDigits? n.negative n.whole n.fraction (n.exponentValue.getD 0)).map .float

theorem value_of_isFloat {n : JsonNumeral} (h : n.IsFloat) : ∃ x : Option Float, n.value = x.map .float := by
  refine ⟨_, if_neg fun hboth => ?_⟩
  obtain ⟨hfraction, hexponent⟩ := Bool.and_eq_true_iff.mp hboth
  rcases h with h | h
  · exact h (List.isEmpty_iff.mp hfraction)
  · exact h (Option.map_eq_none_iff.mp (Option.isNone_iff_eq_none.mp hexponent))

end JsonNumeral

namespace Document

theorem span_digits (hds : IsDigits ds) (hrest : ∀ c ∈ rest.head?, c.isDigit = false) :
    (ds ++ rest).span Char.isDigit = (ds, rest) := by
  rw [List.span_eq_takeWhile_dropWhile, List.takeWhile_append_of_pos hds, List.dropWhile_append_of_pos hds]
  cases rest with
  | nil => simp
  | cons c cs => simp [hrest c rfl]

theorem readWhole_append (hds : IsWhole ds) (hrest : ∀ c ∈ rest.head?, c.isDigit = false) :
    readWhole (ds ++ rest) = some (ds, rest) := by
  rcases hds with rfl | ⟨hdigits, d, more, rfl, hd⟩
  · rfl
  · have hdigit : d.isDigit = true := hdigits d List.mem_cons_self
    have hspan := span_digits hdigits hrest
    rw [List.cons_append] at hspan ⊢
    unfold readWhole
    split
    · next h => cases h
    · next h => exact absurd (List.cons.inj h).1 hd
    · next h =>
      obtain ⟨rfl, rfl⟩ := List.cons.inj h
      rw [if_pos hdigit, hspan]

theorem readFraction_append (n : JsonNumeral)
    (hrest : ∀ c ∈ rest.head?, c.isDigit = false ∧ c ≠ '.') :
    readFraction (n.fractionText ++ rest) = some (n.fraction, rest) := by
  unfold JsonNumeral.fractionText
  split
  · next h =>
    rw [h, List.nil_append]
    unfold readFraction
    split
    · exact absurd rfl (hrest '.' rfl).2
    · rfl
  · next h =>
    have hspan := span_digits n.fractionDigits fun c hc => (hrest c hc).1
    have hempty : n.fraction.isEmpty = false := List.isEmpty_eq_false_iff.mpr h
    simp only [List.cons_append, readFraction, hspan, hempty, Bool.false_eq_true, if_false]

theorem readExponent_append (n : JsonNumeral)
    (hrest : ∀ c ∈ rest.head?, c.isDigit = false ∧ c ≠ 'e' ∧ c ≠ 'E') :
    readExponent (n.exponentText ++ rest) = some (n.exponentValue, rest) := by
  unfold JsonNumeral.exponentText JsonNumeral.exponentValue
  cases hexponent : n.exponent with
  | none =>
    rw [List.nil_append]
    cases rest with
    | nil => rfl
    | cons c cs =>
      obtain ⟨-, he, hE⟩ := hrest c rfl
      rw [readExponent, if_neg (not_or.mpr ⟨he, hE⟩)]
      rfl
  | some e =>
    obtain ⟨negative, ds⟩ := e
    obtain ⟨hds, hne⟩ := n.exponentDigits _ hexponent
    have hspan := span_digits hds fun c hc => (hrest c hc).1
    have hempty : ds.isEmpty = false := List.isEmpty_eq_false_iff.mpr hne
    dsimp only at hspan ⊢
    rw [List.cons_append, List.cons_append, readExponent, if_pos (Or.inl rfl)]
    cases negative <;>
      simp only [Decimal.readSign, hspan, hempty, Bool.false_eq_true, if_false, if_true, Option.map_some]

/-- A numeral after its sign. -/
def readUnsigned (negative : Bool) (cs : List Char) : Option (Option Number × List Char) := do
  let (whole, cs) ← readWhole cs
  let (fraction, cs) ← readFraction cs
  let (exponent, cs) ← readExponent cs
  if fraction.isEmpty && exponent.isNone then return (wholeNumber negative whole, cs)
  else return ((Decimal.scaleDigits? negative whole fraction (exponent.getD 0)).map .float, cs)

theorem readNumber_minus (cs : List Char) : readNumber ('-' :: cs) = readUnsigned true cs := rfl

theorem readNumber_of_head_ne (hcs : ∀ c ∈ cs.head?, c ≠ '-') : readNumber cs = readUnsigned false cs := by
  unfold readNumber
  split
  next negative rest h =>
  split at h
  · exact absurd rfl (hcs '-' rfl)
  · cases h
    rfl

/-- **A numeral is read up to its end.** -/
theorem readNumber_text (n : JsonNumeral) (hrest : EndsNumeral rest) :
    readNumber (n.text ++ rest) = some (n.value, rest) := by
  have hexponent := readExponent_append n fun c hc => ⟨(hrest c hc).1, (hrest c hc).2.2⟩
  -- what follows the fraction is the mark of the exponent or what follows the numeral
  have hfraction : readFraction (n.fractionText ++ (n.exponentText ++ rest)) =
      some (n.fraction, n.exponentText ++ rest) := by
    refine readFraction_append n fun c hc => ?_
    unfold JsonNumeral.exponentText at hc
    cases he : n.exponent with
    | none =>
      rw [he] at hc
      exact ⟨(hrest c hc).1, (hrest c hc).2.1⟩
    | some e =>
      rw [he] at hc
      cases hc
      decide
  have hwhole : readWhole (n.whole ++ (n.fractionText ++ (n.exponentText ++ rest))) =
      some (n.whole, n.fractionText ++ (n.exponentText ++ rest)) := by
    refine readWhole_append n.isWhole fun c hc => ?_
    unfold JsonNumeral.fractionText JsonNumeral.exponentText at hc
    split at hc
    · cases he : n.exponent with
      | none =>
        rw [he] at hc
        exact (hrest c hc).1
      | some e =>
        rw [he] at hc
        cases hc
        decide
    · cases hc
      decide
  have hunsigned : readUnsigned n.negative (n.whole ++ (n.fractionText ++ (n.exponentText ++ rest))) =
      some (n.value, rest) := by
    unfold readUnsigned JsonNumeral.value
    simp only [hwhole, hfraction, hexponent, Option.bind_eq_bind, Option.bind_some]
    split <;> rfl
  rw [JsonNumeral.text, List.append_assoc, List.append_assoc, List.append_assoc]
  cases hneg : n.negative with
  | true =>
    rw [hneg] at hunsigned
    exact (readNumber_minus _).trans hunsigned
  | false =>
    rw [hneg] at hunsigned
    refine (readNumber_of_head_ne fun c hc => ?_).trans hunsigned
    -- the numeral starts with a digit
    obtain ⟨d, ds, hd⟩ : ∃ d ds, n.whole = d :: ds := by
      rcases n.isWhole with h | ⟨-, d, ds, h, -⟩
      · exact ⟨_, _, h⟩
      · exact ⟨d, ds, h⟩
    have hdigit : d.isDigit = true := n.isWhole.isDigits d (hd ▸ List.mem_cons_self)
    rw [hd] at hc
    obtain rfl : d = c := Option.some.inj hc
    rintro rfl
    cases hdigit

end Document

/-! ### Integers as written -/

/-- The numeral of an integer. -/
def JsonNumeral.ofInt (i : Int) : JsonNumeral where
  negative := i < 0
  whole := Nat.toDigits 10 i.natAbs
  fraction := []
  exponent := none
  isWhole := isWhole_toDigits _
  fractionDigits _ hc := by cases hc
  exponentDigits _ he := by cases he

theorem toList_intText (i : Int) : (Decimal.intText i).toList = (JsonNumeral.ofInt i).text := by
  unfold Decimal.intText Decimal.signText Decimal.digitsText JsonNumeral.text
  rw [String.toList_append, String.toList_ofList]
  by_cases hi : i < 0 <;>
    simp [JsonNumeral.ofInt, JsonNumeral.fractionText, JsonNumeral.exponentText, hi]

/-- An integer that stays one is read back. -/
theorem JsonNumeral.value_ofInt {i : Int} (hi : Number.fits i = true) :
    (ofInt i).value = some (.int i) := by
  have hsize : (if decide (i < 0) = true then -(i.natAbs : Int) else (i.natAbs : Int)) = i := by
    by_cases h : i < 0
    · rw [if_pos (decide_eq_true h)]
      omega
    · rw [if_neg (by simpa using h)]
      omega
  have hnonzero : ¬ (decide (i < 0) = true ∧ i = 0) := by
    rw [decide_eq_true_iff]
    omega
  show Document.wholeNumber (decide (i < 0)) (Nat.toDigits 10 i.natAbs) = _
  unfold Document.wholeNumber
  rw [digitsValue_toDigits]
  dsimp only
  rw [hsize, if_pos ⟨hi, hnonzero⟩]

/-! ### Floats as written -/

namespace Decimal

/-- Digits around a point, with a zero after the point of an integer. -/
theorem Scaled.exists_plain (s : Scaled) : ∃ whole fraction, IsWhole whole ∧ IsDigits fraction ∧
    fraction ≠ [] ∧ (s.plain ++ if 0 ≤ s.exponent then ".0" else "").toList = whole ++ '.' :: fraction := by
  have hdigits := isDigits_toDigits s.digits
  have hwhole := isWhole_toDigits s.digits
  set digits := Nat.toDigits 10 s.digits with hd
  unfold plain
  by_cases hexponent : 0 ≤ s.exponent
  · simp only [if_pos hexponent]
    by_cases hzero : s.digits = 0
    · exact ⟨['0'], ['0'], Or.inl rfl, isDigits_zeros 1, by simp, by simp [hzero]⟩
    · refine ⟨_, ['0'], hwhole.append (toDigits_ne_zero hzero) (isDigits_zeros s.exponent.toNat),
        isDigits_zeros 1, by simp, ?_⟩
      simp [hzero, digitsText, zeros, hd]
  · simp only [if_neg hexponent]
    split
    · next hplaces =>
      -- the point stands within the digits
      refine ⟨digits.take (digits.length - (-s.exponent).toNat),
        digits.drop (digits.length - (-s.exponent).toNat), hwhole.take (Nat.sub_pos_of_lt hplaces),
        hdigits.of_sublist (List.drop_sublist _ _), ?_, by simp [hd]⟩
      have hlt : (-s.exponent).toNat < digits.length := hplaces
      rw [ne_eq, List.drop_eq_nil_iff]
      omega
    · refine ⟨['0'], List.replicate ((-s.exponent).toNat - digits.length) '0' ++ digits, Or.inl rfl,
        (isDigits_zeros _).append hdigits, fun h => ?_, by simp [zeros, digitsText, hd]⟩
      exact Nat.toDigits_ne_nil (List.append_eq_nil_iff.mp h).2

/-- One digit, and the others after a point. -/
theorem Scaled.exists_mantissa (s : Scaled) : ∃ whole fraction, IsWhole whole ∧ IsDigits fraction ∧
    s.mantissa.1.toList = whole ++ if fraction = [] then [] else '.' :: fraction := by
  have hdigits := isDigits_toDigits s.digits
  have hnone : IsDigits [] := fun c hc => absurd hc List.not_mem_nil
  unfold mantissa
  dsimp only
  split
  · exact ⟨['0'], [], Or.inl rfl, hnone, rfl⟩
  · next d h =>
    rw [h] at hdigits
    refine ⟨[d], [], isWhole_digit (hdigits d List.mem_cons_self), hnone, ?_⟩
    rw [String.toList_ofList]
    rfl
  · next d ds hne h =>
    rw [h] at hdigits
    refine ⟨[d], ds, isWhole_digit (hdigits d List.mem_cons_self),
      fun c hc => hdigits c (List.mem_cons_of_mem d hc), ?_⟩
    rw [if_neg hne, String.toList_ofList]
    rfl

/-- What `compact` writes after the sign. -/
def Scaled.compactText (s : Scaled) : String :=
  if -5 ≤ s.mantissa.2 ∧ s.mantissa.2 < 16 then s.plain ++ if 0 ≤ s.exponent then ".0" else ""
  else s.mantissa.1 ++ "e" ++ (if 0 < s.mantissa.2 then "+" else "") ++ intText s.mantissa.2

theorem compact_eq {x : Float} {v : Decimal.Dyadic} (hx : magnitude x = .finite v) :
    compact x = signText (isNegative x) ++ (shortest .toEven v).compactText := by
  unfold compact signed
  rw [hx]
  rfl

/-- The exponent with its sign. -/
theorem toList_exponent {e : Int} (he : e ≠ 0) : ((if 0 < e then "+" else "") ++ intText e).toList =
    (if decide (e < 0) = true then '-' else '+') :: Nat.toDigits 10 e.natAbs := by
  rw [String.toList_append, toList_intText]
  rcases Int.lt_or_gt_of_ne he with hneg | hpos
  · simp [JsonNumeral.ofInt, JsonNumeral.text, JsonNumeral.fractionText, JsonNumeral.exponentText, hneg,
      Int.lt_asymm hneg]
  · simp [JsonNumeral.ofInt, JsonNumeral.text, JsonNumeral.fractionText, JsonNumeral.exponentText, hpos,
      Int.lt_asymm hpos]

/-- **A finite float is written as a numeral** with a point or an exponent. -/
theorem Scaled.exists_numeral (s : Scaled) (negative : Bool) :
    ∃ n : JsonNumeral, n.IsFloat ∧ (signText negative ++ s.compactText).toList = n.text := by
  have hsign : (signText negative).toList = if negative then ['-'] else [] := by
    cases negative <;> rfl
  rw [String.toList_append, hsign]
  unfold compactText
  by_cases hplain : -5 ≤ s.mantissa.2 ∧ s.mantissa.2 < 16
  · obtain ⟨whole, fraction, hwhole, hfraction, hne, htext⟩ := s.exists_plain
    rw [if_pos hplain, htext]
    refine ⟨⟨negative, whole, fraction, none, hwhole, hfraction, fun e he => by cases he⟩, Or.inl hne, ?_⟩
    simp [JsonNumeral.text, JsonNumeral.fractionText, JsonNumeral.exponentText, hne]
  · obtain ⟨whole, fraction, hwhole, hfraction, htext⟩ := s.exists_mantissa
    have hnonzero : s.mantissa.2 ≠ 0 := by omega
    rw [if_neg hplain, String.append_assoc, String.toList_append, String.toList_append, htext,
      toList_exponent hnonzero]
    refine ⟨⟨negative, whole, fraction, some (decide (s.mantissa.2 < 0), Nat.toDigits 10 s.mantissa.2.natAbs),
      hwhole, hfraction, fun e he => ?_⟩, Or.inr (by simp), ?_⟩
    · obtain rfl := Option.some.inj he
      exact ⟨isDigits_toDigits _, Nat.toDigits_ne_nil⟩
    · simp [JsonNumeral.text, JsonNumeral.fractionText, JsonNumeral.exponentText]

/-- The digits of a float as written are read as this float. -/
def ReadsBack (x : Float) : Prop :=
  ((Document.readNumber (compact x).toList).bind fun r => (Document.number r.1).float?) = some x

/-- The float of this power of ten is rounded, and so is the quotient by it. -/
example : ¬ ReadsBack 1e-23 := by
  unfold ReadsBack
  decide +kernel

/-- No numeral is read where there is no number. -/
theorem ReadsBack.exists_magnitude {x : Float} (hx : ReadsBack x) : ∃ v, magnitude x = .finite v := by
  have hnan : Document.readNumber "NaN".toList = none := rfl
  have hinfinite : ∀ negative, Document.readNumber (signText negative ++ "inf").toList = none := by
    intro negative
    cases negative <;> rfl
  unfold ReadsBack compact signed at hx
  cases hmagnitude : magnitude x with
  | notANumber =>
    rw [hmagnitude] at hx
    dsimp only at hx
    rw [hnan] at hx
    cases hx
  | infinite =>
    rw [hmagnitude] at hx
    dsimp only at hx
    rw [hinfinite] at hx
    cases hx
  | finite v => exact ⟨v, rfl⟩

end Decimal

/-! ### Numbers read back -/

/-- The text of a number is read as this number, up to its end. -/
def Number.ReadsBack (n : Number) : Prop :=
  ∀ rest, EndsNumeral rest → Document.readNumber (Json.numberText n ++ rest) = some (some n, rest)

theorem Number.readsBack_int {i : Int} (hi : fits i = true) : (Number.int i).ReadsBack := by
  intro rest hrest
  show Document.readNumber ((Decimal.intText i).toList ++ rest) = _
  rw [toList_intText, Document.readNumber_text _ hrest, JsonNumeral.value_ofInt hi]

/-- A float is read as a float, and as itself if its digits are. -/
theorem Number.readsBack_float {x : Float} (hx : Decimal.ReadsBack x) : (Number.float x).ReadsBack := by
  obtain ⟨v, hv⟩ := hx.exists_magnitude
  obtain ⟨n, hfloat, htext⟩ := (Decimal.shortest .toEven v).exists_numeral (Decimal.isNegative x)
  rw [← Decimal.compact_eq hv] at htext
  obtain ⟨y, hy⟩ := n.value_of_isFloat hfloat
  have hread := Document.readNumber_text n endsNumeral_nil
  rw [List.append_nil] at hread
  unfold Decimal.ReadsBack at hx
  rw [htext, hread, hy] at hx
  have hyx : y = some x := by
    cases y with
    | none => cases hx
    | some y => exact congrArg some (Option.some.inj hx)
  intro rest hrest
  show Document.readNumber ((Decimal.compact x).toList ++ rest) = _
  rw [htext, Document.readNumber_text n hrest, hy, hyx]
  rfl

end HornReasoner
