import Mathlib.Algebra.GroupWithZero.Nat
import Mathlib.Algebra.Ring.Int.Defs
import TreeDelta.Binary64

namespace TreeDelta.Binary64

open Float.Model (UnpackedFloat)
open Float.Model.UnpackedFloat (Sign unpackExponent unpackMantissa unpackSign)

variable {x y : Binary64}

def negative (x : Binary64) : Bool := decide (2 ^ 63 ≤ x.bits.toNat)

def magnitude (x : Binary64) : Nat := x.bits.toNat % 2 ^ 63

/-- Negative values are below positive ones, also if they are zeros or NaNs. The magnitude rises
among positive values and falls among negative ones. -/
def Below (x y : Binary64) : Prop :=
  match x.negative, y.negative with
  | true, false => True
  | false, true => False
  | false, false => x.magnitude < y.magnitude
  | true, true => y.magnitude < x.magnitude

theorem place_eq (x : Binary64) :
    x.place = if x.negative then -1 - (x.magnitude : Int) else x.magnitude := by
  have hlt := x.bits.toNat_lt
  simp only [place, negative, magnitude, decide_eq_true_eq]
  split <;> split <;> omega

theorem place_inj : x.place = y.place ↔ x = y := by
  constructor
  · intro h
    have hx := x.bits.toNat_lt
    have hy := y.bits.toNat_lt
    have hbits : x.bits.toNat = y.bits.toNat := by
      simp only [place] at h
      split at h <;> split at h <;> omega
    cases x
    cases y
    exact congrArg mk (UInt64.toNat_inj.1 hbits)
  · exact congrArg place

theorem place_lt_iff : x.place < y.place ↔ x.Below y := by
  rw [place_eq, place_eq, Below]
  cases x.negative <;> cases y.negative <;> simp <;> omega

theorem order_eq_lt_iff : x.order y = .lt ↔ x.Below y := by
  rw [order, Int.compare_eq_lt, place_lt_iff]

theorem order_eq_eq_iff : x.order y = .eq ↔ x = y := by
  rw [order, Int.compare_eq_eq, place_inj]

def sign (x : Binary64) : Sign := if x.negative then .negative else .positive

theorem toNat_exponent (x : Binary64) :
    (@unpackExponent .binary64 x.bits.toBitVec).toNat = x.magnitude / 2 ^ 52 := by
  have hfield : (@unpackExponent .binary64 x.bits.toBitVec).toNat =
      x.bits.toNat / 2 ^ 52 % 2 ^ 11 := by
    simp [unpackExponent, Nat.shiftRight_eq_div_pow]
  rw [hfield, magnitude]
  omega

theorem toNat_mantissa (x : Binary64) :
    (@unpackMantissa .binary64 x.bits.toBitVec).toNat = x.magnitude % 2 ^ 52 := by
  simp [unpackMantissa, magnitude]

theorem exponent_eq_iff (x : Binary64) (n : BitVec 11) :
    @unpackExponent .binary64 x.bits.toBitVec = n ↔ x.magnitude / 2 ^ 52 = n.toNat := by
  rw [← toNat_exponent]
  exact BitVec.toNat_inj.symm

theorem mantissa_eq_zero_iff (x : Binary64) :
    @unpackMantissa .binary64 x.bits.toBitVec = 0#52 ↔ x.magnitude % 2 ^ 52 = 0 := by
  rw [← toNat_mantissa]
  exact BitVec.toNat_inj.symm

theorem ofBitVec_unpackSign (x : Binary64) :
    Sign.ofBitVec (@unpackSign .binary64 x.bits.toBitVec) = x.sign := by
  have hlt := x.bits.toNat_lt
  have hfield : (@unpackSign .binary64 x.bits.toBitVec).toNat = x.bits.toNat / 2 ^ 63 % 2 := by
    rw [← Nat.shiftRight_eq_div_pow]
    exact BitVec.extractLsb_toNat 63 63 x.bits.toBitVec
  have hbit : @unpackSign .binary64 x.bits.toBitVec = 0#1 ↔ ¬ x.negative := by
    rw [← BitVec.toNat_inj, hfield, negative, decide_eq_true_eq]
    change _ = 0 ↔ _
    omega
  rw [Sign.ofBitVec, sign]
  simp only [hbit, ite_not]

/-- The values that are not NaNs, by the sign and the bits behind it. The exponent and the digits of
a finite value make one number, whether its first digit is written or not. -/
inductive Unpacks (s : Sign) : Nat → UnpackedFloat → Prop where
  | infinity : Unpacks s (2047 * 2 ^ 52) (.infinity s)
  | zero : Unpacks s 0 (.zero s)
  | finite {k m : Nat} {e : Int} (hm : 0 < m) (bits : (k : Int) = (e + 1074) * 2 ^ 52 + m)
      (least : -1074 ≤ e) (most : e < 972) (digits : m < 2 ^ 53) (full : -1074 < e → 2 ^ 52 ≤ m) :
      Unpacks s k (.finite s m e hm)

theorem unpacks (x : Binary64) : UnpackedFloat.unpack .binary64 x.bits.toBitVec = .notANumber ∨
    Unpacks x.sign x.magnitude (UnpackedFloat.unpack .binary64 x.bits.toBitVec) := by
  have hlt : x.magnitude < 2 ^ 63 := Nat.mod_lt _ (by decide)
  have hbias : Float.Model.Format.exponentBias .binary64 = 1023 := rfl
  have hexp := x.toNat_exponent
  unfold UnpackedFloat.unpack
  dsimp only
  rw [ofBitVec_unpackSign, hbias]
  by_cases hmax : x.magnitude / 2 ^ 52 = 2047
  · rw [if_pos ((x.exponent_eq_iff (-1#11)).2 hmax)]
    by_cases hm : x.magnitude % 2 ^ 52 = 0
    · rw [if_pos (x.mantissa_eq_zero_iff.2 hm)]
      have hbits : x.magnitude = 2047 * 2 ^ 52 := by omega
      exact .inr (hbits ▸ .infinity)
    · rw [if_neg (mt x.mantissa_eq_zero_iff.1 hm)]
      exact .inl rfl
  · rw [if_neg (mt (x.exponent_eq_iff (-1#11)).1 hmax)]
    right
    by_cases hmin : x.magnitude / 2 ^ 52 = 0
    · rw [if_pos ((x.exponent_eq_iff 0#11).2 hmin)]
      by_cases hm : x.magnitude % 2 ^ 52 = 0
      · rw [dif_pos (x.mantissa_eq_zero_iff.2 hm)]
        have hbits : x.magnitude = 0 := by omega
        exact hbits ▸ .zero
      · rw [dif_neg (mt x.mantissa_eq_zero_iff.1 hm)]
        have hman := x.toNat_mantissa
        apply Unpacks.finite <;> simp only [hexp, hman] <;> omega
    · rw [if_neg (mt (x.exponent_eq_iff 0#11).1 hmin)]
      -- the first digit is not among the bits
      have hman : (1#1 ++ @unpackMantissa .binary64 x.bits.toBitVec).toNat =
          2 ^ 52 + x.magnitude % 2 ^ 52 := by
        rw [BitVec.toNat_append, toNat_mantissa,
          ← Nat.shiftLeft_add_eq_or_of_lt (Nat.mod_lt _ (by decide))]
        rfl
      apply Unpacks.finite <;> simp only [hexp, hman] <;> omega

/-- The exponent weighs more than the digits, as these fit below the next exponent. -/
theorem bits_lt {e f : Int} {m n : Nat} (hm : m < 2 ^ 53) (hn : -1074 < f → 2 ^ 52 ≤ n)
    (he : -1074 ≤ e) (h : e < f ∨ e = f ∧ m < n) :
    (e + 1074) * 2 ^ 52 + m < (f + 1074) * 2 ^ 52 + n := by
  rcases h with hlt | ⟨rfl, hlt⟩
  · have hfull := hn (by omega)
    omega
  · omega

namespace Unpacks

variable {j k : Nat} {u v : UnpackedFloat}

theorem lt_of_compare (hu : Unpacks .positive j u) (hv : Unpacks .positive k v)
    (h : u.compare v = some .lt) : j < k := by
  cases hu with
  | infinity => cases hv <;> cases h
  | zero =>
      cases hv with
      | infinity => omega
      | zero => cases h
      | finite _ hk hleast => omega
  | finite _ hj hleast hmost hdigits =>
      cases hv with
      | infinity => omega
      | zero => cases h
      | finite _ hk _ _ _ hfull =>
          change some ((compare _ _).then (compare _ _)) = _ at h
          rw [Option.some_inj, Ordering.then_eq_lt, Int.compare_eq_lt, Int.compare_eq_eq,
            Nat.compare_eq_lt] at h
          have hlt := bits_lt hdigits hfull hleast h
          omega

theorem gt_of_compare (hu : Unpacks .negative j u) (hv : Unpacks .negative k v)
    (h : u.compare v = some .lt) : k < j := by
  cases hu with
  | infinity =>
      cases hv with
      | infinity => cases h
      | zero => omega
      | finite _ hk _ hmost hdigits => omega
  | zero => cases hv <;> cases h
  | finite _ hj hleast _ _ hfull =>
      cases hv with
      | infinity => cases h
      | zero => omega
      | finite _ hk hleast _ hdigits =>
          change some ((compare _ _).then (compare _ _)).swap = _ at h
          rw [Option.some_inj, Ordering.swap_eq_lt, Ordering.then_eq_gt, Int.compare_eq_gt,
            Int.compare_eq_eq, Nat.compare_eq_gt, @eq_comm Int] at h
          have hlt := bits_lt hdigits hfull hleast h
          omega

theorem not_lt (hu : Unpacks .positive j u) (hv : Unpacks .negative k v) :
    u.compare v ≠ some .lt := by
  cases hu <;> cases hv <;> nofun

end Unpacks

theorem compare_of_lt {a b : Float} (h : a < b) :
    (UnpackedFloat.unpack .binary64 (ofFloat a).bits.toBitVec).compare
      (UnpackedFloat.unpack .binary64 (ofFloat b).bits.toBitVec) = some .lt := by
  have hmodel : a.toModel < b.toModel := of_decide_eq_true h
  exact eq_of_beq hmodel

theorem below_of_lt {a b : Float} (h : a < b) : (ofFloat a).Below (ofFloat b) := by
  have hnone (u : UnpackedFloat) : u.compare .notANumber = none := by cases u <;> rfl
  have hcompare := compare_of_lt h
  rcases (ofFloat a).unpacks with hnan | ha
  · rw [hnan] at hcompare
    cases hcompare
  rcases (ofFloat b).unpacks with hnan | hb
  · rw [hnan, hnone] at hcompare
    cases hcompare
  rw [sign] at ha hb
  rw [Below]
  cases hsa : (ofFloat a).negative with
  | false =>
      rw [hsa] at ha
      cases hsb : (ofFloat b).negative with
      | false =>
          rw [hsb] at hb
          exact ha.lt_of_compare hb hcompare
      | true =>
          rw [hsb] at hb
          exact absurd hcompare (ha.not_lt hb)
  | true =>
      rw [hsa] at ha
      cases hsb : (ofFloat b).negative with
      | false => trivial
      | true =>
          rw [hsb] at hb
          exact ha.gt_of_compare hb hcompare

end TreeDelta.Binary64
