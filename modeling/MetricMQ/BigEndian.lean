import Mathlib.Tactic.Ring

/-! Big-endian words as byte lists. The readers combine shifted bytes with `|||`, the
writers mask shifted words; both are compared as numbers in base 256. -/
namespace BigEndian

def be16 (b0 b1 : UInt8) : UInt16 := (b0.toUInt16 <<< 8) ||| b1.toUInt16

def be32 (b0 b1 b2 b3 : UInt8) : UInt32 :=
  (b0.toUInt32 <<< 24) ||| (b1.toUInt32 <<< 16) ||| (b2.toUInt32 <<< 8) ||| b3.toUInt32

def be64 (b0 b1 b2 b3 b4 b5 b6 b7 : UInt8) : UInt64 :=
  (b0.toUInt64 <<< 56) ||| (b1.toUInt64 <<< 48) ||| (b2.toUInt64 <<< 40) |||
    (b3.toUInt64 <<< 32) ||| (b4.toUInt64 <<< 24) ||| (b5.toUInt64 <<< 16) |||
    (b6.toUInt64 <<< 8) ||| b7.toUInt64

def bytes16 (v : UInt16) : List UInt8 := [((v >>> 8) &&& 0xFF).toUInt8, (v &&& 0xFF).toUInt8]

def bytes32 (v : UInt32) : List UInt8 :=
  [((v >>> 24) &&& 0xFF).toUInt8, ((v >>> 16) &&& 0xFF).toUInt8,
    ((v >>> 8) &&& 0xFF).toUInt8, (v &&& 0xFF).toUInt8]

def bytes64 (v : UInt64) : List UInt8 :=
  [((v >>> 56) &&& 0xFF).toUInt8, ((v >>> 48) &&& 0xFF).toUInt8,
    ((v >>> 40) &&& 0xFF).toUInt8, ((v >>> 32) &&& 0xFF).toUInt8,
    ((v >>> 24) &&& 0xFF).toUInt8, ((v >>> 16) &&& 0xFF).toUInt8,
    ((v >>> 8) &&& 0xFF).toUInt8, (v &&& 0xFF).toUInt8]

/-- Appending the next lower byte: the two operands of `|||` share no bit. -/
theorem or_next_byte (a b k : ℕ) (hb : b < 256) :
    (a * 2 ^ (k + 8)) ||| (b * 2 ^ k) = (a * 256 + b) * 2 ^ k := by
  have hlt : b * 2 ^ k < 2 ^ (k + 8) := by
    rw [Nat.pow_add, Nat.mul_comm]
    exact Nat.mul_lt_mul_of_pos_left hb (Nat.two_pow_pos k)
  calc
    a * 2 ^ (k + 8) ||| b * 2 ^ k = 2 ^ (k + 8) * a + b * 2 ^ k := by
      rw [Nat.mul_comm a, Nat.two_pow_add_eq_or_of_lt hlt]
    _ = (a * 256 + b) * 2 ^ k := by
      rw [Nat.pow_add, Nat.add_mul, Nat.mul_comm (2 ^ k * 2 ^ 8), Nat.mul_comm (2 ^ k), Nat.mul_assoc]

theorem toNat_be16 (b0 b1 : UInt8) : (be16 b0 b1).toNat = b0.toNat * 256 + b1.toNat := by
  have h0 := b0.toNat_lt
  have h1 := b1.toNat_lt
  simp only [be16, UInt16.toNat_or, UInt16.toNat_shiftLeft, UInt8.toNat_toUInt16,
    UInt16.reduceToNat, Nat.shiftLeft_eq, Nat.reduceMod]
  rw [Nat.mod_eq_of_lt (by omega)]
  simpa using or_next_byte b0.toNat b1.toNat 0 h1

theorem toNat_be32 (b0 b1 b2 b3 : UInt8) :
    (be32 b0 b1 b2 b3).toNat = ((b0.toNat * 256 + b1.toNat) * 256 + b2.toNat) * 256 + b3.toNat := by
  have h0 := b0.toNat_lt
  have h1 := b1.toNat_lt
  have h2 := b2.toNat_lt
  have h3 := b3.toNat_lt
  simp only [be32, UInt32.toNat_or, UInt32.toNat_shiftLeft, UInt8.toNat_toUInt32,
    UInt32.reduceToNat, Nat.shiftLeft_eq, Nat.reduceMod]
  rw [Nat.mod_eq_of_lt (by omega), Nat.mod_eq_of_lt (by omega), Nat.mod_eq_of_lt (by omega),
    or_next_byte b0.toNat b1.toNat 16 h1, or_next_byte _ b2.toNat 8 h2]
  simpa using or_next_byte ((b0.toNat * 256 + b1.toNat) * 256 + b2.toNat) b3.toNat 0 h3

theorem toNat_be64 (b0 b1 b2 b3 b4 b5 b6 b7 : UInt8) :
    (be64 b0 b1 b2 b3 b4 b5 b6 b7).toNat =
      ((((((b0.toNat * 256 + b1.toNat) * 256 + b2.toNat) * 256 + b3.toNat) * 256 + b4.toNat) * 256 +
        b5.toNat) * 256 + b6.toNat) * 256 + b7.toNat := by
  have h0 := b0.toNat_lt
  have h1 := b1.toNat_lt
  have h2 := b2.toNat_lt
  have h3 := b3.toNat_lt
  have h4 := b4.toNat_lt
  have h5 := b5.toNat_lt
  have h6 := b6.toNat_lt
  have h7 := b7.toNat_lt
  simp only [be64, UInt64.toNat_or, UInt64.toNat_shiftLeft, UInt8.toNat_toUInt64,
    UInt64.reduceToNat, Nat.shiftLeft_eq, Nat.reduceMod]
  rw [Nat.mod_eq_of_lt (by omega), Nat.mod_eq_of_lt (by omega), Nat.mod_eq_of_lt (by omega),
    Nat.mod_eq_of_lt (by omega), Nat.mod_eq_of_lt (by omega), Nat.mod_eq_of_lt (by omega),
    Nat.mod_eq_of_lt (by omega), or_next_byte b0.toNat b1.toNat 48 h1, or_next_byte _ b2.toNat 40 h2,
    or_next_byte _ b3.toNat 32 h3, or_next_byte _ b4.toNat 24 h4, or_next_byte _ b5.toNat 16 h5,
    or_next_byte _ b6.toNat 8 h6]
  simpa using or_next_byte _ b7.toNat 0 h7

theorem toNat_byte16 (v : UInt16) (k : ℕ) (hk : k < 16) :
    ((v >>> UInt16.ofNat k) &&& 0xFF).toUInt8.toNat = v.toNat / 2 ^ k % 256 := by
  simp only [UInt16.toNat_toUInt8, UInt16.toNat_and, UInt16.toNat_shiftRight, UInt16.toNat_ofNat',
    Nat.shiftRight_eq_div_pow]
  rw [Nat.mod_eq_of_lt (show k < 2 ^ 16 by omega), Nat.mod_eq_of_lt hk]
  rw [show (UInt16.toNat 0xFF) = 2 ^ 8 - 1 from rfl, Nat.and_two_pow_sub_one_eq_mod]
  omega

theorem toNat_byte32 (v : UInt32) (k : ℕ) (hk : k < 32) :
    ((v >>> UInt32.ofNat k) &&& 0xFF).toUInt8.toNat = v.toNat / 2 ^ k % 256 := by
  simp only [UInt32.toNat_toUInt8, UInt32.toNat_and, UInt32.toNat_shiftRight, UInt32.toNat_ofNat',
    Nat.shiftRight_eq_div_pow]
  rw [Nat.mod_eq_of_lt (show k < 2 ^ 32 by omega), Nat.mod_eq_of_lt hk]
  rw [show (UInt32.toNat 0xFF) = 2 ^ 8 - 1 from rfl, Nat.and_two_pow_sub_one_eq_mod]
  omega

theorem toNat_byte64 (v : UInt64) (k : ℕ) (hk : k < 64) :
    ((v >>> UInt64.ofNat k) &&& 0xFF).toUInt8.toNat = v.toNat / 2 ^ k % 256 := by
  simp only [UInt64.toNat_toUInt8, UInt64.toNat_and, UInt64.toNat_shiftRight, UInt64.toNat_ofNat',
    Nat.shiftRight_eq_div_pow]
  rw [Nat.mod_eq_of_lt (show k < 2 ^ 64 by omega), Nat.mod_eq_of_lt hk]
  rw [show (UInt64.toNat 0xFF) = 2 ^ 8 - 1 from rfl, Nat.and_two_pow_sub_one_eq_mod]
  omega

/-- Putting back the next lower byte of a number. -/
theorem div_next_byte (n k : ℕ) : n / 2 ^ (k + 8) * 256 + n / 2 ^ k % 256 = n / 2 ^ k := by
  rw [Nat.pow_add, ← Nat.div_div_eq_div_mul]
  exact Nat.div_add_mod' (n / 2 ^ k) 256

/-- The top byte needs no mask. -/
theorem div_top_byte (n k : ℕ) (h : n < 2 ^ (k + 8)) : n / 2 ^ k % 256 = n / 2 ^ k := by
  apply Nat.mod_eq_of_lt
  rw [Nat.div_lt_iff_lt_mul (Nat.two_pow_pos k)]
  calc
    n < 2 ^ (k + 8) := h
    _ = 256 * 2 ^ k := by rw [Nat.pow_add, Nat.mul_comm]

theorem be16_bytes16 (v : UInt16) :
    ∃ b0 b1, bytes16 v = [b0, b1] ∧ be16 b0 b1 = v := by
  refine ⟨_, _, rfl, ?_⟩
  have h0 : ((v >>> 8) &&& 0xFF).toUInt8.toNat = _ := toNat_byte16 v 8 (by decide)
  have h1 : (v &&& 0xFF).toUInt8.toNat = v.toNat % 256 := by
    simpa using toNat_byte16 v 0 (by decide)
  apply UInt16.toNat_inj.mp
  calc
    _ = v.toNat / 2 ^ 8 * 256 + v.toNat % 256 := by
      rw [toNat_be16, h0, h1, div_top_byte v.toNat 8 v.toNat_lt]
    _ = v.toNat := Nat.div_add_mod' v.toNat 256

theorem be32_bytes32 (v : UInt32) :
    ∃ b0 b1 b2 b3, bytes32 v = [b0, b1, b2, b3] ∧ be32 b0 b1 b2 b3 = v := by
  refine ⟨_, _, _, _, rfl, ?_⟩
  have h0 : ((v >>> 24) &&& 0xFF).toUInt8.toNat = _ := toNat_byte32 v 24 (by decide)
  have h1 : ((v >>> 16) &&& 0xFF).toUInt8.toNat = _ := toNat_byte32 v 16 (by decide)
  have h2 : ((v >>> 8) &&& 0xFF).toUInt8.toNat = _ := toNat_byte32 v 8 (by decide)
  have h3 : (v &&& 0xFF).toUInt8.toNat = v.toNat % 256 := by
    simpa using toNat_byte32 v 0 (by decide)
  have s1 : v.toNat / 2 ^ 24 * 256 + v.toNat / 2 ^ 16 % 256 = _ := div_next_byte v.toNat 16
  have s2 : v.toNat / 2 ^ 16 * 256 + v.toNat / 2 ^ 8 % 256 = _ := div_next_byte v.toNat 8
  apply UInt32.toNat_inj.mp
  calc
    _ = v.toNat / 2 ^ 8 * 256 + v.toNat % 256 := by
      rw [toNat_be32, h0, h1, h2, h3, div_top_byte v.toNat 24 v.toNat_lt, s1, s2]
    _ = v.toNat := Nat.div_add_mod' v.toNat 256

theorem be64_bytes64 (v : UInt64) :
    ∃ b0 b1 b2 b3 b4 b5 b6 b7, bytes64 v = [b0, b1, b2, b3, b4, b5, b6, b7] ∧
      be64 b0 b1 b2 b3 b4 b5 b6 b7 = v := by
  refine ⟨_, _, _, _, _, _, _, _, rfl, ?_⟩
  have h0 : ((v >>> 56) &&& 0xFF).toUInt8.toNat = _ := toNat_byte64 v 56 (by decide)
  have h1 : ((v >>> 48) &&& 0xFF).toUInt8.toNat = _ := toNat_byte64 v 48 (by decide)
  have h2 : ((v >>> 40) &&& 0xFF).toUInt8.toNat = _ := toNat_byte64 v 40 (by decide)
  have h3 : ((v >>> 32) &&& 0xFF).toUInt8.toNat = _ := toNat_byte64 v 32 (by decide)
  have h4 : ((v >>> 24) &&& 0xFF).toUInt8.toNat = _ := toNat_byte64 v 24 (by decide)
  have h5 : ((v >>> 16) &&& 0xFF).toUInt8.toNat = _ := toNat_byte64 v 16 (by decide)
  have h6 : ((v >>> 8) &&& 0xFF).toUInt8.toNat = _ := toNat_byte64 v 8 (by decide)
  have h7 : (v &&& 0xFF).toUInt8.toNat = v.toNat % 256 := by
    simpa using toNat_byte64 v 0 (by decide)
  have s1 : v.toNat / 2 ^ 56 * 256 + v.toNat / 2 ^ 48 % 256 = _ := div_next_byte v.toNat 48
  have s2 : v.toNat / 2 ^ 48 * 256 + v.toNat / 2 ^ 40 % 256 = _ := div_next_byte v.toNat 40
  have s3 : v.toNat / 2 ^ 40 * 256 + v.toNat / 2 ^ 32 % 256 = _ := div_next_byte v.toNat 32
  have s4 : v.toNat / 2 ^ 32 * 256 + v.toNat / 2 ^ 24 % 256 = _ := div_next_byte v.toNat 24
  have s5 : v.toNat / 2 ^ 24 * 256 + v.toNat / 2 ^ 16 % 256 = _ := div_next_byte v.toNat 16
  have s6 : v.toNat / 2 ^ 16 * 256 + v.toNat / 2 ^ 8 % 256 = _ := div_next_byte v.toNat 8
  apply UInt64.toNat_inj.mp
  calc
    _ = v.toNat / 2 ^ 8 * 256 + v.toNat % 256 := by
      rw [toNat_be64, h0, h1, h2, h3, h4, h5, h6, h7, div_top_byte v.toNat 56 v.toNat_lt, s1, s2, s3,
        s4, s5, s6]
    _ = v.toNat := Nat.div_add_mod' v.toNat 256

/-- Reading a word determines its bytes, so writing it again gives them back. -/
theorem bytes16_be16 (b0 b1 : UInt8) : bytes16 (be16 b0 b1) = [b0, b1] := by
  obtain ⟨c0, c1, hc, he⟩ := be16_bytes16 (be16 b0 b1)
  have hn := congrArg UInt16.toNat he
  rw [toNat_be16, toNat_be16] at hn
  have hb := b1.toNat_lt
  have hc1 := c1.toNat_lt
  rw [hc, UInt8.toNat_inj.mp (show c0.toNat = b0.toNat by omega),
    UInt8.toNat_inj.mp (show c1.toNat = b1.toNat by omega)]

theorem bytes32_be32 (b0 b1 b2 b3 : UInt8) : bytes32 (be32 b0 b1 b2 b3) = [b0, b1, b2, b3] := by
  obtain ⟨c0, c1, c2, c3, hc, he⟩ := be32_bytes32 (be32 b0 b1 b2 b3)
  have hn := congrArg UInt32.toNat he
  rw [toNat_be32, toNat_be32] at hn
  have := b1.toNat_lt; have := b2.toNat_lt; have := b3.toNat_lt
  have := c1.toNat_lt; have := c2.toNat_lt; have := c3.toNat_lt
  rw [hc, UInt8.toNat_inj.mp (show c0.toNat = b0.toNat by omega),
    UInt8.toNat_inj.mp (show c1.toNat = b1.toNat by omega),
    UInt8.toNat_inj.mp (show c2.toNat = b2.toNat by omega),
    UInt8.toNat_inj.mp (show c3.toNat = b3.toNat by omega)]

theorem bytes64_be64 (b0 b1 b2 b3 b4 b5 b6 b7 : UInt8) :
    bytes64 (be64 b0 b1 b2 b3 b4 b5 b6 b7) = [b0, b1, b2, b3, b4, b5, b6, b7] := by
  obtain ⟨c0, c1, c2, c3, c4, c5, c6, c7, hc, he⟩ := be64_bytes64 (be64 b0 b1 b2 b3 b4 b5 b6 b7)
  have hn := congrArg UInt64.toNat he
  rw [toNat_be64, toNat_be64] at hn
  have := b1.toNat_lt; have := b2.toNat_lt; have := b3.toNat_lt; have := b4.toNat_lt
  have := b5.toNat_lt; have := b6.toNat_lt; have := b7.toNat_lt
  have := c1.toNat_lt; have := c2.toNat_lt; have := c3.toNat_lt; have := c4.toNat_lt
  have := c5.toNat_lt; have := c6.toNat_lt; have := c7.toNat_lt
  rw [hc, UInt8.toNat_inj.mp (show c0.toNat = b0.toNat by omega),
    UInt8.toNat_inj.mp (show c1.toNat = b1.toNat by omega),
    UInt8.toNat_inj.mp (show c2.toNat = b2.toNat by omega),
    UInt8.toNat_inj.mp (show c3.toNat = b3.toNat by omega),
    UInt8.toNat_inj.mp (show c4.toNat = b4.toNat by omega),
    UInt8.toNat_inj.mp (show c5.toNat = b5.toNat by omega),
    UInt8.toNat_inj.mp (show c6.toNat = b6.toNat by omega),
    UInt8.toNat_inj.mp (show c7.toNat = b7.toNat by omega)]

theorem length_bytes16 (v : UInt16) : (bytes16 v).length = 2 := rfl

theorem length_bytes32 (v : UInt32) : (bytes32 v).length = 4 := rfl

theorem length_bytes64 (v : UInt64) : (bytes64 v).length = 8 := rfl

end BigEndian
