import Mathlib

/-!
# Little-endian words inside a byte store

A byte store is a function `ℕ → UInt8`.  A word of `w` bytes at offset `off` is the natural
number `leNat f w off`; `lePut f w off v` overwrites those bytes with the low `w` bytes of `v`.

* `leNat_lePut_same`: what was put is read back, modulo `256 ^ w`;
* `leNat_lePut_disjoint`: a word that shares no byte with the written one keeps its value;
* `leNat_congr`: a word depends on its own `w` bytes only;
* `digit_of_sum`: a number is put together from its digits.

Nothing here knows what the bytes are for.
-/

namespace LemonCore.Foundation.LittleEndian

/-- The `w`-byte little-endian word at offset `off`. -/
def leNat (f : ℕ → UInt8) : ℕ → ℕ → ℕ
  | 0, _ => 0
  | w + 1, off => (f off).toNat + 256 * leNat f w (off + 1)

/-- Byte number `i` of the word `v`. -/
def leByte (v i : ℕ) : UInt8 := UInt8.ofNat (v / 256 ^ i)

/-- Overwrite the `w` bytes at `off` with the low bytes of `v`. -/
def lePut (f : ℕ → UInt8) (w off v : ℕ) : ℕ → UInt8 :=
  fun p => if off ≤ p ∧ p < off + w then leByte v (p - off) else f p

theorem leByte_zero_toNat (v : ℕ) : (leByte v 0).toNat = v % 256 := by
  simp [leByte, UInt8.toNat_ofNat']

theorem leByte_succ (v i : ℕ) : leByte v (i + 1) = leByte (v / 256) i := by
  rw [leByte, leByte, Nat.pow_succ', ← Nat.div_div_eq_div_mul]

theorem leNat_lt (f : ℕ → UInt8) (w : ℕ) : ∀ off, leNat f w off < 256 ^ w := by
  induction w with
  | zero => intro off; simp [leNat]
  | succ w ih =>
    intro off
    have hb := (f off).toNat_lt
    have ht := ih (off + 1)
    rw [leNat, Nat.pow_succ]
    omega

theorem leNat_congr {f g : ℕ → UInt8} {w : ℕ} :
    ∀ {off : ℕ}, (∀ i, i < w → f (off + i) = g (off + i)) → leNat f w off = leNat g w off := by
  induction w with
  | zero => intro off _; rfl
  | succ w ih =>
    intro off h
    have h0 : f off = g off := h 0 (by omega)
    have ht : leNat f w (off + 1) = leNat g w (off + 1) := by
      apply ih
      intro i hi
      rw [Nat.add_assoc, Nat.add_comm 1 i]
      exact h (i + 1) (by omega)
    rw [leNat, leNat, h0, ht]

theorem leByte_leNat (f : ℕ → UInt8) (w : ℕ) :
    ∀ off i, i < w → leByte (leNat f w off) i = f (off + i) := by
  induction w with
  | zero => exact fun _ i hi => absurd hi (Nat.not_lt_zero i)
  | succ w ih =>
    intro off i hi
    have hb := (f off).toNat_lt
    cases i with
    | zero =>
      rw [leNat, ← UInt8.toNat_inj, leByte_zero_toNat]
      show _ = (f off).toNat
      omega
    | succ i =>
      have hdiv : leNat f (w + 1) off / 256 = leNat f w (off + 1) := by
        rw [leNat]
        omega
      rw [leByte_succ, hdiv, ih (off + 1) i (by omega), Nat.add_assoc, Nat.add_comm 1 i]

/-- The bytes of `v` laid out from `off` on read back as `v`, cut to `w` bytes. -/
theorem leNat_of_bytes (f : ℕ → UInt8) (w : ℕ) :
    ∀ off v, (∀ i, i < w → f (off + i) = leByte v i) → leNat f w off = v % 256 ^ w := by
  induction w with
  | zero => intro off v _; simp [leNat, Nat.mod_one]
  | succ w ih =>
    intro off v h
    have h0 : f off = leByte v 0 := h 0 (by omega)
    have ht : leNat f w (off + 1) = v / 256 % 256 ^ w := by
      apply ih
      intro i hi
      rw [Nat.add_assoc, Nat.add_comm 1 i, h (i + 1) (by omega), leByte_succ]
    rw [leNat, h0, leByte_zero_toNat, ht, Nat.pow_succ', Nat.mod_mul]

/-- **Read after write.**  The written word is read back, cut to its width. -/
theorem leNat_lePut_same (f : ℕ → UInt8) (w off v : ℕ) :
    leNat (lePut f w off v) w off = v % 256 ^ w := by
  apply leNat_of_bytes
  intro i hi
  rw [lePut, if_pos (by omega), Nat.add_sub_cancel_left]

/-- **Frame.**  Words that share no byte with the written one are unchanged. -/
theorem leNat_lePut_disjoint (f : ℕ → UInt8) (w off v w' off' : ℕ)
    (h : off + w ≤ off' ∨ off' + w' ≤ off) :
    leNat (lePut f w off v) w' off' = leNat f w' off' := by
  apply leNat_congr
  intro i hi
  rw [lePut, if_neg (by omega)]

theorem leNat_zero (w : ℕ) : ∀ off, leNat (fun _ => 0) w off = 0 := by
  induction w with
  | zero => intro off; rfl
  | succ w ih => intro off; simp [leNat, ih]

/-! ### Digits of a sum -/

theorem sum_digits_lt {b : ℕ} {d : ℕ → ℕ} (hd : ∀ j, d j < b) (n : ℕ) :
    ((List.range n).map fun j => d j * b ^ j).sum < b ^ n := by
  induction n with
  | zero => simp
  | succ n ih =>
    rw [List.range_succ, List.map_append, List.sum_append, List.map_singleton, List.sum_singleton]
    calc ((List.range n).map fun j => d j * b ^ j).sum + d n * b ^ n
        < b ^ n + d n * b ^ n := Nat.add_lt_add_right ih _
      _ = b ^ n * (d n + 1) := by ring
      _ ≤ b ^ n * b := Nat.mul_le_mul_left _ (hd n)

/-- The digits of a number that is put together from them. -/
theorem digit_of_sum {b : ℕ} {d : ℕ → ℕ} (hd : ∀ j, d j < b) {n j : ℕ} (hj : j < n) :
    ((List.range n).map fun j => d j * b ^ j).sum / b ^ j % b = d j := by
  have hpos : 0 < b := Nat.zero_lt_of_lt (hd 0)
  induction n with
  | zero => exact absurd hj (Nat.not_lt_zero j)
  | succ n ih =>
    rw [List.range_succ, List.map_append, List.sum_append, List.map_singleton, List.sum_singleton]
    rcases Nat.lt_succ_iff_lt_or_eq.mp hj with hlt | rfl
    · -- the last digit is a multiple of the one asked for
      obtain ⟨k, rfl⟩ : ∃ k, n = j + 1 + k := ⟨n - (j + 1), by omega⟩
      have hsplit : d (j + 1 + k) * b ^ (j + 1 + k) = d (j + 1 + k) * b ^ k * b * b ^ j := by ring
      rw [hsplit, Nat.add_mul_div_right _ _ (Nat.pow_pos hpos), Nat.add_mul_mod_self_right, ih hlt]
    · rw [Nat.add_mul_div_right _ _ (Nat.pow_pos hpos), Nat.div_eq_of_lt (sum_digits_lt hd j), Nat.zero_add,
        Nat.mod_eq_of_lt (hd j)]

end LemonCore.Foundation.LittleEndian
