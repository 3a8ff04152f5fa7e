import Mathlib
import LemonCore.EasyFs.Block

/-!
# Bitmaps (`easy-fs/src/bitmap.rs`)

A bitmap is a run of consecutive blocks, each read as 64 words of 64 bits.  `alloc` takes the first
word that is not all ones and its first zero bit; `dealloc` clears a bit it asserts to be set.

`Bitmap.bit` numbers the bits of the whole run.  Both operations are then updates of one bit:
`alloc_spec` and `dealloc_spec` say which one, and that no block outside the run is touched.
-/

namespace LemonCore.EasyFs

open Foundation.BorrowProgram

/-! ### The model -/

/-- A bitmap: where it starts and how many blocks it has. -/
structure Bitmap where
  startBlockId : ℕ
  blocks : ℕ
  deriving DecidableEq, Repr

/-- `u64::trailing_ones`. -/
def trailingOnes (v : ℕ) : ℕ := ((List.range 64).find? fun i => !v.testBit i).getD 64

/-- Set bit `k` of a bitmap block: `bitmap_block[k / 64] |= 1u64 << (k % 64)`. -/
def Block.setBit (x : Block) (k : ℕ) : Block :=
  x.setU64 (8 * (k / 64)) (x.u64 (8 * (k / 64)) ||| 1 <<< (k % 64))

/-- Clear bit `k` of a bitmap block: `bitmap_block[k / 64] &= !(1u64 << (k % 64))`. -/
def Block.clearBit (x : Block) (k : ℕ) : Block :=
  x.setU64 (8 * (k / 64)) (x.u64 (8 * (k / 64)) &&& ((2 ^ 64 - 1) ^^^ (1 <<< (k % 64))))

/-- Bit `k` of a bitmap block. -/
def Block.bit (x : Block) (k : ℕ) : Bool := (x.u64 (8 * (k / 64))).testBit (k % 64)

/-- What `alloc` looks for in one block: the first word that is not all ones, and in it the first
zero bit. -/
def freeInBlock (x : Block) : Option ℕ :=
  ((List.range 64).find? fun j => x.u64 (8 * j) ≠ 2 ^ 64 - 1).map fun j =>
    j * 64 + trailingOnes (x.u64 (8 * j))

/-- The blocks of the bitmap in turn, until one has a free bit. -/
def Bitmap.allocIn (bm : Bitmap) : List ℕ → DiskProg (Option ℕ)
  | [] => .pure none
  | i :: is =>
    (Prog.update (bm.startBlockId + i) fun x =>
      match freeInBlock x with
      | some k => .pure (x.setBit k, some (i * blockBits + k))
      | none => .pure (x, none)).bind fun
    | some id => .pure (some id)
    | none => Bitmap.allocIn bm is

/-- `Bitmap::alloc`. -/
def Bitmap.alloc (bm : Bitmap) : DiskProg (Option ℕ) := bm.allocIn (List.range bm.blocks)

theorem Bitmap.alloc_eq (bm : Bitmap) {n : ℕ} (h : bm.blocks = n + 1) :
    bm.alloc = bm.allocIn (0 :: (List.range n).map Nat.succ) := by
  rw [Bitmap.alloc, h, List.range_succ_eq_map]

/-- `Bitmap::dealloc`. -/
def Bitmap.dealloc (bm : Bitmap) (bit : ℕ) : DiskProg Unit :=
  Prog.update (bm.startBlockId + bit / blockBits) fun x => do
    Prog.assert (x.bit (bit % blockBits)) .assertion
    pure (x.clearBit (bit % blockBits), ())

/-- `Bitmap::maximum`. -/
def Bitmap.maximum (bm : Bitmap) : ℕ := bm.blocks * blockBits

/-- Bit `i` of the bitmap on a disk. -/
def Bitmap.bit (bm : Bitmap) (d : Disk) (i : ℕ) : Bool :=
  (d (bm.startBlockId + i / blockBits)).bit (i % blockBits)

/-- The disk with bit `i` set. -/
def Bitmap.set (bm : Bitmap) (d : Disk) (i : ℕ) : Disk :=
  Function.update d (bm.startBlockId + i / blockBits)
    ((d (bm.startBlockId + i / blockBits)).setBit (i % blockBits))

/-- The disk with bit `i` cleared. -/
def Bitmap.clear (bm : Bitmap) (d : Disk) (i : ℕ) : Disk :=
  Function.update d (bm.startBlockId + i / blockBits)
    ((d (bm.startBlockId + i / blockBits)).clearBit (i % blockBits))

/-- Bit `i` is the first clear one. -/
def Bitmap.FirstClear (bm : Bitmap) (d : Disk) (i : ℕ) : Prop :=
  i < bm.maximum ∧ bm.bit d i = false ∧ ∀ j, j < i → bm.bit d j = true

theorem Bitmap.FirstClear.le {bm : Bitmap} {d : Disk} {i j : ℕ} (h : bm.FirstClear d i)
    (hj : bm.bit d j = false) : i ≤ j := by
  by_contra hlt
  exact absurd (hj.symm.trans (h.2.2 j (Nat.not_le.mp hlt))) (by simp)

/-! ### Bits of one word and of one block -/

theorem testBit_of_eq_max {v : ℕ} (h : v = 2 ^ 64 - 1) {i : ℕ} (hi : i < 64) :
    v.testBit i = true := by
  rw [h, Nat.testBit_two_pow_sub_one]
  simpa using hi

/-- A word that is not all ones has a zero bit, and `trailing_ones` is the first. -/
theorem trailingOnes_spec {v : ℕ} (hv : v < 2 ^ 64) (hne : v ≠ 2 ^ 64 - 1) :
    trailingOnes v < 64 ∧ v.testBit (trailingOnes v) = false ∧
    ∀ i, i < trailingOnes v → v.testBit i = true := by
  unfold trailingOnes
  cases hf : (List.range 64).find? fun i => !v.testBit i with
  | none =>
    exfalso
    apply hne
    rw [List.find?_range_eq_none] at hf
    apply Nat.eq_of_testBit_eq
    intro i
    rw [Nat.testBit_two_pow_sub_one]
    by_cases hi : i < 64
    · simpa [hi] using hf i hi
    · have hlt : v < 2 ^ i := lt_of_lt_of_le hv (Nat.pow_le_pow_right (by norm_num) (by omega))
      simp [hi, Nat.testBit_lt_two_pow hlt]
  | some i =>
    obtain ⟨hi, hmem, hlow⟩ := List.find?_range_eq_some.mp hf
    refine ⟨by simpa using hmem, by simpa using hi, ?_⟩
    intro j hj
    simpa using hlow j hj

theorem shift_lt {k : ℕ} (hk : k < 64) : 1 <<< k < 2 ^ 64 := by
  rw [Nat.one_shiftLeft]
  exact Nat.pow_lt_pow_right (by norm_num) hk

theorem Block.bit_setBit (x : Block) {k j : ℕ} (hk : k < 4096) (hj : j < 4096) :
    (x.setBit k).bit j = (decide (j = k) || x.bit j) := by
  unfold Block.bit Block.setBit
  by_cases hw : j / 64 = k / 64
  · have hv : x.u64 (8 * (k / 64)) ||| 1 <<< (k % 64) < 2 ^ 64 :=
      Nat.or_lt_two_pow (x.u64_lt _) (shift_lt (by omega))
    rw [hw, Block.u64_setU64_same x (by omega) hv, Nat.testBit_or, Nat.one_shiftLeft,
      Nat.testBit_two_pow, Bool.or_comm]
    congr 1
    exact decide_eq_decide.mpr ⟨fun h => by omega, fun h => by omega⟩
  · rw [Block.u64_setU64_other x (by omega) (by omega)]
    simp [show j ≠ k from fun h => hw (by rw [h])]

theorem Block.bit_clearBit (x : Block) {k j : ℕ} (hk : k < 4096) (hj : j < 4096) :
    (x.clearBit k).bit j = (!decide (j = k) && x.bit j) := by
  unfold Block.bit Block.clearBit
  by_cases hw : j / 64 = k / 64
  · have hv : x.u64 (8 * (k / 64)) &&& ((2 ^ 64 - 1) ^^^ (1 <<< (k % 64))) < 2 ^ 64 :=
      lt_of_le_of_lt Nat.and_le_left (x.u64_lt _)
    rw [hw, Block.u64_setU64_same x (by omega) hv, Nat.testBit_and, Nat.testBit_xor,
      Nat.testBit_two_pow_sub_one, Nat.one_shiftLeft, Nat.testBit_two_pow]
    by_cases hjk : j = k
    · subst hjk
      simp [show j % 64 < 64 by omega]
    · simp [hjk, show j % 64 < 64 by omega, show k % 64 ≠ j % 64 by omega]
  · rw [Block.u64_setU64_other x (by omega) (by omega)]
    simp [show j ≠ k from fun h => hw (by rw [h])]

@[simp] theorem Block.bit_zero (k : ℕ) : Block.zero.bit k = false := by simp [Block.bit]

theorem freeInBlock_some {x : Block} {k : ℕ} (h : freeInBlock x = some k) :
    k < 4096 ∧ x.bit k = false ∧ ∀ j, j < k → x.bit j = true := by
  unfold freeInBlock at h
  obtain ⟨w, hw, rfl⟩ := Option.map_eq_some_iff.mp h
  obtain ⟨hne, hmem, hlow⟩ := List.find?_range_eq_some.mp hw
  have hw64 : w < 64 := by simpa using hmem
  obtain ⟨hlt, hclear, hones⟩ := trailingOnes_spec (x.u64_lt (8 * w)) (by simpa using hne)
  have hdiv : (w * 64 + trailingOnes (x.u64 (8 * w))) / 64 = w := by omega
  have hmod : (w * 64 + trailingOnes (x.u64 (8 * w))) % 64 = trailingOnes (x.u64 (8 * w)) := by omega
  refine ⟨by omega, ?_, ?_⟩
  · rw [Block.bit, hdiv, hmod]; exact hclear
  · intro j hj
    rcases Nat.lt_or_ge (j / 64) w with hjw | hjw
    · -- an earlier word is all ones
      have := hlow (j / 64) hjw
      exact testBit_of_eq_max (by simpa using this) (by omega)
    · have hjw' : j / 64 = w := by omega
      rw [Block.bit, hjw']
      exact hones (j % 64) (by omega)

theorem freeInBlock_none {x : Block} (h : freeInBlock x = none) {k : ℕ} (hk : k < 4096) :
    x.bit k = true := by
  unfold freeInBlock at h
  rw [Option.map_eq_none_iff, List.find?_range_eq_none] at h
  exact testBit_of_eq_max (by simpa using h (k / 64) (by omega)) (by omega)

/-! ### Bits of the bitmap -/

variable {bm : Bitmap} {d : Disk}

theorem Bitmap.bit_set {i j : ℕ} : bm.bit (bm.set d i) j = (decide (j = i) || bm.bit d j) := by
  unfold Bitmap.bit Bitmap.set blockBits
  by_cases hb : j / 4096 = i / 4096
  · rw [hb, Function.update_self, Block.bit_setBit _ (by omega) (by omega)]
    congr 1
    exact decide_eq_decide.mpr ⟨fun h => by omega, fun h => by omega⟩
  · rw [Function.update_of_ne (by omega)]
    simp [show j ≠ i from fun h => hb (by rw [h])]

theorem Bitmap.bit_clear {i j : ℕ} : bm.bit (bm.clear d i) j = (!decide (j = i) && bm.bit d j) := by
  unfold Bitmap.bit Bitmap.clear blockBits
  by_cases hb : j / 4096 = i / 4096
  · rw [hb, Function.update_self, Block.bit_clearBit _ (by omega) (by omega)]
    congr 2
    exact decide_eq_decide.mpr ⟨fun h => by omega, fun h => by omega⟩
  · rw [Function.update_of_ne (by omega)]
    simp [show j ≠ i from fun h => hb (by rw [h])]

theorem Bitmap.bit_congr {d' : Disk}
    (h : ∀ b, bm.startBlockId ≤ b → b < bm.startBlockId + bm.blocks → d' b = d b)
    {i : ℕ} (hi : i < bm.maximum) : bm.bit d' i = bm.bit d i := by
  unfold Bitmap.maximum blockBits at hi
  unfold Bitmap.bit blockBits
  rw [h _ (by omega) (by omega)]

theorem Bitmap.set_other {i b : ℕ} (h : b ≠ bm.startBlockId + i / blockBits) :
    bm.set d i b = d b := Function.update_of_ne h _ _

theorem Bitmap.clear_other {i b : ℕ} (h : b ≠ bm.startBlockId + i / blockBits) :
    bm.clear d i b = d b := Function.update_of_ne h _ _

theorem Bitmap.set_outside {i b : ℕ} (hi : i < bm.maximum)
    (h : b < bm.startBlockId ∨ bm.startBlockId + bm.blocks ≤ b) : bm.set d i b = d b := by
  apply Bitmap.set_other
  unfold Bitmap.maximum blockBits at hi
  unfold blockBits
  omega

theorem Bitmap.clear_outside {i b : ℕ} (hi : i < bm.maximum)
    (h : b < bm.startBlockId ∨ bm.startBlockId + bm.blocks ≤ b) : bm.clear d i b = d b := by
  apply Bitmap.clear_other
  unfold Bitmap.maximum blockBits at hi
  unfold blockBits
  omega

/-! ### Specifications -/

variable {held : List ℕ} {E : Fault Panic → Prop}

theorem Bitmap.allocIn_spec (hfree : ∀ i, i < bm.blocks → bm.startBlockId + i ∉ held)
    (hlen : held.length < blockCacheSize) :
    ∀ n lo, lo + n = bm.blocks → (∀ j, j < lo * 4096 → bm.bit d j = true) →
      dwp (bm.allocIn (List.range' lo n)) held d (fun r d' =>
        (r = none ∧ d' = d ∧ ∀ j, j < bm.maximum → bm.bit d j = true) ∨
        ∃ i, r = some i ∧ bm.FirstClear d i ∧ d' = bm.set d i) E := by
  intro n
  induction n with
  | zero =>
    intro lo hlo hfull
    refine wp_pure.mpr (Or.inl ⟨rfl, rfl, ?_⟩)
    intro j hj
    apply hfull
    unfold Bitmap.maximum blockBits at hj
    rw [show lo = bm.blocks by omega]
    exact hj
  | succ n ih =>
    intro lo hlo hfull
    rw [List.range'_succ, Bitmap.allocIn]
    refine wp_bind.mpr (wp_update (hfree lo (by omega)) hlen ?_)
    cases hx : freeInBlock (d (bm.startBlockId + lo)) with
    | some k =>
      obtain ⟨hk, hclear, hlow⟩ := freeInBlock_some hx
      have hdiv : (lo * 4096 + k) / 4096 = lo := by omega
      have hmod : (lo * 4096 + k) % 4096 = k := by omega
      refine wp_pure.mpr (wp_pure.mpr ?_)
      refine Or.inr ⟨lo * 4096 + k, rfl, ⟨?_, ?_, ?_⟩, ?_⟩
      · have : (lo + 1) * 4096 ≤ bm.blocks * 4096 := Nat.mul_le_mul_right _ (by omega)
        unfold Bitmap.maximum blockBits
        omega
      · unfold Bitmap.bit blockBits
        rw [hdiv, hmod]; exact hclear
      · intro j hj
        rcases Nat.lt_or_ge j (lo * 4096) with hjl | hjl
        · exact hfull j hjl
        · unfold Bitmap.bit blockBits
          rw [show j / 4096 = lo by omega]
          exact hlow (j % 4096) (by omega)
      · unfold Bitmap.set blockBits
        rw [hdiv, hmod]
    | none =>
      -- a full block is given back as it was
      simp only [wp_pure, Function.update_eq_self]
      apply ih (lo + 1) (by omega)
      intro j hj
      rcases Nat.lt_or_ge j (lo * 4096) with hjl | hjl
      · exact hfull j hjl
      · unfold Bitmap.bit blockBits
        rw [show j / 4096 = lo by omega]
        exact freeInBlock_none hx (by omega)

/-- **Allocation.**  `alloc` takes the first clear bit, or finds all bits set and changes nothing. -/
theorem Bitmap.alloc_spec (hfree : ∀ i, i < bm.blocks → bm.startBlockId + i ∉ held)
    (hlen : held.length < blockCacheSize) :
    dwp bm.alloc held d (fun r d' =>
      (r = none ∧ d' = d ∧ ∀ j, j < bm.maximum → bm.bit d j = true) ∨
      ∃ i, r = some i ∧ bm.FirstClear d i ∧ d' = bm.set d i) E := by
  rw [Bitmap.alloc, List.range_eq_range']
  exact Bitmap.allocIn_spec hfree hlen bm.blocks 0 (Nat.zero_add _) fun j hj => absurd hj (by simp)

/-- **Deallocation.**  A bit that is set is cleared; a bit that is clear fails the assertion. -/
theorem Bitmap.dealloc_spec {i : ℕ} (hb : bm.startBlockId + i / blockBits ∉ held)
    (hlen : held.length < blockCacheSize) :
    dwp (bm.dealloc i) held d (fun _ d' => bm.bit d i = true ∧ d' = bm.clear d i)
      fun e => bm.bit d i = false ∧ e = .panic .assertion := by
  refine wp_update hb hlen (wp_bind'.mpr ?_)
  cases hset : bm.bit d i with
  | true => exact wp_assert hset (wp_pure'.mpr ⟨rfl, rfl⟩)
  | false =>
    have hx : ¬ (d (bm.startBlockId + i / blockBits)).bit (i % blockBits) = true := by
      rw [show (d (bm.startBlockId + i / blockBits)).bit (i % blockBits) = false from hset]
      simp
    rw [Prog.assert, if_neg hx]
    exact wp_panic.mpr ⟨rfl, rfl⟩

end LemonCore.EasyFs
