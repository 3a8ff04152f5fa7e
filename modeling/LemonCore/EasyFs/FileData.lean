import Mathlib
import LemonCore.EasyFs.InodeTree

/-!
# The bytes of a disk inode

`DiskInode.byteAt` is the byte at a position, found through the index tree.

* `blockId_spec`: `block_id` finds the leaf;
* `readAt_spec`: `read_at` copies the bytes at the positions asked for, up to the size;
* `writeAt_spec`: `write_at` changes the bytes at the positions written and no other, in the leaves
  of the inode only.
-/

namespace LemonCore.EasyFs

open Foundation.BorrowProgram Foundation.PointerTree

variable {d d' : Disk} {held : List ℕ} {ino : DiskInode}

/-! ### The leaves among the blocks -/

theorem range_cut (c n : ℕ) :
    List.range n = List.range (min n c) ++ (List.range (n - c)).map (c + ·) := by
  rcases Nat.le_total n c with h | h
  · rw [Nat.min_eq_left h, Nat.sub_eq_zero_of_le h]
    simp
  · rw [Nat.min_eq_right h, ← List.range_add, Nat.add_sub_cancel' h]

theorem map_leaf (h : ino.leafCount ≤ indirect3Bound) :
    (List.range ino.leafCount).map (ino.leaf d) = ino.directs ino.leafCount ++
      (indexing.leaves d 1 ino.indirect1 (min (ino.leafCount - directCount) indirect1Count) ++
      (indexing.leaves d 2 ino.indirect2
        (min (ino.leafCount - directCount - indirect1Count) indirect2Count) ++
      indexing.leaves d 3 ino.indirect3
        (min (ino.leafCount - directCount - indirect1Count - indirect2Count) indirect3Count))) := by
  obtain ⟨-, -, -, -, -, hb0, hb1, hb2, hb3⟩ := bounds_eq
  generalize ino.leafCount = n at h ⊢
  have htop : min (n - directCount - indirect1Count - indirect2Count) indirect3Count =
      n - directCount - indirect1Count - indirect2Count := Nat.min_eq_left (by omega)
  rw [htop, range_cut directCount n, range_cut indirect1Count (n - directCount),
    range_cut indirect2Count (n - directCount - indirect1Count)]
  simp only [List.map_append, List.map_map, DiskInode.directs, Indexing.leaves]
  refine congrArg₂ (· ++ ·) (List.map_congr_left fun i hi => ?_)
    (congrArg₂ (· ++ ·) (List.map_congr_left fun i hi => ?_)
      (congrArg₂ (· ++ ·) (List.map_congr_left fun i hi => ?_)
        (List.map_congr_left fun i _ => ?_)))
  · have := List.mem_range.mp hi
    rw [DiskInode.leaf, if_pos (by omega)]
  · have := List.mem_range.mp hi
    show ino.leaf d (directCount + i) = _
    rw [DiskInode.leaf, if_neg (by omega), if_pos (by omega),
      show directCount + i - directBound = i by omega]
  · have := List.mem_range.mp hi
    show ino.leaf d (directCount + (indirect1Count + i)) = _
    rw [DiskInode.leaf, if_neg (by omega), if_neg (by omega), if_pos (by omega),
      show directCount + (indirect1Count + i) - indirect1Bound = i by omega]
  · show ino.leaf d (directCount + (indirect1Count + (indirect2Count + i))) = _
    rw [DiskInode.leaf, if_neg (by omega), if_neg (by omega), if_neg (by omega),
      show directCount + (indirect1Count + (indirect2Count + i)) - indirect2Bound = i by omega]

/-- **The blocks of an inode** are its index blocks and its leaves. -/
theorem owned_perm (h : ino.leafCount ≤ indirect3Bound) :
    (ino.owned d).Perm (ino.index d ++ (List.range ino.leafCount).map (ino.leaf d)) := by
  rw [map_leaf h, DiskInode.owned, DiskInode.index]
  refine List.perm_append_comm.trans ?_
  refine List.Perm.trans ?_ (List.perm_append_comm_assoc _ _ _)
  refine List.Perm.trans List.perm_append_comm (List.Perm.append_left _ ?_)
  simp only [DiskInode.trees, Indexing.forest, Indexing.forestInner, List.flatMap_cons,
    List.flatMap_nil, List.append_nil, Indexing.blocks]
  refine (List.Perm.append_left _ (perm_append_middle _ _ _ _)).trans ?_
  exact perm_append_middle _ _ _ _

theorem leaf_mem_owned (h : ino.leafCount ≤ indirect3Bound) {i : ℕ} (hi : i < ino.leafCount) :
    ino.leaf d i ∈ ino.owned d :=
  (owned_perm h).mem_iff.mpr
    (List.mem_append_right _ (List.mem_map.mpr ⟨i, List.mem_range.mpr hi, rfl⟩))

theorem index_subset (h : ino.leafCount ≤ indirect3Bound) {b : ℕ} (hb : b ∈ ino.index d) :
    b ∈ ino.owned d :=
  (owned_perm h).mem_iff.mpr (List.mem_append_left _ hb)

theorem leaf_notMem_index (h : ino.leafCount ≤ indirect3Bound) (hnd : (ino.owned d).Nodup) {i : ℕ}
    (hi : i < ino.leafCount) : ino.leaf d i ∉ ino.index d := fun hmem =>
  (List.nodup_append.mp ((owned_perm h).nodup_iff.mp hnd)).2.2 _ hmem _
    (List.mem_map.mpr ⟨i, List.mem_range.mpr hi, rfl⟩) rfl

theorem leaf_inj (h : ino.leafCount ≤ indirect3Bound) (hnd : (ino.owned d).Nodup) {i j : ℕ}
    (hi : i < ino.leafCount) (hj : j < ino.leafCount) (heq : ino.leaf d i = ino.leaf d j) : i = j :=
  List.inj_on_of_nodup_map (List.nodup_append.mp ((owned_perm h).nodup_iff.mp hnd)).2.1
    (List.mem_range.mpr hi) (List.mem_range.mpr hj) heq

theorem tree1_mem (ino : DiskInode) (n : ℕ) :
    (⟨1, ino.indirect1, min (n - directCount) indirect1Count⟩ : Tree) ∈ ino.trees n :=
  List.mem_cons_self

theorem tree2_mem (ino : DiskInode) (n : ℕ) :
    (⟨2, ino.indirect2, min (n - directCount - indirect1Count) indirect2Count⟩ : Tree) ∈
      ino.trees n :=
  List.mem_cons_of_mem _ List.mem_cons_self

theorem tree3_mem (ino : DiskInode) (n : ℕ) :
    (⟨3, ino.indirect3, min (n - directCount - indirect1Count - indirect2Count) indirect3Count⟩ :
      Tree) ∈ ino.trees n :=
  List.mem_cons_of_mem _ (List.mem_cons_of_mem _ List.mem_cons_self)

/-- **Frame.**  The tree of an inode depends on its index blocks only. -/
theorem inode_congr (h : ∀ b ∈ ino.index d, d' b = d b) :
    ino.owned d' = ino.owned d ∧ ino.index d' = ino.index d ∧
      ∀ i, i < ino.leafCount → i < indirect3Bound → ino.leaf d' i = ino.leaf d i := by
  have hforest := indexing.forest_congr (bounded_trees ino _) h
  refine ⟨by rw [DiskInode.owned, DiskInode.owned, hforest.1], hforest.2, ?_⟩
  obtain ⟨-, -, -, -, -, hb0, hb1, hb2, hb3⟩ := bounds_eq
  have htree : ∀ a ∈ ino.trees ino.leafCount, ∀ i, i < a.leaves →
      indexing.leafAt d' a.height a.root i = indexing.leafAt d a.height a.root i := fun a ha =>
    (indexing.congr _ _ _ (bounded_trees ino _ a ha) fun b hb =>
      h b (List.mem_flatMap.mpr ⟨a, ha, hb⟩)).2
  intro i hi htop
  rw [DiskInode.leaf, DiskInode.leaf]
  split
  · rfl
  split
  · exact htree _ (tree1_mem ino _) _ (lt_min (by omega) (by omega))
  split
  · exact htree _ (tree2_mem ino _) _ (lt_min (by omega) (by omega))
  · exact htree _ (tree3_mem ino _) _ (lt_min (by omega) (by omega))

/-! ### `block_id` -/

theorem mem_index {a : Tree} (ha : a ∈ ino.trees ino.leafCount) {b : ℕ}
    (hb : b ∈ indexing.inner d a.height a.root a.leaves) : b ∈ ino.index d :=
  List.mem_flatMap.mpr ⟨a, ha, hb⟩

theorem wp_word {b j : ℕ} {E : Fault Panic → Prop} {Q : ℕ → Disk → Prop} (hb : b ∉ held)
    (hlen : held.length < blockCacheSize) (h : Q (indexing.word (d b) j) d) :
    dwp (Prog.borrow b fun x => pure (x.u32 (4 * j))) held d Q E :=
  wp_borrow hb hlen (wp_pure'.mpr h)

theorem blockId_spec {i : ℕ} (hi : i < ino.leafCount) (htop : i < indirect3Bound)
    (hfree : ∀ b ∈ ino.index d, b ∉ held) (hlen : held.length < blockCacheSize) :
    dwp (ino.blockId i) held d (fun b d' => b = ino.leaf d i ∧ d' = d) fun _ => False := by
  obtain ⟨-, -, -, -, -, hb0, hb1, hb2, hb3⟩ := bounds_eq
  rw [DiskInode.blockId, DiskInode.leaf]
  by_cases h0 : i < directBound
  · rw [if_pos h0, if_pos h0]
    exact wp_pure'.mpr ⟨rfl, rfl⟩
  rw [if_neg h0, if_neg h0]
  by_cases h1 : i < indirect1Bound
  · rw [if_pos h1, if_pos h1]
    have hlt : i - directBound < min (ino.leafCount - directCount) indirect1Count :=
      lt_min (by omega) (by omega)
    have hroot := mem_index (d := d) (tree1_mem ino _)
      (indexing.root_mem_inner (Nat.zero_lt_of_lt hlt))
    refine wp_word (hfree _ hroot) hlen ⟨?_, rfl⟩
    rw [Indexing.leafAt, Indexing.leafAt, Nat.pow_zero, Nat.div_one]
  rw [if_neg h1, if_neg h1]
  by_cases h2 : i < indirect2Bound
  · rw [if_pos h2, if_pos h2]
    have hlt : i - indirect1Bound < min (ino.leafCount - directCount - indirect1Count) indirect2Count :=
      lt_min (by omega) (by omega)
    have hin : ∀ b ∈ indexing.inner d 2 ino.indirect2 _, b ∉ held := fun b hb =>
      hfree b (mem_index (tree2_mem ino _) hb)
    obtain ⟨hj, hm⟩ := indexing.child_of_leaf (k := 1) hlt (by rw [pow_two_eq]; exact Nat.min_le_right _ _)
    have hchild := hin _
      (indexing.inner_of_child hj (indexing.root_mem_inner (Nat.zero_lt_of_lt hm)))
    refine wp_bind'.mpr
      (wp_word (hin _ (indexing.root_mem_inner (Nat.zero_lt_of_lt hlt))) hlen ?_)
    refine wp_word (by rw [pow_one_eq] at hchild; exact hchild) hlen ⟨?_, rfl⟩
    rw [Indexing.leafAt, Indexing.leafAt, Indexing.leafAt, Nat.pow_zero, Nat.div_one, pow_one_eq]
  rw [if_neg h2, if_neg h2]
  have hlt : i - indirect2Bound <
      min (ino.leafCount - directCount - indirect1Count - indirect2Count) indirect3Count :=
    lt_min (by omega) (by omega)
  have hin : ∀ b ∈ indexing.inner d 3 ino.indirect3 _, b ∉ held := fun b hb =>
    hfree b (mem_index (tree3_mem ino _) hb)
  obtain ⟨hj, hm⟩ := indexing.child_of_leaf (k := 2) hlt (by rw [pow_three_eq]; exact Nat.min_le_right _ _)
  obtain ⟨hj', hm'⟩ := indexing.child_of_leaf (k := 1) hm (part_le _ _ _)
  have hchild := hin _
    (indexing.inner_of_child hj (indexing.root_mem_inner (Nat.zero_lt_of_lt hm)))
  have hchild' := hin _ (indexing.inner_of_child hj (indexing.inner_of_child hj'
    (indexing.root_mem_inner (Nat.zero_lt_of_lt hm'))))
  rw [pow_two_eq] at hj hchild hchild'
  rw [pow_one_eq] at hchild'
  refine wp_bind'.mpr (wp_borrow
    (hin _ (indexing.root_mem_inner (Nat.zero_lt_of_lt hlt))) hlen ?_)
  rw [if_pos (show (i - indirect2Bound) / indirect2Count < indirectCount from hj)]
  refine wp_pure'.mpr (wp_bind'.mpr (wp_word hchild hlen ?_))
  refine wp_word hchild' hlen ⟨?_, rfl⟩
  rw [Indexing.leafAt, Indexing.leafAt, Indexing.leafAt, Indexing.leafAt, Nat.pow_zero, Nat.div_one,
    pow_one_eq, pow_two_eq]
  rfl

/-! ### Bytes -/

namespace DiskInode

/-- The byte at position `p`. -/
def byteAt (d : Disk) (ino : DiskInode) (p : ℕ) : UInt8 :=
  (d (ino.leaf d (p / 512))).byte (p % 512)

/-- The `len` bytes from position `off` on. -/
def bytes (d : Disk) (ino : DiskInode) (off len : ℕ) : List UInt8 :=
  (List.range len).map fun i => ino.byteAt d (off + i)

theorem length_bytes (off len : ℕ) : (ino.bytes d off len).length = len := by
  simp [DiskInode.bytes]

theorem bytes_append (off a b : ℕ) :
    ino.bytes d off a ++ ino.bytes d (off + a) b = ino.bytes d off (a + b) := by
  rw [bytes, bytes, bytes, List.range_add, List.map_append, List.map_map]
  simp only [Function.comp_def, Nat.add_assoc]

end DiskInode

theorem owned_congr (htop : ino.leafCount ≤ indirect3Bound) (h : ∀ b ∈ ino.owned d, d' b = d b) :
    ino.owned d' = ino.owned d ∧
      ∀ p, p < 512 * ino.leafCount → ino.byteAt d' p = ino.byteAt d p := by
  obtain ⟨howned, -, hleaf⟩ := inode_congr fun b hb => h b (index_subset htop hb)
  refine ⟨howned, ?_⟩
  intro p hp
  have hi : p / 512 < ino.leafCount := by omega
  rw [DiskInode.byteAt, DiskInode.byteAt, hleaf _ hi (lt_of_lt_of_le hi htop),
    h _ (leaf_mem_owned htop hi)]

/-- What reading and writing an inode needs: its tree is in range, has no block twice and none that
is held. -/
structure InodeOk (d : Disk) (held : List ℕ) (ino : DiskInode) : Prop where
  top : ino.leafCount ≤ indirect3Bound
  nodup : (ino.owned d).Nodup
  free : ∀ b ∈ ino.owned d, b ∉ held

theorem InodeOk.index_free (h : InodeOk d held ino) : ∀ b ∈ ino.index d, b ∉ held :=
  fun b hb => h.free b (index_subset h.top hb)

theorem div_lt_leafCount {p : ℕ} (hp : p < ino.size) : p / 512 < ino.leafCount := by
  rw [DiskInode.leafCount, DiskInode.countDataBlock, blockSize]
  omega

theorem InodeOk.blockId_spec (h : InodeOk d held ino) {p : ℕ} (hp : p < ino.size)
    (hlen : held.length < blockCacheSize) :
    dwp (ino.blockId (p / blockSize)) held d
      (fun b d' => b = ino.leaf d (p / 512) ∧ b ∉ held ∧ d' = d) fun _ => False := by
  have hlt := div_lt_leafCount hp
  refine wp_mono (LemonCore.EasyFs.blockId_spec hlt (lt_of_lt_of_le hlt h.top) h.index_free hlen) ?_
    fun _ h => h
  rintro b d' ⟨rfl, rfl⟩
  exact ⟨rfl, h.free _ (leaf_mem_owned h.top hlt), rfl⟩

/-! ### `read_at` -/

theorem endCurrentBlock_bounds {start stop : ℕ} (h : start < stop) :
    start < DiskInode.endCurrentBlock start stop ∧ DiskInode.endCurrentBlock start stop ≤ stop ∧
      start % 512 + (DiskInode.endCurrentBlock start stop - start) ≤ 512 := by
  rw [DiskInode.endCurrentBlock, blockSize]
  omega

theorem endCurrentBlock_next {start stop : ℕ} (h : DiskInode.endCurrentBlock start stop ≠ stop) :
    DiskInode.endCurrentBlock start stop / 512 = start / 512 + 1 := by
  rw [DiskInode.endCurrentBlock, blockSize] at h ⊢
  omega

theorem slice_eq_bytes {start len : ℕ} (h : start % 512 + len ≤ 512) :
    (d (ino.leaf d (start / 512))).slice (start % 512) len = ino.bytes d start len := by
  apply List.map_congr_left
  intro i hi
  have := List.mem_range.mp hi
  rw [DiskInode.byteAt, show (start + i) / 512 = start / 512 by omega,
    show (start + i) % 512 = start % 512 + i by omega]

theorem copyInto_copyInto (buf a b : List UInt8) (pos : ℕ) (h : pos + a.length ≤ buf.length) :
    DiskInode.copyInto (DiskInode.copyInto buf pos a) (pos + a.length) b =
      DiskInode.copyInto buf pos (a ++ b) := by
  have hlen : (buf.take pos ++ a).length = pos + a.length := by
    rw [List.length_append, List.length_take]
    omega
  have hdrop : (buf.take pos ++ a ++ buf.drop (pos + a.length)).drop (pos + a.length + b.length) =
      buf.drop (pos + (a ++ b).length) := by
    rw [← hlen, List.drop_length_add_append, hlen, List.drop_drop, List.length_append,
      Nat.add_assoc]
  rw [DiskInode.copyInto, DiskInode.copyInto, DiskInode.copyInto, List.take_left' hlen, hdrop]
  simp only [List.append_assoc]

theorem readLoop_spec (h : InodeOk d held ino) (hlen : held.length < blockCacheSize) {stop : ℕ}
    (hstop : stop ≤ ino.size) (n : ℕ) : ∀ (start readSize : ℕ) (buf : List UInt8),
      stop - start = n → start < stop → readSize + (stop - start) ≤ buf.length →
      dwp (ino.readLoop stop start (start / blockSize) readSize buf) held d
        (fun o d' => d' = d ∧ o.1 = readSize + (stop - start) ∧
          o.2 = DiskInode.copyInto buf readSize (ino.bytes d start (stop - start)))
        fun _ => False := by
  induction n using Nat.strong_induction_on with
  | _ n ih =>
    intro start readSize buf hn hlt hbuf
    obtain ⟨hgt, hle, hblock⟩ := endCurrentBlock_bounds hlt
    rw [DiskInode.readLoop]
    refine wp_bind'.mpr (wp_mono (h.blockId_spec (by omega) hlen) ?_ fun _ h => h)
    rintro b d₁ ⟨rfl, hb, rfl⟩
    refine wp_bind'.mpr (wp_borrow hb hlen (wp_pure'.mpr ?_))
    rw [show start % blockSize = start % 512 from rfl, slice_eq_bytes hblock]
    by_cases hdone : DiskInode.endCurrentBlock start stop = stop
    · rw [dif_pos hdone, hdone]
      exact wp_pure'.mpr ⟨rfl, rfl, rfl⟩
    · rw [dif_neg hdone]
      have hnext := endCurrentBlock_next hdone
      have hrest := ih (stop - DiskInode.endCurrentBlock start stop) (by omega)
        (DiskInode.endCurrentBlock start stop)
        (readSize + (DiskInode.endCurrentBlock start stop - start))
        (DiskInode.copyInto buf readSize
          (ino.bytes d₁ start (DiskInode.endCurrentBlock start stop - start))) rfl (by omega) (by
          rw [DiskInode.copyInto, List.length_append, List.length_append, List.length_take,
            List.length_drop, ino.length_bytes]
          omega)
      rw [show DiskInode.endCurrentBlock start stop / blockSize = start / blockSize + 1 from hnext]
        at hrest
      refine wp_mono hrest ?_ fun _ h => h
      rintro ⟨size, buf'⟩ d₂ ⟨hd, hsize, hbuf'⟩
      refine ⟨hd, by rw [hsize]; omega, ?_⟩
      have hcopy := copyInto_copyInto buf
        (ino.bytes d₁ start (DiskInode.endCurrentBlock start stop - start))
        (ino.bytes d₁ (DiskInode.endCurrentBlock start stop)
          (stop - DiskInode.endCurrentBlock start stop)) readSize
        (by rw [ino.length_bytes]; omega)
      rw [ino.length_bytes] at hcopy
      rw [hbuf', hcopy]
      congr 1
      have happ := ino.bytes_append (d := d₁) start (DiskInode.endCurrentBlock start stop - start)
        (stop - DiskInode.endCurrentBlock start stop)
      rw [show start + (DiskInode.endCurrentBlock start stop - start) =
        DiskInode.endCurrentBlock start stop by omega] at happ
      rw [happ]
      congr 1
      omega

/-- **Reading.**  `read_at` copies the bytes from `offset` up to the size, as far as the buffer goes,
and leaves the rest of the buffer alone. -/
theorem readAt_spec (h : InodeOk d held ino) (hlen : held.length < blockCacheSize) (offset : ℕ)
    (buf : List UInt8) :
    dwp (ino.readAt offset buf) held d
      (fun o d' => d' = d ∧ o.1 = min buf.length (ino.size - offset) ∧
        o.2 = ino.bytes d offset (min buf.length (ino.size - offset)) ++
          buf.drop (min buf.length (ino.size - offset))) fun _ => False := by
  rw [DiskInode.readAt]
  by_cases hout : min (offset + buf.length) ino.size ≤ offset
  · have hz : min buf.length (ino.size - offset) = 0 := by omega
    simp only [if_pos hout, hz]
    exact wp_pure'.mpr ⟨rfl, rfl, rfl⟩
  · simp only [if_neg hout]
    have hcount : min (offset + buf.length) ino.size - offset = min buf.length (ino.size - offset) := by
      omega
    refine wp_mono (readLoop_spec h hlen (by omega) _ offset 0 buf rfl (by omega) (by omega)) ?_
      fun _ h => h
    rintro o d' ⟨hd, hsize, hbuf⟩
    rw [hcount] at hsize hbuf
    refine ⟨hd, by omega, ?_⟩
    rw [hbuf, DiskInode.copyInto, ino.length_bytes, List.take_zero, List.nil_append, Nat.zero_add]

/-! ### `write_at` -/

/-- The bytes `src` have been written from position `start` on, and nothing else has changed. -/
structure Written (d d' : Disk) (ino : DiskInode) (start : ℕ) (src : List UInt8) : Prop where
  byte : ∀ p, p < 512 * ino.leafCount → ino.byteAt d' p =
    if start ≤ p ∧ p < start + src.length then src.getD (p - start) 0 else ino.byteAt d p
  frame : ∀ b, (∀ i, i < ino.leafCount → b ≠ ino.leaf d i) → d' b = d b

/-- Writing leaves the index blocks alone, hence the whole tree. -/
theorem Written.tree {start : ℕ} {src : List UInt8} (h : Written d d' ino start src)
    (hok : InodeOk d held ino) : ino.owned d' = ino.owned d ∧ ino.index d' = ino.index d ∧
      ∀ i, i < ino.leafCount → ino.leaf d' i = ino.leaf d i := by
  have hindex : ∀ b ∈ ino.index d, d' b = d b := fun b hb =>
    h.frame b fun i hi heq => leaf_notMem_index hok.top hok.nodup hi (heq ▸ hb)
  obtain ⟨h1, h2, h3⟩ := inode_congr hindex
  exact ⟨h1, h2, fun i hi => h3 i hi (lt_of_lt_of_le hi hok.top)⟩

theorem Written.ok {start : ℕ} {src : List UInt8} (h : Written d d' ino start src)
    (hok : InodeOk d held ino) : InodeOk d' held ino := by
  obtain ⟨howned, -, -⟩ := h.tree hok
  exact ⟨hok.top, howned ▸ hok.nodup, howned ▸ hok.free⟩

theorem Written.append {d'' : Disk} {start : ℕ} {a b : List UInt8} (hok : InodeOk d held ino)
    (h₁ : Written d d' ino start a) (h₂ : Written d' d'' ino (start + a.length) b) :
    Written d d'' ino start (a ++ b) := by
  refine ⟨?_, ?_⟩
  · intro p hp
    rw [h₂.byte p hp, h₁.byte p hp, List.length_append]
    by_cases hb : start + a.length ≤ p ∧ p < start + a.length + b.length
    · rw [if_pos hb, if_pos (by omega), List.getD_append_right _ _ _ _ (by omega)]
      congr 1
      omega
    · rw [if_neg hb]
      by_cases ha : start ≤ p ∧ p < start + a.length
      · rw [if_pos ha, if_pos (by omega), List.getD_append _ _ _ _ (by omega)]
      · rw [if_neg ha, if_neg (by omega)]
  · intro b hb
    rw [h₂.frame b fun i hi => by rw [(h₁.tree hok).2.2 i hi]; exact hb i hi, h₁.frame b hb]

/-- Writing into one block. -/
theorem Written.one (hok : InodeOk d held ino) (start : ℕ) {src : List UInt8}
    (hstart : start < ino.size) (hfit : start % 512 + src.length ≤ 512) :
    Written d (Function.update d (ino.leaf d (start / 512))
      ((d (ino.leaf d (start / 512))).setBytes (start % 512) src)) ino start src := by
  have hlt := div_lt_leafCount hstart
  have hleaf : ∀ i, i < ino.leafCount → ino.leaf (Function.update d (ino.leaf d (start / 512))
      ((d (ino.leaf d (start / 512))).setBytes (start % 512) src)) i = ino.leaf d i := fun i hi =>
    (inode_congr fun b hb => Function.update_of_ne (fun heq : b = ino.leaf d (start / 512) =>
      leaf_notMem_index hok.top hok.nodup hlt (heq ▸ hb)) _ _).2.2 i hi (lt_of_lt_of_le hi hok.top)
  refine ⟨?_, fun b hb => Function.update_of_ne (hb _ hlt) _ _⟩
  intro p hp
  have hpi : p / 512 < ino.leafCount := by omega
  rw [DiskInode.byteAt, hleaf _ hpi, DiskInode.byteAt]
  by_cases hsame : p / 512 = start / 512
  · rw [hsame, Function.update_self, Block.byte_setBytes _ _ _ (Nat.mod_lt _ (by decide))]
    have hiff : start % 512 ≤ p % 512 ∧ p % 512 < start % 512 + src.length ↔
        start ≤ p ∧ p < start + src.length := by omega
    by_cases hin : start ≤ p ∧ p < start + src.length
    · rw [if_pos (hiff.mpr hin), if_pos hin]
      congr 1
      omega
    · rw [if_neg (hiff.not.mpr hin), if_neg hin]
  · rw [Function.update_of_ne fun heq => hsame (leaf_inj hok.top hok.nodup hpi hlt heq),
      if_neg (by omega)]

theorem writeLoop_spec (hlen : held.length < blockCacheSize) {stop : ℕ} (hstop : stop ≤ ino.size)
    {buf : List UInt8} (n : ℕ) : ∀ (d : Disk) (start writeSize : ℕ), InodeOk d held ino →
      stop - start = n → start < stop → writeSize + (stop - start) ≤ buf.length →
      dwp (ino.writeLoop stop start (start / blockSize) writeSize buf) held d
        (fun o d' => o = writeSize + (stop - start) ∧
          Written d d' ino start ((buf.drop writeSize).take (stop - start))) fun _ => False := by
  induction n using Nat.strong_induction_on with
  | _ n ih =>
    intro d start writeSize hok hn hlt hbuf
    obtain ⟨hgt, hle, hblock⟩ := endCurrentBlock_bounds hlt
    have hchunk : ((buf.drop writeSize).take (DiskInode.endCurrentBlock start stop - start)).length =
        DiskInode.endCurrentBlock start stop - start := by
      rw [List.length_take, List.length_drop]
      omega
    have hone := Written.one hok start (by omega) (by rw [hchunk]; exact hblock)
    rw [DiskInode.writeLoop]
    refine wp_bind'.mpr (wp_mono (hok.blockId_spec (by omega) hlen) ?_ fun _ h => h)
    rintro b d₁ ⟨rfl, hb, rfl⟩
    refine wp_bind'.mpr (wp_update hb hlen (wp_pure'.mpr ?_))
    by_cases hdone : DiskInode.endCurrentBlock start stop = stop
    · rw [dif_pos hdone]
      rw [hdone] at hone ⊢
      exact wp_pure'.mpr ⟨rfl, hone⟩
    · rw [dif_neg hdone]
      have hrest := ih (stop - DiskInode.endCurrentBlock start stop) (by omega) _
        (DiskInode.endCurrentBlock start stop)
        (writeSize + (DiskInode.endCurrentBlock start stop - start)) (hone.ok hok) rfl (by omega)
        (by omega)
      rw [show DiskInode.endCurrentBlock start stop / blockSize = start / blockSize + 1
        from endCurrentBlock_next hdone] at hrest
      refine wp_mono hrest ?_ fun _ h => h
      rintro o d₂ ⟨ho, hrest⟩
      refine ⟨by omega, ?_⟩
      have hsplit : (buf.drop writeSize).take (stop - start) =
          (buf.drop writeSize).take (DiskInode.endCurrentBlock start stop - start) ++
            (buf.drop (writeSize + (DiskInode.endCurrentBlock start stop - start))).take
              (stop - DiskInode.endCurrentBlock start stop) := by
        rw [← List.drop_drop, ← List.take_add]
        congr 1
        omega
      rw [hsplit]
      refine hone.append hok ?_
      rw [hchunk, show start + (DiskInode.endCurrentBlock start stop - start) =
        DiskInode.endCurrentBlock start stop by omega]
      exact hrest

/-- **Writing** a non-empty buffer inside the size of the file. -/
theorem writeAt_spec (hok : InodeOk d held ino) (hlen : held.length < blockCacheSize) {offset : ℕ}
    {buf : List UInt8} (hne : buf ≠ []) (hfit : offset + buf.length ≤ ino.size) :
    dwp (ino.writeAt offset buf) held d
      (fun o d' => o = buf.length ∧ Written d d' ino offset buf) fun _ => False := by
  have hpos : 0 < buf.length := List.length_pos_iff.mpr hne
  have hstop : min (offset + buf.length) ino.size = offset + buf.length := Nat.min_eq_left hfit
  simp only [DiskInode.writeAt, hstop]
  refine wp_bind'.mpr (wp_assert (by omega) ?_)
  refine wp_mono (writeLoop_spec hlen hfit _ d offset 0 hok rfl (by omega) (by omega)) ?_
    fun _ h => h
  rintro o d' ⟨ho, hw⟩
  rw [List.drop_zero, Nat.add_sub_cancel_left, List.take_length] at hw
  exact ⟨by omega, hw⟩

end LemonCore.EasyFs
