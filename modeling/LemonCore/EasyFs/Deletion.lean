import LemonCore.EasyFs.Creation
import LemonCore.Foundation.SwapRemove

/-!
# Deleting an entry

`delete` frees the inode number of the entry, moves the last entry into its place and shrinks the
directory by one entry; the loop then goes on over the old number of entries.

* `shrink_spec`: `decrease_size` as long as no index tree is left, which is when it works;
* `delete_op`: a directory with at most 433 entries has lost the entry afterwards, and nothing else
  has changed but the mark of the inode number;
* `entries_remove`: what is left of the entries.
-/

namespace LemonCore.EasyFs

open Foundation.BorrowProgram Foundation.Overwrite Foundation.SwapRemove

/-! ### Shrinking within the direct blocks -/

namespace DiskInode

variable (ino : DiskInode) (newSize : ℕ)

/-- The inode after `decrease_size` when no index tree is left. -/
def shrunk : DiskInode :=
  (dropDirect { ino with size := newSize } (countDataBlock newSize) (min ino.leafCount directCount)).1

/-- The blocks that `decrease_size` hands back then. -/
def droppedBlocks : List ℕ :=
  (List.range' (countDataBlock newSize) (min ino.leafCount directCount - countDataBlock newSize)).map
    ino.directAt

variable {ino newSize} {d : Disk}

theorem decreaseSize_eq (hm : countDataBlock newSize ≤ directCount) :
    ino.decreaseSize newSize = pure (ino.shrunk newSize, ino.droppedBlocks newSize) := by
  have hstop : max (countDataBlock newSize) (min (countDataBlock ino.size) directCount) ≤ directCount :=
    max_le hm (Nat.min_le_right _ _)
  rw [decreaseSize]
  exact if_pos hstop

theorem leafCount_shrunk : (ino.shrunk newSize).leafCount = countDataBlock newSize := rfl

theorem directAt_shrunk {i : ℕ} (hi : i < countDataBlock newSize) :
    (ino.shrunk newSize).directAt i = ino.directAt i := by
  rw [directAt, directAt]
  split
  · exact if_neg fun h => absurd h.1 (Nat.not_le.mpr hi)
  · rfl

theorem fits_shrunk (h : ino.Fits) (hnew : newSize < 2 ^ 32) : (ino.shrunk newSize).Fits := by
  refine ⟨hnew, fun i => ?_, h.indirect1, h.indirect2, h.indirect3⟩
  show (if countDataBlock newSize ≤ i.val ∧ i.val < min ino.leafCount directCount then 0
    else ino.direct i) < 2 ^ 32
  split
  · norm_num
  · exact h.direct i

theorem owned_of_direct (h : ino.leafCount ≤ directCount) :
    ino.owned d = ino.directs ino.leafCount := by
  rw [owned_eq, forest_empty d 1 _ (by omega), forest_empty d 2 _ (by omega),
    forest_empty d 3 _ (by omega)]
  simp

theorem owned_shrunk (hm : countDataBlock newSize ≤ directCount) :
    (ino.shrunk newSize).owned d = ino.directs (countDataBlock newSize) := by
  rw [owned_of_direct (show (ino.shrunk newSize).leafCount ≤ directCount from hm), leafCount_shrunk]
  refine List.map_congr_left fun i hi => directAt_shrunk ?_
  exact lt_of_lt_of_le (List.mem_range.mp hi) (Nat.min_le_left _ _)

theorem directs_eq_append (hle : countDataBlock newSize ≤ ino.leafCount)
    (hm : countDataBlock newSize ≤ directCount) :
    ino.directs ino.leafCount = ino.directs (countDataBlock newSize) ++ ino.droppedBlocks newSize := by
  have hsplit := List.range'_append_1 (s := 0) (m := countDataBlock newSize)
    (n := min ino.leafCount directCount - countDataBlock newSize)
  rw [Nat.zero_add, Nat.add_sub_of_le (le_min hle hm)] at hsplit
  rw [directs, directs, droppedBlocks, ← List.map_append, Nat.min_eq_left hm, List.range_eq_range',
    List.range_eq_range', hsplit]

theorem leaf_direct {i : ℕ} (hi : i < directCount) : ino.leaf d i = ino.directAt i := if_pos hi

end DiskInode

variable {G : Geometry} {tab : Table} {d d' d₁ : Disk} {id off i k dir : ℕ} {held : List ℕ}
  {ino : DiskInode} {newSize : ℕ} {name : String}

/-- Inode `id` has shrunk to `newSize`, within the direct blocks. -/
structure Shrunk (G : Geometry) (id : ℕ) (tab : Table) (d : Disk) (newSize : ℕ) (ino' : DiskInode)
    (d' : Disk) : Prop where
  kind : ino'.kind = (tab id).kind
  size : ino'.size = newSize
  changes : Changes G id tab d (Function.update tab id ino') d'
  owned : ino'.owned d' = (tab id).directs (DiskInode.countDataBlock newSize)
  used : ∀ b, G.InPool b →
    G.used d' b = (!decide (b ∈ (tab id).droppedBlocks newSize) && G.used d b)
  bytes : ∀ p, p < 512 * DiskInode.countDataBlock newSize →
    ino'.byteAt d' p = (tab id).byteAt d p

/-- **Shrinking.** -/
theorem shrink_spec (hcore : Core G tab d) (hid : id < G.slots) (hheld : Aside G held)
    (hle : newSize ≤ (tab id).size) (hm : DiskInode.countDataBlock newSize ≤ directCount) :
    dwp (G.fs.decreaseSize newSize (tab id)) held d
      (fun ino' d' => Shrunk G id tab d newSize ino' d') fun _ => False := by
  have hmono : DiskInode.countDataBlock newSize ≤ (tab id).leafCount :=
    Nat.div_le_div_right (Nat.add_le_add_right hle _)
  have happend := DiskInode.directs_eq_append hmono hm
  have hsub : ∀ b ∈ (tab id).directs (tab id).leafCount, b ∈ (tab id).owned d :=
    fun b hb => List.mem_append_left _ hb
  have hnd : ((tab id).directs (tab id).leafCount).Nodup :=
    (List.nodup_append.mp (hcore.nodup id hid)).1
  rw [happend] at hsub hnd
  have hdrop : ∀ b ∈ (tab id).droppedBlocks newSize,
      G.InPool b ∧ b ∉ held ∧ G.used d b = true := by
    intro b hb
    obtain ⟨h1, h2⟩ := hcore.used id hid b (hsub b (List.mem_append_right _ hb))
    exact ⟨h1, hheld.notMem b (Or.inr h1), h2⟩
  rw [EasyFileSystem.decreaseSize]
  by_cases heq : (tab id).size ≤ newSize
  · -- nothing to do
    have hsize : newSize = (tab id).size := Nat.le_antisymm hle heq
    subst hsize
    have hnil : (tab id).droppedBlocks (tab id).size = [] := by
      rw [DiskInode.droppedBlocks, DiskInode.leafCount, Nat.sub_eq_zero_of_le (Nat.min_le_left _ _)]
      rfl
    rw [if_pos heq]
    refine wp_pure'.mpr ⟨rfl, rfl, ?_, DiskInode.owned_of_direct hm, ?_, fun _ _ => rfl⟩
    · rw [Function.update_eq_self]
      exact Changes.refl hcore
    · intro b _
      rw [hnil]
      simp
  rw [if_neg heq]
  refine wp_bind'.mpr ?_
  rw [DiskInode.decreaseSize_eq hm]
  refine wp_pure'.mpr (wp_bind'.mpr ?_)
  refine wp_mono (deallocBlocks_spec hheld.bitmapFree _ _ (List.nodup_append.mp hnd).2.1 hdrop) ?_
    fun _ h => h
  intro _ d₁ hfreed
  have hkeep : ∀ b ∈ (tab id).directs (DiskInode.countDataBlock newSize), d₁ b = d b := by
    intro b hb
    refine hfreed.frame b (Geometry.not_inBitmap_of_inPool
      (hcore.used id hid b (hsub b (List.mem_append_left _ hb))).1) ?_
    intro hb'
    exact (List.nodup_append.mp hnd).2.2 b hb b hb' rfl
  have howned : ((tab id).shrunk newSize).owned d₁ =
      (tab id).directs (DiskInode.countDataBlock newSize) := DiskInode.owned_shrunk hm
  refine wp_pure'.mpr ⟨rfl, rfl, ?_, howned, hfreed.used, ?_⟩
  · refine Changes.of_slot hcore hid
      (DiskInode.fits_shrunk (hcore.fits id hid) (lt_of_le_of_lt hle (hcore.fits id hid).size))
      (le_trans hmono (hcore.top id hid)) ?_ ?_ ?_ ?_ ?_
    · rw [howned]
      exact (List.nodup_append.mp hnd).1
    · intro b hb
      rw [howned] at hb
      have ho := hsub b (List.mem_append_left _ hb)
      obtain ⟨h1, h2⟩ := hcore.used id hid b ho
      refine ⟨h1, ?_, Or.inl ho⟩
      rw [hfreed.used b h1, h2, decide_eq_false fun hb' =>
        (List.nodup_append.mp hnd).2.2 b hb b hb' rfl]
      rfl
    · -- a block that is lost from the inode is zero or still marked
      intro b hb hn _ hu
      rw [hfreed.used b (hcore.used id hid b hb).1, (hcore.used id hid b hb).2] at hu
      exact hfreed.zero b (by simpa using hu)
    · intro b hb hn ho
      have hnd' : b ∉ (tab id).droppedBlocks newSize :=
        fun h => ho (hsub b (List.mem_append_right _ h))
      refine ⟨hfreed.frame b (Geometry.not_inBitmap_of_inPool hb) hnd', ?_⟩
      rw [hfreed.used b hb, decide_eq_false hnd', Bool.not_false, Bool.true_and]
    · intro b h1 h2
      exact hfreed.frame b h1 fun h => h2 (hdrop b h).1
  · intro p hp
    have hi : p / 512 < DiskInode.countDataBlock newSize := by omega
    have hi' : p / 512 < directCount := lt_of_lt_of_le hi hm
    rw [DiskInode.byteAt, DiskInode.byteAt, DiskInode.leaf_direct hi', DiskInode.leaf_direct hi',
      DiskInode.directAt_shrunk hi, hkeep]
    exact List.mem_map.mpr ⟨p / 512, List.mem_range.mpr (lt_min hi hi'), rfl⟩

/-! ### The entries that are left -/

section

variable {v : List UInt8} {es : List DirEntry} {j : ℕ}

/-- The bytes of a directory without entry `i`. -/
def removeEntry (v : List UInt8) (i : ℕ) : List UInt8 :=
  (overwrite 0 v (32 * i) (entryAt v (v.length / 32 - 1)).asBytes).take (32 * (v.length / 32 - 1))

theorem length_removeEntry (hi : i < v.length / 32) :
    (removeEntry v i).length = 32 * (v.length / 32 - 1) := by
  rw [removeEntry, List.length_take, length_overwrite, DirEntry.length_asBytes]
  omega

theorem getD_removeEntry {p : ℕ} (hp : p < 32 * (v.length / 32 - 1)) :
    (removeEntry v i).getD p 0 = if 32 * i ≤ p ∧ p < 32 * i + 32 then
      (entryAt v (v.length / 32 - 1)).asBytes.getD (p - 32 * i) 0 else v.getD p 0 := by
  have htake : (removeEntry v i).getD p 0 =
      (overwrite 0 v (32 * i) (entryAt v (v.length / 32 - 1)).asBytes).getD p 0 := by
    simp [removeEntry, List.getD, hp]
  rw [htake, getD_overwrite, DirEntry.length_asBytes]

theorem entryAt_removeEntry (hi : i < v.length / 32) (hj : j < v.length / 32 - 1) (hne : j ≠ i) :
    entryAt (removeEntry v i) j = entryAt v j := by
  refine entryAt_congr ?_ (by rw [length_removeEntry hi]; omega) (by omega)
  intro p hp
  rw [getD_removeEntry (by omega), if_neg (by omega)]

theorem entryAt_removeEntry_same (hi : i < v.length / 32 - 1) :
    entryAt (removeEntry v i) i = entryAt v (v.length / 32 - 1) := by
  refine entryAt_eq ?_ (by rw [length_removeEntry (by omega)]; omega)
  intro p hp
  rw [getD_removeEntry (by omega), if_pos (by omega), Nat.add_sub_cancel_left]

/-- **Removal of an entry** puts the last one into its place. -/
theorem entries_removeEntry (hi : i < v.length / 32) :
    entries (removeEntry v i) = swapRemove (entries v) i := by
  have hpos : v.length / 32 - 1 < (entries v).length := by
    rw [length_entries]
    omega
  have hlast : (entries v).getLast? = some (entryAt v (v.length / 32 - 1)) := by
    rw [List.getLast?_eq_getElem?, length_entries, List.getElem?_eq_getElem hpos, getElem_entries]
  rw [removeEntry, entries_take, entries_overwrite hi, swapRemove_eq hlast, List.dropLast_eq_take,
    List.length_set, length_entries]
  rw [length_overwrite, DirEntry.length_asBytes]
  omega

theorem lookup_swapRemove_same (hnd : (es.map DirEntry.name?).Nodup) (hi : i < es.length)
    (hname : es[i].name? = some name) : lookup name (swapRemove es i) = none := by
  rw [lookup_eq_none]
  intro e he heq
  exact ((mem_swapRemove hnd hi).mp he).2 (heq.trans hname.symm)

theorem lookup_swapRemove_other (hnd : (es.map DirEntry.name?).Nodup) (hi : i < es.length)
    (hname : es[i].name? = some name) {n : String} (hn : n ≠ name) :
    lookup n (swapRemove es i) = lookup n es := by
  have hkeep : ∀ e ∈ es, e.name? = some n → e ∈ swapRemove es i := by
    intro e he hen
    refine (mem_swapRemove hnd hi).mpr ⟨he, ?_⟩
    rw [hen, hname]
    simpa using hn
  cases hl : lookup n es with
  | none =>
    rw [lookup_eq_none] at hl ⊢
    exact fun e he => hl e ((mem_swapRemove hnd hi).mp he).1
  | some m =>
    obtain ⟨e, he, hen, hem⟩ := lookup_mem hl
    rw [lookup_of_mem (nodup_map_swapRemove hnd hi) (hkeep e he hen) hen, hem]

end

/-! ### The loop -/

/-- Reading entry `j` into an empty buffer; behind the end the buffer stays empty. -/
theorem readEntry_spec {j : ℕ} (hok : InodeOk d held ino) (hlen : held.length < blockCacheSize)
    (hj : 32 * j + 32 ≤ ino.size ∨ ino.size ≤ 32 * j) :
    dwp (ino.readAt (j * direntSize) DirEntry.empty.asBytes) held d
      (fun o d' => d' = d ∧ DirEntry.ofBytes o.2 =
        if 32 * j + 32 ≤ ino.size then entryAt (ino.data d) j else .empty) fun _ => False := by
  refine wp_mono (readAt_spec hok hlen _ _) ?_ fun _ h => h
  rintro o d' ⟨hd, _, hbytes⟩
  refine ⟨hd, ?_⟩
  rw [hbytes, DirEntry.length_asBytes, Nat.mul_comm]
  rcases hj with hin | hout
  · have hmin : min 32 (ino.size - direntSize * j) = 32 := by
      rw [direntSize]
      omega
    rw [if_pos hin, hmin, List.drop_eq_nil_of_le (by rw [DirEntry.length_asBytes]), List.append_nil,
      ofBytes_bytes hin]
  · have hmin : min 32 (ino.size - direntSize * j) = 0 := by
      rw [direntSize]
      omega
    rw [if_neg (by omega), hmin, List.drop_zero,
      show ino.bytes d (direntSize * j) 0 = [] from List.eq_nil_of_length_eq_zero
        (DiskInode.length_bytes _ _), List.nil_append, DirEntry.ofBytes_asBytes]

/-- The rounds from `a` on are those before round `j`, round `j` and those after it. -/
theorem range'_split {a j n : ℕ} (haj : a ≤ j) (hjn : j < n) :
    List.range' a (n - a) = List.range' a (j - a) ++ j :: List.range' (j + 1) (n - (j + 1)) := by
  have happend := List.range'_append_1 (s := a) (m := j - a) (n := n - j)
  rw [Nat.add_sub_of_le haj, show j - a + (n - j) = n - a by omega] at happend
  rw [← happend, show n - j = n - (j + 1) + 1 by omega, List.range'_succ]

/-- The loop of `delete` passes by entry `j`. -/
def Passes (d : Disk) (ino : DiskInode) (name : String) (j : ℕ) : Prop :=
  (32 * j + 32 ≤ ino.size ∧ ∃ s, (entryAt (ino.data d) j).name? = some s ∧ s ≠ name) ∨
    (ino.size ≤ 32 * j ∧ name ≠ "")

theorem name?_empty : DirEntry.empty.name? = some "" := DirEntry.name?_eq_some.mpr (by decide)

theorem deleteAt_pass {j fileCount : ℕ} {last : List UInt8} (hok : InodeOk d held ino)
    (hlen : held.length < blockCacheSize) (hj : Passes d ino name j) :
    dwp (Inode.deleteAt G.fs name last fileCount j ino) held d
      (fun ino' d' => ino' = ino ∧ d' = d) fun _ => False := by
  have hread := readEntry_spec (j := j) hok hlen (hj.imp And.left And.left)
  rw [Inode.deleteAt]
  refine wp_bind'.mpr (wp_mono hread ?_ fun _ h => h)
  rintro o d' ⟨hd, ho⟩
  subst hd
  have hname : ∃ s, (DirEntry.ofBytes o.2).name? = some s ∧ s ≠ name := by
    rw [ho]
    rcases hj with ⟨hin, hs⟩ | ⟨hout, hne⟩
    · rw [if_pos hin]
      exact hs
    · rw [if_neg (by omega)]
      exact ⟨"", name?_empty, Ne.symm hne⟩
  obtain ⟨s, hs, hne⟩ := hname
  refine wp_bind'.mpr ?_
  rw [direntName, hs]
  refine wp_pure'.mpr ?_
  rw [if_neg hne]
  exact wp_pure'.mpr ⟨rfl, rfl⟩

theorem deleteLoop_pass {fileCount : ℕ} {last : List UInt8} (hok : InodeOk d held ino)
    (hlen : held.length < blockCacheSize) (l : List ℕ) (hl : ∀ j ∈ l, Passes d ino name j) :
    dwp (Prog.forList (Inode.deleteAt G.fs name last fileCount) l ino) held d
      (fun ino' d' => ino' = ino ∧ d' = d) fun _ => False := by
  refine wp_mono (wp_forList (fun l s d' => (s = ino ∧ d' = d) ∧ ∀ j ∈ l, Passes d ino name j) ?_ l
    ino d ⟨⟨rfl, rfl⟩, hl⟩) (fun _ _ h => h.1) fun _ h => h
  rintro j l s d' ⟨⟨hs, hd⟩, hpass⟩
  subst hs hd
  refine wp_mono (deleteAt_pass hok hlen (hpass j List.mem_cons_self)) ?_ fun _ h => h
  exact fun _ _ h => ⟨h, fun j hj => hpass j (List.mem_cons_of_mem _ hj)⟩

/-! ### `delete` -/

/-- Entry `i` of directory `dir` is the only one called `name`, and it refers to the allocated inode
number `k`. -/
structure Names (G : Geometry) (d : Disk) (dir i k : ℕ) (name : String) : Prop where
  directory : (G.node d dir).kind = .directory
  whole : 32 ∣ (G.node d dir).data.length
  decodes : ∀ e ∈ entries (G.node d dir).data, e.name?.isSome
  distinct : ((entries (G.node d dir).data).map DirEntry.name?).Nodup
  lt : i < (G.node d dir).data.length / 32
  name_eq : (entryAt (G.node d dir).data i).name? = some name
  number : (entryAt (G.node d dir).data i).inodeNumber = k
  nonempty : name ≠ ""
  live : (G.image d).live k = true

/-- Directory `dir` consists of whole entries, whose names can be read and are distinct. -/
structure Listing (G : Geometry) (d : Disk) (dir : ℕ) : Prop where
  directory : (G.node d dir).kind = .directory
  whole : 32 ∣ (G.node d dir).data.length
  decodes : ∀ e ∈ entries (G.node d dir).data, e.name?.isSome
  distinct : ((entries (G.node d dir).data).map DirEntry.name?).Nodup

/-- Entry `i` of directory `dir` is called `name`, which may be empty, and it refers to the allocated inode
number `k`. -/
structure Listed (G : Geometry) (d : Disk) (dir i k : ℕ) (name : String) : Prop extends
    Listing G d dir where
  lt : i < (G.node d dir).data.length / 32
  name_eq : (entryAt (G.node d dir).data i).name? = some name
  number : (entryAt (G.node d dir).data i).inodeNumber = k
  live : (G.image d).live k = true

theorem Names.listed (h : Names G d dir i k name) : Listed G d dir i k name :=
  ⟨⟨h.directory, h.whole, h.decodes, h.distinct⟩, h.lt, h.name_eq, h.number, h.live⟩

theorem Listing.size_eq (h : Listing G d dir) :
    (G.slot d dir).size = 32 * ((G.node d dir).data.length / 32) := by
  have hwhole := h.whole
  rw [show (G.node d dir).data.length = (G.slot d dir).size from length_data] at hwhole ⊢
  omega

/-- The other entries have other names. -/
theorem Listed.other (h : Listed G d dir i k name) {j : ℕ} (hj : j < (G.node d dir).data.length / 32)
    (hne : j ≠ i) : ∃ s, (entryAt (G.node d dir).data j).name? = some s ∧ s ≠ name := by
  have hlen : ∀ {m}, m < (G.node d dir).data.length / 32 →
      m < (entries (G.node d dir).data).length := fun hm => by rw [length_entries]; exact hm
  have hsome := h.decodes _ (List.getElem_mem (hlen hj))
  rw [getElem_entries] at hsome
  obtain ⟨s, hs⟩ := Option.isSome_iff_exists.mp hsome
  refine ⟨s, hs, fun heq => hne ?_⟩
  have hjm : j < ((entries (G.node d dir).data).map DirEntry.name?).length := by simpa using hj
  have him : i < ((entries (G.node d dir).data).map DirEntry.name?).length := by simpa using h.lt
  have hsame : ((entries (G.node d dir).data).map DirEntry.name?)[j] =
      ((entries (G.node d dir).data).map DirEntry.name?)[i] := by
    rw [List.getElem_map, List.getElem_map, getElem_entries, getElem_entries, hs, h.name_eq, heq]
  exact (List.getElem_inj h.distinct).mp hsame

theorem Marked.table_eq {b : Bool} (h : Marked G d d' id b) : G.slot d' = G.slot d := by
  funext j
  rw [Geometry.slot, Geometry.slot, h.frame]
  rw [Geometry.InInodeBitmap, Geometry.pos_eq]
  exact fun hj => absurd hj.2 (by simp only; omega)

/-- Freeing the number of entry `i` and writing the last entry over it, before the directory
shrinks. -/
theorem deleteAt_hit (hcore : Core G (G.slot d) d) (hdir : dir < G.slots)
    (h : Listed G d dir i k name) {Q : DiskInode → Disk → Prop} {E : Fault Panic → Prop}
    {last : List UInt8}
    (hlast : DirEntry.ofBytes last =
      entryAt (G.node d dir).data ((G.node d dir).data.length / 32 - 1))
    (hshrink : ∀ d₁ d₂, Marked G d d₁ k false → Changes G dir (G.slot d) d₁ (G.slot d) d₂ →
      Written d₁ d₂ (G.slot d dir) (32 * i)
        (entryAt (G.node d dir).data ((G.node d dir).data.length / 32 - 1)).asBytes →
      dwp (G.fs.decreaseSize (32 * ((G.node d dir).data.length / 32 - 1)) (G.slot d dir))
        [(G.pos dir).1] d₂ Q E) :
    dwp (Inode.deleteAt G.fs name last ((G.node d dir).data.length / 32) i (G.slot d dir))
      [(G.pos dir).1] d Q E := by
  have hsize := h.size_eq
  have hlt := h.lt
  have hheld := aside_slot hdir
  have hfits := (hcore.fits dir hdir).size
  have hread := readEntry_spec (j := i) (hcore.inodeOk hdir hheld) hheld.bitmapFree.room
    (Or.inl (by omega))
  rw [Inode.deleteAt]
  refine wp_bind'.mpr (wp_mono hread ?_ fun _ h => h.elim)
  rintro o d' ⟨hd, ho⟩
  subst hd
  rw [if_pos (by omega)] at ho
  refine wp_bind'.mpr ?_
  rw [direntName, ho, show (entryAt ((G.slot d' dir).data d') i).name? = some name from h.name_eq]
  refine wp_pure'.mpr ?_
  rw [if_pos rfl, show (entryAt ((G.slot d' dir).data d') i).inodeNumber = k from h.number, hlast]
  have harea := (Geometry.pos_inArea hdir).outside
  have hk := lt_slots_of_live h.live
  refine wp_bind'.mpr (wp_mono (deallocInode_spec (fun b hb hmem => ?_) hheld.bitmapFree.room hk) ?_ ?_)
  · rw [List.mem_singleton.mp hmem] at hb
    exact harea.1 hb
  swap
  · intro _ hno
    rw [← image_live hk, h.live] at hno
    exact absurd hno (by simp)
  rintro _ d₁ ⟨_, hm⟩
  have hcore₁ : Core G (G.slot d') d₁ := hm.table_eq ▸ hm.core hcore
  have hne : (entryAt (G.node d' dir).data ((G.node d' dir).data.length / 32 - 1)).asBytes ≠ [] := by
    intro hnil
    have := (entryAt (G.node d' dir).data ((G.node d' dir).data.length / 32 - 1)).length_asBytes
    rw [hnil] at this
    exact absurd this (by simp)
  have hw := write_spec hcore₁ hdir hheld (32 * i) hne (by rw [DirEntry.length_asBytes]; omega)
  rw [show i * direntSize = 32 * i from Nat.mul_comm _ _]
  refine wp_bind'.mpr (wp_mono hw ?_ fun _ h => h.elim)
  rintro _ d₂ ⟨_, hc, _, hwr, _⟩
  have hnew : ((G.node d' dir).data.length / 32 - 1) * direntSize % 2 ^ 32 =
      32 * ((G.node d' dir).data.length / 32 - 1) := by
    rw [Nat.mul_comm, direntSize]
    exact Nat.mod_eq_of_lt (by omega)
  show dwp (G.fs.decreaseSize (((G.node d' dir).data.length / 32 - 1) * direntSize % 2 ^ 32) _) _ _ _ _
  rw [hnew]
  exact hshrink d₁ d₂ hm hc hwr

/-- **`delete`** is its loop, over the entries that there are at the beginning. -/
theorem wp_delete_loop (hcore : Core G (G.slot d) d) (hdir : dir < G.slots) (h : Listing G d dir)
    {Q : Unit → Disk → Prop} {E : Fault Panic → Prop}
    (hloop : ∀ last, (0 < (G.node d dir).data.length / 32 → DirEntry.ofBytes last =
        entryAt (G.node d dir).data ((G.node d dir).data.length / 32 - 1)) →
      dwp (Prog.forList (Inode.deleteAt G.fs name last ((G.node d dir).data.length / 32))
          (List.range ((G.node d dir).data.length / 32)) (G.slot d dir)) [(G.pos dir).1] d
        (fun ino' d' => d' (G.pos dir).1 = d (G.pos dir).1 ∧ Q () (G.put d' dir ino')) E) :
    dwp ((G.handle dir).delete G.fs name) [] d Q E := by
  have hsize := h.size_eq
  have hheld := aside_slot hdir
  have hroom := hheld.bitmapFree.room
  have hok := hcore.inodeOk hdir hheld
  have hfits := (hcore.fits dir hdir).size
  have hcount : (G.slot d dir).size / direntSize = (G.node d dir).data.length / 32 := by
    rw [hsize, direntSize]
    omega
  rw [Inode.delete]
  refine wp_modifySlot List.not_mem_nil (by decide) ?_
  refine wp_bind'.mpr (wp_assert ?_ ?_)
  · rw [DiskInode.isDir, show (G.slot d dir).kind = .directory from h.directory]
    rfl
  refine wp_bind'.mpr (wp_mono (findInodeId_spec hok hroom name) ?_ ?_)
  swap
  · exact fun _ hno => absurd ⟨h.directory, h.decodes⟩ hno
  rintro _ d' ⟨hd, _⟩
  subst hd
  -- an empty directory is read far behind its end
  have hoff : ((G.slot d' dir).size + 2 ^ 64 - direntSize) % 2 ^ 64 =
      (if 0 < (G.node d' dir).data.length / 32 then (G.node d' dir).data.length / 32 - 1
        else 2 ^ 59 - 1) * direntSize := by
    rw [direntSize]
    split <;> omega
  rw [hoff]
  refine wp_bind'.mpr (wp_mono (readEntry_spec hok hroom (by split <;> omega)) ?_ fun _ h => h.elim)
  rintro o d₀ ⟨hd, ho⟩
  subst hd
  refine wp_bind'.mpr ?_
  rw [hcount]
  refine wp_mono (hloop o.2 fun hpos => ?_) ?_ fun _ h => h
  · rw [ho, if_pos hpos, if_pos (by omega)]
    rfl
  exact fun ino' d' hend => wp_pure'.mpr hend

/-- **`delete`** up to the shrinking of the directory; the rest of the loop goes on over the entries that
there were behind entry `i`. -/
theorem wp_delete_rest (hcore : Core G (G.slot d) d) (hdir : dir < G.slots)
    (h : Listed G d dir i k name) {Q : Unit → Disk → Prop} {E : Fault Panic → Prop}
    (hshrink : ∀ last d₁ d₂, Marked G d d₁ k false → Changes G dir (G.slot d) d₁ (G.slot d) d₂ →
      Written d₁ d₂ (G.slot d dir) (32 * i)
        (entryAt (G.node d dir).data ((G.node d dir).data.length / 32 - 1)).asBytes →
      dwp (G.fs.decreaseSize (32 * ((G.node d dir).data.length / 32 - 1)) (G.slot d dir))
        [(G.pos dir).1] d₂ (fun ino' d₃ =>
          dwp (Prog.forList (Inode.deleteAt G.fs name last ((G.node d dir).data.length / 32))
              (List.range' (i + 1) ((G.node d dir).data.length / 32 - (i + 1))) ino')
            [(G.pos dir).1] d₃
            (fun ino'' d₄ => d₄ (G.pos dir).1 = d (G.pos dir).1 ∧ Q () (G.put d₄ dir ino'')) E) E) :
    dwp ((G.handle dir).delete G.fs name) [] d Q E := by
  have hsize := h.size_eq
  have hlt := h.lt
  have hheld := aside_slot hdir
  have hok := hcore.inodeOk hdir hheld
  have hsplit : List.range ((G.node d dir).data.length / 32) = List.range i ++
      (i :: List.range' (i + 1) ((G.node d dir).data.length / 32 - (i + 1))) := by
    rw [List.range_eq_range', List.range_eq_range']
    exact range'_split (Nat.zero_le i) hlt
  refine wp_delete_loop hcore hdir h.toListing ?_
  intro last hlast
  rw [hsplit]
  refine wp_forList_append _ _ _ _ (wp_mono
    (deleteLoop_pass hok hheld.bitmapFree.room (List.range i) ?_) ?_ fun _ h => h.elim)
  · intro j hj
    have hj' := List.mem_range.mp hj
    exact Or.inl ⟨by omega, h.other (by omega) (by omega)⟩
  rintro ino' d' ⟨hino, hd⟩
  subst hino hd
  rw [Prog.forList]
  refine wp_bind.mpr (deleteAt_hit hcore hdir h (hlast (by omega)) ?_)
  exact fun d₁ d₂ hm hc hwr => hshrink last d₁ d₂ hm hc hwr

/-- When what is left on the disk after the shrinking has no second entry called `name`, the rest of the
loop does nothing. -/
theorem wp_delete (hcore : Core G (G.slot d) d) (hdir : dir < G.slots)
    (h : Listed G d dir i k name) {Q : Unit → Disk → Prop} {E : Fault Panic → Prop}
    (hshrink : ∀ d₁ d₂, Marked G d d₁ k false → Changes G dir (G.slot d) d₁ (G.slot d) d₂ →
      Written d₁ d₂ (G.slot d dir) (32 * i)
        (entryAt (G.node d dir).data ((G.node d dir).data.length / 32 - 1)).asBytes →
      dwp (G.fs.decreaseSize (32 * ((G.node d dir).data.length / 32 - 1)) (G.slot d dir))
        [(G.pos dir).1] d₂ (fun ino' d₃ => InodeOk d₃ [(G.pos dir).1] ino' ∧
          (∀ j, i < j → j < (G.node d dir).data.length / 32 → Passes d₃ ino' name j) ∧
          d₃ (G.pos dir).1 = d (G.pos dir).1 ∧ Q () (G.put d₃ dir ino')) E) :
    dwp ((G.handle dir).delete G.fs name) [] d Q E := by
  refine wp_delete_rest hcore hdir h ?_
  intro last d₁ d₂ hm hc hwr
  refine wp_mono (hshrink d₁ d₂ hm hc hwr) ?_ fun _ h => h
  rintro ino' d₃ ⟨hok, hpass, hpos, hQ⟩
  refine wp_mono (deleteLoop_pass hok (aside_slot hdir).bitmapFree.room _ ?_) ?_ fun _ h => h.elim
  · intro j hj
    rw [List.mem_range'_1] at hj
    exact hpass j (by omega) (by omega)
  rintro ino'' d' ⟨hino, hd⟩
  subst hino hd
  exact ⟨hpos, hQ⟩

/-! ### Small directories -/

/-- Entry `i` of directory `dir` is removed and inode number `k` is freed. -/
def Image.delete (m : Image) (dir i k : ℕ) : Image :=
  (m.setLive k false).setData dir (removeEntry (m.node dir).data i)

/-- Entry `i` has been deleted from directory `dir`, and inode number `k` has been freed. -/
structure Deleted (G : Geometry) (d d' : Disk) (dir i k : ℕ) : Prop where
  core : Core G (G.slot d') d'
  outside : ∀ b, G.Outside b → d' b = d b
  image : G.image d' = (G.image d).delete dir i k
  same : ∀ j, j < G.slots → j ≠ dir →
    G.slot d' j = G.slot d j ∧ (G.slot d' j).owned d' = (G.slot d j).owned d
  owned : (G.slot d' dir).owned d' = (G.slot d dir).directs
    (DiskInode.countDataBlock (32 * ((G.node d dir).data.length / 32 - 1)))
  used : ∀ b, G.InPool b → G.used d' b = (!decide (b ∈ (G.slot d dir).droppedBlocks
    (32 * ((G.node d dir).data.length / 32 - 1))) && G.used d b)
  tails : Tails G d → Tails G d'

theorem Deleted.live_eq (h : Deleted G d d' dir i k) {j : ℕ} (hj : j < G.slots) :
    G.live d' j = if j = k then false else G.live d j := by
  rw [← image_live hj, h.image, Image.delete, Image.live_setData]
  by_cases hjk : j = k
  · rw [hjk, Image.live_setLive_same, if_pos rfl]
  · rw [Image.live_setLive_other _ hjk, if_neg hjk, image_live hj]

/-- The bytes of the directory after the write, up to the last entry. -/
theorem Written.removed {d₂ : Disk} (h : Listed G d dir i k name) (hm : Marked G d d₁ k false)
    (hcore : Core G (G.slot d) d) (hdir : dir < G.slots)
    (hwr : Written d₁ d₂ (G.slot d dir) (32 * i)
      (entryAt (G.node d dir).data ((G.node d dir).data.length / 32 - 1)).asBytes)
    {p : ℕ} (hp : p < 32 * ((G.node d dir).data.length / 32 - 1)) :
    (G.slot d dir).byteAt d₂ p = (removeEntry (G.node d dir).data i).getD p 0 := by
  have hsize := h.size_eq
  have hle := size_le_leaves (G.slot d dir)
  have hdata : (G.slot d dir).data d₁ = (G.node d dir).data := by
    have hnode := congrArg Node.data (hm.node_eq hcore hdir)
    rwa [Geometry.node, hm.slot_eq hdir] at hnode
  have hps : p < (G.slot d dir).size := by omega
  rw [hwr.byte p (by omega), getD_removeEntry hp, DirEntry.length_asBytes, ← getD_data hps, hdata]

/-- The bytes of the directory after the write and the shrinking. -/
theorem Shrunk.data {d₂ : Disk} {ino' : DiskInode} (h : Listed G d dir i k name)
    (hm : Marked G d d₁ k false) (hcore : Core G (G.slot d) d) (hdir : dir < G.slots)
    (hwr : Written d₁ d₂ (G.slot d dir) (32 * i)
      (entryAt (G.node d dir).data ((G.node d dir).data.length / 32 - 1)).asBytes)
    (hs : Shrunk G dir (G.slot d) d₂ (32 * ((G.node d dir).data.length / 32 - 1)) ino' d') :
    ino'.data d' = removeEntry (G.node d dir).data i := by
  have hle := size_le_leaves ino'
  rw [DiskInode.leafCount, hs.size] at hle
  apply eq_of_getD 0
  · rw [length_data, length_removeEntry h.lt, hs.size]
  intro p hp
  rw [length_data, hs.size] at hp
  rw [getD_data (by rw [hs.size]; exact hp), hs.bytes p (by omega),
    Written.removed h hm hcore hdir hwr hp]

theorem Written.used_eq {buf : List UInt8} (hcore : Core G tab d) (hid : id < G.slots)
    (h : Written d d' (tab id) off buf) {b : ℕ} (hb : G.InPool b) : G.used d' b = G.used d b := by
  refine Geometry.used_congr (fun c hc => h.frame c fun l hl heq => ?_) hb
  have hleaf := leaf_mem_owned (d := d) (hcore.top id hid) hl
  rw [← heq] at hleaf
  exact Geometry.not_inBitmap_of_inPool (hcore.used id hid c hleaf).1 hc

theorem Marked.used_eq {v : Bool} (h : Marked G d d' id v) {b : ℕ} (hb : G.InPool b) :
    G.used d' b = G.used d b :=
  Geometry.used_congr (fun c hc => h.frame c fun hi => hi.outside.2.1 hc) hb

theorem Deleted.of_steps {d₂ d₃ : Disk} {ino' : DiskInode} (h : Listed G d dir i k name)
    (hcore : Core G (G.slot d) d) (hdir : dir < G.slots) (hm : Marked G d d₁ k false)
    (hc : Changes G dir (G.slot d) d₁ (G.slot d) d₂)
    (hwr : Written d₁ d₂ (G.slot d dir) (32 * i)
      (entryAt (G.node d dir).data ((G.node d dir).data.length / 32 - 1)).asBytes)
    (hs : Shrunk G dir (G.slot d) d₂ (32 * ((G.node d dir).data.length / 32 - 1)) ino' d₃)
    (hst : Stored G dir d₃ ino' d') : Deleted G d d' dir i k := by
  have hcore₁ := hm.core hcore
  have htable : Core G (G.slot d) d₁ := hm.table_eq ▸ hcore₁
  have hchanges := hc.trans htable hs.changes
  rw [← hm.table_eq] at hchanges
  have hstep := hst.stepped hcore₁ hchanges
  have hback := hst.owned hchanges hdir
  refine ⟨hstep.core, ?_, ?_, ?_, ?_, ?_, ?_⟩
  · intro b hb
    rw [hstep.outside b hb.2.1 hb.2.2.1 hb.2.2.2, hm.frame b hb.1]
  · have hdata : (G.slot d' dir).data d' = removeEntry (G.node d dir).data i := by
      rw [← Shrunk.data h hm hcore hdir hwr hs, hst.slot]
      exact data_congr rfl fun p hp => hback.2 p (lt_of_lt_of_le hp (size_le_leaves _))
    have hkind : (G.slot d' dir).kind = (G.slot d dir).kind := by rw [hst.slot, hs.kind]
    rw [hstep.image_eq hcore₁ hdir, hm.image_eq hcore (lt_slots_of_live h.live), Image.delete,
      Image.setData, Image.node_setLive, image_node hdir, Geometry.node, hkind, hdata]
    rfl
  · intro j hj hne
    have hslot := hstep.same j hj hne
    have howned := (hcore₁.owned_congr hj (hstep.keep j hj hne)).1
    have howned₁ := (hcore.owned_congr hj fun b hb => hm.frame b fun hi =>
      hi.outside.2.2 (hcore.used j hj b hb).1).1
    rw [hm.slot_eq hj] at hslot howned
    exact ⟨hslot, by rw [hslot, howned, howned₁]⟩
  · rw [hst.slot, hback.1, hs.owned]
  · intro b hb
    rw [Geometry.used_congr (fun c hcb => hst.frame c hcb.not_inArea) hb, hs.used b hb,
      hwr.used_eq htable hdir hb, hm.used_eq hb]
  · intro ht
    refine (hm.tails hcore ht).step hcore₁ hstep fun hkind => ?_
    rw [hst.slot, hs.kind, show (G.slot d dir).kind = .directory from h.directory] at hkind
    exact absurd hkind (by simp)

/-- **`delete`** in a directory that needs no index tree afterwards.  Behind the end of the directory the
loop reads an empty name, which must not be the one looked for. -/
theorem delete_listed (hcore : Core G (G.slot d) d) (hdir : dir < G.slots)
    (h : Listed G d dir i k name) (hsmall : (G.node d dir).data.length / 32 ≤ 433)
    (hname : name = "" → i + 1 = (G.node d dir).data.length / 32) :
    dwp ((G.handle dir).delete G.fs name) [] d (fun _ d' => Deleted G d d' dir i k)
      fun _ => False := by
  have hsize := h.size_eq
  have hlt := h.lt
  have hheld := aside_slot hdir
  have harea := (Geometry.pos_inArea hdir).outside
  refine wp_delete hcore hdir h ?_
  intro d₁ d₂ hm hc hwr
  have hdirect : DiskInode.countDataBlock (32 * ((G.node d dir).data.length / 32 - 1)) ≤
      directCount := by
    rw [DiskInode.countDataBlock, blockSize, directCount]
    omega
  refine wp_mono (shrink_spec hc.core hdir hheld (by omega) hdirect) ?_ fun _ h => h
  intro ino' d₃ hs
  have hok := hs.changes.core.inodeOk hdir hheld
  have hfits := hs.changes.core.fits dir hdir
  rw [Function.update_self] at hok hfits
  refine ⟨hok, ?_, ?_, Deleted.of_steps h hcore hdir hm hc hwr hs (Stored.put hdir hfits)⟩
  · intro j hij hj
    rw [Passes, Shrunk.data h hm hcore hdir hwr hs, hs.size]
    rcases Nat.lt_or_ge j ((G.node d dir).data.length / 32 - 1) with hlast | hlast
    · rw [entryAt_removeEntry hlt hlast (by omega)]
      exact Or.inl ⟨by omega, h.other hj (by omega)⟩
    · refine Or.inr ⟨by omega, fun hempty => ?_⟩
      have := hname hempty
      omega
  · rw [hs.changes.outside _ harea.2.1 harea.2.2, hc.outside _ harea.2.1 harea.2.2,
      hm.frame _ harea.1]

theorem delete_op (hcore : Core G (G.slot d) d) (hdir : dir < G.slots)
    (h : Names G d dir i k name) (hsmall : (G.node d dir).data.length / 32 ≤ 433) :
    dwp ((G.handle dir).delete G.fs name) [] d (fun _ d' => Deleted G d d' dir i k)
      fun _ => False :=
  delete_listed hcore hdir h.listed hsmall fun hempty => absurd hempty h.nonempty

end LemonCore.EasyFs
