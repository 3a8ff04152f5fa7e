import Mathlib
import LemonCore.EasyFs.InodeTree

/-!
# What is stored is read back

The records of the file system survive their way through the bytes of a block: disk inodes
(`ofBlock_store_same`, `ofBlock_store_other`), the super block (`ofBlock_init`) and directory entries
(`ofBytes_asBytes`).

A name is stored as its UTF-8 bytes padded with zeros and read up to the first zero, so what comes
back is the name up to its first NUL (`cutNul`), the whole name when it has none.
-/

namespace LemonCore.EasyFs

open Foundation.LittleEndian Foundation.BorrowProgram

/-! ### Disk inodes -/

namespace DiskInode

variable {x : Block} {off : ℕ} {ino : DiskInode}

theorem ofBlock_fits (x : Block) (off : ℕ) : (ofBlock x off).Fits :=
  ⟨x.u32_lt _, fun _ => x.u32_lt _, x.u32_lt _, x.u32_lt _, x.u32_lt _⟩

theorem byte_store {p : ℕ} (hp : p < 512) :
    (store x off ino).byte p = if p = off then ino.kind.toByte
      else if off + 4 ≤ p ∧ p < off + 128 then leByte (ino.word ((p - off) / 4)) ((p - off) % 4)
      else x.byte p := by
  rw [store, Block.byte_build _ hp]

theorem u32_store {j : ℕ} (ino : DiskInode) (hoff : off + 128 ≤ 512) (h1 : 1 ≤ j)
    (h2 : j < 32) : (store x off ino).u32 (off + 4 * j) = ino.word j % 2 ^ 32 := by
  rw [Block.u32]
  refine leNat_of_bytes _ 4 _ _ fun i hi => ?_
  rw [byte_store (by omega), if_neg (by omega), if_pos (by omega),
    show (off + 4 * j + i - off) / 4 = j by omega, show (off + 4 * j + i - off) % 4 = i by omega]

theorem ofByte_toByte (k : DiskInodeKind) : DiskInodeKind.ofByte k.toByte = k := by
  cases k <;> decide

/-- **Read after write** of a disk inode. -/
theorem ofBlock_store_same (hoff : off + 128 ≤ 512)
    (hfit : ino.Fits) : ofBlock (store x off ino) off = ino := by
  have hword : ∀ j, 1 ≤ j → j < 32 → ino.word j < 2 ^ 32 →
      (store x off ino).u32 (off + 4 * j) = ino.word j := fun j h1 h2 h => by
    rw [u32_store ino hoff h1 h2, Nat.mod_eq_of_lt h]
  ext i
  · show DiskInodeKind.ofByte ((store x off ino).byte off) = _
    rw [byte_store (by omega), if_pos rfl, ofByte_toByte]
  · exact hword 1 (by omega) (by omega) hfit.size
  · have hi : i.val < 27 := i.isLt
    have hw : ino.word (2 + i.val) = ino.direct i := by
      rw [word, dif_pos (by omega)]
      congr 1
      exact Fin.ext (by show 2 + i.val - 2 = i.val; omega)
    have := hword (2 + i.val) (by omega) (by omega) (by rw [hw]; exact hfit.direct i)
    rw [hw, show off + 4 * (2 + i.val) = off + (8 + 4 * i.val) by omega] at this
    exact this
  · exact hword 29 (by omega) (by omega) hfit.indirect1
  · exact hword 30 (by omega) (by omega) hfit.indirect2
  · exact hword 31 (by omega) (by omega) hfit.indirect3

/-- **Frame.**  The other records of the block are unchanged. -/
theorem ofBlock_store_other {off' : ℕ} (ino : DiskInode) (hoff' : off' + 128 ≤ 512)
    (hdis : off + 128 ≤ off' ∨ off' + 128 ≤ off) :
    ofBlock (store x off ino) off' = ofBlock x off' := by
  have hbyte : ∀ q, q < 128 → (store x off ino).byte (off' + q) = x.byte (off' + q) := by
    intro q hq
    rw [byte_store (by omega), if_neg (by omega), if_neg (by omega)]
  have hword : ∀ q, q + 4 ≤ 128 → (store x off ino).u32 (off' + q) = x.u32 (off' + q) := by
    intro q hq
    refine leNat_congr fun i hi => ?_
    rw [Nat.add_assoc]
    exact hbyte (q + i) (by omega)
  ext i
  · show DiskInodeKind.ofByte ((store x off ino).byte (off' + 0)) = _
    rw [hbyte 0 (by omega)]
    rfl
  · exact hword 4 (by omega)
  · have hi : i.val < 27 := i.isLt
    exact hword (8 + 4 * i.val) (by omega)
  · exact hword 116 (by omega)
  · exact hword 120 (by omega)
  · exact hword 124 (by omega)

theorem ofBlock_zero (off : ℕ) : ofBlock Block.zero off = ⟨.file, 0, fun _ => 0, 0, 0, 0⟩ := by
  rw [ofBlock]
  simp [DiskInodeKind.ofByte]

theorem init_fits (h : ino.Fits) (kind : DiskInodeKind) : (ino.init kind).Fits :=
  ⟨by show 0 < 2 ^ 32; norm_num, fun _ => by show 0 < 2 ^ 32; norm_num,
    by show 0 < 2 ^ 32; norm_num, by show 0 < 2 ^ 32; norm_num, h.indirect3⟩

end DiskInode

/-! ### The super block -/

/-- The super block that `init` leaves is valid and has the numbers it was given. -/
theorem SuperBlock.ofBlock_init (x : Block) {total inodeBitmap inodeArea dataBitmap dataArea : ℕ}
    (h1 : total < 2 ^ 32) (h2 : inodeBitmap < 2 ^ 32) (h3 : inodeArea < 2 ^ 32)
    (h4 : dataBitmap < 2 ^ 32) (h5 : dataArea < 2 ^ 32) :
    SuperBlock.ofBlock (SuperBlock.init x total inodeBitmap inodeArea dataBitmap dataArea) =
      ⟨efsMagic, total, inodeBitmap, inodeArea, dataBitmap, dataArea⟩ := by
  have h0 : efsMagic < 2 ^ 32 := by decide
  rw [SuperBlock.ofBlock, SuperBlock.init]
  simp (disch := omega) only [Block.u32_setU32_same, Block.u32_setU32_other]

/-! ### Names -/

theorem strBytes_eq_flatMap (s : String) : strBytes s = s.toList.flatMap String.utf8EncodeChar := by
  rw [strBytes, ← String.utf8Encode_toList]
  simp [List.utf8Encode]

theorem fromUTF8_eq_some {l : List UInt8} {s : String} :
    String.fromUTF8? ⟨l.toArray⟩ = some s ↔ l = strBytes s := by
  rw [String.fromUTF8?]
  constructor
  · intro h
    split at h
    · rw [← Option.some.inj h]
      rfl
    · cases h
  · rintro rfl
    have hb : (⟨(strBytes s).toArray⟩ : ByteArray) = s.toByteArray := rfl
    rw [dif_pos (hb ▸ s.isValidUTF8)]
    rfl

/-- The name up to its first NUL. -/
def cutNul (s : String) : String := String.ofList (s.toList.takeWhile (· ≠ Char.ofNat 0))

theorem utf8EncodeChar_ne_zero {c : Char} (hc : c ≠ Char.ofNat 0) :
    ∀ b ∈ String.utf8EncodeChar c, b ≠ 0 := by
  have hv : c.val.toNat ≠ 0 := fun h => hc (Char.ext (UInt32.toNat_inj.mp h))
  have hbyte : ∀ n : ℕ, n % 256 ≠ 0 → UInt8.ofNat n ≠ 0 := by
    intro n hn heq
    have := congrArg UInt8.toNat heq
    simp [UInt8.toNat_ofNat'] at this
    omega
  intro b hb
  rw [String.utf8EncodeChar] at hb
  split at hb
  · simp only [List.mem_singleton] at hb
    subst hb
    exact hbyte _ (by omega)
  split at hb
  · simp only [List.mem_cons, List.not_mem_nil, or_false] at hb
    rcases hb with rfl | rfl <;> exact hbyte _ (by omega)
  split at hb
  · simp only [List.mem_cons, List.not_mem_nil, or_false] at hb
    rcases hb with rfl | rfl | rfl <;> exact hbyte _ (by omega)
  · simp only [List.mem_cons, List.not_mem_nil, or_false] at hb
    rcases hb with rfl | rfl | rfl | rfl <;> exact hbyte _ (by omega)

theorem strBytes_cutNul (s : String) : strBytes (cutNul s) = (strBytes s).takeWhile (· ≠ 0) := by
  rw [strBytes_eq_flatMap, strBytes_eq_flatMap, cutNul, String.toList_ofList]
  induction s.toList with
  | nil => rfl
  | cons c cs ih =>
    rw [List.flatMap_cons]
    by_cases hc : c = Char.ofNat 0
    · subst hc
      rfl
    · have hne := utf8EncodeChar_ne_zero hc
      rw [List.takeWhile_cons_of_pos (by simpa using hc), List.flatMap_cons, ih,
        List.takeWhile_append_of_pos (by simpa using hne)]

theorem cutNul_of_nulFree {s : String} (h : Char.ofNat 0 ∉ s.toList) : cutNul s = s := by
  have htake : s.toList.takeWhile (· ≠ Char.ofNat 0) = s.toList := by
    rw [List.takeWhile_eq_self_iff]
    intro c hc
    exact decide_eq_true fun heq => h (heq ▸ hc)
  rw [cutNul, htake, String.ofList_toList]

/-! ### Directory entries -/

theorem takeWhile_append_zeros (l : List UInt8) (n : ℕ) :
    (l ++ List.replicate n 0).takeWhile (· ≠ 0) = l.takeWhile (· ≠ 0) := by
  induction l with
  | nil => cases n <;> rfl
  | cons b l ih =>
    rw [List.cons_append, List.takeWhile_cons, List.takeWhile_cons, ih]

namespace DirEntry

theorem length_asBytes (e : DirEntry) : e.asBytes.length = 32 := by
  simp [asBytes, e.name_length, nameLengthLimit]

/-- **Read after write** of a directory entry. -/
theorem ofBytes_asBytes (e : DirEntry) : ofBytes e.asBytes = e := by
  have hlen : e.name.length = 28 := e.name_length
  ext1
  · refine List.ext_getElem (by simp [ofBytes, hlen, nameLengthLimit]) fun i h1 h2 => ?_
    simp only [ofBytes, asBytes, List.getElem_map, List.getElem_range]
    rw [List.getD_append _ _ _ _ h2, List.getD_eq_getElem _ _ h2]
  · show leNat (fun i => e.asBytes.getD i 0) 4 28 = e.inodeNumber
    have hmod : e.inodeNumber % 256 ^ 4 = e.inodeNumber := Nat.mod_eq_of_lt e.inodeNumber_lt
    rw [leNat_of_bytes _ 4 28 e.inodeNumber, hmod]
    intro i hi
    rw [asBytes, List.getD_append_right _ _ _ _ (by omega), hlen, Nat.add_sub_cancel_left,
      List.getD_eq_getElem _ _ (by simpa using hi)]
    simp

theorem name?_eq_some {e : DirEntry} {s : String} : e.name? = some s ↔ e.nameBytes = strBytes s :=
  fromUTF8_eq_some

theorem mod_word_lt (n : ℕ) : n % 2 ^ 32 < 2 ^ 32 := Nat.mod_lt n (by decide)

/-- The entry for `name`, cut to the bytes an entry has room for. -/
def make (name : String) (inodeNumber : ℕ) : DirEntry where
  name := (strBytes name ++ List.replicate (nameLengthLimit + 1) 0).take (nameLengthLimit + 1)
  inodeNumber := inodeNumber % 2 ^ 32
  name_length := by simp
  inodeNumber_lt := mod_word_lt inodeNumber

theorem new_eq {name : String} (hname : (strBytes name).length ≤ nameLengthLimit + 1) (id : ℕ) :
    new name id = pure (make name id) := by
  rw [new, dif_pos hname]
  congr 1
  ext1
  · show _ = (strBytes name ++ List.replicate (nameLengthLimit + 1) 0).take (nameLengthLimit + 1)
    rw [List.take_append, List.take_of_length_le hname, List.take_replicate,
      Nat.min_eq_left (Nat.sub_le _ _)]
  · rfl

/-- **Names read back.**  The entry for a name that fits has that name up to its first NUL. -/
theorem name?_make {name : String} (hname : (strBytes name).length ≤ nameLengthLimit + 1) (id : ℕ) :
    (make name id).name? = some (cutNul name) := by
  rw [name?_eq_some, nameBytes, strBytes_cutNul]
  show ((strBytes name ++ List.replicate (nameLengthLimit + 1) 0).take _).takeWhile _ = _
  rw [List.take_append, List.take_of_length_le hname, List.take_replicate]
  exact takeWhile_append_zeros _ _

end DirEntry

end LemonCore.EasyFs
