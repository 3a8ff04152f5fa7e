import LemonCore.EasyFs.Contents

/-!
# Directories

The bytes of a directory are entries of `DIRENT_SIZE` bytes one after the other.

* `entries`: the entries in a byte vector, and how they change when entries are appended, replaced or
  cut off;
* `lookup`: the inode number of the first entry with a name;
* `findInodeId_spec`: `find_inode_id` is `lookup`.
-/

namespace LemonCore.EasyFs

open Foundation.BorrowProgram Foundation.Overwrite

/-- Entry number `i` of a directory with the bytes `v`. -/
def entryAt (v : List UInt8) (i : ℕ) : DirEntry :=
  .ofBytes ((v.drop (direntSize * i)).take direntSize)

/-- The entries of a directory with the bytes `v`. -/
def entries (v : List UInt8) : List DirEntry := (List.range (v.length / direntSize)).map (entryAt v)

/-- The inode number of the first entry with a name. -/
def lookup (name : String) (es : List DirEntry) : Option ℕ :=
  (es.find? fun e => e.name? = some name).map DirEntry.inodeNumber

/-! ### Entries -/

variable {v w : List UInt8} {i j : ℕ} {e : DirEntry}

@[simp] theorem length_entries (v : List UInt8) : (entries v).length = v.length / 32 := by
  rw [entries, List.length_map, List.length_range, direntSize]

@[simp] theorem entries_nil : entries [] = [] := rfl

theorem getElem_entries (h : i < (entries v).length) : (entries v)[i] = entryAt v i := by
  simp [entries]

theorem getD_slice {k : ℕ} (hk : k < 32) :
    ((v.drop (direntSize * i)).take direntSize).getD k 0 = v.getD (32 * i + k) 0 := by
  rw [direntSize]
  simp [List.getD, hk]

theorem entryAt_congr (h : ∀ k, k < 32 → v.getD (32 * i + k) 0 = w.getD (32 * j + k) 0)
    (hv : 32 * i + 32 ≤ v.length) (hw : 32 * j + 32 ≤ w.length) : entryAt v i = entryAt w j := by
  have hlen : ∀ (u : List UInt8) (m : ℕ), 32 * m + 32 ≤ u.length →
      ((u.drop (direntSize * m)).take direntSize).length = 32 := by
    intro u m hu
    rw [List.length_take, List.length_drop, direntSize]
    omega
  refine congrArg DirEntry.ofBytes (eq_of_getD 0 ?_ ?_)
  · rw [hlen v i hv, hlen w j hw]
  · intro k hk
    rw [hlen v i hv] at hk
    rw [getD_slice hk, getD_slice hk, h k hk]

theorem entryAt_asBytes : entryAt e.asBytes 0 = e := by
  rw [entryAt, Nat.mul_zero, List.drop_zero, List.take_of_length_le, DirEntry.ofBytes_asBytes]
  rw [e.length_asBytes, direntSize]

theorem entryAt_eq (h : ∀ k, k < 32 → v.getD (32 * i + k) 0 = e.asBytes.getD k 0)
    (hv : 32 * i + 32 ≤ v.length) : entryAt v i = e := by
  rw [← entryAt_asBytes (e := e)]
  refine entryAt_congr ?_ hv (by rw [e.length_asBytes])
  intro k hk
  rw [h k hk, Nat.mul_zero, Nat.zero_add]

theorem entries_eq {es : List DirEntry} (hlen : v.length / 32 = es.length)
    (h : ∀ i (hi : i < es.length), entryAt v i = es[i]) : entries v = es := by
  apply List.ext_getElem
  · rw [length_entries, hlen]
  · intro i h1 h2
    rw [getElem_entries, h i h2]

theorem entries_append (h : 32 ∣ v.length) (e : DirEntry) :
    entries (v ++ e.asBytes) = entries v ++ [e] := by
  have he := e.length_asBytes
  apply entries_eq
  · rw [List.length_append, List.length_append, length_entries, he, List.length_singleton]
    omega
  intro i hi
  rw [List.length_append, length_entries, List.length_singleton] at hi
  rcases Nat.lt_or_ge i (v.length / 32) with hlt | hge
  · rw [List.getElem_append_left (by rw [length_entries]; exact hlt), getElem_entries]
    refine entryAt_congr ?_ (by rw [List.length_append]; omega) (by omega)
    intro k hk
    rw [List.getD_append _ _ _ _ (by omega)]
  · rw [List.getElem_append_right (by rw [length_entries]; exact hge), List.getElem_singleton]
    refine entryAt_eq ?_ (by rw [List.length_append]; omega)
    intro k hk
    rw [List.getD_append_right _ _ _ _ (by omega)]
    congr 1
    omega

theorem entries_overwrite (hi : i < v.length / 32) (e : DirEntry) :
    entries (overwrite 0 v (32 * i) e.asBytes) = (entries v).set i e := by
  have he := e.length_asBytes
  have hlen : (overwrite 0 v (32 * i) e.asBytes).length = v.length := by
    rw [length_overwrite, he]
    omega
  apply entries_eq
  · rw [hlen, List.length_set, length_entries]
  intro j hj
  rw [List.length_set, length_entries] at hj
  rw [List.getElem_set]
  split
  · rename_i heq
    subst heq
    refine entryAt_eq ?_ (by rw [hlen]; omega)
    intro k hk
    rw [getD_overwrite, if_pos (by omega), Nat.add_sub_cancel_left]
  · rename_i hne
    rw [getElem_entries]
    refine entryAt_congr ?_ (by rw [hlen]; omega) (by omega)
    intro k hk
    rw [getD_overwrite, if_neg (by omega)]

theorem entries_take {n : ℕ} (hn : 32 * n ≤ v.length) :
    entries (v.take (32 * n)) = (entries v).take n := by
  have hlen : (v.take (32 * n)).length = 32 * n := by
    rw [List.length_take]
    omega
  apply entries_eq
  · rw [hlen, List.length_take, length_entries]
    omega
  intro j hj
  rw [List.length_take, length_entries] at hj
  rw [List.getElem_take, getElem_entries]
  refine entryAt_congr ?_ (by rw [hlen]; omega) (by omega)
  intro k hk
  simp [List.getD, show 32 * j + k < 32 * n by omega]

theorem entries_overwrite_two (a b : DirEntry) (h : 32 ∣ v.length) :
    entries (overwrite 0 v 0 (a.asBytes ++ b.asBytes)) = a :: b :: (entries v).drop 2 := by
  have ha := a.length_asBytes
  have hb := b.length_asBytes
  have hlen : (overwrite 0 v 0 (a.asBytes ++ b.asBytes)).length = max v.length 64 := by
    rw [length_overwrite, List.length_append, ha, hb]
  have hget : ∀ p, (overwrite 0 v 0 (a.asBytes ++ b.asBytes)).getD p 0 =
      if p < 64 then (a.asBytes ++ b.asBytes).getD p 0 else v.getD p 0 := by
    intro p
    rw [getD_overwrite, List.length_append, ha, hb, Nat.sub_zero]
    simp
  apply entries_eq
  · rw [hlen, List.length_cons, List.length_cons, List.length_drop, length_entries]
    omega
  intro j hj
  rw [List.length_cons, List.length_cons, List.length_drop, length_entries] at hj
  rcases j with _ | _ | j
  · show entryAt _ 0 = a
    refine entryAt_eq ?_ (by omega)
    intro k hk
    rw [hget, if_pos (by omega), List.getD_append _ _ _ _ (by omega), Nat.mul_zero, Nat.zero_add]
  · show entryAt _ 1 = b
    refine entryAt_eq ?_ (by omega)
    intro k hk
    rw [hget, if_pos (by omega), List.getD_append_right _ _ _ _ (by omega)]
    congr 1
    omega
  · have hjd : j < ((entries v).drop 2).length := by
      rw [List.length_drop, length_entries]
      omega
    show _ = ((entries v).drop 2)[j]
    rw [List.getElem_drop, getElem_entries, Nat.add_comm 2 j]
    refine entryAt_congr ?_ (by omega) (by omega)
    intro k hk
    rw [hget, if_neg (by omega)]

/-! ### Looking up a name -/

variable {name : String} {es es' : List DirEntry}

theorem lookup_cons (e : DirEntry) (es : List DirEntry) : lookup name (e :: es) =
    if e.name? = some name then some e.inodeNumber else lookup name es := by
  rw [lookup, List.find?_cons]
  split
  · rename_i h
    rw [if_pos (of_decide_eq_true h)]
    rfl
  · rename_i h
    rw [if_neg (of_decide_eq_false h)]
    rfl

theorem lookup_append (es es' : List DirEntry) :
    lookup name (es ++ es') = (lookup name es).or (lookup name es') := by
  induction es with
  | nil => rfl
  | cons e es ih =>
    rw [List.cons_append, lookup_cons, lookup_cons, ih]
    split
    · rfl
    · rfl

theorem lookup_eq_none : lookup name es = none ↔ ∀ e ∈ es, e.name? ≠ some name := by
  rw [lookup, Option.map_eq_none_iff, List.find?_eq_none]
  simp

theorem lookup_mem {id : ℕ} (h : lookup name es = some id) :
    ∃ e ∈ es, e.name? = some name ∧ e.inodeNumber = id := by
  rw [lookup, Option.map_eq_some_iff] at h
  obtain ⟨e, he, hid⟩ := h
  have hname := List.find?_some he
  exact ⟨e, List.mem_of_find?_eq_some he, by simpa using hname, hid⟩

theorem lookup_of_mem (hnd : (es.map DirEntry.name?).Nodup) {e : DirEntry} (he : e ∈ es)
    (hname : e.name? = some name) : lookup name es = some e.inodeNumber := by
  induction es with
  | nil => exact absurd he List.not_mem_nil
  | cons c es ih =>
    rw [List.map_cons, List.nodup_cons] at hnd
    rw [lookup_cons]
    rcases List.mem_cons.mp he with heq | hmem
    · subst heq
      rw [if_pos hname]
    · rw [if_neg, ih hnd.2 hmem]
      intro hc
      exact hnd.1 (List.mem_map.mpr ⟨e, hmem, hname.trans hc.symm⟩)

/-! ### `find_inode_id` -/

variable {d : Disk} {held : List ℕ} {ino : DiskInode}

theorem ofBytes_bytes (h : 32 * i + 32 ≤ ino.size) :
    DirEntry.ofBytes (ino.bytes d (direntSize * i) 32) = entryAt (ino.data d) i := by
  rw [bytes_eq_data (show direntSize * i + 32 ≤ ino.size from h)]
  rfl

theorem findFrom_spec (hok : InodeOk d held ino) (hlen : held.length < blockCacheSize)
    (is : List ℕ) : ∀ buf : List UInt8, buf.length = 32 → (∀ i ∈ is, 32 * i + 32 ≤ ino.size) →
      dwp (findFrom name ino buf is) held d
        (fun r d' => d' = d ∧ r = lookup name (is.map (entryAt (ino.data d))))
        fun _ => ¬ ∀ i ∈ is, (entryAt (ino.data d) i).name?.isSome := by
  induction is with
  | nil =>
    intro buf _ _
    exact wp_pure'.mpr ⟨rfl, rfl⟩
  | cons i is ih =>
    intro buf hbuf his
    have hi := his i List.mem_cons_self
    have hmin : min buf.length (ino.size - direntSize * i) = 32 := by
      rw [direntSize]
      omega
    rw [findFrom]
    refine wp_bind'.mpr (wp_mono (readAt_spec hok hlen (direntSize * i) buf) ?_ fun _ h => h.elim)
    rintro o d' ⟨hd, hcount, hbytes⟩
    subst hd
    rw [hmin] at hcount hbytes
    rw [List.drop_eq_nil_of_le (by omega), List.append_nil] at hbytes
    obtain ⟨n, buf'⟩ := o
    simp only at hcount hbytes
    subst hcount hbytes
    refine wp_bind'.mpr (wp_assert rfl ?_)
    refine wp_bind'.mpr ?_
    rw [direntName, ofBytes_bytes hi, List.map_cons, lookup_cons]
    cases hn : (entryAt (ino.data d') i).name? with
    | none =>
      refine wp_panic.mpr fun hall => ?_
      have := hall i List.mem_cons_self
      rw [hn] at this
      exact absurd this (by simp)
    | some s =>
      refine wp_pure'.mpr ?_
      by_cases hs : s = name
      · rw [if_pos hs, if_pos (by rw [hs])]
        exact wp_pure'.mpr ⟨rfl, rfl⟩
      · rw [if_neg hs, if_neg (by simpa using hs)]
        refine wp_mono (ih _ (DiskInode.length_bytes _ _) fun j hj =>
          his j (List.mem_cons_of_mem _ hj)) (fun _ _ h => h) ?_
        exact fun _ h hall => h fun j hj => hall j (List.mem_cons_of_mem _ hj)

/-- **Lookup.**  `find_inode_id` finds the first entry with the name; it panics on what is no
directory, and on an entry whose name is not UTF-8. -/
theorem findInodeId_spec (hok : InodeOk d held ino) (hlen : held.length < blockCacheSize)
    (name : String) :
    dwp (findInodeId name ino) held d
      (fun r d' => d' = d ∧ ino.kind = .directory ∧ r = lookup name (entries (ino.data d)))
      fun _ => ¬ (ino.kind = .directory ∧ ∀ e ∈ entries (ino.data d), e.name?.isSome) := by
  rw [findInodeId]
  refine wp_bind'.mpr ?_
  by_cases hkind : ino.kind = .directory
  · refine wp_assert (by rw [DiskInode.isDir, hkind]; rfl) ?_
    refine wp_mono (findFrom_spec hok hlen _ _ DirEntry.empty.length_asBytes ?_) ?_ ?_
    · intro i hi
      have := List.mem_range.mp hi
      rw [direntSize] at this
      omega
    · rintro r d' ⟨hd, hr⟩
      refine ⟨hd, hkind, ?_⟩
      rw [hr, entries, length_data]
    · rintro _ h ⟨_, hall⟩
      apply h
      intro i hi
      apply hall
      rw [entries, length_data]
      exact List.mem_map.mpr ⟨i, hi, rfl⟩
  · have hdir : ¬ ino.isDir = true := by
      rw [DiskInode.isDir]
      simpa using hkind
    rw [Prog.assert, if_neg hdir]
    exact wp_panic.mpr fun h => hkind h.1

end LemonCore.EasyFs
