import LemonCore.EasyFs.Links
import LemonCore.Kernel.Descriptors

/-!
# Calls on files (`kernel/src/syscall/fs.rs`, `kernel/src/fs/inode.rs`)

* `sysUnlink`, `sysMkdir`, `readSlices`, `writeSlices`: the code, next to `openFile`;
* `live_walk`: a path that `get_full_path` has made has no dot components, so it leads to an allocated inode;
* `Kept`: `open_file` and `sys_mkdir` free no inode;
* `Freed`: `sys_unlink` frees at most the inode that the path leads to;
* `readSlices_spec`, `WroteOnly`: reading returns bytes of the inode, and writing changes no other one.

A call that panics is left open here; all is about calls that return.
-/

namespace LemonCore.Kernel.OpenFiles

open EasyFs Descriptors Paths Foundation.BorrowProgram Foundation.LexicalPaths

variable {parent path target : String}

/-! ### The code -/

def atRemovedir : ℕ := 1

/-- The end of `sys_unlink`: the inode is emptied, and its entry deleted. -/
def removeLink (fs : EasyFileSystem) (parentInode inode : Inode) (target : String) : DiskProg ℤ := do
  inode.clear fs
  parentInode.delete fs target
  pure 0

/-- `sys_unlink`, on a path that `get_full_path` has made. -/
def sysUnlink (fs : EasyFileSystem) (path : String) (flags : ℕ) : DiskProg ℤ :=
  match rsplitOnce path with
  | none => .panic .unwrap
  | some (parentPath, target) => do
    match ← Paths.find fs parentPath with
    | none => pure (-1)
    | some parentInode => do
      match ← parentInode.find fs target with
      | none => pure (-1)
      | some inode =>
        if flags &&& atRemovedir = atRemovedir then do
          let isDir ← inode.isDir
          if isDir then do
            let fileSize ← inode.fileSize
            if fileSize = direntSize * 2 then removeLink fs parentInode inode target
            else pure (-3)
          else pure (-2)
        else do
          let isDir ← inode.isDir
          if isDir then pure (-2) else removeLink fs parentInode inode target

/-- `sys_mkdir`, on a path that `get_full_path` has made. -/
def sysMkdir (fs : EasyFileSystem) (path : String) : DiskProg ℤ :=
  match rsplitOnce path with
  | none => .panic .unwrap
  | some (parentPath, target) => do
    match ← Paths.find fs parentPath with
    | none => pure (-1)
    | some parentInode => do
      let inode ← parentInode.createDir fs target
      pure (if inode.isSome then 0 else -2)

/-- `OSInode::read`: the number of bytes, the new offset and the buffers after it. -/
def readSlices (inode : Inode) : ℕ → List (List UInt8) → DiskProg (ℕ × ℕ × List (List UInt8))
  | offset, [] => pure (0, offset, [])
  | offset, slice :: slices => do
    let (readSize, slice) ← inode.readAt offset slice
    if readSize = 0 then pure (0, offset, slice :: slices)
    else do
      let (total, offset, slices) ← readSlices inode (offset + readSize) slices
      pure (readSize + total, offset, slice :: slices)

/-- `OSInode::write`: the number of bytes and the new offset. -/
def writeSlices (fs : EasyFileSystem) (inode : Inode) : ℕ → List (List UInt8) → DiskProg (ℕ × ℕ)
  | offset, [] => pure (0, offset)
  | offset, slice :: slices => do
    let writeSize ← inode.writeAt fs offset slice
    Prog.assert (writeSize = slice.length) .assertion
    let (total, offset) ← writeSlices fs inode (offset + writeSize) slices
    pure (writeSize + total, offset)

/-! ### Paths without dots -/

/-- No component is a dot entry. -/
def Clean (names : List String) : Prop := ∀ c ∈ names, c ≠ "." ∧ c ≠ ".."

theorem clean_getFullPath (cwd path : String) : Clean (split (getFullPath cwd path)) := by
  intro c hc
  rw [getFullPath] at hc
  generalize (if isAbsolute path then path else cwd ++ "/" ++ path) = resolved at hc
  rw [split_join fun part => not_mem_normalized] at hc
  rcases List.mem_cons.mp hc with heq | hc
  · rw [heq]
    decide
  split at hc
  · rw [List.mem_singleton.mp hc]
    decide
  · obtain ⟨hskip, hup⟩ := plain_foldl_push _ [] (fun _ hno => absurd hno List.not_mem_nil) c hc
    exact ⟨fun heq => hskip (Or.inr heq), hup⟩

theorem rsplitOnce_spec (h : rsplitOnce path = some (parent, target)) :
    path = parent ++ "/" ++ target ∧ '/' ∉ target.toList := by
  rw [rsplitOnce] at h
  have happend := List.takeWhile_append_dropWhile (p := fun c => decide (c ≠ '/')) (l := path.toList.reverse)
  have hmem : '/' ∉ path.toList.reverse.takeWhile fun c => decide (c ≠ '/') := by
    intro hmem
    simpa using List.mem_takeWhile_imp hmem
  generalize hdrop : path.toList.reverse.dropWhile (fun c => decide (c ≠ '/')) = rest at h happend
  generalize path.toList.reverse.takeWhile (fun c => decide (c ≠ '/')) = last at h happend hmem
  cases rest with
  | nil => cases h
  | cons x rest =>
    cases h
    have hx : x = '/' := by
      have := List.head?_dropWhile_not (fun c => decide (c ≠ '/')) path.toList.reverse
      rw [hdrop] at this
      simpa using this
    subst hx
    refine ⟨?_, ?_⟩
    · apply String.toList_injective
      rw [String.toList_append, String.toList_append, String.toList_ofList, String.toList_ofList,
        ← List.reverse_reverse path.toList, ← happend, List.reverse_append, List.reverse_cons]
      simp
    · rw [String.toList_ofList, List.mem_reverse]
      exact hmem

theorem split_rsplitOnce (h : rsplitOnce path = some (parent, target)) :
    split path = split parent ++ [target] := by
  obtain ⟨hpath, hslash⟩ := rsplitOnce_spec h
  have hone : split target = [target] := by
    have hparts : ∀ part ∈ [target.toList], '/' ∉ part := by simpa using hslash
    rw [split, show target.toList = ['/'].intercalate [target.toList] by simp,
      List.splitOn_intercalate '/' hparts (List.cons_ne_nil _ _)]
    simp
  rw [hpath, split_append, hone]

theorem mem_of_rsplitOnce (h : rsplitOnce path = some (parent, target))
    {x : Char} (hx : x ∈ target.toList) : x ∈ path.toList := by
  rw [(rsplitOnce_spec h).1, String.toList_append]
  exact List.mem_append_right _ hx

variable {G : Geometry} {d d' : Disk} {n k dir : ℕ} {path target : String}

theorem live_walk (h : Orderly G d) : ∀ (names : List String) (id : ℕ), Clean names →
    (G.image d).live id = true → names.foldlM (edge (G.image d)) id = some k →
    (G.image d).live k = true := by
  intro names
  induction names with
  | nil =>
    intro id _ hid hk
    cases hk
    exact hid
  | cons name names ih =>
    intro id hclean hid hk
    rw [List.foldlM_cons, Option.bind_eq_bind, Option.bind_eq_some_iff] at hk
    obtain ⟨j, hj, hk⟩ := hk
    refine ih j (fun c hc => hclean c (List.mem_cons_of_mem _ hc)) ?_ hk
    obtain ⟨hdot, hdotdot⟩ := hclean name List.mem_cons_self
    rw [edge] at hj
    split at hj
    · cases hj
      exact hid
    split at hj
    · rename_i hdir
      exact (h.links.child ⟨hdir, hdot, hdotdot, hj⟩).1
    · cases hj

theorem wellFormed_of_orderly (h : Orderly G d) : WellFormed G d :=
  ⟨h.kempt.sound.core, h.kempt.sound.decodes, h.refers⟩

/-! ### What the calls do -/

/-- The inode that a path leads to. -/
def Leads (G : Geometry) (d : Disk) (path : String) (n : ℕ) : Prop :=
  (split path).foldlM (edge (G.image d)) 0 = some n

theorem find_spec (h : Orderly G d) (hclean : Clean (split path)) :
    dwp (Paths.find G.fs path) [] d (fun r d' => d' = d ∧
      ∀ i, r = some i → ∃ n, i = G.handle n ∧ Leads G d path n ∧ (G.image d).live n = true)
      fun _ => True := by
  refine wp_mono (findFrom_spec (wellFormed_of_orderly h) (split path) 0 G.slots_pos) ?_ fun _ _ => trivial
  rintro r d' ⟨hd, _, hr⟩
  refine ⟨hd, fun i hi => ?_⟩
  rw [hi] at hr
  obtain ⟨n, hn, heq⟩ := Option.map_eq_some_iff.mp hr.symm
  exact ⟨n, heq.symm, hn, live_walk h _ 0 hclean h.links.root hn⟩

theorem run_reply {α : Type} {p : DiskProg α} {a : α} (f : α → EasyFs.Reply)
    (h : drun p [] d = .ok (a, d')) : drun (p >>= fun a => pure (f a)) [] d = .ok (f a, d') := by
  rw [drun, show (p >>= fun a => pure (f a)) = p.bind fun a => pure (f a) from rfl, run_bind]
  show andThen (drun p [] d) _ = _
  rw [h]
  rfl

/-- No inode has been freed. -/
structure Kept (G : Geometry) (d d' : Disk) : Prop where
  orderly : Orderly G d'
  live : ∀ j, (G.image d).live j = true → (G.image d').live j = true

theorem kept_of_make {kind : DiskInodeKind} {r : Option Inode} (h : Orderly G d)
    (hlive : (G.image d).live dir = true) (hnul : Char.ofNat 0 ∉ target.toList)
    (hrun : drun ((Call.make kind (G.handle dir) target).prog G.fs) [] d = .ok (.inode r, d')) :
    Kept G d d' ∧ ∀ i, r = some i → ∃ n, i = G.handle n ∧ (G.image d').live n = true := by
  obtain ⟨ho, hkeep, hnew⟩ := h.make hlive hnul hrun
  refine ⟨⟨ho, hkeep⟩, fun i hi => hnew i ?_⟩
  rw [hi]
  exact List.mem_singleton_self i

theorem create_keeps (h : Orderly G d) (hlive : (G.image d).live dir = true)
    (hnul : Char.ofNat 0 ∉ target.toList) :
    dwp ((G.handle dir).create G.fs target) [] d (fun r d' => Kept G d d' ∧
      ∀ i, r = some i → ∃ n, i = G.handle n ∧ (G.image d').live n = true) fun _ => True :=
  wp_of_result (fun _ => trivial) fun _ _ hrun =>
    kept_of_make h hlive hnul (show drun ((Call.make .file (G.handle dir) target).prog G.fs) [] d = _ from
      run_reply .inode hrun)

theorem createDir_keeps (h : Orderly G d) (hlive : (G.image d).live dir = true)
    (hnul : Char.ofNat 0 ∉ target.toList) :
    dwp ((G.handle dir).createDir G.fs target) [] d (fun _ d' => Kept G d d') fun _ => True :=
  wp_of_result (fun _ => trivial) fun _ _ hrun =>
    (kept_of_make h hlive hnul (show drun ((Call.make .directory (G.handle dir) target).prog G.fs) [] d = _
      from run_reply .inode hrun)).1

theorem clear_keeps (h : Orderly G d) (hlive : (G.image d).live n = true) :
    dwp ((G.handle n).clear G.fs) [] d (fun _ d' => Kept G d d' ∧ G.image d' = (G.image d).clear n)
      fun _ => True := by
  refine wp_of_result (fun _ => trivial) fun _ d' hrun => ?_
  obtain ⟨ho, himage⟩ := h.clear hlive (run_reply (fun _ => .unit) hrun)
  exact ⟨⟨ho, fun j hj => by rw [himage]; exact hj⟩, himage⟩

theorem Kept.refl (h : Orderly G d) : Kept G d d := ⟨h, fun _ hj => hj⟩

theorem clean_rsplitOnce (h : rsplitOnce path = some (parent, target))
    (hclean : Clean (split path)) : Clean (split parent) ∧ target ≠ "." ∧ target ≠ ".." := by
  rw [split_rsplitOnce h] at hclean
  exact ⟨fun c hc => hclean c (List.mem_append_left _ hc),
    hclean target (List.mem_append_right _ List.mem_cons_self)⟩

theorem clearWhen_keeps (h : Orderly G d) (hlive : (G.image d).live n = true) (c : Prop) [Decidable c]
    {o : Opened} (ho : o.inode = G.handle n) :
    dwp (if c then do
        let _ ← (G.handle n).clear G.fs
        pure (some o)
      else pure (some o)) [] d
      (fun r d' => Kept G d d' ∧
        ∀ o, r = some o → ∃ n, o.inode = G.handle n ∧ (G.image d').live n = true) fun _ => True := by
  split
  · refine wp_bind'.mpr (wp_mono (clear_keeps h hlive) ?_ fun _ _ => trivial)
    rintro _ d' ⟨hkept, _⟩
    refine wp_pure'.mpr ⟨hkept, fun o' ho' => ?_⟩
    cases ho'
    exact ⟨n, ho, hkept.live n hlive⟩
  · refine wp_pure'.mpr ⟨.refl h, fun o' ho' => ?_⟩
    cases ho'
    exact ⟨n, ho, hlive⟩

/-- **`open_file`** frees no inode and returns a handle of an allocated one. -/
theorem openFile_keeps (h : Orderly G d) (hclean : Clean (split path)) (hnul : Char.ofNat 0 ∉ path.toList)
    (flags : OpenFlags) :
    dwp (openFile G.fs path flags) [] d (fun r d' => Kept G d d' ∧
      ∀ o, r = some o → ∃ n, o.inode = G.handle n ∧ (G.image d').live n = true) fun _ => True := by
  have hparent : ∃ parent target, (rsplitOnce path).getD ("", path) = (parent, target) ∧
      Clean (split parent) ∧ Char.ofNat 0 ∉ target.toList := by
    cases hsplit : rsplitOnce path with
    | none =>
      refine ⟨"", path, rfl, fun c hc => ?_, hnul⟩
      rw [List.mem_singleton.mp (show c ∈ [""] from hc)]
      decide
    | some r =>
      exact ⟨r.1, r.2, rfl, (clean_rsplitOnce hsplit hclean).1, fun hx => hnul (mem_of_rsplitOnce hsplit hx)⟩
  obtain ⟨parent, target, hpair, hclean', hnul'⟩ := hparent
  rw [openFile]
  split
  · refine wp_bind'.mpr (wp_mono (find_spec h hclean) ?_ fun _ _ => trivial)
    rintro r d₁ ⟨hd, hr⟩
    subst hd
    cases r with
    | some i =>
      obtain ⟨n, hi, _, hlive⟩ := hr i rfl
      subst hi
      exact wp_bind'.mpr (wp_readSlot (wp_pure'.mpr (clearWhen_keeps h hlive _ rfl)))
    | none =>
      rw [hpair]
      refine wp_bind'.mpr (wp_mono (find_spec h hclean') ?_ fun _ _ => trivial)
      rintro r d₁ ⟨hd, hr⟩
      subst hd
      cases r with
      | none => exact wp_pure'.mpr ⟨.refl h, fun o ho => by cases ho⟩
      | some i =>
        obtain ⟨n, hi, _, hlive⟩ := hr i rfl
        subst hi
        refine wp_bind'.mpr (wp_mono (create_keeps h hlive hnul') ?_ fun _ _ => trivial)
        rintro r d' ⟨hkept, hnew⟩
        refine wp_pure'.mpr ⟨hkept, fun o ho => ?_⟩
        obtain ⟨i, hi, heq⟩ := Option.map_eq_some_iff.mp ho
        subst heq
        exact hnew i hi
  · refine wp_bind'.mpr (wp_mono (find_spec h hclean) ?_ fun _ _ => trivial)
    rintro r d₁ ⟨hd, hr⟩
    subst hd
    cases r with
    | none => exact wp_pure'.mpr ⟨.refl h, fun o ho => by cases ho⟩
    | some i =>
      obtain ⟨n, hi, _, hlive⟩ := hr i rfl
      subst hi
      exact clearWhen_keeps h hlive _ rfl

/-- **`sys_mkdir`** frees no inode. -/
theorem sysMkdir_keeps (h : Orderly G d) (hclean : Clean (split path)) (hnul : Char.ofNat 0 ∉ path.toList) :
    dwp (sysMkdir G.fs path) [] d (fun _ d' => Kept G d d') fun _ => True := by
  rw [sysMkdir]
  cases hsplit : rsplitOnce path with
  | none => exact wp_panic.mpr trivial
  | some r =>
    obtain ⟨parent, target⟩ := r
    refine wp_bind'.mpr (wp_mono (find_spec h (clean_rsplitOnce hsplit hclean).1) ?_ fun _ _ => trivial)
    rintro r d₁ ⟨hd, hr⟩
    subst hd
    cases r with
    | none => exact wp_pure'.mpr (.refl h)
    | some i =>
      obtain ⟨n, hi, _, hlive⟩ := hr i rfl
      subst hi
      refine wp_bind'.mpr (wp_mono (createDir_keeps h hlive fun hx => hnul (mem_of_rsplitOnce hsplit hx))
        ?_ fun _ _ => trivial)
      exact fun _ d' hkept => wp_pure'.mpr hkept

/-! ### Unlinking -/

/-- The entry that `sys_unlink` looks for: the path leads to inode `k`, which directory `dir` lists under
the name `target`. -/
structure Unlinks (G : Geometry) (d : Disk) (path : String) (dir : ℕ) (target : String) (k : ℕ) : Prop where
  parent : ∃ parent, rsplitOnce path = some (parent, target) ∧ Leads G d parent dir
  directory : (G.node d dir).kind = .directory
  look : (G.image d).look dir target = some k

/-- Inode `k` has been freed, and no other one. -/
structure Freed (G : Geometry) (d d' : Disk) (k : ℕ) : Prop where
  orderly : Orderly G d'
  live : ∀ j, j ≠ k → (G.image d).live j = true → (G.image d').live j = true

theorem removeLink_frees (h : Orderly G d) (hdir : (G.image d).live dir = true)
    (hl : (G.image d).Lists dir target k) (hname : target ≠ "")
    (hsmall : (entries (G.node d dir).data).length ≤ 433) :
    dwp (removeLink G.fs (G.handle dir) (G.handle k) target) [] d (fun _ d' => Freed G d d' k)
      fun _ => True := by
  have hdlt := lt_slots_of_live hdir
  obtain ⟨hlive, _, hne⟩ := h.links.child hl
  refine wp_bind'.mpr (wp_mono (clear_keeps h hlive) ?_ fun _ _ => trivial)
  rintro _ d₁ ⟨⟨ho, hlive₁⟩, himage⟩
  have hnode : G.node d₁ dir = G.node d dir := by
    rw [← image_node hdlt, himage, Image.clear, Image.node_setData_other _ hne, image_node hdlt]
  have hok : DeleteOk G d₁ dir target := by
    refine ⟨?_, hname, by rw [hnode]; exact hsmall, k, ?_, hlive₁ k hlive⟩
    · rw [hnode, ← image_node hdlt]
      exact hl.directory
    · rw [hnode, ← image_node hdlt]
      exact hl.look
  obtain ⟨i, k', hn⟩ := hok.names ho.kempt hdlt
  have hk : k' = k := by
    have hlook := hn.lookup_eq
    rw [hnode, ← image_node hdlt] at hlook
    exact Option.some.inj (hlook.symm.trans hl.look)
  subst hk
  have hsmall₁ := hok.small
  rw [length_entries] at hsmall₁
  refine wp_bind'.mpr (wp_mono (delete_op ho.kempt.sound.core hdlt hn hsmall₁) ?_ fun _ _ => trivial)
  intro _ d' hd
  refine wp_pure'.mpr ⟨ho.delete hdlt hn hl.ne_dot hl.ne_dotdot hd, ?_⟩
  intro j hj hjl
  rw [hd.image, Image.delete, Image.live_setData, Image.live_setLive_other _ hj]
  exact hlive₁ j hjl

/-- **`sys_unlink`** frees at most the inode that the path leads to. -/
theorem sysUnlink_frees (h : Orderly G d) (hclean : Clean (split path)) (flags : ℕ)
    (hok : ∀ dir target k, Unlinks G d path dir target k →
      target ≠ "" ∧ (entries (G.node d dir).data).length ≤ 433) :
    dwp (sysUnlink G.fs path flags) [] d (fun _ d' => Kept G d d' ∨
      ∃ dir target k, Unlinks G d path dir target k ∧ Freed G d d' k) fun _ => True := by
  rw [sysUnlink]
  cases hsplit : rsplitOnce path with
  | none => exact wp_panic.mpr trivial
  | some r =>
    obtain ⟨parent, target⟩ := r
    obtain ⟨hclean', hdot, hdotdot⟩ := clean_rsplitOnce hsplit hclean
    refine wp_bind'.mpr (wp_mono (find_spec h hclean') ?_ fun _ _ => trivial)
    rintro r d₁ ⟨hd, hr⟩
    subst hd
    cases r with
    | none => exact wp_pure'.mpr (Or.inl (.refl h))
    | some i =>
      obtain ⟨dir, hi, hleads, hlive⟩ := hr i rfl
      subst hi
      have hdlt := lt_slots_of_live hlive
      refine wp_bind'.mpr ?_
      cases hkind : (G.node d₁ dir).kind with
      | file => exact wp_mono (find_file hkind target) (fun _ _ hno => hno.elim) fun _ _ => trivial
      | directory =>
        refine wp_mono (find_directory (wellFormed_of_orderly h) hdlt hkind target) ?_ fun _ _ => trivial
        rintro r d₂ ⟨hd, hr⟩
        subst hd
        cases hlook : (G.image d₂).look dir target with
        | none =>
          rw [hlook] at hr
          subst hr
          exact wp_pure'.mpr (Or.inl (.refl h))
        | some k =>
          rw [hlook] at hr
          subst hr
          have hunlinks : Unlinks G d₂ path dir target k := ⟨⟨parent, hsplit, hleads⟩, hkind, hlook⟩
          obtain ⟨hname, hsmall⟩ := hok dir target k hunlinks
          have hlists : (G.image d₂).Lists dir target k :=
            ⟨by rw [image_node hdlt]; exact hkind, hdot, hdotdot, hlook⟩
          have hremove := wp_mono (removeLink_frees h hlive hlists hname hsmall)
            (fun _ d' hfreed => (Or.inr ⟨dir, target, k, hunlinks, hfreed⟩ : Kept G d₂ d' ∨
              ∃ dir target k, Unlinks G d₂ path dir target k ∧ Freed G d₂ d' k)) fun _ he => he
          have hrest : Kept G d₂ d₂ ∨ ∃ dir target k, Unlinks G d₂ path dir target k ∧ Freed G d₂ d₂ k :=
            Or.inl (.refl h)
          show dwp (if flags &&& atRemovedir = atRemovedir then _ else _) [] d₂ _ _
          split
          · refine wp_bind'.mpr (wp_readSlot (wp_pure'.mpr ?_))
            split
            · refine wp_bind'.mpr (wp_readSlot (wp_pure'.mpr ?_))
              split
              · exact hremove
              · exact wp_pure'.mpr hrest
            · exact wp_pure'.mpr hrest
          · refine wp_bind'.mpr (wp_readSlot (wp_pure'.mpr ?_))
            split
            · exact wp_pure'.mpr hrest
            · exact hremove

/-! ### Reading and writing -/

/-- What `OSInode::read` returns for a file with the bytes `v`. -/
def sliceBytes (v : List UInt8) : ℕ → List (List UInt8) → ℕ × ℕ × List (List UInt8)
  | offset, [] => (0, offset, [])
  | offset, slice :: slices =>
    let r := readResult v offset slice
    if r.1 = 0 then (0, offset, r.2 :: slices)
    else
      let rest := sliceBytes v (offset + r.1) slices
      (r.1 + rest.1, rest.2.1, r.2 :: rest.2.2)

/-- **`OSInode::read`** returns bytes of its inode. -/
theorem readSlices_spec (h : Core G (G.slot d) d) (hn : n < G.slots) :
    ∀ (slices : List (List UInt8)) (offset : ℕ),
    dwp (readSlices (G.handle n) offset slices) [] d
      (fun r d' => d' = d ∧ r = sliceBytes (G.node d n).data offset slices) fun _ => False := by
  intro slices
  induction slices with
  | nil => exact fun offset => wp_pure'.mpr ⟨rfl, rfl⟩
  | cons slice slices ih =>
    intro offset
    refine wp_bind'.mpr (wp_mono (readAt_op h hn offset slice) ?_ fun _ hno => hno)
    rintro r d' ⟨hd, hr⟩
    subst hd hr
    rw [sliceBytes]
    show dwp (if (readResult (G.node d' n).data offset slice).1 = 0 then _ else _) [] d' _ _
    split
    · exact wp_pure'.mpr ⟨rfl, rfl⟩
    · refine wp_bind'.mpr (wp_mono (ih _) ?_ fun _ hno => hno)
      rintro r d'' ⟨hd, hr⟩
      subst hd hr
      exact wp_pure'.mpr ⟨rfl, rfl⟩

/-- Nothing has changed but the bytes of inode `n`. -/
structure WroteOnly (G : Geometry) (d d' : Disk) (n : ℕ) : Prop extends Kept G d d' where
  node : ∀ j, j ≠ n → (G.image d').node j = (G.image d).node j

theorem writeAt_wroteOnly (h : Orderly G d) (hlive : (G.image d).live n = true) {off : ℕ} {buf : List UInt8}
    (hbuf : buf ≠ []) (hmax : off + buf.length ≤ maxFileSize) :
    dwp ((G.handle n).writeAt G.fs off buf) [] d (fun _ d' => WroteOnly G d d' n) fun _ => True := by
  refine wp_of_result (fun _ => trivial) fun _ d' hrun => ?_
  obtain ⟨ho, v, himage⟩ := h.write hlive ⟨hbuf, hmax⟩ (run_reply .count hrun)
  refine ⟨⟨ho, fun j hj => by rw [himage]; exact hj⟩, fun j hj => ?_⟩
  rw [himage, Image.node_setNode_other _ hj]

/-- **`OSInode::write`** changes bytes of its inode only. -/
theorem writeSlices_wroteOnly : ∀ (slices : List (List UInt8)) (offset : ℕ) (d : Disk), Orderly G d →
    (G.image d).live n = true → (∀ slice ∈ slices, slice ≠ []) →
    offset + slices.flatten.length ≤ maxFileSize →
    dwp (writeSlices G.fs (G.handle n) offset slices) [] d (fun _ d' => WroteOnly G d d' n)
      fun _ => True := by
  intro slices
  induction slices with
  | nil => exact fun offset d h _ _ _ => wp_pure'.mpr ⟨.refl h, fun _ _ => rfl⟩
  | cons slice slices ih =>
    intro offset d h hlive hne hmax
    rw [List.flatten_cons, List.length_append] at hmax
    refine wp_bind'.mpr (wp_mono (writeAt_wroteOnly h hlive (hne slice List.mem_cons_self) (by omega)) ?_
      fun _ _ => trivial)
    intro size d₁ hw
    refine wp_bind'.mpr (wp_assert_any (fun _ => trivial) fun hsize => ?_)
    subst hsize
    refine wp_bind'.mpr (wp_mono (ih _ d₁ hw.orderly (hw.live n hlive)
      (fun s hs => hne s (List.mem_cons_of_mem _ hs)) (by omega)) ?_ fun _ _ => trivial)
    intro _ d' hw'
    refine wp_pure'.mpr ⟨⟨hw'.orderly, fun j hj => hw'.live j (hw.live j hj)⟩, fun j hj => ?_⟩
    rw [hw'.node j hj, hw.node j hj]

end LemonCore.Kernel.OpenFiles
