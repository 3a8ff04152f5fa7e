import LemonCore.Kernel.PageTables

/-!
# The entries of a page table

`PageTables` says to which frame a page is mapped.  Here is the whole entry: the frame and the flags.

* `PageTable.entry`: the valid entry of a page, if there is one;
* `map_entry`, `unmap_entry`: `map` and `unmap` change the entry of one page;
* `MapRun`: a new table under any sequence of `map` and `unmap`, while others use other frames;
* `page_table_refines`: such a table is a finite map from page numbers to frames and flags;
* `MapRun.findPte_isSome`: which pages have a last-level table.
-/

namespace LemonCore.Kernel.Mm

open Foundation.SharedHeap Foundation.RadixTree

/-! ### Flags -/

/-- `PTEFlags::R`, `W`, `X` and `U`. -/
def pteR : ℕ := 2

def pteW : ℕ := 4

def pteX : ℕ := 8

def pteU : ℕ := 16

/-- `PageTableEntry::flags`: every byte is a set of flags, so the `unwrap` in it does not fail. -/
def pteFlags (bits : ℕ) : ℕ := bits % 2 ^ 8

theorem pteFlags_pteNew {ppn flags : ℕ} (h : flags < 2 ^ 8) : pteFlags (pteNew ppn flags) = flags := by
  have hlow : (ppn <<< 10) % 2 ^ 64 % 2 ^ 8 = 0 := by
    rw [Nat.shiftLeft_eq]
    omega
  rw [pteFlags, pteNew, Nat.or_mod_two_pow, hlow, Nat.zero_or, Nat.mod_eq_of_lt h]

namespace PageTable

variable {pt pt' : PageTable} {p p' : Phys} {vpn v t : ℕ}

/-! ### Entries -/

/-- An entry that is valid. -/
def validEntry (bits : ℕ) : Option ℕ := if isValid bits then some bits else none

/-- The valid entry of a page. -/
def entry (pt : PageTable) (p : Phys) (vpn : ℕ) : Option ℕ := (pt.translate p vpn).bind validEntry

theorem entry_eq_some {e : ℕ} :
    pt.entry p vpn = some e ↔ pt.translate p vpn = some e ∧ isValid e = true := by
  rw [entry, Option.bind_eq_some_iff]
  constructor
  · rintro ⟨bits, htr, hvalid⟩
    rw [validEntry] at hvalid
    split at hvalid
    · obtain rfl := Option.some.inj hvalid
      exact ⟨htr, by assumption⟩
    · cases hvalid
  · rintro ⟨htr, hvalid⟩
    exact ⟨e, htr, if_pos hvalid⟩

theorem entry_of_findPte (h : pt.findPte p vpn = some t) :
    pt.entry p vpn = validEntry (p.memory t (lastIndex vpn)) := by
  rw [entry, translate, h]
  rfl

theorem entry_of_findPte_none (h : pt.findPte p vpn = none) : pt.entry p vpn = none := by
  rw [entry, translate, h]
  rfl

theorem leaf_eq_entry (pt : PageTable) (p : Phys) (vpn : ℕ) :
    pt.leaf p vpn = (pt.entry p vpn).map ptePpn := by
  rw [leaf_eq_translate, entry]
  cases pt.translate p vpn with
  | none => rfl
  | some bits =>
    show (if isValid bits then some (ptePpn bits) else none) = (validEntry bits).map ptePpn
    rw [validEntry]
    split <;> rfl

theorem label_of_findPte {label : ℕ → Option (List ℕ)} (hl : Labelled (descend p.memory) pt.rootPpn 3 label)
    (h : pt.findPte p vpn = some t) : label t = some (indexes vpn).reverse := by
  rw [findPte_eq] at h
  simpa using walk_label hl _ hl.root (by simp [indexes]) h

/-- What happens to frames that are not tables of `pt` does not change its walks. -/
theorem findPte_congr (ht : pt.Tables p) (h : ∀ f ∈ pt.metadataFrames, p'.memory f = p.memory f)
    (vpn : ℕ) : pt.findPte p' vpn = pt.findPte p vpn := by
  obtain ⟨label, hl, hin⟩ := ht.labelled
  rw [findPte_eq, findPte_eq]
  apply walk_congr hl 2 _ (by omega) _ hl.root
  · simp [indexes]
  · intro t q hq _
    exact descend_congr (h t (hin t (by simp [hq])))

theorem entry_congr (ht : pt.Tables p) (h : ∀ f ∈ pt.metadataFrames, p'.memory f = p.memory f)
    (vpn : ℕ) : pt.entry p' vpn = pt.entry p vpn := by
  obtain ⟨label, hl, hin⟩ := ht.labelled
  have hfind := findPte_congr ht h vpn
  cases hf : pt.findPte p vpn with
  | none => rw [entry_of_findPte_none (hfind.trans hf), entry_of_findPte_none hf]
  | some t =>
    have hlab := label_of_findPte hl hf
    rw [entry_of_findPte (hfind.trans hf), entry_of_findPte hf, h t (hin t (by simp [hlab]))]

/-- A new table lets more walks end, if it is a last-level table: those that go through the entry it hangs
from, and they end at it. -/
theorem findPte_alloc (ht : pt.Tables p) {is : List ℕ} (his : is.length < 2)
    (hw : walk (descend p.memory) pt.rootPpn is = some t) {i g : ℕ} {p₁ : Phys}
    (hinv : isValid (p.memory t i) = false) (ha : p.alloc = some (g, p₁)) (v : ℕ) :
    pt.findPte (p₁.setWord t i (pteNew g pteV)) v = pt.findPte p v ∨
      (pt.findPte p v = none ∧ pt.findPte (p₁.setWord t i (pteNew g pteV)) v = some g ∧
        indexes v = is ++ [i]) := by
  obtain ⟨label, hl, _, hlab, hgl, hfree, hptr⟩ := ht.grow_alloc his hw hinv ha
  have hor := walk_grow_or hl hlab hgl hfree (indexes v) hl.root (by simp [indexes])
  rw [← hptr, ← findPte_eq pt (p₁.setWord t i (pteNew g pteV)), ← findPte_eq pt p] at hor
  rcases hor with hsame | ⟨hnone, hg⟩
  · exact Or.inl hsame
  · refine Or.inr ⟨hnone, hg, ?_⟩
    -- the new table has one label, which is the way to it
    have hlabelled := hl.grow (i := i) hlab hgl
    rw [← hptr] at hlabelled
    have hlabel := label_of_findPte hlabelled hg
    rw [Function.update_self, Option.some.injEq, ← List.reverse_concat, List.reverse_inj] at hlabel
    exact hlabel.symm

theorem entry_alloc (ht : pt.Tables p) {is : List ℕ} (his : is.length < 2)
    (hw : walk (descend p.memory) pt.rootPpn is = some t) {i g : ℕ} {p₁ : Phys}
    (hinv : isValid (p.memory t i) = false) (ha : p.alloc = some (g, p₁)) (v : ℕ) :
    { pt with metadataFrames := pt.metadataFrames ++ [g] }.entry (p₁.setWord t i (pteNew g pteV)) v =
      pt.entry p v := by
  obtain ⟨hnew, _, _, hmem⟩ := Phys.alloc_spec ha
  obtain ⟨label, hl, hin⟩ := ht.labelled
  have hlab : label t = some is.reverse := by
    simpa using walk_label hl is hl.root (by simpa using Nat.lt_succ_of_lt his) hw
  have htm : t ∈ pt.metadataFrames := hin t (by simp [hlab])
  have htg : t ≠ g := fun heq => ht.fresh hnew (heq ▸ metadata_mem htm)
  have hfind : ({ pt with metadataFrames := pt.metadataFrames ++ [g] } : PageTable).findPte
      (p₁.setWord t i (pteNew g pteV)) v = pt.findPte (p₁.setWord t i (pteNew g pteV)) v := rfl
  rcases findPte_alloc ht his hw hinv ha v with hsame | ⟨hnone, hg, _⟩
  · rw [hsame] at hfind
    cases hf : pt.findPte p v with
    | none => rw [entry_of_findPte_none (hfind.trans hf), entry_of_findPte_none hf]
    | some t' =>
      -- the last-level tables that were there keep their words
      have hlab' := label_of_findPte hl hf
      have ht't : t' ≠ t := by
        intro heq
        rw [heq, hlab] at hlab'
        have hlen := congrArg List.length (Option.some.inj hlab')
        simp [indexes] at hlen
        omega
      have ht'g : t' ≠ g := fun heq => ht.fresh hnew (heq ▸ metadata_mem (hin t' (by simp [hlab'])))
      have hsame : (p₁.setWord t i (pteNew g pteV)).memory t' = p.memory t' := by
        simp [Phys.setWord, hmem, ht't, ht'g]
      rw [entry_of_findPte (hfind.trans hf), entry_of_findPte hf, hsame]
  · have hzero : (p₁.setWord t i (pteNew g pteV)).memory g = fun _ => 0 := by
      simp [Phys.setWord, hmem, htg.symm]
    rw [entry_of_findPte (hfind.trans hg), entry_of_findPte_none hnone, hzero]
    rfl

theorem entry_descendThenAlloc (ht : pt.Tables p) {is : List ℕ} (his : is.length < 2) {c i : ℕ}
    (hw : walk (descend p.memory) pt.rootPpn is = some t)
    (h : descendThenAlloc (t, pt, p) i = some (c, pt', p')) (v : ℕ) : pt'.entry p' v = pt.entry p v := by
  rcases descendThenAlloc_cases h with ⟨_, _, rfl, rfl⟩ | ⟨g, p₁, hv, ha, _, rfl, rfl⟩
  · rfl
  · exact entry_alloc ht his hw hv ha v

theorem entry_findPteThenAlloc (ht : pt.Tables p) (h : pt.findPteThenAlloc p vpn = some (t, pt', p'))
    (v : ℕ) : pt'.entry p' v = pt.entry p v := by
  obtain ⟨i₁, i₂, t₁, pt₁, p₁, _, h₁, h₂⟩ := findPteThenAlloc_cases h
  have hw₀ : walk (descend p.memory) pt.rootPpn [] = some pt.rootPpn := rfl
  obtain ⟨hg₁, hr₁, hw₁⟩ := descendThenAlloc_spec ht (by simp) hw₀ h₁
  rw [← hr₁] at hw₁
  rw [entry_descendThenAlloc hg₁.tables (by simp) hw₁ h₂ v, entry_descendThenAlloc ht (by simp) hw₀ h₁ v]

theorem findPte_setWord (ht : pt.Tables p) {w : ℕ} (hf : pt.findPte p vpn = some t) (v : ℕ) :
    pt.findPte (p.setWord t (lastIndex vpn) w) v = pt.findPte p v := by
  obtain ⟨label, hl, _⟩ := ht.labelled
  have hlab := label_of_findPte hl hf
  rw [findPte_eq, findPte_eq]
  apply walk_congr hl 2 _ (by omega) _ hl.root
  · simp [indexes]
  · intro s q hq hlt
    have hst : s ≠ t := by
      intro heq
      rw [heq, hlab] at hq
      have hlen := congrArg List.length (Option.some.inj hq)
      simp [indexes] at hlen
      omega
    apply descend_congr
    simp [Phys.setWord, hst]

theorem entry_setWord (ht : pt.Tables p) {w : ℕ} (hf : pt.findPte p vpn = some t) (v : ℕ) :
    pt.entry (p.setWord t (lastIndex vpn) w) v =
      if indexes v = indexes vpn ∧ lastIndex v = lastIndex vpn then validEntry w else pt.entry p v := by
  obtain ⟨label, hl, hin⟩ := ht.labelled
  have hlab := label_of_findPte hl hf
  have hsame : ∀ f, f ≠ t → (p.setWord t (lastIndex vpn) w).memory f = p.memory f := by
    intro f hft
    simp [Phys.setWord, hft]
  have hfind := findPte_setWord ht (w := w) hf v
  cases hfv : pt.findPte p v with
  | none =>
    have hne : ¬ (indexes v = indexes vpn ∧ lastIndex v = lastIndex vpn) := by
      rintro ⟨hidx, _⟩
      rw [findPte, hidx] at hfv
      rw [findPte, hfv] at hf
      cases hf
    rw [if_neg hne, entry_of_findPte_none (hfind.trans hfv), entry_of_findPte_none hfv]
  | some t' =>
    rw [entry_of_findPte (hfind.trans hfv), entry_of_findPte hfv]
    by_cases ht' : t' = t
    · have hidx : indexes v = indexes vpn := by
        have hlab' := label_of_findPte hl hfv
        rw [ht', hlab] at hlab'
        exact (List.reverse_inj.mp (Option.some.inj hlab')).symm
      by_cases hlast : lastIndex v = lastIndex vpn
      · rw [if_pos ⟨hidx, hlast⟩, ht', hlast]
        simp [Phys.setWord]
      · rw [if_neg fun hboth => hlast hboth.2, ht']
        simp [Phys.setWord, hlast]
    · have hne : ¬ (indexes v = indexes vpn ∧ lastIndex v = lastIndex vpn) := by
        rintro ⟨hidx, _⟩
        rw [findPte, hidx] at hfv
        rw [findPte, hfv] at hf
        exact ht' (Option.some.inj hf)
      rw [if_neg hne, hsame t' ht']

/-- **The entries after `map`.** -/
theorem map_entry (ht : pt.Tables p) {ppn flags : ℕ} (h : pt.map p vpn ppn flags = some (pt', p'))
    (v : ℕ) : pt'.entry p' v =
      if indexes v = indexes vpn ∧ lastIndex v = lastIndex vpn then some (pteNew ppn (flags ||| pteV))
      else pt.entry p v := by
  obtain ⟨t, p₁, hx, _, rfl⟩ := map_cases h
  obtain ⟨hg, hfind⟩ := findPteThenAlloc_spec ht hx
  rw [entry_setWord hg.tables hfind, entry_findPteThenAlloc ht hx, validEntry,
    if_pos (isValid_mapped ppn flags)]

/-- **The entries after `unmap`.** -/
theorem unmap_entry (ht : pt.Tables p) (h : pt.unmap p vpn = some p') (v : ℕ) :
    pt.entry p' v =
      if indexes v = indexes vpn ∧ lastIndex v = lastIndex vpn then none else pt.entry p v := by
  obtain ⟨t, hfind, rfl⟩ := unmap_cases h
  exact entry_setWord ht hfind v

theorem unmap_isSome_iff (pt : PageTable) (p : Phys) (vpn : ℕ) :
    (pt.unmap p vpn).isSome ↔ (pt.entry p vpn).isSome := by
  rw [unmap]
  cases hfind : pt.findPte p vpn with
  | none => rw [entry_of_findPte_none hfind]; simp
  | some t =>
    rw [entry_of_findPte hfind, validEntry]
    simp only [Option.bind_eq_bind, Option.bind_some]
    split <;> simp

/-! ### Which walks end -/

theorem findPte_descendThenAlloc (ht : pt.Tables p) {is : List ℕ} (his : is.length < 2) {c i : ℕ}
    (hw : walk (descend p.memory) pt.rootPpn is = some t)
    (h : descendThenAlloc (t, pt, p) i = some (c, pt', p')) (v : ℕ) :
    pt'.findPte p' v = pt.findPte p v ∨
      (pt.findPte p v = none ∧ (pt'.findPte p' v).isSome ∧ indexes v = is ++ [i]) := by
  rcases descendThenAlloc_cases h with ⟨_, _, rfl, rfl⟩ | ⟨g, p₁, hv, ha, _, rfl, rfl⟩
  · exact Or.inl rfl
  · rcases findPte_alloc ht his hw hv ha v with hsame | ⟨hnone, hsome, hidx⟩
    · exact Or.inl hsame
    · exact Or.inr ⟨hnone, Option.isSome_iff_exists.mpr ⟨_, hsome⟩, hidx⟩

/-- `find_pte_then_alloc` lets the walks to the pages of one last-level table end, and no others. -/
theorem findPte_findPteThenAlloc (ht : pt.Tables p) (h : pt.findPteThenAlloc p vpn = some (t, pt', p'))
    (v : ℕ) : (pt'.findPte p' v).isSome ↔ (pt.findPte p v).isSome ∨ indexes v = indexes vpn := by
  obtain ⟨_, hend⟩ := findPteThenAlloc_spec ht h
  obtain ⟨i₁, i₂, t₁, pt₁, p₁, hidx, h₁, h₂⟩ := findPteThenAlloc_cases h
  have hw₀ : walk (descend p.memory) pt.rootPpn [] = some pt.rootPpn := rfl
  obtain ⟨hg₁, hr₁, hw₁⟩ := descendThenAlloc_spec ht (by simp) hw₀ h₁
  rw [← hr₁] at hw₁
  -- the table at the first level is the end of no walk
  have hfirst : pt₁.findPte p₁ v = pt.findPte p v := by
    rcases findPte_descendThenAlloc ht (by simp) hw₀ h₁ v with hsame | ⟨_, _, hlen⟩
    · exact hsame
    · simp [indexes] at hlen
  have hsecond := findPte_descendThenAlloc hg₁.tables (by simp) hw₁ h₂ v
  rw [hfirst] at hsecond
  constructor
  · intro hsome
    rcases hsecond with hsame | ⟨_, _, hv⟩
    · exact Or.inl (hsame ▸ hsome)
    · exact Or.inr (hv.trans hidx.symm)
  · intro hor
    rcases hor with hsome | hv
    · rcases hsecond with hsame | ⟨_, hsome', _⟩
      · exact hsame ▸ hsome
      · exact hsome'
    · rw [findPte, hv, ← findPte, hend]
      rfl

/-- `map` lets the walks to the pages of one last-level table end, and no others. -/
theorem map_findPte (ht : pt.Tables p) {ppn flags : ℕ} (h : pt.map p vpn ppn flags = some (pt', p'))
    (v : ℕ) : (pt'.findPte p' v).isSome ↔ (pt.findPte p v).isSome ∨ indexes v = indexes vpn := by
  obtain ⟨t, p₁, hx, _, rfl⟩ := map_cases h
  obtain ⟨hg, hfind⟩ := findPteThenAlloc_spec ht hx
  rw [findPte_setWord hg.tables hfind, findPte_findPteThenAlloc ht hx]

theorem unmap_findPte (ht : pt.Tables p) (h : pt.unmap p vpn = some p') (v : ℕ) :
    pt.findPte p' v = pt.findPte p v := by
  obtain ⟨t, hfind, rfl⟩ := unmap_cases h
  exact findPte_setWord ht hfind v

theorem new_findPte (h : new p = some (pt, p')) (v : ℕ) : pt.findPte p' v = none := by
  obtain ⟨⟨f, p₁⟩, ha, h⟩ := Option.bind_eq_some_iff.mp h
  cases h
  obtain ⟨_, _, _, hmem⟩ := Phys.alloc_spec ha
  rw [findPte_eq, indexes, walk_cons, hmem, descend_zero, Function.update_self]
  rfl

theorem new_entry (h : new p = some (pt, p')) (v : ℕ) : pt.entry p' v = none := by
  obtain ⟨_, _, hleaf, _⟩ := new_spec h
  have hnone := hleaf v
  rw [leaf_eq_entry, Option.map_eq_none_iff] at hnone
  exact hnone

end PageTable

/-! ### Page tables as finite maps -/

/-- The calls on a page table. -/
inductive MapOp where
  | map (vpn ppn flags : ℕ)
  | unmap (vpn : ℕ)
  deriving DecidableEq, Repr

/-- The finite map after some calls, the latest first. -/
def mapped : List MapOp → ℕ → Option (ℕ × ℕ)
  | [] => fun _ => none
  | .map vpn ppn flags :: ops => Function.update (mapped ops) vpn (some (ppn, flags))
  | .unmap vpn :: ops => Function.update (mapped ops) vpn none

/-- A new page table and the calls made on it.  Between two calls others may allocate frames, free
theirs and write to them. -/
inductive MapRun : List MapOp → PageTable → Phys → Prop
  | new {pt p p'} : PageTable.new p = some (pt, p') → MapRun [] pt p'
  | map {ops pt pt' p p' vpn ppn flags} : MapRun ops pt p → vpn < vpnEnd → ppn < 2 ^ 44 →
      flags < 2 ^ 8 → pt.map p vpn ppn flags = some (pt', p') → MapRun (.map vpn ppn flags :: ops) pt' p'
  | unmap {ops pt p p' vpn} : MapRun ops pt p → vpn < vpnEnd → pt.unmap p vpn = some p' →
      MapRun (.unmap vpn :: ops) pt p'
  | other {ops pt p p'} : MapRun ops pt p →
      (∀ f ∈ pt.frames, p'.allocator.Allocated f ∧ p'.memory f = p.memory f) → MapRun ops pt p'

/-- The entry for a frame and flags. -/
def entryOf (m : ℕ × ℕ) : ℕ := pteNew m.1 (m.2 ||| pteV)

variable {ops : List MapOp} {pt : PageTable} {p : Phys}

theorem same_page_iff {v w : ℕ} (hv : v < vpnEnd) (hw : w < vpnEnd) :
    (indexes v = indexes w ∧ lastIndex v = lastIndex w) ↔ v = w :=
  ⟨fun h => indexes_inj hv hw h.1 h.2, fun h => by rw [h]; exact ⟨rfl, rfl⟩⟩

/-- If the entries are those of a map, they still are after an update of both at one page. -/
theorem entry_update {m : ℕ → Option (ℕ × ℕ)} {vpn v : ℕ}
    (h : ∀ v, v < vpnEnd → pt.entry p v = (m v).map entryOf) (hvpn : vpn < vpnEnd) (hv : v < vpnEnd)
    (new : Option (ℕ × ℕ)) :
    (if indexes v = indexes vpn ∧ lastIndex v = lastIndex vpn then new.map entryOf else pt.entry p v) =
      (Function.update m vpn new v).map entryOf := by
  by_cases heq : v = vpn
  · rw [if_pos ((same_page_iff hv hvpn).mpr heq), heq, Function.update_self]
  · rw [if_neg fun hboth => heq ((same_page_iff hv hvpn).mp hboth), Function.update_of_ne heq, h v hv]

/-- **The tables hold the finite map**, and keep their order. -/
theorem MapRun.entries (h : MapRun ops pt p) :
    pt.Tables p ∧ (∀ v, v < vpnEnd → pt.entry p v = (mapped ops v).map entryOf) ∧
      ∀ v m, mapped ops v = some m → m.1 < 2 ^ 44 ∧ m.2 < 2 ^ 8 := by
  induction h with
  | new hnew =>
    refine ⟨(PageTable.new_spec hnew).1, fun v _ => PageTable.new_entry hnew v, ?_⟩
    intro v m hm
    cases hm
  | @map ops pt pt' p p' vpn ppn flags _ hvpn hppn hflags hmap ih =>
    obtain ⟨ht, hentry, hbound⟩ := ih
    obtain ⟨_, hwr⟩ := PageTable.map_spec ht (lt_of_lt_of_le hflags (by decide)) hmap
    refine ⟨hwr.tables, ?_, ?_⟩
    · intro v hv
      rw [PageTable.map_entry ht hmap, mapped]
      exact entry_update hentry hvpn hv (some (ppn, flags))
    · intro v m hm
      rw [mapped] at hm
      by_cases heq : v = vpn
      · rw [heq, Function.update_self] at hm
        obtain rfl := Option.some.inj hm
        exact ⟨hppn, hflags⟩
      · rw [Function.update_of_ne heq] at hm
        exact hbound v m hm
  | @unmap ops pt p p' vpn _ hvpn hunmap ih =>
    obtain ⟨ht, hentry, hbound⟩ := ih
    refine ⟨(PageTable.unmap_spec ht hunmap).tables, ?_, ?_⟩
    · intro v hv
      rw [PageTable.unmap_entry ht hunmap, mapped]
      exact entry_update hentry hvpn hv none
    · intro v m hm
      rw [mapped] at hm
      by_cases heq : v = vpn
      · rw [heq, Function.update_self] at hm
        cases hm
      · rw [Function.update_of_ne heq] at hm
        exact hbound v m hm
  | @other ops pt p p' _ hsame ih =>
    obtain ⟨ht, hentry, hbound⟩ := ih
    have hmeta : ∀ f ∈ pt.metadataFrames, p'.memory f = p.memory f := fun f hf =>
      (hsame f (PageTable.metadata_mem hf)).2
    refine ⟨ht.congr (fun f hf => (hsame f hf).1) hmeta, ?_, hbound⟩
    intro v hv
    rw [PageTable.entry_congr ht hmeta, hentry v hv]

theorem indexes_eq_iff {v w : ℕ} (hv : v < vpnEnd) (hw : w < vpnEnd) :
    indexes v = indexes w ↔ v / 512 = w / 512 := by
  simp only [indexes, vpnEnd, Nat.shiftRight_eq_div_pow, List.cons.injEq, and_true] at *
  omega

/-- A page of the same 2 MiB was mapped at some time. -/
def RegionUsed (ops : List MapOp) (v : ℕ) : Prop :=
  ∃ w ppn flags, .map w ppn flags ∈ ops ∧ v / 512 = w / 512

theorem regionUsed_map {v w ppn flags : ℕ} :
    RegionUsed (.map w ppn flags :: ops) v ↔ RegionUsed ops v ∨ v / 512 = w / 512 := by
  constructor
  · rintro ⟨w', ppn', flags', hmem, hdiv⟩
    rcases List.mem_cons.mp hmem with heq | hmem
    · cases heq
      exact Or.inr hdiv
    · exact Or.inl ⟨w', ppn', flags', hmem, hdiv⟩
  · intro hor
    rcases hor with ⟨w', ppn', flags', hmem, hdiv⟩ | hdiv
    · exact ⟨w', ppn', flags', List.mem_cons_of_mem _ hmem, hdiv⟩
    · exact ⟨w, ppn, flags, List.mem_cons_self, hdiv⟩

theorem regionUsed_unmap {v w : ℕ} : RegionUsed (.unmap w :: ops) v ↔ RegionUsed ops v := by
  constructor
  · rintro ⟨w', ppn', flags', hmem, hdiv⟩
    rcases List.mem_cons.mp hmem with heq | hmem
    · cases heq
    · exact ⟨w', ppn', flags', hmem, hdiv⟩
  · rintro ⟨w', ppn', flags', hmem, hdiv⟩
    exact ⟨w', ppn', flags', List.mem_cons_of_mem _ hmem, hdiv⟩

theorem regionUsed_of_mapped {v : ℕ} : ∀ {ops : List MapOp}, (mapped ops v).isSome → RegionUsed ops v := by
  intro ops
  induction ops with
  | nil => intro h; cases h
  | cons op ops ih =>
    intro h
    cases op with
    | map w ppn flags =>
      rw [regionUsed_map]
      by_cases heq : v = w
      · exact Or.inr (heq ▸ rfl)
      · rw [mapped, Function.update_of_ne heq] at h
        exact Or.inl (ih h)
    | unmap w =>
      rw [regionUsed_unmap]
      by_cases heq : v = w
      · rw [mapped, heq, Function.update_self] at h
        cases h
      · rw [mapped, Function.update_of_ne heq] at h
        exact ih h

/-- **The tables above the last level stay**: the walk to a page ends exactly if a page of the same 2 MiB
was mapped at some time. -/
theorem MapRun.findPte_isSome (h : MapRun ops pt p) :
    ∀ v, v < vpnEnd → ((pt.findPte p v).isSome ↔ RegionUsed ops v) := by
  induction h with
  | new hnew =>
    intro v _
    rw [PageTable.new_findPte hnew]
    refine iff_of_false Bool.false_ne_true ?_
    rintro ⟨_, _, _, hmem, _⟩
    cases hmem
  | map hrun hvpn _ _ hmap ih =>
    intro v hv
    rw [PageTable.map_findPte hrun.entries.1 hmap, ih v hv, indexes_eq_iff hv hvpn, regionUsed_map]
  | unmap hrun _ hunmap ih =>
    intro v hv
    rw [PageTable.unmap_findPte hrun.entries.1 hunmap, ih v hv, regionUsed_unmap]
  | other hrun hsame ih =>
    intro v hv
    rw [PageTable.findPte_congr hrun.entries.1 fun f hf => (hsame f (PageTable.metadata_mem hf)).2, ih v hv]

/-- **Refinement.**  Walking a page finds a valid entry exactly when the page is mapped, and then the
entry has the frame and the flags of the last `map`.  `unmap` returns exactly on a mapped page, `map`
never does on one, and neither changes the entry of another page. -/
theorem page_table_refines (h : MapRun ops pt p) :
    (∀ v, v < vpnEnd → ((∃ e, pt.translate p v = some e ∧ isValid e = true) ↔ (mapped ops v).isSome)) ∧
    (∀ v ppn flags, v < vpnEnd → mapped ops v = some (ppn, flags) →
      ∃ e, pt.translate p v = some e ∧ isValid e = true ∧ ptePpn e = ppn ∧
        pteFlags e = flags ||| pteV) ∧
    (∀ v, v < vpnEnd → ((pt.unmap p v).isSome ↔ (mapped ops v).isSome)) ∧
    (∀ v ppn flags, v < vpnEnd → (mapped ops v).isSome → pt.map p v ppn flags = none) ∧
    (∀ v ppn flags pt' p', v < vpnEnd → pt.map p v ppn flags = some (pt', p') →
      ∀ w, w < vpnEnd → w ≠ v → pt'.entry p' w = pt.entry p w) ∧
    ∀ v p', v < vpnEnd → pt.unmap p v = some p' →
      ∀ w, w < vpnEnd → w ≠ v → pt.entry p' w = pt.entry p w := by
  obtain ⟨ht, hentry, hbound⟩ := h.entries
  have hiff : ∀ v, v < vpnEnd → ((pt.entry p v).isSome ↔ (mapped ops v).isSome) := by
    intro v hv
    rw [hentry v hv, Option.isSome_map]
  refine ⟨?_, ?_, ?_, ?_, ?_, ?_⟩
  · intro v hv
    rw [← hiff v hv, Option.isSome_iff_exists]
    exact exists_congr fun e => PageTable.entry_eq_some.symm
  · intro v ppn flags hv hm
    have he := hentry v hv
    rw [hm] at he
    obtain ⟨htr, hvalid⟩ := PageTable.entry_eq_some.mp he
    obtain ⟨hppn, hflags⟩ := hbound v _ hm
    have hlt : flags ||| pteV < 2 ^ 8 := Nat.or_lt_two_pow hflags (by decide)
    refine ⟨_, htr, hvalid, ?_, pteFlags_pteNew hlt⟩
    rw [entryOf, ptePpn_pteNew (lt_of_lt_of_le hlt (by decide)), Nat.mod_eq_of_lt hppn]
  · intro v hv
    rw [← hiff v hv]
    exact PageTable.unmap_isSome_iff pt p v
  · intro v ppn flags hv hm
    obtain ⟨e, he⟩ := Option.isSome_iff_exists.mp ((hiff v hv).mpr hm)
    have hleaf : pt.leaf p v = some (ptePpn e) := by rw [PageTable.leaf_eq_entry, he]; rfl
    exact PageTable.map_of_leaf hleaf
  · intro v ppn flags pt' p' hv hmap w hw hne
    rw [PageTable.map_entry ht hmap, if_neg fun hboth => hne ((same_page_iff hw hv).mp hboth)]
  · intro v p' hv hunmap w hw hne
    rw [PageTable.unmap_entry ht hunmap, if_neg fun hboth => hne ((same_page_iff hw hv).mp hboth)]

/-- A page table over eight frames, in which page 5 is mapped to frame 77, readable. -/
theorem page_table_refines_one_page : ∃ pt p, MapRun [.map 5 77 pteR] pt p ∧
    ∃ e, pt.translate p 5 = some e ∧ ptePpn e = 77 ∧ pteFlags e = pteR ||| pteV := by
  have hsome : ((PageTable.new ⟨.init 0 8 (by decide) (by decide), fun _ _ => 0⟩).bind fun x =>
      x.1.map x.2 5 77 pteR).isSome := by decide
  obtain ⟨⟨pt', p'⟩, hx⟩ := Option.isSome_iff_exists.mp hsome
  obtain ⟨⟨pt, p⟩, hnew, hmap⟩ := Option.bind_eq_some_iff.mp hx
  have hrun := (MapRun.new hnew).map (by decide) (by decide) (by decide) hmap
  obtain ⟨e, htr, _, hppn, hflags⟩ := (page_table_refines hrun).2.1 5 77 pteR (by decide) rfl
  exact ⟨pt', p', hrun, e, htr, hppn, hflags⟩

end LemonCore.Kernel.Mm
