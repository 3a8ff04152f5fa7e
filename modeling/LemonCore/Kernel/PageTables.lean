import LemonCore.Kernel.Frames
import LemonCore.Foundation.RadixTree

/-!
# SV39 page tables

The three-level page tables of the kernel (`mm/page_table.rs`).  A `PageTable` owns the frames of its
tables (`metadataFrames`) and, per page, the frame that backs the page (`dataFrames`, a `BTreeMap` kept
here as the list of its entries in key order).

* `findPte`, `findPteThenAlloc`, `map`, `unmap`, `translate`: as the source has them, with the loops over
  the first two indices of a page number;
* `leaf`: the frame a page is mapped to, if all three entries on its way are valid;
* `Tables`: the tables of one page table are its own frames and form a radix tree;
* `map_spec`, `unmap_spec`: `map` and `unmap` change the leaf of one page and keep the tables in order.
-/

namespace LemonCore.Kernel.Mm

open Foundation.SharedHeap Foundation.RadixTree

/-! ### Page table entries -/

/-- `PTEFlags::V`. -/
def pteV : ℕ := 1

/-- `PageTableEntry::new`. -/
def pteNew (ppn flags : ℕ) : ℕ := (ppn <<< 10) % 2 ^ 64 ||| flags

/-- `PageTableEntry::ppn`. -/
def ptePpn (bits : ℕ) : ℕ := (bits >>> 10) % 2 ^ 44

/-- `PageTableEntry::is_valid`: the lowest of the flag bits. -/
def isValid (bits : ℕ) : Bool := bits % 2 == 1

@[simp] theorem isValid_zero : isValid 0 = false := rfl

theorem isValid_pteNew {ppn flags : ℕ} (h : flags % 2 = 1) : isValid (pteNew ppn flags) = true := by
  rw [isValid, beq_iff_eq, pteNew, Nat.or_mod_two_eq_one]
  exact Or.inr h

theorem ptePpn_pteNew {ppn flags : ℕ} (h : flags < 2 ^ 10) : ptePpn (pteNew ppn flags) = ppn % 2 ^ 44 := by
  have hflags : flags >>> 10 = 0 := by
    rw [Nat.shiftRight_eq_div_pow]
    exact Nat.div_eq_of_lt h
  rw [ptePpn, pteNew, Nat.shiftRight_or_distrib, hflags, Nat.or_zero, Nat.shiftRight_eq_div_pow,
    Nat.shiftLeft_eq]
  omega

/-- The table or frame that an entry leads to. -/
def descend (memory : ℕ → ℕ → ℕ) (ppn i : ℕ) : Option ℕ :=
  if isValid (memory ppn i) then some (ptePpn (memory ppn i)) else none

/-! ### Page numbers -/

/-- The first two of `VirtPageNum::indexes`: the way to the last-level table. -/
def indexes (vpn : ℕ) : List ℕ := [(vpn >>> 18) % 512, (vpn >>> 9) % 512]

/-- The third of `VirtPageNum::indexes`. -/
def lastIndex (vpn : ℕ) : ℕ := vpn % 512

/-- The number of pages of an SV39 address space. -/
def vpnEnd : ℕ := 2 ^ 27

theorem indexes_mod (vpn : ℕ) : indexes (vpn % vpnEnd) = indexes vpn ∧
    lastIndex (vpn % vpnEnd) = lastIndex vpn := by
  simp only [indexes, lastIndex, vpnEnd, Nat.shiftRight_eq_div_pow]
  refine ⟨?_, by omega⟩
  congr 1
  · omega
  · congr 1
    omega

theorem indexes_inj {v w : ℕ} (hv : v < vpnEnd) (hw : w < vpnEnd) (h : indexes v = indexes w)
    (hl : lastIndex v = lastIndex w) : v = w := by
  simp only [indexes, lastIndex, vpnEnd, Nat.shiftRight_eq_div_pow, List.cons.injEq, and_true] at *
  omega

/-! ### Page tables -/

structure PageTable where
  rootPpn : ℕ
  dataFrames : List (ℕ × ℕ)
  metadataFrames : List ℕ

namespace PageTable

/-- The frames that the page table holds, in the order in which dropping it gives them back. -/
def frames (pt : PageTable) : List ℕ := pt.dataFrames.map Prod.snd ++ pt.metadataFrames

/-- `PageTable::new`. -/
def new (p : Phys) : Option (PageTable × Phys) := do
  let (frame, p) ← p.alloc
  some (⟨frame, [], [frame]⟩, p)

/-- `data_frames.insert(vpn, frame)`: the frame that was there before, if any, is handed back. -/
def insert (pt : PageTable) (vpn frame : ℕ) : Option ℕ × PageTable :=
  ((pt.dataFrames.find? (·.1 = vpn)).map Prod.snd,
    { pt with
      dataFrames :=
        pt.dataFrames.filter (·.1 < vpn) ++ (vpn, frame) :: pt.dataFrames.filter (vpn < ·.1) })

/-- `data_frames.remove(&vpn)`. -/
def remove (pt : PageTable) (vpn : ℕ) : Option ℕ × PageTable :=
  ((pt.dataFrames.find? (·.1 = vpn)).map Prod.snd,
    { pt with dataFrames := pt.dataFrames.filter (·.1 ≠ vpn) })

/-- One turn of the loop of `find_pte_then_alloc`: an invalid entry gets a new table. -/
def descendThenAlloc (st : ℕ × PageTable × Phys) (idx : ℕ) : Option (ℕ × PageTable × Phys) := do
  let (ppn, pt, p) := st
  let (pt, p) ←
    if isValid (p.memory ppn idx) then some (pt, p)
    else do
      let (frame, p) ← p.alloc
      some ({ pt with metadataFrames := pt.metadataFrames ++ [frame] },
        p.setWord ppn idx (pteNew frame pteV))
  some (ptePpn (p.memory ppn idx), pt, p)

/-- `find_pte_then_alloc`: the frame of the last-level table; the entry is at `lastIndex vpn`. -/
def findPteThenAlloc (pt : PageTable) (p : Phys) (vpn : ℕ) : Option (ℕ × PageTable × Phys) :=
  (indexes vpn).foldlM descendThenAlloc (pt.rootPpn, pt, p)

/-- `find_pte`. -/
def findPte (pt : PageTable) (p : Phys) (vpn : ℕ) : Option ℕ :=
  (indexes vpn).foldlM (descend p.memory) pt.rootPpn

/-- `map`. -/
def map (pt : PageTable) (p : Phys) (vpn ppn flags : ℕ) : Option (PageTable × Phys) := do
  let (table, pt, p) ← pt.findPteThenAlloc p vpn
  if isValid (p.memory table (lastIndex vpn)) then none
  else some (pt, p.setWord table (lastIndex vpn) (pteNew ppn (flags ||| pteV)))

/-- `unmap`. -/
def unmap (pt : PageTable) (p : Phys) (vpn : ℕ) : Option Phys := do
  let table ← pt.findPte p vpn
  if isValid (p.memory table (lastIndex vpn)) then some (p.setWord table (lastIndex vpn) 0) else none

/-- `translate`: the entry of the page, be it valid or not. -/
def translate (pt : PageTable) (p : Phys) (vpn : ℕ) : Option ℕ :=
  (pt.findPte p vpn).map fun table => p.memory table (lastIndex vpn)

/-- The frame that the page is mapped to. -/
def leaf (pt : PageTable) (p : Phys) (vpn : ℕ) : Option ℕ :=
  walk (descend p.memory) pt.rootPpn (indexes vpn ++ [lastIndex vpn])

end PageTable

/-! ### Writes as changes of the pointer structure -/

theorem foldlM_descend (m : ℕ → ℕ → ℕ) (is : List ℕ) :
    ∀ t, is.foldlM (descend m) t = walk (descend m) t is := by
  induction is with
  | nil => intro t; rfl
  | cons i is ih =>
    intro t
    rw [List.foldlM_cons, walk_cons]
    exact congrArg _ (funext ih)

theorem descend_setWord (p : Phys) (f i w : ℕ) :
    descend (p.setWord f i w).memory =
      setPtr (descend p.memory) f i (if isValid w then some (ptePpn w) else none) := by
  funext s j
  by_cases hs : s = f
  · subst hs
    rw [setPtr_self]
    by_cases hj : j = i
    · simp [descend, Phys.setWord, hj]
    · simp [descend, Phys.setWord, hj]
  · rw [setPtr_of_ne hs]
    simp [descend, Phys.setWord, hs]

theorem descend_zero (m : ℕ → ℕ → ℕ) (f : ℕ) :
    descend (Function.update m f fun _ => 0) = Function.update (descend m) f fun _ => none := by
  funext s j
  by_cases hs : s = f
  · subst hs
    simp [descend]
  · simp [descend, hs]

theorem descend_congr {m m' : ℕ → ℕ → ℕ} {f : ℕ} (h : m' f = m f) : descend m' f = descend m f := by
  funext i
  rw [descend, descend, h]

namespace PageTable

variable {pt pt' : PageTable} {p p' : Phys}

theorem findPte_eq (pt : PageTable) (p : Phys) (vpn : ℕ) :
    pt.findPte p vpn = walk (descend p.memory) pt.rootPpn (indexes vpn) := foldlM_descend _ _ _

theorem leaf_eq (pt : PageTable) (p : Phys) (vpn : ℕ) :
    pt.leaf p vpn = (pt.findPte p vpn).bind fun t => descend p.memory t (lastIndex vpn) := by
  rw [leaf, walk_concat, findPte_eq]

theorem leaf_mod (pt : PageTable) (p : Phys) (vpn : ℕ) : pt.leaf p (vpn % vpnEnd) = pt.leaf p vpn := by
  rw [leaf, (indexes_mod vpn).1, (indexes_mod vpn).2, leaf]

theorem leaf_eq_translate (pt : PageTable) (p : Phys) (vpn : ℕ) :
    pt.leaf p vpn = (pt.translate p vpn).bind fun e => if isValid e then some (ptePpn e) else none := by
  rw [leaf_eq, translate]
  cases pt.findPte p vpn <;> rfl

theorem translate_of_leaf {vpn f : ℕ} (h : pt.leaf p vpn = some f) :
    ∃ e, pt.translate p vpn = some e ∧ isValid e = true ∧ ptePpn e = f := by
  rw [leaf_eq_translate, Option.bind_eq_some_iff] at h
  obtain ⟨e, he, hif⟩ := h
  by_cases hv : isValid e
  · rw [if_pos hv] at hif
    exact ⟨e, he, hv, Option.some.inj hif⟩
  · rw [if_neg hv] at hif
    cases hif

/-- **The tables are in order**: the frames of the page table are distinct and in use, its tables are
frames of its own that form a radix tree of depth three, and an invalid entry is zero. -/
structure Tables (pt : PageTable) (p : Phys) : Prop where
  nodup : pt.frames.Nodup
  allocated : ∀ f ∈ pt.frames, p.allocator.Allocated f
  labelled : ∃ label, Labelled (descend p.memory) pt.rootPpn 3 label ∧
    ∀ f, label f ≠ none → f ∈ pt.metadataFrames
  blank : ∀ f ∈ pt.metadataFrames, ∀ i, isValid (p.memory f i) = true ∨ p.memory f i = 0

/-- The frames of the page table as the cells it owns. -/
def owned (pt : PageTable) : Set ℕ := {f | f ∈ pt.frames}

theorem mem_owned {f : ℕ} : f ∈ pt.owned ↔ f ∈ pt.frames := Iff.rfl

theorem metadata_mem {f : ℕ} (h : f ∈ pt.metadataFrames) : f ∈ pt.frames := List.mem_append_right _ h

theorem data_mem {e : ℕ × ℕ} (h : e ∈ pt.dataFrames) : e.2 ∈ pt.frames :=
  List.mem_append_left _ (List.mem_map_of_mem h)

theorem Tables.data_not_metadata (ht : pt.Tables p) {e : ℕ × ℕ} (h : e ∈ pt.dataFrames) :
    e.2 ∉ pt.metadataFrames := fun hm =>
  (List.disjoint_of_nodup_append ht.nodup) (List.mem_map_of_mem h) hm

theorem Tables.root_mem (ht : pt.Tables p) : pt.rootPpn ∈ pt.metadataFrames := by
  obtain ⟨label, hl, hin⟩ := ht.labelled
  exact hin _ (by simp [hl.root])

theorem Tables.walk_mem (ht : pt.Tables p) {is : List ℕ} (his : is.length < 3) {t : ℕ}
    (hw : walk (descend p.memory) pt.rootPpn is = some t) : t ∈ pt.metadataFrames := by
  obtain ⟨label, hl, hin⟩ := ht.labelled
  have hlab := walk_label hl is hl.root (by simpa using his) hw
  exact hin t (by simp [hlab])

/-- What happens to frames that are not tables of `pt` does not change its leaves. -/
theorem leaf_congr (ht : pt.Tables p) (h : ∀ f ∈ pt.metadataFrames, p'.memory f = p.memory f)
    (vpn : ℕ) : pt.leaf p' vpn = pt.leaf p vpn := by
  obtain ⟨label, hl, hin⟩ := ht.labelled
  refine walk_congr hl 3 ?_ le_rfl _ hl.root (by simp [indexes])
  intro t q hq _
  exact descend_congr (h t (hin t (by simp [hq])))

theorem Tables.congr (ht : pt.Tables p) (hal : ∀ f ∈ pt.frames, p'.allocator.Allocated f)
    (h : ∀ f ∈ pt.metadataFrames, p'.memory f = p.memory f) : pt.Tables p' where
  nodup := ht.nodup
  allocated := hal
  labelled := by
    obtain ⟨label, hl, hin⟩ := ht.labelled
    exact ⟨label, hl.congr fun t hne => descend_congr (h t (hin t hne)), hin⟩
  blank := by
    intro f hf i
    rw [h f hf]
    exact ht.blank f hf i

/-! ### Walks that allocate -/

/-- What `find_pte_then_alloc` may do: add tables. -/
structure Grown (pt : PageTable) (p : Phys) (pt' : PageTable) (p' : Phys) : Prop where
  tables : pt'.Tables p'
  footprint : Footprint p.heap pt.owned p'.heap pt'.owned
  leaf : ∀ v, pt'.leaf p' v = pt.leaf p v
  dataFrames : pt'.dataFrames = pt.dataFrames

theorem Grown.refl (ht : pt.Tables p) : pt.Grown p pt p :=
  ⟨ht, Footprint.refl _ _, fun _ => rfl, rfl⟩

theorem Grown.trans {pt'' : PageTable} {p'' : Phys} (h₁ : pt.Grown p pt' p') (h₂ : pt'.Grown p' pt'' p'') :
    pt.Grown p pt'' p'' :=
  ⟨h₂.tables, h₁.footprint.trans h₂.footprint, fun v => (h₂.leaf v).trans (h₁.leaf v),
    h₂.dataFrames.trans h₁.dataFrames⟩

/-- A frame that is not allocated is none of the page table's. -/
theorem Tables.fresh (ht : pt.Tables p) {f : ℕ} (hf : ¬ p.allocator.Allocated f) : f ∉ pt.frames :=
  fun h => hf (ht.allocated f h)

/-- A newly allocated table has no label yet, and hanging it into an invalid entry of a table above the last
level grows the tree by it. -/
theorem Tables.grow_alloc (ht : pt.Tables p) {is : List ℕ} (his : is.length < 2) {t : ℕ}
    (hw : walk (descend p.memory) pt.rootPpn is = some t) {i g : ℕ} {p₁ : Phys}
    (hinv : isValid (p.memory t i) = false) (ha : p.alloc = some (g, p₁)) :
    ∃ label, Labelled (descend p.memory) pt.rootPpn 3 label ∧
      (∀ f, label f ≠ none → f ∈ pt.metadataFrames) ∧ label t = some is.reverse ∧ label g = none ∧
      descend p.memory t i = none ∧
      descend (p₁.setWord t i (pteNew g pteV)).memory = grow (descend p.memory) t i g := by
  obtain ⟨hnew, hlt, _, hmem⟩ := Phys.alloc_spec ha
  obtain ⟨label, hl, hin⟩ := ht.labelled
  have hlab : label t = some is.reverse := by
    simpa using walk_label hl is hl.root (by simpa using Nat.lt_succ_of_lt his) hw
  have hgl : label g = none := by
    by_contra hne
    exact ht.fresh hnew (metadata_mem (hin g hne))
  refine ⟨label, hl, hin, hlab, hgl, by simp [descend, hinv], ?_⟩
  rw [descend_setWord, hmem, descend_zero, isValid_pteNew rfl, ptePpn_pteNew (by decide),
    Nat.mod_eq_of_lt hlt]
  rfl

/-- Hanging a newly allocated table into an invalid entry of a table above the last level. -/
theorem grown_alloc (ht : pt.Tables p) {is : List ℕ} (his : is.length < 2) {t : ℕ}
    (hw : walk (descend p.memory) pt.rootPpn is = some t) {i g : ℕ} {p₁ : Phys}
    (hinv : isValid (p.memory t i) = false) (ha : p.alloc = some (g, p₁)) :
    pt.Grown p { pt with metadataFrames := pt.metadataFrames ++ [g] }
        (p₁.setWord t i (pteNew g pteV)) ∧
      walk (descend (p₁.setWord t i (pteNew g pteV)).memory) pt.rootPpn (is ++ [i]) = some g := by
  obtain ⟨hnew, hlt, hal, hmem⟩ := Phys.alloc_spec ha
  have hgf : g ∉ pt.frames := ht.fresh hnew
  have htm : t ∈ pt.metadataFrames := ht.walk_mem (by omega) hw
  have htg : t ≠ g := fun h => hgf (h ▸ metadata_mem htm)
  obtain ⟨label, hl, hin, hlab, hgl, hfree, hptr⟩ := ht.grow_alloc his hw hinv ha
  have hdepth : is.reverse.length + 1 < 3 := by rw [List.length_reverse]; omega
  have hval : isValid (pteNew g pteV) = true := isValid_pteNew rfl
  have hppn : ptePpn (pteNew g pteV) = g := by
    rw [ptePpn_pteNew (by decide), Nat.mod_eq_of_lt hlt]
  -- Outside the table `t` and the new frame the memory is untouched.
  have hsame : ∀ f, f ≠ t → f ≠ g → (p₁.setWord t i (pteNew g pteV)).memory f = p.memory f := by
    intro f hft hfg
    simp [Phys.setWord, hmem, hft, hfg]
  have hframes : ({ pt with metadataFrames := pt.metadataFrames ++ [g] } : PageTable).frames =
      pt.frames ++ [g] := by
    simp [frames]
  refine ⟨⟨⟨?_, ?_, ?_, ?_⟩, ⟨?_, ?_⟩, ?_, rfl⟩, ?_⟩
  · rw [hframes]
    exact List.nodup_append.mpr ⟨ht.nodup, List.nodup_singleton g, fun a ha b hb hab => by
      rw [List.mem_singleton] at hb
      exact hgf (hb ▸ hab ▸ ha)⟩
  · intro f hf
    rw [hframes, List.mem_append, List.mem_singleton] at hf
    rw [Phys.setWord_allocator, hal f]
    rcases hf with hf | hf
    · exact Or.inl (ht.allocated f hf)
    · exact Or.inr hf
  · refine ⟨Function.update label g (some (i :: is.reverse)), ?_, ?_⟩
    · rw [hptr]
      exact hl.grow hlab hgl
    · intro f hf
      by_cases hfg : f = g
      · rw [hfg]
        exact List.mem_append_right _ List.mem_cons_self
      · rw [Function.update_of_ne hfg] at hf
        exact List.mem_append_left _ (hin f hf)
  · intro f hf j
    rw [List.mem_append, List.mem_singleton] at hf
    by_cases hft : f = t
    · by_cases hj : j = i
      · left
        simpa [Phys.setWord, hft, hj] using hval
      · have : (p₁.setWord t i (pteNew g pteV)).memory f j = p.memory f j := by
          simp [Phys.setWord, hmem, hft, hj, htg]
        rw [this, hft]
        exact ht.blank t htm j
    · by_cases hfg : f = g
      · right
        simp [Phys.setWord, hmem, hfg, htg.symm]
      · rw [hsame f hft hfg]
        exact ht.blank f (hf.resolve_right hfg) j
  · intro f hf hn
    refine ⟨(hal f).mpr (Or.inl hf), hsame f ?_ ?_⟩
    · exact fun h => hn (h ▸ metadata_mem htm)
    · exact fun h => hnew (h ▸ hf)
  · intro f hf
    rw [mem_owned, hframes, List.mem_append, List.mem_singleton] at hf
    rcases hf with hf | hf
    · exact Or.inl hf
    · exact Or.inr (hf ▸ hnew)
  · intro v
    show walk (descend (p₁.setWord t i (pteNew g pteV)).memory) pt.rootPpn _ = _
    rw [hptr]
    exact walk_grow hl hlab hdepth hgl hfree _ hl.root (by simp [indexes])
  · rw [hptr]
    exact walk_grow_new hl hlab hdepth hgl hw (by simp)

theorem descendThenAlloc_cases {t c i : ℕ} (h : descendThenAlloc (t, pt, p) i = some (c, pt', p')) :
    (isValid (p.memory t i) = true ∧ c = ptePpn (p.memory t i) ∧ pt' = pt ∧ p' = p) ∨
    ∃ g p₁, isValid (p.memory t i) = false ∧ p.alloc = some (g, p₁) ∧ c = g ∧
      pt' = { pt with metadataFrames := pt.metadataFrames ++ [g] } ∧
      p' = p₁.setWord t i (pteNew g pteV) := by
  rw [descendThenAlloc] at h
  cases hv : isValid (p.memory t i) with
  | true =>
    simp only [hv, if_true, Option.bind_eq_bind, Option.bind_some, Option.some.injEq,
      Prod.mk.injEq] at h
    exact Or.inl ⟨rfl, h.1.symm, h.2.1.symm, h.2.2.symm⟩
  | false =>
    cases ha : p.alloc with
    | none => simp [hv, ha] at h
    | some x =>
      obtain ⟨g, p₁⟩ := x
      simp only [hv, ha, Bool.false_eq_true, if_false, Option.bind_eq_bind, Option.bind_some,
        Option.some.injEq, Prod.mk.injEq] at h
      obtain ⟨rfl, rfl, rfl⟩ := h
      have hback : (p₁.setWord t i (pteNew g pteV)).memory t i = pteNew g pteV := by
        simp [Phys.setWord]
      refine Or.inr ⟨g, p₁, rfl, rfl, ?_, rfl, rfl⟩
      rw [hback, ptePpn_pteNew (by decide), Nat.mod_eq_of_lt (Phys.alloc_spec ha).2.1]

theorem descendThenAlloc_spec (ht : pt.Tables p) {is : List ℕ} (his : is.length < 2) {t c i : ℕ}
    (hw : walk (descend p.memory) pt.rootPpn is = some t)
    (h : descendThenAlloc (t, pt, p) i = some (c, pt', p')) :
    pt.Grown p pt' p' ∧ pt'.rootPpn = pt.rootPpn ∧
      walk (descend p'.memory) pt.rootPpn (is ++ [i]) = some c := by
  rcases descendThenAlloc_cases h with ⟨hv, rfl, rfl, rfl⟩ | ⟨g, p₁, hv, ha, rfl, rfl, rfl⟩
  · refine ⟨Grown.refl ht, rfl, ?_⟩
    rw [walk_concat, hw]
    simp [descend, hv]
  · obtain ⟨hgrown, hwalk⟩ := grown_alloc ht his hw hv ha
    exact ⟨hgrown, rfl, hwalk⟩

theorem findPteThenAlloc_cases {vpn t : ℕ} (h : pt.findPteThenAlloc p vpn = some (t, pt', p')) :
    ∃ i₁ i₂ t₁ pt₁ p₁, indexes vpn = [i₁, i₂] ∧
      descendThenAlloc (pt.rootPpn, pt, p) i₁ = some (t₁, pt₁, p₁) ∧
      descendThenAlloc (t₁, pt₁, p₁) i₂ = some (t, pt', p') := by
  rw [findPteThenAlloc, indexes, List.foldlM_cons] at h
  obtain ⟨⟨t₁, pt₁, p₁⟩, h₁, h⟩ := Option.bind_eq_some_iff.mp h
  rw [List.foldlM_cons] at h
  obtain ⟨⟨t₂, pt₂, p₂⟩, h₂, h⟩ := Option.bind_eq_some_iff.mp h
  cases h
  exact ⟨_, _, t₁, pt₁, p₁, rfl, h₁, h₂⟩

/-- `find_pte_then_alloc` ends at the last-level table of the page, and only adds tables. -/
theorem findPteThenAlloc_spec (ht : pt.Tables p) {vpn t : ℕ}
    (h : pt.findPteThenAlloc p vpn = some (t, pt', p')) :
    pt.Grown p pt' p' ∧ pt'.findPte p' vpn = some t := by
  obtain ⟨i₁, i₂, t₁, pt₁, p₁, hidx, h₁, h₂⟩ := findPteThenAlloc_cases h
  have hw₀ : walk (descend p.memory) pt.rootPpn [] = some pt.rootPpn := rfl
  obtain ⟨hg₁, hr₁, hw₁⟩ := descendThenAlloc_spec ht (by simp) hw₀ h₁
  rw [← hr₁] at hw₁
  obtain ⟨hg₂, hr₂, hw₂⟩ := descendThenAlloc_spec hg₁.tables (by simp) hw₁ h₂
  refine ⟨hg₁.trans hg₂, ?_⟩
  rw [findPte_eq, hr₂, hidx]
  exact hw₂

/-! ### The specification of `map` and `unmap` -/

/-- The effect of writing the entry of one page. -/
structure Written (pt : PageTable) (p : Phys) (vpn : ℕ) (x : Option ℕ) (pt' : PageTable) (p' : Phys) :
    Prop where
  tables : pt'.Tables p'
  footprint : Footprint p.heap pt.owned p'.heap pt'.owned
  leaf : ∀ v, pt'.leaf p' v =
    if indexes v = indexes vpn ∧ lastIndex v = lastIndex vpn then x else pt.leaf p v
  dataFrames : pt'.dataFrames = pt.dataFrames

theorem Written.leaf_self {vpn : ℕ} {x : Option ℕ} (hw : pt.Written p vpn x pt' p') :
    pt'.leaf p' vpn = x := by
  rw [hw.leaf, if_pos ⟨rfl, rfl⟩]

theorem Written.leaf_of_ne {vpn v : ℕ} {x : Option ℕ} (hw : pt.Written p vpn x pt' p')
    (hvpn : vpn < vpnEnd) (hv : v < vpnEnd) (hne : v ≠ vpn) : pt'.leaf p' v = pt.leaf p v := by
  rw [hw.leaf, if_neg]
  rintro ⟨hi, hl⟩
  exact hne (indexes_inj hv hvpn hi hl)

/-- Writing an entry of the last-level table of a page; an invalid entry is written as zero. -/
theorem written_setWord (ht : pt.Tables p) {vpn t w : ℕ} (hf : pt.findPte p vpn = some t)
    (hword : isValid w = true ∨ w = 0) :
    pt.Written p vpn (if isValid w then some (ptePpn w) else none) pt
      (p.setWord t (lastIndex vpn) w) := by
  rw [findPte_eq] at hf
  have htm : t ∈ pt.metadataFrames := ht.walk_mem (by simp [indexes]) hf
  obtain ⟨label, hl, hin⟩ := ht.labelled
  have hlab : label t = some (indexes vpn).reverse := by
    simpa using walk_label hl _ hl.root (by simp [indexes]) hf
  have hsame : ∀ f, f ≠ t → (p.setWord t (lastIndex vpn) w).memory f = p.memory f := by
    intro f hft
    simp [Phys.setWord, hft]
  refine ⟨⟨ht.nodup, ht.allocated, ⟨label, ?_, hin⟩, ?_⟩, ⟨?_, fun f hf => Or.inl hf⟩, ?_, rfl⟩
  · rw [descend_setWord]
    exact hl.set hlab (by simp [indexes]) _ _
  · intro f hfm i
    by_cases hft : f = t
    · by_cases hi : i = lastIndex vpn
      · simpa [Phys.setWord, hft, hi] using hword
      · have : (p.setWord t (lastIndex vpn) w).memory f i = p.memory t i := by
          simp [Phys.setWord, hft, hi]
        rw [this]
        exact ht.blank t htm i
    · rw [hsame f hft]
      exact ht.blank f hfm i
  · intro f hfl hn
    exact ⟨hfl, hsame f fun h => hn (h ▸ metadata_mem htm)⟩
  · intro v
    rw [leaf, descend_setWord, walk_set hl (by simp [indexes]) (by simp [indexes]) hf]
    rfl

/-- What `map` does when it returns: it writes into an invalid entry of the last-level table. -/
theorem map_cases {vpn ppn flags : ℕ} (h : pt.map p vpn ppn flags = some (pt', p')) :
    ∃ t p₁, pt.findPteThenAlloc p vpn = some (t, pt', p₁) ∧
      isValid (p₁.memory t (lastIndex vpn)) = false ∧
      p' = p₁.setWord t (lastIndex vpn) (pteNew ppn (flags ||| pteV)) := by
  obtain ⟨⟨t, pt₁, p₁⟩, hx, h⟩ := Option.bind_eq_some_iff.mp h
  cases hv : isValid (p₁.memory t (lastIndex vpn)) with
  | true => simp [hv] at h
  | false =>
    simp only [hv, Bool.false_eq_true, if_false, Option.some.injEq, Prod.mk.injEq] at h
    obtain ⟨rfl, rfl⟩ := h
    exact ⟨t, p₁, hx, hv, rfl⟩

theorem unmap_cases {vpn : ℕ} (h : pt.unmap p vpn = some p') :
    ∃ t, pt.findPte p vpn = some t ∧ p' = p.setWord t (lastIndex vpn) 0 := by
  obtain ⟨t, hfind, h⟩ := Option.bind_eq_some_iff.mp h
  split at h
  · exact ⟨t, hfind, (Option.some.inj h).symm⟩
  · cases h

theorem isValid_mapped (ppn flags : ℕ) : isValid (pteNew ppn (flags ||| pteV)) = true := by
  apply isValid_pteNew
  rw [Nat.or_mod_two_eq_one]
  exact Or.inr rfl

/-- **`map`** fails on a mapped page; otherwise it maps the page and nothing else. -/
theorem map_spec (ht : pt.Tables p) {vpn ppn flags : ℕ} (hflags : flags < 2 ^ 10)
    (h : pt.map p vpn ppn flags = some (pt', p')) :
    pt.leaf p vpn = none ∧ pt.Written p vpn (some (ppn % 2 ^ 44)) pt' p' := by
  obtain ⟨t, p₁, hx, hv, rfl⟩ := map_cases h
  obtain ⟨hg, hfind⟩ := findPteThenAlloc_spec ht hx
  have hnone : pt.leaf p vpn = none := by
    rw [← hg.leaf vpn, leaf_eq, hfind]
    simp [descend, hv]
  have hlt : flags ||| pteV < 2 ^ 10 := Nat.or_lt_two_pow hflags (by decide)
  have hwr := written_setWord hg.tables hfind (Or.inl (isValid_mapped ppn flags))
  rw [isValid_mapped, if_pos rfl, ptePpn_pteNew hlt] at hwr
  refine ⟨hnone, hwr.tables, hg.footprint.trans hwr.footprint, fun v => ?_,
    hwr.dataFrames.trans hg.dataFrames⟩
  rw [hwr.leaf, hg.leaf]

/-- A page that is mapped cannot be mapped again, whatever the state of the frames is. -/
theorem map_of_leaf {vpn ppn flags f : ℕ} (h : pt.leaf p vpn = some f) :
    pt.map p vpn ppn flags = none := by
  rw [leaf_eq, Option.bind_eq_some_iff] at h
  obtain ⟨t, hfind, hleaf⟩ := h
  rw [findPte_eq, indexes, walk_cons, Option.bind_eq_some_iff] at hfind
  obtain ⟨t₁, h₁, hfind⟩ := hfind
  rw [walk_cons, Option.bind_eq_some_iff] at hfind
  obtain ⟨t₂, h₂, hfind⟩ := hfind
  obtain rfl : t₂ = t := Option.some.inj hfind
  -- A valid entry makes the walk of `find_pte_then_alloc` take the same way.
  have hsame : ∀ {s c i : ℕ}, descend p.memory s i = some c →
      descendThenAlloc (s, pt, p) i = some (c, pt, p) := by
    intro s c i hd
    rw [descend] at hd
    split at hd
    · rename_i hv
      simp [descendThenAlloc, hv, Option.some.inj hd]
    · cases hd
  have hvalid : isValid (p.memory t₂ (lastIndex vpn)) = true := by
    rw [descend] at hleaf
    split at hleaf
    · assumption
    · cases hleaf
  rw [map, findPteThenAlloc, indexes, List.foldlM_cons, hsame h₁]
  simp [hsame h₂, hvalid]

/-- **`unmap`** fails on an unmapped page; otherwise it unmaps the page and nothing else. -/
theorem unmap_spec (ht : pt.Tables p) {vpn : ℕ} (h : pt.unmap p vpn = some p') :
    pt.Written p vpn none pt p' := by
  obtain ⟨t, hfind, rfl⟩ := unmap_cases h
  exact written_setWord ht hfind (Or.inr rfl)

/-! ### A new page table -/

theorem new_spec (h : new p = some (pt, p')) :
    pt.Tables p' ∧ pt.dataFrames = [] ∧ (∀ v, pt.leaf p' v = none) ∧
      Footprint p.heap ∅ p'.heap pt.owned := by
  rw [new] at h
  cases ha : p.alloc with
  | none => simp [ha] at h
  | some x =>
    obtain ⟨f, p₁⟩ := x
    simp only [ha, Option.bind_eq_bind, Option.bind_some, Option.some.injEq, Prod.mk.injEq] at h
    obtain ⟨rfl, rfl⟩ := h
    obtain ⟨hnew, -, hal, hmem⟩ := Phys.alloc_spec ha
    have hzero : ∀ i, descend p₁.memory f i = none := by
      intro i
      rw [hmem, descend_zero, Function.update_self]
    refine ⟨⟨by simp [frames], ?_, ⟨fun s => if s = f then some [] else none, ⟨if_pos rfl, ?_⟩, ?_⟩, ?_⟩,
      rfl, ?_, ⟨?_, ?_⟩⟩
    · intro g hg
      rw [hal g]
      exact Or.inr (by simpa [frames] using hg)
    · intro t q i c ht _ hc
      by_cases htf : t = f
      · rw [htf, hzero i] at hc
        cases hc
      · rw [if_neg htf] at ht
        cases ht
    · intro g hg
      by_cases hgf : g = f
      · simp [hgf]
      · simp [hgf] at hg
    · intro g hg i
      rw [List.mem_singleton] at hg
      right
      rw [hmem, hg, Function.update_self]
    · intro v
      rw [leaf, indexes]
      show (descend p₁.memory f _).bind _ = none
      rw [hzero]
      rfl
    · intro g hg _
      have hgf : g ≠ f := fun h => hnew (h ▸ hg)
      refine ⟨(hal g).mpr (Or.inl hg), ?_⟩
      show p₁.memory g = p.memory g
      rw [hmem, Function.update_of_ne hgf]
    · intro g hg
      have hgf : g = f := by simpa [owned, frames] using hg
      exact Or.inr (hgf ▸ hnew)

end PageTable

end LemonCore.Kernel.Mm
