import LemonCore.Kernel.AreaEntries

/-!
# Enough frames

Mapping a page takes three frames at most: one behind the page and two for tables.  With that many free
frames, and none of the pages mapped before, mapping does not panic.

* `Spent k`: at most `k` frames were taken, all of them free ones;
* `map_returns`, `mapOne_returns`, `mapArea_returns`: the functions return if there are enough frames;
* `Ready L pt p n`: at least `n` frames are free, and the kernel can write to the free frames and to the
  recorded ones; what the functions leave is ready for the rest of the work.
-/

namespace LemonCore.Kernel.Mm

variable {L : Layout} {pt pt' : PageTable} {p p' : Phys} {n k vpn : ℕ}

/-! ### Spending frames -/

/-- Work that took at most `k` frames from the free ones. -/
structure Spent (pt : PageTable) (p : Phys) (k : ℕ) (pt' : PageTable) (p' : Phys) : Prop where
  frames : p.allocator.freeCount ≤ p'.allocator.freeCount + k
  free : ∀ f, p'.allocator.Free f → p.allocator.Free f
  data : ∀ e ∈ pt'.dataFrames, e ∈ pt.dataFrames ∨ p.allocator.Free e.2

theorem Spent.refl (pt : PageTable) (p : Phys) : Spent pt p 0 pt p :=
  ⟨Nat.le_refl _, fun _ hf => hf, fun _ he => Or.inl he⟩

theorem Spent.trans {pt'' : PageTable} {p'' : Phys} {j : ℕ} (h₁ : Spent pt p j pt' p')
    (h₂ : Spent pt' p' k pt'' p'') : Spent pt p (j + k) pt'' p'' := by
  refine ⟨?_, fun f hf => h₁.free f (h₂.free f hf), fun e he => ?_⟩
  · have := h₁.frames
    have := h₂.frames
    omega
  · rcases h₂.data e he with he | hfree
    · exact h₁.data e he
    · exact Or.inr (h₁.free e.2 hfree)

theorem Spent.mono {j : ℕ} (h : Spent pt p j pt' p') (hjk : j ≤ k) : Spent pt p k pt' p' := by
  refine ⟨?_, h.free, h.data⟩
  have := h.frames
  omega

theorem Spent.setWord (h : Spent pt p k pt' p') (f i w : ℕ) : Spent pt p k pt' (p'.setWord f i w) :=
  ⟨h.frames, h.free, h.data⟩

theorem alloc_returns (pt : PageTable) (hcount : 1 ≤ p.allocator.freeCount) :
    ∃ f p', p.alloc = some (f, p') ∧ p.allocator.Free f ∧ Spent pt p 1 pt p' := by
  obtain ⟨f, a, ha, hfree, hsub, hone⟩ := StackFrameAllocator.alloc_returns hcount
  exact ⟨f, _, by rw [Phys.alloc, ha]; rfl, hfree, hone.le, hsub, fun _ he => Or.inl he⟩

theorem descendThenAlloc_returns (pt : PageTable) (hcount : 1 ≤ p.allocator.freeCount) (t i : ℕ) :
    ∃ c pt' p', PageTable.descendThenAlloc (t, pt, p) i = some (c, pt', p') ∧ Spent pt p 1 pt' p' := by
  rw [PageTable.descendThenAlloc]
  by_cases hv : isValid (p.memory t i)
  · exact ⟨ptePpn (p.memory t i), pt, p, by simp [hv], (Spent.refl pt p).mono (Nat.zero_le 1)⟩
  · obtain ⟨f, p₁, ha, _, hspent⟩ := alloc_returns pt hcount
    refine ⟨ptePpn ((p₁.setWord t i (pteNew f pteV)).memory t i),
      { pt with metadataFrames := pt.metadataFrames ++ [f] }, p₁.setWord t i (pteNew f pteV), ?_,
      hspent.frames, hspent.free, hspent.data⟩
    simp [hv, ha]

theorem findPteThenAlloc_returns (pt : PageTable) (hcount : 2 ≤ p.allocator.freeCount) (vpn : ℕ) :
    ∃ t pt' p', pt.findPteThenAlloc p vpn = some (t, pt', p') ∧ Spent pt p 2 pt' p' := by
  obtain ⟨t₁, pt₁, p₁, h₁, hspent₁⟩ :=
    descendThenAlloc_returns pt (p := p) (by omega) pt.rootPpn (vpn >>> 18 % 512)
  have hcount₁ := hspent₁.frames
  obtain ⟨t₂, pt₂, p₂, h₂, hspent₂⟩ := descendThenAlloc_returns pt₁ (p := p₁) (by omega) t₁ (vpn >>> 9 % 512)
  refine ⟨t₂, pt₂, p₂, ?_, hspent₁.trans hspent₂⟩
  rw [PageTable.findPteThenAlloc, indexes, List.foldlM_cons, h₁]
  simp [h₂]

/-- **`map` returns** on a page that is not mapped, with two frames for tables. -/
theorem map_returns (hcount : 2 ≤ p.allocator.freeCount) (ht : pt.Tables p)
    (hnone : pt.leaf p vpn = none) (ppn flags : ℕ) :
    ∃ pt' p', pt.map p vpn ppn flags = some (pt', p') ∧ Spent pt p 2 pt' p' := by
  obtain ⟨t, pt₁, p₁, hfind, hspent⟩ := findPteThenAlloc_returns pt hcount vpn
  obtain ⟨hg, hpte⟩ := PageTable.findPteThenAlloc_spec ht hfind
  have hinv : ¬ isValid (p₁.memory t (lastIndex vpn)) = true := by
    intro hv
    have hleaf := hg.leaf vpn
    rw [hnone, PageTable.leaf_eq, hpte] at hleaf
    simp [descend, hv] at hleaf
  refine ⟨pt₁, p₁.setWord t (lastIndex vpn) (pteNew ppn (flags ||| pteV)), ?_, hspent.setWord _ _ _⟩
  rw [PageTable.map, hfind]
  simp [hinv]

/-- **`map_one` returns**, with one frame more for the page. -/
theorem mapOne_returns (area : MapArea) (hcount : 3 ≤ p.allocator.freeCount) (hs : pt.Sound p)
    (hvpn : vpn < vpnEnd) (hnone : pt.leaf p vpn = none) :
    ∃ pt' p', area.mapOne (pt, p) vpn = some (pt', p') ∧ Spent pt p 3 pt' p' := by
  have hkey : ∀ e ∈ pt.dataFrames, e.1 ≠ vpn := by
    intro e he hev
    rw [← hev, (hs.recorded e he).2] at hnone
    cases hnone
  rw [MapArea.mapOne]
  cases hty : area.mapType with
  | framed =>
    obtain ⟨f, p₁, ha, hfree, hspent₁⟩ := alloc_returns pt (p := p) (by omega)
    have hcount₁ := hspent₁.frames
    obtain ⟨htab, hleaf, -⟩ := PageTable.recorded_ahead hs ha hkey
    have hrecorded : Spent pt p 1 (pt.insert vpn f).2 p₁ := by
      refine ⟨hspent₁.frames, hspent₁.free, fun e he => ?_⟩
      rcases PageTable.mem_insert.mp he with rfl | ⟨he, -⟩
      · exact Or.inr hfree
      · exact Or.inl he
    have hold : (pt.insert vpn f).1 = none := by simp [PageTable.insert, PageTable.find_eq_none hkey]
    obtain ⟨pt', p', hmap, hspent₂⟩ :=
      map_returns (by omega) htab ((hleaf vpn).trans hnone) f area.mapPerm.bits
    refine ⟨pt', p', ?_, hrecorded.trans hspent₂⟩
    simp only [ha, Option.bind_eq_bind, Option.bind_some, hold, Phys.dropFrame]
    exact hmap
  | identical =>
    obtain ⟨pt', p', hmap, hspent⟩ := map_returns (by omega) hs.toTables hnone vpn area.mapPerm.bits
    exact ⟨pt', p', hmap, hspent.mono (by omega)⟩
  | linear off =>
    have hlt : vpn < 2 ^ 27 := hvpn
    simp only [if_pos hlt, Option.bind_eq_bind, Option.bind_some]
    obtain ⟨pt', p', hmap, hspent⟩ :=
      map_returns (by omega) hs.toTables hnone (linearPpn off vpn) area.mapPerm.bits
    exact ⟨pt', p', hmap, hspent.mono (by omega)⟩

/-- **`map` of an area returns** if none of its pages is mapped. -/
theorem mapArea_returns {area : MapArea} (hcount : 3 * (area.stop - area.start) ≤ p.allocator.freeCount)
    (hs : pt.Sound p) (hnone : ∀ v, area.zone.Contains v → pt.leaf p v = none) :
    ∃ pt' p', area.map (pt, p) = some (pt', p') ∧ Spent pt p (3 * (area.stop - area.start)) pt' p' := by
  have hlength : area.vpns.length = area.stop - area.start := by simp [MapArea.vpns]
  have hnodup : area.vpns.Nodup := List.nodup_range'
  -- The pages still to come are not mapped yet, and there are frames for all of them.
  obtain ⟨⟨pt', p'⟩, hmap, hend⟩ := foldlM_returns
    (fun (rest : List ℕ) (st : PageTable × Phys) => st.1.Sound st.2 ∧ rest.length ≤ area.vpns.length ∧
      Spent pt p (3 * (area.vpns.length - rest.length)) st.1 st.2 ∧ rest.Nodup ∧
      ∀ v ∈ rest, v < vpnEnd ∧ st.1.leaf st.2 v = none)
    (by
      rintro v rest ⟨pt₁, p₁⟩ ⟨hs₁, hle, hspent₁, hnd, hfree⟩
      obtain ⟨hvpn, hleaf⟩ := hfree v List.mem_cons_self
      obtain ⟨hv, hnd'⟩ := List.nodup_cons.mp hnd
      have hcount₁ : p.allocator.freeCount ≤
          p₁.allocator.freeCount + 3 * (area.vpns.length - (v :: rest).length) := hspent₁.frames
      rw [List.length_cons] at hle hcount₁
      obtain ⟨pt₂, p₂, hone, hspent₂⟩ := mapOne_returns area (p := p₁) (by omega) hs₁ hvpn hleaf
      obtain ⟨-, hstep, -⟩ := MapArea.mapOne_spec hs₁ hvpn hone
      refine ⟨(pt₂, p₂), hone, hstep.sound, by omega, (hspent₁.trans hspent₂).mono ?_, hnd',
        fun w hw => ?_⟩
      · rw [List.length_cons]
        omega
      · obtain ⟨hwlt, hwleaf⟩ := hfree w (List.mem_cons_of_mem v hw)
        have hne : w ≠ v := fun heq => hv (heq ▸ hw)
        exact ⟨hwlt, (hstep.leaf w hwlt hne).trans hwleaf⟩)
    area.vpns (b := (pt, p)) ⟨hs, Nat.le_refl _, (Spent.refl pt p).mono (Nat.zero_le _), hnodup, fun v hv =>
      have hin := MemorySet.mem_vpns hv
      ⟨MapArea.vpn_lt hin, hnone v hin⟩⟩
  refine ⟨pt', p', hmap, ?_⟩
  have hspent := hend.2.2.1
  rw [List.length_nil, hlength] at hspent
  exact hspent

/-! ### Frames that the kernel can write to -/

structure Ready (L : Layout) (pt : PageTable) (p : Phys) (n : ℕ) : Prop where
  frames : n ≤ p.allocator.freeCount
  free : ∀ f, p.allocator.Free f → L.Writable f
  data : ∀ e ∈ pt.dataFrames, L.Writable e.2

namespace Ready

/-- What is left after spending some frames. -/
theorem spend (hr : Ready L pt p (n + k)) (h : Spent pt p k pt' p') : Ready L pt' p' n := by
  refine ⟨?_, fun f hf => hr.free f (h.free f hf), fun e he => ?_⟩
  · have := hr.frames
    have := h.frames
    omega
  · rcases h.data e he with he | hfree
    · exact hr.data e he
    · exact hr.free e.2 hfree

theorem alloc (hr : Ready L pt p (n + 1)) : ∃ f p', p.alloc = some (f, p') ∧ Ready L pt p' n := by
  have hcount := hr.frames
  obtain ⟨f, p', ha, _, hspent⟩ := alloc_returns pt (p := p) (by omega)
  exact ⟨f, p', ha, hr.spend hspent⟩

theorem map (hr : Ready L pt p (n + 2)) (ht : pt.Tables p) (hnone : pt.leaf p vpn = none) (ppn flags : ℕ) :
    ∃ pt' p', pt.map p vpn ppn flags = some (pt', p') ∧ Ready L pt' p' n := by
  have hcount := hr.frames
  obtain ⟨pt', p', hmap, hspent⟩ := map_returns (by omega) ht hnone ppn flags
  exact ⟨pt', p', hmap, hr.spend hspent⟩

theorem mapArea {area : MapArea} (hr : Ready L pt p (n + 3 * (area.stop - area.start))) (hs : pt.Sound p)
    (hnone : ∀ v, area.zone.Contains v → pt.leaf p v = none) :
    ∃ pt' p', area.map (pt, p) = some (pt', p') ∧ Ready L pt' p' n := by
  have hcount := hr.frames
  obtain ⟨pt', p', hmap, hspent⟩ := mapArea_returns (by omega) hs hnone
  exact ⟨pt', p', hmap, hr.spend hspent⟩

end Ready

end LemonCore.Kernel.Mm
