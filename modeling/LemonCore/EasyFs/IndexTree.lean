import LemonCore.EasyFs.Layout
import LemonCore.Foundation.PointerTree

/-!
# `build_tree` and `collect_tree`

An index block of 128 words is an index cell of the trees of `Foundation.PointerTree`.  Here is what
the two recursive functions of `layout.rs` do to such a tree:

* `buildTree_spec`: a tree grows from its first `s` to its first `t` leaves, and the new blocks are
  used up exactly;
* `collectTree_spec`: the blocks of a tree are collected, each once, and no block changes.

Both hold an index block of every level at once, so `levels` more borrows must fit in the cache, and
no block of the tree may already be held.
-/

namespace LemonCore.EasyFs

open Foundation.BorrowProgram Foundation.PointerTree

/-- Index blocks as index cells. -/
def indexing : Indexing Block where
  fan := indirectCount
  fan_pos := by decide
  word := fun x j => x.u32 (4 * j)

theorem fan_eq : indexing.fan = 128 := rfl

instance : Nonempty Block := ⟨Block.zero⟩

theorem word_setU32_same (x : Block) {j v : ℕ} (hj : j < 128) (hv : v < 2 ^ 32) :
    indexing.word (x.setU32 (4 * j) v) j = v :=
  x.u32_setU32_same (by omega) hv

theorem word_setU32_other (x : Block) {i j v : ℕ} (hi : i < 128) (hij : i ≠ j) :
    indexing.word (x.setU32 (4 * j) v) i = indexing.word x i :=
  x.u32_setU32_other (by omega) (by omega)

/-! ### Where a subtree starts -/

section Arithmetic

variable {k c src dst s t lo : ℕ}

/-- The loop is not over, so the next subtree gets leaves and starts at its own first leaf. -/
theorem loop_goes_on (ht : t = min (dst - c) (indexing.fan ^ (k + 1))) (hlo : lo < 128)
    (h : c + min (lo * indexing.fan ^ k) t < dst) :
    lo * indexing.fan ^ k < t := by
  have hpos := indexing.pow_pos k
  have hpow : indexing.fan ^ (k + 1) = 128 * indexing.fan ^ k := Nat.pow_succ'
  have hlt : (lo + 1) * indexing.fan ^ k ≤ 128 * indexing.fan ^ k := Nat.mul_le_mul_right _ hlo
  rw [Nat.add_mul] at hlt
  omega

theorem loop_stops (ht : t = min (dst - c) (indexing.fan ^ (k + 1))) (hc : c ≤ dst)
    (h : dst ≤ c + min (lo * indexing.fan ^ k) t) : t ≤ lo * indexing.fan ^ k := by
  omega

theorem part_of_loop {n m : ℕ} (hn : n = min (m - c) (indexing.fan ^ (k + 1))) (hlo : lo < 128) :
    part n (indexing.fan ^ k) lo = min (m - (c + lo * indexing.fan ^ k)) (indexing.fan ^ k) := by
  have hpow : indexing.fan ^ (k + 1) = 128 * indexing.fan ^ k := Nat.pow_succ'
  have hlt : (lo + 1) * indexing.fan ^ k ≤ 128 * indexing.fan ^ k := Nat.mul_le_mul_right _ hlo
  rw [Nat.add_mul] at hlt
  rw [part]
  omega

theorem next_start (h : lo * indexing.fan ^ k < t) :
    c + lo * indexing.fan ^ k + part t (indexing.fan ^ k) lo =
      c + min ((lo + 1) * indexing.fan ^ k) t := by
  rw [part, Nat.add_mul]
  omega

end Arithmetic

/-! ### Growing -/

variable {d : Disk} {held : List ℕ}

/-- What `build_tree` is called with: a tree with root `r` whose leaves `c .. ` exist up to `src` and
are wanted up to `dst`, and as many new blocks as that needs. -/
structure BuildPre (d : Disk) (held : List ℕ) (k r s t : ℕ) (v : List ℕ) : Prop where
  nodup : (indexing.base d k r s ++ v).Nodup
  free : ∀ b ∈ indexing.base d k r s ++ v, b ∉ held
  fits : ∀ b ∈ v, b < 2 ^ 32
  length : v.length + (indexing.base d k r s).length = indexing.count k t

/-- The contract of `build_tree` at one level. -/
def BuildSpec (k : ℕ) : Prop :=
  ∀ (d : Disk) (held : List ℕ) (r c src dst s t : ℕ) (v rest : List ℕ),
    s = min (src - c) (indexing.fan ^ k) → t = min (dst - c) (indexing.fan ^ k) →
    c < dst → src ≤ dst → held.length + k ≤ blockCacheSize → BuildPre d held k r s t v →
    dwp (buildTree k (v ++ rest) r c src dst) held d
      (fun o d' => o = (c + t, rest) ∧ indexing.Grows d d' k r s t v) fun _ => False

theorem buildSpec_zero : BuildSpec 0 := by
  intro d held r c src dst s t v rest hs ht hc hsd _ hpre
  have ht1 : t = 1 := by rw [ht, Nat.pow_zero]; omega
  have hs1 : s ≤ 1 := by rw [hs, Nat.pow_zero]; omega
  have hbase : indexing.base d 0 r s = [r] := by
    rcases Nat.eq_zero_or_pos s with rfl | hpos
    · rfl
    · rw [show s = 1 by omega]
      rfl
  have hlen := hpre.length
  rw [hbase, ht1] at hlen
  have hv : v = [] := List.length_eq_zero_iff.mp (by simpa [Indexing.count, Indexing.innerCount] using hlen)
  subst hv ht1
  refine wp_pure'.mpr ⟨rfl, ⟨?_, fun _ _ => rfl, fun _ _ => rfl, fun _ hb => hb⟩⟩
  rw [hbase]
  exact List.Perm.refl _

/-- The recursive call in the loop of `build_tree`. -/
abbrev buildChild (k src dst : ℕ) : List ℕ → ℕ → ℕ → DiskProg (ℕ × List ℕ) :=
  fun blocks indirect curLeaf => buildTree k blocks indirect curLeaf src dst

/-- **One turn of the loop** grows subtree `lo`; a subtree that had no leaves gets its root `p` from
the new blocks. -/
theorem step_spec {k : ℕ} (hk : BuildSpec k) {c src dst s t lo p : ℕ} {x : Block}
    {v₁ rest : List ℕ}
    (hs : s = min (src - c) (indexing.fan ^ (k + 1)))
    (ht : t = min (dst - c) (indexing.fan ^ (k + 1)))
    (hsd : src ≤ dst) (hlo : lo < 128) (hgo : lo * indexing.fan ^ k < t)
    (hcache : held.length + k ≤ blockCacheSize)
    (hold : 0 < part s (indexing.fan ^ k) lo → indexing.word x lo = p) (hp : p < 2 ^ 32)
    (hpre : BuildPre d held k p (part s (indexing.fan ^ k) lo) (part t (indexing.fan ^ k) lo) v₁) :
    dwp (Building.step (buildChild k src dst) src lo ⟨x, c + lo * indexing.fan ^ k,
        (if part s (indexing.fan ^ k) lo = 0 then [p] else []) ++ v₁ ++ rest⟩) held d
      (fun st d' => st.curLeaf = c + min ((lo + 1) * indexing.fan ^ k) t ∧ st.blocks = rest ∧
        indexing.Extends d d' ⟨k, indexing.word x lo, part s (indexing.fan ^ k) lo⟩
          ⟨k, indexing.word st.block lo, part t (indexing.fan ^ k) lo⟩
          ((if part s (indexing.fan ^ k) lo = 0 then [p] else []) ++ v₁) ∧
        ∀ j, j < 128 → j ≠ lo → indexing.word st.block j = indexing.word x j) fun _ => False := by
  have hs' := part_of_loop hs hlo
  have ht' := part_of_loop ht hlo
  have hpos := indexing.pow_pos k
  have hlt : c + lo * indexing.fan ^ k < dst := by omega
  have hnext := next_start (c := c) hgo
  -- the call on the subtree, once its pointer is in place
  have hcall : ∀ y : Block, indexing.word y lo = p →
      (∀ j, j < 128 → j ≠ lo → indexing.word y j = indexing.word x j) →
      dwp (do
        let out ← buildChild k src dst (v₁ ++ rest) (y.u32 (4 * lo)) (c + lo * indexing.fan ^ k)
        pure (⟨y, out.1, out.2⟩ : Building)) held d
      (fun st d' => st.curLeaf = c + min ((lo + 1) * indexing.fan ^ k) t ∧ st.blocks = rest ∧
        indexing.Extends d d' ⟨k, indexing.word x lo, part s (indexing.fan ^ k) lo⟩
          ⟨k, indexing.word st.block lo, part t (indexing.fan ^ k) lo⟩
          ((if part s (indexing.fan ^ k) lo = 0 then [p] else []) ++ v₁) ∧
        ∀ j, j < 128 → j ≠ lo → indexing.word st.block j = indexing.word x j) fun _ => False := by
    intro y hy hother
    rw [show y.u32 (4 * lo) = p from hy]
    refine wp_bind'.mpr (wp_mono (hk d held p _ src dst _ _ v₁ rest hs' ht' hlt hsd hcache hpre)
      ?_ fun _ h => h)
    rintro ⟨cur, bs⟩ d' ⟨ho, hgrow⟩
    obtain ⟨rfl, rfl⟩ := Prod.mk.inj ho
    have hext := hgrow.extends (part_mono (by omega) _ _) (part_le _ _ _) hold
    rw [← hy] at hext
    rw [← hy]
    exact wp_pure'.mpr ⟨hnext, rfl, hext, hother⟩
  rw [Building.step]
  by_cases hnew : src ≤ c + lo * indexing.fan ^ k
  · have hzero : part s (indexing.fan ^ k) lo = 0 := by omega
    have hword := word_setU32_same x hlo hp
    rw [if_pos hnew, if_pos hzero]
    rw [if_pos hzero] at hcall
    exact hcall _ hword fun j hj hne => word_setU32_other x hj hne
  · have hsome : part s (indexing.fan ^ k) lo ≠ 0 := by omega
    rw [if_neg hnew, if_neg hsome]
    rw [if_neg hsome] at hcall
    exact hcall x (hold (by omega)) fun _ _ _ => rfl

/-- What the loop of `build_tree` needs from entry `lo` on, with `m` entries to go. -/
structure LoopPre (d : Disk) (held : List ℕ) (k s t lo m : ℕ) (x : Block) (v : List ℕ) : Prop where
  nodup : (indexing.forest d (indexing.kids k (indexing.word x) s lo m) ++ v).Nodup
  free : ∀ b ∈ indexing.forest d (indexing.kids k (indexing.word x) s lo m) ++ v, b ∉ held
  fits : ∀ b ∈ v, b < 2 ^ 32
  length : v.length + indexing.kidsCount k s lo m = indexing.kidsCount k t lo m

/-- The new blocks split into what subtree `lo` takes and what is left for the others. -/
theorem LoopPre.split {k s t lo m : ℕ} {x : Block} {v : List ℕ}
    (h : LoopPre d held k s t lo (m + 1) x v) (hst : s ≤ t) (hgo : lo * indexing.fan ^ k < t) :
    ∃ p v₁ v₂, v = (if part s (indexing.fan ^ k) lo = 0 then [p] else []) ++ v₁ ++ v₂ ∧
      (0 < part s (indexing.fan ^ k) lo → indexing.word x lo = p) ∧ p < 2 ^ 32 ∧
      v₁.length + (indexing.base d k p (part s (indexing.fan ^ k) lo)).length =
        indexing.count k (part t (indexing.fan ^ k) lo) ∧
      v₂.length + indexing.kidsCount k s (lo + 1) m = indexing.kidsCount k t (lo + 1) m := by
  have hlen := h.length
  rw [Indexing.kidsCount_succ, Indexing.kidsCount_succ] at hlen
  have htpos : 0 < part t (indexing.fan ^ k) lo := part_pos (indexing.pow_pos k) hgo
  have hrest : indexing.kidsCount k s (lo + 1) m ≤ indexing.kidsCount k t (lo + 1) m :=
    indexing.kidsCount_mono hst
  by_cases hs : part s (indexing.fan ^ k) lo = 0
  · have hcount := indexing.count_pos (k := k) htpos
    rw [hs, indexing.count_zero] at hlen
    obtain ⟨p, v', rfl⟩ : ∃ p v', v = p :: v' := by
      cases v with
      | nil => rw [List.length_nil] at hlen; omega
      | cons p v' => exact ⟨p, v', rfl⟩
    rw [List.length_cons] at hlen
    refine ⟨p, v'.take (indexing.count k (part t (indexing.fan ^ k) lo) - 1),
      v'.drop (indexing.count k (part t (indexing.fan ^ k) lo) - 1), ?_,
      fun h0 => absurd hs (by omega), h.fits p List.mem_cons_self, ?_, ?_⟩
    · rw [if_pos hs, List.append_assoc, List.take_append_drop, List.singleton_append]
    · rw [hs, Indexing.base, if_pos rfl, List.length_singleton, List.length_take]
      omega
    · rw [List.length_drop]
      omega
  · have hmono := indexing.count_mono (k := k) (part_mono hst (indexing.fan ^ k) lo)
    refine ⟨indexing.word x lo, v.take (indexing.count k (part t (indexing.fan ^ k) lo) -
        indexing.count k (part s (indexing.fan ^ k) lo)),
      v.drop (indexing.count k (part t (indexing.fan ^ k) lo) -
        indexing.count k (part s (indexing.fan ^ k) lo)), ?_, fun _ => rfl, x.u32_lt _, ?_, ?_⟩
    · rw [if_neg hs, List.nil_append, List.take_append_drop]
    · rw [Indexing.base, if_neg hs, indexing.length_blocks, List.length_take]
      omega
    · rw [List.length_drop]
      omega

/-- The blocks of a tree and its new ones, with the root a tree without leaves is given. -/
theorem base_append_perm (d : Disk) (k : ℕ) {s r p : ℕ} (v₁ : List ℕ) (hold : 0 < s → r = p) :
    (indexing.base d k p s ++ v₁).Perm
      (indexing.forest d [⟨k, r, s⟩] ++ ((if s = 0 then [p] else []) ++ v₁)) := by
  by_cases hs : s = 0
  · simp [Indexing.base, Indexing.forest, hs]
  · simp [Indexing.base, Indexing.forest, hs, hold (by omega)]

/-- **The loop of `build_tree`** grows the subtrees from `lo` on. -/
theorem buildLoop_spec {k : ℕ} (hk : BuildSpec k) {c src dst s t : ℕ} (rest : List ℕ)
    (hs : s = min (src - c) (indexing.fan ^ (k + 1)))
    (ht : t = min (dst - c) (indexing.fan ^ (k + 1)))
    (hc : c < dst) (hsd : src ≤ dst) (hcache : held.length + k ≤ blockCacheSize) :
    ∀ m lo, lo + m = 128 → ∀ (d : Disk) (x : Block) (v : List ℕ), LoopPre d held k s t lo m x v →
      dwp (Prog.forUntil (fun s : Building => dst ≤ s.curLeaf)
          (Building.step (buildChild k src dst) src) (List.range' lo m)
          ⟨x, c + min (lo * indexing.fan ^ k) t, v ++ rest⟩) held d
        (fun st d' => st.curLeaf = c + t ∧ st.blocks = rest ∧
          indexing.ForestGrows d d' (indexing.kids k (indexing.word x) s lo m)
            (indexing.kids k (indexing.word st.block) t lo m) v ∧
          ∀ j, j < lo → indexing.word st.block j = indexing.word x j) fun _ => False := by
  have hst : s ≤ t := by omega
  have htop : t ≤ 128 * indexing.fan ^ k := by
    have hpow : indexing.fan ^ (k + 1) = 128 * indexing.fan ^ k := Nat.pow_succ'
    omega
  -- nothing is left to do once no leaves are missing
  have hdone : ∀ m lo (d : Disk) (x : Block) (v : List ℕ), LoopPre d held k s t lo m x v →
      t ≤ lo * indexing.fan ^ k →
      (c + min (lo * indexing.fan ^ k) t = c + t ∧ v ++ rest = rest ∧
        indexing.ForestGrows d d (indexing.kids k (indexing.word x) s lo m)
          (indexing.kids k (indexing.word x) t lo m) v ∧
        ∀ j, j < lo → indexing.word x j = indexing.word x j) := by
    intro m lo d x v hpre hle
    have hlen := hpre.length
    rw [indexing.kidsCount_done hle] at hlen
    have hv : v = [] := List.length_eq_zero_iff.mp (by omega)
    subst hv
    exact ⟨by omega, rfl, Indexing.ForestGrows.done hle hst, fun _ _ => rfl⟩
  intro m
  induction m with
  | zero =>
    intro lo hlo d x v hpre
    exact wp_pure.mpr <| hdone 0 lo d x v hpre (by rw [show lo = 128 by omega]; exact htop)
  | succ m ih =>
    intro lo hlo d x v hpre
    rw [List.range'_succ, Prog.forUntil]
    by_cases hstop : dst ≤ c + min (lo * indexing.fan ^ k) t
    · rw [if_pos (decide_eq_true hstop)]
      exact wp_pure.mpr <| hdone _ lo d x v hpre (loop_stops ht (by omega) hstop)
    · rw [if_neg (by simpa using hstop)]
      have hgo := loop_goes_on ht (by omega) (Nat.not_le.mp hstop)
      obtain ⟨p, v₁, v₂, rfl, hold, hp, hlen₁, hlen₂⟩ := hpre.split hst hgo
      have hfirst := base_append_perm d k v₁ hold
      -- all cells: those of subtree `lo`, then those of the others
      have hperm : (indexing.forest d (indexing.kids k (indexing.word x) s lo (m + 1)) ++
          ((if part s (indexing.fan ^ k) lo = 0 then [p] else []) ++ v₁ ++ v₂)).Perm
          (indexing.base d k p (part s (indexing.fan ^ k) lo) ++ v₁ ++
            (indexing.forest d (indexing.kids k (indexing.word x) s (lo + 1) m) ++ v₂)) := by
        refine List.Perm.trans ?_ (hfirst.symm.append_right _)
        rw [Indexing.kids_succ, Indexing.forest_cons,
          show indexing.forest d [⟨k, indexing.word x lo, part s (indexing.fan ^ k) lo⟩] =
            indexing.blocks d k (indexing.word x lo) (part s (indexing.fan ^ k) lo)
            from List.append_nil _]
        exact perm_append_middle _ _ _ _
      have hnd := hperm.nodup_iff.mp hpre.nodup
      have hfree : ∀ b ∈ _, b ∉ held := fun b hb => hpre.free b (hperm.mem_iff.mpr hb)
      obtain ⟨hnd₁, hnd₂, hdis⟩ := List.nodup_append.mp hnd
      have hchild : BuildPre d held k p (part s (indexing.fan ^ k) lo)
          (part t (indexing.fan ^ k) lo) v₁ :=
        ⟨hnd₁, fun b hb => hfree b (List.mem_append_left _ hb),
          fun b hb => hpre.fits b (by simp [hb]), hlen₁⟩
      rw [Nat.min_eq_left (Nat.le_of_lt hgo), List.append_assoc]
      refine wp_bind.mpr (wp_mono (step_spec hk hs ht hsd (by omega) hgo hcache hold hp hchild)
        ?_ fun _ h => h)
      rintro ⟨y, cur, bs⟩ d₁ ⟨rfl, rfl, hext, hother⟩
      have hdis' : ∀ b ∈ indexing.forest d [⟨k, indexing.word x lo, part s (indexing.fan ^ k) lo⟩] ++
          ((if part s (indexing.fan ^ k) lo = 0 then [p] else []) ++ v₁),
          b ∉ indexing.forest d (indexing.kids k (indexing.word x) s (lo + 1) m) ++ v₂ :=
        fun b hb hm => hdis b (hfirst.mem_iff.mpr hb) b hm rfl
      -- the subtrees after `lo` are as they were
      have hlist : indexing.kids k (indexing.word y) s (lo + 1) m =
          indexing.kids k (indexing.word x) s (lo + 1) m :=
        Indexing.kids_congr fun j h1 h2 => hother j (by omega) (by omega)
      have hcells := (hext.forest_eq indexing.bounded_kids fun b hb hm =>
        hdis' b hb (List.mem_append_left _ hm)).1
      have hpre' : LoopPre d₁ held k s t (lo + 1) m y v₂ := by
        refine ⟨?_, ?_, fun b hb => hpre.fits b (by simp [hb]), hlen₂⟩
        · rw [hlist, hcells]
          exact hnd₂
        · rw [hlist, hcells]
          exact fun b hb => hfree b (List.mem_append_right _ hb)
      refine wp_mono (ih (lo + 1) (by omega) d₁ y v₂ hpre') ?_ fun _ h => h
      rintro st d₂ ⟨hcur, hblocks, hgrow, hlow⟩
      refine ⟨hcur, hblocks, ?_, ?_⟩
      · rw [hlist] at hgrow
        rw [← hlow lo (by omega)] at hext
        rw [Indexing.kids_succ, Indexing.kids_succ]
        exact Indexing.ForestGrows.cons hext hgrow indexing.bounded_kids hdis'
      · intro j hj
        rw [hlow j (by omega), hother j (by omega) (by omega)]

/-- **Growth.**  `build_tree` grows a tree to the leaves wanted and uses up the new blocks. -/
theorem buildTree_spec : ∀ k, BuildSpec k := by
  intro k
  induction k with
  | zero => exact buildSpec_zero
  | succ k ih =>
    intro d held r c src dst s t v rest hs ht hc hsd hcache hpre
    have htpos : 0 < t := by
      have := indexing.pow_pos (k + 1)
      omega
    have hst : s ≤ t := by omega
    have hbase := indexing.base_perm_kids (d := d) (r := r) (s := s) (k := k) (by omega)
    have hperm := hbase.append_right v
    have hnd := hperm.nodup_iff.mp hpre.nodup
    rw [List.cons_append, List.nodup_cons] at hnd
    have hfree : ∀ b ∈ _, b ∉ held := fun b hb => hpre.free b (hperm.mem_iff.mpr hb)
    have hr : r ∉ held := hfree r (by simp)
    have hloop : LoopPre d (r :: held) k s t 0 128 (d r) v := by
      refine ⟨hnd.2, ?_, hpre.fits, ?_⟩
      · intro b hb hmem
        rcases List.mem_cons.mp hmem with rfl | hmem
        · exact hnd.1 hb
        · exact hfree b (by rw [List.cons_append]; exact List.mem_cons_of_mem _ hb) hmem
      · have hlen := hpre.length
        have hblen := hbase.length_eq
        rw [List.length_cons, indexing.length_kids, fan_eq] at hblen
        rw [indexing.count_succ htpos (by omega), fan_eq] at hlen
        omega
    have hlen : (r :: held).length + k ≤ blockCacheSize := by
      rw [List.length_cons]
      omega
    rw [buildTree]
    refine wp_update hr (by omega) (wp_bind'.mpr ?_)
    have hrun := buildLoop_spec ih rest hs ht hc hsd hlen 128 0 rfl d (d r) v hloop
    rw [Nat.zero_mul, Nat.zero_min, Nat.add_zero] at hrun
    rw [List.range_eq_range']
    refine wp_mono hrun ?_ fun _ h => h
    rintro st d' ⟨hcur, hblocks, hgrow, -⟩
    exact wp_pure'.mpr ⟨by rw [hcur, hblocks], hgrow.tree htpos hst (by omega) hnd.1⟩

/-! ### Collecting -/

/-- The contract of `collect_tree` at one level. -/
def CollectSpec (k : ℕ) : Prop :=
  ∀ (d : Disk) (held : List ℕ) (r c max t : ℕ) (collected : List ℕ),
    t = min (max - c) (indexing.fan ^ k) → c < max → held.length + k ≤ blockCacheSize →
    (indexing.blocks d k r t).Nodup → (∀ b ∈ indexing.blocks d k r t, b ∉ held) →
    dwp (collectTree k collected r c max) held d
      (fun o d' => d' = d ∧ o.1 = c + t ∧
        ∃ u, o.2 = collected ++ u ∧ (r :: u).Perm (indexing.blocks d k r t)) fun _ => False

theorem collectSpec_zero : CollectSpec 0 := by
  intro d held r c max t collected ht hc _ _ _
  have ht1 : t = 1 := by rw [ht, Nat.pow_zero]; omega
  subst ht1
  exact wp_pure'.mpr ⟨rfl, rfl, [], (List.append_nil _).symm, List.Perm.refl _⟩

theorem collectLoop_spec (held : List ℕ) (d : Disk) (x : Block) {k : ℕ} (hk : CollectSpec k)
    {c max t : ℕ}
    (ht : t = min (max - c) (indexing.fan ^ (k + 1))) (hc : c < max)
    (hcache : held.length + k ≤ blockCacheSize) :
    ∀ m lo, lo + m = 128 → ∀ collected : List ℕ,
      (indexing.forest d (indexing.kids k (indexing.word x) t lo m)).Nodup →
      (∀ b ∈ indexing.forest d (indexing.kids k (indexing.word x) t lo m), b ∉ held) →
      dwp (Prog.forUntil (fun s : ℕ × List ℕ => max ≤ s.1)
          (fun j s => collectTree k (s.2 ++ [x.u32 (4 * j)]) (x.u32 (4 * j)) s.1 max)
          (List.range' lo m) (c + min (lo * indexing.fan ^ k) t, collected)) held d
        (fun o d' => d' = d ∧ o.1 = c + t ∧
          ∃ u, o.2 = collected ++ u ∧ u.Perm (indexing.forest d (indexing.kids k (indexing.word x) t lo m)))
        fun _ => False := by
  have hpow : indexing.fan ^ (k + 1) = 128 * indexing.fan ^ k := Nat.pow_succ'
  have hdone : ∀ m lo (collected : List ℕ), t ≤ lo * indexing.fan ^ k →
      (d = d ∧ c + min (lo * indexing.fan ^ k) t = c + t ∧
        ∃ u, collected = collected ++ u ∧
          u.Perm (indexing.forest d (indexing.kids k (indexing.word x) t lo m))) := by
    intro m lo collected hle
    rw [indexing.forest_kids_done hle]
    exact ⟨rfl, by omega, [], (List.append_nil _).symm, List.Perm.refl _⟩
  intro m
  induction m with
  | zero =>
    intro lo hlo collected _ _
    exact wp_pure.mpr <| hdone 0 lo collected (by rw [show lo = 128 by omega]; omega)
  | succ m ih =>
    intro lo hlo collected hnd hfree
    rw [List.range'_succ, Prog.forUntil]
    by_cases hstop : max ≤ c + min (lo * indexing.fan ^ k) t
    · rw [if_pos (decide_eq_true hstop)]
      exact wp_pure.mpr <| hdone _ lo collected (loop_stops ht (by omega) hstop)
    · rw [if_neg (by simpa using hstop)]
      have hgo := loop_goes_on ht (by omega) (Nat.not_le.mp hstop)
      rw [Indexing.kids_succ, Indexing.forest_cons] at hnd hfree ⊢
      obtain ⟨hnd₁, hnd₂, -⟩ := List.nodup_append.mp hnd
      have ht' := part_of_loop ht (show lo < 128 by omega)
      rw [Nat.min_eq_left (Nat.le_of_lt hgo)]
      refine wp_bind.mpr (wp_mono (hk d held _ _ max _ _ ht' (by omega) hcache hnd₁
        fun b hb => hfree b (List.mem_append_left _ hb)) ?_ fun _ h => h)
      rintro ⟨cur, col⟩ d₁ ⟨rfl, hcur, u₁, hcol, hperm₁⟩
      have hrest := ih (lo + 1) (by omega) col hnd₂ fun b hb => hfree b (List.mem_append_right _ hb)
      rw [← next_start hgo, ← hcur] at hrest
      refine wp_mono hrest ?_ fun _ h => h
      rintro ⟨cur', col'⟩ d₂ ⟨rfl, hcur', u₂, hcol', hperm₂⟩
      refine ⟨rfl, hcur', indexing.word x lo :: u₁ ++ u₂, ?_, hperm₁.append hperm₂⟩
      have hcol₁ : col = collected ++ [x.u32 (4 * lo)] ++ u₁ := hcol
      rw [hcol', hcol₁, List.append_assoc, List.append_assoc, List.singleton_append]
      rfl

/-- **Collection.**  `collect_tree` gives the blocks of a tree, all but the root the caller has. -/
theorem collectTree_spec : ∀ k, CollectSpec k := by
  intro k
  induction k with
  | zero => exact collectSpec_zero
  | succ k ih =>
    intro d held r c max t collected ht hc hcache hnd hfree
    have htpos : 0 < t := by
      have := indexing.pow_pos (k + 1)
      omega
    have hperm := indexing.blocks_perm_kids (d := d) (r := r) (k := k) htpos (by omega)
    have hnd' := hperm.nodup_iff.mp hnd
    rw [List.nodup_cons] at hnd'
    have hfree' : ∀ b ∈ _, b ∉ held := fun b hb => hfree b (hperm.mem_iff.mpr hb)
    rw [collectTree]
    refine wp_borrow (hfree' r List.mem_cons_self) (by omega) ?_
    have hrun := collectLoop_spec (r :: held) d (d r) ih ht hc
      (by rw [List.length_cons]; omega) 128 0 rfl collected hnd'.2 (by
        intro b hb hmem
        rcases List.mem_cons.mp hmem with rfl | hmem
        · exact hnd'.1 hb
        · exact hfree' b (List.mem_cons_of_mem _ hb) hmem)
    rw [Nat.zero_mul, Nat.zero_min, Nat.add_zero] at hrun
    rw [List.range_eq_range']
    refine wp_mono hrun ?_ fun _ h => h
    rintro o d' ⟨hd, hcur, u, hcol, hu⟩
    exact ⟨hd, hcur, u, hcol, (hu.cons r).trans hperm.symm⟩

end LemonCore.EasyFs
