import LemonCore.Kernel.Frames

/-!
# Runs of the frame allocator

Calls of `alloc` and `dealloc` in any order, on an allocator for the frames from `l` to before `r`.  The
allocator takes the frames below `current` that are not on its stack to be in use.  It does not know `l`: a
frame below the range passes the check of `dealloc`, and is handed out afterwards.

* `Calls`: the runs, with the frames that were handed out and not given back;
* `Tracks`: what the allocator knows of them, as long as no frame below `l` is given back;
* `allocator_exact`: then its check, its answers and its count are right, and the check is wrong for exactly
  the frames below `l`.
-/

namespace LemonCore.Kernel.Mm.StackFrameAllocator

variable {l r ppn f : ℕ} {a a' : StackFrameAllocator} {out : List ℕ}

/-- The runs on the range from `l` to `r` in which `dealloc` is called with page numbers that meet `ok`. -/
inductive Calls (ok : ℕ → Prop) (l r : ℕ) : List ℕ → StackFrameAllocator → Prop
  | init (hle : l ≤ r) (hr : r ≤ 2 ^ 44) : Calls ok l r [] (.init l r hle hr)
  | alloc {out : List ℕ} {a a' : StackFrameAllocator} {f : ℕ} (h : Calls ok l r out a)
      (halloc : a.alloc = some (f, a')) : Calls ok l r (f :: out) a'
  | dealloc {out : List ℕ} {a a' : StackFrameAllocator} {ppn : ℕ} (h : Calls ok l r out a) (hok : ok ppn)
      (hdealloc : a.dealloc ppn = some a') : Calls ok l r (out.erase ppn) a'

/-- The frames `out` are those of the range that the allocator takes to be in use. -/
structure Tracks (l r : ℕ) (out : List ℕ) (a : StackFrameAllocator) : Prop where
  end_eq : a.endPpn = r
  le_current : l ≤ a.current
  le_recycled : ∀ f ∈ a.recycled, l ≤ f
  nodup : out.Nodup
  mem_iff : ∀ f, f ∈ out ↔ l ≤ f ∧ a.Allocated f
  length : out.length + a.recycled.length = a.current - l

theorem alloc_cases (h : a.alloc = some (f, a')) : a'.endPpn = a.endPpn ∧
    (a.recycled = f :: a'.recycled ∧ a'.current = a.current ∨
      a.recycled = [] ∧ a'.recycled = [] ∧ f = a.current ∧ a.current < a.endPpn ∧
        a'.current = a.current + 1) := by
  rw [alloc] at h
  split at h
  case h_1 ppn rest hr =>
    obtain ⟨rfl, rfl⟩ := Prod.mk.inj (Option.some.inj h)
    have hlt := a.recycled_lt ppn (hr ▸ List.mem_cons_self)
    rw [Nat.mod_eq_of_lt (hlt.trans_le (a.current_le.trans a.end_le))]
    exact ⟨rfl, Or.inl ⟨hr, rfl⟩⟩
  case h_2 hr =>
    split at h
    · cases h
    · rename_i hc
      obtain ⟨rfl, rfl⟩ := Prod.mk.inj (Option.some.inj h)
      have hlt := Nat.lt_of_le_of_ne a.current_le hc
      exact ⟨rfl, Or.inr ⟨hr, hr, Nat.mod_eq_of_lt (hlt.trans_le a.end_le), hlt, rfl⟩⟩

theorem alloc_eq_none_iff : a.alloc = none ↔ a.recycled = [] ∧ a.current = a.endPpn := by
  rw [alloc]
  split
  case h_1 hr => simp [hr]
  case h_2 hr => simp [hr]

theorem dealloc_fields (h : a.dealloc f = some a') :
    a'.endPpn = a.endPpn ∧ a'.current = a.current ∧ a'.recycled = f :: a.recycled := by
  rw [dealloc] at h
  split at h
  · obtain rfl := Option.some.inj h
    exact ⟨rfl, rfl, rfl⟩
  · cases h

theorem dealloc_isSome_iff : (a.dealloc ppn).isSome ↔ a.Allocated ppn := by
  constructor
  · intro h
    obtain ⟨a', ha'⟩ := Option.isSome_iff_exists.mp h
    exact (dealloc_spec ha').1
  · exact dealloc_isSome

theorem Tracks.alloc (ht : Tracks l r out a) (h : a.alloc = some (f, a')) :
    Tracks l r (f :: out) a' ∧ l ≤ f ∧ f < r ∧ f ∉ out := by
  obtain ⟨hnew, -, hal⟩ := alloc_spec h
  obtain ⟨hend, hfrom⟩ := alloc_cases h
  have hlength := ht.length
  have hle := ht.le_current
  have hout : f ∉ out := fun hmem => hnew ((ht.mem_iff f).mp hmem).2
  have hrange : l ≤ f ∧ f < r := by
    rcases hfrom with ⟨hr, -⟩ | ⟨-, -, hf, hlt, -⟩
    · have hmem : f ∈ a.recycled := hr ▸ List.mem_cons_self
      exact ⟨ht.le_recycled f hmem, (a.recycled_lt f hmem).trans_le (ht.end_eq ▸ a.current_le)⟩
    · exact ⟨hf ▸ hle, by rw [hf, ← ht.end_eq]; exact hlt⟩
  refine ⟨⟨hend.trans ht.end_eq, ?_, ?_, List.nodup_cons.mpr ⟨hout, ht.nodup⟩, ?_, ?_⟩, hrange.1, hrange.2,
    hout⟩
  · omega
  · rcases hfrom with ⟨hr, -⟩ | ⟨-, hr, -⟩
    · exact fun g hg => ht.le_recycled g (hr ▸ List.mem_cons_of_mem f hg)
    · rw [hr]
      exact fun g hg => absurd hg List.not_mem_nil
  · intro g
    rw [List.mem_cons, ht.mem_iff, hal]
    constructor
    · rintro (heq | ⟨hg, hgal⟩)
      · exact ⟨heq ▸ hrange.1, Or.inr heq⟩
      · exact ⟨hg, Or.inl hgal⟩
    · rintro ⟨hg, hgal | heq⟩
      · exact Or.inr ⟨hg, hgal⟩
      · exact Or.inl heq
  · rw [List.length_cons]
    rcases hfrom with ⟨hr, hcur⟩ | ⟨hr, hr', -, -, hcur⟩
    · rw [hr, List.length_cons] at hlength
      omega
    · rw [hr, List.length_nil] at hlength
      rw [hr', List.length_nil]
      omega

theorem Tracks.dealloc (ht : Tracks l r out a) (hl : l ≤ ppn) (h : a.dealloc ppn = some a') :
    Tracks l r (out.erase ppn) a' := by
  obtain ⟨hppn, hal⟩ := dealloc_spec h
  obtain ⟨hend, hcur, hrec⟩ := dealloc_fields h
  have hmem : ppn ∈ out := (ht.mem_iff ppn).mpr ⟨hl, hppn⟩
  have hlength := ht.length
  have hpos := List.length_pos_of_mem hmem
  refine ⟨hend.trans ht.end_eq, hcur ▸ ht.le_current, ?_, ht.nodup.erase ppn, ?_, ?_⟩
  · rw [hrec]
    exact List.forall_mem_cons.mpr ⟨hl, ht.le_recycled⟩
  · intro g
    rw [ht.nodup.mem_erase_iff, ht.mem_iff, hal]
    tauto
  · rw [List.length_erase_of_mem hmem, hrec, List.length_cons, hcur]
    omega

theorem Calls.tracks (h : Calls (l ≤ ·) l r out a) : Tracks l r out a := by
  induction h with
  | init hle hr =>
    have hno : ∀ f, ¬ (l ≤ f ∧ (StackFrameAllocator.init l r hle hr).Allocated f) :=
      fun f hf => absurd hf.2.1 (Nat.not_lt.mpr hf.1)
    refine ⟨rfl, le_rfl, ?_, List.nodup_nil, ?_, ?_⟩
    · exact fun f hf => absurd hf List.not_mem_nil
    · exact fun f => iff_of_false List.not_mem_nil (hno f)
    · exact (Nat.sub_self l).symm
  | alloc _ halloc ih => exact (ih.alloc halloc).1
  | dealloc _ hok hdealloc ih => exact ih.dealloc hok hdealloc

/-- **The allocator is exact** as long as no frame below `l` is given back. -/
theorem allocator_exact (h : Calls (l ≤ ·) l r out a) :
    (∀ ppn, ((a.dealloc ppn).isSome ↔ ppn ∈ out) ↔ l ≤ ppn) ∧
      (∀ f a', a.alloc = some (f, a') → l ≤ f ∧ f < r ∧ f ∉ out) ∧
      (a.alloc = none ↔ ∀ f, l ≤ f → f < r → f ∈ out) ∧
      out.length + a.recycled.length = a.current - l := by
  have ht := h.tracks
  refine ⟨?_, fun f a' halloc => (ht.alloc halloc).2, ?_, ht.length⟩
  · intro ppn
    rw [dealloc_isSome_iff, ht.mem_iff]
    constructor
    · -- a frame below the range is below `current`, and was never recycled
      intro hiff
      by_contra hlt
      have hal : a.Allocated ppn := ⟨(Nat.lt_of_not_le hlt).trans_le ht.le_current,
        fun hmem => hlt (ht.le_recycled ppn hmem)⟩
      exact hlt (hiff.mp hal).1
    · intro hle
      exact ⟨fun hal => ⟨hle, hal⟩, fun hal => hal.2⟩
  · rw [alloc_eq_none_iff, ht.end_eq]
    constructor
    · rintro ⟨hrec, hcur⟩ f hle hlt
      exact (ht.mem_iff f).mpr ⟨hle, hcur ▸ hlt, by rw [hrec]; exact List.not_mem_nil⟩
    · intro hall
      constructor
      · apply List.eq_nil_iff_forall_not_mem.mpr
        intro f hf
        have hlt := (a.recycled_lt f hf).trans_le (ht.end_eq ▸ a.current_le)
        exact ((ht.mem_iff f).mp (hall f (ht.le_recycled f hf) hlt)).2.2 hf
      · refine Nat.le_antisymm (ht.end_eq ▸ a.current_le) (Nat.le_of_not_lt fun hlt => ?_)
        exact absurd ((ht.mem_iff _).mp (hall a.current ht.le_current hlt)).2.1 (lt_irrefl _)

/-- Of the frames 5 to 7 the first is handed out. -/
theorem allocator_exact_three : ∃ a, Calls (5 ≤ ·) 5 8 [5] a ∧
    [5].length + a.recycled.length = a.current - 5 := by
  have h : Calls (5 ≤ ·) 5 8 [5] _ := .alloc (.init (by decide) (by decide)) rfl
  exact ⟨_, h, (allocator_exact h).2.2.2⟩

/-- On the frames 5 to 7, `dealloc` accepts frame 3, which was never handed out, and `alloc` returns it. -/
theorem dealloc_below_range : ∃ a a' a'', Calls (fun _ => True) 5 8 [] a ∧ a.dealloc 3 = some a' ∧
    Calls (fun _ => True) 5 8 [] a' ∧ a'.alloc = some (3, a'') := by
  have h : Calls (fun _ => True) 5 8 [] (.init 5 8 (by decide) (by decide)) := .init _ _
  refine ⟨_, _, _, h, rfl, ?_, rfl⟩
  show Calls (fun _ => True) 5 8 (([] : List ℕ).erase 3) _
  exact .dealloc h trivial rfl

end LemonCore.Kernel.Mm.StackFrameAllocator
