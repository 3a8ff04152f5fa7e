import Mathlib

/-!
# Parties that share one heap

Several parties allocate cells from one heap; each party owns the cells it holds.  A piece of work done
for one party has a *footprint*: it leaves every live cell outside the party's own cells alive and
unchanged, and what it adds to the party's cells was not live before.

* `Footprint.trans`: footprints compose, so a function that is built from footprint-respecting parts
  respects it;
* `NoLeak`: no cell gets out of hand; `NoLeak.live_iff`: with it the footprint says what is live;
* `Exclusive`: every owned cell is live and has one owner;
* `Exclusive.update`: work with a footprint for one party keeps the heap exclusive;
* `Exclusive.content_eq`: and does not touch what another party's cells hold.
-/

namespace LemonCore.Foundation.SharedHeap

/-- A heap: which cells are allocated, and what every cell holds. -/
structure Heap (F C : Type) where
  live : F → Prop
  content : F → C

variable {F C I : Type} {h h' h'' : Heap F C} {own own' own'' : Set F}

/-- Work that takes the heap from `h` to `h'` and the worker's own cells from `own` to `own'`. -/
structure Footprint (h : Heap F C) (own : Set F) (h' : Heap F C) (own' : Set F) : Prop where
  kept : ∀ f, h.live f → f ∉ own → h'.live f ∧ h'.content f = h.content f
  fresh : ∀ f ∈ own', f ∈ own ∨ ¬ h.live f

theorem Footprint.refl (h : Heap F C) (own : Set F) : Footprint h own h own :=
  ⟨fun _ hf _ => ⟨hf, rfl⟩, fun _ hf => Or.inl hf⟩

/-- A live cell of somebody else does not become the worker's own. -/
theorem Footprint.not_mem (hw : Footprint h own h' own') {f : F} (hf : h.live f) (hn : f ∉ own) :
    f ∉ own' := by
  intro hmem
  rcases hw.fresh f hmem with hown | hdead
  · exact hn hown
  · exact hdead hf

theorem Footprint.trans (h₁ : Footprint h own h' own') (h₂ : Footprint h' own' h'' own'') :
    Footprint h own h'' own'' where
  kept := by
    intro f hf hn
    obtain ⟨hlive, hsame⟩ := h₁.kept f hf hn
    obtain ⟨hlive', hsame'⟩ := h₂.kept f hlive (h₁.not_mem hf hn)
    exact ⟨hlive', hsame'.trans hsame⟩
  fresh := by
    intro f hf
    rcases h₂.fresh f hf with hown | hdead
    · exact h₁.fresh f hown
    · by_cases hn : f ∈ own
      · exact Or.inl hn
      · exact Or.inr fun hlive => hdead (h₁.kept f hlive hn).1

/-- New cells are taken while the old ones are still owned, then the old ones are given up. -/
theorem Footprint.replace (h₁ : Footprint h ∅ h' own') (h₂ : Footprint h' own h'' ∅) :
    Footprint h own h'' own' where
  kept := by
    intro f hf hn
    obtain ⟨hlive, hsame⟩ := h₁.kept f hf (Set.notMem_empty f)
    obtain ⟨hlive', hsame'⟩ := h₂.kept f hlive hn
    exact ⟨hlive', hsame'.trans hsame⟩
  fresh := fun f hf => Or.inr ((h₁.fresh f hf).resolve_left (Set.notMem_empty f))

/-- Work that loses no cell: what is live afterwards is the worker's own, or was live before and not the
worker's. -/
def NoLeak (h : Heap F C) (own : Set F) (h' : Heap F C) (own' : Set F) : Prop :=
  ∀ f, h'.live f → f ∈ own' ∨ h.live f ∧ f ∉ own

theorem NoLeak.refl (h : Heap F C) (own : Set F) : NoLeak h own h own := by
  intro f hf
  by_cases hown : f ∈ own
  · exact Or.inl hown
  · exact Or.inr ⟨hf, hown⟩

theorem NoLeak.trans (h₁ : NoLeak h own h' own') (h₂ : NoLeak h' own' h'' own'') :
    NoLeak h own h'' own'' := by
  intro f hf
  rcases h₂ f hf with hown | ⟨hlive, hn⟩
  · exact Or.inl hown
  · exact Or.inr ((h₁ f hlive).resolve_left hn)

/-- Work with a footprint that loses nothing: exactly the worker's own cells have changed hands. -/
theorem NoLeak.live_iff (hn : NoLeak h own h' own') (hw : Footprint h own h' own')
    (hl : ∀ f ∈ own', h'.live f) (f : F) : h'.live f ↔ f ∈ own' ∨ h.live f ∧ f ∉ own := by
  constructor
  · exact hn f
  · intro hor
    rcases hor with hown | ⟨hlive, hnot⟩
    · exact hl f hown
    · exact (hw.kept f hlive hnot).1

/-- Every owned cell is live, and nobody else owns it. -/
def Exclusive (h : Heap F C) (owns : I → Set F) : Prop :=
  ∀ i f, f ∈ owns i → h.live f ∧ ∀ j, f ∈ owns j → j = i

variable {owns : I → Set F} {i : I}

theorem Exclusive.not_mem (hx : Exclusive h owns) {j : I} (hj : j ≠ i) {f : F} (hf : f ∈ owns j) :
    f ∉ owns i := fun hi => hj ((hx i f hi).2 j hf)

theorem Exclusive.content_eq (hx : Exclusive h owns) (hw : Footprint h (owns i) h' own') {j : I}
    (hj : j ≠ i) {f : F} (hf : f ∈ owns j) : h'.live f ∧ h'.content f = h.content f :=
  hw.kept f (hx j f hf).1 (hx.not_mem hj hf)

/-- **Work for one party keeps the heap exclusive**, if the cells it ends with are live. -/
theorem Exclusive.update [DecidableEq I] (hx : Exclusive h owns) (hw : Footprint h (owns i) h' own')
    (hl : ∀ f ∈ own', h'.live f) : Exclusive h' (Function.update owns i own') := by
  intro j f hf
  by_cases hj : j = i
  · subst hj
    rw [Function.update_self] at hf
    refine ⟨hl f hf, fun k hk => ?_⟩
    by_contra hkj
    rw [Function.update_of_ne hkj] at hk
    exact hw.not_mem (hx k f hk).1 (hx.not_mem hkj hk) hf
  · rw [Function.update_of_ne hj] at hf
    refine ⟨(hx.content_eq hw hj hf).1, fun k hk => ?_⟩
    by_cases hki : k = i
    · subst hki
      rw [Function.update_self] at hk
      exact absurd hk (hw.not_mem (hx j f hf).1 (hx.not_mem hj hf))
    · rw [Function.update_of_ne hki] at hk
      exact (hx j f hf).2 k hk

end LemonCore.Foundation.SharedHeap
