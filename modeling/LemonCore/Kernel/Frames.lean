import Mathlib
import LemonCore.Foundation.SharedHeap

/-!
# Physical frames

The frame allocator of the kernel (`mm/frame_allocator.rs`) and the physical memory behind it.  A frame
is named by its physical page number; its content is the 512 words of eight bytes it holds, which is how
the page tables read it.

* `StackFrameAllocator`: frames below `current` that are not on the recycling stack are allocated.  The
  fields carry what the code keeps: the stack holds distinct frames below `current`;
* `Phys`: the allocator together with the memory.  `Phys.alloc` is `frame_allocator::alloc`, which also
  fills the frame with zeros (`FrameTracker::new`); `Phys.dealloc` is the drop of a `FrameTracker`;
* `Phys.alloc_spec`, `Phys.dealloc_spec`: what the two do to the set of allocated frames.

A function that returns `none` has panicked: the kernel does not go on after a failed assertion or an
`unwrap` of `None`.
-/

namespace LemonCore.Kernel.Mm

open Foundation.SharedHeap

theorem foldlM_invariant {α β : Type} {f : β → α → Option β} (P : β → Prop) (l : List α)
    (hstep : ∀ b a b', a ∈ l → P b → f b a = some b' → P b') :
    ∀ {b b' : β}, P b → l.foldlM f b = some b' → P b' := by
  induction l with
  | nil =>
    intro b b' hb h
    obtain rfl : b = b' := by simpa using h
    exact hb
  | cons a l ih =>
    intro b b' hb h
    rw [List.foldlM_cons, Option.bind_eq_bind, Option.bind_eq_some_iff] at h
    obtain ⟨c, hone, hrest⟩ := h
    exact ih (fun b a' b' ha' => hstep b a' b' (List.mem_cons_of_mem a ha'))
      (hstep b a c List.mem_cons_self hb hone) hrest

/-- A loop that may panic, and what it has done for each element: what a turn does for its element holds
at the end if every other turn keeps it. -/
theorem foldlM_forall {α β : Type} {f : β → α → Option β} (P : β → Prop) (Q : α → β → Prop) (l : List α)
    (hstep : ∀ b a b', a ∈ l → P b → f b a = some b' → P b' ∧ Q a b')
    (hkeep : ∀ b a b' c, a ∈ l → P b → Q c b → f b a = some b' → Q c b') :
    ∀ {b b' : β}, P b → l.foldlM f b = some b' →
      P b' ∧ (∀ a ∈ l, Q a b') ∧ ∀ c, Q c b → Q c b' := by
  induction l with
  | nil =>
    intro b b' hb h
    obtain rfl : b = b' := by simpa using h
    exact ⟨hb, fun a ha => absurd ha List.not_mem_nil, fun c hc => hc⟩
  | cons a l ih =>
    intro b b' hb h
    rw [List.foldlM_cons, Option.bind_eq_bind, Option.bind_eq_some_iff] at h
    obtain ⟨c, hone, hrest⟩ := h
    obtain ⟨hc, hq⟩ := hstep b a c List.mem_cons_self hb hone
    obtain ⟨hb', hall, hold⟩ := ih (fun b x b' hx => hstep b x b' (List.mem_cons_of_mem a hx))
      (fun b x b' y hx => hkeep b x b' y (List.mem_cons_of_mem a hx)) hc hrest
    refine ⟨hb', ?_, fun y hy => hold y (hkeep b a c y List.mem_cons_self hb hy hone)⟩
    intro x hx
    rcases List.mem_cons.mp hx with hxa | hx
    · rw [hxa]
      exact hold a hq
    · exact hall x hx

theorem foldlM_history {α β : Type} {f : β → α → Option β} (P : List α → β → Prop) (l : List α)
    (hstep : ∀ done b a b', a ∈ l → P done b → f b a = some b' → P (done ++ [a]) b') :
    ∀ {done : List α} {b b' : β}, P done b → l.foldlM f b = some b' → P (done ++ l) b' := by
  induction l with
  | nil =>
    intro done b b' hb h
    obtain rfl : b = b' := by simpa using h
    rwa [List.append_nil]
  | cons a l ih =>
    intro done b b' hb h
    rw [List.foldlM_cons, Option.bind_eq_bind, Option.bind_eq_some_iff] at h
    obtain ⟨c, hone, hrest⟩ := h
    rw [List.append_cons]
    exact ih (fun done b x b' hx => hstep done b x b' (List.mem_cons_of_mem a hx))
      (hstep done b a c List.mem_cons_self hb hone) hrest

/-- A loop that may panic returns if every turn does; the invariant knows what is still to come. -/
theorem foldlM_returns {α β : Type} {f : β → α → Option β} (P : List α → β → Prop)
    (hstep : ∀ a l b, P (a :: l) b → ∃ b', f b a = some b' ∧ P l b') (l : List α) :
    ∀ {b : β}, P l b → ∃ b', l.foldlM f b = some b' ∧ P [] b' := by
  induction l with
  | nil => exact fun {b} hb => ⟨b, rfl, hb⟩
  | cons a l ih =>
    intro b hb
    obtain ⟨c, hone, hc⟩ := hstep a l b hb
    obtain ⟨b', hrest, hb'⟩ := ih hc
    refine ⟨b', ?_, hb'⟩
    rw [List.foldlM_cons, hone]
    exact hrest

/-! ### Addresses and pages -/

def pageSize : ℕ := 0x1000

/-- `MEMORY_END` of the board. -/
def memoryEnd : ℕ := 0x88000000

/-- `as_ppn_by_floor`, `as_vpn_by_floor`. -/
def pageFloor (addr : ℕ) : ℕ := addr / pageSize

/-- `as_ppn_by_ceil`, `as_vpn_by_ceil`. -/
def pageCeil (addr : ℕ) : ℕ := if addr = 0 then 0 else (addr - 1 + pageSize) / pageSize

theorem pageCeil_le {addr n : ℕ} (h : addr ≤ n * pageSize) : pageCeil addr ≤ n := by
  rw [pageCeil]
  split
  · exact Nat.zero_le n
  · rw [pageSize] at h ⊢
    omega

/-! ### The allocator -/

structure StackFrameAllocator where
  current : ℕ
  endPpn : ℕ
  /-- The stack of recycled frames, top first. -/
  recycled : List ℕ
  current_le : current ≤ endPpn
  end_le : endPpn ≤ 2 ^ 44
  recycled_lt : ∀ f ∈ recycled, f < current
  recycled_nodup : recycled.Nodup

namespace StackFrameAllocator

/-- `new` followed by `init`. -/
def init (l r : ℕ) (hle : l ≤ r) (hr : r ≤ 2 ^ 44) : StackFrameAllocator :=
  ⟨l, r, [], hle, hr, by simp, List.nodup_nil⟩

/-- The frame is in use; this is what `dealloc` asserts. -/
def Allocated (a : StackFrameAllocator) (ppn : ℕ) : Prop := ppn < a.current ∧ ppn ∉ a.recycled

instance (a : StackFrameAllocator) (ppn : ℕ) : Decidable (a.Allocated ppn) :=
  inferInstanceAs (Decidable (_ ∧ _))

def alloc (a : StackFrameAllocator) : Option (ℕ × StackFrameAllocator) :=
  match h : a.recycled with
  | ppn :: rest =>
    some (ppn % 2 ^ 44,
      { a with
        recycled := rest
        recycled_lt := fun f hf => a.recycled_lt f (h ▸ List.mem_cons_of_mem ppn hf)
        recycled_nodup := (List.nodup_cons.mp (h ▸ a.recycled_nodup)).2 })
  | [] =>
    if hc : a.current = a.endPpn then none
    else
      some (a.current % 2 ^ 44,
        { a with
          current := a.current + 1
          current_le := Nat.lt_of_le_of_ne a.current_le hc
          recycled_lt := fun f hf => Nat.lt_succ_of_lt (a.recycled_lt f hf) })

def dealloc (a : StackFrameAllocator) (ppn : ℕ) : Option StackFrameAllocator :=
  if h : a.Allocated ppn then
    some
      { a with
        recycled := ppn :: a.recycled
        recycled_lt := List.forall_mem_cons.mpr ⟨h.1, a.recycled_lt⟩
        recycled_nodup := List.nodup_cons.mpr ⟨h.2, a.recycled_nodup⟩ }
  else none

/-- `alloc` hands out a frame that was not in use, and changes the state of no other. -/
theorem alloc_spec {a a' : StackFrameAllocator} {f : ℕ} (h : a.alloc = some (f, a')) :
    ¬ a.Allocated f ∧ f < 2 ^ 44 ∧ ∀ g, a'.Allocated g ↔ a.Allocated g ∨ g = f := by
  rw [alloc] at h
  split at h
  case h_1 ppn rest hr =>
    obtain ⟨rfl, rfl⟩ := Prod.mk.inj (Option.some.inj h)
    have hmem : ppn ∈ a.recycled := hr ▸ List.mem_cons_self
    have hlt := a.recycled_lt ppn hmem
    have hword : ppn % 2 ^ 44 = ppn :=
      Nat.mod_eq_of_lt (hlt.trans_le (a.current_le.trans a.end_le))
    have hnot : ppn ∉ rest := (List.nodup_cons.mp (hr ▸ a.recycled_nodup)).1
    rw [hword]
    refine ⟨fun hal => hal.2 hmem, hlt.trans_le (a.current_le.trans a.end_le), fun g => ?_⟩
    show g < a.current ∧ g ∉ rest ↔ (g < a.current ∧ g ∉ a.recycled) ∨ g = ppn
    rw [hr, List.mem_cons, not_or]
    by_cases hg : g = ppn
    · subst hg
      simp [hlt, hnot]
    · simp [hg]
  case h_2 hr =>
    split at h
    · cases h
    · rename_i hc
      obtain ⟨rfl, rfl⟩ := Prod.mk.inj (Option.some.inj h)
      have hlt : a.current < 2 ^ 44 := (Nat.lt_of_le_of_ne a.current_le hc).trans_le a.end_le
      rw [Nat.mod_eq_of_lt hlt]
      refine ⟨fun hal => absurd hal.1 (lt_irrefl _), hlt, fun g => ?_⟩
      show g < a.current + 1 ∧ g ∉ a.recycled ↔ (g < a.current ∧ g ∉ a.recycled) ∨ g = a.current
      simp only [hr, List.not_mem_nil, not_false_eq_true, and_true]
      omega

theorem dealloc_spec {a a' : StackFrameAllocator} {f : ℕ} (h : a.dealloc f = some a') :
    a.Allocated f ∧ ∀ g, a'.Allocated g ↔ a.Allocated g ∧ g ≠ f := by
  rw [dealloc] at h
  split at h
  · rename_i hal
    obtain rfl := Option.some.inj h
    refine ⟨hal, fun g => ?_⟩
    show g < a.current ∧ g ∉ f :: a.recycled ↔ (g < a.current ∧ g ∉ a.recycled) ∧ g ≠ f
    rw [List.mem_cons, not_or]
    tauto
  · cases h

theorem dealloc_isSome {a : StackFrameAllocator} {f : ℕ} (h : a.Allocated f) :
    (a.dealloc f).isSome := by
  rw [dealloc, dif_pos h]
  rfl

/-- The frame can be handed out. -/
def Free (a : StackFrameAllocator) (ppn : ℕ) : Prop :=
  ppn ∈ a.recycled ∨ a.current ≤ ppn ∧ ppn < a.endPpn

/-- How many frames can be handed out. -/
def freeCount (a : StackFrameAllocator) : ℕ := a.recycled.length + (a.endPpn - a.current)

/-- `alloc` succeeds as long as there are free frames, and takes one of them. -/
theorem alloc_returns {a : StackFrameAllocator} (h : 0 < a.freeCount) :
    ∃ f a', a.alloc = some (f, a') ∧ a.Free f ∧ (∀ g, a'.Free g → a.Free g) ∧
      a.freeCount = a'.freeCount + 1 := by
  rw [alloc]
  split
  case h_1 ppn rest hr =>
    have hmem : ppn ∈ a.recycled := hr ▸ List.mem_cons_self
    have hword : ppn % 2 ^ 44 = ppn :=
      Nat.mod_eq_of_lt ((a.recycled_lt ppn hmem).trans_le (a.current_le.trans a.end_le))
    refine ⟨_, _, rfl, hword.symm ▸ Or.inl hmem, fun g hg => ?_, ?_⟩
    · exact hg.imp (fun hin => hr ▸ List.mem_cons_of_mem ppn hin) id
    · simp only [freeCount, hr, List.length_cons]
      omega
  case h_2 hr =>
    have hlt : a.current < a.endPpn := by
      rw [freeCount, hr, List.length_nil] at h
      omega
    have hword : a.current % 2 ^ 44 = a.current := Nat.mod_eq_of_lt (hlt.trans_le a.end_le)
    rw [dif_neg hlt.ne]
    refine ⟨_, _, rfl, hword.symm ▸ Or.inr ⟨le_rfl, hlt⟩, fun g hg => ?_, ?_⟩
    · exact hg.imp id fun hin => ⟨(Nat.le_succ _).trans hin.1, hin.2⟩
    · simp only [freeCount]
      omega

end StackFrameAllocator

/-! ### The memory -/

/-- The allocator and the memory: word `i` of frame `f` is `memory f i`. -/
structure Phys where
  allocator : StackFrameAllocator
  memory : ℕ → ℕ → ℕ

namespace Phys

/-- `frame_allocator::alloc().unwrap()`: the frame comes filled with zeros. -/
def alloc (p : Phys) : Option (ℕ × Phys) :=
  p.allocator.alloc.map fun (f, a) => (f, ⟨a, Function.update p.memory f fun _ => 0⟩)

/-- The drop of the `FrameTracker` of a frame. -/
def dealloc (p : Phys) (ppn : ℕ) : Option Phys :=
  (p.allocator.dealloc ppn).map fun a => { p with allocator := a }

/-- One word written. -/
def setWord (p : Phys) (ppn i w : ℕ) : Phys :=
  { p with memory := Function.update p.memory ppn (Function.update (p.memory ppn) i w) }

/-- The content of a frame replaced. -/
def setFrame (p : Phys) (ppn : ℕ) (words : ℕ → ℕ) : Phys :=
  { p with memory := Function.update p.memory ppn words }

@[simp] theorem setWord_allocator (p : Phys) (f i w : ℕ) : (p.setWord f i w).allocator = p.allocator := rfl

@[simp] theorem setFrame_allocator (p : Phys) (f : ℕ) (w : ℕ → ℕ) :
    (p.setFrame f w).allocator = p.allocator := rfl

theorem setFrame_memory_self (p : Phys) (f : ℕ) (w : ℕ → ℕ) : (p.setFrame f w).memory f = w := by
  simp [setFrame]

theorem setFrame_memory_of_ne {p : Phys} {f g : ℕ} (h : g ≠ f) (w : ℕ → ℕ) :
    (p.setFrame f w).memory g = p.memory g := by
  simp [setFrame, h]

/-- The frames as a heap that the address spaces share. -/
def heap (p : Phys) : Heap ℕ (ℕ → ℕ) := ⟨p.allocator.Allocated, p.memory⟩

theorem alloc_spec {p p' : Phys} {f : ℕ} (h : p.alloc = some (f, p')) :
    ¬ p.allocator.Allocated f ∧ f < 2 ^ 44 ∧
      (∀ g, p'.allocator.Allocated g ↔ p.allocator.Allocated g ∨ g = f) ∧
      p'.memory = Function.update p.memory f fun _ => 0 := by
  rw [alloc, Option.map_eq_some_iff] at h
  obtain ⟨⟨f', a'⟩, ha, heq⟩ := h
  obtain ⟨rfl, rfl⟩ := Prod.mk.inj heq
  obtain ⟨hnew, hlt, hal⟩ := StackFrameAllocator.alloc_spec ha
  exact ⟨hnew, hlt, hal, rfl⟩

theorem dealloc_spec {p p' : Phys} {f : ℕ} (h : p.dealloc f = some p') :
    p.allocator.Allocated f ∧ (∀ g, p'.allocator.Allocated g ↔ p.allocator.Allocated g ∧ g ≠ f) ∧
      p'.memory = p.memory := by
  rw [dealloc, Option.map_eq_some_iff] at h
  obtain ⟨a', ha, rfl⟩ := h
  obtain ⟨hal, hiff⟩ := StackFrameAllocator.dealloc_spec ha
  exact ⟨hal, hiff, rfl⟩

/-- Drops one after the other, as the fields of a dropped structure are. -/
def deallocAll (p : Phys) (frames : List ℕ) : Option Phys := frames.foldlM dealloc p

theorem deallocAll_spec (frames : List ℕ) : ∀ {p : Phys}, frames.Nodup →
    (∀ f ∈ frames, p.allocator.Allocated f) → ∃ p', p.deallocAll frames = some p' ∧
      (∀ g, p'.allocator.Allocated g ↔ p.allocator.Allocated g ∧ g ∉ frames) ∧
      p'.memory = p.memory := by
  induction frames with
  | nil =>
    intro p _ _
    exact ⟨p, rfl, by simp, rfl⟩
  | cons f frames ih =>
    intro p hnd hal
    obtain ⟨hf, hnd'⟩ := List.nodup_cons.mp hnd
    obtain ⟨a, ha⟩ := Option.isSome_iff_exists.mp
      (StackFrameAllocator.dealloc_isSome (hal f List.mem_cons_self))
    have hdrop : p.dealloc f = some { p with allocator := a } := by rw [dealloc, ha]; rfl
    obtain ⟨-, hiff, -⟩ := dealloc_spec hdrop
    have hal' : ∀ g ∈ frames, a.Allocated g := by
      intro g hg
      exact (hiff g).mpr ⟨hal g (List.mem_cons_of_mem f hg), fun h => hf (h ▸ hg)⟩
    obtain ⟨p', hp', hiff', hmem⟩ := ih (p := { p with allocator := a }) hnd' hal'
    refine ⟨p', ?_, fun g => ?_, hmem⟩
    · rw [deallocAll, List.foldlM_cons, hdrop]
      exact hp'
    · rw [hiff' g, hiff g, List.mem_cons, not_or, and_assoc]

end Phys

end LemonCore.Kernel.Mm
