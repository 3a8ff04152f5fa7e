import LemonCore.Foundation.TimeSharing

/-!
# The code that changes tasks (`kernel/src/task/switch.S`, `kernel/src/trap/trap.S`)

`__switch` changes the kernel's own flow of control from one task to another; `__alltraps` and `__restore`
lead from a program into the kernel and back, `__alltraps_k` and `__restore_k` from the kernel to the
handler of an interrupt and back.  They are lists of instructions here, run by a machine with one hart.  All
their memory accesses are to aligned words, at multiples of 8 bytes from a base register.

* `switch_keeps_registers`: every flow of control in the kernel finds its return address, its stack and the
  registers `s0` to `s11` again when it is switched to, and after an interrupt;
* `traps_keep_registers`: every program has registers of its own, except for `tp`, and its traps enter
  the kernel on its own kernel stack.

Left out: the privilege mode, what the hart does to `sstatus` on a trap and on `sret` (nothing is said
about the `sstatus` of a program), and `exec`, which moves a context to another address space.
-/

namespace LemonCore.Kernel.Context

open Foundation.TimeSharing

abbrev Word := BitVec 64

inductive Csr where
  | sstatus | sepc | sscratch | satp
  deriving DecidableEq

/-- `sd r i base` is `sd r, i*8(base)`. -/
inductive Instr where
  | sd (r i base : ℕ)
  | ld (r i base : ℕ)
  | csrr (r : ℕ) (csr : Csr)
  | csrw (csr : Csr) (r : ℕ)
  | csrrw (rd : ℕ) (csr : Csr) (r : ℕ)
  | mv (rd r : ℕ)
  | addi (rd r : ℕ) (imm : Word)
  | sfence
  | jr (r : ℕ)
  | sret

/-- The machine.  `mem` holds the words of the physical memory by their addresses. -/
structure Machine where
  x : ℕ → Word
  csr : Csr → Word
  mem : Word → Word
  pc : Word

/-- What the hart does on a trap, before `__alltraps`; `sstatus` apart. -/
def Machine.trap (m : Machine) : Machine := { m with csr := Function.update m.csr .sepc m.pc }

/-- What a trap saves as word `i`. -/
def Machine.value (m : Machine) (i : ℕ) : Word :=
  if i = 32 then m.csr .sstatus else if i = 33 then m.pc else m.x i

section

-- The address translation: the physical address for a token in `satp` and a virtual address.
variable (tr : Word → Word → Word)

/-- The address of word `i` of a record. -/
def wordAt (satp base : Word) (i : ℕ) : Word := tr satp (base + BitVec.ofNat 64 (i * 8))

def Machine.exec (m : Machine) : Instr → Machine
  | .sd r i base => { m with mem := Function.update m.mem (wordAt tr (m.csr .satp) (m.x base) i) (m.x r) }
  | .ld r i base => { m with x := Function.update m.x r (m.mem (wordAt tr (m.csr .satp) (m.x base) i)) }
  | .csrr r csr => { m with x := Function.update m.x r (m.csr csr) }
  | .csrw csr r => { m with csr := Function.update m.csr csr (m.x r) }
  | .csrrw rd csr r =>
    { m with x := Function.update m.x rd (m.csr csr), csr := Function.update m.csr csr (m.x r) }
  | .mv rd r => { m with x := Function.update m.x rd (m.x r) }
  | .addi rd r imm => { m with x := Function.update m.x rd (m.x r + imm) }
  | .sfence => m
  | .jr r => { m with pc := m.x r }
  | .sret => { m with pc := m.csr .sepc }

def Machine.run (m : Machine) (code : List Instr) : Machine := code.foldl (Machine.exec tr) m

/-- The register in word `i` of a `TaskContext`: `ra`, `sp`, `s0` .. `s11`. -/
def reg (i : ℕ) : ℕ := if i < 2 then i + 1 else if i < 4 then i + 6 else i + 14

open Instr

/-- `__switch`. -/
def switch : List Instr :=
  [sd 2 1 10, sd 1 0 10] ++ (List.range' 2 12).map (fun i => sd (reg i) i 10) ++
  [ld 1 0 11] ++ (List.range' 2 12).map (fun i => ld (reg i) i 11) ++ [ld 2 1 11, jr 1]

/-- The registers of a program that are saved and loaded one after the other. -/
abbrev gp : List ℕ := [1, 3] ++ List.range' 5 27

/-- `__alltraps`. -/
def alltraps : List Instr :=
  csrrw 2 .sscratch 2 :: (gp.map (fun i => sd i i 2) ++
  [csrr 5 .sstatus, csrr 6 .sepc, sd 5 32 2, sd 6 33 2, csrr 7 .sscratch, sd 7 2 2,
    ld 5 34 2, ld 6 36 2, ld 2 35 2, csrw .satp 5, sfence, jr 6])

/-- The start of `__restore`, which sets the control registers. -/
def restoreCsrs : List Instr :=
  [csrw .satp 11, sfence, csrw .sscratch 10, mv 2 10, ld 5 32 2, ld 6 33 2, csrw .sstatus 5, csrw .sepc 6]

/-- `__restore`. -/
def restore : List Instr := restoreCsrs ++ (gp.map (fun i => ld i i 2) ++ [ld 2 2 2, sret])

/-- `__alltraps_k`.  The handler returns to `__restore_k`; the link of the last jump is left out. -/
def alltrapsK : List Instr :=
  addi 2 2 (-(34 * 8)) :: (gp.map (fun i => sd i i 2) ++
  [csrr 5 .sstatus, csrr 6 .sepc, sd 5 32 2, sd 6 33 2, mv 10 2, csrr 7 .sscratch, jr 7])

/-- `__restore_k`. -/
def restoreK : List Instr :=
  [ld 5 32 2, ld 6 33 2, csrw .sstatus 5, csrw .sepc 6] ++
  (gp.map (fun i => ld i i 2) ++ [addi 2 2 (34 * 8), sret])

/-! ### Saving and loading -/

variable {tr} {base : ℕ} {reg : ℕ → ℕ}

theorem run_append (m : Machine) (c c' : List Instr) : m.run tr (c ++ c') = (m.run tr c).run tr c' :=
  List.foldl_append

/-- Registers saved one after the other, `reg i` as word `i`. -/
theorem run_saves (is : List ℕ) : ∀ m : Machine, m.run tr (is.map fun i => .sd (reg i) i base) =
    { m with mem := writes (wordAt tr (m.csr .satp) (m.x base)) (fun i => m.x (reg i)) is m.mem } := by
  induction is with
  | nil => exact fun _ => rfl
  | cons k is ih => exact fun m => ih (m.exec tr (.sd (reg k) k base))

/-- Registers loaded one after the other; the base is none of them. -/
theorem run_loads (is : List ℕ) (hbase : ∀ i ∈ is, reg i ≠ base) : ∀ m : Machine,
    m.run tr (is.map fun i => .ld (reg i) i base) =
      { m with x := writes reg (fun i => m.mem (wordAt tr (m.csr .satp) (m.x base) i)) is m.x } := by
  induction is with
  | nil => exact fun _ => rfl
  | cons k is ih =>
    intro m
    have hx : (m.exec tr (.ld (reg k) k base)).x base = m.x base :=
      Function.update_of_ne (hbase k List.mem_cons_self).symm _ _
    have hrest := ih (fun i hi => hbase i (List.mem_cons_of_mem k hi)) (m.exec tr (.ld (reg k) k base))
    rw [hx] at hrest
    exact hrest

theorem gp_loads (tr) (m : Machine) : ∃ x, m.run tr (gp.map fun i => .ld i i 2) = { m with x := x } ∧
    x 2 = m.x 2 ∧ ∀ i ∈ gp, x i = m.mem (wordAt tr (m.csr .satp) (m.x 2) i) :=
  ⟨_, run_loads gp (by decide) m, writes_of_ne gp m.x (by decide),
    fun _ hi => writes_of_mem hi m.x fun _ _ h => h⟩

end

/-- Records of `n` words, one for each task, that share no word. -/
structure Records (tr : Word → Word → Word) (T : Type) (n : ℕ) where
  satp : T → Word
  cx : T → Word
  apart : ∀ {t u i j}, i < n → j < n →
    wordAt tr (satp t) (cx t) i = wordAt tr (satp u) (cx u) j → t = u ∧ i = j

def Records.word {tr : Word → Word → Word} {T : Type} {n : ℕ} (R : Records tr T n) (t : T) : ℕ → Word :=
  wordAt tr (R.satp t) (R.cx t)

/-- Words written into one of the records. -/
theorem Records.writes_word {tr : Word → Word → Word} {T : Type} [DecidableEq T] {n i : ℕ}
    {R : Records tr T n} {t w : T} {is : List ℕ} {val : ℕ → Word} (his : ∀ j ∈ is, j < n) (hi : i < n)
    (mem : Word → Word) :
    writes (R.word t) val is mem (R.word w i) = if w = t ∧ i ∈ is then val i else mem (R.word w i) := by
  split
  · rename_i h
    rw [h.1]
    exact writes_of_mem h.2 mem fun j hj heq => (R.apart hi (his j hj) heq).2
  · rename_i h
    refine writes_of_ne is mem fun j hj heq => ?_
    obtain ⟨hw, hij⟩ := R.apart hi (his j hj) heq
    exact h ⟨hw, hij ▸ hj⟩

/-- Two records on pages of their own, without address translation. -/
def pages (n : ℕ) (hn : n ≤ 512) : Records (fun _ a => a) Bool n where
  satp _ := 0
  cx t := if t then 0x1000 else 0x2000
  apart := by
    intro t u i j hi hj h
    have hnat := congrArg BitVec.toNat h
    cases t <;> cases u <;> simp [wordAt] at hnat ⊢ <;> omega

/-- Every word holds its address, and every register its number, but for the arguments of `__switch`. -/
def sample : Machine where
  x r := if r = 10 then 0x1000 else if r = 11 then 0x2000 else BitVec.ofNat 64 r
  csr c := if c = .sscratch then 0x1000 else 0
  mem a := a
  pc := 0

/-- The first task has trapped, and the kernel is about to leave for the second one. -/
def sampleLeave : Machine :=
  { sample.trap.run (fun _ a => a) alltraps with x := fun r => if r = 10 then 0x2000 else 0 }

/-! ### Switching between the flows of control of the kernel -/

namespace Flow

variable {tr : Word → Word → Word} {T : Type} [DecidableEq T]

def view (m : Machine) (i : Fin 14) : Word := m.x (reg i)

def slot (R : Records tr T 14) (m : Machine) (t : T) (i : Fin 14) : Word := m.mem (R.word t i)

/-- The kernel works in its own address space, where all contexts are. -/
def Ok (R : Records tr T 14) (_ : T) (m : Machine) : Prop := ∀ w, m.csr .satp = R.satp w

inductive Step (R : Records tr T 14) : T → T → Edit T (Fin 14) Word → Machine → Machine → Prop
  /-- The running task works, and may write the contexts of others, as when it creates a task. -/
  | work {t : T} {m m' : Machine} {f : T → (Fin 14 → Word) → Fin 14 → Word} :
      m'.csr .satp = m.csr .satp → (∀ w, w ≠ t → slot R m' w = f w (slot R m w)) →
      Step R t t (fun v => Function.update (fun w => f w (v w)) t (view m')) m m'
  /-- It is interrupted; the handler touches neither the saved contexts nor the frame `S` on its stack. -/
  | interrupt {t : T} {m k : Machine} {S : Records tr Unit 34} : m.csr .satp = S.satp () →
      m.x 2 + -(34 * 8) = S.cx () → k.x 2 = S.cx () → k.csr .satp = m.csr .satp →
      slot R k = slot R m →
      (∀ i < 34, k.mem (S.word () i) = (m.trap.run tr alltrapsK).mem (S.word () i)) →
      Step R t t id m (k.run tr restoreK)
  /-- It calls `__switch`. -/
  | switch {t u : T} {m : Machine} : m.x 10 = R.cx t → m.x 11 = R.cx u →
      Step R t u id m (m.run tr switch)

variable {R : Records tr T 14} {t u : T} {m m' : Machine}

/-- The words in the order in which `__switch` saves and loads them. -/
theorem switch_eq : switch = ([1, 0] ++ List.range' 2 12).map (fun i => .sd (reg i) i 10) ++
    (([0] ++ List.range' 2 12 ++ [1]).map (fun i => .ld (reg i) i 11) ++ [.jr 1]) := rfl

theorem switch_spec (hok : Ok R t m) (ht : m.x 10 = R.cx t) (hu : m.x 11 = R.cx u) :
    let m' := m.run tr switch
    Ok R u m' ∧ m'.pc = view m' 0 ∧ view m' = slot R m' u ∧
      slot R m' = registers view (slot R) t m := by
  have hsave : ∀ i : Fin 14, i.val ∈ [1, 0] ++ List.range' 2 12 := by decide
  have hload : ∀ i : Fin 14, i.val ∈ [0] ++ List.range' 2 12 ++ [1] := by decide
  have hinj : ∀ i : Fin 14, ∀ j ∈ [0] ++ List.range' 2 12 ++ [1], reg i = reg j → i.val = j := by decide
  have hsatp : R.satp t = R.satp u := (hok t).symm.trans (hok u)
  rw [switch_eq, run_append, run_append, run_saves, run_loads _ (by decide), ht, hok t]
  refine ⟨hok, rfl, ?_, ?_⟩
  · funext i
    dsimp only [Machine.run, List.foldl, Machine.exec, view, slot]
    rw [writes_of_mem (hload i) _ (hinj i), hu, hsatp]
    rfl
  · funext w i
    rw [registers, Function.update_apply, ite_apply]
    refine (Records.writes_word (by decide) i.isLt m.mem).trans ?_
    simp only [hsave i, and_true]
    rfl

theorem alltrapsK_mem {S : Records tr Unit 34} (hm : m.csr .satp = S.satp ())
    (hcx : m.x 2 + -(34 * 8) = S.cx ()) :
    (m.trap.run tr alltrapsK).mem = writes (S.word ()) m.value (gp ++ [32, 33]) m.mem := by
  have hfirst : m.trap.exec tr (.addi 2 2 (-(34 * 8))) =
      { m with x := Function.update m.x 2 (S.cx ()), csr := Function.update m.csr .sepc m.pc } := by
    rw [← hcx]
    rfl
  rw [alltrapsK, Machine.run, List.foldl_cons, hfirst, ← Machine.run, run_append, run_saves]
  simp [Machine.run, Machine.exec, Records.word, writes, Machine.value, gp, List.range', hm]

/-- An interrupt changes no register but `tp`. -/
theorem interrupt_spec {S : Records tr Unit 34} {k : Machine} (hm : m.csr .satp = S.satp ())
    (hcx : m.x 2 + -(34 * 8) = S.cx ()) (hsp : k.x 2 = S.cx ()) (hk : k.csr .satp = m.csr .satp)
    (hframe : ∀ i < 34, k.mem (S.word () i) = (m.trap.run tr alltrapsK).mem (S.word () i)) :
    let m' := k.run tr restoreK
    m'.mem = k.mem ∧ m'.csr .satp = m.csr .satp ∧ m'.x 2 = m.x 2 ∧ ∀ i ∈ gp, m'.x i = m.x i := by
  have hword : ∀ i ∈ gp, k.mem (S.word () i) = m.x i := by
    intro i hi
    have hlt : ∀ j ∈ gp ++ [32, 33], j < 34 := by decide
    have hin : i ∈ gp ++ [32, 33] := List.mem_append_left _ hi
    rw [hframe i (hlt i hin), alltrapsK_mem hm hcx, Records.writes_word hlt (hlt i hin),
      if_pos ⟨rfl, hin⟩]
    have hne : ∀ j ∈ gp, j ≠ 32 ∧ j ≠ 33 := by decide
    rw [Machine.value, if_neg (hne i hi).1, if_neg (hne i hi).2]
  let k₁ := k.run tr [.ld 5 32 2, .ld 6 33 2, .csrw .sstatus 5, .csrw .sepc 6]
  obtain ⟨y, hloads, hbase, hy⟩ := gp_loads tr k₁
  have hrun : k.run tr restoreK =
      (k₁.run tr (gp.map fun i => .ld i i 2)).run tr [.addi 2 2 (34 * 8), .sret] := by
    rw [restoreK, run_append, run_append]
  have hsp₁ : k₁.x 2 = S.cx () := hsp
  have hsatp₁ : k₁.csr .satp = S.satp () := hk.trans hm
  rw [hrun, hloads]
  refine ⟨rfl, hk, ?_, fun i hi => ?_⟩
  · show y 2 + 34 * 8 = m.x 2
    rw [hbase, hsp₁, ← hcx, neg_add_cancel_right]
  · have hne : ∀ j ∈ gp, j ≠ 2 := by decide
    show Function.update y 2 _ i = _
    rw [Function.update_of_ne (hne i hi), hy i hi, hsp₁, hsatp₁]
    exact hword i hi

theorem Step.sound {edit : Edit T (Fin 14) Word} (hok : Ok R t m) (h : Step R t u edit m m') :
    Ok R u m' ∧ registers view (slot R) u m' = edit (registers view (slot R) t m) := by
  cases h with
  | work hsatp hslot => exact ⟨fun w => hsatp.trans (hok w), registers_work hslot⟩
  | @interrupt _ k _ hm hcx hsp hk hslot hframe =>
    obtain ⟨hmem, hsatp, hx, hgp⟩ := interrupt_spec hm hcx hsp hk hframe
    have hview : view (k.run tr restoreK) = view m := by
      funext i
      have hreg : ∀ i : Fin 14, reg i = 2 ∨ reg i ∈ gp := by decide
      rcases hreg i with h2 | hi
      · rw [view, view, h2, hx]
      · exact hgp _ hi
    refine ⟨fun w => hsatp.trans (hok w), ?_⟩
    have hslot' : slot R (k.run tr restoreK) = slot R m := by
      rw [← hslot]
      funext w i
      rw [slot, slot, hmem]
    rw [registers, hview, hslot']
    rfl
  | switch ht hu =>
    obtain ⟨hok', -, hview, hslot⟩ := switch_spec hok ht hu
    exact ⟨hok', (registers_loaded hview).trans hslot⟩

/-- **Every flow of control in the kernel keeps its registers.**  In every run in which tasks work, create
others, are interrupted and call `__switch`, the task on the hart has the return address, the stack and the
registers `s0` to `s11` that it has left or was created with, and `__switch` returns to the next task's
return address. -/
theorem switch_keeps_registers {v : T → Fin 14 → Word} (h : Run view (slot R) (Ok R) (Step R) t v m) :
    view m = v t ∧ ∀ u, m.x 10 = R.cx t → m.x 11 = R.cx u →
      view (m.run tr switch) = v u ∧ (m.run tr switch).pc = v u 0 := by
  obtain ⟨hok, rfl⟩ := h.registers_eq fun hok hs => hs.sound hok
  refine ⟨registers_self.symm, fun u ht hu => ?_⟩
  obtain ⟨-, hpc, hview, hslot⟩ := switch_spec hok ht hu
  rw [hpc, hview, hslot]
  exact ⟨rfl, rfl⟩

/-- The second task is about to switch back. -/
def sampleBack : Machine :=
  let m := sample.run (fun _ a => a) switch
  { m with x := Function.update (Function.update m.x 10 0x2000) 11 0x1000 }

/-- The first task switches to the second one, which switches back; it goes on where `ra` was 1, and has
its `s0` again. -/
theorem switch_keeps_registers_two : (sampleBack.run (fun _ a => a) switch).pc = 1 ∧
    view (sampleBack.run (fun _ a => a) switch) 2 = 8 := by
  let R := pages 14 (by decide)
  have hrun : Run view (slot R) (Ok R) (Step R) true _ sample := .start fun _ => rfl
  have haway : Step R true false id sample (sample.run (fun _ a => a) switch) := .switch rfl rfl
  have hwork : Step R false false _ (sample.run (fun _ a => a) switch) sampleBack :=
    .work (f := fun _ v => v) rfl fun _ _ => rfl
  obtain ⟨hview, hpc⟩ := (switch_keeps_registers ((hrun.step haway).step hwork)).2 true rfl rfl
  exact ⟨hpc, congrFun hview 2⟩

end Flow

/-! ### Traps -/

namespace Trap

variable {tr : Word → Word → Word} {T : Type}

/-- The words of a `TrapContext` that hold what a program has: not `x0`, not `tp`, and not `sstatus`. -/
abbrev Kept := { i : ℕ // i < 34 ∧ i ≠ 0 ∧ i ≠ 4 ∧ i ≠ 32 }

def view (m : Machine) (i : Kept) : Word := m.value i

def slot (R : Records tr T 37) (m : Machine) (t : T) (i : Kept) : Word := m.mem (R.word t i)

/-- In user mode `sscratch` points to the context of the program. -/
def Ok (R : Records tr T 37) (t : T) (m : Machine) : Prop :=
  m.csr .satp = R.satp t ∧ m.csr .sscratch = R.cx t

variable {R : Records tr T 37} {t u : T} {m m' k : Machine}

theorem alltraps_run (hok : Ok R t m) :
    let mem := writes (R.word t) m.value (gp ++ [32, 33, 2]) m.mem
    let k := m.trap.run tr alltraps
    k.mem = mem ∧ k.pc = mem (R.word t 36) ∧ k.x 2 = mem (R.word t 35) ∧
      k.csr .satp = mem (R.word t 34) := by
  have hfirst : m.trap.exec tr (.csrrw 2 .sscratch 2) =
      { m with x := Function.update m.x 2 (R.cx t),
               csr := Function.update (Function.update m.csr .sepc m.pc) .sscratch (m.x 2) } := by
    simp [Machine.exec, Machine.trap, hok.2]
  rw [alltraps, Machine.run, List.foldl_cons, hfirst, ← Machine.run, run_append, run_saves]
  simp [Machine.run, Machine.exec, Records.word, writes, Machine.value, gp, List.range', hok.1]

theorem restore_run (hcx : k.x 10 = R.cx u) (htoken : k.x 11 = R.satp u) : ∃ x csr,
    k.run tr restore = ⟨Function.update x 2 (k.mem (R.word u 2)), csr, k.mem, k.mem (R.word u 33)⟩ ∧
    (∀ i ∈ gp, x i = k.mem (R.word u i)) ∧ csr .satp = R.satp u ∧ csr .sscratch = R.cx u := by
  let x := Function.update (Function.update (Function.update k.x 2 (R.cx u)) 5 (k.mem (R.word u 32))) 6
    (k.mem (R.word u 33))
  let csr := Function.update (Function.update (Function.update (Function.update k.csr .satp (R.satp u))
    .sscratch (R.cx u)) .sstatus (k.mem (R.word u 32))) .sepc (k.mem (R.word u 33))
  have hfirst : k.run tr restoreCsrs = ⟨x, csr, k.mem, k.pc⟩ := by
    simp [Machine.run, Machine.exec, Records.word, restoreCsrs, hcx, htoken, x, csr]
  obtain ⟨y, hloads, hbase, hy⟩ := gp_loads tr ⟨x, csr, k.mem, k.pc⟩
  refine ⟨y, csr, ?_, hy, rfl, rfl⟩
  rw [restore, run_append, hfirst, run_append, hloads]
  simp [Machine.run, Machine.exec, Records.word, hbase, x, csr]

/-- `__restore` gives a program what is in its context. -/
theorem restore_spec (hcx : k.x 10 = R.cx u) (htoken : k.x 11 = R.satp u) :
    let m' := k.run tr restore
    Ok R u m' ∧ slot R m' = slot R k ∧ view m' = slot R m' u := by
  obtain ⟨x, csr, hrun, hx, hsatp, hscratch⟩ := restore_run hcx htoken
  rw [hrun]
  refine ⟨⟨hsatp, hscratch⟩, rfl, ?_⟩
  funext i
  have hi := i.2
  dsimp only [view, Machine.value, slot]
  rw [if_neg hi.2.2.2]
  split
  · rename_i h
    rw [h]
  · by_cases h2 : i.val = 2
    · rw [h2, Function.update_self]
    · rw [Function.update_of_ne h2]
      exact hx i (by simp [gp]; omega)

variable [DecidableEq T]

/-- `__alltraps` saves what the program has in its context, and goes on with the last three words of it. -/
theorem alltraps_spec (hok : Ok R t m) :
    let k := m.trap.run tr alltraps
    slot R k = registers view (slot R) t m ∧ k.pc = m.mem (R.word t 36) ∧ k.x 2 = m.mem (R.word t 35) ∧
      k.csr .satp = m.mem (R.word t 34) := by
  have hwrite : ∀ w i, i < 37 → writes (R.word t) m.value (gp ++ [32, 33, 2]) m.mem (R.word w i) =
      if w = t ∧ i ∈ gp ++ [32, 33, 2] then m.value i else m.mem (R.word w i) :=
    fun w i hi => Records.writes_word (by decide) hi m.mem
  obtain ⟨hmem, hpc, hsp, hsatp⟩ := alltraps_run hok
  refine ⟨?_, ?_, ?_, ?_⟩
  · funext w i
    have hi := i.2
    have hin : i.val ∈ gp ++ [32, 33, 2] := by simp [gp]; omega
    rw [slot, hmem, hwrite w i (by omega), registers, Function.update_apply, ite_apply]
    simp only [hin, and_true]
    rfl
  · rw [hpc, hwrite t 36 (by decide), if_neg fun h => absurd h.2 (by decide)]
  · rw [hsp, hwrite t 35 (by decide), if_neg fun h => absurd h.2 (by decide)]
  · rw [hsatp, hwrite t 34 (by decide), if_neg fun h => absurd h.2 (by decide)]

inductive Step (R : Records tr T 37) : T → T → Edit T Kept Word → Machine → Machine → Prop
  /-- The program works; the contexts are on pages that it cannot access. -/
  | user {t : T} {m m' : Machine} : m'.csr = m.csr → slot R m' = slot R m →
      Step R t t (fun v => Function.update v t (view m')) m m'
  /-- A trap.  The kernel works on the contexts, and leaves for one of the programs. -/
  | trap {t u : T} {m k : Machine} {edit : Edit T Kept Word} :
      slot R k = edit (slot R (m.trap.run tr alltraps)) → k.x 10 = R.cx u → k.x 11 = R.satp u →
      Step R t u edit m (k.run tr restore)

theorem Step.sound {edit : Edit T Kept Word} (hok : Ok R t m) (h : Step R t u edit m m') :
    Ok R u m' ∧ registers view (slot R) u m' = edit (registers view (slot R) t m) := by
  cases h with
  | user hcsr hslot =>
    exact ⟨by rw [Ok, hcsr]; exact hok, registers_work (f := fun _ v => v) fun w _ => congrFun hslot w⟩
  | trap hkernel hcx htoken =>
    obtain ⟨hok', hslot, hview⟩ := restore_spec hcx htoken
    refine ⟨hok', ?_⟩
    rw [registers_loaded hview, hslot, hkernel, (alltraps_spec hok).1]

/-- **Every program keeps its registers.**  In every run of any number of programs, with traps at any point
and whatever the kernel does to the saved contexts in between, the program on the hart has the registers
(but for `tp`) and the program counter that it or the kernel has left for it.  When it traps, `trap_handler`
is entered with its kernel stack and the kernel's address space, and finds what each program has in its
context. -/
theorem traps_keep_registers {v : T → Kept → Word} (h : Run view (slot R) (Ok R) (Step R) t v m) :
    view m = v t ∧
    let k := m.trap.run tr alltraps
    slot R k = v ∧ k.pc = m.mem (R.word t 36) ∧ k.x 2 = m.mem (R.word t 35) ∧
      k.csr .satp = m.mem (R.word t 34) := by
  obtain ⟨hok, rfl⟩ := h.registers_eq fun hok hs => hs.sound hok
  exact ⟨registers_self.symm, alltraps_spec hok⟩

theorem traps_keep_registers_two : (sampleLeave.run (fun _ a => a) restore).x 8 = 0x2040 := by
  let R := pages 37 (by decide)
  have hrun : Run view (slot R) (Ok R) (Step R) true _ sample := .start ⟨rfl, rfl⟩
  have hleave : Step R true false id sample (sampleLeave.run (fun _ a => a) restore) := .trap rfl rfl rfl
  exact congrFun (traps_keep_registers (hrun.step hleave)).1 ⟨8, by decide⟩

end Trap

end LemonCore.Kernel.Context
