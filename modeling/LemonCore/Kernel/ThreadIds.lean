import LemonCore.Kernel.ProcessTables
import LemonCore.Foundation.EventLog

/-!
# Thread ids and exit codes

A `tid` is handed out by `sys_thread_create`, released when the thread exits, and the exit code stays in the
task table until `sys_waittid` collects it.  A `tid` that has been released but not collected can therefore
be handed out again, and the code is lost (`exit_code_replaced`); and because `sys_thread_create` resizes
the task table to end at the new thread, it drops the entries above.

* `TidState`: what a history says about one `tid` of a process;
* `CreateWhenCollected`: a released `tid` is handed out again only when the entries of the task table from
  there on are empty;
* `ThreadsAgree`: then the task table, the allocator of the process and the threads agree with the history;
* `exit_codes_delivered`: then every exit code is delivered, once, by the first `waittid`;
* `thread_create_slots`: which threads keep their entry when `sys_thread_create` is called in any state.
-/

namespace LemonCore.Kernel.Processes

open Foundation.EventLog

variable {tasks : List (Option Thread)} {tid : ℕ}

inductive TidState where
  | free
  | running (t : Thread)
  /-- the thread has exited and its code was not collected -/
  | exited (t : Thread) (code : ℤ)
  deriving DecidableEq, Repr

def TidState.record (p : Proc) (tid : ℕ) (st : TidState) : Event → TidState
  | .threadCreated p' tid' t => if p' = p ∧ tid' = tid then .running t else st
  | .threadExited p' tid' t code => if p' = p ∧ tid' = tid then .exited t code else st
  | .waittidReturned p' _ tid' (.exited _) => if p' = p ∧ tid' = tid then .free else st
  | _ => st

/-- The state of a `tid` of the process `p` after a history. -/
def tidState (p : Proc) (tid : ℕ) (hist : History) : TidState :=
  hist.foldl (TidState.record p tid) .free

/-- What `waittid` should return to `caller`. -/
def TidState.outcome (caller : Thread) : TidState → WaittidOutcome
  | .free => .missing
  | .running t => if t = caller then .own else .running
  | .exited _ code => .exited code

/-- While the main thread of a process is alive, a `tid` is handed out only when no thread has it and the
code of the last one was collected, and `waittid` returns what it should. -/
def Due (before : History) : Event → Prop
  | .threadCreated p tid _ => ¬ Exited before p → tidState p tid before = .free
  | .waittidReturned p caller tid outcome =>
    ¬ Exited before p → outcome = (tidState p tid before).outcome caller
  | _ => True

/-- Every event was as it should be, and `waittid` on a thread that was created and not collected will
answer. -/
structure Delivers (hist : History) (s : State) : Prop where
  due : Always Due hist
  answers : ∀ t tcb tid, s.current = some t → s.tcbs t = some tcb → ¬ Exited hist tcb.process →
    tidState tcb.process tid hist ≠ .free →
      ∃ s', step s (.call (.waittid tid)) = some (s', [.waittidReturned tcb.process t tid
        ((tidState tcb.process tid hist).outcome t)])

/-- `sys_thread_create` finds no entry in the task table at the `tid` released last, or above it. -/
def CreateWhenCollected (s : State) : Action → Prop
  | .call .threadCreate =>
    ∀ t ∈ s.current, ∀ tcb ∈ s.tcbs t, ∀ pcb ∈ s.pcbs tcb.process,
      ∀ tid ∈ pcb.taskResAllocator.recycled.head?, ∀ entry ∈ pcb.tasks.drop tid, entry = none
  | _ => True

instance (s : State) : (action : Action) → Decidable (CreateWhenCollected s action)
  | .call .threadCreate => inferInstanceAs (Decidable (∀ t ∈ s.current, ∀ tcb ∈ s.tcbs t,
      ∀ pcb ∈ s.pcbs tcb.process, ∀ tid ∈ pcb.taskResAllocator.recycled.head?,
        ∀ entry ∈ pcb.tasks.drop tid, entry = none))
  | .call .yield => .isTrue trivial
  | .call .sleep => .isTrue trivial
  | .call .waitDevice => .isTrue trivial
  | .call .wait => .isTrue trivial
  | .call (.wake _) => .isTrue trivial
  | .call .fork => .isTrue trivial
  | .call (.exit _) => .isTrue trivial
  | .call (.waitpid _) => .isTrue trivial
  | .call (.waittid _) => .isTrue trivial
  | .dispatch => .isTrue trivial
  | .expire _ => .isTrue trivial
  | .deviceReady _ => .isTrue trivial

/-! ### Entries of the task table -/

/-- The entry of a task table, if there is one. -/
def slot (tasks : List (Option Thread)) (tid : ℕ) : Option Thread := (tasks[tid]?).join

theorem slot_eq_some {t : Thread} :
    slot tasks tid = some t ↔ tasks[tid]? = some (some t) := by
  rw [slot, Option.join_eq_some_iff]

theorem slot_of_length_le (h : tasks.length ≤ tid) :
    slot tasks tid = none := by
  rw [slot, List.getElem?_eq_none h]
  rfl

theorem slot_create (tasks : List (Option Thread)) (tid i : ℕ) (t : Thread) :
    slot ((resize tasks (tid + 1)).set tid (some t)) i =
      if i = tid then some t else if i < tid then slot tasks i else none := by
  have hlen : (resize tasks (tid + 1)).length = tid + 1 := by
    simp [resize]
    omega
  by_cases hi : i = tid
  · rw [if_pos hi, slot_eq_some, hi, List.getElem?_set_self (by omega)]
  · rw [if_neg hi, slot, List.getElem?_set_ne (Ne.symm hi)]
    by_cases hlt : i < tid
    · rw [if_pos hlt, resize, slot]
      by_cases hin : i < tasks.length
      · rw [List.getElem?_append_left (by simp; omega), List.getElem?_take_of_lt (by omega)]
      · rw [List.getElem?_append_right (by simp; omega), List.getElem?_eq_none (l := tasks) (by omega),
          List.getElem?_replicate]
        split <;> rfl
    · rw [if_neg hlt, List.getElem?_eq_none (by omega)]
      rfl

theorem slot_set_none (tasks : List (Option Thread)) (tid i : ℕ) :
    slot (tasks.set tid none) i = if i = tid then none else slot tasks i := by
  by_cases hi : i = tid
  · rw [if_pos hi, hi, slot, List.getElem?_set]
    simp
    split <;> rfl
  · rw [if_neg hi, slot, List.getElem?_set_ne (Ne.symm hi), slot]

theorem slot_drop {i : ℕ} (h : ∀ entry ∈ tasks.drop tid, entry = none)
    (hi : tid ≤ i) : slot tasks i = none := by
  rw [slot]
  cases hentry : tasks[i]? with
  | none => rfl
  | some entry =>
    have hmem : entry ∈ tasks.drop tid := by
      refine List.mem_of_getElem? (i := i - tid) ?_
      rw [List.getElem?_drop, Nat.add_sub_of_le hi, hentry]
    rw [h entry hmem]
    rfl

/-- Creating a thread leaves the other entries alone exactly when there is none above the new one. -/
theorem slot_create_frame_iff (tasks : List (Option Thread)) (tid : ℕ) (t : Thread) :
    (∀ i, i ≠ tid → slot ((resize tasks (tid + 1)).set tid (some t)) i = slot tasks i) ↔
      ∀ i, tid < i → slot tasks i = none := by
  constructor
  · intro h i hi
    have hsame := h i (Nat.ne_of_gt hi)
    rw [slot_create, if_neg (Nat.ne_of_gt hi), if_neg (Nat.not_lt.mpr (Nat.le_of_lt hi))] at hsame
    exact hsame.symm
  · intro h i hi
    rw [slot_create, if_neg hi]
    split
    · rfl
    · rename_i hge
      exact (h i (Nat.lt_of_le_of_ne (Nat.le_of_not_lt hge) (Ne.symm hi))).symm

theorem slot_create_kept_iff {t : Thread} (tid : ℕ)
    (hnew : ∀ i, slot tasks i ≠ some t) :
    (∀ i w, slot tasks i = some w → slot ((resize tasks (tid + 1)).set tid (some t)) i = some w) ↔
      ∀ i, tid ≤ i → slot tasks i = none := by
  constructor
  · intro h i hi
    by_contra hne
    obtain ⟨w, hw⟩ := Option.ne_none_iff_exists'.mp hne
    have hkept := h i w hw
    rw [slot_create] at hkept
    by_cases heq : i = tid
    · -- the entry is replaced by the new thread
      rw [if_pos heq] at hkept
      exact hnew i (hw.trans hkept.symm)
    · rw [if_neg heq, if_neg (Nat.not_lt.mpr hi)] at hkept
      cases hkept
  · intro h i w hw
    have hlt : i < tid := by
      by_contra hge
      rw [h i (Nat.le_of_not_lt hge)] at hw
      cases hw
    rw [slot_create, if_neg (Nat.ne_of_lt hlt), if_pos hlt, hw]

/-! ### The table, the allocator and the threads agree with the history -/

/-- What the state of a `tid` says about the process and its threads. -/
def Holds (s : State) (p : Proc) (pcb : Pcb) (tid : ℕ) : TidState → Prop
  | .free => ¬ pcb.taskResAllocator.InUse tid ∧ slot pcb.tasks tid = none
  | .running t => pcb.taskResAllocator.InUse tid ∧ slot pcb.tasks tid = some t ∧
      s.tcbs t = some ⟨p, some tid, none⟩
  | .exited t code => ¬ pcb.taskResAllocator.InUse tid ∧ slot pcb.tasks tid = some t ∧
      s.tcbs t = some ⟨p, none, some code⟩

structure Tids (hist : History) (s : State) (p : Proc) : Prop where
  length_le : ∀ pcb, s.pcbs p = some pcb → pcb.tasks.length ≤ pcb.taskResAllocator.current
  holds : ∀ pcb, s.pcbs p = some pcb → ∀ tid, Holds s p pcb tid (tidState p tid hist)
  held : ∀ t tcb tid, s.tcbs t = some tcb → tcb.process = p → tcb.res = some tid →
    tidState p tid hist = .running t

structure ThreadsAgree (hist : History) (s : State) : Prop where
  tids : ∀ p, ¬ Exited hist p → Tids hist s p
  unborn : ∀ p, s.nextProc ≤ p → ∀ tid, tidState p tid hist = .free
  due : Always Due hist

section

variable {hist events : History} {s s' : State} {p : Proc} {pcb : Pcb} {tid : ℕ} {action : Action}

theorem tidState_append (tid : ℕ) (hno : ∀ e ∈ events, ∀ st : TidState, st.record p tid e = st) :
    tidState p tid (hist ++ events) = tidState p tid hist := by
  rw [tidState, List.foldl_append]
  induction events with
  | nil => rfl
  | cons e events ih =>
    rw [List.foldl_cons, hno e List.mem_cons_self]
    exact ih fun e' he' => hno e' (List.mem_cons_of_mem e he')

theorem tidState_concat (e : Event) :
    tidState p tid (hist ++ [e]) = (tidState p tid hist).record p tid e := by
  rw [tidState, List.foldl_append]
  rfl

theorem Holds.of_slot {st : TidState} {w : Thread} {wtcb : Tcb} (h : Holds s p pcb tid st)
    (hslot : slot pcb.tasks tid = some w) (hw : s.tcbs w = some wtcb) :
    (st = .running w ∧ wtcb = ⟨p, some tid, none⟩) ∨
      ∃ code, st = .exited w code ∧ wtcb = ⟨p, none, some code⟩ := by
  cases st with
  | free =>
    rw [h.2] at hslot
    cases hslot
  | running t =>
    obtain ⟨_, ht, htcb⟩ := h
    rw [hslot] at ht
    cases ht
    rw [hw] at htcb
    cases htcb
    exact Or.inl ⟨rfl, rfl⟩
  | exited t code =>
    obtain ⟨_, ht, htcb⟩ := h
    rw [hslot] at ht
    cases ht
    rw [hw] at htcb
    cases htcb
    exact Or.inr ⟨code, rfl, rfl⟩

theorem Holds.eq_free {st : TidState} (h : Holds s p pcb tid st) (hslot : slot pcb.tasks tid = none) :
    st = .free := by
  cases st with
  | free => rfl
  | running t =>
    rw [h.2.1] at hslot
    cases hslot
  | exited t code =>
    rw [h.2.1] at hslot
    cases hslot

theorem Holds.congr {st : TidState} {pcb' : Pcb} (h : Holds s p pcb tid st)
    (huse : pcb'.taskResAllocator.InUse tid ↔ pcb.taskResAllocator.InUse tid)
    (hslot : slot pcb'.tasks tid = slot pcb.tasks tid)
    (htcbs : ∀ t tcb, slot pcb.tasks tid = some t → s.tcbs t = some tcb → tcb.process = p →
      s'.tcbs t = some tcb) : Holds s' p pcb' tid st := by
  cases st with
  | free =>
    rw [Holds, huse, hslot]
    exact h
  | running t =>
    rw [Holds, huse, hslot]
    exact ⟨h.1, h.2.1, htcbs t _ h.2.1 h.2.2 rfl⟩
  | exited t code =>
    rw [Holds, huse, hslot]
    exact ⟨h.1, h.2.1, htcbs t _ h.2.1 h.2.2 rfl⟩

/-- The process table keeps the task tables and the allocators, and the threads of the process stay. -/
theorem Tids.frame {hist' : History} (h : Tids hist s p)
    (hstate : ∀ tid, tidState p tid hist' = tidState p tid hist)
    (hpcbs : (s'.pcbs p).map (fun pcb => (pcb.tasks, pcb.taskResAllocator)) =
      (s.pcbs p).map fun pcb => (pcb.tasks, pcb.taskResAllocator))
    (htcbs : ∀ t tcb, tcb.process = p → (s'.tcbs t = some tcb ↔ s.tcbs t = some tcb)) :
    Tids hist' s' p := by
  have hold : ∀ pcb', s'.pcbs p = some pcb' → ∃ pcb, s.pcbs p = some pcb ∧
      pcb'.tasks = pcb.tasks ∧ pcb'.taskResAllocator = pcb.taskResAllocator := by
    intro pcb' hpcb'
    rw [hpcb', Option.map_some] at hpcbs
    obtain ⟨pcb, hpcb, heq⟩ := Option.map_eq_some_iff.mp hpcbs.symm
    obtain ⟨htasks, halloc⟩ := Prod.mk.inj heq
    exact ⟨pcb, hpcb, htasks.symm, halloc.symm⟩
  refine ⟨?_, ?_, ?_⟩
  · intro pcb' hpcb'
    obtain ⟨pcb, hpcb, htasks, halloc⟩ := hold pcb' hpcb'
    rw [htasks, halloc]
    exact h.length_le pcb hpcb
  · intro pcb' hpcb' tid
    obtain ⟨pcb, hpcb, htasks, halloc⟩ := hold pcb' hpcb'
    rw [hstate]
    exact (h.holds pcb hpcb tid).congr (by rw [halloc]) (by rw [htasks])
      fun t tcb _ ht hp => (htcbs t tcb hp).mpr ht
  · intro t tcb tid ht hp hres
    rw [hstate]
    exact h.held t tcb tid ((htcbs t tcb hp).mp ht) hp hres

namespace ThreadsAgree

theorem of_frame (h : ThreadsAgree hist s) (own : Proc → Prop) (hdue : Always Due (hist ++ events))
    (hown : ∀ p, own p → ¬ Exited (hist ++ events) p → Tids (hist ++ events) s' p)
    (hlt : ∀ p, own p → p < s'.nextProc)
    (hevents : ∀ p, ¬ own p → ∀ e ∈ events, ∀ tid (st : TidState), st.record p tid e = st)
    (hnext : s.nextProc ≤ s'.nextProc)
    (hpcbs : ∀ p, ¬ own p → ¬ Exited hist p →
      (s'.pcbs p).map (fun pcb => (pcb.tasks, pcb.taskResAllocator)) =
        (s.pcbs p).map fun pcb => (pcb.tasks, pcb.taskResAllocator))
    (htcbs : ∀ t tcb, ¬ own tcb.process → (s'.tcbs t = some tcb ↔ s.tcbs t = some tcb)) :
    ThreadsAgree (hist ++ events) s' := by
  refine ⟨?_, ?_, hdue⟩
  · intro p hlive
    by_cases hp : own p
    · exact hown p hp hlive
    · have hbefore : ¬ Exited hist p := fun hexit => hlive (hexit.append events)
      refine (h.tids p hbefore).frame ?_ (hpcbs p hp hbefore) ?_
      · intro tid
        exact tidState_append tid fun e he => hevents p hp e he tid
      · intro t tcb hproc
        exact htcbs t tcb (by rw [hproc]; exact hp)
  · intro p hp tid
    have hnot : ¬ own p := fun hown => absurd (hlt p hown) (Nat.not_lt.mpr hp)
    rw [tidState_append tid fun e he => hevents p hnot e he tid]
    exact h.unborn p (Nat.le_trans hnext hp) tid

theorem of_same (h : ThreadsAgree hist s) (hdue : Always Due (hist ++ events))
    (hevents : ∀ e ∈ events, ∀ p tid (st : TidState), st.record p tid e = st)
    (hnext : s'.nextProc = s.nextProc)
    (hpcbs : ∀ p, ¬ Exited hist p → (s'.pcbs p).map (fun pcb => (pcb.tasks, pcb.taskResAllocator)) =
        (s.pcbs p).map fun pcb => (pcb.tasks, pcb.taskResAllocator))
    (htcbs : s'.tcbs = s.tcbs) : ThreadsAgree (hist ++ events) s' := by
  refine h.of_frame (fun _ => False) hdue ?_ ?_ ?_ (Nat.le_of_eq hnext.symm) ?_ ?_
  · exact fun p hp => absurd hp id
  · exact fun p hp => absurd hp id
  · exact fun p _ e he => hevents e he p
  · exact fun p _ => hpcbs p
  · intro t tcb _
    rw [htcbs]

/-- The `tid` that `sys_thread_create` is about to hand out is free, and no entry is above it. -/
theorem create_free (h : Tids hist s p) (hpcb : s.pcbs p = some pcb)
    (hclear : ∀ tid ∈ pcb.taskResAllocator.recycled.head?, ∀ entry ∈ pcb.tasks.drop tid, entry = none) :
    tidState p pcb.taskResAllocator.alloc.1 hist = .free ∧
      ∀ i, pcb.taskResAllocator.alloc.1 ≤ i → slot pcb.tasks i = none := by
  obtain ⟨_, _, halloc⟩ := pcb.taskResAllocator.alloc_spec
  have hnone : ∀ i, pcb.taskResAllocator.alloc.1 ≤ i → slot pcb.tasks i = none := by
    intro i hi
    cases halloc with
    | inl htop =>
      obtain ⟨rest, hrest, _⟩ := htop
      exact slot_drop (hclear _ (by rw [hrest]; rfl)) hi
    | inr hfresh =>
      have hlen := h.length_le pcb hpcb
      exact slot_of_length_le (by omega)
  exact ⟨(h.holds pcb hpcb _).eq_free (hnone _ (Nat.le_refl _)), hnone⟩

theorem length_create (h : Tids hist s p) (hpcb : s.pcbs p = some pcb) (t : Thread) :
    ((resize pcb.tasks (pcb.taskResAllocator.alloc.1 + 1)).set pcb.taskResAllocator.alloc.1
      (some t)).length ≤ pcb.taskResAllocator.alloc.2.current := by
  obtain ⟨_, _, halloc⟩ := pcb.taskResAllocator.alloc_spec
  have hlen := h.length_le pcb hpcb
  simp only [resize, List.length_set, List.length_append, List.length_take, List.length_replicate]
  cases halloc with
  | inl htop =>
    obtain ⟨rest, hrest, hcurrent⟩ := htop
    have hlt := pcb.taskResAllocator.recycled_lt pcb.taskResAllocator.alloc.1 (by rw [hrest]; simp)
    omega
  | inr hfresh => omega

end ThreadsAgree

/-- The process that creates a thread. -/
theorem Tids.create (h : Tids hist s p) (hs : Seated s) (hpcb : s.pcbs p = some pcb)
    (hclear : ∀ tid ∈ pcb.taskResAllocator.recycled.head?, ∀ entry ∈ pcb.tasks.drop tid, entry = none)
    (hpcb' : s'.pcbs p = some { pcb with
      tasks := (resize pcb.tasks (pcb.taskResAllocator.alloc.1 + 1)).set
        pcb.taskResAllocator.alloc.1 (some s.nextThread)
      taskResAllocator := pcb.taskResAllocator.alloc.2 })
    (htcbs : s'.tcbs = Function.update s.tcbs s.nextThread
      (some ⟨p, some pcb.taskResAllocator.alloc.1, none⟩)) :
    Tids (hist ++ [.threadCreated p pcb.taskResAllocator.alloc.1 s.nextThread]) s' p := by
  obtain ⟨hfree, hnone⟩ := ThreadsAgree.create_free h hpcb hclear
  obtain ⟨_, huse, _⟩ := pcb.taskResAllocator.alloc_spec
  have hold : ∀ t tcb, s.tcbs t = some tcb → t ≠ s.nextThread := by
    intro t tcb ht heq
    rw [heq, hs.fresh _ (Nat.le_refl _)] at ht
    cases ht
  have hstate : ∀ i, tidState p i (hist ++ [.threadCreated p pcb.taskResAllocator.alloc.1 s.nextThread]) =
      if i = pcb.taskResAllocator.alloc.1 then .running s.nextThread else tidState p i hist := by
    intro i
    rw [tidState_concat, TidState.record]
    simp [eq_comm]
  refine ⟨?_, ?_, ?_⟩
  · intro pcb' hp
    rw [hpcb'] at hp
    cases hp
    exact ThreadsAgree.length_create h hpcb s.nextThread
  · intro pcb' hp i
    rw [hpcb'] at hp
    cases hp
    rw [hstate]
    by_cases hi : i = pcb.taskResAllocator.alloc.1
    · rw [if_pos hi, Holds, huse, slot_create, if_pos hi, htcbs, hi]
      exact ⟨Or.inr rfl, rfl, Function.update_self _ _ _⟩
    · rw [if_neg hi]
      refine (h.holds pcb hpcb i).congr ?_ ?_ ?_
      · show pcb.taskResAllocator.alloc.2.InUse i ↔ _
        rw [huse]
        simp [hi]
      · rw [slot_create, if_neg hi]
        split
        · rfl
        · rename_i hge
          exact (hnone i (Nat.le_of_not_lt hge)).symm
      · intro t tcb _ ht _
        rw [htcbs, Function.update_of_ne (hold t tcb ht)]
        exact ht
  · intro t tcb i ht hp hres
    rw [hstate]
    rw [htcbs, Function.update_apply] at ht
    split at ht
    · rename_i hnew
      cases ht
      cases hres
      rw [if_pos rfl, hnew]
    · have hrun := h.held t tcb i ht hp hres
      have hi : i ≠ pcb.taskResAllocator.alloc.1 := by
        intro heq
        rw [heq, hfree] at hrun
        cases hrun
      rw [if_neg hi]
      exact hrun

/-- The process whose `waittid` collects an exit code. -/
theorem Tids.collect (h : Tids hist s p) (hpcb : s.pcbs p = some pcb) {caller w : Thread} {code : ℤ}
    (hstate : tidState p tid hist = .exited w code)
    (hpcb' : s'.pcbs p = some { pcb with tasks := pcb.tasks.set tid none }) (htcbs : s'.tcbs = s.tcbs) :
    Tids (hist ++ [.waittidReturned p caller tid (.exited code)]) s' p := by
  have hstate' : ∀ i, tidState p i (hist ++ [.waittidReturned p caller tid (.exited code)]) =
      if i = tid then .free else tidState p i hist := by
    intro i
    rw [tidState_concat, TidState.record]
    simp [eq_comm]
  refine ⟨?_, ?_, ?_⟩
  · intro pcb' hp
    rw [hpcb'] at hp
    cases hp
    rw [List.length_set]
    exact h.length_le pcb hpcb
  · intro pcb' hp i
    rw [hpcb'] at hp
    cases hp
    have hi := h.holds pcb hpcb i
    rw [hstate']
    by_cases heq : i = tid
    · rw [heq, hstate] at hi
      rw [if_pos heq, Holds, slot_set_none, if_pos heq, heq]
      exact ⟨hi.1, rfl⟩
    · rw [if_neg heq]
      refine hi.congr Iff.rfl ?_ ?_
      · rw [slot_set_none, if_neg heq]
      · intro t tcb _ ht _
        rw [htcbs]
        exact ht
  · intro t tcb i ht hp hres
    rw [htcbs] at ht
    have hrun := h.held t tcb i ht hp hres
    rw [hstate']
    have heq : i ≠ tid := by
      intro heq
      rw [heq, hstate] at hrun
      cases hrun
    rw [if_neg heq]
    exact hrun

/-- The process of a thread that exits. -/
theorem Tids.exit (h : Tids hist s p) (hpcb : s.pcbs p = some pcb) {t : Thread} {code : ℤ}
    {a : RecycleAllocator} (htcb : s.tcbs t = some ⟨p, some tid, none⟩)
    (ha : pcb.taskResAllocator.dealloc tid = some a)
    (hpcb' : s'.pcbs p = some { pcb with taskResAllocator := a })
    (htcbs : s'.tcbs = Function.update s.tcbs t (some ⟨p, none, some code⟩)) :
    Tids (hist ++ [.threadExited p tid t code]) s' p := by
  obtain ⟨_, huse, hcurrent⟩ := RecycleAllocator.dealloc_spec ha
  have hrun := h.held t _ tid htcb rfl rfl
  have hstate : ∀ i, tidState p i (hist ++ [.threadExited p tid t code]) =
      if i = tid then .exited t code else tidState p i hist := by
    intro i
    rw [tidState_concat, TidState.record]
    simp [eq_comm]
  refine ⟨?_, ?_, ?_⟩
  · intro pcb' hp
    rw [hpcb'] at hp
    cases hp
    rw [hcurrent]
    exact h.length_le pcb hpcb
  · intro pcb' hp i
    rw [hpcb'] at hp
    cases hp
    have hi := h.holds pcb hpcb i
    rw [hstate]
    by_cases heq : i = tid
    · rw [heq, hrun] at hi
      rw [if_pos heq, Holds, huse, heq, htcbs]
      exact ⟨fun hx => hx.2 rfl, hi.2.1, Function.update_self _ _ _⟩
    · rw [if_neg heq]
      refine hi.congr ?_ rfl ?_
      · show a.InUse i ↔ _
        rw [huse]
        simp [heq]
      · -- the thread that exits is in no other entry of the table
        intro t' tcb' hslot ht' _
        have hne : t' ≠ t := by
          intro hsame
          rw [hsame] at hslot ht'
          rw [htcb] at ht'
          cases ht'
          cases hi.of_slot hslot htcb with
          | inl hx => cases hx.2; exact heq rfl
          | inr hx => obtain ⟨_, _, hx⟩ := hx; cases hx
        rw [htcbs, Function.update_of_ne hne]
        exact ht'
  · intro t' tcb' i ht' hp hres
    rw [htcbs, Function.update_apply] at ht'
    rw [hstate]
    split at ht'
    · cases ht'
      cases hres
    · rename_i hne
      have hrun' := h.held t' tcb' i ht' hp hres
      have heq : i ≠ tid := by
        intro heq
        rw [heq, hrun] at hrun'
        cases hrun'
        exact hne rfl
      rw [if_neg heq]
      exact hrun'

/-- A new process. -/
theorem Tids.fork (hunborn : ∀ tid, tidState p tid hist = .free) (hf : Filed s) (hp : s.nextProc ≤ p)
    {t : Thread} {pcb : Pcb} {e : Event} (he : ∀ tid (st : TidState), st.record p tid e = st)
    (hpcb : s'.pcbs p = some pcb) (htasks : pcb.tasks = [some t])
    (halloc : pcb.taskResAllocator = RecycleAllocator.new.alloc.2)
    (htcbs : s'.tcbs = Function.update s.tcbs t (some ⟨p, some 0, none⟩)) :
    Tids (hist ++ [e, .threadCreated p 0 t]) s' p := by
  have hstate : ∀ i, tidState p i (hist ++ [e, .threadCreated p 0 t]) =
      if i = 0 then .running t else .free := by
    intro i
    rw [List.append_cons, tidState_concat, tidState_concat, he, hunborn, TidState.record]
    simp [eq_comm]
  obtain ⟨_, huse, _⟩ := RecycleAllocator.new.alloc_spec
  refine ⟨?_, ?_, ?_⟩
  · intro pcb' hp
    rw [hpcb] at hp
    cases hp
    rw [htasks, halloc]
    exact Nat.le_refl 1
  · intro pcb' hp i
    rw [hpcb] at hp
    cases hp
    rw [hstate]
    by_cases hi : i = 0
    · rw [if_pos hi, Holds, htasks, halloc, huse, htcbs, hi]
      exact ⟨Or.inr rfl, rfl, Function.update_self _ _ _⟩
    · rw [if_neg hi, Holds, htasks, halloc, huse]
      refine ⟨?_, slot_of_length_le (Nat.one_le_iff_ne_zero.mpr hi)⟩
      intro hx
      exact hx.elim (RecycleAllocator.not_inUse_new i) hi
  · intro t' tcb' i ht' hproc hres
    rw [htcbs, Function.update_apply] at ht'
    rw [hstate]
    split at ht'
    · rename_i hsame
      cases ht'
      cases hres
      rw [if_pos rfl, hsame]
    · have hlt := hf.process_lt t' tcb' ht'
      rw [hproc] at hlt
      exact absurd hlt (Nat.not_lt.mpr hp)

theorem Tids.waittid_outcome (h : Tids hist s p) (hpcb : s.pcbs p = some pcb) {t : Thread} {tcb : Tcb}
    {own : ℕ} (htcb : s.tcbs t = some tcb) (hp : tcb.process = p) (hres : tcb.res = some own)
    {outcome : WaittidOutcome}
    (houtcome : (outcome = .own ∧ own = tid) ∨
      (own ≠ tid ∧ outcome = .missing ∧ pcb.tasks[tid]? = some none) ∨
      (own ≠ tid ∧ outcome = .running ∧ ∃ w wtcb, pcb.tasks[tid]? = some (some w) ∧
        s.tcbs w = some wtcb ∧ wtcb.exitCode = none)) :
    outcome = (tidState p tid hist).outcome t := by
  rcases houtcome with ⟨rfl, rfl⟩ | ⟨_, rfl, hnone⟩ | ⟨hne, rfl, w, wtcb, hw, hwtcb, hcode⟩
  · rw [h.held t tcb own htcb hp hres, TidState.outcome, if_pos rfl]
  · have hslot : slot pcb.tasks tid = none := by
      rw [slot, hnone]
      rfl
    rw [(h.holds pcb hpcb tid).eq_free hslot, TidState.outcome]
  · cases (h.holds pcb hpcb tid).of_slot (slot_eq_some.mpr hw) hwtcb with
    | inl hrun =>
      obtain ⟨hstate, hwtcb'⟩ := hrun
      have hother : w ≠ t := by
        intro heq
        rw [heq, htcb] at hwtcb
        cases hwtcb
        rw [hwtcb'] at hres
        cases hres
        exact hne rfl
      rw [hstate, TidState.outcome, if_neg hother]
    | inr hexit =>
      obtain ⟨code, _, rfl⟩ := hexit
      cases hcode

theorem ThreadsAgree.effect (h : ThreadsAgree hist s) (hs : Seated s) (hf : Filed s)
    (hr : Recorded hist s) (hok : CreateWhenCollected s action) (heffect : Effect s action s' events) :
    ThreadsAgree (hist ++ events) s' := by
  cases heffect with
  | dispatch hcur hready =>
    exact h.of_same (h.due.append (by simp [Due])) (by simp [TidState.record]) rfl (fun _ _ => rfl) rfl
  | wakeup haction hq hq' hplace htables hcur =>
    refine h.of_same (h.due.append (by simp)) (by simp) htables.nextProc ?_ htables.tcbs
    rw [htables.pcbs]
    exact fun _ _ => rfl
  | park place haction hcur hq' htables hcur' =>
    refine h.of_same (h.due.append (by simp)) (by simp) htables.nextProc ?_ htables.tcbs
    rw [htables.pcbs]
    exact fun _ _ => rfl
  | @fork t₀ tcb₀ pcb₀ hcur htcb hpcb hone =>
    have hunborn := h.unborn s.nextProc (Nat.le_refl _)
    refine h.of_frame (fun p => p = s.nextProc) ?_ ?_ ?_ ?_ (Nat.le_succ _) ?_ ?_
    · rw [List.append_cons, always_concat, always_concat]
      refine ⟨⟨h.due, trivial⟩, fun _ => ?_⟩
      rw [tidState_concat]
      exact hunborn 0
    · intro p hp _
      rw [hp]
      exact Tids.fork hunborn hf (Nat.le_refl _) (fun _ _ => rfl) (Function.update_self _ _ _) rfl rfl rfl
    · intro p hp
      rw [hp]
      exact Nat.lt_succ_self _
    · intro p hp e he tid st
      simp only [List.mem_cons, List.not_mem_nil, or_false] at he
      rcases he with rfl | rfl
      · rfl
      · simp [TidState.record, Ne.symm hp]
    · intro p hp _
      simp only [Function.update_of_ne hp]
      exact map_update hpcb (by rfl) p
    · intro t tcb hp
      simp only [Function.update_apply]
      split
      · rename_i ht
        rw [ht, hs.fresh _ (Nat.le_refl _)]
        constructor
        · intro hnew
          cases hnew
          exact absurd rfl hp
        · intro hnone
          cases hnone
      · rfl
  | @threadCreate t₀ tcb₀ pcb₀ hcur htcb hpcb =>
    have hclear := hok t₀ hcur tcb₀ htcb pcb₀ hpcb
    have hsame : ∀ p, Exited (hist ++ [.threadCreated tcb₀.process pcb₀.taskResAllocator.alloc.1
        s.nextThread]) p ↔ Exited hist p := exited_append hist (by simp)
    refine h.of_frame (fun p => p = tcb₀.process) ?_ ?_ ?_ ?_ (Nat.le_refl _) ?_ ?_
    · rw [always_concat]
      exact ⟨h.due, fun hlive => (ThreadsAgree.create_free (h.tids _ hlive) hpcb hclear).1⟩
    · intro p hp hlive
      rw [hsame, hp] at hlive
      rw [hp]
      exact (h.tids _ hlive).create hs hpcb hclear (Function.update_self _ _ _) rfl
    · intro p hp
      rw [hp]
      exact hf.process_lt t₀ tcb₀ htcb
    · intro p hp e he tid st
      simp only [List.mem_singleton] at he
      rw [he]
      simp [TidState.record, Ne.symm hp]
    · intro p hp _
      simp only [Function.update_of_ne hp]
    · intro t tcb hp
      simp only [Function.update_apply]
      split
      · rename_i ht
        rw [ht, hs.fresh _ (Nat.le_refl _)]
        constructor
        · intro hnew
          cases hnew
          exact absurd rfl hp
        · intro hnone
          cases hnone
      · rfl
  | @waittid t₀ tcb₀ pcb₀ tid own outcome hcur htcb hpcb hres houtcome =>
    refine h.of_same ?_ ?_ rfl (fun _ _ => rfl) rfl
    · rw [always_concat]
      exact ⟨h.due, fun hlive => (h.tids _ hlive).waittid_outcome hpcb htcb rfl hres houtcome⟩
    · intro e he p tid st
      simp only [List.mem_singleton] at he
      rw [he]
      rcases houtcome with ⟨rfl, _⟩ | ⟨_, rfl, _⟩ | ⟨_, rfl, _⟩ <;> rfl
  | @waittidExited t₀ w tcb₀ wtcb pcb₀ tid own code hcur htcb hpcb hres hne hw hwtcb hcode =>
    have hsame : ∀ p, Exited (hist ++ [.waittidReturned tcb₀.process t₀ tid (.exited code)]) p ↔
        Exited hist p := exited_append hist (by simp)
    have hstate : ¬ Exited hist tcb₀.process → tidState tcb₀.process tid hist = .exited w code := by
      intro hlive
      cases ((h.tids _ hlive).holds pcb₀ hpcb tid).of_slot (slot_eq_some.mpr hw) hwtcb with
      | inl hrun =>
        rw [hrun.2] at hcode
        cases hcode
      | inr hexit =>
        obtain ⟨code', hst, rfl⟩ := hexit
        cases hcode
        exact hst
    refine h.of_frame (fun p => p = tcb₀.process) ?_ ?_ ?_ ?_ (Nat.le_refl _) ?_ (fun _ _ _ => Iff.rfl)
    · rw [always_concat]
      refine ⟨h.due, fun hlive => ?_⟩
      rw [hstate hlive]
      rfl
    · intro p hp hlive
      rw [hsame, hp] at hlive
      rw [hp]
      exact (h.tids _ hlive).collect hpcb (hstate hlive) (Function.update_self _ _ _) rfl
    · intro p hp
      rw [hp]
      exact hf.process_lt t₀ tcb₀ htcb
    · intro p hp e he tid st
      simp only [List.mem_singleton] at he
      rw [he]
      simp [TidState.record, Ne.symm hp]
    · intro p hp _
      simp only [Function.update_of_ne hp]
  | waitpid hcur htcb hpcb hresult =>
    exact h.of_same (h.due.append (by simp [Due])) (by simp [TidState.record]) rfl (fun _ _ => rfl) rfl
  | @reap t₀ tcb₀ pcb₀ childPcb pid child l r a hcur htcb hpcb hchildren hchild hzombie hmatch halloc =>
    refine h.of_same (h.due.append (by simp [Due])) (by simp [TidState.record]) rfl ?_ rfl
    intro p hlive
    have hne : p ≠ child := by
      intro heq
      have hz := hr.live p (hf.pcb_lt (heq ▸ hchild)) hlive
      rw [heq, hchild, Option.map_some, hzombie] at hz
      cases hz
    simp only [Function.update_of_ne hne]
    exact map_update hpcb (by rfl) p
  | @threadExit t₀ tcb₀ pcb₀ tid code a hcur htcb hpcb hres htid halloc =>
    have hsame : ∀ p, Exited (hist ++ [.threadExited tcb₀.process tid t₀ code]) p ↔ Exited hist p :=
      exited_append hist (by simp)
    have htcb' : s.tcbs t₀ = some ⟨tcb₀.process, some tid, none⟩ := by
      obtain ⟨tcb₁, htcb₁, hcode⟩ := hs.current t₀ hcur
      rw [htcb] at htcb₁
      cases htcb₁
      rw [htcb, ← hres, ← hcode]
    refine h.of_frame (fun p => p = tcb₀.process) (h.due.append (by simp [Due])) ?_ ?_ ?_
      (Nat.le_refl _) ?_ ?_
    · intro p hp hlive
      rw [hsame, hp] at hlive
      rw [hp]
      exact (h.tids _ hlive).exit hpcb htcb' halloc (Function.update_self _ _ _) rfl
    · intro p hp
      rw [hp]
      exact hf.process_lt t₀ tcb₀ htcb
    · intro p hp e he tid st
      simp only [List.mem_singleton] at he
      rw [he]
      simp [TidState.record, Ne.symm hp]
    · intro p hp _
      simp only [Function.update_of_ne hp]
    · intro t tcb hp
      simp only [Function.update_apply]
      split
      · rename_i ht
        rw [ht, htcb]
        constructor
        · intro hnew
          cases hnew
          exact absurd rfl hp
        · intro hold
          cases hold
          exact absurd rfl hp
      · rfl
  | @processExit t₀ tcb₀ pcb₀ code a hcur htcb hpcb hres hpid =>
    refine h.of_frame (fun p => p = tcb₀.process) (h.due.append (by simp [Due])) ?_ ?_ ?_
      (Nat.le_refl _) ?_ ?_
    · intro p hp hlive
      exact absurd ⟨code, by simp [hp]⟩ hlive
    · intro p hp
      rw [hp]
      exact hf.process_lt t₀ tcb₀ htcb
    · intro p hp e he tid st
      simp only [List.mem_cons, List.not_mem_nil, or_false] at he
      rcases he with rfl | rfl
      · simp [TidState.record, Ne.symm hp]
      · rfl
    · intro p hp _
      simp only [Function.update_of_ne hp]
      exact map_adopted (fun _ _ _ => rfl) s.pcbs pcb₀.children p
    · -- the threads of other processes keep their resources
      intro t tcb hp
      have hmem : ∀ tcb', s.tcbs t = some tcb' → tcb'.process ≠ tcb₀.process → some t ∉ pcb₀.tasks := by
        intro tcb' ht' hne hmem
        obtain ⟨tcb₁, htcb₁, hproc⟩ := hf.tasks _ pcb₀ t hpcb hmem
        rw [ht'] at htcb₁
        cases htcb₁
        exact hne hproc
      constructor
      · intro ht
        obtain ⟨tcb₁, htcb₁, hproc, _, _⟩ := stripped_some ht
        rw [Function.update_apply] at htcb₁
        split at htcb₁
        · cases htcb₁
          exact absurd hproc hp
        · rename_i hne
          have hnot := hmem tcb₁ htcb₁ (hproc ▸ hp)
          simp only [stripped, if_neg hnot, Function.update_of_ne hne] at ht
          exact ht
      · intro ht
        have hne : t ≠ t₀ := by
          intro heq
          rw [heq, htcb] at ht
          cases ht
          exact hp rfl
        have hnot := hmem tcb ht hp
        simp only [stripped, if_neg hnot, Function.update_of_ne hne]
        exact ht

theorem threadsAgree_boot : ThreadsAgree [.threadCreated daemon 0 0] boot := by
  have hstate : ∀ p tid, tidState p tid [.threadCreated daemon 0 0] =
      if p = daemon ∧ tid = 0 then .running 0 else .free := by
    intro p tid
    simp [tidState, TidState.record, eq_comm]
  refine ⟨?_, ?_, ?_⟩
  · intro p _
    refine ⟨?_, ?_, ?_⟩
    · intro pcb hpcb
      simp only [boot, Function.update_apply] at hpcb
      split at hpcb
      · cases hpcb
        exact Nat.le_refl 1
      · cases hpcb
    · intro pcb hpcb tid
      simp only [boot, Function.update_apply] at hpcb
      split at hpcb
      · rename_i hp
        cases hpcb
        obtain ⟨_, huse, _⟩ := RecycleAllocator.new.alloc_spec
        rw [hstate]
        by_cases htid : tid = 0
        · rw [if_pos ⟨hp, htid⟩, Holds, huse, htid, hp]
          exact ⟨Or.inr rfl, rfl, rfl⟩
        · rw [if_neg (fun hx => htid hx.2), Holds, huse]
          refine ⟨?_, slot_of_length_le (Nat.one_le_iff_ne_zero.mpr htid)⟩
          exact fun hx => hx.elim (RecycleAllocator.not_inUse_new tid) htid
      · cases hpcb
    · intro t tcb tid ht hp hres
      simp only [boot, Function.update_apply] at ht
      split at ht
      · rename_i ht0
        cases ht
        cases hres
        rw [hstate, if_pos ⟨hp.symm, rfl⟩, ht0]
      · cases ht
  · intro p hp tid
    rw [hstate, if_neg]
    intro hx
    rw [hx.1] at hp
    exact absurd hp (by decide)
  · show Always Due ([] ++ [.threadCreated daemon 0 0])
    exact always_concat.mpr ⟨always_nil, fun _ => rfl⟩

theorem Run.threadsAgree (h : Run CreateWhenCollected hist s) : ThreadsAgree hist s :=
  h.invariant threadsAgree_boot fun hrun ha hok _ heffect =>
    ha.effect hrun.seated hrun.filed hrun.recorded hok heffect

/-- What `waittid` leaves: an exit code that is returned is taken out of the table. -/
def TidState.collect (s : State) (p : Proc) (pcb : Pcb) (tid : ℕ) : TidState → State
  | .free => s
  | .running _ => s
  | .exited _ _ => s.setPcb p { pcb with tasks := pcb.tasks.set tid none }

theorem Tids.lt_length (h : Tids hist s p) (hpcb : s.pcbs p = some pcb)
    (hstate : tidState p tid hist ≠ .free) :
    tid < pcb.tasks.length := by
  by_contra hge
  exact hstate ((h.holds pcb hpcb tid).eq_free (slot_of_length_le (Nat.le_of_not_lt hge)))

theorem Tids.answers (h : Tids hist s p) (hpcb : s.pcbs p = some pcb) {t : Thread} {tcb : Tcb} {own : ℕ}
    (hcur : s.current = some t) (htcb : s.tcbs t = some tcb) (hp : tcb.process = p)
    (hres : tcb.res = some own) (hlt : tid < pcb.tasks.length) :
    step s (.call (.waittid tid)) = some ((tidState p tid hist).collect s p pcb tid,
      [.waittidReturned p t tid ((tidState p tid hist).outcome t)]) := by
  have hholds := h.holds pcb hpcb tid
  simp only [step, call, waittid, hcur, htcb, hp, hpcb, hres, Option.bind_eq_bind, Option.bind_some]
  by_cases hown : own = tid
  · have hrun := h.held t tcb own htcb hp hres
    rw [hown] at hrun
    rw [if_pos hown, hrun, TidState.outcome, if_pos rfl, TidState.collect]
  · rw [if_neg hown]
    cases hst : tidState p tid hist with
    | free =>
      rw [hst] at hholds
      have hnone : pcb.tasks[tid]? = some none := by
        have hslot := hholds.2
        rw [slot, List.getElem?_eq_getElem hlt] at hslot
        rw [List.getElem?_eq_getElem hlt, ← hslot]
        rfl
      simp only [hnone, Option.bind_some]
      rfl
    | running w =>
      rw [hst] at hholds
      obtain ⟨_, hslot, hwtcb⟩ := hholds
      have hother : w ≠ t := by
        intro heq
        rw [heq, htcb] at hwtcb
        cases hwtcb
        cases hres
        exact hown rfl
      simp only [slot_eq_some.mp hslot, hwtcb, Option.bind_some]
      rw [TidState.outcome, if_neg hother, TidState.collect]
    | exited w code =>
      rw [hst] at hholds
      obtain ⟨_, hslot, hwtcb⟩ := hholds
      simp only [slot_eq_some.mp hslot, hwtcb, Option.bind_some]
      rfl

end

/-- **Exit codes are delivered.**  When `sys_thread_create` is only called while the task table has no entry
at the `tid` released last or above it, no `tid` is handed out before the code of its last thread was
collected, and the first `waittid` after the exit of a thread returns its code. -/
theorem exit_codes_delivered {hist : History} {s : State} (h : Run CreateWhenCollected hist s) :
    Delivers hist s := by
  refine ⟨h.threadsAgree.due, ?_⟩
  intro t tcb tid hcur htcb hlive hstate
  have hz := h.recorded.live _ (h.filed.process_lt t tcb htcb) hlive
  obtain ⟨pcb, hpcb, _⟩ := Option.map_eq_some_iff.mp hz
  obtain ⟨own, hres⟩ := Option.ne_none_iff_exists'.mp (h.recorded.res_ne_none h.seated hcur htcb hlive)
  have htids := h.threadsAgree.tids _ hlive
  exact ⟨_, htids.answers hpcb hcur htcb rfl hres (htids.lt_length hpcb hstate)⟩

/-- A thread is created, exits and is collected; then its `tid` is handed out again. -/
theorem exit_codes_delivered_reuse : ∃ hist s, Run CreateWhenCollected hist s ∧
    (.waittidReturned 0 0 1 (.exited 7) ∈ hist ∧ .threadCreated 0 1 2 ∈ hist) ∧ Delivers hist s := by
  obtain ⟨hist, s, hrun, hP⟩ := exists_run CreateWhenCollected
    (fun hist _ => .waittidReturned 0 0 1 (.exited 7) ∈ hist ∧ .threadCreated 0 1 2 ∈ hist)
    [.dispatch, .call .threadCreate, .call .yield, .dispatch, .call (.exit 7), .dispatch,
      .call (.waittid 1), .call .threadCreate] (by decide)
  exact ⟨hist, s, hrun, hP, exit_codes_delivered hrun⟩

/-- A thread is created and exits; before its code is collected another one is created.  It gets the same
`tid`, and the code is lost. -/
theorem exit_code_replaced : ∃ hist s, Run (fun _ _ => True) hist s ∧ ¬ Delivers hist s := by
  obtain ⟨hist, s, hrun, hhist⟩ := exists_run (fun _ _ => True)
    (fun hist _ => hist = [.threadCreated 0 0 0, .dispatched 0, .threadCreated 0 1 1, .dispatched 1,
      .threadExited 0 1 1 7, .dispatched 0, .threadCreated 0 1 2])
    [.dispatch, .call .threadCreate, .call .yield, .dispatch, .call (.exit 7), .dispatch,
      .call .threadCreate] (by decide)
  refine ⟨hist, s, hrun, fun hdelivers => ?_⟩
  have hfree := hdelivers.due [.threadCreated 0 0 0, .dispatched 0, .threadCreated 0 1 1, .dispatched 1,
    .threadExited 0 1 1 7, .dispatched 0] (.threadCreated 0 1 2) [] hhist
  have hlive : ¬ Exited [.threadCreated 0 0 0, .dispatched 0, .threadCreated 0 1 1, .dispatched 1,
      .threadExited 0 1 1 7, .dispatched 0] 0 := by
    rintro ⟨code, hcode⟩
    simp at hcode
  exact absurd (hfree hlive) (by decide)

/-! ### One call of `sys_thread_create` -/

/-- **Which entries `sys_thread_create` keeps.**  The new thread is entered at its `tid`, the one that was
released last or else a new one.  The entries of the other `tid`s are unchanged exactly when there is none
above it, and no thread at all loses its entry exactly when there is none at that `tid` either. -/
theorem thread_create_slots {hist : History} {s s' : State} {events : List Event} {t : Thread} {tcb : Tcb}
    {pcb : Pcb} (h : Run (fun _ _ => True) hist s) (hcur : s.current = some t)
    (htcb : s.tcbs t = some tcb) (hpcb : s.pcbs tcb.process = some pcb)
    (hstep : step s (.call .threadCreate) = some (s', events)) :
    ∃ tid pcb', events = [.threadCreated tcb.process tid s.nextThread] ∧
      s'.pcbs tcb.process = some pcb' ∧
      slot pcb'.tasks tid = some s.nextThread ∧
      ((∀ i, i ≠ tid → slot pcb'.tasks i = slot pcb.tasks i) ↔
        ∀ i, pcb.taskResAllocator.next < i → slot pcb.tasks i = none) ∧
      ((∀ i w, slot pcb.tasks i = some w → slot pcb'.tasks i = some w) ↔
        ∀ i, pcb.taskResAllocator.next ≤ i → slot pcb.tasks i = none) := by
  have hnew : ∀ i, slot pcb.tasks i ≠ some s.nextThread := by
    intro i hi
    obtain ⟨newTcb, hnewTcb, _⟩ :=
      h.filed.tasks _ pcb s.nextThread hpcb (List.mem_of_getElem? (slot_eq_some.mp hi))
    rw [h.seated.fresh _ (le_refl _)] at hnewTcb
    cases hnewTcb
  cases step_effect hstep with
  | wakeup haction _ _ _ _ _ => cases haction
  | park _ haction _ _ _ _ => cases haction
  | threadCreate hcur₀ htcb₀ hpcb₀ =>
    rw [hcur] at hcur₀
    cases hcur₀
    rw [htcb] at htcb₀
    cases htcb₀
    rw [hpcb] at hpcb₀
    cases hpcb₀
    refine ⟨pcb.taskResAllocator.alloc.1, _, rfl, Function.update_self _ _ _, ?_, ?_, ?_⟩
    · rw [slot_create, if_pos rfl]
    · rw [← RecycleAllocator.alloc_fst]
      exact slot_create_frame_iff _ _ _
    · rw [← RecycleAllocator.alloc_fst]
      exact slot_create_kept_iff _ hnew

/-- A thread whose `tid` was released and collected is followed by a new one; the main thread keeps its
entry. -/
theorem thread_create_slots_reuse : ∃ hist s, Run (fun _ _ => True) hist s ∧
    ∃ s' tid pcb pcb', s.pcbs daemon = some pcb ∧
      step s (.call .threadCreate) = some (s', [.threadCreated daemon tid s.nextThread]) ∧
      s'.pcbs daemon = some pcb' ∧ slot pcb'.tasks tid = some s.nextThread ∧
      ∀ i, i ≠ tid → slot pcb'.tasks i = slot pcb.tasks i := by
  obtain ⟨hist, s, hrun, hcur, htcb, hpcb, hstep⟩ := exists_run (fun _ _ => True)
    (fun _ s => s.current = some 0 ∧ s.tcbs 0 = some ⟨daemon, some 0, none⟩ ∧
      ((s.pcbs daemon).any fun pcb => pcb.taskResAllocator.next = 1 ∧ pcb.tasks = [some 0, none]) = true ∧
      (step s (.call .threadCreate)).isSome = true)
    [.dispatch, .call .threadCreate, .call .yield, .dispatch, .call (.exit 7), .dispatch,
      .call (.waittid 1)] (by decide)
  obtain ⟨pcb, hpcb, hpre⟩ := (Option.any_eq_true _ _).mp hpcb
  obtain ⟨hnext, htasks⟩ := of_decide_eq_true hpre
  obtain ⟨⟨s', events⟩, hstep⟩ := Option.isSome_iff_exists.mp hstep
  obtain ⟨tid, pcb', hevents, hpcb', hslot, hframe, _⟩ :=
    thread_create_slots hrun hcur htcb hpcb hstep
  rw [hevents] at hstep
  refine ⟨hist, s, hrun, s', tid, pcb, pcb', hpcb, hstep, hpcb', hslot, hframe.mpr ?_⟩
  intro i hi
  rw [hnext] at hi
  rw [htasks]
  exact slot_of_length_le hi

/-- Threads 1 and 2 are created and thread 1 exits.  The next thread gets `tid` 1 again, and thread 2, which
is running, is no longer in the table. -/
theorem thread_create_drops_entry : ∃ hist s, Run (fun _ _ => True) hist s ∧
    s.tcbs 2 = some ⟨daemon, some 2, none⟩ ∧
    (s.pcbs daemon).map (fun pcb => slot pcb.tasks 2) = some (some 2) ∧
    (step s (.call .threadCreate)).map
        (fun result => (result.2, (result.1.pcbs daemon).map fun pcb => slot pcb.tasks 2)) =
      some ([.threadCreated daemon 1 3], some none) :=
  exists_run (fun _ _ => True)
    (fun _ s => s.tcbs 2 = some ⟨daemon, some 2, none⟩ ∧
      (s.pcbs daemon).map (fun pcb => slot pcb.tasks 2) = some (some 2) ∧
      (step s (.call .threadCreate)).map
          (fun result => (result.2, (result.1.pcbs daemon).map fun pcb => slot pcb.tasks 2)) =
        some ([.threadCreated daemon 1 3], some none))
    [.dispatch, .call .threadCreate, .call .threadCreate, .call .yield, .dispatch, .call (.exit 7),
      .dispatch, .call .yield, .dispatch] (by decide)

end LemonCore.Kernel.Processes
