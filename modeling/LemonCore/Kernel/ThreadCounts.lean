import LemonCore.Kernel.ThreadIds

/-!
# Waiting for threads, and counting them

`sys_waittid` indexes the task table with the `tid` it is given, and `thread_count` is the length of the
table.  The table grows when a thread is created, and keeps its length when one is collected: there is no
entry for a `tid` that was never handed out, and there are entries that are empty.

* `waittid_exact_iff`: `sys_waittid` answers as it should iff the `tid` is within the table and the exit code
  is neither -1 nor -2;
* `thread_count_exact_iff`: `thread_count` is the number of threads iff no entry of the table is empty.

Both are about runs in which the table agrees with the history (`CreateWhenCollected`).
-/

namespace LemonCore.Kernel.Processes

/-- `thread_count`. -/
def Pcb.threadCount (pcb : Pcb) : ℕ := pcb.tasks.length

/-- The `tid`s of the threads of `p` that were created and not yet waited for. -/
def existing (p : Proc) (hist : History) : Set ℕ := {tid | tidState p tid hist ≠ .free}

section

variable {hist : History} {s : State} {p : Proc} {pcb : Pcb} {t : Thread} {tcb : Tcb} {own tid : ℕ}

theorem Run.current_res (h : Run CreateWhenCollected hist s) (hcur : s.current = some t)
    (htcb : s.tcbs t = some tcb) (hlive : ¬ Exited hist tcb.process) : ∃ own, tcb.res = some own :=
  Option.ne_none_iff_exists'.mp (h.recorded.res_ne_none h.seated hcur htcb hlive)

theorem waittid_panics (hcur : s.current = some t) (htcb : s.tcbs t = some tcb)
    (hpcb : s.pcbs tcb.process = some pcb) (hres : tcb.res = some own) (hne : own ≠ tid)
    (hge : pcb.tasks.length ≤ tid) : step s (.call (.waittid tid)) = none := by
  simp only [step, call, waittid, hcur, htcb, hpcb, hres, Option.bind_eq_bind, Option.bind_some, if_neg hne,
    List.getElem?_eq_none hge, Option.bind_none]

/-- What `sys_waittid(tid)` is to return to the thread `t` of the process `p`, and what it is to leave. -/
structure Answered (hist : History) (s : State) (p : Proc) (pcb : Pcb) (t : Thread) (tcb : Tcb) (tid : ℕ)
    (result : ℤ) (s' : State) : Prop where
  absent : result = -1 ↔ tcb.res = some tid ∨ tidState p tid hist = .free
  running : result = -2 ↔ ∃ w, w ≠ t ∧ tidState p tid hist = .running w
  exited : ∀ w code, tidState p tid hist = .exited w code → result = code
  state : s' = (tidState p tid hist).collect s p pcb tid

/-- The exit codes that cannot be mistaken for something else. -/
def TidState.Clear : TidState → Prop
  | .exited _ code => code ≠ -1 ∧ code ≠ -2
  | _ => True

theorem Tids.answered_iff (h : Tids hist s p) (hpcb : s.pcbs p = some pcb) (htcb : s.tcbs t = some tcb)
    (hp : tcb.process = p) (tid : ℕ) :
    Answered hist s p pcb t tcb tid ((tidState p tid hist).outcome t).result
      ((tidState p tid hist).collect s p pcb tid) ↔ (tidState p tid hist).Clear := by
  have hholds := h.holds pcb hpcb tid
  have hown : tcb.res = some tid ↔ tidState p tid hist = .running t := by
    refine ⟨fun hres' => h.held t tcb tid htcb hp hres', fun hrun => ?_⟩
    rw [hrun] at hholds
    rw [Option.some.inj (htcb.symm.trans hholds.2.2)]
  cases hst : tidState p tid hist with
  | free =>
    refine iff_of_true ⟨?_, ?_, ?_, ?_⟩ trivial <;> simp [hst, TidState.outcome, WaittidOutcome.result]
  | running w =>
    refine iff_of_true ⟨?_, ?_, ?_, by rw [hst]⟩ trivial
    · rw [hown, hst]
      by_cases hw : w = t <;> simp [TidState.outcome, WaittidOutcome.result, hw]
    · rw [hst]
      by_cases hw : w = t <;> simp [TidState.outcome, WaittidOutcome.result, hw]
    · simp [hst]
  | exited w code =>
    constructor
    · rintro ⟨habsent, hrunning, _, _⟩
      rw [hown, hst] at habsent
      rw [hst] at hrunning
      exact ⟨fun hc => by simpa using habsent.mp hc, fun hc => by simpa using hrunning.mp hc⟩
    · rintro ⟨h1, h2⟩
      refine ⟨?_, ?_, ?_, by rw [hst]⟩
      · rw [hown, hst]
        exact iff_of_false h1 (by simp)
      · rw [hst]
        exact iff_of_false h2 (by simp)
      · intro w' code' hst'
        rw [hst] at hst'
        cases hst'
        rfl

/-- **`sys_waittid` answers iff the `tid` is within the task table** and the exit code that it returns is not
-1 or -2.  The answer is the one that the history of the `tid` demands, and the only change is that the entry
of a thread whose exit code is returned is empty. -/
theorem waittid_exact_iff (h : Run CreateWhenCollected hist s) (hcur : s.current = some t)
    (htcb : s.tcbs t = some tcb) (hlive : ¬ Exited hist tcb.process) (hpcb : s.pcbs tcb.process = some pcb)
    (tid : ℕ) :
    (∃ s' outcome, step s (.call (.waittid tid)) = some (s', [.waittidReturned tcb.process t tid outcome]) ∧
      Answered hist s tcb.process pcb t tcb tid outcome.result s') ↔
      tid < pcb.tasks.length ∧ (tidState tcb.process tid hist).Clear := by
  have htids := h.threadsAgree.tids _ hlive
  obtain ⟨own, hres⟩ := h.current_res hcur htcb hlive
  rw [← htids.answered_iff hpcb htcb rfl]
  constructor
  · rintro ⟨s', outcome, hstep, hanswered⟩
    have hlt : tid < pcb.tasks.length := by
      by_contra hge
      have hown : own < pcb.tasks.length :=
        htids.lt_length hpcb (by rw [htids.held t tcb own htcb rfl hres]; simp)
      rw [waittid_panics hcur htcb hpcb hres (by omega) (Nat.le_of_not_lt hge)] at hstep
      cases hstep
    cases (htids.answers hpcb hcur htcb rfl hres hlt).symm.trans hstep
    exact ⟨hlt, hanswered⟩
  · rintro ⟨hlt, hanswered⟩
    exact ⟨_, _, htids.answers hpcb hcur htcb rfl hres hlt, hanswered⟩

/-- A thread was created and exits. -/
def exitedHist : History :=
  [.threadCreated daemon 0 0, .dispatched 0, .threadCreated daemon 1 1, .dispatched 1,
    .threadExited daemon 1 1 7, .dispatched 0]

theorem exists_exited : ∃ s pcb, Run CreateWhenCollected exitedHist s ∧ s.current = some 0 ∧
    s.tcbs 0 = some ⟨daemon, some 0, none⟩ ∧ s.pcbs daemon = some pcb ∧ pcb.tasks = [some 0, some 1] := by
  obtain ⟨hist, s, hrun, hhist, hcur, htcb, hpcb⟩ := exists_run CreateWhenCollected
    (fun hist s => hist = exitedHist ∧ s.current = some 0 ∧ s.tcbs 0 = some ⟨daemon, some 0, none⟩ ∧
      ((s.pcbs daemon).any fun pcb => pcb.tasks = [some 0, some 1]) = true)
    [.dispatch, .call .threadCreate, .call .yield, .dispatch, .call (.exit 7), .dispatch] (by decide)
  obtain ⟨pcb, hpcb, htasks⟩ := (Option.any_eq_true _ _).mp hpcb
  exact ⟨s, pcb, hhist ▸ hrun, hcur, htcb, hpcb, of_decide_eq_true htasks⟩

theorem not_exited_exitedHist : ¬ Exited exitedHist daemon := by
  rintro ⟨code, hcode⟩
  simp [exitedHist] at hcode

/-- The main thread waits for it. -/
theorem waittid_exact_iff_exited : ∃ s s' outcome pcb, Run CreateWhenCollected exitedHist s ∧
    step s (.call (.waittid 1)) = some (s', [.waittidReturned daemon 0 1 outcome]) ∧
    Answered exitedHist s daemon pcb 0 ⟨daemon, some 0, none⟩ 1 outcome.result s' ∧ outcome.result = 7 := by
  obtain ⟨s, pcb, hrun, hcur, htcb, hpcb, htasks⟩ := exists_exited
  obtain ⟨s', outcome, hstep, hanswered⟩ :=
    (waittid_exact_iff hrun hcur htcb not_exited_exitedHist hpcb 1).mpr
    ⟨by rw [htasks]; decide, show (7 : ℤ) ≠ -1 ∧ (7 : ℤ) ≠ -2 by decide⟩
  exact ⟨s, s', outcome, pcb, hrun, hstep, hanswered, hanswered.exited 1 7 rfl⟩

/-- The main thread waits for a thread that was never created, and the kernel panics. -/
theorem waittid_beyond_table : ∃ hist s, Run CreateWhenCollected hist s ∧ s.current = some 0 ∧
    tidState daemon 5 hist = .free ∧ (step s (.call (.waittid 5))).isNone :=
  exists_run CreateWhenCollected (fun hist s => s.current = some 0 ∧ tidState daemon 5 hist = .free ∧
    (step s (.call (.waittid 5))).isNone) [.dispatch] (by decide)

/-! ### The number of threads -/

theorem Tids.mem_existing (h : Tids hist s p) (hpcb : s.pcbs p = some pcb) (tid : ℕ) :
    tid ∈ existing p hist ↔ slot pcb.tasks tid ≠ none := by
  have hholds := h.holds pcb hpcb tid
  constructor
  · exact fun hstate hslot => hstate (hholds.eq_free hslot)
  · intro hslot hfree
    rw [hfree] at hholds
    exact hslot hholds.2

/-- All `tid`s within the table belong to threads that exist iff no entry is empty. -/
theorem Tids.existing_eq_iff (h : Tids hist s p) (hpcb : s.pcbs p = some pcb) :
    existing p hist = ↑(Finset.range pcb.tasks.length) ↔ none ∉ pcb.tasks := by
  constructor
  · intro heq hnone
    obtain ⟨tid, hlt, hget⟩ := List.mem_iff_getElem.mp hnone
    have hmem : tid ∈ existing p hist := by
      rw [heq]
      exact Finset.mem_coe.mpr (Finset.mem_range.mpr hlt)
    refine (h.mem_existing hpcb tid).mp hmem ?_
    rw [slot, List.getElem?_eq_getElem hlt, hget]
    rfl
  · intro hnone
    ext tid
    rw [Finset.mem_coe, Finset.mem_range]
    refine ⟨fun hstate => h.lt_length hpcb hstate, fun hlt => (h.mem_existing hpcb tid).mpr fun hslot => ?_⟩
    rw [slot, List.getElem?_eq_getElem hlt] at hslot
    exact hnone (hslot ▸ List.getElem_mem hlt)

theorem Tids.ncard_existing_iff (h : Tids hist s p) (hpcb : s.pcbs p = some pcb) :
    pcb.tasks.length = (existing p hist).ncard ↔ none ∉ pcb.tasks := by
  rw [← h.existing_eq_iff hpcb]
  have hsub : existing p hist ⊆ ↑(Finset.range pcb.tasks.length) := fun tid hstate =>
    Finset.mem_coe.mpr (Finset.mem_range.mpr (h.lt_length hpcb hstate))
  constructor
  · intro hcard
    apply Set.eq_of_subset_of_ncard_le hsub
    rw [Set.ncard_coe_finset, Finset.card_range, hcard]
  · intro heq
    rw [heq, Set.ncard_coe_finset, Finset.card_range]

/-- The one entry is that of the caller. -/
theorem Run.only_slot (h : Run CreateWhenCollected hist s) (hcur : s.current = some t)
    (htcb : s.tcbs t = some tcb) (hlive : ¬ Exited hist tcb.process) (hpcb : s.pcbs tcb.process = some pcb)
    (hone : pcb.tasks.length = 1) : pcb.tasks[0]?.join = some t ∧ ∃ own, tcb.res = some own := by
  have htids := h.threadsAgree.tids _ hlive
  obtain ⟨own, hres⟩ := h.current_res hcur htcb hlive
  have hstate := htids.held t tcb own htcb rfl hres
  have hown : own < pcb.tasks.length := htids.lt_length hpcb (by rw [hstate]; simp)
  have hholds := htids.holds pcb hpcb own
  rw [hstate] at hholds
  have hzero : own = 0 := by omega
  exact ⟨hzero ▸ hholds.2.1, own, hres⟩

theorem fork_isSome_iff (h : Run CreateWhenCollected hist s) (hcur : s.current = some t)
    (htcb : s.tcbs t = some tcb) (hlive : ¬ Exited hist tcb.process) (hpcb : s.pcbs tcb.process = some pcb) :
    (fork s t).isSome ↔ pcb.threadCount = 1 := by
  simp only [fork, htcb, hpcb, Option.bind_eq_bind, Option.bind_some, Pcb.threadCount]
  by_cases hone : pcb.tasks.length = 1
  · obtain ⟨hslot, own, hres⟩ := h.only_slot hcur htcb hlive hpcb hone
    rw [if_neg (not_not.mpr hone), hslot]
    simp only [Option.bind_some, htcb, hres, Option.isSome_some, hone]
  · rw [if_pos hone]
    simp [hone]

theorem exec_isSome_iff (h : Run CreateWhenCollected hist s) (hcur : s.current = some t)
    (htcb : s.tcbs t = some tcb) (hlive : ¬ Exited hist tcb.process) (hpcb : s.pcbs tcb.process = some pcb) :
    (exec s t).isSome ↔ pcb.threadCount = 1 := by
  simp only [exec, htcb, hpcb, Option.bind_eq_bind, Option.bind_some, Pcb.threadCount]
  by_cases hone : pcb.tasks.length = 1
  · obtain ⟨hslot, own, hres⟩ := h.only_slot hcur htcb hlive hpcb hone
    rw [if_neg (not_not.mpr hone), hslot]
    simp only [Option.bind_some, htcb, hres, Option.isSome_some, hone]
  · rw [if_pos hone]
    simp [hone]

/-- **`thread_count` is the number of threads iff no entry of the table is empty**; and `fork` and `exec` pass
their assertion iff the count is one. -/
theorem thread_count_exact_iff (h : Run CreateWhenCollected hist s) (hcur : s.current = some t)
    (htcb : s.tcbs t = some tcb) (hlive : ¬ Exited hist tcb.process) (hpcb : s.pcbs tcb.process = some pcb) :
    (pcb.threadCount = (existing tcb.process hist).ncard ↔ none ∉ pcb.tasks) ∧
      ((fork s t).isSome ↔ pcb.threadCount = 1) ∧ ((exec s t).isSome ↔ pcb.threadCount = 1) :=
  ⟨(h.threadsAgree.tids _ hlive).ncard_existing_iff hpcb, fork_isSome_iff h hcur htcb hlive hpcb,
    exec_isSome_iff h hcur htcb hlive hpcb⟩

/-- The main thread and one that has exited, which was not waited for. -/
theorem thread_count_exact_iff_two : ∃ s pcb,
    Run CreateWhenCollected exitedHist s ∧ s.pcbs daemon = some pcb ∧
    pcb.threadCount = (existing daemon exitedHist).ncard := by
  obtain ⟨s, pcb, hrun, hcur, htcb, hpcb, htasks⟩ := exists_exited
  have hcount := (thread_count_exact_iff hrun hcur htcb not_exited_exitedHist hpcb).1
  exact ⟨s, pcb, hrun, hpcb, hcount.mpr (by rw [htasks]; decide)⟩

/-- Once it was waited for, the main thread is the only one, the count is still two, and `fork` and `exec`
panic. -/
theorem fork_after_waittid : ∃ hist s, Run CreateWhenCollected hist s ∧ s.current = some 0 ∧
    existing daemon hist = {0} ∧ (s.pcbs daemon).map Pcb.threadCount = some 2 ∧ (fork s 0).isNone ∧
      (exec s 0).isNone := by
  obtain ⟨hist, s, hrun, hhist, hcur, hcount, hfork⟩ := exists_run CreateWhenCollected
    (fun hist s => hist = exitedHist ++ [.waittidReturned daemon 0 1 (.exited 7)] ∧ s.current = some 0 ∧
      (s.pcbs daemon).map Pcb.threadCount = some 2 ∧ (fork s 0).isNone ∧ (exec s 0).isNone)
    [.dispatch, .call .threadCreate, .call .yield, .dispatch, .call (.exit 7), .dispatch,
      .call (.waittid 1)] (by decide)
  refine ⟨hist, s, hrun, hcur, ?_, hcount, hfork⟩
  rw [hhist]
  ext tid
  show tidState daemon tid (exitedHist ++ [.waittidReturned daemon 0 1 (.exited 7)]) ≠ .free ↔ tid = 0
  by_cases h0 : tid = 0
  · subst h0
    decide
  · by_cases h1 : tid = 1
    · subst h1
      decide
    · simp [tidState, exitedHist, TidState.record, Ne.symm h0, Ne.symm h1, h0]

end

end LemonCore.Kernel.Processes
