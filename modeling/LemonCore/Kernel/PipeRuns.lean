import LemonCore.Kernel.Effects
import LemonCore.Foundation.EventLog

/-!
# Pipes

Readers and writers of a pipe suspend wherever the ring buffer is empty or full, and go on with whatever
the others have left in it.  What a history says about one pipe is the bytes put in and taken out, the
references to its write end made and dropped, and for each task the call it is in and the bytes that this
call has moved.

* `Section.pipe`: what one section does to a pipe;
* `PipeInv`: the ring buffer, the references and the control of the tasks agree with the history;
* `pipe_transfers`: the bytes come out as they were put in; `write` returns when all its bytes are
  accepted, and `read` returns fewer bytes than asked only at the end of the stream.
-/

namespace LemonCore.Kernel

open Foundation.EventLog

inductive PipeEvent where
  | called (t : Task) (call : Call)
  | put (t : Task) (bytes : List UInt8)
  | got (t : Task) (bytes : List UInt8)
  | readReturned (t : Task) (want n : ℕ)
  | writeReturned (t : Task) (want n : ℕ)
  | opened
  | closed
  deriving DecidableEq, Repr

/-- What an event says about the pipe `p`. -/
def pipeEvent (p : ℕ) : Task × Event → Option PipeEvent
  | (t, .called call) => some (.called t call)
  | (t, .put p' bytes) => if p' = p then some (.put t bytes) else none
  | (t, .got p' bytes) => if p' = p then some (.got t bytes) else none
  | (t, .readReturned p' want n) => if p' = p then some (.readReturned t want n) else none
  | (t, .writeReturned p' want n) => if p' = p then some (.writeReturned t want n) else none
  | (_, .writeEndOpened p') => if p' = p then some .opened else none
  | (_, .writeEndClosed p') => if p' = p then some .closed else none
  | _ => none

def pipeEvents (p : ℕ) (hist : History) : List PipeEvent := hist.filterMap (pipeEvent p)

structure PipeView where
  /-- the bytes put in by `write_byte` -/
  written : List UInt8 := []
  /-- the bytes taken out by `read_byte` -/
  taken : List UInt8 := []
  /-- how many references to the write end were made after the first -/
  opened : ℕ := 0
  /-- how many references to the write end were dropped -/
  closed : ℕ := 0
  /-- the last system call of a task -/
  call : Task → Option Call := fun _ => none
  /-- the bytes which that call has put into the pipe or taken out of it -/
  progress : Task → List UInt8 := fun _ => []

namespace PipeView

def record (v : PipeView) : PipeEvent → PipeView
  | .called t call =>
    { v with
      call := Function.update v.call t (some call)
      progress := Function.update v.progress t [] }
  | .put t bytes =>
    { v with
      written := v.written ++ bytes
      progress := Function.update v.progress t (v.progress t ++ bytes) }
  | .got t bytes =>
    { v with
      taken := v.taken ++ bytes
      progress := Function.update v.progress t (v.progress t ++ bytes) }
  | .readReturned _ _ _ => v
  | .writeReturned _ _ _ => v
  | .opened => { v with opened := v.opened + 1 }
  | .closed => { v with closed := v.closed + 1 }

/-- Every write end is closed. -/
def AllClosed (v : PipeView) : Prop := v.closed = v.opened + 1

end PipeView

def pipeView (p : ℕ) (hist : History) : PipeView := (pipeEvents p hist).foldl .record {}

/-- What is due about the pipe `p`: nothing is put into it, and no write end made or dropped, when all
write ends are closed; `read` returns what it has taken, and fewer bytes than asked only when all write
ends are closed and all bytes taken out; `write` returns when it has put in all its bytes. -/
def PipeEvent.Due (p : ℕ) (v : PipeView) : PipeEvent → Prop
  | .put _ _ | .opened | .closed => ¬ v.AllClosed
  | .readReturned t want n =>
    v.call t = some (.pipeRead p want) ∧ (v.progress t).length = n ∧ n ≤ want ∧
    (n < want → v.AllClosed ∧ v.taken = v.written)
  | .writeReturned t want n =>
    v.call t = some (.pipeWrite p want) ∧ (v.progress t).length = want ∧ n = want
  | _ => True

/-! ### One section -/

/-- The point is in a `read` or a `write` of the pipe. -/
def onPipe (p : ℕ) : Option Resume → Bool
  | some (.pipeRead p' _ _) => p' = p
  | some (.pipeWrite p' _ _) => p' = p
  | _ => false

/-- The next section makes or drops the reference of a `write` of the pipe. -/
def Pc.referencesPipe (p : ℕ) : Pc → Bool
  | .pipeWriteStart p' _ => p' = p
  | .pipeWriteEnd p' => p' = p
  | _ => false

/-- What a section of the task `t` does to the pipe `p`. -/
inductive PipeStep (p : ℕ) (t : Task) (pipe pipe' : Pipe) (pc pc' : Pc) : List PipeEvent → Prop where
  | other (hpipe : pipe' = pipe) (hpoint : pc'.point = pc.point ∨ onPipe p pc'.point = false)
      (hno : pc'.referencesPipe p = false) : PipeStep p t pipe pipe' pc pc' []
  | readEnd {want done : ℕ} (hpc : pc = .resume (.pipeRead p want done)) (hpipe : pipe' = pipe)
      (hempty : pipe.ring.availableToRead = 0) (hclosed : pipe.writeEnds = 0)
      (hpc' : pc' = .resume .user) : PipeStep p t pipe pipe' pc pc' [.readReturned t want done]
  | read {want done : ℕ} {bytes : List UInt8} {ring : PipeRingBuffer} {done' : ℕ} {returns : Bool}
      (hpc : pc = .resume (.pipeRead p want done))
      (h : PipeRingBuffer.drain pipe.ring.availableToRead want done pipe.ring =
        (bytes, ring, done', returns))
      (hpipe : pipe' = { pipe with ring := ring })
      (hpc' : pc' = if returns then .resume .user else .resume (.pipeRead p want done')) :
      PipeStep p t pipe pipe' pc pc'
        (.got t bytes :: if returns then [.readReturned t want done'] else [])
  | write {want done : ℕ} {buf : ℕ → UInt8} {bytes : List UInt8} {ring : PipeRingBuffer} {done' : ℕ}
      {returns : Bool} (hpc : pc = .resume (.pipeWrite p want done))
      (h : PipeRingBuffer.fill buf pipe.ring.availableToWrite want done pipe.ring =
        (bytes, ring, done', returns))
      (hpipe : pipe' = { pipe with ring := ring })
      (hpc' : pc' = if returns then .pipeWriteEnd p else .resume (.pipeWrite p want done')) :
      PipeStep p t pipe pipe' pc pc'
        (.put t bytes :: if returns then [.writeReturned t want done'] else [])
  | start {want : ℕ} (hpc : pc = .pipeWriteStart p want) (hopen : pipe.writeFds ≠ 0)
      (hpipe : pipe' = { pipe with writing := t :: pipe.writing })
      (hpc' : pc' = .resume (.pipeWrite p want 0)) : PipeStep p t pipe pipe' pc pc' [.opened]
  | drop (hpc : pc = .pipeWriteEnd p) (hpipe : pipe' = { pipe with writing := pipe.writing.erase t })
      (hpc' : pc' = .resume .user) : PipeStep p t pipe pipe' pc pc' [.closed]
  | dup (hopen : pipe.writeFds ≠ 0) (hpipe : pipe' = { pipe with writeFds := pipe.writeFds + 1 })
      (hpc' : pc' = .resume .user) : PipeStep p t pipe pipe' pc pc' [.opened]
  | close (hopen : pipe.writeFds ≠ 0) (hpipe : pipe' = { pipe with writeFds := pipe.writeFds - 1 })
      (hpc' : pc' = .resume .user) : PipeStep p t pipe pipe' pc pc' [.closed]

section

variable {p : ℕ} {t : Task} {k k' : KernelState} {pc pc' : Pc} {events : List Event}

@[simp] theorem pipeEvents_append (hist hist' : History) :
    pipeEvents p (hist ++ hist') = pipeEvents p hist ++ pipeEvents p hist' :=
  List.filterMap_append

theorem pipeEvents_cons (x : Task × Event) (hist : History) :
    pipeEvents p (x :: hist) = (pipeEvent p x).toList ++ pipeEvents p hist := by
  rw [pipeEvents, List.filterMap_cons]
  cases pipeEvent p x <;> rfl

theorem pipeEvents_lockReturns (m : ℕ) (waited : Bool) (caller : LockCaller) :
    pipeEvents p ((lockReturns m waited caller).map (Prod.mk t)) = [] := by
  cases caller <;> rfl

theorem setPipe_same (k : KernelState) (p : ℕ) (pipe : Pipe) : (k.setPipe p pipe).pipes p = pipe := by
  simp [KernelState.setPipe]

theorem setPipe_other (k : KernelState) {p p' : ℕ} (h : p' ≠ p) (pipe : Pipe) :
    (k.setPipe p' pipe).pipes p = k.pipes p := by
  simp [KernelState.setPipe, Ne.symm h]

theorem Section.pipe (p : ℕ) (h : Section t k pc k' pc' events) :
    PipeStep p t (k.pipes p) (k'.pipes p) pc pc' (pipeEvents p (events.map (Prod.mk t))) := by
  cases h with
  | @readWait p' want done _ _ => exact .other rfl (Or.inl rfl) rfl
  | @readEnd p' want done hempty hclosed =>
    rw [List.map_singleton, pipeEvents_cons, pipeEvent]
    by_cases hp : p' = p
    · subst hp
      rw [if_pos rfl]
      exact .readEnd rfl rfl hempty hclosed rfl
    · rw [if_neg hp]
      exact .other rfl (Or.inr rfl) rfl
  | @read p' want done bytes ring done' returns h =>
    by_cases hp : p' = p
    · subst hp
      have hevents : pipeEvents p' ((.got p' bytes ::
          if returns then [.readReturned p' want done'] else [] : List Event).map (Prod.mk t)) =
          .got t bytes :: if returns then [.readReturned t want done'] else [] := by
        cases returns <;> simp [pipeEvents, pipeEvent]
      rw [hevents, setPipe_same]
      exact .read rfl h rfl rfl
    · have hevents : pipeEvents p ((.got p' bytes ::
          if returns then [.readReturned p' want done'] else [] : List Event).map (Prod.mk t)) = [] := by
        cases returns <;> simp [pipeEvents, pipeEvent, hp]
      rw [hevents, setPipe_other k hp]
      cases returns with
      | true => exact .other rfl (Or.inr rfl) rfl
      | false => exact .other rfl (Or.inr (by simp [Pc.point, onPipe, hp])) rfl
  | @write p' want done buf bytes ring done' returns h =>
    by_cases hp : p' = p
    · subst hp
      have hevents : pipeEvents p' ((.put p' bytes ::
          if returns then [.writeReturned p' want done'] else [] : List Event).map (Prod.mk t)) =
          .put t bytes :: if returns then [.writeReturned t want done'] else [] := by
        cases returns <;> simp [pipeEvents, pipeEvent]
      rw [hevents, setPipe_same]
      exact .write rfl h rfl rfl
    · have hevents : pipeEvents p ((.put p' bytes ::
          if returns then [.writeReturned p' want done'] else [] : List Event).map (Prod.mk t)) = [] := by
        cases returns <;> simp [pipeEvents, pipeEvent, hp]
      rw [hevents, setPipe_other k hp]
      cases returns with
      | true => exact .other rfl (Or.inr rfl) (by simp [Pc.referencesPipe, hp])
      | false => exact .other rfl (Or.inr (by simp [Pc.point, onPipe, hp])) rfl
  | @writeStart p' want hopen =>
    rw [List.map_singleton, pipeEvents_cons, pipeEvent]
    by_cases hp : p' = p
    · subst hp
      rw [if_pos rfl, setPipe_same]
      exact .start rfl hopen rfl rfl
    · rw [if_neg hp, setPipe_other k hp]
      exact .other rfl (Or.inr (by simp [Pc.point, onPipe, hp])) rfl
  | @writeDrop p' =>
    rw [List.map_singleton, pipeEvents_cons, pipeEvent]
    by_cases hp : p' = p
    · subst hp
      rw [if_pos rfl, setPipe_same]
      exact .drop rfl rfl rfl
    · rw [if_neg hp, setPipe_other k hp]
      exact .other rfl (Or.inr rfl) rfl
  | @dup p' hopen =>
    rw [List.map_singleton, pipeEvents_cons, pipeEvent]
    by_cases hp : p' = p
    · subst hp
      rw [if_pos rfl, setPipe_same]
      exact .dup hopen rfl rfl
    · rw [if_neg hp, setPipe_other k hp]
      exact .other rfl (Or.inr rfl) rfl
  | @close p' hopen =>
    rw [List.map_singleton, pipeEvents_cons, pipeEvent]
    by_cases hp : p' = p
    · subst hp
      rw [if_pos rfl, setPipe_same]
      exact .close hopen rfl rfl
    · rw [if_neg hp, setPipe_other k hp]
      exact .other rfl (Or.inr rfl) rfl
  | lockTaken _ _ _ =>
    rw [pipeEvents_lockReturns]
    exact .other rfl (Or.inr rfl) rfl
  | lockReturn =>
    rw [pipeEvents_lockReturns]
    exact .other rfl (Or.inr rfl) rfl
  | unlock _ => exact .other (by simp [KernelState.setMutex]) (Or.inr rfl) rfl
  | waitUnlock _ => exact .other (by simp [KernelState.setMutex]) (Or.inr rfl) rfl
  | signal => exact .other (by simp [KernelState.setCondvar]) (Or.inr rfl) rfl
  | up => exact .other (by simp [KernelState.setSemaphore]) (Or.inr rfl) rfl
  | writeWait => exact .other rfl (Or.inl rfl) rfl
  | suspendTake => exact .other rfl (Or.inl rfl) rfl
  | suspendStatus => exact .other rfl (Or.inl rfl) rfl
  | suspendAdd => exact .other rfl (Or.inl rfl) rfl
  | blockTake => exact .other rfl (Or.inl rfl) rfl
  | blockStatus => exact .other rfl (Or.inl rfl) rfl
  | lockRetry => exact .other rfl (Or.inl rfl) rfl
  | _ => exact .other rfl (Or.inr rfl) rfl

end

/-! ### The pipe and the history -/

/-- The ring buffer and the references are as the history says. -/
structure PipeAgrees (pipe : Pipe) (v : PipeView) : Prop where
  bytes : v.written = v.taken ++ pipe.ring.contents
  ends : pipe.writeEnds + v.closed = v.opened + 1

theorem PipeAgrees.allClosed_iff {pipe : Pipe} {v : PipeView} (h : PipeAgrees pipe v) :
    v.AllClosed ↔ pipe.writeEnds = 0 := by
  have hends := h.ends
  rw [PipeView.AllClosed]
  omega

/-- What a task that goes on inside a `read` or a `write` has done. -/
def PipeView.AtPoint (p : ℕ) (pipe : Pipe) (v : PipeView) (t : Task) : Option Resume → Prop
  | some (.pipeRead p' want done) =>
    p' = p → v.call t = some (.pipeRead p want) ∧ (v.progress t).length = done ∧ done ≤ want
  | some (.pipeWrite p' want done) =>
    p' = p → v.call t = some (.pipeWrite p want) ∧ (v.progress t).length = done ∧ done ≤ want ∧
      t ∈ pipe.writing
  | _ => True

/-- What a task at the start or at the end of a `write` has done. -/
def PipeView.AtPc (p : ℕ) (pipe : Pipe) (v : PipeView) (t : Task) : Pc → Prop
  | .pipeWriteStart p' want => p' = p → v.call t = some (.pipeWrite p want) ∧ v.progress t = []
  | .pipeWriteEnd p' => p' = p → t ∈ pipe.writing
  | _ => True

theorem PipeView.atPoint_of_not {p : ℕ} {pipe : Pipe} {v : PipeView} {t : Task} {point : Option Resume}
    (h : onPipe p point = false) : v.AtPoint p pipe t point := by
  cases point with
  | none => trivial
  | some point =>
    cases point with
    | pipeRead p' want done =>
      intro hp
      simp [onPipe, hp] at h
    | pipeWrite p' want done =>
      intro hp
      simp [onPipe, hp] at h
    | _ => trivial

theorem PipeView.atPc_of_not {p : ℕ} {pipe : Pipe} {v : PipeView} {t : Task} {pc : Pc}
    (h : pc.referencesPipe p = false) : v.AtPc p pipe t pc := by
  cases pc with
  | pipeWriteStart p' want =>
    intro hp
    simp [Pc.referencesPipe, hp] at h
  | pipeWriteEnd p' =>
    intro hp
    simp [Pc.referencesPipe, hp] at h
  | _ => trivial

/-- What a task sees of the pipe and of its own call is the same in both. -/
structure PipeFrame (t : Task) (pipe pipe' : Pipe) (v v' : PipeView) : Prop where
  call : v'.call t = v.call t
  progress : v'.progress t = v.progress t
  writing : t ∈ pipe.writing → t ∈ pipe'.writing

theorem PipeFrame.atPoint {p : ℕ} {t : Task} {pipe pipe' : Pipe} {v v' : PipeView}
    {point : Option Resume} (hf : PipeFrame t pipe pipe' v v') (h : v.AtPoint p pipe t point) :
    v'.AtPoint p pipe' t point := by
  cases point with
  | none => trivial
  | some point =>
    cases point with
    | pipeRead p' want done =>
      intro hp
      rw [hf.call, hf.progress]
      exact h hp
    | pipeWrite p' want done =>
      intro hp
      obtain ⟨hcall, hlen, hle, hwriting⟩ := h hp
      rw [hf.call, hf.progress]
      exact ⟨hcall, hlen, hle, hf.writing hwriting⟩
    | _ => trivial

/-- The events of the pipe that a section adds to those before. -/
abbrev PipesDue (p : ℕ) (events : List PipeEvent) : Prop :=
  Always (fun before event => event.Due p (before.foldl .record {})) events

/-- What a section of the task `t` leaves. -/
structure PipeKept (p : ℕ) (t : Task) (pipe pipe' : Pipe) (v v' : PipeView) (pc' : Pc) : Prop where
  agrees : PipeAgrees pipe' v'
  atPoint : v'.AtPoint p pipe' t pc'.point
  atPc : v'.AtPc p pipe' t pc'
  others : ∀ t', t' ≠ t → PipeFrame t' pipe pipe' v v'

section

variable {p : ℕ} {t : Task} {pipe pipe' : Pipe} {pc pc' : Pc} {events : List PipeEvent} {v : PipeView}

theorem pipe_read {want done : ℕ} {bytes : List UInt8} {ring : PipeRingBuffer} {done' : ℕ}
    {returns : Bool} (hv : PipeAgrees pipe v)
    (hat : v.call t = some (.pipeRead p want) ∧ (v.progress t).length = done ∧ done ≤ want)
    (h : PipeRingBuffer.drain pipe.ring.availableToRead want done pipe.ring =
      (bytes, ring, done', returns)) :
    PipeAgrees { pipe with ring := ring } (v.record (.got t bytes)) ∧
    (v.record (.got t bytes)).AtPoint p { pipe with ring := ring } t (some (.pipeRead p want done')) ∧
    (returns = true → done' = want) := by
  obtain ⟨hcall, hlen, hle⟩ := hat
  obtain ⟨hcontents, hdone, hle', hret⟩ :=
    PipeRingBuffer.drain_spec pipe.ring.availableToRead want done pipe.ring hle (le_refl _)
  rw [h] at hcontents hdone hle' hret
  refine ⟨⟨?_, hv.ends⟩, fun _ => ⟨hcall, ?_, hle'⟩, hret⟩
  · show v.written = (v.taken ++ bytes) ++ ring.contents
    rw [hv.bytes, hcontents, List.append_assoc]
  · simp only [PipeView.record, Function.update_self, List.length_append, hlen]
    exact hdone.symm

theorem pipe_write {want done : ℕ} {buf : ℕ → UInt8} {bytes : List UInt8} {ring : PipeRingBuffer}
    {done' : ℕ} {returns : Bool} (hv : PipeAgrees pipe v)
    (hat : v.call t = some (.pipeWrite p want) ∧ (v.progress t).length = done ∧ done ≤ want ∧
      t ∈ pipe.writing)
    (h : PipeRingBuffer.fill buf pipe.ring.availableToWrite want done pipe.ring =
      (bytes, ring, done', returns)) :
    PipeAgrees { pipe with ring := ring } (v.record (.put t bytes)) ∧
    (v.record (.put t bytes)).AtPoint p { pipe with ring := ring } t (some (.pipeWrite p want done')) ∧
    (returns = true → done' = want) := by
  obtain ⟨hcall, hlen, hle, hwriting⟩ := hat
  obtain ⟨hcontents, hdone, hle', hret⟩ :=
    PipeRingBuffer.fill_spec buf pipe.ring.availableToWrite want done pipe.ring hle (le_refl _)
  rw [h] at hcontents hdone hle' hret
  refine ⟨⟨?_, hv.ends⟩, fun _ => ⟨hcall, ?_, hle', hwriting⟩, hret⟩
  · show v.written ++ bytes = v.taken ++ ring.contents
    rw [hv.bytes, hcontents, List.append_assoc]
  · simp only [PipeView.record, Function.update_self, List.length_append, hlen]
    exact hdone.symm

theorem PipeAgrees.not_allClosed_of_writing (hv : PipeAgrees pipe v) (ht : t ∈ pipe.writing) :
    ¬ v.AllClosed := by
  rw [hv.allClosed_iff, Pipe.writeEnds]
  have hpos := List.length_pos_of_mem ht
  omega

theorem PipeAgrees.not_allClosed_of_fd (hv : PipeAgrees pipe v) (hopen : pipe.writeFds ≠ 0) :
    ¬ v.AllClosed := by
  rw [hv.allClosed_iff, Pipe.writeEnds]
  omega

-- Bytes moved by the task concern no other one.
theorem frame_of_progress {t' : Task} (hne : t' ≠ t) (ring : PipeRingBuffer) (bytes : List UInt8) :
    PipeFrame t' pipe { pipe with ring := ring } v (v.record (.got t bytes)) ∧
    PipeFrame t' pipe { pipe with ring := ring } v (v.record (.put t bytes)) := by
  refine ⟨⟨rfl, ?_, id⟩, ⟨rfl, ?_, id⟩⟩
  · simp [PipeView.record, hne]
  · simp [PipeView.record, hne]

/-- A section keeps the agreement, and what it records is due. -/
theorem PipeStep.kept {new : List PipeEvent} (h : PipeStep p t pipe pipe' pc pc' new)
    (hview : events.foldl .record {} = v) (hv : PipeAgrees pipe v) (hdue : PipesDue p events)
    (hpoint : v.AtPoint p pipe t pc.point) (hpc : v.AtPc p pipe t pc) :
    PipeKept p t pipe pipe' v (new.foldl .record v) pc' ∧ PipesDue p (events ++ new) := by
  have hframe : ∀ t', PipeFrame t' pipe pipe v v := fun _ => ⟨rfl, rfl, id⟩
  cases h with
  | other hpipe hp hno =>
    subst hpipe
    rw [List.append_nil]
    refine ⟨⟨hv, ?_, PipeView.atPc_of_not hno, fun t' _ => hframe t'⟩, hdue⟩
    rcases hp with hsame | hnot
    · rw [hsame]
      exact hpoint
    · exact PipeView.atPoint_of_not hnot
  | readEnd hpc₀ hpipe hempty hclosed hpc' =>
    subst hpc₀ hpipe hpc'
    obtain ⟨hcall, hlen, hle⟩ := hpoint rfl
    refine ⟨⟨hv, trivial, trivial, fun t' _ => hframe t'⟩, always_concat.mpr ⟨hdue, ?_⟩⟩
    rw [hview]
    refine ⟨hcall, hlen, hle, fun _ => ⟨hv.allClosed_iff.mpr hclosed, ?_⟩⟩
    have hnil : pipe'.ring.contents = [] := by
      apply List.length_eq_zero_iff.mp
      rw [PipeRingBuffer.length_contents, hempty]
    rw [hv.bytes, hnil, List.append_nil]
  | @read want done bytes ring done' returns hpc₀ hdrain hpipe hpc' =>
    subst hpc₀ hpipe
    obtain ⟨hagrees, hat, hret⟩ := pipe_read hv (hpoint rfl) hdrain
    have hgot : PipesDue p (events ++ [.got t bytes]) := always_concat.mpr ⟨hdue, trivial⟩
    have hothers : ∀ t', t' ≠ t →
        PipeFrame t' pipe { pipe with ring := ring } v (v.record (.got t bytes)) :=
      fun t' hne => (frame_of_progress hne ring bytes).1
    cases returns with
    | false =>
      subst hpc'
      exact ⟨⟨hagrees, hat, trivial, hothers⟩, hgot⟩
    | true =>
      subst hpc'
      refine ⟨⟨hagrees, trivial, trivial, hothers⟩, ?_⟩
      simp only [if_true]
      rw [List.append_cons]
      refine always_concat.mpr ⟨hgot, ?_⟩
      rw [List.foldl_append, hview]
      obtain ⟨hcall, hlen, hle⟩ := hat rfl
      refine ⟨hcall, hlen, hle, fun hlt => ?_⟩
      have := hret rfl
      omega
  | @write want done buf bytes ring done' returns hpc₀ hfill hpipe hpc' =>
    subst hpc₀ hpipe
    have hwriting := (hpoint rfl).2.2.2
    obtain ⟨hagrees, hat, hret⟩ := pipe_write hv (hpoint rfl) hfill
    have hput : PipesDue p (events ++ [.put t bytes]) := by
      refine always_concat.mpr ⟨hdue, ?_⟩
      rw [hview]
      exact hv.not_allClosed_of_writing hwriting
    have hothers : ∀ t', t' ≠ t →
        PipeFrame t' pipe { pipe with ring := ring } v (v.record (.put t bytes)) :=
      fun t' hne => (frame_of_progress hne ring bytes).2
    cases returns with
    | false =>
      subst hpc'
      exact ⟨⟨hagrees, hat, trivial, hothers⟩, hput⟩
    | true =>
      subst hpc'
      refine ⟨⟨hagrees, trivial, fun _ => hwriting, hothers⟩, ?_⟩
      simp only [if_true]
      rw [List.append_cons]
      refine always_concat.mpr ⟨hput, ?_⟩
      rw [List.foldl_append, hview]
      obtain ⟨hcall, hlen, _, _⟩ := hat rfl
      exact ⟨hcall, hlen.trans (hret rfl), hret rfl⟩
  | @start want hpc₀ hopen hpipe hpc' =>
    subst hpc₀ hpipe hpc'
    obtain ⟨hcall, hprogress⟩ := hpc rfl
    have hends := hv.ends
    refine ⟨⟨⟨hv.bytes, ?_⟩, fun _ => ⟨hcall, ?_, Nat.zero_le _, List.mem_cons_self⟩, trivial, ?_⟩, ?_⟩
    · show pipe.writeFds + (t :: pipe.writing).length + v.closed = v.opened + 1 + 1
      rw [Pipe.writeEnds] at hends
      rw [List.length_cons]
      omega
    · show (v.progress t).length = 0
      rw [hprogress]
      rfl
    · exact fun t' _ => ⟨rfl, rfl, fun hmem => List.mem_cons_of_mem t hmem⟩
    · refine always_concat.mpr ⟨hdue, ?_⟩
      rw [hview]
      exact hv.not_allClosed_of_fd hopen
  | drop hpc₀ hpipe hpc' =>
    subst hpc₀ hpipe hpc'
    have hwriting := hpc rfl
    have hpos := List.length_pos_of_mem hwriting
    have hends := hv.ends
    refine ⟨⟨⟨hv.bytes, ?_⟩, trivial, trivial, ?_⟩, ?_⟩
    · show pipe.writeFds + (pipe.writing.erase t).length + (v.closed + 1) = v.opened + 1
      rw [Pipe.writeEnds] at hends
      rw [List.length_erase_of_mem hwriting]
      omega
    · exact fun t' hne => ⟨rfl, rfl, fun hmem => (List.mem_erase_of_ne hne).mpr hmem⟩
    · refine always_concat.mpr ⟨hdue, ?_⟩
      rw [hview]
      exact hv.not_allClosed_of_writing hwriting
  | dup hopen hpipe hpc' =>
    subst hpipe hpc'
    have hends := hv.ends
    refine ⟨⟨⟨hv.bytes, ?_⟩, trivial, trivial, fun t' _ => ⟨rfl, rfl, id⟩⟩, ?_⟩
    · show pipe.writeFds + 1 + pipe.writing.length + v.closed = v.opened + 1 + 1
      rw [Pipe.writeEnds] at hends
      omega
    · refine always_concat.mpr ⟨hdue, ?_⟩
      rw [hview]
      exact hv.not_allClosed_of_fd hopen
  | close hopen hpipe hpc' =>
    subst hpipe hpc'
    have hends := hv.ends
    refine ⟨⟨⟨hv.bytes, ?_⟩, trivial, trivial, fun t' _ => ⟨rfl, rfl, id⟩⟩, ?_⟩
    · show pipe.writeFds - 1 + pipe.writing.length + (v.closed + 1) = v.opened + 1
      rw [Pipe.writeEnds] at hends
      omega
    · refine always_concat.mpr ⟨hdue, ?_⟩
      rw [hview]
      exact hv.not_allClosed_of_fd hopen

end

/-- The state agrees with the history about the pipe `p`. -/
structure PipeInv (p : ℕ) (hist : History) (s : System) : Prop where
  agrees : PipeAgrees (s.kernel.pipes p) (pipeView p hist)
  due : PipesDue p (pipeEvents p hist)
  atPoint : ∀ t, (pipeView p hist).AtPoint p (s.kernel.pipes p) t (s.control t)
  atPc : ∀ t pc, s.cpu = .running t pc → (pipeView p hist).AtPc p (s.kernel.pipes p) t pc

section

variable {p : ℕ} {ok : History → Task → Call → Prop} {tasks : List Task} {hist events : History}
  {s s' : System}

theorem pipeView_append (hist events : History) :
    pipeView p (hist ++ events) = (pipeEvents p events).foldl .record (pipeView p hist) := by
  simp [pipeView]

theorem PipeInv.section {t : Task} {pc pc' : Pc} {k' : KernelState} {events : List Event}
    (hi : PipeInv p hist s) (hcpu : s.cpu = .running t pc)
    (hsec : Section t s.kernel pc k' pc' events) :
    PipeInv p (hist ++ events.map (Prod.mk t)) { s with kernel := k', cpu := .running t pc' } := by
  have hself := hi.atPoint t
  rw [System.control_running hcpu] at hself
  obtain ⟨⟨hagrees, hpoint, hpc, hothers⟩, hdue⟩ :=
    (hsec.pipe p).kept (v := pipeView p hist) rfl hi.agrees hi.due hself (hi.atPc t pc hcpu)
  rw [← pipeView_append] at hagrees hpoint hpc hothers
  refine ⟨hagrees, by rw [pipeEvents_append]; exact hdue, ?_, ?_⟩
  · intro t'
    by_cases hne : t = t'
    · subst hne
      rw [System.control_running rfl]
      exact hpoint
    · rw [System.control_of_ne hcpu hne]
      exact (hothers t' (Ne.symm hne)).atPoint (hi.atPoint t')
  · intro t' pc'' heq
    cases heq
    exact hpc

theorem PipeView.atPoint_entry (v : PipeView) (pipe : Pipe) (t : Task) (c : Call) :
    (v.record (.called t c)).AtPoint p pipe t c.entry.point ∧
    (v.record (.called t c)).AtPc p pipe t c.entry := by
  cases c with
  | pipeRead p' want =>
    refine ⟨?_, trivial⟩
    intro hp
    simp [PipeView.record, hp]
  | pipeWrite p' want =>
    refine ⟨trivial, ?_⟩
    intro hp
    simp [PipeView.record, hp]
  | _ => exact ⟨trivial, trivial⟩

theorem PipeInv.step (hi : PipeInv p hist s) (h : Effect ok hist s events s') :
    PipeInv p (hist ++ events) s' := by
  cases h with
  | @call t c hcpu _ =>
    have hview : pipeView p (hist ++ [(t, .called c)]) = (pipeView p hist).record (.called t c) := by
      rw [pipeView_append]
      rfl
    have hentry := PipeView.atPoint_entry (p := p) (pipeView p hist) (s.kernel.pipes p) t c
    refine ⟨?_, ?_, ?_, ?_⟩
    · rw [hview]
      exact ⟨hi.agrees.bytes, hi.agrees.ends⟩
    · rw [pipeEvents_append]
      exact always_concat.mpr ⟨hi.due, trivial⟩
    · intro t'
      rw [hview]
      by_cases ht : t = t'
      · subst ht
        rw [System.control_running rfl]
        exact hentry.1
      · have hcontrol : System.control { s with cpu := .running t c.entry } t' = s.control t' :=
          System.control_of_ne hcpu ht
        rw [hcontrol]
        have hframe : PipeFrame t' (s.kernel.pipes p) (s.kernel.pipes p) (pipeView p hist)
            ((pipeView p hist).record (.called t c)) := by
          refine ⟨?_, ?_, id⟩
          · simp [PipeView.record, Ne.symm ht]
          · simp [PipeView.record, Ne.symm ht]
        exact hframe.atPoint (hi.atPoint t')
    · intro t' pc heq
      cases heq
      rw [hview]
      exact hentry.2
  | run hcpu hsec _ => exact hi.section hcpu hsec
  | quiet hobjects hcontrol hcpu _ =>
    rw [List.append_nil]
    refine ⟨by rw [hobjects.pipes]; exact hi.agrees, hi.due,
      by rw [hobjects.pipes, hcontrol]; exact hi.atPoint, ?_⟩
    intro t pc heq
    rw [hobjects.pipes]
    rcases hcpu t pc heq with hold | ⟨point, rfl⟩
    · exact hi.atPc t pc hold
    · trivial

theorem pipeInv_boot (tasks : List Task) (isBlocking : ℕ → Bool) (resCount : ℕ → ℕ) :
    PipeInv p [] (.boot tasks isBlocking resCount) := by
  refine ⟨⟨rfl, rfl⟩, always_nil, fun t => trivial, ?_⟩
  intro t pc heq
  cases heq

/-- When all write ends are closed, that is the end of the stream. -/
theorem PipesDue.closed {before after : List PipeEvent} (h : PipesDue p (before ++ after))
    (hclosed : (before.foldl PipeView.record {}).AllClosed) :
    ((before ++ after).foldl PipeView.record {}).written = (before.foldl PipeView.record {}).written := by
  induction after generalizing before with
  | nil => rw [List.append_nil]
  | cons event after ih =>
    have hdue := h before event after rfl
    rw [List.append_cons] at h ⊢
    have hfold : (before ++ [event]).foldl PipeView.record {} =
        (before.foldl PipeView.record {}).record event := List.foldl_concat _ _ _ _
    -- the events that move bytes or references are not due
    have hsame : ((before.foldl PipeView.record {}).record event).written =
        (before.foldl PipeView.record {}).written ∧
        ((before.foldl PipeView.record {}).record event).AllClosed := by
      cases event with
      | put t bytes => exact absurd hclosed hdue
      | opened => exact absurd hclosed hdue
      | closed => exact absurd hclosed hdue
      | _ => exact ⟨rfl, hclosed⟩
    rw [ih h (by rw [hfold]; exact hsame.2), hfold, hsame.1]

end

/-- **Pipes.**  Whatever the tasks do: the bytes taken out of a pipe are those put in, in order, except for
those in transit, which are at most `RING_BUFFER_SIZE` and which `available_to_read` and
`available_to_write` count; a `write` returns only when this call has put in as many bytes as asked; and a
`read` that returns fewer bytes than asked has found every write end closed and taken the last byte that
is ever written. -/
theorem pipe_transfers {ok : History → Task → Call → Prop} {tasks : List Task} {hist : History}
    {s : System} (p : ℕ) (isBlocking : ℕ → Bool) (resCount : ℕ → ℕ) (htasks : tasks.Nodup)
    (h : Run ok (.boot tasks isBlocking resCount) hist s) :
    (pipeView p hist).taken <+: (pipeView p hist).written ∧
    (s.kernel.pipes p).ring.availableToRead + (pipeView p hist).taken.length =
      (pipeView p hist).written.length ∧
    (s.kernel.pipes p).ring.availableToRead ≤ ringBufferSize ∧
    (s.kernel.pipes p).ring.availableToRead + (s.kernel.pipes p).ring.availableToWrite =
      ringBufferSize ∧
    (∀ before t want n after, hist = before ++ (t, .writeReturned p want n) :: after →
      (pipeView p before).call t = some (.pipeWrite p want) ∧ n = want ∧
      ((pipeView p before).progress t).length = want) ∧
    (∀ before t want n after, hist = before ++ (t, .readReturned p want n) :: after →
      (pipeView p before).call t = some (.pipeRead p want) ∧
      ((pipeView p before).progress t).length = n ∧ n ≤ want ∧
      (n < want → (pipeView p before).AllClosed ∧
        (pipeView p before).taken = (pipeView p hist).written)) := by
  have hinv : PipeInv p hist s := h.invariant htasks (pipeInv_boot tasks isBlocking resCount)
    fun hi heffect => hi.step heffect
  have hbytes := hinv.agrees.bytes
  have hle := (s.kernel.pipes p).ring.availableToRead_le
  have hsplit : ∀ before x after event, hist = before ++ x :: after → pipeEvent p x = some event →
      pipeEvents p hist = pipeEvents p before ++ event :: pipeEvents p after := by
    intro before x after event heq hevent
    rw [heq, pipeEvents_append, pipeEvents_cons, hevent]
    rfl
  refine ⟨⟨_, hbytes.symm⟩, ?_, hle, ?_, ?_, ?_⟩
  · rw [hbytes, List.length_append, PipeRingBuffer.length_contents]
    omega
  · rw [PipeRingBuffer.availableToWrite_eq]
    omega
  · intro before t want n after heq
    have hevents := hsplit before _ after (.writeReturned t want n) heq (by simp [pipeEvent])
    obtain ⟨hcall, hlen, hn⟩ := hinv.due _ _ _ hevents
    exact ⟨hcall, hn, hlen⟩
  · intro before t want n after heq
    have hevents := hsplit before _ after (.readReturned t want n) heq (by simp [pipeEvent])
    obtain ⟨hcall, hlen, hn, hshort⟩ := hinv.due _ _ _ hevents
    refine ⟨hcall, hlen, hn, fun hlt => ?_⟩
    obtain ⟨hclosed, htaken⟩ := hshort hlt
    have hdue := hinv.due
    rw [hevents] at hdue
    refine ⟨hclosed, htaken.trans ?_⟩
    have hfinal := hdue.closed hclosed
    rw [← hevents] at hfinal
    exact hfinal.symm

/-- One byte is written, the write end closed, and two bytes are asked for. -/
def shortRead : List Action :=
  [.fetch, .start, .call (.pipeWrite 0 1), .exec [], .exec [7], .exec [], .call (.closeWriteEnd 0), .exec [],
   .call (.pipeRead 0 2), .exec [], .exec []]

theorem pipe_transfers_shortRead : ∃ hist s,
    Run (fun _ _ _ => True) (.boot [0] (fun _ => true) fun _ => 0) hist s ∧
    (∃ before, hist = before ++ [(0, .readReturned 0 2 1)]) ∧
    (pipeView 0 hist).taken = (pipeView 0 hist).written := by
  obtain ⟨hist, s, hrun, hlast⟩ := exists_run (fun _ _ _ => True)
    (.boot [0] (fun _ => true) fun _ => 0)
    (fun hist _ => hist = hist.dropLast ++ [(0, .readReturned 0 2 1)]) shortRead (by decide)
  refine ⟨hist, s, hrun, ⟨_, hlast⟩, ?_⟩
  obtain ⟨_, htaken⟩ := ((pipe_transfers 0 (fun _ => true) (fun _ => 0) (by decide) hrun).2.2.2.2.2
    _ 0 2 1 [] hlast).2.2.2 (by decide)
  rw [← htaken]
  conv_lhs => rw [hlast]
  rw [pipeView_append]
  rfl

end LemonCore.Kernel
