import LemonCore.Foundation.Circular

/-!
# The ring buffer of a pipe (`kernel/src/fs/pipe.rs`)

`head = tail` is both the empty and the full buffer; a status tells them apart, and every byte put in
or taken out sets it anew.  That the status is `Normal` exactly when `head` and `tail` differ is a field
of the buffer.

* `writeByte`, `readByte`, `availableToRead`, `availableToWrite`: the code;
* `contents`: the bytes in transit;
* `contents_writeByte`, `contents_readByte`: the buffer is a queue of at most `RING_BUFFER_SIZE` bytes;
* `drain`, `fill`: the inner loops of `read` and `write`, with `drain_spec` and `fill_spec`.
-/

namespace LemonCore.Kernel

open Foundation.Circular

/-- `RING_BUFFER_SIZE`. -/
def ringBufferSize : ℕ := 32

inductive RingBufferStatus where
  | full
  | empty
  | normal
  deriving DecidableEq, Repr

/-- `PipeRingBuffer`, without the weak reference to the write end. -/
structure PipeRingBuffer where
  arr : ℕ → UInt8
  head : ℕ
  tail : ℕ
  status : RingBufferStatus
  head_lt : head < ringBufferSize
  tail_lt : tail < ringBufferSize
  normal_iff : status = .normal ↔ head ≠ tail

namespace PipeRingBuffer

/-- `PipeRingBuffer::new`. -/
def new : PipeRingBuffer where
  arr _ := 0
  head := 0
  tail := 0
  status := .empty
  head_lt := by decide
  tail_lt := by decide
  normal_iff := by decide

/-- `PipeRingBuffer::write_byte`. -/
def writeByte (ring : PipeRingBuffer) (byte : UInt8) : PipeRingBuffer where
  arr := Function.update ring.arr ring.tail byte
  head := ring.head
  tail := (ring.tail + 1) % ringBufferSize
  status := if (ring.tail + 1) % ringBufferSize = ring.head then .full else .normal
  head_lt := ring.head_lt
  tail_lt := Nat.mod_lt _ (by decide)
  normal_iff := by
    split
    · rename_i h
      simp [h]
    · rename_i h
      simpa using Ne.symm h

/-- `PipeRingBuffer::read_byte`. -/
def readByte (ring : PipeRingBuffer) : UInt8 × PipeRingBuffer :=
  (ring.arr ring.head,
    { arr := ring.arr
      head := (ring.head + 1) % ringBufferSize
      tail := ring.tail
      status := if (ring.head + 1) % ringBufferSize = ring.tail then .empty else .normal
      head_lt := Nat.mod_lt _ (by decide)
      tail_lt := ring.tail_lt
      normal_iff := by
        split
        · rename_i h
          simp [h]
        · rename_i h
          simpa using h })

/-- `PipeRingBuffer::available_to_read`. -/
def availableToRead (ring : PipeRingBuffer) : ℕ :=
  if ring.status = .empty then 0
  else if ring.head < ring.tail then ring.tail - ring.head
  else ring.tail + ringBufferSize - ring.head

/-- `PipeRingBuffer::available_to_write`. -/
def availableToWrite (ring : PipeRingBuffer) : ℕ :=
  if ring.status = .full then 0 else ringBufferSize - ring.availableToRead

/-- The bytes in transit, the oldest first. -/
def contents (ring : PipeRingBuffer) : List UInt8 :=
  window ringBufferSize ring.arr ring.head ring.availableToRead

variable (ring : PipeRingBuffer)

theorem head_eq_tail_of (h : ring.status ≠ .normal) : ring.head = ring.tail := by
  by_contra hne
  exact h (ring.normal_iff.mpr hne)

theorem availableToRead_cases :
    (ring.status = .empty ∧ ring.head = ring.tail ∧ ring.availableToRead = 0) ∨
    (ring.status = .full ∧ ring.head = ring.tail ∧ ring.availableToRead = ringBufferSize) ∨
    (ring.status = .normal ∧ 0 < ring.availableToRead ∧ ring.availableToRead < ringBufferSize ∧
      (ring.head + ring.availableToRead) % ringBufferSize = ring.tail) := by
  have hhead := ring.head_lt
  have htail := ring.tail_lt
  cases hs : ring.status with
  | empty =>
    have heq := ring.head_eq_tail_of (by rw [hs]; simp)
    exact Or.inl ⟨rfl, heq, by rw [availableToRead, if_pos hs]⟩
  | full =>
    have heq := ring.head_eq_tail_of (by rw [hs]; simp)
    refine Or.inr (Or.inl ⟨rfl, heq, ?_⟩)
    rw [availableToRead, if_neg (by rw [hs]; simp), if_neg (by omega)]
    omega
  | normal =>
    have hne := ring.normal_iff.mp hs
    refine Or.inr (Or.inr ⟨rfl, ?_⟩)
    rw [availableToRead, if_neg (by rw [hs]; simp)]
    rw [ringBufferSize] at *
    by_cases hlt : ring.head < ring.tail
    · rw [if_pos hlt]
      omega
    · rw [if_neg hlt]
      omega

@[simp] theorem length_contents : ring.contents.length = ring.availableToRead := by
  simp [contents]

theorem availableToRead_le : ring.availableToRead ≤ ringBufferSize := by
  rcases ring.availableToRead_cases with ⟨_, _, h⟩ | ⟨_, _, h⟩ | ⟨_, _, h, _⟩
  · omega
  · omega
  · omega

theorem availableToWrite_eq : ring.availableToWrite = ringBufferSize - ring.availableToRead := by
  rw [availableToWrite]
  rcases ring.availableToRead_cases with ⟨hs, _, h⟩ | ⟨hs, _, h⟩ | ⟨hs, _, h, _⟩
  · rw [if_neg (by rw [hs]; simp)]
  · rw [if_pos hs, h, Nat.sub_self]
  · rw [if_neg (by rw [hs]; simp)]

theorem tail_eq : ring.tail = (ring.head + ring.availableToRead) % ringBufferSize := by
  have hhead := ring.head_lt
  rcases ring.availableToRead_cases with ⟨_, heq, h⟩ | ⟨_, heq, h⟩ | ⟨_, _, _, h⟩
  · rw [h, Nat.add_zero, Nat.mod_eq_of_lt hhead, heq]
  · rw [h, Nat.add_mod_right, Nat.mod_eq_of_lt hhead, heq]
  · exact h.symm

theorem status_writeByte_ne (byte : UInt8) :
    (ring.writeByte byte).status ≠ .empty := by
  show (if _ then RingBufferStatus.full else .normal) ≠ .empty
  split <;> simp

theorem status_readByte_ne : (ring.readByte).2.status ≠ .full := by
  show (if _ then RingBufferStatus.empty else .normal) ≠ .full
  split <;> simp

variable {ring}

-- The two counts follow from the positions of `head` and `tail`: the status set by the operation
-- excludes the one of the two readings of `head = tail` that would be off by a whole turn.
theorem availableToRead_writeByte (byte : UInt8) (h : ring.availableToRead < ringBufferSize) :
    (ring.writeByte byte).availableToRead = ring.availableToRead + 1 := by
  have hhead := ring.head_lt
  have htail := ring.tail_eq
  have hhead' : (ring.writeByte byte).head = ring.head := rfl
  have htail' : (ring.writeByte byte).tail = (ring.tail + 1) % ringBufferSize := rfl
  have hne := status_writeByte_ne ring byte
  rcases (ring.writeByte byte).availableToRead_cases with ⟨hs, _⟩ | ⟨_, heq, havail⟩ | ⟨_, _, hlt, heq⟩
  · exact absurd hs hne
  · rw [hhead', htail', ringBufferSize] at *
    omega
  · rw [hhead', htail', ringBufferSize] at *
    omega

theorem availableToRead_readByte (h : 0 < ring.availableToRead) :
    (ring.readByte).2.availableToRead + 1 = ring.availableToRead := by
  have hhead := ring.head_lt
  have hle := ring.availableToRead_le
  have htail := ring.tail_eq
  have hhead' : (ring.readByte).2.head = (ring.head + 1) % ringBufferSize := rfl
  have htail' : (ring.readByte).2.tail = ring.tail := rfl
  have hne := status_readByte_ne ring
  rcases (ring.readByte).2.availableToRead_cases with ⟨_, heq, havail⟩ | ⟨hs, _⟩ | ⟨_, _, hlt, heq⟩
  · rw [hhead', htail', ringBufferSize] at *
    omega
  · exact absurd hs hne
  · rw [hhead', htail', ringBufferSize] at *
    omega

/-- **A byte put in** becomes the last in transit. -/
theorem contents_writeByte (byte : UInt8) (h : ring.availableToRead < ringBufferSize) :
    (ring.writeByte byte).contents = ring.contents ++ [byte] := by
  rw [contents, availableToRead_writeByte byte h, contents]
  show window ringBufferSize (Function.update ring.arr ring.tail byte) ring.head _ = _
  rw [tail_eq]
  exact window_push ring.arr h byte

/-- **The byte taken out** is the first in transit. -/
theorem contents_readByte (h : 0 < ring.availableToRead) :
    ring.contents = (ring.readByte).1 :: (ring.readByte).2.contents := by
  have hlen := availableToRead_readByte h
  rw [contents, ← hlen, window_pop ring.arr ring.head_lt]
  rfl

/-! ### The inner loops of `read` and `write` -/

/-- `for _ in 0..n` in `read`: the bytes taken, the buffer after it, how many bytes `read` has now, and
whether it returns. -/
def drain : (n want done : ℕ) → PipeRingBuffer → List UInt8 × PipeRingBuffer × ℕ × Bool
  | 0, _, done, ring => ([], ring, done, false)
  | n + 1, want, done, ring =>
    if done < want then
      let (byte, ring) := ring.readByte
      if done + 1 = want then ([byte], ring, done + 1, true)
      else
        let (bytes, ring, done, returns) := drain n want (done + 1) ring
        (byte :: bytes, ring, done, returns)
    else ([], ring, done, true)

/-- `for _ in 0..n` in `write`; `buf` is what the buffer of the user holds now. -/
def fill (buf : ℕ → UInt8) : (n want done : ℕ) → PipeRingBuffer →
    List UInt8 × PipeRingBuffer × ℕ × Bool
  | 0, _, done, ring => ([], ring, done, false)
  | n + 1, want, done, ring =>
    if done < want then
      let byte := buf done
      let ring := ring.writeByte byte
      if done + 1 = want then ([byte], ring, done + 1, true)
      else
        let (bytes, ring, done, returns) := fill buf n want (done + 1) ring
        (byte :: bytes, ring, done, returns)
    else ([], ring, done, true)

/-- What an inner loop did: `bytes` were moved, and it returned iff all that was wanted is done. -/
structure Moved (want done : ℕ) (bytes : List UInt8) (done' : ℕ) (returns : Bool) : Prop where
  done_eq : done' = done + bytes.length
  le : done' ≤ want
  returned : returns = true → done' = want

theorem drain_spec (n want : ℕ) : ∀ (done : ℕ) (ring : PipeRingBuffer), done ≤ want →
    n ≤ ring.availableToRead →
    ring.contents = (drain n want done ring).1 ++ (drain n want done ring).2.1.contents ∧
    Moved want done (drain n want done ring).1 (drain n want done ring).2.2.1
      (drain n want done ring).2.2.2 := by
  induction n with
  | zero =>
    intro done ring hle _
    exact ⟨rfl, rfl, hle, fun h => absurd h (by simp [drain])⟩
  | succ n ih =>
    intro done ring hle hn
    by_cases hlt : done < want
    · have hpos : 0 < ring.availableToRead := by omega
      have hcontents := contents_readByte hpos
      have havail := availableToRead_readByte hpos
      by_cases hlast : done + 1 = want
      · simp only [drain, if_pos hlt, if_pos hlast]
        exact ⟨hcontents, rfl, by omega, fun _ => hlast⟩
      · simp only [drain, if_pos hlt, if_neg hlast]
        obtain ⟨hrest, hdone, hle', hret⟩ := ih (done + 1) (ring.readByte).2 (by omega) (by omega)
        refine ⟨?_, ?_, hle', hret⟩
        · rw [hcontents, List.cons_append, ← hrest]
        · rw [hdone, List.length_cons]
          omega
    · simp only [drain, if_neg hlt]
      exact ⟨rfl, rfl, hle, fun _ => by omega⟩

theorem fill_spec (buf : ℕ → UInt8) (n want : ℕ) : ∀ (done : ℕ) (ring : PipeRingBuffer), done ≤ want →
    n ≤ ring.availableToWrite →
    (fill buf n want done ring).2.1.contents = ring.contents ++ (fill buf n want done ring).1 ∧
    Moved want done (fill buf n want done ring).1 (fill buf n want done ring).2.2.1
      (fill buf n want done ring).2.2.2 := by
  induction n with
  | zero =>
    intro done ring hle _
    exact ⟨(List.append_nil _).symm, rfl, hle, fun h => absurd h (by simp [fill])⟩
  | succ n ih =>
    intro done ring hle hn
    rw [availableToWrite_eq] at hn
    by_cases hlt : done < want
    · have hroom : ring.availableToRead < ringBufferSize := by omega
      have hcontents := contents_writeByte (buf done) hroom
      have havail := availableToRead_writeByte (buf done) hroom
      by_cases hlast : done + 1 = want
      · simp only [fill, if_pos hlt, if_pos hlast]
        exact ⟨hcontents, rfl, by omega, fun _ => hlast⟩
      · simp only [fill, if_pos hlt, if_neg hlast]
        obtain ⟨hrest, hdone, hle', hret⟩ := ih (done + 1) (ring.writeByte (buf done)) (by omega)
          (by rw [availableToWrite_eq]; omega)
        refine ⟨?_, ?_, hle', hret⟩
        · rw [hrest, hcontents, List.append_assoc]
          rfl
        · rw [hdone, List.length_cons]
          omega
    · simp only [fill, if_neg hlt]
      exact ⟨(List.append_nil _).symm, rfl, hle, fun _ => by omega⟩

end PipeRingBuffer

end LemonCore.Kernel
