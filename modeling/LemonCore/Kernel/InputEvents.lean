import LemonCore.Kernel.DeviceQueue

/-!
# Input events (`kernel/src/drivers/input/`, `kernel/src/syscall/input.rs`, `user/src/input.rs`)

The driver packs every event of a virtio input device into a `u64` and queues it; `sys_event_get` hands
the queued words out as an `isize`, those of the keyboard first, and `0` when both queues are empty; the
user library unpacks them again.

* `ofUInt64_pack`, `pack_ofUInt64`: packing and unpacking are inverse, on all events and all words;
* `eventGet_of_queued`: what one `event_get` answers;
* `event_get_returns_events_iff`: repeated calls return the queued events exactly if none of them is the
  event with three zero fields, which is packed into the word that means "no event".
-/

namespace LemonCore.Kernel.InputEvents

/-- An event, as the device delivers it and as the user library returns it. -/
@[ext]
structure InputEvent where
  eventType : UInt16
  code : UInt16
  value : UInt32
  deriving DecidableEq, Repr

/-! ### Packing -/

/-- The word that `handle_irq` makes of an event. -/
def InputEvent.pack (event : InputEvent) : UInt64 :=
  event.eventType.toUInt64 <<< 48 ||| event.code.toUInt64 <<< 32 ||| event.value.toUInt64

/-- `From<u64> for InputEvent`. -/
def InputEvent.ofUInt64 (v : UInt64) : InputEvent :=
  let value := v.toUInt32
  let v := v >>> 32
  let code := v.toUInt16
  let v := v >>> 16
  let eventType := v.toUInt16
  ⟨eventType, code, value⟩

theorem or_eq_add {a b c : ℕ} (hb : b < 2 ^ 16) (hc : c < 2 ^ 32) :
    a <<< 48 ||| b <<< 32 ||| c = a * 2 ^ 48 + b * 2 ^ 32 + c := by
  have hcode : b <<< 32 < 2 ^ 48 := by
    rw [Nat.shiftLeft_eq]
    omega
  have hfields : a <<< 48 + b <<< 32 = (a * 2 ^ 16 + b) <<< 32 := by
    simp only [Nat.shiftLeft_eq]
    omega
  rw [← Nat.shiftLeft_add_eq_or_of_lt hcode, hfields, ← Nat.shiftLeft_add_eq_or_of_lt hc,
    Nat.shiftLeft_eq]
  omega

theorem toNat_pack (event : InputEvent) : event.pack.toNat =
    event.eventType.toNat * 2 ^ 48 + event.code.toNat * 2 ^ 32 + event.value.toNat := by
  have htype := event.eventType.toNat_lt
  have hcode := event.code.toNat_lt
  have hvalue := event.value.toNat_lt
  rw [InputEvent.pack, UInt64.toNat_or, UInt64.toNat_or, UInt64.toNat_shiftLeft,
    UInt64.toNat_shiftLeft, UInt16.toNat_toUInt64, UInt16.toNat_toUInt64, UInt32.toNat_toUInt64]
  show event.eventType.toNat <<< 48 % 2 ^ 64 ||| event.code.toNat <<< 32 % 2 ^ 64 ||| _ = _
  have hsmall : event.eventType.toNat <<< 48 % 2 ^ 64 = event.eventType.toNat <<< 48 := by
    rw [Nat.shiftLeft_eq]
    exact Nat.mod_eq_of_lt (by omega)
  have hsmall' : event.code.toNat <<< 32 % 2 ^ 64 = event.code.toNat <<< 32 := by
    rw [Nat.shiftLeft_eq]
    exact Nat.mod_eq_of_lt (by omega)
  rw [hsmall, hsmall', or_eq_add hcode hvalue]

theorem toNat_ofUInt64 (v : UInt64) :
    (InputEvent.ofUInt64 v).eventType.toNat = v.toNat / 2 ^ 48 % 2 ^ 16 ∧
    (InputEvent.ofUInt64 v).code.toNat = v.toNat / 2 ^ 32 % 2 ^ 16 ∧
    (InputEvent.ofUInt64 v).value.toNat = v.toNat % 2 ^ 32 := by
  have h32 : (v >>> 32).toNat = v.toNat / 2 ^ 32 := by
    rw [UInt64.toNat_shiftRight, ← Nat.shiftRight_eq_div_pow]
    rfl
  have h48 : (v >>> 32 >>> 16).toNat = v.toNat / 2 ^ 48 := by
    rw [UInt64.toNat_shiftRight, h32]
    show (v.toNat / 2 ^ 32) >>> 16 = _
    rw [Nat.shiftRight_eq_div_pow, Nat.div_div_eq_div_mul, ← Nat.pow_add]
  refine ⟨?_, ?_, ?_⟩
  · show (v >>> 32 >>> 16).toUInt16.toNat = _
    rw [UInt64.toNat_toUInt16, h48]
  · show (v >>> 32).toUInt16.toNat = _
    rw [UInt64.toNat_toUInt16, h32]
  · exact UInt64.toNat_toUInt32 v

theorem ofUInt64_pack (event : InputEvent) : InputEvent.ofUInt64 event.pack = event := by
  obtain ⟨htype, hcode, hvalue⟩ := toNat_ofUInt64 event.pack
  rw [toNat_pack] at htype hcode hvalue
  have h1 := event.eventType.toNat_lt
  have h2 := event.code.toNat_lt
  have h3 := event.value.toNat_lt
  apply InputEvent.ext
  · apply UInt16.toNat_inj.mp
    omega
  · apply UInt16.toNat_inj.mp
    omega
  · apply UInt32.toNat_inj.mp
    omega

theorem pack_ofUInt64 (v : UInt64) : (InputEvent.ofUInt64 v).pack = v := by
  obtain ⟨htype, hcode, hvalue⟩ := toNat_ofUInt64 v
  have hlt := v.toNat_lt
  apply UInt64.toNat_inj.mp
  rw [toNat_pack, htype, hcode, hvalue]
  omega

theorem pack_eq_zero_iff {event : InputEvent} : event.pack = 0 ↔ event = ⟨0, 0, 0⟩ := by
  constructor
  · intro h
    rw [← ofUInt64_pack event, h]
    rfl
  · intro h
    rw [h]
    rfl

/-! ### The driver -/

/-- A device: the events it has not delivered yet, and the queue of `VirtIOInputWrapper`. -/
structure VirtIOInput where
  pending : List InputEvent
  queue : DeviceQueue UInt64

namespace VirtIOInput

/-- `VirtIOInputWrapper::new`. -/
def new : VirtIOInput := ⟨[], .new⟩

/-- `handle_irq`, with the task it wakes. -/
def handleIrq (d : VirtIOInput) : Option Task × VirtIOInput :=
  let (woken, queue) := d.queue.handleIrq (d.pending.map InputEvent.pack)
  (woken, ⟨[], queue⟩)

/-- `is_empty`. -/
def isEmpty (d : VirtIOInput) : Bool := d.queue.buffer.isEmpty

/-- `read_event`, called by `current`: the first turn of its loop. -/
def readEvent (current : Option Task) (d : VirtIOInput) : Option (Option UInt64 × VirtIOInput) := do
  let (event, queue) ← d.queue.read current
  some (event, { d with queue := queue })

/-- Interrupts, each with the events that are pending when it is taken. -/
def afterIrqs (bursts : List (List InputEvent)) (d : VirtIOInput) : VirtIOInput :=
  bursts.foldl (fun d burst => { d with pending := d.pending ++ burst }.handleIrq.2) d

theorem handleIrq_queue (d : VirtIOInput) : d.handleIrq.2.pending = [] ∧
    d.handleIrq.2.queue.buffer = d.queue.buffer ++ d.pending.map InputEvent.pack :=
  ⟨rfl, (d.queue.handleIrq_cases _).1⟩

theorem afterIrqs_buffer (bursts : List (List InputEvent)) :
    ∀ d : VirtIOInput, d.pending = [] → (d.afterIrqs bursts).queue.buffer =
      d.queue.buffer ++ bursts.flatten.map InputEvent.pack := by
  induction bursts with
  | nil =>
    intro d _
    simp [afterIrqs]
  | cons burst bursts ih =>
    intro d hpending
    obtain ⟨hnone, hbuffer⟩ := handleIrq_queue { d with pending := d.pending ++ burst }
    show (afterIrqs bursts ({ d with pending := d.pending ++ burst }.handleIrq.2)).queue.buffer = _
    rw [ih _ hnone, hbuffer, hpending]
    simp

end VirtIOInput

/-! ### The system call and the user library -/

structure Devices where
  keyboard : VirtIOInput
  mouse : VirtIOInput

/-- `sys_event_get`, called by `current`; `none` if the call panics or waits for an event. -/
def sysEventGet (current : Option Task) (s : Devices) : Option (Int64 × Devices) :=
  if !s.keyboard.isEmpty then do
    let (event, keyboard) ← s.keyboard.readEvent current
    let event ← event
    some (event.toInt64, { s with keyboard := keyboard })
  else if !s.mouse.isEmpty then do
    let (event, mouse) ← s.mouse.readEvent current
    let event ← event
    some (event.toInt64, { s with mouse := mouse })
  else some (0, s)

/-- `event_get`. -/
def eventGet (current : Option Task) (s : Devices) : Option (Option InputEvent × Devices) := do
  let (rawValue, s) ← sysEventGet current s
  some (if rawValue = 0 then none else some (.ofUInt64 rawValue.toUInt64), s)

/-- `n` calls of `event_get`, with their answers. -/
def eventGets (current : Option Task) : ℕ → Devices → Option (List (Option InputEvent) × Devices)
  | 0, s => some ([], s)
  | n + 1, s => do
    let (answer, s) ← eventGet current s
    let (answers, s) ← eventGets current n s
    some (answer :: answers, s)

/-- The queued words, in the order in which `sys_event_get` takes them. -/
def Devices.queued (s : Devices) : List UInt64 := s.keyboard.queue.buffer ++ s.mouse.queue.buffer

/-- What the user library makes of a word. -/
def answer (word : UInt64) : Option InputEvent := if word = 0 then none else some (.ofUInt64 word)

theorem answer_pack {event : InputEvent} : answer event.pack = some event ↔ event ≠ ⟨0, 0, 0⟩ := by
  rw [answer, ofUInt64_pack, ne_eq, ← pack_eq_zero_iff]
  simp

/-- `sys_event_get` takes the first queued word, and answers `0` when there is none. -/
theorem sysEventGet_of_queued (current : Option Task) (s : Devices) :
    (∀ word rest, s.queued = word :: rest →
      ∃ s', sysEventGet current s = some (word.toInt64, s') ∧ s'.queued = rest) ∧
    (s.queued = [] → sysEventGet current s = some (0, s)) := by
  obtain ⟨⟨pending, ⟨events, condvar⟩⟩, ⟨pending', ⟨events', condvar'⟩⟩⟩ := s
  cases events with
  | cons event events =>
    refine ⟨fun word rest hq => ?_, fun hq => absurd hq (by simp [Devices.queued])⟩
    obtain ⟨hword, hrest⟩ := List.cons.inj (hq : event :: (events ++ events') = word :: rest)
    subst hword
    exact ⟨_, rfl, hrest⟩
  | nil =>
    cases events' with
    | cons event events' =>
      refine ⟨fun word rest hq => ?_, fun hq => absurd hq (by simp [Devices.queued])⟩
      obtain ⟨hword, hrest⟩ := List.cons.inj (hq : event :: events' = word :: rest)
      subst hword
      exact ⟨_, rfl, hrest⟩
    | nil =>
      refine ⟨fun word rest hq => absurd hq (by simp [Devices.queued]), fun _ => rfl⟩

theorem eventGet_of_queued (current : Option Task) (s : Devices) :
    (∀ word rest, s.queued = word :: rest →
      ∃ s', eventGet current s = some (answer word, s') ∧ s'.queued = rest) ∧
    (s.queued = [] → eventGet current s = some (none, s)) := by
  obtain ⟨hcons, hnil⟩ := sysEventGet_of_queued current s
  constructor
  · intro word rest hq
    obtain ⟨s', hget, hrest⟩ := hcons word rest hq
    refine ⟨s', ?_, hrest⟩
    rw [eventGet, hget]
    have hzero : word.toInt64 = 0 ↔ word = 0 :=
      ⟨fun h => congrArg Int64.toUInt64 h, fun h => by rw [h]; rfl⟩
    show some (if word.toInt64 = 0 then none else some (InputEvent.ofUInt64 word), s') = _
    rw [answer, if_congr hzero rfl rfl]
  · intro hq
    rw [eventGet, hnil hq]
    rfl

/-- The answers that `n` calls give when the words `queue` are queued. -/
def answers (queue : List UInt64) (n : ℕ) : List (Option InputEvent) :=
  (queue.take n).map answer ++ List.replicate (n - queue.length) none

theorem eventGets_eq (current : Option Task) (n : ℕ) :
    ∀ s : Devices, ∃ s', eventGets current n s = some (answers s.queued n, s') := by
  induction n with
  | zero =>
    intro s
    exact ⟨s, by simp [eventGets, answers]⟩
  | succ n ih =>
    intro s
    obtain ⟨hcons, hnil⟩ := eventGet_of_queued current s
    cases hq : s.queued with
    | nil =>
      obtain ⟨s', hrest⟩ := ih s
      rw [hq] at hrest
      refine ⟨s', ?_⟩
      rw [eventGets, hnil hq]
      simp [hrest, answers, List.replicate_succ]
    | cons word rest =>
      obtain ⟨s₁, hget, hqueued⟩ := hcons word rest hq
      obtain ⟨s', hrest⟩ := ih s₁
      rw [hqueued] at hrest
      refine ⟨s', ?_⟩
      rw [eventGets, hget]
      simp [hrest, answers]

/-- **`event_get` returns the events that arrived, in order, exactly if none of them has three zero
fields.**  The keyboard and the mouse have taken any interrupts; after that `n` calls return the first
`n` events, and `None` once all have been returned.  Packing and unpacking are inverse in any case. -/
theorem event_get_returns_events_iff (current : Option Task)
    (keyboard mouse : List (List InputEvent)) :
    ((∀ event : InputEvent, .ofUInt64 event.pack = event) ∧
      ∀ word : UInt64, (InputEvent.ofUInt64 word).pack = word) ∧
    ((∀ n, ∃ s,
        eventGets current n ⟨VirtIOInput.new.afterIrqs keyboard, VirtIOInput.new.afterIrqs mouse⟩ =
        some (((keyboard.flatten ++ mouse.flatten).take n).map some ++
          List.replicate (n - (keyboard.flatten ++ mouse.flatten).length) none, s)) ↔
      ∀ event ∈ keyboard.flatten ++ mouse.flatten, event ≠ ⟨0, 0, 0⟩) := by
  refine ⟨⟨ofUInt64_pack, pack_ofUInt64⟩, ?_⟩
  have hqueued : Devices.queued ⟨VirtIOInput.new.afterIrqs keyboard, VirtIOInput.new.afterIrqs mouse⟩ =
      (keyboard.flatten ++ mouse.flatten).map InputEvent.pack := by
    rw [Devices.queued, VirtIOInput.afterIrqs_buffer _ _ rfl, VirtIOInput.afterIrqs_buffer _ _ rfl,
      List.map_append]
    rfl
  generalize (⟨VirtIOInput.new.afterIrqs keyboard, VirtIOInput.new.afterIrqs mouse⟩ : Devices) = s
    at hqueued ⊢
  generalize keyboard.flatten ++ mouse.flatten = events at hqueued ⊢
  have hanswers : ∀ n, answers s.queued n =
      ((events.take n).map fun event => answer event.pack) ++
        List.replicate (n - events.length) none := by
    intro n
    rw [hqueued, answers, ← List.map_take, List.map_map, List.length_map]
    rfl
  constructor
  · intro h event hmem
    -- as many calls as there are events
    obtain ⟨s₁, hget⟩ := h events.length
    obtain ⟨s₂, heq⟩ := eventGets_eq current events.length s
    rw [heq, hanswers, Option.some.injEq, Prod.mk.injEq, Nat.sub_self, List.take_length] at hget
    have hall := List.map_inj_left.mp (List.append_cancel_right hget.1)
    exact answer_pack.mp (hall event hmem)
  · intro h n
    obtain ⟨s', heq⟩ := eventGets_eq current n s
    refine ⟨s', ?_⟩
    rw [heq, hanswers]
    have hmap : (events.take n).map (fun event => answer event.pack) = (events.take n).map some :=
      List.map_congr_left fun event hmem => answer_pack.mpr (h event (List.mem_of_mem_take hmem))
    rw [hmap]

/-- A key is pressed; the device reports it with the event that ends the report, and its release
later.  The second call of `event_get` answers `None` while the release is still queued. -/
theorem event_get_misses_report_end : ∃ s,
    eventGets (some 1) 3 ⟨VirtIOInput.new.afterIrqs [[⟨1, 30, 1⟩, ⟨0, 0, 0⟩, ⟨1, 30, 0⟩]], .new⟩ =
      some ([some ⟨1, 30, 1⟩, none, some ⟨1, 30, 0⟩], s) :=
  ⟨_, rfl⟩

end LemonCore.Kernel.InputEvents
