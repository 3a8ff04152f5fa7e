import LemonCore.EasyFs.Runs
import LemonCore.Foundation.EventLog

/-!
# Runs of a bitmap

Calls of `alloc` and `dealloc` on one bitmap through the block cache, from any content of its blocks.

* `Bitmap.Run`: the runs, `handedOut`: what a history says about one index;
* `Bitmap.Only`: one bit has changed, and nothing else on the disk;
* `bitmap_exact`: `alloc` finds the first clear bit, `dealloc` clears the bit it is given, and no index is
  handed out twice before it is given back.
-/

namespace LemonCore.EasyFs

open Foundation.BorrowProgram Foundation.EventLog

inductive BitmapEvent where
  | alloc (answer : Option ℕ)
  | dealloc (bit : ℕ)
  deriving DecidableEq, Repr

def BitmapEvent.record (i : ℕ) (out : Bool) : BitmapEvent → Bool
  | .alloc (some j) => out || j = i
  | .alloc none => out
  | .dealloc j => out && j ≠ i

/-- Index `i` was handed out and not given back. -/
def handedOut (i : ℕ) (tr : List BitmapEvent) : Bool := tr.foldl (BitmapEvent.record i) false

/-- An index is handed out only when it is free. -/
def HandsOutFree (before : List BitmapEvent) : BitmapEvent → Prop
  | .alloc (some i) => handedOut i before = false
  | _ => True

namespace Bitmap

/-- The runs on a bitmap whose blocks have any content at first. -/
inductive Run (bm : Bitmap) (d : Disk) : List BitmapEvent → CacheState → Prop
  | start {c : CacheState} : Presents c [] d → Run bm d [] c
  | alloc {tr : List BitmapEvent} {c c' : CacheState} {answer : Option ℕ} : Run bm d tr c →
      exec cacheMachine bm.alloc c = .ok (answer, c') → Run bm d (tr ++ [.alloc answer]) c'
  | dealloc {tr : List BitmapEvent} {c c' : CacheState} {bit : ℕ} : Run bm d tr c → bit < bm.maximum →
      exec cacheMachine (bm.dealloc bit) c = .ok ((), c') → Run bm d (tr ++ [.dealloc bit]) c'

/-- Bit `i` is `v` now, and nothing else has changed. -/
structure Only (bm : Bitmap) (d d' : Disk) (i : ℕ) (v : Bool) : Prop where
  self : bm.bit d' i = v
  other : ∀ j, j ≠ i → bm.bit d' j = bm.bit d j
  outside : ∀ b, b < bm.startBlockId ∨ bm.startBlockId + bm.blocks ≤ b → d' b = d b

variable {bm : Bitmap} {d : Disk} {tr : List BitmapEvent} {c c' : CacheState} {i : ℕ}

theorem only_set (hi : i < bm.maximum) : bm.Only d (bm.set d i) i true := by
  refine ⟨by simp [bit_set], ?_, fun b hb => set_outside hi hb⟩
  intro j hj
  simp [bit_set, hj]

theorem only_clear (hi : i < bm.maximum) : bm.Only d (bm.clear d i) i false := by
  refine ⟨by simp [bit_clear], ?_, fun b hb => clear_outside hi hb⟩
  intro j hj
  simp [bit_clear, hj]

/-- **`alloc` through the cache.** -/
theorem alloc_returns (bm : Bitmap) (hp : Presents c [] d) :
    ∃ answer c' d', exec cacheMachine bm.alloc c = .ok (answer, c') ∧ Presents c' [] d' ∧
      ((answer = none ∧ d' = d ∧ ∀ j, j < bm.maximum → bm.bit d j = true) ∨
        ∃ i, answer = some i ∧ bm.FirstClear d i ∧ bm.Only d d' i true) := by
  have hspec : dwp bm.alloc [] d _ fun _ => False := alloc_spec (fun _ _ => List.not_mem_nil) (by decide)
  obtain ⟨answer, d', hrun, hanswer⟩ := wp_returns hspec
  obtain ⟨c', hexec, hp'⟩ := exec_returns hp hrun
  refine ⟨answer, c', d', hexec, hp', hanswer.imp_right ?_⟩
  rintro ⟨i, hi, hfirst, hset⟩
  exact ⟨i, hi, hfirst, hset ▸ only_set hfirst.1⟩

/-- **`dealloc` through the cache.** -/
theorem dealloc_ok (hp : Presents c [] d) (hi : i < bm.maximum)
    (h : exec cacheMachine (bm.dealloc i) c = .ok ((), c')) :
    ∃ d', Presents c' [] d' ∧ bm.bit d i = true ∧ bm.Only d d' i false := by
  obtain ⟨d', hrun, hp'⟩ := exec_content hp h
  obtain ⟨hset, hclear⟩ := wp_result (dealloc_spec List.not_mem_nil (by decide)) hrun
  exact ⟨d', hp', hset, hclear ▸ only_clear hi⟩

theorem dealloc_returns_iff (bm : Bitmap) (hp : Presents c [] d) (i : ℕ) :
    (bm.bit d i = true → ∃ c', exec cacheMachine (bm.dealloc i) c = .ok ((), c')) ∧
      (bm.bit d i = false → exec cacheMachine (bm.dealloc i) c = .error (.panic .assertion)) := by
  have hspec : dwp (bm.dealloc i) [] d _ _ := dealloc_spec List.not_mem_nil (by decide)
  cases hrun : drun (bm.dealloc i) [] d with
  | ok result =>
    have hset := (wp_result hspec hrun).1
    obtain ⟨c', hexec, -⟩ := exec_returns hp hrun
    exact ⟨fun _ => ⟨c', hexec⟩, fun hclear => absurd (hset.symm.trans hclear) (by simp)⟩
  | error fault =>
    obtain ⟨hclear, hfault⟩ := wp_fault hspec hrun
    exact ⟨fun hset => absurd (hset.symm.trans hclear) (by simp),
      fun _ => hfault ▸ exec_of_fault cache_simulates hp hrun⟩

theorem handedOut_concat (i : ℕ) (tr : List BitmapEvent) (event : BitmapEvent) :
    handedOut i (tr ++ [event]) = event.record i (handedOut i tr) := by
  rw [handedOut, List.foldl_append]
  rfl

/-- The cache presents the disk, the bit of an index that is handed out is set, and so far only free indices
were handed out. -/
theorem Run.tracks (h : bm.Run d tr c) : Presents c [] c.content ∧
    (∀ i, handedOut i tr = true → bm.bit c.content i = true) ∧ Always HandsOutFree tr := by
  induction h with
  | start hp =>
    rw [hp.content_eq]
    exact ⟨hp, fun i hi => absurd hi Bool.false_ne_true, always_nil⟩
  | @alloc tr c c' answer _ hexec ih =>
    obtain ⟨hp, hbits, halways⟩ := ih
    obtain ⟨answer', c₁, d', hexec', hp', hanswer⟩ := alloc_returns bm hp
    obtain ⟨rfl, rfl⟩ := Prod.mk.inj (Except.ok.inj (hexec'.symm.trans hexec))
    rw [hp'.content_eq]
    rcases hanswer with ⟨rfl, rfl, -⟩ | ⟨i, rfl, hfirst, honly⟩
    · refine ⟨hp', fun j hj => ?_, always_concat.mpr ⟨halways, trivial⟩⟩
      rw [handedOut_concat] at hj
      exact hbits j hj
    · have hfree : handedOut i tr = false := by
        by_contra hout
        have hset := hbits i (by simpa using hout)
        exact absurd (hset.symm.trans hfirst.2.1) (by simp)
      refine ⟨hp', fun j hj => ?_, always_concat.mpr ⟨halways, hfree⟩⟩
      by_cases hji : j = i
      · rw [hji]
        exact honly.self
      · rw [honly.other j hji]
        rw [handedOut_concat] at hj
        exact hbits j (by simpa [BitmapEvent.record, Ne.symm hji] using hj)
  | @dealloc tr c c' bit _ hbit hexec ih =>
    obtain ⟨hp, hbits, halways⟩ := ih
    obtain ⟨d', hp', -, honly⟩ := dealloc_ok hp hbit hexec
    rw [hp'.content_eq]
    refine ⟨hp', fun j hj => ?_, always_concat.mpr ⟨halways, trivial⟩⟩
    rw [handedOut_concat] at hj
    obtain ⟨hout, hne⟩ : handedOut j tr = true ∧ bit ≠ j := by simpa [BitmapEvent.record] using hj
    rw [honly.other j hne.symm]
    exact hbits j hout

end Bitmap

open Bitmap

/-- **A bitmap is exact.**  In every run, `alloc` returns the first clear index and sets its bit, or finds
none and changes nothing iff all are set; `dealloc` clears the bit if it is set, and otherwise fails its
assertion; and an index that is handed out is not handed out again before it is given back. -/
theorem bitmap_exact {bm : Bitmap} {d : Disk} {tr : List BitmapEvent} {c : CacheState} (h : bm.Run d tr c) :
    (∃ answer c', exec cacheMachine bm.alloc c = .ok (answer, c') ∧
      ((answer = none ∧ c'.content = c.content) ↔ ∀ j, j < bm.maximum → bm.bit c.content j = true) ∧
      ∀ i, answer = some i → bm.FirstClear c.content i ∧ bm.Only c.content c'.content i true) ∧
    (∀ i, i < bm.maximum →
      (bm.bit c.content i = true → ∃ c', exec cacheMachine (bm.dealloc i) c = .ok ((), c') ∧
        bm.Only c.content c'.content i false) ∧
      (bm.bit c.content i = false → exec cacheMachine (bm.dealloc i) c = .error (.panic .assertion))) ∧
    Always HandsOutFree tr := by
  obtain ⟨hp, -, halways⟩ := h.tracks
  refine ⟨?_, ?_, halways⟩
  · obtain ⟨answer, c', d', hexec, hp', hanswer⟩ := alloc_returns bm hp
    refine ⟨answer, c', hexec, ?_⟩
    rw [hp'.content_eq]
    rcases hanswer with ⟨rfl, rfl, hall⟩ | ⟨i, rfl, hfirst, honly⟩
    · exact ⟨⟨fun _ => hall, fun _ => ⟨rfl, rfl⟩⟩, fun i hi => by cases hi⟩
    · refine ⟨⟨fun hno => (by cases hno.1), fun hall => ?_⟩, fun j hj => Option.some.inj hj ▸ ⟨hfirst, honly⟩⟩
      exact absurd ((hall i hfirst.1).symm.trans hfirst.2.1) (by simp)
  · intro i hi
    obtain ⟨hset, hclear⟩ := dealloc_returns_iff bm hp i
    refine ⟨fun hbit => ?_, hclear⟩
    obtain ⟨c', hexec⟩ := hset hbit
    obtain ⟨d', hp', -, honly⟩ := dealloc_ok hp hi hexec
    exact ⟨c', hexec, by rwa [hp'.content_eq]⟩

/-- Two indices are handed out and the first is given back; the next answer is the first again. -/
theorem bitmap_exact_reuse : ∃ c,
    Bitmap.Run ⟨3, 1⟩ (fun _ => Block.zero) [.alloc (some 0), .alloc (some 1), .dealloc 0] c ∧
    ∃ c', exec cacheMachine (Bitmap.alloc ⟨3, 1⟩) c = .ok (some 0, c') ∧
      Bitmap.FirstClear ⟨3, 1⟩ c.content 0 ∧ Bitmap.Only ⟨3, 1⟩ c.content c'.content 0 true := by
  obtain ⟨c₁, h₁, hp₁⟩ := exec_of_outcome (p := Bitmap.alloc ⟨3, 1⟩) (a := some 0)
    (presents_init fun _ => Block.zero) (by decide +kernel)
  obtain ⟨c₂, h₂, hp₂⟩ := exec_of_outcome (p := Bitmap.alloc ⟨3, 1⟩) (a := some 1) hp₁ (by decide +kernel)
  obtain ⟨c₃, h₃, hp₃⟩ := exec_of_outcome (p := Bitmap.dealloc ⟨3, 1⟩ 0) (a := ()) hp₂ (by decide +kernel)
  obtain ⟨c₄, h₄, -⟩ := exec_of_outcome (p := Bitmap.alloc ⟨3, 1⟩) (a := some 0) hp₃ (by decide +kernel)
  have hrun : Bitmap.Run ⟨3, 1⟩ (fun _ => Block.zero) [.alloc (some 0), .alloc (some 1), .dealloc 0] c₃ :=
    .dealloc (.alloc (.alloc (.start (presents_init _)) h₁) h₂) (by decide) h₃
  obtain ⟨⟨answer, c', hexec, -, hanswer⟩, -⟩ := bitmap_exact hrun
  obtain ⟨rfl, rfl⟩ : some 0 = answer ∧ c₄ = c' := by simpa using h₄.symm.trans hexec
  exact ⟨c₃, hrun, c₄, h₄, hanswer 0 rfl⟩

end LemonCore.EasyFs
