import Mathlib

/-!
# A family of queues that holds each element at most once

A scheduler keeps every task in one of many queues.  `Spread Q S` says that each element of `S` occurs
exactly once in the whole family `Q`, and no other element occurs at all.

* `Spread.push`: an element outside `S` may be put into any queue, and joins `S`;
* `Spread.remove`: an element taken out of a queue leaves `S`;
* `Spread.move`, `Spread.moveAll`: an element or a whole queue that is put into another queue changes
  nothing.
-/

namespace LemonCore.Foundation.QueueFamily

variable {P α : Type} [DecidableEq P] [DecidableEq α]

/-- `a` occurs in no queue of the family. -/
def Nowhere (Q : P → List α) (a : α) : Prop := ∀ q, (Q q).count a = 0

/-- `a` occurs in exactly one queue of the family, and there once. -/
def Once (Q : P → List α) (a : α) : Prop := ∃ p, ∀ q, (Q q).count a = if q = p then 1 else 0

/-- The elements of `S` occur once, the others nowhere. -/
def Spread (Q : P → List α) (S : α → Prop) : Prop :=
  ∀ a, (S a → Once Q a) ∧ (¬ S a → Nowhere Q a)

/-- `a` put at the end of the queue `p`. -/
def push (Q : P → List α) (p : P) (a : α) : P → List α := Function.update Q p (Q p ++ [a])

theorem count_push (Q : P → List α) (p : P) (a b : α) (q : P) :
    (push Q p a q).count b = (Q q).count b + if q = p ∧ b = a then 1 else 0 := by
  by_cases hq : q = p
  · subst hq
    by_cases hb : b = a
    · simp [push, hb]
    · simp [push, hb, Ne.symm hb]
  · simp [push, hq]

theorem count_remove {Q : P → List α} {p : P} {a : α} {l r : List α} (h : Q p = l ++ a :: r) (b : α)
    (q : P) : (Q q).count b =
      (Function.update Q p (l ++ r) q).count b + if q = p ∧ b = a then 1 else 0 := by
  by_cases hq : q = p
  · subst hq
    by_cases hb : b = a
    · subst hb
      simp [h]
      omega
    · simp [h, hb, Ne.symm hb]
  · simp [hq]

omit [DecidableEq P] in
theorem Nowhere.not_mem {Q : P → List α} {a : α} (h : Nowhere Q a) (q : P) : a ∉ Q q :=
  List.count_eq_zero.mp (h q)

theorem Once.count_le {Q : P → List α} {a : α} (h : Once Q a) (q : P) : (Q q).count a ≤ 1 := by
  obtain ⟨p, hp⟩ := h
  rw [hp q]
  split <;> omega

theorem nowhere_push {Q : P → List α} {p : P} {a b : α} (hne : b ≠ a) (h : Nowhere Q b) :
    Nowhere (push Q p a) b := by
  intro q
  rw [count_push, h q, if_neg (fun hx => hne hx.2)]

theorem once_push {Q : P → List α} {p : P} {a b : α} (hne : b ≠ a) (h : Once Q b) :
    Once (push Q p a) b := by
  obtain ⟨p', hp'⟩ := h
  refine ⟨p', fun q => ?_⟩
  rw [count_push, hp' q, if_neg (c := q = p ∧ b = a) (fun hx => hne hx.2), Nat.add_zero]

theorem once_push_self {Q : P → List α} (p : P) {a : α} (h : Nowhere Q a) : Once (push Q p a) a := by
  refine ⟨p, fun q => ?_⟩
  rw [count_push, h q, Nat.zero_add]
  simp

variable {Q : P → List α} {S : α → Prop}

namespace Spread

theorem once (h : Spread Q S) {a : α} (ha : S a) : Once Q a := (h a).1 ha

theorem nowhere (h : Spread Q S) {a : α} (ha : ¬ S a) : Nowhere Q a := (h a).2 ha

theorem of_mem (h : Spread Q S) {a : α} {p : P} (ha : a ∈ Q p) : S a := by
  by_contra hS
  exact (h.nowhere hS).not_mem p ha

theorem nodup (h : Spread Q S) (p : P) : (Q p).Nodup := by
  rw [List.nodup_iff_count_le_one]
  intro a
  by_cases ha : S a
  · exact (h.once ha).count_le p
  · rw [h.nowhere ha p]
    omega

theorem eq_of_mem (h : Spread Q S) {a : α} {p q : P} (hp : a ∈ Q p) (hq : a ∈ Q q) : p = q := by
  obtain ⟨r, hr⟩ := h.once (h.of_mem hp)
  have hp' := List.count_pos_iff.mpr hp
  have hq' := List.count_pos_iff.mpr hq
  rw [hr p] at hp'
  rw [hr q] at hq'
  by_cases hpr : p = r
  · by_cases hqr : q = r
    · rw [hpr, hqr]
    · rw [if_neg hqr] at hq'
      omega
  · rw [if_neg hpr] at hp'
    omega

theorem congr {S' : α → Prop} (h : Spread Q S) (hS : ∀ a, S' a ↔ S a) : Spread Q S' := by
  intro a
  rw [hS a]
  exact h a

theorem push (h : Spread Q S) (p : P) {a : α} (ha : ¬ S a) :
    Spread (QueueFamily.push Q p a) (fun b => S b ∨ b = a) := by
  intro b
  by_cases hb : b = a
  · subst hb
    exact ⟨fun _ => once_push_self p (h.nowhere ha), fun hno => absurd (Or.inr rfl) hno⟩
  · constructor
    · intro hS
      exact once_push hb (h.once (hS.resolve_right hb))
    · intro hS
      exact nowhere_push hb (h.nowhere fun hx => hS (Or.inl hx))

theorem remove (h : Spread Q S) {p : P} {a : α} {l r : List α} (heq : Q p = l ++ a :: r) :
    Spread (Function.update Q p (l ++ r)) (fun b => S b ∧ b ≠ a) := by
  have ha : S a := h.of_mem (p := p) (by rw [heq]; simp)
  intro b
  by_cases hb : b = a
  · subst hb
    refine ⟨fun hS => absurd rfl hS.2, fun _ q => ?_⟩
    -- the only place of the element is the one it was taken from
    obtain ⟨p', hp'⟩ := h.once ha
    have hpp : p' = p := by
      by_contra hne
      have hzero := hp' p
      rw [if_neg (Ne.symm hne), heq] at hzero
      simp at hzero
    have hcount := count_remove heq b q
    rw [hp' q, hpp] at hcount
    simp only [and_true] at hcount
    omega
  · have hkeep : ∀ q, (Function.update Q p (l ++ r) q).count b = (Q q).count b := by
      intro q
      rw [count_remove heq b q, if_neg (fun hx => hb hx.2), Nat.add_zero]
    constructor
    · intro hS
      obtain ⟨p', hp'⟩ := h.once hS.1
      exact ⟨p', fun q => by rw [hkeep q, hp' q]⟩
    · intro hS q
      rw [hkeep q]
      exact h.nowhere (fun hx => hS ⟨hx, hb⟩) q

/-- An element taken out of one queue and put into another. -/
theorem move (h : Spread Q S) {p p' : P} {a : α} {l r : List α} (heq : Q p = l ++ a :: r) :
    Spread (QueueFamily.push (Function.update Q p (l ++ r)) p' a) S := by
  have ha : S a := h.of_mem (p := p) (by rw [heq]; simp)
  refine ((h.remove heq).push p' (a := a) (fun hx => hx.2 rfl)).congr fun b => ?_
  by_cases hb : b = a
  · simp [hb, ha]
  · simp [hb]

theorem moveAll {p p' : P} (hne : p ≠ p') (cs : List α) : ∀ {Q : P → List α}, Spread Q S → Q p = cs →
    Spread (Function.update (Function.update Q p []) p' (Q p' ++ cs)) S := by
  induction cs with
  | nil =>
    intro Q h hp
    have hsame : Function.update (Function.update Q p []) p' (Q p' ++ []) = Q := by
      rw [← hp, Function.update_eq_self, hp, List.append_nil, Function.update_eq_self]
    rw [hsame]
    exact h
  | cons c cs ih =>
    intro Q h hp
    have hmoved : Spread (QueueFamily.push (Function.update Q p ([] ++ cs)) p' c) S := h.move hp
    have hrest := ih hmoved (by simp [QueueFamily.push, hne])
    convert hrest using 1
    funext q
    by_cases hq' : q = p'
    · simp [hq', QueueFamily.push, Ne.symm hne]
    · by_cases hq : q = p
      · simp [hq, hne]
      · simp [hq', hq, QueueFamily.push]

end Spread

/-- Queues that are disjoint lists of `S` in one place only: the start of a run. -/
theorem spread_single {l : List α} (hl : l.Nodup) (p : P) (hp : Q p = l) (hother : ∀ q, q ≠ p → Q q = []) :
    Spread Q (fun a => a ∈ l) := by
  have hcount : ∀ a q, (Q q).count a = if q = p then l.count a else 0 := by
    intro a q
    by_cases hq : q = p
    · rw [if_pos hq, hq, hp]
    · rw [if_neg hq, hother q hq, List.count_nil]
  intro a
  constructor
  · intro ha
    exact ⟨p, fun q => by rw [hcount, List.count_eq_one_of_mem hl ha]⟩
  · intro ha q
    rw [hcount, List.count_eq_zero.mpr ha]
    simp

end LemonCore.Foundation.QueueFamily
