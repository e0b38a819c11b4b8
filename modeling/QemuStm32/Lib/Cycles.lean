import Mathlib

/-!
# Sweeping over a cycle

A cursor goes around a list of places, from each to the next and from the last to the
first, until it finds what it looks for or is back where it started.

* `Cycle`: the places of a list follow each other;
* `Cycle.sweep`: the cursor finds a place that is looked for if there is one.
-/

namespace QemuStm32.Cycles

open List

universe u

variable {α : Type u}

/-- Goes on from `p` until a place is a hit, or the next one is where it is `back`; `none` if
that takes more than `n` places. -/
def sweep (next : α → α) (hit back : α → Bool) : Nat → α → Option (α × Bool)
  | 0, _ => none
  | n + 1, p =>
    if hit p then some (p, true)
    else if back (next p) then some (next p, false)
    else sweep next hit back n (next p)

/-- Behind each place of the list comes the next one, and behind the last one the first. -/
def Cycle (next : α → α) (l : List α) : Prop :=
  ∀ a p b, l = a ++ p :: b → (b ++ a ++ [p]).head? = some (next p)

variable {next : α → α} {p home : α} {l a b : List α} {n : Nat}

theorem Cycle.rotate (h : Cycle next (p :: l)) : Cycle next (l ++ [p]) := by
  intro a q b split
  obtain rfl | ⟨b', last, rfl⟩ := eq_nil_or_concat b
  · obtain ⟨rfl, same⟩ := append_inj' split rfl
    cases same
    simpa using h [] p l rfl
  · rw [concat_eq_append, ← cons_append, ← append_assoc] at split
    obtain ⟨rfl, same⟩ := append_inj' split rfl
    cases same
    simpa using h (p :: a) q b' rfl

theorem Cycle.rotate_append (h : Cycle next (a ++ b)) : Cycle next (b ++ a) := by
  induction a generalizing b with
  | nil => simpa using h
  | cons p a ih =>
    have turned : Cycle next (a ++ b ++ [p]) := h.rotate
    rw [append_assoc] at turned
    simpa using ih turned

/-- A sweep that has passed the places of `a` without a hit. -/
theorem Cycle.sweep_from (cycle : Cycle next l) (hit back : α → Bool) (split : l = a ++ p :: b)
    (first : l.head? = some home) (nodup : l.Nodup)
    (backHome : ∀ q ∈ l, (back q = true ↔ q = home)) (enough : b.length < n) :
    Cycles.sweep next hit back n p =
      match (p :: b).find? hit with
      | some q => some (q, true)
      | none => some (home, false) := by
  induction b generalizing a p n with
  | nil =>
    obtain ⟨n, rfl⟩ := Nat.exists_eq_succ_of_ne_zero (Nat.ne_zero_of_lt enough)
    have turn : next p = home := by
      have behind := cycle a p [] split
      rw [nil_append, ← split, first] at behind
      exact (Option.some.inj behind).symm
    have homeMem : home ∈ l := mem_of_head? first
    unfold Cycles.sweep
    cases found : hit p with
    | true => simp [found]
    | false => simp [found, turn, (backHome home homeMem).mpr rfl]
  | cons q b ih =>
    obtain ⟨n, rfl⟩ := Nat.exists_eq_succ_of_ne_zero (Nat.ne_zero_of_lt enough)
    have goes : next p = q := by
      have behind := cycle a p (q :: b) split
      exact (Option.some.inj behind).symm
    have away : back q = false := by
      rw [Bool.eq_false_iff]
      intro isBack
      have mem : q ∈ l := by simp [split]
      obtain rfl := (backHome q mem).mp isBack
      -- the first place of the list is before `q`
      rw [split] at first nodup
      cases a with
      | nil | cons r a =>
        cases first
        simp at nodup
    unfold Cycles.sweep
    cases found : hit p with
    | true => simp [found]
    | false =>
      have rest := ih (a := a ++ [p]) (p := q) (by simp [split]) (Nat.lt_of_succ_lt_succ enough)
      rw [find?_cons_of_neg (by simp [found])]
      simpa [goes, away] using rest

/-- The cursor finds a place that is looked for, or goes around once and there is none. -/
theorem Cycle.sweep (cycle : Cycle next l) (hit back : α → Bool) (mem : home ∈ l)
    (nodup : l.Nodup) (backHome : ∀ q ∈ l, (back q = true ↔ q = home)) (enough : l.length ≤ n) :
    (∃ q ∈ l, hit q = true ∧ Cycles.sweep next hit back n home = some (q, true)) ∨
      ((∀ q ∈ l, hit q = false) ∧ Cycles.sweep next hit back n home = some (home, false)) := by
  obtain ⟨a, b, rfl⟩ := append_of_mem mem
  have perm : (home :: b ++ a).Perm (a ++ home :: b) := perm_append_comm
  have turned : Cycle next (home :: (b ++ a)) := cycle.rotate_append
  have short : (b ++ a).length < n := by
    rw [← perm.length_eq] at enough
    exact enough
  have swept := turned.sweep_from hit back (a := []) rfl rfl (perm.nodup_iff.mpr nodup)
    (fun q inside => backHome q (perm.mem_iff.mp inside)) short
  cases found : (home :: (b ++ a)).find? hit with
  | some q =>
    rw [found] at swept
    exact .inl ⟨q, perm.mem_iff.mp (mem_of_find?_eq_some found), find?_some found, swept⟩
  | none =>
    rw [found] at swept
    refine .inr ⟨fun q inside => ?_, swept⟩
    have missed := find?_eq_none.mp found q (perm.mem_iff.mpr inside)
    simpa using missed

end QemuStm32.Cycles
