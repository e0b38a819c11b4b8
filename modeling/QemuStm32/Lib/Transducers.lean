import QemuStm32.Lib.Runs

/-!
# Transducers

A step function that may fault and that hands out a list of outputs at every
event. `feed` runs it over a list of events and joins the outputs.

* `feed_append_ok`: a run over two lists is two runs;
* `feed_related`: related states stay related, and so do the outputs.
-/

namespace QemuStm32.Transducers

open Runs

universe u

section
variable {State Output : Type u} {Event Fault : Type*}
variable {step : State → Event → Except Fault (State × List Output)}

/-- The state after the events in order with everything handed out on the way. -/
def feed (step : State → Event → Except Fault (State × List Output)) :
    State → List Event → Except Fault (State × List Output)
  | s, [] => .ok (s, [])
  | s, e :: es =>
    step s e >>= fun (t, out) => feed step t es >>= fun (u, rest) => .ok (u, out ++ rest)

@[simp] theorem feed_nil (s : State) : feed step s [] = .ok (s, []) := rfl

variable {s u : State} {es : List Event} {all : List Output}

theorem feed_cons_ok {e : Event} :
    feed step s (e :: es) = .ok (u, all) ↔
      ∃ t out rest, step s e = .ok (t, out) ∧ feed step t es = .ok (u, rest) ∧
        all = out ++ rest := by
  constructor
  · intro h
    obtain ⟨⟨t, out⟩, ht, h⟩ := bind_ok_iff.mp h
    obtain ⟨⟨v, rest⟩, hv, h⟩ := bind_ok_iff.mp h
    cases h
    exact ⟨t, out, rest, ht, hv, rfl⟩
  · rintro ⟨t, out, rest, ht, hu, rfl⟩
    exact bind_ok_iff.mpr ⟨(t, out), ht, bind_ok_iff.mpr ⟨(u, rest), hu, rfl⟩⟩

theorem feed_append_ok {fs : List Event} :
    feed step s (es ++ fs) = .ok (u, all) ↔
      ∃ t out rest, feed step s es = .ok (t, out) ∧ feed step t fs = .ok (u, rest) ∧
        all = out ++ rest := by
  induction es generalizing s all with
  | nil => simp
  | cons e es ih =>
    rw [List.cons_append, feed_cons_ok]
    constructor
    · rintro ⟨t, out, rest, ht, h, rfl⟩
      obtain ⟨v, out', rest', hv, hu, rfl⟩ := ih.mp h
      exact ⟨v, out ++ out', rest', feed_cons_ok.mpr ⟨t, out, out', ht, hv, rfl⟩, hu,
        (List.append_assoc _ _ _).symm⟩
    · rintro ⟨v, out, rest, h, hu, rfl⟩
      obtain ⟨t, out', rest', ht, hv, rfl⟩ := feed_cons_ok.mp h
      exact ⟨t, out', rest' ++ rest, ht, ih.mpr ⟨v, rest', rest, hv, hu, rfl⟩,
        List.append_assoc _ _ _⟩

/-- A step that never faults makes runs that never fault. -/
theorem feed_ok (total : ∀ s e, ∃ t out, step s e = .ok (t, out)) (s : State) (es : List Event) :
    ∃ t out, feed step s es = .ok (t, out) := by
  induction es generalizing s with
  | nil => exact ⟨s, [], rfl⟩
  | cons e es ih =>
    obtain ⟨t, out, ht⟩ := total s e
    obtain ⟨u, rest, hu⟩ := ih t
    exact ⟨u, out ++ rest, feed_cons_ok.mpr ⟨t, out, rest, ht, hu, rfl⟩⟩

/-- Steps that take related states to related states, with outputs that look
alike, make runs that do. -/
theorem feed_related {R : State → State → Prop} {View : Type*} {view : Output → View}
    (related : ∀ s s' e t out t' out', R s s' → step s e = .ok (t, out) →
      step s' e = .ok (t', out') → R t t' ∧ out.map view = out'.map view)
    {s s' t t' : State} {es : List Event} {out out' : List Output} (start : R s s')
    (h : feed step s es = .ok (t, out)) (h' : feed step s' es = .ok (t', out')) :
    R t t' ∧ out.map view = out'.map view := by
  induction es generalizing s s' out out' with
  | nil =>
    cases h
    cases h'
    exact ⟨start, rfl⟩
  | cons e es ih =>
    obtain ⟨u, o, rest, hu, hrest, rfl⟩ := feed_cons_ok.mp h
    obtain ⟨u', o', rest', hu', hrest', rfl⟩ := feed_cons_ok.mp h'
    obtain ⟨next, first⟩ := related s s' e u o u' o' start hu hu'
    obtain ⟨last, tail⟩ := ih next hrest hrest'
    exact ⟨last, by rw [List.map_append, List.map_append, first, tail]⟩

end

end QemuStm32.Transducers
