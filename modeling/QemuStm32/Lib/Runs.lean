import Mathlib

/-!
# Runs of a device model

A device is a step function that may fault. A run feeds it a list of events
and stops at the first fault.

* `Always`: a property of every state a run passes through;
* `StepsMeet`: a condition on every step, judged in the state before it;
* `always_of_keeps`: an invariant that each step keeps holds along the run;
* `always_iff_stepsMeet`: a condition that is exact for one step is exact for
  the whole run;
* `run_of_lockstep`: two devices that take the same steps have the same runs;
* `run_of_simulation`: one device follows the other in every run.
-/

namespace QemuStm32.Runs

open List

universe u

section
variable {State Event Fault : Type*} (step : State → Event → Except Fault State)

/-- The state after the events in order, or the first fault. -/
def run : State → List Event → Except Fault State
  | s, [] => .ok s
  | s, e :: es => step s e >>= fun t => run t es

/-- `P` holds in every state the run passes through, the first one included. -/
def Always (P : State → Prop) : State → List Event → Prop
  | s, [] => P s
  | s, e :: es => P s ∧ ∀ t, step s e = .ok t → Always P t es

/-- `C` holds of every event the run feeds to the device, together with the
state the device is in at that moment. -/
def StepsMeet (C : State → Event → Prop) : State → List Event → Prop
  | _, [] => True
  | s, e :: es => C s e ∧ ∀ t, step s e = .ok t → StepsMeet C t es

variable {step}

theorem bind_ok_iff {α β : Type u} {x : Except Fault α} {f : α → Except Fault β} {b : β} :
    (x >>= f) = .ok b ↔ ∃ a, x = .ok a ∧ f a = .ok b := by
  cases x with
  | error e | ok a => simp [Bind.bind, Except.bind]

theorem ok_bind {α β : Type u} (a : α) (f : α → Except Fault β) : ((.ok a) >>= f) = f a := rfl

section
variable {α β : Type u} {f : β → α → Except Fault β} {l : List α}

/-- A property that each step of a fallible fold keeps. -/
theorem foldlM_keeps {P : β → Prop} (keeps : ∀ b, ∀ a ∈ l, ∀ c, P b → f b a = .ok c → P c) {b c : β}
    (start : P b) (h : l.foldlM f b = .ok c) : P c := by
  induction l generalizing b with
  | nil =>
    cases h
    exact start
  | cons a l ih =>
    obtain ⟨d, hd, h⟩ := bind_ok_iff.mp h
    apply ih (fun b a' ha' => keeps b a' (.tail _ ha')) _ h
    exact keeps b a mem_cons_self d start hd

/-- A fallible fold whose steps all succeed is the fold of their results. -/
theorem foldlM_eq_ok {g : β → α → β}
    (total : ∀ b, ∀ a ∈ l, f b a = .ok (g b a)) (b : β) : l.foldlM f b = .ok (l.foldl g b) := by
  induction l generalizing b with
  | nil => rfl
  | cons a l ih =>
    rw [foldlM_cons, total b a mem_cons_self]
    exact ih (fun b c hc => total b c (.tail _ hc)) (g b a)

end

/-- A value observed of an outcome is observed of a state. -/
theorem exists_of_observed {α β : Type*} {x : Except Fault α} {f : α → β} {b : β}
    (h : x.toOption.map f = some b) : ∃ a, x = .ok a ∧ f a = b := by
  cases x with
  | error e => cases h
  | ok a => exact ⟨a, rfl, Option.some.inj h⟩

theorem exists_of_observed_pair {α β γ : Type*} {x : Except Fault α} {f : α → β} {g : α → γ}
    {b : β} {c : γ} (h : x.toOption.map (fun a => (f a, g a)) = some (b, c)) :
    ∃ a, x = .ok a ∧ f a = b ∧ g a = c := by
  obtain ⟨a, ok, seen⟩ := exists_of_observed h
  exact ⟨a, ok, Prod.mk.inj seen⟩

@[simp] theorem run_nil (s : State) : run step s [] = .ok s := rfl

variable {s t : State} {e : Event} {es : List Event} {C B : State → Event → Prop}
  {I A P : State → Prop}

theorem run_cons_ok :
    run step s (e :: es) = .ok t ↔ ∃ u, step s e = .ok u ∧ run step u es = .ok t :=
  bind_ok_iff

theorem StepsMeet.cons {u : State} (hu : step s e = .ok u) (hc : C s e)
    (rest : StepsMeet step C u es) : StepsMeet step C s (e :: es) := by
  refine ⟨hc, fun t ht => ?_⟩
  obtain rfl : u = t := Except.ok.inj (hu.symm.trans ht)
  exact rest

/-- A condition on the events alone joins a condition on the steps. -/
theorem StepsMeet.and_events {D : Event → Prop} (meet : StepsMeet step C s es)
    (all : ∀ e ∈ es, D e) : StepsMeet step (fun s e => C s e ∧ D e) s es := by
  induction es generalizing s with
  | nil => exact trivial
  | cons e es ih =>
    exact ⟨⟨meet.1, all e mem_cons_self⟩,
      fun t ht => ih (meet.2 t ht) fun f hf => all f (.tail _ hf)⟩

/-- A property of all states of a run is a property of the last state of each
of its prefixes. -/
theorem always_iff_prefix :
    Always step P s es ↔ ∀ pre, pre <+: es → ∀ t, run step s pre = .ok t → P t := by
  induction es generalizing s with
  | nil =>
    constructor
    · intro h pre hp t ht
      obtain rfl := prefix_nil.mp hp
      obtain rfl : s = t := by simpa using ht
      exact h
    · intro h; exact h [] (prefix_refl _) s rfl
  | cons e es ih =>
    constructor
    · rintro ⟨hs, hrest⟩ pre hp t ht
      cases pre with
      | nil =>
        obtain rfl : s = t := by simpa using ht
        exact hs
      | cons f pre =>
        obtain ⟨rfl, inner⟩ := cons_prefix_cons.mp hp
        obtain ⟨u, hu, ht⟩ := run_cons_ok.mp ht
        exact ih.mp (hrest u hu) pre inner t ht
    · intro h
      refine ⟨h [] nil_prefix s rfl, fun u hu => ih.mpr fun pre hp t ht => ?_⟩
      exact h (e :: pre) (cons_prefix_cons.mpr ⟨rfl, hp⟩) t (run_cons_ok.mpr ⟨u, hu, ht⟩)

theorem Always.final (h : Always step P s es) (ht : run step s es = .ok t) : P t :=
  always_iff_prefix.mp h es (prefix_refl _) t ht

theorem Always.mono {Q : State → Prop} (hPQ : ∀ s, P s → Q s) (h : Always step P s es) :
    Always step Q s es := by
  induction es generalizing s with
  | nil => exact hPQ s h
  | cons e es ih => exact ⟨hPQ s h.1, fun t ht => ih (h.2 t ht)⟩

theorem always_of_keeps (keeps : ∀ s e t, I s → step s e = .ok t → I t) (es : List Event)
    (start : I s) : Always step I s es := by
  induction es generalizing s with
  | nil => exact start
  | cons e es ih => exact ⟨start, fun t ht => ih (keeps s e t start ht)⟩

/-- Under an invariant kept by the steps that meet `C`, the weaker condition
`D` holds of every step as well. -/
theorem StepsMeet.weaken {D : State → Event → Prop}
    (keeps : ∀ s e t, I s → C s e → step s e = .ok t → I t) (weaker : ∀ s e, I s → C s e → D s e)
    (start : I s) (meet : StepsMeet step C s es) : StepsMeet step D s es := by
  induction es generalizing s with
  | nil => exact trivial
  | cons e es ih =>
    exact ⟨weaker s e start meet.1, fun t ht => ih (keeps s e t start meet.1 ht) (meet.2 t ht)⟩

/-- A condition that decides, from the state before a step, whether the step
keeps `P`, decides for a whole run whether `P` holds throughout. `B` is what is
assumed of every step, and `A` an invariant of the steps that meet it and keep `P`. -/
theorem always_iff_stepsMeet_along (keeps : ∀ s e t, A s → B s e → P t → step s e = .ok t → A t)
    (exact_step : ∀ s e, A s → B s e → P s → (C s e ↔ ∀ t, step s e = .ok t → P t)) (aux : A s)
    (start : P s) (assumed : StepsMeet step B s es) :
    Always step P s es ↔ StepsMeet step C s es := by
  induction es generalizing s with
  | nil => exact ⟨fun _ => trivial, fun _ => start⟩
  | cons e es ih =>
    obtain ⟨hb, assumed⟩ := assumed
    have rest : ∀ t, P t → step s e = .ok t → (Always step P t es ↔ StepsMeet step C t es) :=
      fun t next ht => ih (keeps s e t aux hb next ht) next (assumed t ht)
    constructor
    · rintro ⟨_, hrest⟩
      have next : ∀ t, step s e = .ok t → P t := by
        intro t ht
        cases es with
        | nil => exact hrest t ht
        | cons f fs => exact (hrest t ht).1
      exact ⟨(exact_step s e aux hb start).mpr next,
        fun t ht => (rest t (next t ht) ht).mp (hrest t ht)⟩
    · rintro ⟨hc, hrest⟩
      have next := (exact_step s e aux hb start).mp hc
      exact ⟨start, fun t ht => (rest t (next t ht) ht).mpr (hrest t ht)⟩

/-- The same where the invariant does not need `P`. -/
theorem always_iff_stepsMeet_of (keeps : ∀ s e t, A s → B s e → step s e = .ok t → A t)
    (exact_step : ∀ s e, A s → B s e → P s → (C s e ↔ ∀ t, step s e = .ok t → P t)) (aux : A s)
    (start : P s) (assumed : StepsMeet step B s es) : Always step P s es ↔ StepsMeet step C s es :=
  always_iff_stepsMeet_along (fun s e t ha hb _ ht => keeps s e t ha hb ht) exact_step aux start
    assumed

/-- A condition that can be decided for a step can be decided for a run. -/
instance StepsMeet.decidable {C : State → Event → Prop} [∀ s e, Decidable (C s e)] :
    ∀ (s : State) (es : List Event), Decidable (StepsMeet step C s es)
  | _, [] => inferInstanceAs (Decidable True)
  | s, e :: es =>
    match h : step s e with
    | .ok t =>
      have := StepsMeet.decidable (C := C) t es
      decidable_of_iff (C s e ∧ StepsMeet step C t es)
        ⟨fun ⟨hc, rest⟩ => .cons h hc rest, fun meet => ⟨meet.1, meet.2 t h⟩⟩
    | .error _ =>
      decidable_of_iff (C s e)
        ⟨fun hc => ⟨hc, fun t ht => by rw [h] at ht; cases ht⟩, fun meet => meet.1⟩

theorem StepsMeet.trivial (s : State) (es : List Event) :
    StepsMeet step (fun _ _ => True) s es := by
  induction es generalizing s with
  | nil => exact True.intro
  | cons e es ih => exact ⟨True.intro, fun t _ => ih t⟩

/-- The same where nothing is assumed of the steps. -/
theorem always_iff_stepsMeet (keeps : ∀ s e t, A s → step s e = .ok t → A t)
    (exact_step : ∀ s e, A s → P s → (C s e ↔ ∀ t, step s e = .ok t → P t)) (aux : A s)
    (start : P s) : Always step P s es ↔ StepsMeet step C s es :=
  always_iff_stepsMeet_of (fun s e t h _ ht => keeps s e t h ht)
    (fun s e h _ hp => exact_step s e h hp) aux start (.trivial s es)

/-- An invariant that the steps meeting `C` keep holds along a run of such steps. -/
theorem always_of_stepsMeet (keeps : ∀ s e t, I s → C s e → step s e = .ok t → I t) (start : I s)
    (meet : StepsMeet step C s es) : Always step I s es := by
  induction es generalizing s with
  | nil => exact start
  | cons e es ih => exact ⟨start, fun t ht => ih (keeps s e t start meet.1 ht) (meet.2 t ht)⟩

/-- Two devices that take the same steps from the states of `R`, as long as the
steps meet `C`, have the same runs. -/
theorem run_of_lockstep {step' : State → Event → Except Fault State} {R : State → Prop}
    (lock : ∀ s e t, R s → C s e → step s e = .ok t → step' s e = .ok t ∧ R t) (start : R s)
    (meet : StepsMeet step C s es) (h : run step s es = .ok t) : run step' s es = .ok t ∧ R t := by
  induction es generalizing s with
  | nil =>
    cases h
    exact ⟨rfl, start⟩
  | cons e es ih =>
    obtain ⟨u, hu, ht⟩ := run_cons_ok.mp h
    obtain ⟨hu', next⟩ := lock s e u start meet.1 hu
    obtain ⟨ran, last⟩ := ih next (meet.2 u hu) ht
    exact ⟨run_cons_ok.mpr ⟨u, hu', ran⟩, last⟩

/-- A relation that a step of the second device restores after each step of the first
holds at the ends of their runs. -/
theorem run_of_simulation {State' : Type*} {step' : State' → Event → Except Fault State'}
    {R : State → State' → Prop}
    (simulates : ∀ s s' e t, R s s' → step s e = .ok t → ∃ t', step' s' e = .ok t' ∧ R t t')
    {s' : State'} (start : R s s') (h : run step s es = .ok t) :
    ∃ t', run step' s' es = .ok t' ∧ R t t' := by
  induction es generalizing s s' with
  | nil =>
    cases h
    exact ⟨s', rfl, start⟩
  | cons e es ih =>
    obtain ⟨u, hu, ht⟩ := run_cons_ok.mp h
    obtain ⟨u', hu', next⟩ := simulates s s' e u start hu
    obtain ⟨t', ht', last⟩ := ih next ht
    exact ⟨t', run_cons_ok.mpr ⟨u', hu', ht'⟩, last⟩

end

end QemuStm32.Runs
