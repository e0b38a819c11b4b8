import QemuStm32.Qed.Control

/-!
# Errors of file operations

Two callbacks do not look at the result they are called with: `qed_aio_write_prefill`,
which follows a header write, and `qed_aio_write_flush_before_l2_update`, which follows
the data write of an allocating write to an image with a backing file. Every other
error is handed on until the request completes with it.
-/

namespace QemuStm32.Qed

open Runs

/-- No operation of a request fails whose callback does not look at the result. -/
def Noticed (s : State) : Event → Prop
  | .finish i errno => errno ≠ 0 → ∀ op ∈ s.ops[i]?, op.cb.acb.isSome → op.cb.notices = true
  | _ => True

instance (s : State) : ∀ e : Event, Decidable (Noticed s e)
  | .finish _ _ => inferInstanceAs (Decidable (_ → _))
  | .start _ _ _ | .tick _ | .perform _ | .timer => .isTrue trivial

/-- A request with a failed operation never completes with zero, and has completed when no
callback is left to run at once. -/
def Reported (s : State) : Prop :=
  ∀ acb ∈ s.failed, (∀ ret, (acb, ret) ∈ s.completed → ret ≠ 0) ∧
    (s.call = none → ∃ ret, (acb, ret) ∈ s.completed)

/-- The error of a request is on its way. -/
def Hands (s : State) (acb : Nat) : Prop :=
  ∃ cb ret, s.call = some (cb, ret) ∧ cb.acb = some acb ∧ ret < 0 ∧ cb.notices = true

def Told (s : State) : Prop :=
  ∀ acb ∈ s.failed, (∃ ret < 0, (acb, ret) ∈ s.completed) ∨ Hands s acb

/-- What a callback does to the history: completed requests stay so, and a failure, new or
handed to the callback, ends its request or is on its way. -/
structure Goes (cb : Callback) (ret : Int) (s s' : State) : Prop where
  completed : s.completed ⊆ s'.completed
  failed : ∀ acb ∈ s'.failed, acb ∈ s.failed ∨ Hands s' acb
  heeded : ∀ acb, Heeded cb ret → cb.acb = some acb → (acb, ret) ∈ s'.completed ∨ Hands s' acb

section
variable {s s' : State} {im : Image} {length ret : Int} {acb : Nat} {cb : Callback}

/-- The history does not change, and no error is handed to the callback. -/
theorem Goes.of_eq (completed : s'.completed = s.completed) (failed : s'.failed = s.failed)
    (fine : ¬ Heeded cb ret) : Goes cb ret s s' :=
  ⟨fun _ h => completed ▸ h, fun _ h => .inl (failed ▸ h), fun _ heeded => absurd heeded fine⟩

theorem Goes.trans_eq {t : State} (h : Goes cb ret t s') (completed : t.completed = s.completed)
    (failed : t.failed = s.failed) : Goes cb ret s s' :=
  ⟨completed ▸ h.completed, failed ▸ h.failed, h.heeded⟩

theorem Follows.history (h : Follows cb ret s s') : Goes cb ret s s' := by
  induction h with
  | data rest same ih => exact ih.trans_eq (congrArg Schedule.completed same.schedule) same.failed
  | @goes s cb' r of plugs told =>
    refine ⟨fun _ h => h, fun _ h => .inl h, fun acb heeded own => .inr ?_⟩
    obtain ⟨rfl, notices⟩ := told heeded
    exact ⟨cb', r, rfl, of.trans own, heeded.1, notices⟩
  | submits of plugs fine => exact .of_eq rfl rfl fine
  | @fails s cb' r of plugs notices negative fine =>
    refine ⟨fun _ h => h, fun acb mem => ?_, fun _ heeded => absurd heeded fine⟩
    refine (List.mem_append.mp mem).imp_right fun mem => ?_
    exact ⟨cb', r, rfl, Option.mem_toList.mp mem, negative, notices⟩
  | @completes s acb r of told =>
    obtain ⟨queue, timer, frozen, call, eq⟩ := qedAioComplete_eq s acb r
    rw [eq]
    refine ⟨List.subset_append_left _ _, fun _ h => .inl h, fun acb' heeded own => .inl ?_⟩
    obtain rfl := told heeded
    obtain rfl := Option.some.inj (of.symm.trans own)
    exact List.mem_append_right _ List.mem_cons_self
  | @waits s acb of fine blocked =>
    obtain ⟨-, -, completed, failed⟩ := enqueue_frame s acb
    exact .of_eq completed failed fine
  | @enters s u acb of free rest ih =>
    obtain ⟨-, -, completed, failed⟩ := enqueue_frame s acb
    exact ih.trans_eq completed failed
  | idles none plain rest ih => exact ih.trans_eq rfl rfl
  | @unplugs s u none plugs done =>
    unfold qedUnplugAllocatingWriteReqs at done
    split at done
    · obtain ⟨frozen, call, eq⟩ := restartFirst_eq { s with allocatingWriteReqsPlugged := false }
      rw [eq] at done
      cases done
      exact .of_eq rfl rfl fun heeded => heeded.2.2 none
    · cases done
  | ends none => exact .of_eq rfl rfl fun heeded => heeded.2.2 none

/-- Every step keeps the failures on their way to the end of the request. -/
theorem step_told (told : Told s) {e : Event} (noticed : Noticed s e)
    (stepped : step im s e = .ok s') : Told s' := by
  have settled : s.call = none → ∀ acb ∈ s.failed, ∃ ret < 0, (acb, ret) ∈ s.completed := by
    intro idle acb mem
    refine (told acb mem).resolve_right ?_
    rintro ⟨cb, ret, call, -⟩
    cases idle.symm.trans call
  cases e with
  | start isWrite sectorNum nbSectors =>
    simp only [step] at stepped
    split at stepped <;> cases stepped
    · next possible => exact fun acb mem => .inl (settled possible.1 acb mem)
    · exact told
  | tick length =>
    simp only [step] at stepped
    split at stepped
    · next cb ret call =>
      have goes := (follows_invoke stepped).history
      intro acb mem
      rcases goes.failed acb mem with mem | hands
      · rcases told acb mem with ⟨r, error, done⟩ | ⟨cb', ret', call', of, error, notices⟩
        · exact .inl ⟨r, error, goes.completed done⟩
        · cases call.symm.trans call'
          rcases goes.heeded acb ⟨error, notices, by simp [of]⟩ of with done | hands
          · exact .inl ⟨ret, error, done⟩
          · exact .inr hands
      · exact .inr hands
    · cases stepped
      exact told
  | perform i =>
    simp only [step] at stepped
    split at stepped <;> cases stepped <;> exact told
  | finish i errno =>
    simp only [step] at stepped
    split at stepped
    · next op at_i =>
      split at stepped
      · next possible =>
        cases stepped
        have settled := settled possible.1
        unfold finishOp Op.deliver
        split
        · intro acb mem
          refine .inl ?_
          split at mem <;> exact settled acb mem
        · next failed =>
          intro acb mem
          rcases List.mem_append.mp mem with mem | mem
          · exact .inl (settled acb mem)
          · have of := Option.mem_toList.mp mem
            have notices := noticed failed op at_i (by simp [Option.mem_def.mp of])
            exact .inr ⟨op.cb, -errno, rfl, of, by omega, notices⟩
      · cases stepped
        exact told
    · cases stepped
      exact told
  | timer =>
    simp only [step] at stepped
    split at stepped
    · next possible =>
      unfold qedNeedCheckTimerCb qedPlugAllocatingWriteReqs at stepped
      split at stepped
      · split at stepped <;> cases stepped
        exact fun acb mem => .inl (settled possible.1 acb mem)
      · cases stepped
    · cases stepped
      exact told

/-- A request is complete once, so a failure that has been told is the only result. -/
theorem Told.reported (told : Told s) (ordered : Ordered s) : Reported s := by
  have nodup : (s.completed.map Prod.fst).Nodup := (List.nodup_append.mp ordered.nodup).2.1
  intro acb mem
  constructor
  · intro ret done zero
    rcases told acb mem with ⟨r, error, other⟩ | ⟨cb, r, call, of, -⟩
    · have same : (acb, r) = (acb, ret) := List.inj_on_of_nodup_map nodup other done rfl
      cases same
      omega
    · have running := (inOrder_cons_some of).mp (inOrder_called ordered call)
      exact running.alone.2 (List.mem_map_of_mem done)
  · intro idle
    rcases told acb mem with ⟨r, -, done⟩ | ⟨cb, r, call, -⟩
    · exact ⟨r, done⟩
    · cases idle.symm.trans call

end

/-- If no header write and no data write before a flush fails, a request with a failed
operation completes with an error. -/
theorem failures_reported (im : Image) (fileSize : Nat) (needCheck : Bool)
    (file : Place → Table) (events : List Event)
    (noticed : StepsMeet (step im) Noticed (opened fileSize needCheck file) events) :
    Always (step im) Reported (opened fileSize needCheck file) events := by
  have kept : Always (step im) (fun s => Ordered s ∧ Told s) (opened fileSize needCheck file)
      events := by
    refine always_of_stepsMeet (fun s e t h meets stepped => ?_)
      ⟨opened_ordered fileSize needCheck file, nofun⟩ noticed
    exact ⟨step_ordered h.1 stepped, step_told h.2 meets stepped⟩
  exact kept.mono fun _ h => h.2.reported h.1

/-- An empty image of one megabyte with clusters of four kilobytes. -/
def megabyte (backing : Bool) : Image where
  clusterSize := 4096
  tableSize := 2
  headerSize := 1
  imageSize := 1048576
  backing := backing
  clusterSizeValid := ⟨12, by decide⟩
  tableSizeValid := ⟨1, by decide⟩
  imageSizeValid := by decide

def openedMegabyte : State := opened 12288 false fun _ _ => 0

/-- The first write of a cluster; the data write fails. -/
def failedDataWrite : List Event :=
  [.start true 0 8, .tick 0, .finish 0 0, .tick 0, .finish 0 0, .tick 0, .tick 0, .tick 0, .tick 0,
    .finish 0 5, .tick 0]

/-- Without a backing file the error of a data write is the result of the request. -/
theorem failed_data_write_reported :
    StepsMeet (step (megabyte false)) Noticed openedMegabyte failedDataWrite ∧
      Always (step (megabyte false)) Reported openedMegabyte failedDataWrite ∧
      ∃ s, run (step (megabyte false)) openedMegabyte failedDataWrite = .ok s ∧
        s.failed = [0] ∧ s.completed = [(0, -5)] := by
  have noticed : StepsMeet (step (megabyte false)) Noticed openedMegabyte failedDataWrite := by
    decide +kernel
  exact ⟨noticed, failures_reported _ _ _ _ _ noticed, exists_of_observed_pair (by decide +kernel)⟩

/-- The table updates at the end of an allocating write that makes a new L2 table. -/
def tableUpdates : List Event :=
  [.tick 0, .perform 0, .finish 0 0, .tick 0, .finish 0 0, .tick 0, .tick 0, .perform 0,
    .finish 0 0, .tick 0, .tick 0, .tick 0]

/-- The read of the header for the need-check bit fails. -/
def failedHeader : List Event :=
  [.start true 0 8, .tick 0, .finish 0 5, .tick 0, .tick 0, .tick 0, .tick 0, .finish 0 0] ++
    tableUpdates

/-- The data write fails in an image with a backing file. -/
def failedBackedWrite : List Event :=
  [.start true 0 8, .tick 0, .tick 0, .tick 0, .tick 0, .finish 0 5, .tick 0, .finish 0 0] ++
    tableUpdates

/-- Both requests complete with zero. -/
theorem failures_lost :
    (∃ s, run (step (megabyte false)) openedMegabyte failedHeader = .ok s ∧
      s.failed = [0] ∧ s.completed = [(0, 0)]) ∧
    ∃ s, run (step (megabyte true)) openedMegabyte failedBackedWrite = .ok s ∧
      s.failed = [0] ∧ s.completed = [(0, 0)] :=
  ⟨exists_of_observed_pair (by decide +kernel), exists_of_observed_pair (by decide +kernel)⟩

end QemuStm32.Qed
