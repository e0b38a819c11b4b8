import QemuStm32.Tcg.Effects

/-!
# The optimized stream does what the original does

The optimizer emits one operation for each operation, so the two streams run in
lock step (`tcgConstantFolding_preserves`), as long as no operation overwrites the
representative of a ring whose next member has 32 bits while another needs all 64
(`SparesHalves`). `truncated_representative` is a stream where that happens. What is
known before each operation, its rings of copies included, is true under the same
condition (`copies_ringed`).
-/

namespace QemuStm32.Tcg

open List Runs

section
variable {World : Type} {host : Host World} {ctx : TCGContext} {h : HostShift}

/-- The round of the loop at one place of the stream, with what is known before it
and after it. -/
def RoundAt (host : Host World) (ctx : TCGContext) (temps temps' : Temps) (op op' : Op) : Prop :=
  (∀ label, op.defines label = true → temps' = .cleared) ∧
    ∀ (labels : Nat → Option Nat) (s t : Machine ctx World) (linked : Bool),
      Known ctx temps s.regs → Spares ctx s.regs (op.resets ctx) temps →
      execute host labels s linked op = .ok t →
      execute host labels s linked op' = .ok t ∧ Leads labels temps' s t

/-- What is known before the operation `i` of the stream. -/
def knownAt (h : HostShift) (ctx : TCGContext) : Nat → Temps → List Op → Except Fault Temps
  | 0, temps, _ | _ + 1, temps, [] => .ok temps
  | i + 1, temps, op :: ops => foldOp h ctx temps op >>= fun folded => knownAt h ctx i folded.1 ops

variable {temps : Temps} {label : Nat} {ops : List Op}

/-- After a label nothing is known. -/
theorem foldOp_label {temps' : Temps} {op op' : Op} (ok : foldOp h ctx temps op = .ok (temps', op'))
    (defines : op.defines label = true) : temps' = .cleared := by
  have opc : op.opc = .setLabel := of_decide_eq_true (Bool.and_eq_true_iff.mp defines).1
  unfold foldOp at ok
  rw [opc] at ok
  cases ok
  rfl

theorem labelIndex_some {i : Nat} (found : labelIndex ops label = some i) :
    ∃ op, ops[i]? = some op ∧ op.defines label = true := by
  obtain ⟨bound, defines, _⟩ := findIdx?_eq_some_iff_getElem.mp found
  exact ⟨ops[i], getElem?_eq_getElem bound, defines⟩

/-- The whole loop: every place of the stream has its round. -/
theorem foldOps_rounds (keeps : host.KeepsGlobals ctx) (wf : WellFormed ctx ops)
    (rotates : h.Masks ∨ ∀ op ∈ ops, op.opc.isRotate = false) (tracked : Tracked ctx temps) :
    ∃ ops', foldOps h ctx temps ops = .ok ops' ∧
      (∀ label, labelIndex ops' label = labelIndex ops label) ∧
      ∃ known : Nat → Temps, known 0 = temps ∧
        (∀ i, knownAt h ctx i temps ops = .ok (known i) ∧ Tracked ctx (known i)) ∧
        ∀ i op, ops[i]? = some op →
          ∃ op', ops'[i]? = some op' ∧ RoundAt host ctx (known i) (known (i + 1)) op op' := by
  induction ops generalizing temps with
  | nil =>
    refine ⟨[], rfl, fun _ => rfl, fun _ => temps, rfl, fun i => ⟨?_, tracked⟩, fun i op hi => ?_⟩
    · cases i <;> rfl
    · simp at hi
  | cons op ops ih =>
    obtain ⟨temps', op', ok, tracked', label, round⟩ := foldOp_round tracked keeps
      (wf op mem_cons_self) (rotates.imp_right fun all => all op mem_cons_self)
    obtain ⟨ops', oks, labels, known, start, points, rounds⟩ :=
      ih (fun o ho => wf o (.tail _ ho))
        (rotates.imp_right fun all o ho => all o (.tail _ ho)) tracked'
    refine ⟨op' :: ops', ?_, fun l => ?_, fun i => i.casesOn temps known, rfl, fun i => ?_,
      fun i o hi => ?_⟩
    · exact bind_ok_iff.mpr ⟨(temps', op'), ok, bind_ok_iff.mpr ⟨ops', oks, rfl⟩⟩
    · have rest := labels l
      unfold labelIndex at rest ⊢
      rw [findIdx?_cons, findIdx?_cons, label, rest]
    · cases i with
      | zero => exact ⟨rfl, tracked⟩
      | succ i => exact ⟨bind_ok_iff.mpr ⟨(temps', op'), ok, (points i).1⟩, (points i).2⟩
    · cases i with
      | zero =>
        obtain rfl : op = o := by simpa using hi
        refine ⟨op', rfl, fun l defines => ?_, ?_⟩
        · exact start.trans (foldOp_label ok defines)
        · change ∀ labels s t linked, Known ctx temps s.regs → _ → _ → _ ∧
            Leads labels (known 0) s t
          rw [start]
          exact round
      | succ i => exact rounds i o (by simpa using hi)

/-- The operation about to run resets no representative of a ring whose next member has
32 bits while another needs all 64. -/
def SparesHalves (h : HostShift) (ctx : TCGContext) (ops : List Op) (s : Machine ctx World)
    (_ : Bool) : Prop :=
  ∀ op ∈ ops[s.pc]?, ∀ temps ∈ (knownAt h ctx s.pc .cleared ops).toOption,
    Spares ctx s.regs (op.resets ctx) temps

instance (h : HostShift) (ctx : TCGContext) (ops : List Op) (s : Machine ctx World)
    (linked : Bool) : Decidable (SparesHalves h ctx ops s linked) :=
  inferInstanceAs (Decidable (∀ op ∈ ops[s.pc]?,
    ∀ temps ∈ (knownAt h ctx s.pc .cleared ops).toOption,
      Spares ctx s.regs (op.resets ctx) temps))

/-- The two streams run in lock step, and what is known is true. -/
theorem foldOps_lockstep (keeps : host.KeepsGlobals ctx) (wf : WellFormed ctx ops)
    (rotates : h.Masks ∨ ∀ op ∈ ops, op.opc.isRotate = false) :
    ∃ (ops' : List Op) (known : Nat → Temps), tcgConstantFolding h ctx ops = .ok ops' ∧
      (∀ i, knownAt h ctx i .cleared ops = .ok (known i) ∧ Tracked ctx (known i)) ∧
      ∀ (s t : Machine ctx World) (linked : List Bool), s.pc = 0 →
        StepsMeet (step host ops) (SparesHalves h ctx ops) s linked →
        run (step host ops) s linked = .ok t → run (step host ops') s linked = .ok t ∧
          (t.exit.isSome = true ∨ Known ctx (known t.pc) t.regs) := by
  obtain ⟨ops', ok, labels, known, start, points, rounds⟩ :=
    foldOps_rounds keeps wf rotates (cleared_tracked ctx)
  refine ⟨ops', known, ok, points, fun s t linked entry meet => ?_⟩
  apply run_of_lockstep
    (R := fun s => s.exit.isSome = true ∨ Known ctx (known s.pc) s.regs) _ _ meet
  · intro s e t sound spared stepped
    unfold step at stepped ⊢
    by_cases exited : s.exit.isSome = true
    · rw [if_pos exited] at stepped ⊢
      cases stepped
      exact ⟨rfl, .inl exited⟩
    rw [if_neg exited] at stepped ⊢
    split at stepped
    · cases stepped
    next op fetch =>
    obtain ⟨op', fetch', label, round⟩ := rounds s.pc op fetch
    rw [fetch', funext labels]
    obtain ⟨same, leads⟩ := round (labelIndex ops) s t e (sound.resolve_left exited)
      (spared op fetch _ (by rw [(points s.pc).1]; rfl)) stepped
    refine ⟨same, ?_⟩
    obtain exit | ⟨next, known'⟩ | ⟨l, i, found, next⟩ := leads
    · exact .inl exit
    · rw [next]
      exact .inr known'
    · obtain ⟨o, fetchLabel, defines⟩ := labelIndex_some found
      obtain ⟨_, _, cleared, _⟩ := rounds i o fetchLabel
      rw [next, cleared l defines]
      exact .inr (cleared_known t.regs)
  · right
    rw [entry, start]
    exact cleared_known s.regs

end

section
variable {World : Type} (host : Host World) (ctx : TCGContext) (h : HostShift) (ops : List Op)
  (wf : WellFormed ctx ops) (keeps : host.KeepsGlobals ctx)
  (rotates : h.Masks ∨ ∀ op ∈ ops, op.opc.isRotate = false)
include wf keeps rotates

/-- The optimizer returns, and every run of the stream it returns is the run of the
original stream: the same side effects in the same order, the same values in all
temporaries, the same exit. -/
theorem tcgConstantFolding_preserves :
    ∃ ops', tcgConstantFolding h ctx ops = .ok ops' ∧
      ∀ (s t : Machine ctx World) (linked : List Bool), s.pc = 0 →
        StepsMeet (step host ops) (SparesHalves h ctx ops) s linked →
        run (step host ops) s linked = .ok t → run (step host ops') s linked = .ok t := by
  obtain ⟨ops', _, ok, -, runs⟩ := foldOps_lockstep keeps wf rotates
  exact ⟨ops', ok, fun s t linked entry meet ran => (runs s t linked entry meet ran).1⟩

/-- Before every operation the copies are in disjoint rings, outside which are constants, unknown
temporaries and globals. Where a run comes to the operation, the members of a ring hold the value
of their representative, each as far as its type goes. -/
theorem copies_ringed (i : Nat) :
    ∃ temps, knownAt h ctx i .cleared ops = .ok temps ∧ Tracked ctx temps ∧
      (∀ r l, Circle ctx temps r l → ∀ a ∈ r :: l, Member temps a ∧ ctx.nbGlobals ≤ a ∧
        ∀ r' l', Circle ctx temps r' l' → a ∈ r' :: l' → r = r' ∧ l = l') ∧
      ∀ (s t : Machine ctx World) (linked : List Bool), s.pc = 0 →
        StepsMeet (step host ops) (SparesHalves h ctx ops) s linked →
        run (step host ops) s linked = .ok t → t.exit = none → t.pc = i →
        ∀ r l, Circle ctx temps r l → ∀ a ∈ r :: l,
          t.regs.read (ctx.type a) r = t.regs.value a := by
  obtain ⟨_, known, -, points, runs⟩ := foldOps_lockstep keeps wf rotates
  refine ⟨known i, (points i).1, (points i).2, fun r l circle a mem => ?_, ?_⟩
  · exact ⟨circle.member mem, (circle.bounds a mem).1,
      fun r' l' circle' mem' => circle.unique circle' mem mem'⟩
  rintro s t linked entry meet ran inside rfl r l circle a mem
  obtain exited | true := (runs s t linked entry meet ran).2
  · rw [inside] at exited
    cases exited
  · obtain rfl | mem := mem_cons.mp mem
    · exact read_own t.regs a
    · obtain ⟨copy, names⟩ := circle.copies a mem
      rw [← names, true.copy a copy _ id, read_own]

end

/-! ## A 32-bit representative -/

/-- A 64-bit global 0, two 64-bit temporaries 1 and 2, and a 32-bit temporary 3. -/
def truncCtx : TCGContext := ⟨1, 4, fun t => ⟨if t = 3 then .i32 else .i64, false⟩⟩

/-- The global is copied to 1, that to 2, and its low half to 3; 1 is overwritten and 2
is written back. -/
def truncOps : List Op :=
  [⟨.mov .i64, [1, 0]⟩, ⟨.mov .i64, [2, 1]⟩, ⟨.mov .i32, [3, 1]⟩, ⟨.movi .i64, [1, 0]⟩,
    ⟨.mov .i64, [0, 2]⟩, ⟨.exitTb, [0]⟩]

def maskingShift : HostShift where
  shl w x count := x <<< (count % w)
  shr w x count := x >>> (count % w)
  sar w x count := x.sshiftRight (count % w)

/-- A host on which nothing but the interpreted operations has a meaning. -/
def silentHost : Host Unit := ⟨fun _ _ _ _ => none, fun _ _ _ _ _ => none, fun _ _ _ => false⟩

/-- The start of a block with `x` in the global. -/
def truncStart (x : BitVec 64) : Machine truncCtx Unit where
  pc := 0
  regs := (⟨fun _ => none, nofun⟩ : Regs truncCtx).write 0 x
  world := ()
  trace := []
  exit := none

theorem truncOps_wellFormed : WellFormed truncCtx truncOps := by
  intro op hop
  simp only [truncOps, mem_cons, not_mem_nil, or_false] at hop
  obtain rfl | rfl | rfl | rfl | rfl | rfl := hop
  all_goals exact ⟨by decide, by decide, by decide, by decide, by rintro _ _ ⟨⟩⟩

/-- The temporary 3 becomes the representative of 2, and half of the value is lost. -/
theorem truncated_representative : WellFormed truncCtx truncOps ∧
    ∃ ops' t t', tcgConstantFolding maskingShift truncCtx truncOps = .ok ops' ∧
      run (step silentHost truncOps) (truncStart 0x100000001) (List.replicate 6 false) = .ok t ∧
      run (step silentHost ops') (truncStart 0x100000001) (List.replicate 6 false) = .ok t' ∧
      t.exit = some (.exitTb 0) ∧ t'.exit = some (.exitTb 0) ∧
      t.regs.value 0 = some 0x100000001 ∧ t'.regs.value 0 = some 1 :=
  ⟨truncOps_wellFormed, _, _, _, rfl, rfl, rfl, rfl, rfl, rfl, rfl⟩

/-- Where the temporary 2 is written back, it names 3, which has half of its value. -/
theorem ring_unequal : ∃ temps t, knownAt maskingShift truncCtx 4 .cleared truncOps = .ok temps ∧
    run (step silentHost truncOps) (truncStart 0x100000001) (List.replicate 4 false) = .ok t ∧
    t.pc = 4 ∧ t.exit = none ∧ (temps 3).state = .hasCopy ∧
    (temps 2).state = .copy ∧ (temps 2).val = 3 ∧
    t.regs.value 2 = some 0x100000001 ∧ t.regs.value 3 = some 1 :=
  ⟨_, _, rfl, rfl, rfl, rfl, rfl, rfl, rfl, rfl, rfl⟩

/-- Before that 1 represents them both, and 3 has the low half of its value. -/
theorem copies_ringed_trunc : ∃ temps l t, knownAt maskingShift truncCtx 3 .cleared truncOps =
    .ok temps ∧ Circle truncCtx temps 1 l ∧ 2 ∈ l ∧ 3 ∈ l ∧
    run (step silentHost truncOps) (truncStart 0x100000001) (List.replicate 3 false) = .ok t ∧
    t.regs.read .i64 1 = t.regs.value 2 ∧ t.regs.read .i32 1 = t.regs.value 3 := by
  obtain ⟨temps, known, tracked, -, values⟩ := copies_ringed silentHost truncCtx maskingShift
    truncOps truncOps_wellFormed (by intro _ _ _ _ _ _ h; cases h)
    (.inl ⟨fun _ _ _ => rfl, fun _ _ _ => rfl⟩) 3
  have copies : ∀ a ∈ [2, 3], (temps a).state = .copy ∧ (temps a).val = 1 := by
    cases known
    decide +kernel
  obtain ⟨copy2, names2⟩ := copies 2 (by decide)
  obtain ⟨copy3, names3⟩ := copies 3 (by decide)
  obtain ⟨l, mem2, circle⟩ := tracked.of_copy copy2
  obtain ⟨l', mem3, circle'⟩ := tracked.of_copy copy3
  rw [names2] at circle
  rw [names3] at circle'
  obtain ⟨-, rfl⟩ := circle.unique circle' mem_cons_self mem_cons_self
  have equal := values (truncStart 0x100000001) _ (List.replicate 3 false) rfl (by decide +kernel)
    rfl rfl rfl 1 l circle
  exact ⟨temps, l, _, known, circle, mem2, mem3, rfl, equal 2 (.tail _ mem2),
    equal 3 (.tail _ mem3)⟩

/-- From a value that fits in 32 bits the optimized stream runs like the original one. -/
theorem trunc_short_value :
    ∃ ops' t, tcgConstantFolding maskingShift truncCtx truncOps = .ok ops' ∧
      run (step silentHost truncOps) (truncStart 1) (List.replicate 6 false) = .ok t ∧
      run (step silentHost ops') (truncStart 1) (List.replicate 6 false) = .ok t := by
  obtain ⟨ops', ok, same⟩ := tcgConstantFolding_preserves silentHost truncCtx maskingShift truncOps
    truncOps_wellFormed (by intro _ _ _ _ _ _ h; cases h)
    (.inl ⟨fun _ _ _ => rfl, fun _ _ _ => rfl⟩)
  refine ⟨ops', _, ok, rfl, same _ _ _ rfl ?_ rfl⟩
  decide +kernel

end QemuStm32.Tcg
