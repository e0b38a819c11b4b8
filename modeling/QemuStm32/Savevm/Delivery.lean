import QemuStm32.Lib.Runs
import QemuStm32.Savevm.Sections

/-!
# A section goes to the entry that wrote it

`find_se` looks for the id string and the instance id of a section, but an entry also
answers to its alias id and to its compat id. An entry before the one that wrote the
section can so capture it: `register_savevm_live` leaves the alias id zero, and a
device with a path answers to the name without the path.
-/

namespace QemuStm32.Savevm

open Readers Runs List

section
variable {σ : Type}

/-! ## What is to be shown -/

/-- The entry has something to save. -/
def SaveStateEntry.writes (se : SaveStateEntry σ) : Bool :=
  se.ops.saveLiveState.isSome || se.ops.saveState.isSome || se.ops.vmsd.isSome

/-- Each entry is found under what it writes. -/
def Finds (s : Registry σ) : Prop :=
  ∀ se ∈ s.handlers, se.writes = true →
    findSe s.handlers se.idstr se.instanceId = some se

/-- The entries that wrote the sections, each with its version and the bytes of the
section, take the machine from one state to the other. -/
def Handled (rest : List Byte) : List (Section σ) → σ → σ → Prop
  | [], m, m' => m = m'
  | sec :: secs, m, m' => ∃ ret m₁, 0 ≤ ret ∧
    (∀ taken failed, (vmstateLoad sec.se m sec.se.versionId.toInt).run
        ⟨sec.payload ++ (sectionBytes secs ++ rest), taken, failed⟩ =
      .ok ((ret, m₁), ⟨sectionBytes secs ++ rest, taken + sec.payload.length, failed⟩)) ∧
    Handled rest secs m₁ m'

/-- Loading a saved machine is what the entries that saved it do. -/
def Delivers (s : Registry σ) : Prop :=
  ∀ runs m secs, saved s runs m = .ok secs → savevmStateBlocked s = false →
    ∀ rest m₀ m₁, Handled rest secs m₀ m₁ → ∀ rounds, secs.length < rounds → ∀ taken,
      (loadvmState s rounds m₀).run ⟨streamBytes secs ++ rest, taken, false⟩ =
        .ok ((0, m₁), ⟨rest, taken + (streamBytes secs).length, false⟩)

/-! ## Loading sections -/

/-- What every registration keeps. -/
structure WellFormed (s : Registry σ) : Prop where
  below : ∀ se ∈ s.handlers, se.sectionId.toNat < s.globalSectionId.toNat
  unique : ∀ se ∈ s.handlers, ∀ se' ∈ s.handlers, se.sectionId = se'.sectionId → se = se'
  short : ∀ se ∈ s.handlers, se.idstr.chars.length ≤ 255

def SaveStateEntry.loading (se : SaveStateEntry σ) : LoadStateEntry σ :=
  ⟨se, se.sectionId, se.versionId⟩

/-- The entries that are opened after a section. -/
def Section.opens : Section σ → List (SaveStateEntry σ) → List (SaveStateEntry σ)
  | .opening _ se _, opened => se :: opened
  | .continued _ _ _, opened => opened

/-- A section continues only what was opened. -/
def Section.Allowed (opened : List (SaveStateEntry σ)) : Section σ → Prop
  | .opening _ _ _ => True
  | .continued _ se _ => se ∈ opened

def Opened : List (SaveStateEntry σ) → List (Section σ) → Prop
  | _, [] => True
  | opened, sec :: secs => sec.Allowed opened ∧ Opened (sec.opens opened) secs

theorem run_getByte_cons (b : Byte) (bs : List Byte) (taken : Nat) (failed : Bool) :
    getByte.run ⟨b :: bs, taken, failed⟩ = .ok (b, ⟨bs, taken + 1, failed⟩) := rfl

theorem run_getBuffer {bs : List Byte} {size : Nat} (length : bs.length = size)
    (rest : List Byte) (taken : Nat) (failed : Bool) :
    (getBuffer size).run ⟨bs ++ rest, taken, failed⟩ = .ok (bs, ⟨rest, taken + size, failed⟩) :=
  Reader.run_getBytes length rest taken failed

theorem readIdstr_chars (s : CString) : readIdstr s.chars = s := by
  cases s with
  | mk chars ended => simp only [readIdstr, cstring_eq ended]

variable {s : Registry σ} {rest : List Byte} {opened : List (SaveStateEntry σ)}

variable {rounds : Nat} {les : List (LoadStateEntry σ)} {m m' : σ} {se : SaveStateEntry σ}
  {payload : List Byte} {sec : Section σ} {secs : List (Section σ)} {stage : Stage}
  {make : SaveStateEntry σ → List Byte → Section σ} {ses : List (SaveStateEntry σ)} {ret : Int}
  {runs : List (σ → σ)} {e : Registration σ} {t : Registry σ}

/-- The loop after the header of a section that opens. -/
theorem loadSections_opening {full : Bool} (short : se.idstr.chars.length ≤ 255)
    (found : findSe s.handlers se.idstr se.instanceId = some se) (bs : List Byte) (taken : Nat)
    (failed : Bool) :
    (loadSections s.handlers (rounds + 1) les m).run
        ⟨(Section.opening full se payload).header ++ bs, taken, failed⟩ =
      (do
        let (ret, m) ← vmstateLoad se m se.versionId.toInt
        if ret < 0 then pure (ret, m)
        else loadSections s.handlers rounds (se.loading :: les) m).run
        ⟨bs, taken + (Section.opening full se payload).header.length, failed⟩ := by
  have len : (BitVec.ofNat 8 se.idstr.chars.length).toNat = se.idstr.chars.length := by
    exact Nat.mod_eq_of_lt (by omega)
  have kind : openingType full ≠ 0x00 ∧
      (openingType full = 0x01 ∨ openingType full = 0x04) := by
    cases full <;> decide
  have current : se.versionId.ult se.versionId = false := by simp [BitVec.ult]
  have split : (Section.opening full se payload).header ++ bs =
      openingType full :: (be32 se.sectionId ++
        (BitVec.ofNat 8 se.idstr.chars.length :: (se.idstr.chars ++
          (be32 se.instanceId ++ (be32 se.versionId ++ bs))))) := by
    simp [Section.header]
  rw [split, loadSections, Reader.run_bind_ok (run_getByte_cons _ _ _ _), if_neg kind.1,
    if_pos kind.2, Reader.run_bind_ok (Reader.run_getBe32 _ _ _ _),
    Reader.run_bind_ok (run_getByte_cons _ _ _ _),
    Reader.run_bind_ok (run_getBuffer len.symm _ _ _),
    Reader.run_bind_ok (Reader.run_getBe32 _ _ _ _),
    Reader.run_bind_ok (Reader.run_getBe32 _ _ _ _), readIdstr_chars]
  simp only [found, current, Bool.false_eq_true, if_false, len]
  congr 2
  simp only [Section.header, length_cons, length_append, be32_length]
  omega

theorem loadSections_continued {last : Bool}
    (found : (les.find? fun le => le.sectionId = se.sectionId) = some se.loading) (bs : List Byte)
    (taken : Nat) (failed : Bool) :
    (loadSections s.handlers (rounds + 1) les m).run
        ⟨(Section.continued last se payload).header ++ bs, taken, failed⟩ =
      (do
        let (ret, m) ← vmstateLoad se m se.versionId.toInt
        if ret < 0 then pure (ret, m) else loadSections s.handlers rounds les m).run
        ⟨bs, taken + (Section.continued last se payload).header.length, failed⟩ := by
  have kind : continuedType last ≠ 0x00 ∧
      ¬ (continuedType last = 0x01 ∨ continuedType last = 0x04) ∧
      (continuedType last = 0x02 ∨ continuedType last = 0x03) := by
    cases last <;> decide
  have split : (Section.continued last se payload).header ++ bs =
      continuedType last :: (be32 se.sectionId ++ bs) := by
    simp [Section.header]
  rw [split, loadSections, Reader.run_bind_ok (run_getByte_cons _ _ _ _), if_neg kind.1,
    if_neg kind.2.1, if_pos kind.2.2, Reader.run_bind_ok (Reader.run_getBe32 _ _ _ _)]
  simp only [found]
  congr 2

/-- An opened section is found by its id. -/
theorem find_loading (wf : WellFormed s) (inside : ∀ se ∈ opened, se ∈ s.handlers)
    (mem : se ∈ opened) :
    ((opened.map SaveStateEntry.loading).find? fun le => le.sectionId = se.sectionId) =
      some se.loading := by
  induction opened with
  | nil => cases mem
  | cons first opened ih =>
    rw [map_cons, find?_cons]
    by_cases same : first.sectionId = se.sectionId
    · have : first = se := wf.unique first (inside first mem_cons_self) se (inside se mem) same
      simp [this, SaveStateEntry.loading]
    have later : se ∈ opened := by
      rcases mem_cons.mp mem with rfl | later
      · exact absurd rfl same
      · exact later
    have other : first.loading.sectionId ≠ se.sectionId := same
    simp only [other, decide_false]
    exact ih (fun e he => inside e (.tail _ he)) later

/-- The header of a section takes the loop to the entry that wrote it. -/
theorem loadSections_enters (wf : WellFormed s) (finds : Finds s)
    (inside : ∀ se ∈ opened, se ∈ s.handlers) (here : sec.se ∈ s.handlers)
    (writes : sec.se.writes = true) (allowed : sec.Allowed opened) (bs : List Byte) (taken : Nat)
    (failed : Bool) :
    (loadSections s.handlers (rounds + 1) (opened.map SaveStateEntry.loading) m).run
        ⟨sec.header ++ bs, taken, failed⟩ =
      (do
        let (ret, m) ← vmstateLoad sec.se m sec.se.versionId.toInt
        if ret < 0 then pure (ret, m)
        else loadSections s.handlers rounds ((sec.opens opened).map SaveStateEntry.loading) m).run
        ⟨bs, taken + sec.header.length, failed⟩ := by
  cases sec with
  | opening full se payload =>
    exact loadSections_opening (wf.short se here) (finds se here writes) bs taken failed
  | continued last se payload =>
    exact loadSections_continued (find_loading wf inside allowed) bs taken failed

theorem Section.opens_inside (here : sec.se ∈ s.handlers)
    (inside : ∀ se ∈ opened, se ∈ s.handlers) : ∀ se ∈ sec.opens opened, se ∈ s.handlers := by
  cases sec with
  | opening full se payload =>
    intro e he
    rcases mem_cons.mp he with rfl | he
    · exact here
    · exact inside e he
  | continued last se payload => exact inside

/-- Sections of entries that are found, in an order that opens before it continues,
reach the entries that wrote them. -/
theorem loadSections_handled (wf : WellFormed s) (finds : Finds s)
    (inside : ∀ se ∈ opened, se ∈ s.handlers)
    (written : ∀ sec ∈ secs, sec.se ∈ s.handlers ∧ sec.se.writes = true)
    (order : Opened opened secs) (handled : Handled rest secs m m')
    (enough : secs.length < rounds) (taken : Nat) (failed : Bool) :
    (loadSections s.handlers rounds (opened.map SaveStateEntry.loading) m).run
        ⟨sectionBytes secs ++ rest, taken, failed⟩ =
      .ok ((0, m'), ⟨rest, taken + (sectionBytes secs).length, failed⟩) := by
  induction secs generalizing opened m rounds taken with
  | nil =>
    obtain ⟨rounds, rfl⟩ : ∃ k, rounds = k + 1 := Nat.exists_eq_add_one.mpr enough
    cases handled
    rfl
  | cons sec secs ih =>
    obtain ⟨rounds, rfl⟩ : ∃ k, rounds = k + 1 :=
      Nat.exists_eq_add_one.mpr (Nat.lt_of_le_of_lt (Nat.zero_le _) enough)
    obtain ⟨ret, m₁, success, ran, handled⟩ := handled
    obtain ⟨here, writes⟩ := written sec mem_cons_self
    have more := ih (Section.opens_inside here inside)
      (fun sec' h => written sec' (.tail _ h)) order.2 handled
      (Nat.lt_of_succ_lt_succ enough) (taken + sec.header.length + sec.payload.length)
    rw [sectionBytes, append_assoc, append_assoc,
      loadSections_enters wf finds inside here writes order.1, Reader.run_bind_ok (ran _ _)]
    simp only [Int.not_lt.mpr success, if_false, length_append]
    rw [more]
    simp only [Nat.add_assoc]

/-! ## Saving sections -/

/-- The entries in a round of live sections. -/
theorem saveLive_mem {stop : Int → Bool} : ∀ sec ∈ (saveLive stage stop make ses ret m).2.1,
    ∃ se ∈ ses, ∃ bs, se.ops.saveLiveState.isSome ∧ sec = make se bs := by
  induction ses generalizing ret m with
  | nil => nofun
  | cons se ses ih =>
    simp only [exists_mem_cons_iff]
    rw [saveLive]
    split
    · exact fun sec mem => .inr (ih sec mem)
    next live =>
    have first : ∀ bs, ∃ bs', se.ops.saveLiveState.isSome ∧ make se bs = make se bs' :=
      fun bs => ⟨bs, by simp [live], rfl⟩
    dsimp only
    split
    · exact forall_mem_singleton.mpr (.inl (first _))
    · exact forall_mem_cons.mpr ⟨.inl (first _), fun sec mem => .inr (ih sec mem)⟩

/-- A round that no error stops has a section for each live entry. -/
theorem saveLive_all (success : ¬ (saveLive stage (· < 0) make ses ret m).1 < 0) (mem : se ∈ ses)
    (live : se.ops.saveLiveState.isSome) :
    ∃ bs, make se bs ∈ (saveLive stage (· < 0) make ses ret m).2.1 := by
  induction ses generalizing ret m with
  | nil => cases mem
  | cons first ses ih =>
    cases handler : first.ops.saveLiveState with
    | none =>
      simp only [saveLive, handler] at success ⊢
      rcases mem_cons.mp mem with rfl | mem
      · rw [handler] at live
        cases live
      · exact ih success mem
    | some save =>
      simp only [saveLive, handler] at success ⊢
      split at success
      · next stopped => exact absurd (of_decide_eq_true stopped) success
      · next goesOn =>
        simp only [goesOn]
        rcases mem_cons.mp mem with rfl | mem
        · exact ⟨_, mem_cons_self⟩
        · exact (ih success mem).imp fun bs => mem_cons_of_mem _

theorem saveFull_mem : ∀ sec ∈ (saveFull ses m).1,
    ∃ se ∈ ses, ∃ bs, se.writes = true ∧ sec = .opening true se bs := by
  induction ses generalizing m with
  | nil => nofun
  | cons se ses ih =>
    simp only [exists_mem_cons_iff, saveFull]
    split
    · exact fun sec mem => .inr (ih sec mem)
    iterate 2
      · next handler =>
        exact forall_mem_cons.mpr ⟨.inl ⟨_, by simp [SaveStateEntry.writes, handler], rfl⟩,
          fun sec mem => .inr (ih sec mem)⟩

/-- Sections that open come first, and nothing else is continued. -/
theorem opened_append {start more : List (Section σ)}
    (opening : ∀ sec ∈ start, ∃ full se bs, sec = .opening full se bs)
    (continued : ∀ last se bs, Section.continued last se bs ∈ more →
      se ∈ opened ∨ ∃ full bs, Section.opening full se bs ∈ start) :
    Opened opened (start ++ more) := by
  induction start generalizing opened with
  | nil =>
    induction more generalizing opened with
    | nil => trivial
    | cons sec secs ih =>
      have here : ∀ last se bs, Section.continued last se bs ∈ sec :: secs → se ∈ opened := by
        intro last se bs mem
        rcases continued last se bs mem with h | ⟨_, _, h⟩
        · exact h
        · cases h
      cases sec with
      | opening full se bs =>
        refine ⟨trivial, ih fun last se' bs' mem => .inl ?_⟩
        exact .tail _ (here last se' bs' (.tail _ mem))
      | continued last se bs =>
        refine ⟨here last se bs mem_cons_self, ih fun last' se' bs' mem => .inl ?_⟩
        exact here last' se' bs' (.tail _ mem)
  | cons sec start ih =>
    obtain ⟨full, se, bs, rfl⟩ := opening sec mem_cons_self
    refine ⟨trivial, ih (fun sec h => opening sec (.tail _ h)) ?_⟩
    intro last se' bs' mem
    rcases continued last se' bs' mem with h | ⟨full', bs', h⟩
    · exact .inl (.tail _ h)
    · rcases mem_cons.mp h with h | h
      · cases h
        exact .inl mem_cons_self
      · exact .inr ⟨full', bs', h⟩

theorem iterations_mem (h : iterations s runs m = .ok (secs, m')) (mem : sec ∈ secs) :
    ∃ se ∈ s.handlers, ∃ bs, se.ops.saveLiveState.isSome ∧ sec = .continued false se bs := by
  induction runs generalizing m secs with
  | nil =>
    cases h
    cases mem
  | cons run runs ih =>
    simp only [iterations] at h
    split at h
    · cases h
    · obtain ⟨⟨more, m₁⟩, ran, eq⟩ := bind_ok_iff.mp h
      cases eq
      rcases mem_append.mp mem with mem | mem
      · exact saveLive_mem sec mem
      · exact ih ran mem

/-- What a saved machine consists of: an opening section of each live entry, and
then sections that continue these or save entries as a whole. -/
theorem saved_sections (h : saved s runs m = .ok secs) : ∃ start more, secs = start ++ more ∧
      (∀ sec ∈ start, ∃ se ∈ s.handlers, ∃ bs,
        se.ops.saveLiveState.isSome ∧ sec = .opening false se bs) ∧
      (∀ se ∈ s.handlers, se.ops.saveLiveState.isSome → ∃ bs, .opening false se bs ∈ start) ∧
      ∀ sec ∈ more, ∃ se ∈ s.handlers, ∃ bs,
        (∃ last, se.ops.saveLiveState.isSome ∧ sec = .continued last se bs) ∨
          se.writes = true ∧ sec = .opening true se bs := by
  simp only [saved] at h
  split at h
  · cases h
  rename_i success
  obtain ⟨⟨parts, m₁⟩, ran, h⟩ := bind_ok_iff.mp h
  split at h
  · cases h
  cases h
  refine ⟨_, _, append_assoc _ _ _, saveLive_mem, ?_, ?_⟩
  · intro se mem live
    refine saveLive_all (fun failed => ?_) mem live
    simp only [savevmStateBegin, failed, if_true] at success
    exact success trivial
  intro sec mem
  rcases mem_append.mp mem with mem | mem
  · obtain ⟨se, here, bs, live, rfl⟩ := iterations_mem ran mem
    exact ⟨se, here, bs, .inl ⟨false, live, rfl⟩⟩
  simp only [savevmStateComplete] at mem
  split at mem
  · obtain ⟨se, here, bs, live, rfl⟩ := saveLive_mem sec mem
    exact ⟨se, here, bs, .inl ⟨true, live, rfl⟩⟩
  · rcases mem_append.mp mem with mem | mem
    · obtain ⟨se, here, bs, live, rfl⟩ := saveLive_mem sec mem
      exact ⟨se, here, bs, .inl ⟨true, live, rfl⟩⟩
    · obtain ⟨se, here, bs, writes, rfl⟩ := saveFull_mem sec mem
      exact ⟨se, here, bs, .inr ⟨writes, rfl⟩⟩

theorem delivers_of_finds (wf : WellFormed s) (finds : Finds s) : Delivers s := by
  intro runs m secs h free rest m₀ m₁ handled rounds enough taken
  obtain ⟨start, more, rfl, opening, all, others⟩ := saved_sections h
  have written : ∀ sec ∈ start ++ more, sec.se ∈ s.handlers ∧ sec.se.writes = true := by
    intro sec mem
    rcases mem_append.mp mem with mem | mem
    · obtain ⟨se, here, bs, live, rfl⟩ := opening sec mem
      exact ⟨here, by simp [SaveStateEntry.writes, Section.se, live]⟩
    · obtain ⟨se, here, bs, ⟨last, live, rfl⟩ | ⟨writes, rfl⟩⟩ := others sec mem
      · exact ⟨here, by simp [SaveStateEntry.writes, Section.se, live]⟩
      · exact ⟨here, writes⟩
  have order : Opened [] (start ++ more) := by
    refine opened_append (fun sec mem => ?_) fun last se bs mem => .inr ?_
    · obtain ⟨se, _, bs, _, eq⟩ := opening sec mem
      exact ⟨false, se, bs, eq⟩
    · obtain ⟨se', here, bs', ⟨last', live, eq⟩ | ⟨_, eq⟩⟩ := others _ mem
      · cases eq
        obtain ⟨bs, h⟩ := all _ here live
        exact ⟨false, bs, h⟩
      · cases eq
  have ran := loadSections_handled wf finds (fun _ none => absurd none not_mem_nil) written
    order handled enough (taken + 4 + 4) false
  rw [map_nil] at ran
  unfold loadvmState streamBytes
  rw [free, if_neg Bool.false_ne_true, append_assoc, append_assoc,
    Reader.run_bind_ok (Reader.run_getBe32 _ _ _ _), if_neg (by decide),
    Reader.run_bind_ok (Reader.run_getBe32 _ _ _ _), if_neg (by decide), Reader.run_bind_ok ran]
  simp only [Reader.run, length_append, be32_length, Nat.add_assoc]
  rfl

/-! ## Registrations -/

/-- The entry answers to a pair that is not its own. -/
def SaveStateEntry.captures (se : SaveStateEntry σ) (idstr : CString) (instanceId : BitVec 32) :
    Bool :=
  decide (se.idstr = idstr ∧ instanceId = se.aliasId) ||
    (se.idstr.strstr idstr && match se.compat with
      | some compat =>
        decide (compat.idstr = idstr ∧ (instanceId = compat.instanceId ∨ instanceId = se.aliasId))
      | none => false)

theorem answers_iff (se : SaveStateEntry σ) (idstr : CString) (instanceId : BitVec 32) :
    se.answers idstr instanceId = true ↔
      (se.idstr = idstr ∧ se.instanceId = instanceId) ∨ se.captures idstr instanceId = true := by
  simp only [SaveStateEntry.answers, SaveStateEntry.captures, Bool.or_eq_true, decide_eq_true_eq]
  grind

/-- The pair of the new entry is not in use, and the section ids do not overflow. -/
def Distinct (s : Registry σ) (e : Registration σ) : Prop :=
  (∀ se ∈ s.handlers, ¬ (se.idstr = (e.entry s).idstr ∧ se.instanceId = (e.entry s).instanceId)) ∧
    s.globalSectionId.toNat + 1 < 2 ^ 31

/-- No entry so far answers, by its alias id or its compat id, to what the new entry
will write. A registration that is refused makes no entry. -/
def NotCaptured (s : Registry σ) (e : Registration σ) : Prop :=
  (e.entry s).compat = none ∨ (e.entry s).instanceId = 0 → (e.entry s).writes = true →
    ∀ se ∈ s.handlers, se.captures (e.entry s).idstr (e.entry s).instanceId = false

theorem register_ok (h : register s e = .ok t) :
    ((e.entry s).compat = none ∨ (e.entry s).instanceId = 0) ∧
      t = ⟨s.handlers ++ [e.entry s], s.globalSectionId + 1⟩ := by
  unfold register insertTail at h
  split at h
  · rename_i accepted
    cases h
    exact ⟨accepted, rfl⟩
  · cases h

theorem newEntry_spec (path : Option CString) (name : CString)
    (instanceId aliasId versionId : BitVec 32) (ops : Ops σ) (noMigrate : Bool) :
    (newEntry s path name instanceId aliasId versionId ops noMigrate).sectionId =
        s.globalSectionId ∧
      (newEntry s path name instanceId aliasId versionId ops noMigrate).idstr.chars.length ≤
        255 := by
  cases path with
  | none | some id => exact ⟨rfl, length_take_le 255 _⟩

theorem entry_spec (e : Registration σ) :
    (e.entry s).sectionId = s.globalSectionId ∧ (e.entry s).idstr.chars.length ≤ 255 := by
  cases e with
  | registerSavevmLive | vmstateRegister => exact newEntry_spec ..

theorem WellFormed.register (wf : WellFormed s) (distinct : Distinct s e)
    (h : register s e = .ok t) : WellFormed t := by
  obtain ⟨-, rfl⟩ := register_ok h
  obtain ⟨id, short⟩ := entry_spec e
  have next : (s.globalSectionId + 1).toNat = s.globalSectionId.toNat + 1 := by
    have := distinct.2
    exact Nat.mod_eq_of_lt (by simp; omega)
  have fresh : ∀ se ∈ s.handlers, se.sectionId ≠ (e.entry s).sectionId := by
    intro se mem same
    have := wf.below se mem
    rw [same, id] at this
    omega
  constructor <;> simp only [forall_mem_append, forall_mem_singleton, next]
  · exact ⟨fun se mem => Nat.lt_succ_of_lt (wf.below se mem), by rw [id]; omega⟩
  · exact ⟨fun se mem => ⟨wf.unique se mem, fun same => absurd same (fresh se mem)⟩,
      fun se mem same => absurd same.symm (fresh se mem), fun _ => trivial⟩
  · exact ⟨wf.short, short⟩

/-- The new entry is found if and only if none before it answers. -/
theorem findSe_new (wf : WellFormed s) (e : Registration σ) :
    findSe (s.handlers ++ [e.entry s]) (e.entry s).idstr (e.entry s).instanceId =
        some (e.entry s) ↔
      ∀ se ∈ s.handlers, se.answers (e.entry s).idstr (e.entry s).instanceId = false := by
  unfold findSe
  rw [find?_append]
  constructor
  · intro found se mem
    by_contra answers
    obtain ⟨first, hit⟩ : ∃ first, (s.handlers.find? fun se =>
        se.answers (e.entry s).idstr (e.entry s).instanceId) = some first := by
      rw [← Option.isSome_iff_exists, find?_isSome]
      exact ⟨se, mem, by simpa using answers⟩
    rw [hit] at found
    obtain rfl : first = e.entry s := by simpa using found
    have below := wf.below _ (mem_of_find?_eq_some hit)
    rw [(entry_spec e).1] at below
    omega
  · intro silent
    have miss : (s.handlers.find? fun se =>
        se.answers (e.entry s).idstr (e.entry s).instanceId) = none :=
      find?_eq_none.mpr fun se mem => by simp [silent se mem]
    have self : (e.entry s).answers (e.entry s).idstr (e.entry s).instanceId = true :=
      (answers_iff _ _ _).mpr (.inl ⟨rfl, rfl⟩)
    rw [miss]
    simp [self]

/-- One registration. -/
theorem register_finds_iff (wf : WellFormed s) (distinct : Distinct s e) (finds : Finds s) :
    NotCaptured s e ↔ ∀ t, register s e = .ok t → Finds t := by
  constructor
  · intro notCaptured t h
    obtain ⟨accepted, rfl⟩ := register_ok h
    intro se mem writes
    rcases mem_append.mp mem with mem | mem
    · have found := finds se mem writes
      unfold findSe at found ⊢
      rw [find?_append, found]
      rfl
    · obtain rfl := mem_singleton.mp mem
      refine (findSe_new wf e).mpr fun se mem => ?_
      by_contra answers
      rcases (answers_iff _ _ _).mp (by simpa using answers) with same | captured
      · exact distinct.1 se mem same
      · exact absurd captured (by simp [notCaptured accepted writes se mem])
  · intro all accepted writes se mem
    have found := all ⟨s.handlers ++ [e.entry s], s.globalSectionId + 1⟩
      (if_pos accepted) (e.entry s) (by simp) writes
    have silent := (findSe_new wf e).mp found se mem
    by_contra captured
    have := (answers_iff se _ _).mpr (.inr (by simpa using captured))
    cases silent.symm.trans this

instance (s : Registry σ) (e : Registration σ) : Decidable (Distinct s e) :=
  inferInstanceAs (Decidable (_ ∧ _))

instance (s : Registry σ) (e : Registration σ) : Decidable (NotCaptured s e) :=
  inferInstanceAs (Decidable (_ → _ → _))

def emptyRegistry : Registry σ := ⟨[], 0⟩

/-- After every registration each entry is found under what it writes, and loading a
saved machine hands each section to the entry that wrote it, if and only if no
registration makes an entry that an earlier one captures. -/
theorem delivered_iff (es : List (Registration σ))
    (distinct : StepsMeet register Distinct emptyRegistry es) :
    Always register (fun s => Finds s ∧ Delivers s) (emptyRegistry : Registry σ) es ↔
      StepsMeet register NotCaptured emptyRegistry es := by
  have empty {P : SaveStateEntry σ → Prop} :
      ∀ se ∈ emptyRegistry.handlers, P se := fun _ h => absurd h not_mem_nil
  have start : WellFormed emptyRegistry := ⟨empty, empty, empty⟩
  have none : Finds emptyRegistry := empty
  refine always_iff_stepsMeet_of (fun s e t wf hd ht => wf.register hd ht) ?_
    start ⟨none, delivers_of_finds start none⟩ distinct
  intro s e wf hd holds
  rw [register_finds_iff wf hd holds.1]
  constructor
  · intro finds t ht
    exact ⟨finds t ht, delivers_of_finds (wf.register hd ht) (finds t ht)⟩
  · intro all t ht
    exact (all t ht).1

end

/-! ### Captured and uncaptured entries -/

/-- A device that saves nothing but its section. -/
def device (path : Option CString) (name : CString) (instanceId : BitVec 32) : Registration Unit :=
  .registerSavevmLive path name instanceId 1 none (some fun m => ([], m)) fun m _ => .done (0, m)

def timer : CString := ⟨[0x74], by decide⟩

def bus : CString := ⟨[0x62], by decide⟩

theorem delivered_instances : StepsMeet register NotCaptured emptyRegistry
      [device none timer 0, device none timer 5, device (some bus) timer (-1)] ∧
    Always register (fun s => Finds s ∧ Delivers s) emptyRegistry
      [device none timer 0, device none timer 5, device (some bus) timer (-1)] := by
  have notCaptured : StepsMeet register NotCaptured emptyRegistry
      [device none timer 0, device none timer 5, device (some bus) timer (-1)] := by decide +kernel
  exact ⟨notCaptured, (delivered_iff _ (by decide +kernel)).mpr notCaptured⟩

/-- An instance 5 that was registered before instance 0 has the alias id 0, and a device
on a bus has the compat id of the one that is not. -/
theorem captured_instances :
    (StepsMeet register Distinct emptyRegistry [device none timer 5, device none timer 0] ∧
      ¬ Always register (fun s => Finds s ∧ Delivers s) emptyRegistry
        [device none timer 5, device none timer 0]) ∧
    StepsMeet register Distinct emptyRegistry [device (some bus) timer (-1), device none timer 0] ∧
      ¬ Always register (fun s => Finds s ∧ Delivers s) emptyRegistry
        [device (some bus) timer (-1), device none timer 0] := by
  refine ⟨⟨by decide +kernel, fun always => ?_⟩, by decide +kernel, fun always => ?_⟩
  all_goals
    have found := ((always.2 _ rfl).2 _ rfl).1 _ (mem_append_right _ mem_cons_self) rfl
    exact absurd (congrArg (Option.map (·.sectionId)) found) (by decide +kernel)

end QemuStm32.Savevm
