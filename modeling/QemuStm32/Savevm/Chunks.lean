import QemuStm32.Savevm.Sections
import QemuStm32.Savevm.Vmstate

/-!
# How a stream is cut into chunks

What `qemu_loadvm_state` makes of a stream should not depend on the chunks in which
the transport delivers it. It does: the name of a subsection is looked at with one
refill of the buffer, and is not recognised when that brings too little; and a large
read that meets a full buffer takes it for the end of the file. Where neither happens
the outcome is that of reading the bytes from a list.
-/

namespace QemuStm32.Savevm

open Readers QemuFile

variable {σ : Type}

/-! ## The loader looks ahead with care -/

variable {ε α : Type} {s : Registry Mem}

theorem Disciplined.ite {c : Prop} [Decidable c] {p q : Reader ε α} {n : Nat}
    (h : c → Disciplined n p) (h' : ¬ c → Disciplined n q) :
    Disciplined n (if c then p else q) := by
  by_cases hc : c
  · rw [if_pos hc]
    exact h hc
  · rw [if_neg hc]
    exact h' hc

theorem disciplined_getBe32 : Disciplined 0 (Reader.getBe32 : Reader ε (BitVec 32)) :=
  fun _ _ _ _ => trivial

theorem loadElems_disciplined {load : Mem → Int → Reader Fault (Int × Mem)}
    (h : ∀ m a, Disciplined 0 (load m a)) (addr : Mem → Nat → Int) (left i : Nat) (m : Mem) :
    Disciplined 0 (loadElems load addr left i m) := by
  induction left generalizing i m with
  | zero => trivial
  | succ left ih => exact (h m _).bind fun r => .ite (fun _ => trivial) fun _ => ih (i + 1) r.2

theorem Shape.load_disciplined (s : Shape)
    {elem : (size : Int) → Mem → Int → Reader Fault (Int × Mem)}
    (h : ∀ size m a, Disciplined 0 (elem size m a)) (m : Mem) (state version : Int) :
    Disciplined 0 (s.load elem m state version) :=
  .ite (fun _ => loadElems_disciplined (h _) _ _ _ _) fun _ => trivial

/-- The name is looked at only behind a tag and a length that were seen. -/
theorem subsectionLoad_disciplined (name : Str) {subsections : List (Str × Loader)}
    (h : ∀ sub ∈ subsections, ∀ m a v, Disciplined 0 (sub.2 m a v)) (rounds : Nat) (m : Mem)
    (state : Int) : Disciplined 0 (subsectionLoad name subsections rounds m state) := by
  induction rounds generalizing m with
  | zero => trivial
  | succ rounds ih =>
    have enters (load : Loader) (careful : ∀ m a v, Disciplined 0 (load m a v)) :
        Disciplined 0 (do
          let v ← Reader.getBe32
          let r ← load m state (v.extractLsb' 0 8).toNat
          if r.1 ≠ 0 then pure r
          else subsectionLoad name subsections rounds r.2 state) :=
      disciplined_getBe32.bind fun v => (careful m state _).bind fun r =>
        .ite (fun _ => trivial) fun _ => ih r.2
    refine ⟨Nat.le_refl 0, by decide, fun b _ => .ite (fun _ => trivial) fun _ => ?_, trivial⟩
    refine ⟨by decide, by decide, fun len _ => .ite (fun _ => trivial) fun _ idstr => ?_,
      .ite (fun _ => trivial) fun long => absurd (Nat.succ_pos _) long⟩
    refine .ite (fun _ => trivial) fun _ => .ite (fun _ => trivial) fun _ => ?_
    cases found : subsections.find? fun sub => sub.1 = cstring idstr with
    | none => trivial
    | some sub =>
      refine ⟨by omega, by omega, by omega, Disciplined.mono ?_ (Nat.zero_le _)⟩
      exact enters sub.2 (h sub (List.mem_of_find?_eq_some found))

theorem Header.load_disciplined (d : Header) {fields : Loader}
    {subsections : Mem → Int → Reader Fault (Int × Mem)} (h : ∀ m a v, Disciplined 0 (fields m a v))
    (h' : ∀ m a, Disciplined 0 (subsections m a)) (m : Mem) (state version : Int) :
    Disciplined 0 (d.load fields subsections m state version) := by
  refine .ite (fun _ => trivial) fun _ => .ite (fun _ => trivial) fun _ =>
    .ite (fun _ => Taker.disciplined _) fun _ => .ite (fun _ => trivial) fun _ => ?_
  refine (h _ _ _).bind fun r => .ite (fun _ => trivial) fun _ => ?_
  exact (h' _ _).bind fun r => .ite (fun _ => trivial) fun _ => trivial

mutual

theorem Description.load_disciplined (rounds : Nat) : (vmsd : Description) →
    ∀ m state version, Disciplined 0 (vmsd.load rounds m state version)
  | .mk d fields subsections =>
    d.load_disciplined (loadFields_disciplined rounds fields)
      fun m state => subsectionLoad_disciplined d.name
        (subsectionLoaders_disciplined rounds subsections) rounds m state

theorem Field.load_disciplined (rounds : Nat) : (field : Field) →
    ∀ m state version, Disciplined 0 (field.load rounds m state version)
  | .plain shape info =>
    shape.load_disciplined fun size m addr => Taker.disciplined (info.get m addr size)
  | .struct shape vmsd =>
    shape.load_disciplined fun _ m a => vmsd.load_disciplined rounds m a vmsd.header.versionId

theorem loadFields_disciplined (rounds : Nat) : (fields : List Field) →
    ∀ m state version, Disciplined 0 (loadFields rounds fields m state version)
  | [] => fun _ _ _ => trivial
  | field :: fields => fun m state version =>
    (field.load_disciplined rounds m state version).bind fun r =>
      .ite (fun _ => trivial) fun _ => loadFields_disciplined rounds fields r.2 state version

theorem subsectionLoaders_disciplined (rounds : Nat) : (subsections : List Subsection) →
    ∀ sub ∈ subsectionLoaders rounds subsections, ∀ m a v, Disciplined 0 (sub.2 m a v)
  | [] => fun _ none => absurd none List.not_mem_nil
  | .mk _ vmsd :: subsections => by
    intro sub mem
    rcases List.mem_cons.mp mem with rfl | mem
    · exact vmsd.load_disciplined rounds
    · exact subsectionLoaders_disciplined rounds subsections sub mem

end

def SaveStateEntry.Careful (se : SaveStateEntry σ) : Prop :=
  ∀ vmsd, se.ops.vmsd = some vmsd → ∀ m version, Disciplined 0 (vmsd.load m version)

theorem vmstateLoad_disciplined {se : SaveStateEntry σ} (h : se.Careful) (m : σ) (version : Int) :
    Disciplined 0 (vmstateLoad se m version) := by
  unfold vmstateLoad
  cases handler : se.ops.vmsd with
  | none => exact Taker.disciplined _
  | some vmsd => exact h vmsd handler m version

theorem loadSections_disciplined {handlers : List (SaveStateEntry σ)}
    (h : ∀ se ∈ handlers, se.Careful) (rounds : Nat) {les : List (LoadStateEntry σ)}
    (h' : ∀ le ∈ les, le.se.Careful) (m : σ) :
    Disciplined 0 (loadSections handlers rounds les m) := by
  have getByte_disciplined : Disciplined 0 getByte := fun _ => trivial
  have getBuffer_disciplined : ∀ size, Disciplined 0 (getBuffer size) := fun _ _ => trivial
  induction rounds generalizing les m with
  | zero => trivial
  | succ rounds ih =>
    refine getByte_disciplined.bind fun sectionType => .ite (fun _ => trivial) fun _ =>
      .ite (fun _ => ?_) fun _ => .ite (fun _ => ?_) fun _ => trivial
    · refine disciplined_getBe32.bind fun sectionId => getByte_disciplined.bind fun len =>
        (getBuffer_disciplined _).bind fun idstr => disciplined_getBe32.bind fun instanceId =>
        disciplined_getBe32.bind fun versionId => ?_
      cases found : findSe handlers (readIdstr idstr) instanceId with
      | none => trivial
      | some se =>
        have careful := h se (List.mem_of_find?_eq_some found)
        refine .ite (fun _ => trivial) fun _ => (vmstateLoad_disciplined careful _ _).bind fun r =>
          .ite (fun _ => trivial) fun _ => ih (fun le mem => ?_) r.2
        rcases List.mem_cons.mp mem with rfl | mem
        · exact careful
        · exact h' le mem
    · refine disciplined_getBe32.bind fun sectionId => ?_
      cases found : les.find? fun le => le.sectionId = sectionId with
      | none => trivial
      | some le =>
        have careful := h' le (List.mem_of_find?_eq_some found)
        exact (vmstateLoad_disciplined careful _ _).bind fun r =>
          .ite (fun _ => trivial) fun _ => ih h' r.2

theorem loadvmState_disciplined {s : Registry σ} (h : ∀ se ∈ s.handlers, se.Careful)
    (rounds : Nat) (m : σ) : Disciplined 0 (loadvmState s rounds m) := by
  refine .ite (fun _ => trivial) fun _ => disciplined_getBe32.bind fun v =>
    .ite (fun _ => trivial) fun _ => disciplined_getBe32.bind fun v =>
    .ite (fun _ => trivial) fun _ => ?_
  have none : ∀ le ∈ ([] : List (LoadStateEntry σ)), le.se.Careful :=
    fun _ h => absurd h List.not_mem_nil
  exact (loadSections_disciplined h rounds none m).bind fun r _ => trivial

/-! ## The outcome of loading -/

/-- The result with the position at which it was reached. -/
def noteTaker {ε α β : Type} (f : α → Nat → β) : Taker ε α → Taker ε β
  | .done a => .tell fun n => .done (f a n)
  | .fault e => .fault e
  | .getByte next => .getByte fun b => noteTaker f (next b)
  | .getBytes size next => .getBytes size fun bs => noteTaker f (next bs)
  | .tell next => .tell fun n => noteTaker f (next n)
  | .failed next => .failed fun b => noteTaker f (next b)

/-- Loading also notes where the section ends. -/
def Handler.noting (h : Handler σ) : Handler (σ × List Nat) where
  save m := ((h.save m.1).1, ((h.save m.1).2, m.2))
  load m version := do
    let (ret, m₁) ← h.load m.1 version
    .tell fun n => pure (ret, (m₁, m.2 ++ [n]))

def SaveStateEntry.noting (se : SaveStateEntry σ) : SaveStateEntry (σ × List Nat) where
  idstr := se.idstr
  instanceId := se.instanceId
  aliasId := se.aliasId
  versionId := se.versionId
  sectionId := se.sectionId
  compat := se.compat
  noMigrate := se.noMigrate
  ops := {
    saveLiveState := se.ops.saveLiveState.map fun save m stage =>
      ((save m.1 stage).1, (save m.1 stage).2.1, ((save m.1 stage).2.2, m.2))
    saveState := se.ops.saveState.map fun save m => ((save m.1).1, ((save m.1).2, m.2))
    loadState := fun m version =>
      noteTaker (fun r n => (r.1, (r.2, m.2 ++ [n]))) (se.ops.loadState m.1 version)
    vmsd := se.ops.vmsd.map Handler.noting }

def Registry.noting (s : Registry σ) : Registry (σ × List Nat) :=
  ⟨s.handlers.map SaveStateEntry.noting, s.globalSectionId⟩

/-- The return value, the machine after it and where each section ended. -/
def outcome (s : Registry σ) (rounds : Nat) (bytes : List Byte) (m : σ) (t : Transport) :
    Except Fault (Int × σ × List Nat) :=
  (runFile t (loadvmState s.noting rounds (m, [])) (start bytes)).map (·.1)

/-- Entries with a description load it at some address. -/
def Description.handler (rounds : Nat) (vmsd : Description) (state : Int) : Handler Mem where
  save m := vmsd.save m state
  load m version := vmsd.load rounds m state version

def Described (s : Registry Mem) : Prop :=
  ∀ se ∈ s.handlers, ∀ vmsd, se.ops.vmsd = some vmsd →
    ∃ rounds description state, vmsd = Description.handler rounds description state

theorem noting_careful (described : Described s) : ∀ se ∈ s.noting.handlers, se.Careful := by
  intro se mem vmsd handler m version
  obtain ⟨entry, inside, rfl⟩ := List.mem_map.mp mem
  obtain ⟨inner, within, rfl⟩ := Option.map_eq_some_iff.mp handler
  obtain ⟨rounds, description, state, rfl⟩ := described entry inside inner within
  exact (description.load_disciplined rounds m.1 state version).bind fun _ _ => trivial

theorem SameOutcome.map_fst {x : Except ε (α × QemuFile)} {y : Except ε (α × Readers.Stream)}
    (h : SameOutcome x y) : x.map (·.1) = y.map (·.1) := by
  match x, y, h with
  | .ok (a, _), .ok (_, _), ⟨rfl, _⟩ => rfl
  | .error _, .error _, rfl => rfl

/-- The outcome is that of reading from a list, in every run in which looking ahead
finds what it asks for and no large read meets a full buffer. -/
theorem outcome_of_supplied (described : Described s) {rounds : Nat} {bytes : List Byte} {m : Mem}
    {t : Transport} (supplied : Supplied t (loadvmState s.noting rounds (m, [])) (start bytes)) :
    outcome s rounds bytes m t =
      ((loadvmState s.noting rounds (m, [])).run ⟨bytes, 0, false⟩).map (·.1) := by
  have counted : (start bytes).Counted := Nat.le_refl 0
  have disciplined := loadvmState_disciplined (noting_careful described) rounds (m, [])
  exact (runFile_of_supplied counted (Nat.zero_le _) disciplined supplied).map_fst

/-- Two ways to cut a stream into chunks have the same outcome. -/
theorem outcome_of_chunks (s : Registry Mem) (described : Described s) (rounds : Nat)
    (bytes : List Byte) (m : Mem) (t t' : Transport)
    (supplied : Supplied t (loadvmState s.noting rounds (m, [])) (start bytes))
    (supplied' : Supplied t' (loadvmState s.noting rounds (m, [])) (start bytes)) :
    outcome s rounds bytes m t = outcome s rounds bytes m t' :=
  (outcome_of_supplied described supplied).trans (outcome_of_supplied described supplied').symm

/-! ### A stream with a subsection -/

/-- At most `n` bytes in each call. -/
def chunksOf (n : Nat) (h : 0 < n) : Transport where
  len _ requested := min n requested
  pos _ _ some := Nat.lt_min.mpr ⟨h, some⟩
  le _ requested := Nat.min_le_right n requested

/-- A description without hooks and with one version. -/
def plainHeader (name : Str) : Header :=
  ⟨name, 1, 1, 1, fun m _ _ => .done (0, m), none, none, none⟩

/-- A field that every version has, at a fixed place. -/
def plainShape (offset size : Int) (count : Count) : Shape :=
  ⟨0, none, offset, size, none, count, none, false⟩

/-- A number of four bytes and as many bytes behind it; `counted` says how the number
is declared. In the subsection there is one more byte. -/
def counted (count : Count) : Description :=
  .mk (plainHeader [0x61])
    [.plain (plainShape 0 4 .single) (.integer 4), .plain (plainShape 4 1 count) (.integer 1)]
    [.mk (fun _ _ => true)
      (.mk (plainHeader [0x61, 0x2f]) [.plain (plainShape 8 1 .single) (.integer 1)] [])]

/-- The number is two, and the bytes are 7. -/
def twoBytes : Mem := fun x => if x = 0 then 2 else if x < 4 then 0 else 7

/-- A machine with one device. -/
def oneDevice : Registry Mem :=
  ⟨[vmsdEntry ⟨[], 0⟩ none 0
    ⟨⟨[0x61], by decide⟩, 1, false, Description.handler 30 (counted (.int32 0)) 0⟩], 1⟩

def oneDeviceBytes : List Byte :=
  match saved oneDevice [] twoBytes with
  | .ok secs => streamBytes secs
  | .error _ => []

theorem oneDevice_described : Described oneDevice := by
  intro se mem vmsd handler
  obtain rfl := List.mem_singleton.mp mem
  exact ⟨30, _, 0, (Option.some.inj handler).symm⟩

theorem oneDevice_chunks :
    outcome oneDevice 5 oneDeviceBytes (fun _ => 0) (chunksOf 40 (by decide)) =
      outcome oneDevice 5 oneDeviceBytes (fun _ => 0) (chunksOf 9 (by decide)) :=
  outcome_of_chunks oneDevice oneDevice_described 5 oneDeviceBytes (fun _ => 0) _ _
    (by decide +kernel) (by decide +kernel)

/-- Byte by byte, the subsection is not recognised and its tag is taken for the type
of a section. -/
theorem oneDevice_bytewise :
    ¬ ∀ t t' : Transport, outcome oneDevice 5 oneDeviceBytes (fun _ => 0) t =
      outcome oneDevice 5 oneDeviceBytes (fun _ => 0) t' := by
  intro same
  have values := congrArg (fun r => r.toOption.map (·.1))
    (same (chunksOf 40 (by decide)) (chunksOf 1 (by decide)))
  exact absurd values (by decide +kernel)

end QemuStm32.Savevm
