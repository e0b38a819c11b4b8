import QemuStm32.Fault
import QemuStm32.Lib.Runs

/-!
# Access control lists

`acl.c`. A list keeps its rules in a queue and their number in `nentries`; the
first rule that matches a party decides, and the default where none does.

The number decides whether a rule is inserted somewhere or appended, and it is
what `qemu_acl_append` reports as the position. `qemu_acl_remove` does not count
down: from the first rule that is removed on, the number is too high. A rule for
the last position is appended, and so comes behind the rule that has it.
-/

namespace QemuStm32.Acl

open Runs List

/-- `qemu_acl_entry`; `matching` is its `match`. -/
structure Entry where
  matching : String
  deny : Int
  deriving DecidableEq, Repr

/-- `qemu_acl`, without its name. -/
structure QemuAcl where
  nentries : BitVec 32
  entries : List Entry
  defaultDeny : Int
  deriving DecidableEq, Repr

/-- `fnmatch` says whether a party matches a rule. -/
def partyIsAllowed (fnmatch : String → String → Bool) (acl : QemuAcl) (party : String) : Int :=
  match acl.entries.find? fun entry => fnmatch entry.matching party with
  | some entry => if entry.deny ≠ 0 then 0 else 1
  | none => if acl.defaultDeny ≠ 0 then 0 else 1

def reset (_ : QemuAcl) : QemuAcl := ⟨0#32, [], 1⟩

/-- The list with the rule, and the return value. -/
def append (acl : QemuAcl) (rule : Entry) : QemuAcl × Int :=
  let acl := { acl with entries := acl.entries ++ [rule], nentries := acl.nentries + 1#32 }
  (acl, acl.nentries.toInt)

/-- The loop of `qemu_acl_insert`: the rules, whether the rule was inserted, and
the last position. -/
def insertLoop (rule : Entry) (index : Int) : List Entry → Int → List Entry × Bool × Int
  | [], i => ([], false, i)
  | tmp :: rest, i =>
    if i + 1 = index then (rule :: tmp :: rest, true, i + 1)
    else
      let (rest, inserted, last) := insertLoop rule index rest (i + 1)
      (tmp :: rest, inserted, last)

def insert (acl : QemuAcl) (rule : Entry) (index : Int) : QemuAcl × Int :=
  if index ≤ 0 then (acl, -1)
  else if index ≥ acl.nentries.toNat then append acl rule
  else
    let (entries, inserted, last) := insertLoop rule index acl.entries 0
    ({ acl with
        entries := entries
        nentries := if inserted then acl.nentries + 1#32 else acl.nentries }, last)

/-- The first rule for `m` is taken out; it keeps being counted. -/
def remove (acl : QemuAcl) (m : String) : QemuAcl × Int :=
  match acl.entries.findIdx? fun entry => entry.matching = m with
  | some i => ({ acl with entries := acl.entries.eraseIdx i }, i + 1)
  | none => (acl, -1)

/-! ## A list of rules -/

/-- What an access control list is for: rules in order, and a default. -/
structure Rules where
  rules : List Entry
  deny : Bool

namespace Rules

def decides (fnmatch : String → String → Bool) (r : Rules) (party : String) : Bool :=
  match r.rules.find? fun rule => fnmatch rule.matching party with
  | some rule => rule.deny = 0
  | none => ¬ r.deny

/-- Positions count from 1; one behind all rules is as good as the next free one. -/
def insert (r : Rules) (rule : Entry) (index : Int) : Rules :=
  if index ≤ 0 then r
  else { r with rules := r.rules.insertIdx (min (index.toNat - 1) r.rules.length) rule }

def remove (r : Rules) (m : String) : Rules :=
  { r with rules := r.rules.eraseP fun rule => rule.matching = m }

end Rules

/-! ## Runs -/

inductive AclEvent
  | append (rule : Entry)
  | insert (rule : Entry) (index : Int)
  | remove (m : String)
  | reset

/-- The rules before, the new rule and the value that was returned. -/
structure Report where
  before : List Entry
  rule : Entry
  ret : Int

/-- The list, the rules that it should hold, and what the last operation reported
if that was to add a rule. -/
structure Session where
  acl : QemuAcl
  rules : Rules
  report : Option Report

def aclStep (s : Session) : AclEvent → Except Fault Session
  | .append rule =>
    let (acl, ret) := append s.acl rule
    .ok ⟨acl, { s.rules with rules := s.rules.rules ++ [rule] }, some ⟨s.acl.entries, rule, ret⟩⟩
  | .insert rule index =>
    let (acl, ret) := insert s.acl rule index
    .ok ⟨acl, s.rules.insert rule index, some ⟨s.acl.entries, rule, ret⟩⟩
  | .remove m => .ok ⟨(remove s.acl m).1, s.rules.remove m, none⟩
  | .reset => .ok ⟨reset s.acl, ⟨[], true⟩, none⟩

/-- A rule is reported to be at the position where it was put between the others. -/
def Report.True (report : Report) (entries : List Entry) : Prop :=
  0 < report.ret → entries = report.before.insertIdx (report.ret - 1).toNat report.rule ∧
    (report.ret - 1).toNat ≤ report.before.length

structure Kept (s : Session) : Prop where
  counted : s.acl.nentries.toNat = s.acl.entries.length
  rules : s.acl.entries = s.rules.rules
  deny : s.acl.defaultDeny ≠ 0 ↔ s.rules.deny = true
  decides : ∀ fnmatch party,
    partyIsAllowed fnmatch s.acl party = if s.rules.decides fnmatch party then 1 else 0
  reported : ∀ report, s.report = some report → report.True s.acl.entries

/-- No rule is removed, none is put at the last position in front of another one,
and the number of rules fits its 32 bits. -/
def Counts (s : Session) : AclEvent → Prop
  | .append _ => s.acl.entries.length + 1 < 2 ^ 32
  | .insert rule index => 0 < index → s.acl.entries.length + 1 < 2 ^ 32 ∧
    (index = s.acl.entries.length → s.acl.entries.getLast? = some rule)
  | .remove m => ∀ entry ∈ s.acl.entries, entry.matching ≠ m
  | .reset => True

instance (s : Session) (e : AclEvent) : Decidable (Counts s e) := by
  cases e <;> unfold Counts <;> infer_instance

/-! ## The operations -/

variable {acl : QemuAcl} {s : Session}

theorem partyIsAllowed_eq {r : Rules} (rules : acl.entries = r.rules)
    (deny : acl.defaultDeny ≠ 0 ↔ r.deny = true) (fnmatch : String → String → Bool)
    (party : String) :
    partyIsAllowed fnmatch acl party = if r.decides fnmatch party then 1 else 0 := by
  unfold partyIsAllowed Rules.decides
  rw [rules]
  cases r.rules.find? fun rule => fnmatch rule.matching party with
  | some rule => by_cases h : rule.deny = 0 <;> simp [h]
  | none =>
    by_cases h : acl.defaultDeny = 0
    · have allowed : r.deny = false := by simpa [h] using deny
      simp [h, allowed]
    · simp [h, deny.mp h]

theorem Kept.of (counted : s.acl.nentries.toNat = s.acl.entries.length)
    (rules : s.acl.entries = s.rules.rules) (deny : s.acl.defaultDeny ≠ 0 ↔ s.rules.deny = true)
    (reported : ∀ report, s.report = some report → report.True s.acl.entries) : Kept s :=
  ⟨counted, rules, deny, partyIsAllowed_eq rules deny, reported⟩

theorem count_succ {n : BitVec 32} {length : Nat} (h : n.toNat = length) :
    (n + 1#32).toNat = length + 1 ↔ length + 1 < 2 ^ 32 := by
  rw [BitVec.toNat_add] at *
  simp only [BitVec.toNat_ofNat] at *
  omega

/-- Where the loop finds the position, the rule is put there; it does not find one
behind the end. -/
theorem insertLoop_eq (rule : Entry) {index i : Int} (l : List Entry) (ahead : i < index) :
    insertLoop rule index l i =
      if index - i ≤ l.length then (l.insertIdx (index - i - 1).toNat rule, true, index)
      else (l, false, i + l.length) := by
  induction l generalizing i with
  | nil =>
    rw [if_neg (by simp; omega)]
    simp [insertLoop]
  | cons tmp rest ih =>
    unfold insertLoop
    by_cases here : i + 1 = index
    · have zero : (index - i - 1).toNat = 0 := by omega
      rw [if_pos here, if_pos (by simp; omega), zero, here]
      rfl
    · rw [if_neg here, ih (by omega)]
      by_cases fits : index - i ≤ (tmp :: rest).length
      · have next : (index - i - 1).toNat = (index - (i + 1) - 1).toNat + 1 := by omega
        rw [if_pos (by simp at fits; omega), if_pos fits, next]
        rfl
      · rw [if_neg (by simp at fits; omega), if_neg fits]
        simp
        omega

theorem append_report (counted : acl.nentries.toNat = acl.entries.length)
    (fits : acl.entries.length + 1 < 2 ^ 32) (rule : Entry) :
    Report.True ⟨acl.entries, rule, (append acl rule).2⟩ (append acl rule).1.entries := by
  intro positive
  have count := (count_succ counted).mpr fits
  have ret : (append acl rule).2 = acl.entries.length + 1 := by
    have small := BitVec.toInt_eq_toNat_cond (acl.nentries + 1#32)
    have positive : 0 < (acl.nentries + 1#32).toInt := positive
    change (acl.nentries + 1#32).toInt = _
    split at small <;> omega
  have position : ((append acl rule).2 - 1).toNat = acl.entries.length := by omega
  refine ⟨?_, by rw [position]⟩
  rw [position, insertIdx_length_self]
  rfl

theorem append_kept_iff (h : Kept s) (rule : Entry) (rules : List Entry) :
    (s.acl.entries.length + 1 < 2 ^ 32 ∧ s.acl.entries ++ [rule] = rules) ↔
      Kept ⟨(append s.acl rule).1, { s.rules with rules := rules },
        some ⟨s.acl.entries, rule, (append s.acl rule).2⟩⟩ := by
  have length : (append s.acl rule).1.entries.length = s.acl.entries.length + 1 := by
    simp [append]
  constructor
  · rintro ⟨fits, same⟩
    refine .of (((count_succ h.counted).mpr fits).trans length.symm) same h.deny ?_
    rintro _ ⟨⟩
    exact append_report h.counted fits rule
  · intro kept
    exact ⟨(count_succ h.counted).mp (kept.counted.trans length), kept.rules⟩

/-- Behind the last rule is where a rule for the last position belongs only if it
is the same rule once more. -/
theorem append_eq_insertIdx_iff (rule : Entry) {index : Int} {l : List Entry} (positive : 0 < index)
    (behind : index ≥ l.length) :
    l ++ [rule] = l.insertIdx (min (index.toNat - 1) l.length) rule ↔
      (index = l.length → l.getLast? = some rule) := by
  by_cases last : index = l.length
  · obtain rfl | ⟨front, x, rfl⟩ := l.eq_nil_or_concat'
    · simp only [length_nil] at last
      omega
    have place : min (index.toNat - 1) (front ++ [x]).length = front.length := by
      simp only [length_append, length_singleton] at last ⊢
      omega
    have put (f : List Entry) : (f ++ [x]).insertIdx f.length rule = f ++ [rule, x] := by
      induction f with
      | nil => rfl
      | cons y f ih => simp [ih]
    rw [place, put]
    simp [last, eq_comm]
  · have place : min (index.toNat - 1) l.length = l.length := by omega
    rw [place, insertIdx_length_self]
    simp [last]

theorem insert_kept_iff (h : Kept s) (rule : Entry) (index : Int) :
    Counts s (.insert rule index) ↔
      Kept ⟨(insert s.acl rule index).1, s.rules.insert rule index,
        some ⟨s.acl.entries, rule, (insert s.acl rule index).2⟩⟩ := by
  unfold Counts insert Rules.insert
  rw [h.counted, ← h.rules]
  by_cases negative : index ≤ 0
  · simp only [if_pos negative]
    refine ⟨fun _ => .of h.counted h.rules h.deny ?_, fun _ positive => by omega⟩
    rintro _ ⟨⟩ positive
    exact absurd (show 0 < (-1) from positive) (by decide)
  have positive : 0 < index := by omega
  simp only [if_neg negative, positive, true_imp_iff]
  by_cases behind : index ≥ s.acl.entries.length
  · simp only [if_pos behind]
    rw [← append_eq_insertIdx_iff rule positive behind]
    exact append_kept_iff h rule _
  -- a position in front of the last rule is found
  have found := insertLoop_eq rule s.acl.entries positive
  rw [if_pos (by omega), Int.sub_zero] at found
  have place : min (index.toNat - 1) s.acl.entries.length = (index - 1).toNat := by omega
  have earlier : index ≠ s.acl.entries.length := by omega
  simp only [if_neg behind, found, if_true, place, earlier, false_imp_iff, and_true]
  have length : (s.acl.entries.insertIdx (index - 1).toNat rule).length =
      s.acl.entries.length + 1 := length_insertIdx_of_le_length (by omega) _
  constructor
  · intro fits
    refine .of (((count_succ h.counted).mpr fits).trans length.symm) rfl h.deny ?_
    rintro _ ⟨⟩ _
    exact ⟨rfl, by simp only; omega⟩
  · intro kept
    exact (count_succ h.counted).mp (kept.counted.trans length)

theorem remove_kept_iff (h : Kept s) (m : String) :
    (∀ entry ∈ s.acl.entries, entry.matching ≠ m) ↔
      Kept ⟨(remove s.acl m).1, s.rules.remove m, none⟩ := by
  unfold remove
  cases found : s.acl.entries.findIdx? fun entry => entry.matching = m with
  | none =>
    have absent : ∀ entry ∈ s.acl.entries, entry.matching ≠ m := by
      simpa [findIdx?_eq_none_iff] using found
    have same : s.rules.rules.eraseP (fun rule => rule.matching = m) = s.rules.rules := by
      refine eraseP_of_forall_not fun rule hr => ?_
      simpa using absent rule (h.rules ▸ hr)
    refine ⟨fun _ => .of h.counted ?_ h.deny nofun, fun _ => absent⟩
    exact h.rules.trans same.symm
  | some i =>
    obtain ⟨lt, found, _⟩ := findIdx?_eq_some_iff_getElem.mp found
    constructor
    · intro absent
      exact absurd (by simpa using found) (absent _ (getElem_mem lt))
    · intro kept
      -- one rule less, and the same number
      have counted : s.acl.nentries.toNat = (s.acl.entries.eraseIdx i).length := kept.counted
      rw [h.counted, length_eraseIdx_of_lt lt] at counted
      omega

/-- The next state keeps all of it exactly where the step counts. -/
theorem aclStep_kept_iff (h : Kept s) (e : AclEvent) :
    Counts s e ↔ ∀ t, aclStep s e = .ok t → Kept t := by
  have next : ∀ u, aclStep s e = .ok u → ((∀ t, aclStep s e = .ok t → Kept t) ↔ Kept u) := by
    intro u hu
    refine ⟨fun all => all u hu, fun kept t ht => ?_⟩
    rwa [← Except.ok.inj (hu.symm.trans ht)]
  cases e with
  | append rule =>
    refine Iff.trans ?_ ((append_kept_iff h rule _).trans (next _ rfl).symm)
    simp [Counts, h.rules]
  | insert rule index => exact (insert_kept_iff h rule index).trans (next _ rfl).symm
  | remove m => exact (remove_kept_iff h m).trans (next _ rfl).symm
  | reset =>
    rw [next _ rfl]
    exact ⟨fun _ => .of rfl rfl (by simp [reset]) nofun, fun _ => trivial⟩

/-- Whatever is done to a list, its number is right, its rules and decisions are
those of a list of rules, and rules are where they are reported to be, exactly as
long as no rule is removed or put in front of the last one, and the number fits. -/
theorem kept_along_iff {s : Session} (start : Kept s) (es : List AclEvent) :
    Always aclStep Kept s es ↔ StepsMeet aclStep Counts s es :=
  always_iff_stepsMeet (fun _ _ _ _ _ => trivial)
    (fun _ e _ h => aclStep_kept_iff h e) trivial start

/-- As `qemu_acl_init` makes it. -/
def Session.start : Session := ⟨⟨0#32, [], 1⟩, ⟨[], true⟩, none⟩

theorem start_kept : Kept .start := .of rfl rfl (by simp [Session.start]) nofun

def twoRules : List AclEvent :=
  [.append ⟨"alice", 0⟩, .append ⟨"*", 1⟩, .insert ⟨"bob", 0⟩ 1]

theorem kept_along_twoRules :
    StepsMeet aclStep Counts .start twoRules ∧ Always aclStep Kept .start twoRules := by
  have counts : StepsMeet aclStep Counts .start twoRules := by
    decide +kernel
  exact ⟨counts, (kept_along_iff start_kept twoRules).mpr counts⟩

/-- After two rules of three were removed, a rule for the second position is
dropped, and reported to be the first. -/
def droppedRule : List AclEvent :=
  [.append ⟨"alice", 0⟩, .append ⟨"bob", 0⟩, .append ⟨"carol", 0⟩, .remove "alice", .remove "bob",
    .insert ⟨"dave", 0⟩ 2]

/-- A rule for the second of two positions comes behind the one that denies all. -/
def lastPosition : List AclEvent :=
  [.append ⟨"alice", 0⟩, .append ⟨"*", 1⟩, .insert ⟨"dave", 0⟩ 2]

theorem droppedRule_not_kept : (∃ s, run aclStep .start droppedRule = .ok s ∧
    s.acl.nentries = 3#32 ∧ s.acl.entries = [⟨"carol", 0⟩] ∧
    s.report = some ⟨[⟨"carol", 0⟩], ⟨"dave", 0⟩, 1⟩ ∧
    partyIsAllowed (· == ·) s.acl "dave" = 0 ∧ s.rules.decides (· == ·) "dave" = true ∧
    ¬ Kept s) ∧
    ∃ s, run aclStep .start lastPosition = .ok s ∧
      partyIsAllowed (fun m party => m == "*" || m == party) s.acl "dave" = 0 ∧
      s.rules.decides (fun m party => m == "*" || m == party) "dave" = true ∧ ¬ Kept s := by
  constructor
  · refine ⟨_, rfl, rfl, rfl, rfl, by decide +kernel, by decide +kernel, fun kept => ?_⟩
    exact absurd kept.counted (by decide)
  · refine ⟨_, rfl, by decide +kernel, by decide +kernel, fun kept => ?_⟩
    exact absurd kept.rules (by decide)

end QemuStm32.Acl
