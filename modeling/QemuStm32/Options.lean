import QemuStm32.Fault

/-!
# Option groups

`qemu-option.c`. A `QemuOptsList` has a description table and a queue of groups,
each with an id and options. A group stands in the queue before its options are
checked one by one: `qemu_opts_parse` takes it out again when an option is refused,
`qemu_opts_set` does not.
-/

namespace QemuStm32.Options

/-- A C string; a character stands for a byte. -/
abbrev Str := List Char

inductive OptType
  | string
  | bool
  | number
  | size
  deriving DecidableEq, Repr

/-- `QemuOptDesc`, without its help text. -/
structure OptDesc where
  name : Str
  type : OptType
  deriving DecidableEq, Repr

/-- The `value` union, which is zero until it is parsed. -/
inductive OptValue
  | zero
  | boolean (value : Bool)
  | uint (value : BitVec 64)
  deriving DecidableEq, Repr

structure QemuOpt where
  name : Str
  str : Option Str
  desc : Option OptDesc
  value : OptValue
  deriving DecidableEq, Repr

/-- `QemuOpts`, without its location. -/
structure QemuOpts where
  id : Option Str
  head : List QemuOpt
  deriving DecidableEq, Repr

/-- A `QemuOptsList`. The groups are known by their places in `head`. -/
structure OptsList where
  name : Str
  impliedOptName : Option Str
  desc : List OptDesc
  head : List QemuOpts
  deriving DecidableEq, Repr

/-- What `qerror_report` is called with. -/
inductive OptError
  | invalidParameter (name : Str)
  | invalidParameterValue (name : Str) (expected : String)
  | duplicateId (id list : Str)
  deriving DecidableEq, Repr

/-! ## Values -/

/-- The C library: `strtoull` in base 0 and `strtod` give a number and the text behind
it, and `double` arithmetic is left open. -/
structure Libc where
  strtoull : Str → BitVec 64 × Str
  Double : Type
  strtod : Str → Double × Str
  times1024 : Double → Double
  toUint64 : Double → BitVec 64

def parseOptionBool (name : Str) : Option Str → Except OptError Bool
  | none => .ok true
  | some value =>
    if value = "on".toList then .ok true
    else if value = "off".toList then .ok false
    else .error (.invalidParameterValue name "'on' or 'off'")

section
variable (libc : Libc)

def parseOptionNumber (name : Str) : Option Str → Except OptError (BitVec 64)
  | none => .error (.invalidParameterValue name "a number")
  | some value => let (number, rest) := libc.strtoull value
    if rest ≠ [] then .error (.invalidParameterValue name "a number") else .ok number

/-- How often the size is multiplied by 1024 for what stands behind it. -/
def sizeSteps : Str → Option Nat
  | 'T' :: _ => some 4
  | 'G' :: _ => some 3
  | 'M' :: _ => some 2
  | 'K' :: _ | 'k' :: _ => some 1
  | 'b' :: _ | [] => some 0
  | _ => none

def parseOptionSize (name : Str) : Option Str → Except OptError (BitVec 64)
  | none => .error (.invalidParameterValue name "a size")
  | some value => let (sizef, rest) := libc.strtod value
    match sizeSteps rest with
    | some steps => .ok (libc.toUint64 (libc.times1024^[steps] sizef))
    | none => .error (.invalidParameterValue name "a size")

def qemuOptParse (opt : QemuOpt) : Except OptError OptValue :=
  match opt.desc with
  | none => .ok opt.value
  | some desc =>
    match desc.type with
    | .string => .ok opt.value
    | .bool => .boolean <$> parseOptionBool opt.name opt.str
    | .number => .uint <$> parseOptionNumber libc opt.name opt.str
    | .size => .uint <$> parseOptionSize libc opt.name opt.str

/-! ## Groups -/

/-- The option that `qemu_opt_set` puts into the group, before its value is parsed.
An empty table allows any name. -/
def newOpt (desc : List OptDesc) (name : Str) (value : Option Str) : Except OptError QemuOpt :=
  match desc.find? fun d => d.name = name with
  | some d => .ok ⟨name, value, some d, .zero⟩
  | none =>
    if desc = [] then .ok ⟨name, value, none, .zero⟩ else .error (.invalidParameter name)

/-- The result and the group after the call. The option is inserted first and
deleted when its value is refused. -/
def qemuOptSet (desc : List OptDesc) (opts : QemuOpts) (name : Str)
    (value : Option Str) : Except OptError Unit × QemuOpts :=
  match newOpt desc name value with
  | .error e => (.error e, opts)
  | .ok opt =>
    let head := opts.head ++ [opt]
    match qemuOptParse libc opt with
    | .error e => (.error e, { opts with head := head.dropLast })
    | .ok value => (.ok (), { opts with head := head.dropLast ++ [{ opt with value := value }] })

section
variable (list : OptsList)

/-- The place of the first group with the id. -/
def qemuOptsFind (id : Str) : Option Nat :=
  list.head.findIdx? fun opts => opts.id = some id

def idWellformed : Str → Bool
  | [] => false
  | c :: rest => c.isAlpha && rest.all fun c => c.isAlphanum || "-._".toList.contains c

/-- The result is the place of the group. -/
def qemuOptsCreate (id : Option Str) (failIfExists : Bool) : Except OptError Nat × OptsList :=
  let created := (.ok list.head.length, { list with head := list.head ++ [⟨id, []⟩] })
  match id with
  | none => created
  | some id =>
    if !idWellformed id then (.error (.invalidParameterValue "id".toList "an identifier"), list)
    else
      match qemuOptsFind list id with
      | some opts =>
        if failIfExists then (.error (.duplicateId id list.name), list) else (.ok opts, list)
      | none => created

def qemuOptsDel (opts : Nat) : OptsList :=
  { list with head := list.head.eraseIdx opts }

/-- A call that changes one group of the list. -/
def onGroup (opts : Nat) (call : QemuOpts → Except OptError Unit × QemuOpts) :
    Except OptError Unit × OptsList :=
  match list.head[opts]? with
  | none => (.ok (), list)
  | some group =>
    let (result, group) := call group
    (result, { list with head := list.head.set opts group })

def qemuOptsSet (id : Option Str) (name : Str)
    (value : Option Str) : Except OptError Unit × OptsList :=
  match qemuOptsCreate list id true with
  | (.error e, list) => (.error e, list)
  | (.ok opts, list) => onGroup list opts fun group => qemuOptSet libc list.desc group name value

/-! ## Parameter strings -/

/-- The name up to the delimiter, cut to the buffer, and the text from the delimiter on. -/
def getOptName (bufSize : Nat) (delim : Char) (p : Str) : Str × Str :=
  ((p.takeWhile (· ≠ delim)).take (bufSize - 1), p.dropWhile (· ≠ delim))

/-- The value up to a single comma, and the text from the comma on. A double comma
is one comma of the value. -/
def splitValue : Str → Str × Str
  | [] => ([], [])
  | ',' :: ',' :: p =>
    let (value, rest) := splitValue p
    (',' :: value, rest)
  | ',' :: p => ([], ',' :: p)
  | c :: p =>
    let (value, rest) := splitValue p
    (c :: value, rest)

def getOptValue (bufSize : Nat) (p : Str) : Str × Str :=
  let (value, rest) := splitValue p
  (value.take (bufSize - 1), rest)

/-- Whether the next parameter has a value: an equals sign stands before any comma. -/
def hasValue (p : Str) : Bool :=
  (p.takeWhile (· ≠ ',')).contains '='

/-- One parameter from the start of `p`: its option, its value and the rest. -/
def nextParam (firstname : Option Str) (p : Str) : Str × Str × Str :=
  if !hasValue p then
    match firstname with
    | some name =>
      let (value, rest) := getOptValue 1024 p
      (name.take 127, value, rest)
    | none =>
      let (option, rest) := getOptName 128 ',' p
      if option.take 2 = "no".toList then (option.drop 2, "off".toList, rest)
      else (option, "on".toList, rest)
  else
    let (option, rest) := getOptName 128 '=' p
    let (value, rest) := getOptValue 1024 rest.tail
    (option, value, rest)

theorem splitValue_length (p : Str) : (splitValue p).2.length ≤ p.length := by
  fun_induction splitValue p with
  | case1 => exact Nat.le_refl 0
  | case2 p value rest eq ih =>
    rw [eq] at ih
    exact Nat.le_add_right_of_le (Nat.le_add_right_of_le ih)
  | case3 => exact le_rfl
  | case4 c p _ _ value rest eq ih =>
    rw [eq] at ih
    exact Nat.le_add_right_of_le ih

theorem nextParam_length (firstname : Option Str) (p : Str) :
    (nextParam firstname p).2.2.length ≤ p.length := by
  have behind delim : (getOptName 128 delim p).2.length ≤ p.length :=
    (List.dropWhile_sublist _).length_le
  unfold nextParam
  split
  · split
    · exact splitValue_length p
    · dsimp only
      split <;> exact behind ','
  · have value := splitValue_length (getOptName 128 '=' p).2.tail
    rw [List.length_tail] at value
    exact value.trans (Nat.le_trans (Nat.sub_le _ 1) (behind '='))

/-- The loop of `qemu_opts_do_parse`; `firstname` is the implied name of the first
parameter while that is the next one. -/
def qemuOptsDoParse (libc : Libc) (desc : List OptDesc) (opts : QemuOpts) (p : Str)
    (firstname : Option Str) : Except OptError Unit × QemuOpts :=
  match p with
  | [] => (.ok (), opts)
  | c :: cs =>
    let param := nextParam firstname (c :: cs)
    let (result, opts) :=
      if param.1 ≠ "id".toList then qemuOptSet libc desc opts param.1 (some param.2.1)
      else (.ok (), opts)
    match result with
    | .error e => (.error e, opts)
    | .ok () =>
      match _behind : param.2.2 with
      | ',' :: rest => qemuOptsDoParse libc desc opts rest none
      | _ => (.ok (), opts)
termination_by p.length
decreasing_by
  have := nextParam_length firstname (c :: cs)
  rw [show (nextParam firstname (c :: cs)).2.2 = ',' :: rest from _behind] at this
  simp at this ⊢
  omega

/-- The text behind the first place where `pattern` stands. -/
def textBehind (pattern : Str) : Str → Option Str
  | [] => none
  | c :: cs =>
    if pattern.isPrefixOf (c :: cs) then some ((c :: cs).drop pattern.length)
    else textBehind pattern cs

def paramsId (params : Str) : Option Str :=
  if "id=".toList.isPrefixOf params then some (getOptValue 1024 (params.drop 3)).1
  else (textBehind ",id=".toList params).map fun p => (getOptValue 1024 p).1

def qemuOptsParse (params : Str) (permitAbbrev : Bool) :
    Except Fault (Except OptError Unit × OptsList) :=
  if permitAbbrev ∧ list.impliedOptName = none then
    .error (.assertFailed "!permit_abbrev || list->implied_opt_name")
  else
    let firstname := if permitAbbrev then list.impliedOptName else none
    match qemuOptsCreate list (paramsId params) true with
    | (.error e, list) => .ok (.error e, list)
    | (.ok opts, list) =>
      match onGroup list opts fun group =>
          qemuOptsDoParse libc list.desc group params firstname with
      | (.error e, list) => .ok (.error e, qemuOptsDel list opts)
      | (.ok (), list) => .ok (.ok (), list)

end

/-! ## Requests -/

inductive Request
  | create (id : Option Str) (failIfExists : Bool)
  | set (id : Option Str) (name : Str) (value : Option Str)
  | parse (params : Str) (permitAbbrev : Bool)
  deriving DecidableEq, Repr

variable (list : OptsList)

/-- The result of a request and the list after it. -/
def perform : Request → Except Fault (Except OptError Unit × OptsList)
  | .create id failIfExists => let (result, list) := qemuOptsCreate list id failIfExists
    .ok (result.map fun _ => (), list)
  | .set id name value => .ok (qemuOptsSet libc list id name value)
  | .parse params permitAbbrev => qemuOptsParse libc list params permitAbbrev

/-- A request that fails leaves the list as it was. -/
def FailureKeepsList (request : Request) : Prop :=
  ∀ e list', perform libc list request = .ok (.error e, list') → list' = list

/-- The id is malformed or in use. -/
def IdRefused (id : Option Str) : Prop :=
  ∃ s ∈ id, idWellformed s = false ∨ (qemuOptsFind list s).isSome

/-- The name is in the table, or the table is empty, and the value can be parsed. -/
def OptAccepted (desc : List OptDesc) (name : Str) (value : Option Str) : Prop :=
  ∃ opt v, newOpt desc name value = .ok opt ∧ qemuOptParse libc opt = .ok v

/-- Only `qemu_opts_set` depends on the request: its group is not created, or its
option is accepted. -/
def Undone : Request → Prop
  | .create _ _ | .parse _ _ => True
  | .set id name value => IdRefused list id ∨ OptAccepted libc list.desc name value

end

variable {list list' : OptsList} {id : Option Str} {e : OptError} {libc : Libc}

theorem qemuOptsCreate_failure {failIfExists : Bool}
    (h : qemuOptsCreate list id failIfExists = (.error e, list')) : list' = list := by
  unfold qemuOptsCreate at h
  split at h
  · cases h
  split at h
  · cases h
    rfl
  split at h
  · split at h
    · cases h
      rfl
    · cases h
  · cases h

/-- A new group is the last one of the list. -/
theorem qemuOptsCreate_cases (list : OptsList) (id : Option Str) :
    (IdRefused list id ∧ ∃ e, qemuOptsCreate list id true = (.error e, list)) ∨
      ¬ IdRefused list id ∧ qemuOptsCreate list id true =
        (.ok list.head.length, { list with head := list.head ++ [⟨id, []⟩] }) := by
  unfold qemuOptsCreate
  cases id with
  | none => exact .inr ⟨by simp [IdRefused], rfl⟩
  | some id =>
    cases wellformed : idWellformed id with
    | false => exact .inl ⟨⟨id, rfl, .inl wellformed⟩, _, by simp only [wellformed]; rfl⟩
    | true =>
      cases found : qemuOptsFind list id with
      | some opts =>
        exact .inl ⟨⟨id, rfl, .inr (by simp [found])⟩, _, by simp only [wellformed, found]; rfl⟩
      | none => exact .inr ⟨by simp [IdRefused, wellformed, found], by simp [wellformed, found]⟩

/-- What `onGroup` does to the last group. -/
theorem onGroup_last (list : OptsList) (group : QemuOpts)
    (call : QemuOpts → Except OptError Unit × QemuOpts) :
    onGroup { list with head := list.head ++ [group] } list.head.length call =
      ((call group).1, { list with head := list.head ++ [(call group).2] }) := by
  simp [onGroup]

theorem qemuOptsDel_last (list : OptsList) (group : QemuOpts) :
    qemuOptsDel { list with head := list.head ++ [group] } list.head.length = list := by
  simp [qemuOptsDel, List.eraseIdx_append_of_length_le]

/-- The option is set exactly when it is accepted. -/
theorem qemuOptSet_ok_iff (libc : Libc) (desc : List OptDesc) (opts : QemuOpts) (name : Str)
    (value : Option Str) :
    (qemuOptSet libc desc opts name value).1 = .ok () ↔ OptAccepted libc desc name value := by
  unfold qemuOptSet OptAccepted
  cases hopt : newOpt desc name value with
  | error e => simp
  | ok opt =>
    cases hv : qemuOptParse libc opt with
    | error e | ok v => simp [hv]

theorem qemuOptsSet_refused {name : Str} {value : Option Str} {result : Except OptError Unit}
    (refused : IdRefused list id) (h : qemuOptsSet libc list id name value = (result, list')) :
    list' = list := by
  obtain ⟨_, e, created⟩ | ⟨accepted, _⟩ := qemuOptsCreate_cases list id
  · unfold qemuOptsSet at h
    rw [created] at h
    cases h
    rfl
  · exact absurd refused accepted

/-- The new group stays, whatever becomes of its option. -/
theorem qemuOptsSet_created (accepted : ¬ IdRefused list id) (libc : Libc) (name : Str)
    (value : Option Str) :
    qemuOptsSet libc list id name value =
      ((qemuOptSet libc list.desc ⟨id, []⟩ name value).1,
        { list with head :=
            list.head ++ [(qemuOptSet libc list.desc ⟨id, []⟩ name value).2] }) := by
  obtain ⟨refused, _⟩ | ⟨_, created⟩ := qemuOptsCreate_cases list id
  · exact absurd refused accepted
  · unfold qemuOptsSet
    rw [created]
    exact onGroup_last list ⟨id, []⟩ _

theorem qemuOptsParse_failure {params : Str} {permitAbbrev : Bool}
    (h : qemuOptsParse libc list params permitAbbrev = .ok (.error e, list')) : list' = list := by
  unfold qemuOptsParse at h
  split at h
  · cases h
  obtain ⟨_, e, created⟩ | ⟨_, created⟩ := qemuOptsCreate_cases list (paramsId params)
  · rw [created] at h
    cases h
    rfl
  rw [created] at h
  dsimp only at h
  rw [onGroup_last] at h
  split at h
  · rename_i failed
    cases h
    obtain ⟨-, rfl⟩ := Prod.mk.inj failed
    exact qemuOptsDel_last list _
  · cases h

/-- A failed request leaves the list as it was, except when `qemu_opts_set` creates a
group and its option is then refused. -/
theorem failureKeepsList_iff (libc : Libc) (list : OptsList) (request : Request) :
    FailureKeepsList libc list request ↔ Undone libc list request := by
  cases request with
  | create id failIfExists =>
    refine iff_of_true ?_ trivial
    intro e list' h
    cases created : qemuOptsCreate list id failIfExists with
    | mk result after =>
      simp only [perform, created] at h
      cases result with
      | ok opts => cases h
      | error e =>
        cases h
        exact qemuOptsCreate_failure created
  | set id name value =>
    by_cases refused : IdRefused list id
    · refine iff_of_true ?_ (.inl refused)
      intro e list' h
      exact qemuOptsSet_refused refused (Except.ok.inj h)
    have created := qemuOptsSet_created refused libc name value
    have accepts := qemuOptSet_ok_iff libc list.desc ⟨id, []⟩ name value
    constructor
    · intro keeps
      refine .inr (accepts.mp ?_)
      cases result : (qemuOptSet libc list.desc ⟨id, []⟩ name value).1 with
      | ok done => rfl
      | error e =>
        -- the list is longer than before
        have same := congrArg (·.head.length) (keeps e _ (congrArg Except.ok (by
          rw [created, result])))
        simp at same
    · rintro (taken | accepted) e list' h
      · exact absurd taken refused
      · have := congrArg Prod.fst (created.symm.trans (Except.ok.inj h))
        rw [accepts.mpr accepted] at this
        cases this
  | parse params permitAbbrev =>
    exact iff_of_true (fun e list' h => qemuOptsParse_failure h) trivial

/-- A library that reads decimal numbers. -/
def decimal : Libc where
  strtoull s := (0, s.dropWhile Char.isDigit)
  Double := Nat
  strtod s := (0, s.dropWhile Char.isDigit)
  times1024 n := n * 1024
  toUint64 n := BitVec.ofNat 64 n

/-- A list of groups with one option, which is on or off. -/
def devices : OptsList where
  name := "device".toList
  impliedOptName := none
  desc := [⟨"enabled".toList, .bool⟩]
  head := []

/-- A refused option leaves its group behind, and the id is taken. -/
theorem refusedOption_takesId :
    ¬ FailureKeepsList decimal devices
        (.set (some "d0".toList) "enabled".toList (some "maybe".toList)) ∧
      (qemuOptsCreate (qemuOptsSet decimal devices (some "d0".toList) "enabled".toList
        (some "maybe".toList)).2 (some "d0".toList) true).1 =
          .error (.duplicateId "d0".toList "device".toList) := by
  constructor
  · intro keeps
    have same := keeps (.invalidParameterValue "enabled".toList "'on' or 'off'")
      { devices with head := [⟨some "d0".toList, []⟩] } (by rfl)
    simp [devices] at same
  · rfl

end QemuStm32.Options
