import QemuStm32.Json.Lexer

/-!
# QObjects

The values of `qobject.h` as far as JSON uses them, with the hash table of
`qdict.c`. A QDict is kept as the list that `qdict_iter` walks: bucket after
bucket, the newest entry of a bucket first.
-/

namespace QemuStm32.Json

open List

/-- `D` is the type `double`. -/
inductive QObject (D : Type)
  | qint (value : Int64)
  | qfloat (value : D)
  | qbool (value : Int)
  | qstring (string : Bytes)
  | qdict (entries : List (Bytes × QObject D))
  | qlist (items : List (QObject D))

/-- The string that a `char *` to these bytes denotes. -/
def cString (bytes : Bytes) : Bytes := bytes.takeWhile (· ≠ 0)

/-- `QDICT_BUCKET_MAX`. -/
def qdictBucketMax : UInt32 := 512

def tdbHash (name : Bytes) : UInt32 :=
  let value := (name.zipIdx).foldl
    (fun value (byte, i) => value + (byte.toUInt32 <<< (UInt32.ofNat i * 5 % 24)))
    (0x238F13AF * UInt32.ofNat name.length)
  1103515243 * value + 12345

def bucket (key : Bytes) : UInt32 := tdbHash key % qdictBucketMax

section
variable {V : Type}

/-- The entry of `key` gets the new value. -/
def replaceEntry (key : Bytes) (value : V) (entries : List (Bytes × V)) : List (Bytes × V) :=
  entries.map fun e => if e.1 = key then (key, value) else e

/-- `QLIST_INSERT_HEAD` into the bucket of the key. -/
def insertEntry (key : Bytes) (value : V) (entries : List (Bytes × V)) : List (Bytes × V) :=
  entries.takeWhile (fun e => bucket e.1 < bucket key) ++
    (key, value) :: entries.dropWhile (fun e => bucket e.1 < bucket key)

variable (entries : List (Bytes × V))

def qdictPutObj (key : Bytes) (value : V) : List (Bytes × V) :=
  if entries.any (fun e => e.1 = key) then replaceEntry key value entries
  else insertEntry key value entries

def qdictGet (key : Bytes) : Option V :=
  (entries.find? fun e => e.1 = key).map Prod.snd

/-! ## A QDict is a map -/

theorem qdictGet_cons (e : Bytes × V) (entries : List (Bytes × V)) (key : Bytes) :
    qdictGet (e :: entries) key = if e.1 = key then some e.2 else qdictGet entries key := by
  unfold qdictGet
  by_cases h : e.1 = key <;> simp [h]

theorem qdictGet_append (es fs : List (Bytes × V)) (key : Bytes) :
    qdictGet (es ++ fs) key = (qdictGet es key).or (qdictGet fs key) := by
  unfold qdictGet
  rw [find?_append]
  cases es.find? fun e => e.1 = key <;> rfl

theorem qdictGet_eq_none {entries : List (Bytes × V)} {key : Bytes} :
    qdictGet entries key = none ↔ key ∉ entries.map Prod.fst := by
  unfold qdictGet
  rw [Option.map_eq_none_iff, find?_eq_none, mem_map]
  constructor
  · rintro h ⟨e, he, rfl⟩
    exact h e he (by simp)
  · intro h e he
    rw [decide_eq_true_eq]
    rintro rfl
    exact h ⟨e, he, rfl⟩

theorem qdictGet_replaceEntry (key k : Bytes) (value : V) (entries : List (Bytes × V)) :
    qdictGet (replaceEntry key value entries) k =
      if k = key then (qdictGet entries k).map fun _ => value else qdictGet entries k := by
  induction entries with
  | nil => simp [replaceEntry, qdictGet]
  | cons e entries ih =>
    change qdictGet ((if e.1 = key then (key, value) else e) ::
      replaceEntry key value entries) k = _
    rw [qdictGet_cons, qdictGet_cons, ih]
    by_cases hk : k = key
    · subst hk
      by_cases he : e.1 = k <;> simp [he]
    · by_cases he : e.1 = key
      · simp [he, hk, Ne.symm hk]
      · simp [he, hk]

/-- A put decides what its key yields, and nothing else. -/
theorem qdictGet_putObj (key k : Bytes) (value : V) : qdictGet (qdictPutObj entries key value) k =
      if k = key then some value else qdictGet entries k := by
  unfold qdictPutObj
  split
  · next present =>
    rw [qdictGet_replaceEntry]
    by_cases hk : k = key
    · subst hk
      have there : qdictGet entries k ≠ none := by
        rw [ne_eq, qdictGet_eq_none]
        simpa using present
      obtain ⟨v, hv⟩ := Option.ne_none_iff_exists'.mp there
      simp [hv]
    · simp [hk]
  · next absent =>
    have split : entries.takeWhile (fun e => bucket e.1 < bucket key) ++
        entries.dropWhile (fun e => bucket e.1 < bucket key) = entries :=
      takeWhile_append_dropWhile
    unfold insertEntry
    rw [qdictGet_append, qdictGet_cons]
    by_cases hk : k = key
    · subst hk
      have before : qdictGet (entries.takeWhile fun e => bucket e.1 < bucket k) k = none := by
        rw [qdictGet_eq_none]
        intro hm
        obtain ⟨e, he, hek⟩ := mem_map.mp hm
        exact absent (any_eq_true.mpr ⟨e, takeWhile_subset _ he, by simp [hek]⟩)
      simp [before]
    · rw [if_neg (Ne.symm hk), if_neg hk, ← qdictGet_append, split]

end

end QemuStm32.Json
