/-!
# Caches by Source

Values built from source texts, kept under the text they were built from. A
fingerprint of the text picks a bucket, and the full text is compared inside
it, so texts that share a fingerprint are still told apart.

The fingerprint is a parameter: nothing about a cache depends on which
function it is.

## Main definitions

* `SourceCache`: Buckets of entries and how many entries there are.
* `SourceCache.get?`, `SourceCache.insert`: Reading and writing.
* `SourceCache.getOrBuild`: The entry for a text, built if there is none.
* `fingerprint`: The fingerprint in use.

## Theorems

* `SourceCache.get?_insert_self`, `SourceCache.get?_insert_of_ne`: What
  storing a value changes, whatever the fingerprint is.
-/

namespace RenderFold

/-- Entries in buckets picked by a fingerprint of their text. -/
structure SourceCache (α : Type) where
  buckets : List (UInt64 × List (String × α))
  size : Nat

namespace SourceCache

variable {α ε : Type} (hash : String → UInt64)

/-- The cache without entries. -/
def empty : SourceCache α := ⟨[], 0⟩

/-- The bucket of a fingerprint. -/
def bucket (cache : SourceCache α) (print : UInt64) : List (String × α) :=
  ((cache.buckets.find? fun bucket => bucket.1 == print).map (·.2)).getD []

/-- The value stored for a text. -/
def get? (cache : SourceCache α) (source : String) : Option α :=
  ((cache.bucket (hash source)).find? fun entry => entry.1 == source).map (·.2)

/-- Put a value under a text in a bucket; the answer also says whether the
    text is new there. -/
def insertEntry (source : String) (value : α) : List (String × α) → Bool × List (String × α)
  | [] => (true, [(source, value)])
  | entry :: rest =>
    if entry.1 = source then (false, (source, value) :: rest)
    else
      let (isNew, rest) := insertEntry source value rest
      (isNew, entry :: rest)

/-- Replace the bucket of a fingerprint. -/
def setBucket (print : UInt64) (entries : List (String × α)) :
    List (UInt64 × List (String × α)) → List (UInt64 × List (String × α))
  | [] => [(print, entries)]
  | bucket :: rest =>
    if bucket.1 = print then (print, entries) :: rest
    else bucket :: setBucket print entries rest

/-- Store a value for a text in place of any earlier one. -/
def insert (cache : SourceCache α) (source : String) (value : α) : SourceCache α :=
  let (isNew, entries) := insertEntry source value (cache.bucket (hash source))
  { buckets := setBucket (hash source) entries cache.buckets
    size := if isNew then cache.size + 1 else cache.size }

theorem find?_insertEntry_self (source : String) (value : α) (entries : List (String × α)) :
    (insertEntry source value entries).2.find? (·.1 == source) = some (source, value) := by
  induction entries with
  | nil => simp only [insertEntry, List.find?_cons, beq_self_eq_true]
  | cons entry rest ih =>
      by_cases h : entry.1 = source
      · simp only [insertEntry, if_pos h, List.find?_cons, beq_self_eq_true]
      · simp only [insertEntry, if_neg h, List.find?_cons, beq_eq_false_iff_ne.mpr h, ih]

theorem find?_insertEntry_of_ne {source other : String} (hne : other ≠ source) (value : α)
    (entries : List (String × α)) :
    (insertEntry source value entries).2.find? (·.1 == other) =
      entries.find? (·.1 == other) := by
  induction entries with
  | nil => simp only [insertEntry, List.find?_cons, beq_eq_false_iff_ne.mpr (Ne.symm hne)]
  | cons entry rest ih =>
      by_cases h : entry.1 = source
      · have hentry : entry.1 ≠ other := h ▸ Ne.symm hne
        simp only [insertEntry, if_pos h, List.find?_cons, beq_eq_false_iff_ne.mpr hentry,
          beq_eq_false_iff_ne.mpr (Ne.symm hne)]
      · simp only [insertEntry, if_neg h, List.find?_cons, ih]

theorem find?_setBucket (print other : UInt64) (entries : List (String × α))
    (buckets : List (UInt64 × List (String × α))) :
    (setBucket print entries buckets).find? (·.1 == other) =
      if other = print then some (print, entries) else buckets.find? (·.1 == other) := by
  induction buckets with
  | nil =>
      by_cases h : other = print
      · simp only [setBucket, List.find?_cons, h, beq_self_eq_true, if_true]
      · simp only [setBucket, List.find?_cons, beq_eq_false_iff_ne.mpr (Ne.symm h), if_neg h]
  | cons bucket rest ih =>
      by_cases hbucket : bucket.1 = print
      · by_cases h : other = print
        · simp only [setBucket, if_pos hbucket, List.find?_cons, h, beq_self_eq_true, if_true]
        · have hne : bucket.1 ≠ other := hbucket ▸ Ne.symm h
          simp only [setBucket, if_pos hbucket, List.find?_cons, if_neg h,
            beq_eq_false_iff_ne.mpr (Ne.symm h), beq_eq_false_iff_ne.mpr hne]
      · by_cases h : other = print
        · subst h
          simp only [setBucket, if_neg hbucket, List.find?_cons,
            beq_eq_false_iff_ne.mpr hbucket, ih, if_true]
        · simp only [setBucket, if_neg hbucket, List.find?_cons, ih, if_neg h]

theorem bucket_insert (cache : SourceCache α) (source : String) (value : α) (print : UInt64) :
    (cache.insert hash source value).bucket print =
      if print = hash source then (insertEntry source value (cache.bucket (hash source))).2
      else cache.bucket print := by
  simp only [insert, bucket, find?_setBucket]
  split <;> rfl

theorem get?_insert_self (cache : SourceCache α) (source : String) (value : α) :
    (cache.insert hash source value).get? hash source = some value := by
  simp only [get?, bucket_insert, if_true, find?_insertEntry_self, Option.map_some]

theorem get?_insert_of_ne (cache : SourceCache α) {source other : String} (hne : other ≠ source)
    (value : α) : (cache.insert hash source value).get? hash other = cache.get? hash other := by
  simp only [get?, bucket_insert]
  split
  · next h => rw [find?_insertEntry_of_ne hne, h]
  · rfl

/-- The value stored for a text. It is built and stored if there is none, and
    nothing is stored when building fails. The answer also says whether it
    was built. -/
def getOrBuild (cache : SourceCache α) (source : String) (build : Unit → Except ε α) :
    (Except ε α × Bool) × SourceCache α :=
  match cache.get? hash source with
  | some value => ((.ok value, false), cache)
  | none =>
    match build () with
    | .ok value => ((.ok value, true), cache.insert hash source value)
    | .error e => ((.error e, true), cache)

end SourceCache

/-- A fingerprint of a text: its characters as the digits of a number, modulo
    `2 ^ 64`. -/
def fingerprint (source : String) : UInt64 :=
  source.toList.foldl (fun n c => n * 1099511628211 + c.toNat.toUInt64) 14695981039346656037

end RenderFold
