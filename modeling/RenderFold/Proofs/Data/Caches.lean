import Mathlib.Data.Set.Card
import RenderFold.Data.Cache

/-!
# Caches as Maps

A cache keeps its entries in buckets and counts them as they come in. Whoever
uses it sees none of that: it answers like a map from texts to values, and it
says that it holds as many entries as there are texts with a value.

Nothing is asked of the fingerprint, which may even be the same for all texts.
What has to be true of the buckets is that there is one for each fingerprint
that occurs, that an entry is in the bucket of its fingerprint, and that a
bucket has one entry for each text. Then a text has one entry in all, which is
why counting the entries that are new comes to counting the texts.

## Main definitions

* `SourceCache.Request`, `SourceCache.Answer`, `SourceCache.serve`: What a
  cache is asked for, and what it answers.
* `SourceCache.serveMap`: What a map answers.
* `SourceCache.Sound`: How entries are spread over buckets.
* `SourceCache.Holds`: A cache holds what a map does.

## Theorems

* `SourceCache.Sound.insert`: Storing a value keeps the buckets sound.
* `SourceCache.Sound.size_eq`: How many entries there are.
* `SourceCache.Holds.serve`, `SourceCache.Holds.serveAll`: A cache answers like
  a map, once and any number of times.
* `SourceCache.serves_map`: The same from the beginning.
-/

namespace RenderFold

namespace SourceCache

variable {α ε σ : Type}

/-- What a cache is asked for: the value of a text, to store one, or to build
    one if there is none. -/
inductive Request (ε α : Type) where
  | get (source : String)
  | insert (source : String) (value : α)
  | getOrBuild (source : String) (build : Unit → Except ε α)

/-- What it answers. Whoever had a value built is also told whether it had to
    be. -/
inductive Answer (ε α : Type) where
  | found (value : Option α)
  | stored
  | built (outcome : Except ε α) (ran : Bool)

/-- The answer of a cache, and the cache afterwards. -/
def serve (hash : String → UInt64) (cache : SourceCache α) :
    Request ε α → Answer ε α × SourceCache α
  | .get source => (.found (cache.get? hash source), cache)
  | .insert source value => (.stored, cache.insert hash source value)
  | .getOrBuild source build =>
    let ((outcome, ran), cache) := cache.getOrBuild hash source build
    (.built outcome ran, cache)

/-- The answer of a map from texts to values, and the map afterwards. A value
    is built if the text has none, and stored unless building it fails. -/
def serveMap (map : String → Option α) : Request ε α → Answer ε α × (String → Option α)
  | .get source => (.found (map source), map)
  | .insert source value => (.stored, Function.update map source (some value))
  | .getOrBuild source build =>
    match map source with
    | some value => (.built (.ok value) false, map)
    | none =>
      match build () with
      | .ok value => (.built (.ok value) true, Function.update map source (some value))
      | .error e => (.built (.error e) true, map)

/-- The answers to requests in turn. -/
def serveAll (serve : σ → Request ε α → Answer ε α × σ) (state : σ) :
    List (Request ε α) → List (Answer ε α) × σ
  | [] => ([], state)
  | request :: rest =>
    let (answer, state) := serve state request
    let (answers, state) := serveAll serve state rest
    (answer :: answers, state)

variable (hash : String → UInt64)

/-- How entries are spread over buckets. -/
structure Sound (cache : SourceCache α) : Prop where
  prints : (cache.buckets.map (·.1)).Nodup
  placed : ∀ bucket ∈ cache.buckets, ∀ entry ∈ bucket.2, hash entry.1 = bucket.1
  single : ∀ bucket ∈ cache.buckets, (bucket.2.map (·.1)).Nodup
  counted : cache.size = (cache.buckets.map (·.2.length)).sum

variable {hash} {cache : SourceCache α} {source : String} {value : α} {print : UInt64}

/-- The bucket of a fingerprint is one of the buckets, unless there is none for
    that fingerprint. -/
theorem bucket_cases (cache : SourceCache α) (print : UInt64) :
    (print ∉ cache.buckets.map (·.1) ∧ cache.bucket print = []) ∨
      (print, cache.bucket print) ∈ cache.buckets := by
  unfold bucket
  cases hfind : cache.buckets.find? fun bucket => bucket.1 == print with
  | none =>
      refine .inl ⟨fun hmem => ?_, rfl⟩
      obtain ⟨found, hfound, rfl⟩ := List.mem_map.mp hmem
      exact List.find?_eq_none.mp hfind found hfound (beq_self_eq_true _)
  | some found =>
      have hprint : found.1 = print := by
        simpa only [beq_iff_eq] using List.find?_some hfind
      rw [← hprint]
      exact .inr (List.mem_of_find?_eq_some hfind)

/-- Storing a value under a text in a bucket adds the text, if it is new. -/
theorem insertEntry_keys (source : String) (value : α) (entries : List (String × α)) :
    ∃ added, (insertEntry source value entries).2.map (·.1) = entries.map (·.1) ++ added ∧
      (∀ new ∈ added, new = source ∧ new ∉ entries.map (·.1)) ∧
      added.length = if (insertEntry source value entries).1 then 1 else 0 := by
  induction entries with
  | nil =>
      exact ⟨[source], rfl, fun new hnew => ⟨List.mem_singleton.mp hnew, List.not_mem_nil⟩, rfl⟩
  | cons entry rest ih =>
      rw [insertEntry]
      by_cases hentry : entry.1 = source
      · rw [if_pos hentry]
        subst hentry
        exact ⟨[], (List.append_nil _).symm, List.forall_mem_nil _, rfl⟩
      · rw [if_neg hentry]
        obtain ⟨added, hkeys, hadded, hlength⟩ := ih
        refine ⟨added, congrArg (entry.1 :: ·) hkeys, fun new hnew => ?_, hlength⟩
        obtain ⟨rfl, hrest⟩ := hadded new hnew
        exact ⟨rfl, fun hmem => (List.mem_cons.mp hmem).elim (fun h => hentry h.symm) hrest⟩

/-- There is one entry more if the text is new. -/
theorem length_insertEntry (source : String) (value : α) (entries : List (String × α)) :
    (insertEntry source value entries).2.length =
      entries.length + if (insertEntry source value entries).1 then 1 else 0 := by
  obtain ⟨added, hkeys, -, hlength⟩ := insertEntry_keys source value entries
  have hcount := congrArg List.length hkeys
  rwa [List.length_append, List.length_map, List.length_map, hlength] at hcount

/-- A bucket takes the place of the one with its fingerprint, and the others
    stay. -/
theorem setBucket_perm {buckets : List (UInt64 × List (String × α))}
    (h : (buckets.map (·.1)).Nodup) (print : UInt64) (entries : List (String × α)) :
    (setBucket print entries buckets).Perm
      ((print, entries) :: buckets.filter (·.1 ≠ print)) := by
  induction buckets with
  | nil => exact .refl _
  | cons bucket rest ih =>
      obtain ⟨hbucket, hrest⟩ := List.nodup_cons.mp h
      rw [setBucket]
      by_cases hprint : bucket.1 = print
      · have hothers : rest.filter (·.1 ≠ print) = rest := by
          refine List.filter_eq_self.mpr fun other hother => decide_eq_true fun hsame => hbucket ?_
          exact List.mem_map.mpr ⟨other, hother, hsame.trans hprint.symm⟩
        rw [if_pos hprint, List.filter_cons_of_neg (by simpa using hprint), hothers]
      · rw [if_neg hprint, List.filter_cons_of_pos (by simpa using hprint)]
        exact ((ih hrest).cons bucket).trans (.swap _ _ _)

/-- How many entries there are once a bucket has been replaced. -/
theorem sum_setBucket (cache : SourceCache α) (print : UInt64) (entries : List (String × α)) :
    ((setBucket print entries cache.buckets).map (·.2.length)).sum + (cache.bucket print).length =
      (cache.buckets.map (·.2.length)).sum + entries.length := by
  unfold bucket
  induction cache.buckets with
  | nil => exact Nat.add_comm _ _
  | cons bucket rest ih =>
      rw [setBucket, List.find?_cons]
      by_cases hprint : bucket.1 = print
      · rw [if_pos hprint, beq_iff_eq.mpr hprint]
        simp only [List.map_cons, List.sum_cons, Option.map_some, Option.getD_some]
        omega
      · rw [if_neg hprint, beq_eq_false_iff_ne.mpr hprint]
        simp only [List.map_cons, List.sum_cons]
        omega

/-- The texts that stand in the buckets. -/
def sources (cache : SourceCache α) : List String :=
  cache.buckets.flatMap fun bucket => bucket.2.map (·.1)

/-- A text has a value if it stands in the bucket of its fingerprint. -/
theorem get?_ne_none_iff : cache.get? hash source ≠ none ↔
    source ∈ (cache.bucket (hash source)).map (·.1) := by
  rw [get?, Ne, Option.map_eq_none_iff, List.find?_eq_none, List.mem_map]
  simp only [beq_iff_eq, not_forall, not_not, exists_prop]

namespace Sound

theorem empty : Sound hash (empty : SourceCache α) :=
  ⟨List.nodup_nil, List.forall_mem_nil _, List.forall_mem_nil _, rfl⟩

/-- There is only one bucket for a fingerprint. -/
theorem bucket_eq (h : Sound hash cache) {entries : List (String × α)}
    (hmem : (print, entries) ∈ cache.buckets) : cache.bucket print = entries := by
  rcases bucket_cases cache print with ⟨hnone, -⟩ | hbucket
  · exact absurd (List.mem_map_of_mem hmem) hnone
  · exact congrArg Prod.snd (List.inj_on_of_nodup_map h.prints hbucket hmem rfl)

/-- The texts in a bucket have its fingerprint. -/
theorem hash_eq (h : Sound hash cache) (hsource : source ∈ (cache.bucket print).map (·.1)) :
    hash source = print := by
  obtain ⟨entry, hentry, rfl⟩ := List.mem_map.mp hsource
  rcases bucket_cases cache print with ⟨-, hnil⟩ | hbucket
  · rw [hnil] at hentry
    cases hentry
  · exact h.placed _ hbucket entry hentry

theorem nodup_bucket (h : Sound hash cache) (print : UInt64) :
    ((cache.bucket print).map (·.1)).Nodup := by
  rcases bucket_cases cache print with ⟨-, hnil⟩ | hbucket
  · rw [hnil]
    exact List.nodup_nil
  · exact h.single _ hbucket

/-- The bucket that a value is stored in still has the texts of one
    fingerprint, each of them once. -/
theorem insertEntry (h : Sound hash cache) (source : String) (value : α) :
    (∀ entry ∈ (insertEntry source value (cache.bucket (hash source))).2,
        hash entry.1 = hash source) ∧
      ((insertEntry source value (cache.bucket (hash source))).2.map (·.1)).Nodup := by
  obtain ⟨added, hkeys, hadded, hlength⟩ :=
    insertEntry_keys source value (cache.bucket (hash source))
  constructor
  · intro entry hentry
    have hmem := List.mem_map_of_mem (f := (·.1)) hentry
    rw [hkeys, List.mem_append] at hmem
    rcases hmem with hmem | hmem
    · exact h.hash_eq hmem
    · rw [(hadded _ hmem).1]
  · rw [hkeys]
    refine List.nodup_append.mpr ⟨h.nodup_bucket _, ?_, fun old hold new hnew heq => ?_⟩
    · refine List.nodup_iff_count_le_one.mpr fun new => List.count_le_length.trans ?_
      rw [hlength]
      split <;> decide
    · exact (hadded new hnew).2 (heq ▸ hold)

/-- Storing a value keeps the buckets sound. -/
theorem insert (h : Sound hash cache) (source : String) (value : α) :
    Sound hash (cache.insert hash source value) := by
  obtain ⟨hplaced, hsingle⟩ := h.insertEntry source value
  have hlength := length_insertEntry source value (cache.bucket (hash source))
  have hsum := sum_setBucket cache (hash source)
    (SourceCache.insertEntry source value (cache.bucket (hash source))).2
  have hperm := setBucket_perm h.prints (hash source)
    (SourceCache.insertEntry source value (cache.bucket (hash source))).2
  -- A bucket is the one that was written, or one that was there.
  refine ⟨?_, fun bucket hbucket => ?_, fun bucket hbucket => ?_, ?_⟩
  · refine (hperm.map _).nodup_iff.mpr (List.nodup_cons.mpr ⟨fun hmem => ?_, ?_⟩)
    · obtain ⟨other, hother, hprint⟩ := List.mem_map.mp hmem
      exact of_decide_eq_true (List.mem_filter.mp hother).2 hprint
    · exact h.prints.sublist (List.filter_sublist.map _)
  · rcases List.mem_cons.mp (hperm.mem_iff.mp hbucket) with rfl | hold
    · exact hplaced
    · exact h.placed bucket (List.mem_of_mem_filter hold)
  · rcases List.mem_cons.mp (hperm.mem_iff.mp hbucket) with rfl | hold
    · exact hsingle
    · exact h.single bucket (List.mem_of_mem_filter hold)
  · have hsize : (cache.insert hash source value).size = cache.size +
        if (SourceCache.insertEntry source value (cache.bucket (hash source))).1 then 1 else 0 := by
      unfold SourceCache.insert
      dsimp only
      split <;> rfl
    rw [hsize, h.counted]
    unfold SourceCache.insert
    dsimp only
    omega

/-- No text has two entries, not even in different buckets. -/
theorem nodup_sources (h : Sound hash cache) : cache.sources.Nodup := by
  refine List.nodup_flatMap.mpr ⟨h.single, ?_⟩
  refine (List.pairwise_map.mp h.prints).imp_of_mem fun {bucket other} hbucket hother hne => ?_
  refine List.disjoint_left.mpr fun source hmem hmem' => hne ?_
  obtain ⟨entry, hentry, rfl⟩ := List.mem_map.mp hmem
  obtain ⟨entry', hentry', hsame⟩ := List.mem_map.mp hmem'
  rw [← h.placed bucket hbucket entry hentry, ← h.placed other hother entry' hentry', hsame]

theorem length_sources (h : Sound hash cache) : cache.sources.length = cache.size := by
  rw [sources, List.length_flatMap, h.counted]
  simp only [List.length_map]

/-- The texts that stand in the buckets are those that have a value. -/
theorem mem_sources_iff (h : Sound hash cache) :
    source ∈ cache.sources ↔ cache.get? hash source ≠ none := by
  rw [get?_ne_none_iff, sources, List.mem_flatMap]
  constructor
  · rintro ⟨bucket, hbucket, hmem⟩
    obtain ⟨entry, hentry, rfl⟩ := List.mem_map.mp hmem
    rw [h.placed bucket hbucket entry hentry, h.bucket_eq hbucket]
    exact hmem
  · intro hmem
    rcases bucket_cases cache (hash source) with ⟨-, hnil⟩ | hbucket
    · rw [hnil] at hmem
      cases hmem
    · exact ⟨_, hbucket, hmem⟩

/-- There are as many entries as there are texts with a value. -/
theorem size_eq (h : Sound hash cache) :
    cache.size = {source | cache.get? hash source ≠ none}.ncard := by
  have hset : {source | cache.get? hash source ≠ none} =
      (cache.sources.toFinset : Set String) := by
    ext source
    rw [Finset.mem_coe, List.mem_toFinset, h.mem_sources_iff]
    rfl
  rw [hset, Set.ncard_coe_finset, List.toFinset_card_of_nodup h.nodup_sources, h.length_sources]

end Sound

variable (hash) in
/-- A cache holds what a map does. -/
structure Holds (cache : SourceCache α) (map : String → Option α) : Prop where
  sound : Sound hash cache
  get : ∀ source, cache.get? hash source = map source

namespace Holds

variable {map : String → Option α}

variable (hash) in
theorem empty : Holds hash (empty : SourceCache α) fun _ => none := ⟨.empty, fun _ => rfl⟩

theorem insert (h : Holds hash cache map) (source : String) (value : α) :
    Holds hash (cache.insert hash source value) (Function.update map source (some value)) := by
  refine ⟨h.sound.insert source value, fun other => ?_⟩
  by_cases hother : other = source
  · rw [hother, get?_insert_self, Function.update_self]
  · rw [get?_insert_of_ne hash cache hother, Function.update_of_ne hother, h.get]

/-- A cache answers like a map that holds the same. -/
theorem serve (h : Holds hash cache map) (request : Request ε α) :
    (serve hash cache request).1 = (serveMap map request).1 ∧
      Holds hash (SourceCache.serve hash cache request).2 (serveMap map request).2 := by
  cases request with
  | get source => exact ⟨congrArg Answer.found (h.get source), h⟩
  | insert source value => exact ⟨rfl, h.insert source value⟩
  | getOrBuild source build =>
      simp only [SourceCache.serve, getOrBuild, serveMap, h.get]
      cases map source with
      | some value => exact ⟨rfl, h⟩
      | none =>
          cases build () with
          | ok value => exact ⟨rfl, h.insert source value⟩
          | error e => exact ⟨rfl, h⟩

/-- And so it does whatever it is asked in turn. -/
theorem serveAll (h : Holds hash cache map) (requests : List (Request ε α)) :
    (serveAll (SourceCache.serve hash) cache requests).1 = (serveAll serveMap map requests).1 ∧
      Holds hash (SourceCache.serveAll (SourceCache.serve hash) cache requests).2
        (SourceCache.serveAll serveMap map requests).2 := by
  induction requests generalizing cache map with
  | nil => exact ⟨rfl, h⟩
  | cons request rest ih =>
      obtain ⟨hanswer, hnext⟩ := h.serve request
      obtain ⟨hanswers, hlast⟩ := ih hnext
      exact ⟨List.cons_eq_cons.mpr ⟨hanswer, hanswers⟩, hlast⟩

end Holds

/-- A value is built if the text has none, and only then, and if building it
    fails the cache stays as it is. -/
theorem getOrBuild_cases (hash : String → UInt64) (cache : SourceCache α) (source : String)
    (build : Unit → Except ε α) :
    ((cache.getOrBuild hash source build).1.2 = true ↔ cache.get? hash source = none) ∧
      ((cache.getOrBuild hash source build).1.1.isOk = false →
        (cache.getOrBuild hash source build).2 = cache) := by
  unfold getOrBuild
  cases cache.get? hash source with
  | some value =>
      exact ⟨⟨fun h => absurd h Bool.false_ne_true, fun h => by cases h⟩, fun _ => rfl⟩
  | none =>
      cases build () with
      | ok value =>
          exact ⟨⟨fun _ => rfl, fun _ => rfl⟩, fun h => absurd h.symm Bool.false_ne_true⟩
      | error e => exact ⟨⟨fun _ => rfl, fun _ => rfl⟩, fun _ => rfl⟩

/-- Whatever the fingerprint is, and whatever a cache is asked for from the
    beginning, it answers like a map, and holds what the map does then. Its
    size is the number of texts with a value. A value is built if the text has
    none, and only then, and if building it fails the cache stays as it is. -/
theorem serves_map (hash : String → UInt64) (requests : List (Request ε α)) :
    let served := serveAll (serve hash) empty requests
    let expected := serveAll serveMap (fun _ => none) requests
    served.1 = expected.1 ∧
    (∀ source, served.2.get? hash source = expected.2 source) ∧
    served.2.size = {source | expected.2 source ≠ none}.ncard ∧
    ∀ source (build : Unit → Except ε α),
      ((served.2.getOrBuild hash source build).1.2 = true ↔ expected.2 source = none) ∧
      ((served.2.getOrBuild hash source build).1.1.isOk = false →
        (served.2.getOrBuild hash source build).2 = served.2) := by
  intro served expected
  obtain ⟨hanswers, hholds⟩ := (Holds.empty hash).serveAll requests
  refine ⟨hanswers, hholds.get, ?_, fun source build => ?_⟩
  · have hsize := hholds.sound.size_eq
    simp only [hholds.get] at hsize
    exact hsize
  · rw [← hholds.get]
    exact getOrBuild_cases hash served.2 source build

end SourceCache

end RenderFold
