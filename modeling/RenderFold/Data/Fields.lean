/-!
# Ordered Fields

Named entries that remember the order in which their names first appeared.

Attributes, props, scopes and object literals are all written out again in
the order they were given, so a map that forgets order would lose markup. A
name written twice keeps its first position and takes its last value, which
is what `insert` does, and laying one list of fields over another keeps the
positions of the lower one.

## Main definitions

* `Fields`: Named entries in order.
* `Fields.get?`, `Fields.insert`, `Fields.overlay`: Reading, writing, and
  writing many.

## Theorems

* `Fields.get?_insert_self`, `Fields.get?_insert_of_ne`,
  `Fields.mem_of_mem_insert`: What a write changes.
* `Fields.mem_of_get?`: What is read.
-/

namespace RenderFold

/-- Named entries in the order in which their names first appeared. -/
abbrev Fields (α : Type) := List (String × α)

namespace Fields

variable {α : Type}

/-- The value under `key`. -/
def get? : Fields α → String → Option α
  | [], _ => none
  | (name, value) :: rest, key => if name = key then some value else get? rest key

/-- Whether `key` has a value. -/
def contains (fields : Fields α) (key : String) : Bool := (get? fields key).isSome

/-- Put `value` under `key`, in place if the name is there and at the end if
    it is not. -/
def insert : Fields α → String → α → Fields α
  | [], key, value => [(key, value)]
  | (name, old) :: rest, key, value =>
    if name = key then (name, value) :: rest else (name, old) :: insert rest key value

/-- Put `value` under `key` unless the name is already there. -/
def insertNew (fields : Fields α) (key : String) (value : α) : Fields α :=
  if contains fields key then fields else fields ++ [(key, value)]

/-- Write every entry of `top`, in order, over `base`. -/
def overlay (base top : Fields α) : Fields α :=
  top.foldl (fun fields entry => insert fields entry.1 entry.2) base

/-- The names, in order. -/
def keys (fields : Fields α) : List String := fields.map (·.1)

theorem get?_insert_self (fields : Fields α) (key : String) (value : α) :
    get? (insert fields key value) key = some value := by
  induction fields with
  | nil => simp only [insert, get?, if_true]
  | cons entry rest ih =>
      obtain ⟨name, old⟩ := entry
      by_cases h : name = key
      · simp only [insert, h, if_true, get?]
      · simp only [insert, h, if_false, get?, ih]

theorem get?_insert_of_ne (fields : Fields α) (key other : String) (value : α)
    (hne : other ≠ key) : get? (insert fields key value) other = get? fields other := by
  induction fields with
  | nil => simp only [insert, get?, if_neg (Ne.symm hne)]
  | cons entry rest ih =>
      obtain ⟨name, old⟩ := entry
      by_cases h : name = key
      · subst h
        simp only [insert, if_true, get?, if_neg (Ne.symm hne)]
      · simp only [insert, h, if_false, get?, ih]

/-- What is read is an entry. -/
theorem mem_of_get? {fields : Fields α} {key : String} {value : α}
    (h : get? fields key = some value) : (key, value) ∈ fields := by
  induction fields with
  | nil => cases h
  | cons entry rest ih =>
      rcases entry with ⟨name, old⟩
      unfold get? at h
      split at h
      · next hname =>
          cases h
          rw [hname]
          exact List.mem_cons_self
      · exact List.mem_cons_of_mem _ (ih h)

/-- An entry is the one that was written, or was there before. -/
theorem mem_of_mem_insert {fields : Fields α} {key : String} {value : α} {entry : String × α}
    (h : entry ∈ insert fields key value) : entry = (key, value) ∨ entry ∈ fields := by
  induction fields with
  | nil => exact .inl (List.mem_singleton.mp h)
  | cons first rest ih =>
      obtain ⟨name, old⟩ := first
      rw [insert] at h
      split at h
      · next hname =>
          rcases List.mem_cons.mp h with rfl | h
          · exact .inl (hname ▸ rfl)
          · exact .inr (List.mem_cons_of_mem _ h)
      · rcases List.mem_cons.mp h with rfl | h
        · exact .inr List.mem_cons_self
        · exact (ih h).imp_right (List.mem_cons_of_mem _)

end Fields

end RenderFold
