import Mathlib.Data.List.Nodup
import RenderFold.Data.Fields

/-!
# Names and Entries of Fields

What the operations on ordered fields do to the names and to the entries. Every
name stands in one place, and writing keeps it there. So fields that are written
one after the other into none stay as they are as long as no name is written
twice; a name that is written again loses what it had.

## Main definitions

* `Fields.extent`: The entries counted by some size that each of them has.

## Theorems

* `Fields.mem_keys_insert_iff`, `Fields.mem_keys_overlay`: The names after a
  write.
* `Fields.overlay_eq_append`: What is written where nothing is overwritten.
* `Fields.extent_overlay_lt`: Something is lost where a name is overwritten.
* `Fields.overlay_insert_iff`: An entry that is changed before it is written
  counts, unless its name is written again.
-/

namespace RenderFold

namespace Fields

variable {α : Type} {fields base top : Fields α} {key name : String} {value : α}
  {entry : String × α}

theorem get?_eq_none_of_not_mem (h : key ∉ keys fields) : get? fields key = none := by
  induction fields with
  | nil => rfl
  | cons entry rest ih =>
      rcases entry with ⟨name, old⟩
      rw [keys, List.map_cons, List.mem_cons, not_or] at h
      simp only [get?, if_neg (Ne.symm h.1)]
      exact ih h.2

theorem mem_keys_iff : name ∈ keys fields ↔ ∃ value, (name, value) ∈ fields := by
  rw [keys, List.mem_map]
  constructor
  · rintro ⟨⟨name, value⟩, hmem, rfl⟩
    exact ⟨value, hmem⟩
  · rintro ⟨value, hmem⟩
    exact ⟨_, hmem, rfl⟩

theorem mem_keys_insert_iff :
    name ∈ keys (insert fields key value) ↔ name = key ∨ name ∈ keys fields := by
  induction fields with
  | nil => exact List.mem_cons
  | cons first rest ih =>
      obtain ⟨other, old⟩ := first
      have hcons (old : α) (rest : Fields α) :
          name ∈ keys ((other, old) :: rest) ↔ name = other ∨ name ∈ keys rest := List.mem_cons
      rw [insert]
      split
      · next hname =>
          rw [hcons, hcons, hname, or_self_left]
      · rw [hcons, hcons, ih, or_left_comm]

/-- Writing a field leaves every name in one place. -/
theorem nodup_insert (h : (keys fields).Nodup) : (keys (insert fields key value)).Nodup := by
  induction fields with
  | nil => exact List.nodup_singleton key
  | cons entry rest ih =>
      rcases entry with ⟨name, old⟩
      rw [keys, List.map_cons, List.nodup_cons] at h
      rw [insert]
      split
      · exact List.nodup_cons.mpr h
      · next hne =>
          refine List.nodup_cons.mpr ⟨fun hmem => ?_, ih h.2⟩
          exact (mem_keys_insert_iff.mp hmem).elim hne h.1

theorem insert_of_not_mem (h : key ∉ keys fields) :
    insert fields key value = fields ++ [(key, value)] := by
  induction fields with
  | nil => rfl
  | cons first rest ih =>
      obtain ⟨other, old⟩ := first
      rw [keys, List.map_cons, List.mem_cons, not_or] at h
      rw [insert, if_neg (Ne.symm h.1), ih h.2, List.cons_append]

theorem mem_of_mem_overlay (h : entry ∈ overlay base top) : entry ∈ base ∨ entry ∈ top := by
  induction top generalizing base with
  | nil => exact .inl h
  | cons first rest ih =>
      rcases ih h with h | h
      · rcases mem_of_mem_insert h with rfl | h
        · exact .inr List.mem_cons_self
        · exact .inl h
      · exact .inr (List.mem_cons_of_mem _ h)

theorem mem_keys_overlay : name ∈ keys (overlay base top) ↔ name ∈ keys base ∨ name ∈ keys top := by
  induction top generalizing base with
  | nil => exact (or_iff_left List.not_mem_nil).symm
  | cons first rest ih =>
      have hcons : name ∈ keys (first :: rest) ↔ name = first.1 ∨ name ∈ keys rest := List.mem_cons
      rw [show overlay base (first :: rest) = overlay (insert base first.1 first.2) rest from rfl,
        ih, mem_keys_insert_iff, hcons, or_comm (a := name = first.1), or_assoc]

theorem nodup_overlay (h : (keys base).Nodup) : (keys (overlay base top)).Nodup := by
  induction top generalizing base with
  | nil => exact h
  | cons first rest ih => exact ih (nodup_insert h)

/-- Where no name is written twice, writing puts the entries at the end. -/
theorem overlay_eq_append (h : (keys (base ++ top)).Nodup) : overlay base top = base ++ top := by
  induction top generalizing base with
  | nil => exact (List.append_nil base).symm
  | cons first rest ih =>
      have hnew : first.1 ∉ keys base := by
        rw [keys, List.map_append, List.map_cons] at h
        exact fun hmem => List.disjoint_of_nodup_append h hmem List.mem_cons_self
      have hsplit : base ++ first :: rest = (base ++ [first]) ++ rest := by
        rw [List.append_assoc, List.singleton_append]
      rw [show overlay base (first :: rest) = overlay (insert base first.1 first.2) rest from rfl,
        insert_of_not_mem hnew, ih (hsplit ▸ h), hsplit]

theorem insert_map {β : Type} (f : α → β) :
    insert (fields.map fun field => (field.1, f field.2)) key (f value) =
      (insert fields key value).map fun field => (field.1, f field.2) := by
  induction fields with
  | nil => rfl
  | cons first rest ih =>
      obtain ⟨other, old⟩ := first
      rw [List.map_cons, insert, insert, apply_ite (List.map _), ih]
      rfl

theorem overlay_map {β : Type} (f : α → β) :
    overlay (base.map fun field => (field.1, f field.2))
        (top.map fun field => (field.1, f field.2)) =
      (overlay base top).map fun field => (field.1, f field.2) := by
  induction top generalizing base with
  | nil => rfl
  | cons first rest ih =>
      rw [List.map_cons, overlay, List.foldl_cons, insert_map]
      exact ih

/-- The entries counted by a size that each of them has. -/
def extent (size : String × α → Nat) : Fields α → Nat
  | [] => 0
  | entry :: rest => size entry + extent size rest

section Extent

variable {size : String × α → Nat}

theorem extent_cons (entry : String × α) (fields : Fields α) :
    extent size (entry :: fields) = size entry + extent size fields := rfl

theorem extent_append (fields other : Fields α) :
    extent size (fields ++ other) = extent size fields + extent size other := by
  induction fields with
  | nil => exact (Nat.zero_add _).symm
  | cons entry rest ih =>
      rw [List.cons_append, extent_cons, extent_cons, ih, Nat.add_assoc]

/-- A name that is there already loses what it had. -/
theorem extent_insert_lt (hsize : ∀ entry, 0 < size entry) (h : key ∈ keys fields) :
    extent size (insert fields key value) < extent size fields + size (key, value) := by
  induction fields with
  | nil => exact absurd h List.not_mem_nil
  | cons first rest ih =>
      obtain ⟨other, old⟩ := first
      have hold := hsize (other, old)
      rw [insert]
      split
      · next hname =>
          subst hname
          rw [extent_cons, extent_cons]
          omega
      · next hname =>
          have hrest := ih ((List.mem_cons.mp h).resolve_left (Ne.symm hname))
          rw [extent_cons, extent_cons]
          omega

theorem extent_insert_le (hsize : ∀ entry, 0 < size entry) :
    extent size (insert fields key value) ≤ extent size fields + size (key, value) := by
  by_cases h : key ∈ keys fields
  · exact Nat.le_of_lt (extent_insert_lt hsize h)
  · rw [insert_of_not_mem h, extent_append]
    exact Nat.le_refl _

theorem extent_overlay_le (hsize : ∀ entry, 0 < size entry) :
    extent size (overlay base top) ≤ extent size base + extent size top := by
  induction top generalizing base with
  | nil => exact Nat.le_refl _
  | cons first rest ih =>
      obtain ⟨name, value⟩ := first
      have hfirst := @extent_insert_le _ base name value _ hsize
      have hrest := @ih (insert base name value)
      rw [extent_cons]
      exact Nat.le_trans hrest (by omega)

/-- Where a name is written twice, something is lost. -/
theorem extent_overlay_lt (hsize : ∀ entry, 0 < size entry) (hbase : (keys base).Nodup)
    (h : ¬ (keys (base ++ top)).Nodup) :
    extent size (overlay base top) < extent size base + extent size top := by
  induction top generalizing base with
  | nil => exact absurd ((List.append_nil base).symm ▸ hbase) h
  | cons first rest ih =>
      obtain ⟨name, value⟩ := first
      have hsplit : base ++ (name, value) :: rest = (base ++ [(name, value)]) ++ rest := by
        rw [List.append_assoc, List.singleton_append]
      rw [extent_cons]
      change extent size (overlay (insert base name value) rest) < _
      by_cases hmem : name ∈ keys base
      · have hfirst := @extent_insert_lt _ base name value _ hsize hmem
        have hrest := @extent_overlay_le _ (insert base name value) rest _ hsize
        omega
      · have hinsert := @insert_of_not_mem _ base name value hmem
        have hrest := ih (nodup_insert hbase) (hinsert ▸ hsplit ▸ h)
        have hfirst := @extent_insert_le _ base name value _ hsize
        omega

end Extent

/-! ### Entries that are changed before they are written

A list of entries may hold a name several times. Writing the list keeps the last
of them, while a change is made to the first. -/

theorem mem_keys_insert : key ∈ keys (insert fields key value) := mem_keys_insert_iff.mpr (.inl rfl)

/-- Of two values written under a name the second counts. -/
theorem insert_insert_self (fields : Fields α) (key : String) (value later : α) :
    insert (insert fields key value) key later = insert fields key later := by
  induction fields with
  | nil => exact if_pos rfl
  | cons first rest ih =>
      obtain ⟨other, old⟩ := first
      by_cases hname : other = key
      · simp only [insert, if_pos hname]
      · simp only [insert, if_neg hname, ih]

/-- A name that is there keeps its place, whatever is written first. -/
theorem insert_insert_of_mem (h : key ∈ keys fields) (hne : name ≠ key) (value other : α) :
    insert (insert fields name other) key value = insert (insert fields key value) name other := by
  induction fields with
  | nil => exact absurd h List.not_mem_nil
  | cons first rest ih =>
      obtain ⟨front, old⟩ := first
      by_cases hkey : front = key
      · have hname : front ≠ name := fun heq => hne (heq.symm.trans hkey)
        simp only [insert, if_pos hkey, if_neg hname]
      · have hrest : key ∈ keys rest := (List.mem_cons.mp h).resolve_left (Ne.symm hkey)
        by_cases hname : front = name
        · simp only [insert, if_neg hkey, if_pos hname]
        · simp only [insert, if_neg hkey, if_neg hname, ih hrest]

/-- Writing what is there already changes nothing. -/
theorem insert_eq_self_iff : insert fields key value = fields ↔ get? fields key = some value := by
  constructor
  · intro h
    rw [← h, get?_insert_self]
  · intro h
    induction fields with
    | nil => cases h
    | cons first rest ih =>
        obtain ⟨other, old⟩ := first
        by_cases hname : other = key
        · rw [get?, if_pos hname] at h
          rw [insert, if_pos hname, Option.some.inj h]
        · rw [get?, if_neg hname] at h
          rw [insert, if_neg hname, ih h]

/-- An entry that is there can be changed after others have been written. -/
theorem overlay_insert_of_not_mem (hbase : key ∈ keys base) (htop : key ∉ keys top) (value : α) :
    overlay (insert base key value) top = insert (overlay base top) key value := by
  induction top generalizing base with
  | nil => rfl
  | cons first rest ih =>
      obtain ⟨other, old⟩ := first
      obtain ⟨hne, hrest⟩ := not_or.mp (mt List.mem_cons.mpr htop)
      have hmem : key ∈ keys (insert base other old) := mem_keys_insert_iff.mpr (.inr hbase)
      calc overlay (insert (insert base key value) other old) rest
          = overlay (insert (insert base other old) key value) rest := by
            rw [insert_insert_of_mem hbase (Ne.symm hne)]
        _ = insert (overlay (insert base other old) rest) key value := ih hmem hrest

/-- An entry that is overwritten later need not be changed. -/
theorem overlay_insert_of_mem (hbase : key ∈ keys base) (htop : key ∈ keys top) (value : α) :
    overlay (insert base key value) top = overlay base top := by
  induction top generalizing base with
  | nil => exact absurd htop List.not_mem_nil
  | cons first rest ih =>
      obtain ⟨other, old⟩ := first
      by_cases hname : other = key
      · subst hname
        change overlay (insert (insert base other value) other old) rest = _
        rw [insert_insert_self]
        rfl
      · have hrest : key ∈ keys rest := (List.mem_cons.mp htop).resolve_left (Ne.symm hname)
        have hmem : key ∈ keys (insert base other old) := mem_keys_insert_iff.mpr (.inr hbase)
        calc overlay (insert (insert base key value) other old) rest
            = overlay (insert (insert base other old) key value) rest := by
              rw [insert_insert_of_mem hbase hname]
          _ = overlay (insert base other old) rest := ih hmem hrest

/-- What is written after a change to a name that the entries hold at most
    once. -/
theorem overlay_insert_of_count_le (h : (keys top).count key ≤ 1) (value : α) :
    overlay base (insert top key value) = insert (overlay base top) key value := by
  induction top generalizing base with
  | nil => rfl
  | cons first rest ih =>
      obtain ⟨other, old⟩ := first
      rw [keys, List.map_cons, List.count_cons] at h
      rw [insert]
      split
      · next hname =>
          subst hname
          rw [beq_self_eq_true, if_pos rfl] at h
          have hrest : other ∉ keys rest := List.count_eq_zero.mp (by rw [keys]; omega)
          calc overlay (insert base other value) rest
              = overlay (insert (insert base other old) other value) rest := by
                rw [insert_insert_self]
            _ = insert (overlay (insert base other old) rest) other value :=
                overlay_insert_of_not_mem mem_keys_insert hrest value
      · exact ih (Nat.le_trans (Nat.le_add_right _ _) h)

/-- What is written after a change to a name that the entries hold again
    later. -/
theorem overlay_insert_of_lt_count (h : 1 < (keys top).count key) (value : α) :
    overlay base (insert top key value) = overlay base top := by
  induction top generalizing base with
  | nil => exact absurd h (Nat.not_lt_zero 1)
  | cons first rest ih =>
      obtain ⟨other, old⟩ := first
      rw [keys, List.map_cons, List.count_cons] at h
      rw [insert]
      split
      · next hname =>
          subst hname
          rw [beq_self_eq_true, if_pos rfl] at h
          have hrest : other ∈ keys rest := List.count_pos_iff.mp (by rw [keys]; omega)
          calc overlay (insert base other value) rest
              = overlay (insert (insert base other old) other value) rest := by
                rw [insert_insert_self]
            _ = overlay (insert base other old) rest :=
                overlay_insert_of_mem mem_keys_insert hrest value
      · next hname =>
          rw [if_neg (by rwa [beq_iff_eq]), Nat.add_zero] at h
          exact ih h

/-- A change to the entries is a change to what is written if they hold the name
    at most once, or if what counts is the same before. -/
theorem overlay_insert_iff :
    overlay base (insert top key value) = insert (overlay base top) key value ↔
      (keys top).count key ≤ 1 ∨ get? (overlay base top) key = some value := by
  by_cases h : (keys top).count key ≤ 1
  · exact iff_of_true (overlay_insert_of_count_le h value) (.inl h)
  · rw [overlay_insert_of_lt_count (Nat.lt_of_not_le h), eq_comm, insert_eq_self_iff,
      or_iff_right h]

section Related

variable {β : Type} {R : α → β → Prop} {others : Fields β} {other : β}

/-- Entries of the same names, related one by one. -/
theorem keys_eq_of_forall₂ (h : List.Forall₂ (fun a b => a.1 = b.1 ∧ R a.2 b.2) fields others) :
    keys fields = keys others := by
  induction h with
  | nil => rfl
  | cons hfirst _ ih => exact List.cons_eq_cons.mpr ⟨hfirst.1, ih⟩

/-- Related entries stay related when related values are written. -/
theorem forall₂_insert (h : List.Forall₂ (fun a b => a.1 = b.1 ∧ R a.2 b.2) fields others)
    (hvalue : R value other) : List.Forall₂ (fun a b => a.1 = b.1 ∧ R a.2 b.2)
      (insert fields key value) (insert others key other) := by
  induction h with
  | nil => exact .cons ⟨rfl, hvalue⟩ .nil
  | cons hfirst hrest ih =>
      rw [insert, insert, ← hfirst.1]
      split
      · exact .cons ⟨rfl, hvalue⟩ hrest
      · exact .cons ⟨rfl, hfirst.2⟩ ih

end Related

theorem contains_iff : contains fields key = true ↔ key ∈ keys fields := by
  induction fields with
  | nil => exact iff_of_false Bool.false_ne_true List.not_mem_nil
  | cons first rest ih =>
      obtain ⟨other, old⟩ := first
      have hcons : key ∈ keys ((other, old) :: rest) ↔ key = other ∨ key ∈ keys rest :=
        List.mem_cons
      rw [hcons, contains, get?]
      split
      · next hname => exact iff_of_true rfl (.inl hname.symm)
      · next hname => exact ih.trans (or_iff_right (Ne.symm hname)).symm

theorem mem_of_mem_insertNew (h : entry ∈ insertNew fields key value) :
    entry ∈ fields ∨ entry = (key, value) := by
  rw [insertNew] at h
  split at h
  · exact .inl h
  · exact (List.mem_append.mp h).imp_right List.mem_singleton.mp

theorem mem_keys_insertNew :
    name ∈ keys (insertNew fields key value) ↔ name ∈ keys fields ∨ name = key := by
  rw [insertNew]
  split
  · next hkey =>
      refine (or_iff_left_of_imp ?_).symm
      rintro rfl
      exact contains_iff.mp hkey
  · rw [keys, List.map_append, List.mem_append, List.map_singleton, List.mem_singleton]
    rfl

/-- Fields are put at the end, except for those whose names are there already. -/
theorem mem_of_mem_insertAllNew
    (h : entry ∈ top.foldl (fun fields entry => insertNew fields entry.1 entry.2) base) :
    entry ∈ base ∨ entry ∈ top := by
  induction top generalizing base with
  | nil => exact .inl h
  | cons first rest ih =>
      rcases ih h with h | h
      · rcases mem_of_mem_insertNew h with h | rfl
        · exact .inl h
        · exact .inr List.mem_cons_self
      · exact .inr (List.mem_cons_of_mem _ h)

theorem mem_keys_insertAllNew :
    name ∈ keys (top.foldl (fun fields entry => insertNew fields entry.1 entry.2) base) ↔
      name ∈ keys base ∨ name ∈ keys top := by
  induction top generalizing base with
  | nil => exact (or_iff_left List.not_mem_nil).symm
  | cons first rest ih =>
      have hcons : name ∈ keys (first :: rest) ↔ name = first.1 ∨ name ∈ keys rest := List.mem_cons
      rw [List.foldl_cons, ih, mem_keys_insertNew, hcons, or_assoc]

end Fields

end RenderFold
