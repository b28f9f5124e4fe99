import RenderFold.Proofs.Script.Paths
import Mathlib.Order.Bounds.Defs

/-!
# What Can Be Reached

The indices below an index are collected with a stack, and the number of steps
is bounded beforehand. The bound must not be what ends the loop. A search is a
run of the loop without it, up to an empty stack.

There is a search from every stack, also where parts are shared or lead back to
where they came from. Every step takes one index off the stack, and an index is
put there once for every reference to it, when the node with the reference is
seen for the first time. So the references of the nodes not seen yet and the
stack together get smaller by one in every step, and the bound is enough.

When the stack is empty, everything below what was seen has been seen. What
is collected is then just what a path leads to, and nothing is smaller that has
the root in it and that no path leaves.

## Main definitions

* `Arena.unseen`: The references that are still to be followed.
* `Arena.Searches`: A run of the loop, up to an empty stack.

## Theorems

* `Arena.exists_searches`: There is a search from every stack.
* `Arena.searches_iff`: The search from a root, and how many steps it takes.
* `Arena.reachable_closed`: With a node its parts are reached.
* `Arena.mem_reachable_iff_path`: What is reached is what a path leads to.
* `Arena.reachable_least`: It is the least set that no path leaves.
* `IsTree.mem_reachable_iff`: What is reached in a tree.
-/

namespace RenderFold

namespace Script

namespace Arena

variable {arena : Arena} {id x : Id} {ids seen stack found found' : List Id} {root : Id}
  {steps steps' : Nat}

/-- The number of references in those of some nodes that were not seen. -/
def unseenIn (arena : Arena) (seen : List Id) : List Id → Nat
  | [] => 0
  | id :: ids =>
    (if id ∈ seen then 0 else (arena.get id).children.length) + arena.unseenIn seen ids

/-- The number of references in nodes that were not seen. -/
def unseen (arena : Arena) (seen : List Id) : Nat := arena.unseenIn seen (List.range arena.size)

theorem unseenIn_cons_of_not_mem (arena : Arena) (seen : List Id) (hid : id ∉ ids) :
    arena.unseenIn (id :: seen) ids = arena.unseenIn seen ids := by
  induction ids with
  | nil => rfl
  | cons first rest ih =>
      rw [List.mem_cons, not_or] at hid
      have hsame : first ∈ id :: seen ↔ first ∈ seen := by
        rw [List.mem_cons, or_iff_right (Ne.symm hid.1)]
      simp only [unseenIn, hsame, ih hid.2]

theorem unseenIn_cons (hid : id ∈ ids) (hnodup : ids.Nodup) (hseen : id ∉ seen) :
    arena.unseenIn (id :: seen) ids + (arena.get id).children.length =
      arena.unseenIn seen ids := by
  induction ids with
  | nil => exact absurd hid List.not_mem_nil
  | cons first rest ih =>
      obtain ⟨hfirst, hrest⟩ := List.nodup_cons.mp hnodup
      by_cases heq : first = id
      · subst heq
        have hsame := unseenIn_cons_of_not_mem arena seen hfirst
        simp only [unseenIn, List.mem_cons_self, if_true, if_neg hseen, hsame]
        omega
      · have hmem : id ∈ rest := (List.mem_cons.mp hid).resolve_left (Ne.symm heq)
        have hsame : first ∈ id :: seen ↔ first ∈ seen := by
          rw [List.mem_cons, or_iff_right heq]
        have hless := ih hmem hrest
        simp only [unseenIn, hsame]
        omega

/-- Seeing a node settles its references. -/
theorem unseen_cons (arena : Arena) (hseen : id ∉ seen) :
    arena.unseen (id :: seen) + (arena.get id).children.length = arena.unseen seen := by
  by_cases hid : id < arena.size
  · exact unseenIn_cons (List.mem_range.mpr hid) List.nodup_range hseen
  · rw [get_of_size_le (Nat.le_of_not_lt hid)]
    exact unseenIn_cons_of_not_mem _ _ fun hmem => hid (List.mem_range.mp hmem)

theorem unseen_nil : arena.unseen [] = arena.references := by
  have hsum : ∀ ids : List Id, ∀ count,
      count + arena.unseenIn [] ids =
        (ids.map arena.get).foldl (fun count node => count + node.children.length) count := by
    intro ids
    induction ids with
    | nil => exact fun _ => rfl
    | cons first rest ih =>
        intro count
        rw [List.map_cons, List.foldl_cons, ← ih]
        simp only [unseenIn, List.not_mem_nil, if_false]
        omega
  have hnodes : (List.range arena.size).map arena.get = arena.nodes.toList := by
    refine List.ext_getElem ?_ fun i hi hi' => ?_
    · rw [List.length_map, List.length_range, Array.length_toList, size]
    · rw [List.getElem_map, List.getElem_range, Array.getElem_toList]
      rw [Array.length_toList] at hi'
      rw [get, Array.getElem?_eq_getElem hi', Option.getD_some]
  have h := hsum (List.range arena.size) 0
  rw [Nat.zero_add, hnodes, Array.foldl_toList] at h
  exact h

/-- A run of the loop that collects indices, from what was seen and what is on
    the stack to what is found when the stack is empty. Every step takes an
    index off the stack. One that is met for the first time is noted, and its
    parts are put on the stack. -/
inductive Searches (arena : Arena) : Nat → List Id → List Id → List Id → Prop where
  | done {seen : List Id} : Searches arena 0 seen [] seen
  | again {steps : Nat} {id : Id} {seen stack found : List Id} (hseen : id ∈ seen)
      (h : Searches arena steps seen stack found) :
      Searches arena (steps + 1) seen (id :: stack) found
  | first {steps : Nat} {id : Id} {seen stack found : List Id} (hseen : id ∉ seen)
      (h : Searches arena steps (id :: seen) ((arena.get id).children.reverse ++ stack) found) :
      Searches arena (steps + 1) seen (id :: stack) found

namespace Searches

/-- A bound that the search keeps to does not show. -/
theorem reachableFrom_eq (h : arena.Searches steps seen stack found) :
    ∀ {fuel : Nat}, steps ≤ fuel → arena.reachableFrom fuel seen stack = found := by
  induction h with
  | done =>
      intro fuel _
      cases fuel <;> rfl
  | again hseen _ ih =>
      intro fuel hle
      obtain ⟨fuel, rfl⟩ := Nat.exists_eq_add_one_of_ne_zero (by omega : fuel ≠ 0)
      rw [reachableFrom, if_pos (List.contains_iff_mem.mpr hseen)]
      exact ih (Nat.le_of_succ_le_succ hle)
  | first hseen _ ih =>
      intro fuel hle
      obtain ⟨fuel, rfl⟩ := Nat.exists_eq_add_one_of_ne_zero (by omega : fuel ≠ 0)
      rw [reachableFrom, if_neg fun hcontains => hseen (List.contains_iff_mem.mp hcontains)]
      exact ih (Nat.le_of_succ_le_succ hle)

/-- Every step settles a reference or an index that was on the stack. -/
theorem steps_add_unseen (h : arena.Searches steps seen stack found) :
    steps + arena.unseen found = arena.unseen seen + stack.length := by
  induction h with
  | done => exact Nat.zero_add _
  | again _ _ ih =>
      rw [List.length_cons]
      omega
  | first hseen _ ih =>
      have hless := unseen_cons arena hseen
      rw [List.length_append, List.length_reverse] at ih
      rw [List.length_cons]
      omega

/-- From one stack there is only one search. -/
theorem unique (h : arena.Searches steps seen stack found)
    (h' : arena.Searches steps' seen stack found') : steps = steps' ∧ found = found' := by
  have hfound : found = found' :=
    (h.reachableFrom_eq (Nat.le_max_left steps steps')).symm.trans
      (h'.reachableFrom_eq (Nat.le_max_right steps steps'))
  subst hfound
  have hsteps := h.steps_add_unseen
  have hsteps' := h'.steps_add_unseen
  exact ⟨by omega, rfl⟩

/-- No index is noted twice. -/
theorem nodup (h : arena.Searches steps seen stack found) (hnodup : seen.Nodup) :
    found.Nodup := by
  induction h with
  | done => exact hnodup
  | again _ _ ih => exact ih hnodup
  | first hseen _ ih => exact ih (List.nodup_cons.mpr ⟨hseen, hnodup⟩)

theorem seen_subset (h : arena.Searches steps seen stack found) : seen ⊆ found := by
  induction h with
  | done => exact fun _ ha => ha
  | again _ _ ih => exact ih
  | first _ _ ih => exact fun a ha => ih (List.mem_cons_of_mem _ ha)

theorem stack_subset (h : arena.Searches steps seen stack found) : stack ⊆ found := by
  induction h with
  | done => exact List.nil_subset _
  | again hseen h ih => exact List.cons_subset.mpr ⟨h.seen_subset hseen, ih⟩
  | first _ h ih =>
      exact List.cons_subset.mpr ⟨h.seen_subset List.mem_cons_self,
        fun a ha => ih (List.mem_append_right _ ha)⟩

/-- Nothing is missed: if the parts of what was seen are on the stack, then
    everything below what is found is found. -/
theorem closed (h : arena.Searches steps seen stack found)
    (hparts : ∀ a ∈ seen, ∀ part ∈ (arena.get a).children, part ∈ seen ∨ part ∈ stack) :
    ∀ a ∈ found, ∀ part ∈ (arena.get a).children, part ∈ found := by
  induction h with
  | done => exact fun a ha part hpart => (hparts a ha part hpart).resolve_right List.not_mem_nil
  | again hseen _ ih =>
      refine ih fun a ha part hpart => ?_
      rcases hparts a ha part hpart with hmem | hmem
      · exact Or.inl hmem
      · rcases List.mem_cons.mp hmem with rfl | hmem
        · exact Or.inl hseen
        · exact Or.inr hmem
  | first _ _ ih =>
      refine ih fun a ha part hpart => ?_
      rcases List.mem_cons.mp ha with rfl | ha
      · exact Or.inr (List.mem_append_left _ (List.mem_reverse.mpr hpart))
      · rcases hparts a ha part hpart with hmem | hmem
        · exact Or.inl (List.mem_cons_of_mem _ hmem)
        · rcases List.mem_cons.mp hmem with rfl | hmem
          · exact Or.inl List.mem_cons_self
          · exact Or.inr (List.mem_append_right _ hmem)

end Searches

/-- From every stack there is a search. -/
theorem exists_searches (arena : Arena) (seen stack : List Id) :
    ∃ steps found, arena.Searches steps seen stack found := by
  -- By induction on the references to be followed and the stack together.
  induction hleft : arena.unseen seen + stack.length generalizing seen stack with
  | zero =>
      have hempty : stack = [] := List.eq_nil_of_length_eq_zero (by omega)
      exact ⟨0, seen, hempty ▸ .done⟩
  | succ left ih =>
      cases stack with
      | nil => exact ⟨0, seen, .done⟩
      | cons id stack =>
          rw [List.length_cons] at hleft
          by_cases hseen : id ∈ seen
          · obtain ⟨steps, found, h⟩ := ih seen stack (by omega)
            exact ⟨steps + 1, found, .again hseen h⟩
          · have hless := unseen_cons arena hseen
            obtain ⟨steps, found, h⟩ :=
              ih (id :: seen) ((arena.get id).children.reverse ++ stack)
                (by rw [List.length_append, List.length_reverse]; omega)
            exact ⟨steps + 1, found, .first hseen h⟩

/-- There is just one search from a root, and it finds what is reached. It takes
    one step for the root and one for every reference of what it finds. -/
theorem searches_iff : arena.Searches steps [] [root] found ↔
    found = arena.reachable root ∧
      steps + arena.unseen (arena.reachable root) = arena.references + 1 := by
  obtain ⟨steps', found', h'⟩ := arena.exists_searches [] [root]
  have hsteps' := h'.steps_add_unseen
  rw [unseen_nil, List.length_singleton] at hsteps'
  have hfound : arena.reachable root = found' := h'.reachableFrom_eq (by omega)
  rw [hfound]
  constructor
  · intro h
    obtain ⟨rfl, rfl⟩ := h.unique h'
    exact ⟨rfl, hsteps'⟩
  · rintro ⟨rfl, hsteps⟩
    obtain rfl : steps = steps' := by omega
    exact h'

/-- The search that collects what can be reached. -/
theorem searches_reachable (arena : Arena) (root : Id) :
    ∃ steps, arena.Searches steps [] [root] (arena.reachable root) := by
  obtain ⟨steps, found, h⟩ := arena.exists_searches [] [root]
  obtain ⟨rfl, -⟩ := searches_iff.mp h
  exact ⟨steps, h⟩

/-- An index is reached from itself, and with a node its parts are. -/
theorem reachable_closed (arena : Arena) (root : Id) : root ∈ arena.reachable root ∧
    ∀ a ∈ arena.reachable root, ∀ part ∈ (arena.get a).children,
      part ∈ arena.reachable root := by
  obtain ⟨steps, h⟩ := arena.searches_reachable root
  exact ⟨h.stack_subset List.mem_cons_self, h.closed fun _ ha => absurd ha List.not_mem_nil⟩

/-- What a path leads to is reached. -/
theorem mem_reachable_of_path {path : List Nat} (h : arena.Path root path x) :
    x ∈ arena.reachable root := by
  obtain ⟨hroot, hparts⟩ := arena.reachable_closed root
  have hall : ∀ {a b path}, arena.Path a path b → a ∈ arena.reachable root →
      b ∈ arena.reachable root := by
    intro a b path hpath
    induction hpath with
    | here => exact fun ha => ha
    | down hpart _ ih => exact fun ha => ih (hparts _ ha _ (List.mem_of_getElem? hpart))
  exact hall h hroot

/-- A path from within a zone that no path leaves. -/
theorem Closed.path_mem {zone : Set Id} {a : Id} {path : List Nat} (h : Closed arena zone)
    (ha : a ∈ zone) (hpath : arena.Path a path x) : x ∈ zone := by
  induction hpath with
  | here => exact ha
  | down hpart _ ih => exact ih ((h _ ha).2 _ (List.mem_of_getElem? hpart))

/-- No path leaves what paths lead to. -/
theorem closed_paths (h : ∀ path x, arena.Path root path x → x < arena.size) :
    Closed arena {x | ∃ path, arena.Path root path x} := by
  rintro a ⟨path, hpath⟩
  refine ⟨h path a hpath, fun part hpart => ?_⟩
  obtain ⟨place, hplace⟩ := List.getElem?_of_mem hpart
  exact ⟨path ++ [place], hpath.snoc hplace⟩

/-- What is reached is what a path leads to, if all paths lead to nodes. -/
theorem mem_reachable_iff_path (h : ∀ path x, arena.Path root path x → x < arena.size) :
    x ∈ arena.reachable root ↔ ∃ path, arena.Path root path x := by
  constructor
  · exact reachable_mem (closed_paths h) ⟨[], .here⟩ x
  · rintro ⟨path, hpath⟩
    exact mem_reachable_of_path hpath

/-- In an arena whose references lead to nodes, parts may be shared and lead
    back to where they came from. The search from a node ends all the same, and
    it notes no index twice. What it finds is what a path leads to, and of the
    sets of nodes that no path leaves it is the least that has the node in it. -/
theorem reachable_least (hvalid : Closed arena {id | id < arena.size}) (hroot : root < arena.size) :
    (∀ steps found, arena.Searches steps [] [root] found ↔ found = arena.reachable root ∧
        steps + arena.unseen (arena.reachable root) = arena.references + 1) ∧
      (arena.reachable root).Nodup ∧
      (∀ x, x ∈ arena.reachable root ↔ ∃ path, arena.Path root path x) ∧
      IsLeast {zone | root ∈ zone ∧ Closed arena zone} {x | x ∈ arena.reachable root} := by
  obtain ⟨steps, h⟩ := arena.searches_reachable root
  obtain ⟨hself, hparts⟩ := arena.reachable_closed root
  have hlt : ∀ x ∈ arena.reachable root, x < arena.size := reachable_mem hvalid hroot
  refine ⟨fun _ _ => searches_iff, h.nodup List.nodup_nil,
    fun x => mem_reachable_iff_path fun _ _ hpath => hvalid.path_mem hroot hpath,
    ⟨hself, fun a ha => ⟨hlt a ha, hparts a ha⟩⟩, ?_⟩
  rintro zone ⟨hin, hzone⟩
  exact reachable_mem hzone hin

/-- A call that is an argument of its own and has its callee for another, and a
    list out of reach that has both in it and itself. -/
def ownArgument : Arena := ⟨#[.call 1 [0, 1], .ident "f", .array [0, 1, 2]]⟩

theorem reachable_least_ownArgument :
    Closed ownArgument {id | id < ownArgument.size} ∧ 0 < ownArgument.size ∧
      (∀ steps found, ownArgument.Searches steps [] [0] found ↔ found = [1, 0] ∧ steps + 3 = 7) ∧
      (∀ x, x ∈ [1, 0] ↔ ∃ path, ownArgument.Path 0 path x) ∧
      IsLeast {zone | 0 ∈ zone ∧ Closed ownArgument zone} {x | x ∈ [1, 0]} := by
  have hparts : ∀ id < 3, ∀ part ∈ (ownArgument.get id).children, part < 3 := by decide
  have hvalid : Closed ownArgument {id | id < ownArgument.size} :=
    fun id hid => ⟨hid, hparts id hid⟩
  have hroot : 0 < ownArgument.size := by decide
  obtain ⟨hsearch, -, hpath, hleast⟩ := reachable_least hvalid hroot
  exact ⟨hvalid, hroot, hsearch, hpath, hleast⟩

/-- No path leaves what paths from the root of a tree lead to. -/
theorem IsTree.closed_paths (h : IsTree arena root) :
    Closed arena {x | ∃ path, arena.Path root path x} :=
  Arena.closed_paths h.lt_size

/-- In a tree, what is reached is just what a path leads to. -/
theorem IsTree.mem_reachable_iff (h : IsTree arena root) :
    x ∈ arena.reachable root ↔ ∃ path, arena.Path root path x :=
  mem_reachable_iff_path h.lt_size

/-- No two nodes of a tree have a part in common. -/
theorem IsTree.parent_unique {a b : Id} {path other : List Nat} (h : IsTree arena root)
    (ha : arena.Path root path a) (hb : arena.Path root other b)
    (hxa : x ∈ (arena.get a).children) (hxb : x ∈ (arena.get b).children) : a = b := by
  obtain ⟨place, hplace⟩ := List.getElem?_of_mem hxa
  obtain ⟨place', hplace'⟩ := List.getElem?_of_mem hxb
  have heq := h.unique _ _ x (ha.snoc hplace) (hb.snoc hplace')
  obtain ⟨rfl, -⟩ := List.append_inj' heq rfl
  exact ha.eq hb

end Arena

end Script

end RenderFold
