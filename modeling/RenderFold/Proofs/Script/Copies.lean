import RenderFold.Proofs.Script.Grounded
import Mathlib.Data.Finset.Card
import Mathlib.Data.Finset.Image

/-!
# Copies

What is below a grounded index can be copied with a stack, though parts may be
shared. A first pass takes indices off the stack and puts their parts there,
and lists an index once for every way down to it. A second pass adds a hole for
each entry of the list and notes which hole an index has got; an index that is
listed again gets another hole. A third pass goes along the list once more and
fills the holes that were noted last.

The first pass comes to an end because every way down does. The holes that are
filled stand for the indices below the root one to one, and a hole refers to
the holes of the parts, so the copy has the shape of what was copied, sharing
included. A hole that was noted first and replaced later stays, but nothing
refers to it.

## Main definitions

* `Arena.Unstacks`: The order in which indices are taken off a stack.
* `Arena.reserve`, `Arena.fill`: Adding holes, and filling them.
* `Arena.GraftsTo`: A copy that is made in these passes.

## Theorems

* `Grounded.unstacks`: The first pass ends, and visits what it should.
* `Grounded.graftsTo`: The passes give what grafting gives.
* `Grounded.path_copy_iff`: The ways down in the copy are those in the
  original.
* `graft_copies`: Grafting copies faithfully.
-/

namespace RenderFold

namespace Script

namespace Arena

variable {arena source current after : Arena} {id root x y : Id} {ids order stack : List Id}
  {path : List Nat} {bound : Nat} {places : List (Id × Id)}

/-- Indices are taken off a stack, the parts of each are put there, and that is
    gone on with until the stack is empty. The second list holds the indices in
    the order in which they are taken off. -/
inductive Unstacks (source : Arena) : List Id → List Id → Prop where
  | done : Unstacks source [] []
  | next {id : Id} {stack order : List Id}
      (h : Unstacks source ((source.get id).children.reverse ++ stack) order) :
      Unstacks source (id :: stack) (id :: order)

/-- Add a hole for every index, and note the hole under the index. -/
def reserve (arena : Arena) (places : List (Id × Id)) : List Id → List (Id × Id) × Arena
  | [] => (places, arena)
  | id :: order =>
    let (hole, arena) := arena.push .hole
    reserve arena ((id, hole) :: places) order

/-- Put a copy of every index into the hole noted for it. The parts of the copy
    are the holes noted for the parts; it fails if there is none. -/
def fill (source : Arena) (places : List (Id × Id)) (arena : Arena) : List Id → Option Arena
  | [] => some arena
  | id :: order => do
    let node ← (source.get id).mapM (places.lookup ·)
    let hole ← places.lookup id
    fill source places (arena.replace hole node) order

/-- The result of copying what is below an index in passes: list it, add holes
    for it, fill them. -/
def GraftsTo (arena source : Arena) (root : Id) (result : Id × Arena) : Prop :=
  ∃ order, Unstacks source [root] order ∧
    (arena.reserve [] order).1.lookup root = some result.1 ∧
    fill source (arena.reserve [] order).1 (arena.reserve [] order).2 order = some result.2

section FirstPass

/-- What is put on top of a stack is worked off before what is below. -/
theorem Unstacks.append {front back : List Id} (h : Unstacks source ids front)
    (hrest : Unstacks source stack back) : Unstacks source (ids ++ stack) (front ++ back) := by
  induction h with
  | done => exact hrest
  | next _ ih =>
      refine .next ?_
      rwa [List.append_assoc] at ih

theorem Unstacks.flatMap {visit : Id → List Id} (h : ∀ id ∈ ids, Unstacks source [id] (visit id)) :
    Unstacks source ids (ids.flatMap visit) := by
  induction ids with
  | nil => exact .done
  | cons id ids ih =>
      obtain ⟨hid, hids⟩ := List.forall_mem_cons.mp h
      exact hid.append (ih hids)

/-- The indices below an index are taken off in the order of its visits. -/
theorem EndsWithin.unstacks (h : source.EndsWithin bound id) :
    Unstacks source [id] (source.visitsTo bound id) := by
  induction bound generalizing id with
  | zero => exact h.elim
  | succ bound ih =>
      have hparts : Unstacks source (source.get id).children.reverse
          ((source.get id).children.reverse.flatMap (source.visitsTo bound)) :=
        .flatMap fun part hpart => ih (h.2 part (List.mem_reverse.mp hpart))
      refine .next ?_
      rwa [List.append_nil]

theorem Grounded.unstacks (h : source.Grounded root) :
    Unstacks source [root] (source.visits root) :=
  h.endsWithin.unstacks

end FirstPass

section Holes

/-- An index of the list stands at the place where it is found. -/
theorem lastPosition_of_mem (h : id ∈ order) : ∃ i : Nat, order[i]? = some id ∧
    ∀ position, lastPosition id position order = some (position + i) := by
  induction order with
  | nil => exact absurd h List.not_mem_nil
  | cons head rest ih =>
      by_cases hrest : id ∈ rest
      · obtain ⟨i, hget, hfound⟩ := ih hrest
        refine ⟨i + 1, hget, fun position => ?_⟩
        rw [lastPosition, hfound, Nat.add_assoc, Nat.add_comm 1 i]
      · have hhead : head = id := ((List.mem_cons.mp h).resolve_right hrest).symm
        refine ⟨0, by rw [hhead]; rfl, fun position => ?_⟩
        rw [lastPosition, lastPosition_eq_none hrest, if_pos hhead, Nat.add_zero]

/-- The index at the place of a copy is the one that is copied there. -/
theorem exists_copyOf (arena : Arena) (h : id ∈ order) :
    ∃ i : Nat, copyOf arena order id = arena.size + i ∧ order[i]? = some id ∧
      lastPosition id arena.size order = some (arena.size + i) := by
  obtain ⟨i, hget, hfound⟩ := lastPosition_of_mem h
  refine ⟨i, ?_, hget, hfound _⟩
  rw [copyOf, hfound, Nat.zero_add, Option.getD_some]

theorem copyOf_injOn (arena : Arena) (hx : x ∈ order) (hy : y ∈ order)
    (h : copyOf arena order x = copyOf arena order y) : x = y := by
  obtain ⟨i, hi, hgetx, -⟩ := exists_copyOf arena hx
  obtain ⟨j, hj, hgety, -⟩ := exists_copyOf arena hy
  have hij : i = j := Nat.add_left_cancel (hi.symm.trans (h.trans hj))
  rw [hij, hgety] at hgetx
  exact (Option.some.inj hgetx).symm

theorem le_copyOf (arena : Arena) (order : List Id) (id : Id) :
    arena.size ≤ copyOf arena order id :=
  Nat.le_add_right ..

/-- The hole noted for an index is the one of its last entry. -/
theorem lookup_reserve (id : Id) (order : List Id) : ∀ (arena : Arena) (places : List (Id × Id)),
    (arena.reserve places order).1.lookup id =
      (lastPosition id arena.size order).or (places.lookup id) := by
  induction order with
  | nil => exact fun _ _ => rfl
  | cons head rest ih =>
      intro arena places
      have hsize : (arena.push .hole).2.size = arena.size + 1 := size_push arena .hole
      rw [reserve, lastPosition]
      dsimp only
      rw [ih, hsize, List.lookup_cons]
      cases lastPosition id (arena.size + 1) rest with
      | some found => rfl
      | none =>
          by_cases hhead : head = id
          · rw [hhead, beq_self_eq_true, if_pos rfl]
            rfl
          · rw [beq_false_of_ne (Ne.symm hhead), if_neg hhead]

/-- Every index of the list has its hole where its copy goes. -/
theorem lookup_reserve_of_mem (arena : Arena) (h : id ∈ order) :
    (arena.reserve [] order).1.lookup id = some (copyOf arena order id) := by
  obtain ⟨i, hcopy, -, hfound⟩ := exists_copyOf arena h
  rw [lookup_reserve, hfound, hcopy]
  rfl

theorem size_reserve (order : List Id) : ∀ (arena : Arena) (places : List (Id × Id)),
    (arena.reserve places order).2.size = arena.size + order.length := by
  induction order with
  | nil => exact fun _ _ => rfl
  | cons head rest ih =>
      intro arena places
      rw [reserve]
      dsimp only
      rw [ih, size_push, List.length_cons]
      omega

/-- What is added is holes. -/
theorem get_reserve (order : List Id) : ∀ (arena : Arena) (places : List (Id × Id)) (x : Id),
    (arena.reserve places order).2.get x = if x < arena.size then arena.get x else .hole := by
  induction order with
  | nil =>
      intro arena places x
      rw [reserve]
      split
      · rfl
      · next hle => exact get_of_size_le (Nat.le_of_not_lt hle)
  | cons head rest ih =>
      intro arena places x
      rw [reserve]
      dsimp only
      rw [ih, size_push]
      by_cases hnew : x = arena.size
      · rw [hnew, if_pos (Nat.lt_succ_self _), if_neg (Nat.lt_irrefl _)]
        exact get_push_self arena .hole
      · rw [get_push_of_ne arena .hole hnew]
        by_cases hx : x < arena.size
        · rw [if_pos hx, if_pos (Nat.lt_succ_of_lt hx)]
        · have hx' : ¬ x < arena.size + 1 := fun hlt =>
            hx (Nat.lt_of_le_of_ne (Nat.le_of_lt_succ hlt) hnew)
          rw [if_neg hx, if_neg hx']

end Holes

section Filling

theorem list_mapM_eq_some {α β : Type} {f : α → Option β} {g : α → β} {xs : List α}
    (h : ∀ x ∈ xs, f x = some (g x)) : xs.mapM f = some (xs.map g) := by
  induction xs with
  | nil => rfl
  | cons x xs ih =>
      obtain ⟨hx, hxs⟩ := List.forall_mem_cons.mp h
      rw [List.mapM_cons, hx, ih hxs]
      rfl

/-- If something can be put in place of every part, it can be put there in the
    whole. -/
theorem node_mapM_eq_some {f : Id → Option Id} {g : Id → Id} {node : Node Id}
    (h : ∀ x ∈ node.children, f x = some (g x)) : node.mapM f = some (node.map g) := by
  cases node with
  | ret argument => cases argument <;> simp_all [Node.mapM, Node.map, Node.children]
  | branch test consequent alternate =>
      cases alternate <;>
        simp_all [Node.mapM, Node.map, Node.children, list_mapM_eq_some (f := f) (g := g)]
  | object properties =>
      have hvalues : properties.mapM (fun property => return (property.1, ← f property.2)) =
          some (properties.map fun property => (property.1, g property.2)) := by
        refine list_mapM_eq_some fun property hmem => ?_
        rw [h property.2 (List.mem_map_of_mem hmem)]
        rfl
      rw [Node.mapM, hvalues]
      rfl
  | _ => simp_all [Node.mapM, Node.map, Node.children, list_mapM_eq_some (f := f) (g := g)]

/-- What filling leaves behind: every index of the list has its copy in its
    hole, and the rest is as it was. -/
theorem exists_fill {holes : Id → Id} (hsource : ∀ x ∈ ids, ∀ part ∈ (source.get x).children,
      places.lookup part = some (holes part))
    (hplaces : ∀ x ∈ ids, places.lookup x = some (holes x))
    (hinj : ∀ x ∈ ids, ∀ y ∈ ids, holes x = holes y → x = y) :
    ∀ current : Arena, (∀ x ∈ ids, holes x < current.size) →
      ∃ after, fill source places current ids = some after ∧ after.size = current.size ∧
        (∀ x ∈ ids, after.get (holes x) = (source.get x).map holes) ∧
        ∀ hole, (∀ x ∈ ids, holes x ≠ hole) → after.get hole = current.get hole := by
  induction ids with
  | nil =>
      intro current _
      exact ⟨current, rfl, rfl, fun x hx => absurd hx List.not_mem_nil, fun _ _ => rfl⟩
  | cons id ids ih =>
      intro current hlt
      obtain ⟨hnode, hsource⟩ := List.forall_mem_cons.mp hsource
      obtain ⟨hplace, hplaces⟩ := List.forall_mem_cons.mp hplaces
      obtain ⟨hid, hlt⟩ := List.forall_mem_cons.mp hlt
      have hsize := size_replace current (holes id) ((source.get id).map holes)
      obtain ⟨after, hfill, hsame, hfilled, hkept⟩ := ih hsource hplaces
        (fun x hx y hy => hinj x (List.mem_cons_of_mem _ hx) y (List.mem_cons_of_mem _ hy))
        (current.replace (holes id) ((source.get id).map holes))
        fun x hx => hsize.symm ▸ hlt x hx
      refine ⟨after, ?_, hsame.trans hsize, List.forall_mem_cons.mpr ⟨?_, hfilled⟩, ?_⟩
      · rw [fill, node_mapM_eq_some hnode, hplace]
        exact hfill
      · by_cases hmem : id ∈ ids
        · exact hfilled id hmem
        -- Nothing that comes later goes into this hole.
        · have hothers : ∀ x ∈ ids, holes x ≠ holes id := fun x hx heq =>
            hmem (hinj x (List.mem_cons_of_mem _ hx) id List.mem_cons_self heq ▸ hx)
          rw [hkept _ hothers]
          exact get_replace_self hid _
      · intro hole hnone
        obtain ⟨hne, hnone⟩ := List.forall_mem_cons.mp hnone
        rw [hkept hole hnone]
        exact get_replace_of_ne current _ (Ne.symm hne)

end Filling

section Copy

/-- With an index its parts are visited. -/
theorem Grounded.visits_closed (h : source.Grounded root) (hx : x ∈ source.visits root)
    (hy : y ∈ (source.get x).children) : y ∈ source.visits root := by
  obtain ⟨path, hpath⟩ := h.mem_visits_iff.mp hx
  obtain ⟨place, hplace⟩ := List.getElem?_of_mem hy
  exact h.mem_visits_iff.mpr ⟨path ++ [place], hpath.snoc hplace⟩

theorem copyOf_lt_size (arena : Arena) (hx : x ∈ source.visits root) :
    copyOf arena (source.visits root) x < (arena.graft source root).2.size := by
  rw [size_graft]
  exact copyOf_lt (List.ne_nil_of_mem hx)

/-- The copy of a node refers to the copies of its parts. -/
theorem get_copy (arena : Arena) (hx : x ∈ source.visits root) :
    (arena.graft source root).2.get (copyOf arena (source.visits root) x) =
      (source.get x).map (copyOf arena (source.visits root)) := by
  obtain ⟨i, hcopy, hget, -⟩ := exists_copyOf arena hx
  obtain ⟨hi, hget⟩ := List.getElem?_eq_some_iff.mp hget
  rw [hcopy, get_graft hi, hget, if_pos hcopy]

/-- Arenas that hold the same nodes are the same. -/
theorem ext_get (hsize : arena.size = after.size)
    (h : ∀ id < arena.size, arena.get id = after.get id) : arena = after := by
  obtain ⟨nodes⟩ := arena
  obtain ⟨others⟩ := after
  have hnodes : nodes = others := by
    refine Array.ext hsize fun i hi hi' => ?_
    have hget := h i hi
    rwa [get, get, Array.getElem?_eq_getElem hi, Array.getElem?_eq_getElem hi', Option.getD_some,
      Option.getD_some] at hget
  rw [hnodes]

/-- The passes give what grafting gives. -/
theorem Grounded.graftsTo (h : source.Grounded root) (arena : Arena) :
    GraftsTo arena source root (arena.graft source root) := by
  set order := source.visits root with horder
  have hroot : root ∈ order := h.mem_visits_iff.mpr ⟨[], .here⟩
  have hsize : (arena.reserve [] order).2.size = (arena.graft source root).2.size := by
    rw [size_reserve, size_graft]
  have hplaces : ∀ x ∈ order,
      (arena.reserve [] order).1.lookup x = some (copyOf arena order x) :=
    fun x hx => lookup_reserve_of_mem arena hx
  obtain ⟨after, hfill, hsame, hfilled, hkept⟩ := exists_fill
    (fun x hx part hpart => hplaces part (h.visits_closed hx hpart)) hplaces
    (fun x hx y hy => copyOf_injOn arena hx hy) (arena.reserve [] order).2
    fun x hx => hsize ▸ copyOf_lt_size arena hx
  have hafter : after = (arena.graft source root).2 := by
    refine ext_get (hsame.trans hsize) fun id hid => ?_
    by_cases hcopy : ∃ x ∈ order, copyOf arena order x = id
    · obtain ⟨x, hx, rfl⟩ := hcopy
      rw [hfilled x hx, get_copy arena hx]
    -- What is no copy was there before, or is a hole that was noted too early.
    · have hnone : ∀ x ∈ order, copyOf arena order x ≠ id := fun x hx heq => hcopy ⟨x, hx, heq⟩
      rw [hkept id hnone, get_reserve]
      split
      · next hlt => exact ((graft_extends arena source root).2 id hlt).symm
      · next hle =>
          obtain ⟨i, rfl⟩ := Nat.exists_eq_add_of_le (Nat.le_of_not_lt hle)
          rw [hsame, size_reserve] at hid
          have hi : i < order.length := Nat.lt_of_add_lt_add_left hid
          rw [get_graft hi, if_neg (hnone _ (List.getElem_mem hi))]
  exact ⟨order, h.unstacks, lookup_reserve_of_mem arena hroot, hafter ▸ hfill⟩

/-- Down to any depth, the tree of a copy is the tree of the original. -/
theorem Grounded.treeTo_copy (h : source.Grounded root) (arena : Arena) (depth : Nat) :
    ∀ x ∈ source.visits root, (arena.graft source root).2.treeTo depth
      (copyOf arena (source.visits root) x) = source.treeTo depth x := by
  induction depth with
  | zero => exact fun _ _ => rfl
  | succ depth ih =>
      intro x hx
      rw [treeTo, treeTo, get_copy arena hx, Node.map_map]
      congr 1
      exact Node.map_congr fun part hpart => ih part (h.visits_closed hx hpart)

/-- The copies of the nodes below an index end where these do. -/
theorem Grounded.copy_endsWithin (h : source.Grounded root) (arena : Arena) :
    ∀ {bound x}, source.EndsWithin bound x → x ∈ source.visits root →
      (arena.graft source root).2.EndsWithin bound (copyOf arena (source.visits root) x)
  | 0, _, hends, _ => hends.elim
  | bound + 1, x, hends, hx => by
      refine ⟨copyOf_lt_size arena hx, fun copy hcopy => ?_⟩
      rw [get_copy arena hx, Node.children_map] at hcopy
      obtain ⟨part, hpart, rfl⟩ := List.mem_map.mp hcopy
      exact h.copy_endsWithin arena (hends.2 part hpart) (h.visits_closed hx hpart)

/-- The ways down in a copy are those in the original. -/
theorem Grounded.path_copy_iff (h : source.Grounded root) (arena : Arena) :
    ∀ {path x}, x ∈ source.visits root →
      ((arena.graft source root).2.Path (copyOf arena (source.visits root) x) path y ↔
        ∃ z, source.Path x path z ∧ y = copyOf arena (source.visits root) z) := by
  intro path
  induction path with
  | nil =>
      intro x _
      constructor
      · intro hpath
        cases hpath
        exact ⟨x, .here, rfl⟩
      · rintro ⟨z, hpath, rfl⟩
        cases hpath
        exact .here
  | cons place path ih =>
      intro x hx
      constructor
      · intro hpath
        cases hpath with
        | down hpart hrest =>
            rw [get_copy arena hx, Node.children_map, List.getElem?_map] at hpart
            obtain ⟨child, hchild, rfl⟩ := Option.map_eq_some_iff.mp hpart
            obtain ⟨z, hz, hy⟩ :=
              (ih (h.visits_closed hx (List.mem_of_getElem? hchild))).mp hrest
            exact ⟨z, .down hchild hz, hy⟩
      · rintro ⟨z, hpath, rfl⟩
        cases hpath with
        | down hpart hrest =>
            have hrest := (ih (h.visits_closed hx (List.mem_of_getElem? hpart))).mpr ⟨z, hrest, rfl⟩
            refine .down ?_ hrest
            rw [get_copy arena hx, Node.children_map, List.getElem?_map, hpart, Option.map_some]

/-- The copy of a grounded index is grounded. -/
theorem Grounded.copy_grounded (h : source.Grounded root) (arena : Arena) :
    (arena.graft source root).2.Grounded (arena.graft source root).1 :=
  (h.copy_endsWithin arena h.endsWithin (h.mem_visits_iff.mpr ⟨[], .here⟩)).grounded

/-- What can be reached in the copy is the copies of what can be reached in the
    original. -/
theorem Grounded.mem_reachable_copy_iff (h : source.Grounded root) (arena : Arena) :
    y ∈ (arena.graft source root).2.reachable (arena.graft source root).1 ↔
      ∃ z ∈ source.reachable root, y = copyOf arena (source.visits root) z := by
  rw [mem_reachable_iff_path (h.copy_grounded arena).lt_size]
  constructor
  · rintro ⟨path, hpath⟩
    obtain ⟨z, hz, hy⟩ := (h.path_copy_iff arena (h.mem_visits_iff.mpr ⟨[], .here⟩)).mp hpath
    exact ⟨z, (mem_reachable_iff_path h.lt_size).mpr ⟨path, hz⟩, hy⟩
  · rintro ⟨z, hz, hy⟩
    obtain ⟨path, hz⟩ := (mem_reachable_iff_path h.lt_size).mp hz
    exact ⟨path, (h.path_copy_iff arena (h.mem_visits_iff.mpr ⟨[], .here⟩)).mpr ⟨z, hz, hy⟩⟩

/-- As many indices can be reached in the copy as in the original. -/
theorem Grounded.card_reachable_copy (h : source.Grounded root) (arena : Arena) :
    ((arena.graft source root).2.reachable (arena.graft source root).1).toFinset.card =
      (source.reachable root).toFinset.card := by
  have himage : ((arena.graft source root).2.reachable (arena.graft source root).1).toFinset =
      (source.reachable root).toFinset.image (copyOf arena (source.visits root)) := by
    ext y
    rw [List.mem_toFinset, h.mem_reachable_copy_iff arena, Finset.mem_image]
    constructor
    · rintro ⟨z, hz, rfl⟩
      exact ⟨z, List.mem_toFinset.mpr hz, rfl⟩
    · rintro ⟨z, hz, rfl⟩
      exact ⟨z, List.mem_toFinset.mp hz, rfl⟩
  have hvisited : ∀ z ∈ (source.reachable root).toFinset, z ∈ source.visits root := fun z hz =>
    h.mem_visits_iff.mpr ((mem_reachable_iff_path h.lt_size).mp (List.mem_toFinset.mp hz))
  rw [himage]
  exact Finset.card_image_of_injOn fun x hx y hy =>
    copyOf_injOn arena (hvisited x hx) (hvisited y hy)

/-- Grafting what is below a grounded index, with shared parts or without, comes
    to an end and copies it faithfully: the nodes that were there stay, the tree
    of the copy is that of the original, the copy is made of new nodes only, and
    there are as many of them as there were to copy. -/
theorem graft_copies (h : source.Grounded root) (arena : Arena) :
    GraftsTo arena source root (arena.graft source root) ∧
      Extends arena (arena.graft source root).2 ∧
      (arena.graft source root).2.tree (arena.graft source root).1 = source.tree root ∧
      (∀ x ∈ (arena.graft source root).2.reachable (arena.graft source root).1,
        arena.size ≤ x ∧ x < (arena.graft source root).2.size) ∧
      ((arena.graft source root).2.reachable (arena.graft source root).1).toFinset.card =
        (source.reachable root).toFinset.card := by
  have hroot : root ∈ source.visits root := h.mem_visits_iff.mpr ⟨[], .here⟩
  refine ⟨h.graftsTo arena, graft_extends arena source root, ?_, fun x hx => ?_,
    h.card_reachable_copy arena⟩
  · -- Both arenas are read off to a depth at which neither tree is cut off.
    have hcopy := (h.copy_grounded arena).treeTo_eq
      (Nat.le_max_left (arena.graft source root).2.size source.size)
    rw [← hcopy, ← h.treeTo_eq (Nat.le_max_right (arena.graft source root).2.size source.size)]
    exact h.treeTo_copy arena _ root hroot
  · obtain ⟨z, hz, rfl⟩ := (h.mem_reachable_copy_iff arena).mp hx
    have hvisited := h.mem_visits_iff.mpr ((mem_reachable_iff_path h.lt_size).mp hz)
    exact ⟨le_copyOf arena _ z, copyOf_lt_size arena hvisited⟩

/-- A list that holds a text twice and a list that holds the text as well, next
    to something that belongs to neither. -/
def sharedText : Arena :=
  ⟨#[.ident "unrelated", .str "x", .array [1, 1], .array [2, 1]]⟩

theorem graft_copies_sharedText :
    sharedText.Grounded 3 ∧
      (sharedText.graft sharedText 3).1 = 4 ∧ (sharedText.graft sharedText 3).2.size = 9 ∧
      GraftsTo sharedText sharedText 3 (sharedText.graft sharedText 3) ∧
      Extends sharedText (sharedText.graft sharedText 3).2 ∧
      (sharedText.graft sharedText 3).2.tree (sharedText.graft sharedText 3).1 =
        sharedText.tree 3 ∧
      (∀ x ∈ (sharedText.graft sharedText 3).2.reachable (sharedText.graft sharedText 3).1,
        sharedText.size ≤ x ∧ x < (sharedText.graft sharedText 3).2.size) ∧
      ((sharedText.graft sharedText 3).2.reachable
        (sharedText.graft sharedText 3).1).toFinset.card = (sharedText.reachable 3).toFinset.card :=
  have hgrounded : sharedText.Grounded 3 := by decide
  ⟨hgrounded, by decide, by decide, graft_copies hgrounded sharedText⟩

end Copy

end Arena

end Script

end RenderFold
