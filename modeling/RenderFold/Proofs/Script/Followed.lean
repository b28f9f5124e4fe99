import RenderFold.Proofs.Script.Shared

/-!
# Trees With Marked Parts

An expression is folded before the calls in it are numbered. What is below it
when it has been folded is what is below it later, but for the calls that were
numbered in the meantime: on every way down the nodes are the same until a
marked index is met, and nothing is said of what is below that.

## Main definitions

* `Arena.Follows`: What is below an index is what it was, down to marked
  indices.

## Theorems

* `Follows.unmarked`: Where nothing is marked below, the tree is the same.
* `Follows.replace`: Below a node that was rewritten.
-/

namespace RenderFold

namespace Script

namespace Arena

variable {a b arena after : Arena} {marked : Set Id} {id x : Id} {path : List Nat}

/-- Below an index the later arena has the nodes of the earlier one, down to
    marked indices. -/
inductive Follows (arena after : Arena) (marked : Set Id) : Id → Prop where
  | marked {id : Id} (h : id ∈ marked) : Follows arena after marked id
  | same {id : Id} (hget : after.get id = arena.get id)
      (hparts : ∀ part ∈ (arena.get id).children, Follows arena after marked part) :
      Follows arena after marked id

/-- Nothing is marked below an index. -/
def Unmarked (arena : Arena) (marked : Set Id) (id : Id) : Prop :=
  ∀ path x, arena.Path id path x → x ∉ marked

theorem Unmarked.part {part : Id} (h : arena.Unmarked marked id)
    (hpart : part ∈ (arena.get id).children) :
    arena.Unmarked marked part := by
  obtain ⟨place, hplace⟩ := List.getElem?_of_mem hpart
  exact fun path x hpath => h _ x (.down hplace hpath)

namespace Follows

theorem refl (h : arena.Grounded id) : Follows arena arena marked id := by
  have hends := h.endsWithin
  generalize arena.size = bound at hends
  induction bound generalizing id with
  | zero => exact hends.elim
  | succ bound ih => exact .same rfl fun part hpart => ih (h.part hpart) (hends.2 part hpart)

/-- An index that is not marked has the node it had. -/
theorem get_eq (h : Follows arena after marked id) (hid : id ∉ marked) :
    after.get id = arena.get id ∧
      ∀ part ∈ (arena.get id).children, Follows arena after marked part := by
  cases h with
  | marked hmem => exact absurd hmem hid
  | same hget hparts => exact ⟨hget, hparts⟩

/-- An arena that has the same nodes below is followed as well. -/
theorem congr (h : Follows b after marked id)
    (hsame : ∀ path x, a.Path id path x → b.get x = a.get x) : Follows a after marked id := by
  induction h with
  | marked hmem => exact .marked hmem
  | @same id hget _ ih =>
      have hid := hsame [] id .here
      refine .same (hget.trans hid) fun part hpart => ?_
      obtain ⟨place, hplace⟩ := List.getElem?_of_mem hpart
      exact ih part (hid ▸ hpart) fun path x hpath => hsame _ x (.down hplace hpath)

/-- What was there before others were added is followed as well. -/
theorem of_extends (h : Follows b after marked id) (hid : a.Grounded id) (hext : Extends a b) :
    Follows a after marked id :=
  h.congr fun path x hpath => hext.2 x (hid.lt_size path x hpath)

/-- What is grounded stays so if the marked indices below are. -/
theorem grounded (h : Follows arena after marked id) (hid : arena.Grounded id)
    (hsize : arena.size ≤ after.size)
    (hmarked : ∀ path x, arena.Path id path x → x ∈ marked → after.Grounded x) :
    after.Grounded id := by
  induction h with
  | @marked id hmem => exact hmarked [] id .here hmem
  | @same id hget _ ih =>
      have hlt := hid.lt_size [] id .here
      refine .of_parts (hlt.trans_le hsize) fun part hpart => ?_
      rw [hget] at hpart
      obtain ⟨place, hplace⟩ := List.getElem?_of_mem hpart
      exact ih part hpart (hid.part hpart) fun path x hpath => hmarked _ x (.down hplace hpath)

/-- Where nothing is marked below, the nodes below are what they were. -/
theorem get_of_path (hpath : arena.Path id path x) (h : Follows arena after marked id)
    (hnone : arena.Unmarked marked id) : after.get x = arena.get x := by
  induction hpath with
  | here => exact (h.get_eq (hnone [] _ .here)).1
  | down hplace _ ih =>
      have hpart := List.mem_of_getElem? hplace
      exact ih ((h.get_eq (hnone [] _ .here)).2 _ hpart) (hnone.part hpart)

/-- Where nothing is marked below, the tree is what it was. -/
theorem unmarked (h : Follows arena after marked id) (hid : arena.Grounded id)
    (hsize : arena.size ≤ after.size) (hnone : arena.Unmarked marked id) :
    after.Grounded id ∧ after.tree id = arena.tree id :=
  hid.same hsize fun _ _ hpath => get_of_path hpath h hnone

/-- Below a node that was rewritten, what does not lead to the node is what it
    was before. -/
theorem replace (node : Node Id) (h : Follows (arena.replace id node) after marked id)
    (hid : id < arena.size) (hmarked : id ∉ marked)
    (hclear : ∀ part ∈ node.children, arena.Clear id part) :
    after.get id = node ∧ ∀ part ∈ node.children, Follows arena after marked part := by
  obtain ⟨hget, hparts⟩ := h.get_eq hmarked
  rw [get_replace_self hid] at hget hparts
  refine ⟨hget, fun part hpart => (hparts part hpart).congr fun path x hpath => ?_⟩
  exact get_replace_of_ne arena node fun heq => (hclear part hpart).apart path (heq ▸ hpath)

/-- More may be marked. -/
theorem mono {more : Set Id} (h : Follows arena after marked id) (hsub : marked ⊆ more) :
    Follows arena after more id := by
  induction h with
  | marked hmem => exact .marked (hsub hmem)
  | same hget _ ih => exact .same hget ih

/-- It makes no difference what is marked elsewhere. -/
theorem within (h : Follows arena after marked id) :
    Follows arena after {x | x ∈ marked ∧ ∃ path, arena.Path id path x} id := by
  induction h with
  | marked hmem => exact .marked ⟨hmem, [], .here⟩
  | same hget _ ih =>
      refine .same hget fun part hpart => (ih part hpart).mono fun x hx => ?_
      obtain ⟨hx, path, hpath⟩ := hx
      obtain ⟨place, hplace⟩ := List.getElem?_of_mem hpart
      exact ⟨hx, _, .down hplace hpath⟩

/-- The tree below an index that is not marked is its node, with the trees that
    there are now below its parts. -/
theorem tree_eq (h : Follows arena after marked id) (hid : arena.Grounded id)
    (hsize : arena.size ≤ after.size) (hmarked : ∀ x ∈ marked, after.Grounded x)
    (hnot : id ∉ marked) : after.tree id = .mk ((arena.get id).map after.tree) ∧
      ∀ part ∈ (arena.get id).children, Follows arena after marked part := by
  obtain ⟨hget, hparts⟩ := h.get_eq hnot
  exact ⟨hget ▸ (h.grounded hid hsize fun _ x _ hx => hmarked x hx).tree_eq, hparts⟩

/-- The tree of a node that was added. -/
theorem tree_push {node : Node Id} (h : Follows b after marked (arena.push node).1)
    (hext : Extends (arena.push node).2 b) (hsize : b.size ≤ after.size)
    (hmarked : ∀ x ∈ marked, after.Grounded x) (hnot : (arena.push node).1 ∉ marked)
    (hnode : ∀ part ∈ node.children, arena.Grounded part) :
    after.tree (arena.push node).1 = .mk (node.map after.tree) ∧
      ∀ part ∈ node.children, Follows arena after marked part := by
  have hnew := (Grounded.tree_push node hnode).1
  obtain ⟨htree, hparts⟩ :=
    (h.of_extends hnew hext).tree_eq hnew (hext.1.trans hsize) hmarked hnot
  rw [get_push_self] at htree hparts
  exact ⟨htree, fun part hpart =>
    (hparts part hpart).of_extends (hnode part hpart) (.push arena node)⟩

end Follows

end Arena

end Script

end RenderFold
