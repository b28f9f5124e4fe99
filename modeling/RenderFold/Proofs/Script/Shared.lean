import RenderFold.Proofs.Script.Grounded
import RenderFold.Proofs.Script.Rewritten

/-!
# Edits Among Shared Parts

A forest has no parts in common, so an edit of one of its trees cannot be seen
in another. Where parts are shared there is less to go by, but an edit rewrites
one node, and what matters is only whether that node is below. Whatever does not
lead to it is clear of it: it is read off afterwards as it was before, and may
stand below the rewritten node without making it part of itself.

What does lead to the rewritten node is still read off as before, if that node
itself is.

## Main definitions

* `Arena.Clear`: What is grounded and does not lead to a node.

## Theorems

* `Clear.replace`: Rewriting a node leaves alone what is clear of it.
* `Clear.tree_replace`: The node that is rewritten.
* `Grounded.patch`: What may lead to the node.
* `Clear.tree_becomeCall`, `Clear.tree_becomeFragment`: A node that is
  rewritten into a call.
-/

namespace RenderFold

namespace Script

namespace Arena

variable {arena after a b : Arena} {id root x y : Id} {path : List Nat} {node : Node Id}
  {arguments : List Id}

/-- Where the nodes on the way have the parts they had, a way down is one that
    was there before. -/
theorem Path.back (h : after.Path x path y) :
    (∀ path z, arena.Path x path z → (after.get z).children = (arena.get z).children) →
      arena.Path x path y := by
  induction h with
  | here => exact fun _ => .here
  | down hpart _ ih =>
      intro hsame
      rw [hsame [] _ .here] at hpart
      exact .down hpart (ih fun path z hpath => hsame (_ :: path) z (.down hpart hpath))

namespace Grounded

/-- Adding nodes leaves what is read off as it is. -/
theorem extend (h : arena.Grounded x) (hext : Extends arena after) :
    after.Grounded x ∧ after.tree x = arena.tree x :=
  h.same hext.1 fun path y hpath => hext.2 y (h.lt_size path y hpath)

/-- No part of a node leads to the node. -/
theorem part_apart (h : arena.Grounded id) (hx : x ∈ (arena.get id).children) :
    ∀ path, ¬ arena.Path x path id := by
  intro path hpath
  obtain ⟨place, hplace⟩ := List.getElem?_of_mem hx
  have hback := h.acyclic [] id _ .here (.down hplace hpath)
  cases hback

/-- The tree of a new node is put together from the trees of its parts. -/
theorem tree_push (node : Node Id) (h : ∀ x ∈ node.children, arena.Grounded x) :
    (arena.push node).2.Grounded (arena.push node).1 ∧
      (arena.push node).2.tree (arena.push node).1 = .mk (node.map arena.tree) := by
  have hext := Extends.push arena node
  have hnew : (arena.push node).2.Grounded (arena.push node).1 := by
    refine .of_parts ?_ fun x hx => ?_
    · rw [size_push]
      exact Nat.lt_succ_self _
    · rw [get_push_self] at hx
      exact ((h x hx).extend hext).1
  refine ⟨hnew, ?_⟩
  rw [hnew.tree_eq, get_push_self, Node.map_congr fun x hx => ((h x hx).extend hext).2]

/-- Where one node is rewritten, everything is read off as before if that node
    is. -/
theorem patch (h : arena.Grounded id) (hsize : arena.size ≤ after.size)
    (hsame : ∀ x < arena.size, x ≠ root → after.get x = arena.get x)
    (hroot : after.Grounded root) :
    after.Grounded id ∧ (after.tree root = arena.tree root → after.tree id = arena.tree id) := by
  -- By induction on how far down it goes. At the node that is rewritten there is
  -- nothing left to show, and every other node is what it was.
  suffices ∀ bound id, arena.EndsWithin bound id →
      after.Grounded id ∧ (after.tree root = arena.tree root → after.tree id = arena.tree id) from
    this _ id h.endsWithin
  intro bound
  induction bound with
  | zero => exact fun _ hends => hends.elim
  | succ bound ih =>
      intro id hends
      by_cases hid : id = root
      · subst hid
        exact ⟨hroot, fun htree => htree⟩
      · have hnode : after.get id = arena.get id := hsame id hends.1 hid
        have hgrounded : after.Grounded id := by
          refine .of_parts (Nat.lt_of_lt_of_le hends.1 hsize) fun part hpart => ?_
          rw [hnode] at hpart
          exact (ih part (hends.2 part hpart)).1
        refine ⟨hgrounded, fun htree => ?_⟩
        rw [hgrounded.tree_eq, hends.grounded.tree_eq, hnode,
          Node.map_congr fun part hpart => (ih part (hends.2 part hpart)).2 htree]

end Grounded

/-- The tree of a call whose arguments may be shared. -/
theorem tree_call_of_grounded {helper : Helper} {call callee : Id}
    (hget : arena.get call = .call callee arguments)
    (hcallee : arena.get callee = .ident helper.name)
    (harguments : ∀ x ∈ arguments, arena.Grounded x) :
    arena.tree call = .ofCall helper (arguments.map arena.tree) := by
  have hname : arena.Grounded callee := by
    refine .of_parts (lt_size_of_get hcallee fun h => by cases h) fun part hpart => ?_
    rw [hcallee] at hpart
    exact absurd hpart List.not_mem_nil
  have hcall : arena.Grounded call := by
    refine .of_parts (lt_size_of_get hget fun h => by cases h) fun part hpart => ?_
    rw [hget] at hpart
    rcases List.mem_cons.mp hpart with rfl | hpart
    · exact hname
    · exact harguments part hpart
  rw [hcall.tree_eq, hget, Node.map, hname.tree_eq, hcallee]
  rfl

/-- An index is grounded and does not lead to a node that is to be rewritten. -/
structure Clear (arena : Arena) (root x : Id) : Prop where
  grounded : arena.Grounded x
  apart : ∀ path, ¬ arena.Path x path root

theorem clear_iff : arena.Clear root x ↔ arena.Grounded x ∧ root ∉ arena.visits x := by
  refine ⟨fun h => ⟨h.grounded, fun hmem => ?_⟩, fun ⟨h, hnot⟩ => ⟨h, fun path hpath => ?_⟩⟩
  · obtain ⟨path, hpath⟩ := h.grounded.mem_visits_iff.mp hmem
    exact h.apart path hpath
  · exact hnot (h.mem_visits_iff.mpr ⟨path, hpath⟩)

instance decidableClear (arena : Arena) (root x : Id) : Decidable (arena.Clear root x) :=
  decidable_of_iff _ clear_iff.symm

namespace Clear

theorem ne (h : arena.Clear root x) : x ≠ root := by
  rintro rfl
  exact h.apart [] .here

theorem lt_size (h : arena.Clear root x) : x < arena.size := h.grounded.lt_size [] x .here

theorem below (h : arena.Clear root x) (hpath : arena.Path x path y) : arena.Clear root y :=
  ⟨h.grounded.below hpath, fun _ hrest => h.apart _ (hpath.append hrest)⟩

theorem part (h : arena.Clear root x) (hy : y ∈ (arena.get x).children) : arena.Clear root y := by
  obtain ⟨place, hplace⟩ := List.getElem?_of_mem hy
  exact h.below (.down hplace .here)

theorem of_parts (hlt : x < arena.size) (hne : x ≠ root)
    (h : ∀ part ∈ (arena.get x).children, arena.Clear root part) : arena.Clear root x where
  grounded := .of_parts hlt fun part hpart => (h part hpart).grounded
  apart path hpath := by
    cases hpath with
    | here => exact hne rfl
    | down hpart hrest => exact (h _ (List.mem_of_getElem? hpart)).apart _ hrest

/-- An index leads to no node that is added later. -/
theorem of_size_le (h : arena.Grounded x) (hroot : arena.size ≤ root) : arena.Clear root x :=
  ⟨h, fun path hpath => Nat.not_lt_of_le hroot (h.lt_size path root hpath)⟩

/-- What is clear stays clear where the nodes below have the same parts. -/
theorem congr (h : a.Clear root x) (hsize : a.size ≤ b.size)
    (hsame : ∀ y < a.size, y ≠ root → (b.get y).children = (a.get y).children) :
    b.Clear root x := by
  have hbelow : ∀ path y, a.Path x path y → (b.get y).children = (a.get y).children :=
    fun path y hpath => hsame y (h.below hpath).lt_size (h.below hpath).ne
  exact ⟨h.grounded.congr hsize hbelow, fun path hpath => h.apart path (hpath.back hbelow)⟩

theorem extend (h : a.Clear root x) (hext : Extends a b) :
    b.Clear root x ∧ b.tree x = a.tree x :=
  ⟨h.congr hext.1 fun y hy _ => congrArg Node.children (hext.2 y hy), (h.grounded.extend hext).2⟩

/-- A new node over clear parts is clear. -/
theorem push (node : Node Id) (hroot : root < arena.size)
    (h : ∀ x ∈ node.children, arena.Clear root x) :
    (arena.push node).2.Clear root (arena.push node).1 := by
  refine .of_parts ?_ (Nat.ne_of_gt hroot) fun x hx => ?_
  · rw [size_push]
    exact Nat.lt_succ_self _
  · rw [get_push_self] at hx
    exact ((h x hx).extend (.push arena node)).1

/-- Rewriting a node, with or without others added before, leaves alone what is
    clear of it. -/
theorem replace (h : arena.Clear root x) (hext : Extends arena after) (node : Node Id) :
    (after.replace root node).Clear root x ∧ (after.replace root node).tree x = arena.tree x := by
  have hsize : arena.size ≤ (after.replace root node).size := by
    rw [size_replace]
    exact hext.1
  have hsame : ∀ y < arena.size, y ≠ root → (after.replace root node).get y = arena.get y :=
    fun y hy hne => (get_replace_of_ne after node hne).trans (hext.2 y hy)
  have hbelow : ∀ path y, arena.Path x path y → (after.replace root node).get y = arena.get y :=
    fun path y hpath => hsame y (h.below hpath).lt_size (h.below hpath).ne
  exact ⟨h.congr hsize fun y hy hne => congrArg Node.children (hsame y hy hne),
    (h.grounded.same hsize hbelow).2⟩

/-- A node that is rewritten into one over clear parts. -/
theorem tree_replace (node : Node Id) (hroot : root < arena.size)
    (h : ∀ x ∈ node.children, arena.Clear root x) :
    (arena.replace root node).Grounded root ∧
      (arena.replace root node).tree root = .mk (node.map arena.tree) := by
  have hnode : (arena.replace root node).get root = node := get_replace_self hroot node
  have hparts (x : Id) (hx : x ∈ node.children) := (h x hx).replace (.refl arena) node
  have hgrounded : (arena.replace root node).Grounded root := by
    refine .of_parts ?_ fun x hx => ?_
    · rwa [size_replace]
    · rw [hnode] at hx
      exact (hparts x hx).1.grounded
  refine ⟨hgrounded, ?_⟩
  rw [hgrounded.tree_eq, hnode, Node.map_congr fun x hx => (hparts x hx).2]

theorem pushLiteral (hroot : root < arena.size) (text : String) :
    (arena.pushLiteral text).2.Clear root (arena.pushLiteral text).1 := by
  have h₁ := Extends.push arena (.str text)
  have h₂ := Extends.push (arena.push (.str text)).2 (.ident Helper.markup.name)
  have hargument : (arena.push (.str text)).2.Clear root _ :=
    .push _ hroot fun _ hx => absurd hx List.not_mem_nil
  have hcallee : ((arena.push (.str text)).2.push (.ident Helper.markup.name)).2.Clear root _ :=
    .push _ (hroot.trans_le h₁.1) fun _ hx => absurd hx List.not_mem_nil
  exact .push _ (hroot.trans_le (h₁.1.trans h₂.1)) (List.forall_mem_cons.mpr
    ⟨hcallee, List.forall_mem_singleton.mpr (hargument.extend h₂).1⟩)

/-- An expression that is rewritten into a call of clear arguments. -/
theorem tree_becomeCall (hroot : root < arena.size) (h : ∀ x ∈ arguments, arena.Clear root x)
    (helper : Helper) :
    (arena.becomeCall root helper arguments).Grounded root ∧
      (arena.becomeCall root helper arguments).tree root =
        .ofCall helper (arguments.map arena.tree) := by
  have hext := Extends.push arena (.ident helper.name)
  have hcallee : (arena.push (.ident helper.name)).2.Clear root _ :=
    .push _ hroot fun _ hx => absurd hx List.not_mem_nil
  have htext := (@Grounded.tree_push arena (.ident helper.name)
    fun _ hx => absurd hx List.not_mem_nil).2
  obtain ⟨hgrounded, htree⟩ := Clear.tree_replace (.call _ arguments) (hroot.trans_le hext.1)
    (List.forall_mem_cons.mpr ⟨hcallee, fun x hx => ((h x hx).extend hext).1⟩)
  refine ⟨hgrounded, htree.trans ?_⟩
  rw [Node.map, htext, List.map_congr_left fun x hx => ((h x hx).extend hext).2]
  rfl

/-- An expression that is rewritten into markup around clear children. -/
theorem tree_becomeFragment (hroot : root < arena.size) {children : List Id}
    (h : ∀ x ∈ children, arena.Clear root x) (opening closing : String) :
    (arena.becomeFragment root opening closing children).tree root =
      .ofCall .markup [.mk (.str opening), .mk (.str closing),
        .mk (.array (children.map arena.tree))] := by
  have hleaf {before : Arena} (text : String) (hroot : root < before.size) :
      (before.push (.str text)).2.Clear root (before.push (.str text)).1 ∧
        (before.push (.str text)).2.tree (before.push (.str text)).1 = .mk (.str text) :=
    ⟨.push _ hroot fun _ hx => absurd hx List.not_mem_nil,
      (Grounded.tree_push _ fun _ hx => absurd hx List.not_mem_nil).2⟩
  have h₁ := Extends.push arena (.str opening)
  have h₂ := Extends.push (arena.push (.str opening)).2 (.str closing)
  have h₃ := Extends.push ((arena.push (.str opening)).2.push (.str closing)).2 (.array children)
  have hroot₂ := hroot.trans_le (h₁.1.trans h₂.1)
  obtain ⟨hopening, hopening'⟩ := hleaf opening hroot
  obtain ⟨hclosing, hclosing'⟩ := hleaf closing (hroot.trans_le h₁.1)
  have hchildren (x : Id) (hx : x ∈ children) := (h x hx).extend (h₁.trans h₂)
  have hlist := Clear.push (.array children) hroot₂ fun x hx => (hchildren x hx).1
  have hlist' := (Grounded.tree_push (.array children)
    fun x hx => (hchildren x hx).1.grounded).2
  obtain ⟨-, htree⟩ := tree_becomeCall (hroot₂.trans_le h₃.1)
    (List.forall_mem_cons.mpr ⟨(hopening.extend (h₂.trans h₃)).1, List.forall_mem_cons.mpr
      ⟨(hclosing.extend h₃).1, List.forall_mem_singleton.mpr hlist⟩⟩) .markup
  refine htree.trans ?_
  rw [List.map_cons, List.map_cons, List.map_singleton, (hopening.extend (h₂.trans h₃)).2,
    (hclosing.extend h₃).2, hlist', hopening', hclosing', Node.map,
    List.map_congr_left fun x hx => (hchildren x hx).2]

end Clear

end Arena

end Script

end RenderFold
