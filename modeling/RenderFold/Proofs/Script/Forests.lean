import RenderFold.Proofs.Script.Parts
import RenderFold.Proofs.Script.Zones
import Mathlib.Data.List.Perm.Subperm

/-!
# Forests

Some indices are a forest if they are the roots of trees that have no part in
common. Nodes can be added to an arena and a node can be rewritten in place,
and a forest stays one as long as the new form of the node is made of new
nodes and of what stood below the node before, each used once. What is left
out of the new form may still refer to what is kept, so an arena as a whole
is no forest, but nothing in a forest refers to what is left out.

Every edit of a render function adds nodes and then rewrites one node.

## Main definitions

* `Arena.Forest`: Roots of trees in a zone that have no part in common.
* `Arena.Plot`: What the new form of a node may be made of.
* `Arena.SameParts`: An arena in which all nodes of another have their parts.
* `Arena.KeepsForests`: An arena in which every forest of another still is
  one.

## Theorems

* `Spans.not_part`: The root of a tree is no part of it.
* `keepsForests_replace`: Rewriting a node.
* `becomeLiteral_keepsForests`, `becomeFragment_keepsForests`,
  `setElements_keepsForests`, `setProperty_keepsForests`: The edits.
-/

namespace RenderFold

namespace Script

namespace Arena

variable {arena a b c : Arena} {zone wider : Set Id} {id part : Id}
  {ids ids' span below inner : List Id}

namespace Spans

variable {other : Arena}

/-- A span only depends on the parts of the nodes in it. -/
theorem of_parts (h : Spans arena ids span) (hsize : arena.size ≤ other.size)
    (hsame : ∀ x ∈ span, (other.get x).children = (arena.get x).children) :
    Spans other ids span := by
  induction h with
  | nil => exact .nil
  | @cons id ids below rest hlt hbelow hrest ihbelow ihrest =>
      have hid := hsame id List.mem_cons_self
      refine .cons (Nat.lt_of_lt_of_le hlt hsize) ?_ (ihrest fun x hx => ?_)
      · rw [hid]
        exact ihbelow fun x hx => hsame x (List.mem_cons_of_mem _ (List.mem_append_left _ hx))
      · exact hsame x (List.mem_append_right _ hx)

/-- Some of the roots, in another order. -/
theorem perm (h : Spans arena ids span) (hperm : ids.Perm ids') :
    ∃ span', Spans arena ids' span' ∧ span.Perm span' := by
  induction hperm generalizing span with
  | nil => exact ⟨span, h, .refl _⟩
  | cons x _ ih =>
      obtain ⟨front, back, hfront, hback, rfl⟩ := h.of_cons
      obtain ⟨back', hback', hperm⟩ := ih hback
      exact ⟨front ++ back', hfront.append hback', hperm.append_left front⟩
  | swap x y l =>
      obtain ⟨first, others, hfirst, hothers, rfl⟩ := h.of_cons
      obtain ⟨second, back, hsecond, hback, rfl⟩ := hothers.of_cons
      refine ⟨second ++ (first ++ back), hsecond.append (hfirst.append hback), ?_⟩
      rw [← List.append_assoc, ← List.append_assoc]
      exact List.perm_append_comm.append_right back
  | trans _ _ ih ih' =>
      obtain ⟨middle, hmiddle, hperm⟩ := ih h
      obtain ⟨last, hlast, hperm'⟩ := ih' hmiddle
      exact ⟨last, hlast, hperm.trans hperm'⟩

theorem sublist (h : Spans arena ids span) (hsub : ids'.Sublist ids) :
    ∃ span', Spans arena ids' span' ∧ span'.Sublist span := by
  induction hsub generalizing span with
  | slnil => exact ⟨span, h, .refl _⟩
  | cons x _ ih =>
      obtain ⟨front, back, hfront, hback, rfl⟩ := h.of_cons
      obtain ⟨back', hback', hsub⟩ := ih hback
      exact ⟨back', hback', hsub.trans (List.sublist_append_right ..)⟩
  | cons_cons x _ ih =>
      obtain ⟨front, back, hfront, hback, rfl⟩ := h.of_cons
      obtain ⟨back', hback', hsub⟩ := ih hback
      exact ⟨front ++ back', hfront.append hback', hsub.append_left front⟩

/-- What is below some indices is one of them or a part of a node below
    them. -/
theorem mem_or_part (h : Spans arena ids span) {x : Id} (hx : x ∈ span) :
    x ∈ ids ∨ ∃ y ∈ span, x ∈ (arena.get y).children := by
  induction h with
  | nil => exact absurd hx List.not_mem_nil
  | @cons id ids below rest hlt hbelow hrest ihbelow ihrest =>
      simp only [List.cons_append, List.mem_cons, List.mem_append] at hx
      rcases hx with rfl | hx | hx
      · exact Or.inl List.mem_cons_self
      · refine Or.inr ?_
        rcases ihbelow hx with hpart | ⟨y, hy, hpart⟩
        · exact ⟨id, List.mem_cons_self, hpart⟩
        · exact ⟨y, List.mem_cons_of_mem _ (List.mem_append_left _ hy), hpart⟩
      · rcases ihrest hx with hroot | ⟨y, hy, hpart⟩
        · exact Or.inl (List.mem_cons_of_mem _ hroot)
        · exact Or.inr ⟨y, List.mem_append_right _ hy, hpart⟩

/-- The root of a tree is no part of a node in the tree, nor of one in the
    trees beside it. -/
theorem not_part (h : Spans arena ids span) (hnodup : span.Nodup) {x : Id} (hx : x ∈ span)
    (hpart : part ∈ (arena.get x).children) : part ∉ ids := by
  -- By induction on the span. Wherever the node is, its parts stand behind it,
  -- and whatever stands behind the first root is another index.
  induction h with
  | nil => exact absurd hx List.not_mem_nil
  | @cons id ids below rest hlt hbelow hrest ihbelow ihrest =>
      rw [List.cons_append, List.nodup_cons, List.mem_append, not_or] at hnodup
      obtain ⟨⟨hid, hid'⟩, hnodup⟩ := hnodup
      obtain ⟨hnodup, hnodup', hdisjoint⟩ := List.nodup_append.mp hnodup
      have hfront : part ∈ below → part ∉ id :: ids := by
        intro hbelow' hmem
        rcases List.mem_cons.mp hmem with rfl | hmem
        · exact hid hbelow'
        · exact hdisjoint part hbelow' part (hrest.subset hmem) rfl
      simp only [List.cons_append, List.mem_cons, List.mem_append] at hx
      rcases hx with rfl | hx | hx
      · exact hfront (hbelow.subset hpart)
      · exact hfront (hbelow.closed hx hpart)
      · intro hmem
        rcases List.mem_cons.mp hmem with rfl | hmem
        · exact hid' (hrest.closed hx hpart)
        · exact ihrest hnodup' hx hmem

/-- Rewriting a node of a forest exchanges what is below it, in place. -/
theorem exchange (h : Spans arena ids span) (hnodup : span.Nodup) (hid : id ∈ span)
    (hbelow : Spans arena (arena.get id).children below) {node : Node Id}
    (hinner : Spans (arena.replace id node) node.children inner) :
    ∃ front back, span = front ++ (id :: below) ++ back ∧
      Spans (arena.replace id node) ids (front ++ (id :: inner) ++ back) := by
  have hsize : arena.size ≤ (arena.replace id node).size :=
    Nat.le_of_eq (size_replace arena id node).symm
  have hkeep {ids span : List Id} (h : Spans arena ids span) (hid : id ∉ span) :
      Spans (arena.replace id node) ids span :=
    h.transport hsize fun x hx => get_replace_of_ne arena node fun heq => hid (heq ▸ hx)
  -- By induction on the span: the node is the first root, or in the tree below it,
  -- or in one of the trees after it. The other trees stay as they are.
  induction h with
  | nil => exact absurd hid List.not_mem_nil
  | @cons first ids under rest hlt hunder hrest ihunder ihrest =>
      obtain ⟨hnodupU, hnodupR, hdisjoint⟩ := List.nodup_append.mp hnodup
      obtain ⟨hfirst, hnodupU⟩ := List.nodup_cons.mp hnodupU
      have hlt' := Nat.lt_of_lt_of_le hlt hsize
      simp only [List.cons_append, List.mem_cons, List.mem_append] at hid
      rcases hid with rfl | hid | hid
      · obtain rfl := hbelow.unique hunder
        refine ⟨[], rest, rfl, .cons hlt' ?_ (hkeep hrest fun hmem => ?_)⟩
        · rw [get_replace_self hlt]
          exact hinner
        · exact hdisjoint id List.mem_cons_self id hmem rfl
      · obtain ⟨front, back, rfl, hspans⟩ := ihunder hnodupU hid
        have hne : first ≠ id := fun heq => hfirst (heq ▸ hid)
        refine ⟨first :: front, back ++ rest, by simp, ?_⟩
        have hrest' : Spans (arena.replace id node) ids rest :=
          hkeep hrest fun hmem => hdisjoint id (List.mem_cons_of_mem _ hid) id hmem rfl
        have hcons := Spans.cons hlt'
          (by rw [get_replace_of_ne arena node hne]; exact hspans) hrest'
        simpa using hcons
      · obtain ⟨front, back, rfl, hspans⟩ := ihrest hnodupR hid
        have hne : first ≠ id := fun heq => hdisjoint first List.mem_cons_self id hid heq
        refine ⟨first :: under ++ front, back, by simp, ?_⟩
        have hcons := Spans.cons hlt' (by
          rw [get_replace_of_ne arena node hne]
          exact hkeep hunder fun hmem => hdisjoint id (List.mem_cons_of_mem _ hmem) id hid rfl) hspans
        simpa using hcons

/-- What a node of a forest is rewritten into leaves a forest, if it is made of
    what stood below the node and of nodes that are not in the forest. -/
theorem replace (h : Spans arena ids span) (hnodup : span.Nodup) (hid : id ∈ span)
    (hbelow : Spans arena (arena.get id).children below) {node : Node Id}
    (hinner : Spans arena node.children inner) (hnodup' : inner.Nodup)
    (hout : ∀ x ∈ inner, x ∈ below ∨ x ∉ span) :
    ∃ span', Spans (arena.replace id node) ids span' ∧ span'.Nodup := by
  have hown : (id :: below).Nodup := by
    obtain ⟨own, hown, hsub⟩ := h.of_mem hid
    obtain ⟨_, -, hbelow', rfl⟩ := single_iff.mp hown
    rw [hbelow.unique hbelow']
    exact hnodup.sublist hsub
  have hself : id ∉ inner := fun hmem =>
    (hout id hmem).elim (List.nodup_cons.mp hown).1 fun hno => hno hid
  have hinner' : Spans (arena.replace id node) node.children inner :=
    hinner.transport (Nat.le_of_eq (size_replace arena id node).symm) fun x hx =>
      get_replace_of_ne arena node fun heq => hself (heq ▸ hx)
  obtain ⟨front, back, rfl, hspans⟩ := h.exchange hnodup hid hbelow hinner'
  refine ⟨_, hspans, ?_⟩
  -- What is put in has nothing in common with what stands before and behind it.
  simp only [List.nodup_append, List.nodup_cons, List.mem_append, List.mem_cons] at hnodup hout ⊢
  grind

end Spans

/-- Some indices are the roots of trees in a zone that have no part in
    common. -/
def Forest (zone : Set Id) (arena : Arena) (ids : List Id) : Prop :=
  ∃ span, Spans arena ids span ∧ span.Nodup ∧ ∀ x ∈ span, x ∈ zone

/-- The indices below a node, and all that are added from now on: what the
    node may be rewritten into. -/
def Plot (arena : Arena) (id : Id) : Set Id :=
  {x | arena.size ≤ x ∨ ∃ below, Spans arena (arena.get id).children below ∧ x ∈ below}

/-- An arena in which all nodes of another have the parts they had. -/
def SameParts (a b : Arena) : Prop :=
  a.size ≤ b.size ∧ ∀ id, id < a.size → (b.get id).children = (a.get id).children

namespace SameParts

theorem refl (a : Arena) : SameParts a a := ⟨Nat.le_refl _, fun _ _ => rfl⟩

theorem trans (hab : SameParts a b) (hbc : SameParts b c) : SameParts a c :=
  ⟨Nat.le_trans hab.1 hbc.1, fun id hid =>
    (hbc.2 id (Nat.lt_of_lt_of_le hid hab.1)).trans (hab.2 id hid)⟩

theorem of_extends (h : Extends a b) : SameParts a b :=
  ⟨h.1, fun id hid => congrArg Node.children (h.2 id hid)⟩

theorem push (a : Arena) (node : Node Id) : SameParts a (a.push node).2 :=
  of_extends (.push a node)

theorem spans (h : SameParts a b) (hspans : Spans a ids span) : Spans b ids span :=
  hspans.of_parts h.1 fun id hid => h.2 id (hspans.lt_size id hid)

theorem forest (h : SameParts a b) (hforest : Forest zone a ids) : Forest zone b ids := by
  obtain ⟨span, hspans, hrest⟩ := hforest
  exact ⟨span, h.spans hspans, hrest⟩

end SameParts

namespace Forest

theorem nil (zone : Set Id) (arena : Arena) : Forest zone arena [] :=
  ⟨[], .nil, List.nodup_nil, fun _ h => absurd h List.not_mem_nil⟩

theorem mono (h : Forest zone arena ids) (hsub : zone ⊆ wider) : Forest wider arena ids := by
  obtain ⟨span, hspans, hnodup, hzone⟩ := h
  exact ⟨span, hspans, hnodup, fun x hx => hsub (hzone x hx)⟩

theorem mem (h : Forest zone arena ids) (hid : id ∈ ids) : id ∈ zone ∧ id < arena.size := by
  obtain ⟨span, hspans, -, hzone⟩ := h
  exact ⟨hzone id (hspans.subset hid), hspans.lt_size id (hspans.subset hid)⟩

/-- Some of the trees of a forest, in any order. -/
theorem subperm (h : Forest zone arena ids) (hsub : ids'.Subperm ids) :
    Forest zone arena ids' := by
  obtain ⟨middle, hperm, hsub⟩ := hsub
  obtain ⟨span, hspans, hnodup, hzone⟩ := h
  obtain ⟨some, hsome, hsublist⟩ := hspans.sublist hsub
  obtain ⟨last, hlast, hperm'⟩ := hsome.perm hperm
  exact ⟨last, hlast, hperm'.nodup_iff.mp (hnodup.sublist hsublist),
    fun x hx => hzone x (hsublist.subset (hperm'.mem_iff.mpr hx))⟩

theorem perm (h : Forest zone arena ids) (hperm : ids.Perm ids') : Forest zone arena ids' :=
  h.subperm hperm.symm.subperm

/-- The parts of the first tree take its place. -/
theorem parts (h : Forest zone arena (id :: ids)) :
    Forest zone arena ((arena.get id).children ++ ids) := by
  obtain ⟨_, hspans, hnodup, hzone⟩ := h
  cases hspans with
  | cons hlt hbelow hrest =>
      exact ⟨_, hbelow.append hrest, (List.nodup_cons.mp hnodup).2,
        fun x hx => hzone x (List.mem_cons_of_mem _ hx)⟩

/-- A new node is put over the first trees. -/
theorem push (node : Node Id) (h : Forest zone arena (node.children ++ ids))
    (hzone : arena.size ∈ zone) :
    Forest zone (arena.push node).2 ((arena.push node).1 :: ids) := by
  obtain ⟨span, hspans, hnodup, hmem⟩ := h
  have hnew : (arena.push node).1 = arena.size := rfl
  obtain ⟨below, rest, hbelow, hrest, rfl⟩ := hspans.of_append
  refine ⟨arena.size :: below ++ rest, .cons ?_ ?_ ((Extends.push arena node).spans hrest), ?_,
    fun x hx => ?_⟩
  · rw [hnew, size_push]
    exact Nat.lt_succ_self _
  · rw [get_push_self]
    exact (Extends.push arena node).spans hbelow
  · exact List.nodup_cons.mpr ⟨fun hin => Nat.lt_irrefl _ (hspans.lt_size _ hin), hnodup⟩
  · rcases List.mem_cons.mp hx with rfl | hx
    · exact hzone
    · exact hmem x hx

/-- A new node without parts is put beside the trees. -/
theorem pushLeaf (node : Node Id) (h : Forest zone arena ids) (hzone : arena.size ∈ zone)
    (hnode : node.children = []) :
    Forest zone (arena.push node).2 ((arena.push node).1 :: ids) :=
  push node (by rwa [hnode, List.nil_append]) hzone

/-- Trees of new nodes have nothing in common with those that were there. -/
theorem beside (h : Forest {x | a.size ≤ x} b ids) (hforest : Forest zone a ids')
    (hsame : SameParts a b) (hzone : ∀ x, a.size ≤ x → x ∈ zone) :
    Forest zone b (ids ++ ids') := by
  obtain ⟨span, hspan, hnodup, hnew⟩ := h
  obtain ⟨span', hspan', hnodup', hmem⟩ := hforest
  refine ⟨span ++ span', hspan.append (hsame.spans hspan'), ?_, fun x hx => ?_⟩
  · refine List.nodup_append.mpr ⟨hnodup, hnodup', fun x hx y hy heq => ?_⟩
    exact absurd (hspan'.lt_size x (heq ▸ hy)) (Nat.not_lt_of_le (hnew x hx))
  · exact (List.mem_append.mp hx).elim (fun hx => hzone x (hnew x hx)) (hmem x)

end Forest

/-- What is added later may be used as well. -/
theorem plot_of_le (arena : Arena) (id : Id) {x : Id} (h : arena.size ≤ x) : x ∈ Plot arena id :=
  Or.inl h

/-- Every forest of an arena still is one in another arena. -/
def KeepsForests (a b : Arena) : Prop :=
  a.size ≤ b.size ∧ ∀ ids span, Spans a ids span → span.Nodup →
    ∃ span', Spans b ids span' ∧ span'.Nodup

namespace KeepsForests

theorem of_sameParts (h : SameParts a b) : KeepsForests a b :=
  ⟨h.1, fun _ span hspans hnodup => ⟨span, h.spans hspans, hnodup⟩⟩

theorem refl (a : Arena) : KeepsForests a a := of_sameParts (.refl a)

theorem trans (hab : KeepsForests a b) (hbc : KeepsForests b c) : KeepsForests a c := by
  refine ⟨Nat.le_trans hab.1 hbc.1, fun ids span hspans hnodup => ?_⟩
  obtain ⟨middle, hmiddle, hnodup'⟩ := hab.2 ids span hspans hnodup
  exact hbc.2 ids middle hmiddle hnodup'

theorem forest (h : KeepsForests a b) (hforest : Forest Set.univ a ids) :
    Forest Set.univ b ids := by
  obtain ⟨span, hspans, hnodup, -⟩ := hforest
  obtain ⟨span', hspans', hnodup'⟩ := h.2 ids span hspans hnodup
  exact ⟨span', hspans', hnodup', fun _ _ => trivial⟩

end KeepsForests

/-- Adding nodes and then rewriting one, if the new form is made of what
    stood below the node and of new nodes. A node that is the root of no tree
    is in no forest. -/
theorem keepsForests_replace {node : Node Id} (hsame : SameParts a b)
    (hnode : Forest Set.univ a [id] → Forest (Plot a id) b node.children) :
    KeepsForests a (b.replace id node) := by
  refine ⟨Nat.le_trans hsame.1 (Nat.le_of_eq (size_replace b id node).symm),
    fun ids span hspans hnodup => ?_⟩
  by_cases hid : id ∈ span
  · obtain ⟨own, hown, hsub⟩ := hspans.of_mem hid
    obtain ⟨below, hlt, hbelow, rfl⟩ := Spans.single_iff.mp hown
    obtain ⟨inner, hinner, hinner', hplot⟩ :=
      hnode ⟨_, hown, hnodup.sublist hsub, fun _ _ => trivial⟩
    have hunder : Spans b (b.get id).children below := by
      rw [hsame.2 id hlt]
      exact hsame.spans hbelow
    refine (hsame.spans hspans).replace hnodup hid hunder hinner hinner' fun x hx => ?_
    rcases hplot x hx with hnew | ⟨below', hbelow', hx'⟩
    · exact Or.inr fun hmem => absurd (hspans.lt_size x hmem) (Nat.not_lt_of_le hnew)
    · rw [hbelow.unique hbelow']
      exact Or.inl hx'
  · refine ⟨span, (hsame.spans hspans).transport (Nat.le_of_eq (size_replace b id node).symm)
      fun x hx => ?_, hnodup⟩
    exact get_replace_of_ne b node fun heq => hid (heq ▸ hx)

/-- The parts of the root of a tree may stand below its new form. -/
theorem forest_plot (h : Forest Set.univ arena [id]) :
    Forest (Plot arena id) arena (arena.get id).children := by
  obtain ⟨_, hspans, hnodup, -⟩ := h
  obtain ⟨below, -, hbelow, rfl⟩ := Spans.single_iff.mp hspans
  exact ⟨below, hbelow, (List.nodup_cons.mp hnodup).2, fun x hx => Or.inr ⟨below, hbelow, hx⟩⟩

section Edits

variable {slot left right argument call array value : Id} {elements children : List Id}

theorem becomeCall_keepsForests {arguments : List Id} (hsame : SameParts a b) (helper : Helper)
    (harguments : Forest Set.univ a [id] → Forest (Plot a id) b arguments) :
    KeepsForests a (b.becomeCall id helper arguments) := by
  refine keepsForests_replace (hsame.trans (.push b (.ident helper.name))) fun htree => ?_
  exact (harguments htree).pushLeaf _ (plot_of_le a id hsame.1) rfl

theorem becomeLiteral_keepsForests (arena : Arena) (id : Id) (text : String) :
    KeepsForests arena (arena.becomeLiteral id text) := by
  refine becomeCall_keepsForests (.push arena (.str text)) _ fun _ => ?_
  exact (Forest.nil _ _).pushLeaf _ (plot_of_le arena id (Nat.le_refl _)) rfl

theorem becomeFragment_keepsForests (hsame : SameParts a b)
    (hchildren : Forest Set.univ a [id] → Forest (Plot a id) b children)
    (opening closing : String) :
    KeepsForests a (b.becomeFragment id opening closing children) := by
  have h₁ : SameParts a (b.push (.str opening)).2 := hsame.trans (.push b _)
  have h₂ := h₁.trans (.push _ (.str closing))
  have h₃ := h₂.trans (.push _ (.array children))
  refine becomeCall_keepsForests h₃ _ fun htree => ?_
  -- The children are taken by the list, which stands behind the two texts.
  have hopening := (hchildren htree).pushLeaf (.str opening) (plot_of_le a id hsame.1) rfl
  have hclosing := hopening.pushLeaf (.str closing) (plot_of_le a id h₁.1) rfl
  have hlist := Forest.push (.array children)
    (hclosing.perm (List.perm_append_comm : ([_, _] ++ children).Perm _)) (plot_of_le a id h₂.1)
  -- The texts were added from the first to the last, and so stand the other way round.
  exact hlist.perm (List.reverse_perm [_, _, _])

theorem setElements_keepsForests (hsame : SameParts a b)
    (helements : Forest Set.univ a [array] → Forest (Plot a array) b elements) :
    KeepsForests a (b.setElements array elements).2 := by
  unfold setElements
  split
  · exact keepsForests_replace hsame helements
  · exact .of_sameParts hsame

/-- A literal has no parts, whatever its text is. -/
theorem mapLiteral_sameParts (arena : Arena) (id : Id) (f : String → String) :
    SameParts arena (arena.mapLiteral id f) := by
  unfold mapLiteral
  split
  · next text hget =>
      refine ⟨Nat.le_of_eq (size_replace arena id _).symm, fun x hx => ?_⟩
      by_cases heq : x = id
      · rw [heq, get_replace_self (heq ▸ hx), hget]
        rfl
      · rw [get_replace_of_ne arena _ heq]
  · exact .refl arena

theorem join_sameParts (arena : Arena) (left right : Id) :
    SameParts arena (arena.join left right).2 := by
  unfold join
  split
  · exact .push arena _
  · split
    · exact mapLiteral_sameParts arena _ _
    · exact .push arena _
  · split
    · exact mapLiteral_sameParts arena _ _
    · exact .push arena _
  · exact .push arena _

/-- A concatenation takes the place of its two sides. -/
theorem join_forest (h : Forest zone arena (left :: right :: ids)) (hzone : arena.size ∈ zone) :
    Forest zone (arena.join left right).2 ((arena.join left right).1 :: ids) := by
  have hmap {target : Id} (f : String → String) := mapLiteral_sameParts arena target f
  have hsum : Forest zone (arena.push (.binary .add left right)).2
      ((arena.push (.binary .add left right)).1 :: ids) := h.push _ hzone
  unfold join
  split
  · have hids := h.subperm ((List.sublist_cons_self _ _).trans (List.sublist_cons_self _ _)).subperm
    exact hids.pushLeaf _ hzone rfl
  · split
    -- One side takes the other in, which is a literal and left out.
    · exact (hmap _).forest (h.subperm (List.sublist_cons_self _ _).subperm)
    · exact hsum
  · split
    · exact (hmap _).forest (h.subperm ((List.sublist_cons_self _ _).cons_cons _).subperm)
    · exact hsum
  · exact hsum

theorem insert_fields_subperm (properties : Fields Id) (key : String) (value : Id) :
    ((Fields.insert properties key value).map (·.2)).Subperm (value :: properties.map (·.2)) := by
  induction properties with
  | nil => exact .refl _
  | cons entry rest ih =>
      obtain ⟨name, old⟩ := entry
      simp only [Fields.insert]
      split
      · exact ((List.sublist_cons_self old _).cons_cons value).subperm
      · exact ((List.subperm_cons old).mpr ih).trans (List.Perm.swap value old _).subperm

/-- A new value may stand below a node beside the parts it has. -/
theorem forest_plot_cons (hsame : SameParts a b) (hvalue : Forest {x | a.size ≤ x} b [value])
    (h : Forest Set.univ a [id]) :
    Forest (Plot a id) b (value :: (a.get id).children) :=
  hvalue.beside (forest_plot h) hsame fun _ => plot_of_le a id

theorem insertData_keepsForests (hext : Extends a b)
    (hvalue : Forest {x | a.size ≤ x} b [value]) (call : Id) (key : String) :
    KeepsForests a (b.insertData call key value).2 := by
  have hsame := SameParts.of_extends hext
  have hpush : SameParts a (b.push (.object [(key, value)])).2 := hsame.trans (.push b _)
  unfold insertData
  split
  rename_i data pushed heq
  cases heq
  split
  · next callee tag rest hget =>
      refine keepsForests_replace hpush fun htree => ?_
      -- The call was there before, and the object stands among its parts.
      have hlt := (htree.mem List.mem_cons_self).2
      have hne : call ≠ b.size := Nat.ne_of_lt (Nat.lt_of_lt_of_le hlt hext.1)
      have hparts : (a.get call).children = callee :: tag :: rest := by
        rw [← hext.2 call hlt, (get_push_of_ne b _ hne).symm.trans hget]
        rfl
      have hvalues := forest_plot_cons hsame hvalue htree
      rw [hparts] at hvalues
      have hdata := Forest.push (.object [(key, value)]) hvalues (plot_of_le a call hext.1)
      exact hdata.perm ((List.Perm.swap _ _ _).trans ((List.Perm.swap _ _ _).cons _))
  · exact .of_sameParts hpush
  · exact .of_sameParts hpush

theorem setProperty_keepsForests (hext : Extends a b)
    (hvalue : Forest {x | a.size ≤ x} b [value]) (call : Id) (key : String) :
    KeepsForests a (b.setProperty call key value).2 := by
  have hsame := SameParts.of_extends hext
  unfold setProperty
  split
  · split
    · exact insertData_keepsForests hext hvalue call key
    · next argument hargument =>
        split
        · next properties hget =>
            refine keepsForests_replace hsame fun htree => ?_
            have hparts : (a.get argument).children = properties.map (·.2) := by
              rw [← hext.2 argument (htree.mem List.mem_cons_self).2, hget]
              rfl
            have hvalues := forest_plot_cons hsame hvalue htree
            rw [hparts] at hvalues
            exact hvalues.subperm (insert_fields_subperm properties key value)
        · exact insertData_keepsForests hext hvalue call key
        · exact .of_sameParts hsame
  · exact .of_sameParts hsame

end Edits

end Arena

end Script

end RenderFold
