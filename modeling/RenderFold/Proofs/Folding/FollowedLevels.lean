import RenderFold.Proofs.Folding.LevelTrees
import RenderFold.Proofs.Script.Followed

/-!
# Levels With Marked Parts

The level of a node is folded while the components below it have not been
numbered yet. If everything is followed later but the calls that have been
numbered in the meantime, then what the node was rewritten into is around what
has become of its children, and each of them is followed from where it was
before the level was folded.

A text that is taken out of the call around it is joined to the markup on both
sides, so no call that will be numbered may stand below it.

## Theorems

* `Program.pushRuns_follows`: New children.
* `Program.setChildren_follows`, `Program.becomeFragment_follows`: A node with
  other children, and markup around them.
* `Program.setChildren_tree`: A node with other children, right away.
* `Program.enclose_text_path`: What is below a text that was taken out of the
  call around it.
-/

namespace RenderFold

open Script (Arena Id Tree)
open Script.Arena (Clear Closed EditedIn Extends Follows Forest Path added)

namespace Script.Arena.Forest

variable {arena : Arena} {zone : Set Id} {ids ids' : List Id} {id other x : Id}
  {path way : List Nat}

/-- What is below the roots of a forest is in its zone. -/
theorem path_mem (h : Forest zone arena ids) (hid : id ∈ ids) (hpath : arena.Path id path x) :
    x ∈ zone := by
  obtain ⟨span, hspans, -, hzone⟩ := h
  exact hzone x (hspans.path_mem (hspans.subset hid) hpath)

/-- Nothing is below roots on both sides. -/
theorem apart (h : Forest zone arena (ids ++ ids')) (hid : id ∈ ids) (hother : other ∈ ids')
    (hpath : arena.Path id path x) : ¬ arena.Path other way x := by
  obtain ⟨span, hspans, hnodup, -⟩ := h
  obtain ⟨front, back, hfront, hback, rfl⟩ := hspans.of_append
  exact fun hway => (List.nodup_append.mp hnodup).2.2 x (hfront.path_mem (hfront.subset hid) hpath)
    x (hback.path_mem (hback.subset hother) hway) rfl

end Script.Arena.Forest

namespace Program

variable {arena last : Arena} {marked : Set Id} {slot list x : Id} {elements : List Id}
  {runs : List Run}

/-- New children have the trees of their runs, with what has become of those
    that were there before. -/
theorem pushRuns_follows : ∀ {arena : Arena}, Forest Set.univ arena (runSlots runs) →
    (∀ x ∈ marked, x < arena.size) → (pushRuns arena runs).2.size ≤ last.size →
    (∀ id ∈ (pushRuns arena runs).1, Follows (pushRuns arena runs).2 last marked id) →
    (pushRuns arena runs).1.map last.tree = Run.trees last.tree runs ∧
      ∀ x ∈ runSlots runs, Follows arena last marked x := by
  induction runs with
  | nil => exact fun _ _ _ _ => ⟨rfl, fun _ hx => absurd hx List.not_mem_nil⟩
  | cons run rest ih =>
      intro arena h hold hsize hfollows
      cases run with
      | child slot =>
          have hrest : Forest Set.univ arena (runSlots rest) :=
            h.subperm (List.sublist_cons_self ..).subperm
          obtain ⟨hslot, hfollows⟩ := List.forall_mem_cons.mp hfollows
          obtain ⟨htrees, hchildren⟩ := ih hrest hold hsize hfollows
          refine ⟨congrArg (last.tree slot :: ·) htrees, List.forall_mem_cons.mpr ⟨?_, hchildren⟩⟩
          exact hslot.of_extends (h.isTree List.mem_cons_self).grounded (pushRuns_trees hrest).1
      | literal text =>
          simp only [pushRuns, Run.trees] at hsize hfollows ⊢
          split at hsize
          · next htext =>
              rw [if_pos htext] at hfollows ⊢
              rw [if_pos htext]
              exact ih h hold hsize hfollows
          · next htext =>
              rw [if_neg htext] at hfollows ⊢
              rw [if_neg htext]
              have hliteral := pushLiteral_extends arena text
              have hnew : Forest {x | arena.size ≤ x} (arena.pushLiteral text).2
                  [(arena.pushLiteral text).1] :=
                pushLiteral_forest (fun _ hx => hx) (.nil _ _) text
              have hrest : Forest Set.univ (arena.pushLiteral text).2 (runSlots rest) :=
                (pushLiteral_sameParts arena text).forest h
              obtain ⟨hfirst, hfollows⟩ := List.forall_mem_cons.mp hfollows
              obtain ⟨htrees, hchildren⟩ :=
                ih hrest (fun x hx => (hold x hx).trans_le hliteral.1) hsize hfollows
              have hext := (pushRuns_trees hrest).1
              -- Nothing below a new literal is marked.
              have htree : last.tree (arena.pushLiteral text).1 =
                  .ofCall .markup [.mk (.str text)] := by
                have hgrounded := (hnew.isTree List.mem_cons_self).grounded
                refine ((hfirst.of_extends hgrounded hext).unmarked hgrounded (hext.1.trans hsize)
                  fun path x hpath hx => ?_).2.trans (Script.Arena.tree_pushLiteral arena text)
                exact absurd (hold x hx)
                  (Nat.not_lt_of_le (hnew.path_mem List.mem_cons_self hpath))
              rw [List.map_cons, htree, htrees]
              exact ⟨rfl, fun x hx => (hchildren x hx).of_extends
                (Forest.isTree h hx).grounded hliteral⟩

/-- New children are children that were there before or new literals, which have
    nothing but new nodes below them. -/
theorem pushRuns_new : ∀ {arena : Arena}, Forest Set.univ arena (runSlots runs) →
    ∀ id ∈ (pushRuns arena runs).1, id ∈ runSlots runs ∨
      ∀ path x, (pushRuns arena runs).2.Path id path x → arena.size ≤ x := by
  induction runs with
  | nil => exact fun _ _ hid => absurd hid List.not_mem_nil
  | cons run rest ih =>
      intro arena h id hid
      cases run with
      | child slot =>
          rcases List.mem_cons.mp hid with rfl | hid
          · exact Or.inl List.mem_cons_self
          · exact (ih (h.subperm (List.sublist_cons_self ..).subperm) id hid).imp_left
              (List.mem_cons_of_mem slot)
      | literal text =>
          have hrest : Forest Set.univ (arena.pushLiteral text).2 (runSlots rest) :=
            (pushLiteral_sameParts arena text).forest h
          simp only [pushRuns] at hid ⊢
          split at hid
          · next htext =>
              rw [if_pos htext]
              exact ih h id hid
          · next htext =>
              rw [if_neg htext]
              rcases List.mem_cons.mp hid with rfl | hid
              · have hnew : Forest {x | arena.size ≤ x} (arena.pushLiteral text).2
                    [(arena.pushLiteral text).1] :=
                  pushLiteral_forest (fun _ hx => hx) (.nil _ _) text
                exact Or.inr fun path x hpath => ((pushRuns_sameParts rest _).forest hnew).path_mem
                  List.mem_cons_self hpath
              · exact (ih hrest id hid).imp_right fun h path x hpath =>
                  (pushLiteral_extends arena text).1.trans (h path x hpath)

/-- The children do not have the call itself below them. -/
theorem elements_apart (h : Forest Set.univ arena [slot])
    (hlist : arena.childArray? slot = some list)
    (helements : arena.elements? list = some elements) : Forest {x | x ≠ slot} arena elements := by
  have hparts := h.without_root
  rw [List.append_nil] at hparts
  have hmem := Script.Arena.arguments_subset arena slot
    (Script.Arena.childArray?_mem_arguments hlist)
  have hitems := forest_children hparts hmem
  rwa [Script.Arena.get_of_elements? helements] at hitems

section Call

variable {helper : Helper} {before after : List Id}

/-- The list gets the new children, and nothing else that was there before is
    changed. -/
theorem setChildren_get (h : Forest Set.univ arena [slot])
    (hlist : arena.childArray? slot = some list)
    (helements : arena.elements? list = some elements)
    (hholds : arena.HoldsList slot list helper before after)
    (hruns : (runSlots runs).Sublist elements) :
    setChildren arena slot runs =
        (pushRuns arena runs).2.replace list (.array (pushRuns arena runs).1) ∧
      (setChildren arena slot runs).get list = .array (pushRuns arena runs).1 ∧
      ∀ x < arena.size, x ≠ list → (setChildren arena slot runs).get x = arena.get x := by
  obtain ⟨callee, hcall, -⟩ := Script.Arena.call_of_helper? hholds.helper_eq
  obtain ⟨-, hlt, hbeside⟩ := parts_apart h helements hholds hcall
  obtain ⟨hext, -, -⟩ := pushRuns_apart hlt
    (hbeside.subperm (hruns.trans (List.sublist_append_left ..)).subperm)
  have hedit : setChildren arena slot runs =
      (pushRuns arena runs).2.replace list (.array (pushRuns arena runs).1) := by
    simp only [setChildren, hlist, Script.Arena.setElements, hext.2 list hlt,
      Script.Arena.get_of_elements? helements]
  refine ⟨hedit, ?_, fun x hx hne => ?_⟩
  · rw [hedit, Script.Arena.get_replace_self (hlt.trans_le hext.1)]
  · rw [hedit, Script.Arena.get_replace_of_ne _ _ hne, hext.2 x hx]

/-- If what is marked is below the children of a call, neither the call nor the
    list of the children is marked. -/
theorem call_unmarked (hslot : arena.Grounded slot) (hlist : list ∈ (arena.get slot).children)
    (helements : arena.elements? list = some elements)
    (hwithin : ∀ x ∈ marked, ∀ path, arena.Path slot path x →
      ∃ element ∈ elements, ∃ path, arena.Path element path x) :
    slot ∉ marked ∧ list ∉ marked := by
  obtain ⟨listPlace, hlistPlace⟩ := List.getElem?_of_mem hlist
  have hitem : ∀ element ∈ elements, element ∈ (arena.get list).children := by
    rw [Script.Arena.get_of_elements? helements]
    exact fun _ hmem => hmem
  constructor
  · intro hmem
    obtain ⟨element, helement, path, hpath⟩ := hwithin slot hmem [] .here
    obtain ⟨place, hplace⟩ := List.getElem?_of_mem (hitem element helement)
    exact hslot.part_apart hlist _ (.down hplace hpath)
  · intro hmem
    obtain ⟨element, helement, path, hpath⟩ := hwithin list hmem _ (.down hlistPlace .here)
    exact (hslot.part hlist).part_apart (hitem element helement) path hpath

/-- A node with other children is around what has become of them, and its other
    parts are what they were. -/
theorem setChildren_follows (h : Forest Set.univ arena [slot])
    (hlist : arena.childArray? slot = some list)
    (helements : arena.elements? list = some elements)
    (hholds : arena.HoldsList slot list helper before after)
    (hruns : (runSlots runs).Sublist elements)
    (hmarked : ∀ x ∈ marked, x < arena.size ∧ last.Grounded x)
    (hwithin : ∀ x ∈ marked, ∀ path, arena.Path slot path x →
      ∃ element ∈ elements, ∃ path, arena.Path element path x)
    (hsize : (setChildren arena slot runs).size ≤ last.size)
    (hfollows : Follows (setChildren arena slot runs) last marked slot) :
    last.tree slot =
        arena.callAround helper before after (.mk (.array (Run.trees last.tree runs))) ∧
      ∀ x ∈ runSlots runs, Follows arena last marked x := by
  obtain ⟨callee, hcall, hcallee⟩ := Script.Arena.call_of_helper? hholds.helper_eq
  obtain ⟨hne, hlt, hbeside⟩ := parts_apart h helements hholds hcall
  have hslot := (h.isTree List.mem_cons_self).grounded
  have hrest : Forest {x | x ≠ list} arena (callee :: (before ++ after)) :=
    hbeside.subperm (List.sublist_append_right ..).subperm
  have hkept : Forest {x | x ≠ list} arena (runSlots runs) :=
    hbeside.subperm (hruns.trans (List.sublist_append_left ..)).subperm
  obtain ⟨hext, hnew, -⟩ := pushRuns_apart hlt hkept
  have hkeeps := setChildren_keepsForests hlist helements hruns
  have hafter := hkeeps.forest h
  obtain ⟨hedit, hitems, hsame⟩ := setChildren_get h hlist helements hholds hruns
  have hlistpart := hholds.mem_children
  obtain ⟨hslotmarked, hlistmarked⟩ := call_unmarked hslot hlistpart helements hwithin
  obtain ⟨htree, hparts⟩ := hfollows.tree_eq (hafter.isTree List.mem_cons_self).grounded hsize
    (fun x hx => (hmarked x hx).2) hslotmarked
  have hget : (setChildren arena slot runs).get slot = .call callee (before ++ list :: after) := by
    rw [hsame slot (h.mem List.mem_cons_self).2 hne.symm, hcall, hholds.arguments_eq]
  rw [hget] at htree hparts
  -- The parts beside the list are what they were.
  have hkeep : ∀ x ∈ callee :: (before ++ after), last.tree x = arena.tree x := by
    intro x hx
    have hx' := (hrest.isTree hx).grounded
    have hpart : x ∈ callee :: (before ++ list :: after) := by
      simp only [List.mem_cons, List.mem_append] at hx ⊢
      tauto
    refine (((hparts x hpart).congr fun path y hpath => ?_).unmarked hx' (hkeeps.1.trans hsize)
      fun path y hpath hy => ?_).2
    · exact hsame y (hx'.lt_size path y hpath) (hrest.path_mem hx hpath)
    · have hmem : x ∈ (arena.get slot).children := by
        rw [hcall, hholds.arguments_eq]
        exact hpart
      obtain ⟨place, hplace⟩ := List.getElem?_of_mem hmem
      obtain ⟨element, helement, way, hway⟩ := hwithin y hy _ (.down hplace hpath)
      exact hbeside.apart helement hx hway hpath
  have hname : arena.tree callee = .mk (.ident helper.name) := by
    rw [(hrest.isTree List.mem_cons_self).tree_eq, hcallee]
    rfl
  -- The list holds the new children.
  have hlistmem : list ∈ callee :: (before ++ list :: after) :=
    List.mem_cons_of_mem _ (List.mem_append_right _ List.mem_cons_self)
  have hlistafter : (setChildren arena slot runs).Grounded list := by
    refine (hafter.isTree List.mem_cons_self).grounded.part ?_
    rw [hget]
    exact hlistmem
  obtain ⟨hlisttree, hfollows⟩ := (hparts list hlistmem).tree_eq hlistafter hsize
    (fun x hx => (hmarked x hx).2) hlistmarked
  rw [hitems] at hlisttree hfollows
  rw [hedit] at hsize hfollows
  obtain ⟨htrees, hchildren⟩ := pushRuns_follows (hkept.mono fun _ _ => trivial)
    (fun x hx => (hmarked x hx).1)
    ((Nat.le_of_eq (Script.Arena.size_replace ..).symm).trans hsize)
    fun id hid => (hfollows id hid).congr fun path x hpath =>
      Script.Arena.get_replace_of_ne _ _ (hnew.path_mem hid hpath)
  refine ⟨?_, hchildren⟩
  rw [htree, Script.Node.map, List.map_append, List.map_cons, hlisttree, Script.Node.map, htrees,
    hkeep callee List.mem_cons_self, hname,
    List.map_congr_left fun x hx => hkeep x (List.mem_cons_of_mem _ (List.mem_append_left _ hx)),
    List.map_congr_left fun x hx => hkeep x (List.mem_cons_of_mem _ (List.mem_append_right _ hx))]
  rfl

/-- Giving the list other elements changes nothing else in the call. -/
theorem setChildren_tree (h : Forest Set.univ arena [slot])
    (hlist : arena.childArray? slot = some list)
    (helements : arena.elements? list = some elements)
    (hholds : arena.HoldsList slot list helper before after)
    (hruns : (runSlots runs).Sublist elements) :
    (setChildren arena slot runs).tree slot =
      arena.callAround helper before after (.mk (.array (Run.trees arena.tree runs))) := by
  have hkeeps := setChildren_keepsForests hlist helements hruns
  have hfollows : Follows (setChildren arena slot runs) (setChildren arena slot runs) ∅ slot :=
    .refl ((hkeeps.forest h).isTree List.mem_cons_self).grounded
  obtain ⟨htree, hchildren⟩ := setChildren_follows h hlist helements hholds hruns
    (fun _ hx => hx.elim) (fun _ hx => hx.elim) (Nat.le_refl _) hfollows
  obtain ⟨callee, hcall, -⟩ := Script.Arena.call_of_helper? hholds.helper_eq
  have hforest := (parts_apart h helements hholds hcall).2.2
  rw [htree, Run.trees_congr fun x hx => ((hchildren x hx).unmarked
    (hforest.isTree (List.mem_append_left _ (hruns.subset hx))).grounded hkeeps.1
    fun _ _ _ hx => hx.elim).2]

end Call

/-- An expression that is rewritten into markup around children is a call with
    three arguments, and nothing else that was there before is changed. -/
theorem becomeFragment_get (hlt : slot < arena.size) (opening closing : String)
    (children : List Id) :
    arena.size ≤ (arena.becomeFragment slot opening closing children).size ∧
      (∃ callee first second third,
        (arena.becomeFragment slot opening closing children).get slot =
          .call callee [first, second, third]) ∧
      ∀ x < arena.size, x ≠ slot →
        (arena.becomeFragment slot opening closing children).get x = arena.get x := by
  have hext := (((Extends.push arena (.str opening)).trans (.push _ (.str closing))).trans
    (.push _ (.array children))).trans (.push _ (.ident Helper.markup.name))
  exact ⟨hext.1.trans (Nat.le_of_eq (Script.Arena.size_replace ..).symm),
    ⟨_, _, _, _, Script.Arena.get_replace_self (hlt.trans_le hext.1) _⟩, fun x hx hne =>
      (Script.Arena.get_replace_of_ne _ _ hne).trans (hext.2 x hx)⟩

/-- Markup that was put around children is around what has become of them. -/
theorem becomeFragment_follows (hlt : slot < arena.size) {children : List Id}
    (h : Forest {x | x ≠ slot} arena children) {opening closing : String}
    (hmarked : ∀ x ∈ marked, x < arena.size ∧ last.Grounded x) (hslot : slot ∉ marked)
    (hsize : (arena.becomeFragment slot opening closing children).size ≤ last.size)
    (hfollows : Follows (arena.becomeFragment slot opening closing children) last marked slot) :
    last.tree slot = .ofCall .markup [.mk (.str opening), .mk (.str closing),
        .mk (.array (children.map last.tree))] ∧
      ∀ x ∈ children, Follows arena last marked x := by
  have hchildren (x : Id) (hx : x ∈ children) : arena.Clear slot x :=
    ⟨(h.isTree hx).grounded, fun path hpath => h.path_mem hx hpath rfl⟩
  have hnew {x : Id} (hx : arena.size ≤ x) : x ∉ marked :=
    fun hmem => absurd (hmarked x hmem).1 (Nat.not_lt_of_le hx)
  have hgrounded : ∀ x ∈ marked, last.Grounded x := fun x hx => (hmarked x hx).2
  set a₁ := arena.push (.str opening) with ha₁
  set a₂ := a₁.2.push (.str closing) with ha₂
  set a₃ := a₂.2.push (.array children) with ha₃
  set a₄ := a₃.2.push (.ident Helper.markup.name) with ha₄
  have h₁ : Extends arena a₁.2 := .push ..
  have h₂ : Extends a₁.2 a₂.2 := .push ..
  have h₃ : Extends a₂.2 a₃.2 := .push ..
  have h₄ : Extends a₃.2 a₄.2 := .push ..
  have hnone {x : Id} {node : Script.Node Id} (hnode : node.children = []) :
      x ∉ node.children := hnode ▸ List.not_mem_nil
  -- None of the parts of the new call leads back to it.
  have hopening : a₁.2.Clear slot a₁.1 := .push _ hlt fun x hx => (hnone rfl hx).elim
  have hclosing : a₂.2.Clear slot a₂.1 :=
    .push _ (hlt.trans_le h₁.1) fun x hx => (hnone rfl hx).elim
  have hlist : a₃.2.Clear slot a₃.1 := .push _ (hlt.trans_le (h₁.trans h₂).1)
    fun x hx => ((hchildren x hx).extend (h₁.trans h₂)).1
  have hcallee : a₄.2.Clear slot a₄.1 :=
    .push _ (hlt.trans_le ((h₁.trans h₂).trans h₃).1) fun x hx => (hnone rfl hx).elim
  have hparts : ∀ x ∈ [a₄.1, a₁.1, a₂.1, a₃.1], a₄.2.Clear slot x := by
    simp only [List.forall_mem_cons]
    exact ⟨hcallee, (hopening.extend ((h₂.trans h₃).trans h₄)).1,
      (hclosing.extend (h₃.trans h₄)).1, (hlist.extend h₄).1,
      fun _ hx => absurd hx List.not_mem_nil⟩
  have hlt₄ : slot < a₄.2.size := hlt.trans_le (((h₁.trans h₂).trans h₃).trans h₄).1
  have hsize₄ : a₄.2.size ≤ last.size :=
    (Nat.le_of_eq (Script.Arena.size_replace ..).symm).trans hsize
  have hwhole := (Clear.tree_replace (.call a₄.1 [a₁.1, a₂.1, a₃.1]) hlt₄ hparts).1
  obtain ⟨htree, -⟩ := hfollows.tree_eq hwhole hsize hgrounded hslot
  obtain ⟨-, hfollows⟩ := Follows.replace (.call a₄.1 [a₁.1, a₂.1, a₃.1])
    hfollows hlt₄ hslot hparts
  have hget : (arena.becomeFragment slot opening closing children).get slot =
      .call a₄.1 [a₁.1, a₂.1, a₃.1] := Script.Arena.get_replace_self hlt₄ _
  have hcall : ∀ x ∈ [a₄.1, a₁.1, a₂.1, a₃.1], Follows a₄.2 last marked x := hfollows
  simp only [List.forall_mem_cons] at hcall
  obtain ⟨hcall₄, hcall₁, hcall₂, hcall₃, -⟩ := hcall
  have hle₁ := h₁.1
  have hle₂ := h₂.1
  have hle₃ := h₃.1
  have hcalleetree := (hcall₄.tree_push (.refl _) hsize₄ hgrounded
    (hnew ((h₁.trans h₂).trans h₃).1) fun x hx => (hnone rfl hx).elim).1
  have hopeningtree := (hcall₁.tree_push ((h₂.trans h₃).trans h₄) hsize₄ hgrounded
    (hnew (Nat.le_refl _)) fun x hx => (hnone rfl hx).elim).1
  have hclosingtree := (hcall₂.tree_push (h₃.trans h₄) hsize₄ hgrounded
    (hnew h₁.1) fun x hx => (hnone rfl hx).elim).1
  have hkept (x : Id) (hx : x ∈ children) := (hchildren x hx).extend (h₁.trans h₂)
  obtain ⟨hlisttree, hitems⟩ := hcall₃.tree_push h₄ hsize₄ hgrounded
    (hnew (h₁.trans h₂).1) fun x hx => (hkept x hx).1.grounded
  refine ⟨?_, fun x hx => (hitems x hx).of_extends (hchildren x hx).grounded (h₁.trans h₂)⟩
  rw [htree, hget, Script.Node.map, hcalleetree, List.map_cons, List.map_cons, List.map_singleton,
    hopeningtree, hclosingtree, hlisttree]
  rfl

/-- What is below markup into which a text was taken, between two literals, is
    below the text or new. -/
theorem enclose_text_path (hlt : slot < arena.size) {only argument : Id}
    (htext : arena.textArgument? only = some argument) (h : arena.Clear slot argument)
    {opening closing : String} {path : List Nat}
    (hpath : (enclose arena slot opening closing [only]).Path slot path x) (hx : x < arena.size) :
    x = slot ∨ ∃ path, arena.Path argument path x := by
  have hclosed : Closed arena {x | ∃ path, arena.Path argument path x} := by
    rintro x ⟨path, hpath⟩
    refine ⟨h.grounded.lt_size path x hpath, fun part hpart => ?_⟩
    obtain ⟨place, hplace⟩ := List.getElem?_of_mem hpart
    exact ⟨_, hpath.snoc hplace⟩
  obtain ⟨hedit, hmem⟩ := wrap_editedIn hclosed ⟨[], .here⟩ opening closing
  set a₁ := arena.push (.str opening)
  set a₂ := a₁.2.push (.str closing)
  set start := a₂.2.join a₁.1 argument
  set whole := start.2.join start.1 a₂.1
  have hwhole : enclose arena slot opening closing [only] = whole.2.becomeText slot whole.1 := by
    simp only [enclose, htext, whole, start, a₂, a₁]
  -- The new call is over the text and what was added, and no way leads out of these.
  set callee := whole.2.push (.ident Helper.markup.name)
  have hcallee : EditedIn {x | ∃ path, arena.Path argument path x} arena callee.2 :=
    hedit.trans (Script.Arena.pushLeaf_editedIn hedit.closed rfl)
  have hout : slot ∉ {x | ∃ path, arena.Path argument path x} ∪ added arena callee.2 := by
    rintro (⟨path, hpath⟩ | ⟨hle, -⟩)
    · exact h.apart path hpath
    · exact absurd hlt (Nat.not_lt_of_le hle)
  have hlt' : slot < callee.2.size := hlt.trans_le hcallee.size_le
  rw [hwhole] at hpath
  have hclosed' : Closed (callee.2.replace slot (.call callee.1 [whole.1]))
      ({x | ∃ path, arena.Path argument path x} ∪ added arena callee.2) := by
    intro y hy
    rw [Script.Arena.size_replace,
      Script.Arena.get_replace_of_ne _ _ (ne_of_mem_of_not_mem hy hout)]
    exact hcallee.closed y hy
  cases hpath with
  | here => exact Or.inl rfl
  | @down _ part _ _ _ hpart hrest =>
      have hpart : ((callee.2.replace slot (.call callee.1 [whole.1])).get slot).children[_]? =
          some part := hpart
      rw [Script.Arena.get_replace_self hlt'] at hpart
      have hin : part ∈ {x | ∃ path, arena.Path argument path x} ∪ added arena callee.2 := by
        have hcases : part = callee.1 ∨ part = whole.1 := by
          simpa [Script.Node.children] using List.mem_of_getElem? hpart
        rcases hcases with rfl | rfl
        · exact EditedIn.mem_earlier (EditedIn.push_mem _ whole.2 _) hedit.size_le
        · exact EditedIn.mem_later hmem (Extends.push _ _).1
      rcases hclosed'.path_mem hin hrest with hx' | ⟨hle, -⟩
      · exact Or.inr hx'
      · exact absurd hx (Nat.not_lt_of_le hle)

end Program

end RenderFold
