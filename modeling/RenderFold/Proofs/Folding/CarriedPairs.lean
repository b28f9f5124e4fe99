import RenderFold.Proofs.Folding.CarriedCalls
import RenderFold.Proofs.Folding.Encountered
import RenderFold.Proofs.Folding.Faithful
import RenderFold.Proofs.Folding.Repeats

/-!
# Nodes That Keep Their Markup

A pair below which nothing is compared keeps its markup as it is, and so does a
node whose children could not be matched with its call. If they could, each of
them was given by its own expression, and the call makes the same node around
whatever the children have become.

## Theorems

* `Walk.Fit.rests`: A pair below which nothing is compared.
* `Walk.Fit.descends`: A pair whose children are compared next.
* `Walk.Carries.level`: The level of a node is folded after its children.
-/

namespace RenderFold

open Script (Arena Id Tree)
open Script.Arena (Beneath Closed Forest Outside added)

variable {engine : Engine} {functions : Component → Option RenderFunction}
  {cached : FactoryId → Option Resolution} {root : View} {owner : Option Instance}
  {context : TagContext} {scene : Scene} {depth : Nat} {raw : Bool} {arena : Arena} {slot : Id}
  {calls : List (Id × FoldedTree)} {view : View} {html : String}

/-- Without a plan a tree is written as it is under any entry. -/
theorem Regular.serves (h : Regular engine functions cached root) {entry : Option FoldedTree}
    (hbelow : Below engine functions cached root owner view)
    (hhtml : Amounts engine functions cached .dynamic owner context [view] html) :
    Serves engine functions entry owner context [view] html := by
  obtain ⟨answers, steps, hwritten, -⟩ := hhtml
  exact hwritten.serves h.undeferred h.unplaced (List.forall_mem_singleton.mpr hbelow)

/-- An expression below which nothing is numbered keeps its markup. -/
theorem Regular.keeps (h : Regular engine functions cached root)
    (hbelow : Below engine functions cached root owner view)
    (hhtml : Amounts engine functions cached .dynamic owner context [view] html)
    (hlocated : scene.Locates depth raw (arena.tree slot) view) (hgrounded : arena.Grounded slot)
    (hnone : ∀ call ∈ calls, ∀ path, ¬ arena.Path slot path call.1) :
    Keeps engine functions owner context scene depth raw arena calls slot html :=
  .of_unmarked hlocated hgrounded hnone (fun content heq => h.escaped owner content (heq ▸ hbelow))
    fun _ => h.serves hbelow hhtml

/-- What is written inside a node that is written around its children. -/
theorem View.ClosesWith.inside {closing : String} (h : view.ClosesWith closing) :
    view.inside = view.children := by
  cases view with
  | element tag data children =>
      obtain ⟨hend, hcontent⟩ := h
      simp only [View.inside, hend, hcontent, Option.isSome_some, Option.isNone_none, Bool.and_self,
        if_true, View.children]
  | fragment => rfl
  | _ => exact h.elim

theorem Twin.mem_dynamic {α : Type} {as bs : List α} {twin : Twin α}
    (h : twin ∈ as.zipWith Twin.mk bs) : twin.dynamic ∈ bs := by
  obtain ⟨i, hi⟩ := List.getElem?_of_mem h
  obtain ⟨a, b, -, hb, rfl⟩ := List.getElem?_zipWith_eq_some.mp hi
  exact List.mem_of_getElem? hb

variable {program : Program} {closing : String}

/-- What holds of pairs of children holds of their expressions and dynamic nodes. -/
theorem Pair.forall₂_children {static dynamic : List View} {slots : List Id}
    {context : Twin TagContext} {R : Id → View → Prop} (hlength : static.length = dynamic.length)
    (hslots : slots.length = static.length)
    (h : ∀ pair ∈ (static.zipWith Twin.mk dynamic).zipWith (Pair.mk · · context) slots,
      R pair.slot pair.view.dynamic) : List.Forall₂ R slots dynamic := by
  refine List.forall₂_iff_get.mpr ⟨hslots.trans hlength, fun i hi hi' => ?_⟩
  refine h ⟨⟨static.get ⟨i, hlength ▸ hi'⟩, dynamic.get ⟨i, hi'⟩⟩, slots.get ⟨i, hi⟩, context⟩
    (List.mem_of_getElem? (i := i) ?_)
  simp [hi, hi', hlength]

/-- A node whose children were matched keeps its markup when its level is folded
    after work below the children. -/
theorem Keeps.level {memory : Engine.State} {owner : Option Instance} {context : TagContext}
    {scene : Scene} {depth : Nat} {raw : Bool} {slot list : Id} {elements : List Id} {view : View}
    {later : Program} {html : String} (hmemory : engine.function? memory = functions)
    (hlocated : scene.Locates depth raw (program.arena.tree slot) view)
    (hlisted : Program.Listed program.arena slot list elements)
    (hcloses : view.ClosesWith closing)
    (hworks : Program.Works (program.arena.Beneath elements) program later)
    (hwithin : ∀ call ∈ calls,
      call.1 ∈ program.arena.Beneath elements ∪ added program.arena later.arena)
    (hstatic : later.findings.isStatic slot = false)
    (hopening : ∀ text, later.findings.text? slot = some text → text = view.opening engine context)
    (hmatched : later.findings.isUnmatched slot = false)
    (hchildren : List.Forall₂ (later.Carries engine functions cached owner (.within owner)
      program.arena calls) elements view.children)
    (hhtml : Amounts engine functions cached .dynamic owner context [view] html)
    (hnone : (later.foldLevel slot closing elements).findings.literal? slot = none) :
    Keeps engine functions owner context scene depth raw
      (later.foldLevel slot closing elements).arena calls slot html := by
  obtain ⟨helper, before, back, hholds⟩ := Script.Arena.holdsList_of_childArray? hlisted.array
  obtain ⟨below, rfl, hgiven, hremakes, hprintable⟩ :=
    hlocated.children hlisted hholds hcloses.encloses
  obtain ⟨hlist, hitems, hholds', htrees, hpaths⟩ := hlisted.later hholds hworks.arena
  have haround : later.arena.callAround helper before back =
      program.arena.callAround helper before back := by
    funext tree
    rw [Script.Arena.callAround, Script.Arena.callAround,
      List.map_congr_left fun x hx => htrees x (List.mem_append_left _ hx),
      List.map_congr_left fun x hx => htrees x (List.mem_append_right _ hx)]
  refine .foldLevel hmemory hlocated.toSettled (hworks.forests.forest hlisted.forest) hlist hitems
    hholds' (haround ▸ hremakes) (fun x hx => htrees x hx ▸ hprintable x hx) hcloses
    (fun call hcall => ⟨(hworks.arena.closed _ (hwithin call hcall)).1,
      hpaths _ (hwithin call hcall)⟩) hopening hstatic hmatched ?_ hhtml hnone
  refine List.forall₂_iff_get.mpr ⟨hchildren.length_eq, fun i hi hi' html hhtml => ?_⟩
  obtain ⟨hstatic, hkeeps⟩ := hchildren.get hi hi' html hhtml
  exact ⟨hstatic, fun hnone => hkeeps hnone _ _ _ (hgiven.get hi hi')⟩

/-- If the children could not be matched, an expression becomes a literal or stays
    as it is. -/
theorem Program.foldLevel_unmatched {slot : Id} (h : program.findings.isUnmatched slot = true)
    (hstatic : program.findings.isStatic slot = false) (closing : String) (slots : List Id)
    (hnone : (program.foldLevel slot closing slots).findings.literal? slot = none) :
    program.foldLevel slot closing slots = program := by
  unfold Program.foldLevel at hnone ⊢
  simp only [hstatic, Bool.false_eq_true, if_false, h, if_true] at hnone ⊢
  split at hnone
  · cases hnone.symm.trans Findings.literal?_markStatic_self
  · rfl

namespace Walk

variable {pair : Pair} {walk middle : Walk}

theorem Fit.isTree (h : Fit engine functions cached root [pair] walk) :
    walk.program.arena.IsTree pair.slot := h.forest.isTree List.mem_cons_self

/-- Nothing is known yet about the expression of a pair. -/
theorem Fit.unknown (h : Fit engine functions cached root [pair] walk) :
    walk.program.findings.get? pair.slot = none :=
  h.fresh _ (Script.Arena.mem_beneath List.mem_cons_self)

/-- A pair below which nothing is compared keeps its markup. -/
theorem Fit.rests (h : Fit engine functions cached root [pair] walk)
    (hregular : Regular engine functions cached root) {program : Program}
    (hprogram : program = walk.program ∨
      ∃ text, program = walk.program.markStatic pair.slot text ∧ pair.Tells engine text)
    (frames : List Frame) :
    Carries engine functions cached [pair] walk [] { walk with program, frames } := by
  have hclosed : Closed walk.program.arena (walk.program.arena.Beneath [pair.slot]) :=
    h.forest.beneath_closed
  have hslot : pair.slot ∈ walk.program.arena.Beneath [pair.slot] :=
    Script.Arena.mem_beneath List.mem_cons_self
  have hnone : ∀ call ∈ ([] : List (Id × FoldedTree)), False := fun _ hcall =>
    List.not_mem_nil hcall
  refine ⟨rfl, h.remembers, h.sound, rfl, ?_, fun call hcall => (hnone call hcall).elim,
    .nil _ _, List.forall_mem_singleton.mpr fun html hhtml => ?_⟩
  · rcases hprogram with rfl | ⟨text, rfl, -⟩
    · exact .refl hclosed
    · exact .markStatic hclosed hslot text
  · rcases hprogram with rfl | ⟨text, rfl, htells⟩
    · refine ⟨fun text htext => ?_, fun _ scene depth raw hlocated => ?_⟩
      · rw [Findings.literal?, Findings.isStatic, h.unknown] at htext
        cases htext
      · exact hregular.keeps (h.below pair List.mem_cons_self) hhtml hlocated h.isTree.grounded
          fun call hcall => (hnone call hcall).elim
    · have hliteral : (walk.program.markStatic pair.slot text).findings.literal? pair.slot =
          some text := Findings.literal?_markStatic_self
      refine ⟨fun other hother => ?_, fun hnone => ?_⟩
      · cases hliteral.symm.trans hother
        exact htells functions cached _ html hhtml
      · cases hliteral.symm.trans hnone

theorem opens_get? (h : pair.Opens engine walk.program program) {x : Id} (hne : x ≠ pair.slot) :
    program.findings.get? x = walk.program.findings.get? x := by
  rcases h with rfl | rfl
  · rfl
  · exact Findings.get?_update_of_ne _ _ hne

theorem opens_arena (h : pair.Opens engine walk.program program) :
    program.arena = walk.program.arena := by
  rcases h with rfl | rfl <;> rfl

/-- What opens a node is recorded where the node is. -/
theorem Fit.opens (h : Fit engine functions cached root [pair] walk)
    (hprogram : pair.Opens engine walk.program program) :
    Program.Works (walk.program.arena.Beneath [pair.slot]) walk.program program := by
  have hclosed : Closed walk.program.arena (walk.program.arena.Beneath [pair.slot]) :=
    h.forest.beneath_closed
  rcases hprogram with rfl | rfl
  · exact .refl hclosed
  · exact .setText hclosed (Script.Arena.mem_beneath List.mem_cons_self) _

/-- Nothing is known about the expressions of the children yet, and the expression
    of the node is none of what is below them. -/
theorem Fit.correlated_fresh (h : Fit engine functions cached root [pair] walk)
    (hprogram : pair.Opens engine walk.program program) (count : Nat) :
    ∀ x ∈ (program.correlate pair.slot count).2.arena.Beneath
        (program.correlate pair.slot count).1,
      x ≠ pair.slot ∧ (program.correlate pair.slot count).2.findings.get? x = none := by
  have harena := opens_arena hprogram
  refine Program.correlate_fresh ((h.opens hprogram).planted h.planted) (harena ▸ h.forest)
    (fun x hx hne => ?_) count
  rw [opens_get? hprogram hne]
  exact h.fresh x (harena ▸ hx)

/-- The children of a pair can be treated next. -/
theorem Fit.descends (h : Fit engine functions cached root [pair] walk)
    (hprogram : pair.Opens engine walk.program program)
    (hcloses : pair.view.dynamic.ClosesWith closing)
    (hlength : pair.view.static.children.length = pair.view.dynamic.children.length)
    (frames : List Frame) :
    Fit engine functions cached root
      ((pair.view.static.children.zipWith Twin.mk pair.view.dynamic.children).zipWith
        (Pair.mk · · (.within walk.active))
        (program.correlate pair.slot pair.view.static.children.length).1)
      { walk with
        program := (program.correlate pair.slot pair.view.static.children.length).2
        frames } := by
  have hforest : Forest Set.univ program.arena [pair.slot] := opens_arena hprogram ▸ h.forest
  have hworks := (Program.correlate_works hforest.beneath_closed
    (hforest.within hforest.beneath_closed fun _ => Script.Arena.mem_beneath)
    pair.view.static.children.length)
  have hplanted := (h.opens hprogram).planted h.planted
  obtain ⟨hslots, hviews, -⟩ := zipPairs_spec (.within walk.active)
    ((Twin.length_zipWith hlength).trans
      (program.length_correlate pair.slot pair.view.static.children.length).symm)
  refine ⟨hworks.planted hplanted, ?_, ?_, fun child hchild => ?_, h.remembers, h.sound⟩
  · rw [hslots]
    exact (Program.correlate_forest hforest _).subperm (List.sublist_append_left ..).subperm
  · rw [hslots]
    exact fun x hx => (h.correlated_fresh hprogram _ x hx).2
  · have hview : child.view ∈ pair.view.static.children.zipWith Twin.mk
        pair.view.dynamic.children := hviews ▸ List.mem_map_of_mem hchild
    refine (h.below pair List.mem_cons_self).inside ?_
    rw [hcloses.inside]
    exact Twin.mem_dynamic hview

/-- What is known about the expression of a node whose children were compared. -/
theorem Fit.opened (h : Fit engine functions cached root [pair] walk)
    (hprogram : pair.Opens engine walk.program program) (count : Nat) :
    (program.correlate pair.slot count).2.findings.isStatic pair.slot = false ∧
      ∀ text, (program.correlate pair.slot count).2.findings.text? pair.slot = some text →
        text = pair.view.dynamic.opening engine pair.context.dynamic := by
  have hsame := program.correlate_same pair.slot count
  rw [hsame.isStatic, hsame.text]
  rcases hprogram with rfl | rfl
  · rw [Findings.isStatic, Findings.text?, h.unknown]
    exact ⟨rfl, fun _ htext => by cases htext⟩
  · rw [Program.setText, Findings.isStatic, Findings.setText, Findings.get?_update_self, h.unknown]
    refine ⟨rfl, fun text htext => ?_⟩
    cases (Findings.text?_setText_self).symm.trans htext
    rfl

theorem Fit.opened_matched (h : Fit engine functions cached root [pair] walk)
    (hprogram : pair.Opens engine walk.program program) :
    program.findings.isUnmatched pair.slot = false := by
  rcases hprogram with rfl | rfl
  · rw [Findings.isUnmatched, h.unknown]
    rfl
  · rw [Program.setText, Findings.isUnmatched, Findings.setText, Findings.get?_update_self,
      h.unknown]
    rfl

/-- Work below the children of a node is work below the node. Its children stay
    matched, and what is known about the node stays known. -/
theorem Fit.around (hfit : Fit engine functions cached root [pair] walk)
    (hprogram : pair.Opens engine walk.program program) {count : Nat} {later : Program}
    (hworks : Program.Works ((program.correlate pair.slot count).2.arena.Beneath
      (program.correlate pair.slot count).1) (program.correlate pair.slot count).2 later) :
    Program.Works (walk.program.arena.Beneath [pair.slot]) walk.program later ∧
      later.Matches pair.slot (program.correlate pair.slot count).1 ∧
      (∀ x ∈ (program.correlate pair.slot count).2.arena.Beneath
          (program.correlate pair.slot count).1 ∪
          added (program.correlate pair.slot count).2.arena later.arena,
        x ∈ walk.program.arena.Beneath [pair.slot] ∪ added walk.program.arena later.arena) ∧
      later.findings.get? pair.slot =
        (program.correlate pair.slot count).2.findings.get? pair.slot := by
  have harena := opens_arena hprogram
  have hforest : Forest Set.univ program.arena [pair.slot] := harena ▸ hfit.forest
  have hslot : pair.slot ∈ walk.program.arena.Beneath [pair.slot] :=
    Script.Arena.mem_beneath List.mem_cons_self
  have hclosed : Closed program.arena (walk.program.arena.Beneath [pair.slot]) :=
    harena ▸ hfit.forest.beneath_closed
  have hstands : Forest (walk.program.arena.Beneath [pair.slot]) program.arena [pair.slot] :=
    hforest.within hclosed (List.forall_mem_singleton.mpr hslot)
  have hopened := (hfit.opens hprogram).trans ((Program.correlate_works hclosed hstands count).widen
    Set.subset_union_left (hfit.opens hprogram).arena.closed)
  obtain ⟨-, span, hspan, -, hzone, hfixed⟩ := Program.correlate_tends hclosed hstands count
  rw [harena] at hzone
  have hspans : (program.correlate pair.slot count).2.arena.Beneath
      (program.correlate pair.slot count).1 ⊆ {x | x ∈ span} := fun x ⟨id, hid, path, hpath⟩ =>
    hspan.path_mem (hspan.subset hid) hpath
  have hinner := hworks.widen (fun x hx => hzone x (hspans hx)) hopened.arena.closed
  refine ⟨hopened.trans hinner, (hfixed.tend hworks.toTends hopened.arena.closed (Or.inl hslot)
    hspans).isMatch, fun x hx => ?_, hworks.findings _ ?_ fun hin => ?_⟩
  · rcases hx with hx | hx
    · exact Script.Arena.EditedIn.mem_later (hzone x (hspans hx)) hworks.arena.size_le
    · exact Or.inr ⟨hopened.arena.size_le.trans hx.1, hx.2⟩
  · exact (hopened.arena.closed _ (Or.inl hslot)).1
  · exact (hfit.correlated_fresh hprogram count _ hin).1 rfl

/-- If the children could not be matched, their new expressions are apart from the
    one of the node, which stays as it is. -/
theorem Fit.unmatched (hfit : Fit engine functions cached root [pair] walk)
    (hprogram : pair.Opens engine walk.program program) {count : Nat}
    (hholes : program.correlate pair.slot count =
      Program.pushHoles count (program.markUnmatched pair.slot)) :
    let opened := program.correlate pair.slot count
    opened.2.findings.isUnmatched pair.slot = true ∧
      opened.2.arena.Outside (opened.2.arena.Beneath opened.1) pair.slot ∧
      opened.2.arena.Grounded pair.slot ∧
      opened.2.arena.tree pair.slot = walk.program.arena.tree pair.slot := by
  have harena := opens_arena hprogram
  have hforest : Forest Set.univ program.arena [pair.slot] := harena ▸ hfit.forest
  obtain ⟨hadds, -⟩ := Program.pushHoles_adds count (program.markUnmatched pair.slot)
  dsimp only
  rw [hholes]
  have hboth := hadds.forest hforest
  refine ⟨?_, .of_forest (hboth.perm List.perm_append_comm) List.mem_cons_self,
    (hboth.isTree (List.mem_append_right _ List.mem_cons_self)).grounded, ?_⟩
  · rw [hadds.findings]
    exact Findings.isUnmatched_markUnmatched_self
  · rw [← harena]
    exact hforest.tree_extends hadds.keeps List.mem_cons_self

/-- The level of a node is folded after its children. -/
theorem Carries.level (hregular : Regular engine functions cached root)
    (hfit : Fit engine functions cached root [pair] walk)
    (hprogram : pair.Opens engine walk.program program)
    (hcloses : pair.view.dynamic.ClosesWith closing)
    (hlength : pair.view.static.children.length = pair.view.dynamic.children.length)
    {frames frames' : List Frame}
    (inner : Carries engine functions cached
      ((pair.view.static.children.zipWith Twin.mk pair.view.dynamic.children).zipWith
        (Pair.mk · · (.within walk.active))
        (program.correlate pair.slot pair.view.static.children.length).1)
      { walk with
        program := (program.correlate pair.slot pair.view.static.children.length).2
        frames } calls middle) :
    Carries engine functions cached [pair] walk calls
      { middle with
        frames := frames'
        program := middle.program.foldLevel pair.slot closing
          (program.correlate pair.slot pair.view.static.children.length).1 } := by
  have hclosed := hfit.forest.beneath_closed
  have hslot : pair.slot ∈ walk.program.arena.Beneath [pair.slot] :=
    Script.Arena.mem_beneath List.mem_cons_self
  obtain ⟨hslots, hviews, hcontexts⟩ := zipPairs_spec (.within walk.active)
    ((Twin.length_zipWith hlength).trans
      (program.length_correlate pair.slot pair.view.static.children.length).symm)
  have hworks := inner.works
  have hwithin := inner.within
  have hcarried := inner.carried
  rw [hslots] at hworks hwithin
  obtain ⟨haround, hmatches, hzone, hknown⟩ := hfit.around hprogram hworks
  have hfolded := Program.foldLevel_works haround.arena.closed (Or.inl hslot)
    (fun x hx => hzone x (Or.inl (Script.Arena.mem_beneath hx))) hmatches closing
  obtain ⟨hstatic, hopening⟩ := hfit.opened hprogram pair.view.static.children.length
  rw [Findings.isStatic, ← hknown, ← Findings.isStatic] at hstatic
  rw [Findings.text?, ← hknown, ← Findings.text?] at hopening
  have hchildren : List.Forall₂ (middle.program.Carries engine functions cached
      (walk.active.map (·.dynamic)) (.within (walk.active.map (·.dynamic)))
      (program.correlate pair.slot pair.view.static.children.length).2.arena calls)
      (program.correlate pair.slot pair.view.static.children.length).1
      pair.view.dynamic.children :=
    Pair.forall₂_children hlength (program.length_correlate _ _) fun child hchild => by
      have hchild' := hcarried child hchild
      rw [Pair.Carried, hcontexts child hchild] at hchild'
      exact hchild'
  refine ⟨inner.active, inner.remembers, inner.sound, inner.builder, haround.trans hfolded,
    fun call hcall => Script.Arena.EditedIn.mem_later (hzone _ (hwithin call hcall))
      hfolded.arena.size_le, hfolded.forests.forest inner.forest,
    List.forall_mem_singleton.mpr fun html hhtml => ⟨fun text htext => ?_,
      fun hnone scene depth raw hlocated => ?_⟩⟩
  · refine Program.foldLevel_text (fun _ _ => True) hcloses hopening hstatic
      (hchildren.imp fun _ _ hchild html hhtml => ⟨(hchild html hhtml).1, fun _ => trivial⟩)
      hhtml htext
  · rcases program.correlate_cases pair.slot pair.view.static.children.length with
      ⟨list, elements, hlist, hitems, hnodes, hsame⟩ | hholes
    · have hmatched := hfit.opened_matched hprogram
      rw [hsame] at hknown hworks hwithin hchildren hnone ⊢
      rw [Findings.isUnmatched, ← hknown, ← Findings.isUnmatched] at hmatched
      have harena := opens_arena hprogram
      exact .level hfit.remembers (harena ▸ hlocated) ⟨harena ▸ hfit.forest, hlist, hitems, hnodes⟩
        hcloses hworks hwithin hstatic hopening hmatched hchildren hhtml hnone
    · obtain ⟨hunmatched, houtside, hgrounded, htree⟩ := hfit.unmatched hprogram hholes
      obtain ⟨hgrounded, hsame⟩ := hgrounded.same hworks.arena.size_le
        (houtside.get hworks.arena)
      dsimp only at hnone ⊢
      rw [Program.foldLevel_unmatched (hworks.unmatched _ hunmatched) hstatic closing _ hnone]
      exact hregular.keeps (hfit.below pair List.mem_cons_self) hhtml
        (by rw [hsame, htree]; exact hlocated) hgrounded fun call hcall path hpath =>
          (houtside.later hworks.arena path _ hpath).2 (hwithin call hcall)

end Walk

end RenderFold
