import RenderFold.Proofs.Folding.CarriedEntries
import RenderFold.Proofs.Folding.CarriedRoots
import RenderFold.Proofs.Folding.Departed
import RenderFold.Proofs.Folding.Returned
import RenderFold.Proofs.Folding.Stamped
import RenderFold.Proofs.Script.Accepted
import RenderFold.Proofs.Script.Reprinted

/-!
# Components That Keep Their Markup

When a component is left an entry is made for it. Whether that has a literal, the
own function of the component or its rewritten one, a component with this entry
is written as it was before. For the rewritten function that is because the root
of the copy keeps its markup while the calls below it are numbered, the rest of
the copy stays as it is, and what is printed is read back.

## Main definitions

* `Pair.StandsFor`: An entry stands for a component.
* `Walk.Inside`: A pair that uses a component, with the root of the component
  treated.

## Theorems

* `Walk.Inside.stands_own`, `Walk.Inside.stands_rewritten`: The entries with a
  function of the component.
* `Walk.Inside.departs`: A component that is left is carried by its expression.
-/

namespace RenderFold

open Script (Arena Id Tree)
open Script.Arena (Beneath Extends Follows Forest added)

/-- A function that is printed and read again is the function that was printed. -/
theorem RenderFunction.tree_of_printed {arena : Arena} {function : Id} {read : RenderFunction}
    (hread : RenderFunction.compile (arena.print function) = .ok read)
    (hgrammar : Script.Function (arena.tree function)) (hplain : (arena.tree function).Plain) :
    read.tree = arena.tree function := by
  have hsource := RenderFunction.compile_eq_ok_iff.mp hread
  rcases Script.parseFunction_print_eq hgrammar hplain with ⟨other, root, hparse, htree⟩ |
    ⟨e, hparse⟩
  · rw [RenderFunction.tree_of_read hsource hparse, htree]
  · have hread := read.wasRead
    rw [hsource] at hread
    cases hparse.symm.trans hread

/-- Calls that have been numbered have the numbers of the children that stay. -/
theorem Program.directs_of_placed {arena : Arena} {function : Id} (keepPlaces : Bool)
    {calls : List (Id × FoldedTree)} {entry : FoldedTree}
    (hforest : Forest Set.univ arena (calls.map (·.1)))
    (hchildren : entry.children = (calls.filter fun call =>
      counts (survivors arena function (calls.map (·.1))) keepPlaces call.1).map (·.2)) :
    ∀ x ∈ survivors arena function (calls.map (·.1)),
      Directs entry calls arena
        (placeAll (survivors arena function (calls.map (·.1))) keepPlaces arena 0
          (calls.map (·.1))) x := by
  intro x hx
  set stay := survivors arena function (calls.map (·.1)) with hstay
  have hcontains : stay.contains x = true := List.contains_iff_mem.mpr hx
  obtain ⟨⟨call, child⟩, hcall, rfl⟩ := List.mem_map.mp (List.mem_of_mem_filter hx)
  have hcounts : counts stay keepPlaces call = true := by
    rw [counts, hcontains, Bool.or_true]
  obtain ⟨i, hi⟩ := List.getElem?_of_mem (List.mem_filter.mpr ⟨hcall, hcounts⟩ :
    (call, child) ∈ calls.filter fun call => counts stay keepPlaces call.1)
  have hplace : ((calls.map (·.1)).filter (counts stay keepPlaces))[i]? = some call := by
    rw [List.filter_map, List.getElem?_map]
    exact congrArg _ hi
  have hstamped := placeAll_stamped 0 hforest hplace hcontains
  rw [Nat.zero_add] at hstamped
  exact ⟨child, i, hcall, by rw [hchildren, List.getElem?_map, hi]; rfl, hstamped⟩

theorem Datum.asChild_false (view : View) : asChild false view = view := by
  cases view with
  | text content raw => rw [asChild, Bool.or_false]
  | _ => rfl

section Inside

variable {engine : Engine} {functions : Component → Option RenderFunction}
  {cached : FactoryId → Option Resolution} {root : View} {pair : Pair}
  {walk opened middle after : Walk} {own : RenderFunction} {use : ComponentId} {data : NodeData}
  {instances : Twin Instance} {roots : Twin View} {context : Twin TagContext}
  {calls : List (Id × FoldedTree)} {child : FoldedTree} {html : String}

/-- An entry stands for a component, whatever the component amounts to. -/
def Pair.StandsFor (engine : Engine) (functions : Component → Option RenderFunction)
    (cached : FactoryId → Option Resolution) (owner : Option Instance) (pair : Pair)
    (use : ComponentId) (data : NodeData) (child : FoldedTree) : Prop :=
  ∀ html, Amounts engine functions cached .dynamic owner pair.context.dynamic
      [pair.view.dynamic] html →
    Stands engine functions owner pair.context.dynamic use data child html

/-- A pair that uses a component, with the root of the component treated. -/
structure Walk.Inside (engine : Engine) (functions : Component → Option RenderFunction)
    (cached : FactoryId → Option Resolution) (root : View) (pair : Pair) (walk opened middle : Walk)
    (own : RenderFunction) (use : ComponentId) (data : NodeData) (instances : Twin Instance)
    (roots : Twin View) (context : Twin TagContext) (calls : List (Id × FoldedTree)) : Prop where
  fit : Fit engine functions cached root [pair] walk
  uses : pair.view.dynamic = .component use data
  owned : functions (engine.components use) = some own
  rendered : engine.rendering? functions .dynamic (walk.active.map (·.dynamic))
    (engine.components use) data = some (instances.dynamic, roots.dynamic)
  nested : context.dynamic = pair.context.dynamic.nest data (engine.components use).scopeId
  located : opened.program = (walk.located pair.slot own).2
  entered : opened.active = some instances
  inner : Carries engine functions cached [⟨roots, (walk.located pair.slot own).1, context⟩] opened
    calls middle

namespace Walk.Inside

/-- The root carries what the component amounts to. -/
theorem knows (h : Inside engine functions cached root pair walk opened middle own use data
      instances roots context calls)
    (hhtml : Amounts engine functions cached .dynamic (walk.active.map (·.dynamic))
      pair.context.dynamic [pair.view.dynamic] html) :
    (∀ text, middle.program.findings.literal? (walk.located pair.slot own).1 = some text →
        html = text) ∧
      (middle.program.findings.literal? (walk.located pair.slot own).1 = none →
        ∀ scene depth raw, Scene.Locates scene depth raw
            ((walk.located pair.slot own).2.arena.tree (walk.located pair.slot own).1)
            roots.dynamic →
          Keeps engine functions (some instances.dynamic)
            (pair.context.dynamic.nest data (engine.components use).scopeId) scene depth raw
            middle.program.arena calls (walk.located pair.slot own).1 html) := by
  have hroot := h.inner.carried _ List.mem_cons_self
  rw [h.entered, h.located, Pair.Carried] at hroot
  dsimp only [Option.map_some] at hroot
  rw [h.nested] at hroot
  rw [h.uses] at hhtml
  exact hroot html (hhtml.of_component h.rendered)

/-- What is left of a component is carried by its expression, if the entry that is
    made for it stands, or if the expression is static. -/
theorem carries (h : Inside engine functions cached root pair walk opened middle own use data
      instances roots context calls) (hregular : Regular engine functions cached root)
    (hactive : after.active = walk.active) (hremembers : engine.function? after.engine = functions)
    (hsound : after.synthesizer.Sound)
    (hbuilder : after.builder = walk.builder.attach pair.slot child)
    (hworks : Program.Works (walk.program.arena.Beneath [pair.slot]) walk.program after.program)
    (hcarried : (∀ html, Amounts engine functions cached .dynamic (walk.active.map (·.dynamic))
        pair.context.dynamic [pair.view.dynamic] html →
        after.program.findings.literal? pair.slot = some html) ∨
      after.program.findings.literal? pair.slot = none ∧
        Extends walk.program.arena after.program.arena ∧
        pair.StandsFor engine functions cached (walk.active.map (·.dynamic)) use data child) :
    Carries engine functions cached [pair] walk [(pair.slot, child)] after where
  active := hactive
  remembers := hremembers
  sound := hsound
  builder := hbuilder
  works := hworks
  within := List.forall_mem_singleton.mpr (Or.inl (Script.Arena.mem_beneath List.mem_cons_self))
  forest := hworks.forests.forest h.fit.forest
  carried := by
    refine List.forall_mem_singleton.mpr fun html hhtml => ?_
    rcases hcarried with hliteral | ⟨hnone, hext, hstands⟩
    · refine ⟨fun text htext => Option.some.inj ((hliteral html hhtml).symm.trans htext),
        fun hnone => ?_⟩
      cases (hliteral html hhtml).symm.trans hnone
    · refine ⟨fun text htext => ?_, fun _ scene depth raw hlocated => ?_⟩
      · cases hnone.symm.trans htext
      · have hbelow := h.fit.below pair List.mem_cons_self
        have htree := h.fit.forest.tree_extends hext List.mem_cons_self
        have hgrounded := ((hworks.forests.forest h.fit.forest).isTree List.mem_cons_self).grounded
        have hstands := hstands html hhtml
        rw [← htree, h.uses] at hlocated
        rw [h.uses] at hbelow hhtml
        exact .component hlocated hgrounded (fun _ => hregular.serves hbelow hhtml) hstands

/-- A component that is rendered with its rewritten function. -/
theorem stands_rewritten (h : Inside engine functions cached root pair walk opened middle own use
      data instances roots context calls) (hregular : Regular engine functions cached root)
    (hnone : middle.program.findings.literal? (walk.located pair.slot own).1 = none)
    (hmatched : middle.program.findings.isUnmatched (walk.copied own) = false) {keepPlaces : Bool}
    (hread : RenderFunction.compile ((Program.placeAll (Program.survivors middle.program.arena
      (walk.copied own) (calls.map (·.1))) keepPlaces middle.program.arena 0
      (calls.map (·.1))).print (walk.copied own)) = .ok child.function)
    (hname : child.component = (engine.components use).name)
    (hchildren : child.children = (calls.filter fun call => Program.counts (Program.survivors
      middle.program.arena (walk.copied own) (calls.map (·.1))) keepPlaces call.1).map (·.2)) :
    pair.StandsFor engine functions cached (walk.active.map (·.dynamic)) use data child := by
  intro html hhtml
  have hworks := h.inner.works
  have hwithin := h.inner.within
  simp only [List.map_cons, List.map_nil] at hworks hwithin
  rw [h.located] at hworks hwithin
  obtain ⟨hinside, -⟩ := h.fit.inside_works h.located h.inner
  -- The root was found below the copy, since the copy is not known not to match.
  rcases Program.locateRoot_cases (walk.program.copy pair.slot own) (walk.copied own) with
    ⟨found, hfound, hlocated⟩ | hunmatched
  swap
  · cases hmatched.symm.trans (hworks.unmatched _ hunmatched)
  have hroot : walk.located pair.slot own = (found, walk.program.copy pair.slot own) := hlocated
  have hknows := (h.knows hhtml).2 hnone
  rw [hroot] at hworks hwithin hknows
  dsimp only at hworks hwithin hknows
  obtain ⟨span, hspan, hnodup, -⟩ := walk.program.copy_grown pair.slot own
  have hcopy : Forest Set.univ (walk.program.copy pair.slot own).arena [walk.copied own] :=
    ⟨span, hspan, hnodup, fun _ _ => trivial⟩
  have htree := hcopy.isTree List.mem_cons_self
  have hsame := walk.program.copy_tree pair.slot own
  -- What the function renders is what its root gives.
  obtain ⟨htractable, hrun⟩ := hregular.tractable _ _ _ _ _ _
    (h.uses ▸ h.fit.below pair List.mem_cons_self) h.rendered h.owned
  obtain ⟨statement, name, params, front, back, hreturns, hcall, hpasses⟩ :=
    Script.Arena.returns_of_singleReturn? htree
      (hsame ▸ Script.parseFunction_function own.wasRead) hfound
  obtain ⟨scene, hgives, hagain⟩ := htractable.locates hrun hsame htree hreturns hcall hpasses
  have hkeeps := hknows scene _ false hgives
  -- The calls are numbered below the root.
  have hafter := hworks.forests.forest hcopy
  have hfollows := Program.placeAll_follows keepPlaces
    (hafter.isTree List.mem_cons_self) h.inner.forest 0
  have hdirects := Program.directs_of_placed keepPlaces h.inner.forest hchildren
  have hsize := (Program.placeAll_keepsForests (Program.survivors middle.program.arena
    (walk.copied own) (calls.map (·.1))) keepPlaces (calls.map (·.1)) middle.program.arena 0).1
  obtain ⟨hfunction, hroot'⟩ := hreturns.later hcopy hworks.arena
    (hafter.isTree List.mem_cons_self).grounded hfollows hsize fun x hx => by
      obtain ⟨call, hcall, rfl⟩ := List.mem_map.mp (List.mem_of_mem_filter hx)
      obtain ⟨_, _, _, _, hstamped⟩ := hdirects _ hx
      exact ⟨hwithin call hcall, hstamped.grounded⟩
  refine .of_render hname h.rendered fun hsmall => ?_
  obtain ⟨view, halways, -, hserves, hprintable⟩ :=
    hkeeps.keeps _ _ child hsize hroot' hsmall hdirects
  obtain ⟨hgrammar, hplain⟩ := htractable.printable hsame htree hreturns hprintable
  rw [← hfunction] at hgrammar hplain
  have hrender := hagain (Evaluator.maxDepth - 2 + 2) _ _ (Nat.le_add_right _ _) halways
  rw [← hfunction, ← RenderFunction.tree_of_printed hread hgrammar hplain] at hrender
  refine ⟨view, ?_, Datum.asChild_false view ▸ hserves false nofun⟩
  unfold Engine.render
  dsimp only
  rw [hregular.accepts]
  exact hrender

/-- A component that keeps its function. -/
theorem stands_own (h : Inside engine functions cached root pair walk opened middle own use data
      instances roots context calls) (hregular : Regular engine functions cached root)
    (hname : child.component = (engine.components use).name) (hfunction : child.function = own) :
    pair.StandsFor engine functions cached (walk.active.map (·.dynamic)) use data child := by
  intro html hhtml
  rw [h.uses] at hhtml
  exact .of_own hname h.owned h.rendered hfunction fun _ => hregular.serves
    (.component (h.uses ▸ h.fit.below pair List.mem_cons_self) h.rendered)
    (hhtml.of_component h.rendered)

/-- Numbering the calls below a component leaves alone what was there before the
    component was entered. -/
theorem numbered_works (h : Inside engine functions cached root pair walk opened middle own use data
      instances roots context calls) (survivors : List Id) (keepPlaces : Bool)
    (hsurvivors : ∀ x ∈ survivors, x ∈ calls.map (·.1)) :
    let arena := Program.placeAll survivors keepPlaces middle.program.arena 0 (calls.map (·.1))
    Program.Works (walk.program.arena.Beneath [pair.slot]) walk.program
        { middle.program with arena } ∧ Extends walk.program.arena arena := by
  obtain ⟨hinside, hnew, hext, -⟩ := h.fit.inside_works h.located h.inner
  have hworks := h.inner.works
  have hwithin := h.inner.within
  simp only [List.map_cons, List.map_nil] at hworks hwithin
  have hedit := Program.placeAll_editedIn (calls.map (·.1)) keepPlaces 0 hworks.arena.closed
    fun x hx => by
      obtain ⟨call, hcall, rfl⟩ := List.mem_map.mp (hsurvivors x hx)
      exact hwithin call hcall
  have hplaces := (Program.Works.edit hworks.arena.closed hedit
    (Program.placeAll_keepsForests _ _ _ _ _)).widen
      (fun x hx => Or.inr ⟨hnew x hx, (hworks.arena.closed x hx).1⟩) hinside.arena.closed
  refine ⟨hinside.trans hplaces, hext.1.trans hedit.size_le, fun x hx => ?_⟩
  exact (hedit.same x (hx.trans_le hext.1) fun hin => Nat.not_lt_of_le (hnew x hin) hx).trans
    (hext.2 x hx)

/-- A component that is left is carried by its expression, and its entry stands. -/
theorem departs (h : Inside engine functions cached root pair walk opened middle own use data
      instances roots context calls) (hregular : Regular engine functions cached root)
    {styles : Styles}
    (hbuilder : opened.builder = walk.builder.enter (engine.components use).name styles)
    {frames : List Frame} {inst : Instance}
    (hdeparts : Departs ⟨pair.slot, (walk.located pair.slot own).1, inst, own, walk.active⟩
      { middle with frames } after) :
    ∃ child, Carries engine functions cached [pair] walk [(pair.slot, child)] after ∧
      pair.StandsFor engine functions cached (walk.active.map (·.dynamic)) use data child := by
  obtain ⟨hinside, -, hext, hfunction, hstatic⟩ := h.fit.inside_works h.located h.inner
  have hremembers := h.inner.remembers
  have hentry := walk.builder.close_entered (engine.components use).name styles calls pair.slot
  rw [← hbuilder, ← h.inner.builder] at hentry
  cases hdeparts with
  | @literal text function stays _ htext hliteral hsound =>
      obtain ⟨-, child, hclose, hname, hchild, -⟩ := hentry function true stays
      have hhtml : ∀ html, Amounts engine functions cached .dynamic
          (walk.active.map (·.dynamic)) pair.context.dynamic [pair.view.dynamic] html →
          html = text := fun html hhtml => (h.knows hhtml).1 text htext
      refine ⟨child, h.carries hregular rfl hremembers hsound hclose (hinside.trans
        (Program.foldToLiteral_works hinside.arena.closed (Or.inl (Script.Arena.mem_beneath
          List.mem_cons_self)) text)) (.inl fun html hamounts => ?_), fun html hamounts => ?_⟩
      · rw [hhtml html hamounts]
        exact Findings.literal?_markStatic_self
      · rw [hhtml html hamounts]
        exact .of_literal hregular.accepts hname h.rendered (hchild ▸ hliteral)
  | @own _ arena hnone harena hsound =>
      obtain ⟨hslots, child, hclose, hname, hchild, -⟩ := hentry own false fun _ => true
      have hstands := h.stands_own hregular hname hchild
      obtain ⟨hworks, hstays⟩ : Program.Works (walk.program.arena.Beneath [pair.slot]) walk.program
          { middle.program with arena } ∧ Extends walk.program.arena arena := by
        rcases harena with rfl | ⟨function, -, rfl⟩
        · exact ⟨hinside, hext⟩
        · rw [numbered, hslots]
          exact h.numbered_works _ _ fun x hx => List.mem_of_mem_filter hx
      exact ⟨child, h.carries hregular rfl hremembers hsound hclose hworks
        (.inr ⟨Findings.literal?_eq_none hstatic, hstays, hstands⟩), hstands⟩
  | @rewritten function rewritten _ hnone hfunction' hmatched hread hsound =>
      obtain rfl : walk.copied own = function := Option.some.inj (hfunction.symm.trans hfunction')
      obtain ⟨hslots, child, hclose, hname, hchild, hchildren⟩ := hentry rewritten false
        (Program.counts (Program.survivors middle.program.arena (walk.copied own)
          middle.builder.childSlots) !middle.options.hoistStyles)
      rw [numbered, hslots, ← hchild] at hread
      rw [hslots] at hchildren
      have hstands := h.stands_rewritten hregular hnone hmatched hread hname hchildren
      obtain ⟨hworks, hstays⟩ := h.numbered_works (Program.survivors middle.program.arena
        (walk.copied own) (calls.map (·.1))) (!middle.options.hoistStyles) fun _ =>
          List.mem_of_mem_filter
      refine ⟨child, h.carries hregular rfl hremembers hsound hclose ?_
        (.inr ⟨Findings.literal?_eq_none hstatic, ?_, hstands⟩), hstands⟩
      · rw [numbered, hslots]
        exact hworks
      · rw [numbered, hslots]
        exact hstays

end Walk.Inside

end Inside

end RenderFold
