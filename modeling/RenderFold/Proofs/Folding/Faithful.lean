import RenderFold.Proofs.Component.Aging
import RenderFold.Proofs.Folding.CarriedLevels
import RenderFold.Proofs.Folding.Worked

/-!
# Pairs That Keep Their Markup

What becomes of pairs that are treated one after another. If the expression of
a pair is static in the end, its text is the markup of the dynamic node. If it
is not, and it gave the dynamic node, then it keeps the markup of that node. The
calls that are numbered later are those of the components among the pairs, and
they stand where the work was done.

What is treated first keeps its markup while the others are treated, since
none of these have anything of it below them.

## Main definitions

* `RenderFunction.Tractable`: A render function that can be rewritten.
* `Regular`: A tree that is folded without changing its markup.
* `Program.Carries`, `Pair.Carried`: An expression that keeps the markup of a node.
* `Walk.Fit`: Pairs that can be treated.
* `Walk.Carries`: What treating pairs leaves behind.

## Theorems

* `Walk.Carries.cons`: One pair after another.
-/

namespace RenderFold

open Script (Arena Id Tree)
open Script.Arena (Beneath Closed Forest Outside added)

/-- What the render function of an instance is run in. -/
def Instance.setting (engine : Engine) (inst : Instance) : Setting :=
  ⟨inst.component.name, inst.scope, inst.component.components, engine.globals⟩

/-- A render function that can be printed once it has been rewritten. None of its
    variables has the name of a helper that constructs a node, and the data of
    its calls is written out. -/
structure RenderFunction.Tractable (function : RenderFunction) : Prop where
  plain : function.tree.Plain
  data : function.tree.All Script.Node.WritesData
  names : ∀ name params body, function.tree = .mk (.function name params body) →
    ∀ helper : Helper, helper.constructsNode = true → ∀ binding init,
      Tree.mk (.declare binding helper.name init) ∉ body

section Definitions

variable (engine : Engine) (functions : Component → Option RenderFunction)
  (cached : FactoryId → Option Resolution)

/-- A tree without async components that is folded without changing its markup. No
    node in it names a place, raw texts in it have nothing to escape in them, and
    its components are rendered by functions that can be rewritten, with two
    levels of depth to spare. -/
structure Regular (root : View) : Prop where
  accepts : ∀ function, engine.refuses function = none
  named : ∀ id id', (engine.components id).name = (engine.components id').name →
    engine.components id = engine.components id'
  undeferred : ∀ owner factory data,
    ¬ Below engine functions cached root owner (.deferred factory data)
  unplaced : ∀ owner use data, Below engine functions cached root owner (.component use data) →
    data.treeSlot = none
  escaped : ∀ owner content, Below engine functions cached root owner (.text content true) →
    Markup.escape content = content
  tractable : ∀ owner use data inst view own,
    Below engine functions cached root owner (.component use data) →
    engine.rendering? functions .dynamic owner (engine.components use) data = some (inst, view) →
    functions (engine.components use) = some own →
    own.Tractable ∧
      Evaluator.runTo (inst.setting engine) (Evaluator.maxDepth - 2) own.tree = .ok view

/-- If an expression is static, its text is the markup of a node, and otherwise
    it keeps that markup if it gave the node before. -/
def Program.Carries (owner : Option Instance) (context : TagContext) (arena : Arena)
    (program : Program) (calls : List (Id × FoldedTree)) (slot : Id) (view : View) : Prop :=
  program.findings.Knows engine functions cached .dynamic owner context
    (fun slot html => ∀ scene depth raw, Scene.Locates scene depth raw (arena.tree slot) view →
      Keeps engine functions owner context scene depth raw program.arena calls slot html)
    slot view

/-- The expression of a pair carries its dynamic node. -/
def Pair.Carried (owner : Option Instance) (arena : Arena) (program : Program)
    (calls : List (Id × FoldedTree)) (pair : Pair) : Prop :=
  program.Carries engine functions cached owner pair.context.dynamic arena calls pair.slot
    pair.view.dynamic

namespace Walk

/-- Pairs that can be treated. Nothing is known yet of what is below their
    expressions, and their dynamic nodes are those of a tree. -/
structure Fit (root : View) (pairs : List Pair) (walk : Walk) : Prop where
  planted : walk.program.Planted
  forest : Forest Set.univ walk.program.arena (pairs.map (·.slot))
  fresh : ∀ x ∈ walk.program.arena.Beneath (pairs.map (·.slot)),
    walk.program.findings.get? x = none
  below : ∀ pair ∈ pairs,
    Below engine functions cached root (walk.active.map (·.dynamic)) pair.view.dynamic
  remembers : engine.function? walk.engine = functions
  sound : walk.synthesizer.Sound

/-- What treating pairs leaves behind, with the entries that were made for them
    and the calls that these belong to. -/
structure Carries (pairs : List Pair) (walk : Walk) (calls : List (Id × FoldedTree))
    (last : Walk) : Prop where
  active : last.active = walk.active
  remembers : engine.function? last.engine = functions
  sound : last.synthesizer.Sound
  builder : last.builder =
    calls.foldl (fun builder call => builder.attach call.1 call.2) walk.builder
  works : Program.Works (walk.program.arena.Beneath (pairs.map (·.slot))) walk.program last.program
  within : ∀ call ∈ calls, call.1 ∈ walk.program.arena.Beneath (pairs.map (·.slot)) ∪
    added walk.program.arena last.program.arena
  forest : Forest Set.univ last.program.arena (calls.map (·.1))
  carried : ∀ pair ∈ pairs, pair.Carried engine functions cached (walk.active.map (·.dynamic))
    walk.program.arena last.program calls

end Walk

end Definitions

namespace Walk

variable {engine : Engine} {functions : Component → Option RenderFunction}
  {cached : FactoryId → Option Resolution} {root : View} {pairs : List Pair} {pair : Pair}
  {walk middle last : Walk} {calls calls' : List (Id × FoldedTree)}

theorem Fit.nil (h : Fit engine functions cached root [] walk) :
    Carries engine functions cached [] walk [] walk where
  active := rfl
  remembers := h.remembers
  sound := h.sound
  builder := rfl
  works := .refl h.forest.beneath_closed
  within _ hcall := absurd hcall List.not_mem_nil
  forest := .nil _ _
  carried _ hpair := absurd hpair List.not_mem_nil

/-- The expressions of the pairs that are left stand apart from the work that was
    done for the first. -/
theorem Fit.outside (h : Fit engine functions cached root (pair :: pairs) walk) {x : Id}
    (hx : x ∈ pairs.map (·.slot)) :
    walk.program.arena.Outside (walk.program.arena.Beneath [pair.slot]) x := by
  have hforest : Forest Set.univ walk.program.arena ([pair.slot] ++ pairs.map (·.slot)) := h.forest
  exact .of_forest (hforest.perm List.perm_append_comm) hx

/-- The pairs that are left can be treated when the first one has been. -/
theorem Fit.tail (h : Fit engine functions cached root (pair :: pairs) walk)
    (hfirst : Carries engine functions cached [pair] walk calls middle) :
    Fit engine functions cached root pairs middle := by
  have hlater : Forest Set.univ middle.program.arena (pair.slot :: pairs.map (·.slot)) :=
    hfirst.works.forests.forest h.forest
  refine ⟨hfirst.works.planted h.planted, hlater.subperm (List.sublist_cons_self ..).subperm,
    ?_, ?_, hfirst.remembers, hfirst.sound⟩
  · rintro x ⟨slot, hslot, path, hpath⟩
    have hout := h.outside hslot
    have hback := hpath.back fun path x hway =>
      congrArg Script.Node.children (hout.get hfirst.works.arena path x hway)
    obtain ⟨hlt, hnot⟩ := hout path x hback
    rw [hfirst.works.findings x hlt hnot]
    exact h.fresh x ⟨slot, List.mem_cons_of_mem _ hslot, path, hback⟩
  · rw [hfirst.active]
    exact (List.forall_mem_cons.mp h.below).2

/-- What is below the expressions that are left is what it was before the first
    pair was treated. -/
theorem Fit.beneath_tail (h : Fit engine functions cached root (pair :: pairs) walk)
    (hfirst : Carries engine functions cached [pair] walk calls middle) :
    middle.program.arena.Beneath (pairs.map (·.slot)) ⊆
      walk.program.arena.Beneath (pairs.map (·.slot)) := fun _ ⟨slot, hslot, path, hpath⟩ =>
  ⟨slot, hslot, path, hpath.back fun path x hway =>
    congrArg Script.Node.children ((h.outside hslot).get hfirst.works.arena path x hway)⟩

/-- Nothing that was worked on first is worked on again. -/
theorem Fit.apart (h : Fit engine functions cached root (pair :: pairs) walk)
    (hfirst : Carries engine functions cached [pair] walk calls middle) :
    ∀ x ∈ walk.program.arena.Beneath [pair.slot] ∪ added walk.program.arena middle.program.arena,
      x ∉ middle.program.arena.Beneath (pairs.map (·.slot)) := by
  intro x hx hlater
  obtain ⟨slot, hslot, path, hpath⟩ := h.beneath_tail hfirst hlater
  obtain ⟨hlt, hnot⟩ := h.outside hslot path x hpath
  exact hx.elim hnot fun hnew => Nat.not_lt_of_le hnew.1 hlt

/-- The calls stand where the work was done, for the first pair or for the others. -/
theorem Carries.within_cons (hfit : Fit engine functions cached root (pair :: pairs) walk)
    (hfirst : Carries engine functions cached [pair] walk calls middle)
    (hrest : Carries engine functions cached pairs middle calls' last) :
    ∀ call ∈ calls ++ calls', call.1 ∈
      walk.program.arena.Beneath ((pair :: pairs).map (·.slot)) ∪
        added walk.program.arena last.program.arena := by
  intro call hcall
  rcases List.mem_append.mp hcall with hcall | hcall
  · exact (Script.Arena.EditedIn.mem_later (hfirst.within call hcall)
      hrest.works.arena.size_le).imp_left fun hx => Script.Arena.beneath_mono
        (List.cons_subset_cons _ (List.nil_subset _)) hx
  · exact (Script.Arena.EditedIn.mem_earlier (hrest.within call hcall)
      hfirst.works.arena.size_le).imp_left fun hx => Script.Arena.beneath_mono
        (List.subset_cons_self ..) (hfit.beneath_tail hfirst hx)

/-- The calls of the first pair and those of the others are apart. -/
theorem Carries.forest_cons (hfit : Fit engine functions cached root (pair :: pairs) walk)
    (hfirst : Carries engine functions cached [pair] walk calls middle)
    (hrest : Carries engine functions cached pairs middle calls' last) :
    Forest Set.univ last.program.arena ((calls ++ calls').map (·.1)) := by
  have hlater := hrest.works.forests.forest hfirst.forest
  rw [List.map_append]
  refine Forest.union (hlater.within hlater.beneath_closed fun _ => Script.Arena.mem_beneath)
    (hrest.forest.within hrest.works.arena.closed ?_) ?_
  · rintro _ hx
    obtain ⟨call, hcall, rfl⟩ := List.mem_map.mp hx
    exact hrest.within call hcall
  · rintro x ⟨id, hid, path, hpath⟩
    obtain ⟨call, hcall, rfl⟩ := List.mem_map.mp hid
    exact ((Outside.of_disjoint hfirst.works.arena.closed (hfirst.within call hcall)
      (hfit.apart hfirst)).later hrest.works.arena path x hpath).2

/-- Nothing of the first pair is worked on afterwards. -/
theorem Carries.carried_first (hfit : Fit engine functions cached root (pair :: pairs) walk)
    (hfirst : Carries engine functions cached [pair] walk calls middle)
    (hrest : Carries engine functions cached pairs middle calls' last) :
    pair.Carried engine functions cached (walk.active.map (·.dynamic)) walk.program.arena
      last.program (calls ++ calls') := by
  have hslot : middle.program.arena.Outside
      (middle.program.arena.Beneath (pairs.map (·.slot))) pair.slot :=
    .of_disjoint hfirst.works.arena.closed
      (Or.inl (Script.Arena.mem_beneath (List.mem_singleton_self _))) (hfit.apart hfirst)
  intro html hhtml
  obtain ⟨hstatic, hkeeps⟩ := hfirst.carried pair List.mem_cons_self html hhtml
  obtain ⟨hlt, hout⟩ := hslot [] pair.slot .here
  rw [Findings.literal?_congr (hrest.works.findings pair.slot hlt hout)]
  refine ⟨hstatic, fun hnone scene depth raw hlocated => ?_⟩
  refine (hkeeps hnone scene depth raw hlocated).later hrest.works.arena.size_le
    (hslot.get hrest.works.arena) fun call hcall path hpath => ?_
  rcases List.mem_append.mp hcall with hcall | hcall
  · exact hcall
  · obtain ⟨hlt, hout⟩ := hslot path call.1 hpath
    exact absurd (hrest.within call hcall) fun hin => hin.elim hout fun hnew =>
      Nat.not_lt_of_le hnew.1 hlt

/-- The other pairs have nothing of what was done for the first below them. -/
theorem Carries.carried_rest (hfit : Fit engine functions cached root (pair :: pairs) walk)
    (hfirst : Carries engine functions cached [pair] walk calls middle)
    (hrest : Carries engine functions cached pairs middle calls' last) {other : Pair}
    (hother : other ∈ pairs) :
    other.Carried engine functions cached (walk.active.map (·.dynamic)) walk.program.arena
      last.program (calls ++ calls') := by
  have hout := hfit.outside (List.mem_map_of_mem hother)
  obtain ⟨-, htree⟩ := Script.Arena.Grounded.same (hfit.forest.isTree (List.mem_cons_of_mem _
    (List.mem_map_of_mem hother))).grounded hfirst.works.arena.size_le
    (hout.get hfirst.works.arena)
  intro html hhtml
  rw [← hfirst.active] at hhtml
  obtain ⟨hstatic, hkeeps⟩ := hrest.carried other hother html hhtml
  refine ⟨hstatic, fun hnone scene depth raw hlocated => ?_⟩
  rw [← htree] at hlocated
  rw [← hfirst.active]
  refine (hkeeps hnone scene depth raw hlocated).later (Nat.le_refl _) (fun _ _ _ => rfl)
    fun call hcall path hpath => ?_
  rcases List.mem_append.mp hcall with hcall | hcall
  · have hin := hrest.works.arena.closed.path_mem
      (Or.inl (Script.Arena.mem_beneath (List.mem_map_of_mem hother))) hpath
    exact absurd hin fun hin => hin.elim (hfit.apart hfirst _ (hfirst.within call hcall))
      fun hnew => Nat.not_lt_of_le hnew.1 (hfirst.forest.mem (List.mem_map_of_mem hcall)).2
  · exact hcall

/-- One pair after another. -/
theorem Carries.cons (hfit : Fit engine functions cached root (pair :: pairs) walk)
    (hfirst : Carries engine functions cached [pair] walk calls middle)
    (hrest : Carries engine functions cached pairs middle calls' last) :
    Carries engine functions cached (pair :: pairs) walk (calls ++ calls') last := by
  have hwhole := hfirst.works.widen (Script.Arena.beneath_mono
    (List.cons_subset_cons _ (List.nil_subset _))) hfit.forest.beneath_closed
  have hlater := hrest.works.widen (fun x hx => Or.inl (Script.Arena.beneath_mono
    (List.subset_cons_self ..) (hfit.beneath_tail hfirst hx))) hwhole.arena.closed
  exact
    { active := hrest.active.trans hfirst.active
      remembers := hrest.remembers
      sound := hrest.sound
      builder := by rw [hrest.builder, hfirst.builder, List.foldl_append]
      works := hwhole.trans hlater
      within := hfirst.within_cons hfit hrest
      forest := hfirst.forest_cons hfit hrest
      carried := List.forall_mem_cons.mpr
        ⟨hfirst.carried_first hfit hrest, fun _ => hfirst.carried_rest hfit hrest⟩ }

end Walk

end RenderFold
