import RenderFold.Proofs.Folding.CarriedComponents
import RenderFold.Proofs.Folding.Treated

/-!
# Treated Pairs Keep Their Markup

Whatever a pair comes to when it is met, it is carried once it has been treated:
a pair below which nothing is compared keeps its markup, the level of a node is
folded after its children were carried, and a component is left after its root
was.

## Theorems

* `Walk.Fit.leaf`, `Walk.Fit.node`: A single pair.
* `Walk.Treats.carries`: Pairs that are treated one after another.
-/

namespace RenderFold

open Script (Arena Id)

namespace Walk

variable {engine : Engine} {functions : Component → Option RenderFunction}
  {cached : FactoryId → Option Resolution} {root : View} {pair : Pair} {pairs : List Pair}
  {walk opened middle after last : Walk} {frames : List Frame} {frame : Frame}
  {calls : List (Id × FoldedTree)}

/-- The first pair can be treated on its own. -/
theorem Fit.head (h : Fit engine functions cached root (pair :: pairs) walk) :
    Fit engine functions cached root [pair] walk where
  planted := h.planted
  forest := h.forest.subperm (List.Sublist.subperm (.cons_cons _ (List.nil_sublist _)))
  fresh x hx := h.fresh x (Script.Arena.beneath_mono
    (List.cons_subset_cons _ (List.nil_subset _)) hx)
  below := List.forall_mem_singleton.mpr (h.below pair List.mem_cons_self)
  remembers := h.remembers
  sound := h.sound

/-- A pair of regular trees comes to one of three things when it is met. -/
theorem Fit.encounters (h : Fit engine functions cached root [pair] walk)
    (hregular : Regular engine functions cached root) (htrimmed : pair.view.Trimmed) {depth : Nat}
    (hmeet : meet engine depth pair { walk with frames } = .ok () after) :
    Encounters engine { walk with frames } pair after := by
  refine meet_encounters (fun ⟨_, _, factory, data, hview⟩ => ?_) htrimmed hmeet
  have hbelow := h.below pair List.mem_cons_self
  rw [hview] at hbelow
  exact hregular.undeferred _ factory data hbelow

/-- A pair below which nothing is compared. -/
theorem Fit.leaf (h : Fit engine functions cached root [pair] walk)
    (hregular : Regular engine functions cached root)
    (hmeets : Encounters engine { walk with frames } pair after) (hframes : after.frames = frames) :
    Carries engine functions cached [pair] walk [] after := by
  cases hmeets with
  | rests hprogram => exact h.rests hregular hprogram frames
  | descends => exact absurd hframes (List.cons_ne_self _ _)
  | enters => exact absurd hframes (List.cons_ne_self _ _)

/-- A pair that was treated is carried, if what was opened for it is. Of the root of
    a tree it is known besides that an entry was made that stands. -/
theorem Fit.node (h : Fit engine functions cached root [pair] walk)
    (hregular : Regular engine functions cached root)
    (hmeets : Encounters engine { walk with frames } pair opened)
    (hopened : opened.frames = frame :: frames)
    (hinner : Fit engine functions cached root frame.pairs.left opened →
      ∃ calls, Carries engine functions cached frame.pairs.left opened calls middle)
    (hwork : finish engine frame { middle with frames } = .ok () after) :
    ∃ calls, Carries engine functions cached [pair] walk calls after ∧
      ∀ use data, pair.view.dynamic = .component use data → ∃ child,
        calls = [(pair.slot, child)] ∧
        pair.StandsFor engine functions cached (walk.active.map (·.dynamic)) use data child := by
  cases hmeets with
  | rests => exact absurd hopened.symm (List.cons_ne_self _ _)
  | @descends closing program hcloses hlength hprogram =>
      obtain ⟨rfl, -⟩ := List.cons.inj hopened
      obtain ⟨calls, hcarries⟩ := hinner (h.descends hprogram hcloses hlength _)
      cases hwork
      obtain ⟨hslots, -⟩ := zipPairs_spec (.within walk.active) ((Twin.length_zipWith hlength).trans
        (program.length_correlate pair.slot pair.view.static.children.length).symm)
      refine ⟨calls, ?_, fun use data hview => ?_⟩
      · rw [Pairs.ofList, hslots]
        exact (Carries.level hregular h hprogram hcloses hlength hcarries :)
      · rw [hview] at hcloses
        exact hcloses.elim
  | @enters id id' data data' own instances roots context state program hview hname hown hstate
      hcomponent hrender hprogram =>
      obtain ⟨rfl, -⟩ := List.cons.inj hopened
      subst hprogram
      have huses : pair.view.dynamic = .component id' data' := congrArg Twin.dynamic hview
      have hsame := hregular.named id id' hname
      have hremembers := h.remembers
      rw [hremembers] at hown hrender
      obtain ⟨calls, hcarries⟩ := hinner (h.entered huses hrender (hstate.trans hremembers) _ _)
      have hinside : Inside engine functions cached root pair walk _ middle own id' data' instances
          roots ⟨context, pair.context.dynamic.nest data' (engine.components id').scopeId⟩ calls :=
        ⟨h, huses, hsame ▸ hown, hrender, rfl, rfl, rfl, hcarries⟩
      have hleaves : Leads (leaveComponent engine
            ⟨pair.slot, (walk.located pair.slot own).1, instances.static, own, walk.active⟩)
          { middle with frames } (fun _ last => Departs _ { middle with frames } last)
          fun _ => True := leaveComponent_departs hcarries.sound
      have hdeparts := leads_ok hleaves hwork
      obtain ⟨child, hchild, hstands⟩ := hinside.departs hregular
        (by rw [← hsame, ← hcomponent]) hdeparts
      refine ⟨_, hchild, fun use data hview' => ?_⟩
      obtain ⟨rfl, rfl⟩ : id' = use ∧ data' = data := by
        cases huses.symm.trans hview'
        exact ⟨rfl, rfl⟩
      exact ⟨child, rfl, hstands⟩

/-- Pairs that are treated are carried. -/
theorem Treats.carries (hregular : Regular engine functions cached root)
    (h : Treats engine Twin.Trimmed pairs walk last) :
    Fit engine functions cached root pairs walk →
      ∃ calls, Carries engine functions cached pairs walk calls last := by
  -- By induction on the treatment: the children of a pair are carried before the
  -- pair is, and one pair after another.
  induction h with
  | nil => exact fun hfit => ⟨[], hfit.nil⟩
  | leaf hseen hmeet hframes hrest ih =>
      intro hfit
      have hfirst := hfit.head.leaf hregular (hfit.head.encounters hregular hseen hmeet) hframes
      obtain ⟨calls, hcarries⟩ := ih (hfit.tail hfirst)
      exact ⟨_, hfirst.cons hfit hcarries⟩
  | node hseen hmeet hopened hinner hwork hrest ihinner ih =>
      intro hfit
      obtain ⟨before, hfirst, -⟩ := hfit.head.node hregular
        (hfit.head.encounters hregular hseen hmeet) hopened ihinner hwork
      obtain ⟨calls, hcarries⟩ := ih (hfit.tail hfirst)
      exact ⟨_, hfirst.cons hfit hcarries⟩

end Walk

end RenderFold
