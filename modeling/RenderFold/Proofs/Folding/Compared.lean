import RenderFold.Proofs.Folding.Standing
import RenderFold.Proofs.Script.Parts
import RenderFold.Proofs.Script.ReadTrees

/-!
# Comparing Pairs

What comparing a pair leads to. A walk that is busy with a pair that owes
what it folds into becomes idle, or it waits, busy with what it waits for.

## Main definitions

* `Walk.Waits`: A walk that waits, and what it is busy with.

## Theorems

* `Program.correlate_spec`: The expressions of children.
* `Walk.compare_leads`: Comparing a pair.
-/

namespace RenderFold

open Script (Arena Id)
open Script.Arena (Closed Spans Extends Grown added)

namespace Program

variable {program : Program} {zone : Set Id}

/-- Trees of new expressions are added to a program, and nothing is found out
    about them. -/
structure Adds (program : Program) (ids : List Id) (after : Program) : Prop where
  keeps : Extends program.arena after.arena
  grown : Grown program.arena.size after.arena ids
  edited : ∀ zone, Closed program.arena zone → Arena.EditedIn zone program.arena after.arena
  findings : after.findings = program.findings

theorem pushHole_adds (program : Program) :
    program.Adds [program.pushHole.1] program.pushHole.2 where
  keeps := .push program.arena .hole
  grown := .push (.nil _ _) (Nat.le_refl _)
  edited _ hclosed := Script.Arena.pushLeaf_editedIn hclosed rfl
  findings := rfl

theorem pushHoles_adds (count : Nat) (program : Program) :
    program.Adds (pushHoles count program).1 (pushHoles count program).2 ∧
      (pushHoles count program).1.length = count := by
  induction count generalizing program with
  | zero => exact ⟨⟨.refl _, .nil _ _, fun zone hclosed => .refl hclosed, rfl⟩, rfl⟩
  | succ count ih =>
      have hfirst := program.pushHole_adds
      obtain ⟨hrest, hlength⟩ := ih program.pushHole.2
      refine ⟨⟨hfirst.keeps.trans hrest.keeps, ?_, fun zone hclosed => ?_, ?_⟩, ?_⟩
      · exact hfirst.grown.append hrest.keeps hfirst.keeps.1 hrest.grown
      · exact (hfirst.edited zone hclosed).trans
          (hrest.edited _ (hfirst.edited zone hclosed).closed)
      · exact hrest.findings.trans hfirst.findings
      · exact congrArg Nat.succ hlength

/-- Expressions have been found or added that are roots of trees in a zone, of
    which nothing has been used. No markup has been found. -/
structure Locates (program : Program) (used zone : Set Id) (ids : List Id) (after : Program) :
    Prop where
  edited : program.EditedIn zone after
  same : program.findings.SameTexts after.findings
  functions : ∀ id, after.findings.function? id = program.findings.function? id
  room : ∃ span, Spans after.arena ids span ∧ span.Nodup ∧
    ∀ x ∈ span, x ∈ zone ∪ added program.arena after.arena ∧ x ∉ used

theorem Adds.locates {ids : List Id} {after : Program} {used : Set Id}
    (h : program.Adds ids after) (hclosed : Closed program.arena zone)
    (hused : ∀ x ∈ used, x < program.arena.size) : program.Locates used zone ids after where
  edited := ⟨h.edited zone hclosed, fun id _ _ => by rw [h.findings]⟩
  same := by
    rw [h.findings]
    exact .refl _
  functions _ := by rw [h.findings]
  room := by
    obtain ⟨span, hspan, hnodup, hle⟩ := h.grown
    refine ⟨span, hspan, hnodup, fun x hx =>
      ⟨Or.inr ⟨hle x hx, hspan.lt_size x hx⟩, fun hin => ?_⟩⟩
    exact absurd (hused x hin) (Nat.not_lt_of_le (hle x hx))

/-- Finding that something could not be matched comes before adding. -/
theorem Locates.markUnmatched {ids : List Id} {after : Program} {used : Set Id} {slot : Id}
    (hslot : slot ∈ zone) (h : (program.markUnmatched slot).Locates used zone ids after) :
    program.Locates used zone ids after where
  edited := by
    refine ⟨h.edited.arena, fun id hid hout => ?_⟩
    rw [h.edited.findings id hid hout]
    exact Findings.get?_update_of_ne _ _ fun heq => hout (heq ▸ hslot)
  same := Findings.sameTexts_markUnmatched.trans h.same
  functions id := (h.functions id).trans Findings.function?_markUnmatched
  room := h.room

/-- The expression that a function returns is below it, or new. -/
theorem locateRoot_spec {used : Set Id} {function : Id} (hclosed : Closed program.arena zone)
    (hused : ∀ x ∈ used, x < program.arena.size)
    (hroom : ∃ span, Spans program.arena [function] span ∧ span.Nodup ∧
      ∀ x ∈ span, x ∈ zone ∧ x ∉ used) :
    program.Locates used zone [(program.locateRoot function).1]
      (program.locateRoot function).2 := by
  obtain ⟨span, hspan, hnodup, hout⟩ := hroom
  unfold locateRoot
  split
  -- The function returns one expression, and what is below that is part of the
  -- span of the function.
  · next slot hfound =>
      obtain ⟨inner, hinner, hsub⟩ := Script.Arena.singleReturn?_spans hspan hfound
      refine ⟨⟨.refl hclosed, fun _ _ _ => rfl⟩, .refl _, fun _ => rfl, inner, hinner,
        hnodup.sublist hsub, fun x hx => ?_⟩
      exact ⟨Or.inl (hout x (hsub.subset hx)).1, (hout x (hsub.subset hx)).2⟩
  -- Otherwise a hole stands for the root, which nobody can have used.
  · have hadds := (program.markUnmatched function).pushHole_adds
    exact (hadds.locates hclosed hused).markUnmatched
      (hout _ (hspan.subset List.mem_cons_self)).1

theorem length_correlate (slot : Id) (count : Nat) :
    (program.correlate slot count).1.length = count := by
  unfold correlate
  dsimp only
  split
  · next elements hfound =>
      obtain ⟨-, hfits⟩ := Option.filter_eq_some_iff.mp hfound
      exact beq_iff_eq.mp (Bool.and_eq_true_iff.mp hfits).1
  · exact (pushHoles_adds count _).2

/-- The expressions of the children of a node are below it, or new. -/
theorem correlate_spec {events : List Event} {slot : Id} (hclosed : Closed program.arena zone)
    (hslot : slot ∈ zone) (hroom : Walk.Room events program.arena zone slot)
    (hused : ∀ x ∈ Event.slots events, x < program.arena.size) (count : Nat) :
    program.Locates {x | x ∈ Event.slots events} zone (program.correlate slot count).1
      (program.correlate slot count).2 := by
  unfold correlate
  dsimp only
  split
  -- The elements of the child array stand for the children. They are below the
  -- expression and apart from it, so what room there was for it is room for them.
  · next elements hfound =>
      obtain ⟨hbind, -⟩ := Option.filter_eq_some_iff.mp hfound
      obtain ⟨array, harray, helements⟩ := Option.bind_eq_some_iff.mp hbind
      refine ⟨⟨.refl hclosed, fun _ _ _ => rfl⟩, .refl _, fun _ => rfl, ?_⟩
      obtain ⟨span, hspan, hnodup, hout⟩ := hroom
      obtain ⟨inner, hinner, hsub⟩ := Script.Arena.elements_spans hspan
        (Script.Arena.arguments_subset _ _ (Script.Arena.childArray?_mem_arguments harray))
        helements
      obtain ⟨below, -, -, rfl⟩ := Spans.single_iff.mp hspan
      obtain ⟨hnot, hnodup'⟩ := List.nodup_cons.mp hnodup
      refine ⟨inner, hinner, hnodup'.sublist hsub, fun x hx => ?_⟩
      have hx' : x ∈ below := hsub.subset hx
      obtain ⟨hzone, heq | hnew⟩ := hout x (List.mem_cons_of_mem _ hx')
      · exact absurd (heq ▸ hx') hnot
      · exact ⟨Or.inl hzone, hnew⟩
  -- There is no such array, or it does not fit: holes stand for the children.
  · have hadds := (pushHoles_adds count (program.markUnmatched slot)).1
    exact (hadds.locates hclosed hused).markUnmatched hslot

end Program

/-- Pairs of nodes in one context, at given expressions. -/
theorem zipPairs_spec {views : List (Twin View)} {slots : List Id} (context : Twin TagContext)
    (hlength : views.length = slots.length) :
    (views.zipWith (Pair.mk · · context) slots).map (·.slot) = slots ∧
      (views.zipWith (Pair.mk · · context) slots).map (·.view) = views ∧
      ∀ pair ∈ views.zipWith (Pair.mk · · context) slots, pair.context = context := by
  -- Views and expressions are as many, so none of them is cut off.
  induction views generalizing slots with
  | nil =>
      rw [List.eq_nil_of_length_eq_zero hlength.symm]
      exact ⟨rfl, rfl, fun pair hpair => absurd hpair List.not_mem_nil⟩
  | cons view views ih =>
      cases slots with
      | nil => cases hlength
      | cons slot slots =>
          obtain ⟨hslots, hviews, hcontexts⟩ := ih (Nat.succ.inj hlength)
          simp only [List.zipWith_cons_cons, List.map_cons]
          refine ⟨by rw [hslots], by rw [hviews], fun pair hpair => ?_⟩
          rcases List.mem_cons.mp hpair with rfl | hpair
          · rfl
          · exact hcontexts pair hpair

theorem Twin.length_zipWith {α : Type} {as bs : List α} (h : as.length = bs.length) :
    (as.zipWith Twin.mk bs).length = as.length := by
  rw [List.length_zipWith, h, Nat.min_self]

namespace Walk

variable {engine : Engine} {functions : Component → Option RenderFunction} {comments : Bool}
  {events : List Event} {walk : Walk} {zone : Set Id} {slot : Id} {known : Option String}
  {goal : List Settled → String → Prop} {pair : Pair}

theorem elementContext_eq (walk : Walk) : walk.elementContext = .within walk.active := by
  unfold elementContext Twin.within
  cases walk.active <;> rfl

/-- The children of a node are compared next, and take over its goal. -/
theorem descend_leads {closing : String} {children : Twin (List View)}
    (h : Busy engine functions comments events walk zone slot known goal)
    (hroom : Room events walk.program.arena zone slot)
    (hlength : children.static.length = children.dynamic.length)
    (hgoal : ∀ opening, known = some opening → ∀ answers content,
      Folds engine functions comments walk.active (.within walk.active)
        (children.static.zipWith Twin.mk children.dynamic) answers content →
      goal answers (opening ++ content ++ closing)) :
    Leads (descend slot closing children) walk
      (fun _ after => Idle engine functions comments events after)
      (Idle engine functions comments events) := by
  unfold descend
  rw [leads_bind, leads_fromProgram, leads_bind, leads_get]
  have hlocates := Program.correlate_spec h.closed h.slot_mem hroom h.used_lt
    children.static.length
  have hcount := walk.program.length_correlate slot children.static.length
  obtain ⟨hslots, hviews, hcontexts⟩ := zipPairs_spec (.within walk.active)
    ((Twin.length_zipWith hlength).trans hcount.symm)
  dsimp only
  rw [leads_pushFrame, elementContext_eq]
  -- The frame takes the goal over: what its pairs fold into, between what opens
  -- the node and what closes it.
  refine (h.edit hlocates.edited hlocates.same).push rfl rfl rfl hcontexts ?_ ?_ ?_ ?_
  · rw [hslots]
    exact hlocates.room
  · intro boundary pairs hframe
    cases hframe
  · intro boundary pairs hframe
    cases hframe
  · intro opening hopening answers content hfolds
    rw [hviews] at hfolds
    have hknown := (hlocates.same.text slot).symm.trans hopening
    exact hgoal opening (h.text.symm.trans hknown) answers content hfolds

/-- A walk that is busy with a pair: the pair owes what it folds into, and
    nothing below its expression has been used. -/
structure Ready (engine : Engine) (functions : Component → Option RenderFunction)
    (comments : Bool) (events : List Event) (walk : Walk) (pair : Pair) (zone : Set Id) : Prop where
  busy : Busy engine functions comments events walk zone pair.slot none
    (Folds engine functions comments walk.active pair.context [pair.view])
  room : Room events walk.program.arena zone pair.slot
  mem : .compared pair walk.active ∈ events

namespace Ready

/-- What the pair folds into is known. -/
theorem markStatic {text : String}
    (h : Ready engine functions comments events walk pair zone)
    (hfolds : Folds engine functions comments walk.active pair.context [pair.view] [] text) :
    Idle engine functions comments events
      { walk with program := walk.program.markStatic pair.slot text } :=
  h.busy.mark hfolds (.refl h.busy.closed)

/-- The text that opens the pair is known, and its children are compared. -/
theorem descend {closing opening : String} {children : Twin (List View)}
    (h : Ready engine functions comments events walk pair zone)
    (hopening : pair.view.static.opening? engine.registry pair.context.static = some opening)
    (hlength : children.static.length = children.dynamic.length)
    (hgoal : ∀ answers content, Folds engine functions comments walk.active (.within walk.active)
        (children.static.zipWith Twin.mk children.dynamic) answers content →
      Folds engine functions comments walk.active pair.context [pair.view] answers
        (opening ++ content ++ closing)) :
    Leads (Walk.descend pair.slot closing children)
      { walk with program := walk.program.setText pair.slot opening }
      (fun _ after => Idle engine functions comments events after)
      (Idle engine functions comments events) := by
  refine descend_leads (h.busy.setText h.mem hopening) h.room hlength ?_
  intro found hfound answers content hfolds
  cases hfound
  exact hgoal answers content hfolds

end Ready

theorem compareFragments_leads (pair : Pair) {opening closing : Twin String}
    {children : Twin (List View)}
    (h : Ready engine functions comments events walk pair zone)
    (hview : pair.view = ⟨.fragment opening.static closing.static children.static,
      .fragment opening.dynamic closing.dynamic children.dynamic⟩) :
    Leads (compareFragments pair.slot opening closing children) walk
      (fun _ after => Idle engine functions comments events after)
      (Idle engine functions comments events) := by
  obtain ⟨opening, opening'⟩ := opening
  obtain ⟨closing, closing'⟩ := closing
  obtain ⟨children, children'⟩ := children
  unfold compareFragments
  dsimp only at hview ⊢
  split
  · next hempty =>
      obtain ⟨hnil, hnil'⟩ := Bool.and_eq_true_iff.mp hempty
      split
      · next htrim =>
          rw [leads_onProgram]
          -- Two fragments without children: what both amount to without blanks around.
          refine h.markStatic ?_
          rw [hview, List.isEmpty_iff.mp hnil, List.isEmpty_iff.mp hnil']
          simpa using Folds.childless htrim .nil
      · exact h.busy.drop
  · next hempty =>
      split
      · next hsame =>
          simp only [Bool.and_eq_true, decide_eq_true_eq] at hsame
          obtain ⟨⟨hlength, rfl⟩, rfl⟩ := hsame
          have hsome : children ≠ [] := by
            rintro rfl
            have hnil := List.eq_nil_of_length_eq_zero hlength.symm
            simp [hnil] at hempty
          -- The markup around the children is the same, so only they are left.
          rw [leads_bind, leads_onProgram]
          refine h.descend (by rw [hview]; rfl) hlength fun answers content hfolds => ?_
          rw [hview]
          simpa using Folds.fragment hsome hlength hfolds .nil
      · exact h.busy.drop

/-- Both passes gave the same markup, or nothing is found out. -/
theorem Ready.recordText {static dynamic : Option String}
    (h : Ready engine functions comments events walk pair zone)
    (hfolds : ∀ text, static = some text → dynamic = some text →
      Folds engine functions comments walk.active pair.context [pair.view] [] text) :
    Idle engine functions comments events
      { walk with program := walk.program.recordText pair.slot static dynamic } := by
  unfold Program.recordText
  split
  · split
    · next hsame =>
        subst hsame
        exact h.markStatic (hfolds _ rfl rfl)
    · exact h.busy.drop
  · exact h.busy.drop

theorem compareElements_leads (pair : Pair) {tag : String} {data : Twin NodeData}
    {children : Twin (List View)}
    (h : Ready engine functions comments events walk pair zone)
    (hview : pair.view = ⟨.element tag data.static children.static,
      .element tag data.dynamic children.dynamic⟩) :
    Leads (compareElements engine pair tag data children) walk
      (fun _ after => Idle engine functions comments events after)
      (Idle engine functions comments events) := by
  obtain ⟨data, data'⟩ := data
  obtain ⟨children, children'⟩ := children
  unfold compareElements
  dsimp only at hview ⊢
  split
  -- A void element is its start tag.
  · next hend =>
      rw [leads_onProgram]
      refine h.recordText fun text hstatic hdynamic => ?_
      rw [hview]
      simpa using Folds.void hend (Option.some.inj hstatic) (Option.some.inj hdynamic) .nil
  · next closing hend =>
      split
      · next hcontent hcontent' =>
          split
          · next hempty =>
              -- Two elements without children: start tag and end tag.
              obtain ⟨hnil, hnil'⟩ := Bool.and_eq_true_iff.mp hempty
              rw [leads_onProgram]
              refine h.recordText fun text hstatic hdynamic => ?_
              rw [hview, List.isEmpty_iff.mp hnil, List.isEmpty_iff.mp hnil']
              have hsame := (Option.some.inj hstatic).trans (Option.some.inj hdynamic).symm
              have hstart := (String.append_left_inj closing).mp hsame
              have hfolds : Folds engine functions comments walk.active (.within walk.active)
                  (List.zipWith Twin.mk [] []) [] "" := .nil
              have hwhole := Folds.element hend rfl hstart.symm hcontent hcontent' rfl hfolds .nil
              rw [← Option.some.inj hstatic]
              simpa using hwhole
          · split
            · next hlength =>
                split
                -- The start tags are the same: the one tag opens what the children fold into.
                · next hstart =>
                    rw [leads_bind, leads_onProgram]
                    refine h.descend (by rw [hview]; rfl) hlength fun answers content hfolds => ?_
                    rw [hview]
                    simpa using Folds.element hend rfl hstart.symm hcontent hcontent' hlength
                      hfolds .nil
                -- The start tags differ. No text is known that opens the element, so there is
                -- no goal for the children to meet.
                · exact descend_leads h.busy h.room hlength fun opening hopening => by
                    cases hopening
            · exact h.busy.drop
      · next content other hcontent hcontent' =>
          split
          -- The content is data of the elements, and the children are not written.
          · next hsame =>
              simp only [Bool.and_eq_true, decide_eq_true_eq] at hsame
              obtain ⟨hstart, rfl⟩ := hsame
              rw [leads_onProgram]
              refine h.markStatic ?_
              rw [hview]
              simpa using Folds.content hend rfl hstart.symm hcontent hcontent' .nil
          · exact h.busy.drop
      · exact h.busy.drop

section Components

variable (engine : Engine) (functions : Component → Option RenderFunction) (comments : Bool)

/-- What a component folds into whose hooks have run: what its roots fold
    into. -/
def EntersInto (pending : Pending) (answers : List Settled) (text : String) : Prop :=
  ∃ roots : Twin View, engine.render pending.instances.static = .ok roots.static ∧
    engine.render pending.instances.dynamic = .ok roots.dynamic ∧
    Folds engine functions comments (some pending.instances) pending.context [roots] answers text

/-- A walk that is busy with a component, whose render function has been
    copied into the program. -/
structure Entering (events : List Event) (walk : Walk) (pending : Pending) (zone : Set Id)
    (goal : List Settled → String → Prop) : Prop where
  busy : Busy engine functions comments events walk zone pending.slot none goal
  function_mem : ∀ function,
    walk.program.findings.function? pending.slot = some function → function ∈ zone
  room : ∃ span, Spans walk.program.arena [pending.function] span ∧ span.Nodup ∧
    ∀ x ∈ span, x ∈ zone ∧ x ∉ Event.slots events

end Components

theorem enterComponent_leads {pending : Pending}
    (h : Entering engine functions comments events walk pending zone
      (EntersInto engine functions comments pending)) :
    Leads (enterComponent engine pending) walk
      (fun _ after => Idle engine functions comments events after)
      (Idle engine functions comments events) := by
  unfold enterComponent
  rw [leads_bind, leads_ofExcept]
  cases hstatic : engine.render pending.instances.static with
  | error e => exact h.busy.drop
  | ok static =>
      dsimp only
      rw [leads_bind, leads_ofExcept]
      cases hdynamic : engine.render pending.instances.dynamic with
      | error e => exact h.busy.drop
      | ok dynamic =>
          dsimp only
          rw [leads_bind, leads_fromProgram, leads_bind, leads_get]
          have hlocates := Program.locateRoot_spec h.busy.closed h.busy.used_lt h.room
          generalize walk.program.locateRoot pending.function = located at hlocates ⊢
          obtain ⟨rootSlot, program⟩ := located
          have hbusy := h.busy.edit hlocates.edited hlocates.same
          -- The root is the only child of the new frame.
          have hcontexts : ∀ pair ∈ [Pair.mk ⟨static, dynamic⟩ rootSlot pending.context],
              pair.context = pending.context := by
            intro pair hpair
            rw [List.mem_singleton.mp hpair]
          refine (hbusy.push rfl rfl rfl hcontexts hlocates.room ?_ ?_ ?_).of_eq rfl rfl rfl rfl rfl
          · intro boundary pairs hframe
            cases hframe
            rfl
          · intro boundary pairs hframe function hfunction
            cases hframe
            rw [hlocates.functions] at hfunction
            exact Or.inl (h.function_mem function hfunction)
          · intro opening hopening answers content hfolds
            cases hopening
            refine ⟨⟨static, dynamic⟩, hstatic, hdynamic, ?_⟩
            simpa [Frame.closing] using hfolds

theorem prefetch_of_not_hasPrefetch {inst : Instance} (h : Engine.hasPrefetch inst = false) :
    (Engine.prefetch inst).value = .ok inst :=
  Engine.prefetch_of_nil (by simpa [Engine.hasPrefetch] using h)

theorem rendering?_eq {pass : Pass} {owner : Option Instance} {component : Component}
    {data : NodeData} {function : RenderFunction} (hfunction : functions component = some function)
    {inst : Instance} {root : View}
    (hprefetch : (Engine.prefetch
      { Instance.create component data owner pass with render := some function }).value = .ok inst)
    (hrender : engine.render inst = .ok root) :
    engine.rendering? functions pass owner component data = some (inst, root) := by
  simp only [Engine.rendering?, hfunction, Option.bind_eq_bind, Option.bind_some, hprefetch,
    Except.toOption, hrender, Option.pure_def]

/-- What a component folds into whose hooks have still to run. -/
def AwaitsInto (engine : Engine) (functions : Component → Option RenderFunction) (comments : Bool)
    (pending : Pending) (answers : List Settled) (text : String) : Prop :=
  ∃ instances : Twin Instance,
    (Engine.prefetch pending.instances.static).value = .ok instances.static ∧
    (Engine.prefetch pending.instances.dynamic).value = .ok instances.dynamic ∧
    EntersInto engine functions comments { pending with instances } answers text

/-- Instances with their functions await what they render once their hooks
    have run. -/
theorem AwaitsInto.rendering {pending : Pending} {component : Twin Component}
    {data : Twin NodeData} {owner : Option (Twin Instance)} {own own' : RenderFunction}
    {answers : List Settled} {text : String}
    (h : AwaitsInto engine functions comments pending answers text)
    (hinstances : pending.instances =
      ⟨{ Instance.create component.static data.static (owner.map (·.static)) .static with
          render := some own },
        { Instance.create component.dynamic data.dynamic (owner.map (·.dynamic)) .dynamic with
          render := some own' }⟩)
    (hown : functions component.static = some own)
    (hown' : functions component.dynamic = some own') :
    ∃ (instances : Twin Instance) (roots : Twin View),
      engine.rendering? functions .static (owner.map (·.static)) component.static data.static =
        some (instances.static, roots.static) ∧
      engine.rendering? functions .dynamic (owner.map (·.dynamic)) component.dynamic
        data.dynamic = some (instances.dynamic, roots.dynamic) ∧
      Folds engine functions comments (some instances) pending.context [roots] answers text := by
  obtain ⟨instances, hstatic, hdynamic, roots, hroot, hroot', hfolds⟩ := h
  rw [hinstances] at hstatic hdynamic
  exact ⟨instances, roots, rendering?_eq hown hstatic hroot, rendering?_eq hown' hdynamic hroot',
    hfolds⟩

/-- A component without hooks awaits nothing. -/
theorem EntersInto.awaits {pending : Pending} {answers : List Settled} {text : String}
    (h : EntersInto engine functions comments pending answers text)
    (hstatic : Engine.hasPrefetch pending.instances.static = false)
    (hdynamic : Engine.hasPrefetch pending.instances.dynamic = false) :
    AwaitsInto engine functions comments pending answers text :=
  ⟨pending.instances, prefetch_of_not_hasPrefetch hstatic, prefetch_of_not_hasPrefetch hdynamic, h⟩

/-- The function of a component is copied into the program. -/
theorem entering_of_graft {pending : Pending} {own : RenderFunction}
    (h : Busy engine functions comments events walk zone pending.slot none goal)
    (hfunction : pending.function = (walk.program.arena.graft own.arena own.root).1) :
    Entering engine functions comments events
      { walk with
        program := ⟨(walk.program.arena.graft own.arena own.root).2,
          walk.program.findings.setFunction pending.slot
            (walk.program.arena.graft own.arena own.root).1⟩ }
      pending (zone ∪ added walk.program.arena (walk.program.arena.graft own.arena own.root).2)
      goal := by
  -- A function that has been read is a tree, and so its copy is a tree of new
  -- expressions. Being new they have not been used, and are outside of what was
  -- found out before.
  obtain ⟨tree, htree, hnodup⟩ := own.isTree
  obtain ⟨span, hspan, hnodup', hle⟩ := Script.Arena.graft_grown walk.program.arena htree hnodup
  refine ⟨?_, fun function hfound => ?_, span, hfunction ▸ hspan, hnodup', fun x hx => ?_⟩
  · refine h.edit ⟨Script.Arena.graft_editedIn h.closed _ _, fun _ _ hid => ?_⟩
      Findings.sameTexts_setFunction
    exact Findings.get?_update_of_ne _ _ fun heq => hid (heq ▸ h.slot_mem)
  · rw [Findings.function?_setFunction_self] at hfound
    cases hfound
    have hroot := hspan.subset List.mem_cons_self
    exact Or.inr ⟨hle _ hroot, hspan.lt_size _ hroot⟩
  · refine ⟨Or.inr ⟨hle x hx, hspan.lt_size x hx⟩, fun hin => ?_⟩
    exact absurd (h.used_lt x hin) (Nat.not_lt_of_le (hle x hx))

section Waiting

variable (engine : Engine) (functions : Component → Option RenderFunction) (comments : Bool)
  (events : List Event) (walk : Walk)

/-- A walk that waits, and what it is busy with: a component whose hooks have
    to run, or a pair of async components that have to resolve. -/
inductive Waits : Suspension → Prop where
  | component {pending zone}
      (h : Entering engine functions comments events walk pending zone
        (AwaitsInto engine functions comments pending)) : Waits (.component pending)
  | deferred {pair data asked zone} (h : Ready engine functions comments events walk pair zone)
      {id id' : FactoryId}
      (hview : pair.view = ⟨.deferred id data.static, .deferred id' data.dynamic⟩) :
      Waits (.deferred pair data asked)

/-- A walk is idle, or it waits. -/
def Stands : Option Suspension → Prop
  | none => Idle engine functions comments events walk
  | some suspension => Waits engine functions comments events walk suspension

end Waiting

/-- A component whose function has been copied is entered, or waits for its
    hooks. -/
theorem enterOrWait_leads {pending : Pending}
    (h : Entering engine functions comments events walk pending zone
      (AwaitsInto engine functions comments pending)) :
    Leads (do
        if Engine.hasPrefetch pending.instances.static
            || Engine.hasPrefetch pending.instances.dynamic then
          return some (.component pending)
        enterComponent engine pending
        return none) walk
      (fun out after => Stands engine functions comments events after out)
      (Idle engine functions comments events) := by
  split
  · exact .component h
  · next hnone =>
      rw [Bool.or_eq_true, not_or, Bool.not_eq_true, Bool.not_eq_true] at hnone
      rw [leads_bind]
      refine enterComponent_leads
        ⟨h.busy.weaken fun answers text hmet => ?_, h.function_mem, h.room⟩
      exact hmet.awaits hnone.1 hnone.2

/-- Comparing two components leads to the comparison of their roots, or to a
    pause. -/
theorem compareComponents_leads {component : Twin Component} {data : Twin NodeData}
    (h : Busy engine functions comments events walk zone pair.slot none goal)
    (hgoal : component.static.name = component.dynamic.name →
      ∀ (instances : Twin Instance) (roots : Twin View),
        engine.rendering? functions .static (walk.active.map (·.static)) component.static
          data.static = some (instances.static, roots.static) →
        engine.rendering? functions .dynamic (walk.active.map (·.dynamic)) component.dynamic
          data.dynamic = some (instances.dynamic, roots.dynamic) →
        ∀ answers text, Folds engine functions comments (some instances)
          ⟨pair.context.static.nest data.static component.static.scopeId,
            pair.context.dynamic.nest data.dynamic component.dynamic.scopeId⟩ [roots] answers text →
        goal answers text) :
    Leads (compareComponents engine pair component data) walk
      (fun out after => Stands engine functions comments events after out)
      (Idle engine functions comments events) := by
  unfold compareComponents
  split
  · exact h.drop
  · next hname =>
      rw [leads_bind, leads_get]
      dsimp only
      rw [leads_bind, leads_onEngine]
      rcases engine.ensureRender_spec (Instance.create component.static data.static
        (walk.active.map (·.static)) .static) rfl walk.engine with
        ⟨own, state, hensure, hown, hkept⟩ | ⟨e, state, hensure, -, hkept⟩
      · rw [hensure]
        dsimp only
        rw [leads_bind, leads_onEngine]
        rcases engine.ensureRender_spec (Instance.create component.dynamic data.dynamic
          (walk.active.map (·.dynamic)) .dynamic) rfl state with
          ⟨own', state', hensure', hown', hkept'⟩ | ⟨e, state', hensure', -, hkept'⟩
        · rw [hensure']
          dsimp only
          rw [leads_bind, leads_fromProgram]
          -- Compiling for the static pass has left the functions as they were, so both
          -- passes run the functions that the walk knows of.
          rw [hkept.functions] at hown'
          rw [h.functions] at hown hown'
          let pending : Pending :=
            { slot := pair.slot
              function := (walk.program.arena.graft own.arena own.root).1
              instances :=
                ⟨{ Instance.create component.static data.static
                    (walk.active.map (·.static)) .static with render := some own },
                  { Instance.create component.dynamic data.dynamic
                    (walk.active.map (·.dynamic)) .dynamic with render := some own' }⟩
              own
              context :=
                ⟨pair.context.static.nest data.static component.static.scopeId,
                  pair.context.dynamic.nest data.dynamic component.dynamic.scopeId⟩ }
          -- What the roots fold into once the hooks have run is what the pair owes.
          have hawaits : ∀ answers text,
              AwaitsInto engine functions comments pending answers text → goal answers text := by
            intro answers text hmet
            obtain ⟨instances, roots, hstatic, hdynamic, hfolds⟩ := hmet.rendering rfl hown hown'
            exact hgoal (not_not.mp hname) instances roots hstatic hdynamic answers text hfolds
          have hbusy : Busy engine functions comments events { walk with engine := state' } zone
              pending.slot none (AwaitsInto engine functions comments pending) :=
            (h.withEngine (hkept.trans hkept').functions).weaken hawaits
          exact enterOrWait_leads (entering_of_graft hbusy rfl)
        · rw [hensure']
          exact (h.withEngine (hkept.trans hkept').functions).drop
      · rw [hensure]
        exact (h.withEngine hkept.functions).drop

/-- Room is left as long as only the expression itself is used. -/
theorem Room.use {events' : List Event} {arena : Arena} (h : Room events arena zone slot)
    (hslots : ∀ x ∈ Event.slots events', x = slot ∨ x ∈ Event.slots events) :
    Room events' arena zone slot := by
  obtain ⟨span, hspan, hnodup, hout⟩ := h
  refine ⟨span, hspan, hnodup, fun x hx => ⟨(hout x hx).1, ?_⟩⟩
  by_cases heq : x = slot
  · exact Or.inl heq
  · exact Or.inr fun hin => (hout x hx).2.elim heq fun hnew =>
      (hslots x hin).elim heq hnew

/-- An event at the expression of a pair takes nothing else. -/
theorem slots_append_singleton {event : Event} {slot : Id}
    (h : ∀ x ∈ Event.slots [event], x = slot) :
    ∀ x ∈ Event.slots (events ++ [event]), x = slot ∨ x ∈ Event.slots events := by
  intro x hx
  rw [Event.slots_append] at hx
  exact (List.mem_append.mp hx).symm.imp (h x) id

/-- Async components that resolved to views are compared by these. -/
theorem Ready.view (h : Ready engine functions comments events walk pair zone) (both : Settled)
    (view : Twin View)
    (hgoal : ∀ answers text,
      Folds engine functions comments walk.active pair.context [view] answers text →
      Folds engine functions comments walk.active pair.context [pair.view] (both :: answers) text) :
    Ready engine functions comments
      ((events ++ [.settled both]) ++ [.compared { pair with view } walk.active]) walk
      { pair with view } zone where
  busy := by
    have hbusy := h.busy.settled hgoal
    exact Busy.compared { pair with view } hbusy fun _ _ hfolds => hfolds
  room := (h.room.use (slots_append_singleton fun _ hx => absurd hx List.not_mem_nil)).use
    (slots_append_singleton fun _ hx => List.mem_singleton.mp hx)
  mem := List.mem_append_right _ List.mem_cons_self

/-- Async components that resolved to views, compared one by one. -/
theorem resolveViews_leads {views views' : List View}
    (h : Busy engine functions comments events walk zone pair.slot none goal)
    (hgoal : views.length = views'.length → ∀ answers text,
      Folds engine functions comments walk.active pair.context (views.zipWith Twin.mk views')
        answers text → goal answers text) :
    Leads (do
        if views.length = views'.length then
          let slots ← fromProgram (Program.pushHoles views.length)
          let views := views.zipWith Twin.mk views'
          pushFrame (.group pair.slot (.ofList (views.zipWith (⟨·, ·, pair.context⟩) slots)))
        return none) walk
      (fun out after => Stands engine functions comments events after out)
      (Idle engine functions comments events) := by
  split
  · next hlength =>
      rw [leads_bind, leads_fromProgram]
      obtain ⟨hadds, hcount⟩ := Program.pushHoles_adds views.length walk.program
      have hlocates := hadds.locates h.closed h.used_lt
      obtain ⟨hslots, hviews, hcontexts⟩ := zipPairs_spec pair.context
        ((Twin.length_zipWith hlength).trans hcount.symm)
      dsimp only
      rw [leads_bind, leads_pushFrame]
      refine (h.edit hlocates.edited hlocates.same).push rfl rfl rfl hcontexts ?_ ?_ ?_ ?_
      · rw [hslots]
        exact hlocates.room
      · intro boundary pairs hframe
        cases hframe
      · intro boundary pairs hframe
        cases hframe
      · intro opening hopening answers content hfolds
        cases hopening
        rw [hviews] at hfolds
        simpa [Frame.closing] using hgoal hlength answers content hfolds
  · exact h.drop

/-- Comparing what async components resolved to, if comparing pairs leads to
    what it should. -/
theorem compareResolved_leads {compare : Pair → Walking (Option Suspension)}
    {trail : Pair → List Event} {id id' : FactoryId} (data : Twin NodeData)
    (resolutions : Twin Resolution)
    (hcompare : ∀ events pair,
      Ready engine functions comments (events ++ [.compared pair walk.active]) walk pair zone →
      Leads (compare pair) walk
        (fun out after => Stands engine functions comments (events ++ trail pair) after out)
        (Idle engine functions comments (events ++ trail pair)))
    (h : Ready engine functions comments events walk pair zone)
    (hview : pair.view = ⟨.deferred id data.static, .deferred id' data.dynamic⟩) :
    Leads (compareResolved engine compare pair data resolutions) walk
      (fun out after => Stands engine functions comments
        (events ++ settleTrail trail pair resolutions) after out)
      (Idle engine functions comments (events ++ settleTrail trail pair resolutions)) := by
  obtain ⟨static, dynamic⟩ := resolutions
  -- Whatever two answers of different kinds are, the pair becomes a placeholder.
  have hdiffering (hdiffer : static.isLike dynamic = false) :
      Leads (do
          onProgram (·.markStatic pair.slot "<!---->")
          return none) walk
        (fun out after => Stands engine functions comments
          (events ++ [.settled ⟨⟨id, id'⟩, ⟨static, dynamic⟩⟩]) after out)
        (Idle engine functions comments
          (events ++ [.settled ⟨⟨id, id'⟩, ⟨static, dynamic⟩⟩])) := by
    rw [leads_bind, leads_onProgram]
    have hfolds : Folds engine functions comments walk.active pair.context [pair.view]
        [⟨⟨id, id'⟩, ⟨static, dynamic⟩⟩] "<!---->" := by
      rw [hview]
      exact .differing hdiffer .nil
    have hgoal : ∀ answers text, answers = [] ∧ text = "<!---->" →
        Folds engine functions comments walk.active pair.context [pair.view]
          (⟨⟨id, id'⟩, ⟨static, dynamic⟩⟩ :: answers) text := by
      rintro _ _ ⟨rfl, rfl⟩
      exact hfolds
    exact (h.busy.settled hgoal).mark ⟨rfl, rfl⟩ (.refl h.busy.closed)
  simp only [settleTrail, hview]
  cases static with
  | component use =>
      cases dynamic with
      | component use' =>
          refine compareComponents_leads (h.busy.settled fun _ _ hmet => hmet) ?_
          intro hname instances roots hstatic hdynamic answers text hfolds
          rw [hview]
          simpa using Folds.deferredComponent hname hstatic hdynamic hfolds .nil
      | view view' => exact hdiffering rfl
      | views views' => exact hdiffering rfl
  | view view =>
      cases dynamic with
      | component use' => exact hdiffering rfl
      | view view' =>
          -- The views are compared in place of the pair, one level deeper.
          have hready := h.view ⟨⟨id, id'⟩, ⟨.view view, .view view'⟩⟩ ⟨view, view'⟩
            fun answers text hfolds => by
              rw [hview]
              simpa using Folds.deferredView hfolds .nil
          have hleads := hcompare _ _ hready
          rw [List.append_assoc] at hleads
          exact hleads
      | views views' => exact hdiffering rfl
  | views views =>
      cases dynamic with
      | component use' => exact hdiffering rfl
      | view view' => exact hdiffering rfl
      | views views' =>
          refine resolveViews_leads (h.busy.settled fun _ _ hmet => hmet) ?_
          intro hlength answers text hfolds
          rw [hview]
          simpa using Folds.deferredViews hlength hfolds .nil

/-- Asking a factory changes nothing. -/
theorem leads_ask {id : FactoryId} {ok : Engine.Asked → Walk → Prop} {bad : Walk → Prop} :
    Leads (onEngine (Engine.ask id)) walk ok bad ↔
      ok (match walk.cached id with
        | some resolution => .answered resolution
        | none => .call id) walk := by
  rw [leads_onEngine]
  have hget : (get : EngineM Engine.State) walk.engine = .ok walk.engine walk.engine := rfl
  simp only [Engine.ask, bind, EStateM.bind, hget, cached]
  cases (walk.engine.factories id).cached <;> exact Iff.rfl

/-- Comparing a pair makes the walk idle again, or it waits. -/
theorem compare_leads (depth : Nat) :
    ∀ {events : List Event} {pair : Pair},
      Ready engine functions comments (events ++ [.compared pair walk.active]) walk pair zone →
      Leads (compare engine depth pair) walk
        (fun out after => Stands engine functions comments
          (events ++ trail walk.cached walk.active depth pair) after out)
        (Idle engine functions comments
          (events ++ trail walk.cached walk.active depth pair)) := by
  -- By induction on how many async components may answer with one another. Only
  -- the case of two answers that are views goes a level deeper.
  induction depth with
  | zero => exact fun h => h.busy.drop
  | succ depth ih =>
      intro events pair h
      obtain ⟨⟨static, dynamic⟩, slot, context⟩ := pair
      have hdrop : Leads (return none) walk
          (fun out after => Stands engine functions comments
            (events ++ [.compared ⟨⟨static, dynamic⟩, slot, context⟩ walk.active]) after out)
          (Idle engine functions comments
            (events ++ [.compared ⟨⟨static, dynamic⟩, slot, context⟩ walk.active])) :=
        h.busy.drop
      unfold compare
      dsimp only
      split
      · next content raw content' raw' =>
          rw [leads_bind, leads_onProgram]
          exact h.recordText fun text hstatic hdynamic => by
            simpa using Folds.text hstatic hdynamic .nil
      · next content content' =>
          rw [leads_bind, leads_get]
          split
          · next hsame =>
              simp only [Bool.and_eq_true, decide_eq_true_eq] at hsame
              obtain ⟨rfl, hcomments⟩ := hsame
              rw [leads_bind, leads_onProgram]
              exact h.markStatic (by
                simpa using Folds.comment (h.busy.comments.symm.trans hcomments) .nil)
          · exact hdrop
      · next opening closing children opening' closing' children' =>
          rw [leads_bind]
          exact compareFragments_leads ⟨⟨_, _⟩, slot, context⟩ h rfl
      · next tag data children tag' data' children' =>
          split
          · next htag =>
              subst htag
              rw [leads_bind]
              exact compareElements_leads ⟨⟨_, _⟩, slot, context⟩ h rfl
          · exact hdrop
      · next id data id' data' =>
          -- The hooks run in the scope of the two uses, so it is the goal of the pair that
          -- their roots have to meet.
          refine compareComponents_leads h.busy fun hname instances roots hstatic hdynamic answers
            text hfolds => ?_
          simpa using Folds.component hname hstatic hdynamic hfolds .nil
      · next id data id' data' =>
          rw [leads_bind, leads_ask, leads_bind, leads_ask]
          simp only [trail]
          -- A pair waits unless both components have an answer already.
          cases hstatic : walk.cached id with
          | none => exact .deferred h rfl
          | some static =>
              cases hdynamic : walk.cached id' with
              | none => exact .deferred h rfl
              | some dynamic =>
                  have hleads := compareResolved_leads ⟨data, data'⟩ ⟨static, dynamic⟩
                    (fun _ _ => ih) h rfl
                  rw [List.append_assoc] at hleads
                  exact hleads
      -- Views of two different kinds are left alone.
      · next hother =>
          have htrail : trail walk.cached walk.active (depth + 1)
              ⟨⟨static, dynamic⟩, slot, context⟩ =
              [.compared ⟨⟨static, dynamic⟩, slot, context⟩ walk.active] := by
            cases static <;> cases dynamic <;> first | rfl | exact (hother _ _ _ _ rfl rfl).elim
          rw [htrail]
          exact hdrop

end Walk

end RenderFold
