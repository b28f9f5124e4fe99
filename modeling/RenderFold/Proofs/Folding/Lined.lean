import RenderFold.Proofs.Folding.Planted
import RenderFold.Proofs.Folding.Sources
import Mathlib.Data.List.Forall2

/-!
# Entries That Are Open

The entries that are open belong to the components that a walk is inside of,
one entry to each, in the same order. An entry is opened at an expression where
no entry was made before, since every expression is compared once. So when it
is closed, the expressions that use the entries below it are all different, and
each of these entries was made at one of them.

The function of the component is copied into the arena when the component is
entered, and it is found there when the component is left.

## Main definitions

* `Walk.Lined`: The entries that are open belong to the components that a walk
  is inside of.
* `Walk.Expects`: What a walk waits for will open an entry of its own.

## Theorems

* `Walk.compare_lined`, `Walk.finish_lined`: What a move does to the entries.
* `Walk.Reaches.lined`: The entries belong to the components, always.
-/

namespace RenderFold

open Script (Arena Id)

/-- The component that a frame is for, if it is for one. -/
def Frame.boundary? : Frame → Option Boundary
  | component boundary _ => some boundary
  | element .. => none
  | group .. => none

theorem Frame.boundary?_withPairs (frame : Frame) (pairs : Pairs) :
    (frame.withPairs pairs).boundary? = frame.boundary? := by
  cases frame <;> rfl

namespace Synthesizer

variable {synthesizer : Synthesizer}

/-- Whatever is read, what is remembered stays what was read. -/
theorem compile_sound (h : synthesizer.Sound) (source : String) :
    (synthesizer.compile source).2.Sound ∧
      ∀ function, (synthesizer.compile source).1 = .ok function →
        RenderFunction.compile source = .ok function := by
  cases hread : RenderFunction.compile source with
  | ok function =>
      have hsource := RenderFunction.compile_eq_ok_iff.mp hread
      have hparsed := function.wasRead
      rw [hsource] at hparsed
      rcases compile_spec h hparsed with ⟨other, hother, hsame, hsound⟩
      refine ⟨hsound, fun found hfound => ?_⟩
      rw [hother] at hfound
      cases hfound
      rw [← hread]
      exact RenderFunction.compile_eq_ok_iff.mpr hsame
  | error e =>
      -- A source that cannot be read is not remembered.
      unfold compile SourceCache.getOrBuild
      cases hcached : synthesizer.cache.get? fingerprint source with
      | some function =>
          have hsource := RenderFunction.compile_eq_ok_iff.mpr (h source function hcached)
          rw [hread] at hsource
          cases hsource
      | none =>
          dsimp only
          rw [hread]
          exact ⟨h, fun function hfunction => by cases hfunction⟩

/-- A function that is accepted was read from what was printed. -/
theorem synthesize_sound (h : synthesizer.Sound) (engine : Engine) (arena : Arena) (function : Id)
    (inst : Instance) :
    (synthesizer.synthesize engine arena function inst).2.Sound ∧
      ∀ result, (synthesizer.synthesize engine arena function inst).1 = some result →
        RenderFunction.compile (arena.print function) = .ok result := by
  have hcompile := compile_sound h (arena.print function)
  unfold synthesize
  rcases hresult : synthesizer.compile (arena.print function) with ⟨_ | read, after⟩
  · rw [hresult] at hcompile
    exact ⟨hcompile.1, fun result hnone => by cases hnone⟩
  · rw [hresult] at hcompile
    refine ⟨hcompile.1, fun result hsome => ?_⟩
    dsimp only at hsome
    split at hsome
    · cases hsome
      exact hcompile.2 read rfl
    · cases hsome

end Synthesizer

namespace Builder

variable {builder : Builder} {stays : Id → Bool}

/-- The children of a closed entry are those that stay, in order. -/
theorem settle_children (styles : Styles) (children : List (Id × FoldedTree)) :
    (settle stays styles children).2 = (children.filter (stays ·.1)).map (·.2) := by
  induction children generalizing styles with
  | nil => rfl
  | cons child rest ih =>
      rw [settle, List.filter_cons]
      split
      · rw [List.map_cons, ← ih styles]
      · exact ih _

end Builder

namespace Walk

/-- The components that a walk is inside of, innermost first. -/
def boundaries (walk : Walk) : List Boundary := walk.frames.filterMap Frame.boundary?

/-- The expressions at which entries have been made, or have been opened. -/
def taken (walk : Walk) : List Id :=
  walk.boundaries.map (·.slot) ++ walk.builder.entries.flatMap fun entry => entry.children.map (·.1)

section Definitions

variable (engine : Engine) (functions : Component → Option RenderFunction) (events : List Event)

/-- An open entry belongs to a component. The function of the component was
    copied into the program, and the entries below were made. -/
structure Opened (program : Program) (boundary : Boundary) (entry : OpenEntry) : Prop where
  uses : ∃ component, Event.Uses engine events boundary.slot component ∧
    entry.component = component.name ∧ functions component = some boundary.own
  copy : ∃ function, program.findings.function? boundary.slot = some function ∧
    Program.CopyOf boundary.own program.arena function
  children : ∀ child ∈ entry.children, Made engine functions events child.1 child.2

/-- The entries that are open belong to the components that a walk is inside
    of, and no two entries were made at one expression. -/
structure Lined (walk : Walk) : Prop where
  entries : List.Forall₂ (Opened engine functions events walk.program) walk.boundaries
    walk.builder.entries
  apart : walk.taken.Nodup
  root : ∀ tree, walk.builder.root = some tree → ∃ slot, Made engine functions events slot tree
  synthesizer : walk.synthesizer.Sound
  functions : engine.function? walk.engine = functions

/-- A component that is about to be entered, at an expression without an
    entry. -/
structure Entrant (walk : Walk) (pending : Pending) : Prop where
  fresh : pending.slot ∉ walk.taken
  uses : ∃ component, Event.Uses engine events pending.slot component ∧
    pending.instances.static.component.name = component.name ∧
    functions component = some pending.own
  found : walk.program.findings.function? pending.slot = some pending.function
  copy : Program.CopyOf pending.own walk.program.arena pending.function

/-- What a walk waits for will open an entry of its own. -/
inductive Expects (walk : Walk) : Suspension → Prop where
  | component {pending : Pending} (h : Entrant engine functions events walk pending) :
      Expects walk (.component pending)
  | deferred {pair : Pair} {data : Twin NodeData} {asked : Twin Engine.Asked} {id id' : FactoryId}
      (hfresh : pair.slot ∉ walk.taken)
      (hview : pair.view = ⟨.deferred id data.static, .deferred id' data.dynamic⟩)
      (hevent : ∃ active, .compared pair active ∈ events) : Expects walk (.deferred pair data asked)

/-- The entries are in order, and so is what a walk waits for if it does. -/
def Lines (out : Option Suspension) (walk : Walk) : Prop :=
  Lined engine functions events walk ∧
    ∀ suspension, out = some suspension → Expects engine functions events walk suspension

end Definitions

variable {engine : Engine} {functions : Component → Option RenderFunction}
  {events events' : List Event} {walk after : Walk} {program : Program} {pair : Pair}
  {pending : Pending}

theorem Opened.mono {boundary : Boundary} {entry : OpenEntry} (hsub : events ⊆ events')
    (h : Opened engine functions events program boundary entry) :
    Opened engine functions events' program boundary entry := by
  rcases h.uses with ⟨component, huses, hname, hown⟩
  exact ⟨⟨component, huses.mono hsub, hname, hown⟩, h.copy,
    fun child hchild => (h.children child hchild).mono hsub⟩

theorem Lined.lines (h : Lined engine functions events walk) :
    Lines engine functions events none walk :=
  ⟨h, fun _ hout => by cases hout⟩

namespace Lined

theorem mono (hsub : events ⊆ events') (h : Lined engine functions events walk) :
    Lined engine functions events' walk where
  entries := h.entries.imp fun _ _ => Opened.mono hsub
  apart := h.apart
  root tree htree := by
    rcases h.root tree htree with ⟨slot, hmade⟩
    exact ⟨slot, hmade.mono hsub⟩
  synthesizer := h.synthesizer
  functions := h.functions

theorem of_eq (h : Lined engine functions events walk) (hprogram : after.program = walk.program)
    (hboundaries : after.boundaries = walk.boundaries) (hbuilder : after.builder = walk.builder)
    (hsynthesizer : after.synthesizer = walk.synthesizer)
    (hengine : engine.function? after.engine = engine.function? walk.engine) :
    Lined engine functions events after where
  entries := by
    rw [hprogram, hboundaries, hbuilder]
    exact h.entries
  apart := by
    rw [taken, hboundaries, hbuilder]
    exact h.apart
  root := by
    rw [hbuilder]
    exact h.root
  synthesizer := by
    rw [hsynthesizer]
    exact h.synthesizer
  functions := hengine.trans h.functions

/-- The program may be edited, as long as the components that the walk is
    inside of keep their functions. -/
theorem rework (h : Lined engine functions events walk)
    (hedits : Program.Edits walk.program.arena program.arena)
    (hfunctions : ∀ boundary ∈ walk.boundaries,
      program.findings.function? boundary.slot = walk.program.findings.function? boundary.slot) :
    Lined engine functions events { walk with program } where
  entries := by
    have hentries := (List.forall₂_and_left _ _).mpr ⟨hfunctions, h.entries⟩
    refine hentries.imp fun boundary entry hboth => ?_
    rcases hboth with ⟨hsame, huses, ⟨function, hfunction, hcopy⟩, hchildren⟩
    exact ⟨huses, ⟨function, hsame.trans hfunction, hcopy.edit hedits⟩, hchildren⟩
  apart := h.apart
  root := h.root
  synthesizer := h.synthesizer
  functions := h.functions

theorem evolve (h : Lined engine functions events walk) (hevolves : walk.program.Evolves program) :
    Lined engine functions events { walk with program } :=
  h.rework hevolves.edits fun boundary _ => hevolves.functions boundary.slot

/-- Entries have been made or opened only where pairs were compared. -/
theorem taken_used (h : Lined engine functions events walk) :
    ∀ x ∈ walk.taken, x ∈ Event.slots events := by
  intro x hx
  rcases List.mem_append.mp hx with hx | hx
  · rcases List.mem_map.mp hx with ⟨boundary, hmem, rfl⟩
    rcases List.getElem_of_mem hmem with ⟨i, hi, rfl⟩
    rcases ((List.forall₂_iff_get.mp h.entries).2 i hi (h.entries.length_eq ▸ hi)).uses with
      ⟨component, huses, -⟩
    exact huses.slot_mem
  · rcases List.mem_flatMap.mp hx with ⟨entry, hmem, hx⟩
    rcases List.mem_map.mp hx with ⟨child, hchild, rfl⟩
    rcases List.getElem_of_mem hmem with ⟨i, hi, rfl⟩
    exact (((List.forall₂_iff_get.mp h.entries).2 i (h.entries.length_eq.symm ▸ hi) hi).children
      child hchild).slot_mem

end Lined

section Compare

theorem descend_lined {slot : Id} {closing : String} {children : Twin (List View)}
    (h : Lined engine functions events walk) :
    Leads (descend slot closing children) walk (fun _ => Lined engine functions events)
      (Lined engine functions events) := by
  unfold descend
  rw [leads_bind, leads_fromProgram, leads_bind, leads_get, leads_pushFrame]
  exact (h.evolve Program.evolves_correlate).of_eq rfl rfl rfl rfl rfl

theorem compareFragments_lined {slot : Id} {opening closing : Twin String}
    {children : Twin (List View)} (h : Lined engine functions events walk) :
    Leads (compareFragments slot opening closing children) walk
      (fun _ => Lined engine functions events) (Lined engine functions events) := by
  unfold compareFragments
  split
  · dsimp only
    split
    · exact h.evolve Program.evolves_markStatic
    · exact h
  · split
    · rw [leads_bind, leads_onProgram]
      exact descend_lined (h.evolve Program.evolves_setText)
    · exact h

theorem compareElements_lined {tag : String} {data : Twin NodeData} {children : Twin (List View)}
    (h : Lined engine functions events walk) :
    Leads (compareElements engine pair tag data children) walk
      (fun _ => Lined engine functions events) (Lined engine functions events) := by
  unfold compareElements
  dsimp only
  split
  · exact h.evolve Program.evolves_recordText
  · split
    · split
      · exact h.evolve Program.evolves_recordText
      · split
        · split
          · rw [leads_bind, leads_onProgram]
            exact descend_lined (h.evolve Program.evolves_setText)
          · exact descend_lined h
        · exact h
    · split
      · exact h.evolve Program.evolves_markStatic
      · exact h
    · exact h

/-- Entering a component opens its entry. -/
theorem enterComponent_lined (h : Lined engine functions events walk)
    (hentrant : Entrant engine functions events walk pending) :
    Leads (enterComponent engine pending) walk (fun _ => Lined engine functions events)
      (Lined engine functions events) := by
  unfold enterComponent
  rw [leads_bind, leads_ofExcept]
  split
  · rw [leads_bind, leads_ofExcept]
    split
    · rw [leads_bind, leads_fromProgram, leads_bind, leads_get]
      dsimp only
      rw [leads_bind, leads_modify, leads_pushFrame]
      have hevolves : walk.program.Evolves (walk.program.locateRoot pending.function).2 :=
        Program.evolves_locateRoot
      have hevolved := h.evolve hevolves
      refine ⟨.cons ⟨hentrant.uses, ⟨pending.function, ?_, hentrant.copy.edit hevolves.edits⟩, ?_⟩
        hevolved.entries, ?_, h.root, h.synthesizer, h.functions⟩
      · exact (hevolves.functions pending.slot).trans hentrant.found
      · exact fun child hchild => absurd hchild List.not_mem_nil
      · exact List.nodup_cons.mpr ⟨hentrant.fresh, h.apart⟩
    · exact h
  · exact h

/-- Comparing two components opens an entry, or the walk waits for the hooks
    before it does. -/
theorem compareComponents_lined {component : Twin Component} {data : Twin NodeData}
    (h : Lined engine functions events walk) (hfresh : pair.slot ∉ walk.taken)
    (huses : Event.Uses engine events pair.slot component.static) :
    Leads (compareComponents engine pair component data) walk (Lines engine functions events)
      (Lined engine functions events) := by
  unfold compareComponents
  split
  · exact h.lines
  · rw [leads_bind, leads_get]
    dsimp only
    rw [leads_bind, leads_onEngine]
    rcases engine.ensureRender_spec (Instance.create component.static data.static
      (walk.active.map (·.static)) .static) rfl walk.engine with
      ⟨own, state, hensure, hown, hkept⟩ | ⟨e, state, hensure, -, hkept⟩
    · rw [hensure]
      dsimp only
      rw [leads_bind, leads_onEngine]
      rcases engine.ensureRender_spec (Instance.create component.dynamic data.dynamic
        (walk.active.map (·.dynamic)) .dynamic) rfl state with
        ⟨own', state', hensure', -, hkept'⟩ | ⟨e, state', hensure', -, hkept'⟩
      · rw [hensure']
        dsimp only
        rw [leads_bind, leads_fromProgram]
        rw [h.functions] at hown
        have hengine : Lined engine functions events { walk with engine := state' } :=
          h.of_eq rfl rfl rfl rfl (hkept.trans hkept').functions
        -- The function is recorded at the expression of the pair, which is not that of
        -- any component around.
        have hcopied : Lined engine functions events
            { walk with
              engine := state'
              program := ⟨(walk.program.arena.graft own.arena own.root).2,
                walk.program.findings.setFunction pair.slot
                  (walk.program.arena.graft own.arena own.root).1⟩ } := by
          refine hengine.rework (.single (.copy _ own)) fun boundary hboundary => ?_
          refine Findings.function?_setFunction_of_ne fun heq => hfresh ?_
          rw [← heq]
          exact List.mem_append_left _ (List.mem_map_of_mem hboundary)
        have hentrant (pending : Pending) (hslot : pending.slot = pair.slot)
            (hfunction : pending.function = (walk.program.arena.graft own.arena own.root).1)
            (hpending : pending.own = own)
            (hcomponent : pending.instances.static.component = component.static) :
            Entrant engine functions events
              { walk with
                engine := state'
                program := ⟨(walk.program.arena.graft own.arena own.root).2,
                  walk.program.findings.setFunction pair.slot
                    (walk.program.arena.graft own.arena own.root).1⟩ } pending := by
          refine ⟨hslot ▸ hfresh, ⟨component.static, hslot ▸ huses, by rw [hcomponent], ?_⟩, ?_, ?_⟩
          · rw [hpending]
            exact hown
          · rw [hslot, hfunction]
            exact Findings.function?_setFunction_self
          · rw [hfunction, hpending]
            exact ⟨walk.program.arena, rfl, .refl⟩
        split
        · refine ⟨hcopied, fun suspension hout => ?_⟩
          cases hout
          exact .component (hentrant _ rfl rfl rfl rfl)
        · rw [leads_bind]
          exact leads_mono (enterComponent_lined hcopied (hentrant _ rfl rfl rfl rfl))
            (fun _ _ => Lined.lines) fun _ hlast => hlast
      · rw [hensure']
        exact h.of_eq rfl rfl rfl rfl (hkept.trans hkept').functions
    · rw [hensure]
      exact h.of_eq rfl rfl rfl rfl hkept.functions

theorem compareResolved_lined {compare : Pair → Walking (Option Suspension)}
    {trail : Pair → List Event} {data : Twin NodeData} {id id' : FactoryId}
    (resolutions : Twin Resolution) (h : Lined engine functions events walk)
    (hfresh : pair.slot ∉ walk.taken)
    (hview : pair.view = ⟨.deferred id data.static, .deferred id' data.dynamic⟩)
    (hevent : ∃ active, .compared pair active ∈ events)
    (hevents : settleTrail trail pair resolutions ⊆ events)
    (hcompare : ∀ view, trail { pair with view } ⊆ events →
      Leads (compare { pair with view }) walk (Lines engine functions events)
        (Lined engine functions events)) :
    Leads (compareResolved engine compare pair data resolutions) walk
      (Lines engine functions events) (Lined engine functions events) := by
  rcases resolutions with ⟨static, dynamic⟩
  simp only [settleTrail, hview] at hevents
  have hsettled : .settled ⟨⟨id, id'⟩, ⟨static, dynamic⟩⟩ ∈ events := hevents List.mem_cons_self
  unfold compareResolved
  split
  · next use use' hstatic hdynamic =>
      rcases hevent with ⟨active, hevent⟩
      have hstatic : static = .component use := hstatic
      have hdeferred : pair.view.static = .deferred id data.static := by rw [hview]
      exact compareComponents_lined h hfresh (.deferred hevent hdeferred hsettled hstatic)
  · next view view' hstatic hdynamic =>
      have hstatic : static = .view view := hstatic
      have hdynamic : dynamic = .view view' := hdynamic
      rw [hstatic, hdynamic] at hevents
      exact hcompare _ fun event hin => hevents (List.mem_cons_of_mem _ hin)
  · split
    · rw [leads_bind, leads_fromProgram, leads_bind, leads_pushFrame]
      exact Lined.lines ((h.evolve (Program.evolves_pushHoles _)).of_eq rfl rfl rfl rfl rfl)
    · exact h.lines
  · rw [leads_bind, leads_onProgram]
    exact (h.evolve Program.evolves_markStatic).lines

/-- Comparing a pair keeps the entries in order. The events are those that are
    recorded in the end. -/
theorem compare_lined (depth : Nat) (h : Lined engine functions events walk) :
    ∀ {pair : Pair}, pair.slot ∉ walk.taken →
      trail walk.cached walk.active depth pair ⊆ events →
      Leads (compare engine depth pair) walk (Lines engine functions events)
        (Lined engine functions events) := by
  induction depth with
  | zero => exact fun _ _ => h
  | succ depth ih =>
      intro pair hfresh hevents
      rcases pair with ⟨⟨static, dynamic⟩, slot, context⟩
      have hevent : .compared ⟨⟨static, dynamic⟩, slot, context⟩ walk.active ∈ events :=
        hevents List.mem_cons_self
      unfold compare
      dsimp only
      split
      · rw [leads_bind, leads_onProgram]
        exact (h.evolve Program.evolves_recordText).lines
      · rw [leads_bind, leads_get]
        split
        · rw [leads_bind, leads_onProgram]
          exact (h.evolve Program.evolves_markStatic).lines
        · exact h.lines
      · rw [leads_bind]
        exact leads_mono (compareFragments_lined h) (fun _ _ => Lined.lines) fun _ hlast => hlast
      · split
        · rw [leads_bind]
          exact leads_mono (compareElements_lined h) (fun _ _ => Lined.lines) fun _ hlast => hlast
        · exact h.lines
      · exact compareComponents_lined h hfresh (.component hevent rfl)
      · next id data id' data' =>
          rw [leads_bind, leads_ask, leads_bind, leads_ask]
          simp only [trail] at hevents
          cases hstatic : walk.cached id with
          | none =>
              refine ⟨h, fun suspension hout => ?_⟩
              cases hout
              exact .deferred hfresh rfl ⟨_, hevent⟩
          | some static =>
              cases hdynamic : walk.cached id' with
              | none =>
                  refine ⟨h, fun suspension hout => ?_⟩
                  cases hout
                  exact .deferred hfresh rfl ⟨_, hevent⟩
              | some dynamic =>
                  simp only [hstatic, hdynamic] at hevents
                  exact compareResolved_lined ⟨static, dynamic⟩ h hfresh rfl ⟨_, hevent⟩
                    (fun event hin => hevents (List.mem_cons_of_mem _ hin)) fun view => ih hfresh
      · exact h.lines

end Compare

section Finish

variable {boundary : Boundary} {pairs : Pairs} {frame : Frame} {rest : List Frame}

/-- When a component is left, its entry is closed. It was made at the expression
    that uses the component, and the entries below it at the calls that stay. -/
theorem Lined.close {function : RenderFunction} {isStatic : Bool} {stays : Id → Bool}
    (h : Lined engine functions events walk)
    (hframes : walk.frames = .component boundary pairs :: rest)
    (hderived : Derived boundary.own (walk.builder.childSlots.filter stays) function)
    (hrest : after.frames = rest) (hevolves : walk.program.Evolves after.program)
    (hbuilder : after.builder = walk.builder.close boundary.slot function isStatic stays)
    (hsynthesizer : after.synthesizer.Sound)
    (hengine : engine.function? after.engine = engine.function? walk.engine) :
    Lined engine functions events after := by
  rcases hwalk : walk.builder with ⟨entries, root⟩
  have hboundaries : walk.boundaries = boundary :: after.boundaries := by
    rw [boundaries, boundaries, hframes, hrest]
    rfl
  have hopened := (h.evolve hevolves).entries
  have hapart := h.apart
  have hroot := h.root
  rw [show boundaries { walk with program := after.program } = walk.boundaries from rfl,
    hboundaries, hwalk] at hopened
  rw [taken, hboundaries, hwalk] at hapart
  rw [hwalk] at hderived hbuilder hroot
  cases hopened with
  | @cons _ entry _ others hentry hothers =>
      rcases hentry.uses with ⟨component, huses, hname, hown⟩
      have hmade : Made engine functions events boundary.slot
          { component := entry.component, function, isStatic,
            styles := (Builder.settle stays entry.styles entry.children).1,
            children := (Builder.settle stays entry.styles entry.children).2 } := by
        have hcalls : Builder.childSlots ⟨entry :: others, root⟩ = entry.children.map (·.1) := rfl
        rw [hcalls, List.filter_map] at hderived
        refine .mk huses hname hown hderived ?_ fun i call child hcall hchild => ?_
        · dsimp only
          rw [Builder.settle_children, List.length_map, List.length_map]
          rfl
        · rw [Builder.settle_children] at hchild
          rw [List.getElem?_map] at hcall hchild
          rcases Option.map_eq_some_iff.mp hcall with ⟨pair, hpair, rfl⟩
          rcases Option.map_eq_some_iff.mp hchild with ⟨pair', hpair', rfl⟩
          cases hpair.symm.trans hpair'
          exact hentry.children pair (List.mem_filter.mp (List.mem_of_getElem? hpair)).1
      refine ⟨?_, ?_, ?_, hsynthesizer, hengine.trans h.functions⟩
      · rw [hbuilder]
        cases others with
        | nil =>
            rw [List.forall₂_nil_right_iff.mp hothers]
            exact .nil
        | cons parent others =>
            rcases List.forall₂_cons_right_iff.mp hothers with
              ⟨outer, around, hparent, hothers, hsame⟩
            rw [hsame]
            refine .cons ⟨hparent.uses, hparent.copy, fun child hchild => ?_⟩ hothers
            rcases List.mem_append.mp hchild with hchild | hchild
            · exact hparent.children child hchild
            · rw [List.mem_singleton.mp hchild]
              exact hmade
      · rw [taken, hbuilder]
        cases others with
        | nil =>
            rw [List.forall₂_nil_right_iff.mp hothers]
            exact List.nodup_nil
        | cons parent others =>
            -- The expression of the component is one of the children of the entry around.
            let slots (entry : OpenEntry) : List Id := entry.children.map (·.1)
            have hsub : List.Sublist
                (boundary.slot :: (after.boundaries.map (·.slot) ++
                  (slots parent ++ others.flatMap slots)))
                (boundary.slot :: after.boundaries.map (·.slot) ++
                  (slots entry ++ (slots parent ++ others.flatMap slots))) :=
              ((List.Sublist.refl _).append (List.sublist_append_right _ _)).cons_cons _
            have hnodup := hapart.sublist hsub
            rw [← List.append_assoc] at hnodup
            have hperm : (after.boundaries.map (·.slot) ++ slots parent ++
                boundary.slot :: others.flatMap slots).Nodup :=
              List.perm_middle.nodup_iff.mpr hnodup
            have hslots : slots { parent with children := parent.children ++ [(boundary.slot,
                { component := entry.component, function, isStatic,
                  styles := (Builder.settle stays entry.styles entry.children).1,
                  children := (Builder.settle stays entry.styles entry.children).2 })] } =
                slots parent ++ [boundary.slot] := List.map_append
            have hlast : (slots parent ++ [boundary.slot]) ++ others.flatMap slots =
                slots parent ++ boundary.slot :: others.flatMap slots := by
              rw [List.append_assoc]
              rfl
            rw [List.append_assoc, ← hlast, ← hslots] at hperm
            exact hperm
      · intro tree htree
        rw [hbuilder] at htree
        cases others with
        | nil =>
            cases root with
            | none =>
                cases htree
                exact ⟨_, hmade⟩
            | some first =>
                cases htree
                exact hroot _ rfl
        | cons parent others => exact hroot tree htree

theorem Lined.childSlots_nodup (h : Lined engine functions events walk) :
    walk.builder.childSlots.Nodup := by
  have hapart := (List.nodup_append.mp h.apart).2.1
  unfold Builder.childSlots
  split
  · exact List.nodup_nil
  · next entry others hentries =>
      rw [hentries, List.flatMap_cons] at hapart
      exact (List.nodup_append.mp hapart).1

theorem childSlots_lt {builder : Builder} {size : Nat} (h : builder.Bounded size) :
    ∀ call ∈ builder.childSlots, call < size := by
  intro call hcall
  unfold Builder.childSlots at hcall
  split at hcall
  · exact absurd hcall List.not_mem_nil
  · next entry others hentries =>
      rcases List.mem_map.mp hcall with ⟨child, hchild, rfl⟩
      exact h entry (hentries ▸ List.mem_cons_self) child hchild

/-- The calls that stay are numbered in the order of the entries, and the
    function is printed and read. If it is dropped, the component keeps its
    own. -/
theorem leaveRewritten_lined {function : Id} (h : Lined engine functions events walk)
    (hplanted : walk.program.Planted) (hbounded : walk.builder.Bounded walk.program.arena.size)
    (hframes : walk.frames = .component boundary pairs :: rest)
    (hfunction : walk.program.findings.function? boundary.slot = some function) :
    Leads (leaveRewritten engine boundary function)
      { walk with frames := rest, active := boundary.around }
      (fun _ => Lined engine functions events) (Lined engine functions events) := by
  rcases hplanted.forest with ⟨roots, hforest, hroots⟩
  have htree := hforest.isTree (hroots _ _ hfunction)
  have hlt : function < walk.program.arena.size := (hforest.mem (hroots _ _ hfunction)).2
  have hcopy : Program.CopyOf boundary.own walk.program.arena function := by
    have hentries := h.entries
    rw [boundaries, hframes] at hentries
    rcases List.forall₂_cons_left_iff.mp hentries with ⟨entry, others, hentry, -, -⟩
    rcases hentry.copy with ⟨found, hfound, hcopy⟩
    cases hfunction.symm.trans hfound
    exact hcopy
  unfold leaveRewritten
  rw [leads_bind, leads_get]
  dsimp only
  rw [leads_bind, leads_onProgram, leads_bind, leads_get, leads_bind, leads_onSynthesizer]
  dsimp only
  have htends := Program.placeAll_tends hplanted.valid hlt walk.builder.childSlots
    (!walk.options.hoistStyles)
  rcases (htends.planted hplanted).forest with ⟨roots', hforest', hroots'⟩
  have htree' := hforest'.isTree (hroots' _ _ hfunction)
  have hedits : Program.Edits walk.program.arena
      (Program.placeAll (Program.survivors walk.program.arena function walk.builder.childSlots)
        (!walk.options.hoistStyles) walk.program.arena 0 walk.builder.childSlots) :=
    Program.placeAll_edits
  have hsynthesized := Synthesizer.synthesize_sound h.synthesizer engine
    (Program.placeAll (Program.survivors walk.program.arena function walk.builder.childSlots)
      (!walk.options.hoistStyles) walk.program.arena 0 walk.builder.childSlots) function
    boundary.inst
  split
  · next rewritten hrewritten =>
      have hprinted := hsynthesized.2 rewritten hrewritten
      refine h.close hframes (.rewritten ⟨hcopy.edit hedits, htree', hprinted,
        fun i call path hcall hpath helement => ?_⟩) rfl ⟨hedits, fun _ => rfl⟩ rfl
        hsynthesized.1 rfl
      exact Program.numbered_of_path hplanted.valid htree h.childSlots_nodup
        (childSlots_lt hbounded) hcall hpath helement
  · exact h.close hframes (.kept rfl) rfl ⟨hedits, fun _ => rfl⟩ rfl hsynthesized.1 rfl

/-- A component is left, and its entry is closed with the function that was
    decided on. -/
theorem leaveComponent_lined (h : Lined engine functions events walk)
    (hplanted : walk.program.Planted) (hbounded : walk.builder.Bounded walk.program.arena.size)
    (hframes : walk.frames = .component boundary pairs :: rest) :
    Leads (leaveComponent engine boundary) { walk with frames := rest }
      (fun _ => Lined engine functions events) (Lined engine functions events) := by
  have hkept : Lined engine functions events
      { walk with
        frames := rest
        active := boundary.around
        builder := walk.builder.close boundary.slot boundary.own false fun _ => true } :=
    h.close hframes (.kept rfl) rfl (.refl _) rfl h.synthesizer rfl
  unfold leaveComponent
  rw [leads_bind, leads_modify, leads_bind, leads_get]
  dsimp only
  split
  · next text htext =>
      rcases Synthesizer.literal_spec h.synthesizer text with ⟨function, hread, htree, hsound⟩
      unfold leaveStatic
      rw [leads_bind, leads_onSynthesizer]
      dsimp only
      rw [hread]
      dsimp only
      rw [leads_bind, leads_onProgram, leads_bind, leads_get]
      exact h.close hframes (.literal htree) rfl Program.evolves_foldToLiteral rfl hsound rfl
  · split
    · exact hkept
    · next function hfunction =>
        split
        · exact hkept
        · exact leaveRewritten_lined h hplanted hbounded hframes hfunction

/-- Closing a frame keeps the entries in order. -/
theorem finish_lined (h : Lined engine functions events walk) (hplanted : walk.program.Planted)
    (hbounded : walk.builder.Bounded walk.program.arena.size)
    (hframes : walk.frames = frame :: rest) :
    Leads (finish engine frame) { walk with frames := rest }
      (fun _ => Lined engine functions events) (Lined engine functions events) := by
  cases frame with
  | element slot closing pairs =>
      have hboundaries : boundaries { walk with frames := rest } = walk.boundaries := by
        rw [boundaries, boundaries, hframes]
        rfl
      have hclosed : Lined engine functions events { walk with frames := rest } :=
        h.of_eq rfl hboundaries rfl rfl rfl
      exact hclosed.evolve Program.evolves_foldLevel
  | group slot pairs =>
      have hboundaries : boundaries { walk with frames := rest } = walk.boundaries := by
        rw [boundaries, boundaries, hframes]
        rfl
      have hclosed : Lined engine functions events { walk with frames := rest } :=
        h.of_eq rfl hboundaries rfl rfl rfl
      exact hclosed.evolve Program.evolves_foldGroup
  | component boundary pairs => exact leaveComponent_lined h hplanted hbounded hframes

end Finish

section Moves

variable {options : Options} {root : Twin View} {state : Engine.State}
  {out : Option Suspension}

/-- What a walk waits for depends on nothing but its program, its frames and its
    entries. -/
theorem Expects.of_eq {suspension : Suspension} (h : Expects engine functions events walk suspension)
    (hprogram : after.program = walk.program) (hframes : after.frames = walk.frames)
    (hbuilder : after.builder = walk.builder) :
    Expects engine functions events after suspension := by
  have htaken : after.taken = walk.taken := by
    rw [taken, taken, boundaries, boundaries, hframes, hbuilder]
  cases h with
  | component h =>
      refine .component ⟨htaken ▸ h.fresh, h.uses, ?_, ?_⟩
      · rw [hprogram]
        exact h.found
      · rw [hprogram]
        exact h.copy
  | deferred hfresh hview hevent => exact .deferred (htaken ▸ hfresh) hview hevent

theorem Expects.mono {suspension : Suspension} (hsub : events ⊆ events')
    (h : Expects engine functions events walk suspension) :
    Expects engine functions events' walk suspension := by
  cases h with
  | component h =>
      rcases h.uses with ⟨component, huses, hname, hown⟩
      exact .component ⟨h.fresh, ⟨component, huses.mono hsub, hname, hown⟩, h.found, h.copy⟩
  | deferred hfresh hview hevent =>
      rcases hevent with ⟨active, hevent⟩
      exact .deferred hfresh hview ⟨active, hsub hevent⟩

/-- The entries are in order, and so is the suspension that was handed out or is
    kept back. -/
def Attends (engine : Engine) (functions : Component → Option RenderFunction)
    (events : List Event) (out : Option Suspension) (walk : Walk) : Prop :=
  Lined engine functions events walk ∧
    ∀ suspension, out = some suspension ∨ walk.pause = .parked suspension →
      Expects engine functions events walk suspension

theorem Lined.attends (h : Lined engine functions events walk) (hpause : walk.pause = .going) :
    Attends engine functions events none walk := by
  refine ⟨h, fun suspension hout => ?_⟩
  rcases hout with hout | hparked
  · cases hout
  · rw [hpause] at hparked
    cases hparked

/-- Hooks add to the scope of an instance and leave the component as it is. -/
theorem prefetch_component {inst after : Instance}
    (h : (Engine.prefetch inst).value = .ok after) : after.component = inst.component := by
  have hmerge : ∀ (results : List Value) (inst : Instance),
      (results.foldl Instance.merge inst).component = inst.component := by
    intro results
    induction results with
    | nil => exact fun _ => rfl
    | cons result rest ih => exact fun inst => ih (inst.merge result)
  unfold Engine.prefetch Delayed.map at h
  dsimp only at h
  split at h
  · cases h
    exact hmerge _ inst
  · cases h

/-- A component whose hooks have run opens its entry. -/
theorem resumeComponent_lined {resolved : Resolved} {continuation : Continuation}
    {next : Engine.State} (h : Lined engine functions events walk)
    (hentrant : Entrant engine functions events walk pending) (hpause : walk.pause = .waiting)
    (hawait : (Suspension.component pending).await engine walk.engine =
      (.ok resolved, continuation, next)) :
    Leads (resume engine continuation resolved) { walk with engine := next }
      (fun _ => Attends engine functions events none)
      (Attends engine functions events none) := by
  rcases hboth : Engine.prefetchBoth pending.instances.static pending.instances.dynamic with
    ⟨_ | _, static, dynamic⟩
  · simp only [Suspension.await, hboth, Except.map, Prod.mk.injEq, reduceCtorEq, false_and] at hawait
  · simp only [Suspension.await, hboth, Except.map, Prod.mk.injEq, Except.ok.injEq] at hawait
    rcases hawait with ⟨rfl, rfl, rfl⟩
    have hcomponent := prefetch_component (Engine.prefetchBoth_ok hboth).1
    unfold resume
    rw [leads_bind, leads_get]
    dsimp only
    rw [hpause]
    dsimp only
    rw [leads_bind, leads_modify]
    have hgoing : Lined engine functions events { walk with pause := .going } :=
      h.of_eq rfl rfl rfl rfl rfl
    have hentering : Entrant engine functions events { walk with pause := .going }
        { pending with instances := ⟨static, dynamic⟩ } := by
      refine ⟨hentrant.fresh, ?_, hentrant.found, hentrant.copy⟩
      rcases hentrant.uses with ⟨component, huses, hname, hown⟩
      exact ⟨component, huses, (congrArg Component.name hcomponent).trans hname, hown⟩
    exact leads_mono ((enterComponent_steady _).leads (enterComponent_lined hgoing hentering))
      (fun _ _ hlast => hlast.1.attends hlast.2) fun _ hlast => hlast.1.attends hlast.2

/-- Async components that have resolved are compared by what they resolved
    to. -/
theorem resumeDeferred_lined {data : Twin NodeData} {asked : Twin Engine.Asked}
    {id id' : FactoryId} {resolved : Resolved} {continuation : Continuation} {next : Engine.State}
    (h : Lined engine functions events walk) (hfresh : pair.slot ∉ walk.taken)
    (hview : pair.view = ⟨.deferred id data.static, .deferred id' data.dynamic⟩)
    (hevent : ∃ active, .compared pair active ∈ events) (hpause : walk.pause = .waiting)
    (hawait : (Suspension.deferred pair data asked).await engine walk.engine =
      (.ok resolved, continuation, next))
    (hevents : resumeTrail { walk with engine := next } continuation resolved ⊆ events) :
    Leads (resume engine continuation resolved) { walk with engine := next }
      (fun _ => Attends engine functions events none)
      (Attends engine functions events none) := by
  have hretains := engine.resolveBoth_retains asked.static asked.dynamic walk.engine
  simp only [Suspension.await] at hawait
  split at hawait
  · next static dynamic state hboth =>
      rw [hboth] at hretains
      simp only [Prod.mk.injEq, Except.ok.injEq] at hawait
      rcases hawait with ⟨rfl, rfl, rfl⟩
      have hgoing : Lined engine functions events
          { walk with engine := state, pause := .going } :=
        h.of_eq rfl rfl rfl rfl (Engine.function?_of_templates hretains)
      have hleads : Leads (compareResolved engine (Walk.compare engine maxChain) pair data
          ⟨static, dynamic⟩) { walk with engine := state, pause := .going }
          (Lines engine functions events) (Lined engine functions events) :=
        compareResolved_lined ⟨static, dynamic⟩ hgoing hfresh hview hevent hevents
          fun view hsub => compare_lined maxChain hgoing hfresh hsub
      have hsteady : Steady (compareResolved engine (Walk.compare engine maxChain) pair data
          ⟨static, dynamic⟩) := compareResolved_steady (compare_steady maxChain) _ _ _
      unfold resume
      rw [leads_bind, leads_get]
      dsimp only
      rw [hpause]
      dsimp only
      rw [leads_bind, leads_modify, leads_bind]
      refine leads_mono (hsteady.leads hleads) (fun out last hlast => ?_) fun last hlast => ?_
      · rcases hlast with ⟨⟨hlined, hexpects⟩, hafter⟩
        cases out with
        | none => exact hlined.attends hafter
        | some suspension =>
            refine ⟨hlined.of_eq rfl rfl rfl rfl rfl, fun parked hout => ?_⟩
            rcases hout with hout | hparked
            · cases hout
            · cases hparked
              exact (hexpects suspension rfl).of_eq rfl rfl rfl
      · exact hlast.1.attends hlast.2
  · simp only [Prod.mk.injEq, reduceCtorEq, false_and] at hawait

/-- No entry is open when a walk starts. -/
theorem start_lined (options : Options) (root : Twin View) (state : Engine.State) :
    Lined engine (engine.function? state) [] (.start options root state) where
  entries := .nil
  apart := List.nodup_nil
  root _ htree := by cases htree
  synthesizer := Synthesizer.new_sound _
  functions := rfl

/-- No entry was made at the next pair. -/
theorem Idle.fresh {comments : Bool} {frame : Frame} {rest : List Frame} {left : Pairs}
    (hidle : Idle engine functions comments events walk) (h : Lined engine functions events walk)
    (hframes : walk.frames = frame :: rest) (hnext : frame.pairs.next? = some (pair, left)) :
    pair.slot ∉ walk.taken := by
  rcases hidle.stacked with ⟨inner, hstacked⟩
  rw [hframes] at hstacked
  rcases hstacked.next hnext with ⟨span, hspan, -, hout, -⟩
  exact fun hin => hout _ (hspan.subset List.mem_cons_self) (h.taken_used _ hin)

/-- The entries that are open belong to the components that a walk is inside of,
    in every state that it can be in. -/
theorem Reaches.lined (h : Reaches engine (.start options root state) events out walk) :
    Attends engine (engine.function? state) events out walk := by
  induction h with
  | start => exact (start_lined options root state).attends rfl
  | @compare events walk frame rest pair left outcome after h hpause hframes hnext hleaves ih =>
      have hidle := Rests.idle (h.sound (start_idle options root state) rfl) hpause
      have hfresh := hidle.fresh ih.1 hframes hnext
      have hboundaries : boundaries { walk with frames := frame.withPairs left :: rest } =
          walk.boundaries := by
        rw [boundaries, boundaries, hframes, List.filterMap_cons, List.filterMap_cons,
          Frame.boundary?_withPairs]
      have hlined : Lined engine (engine.function? state)
          (events ++ trail walk.cached walk.active maxChain pair)
          { walk with frames := frame.withPairs left :: rest } :=
        (ih.1.mono (List.subset_append_left events _)).of_eq rfl hboundaries rfl rfl rfl
      have hfresh' : pair.slot ∉ taken { walk with frames := frame.withPairs left :: rest } := by
        rw [taken, hboundaries]
        exact hfresh
      have hleads := (compare_steady maxChain pair).leads
        (compare_lined maxChain hlined hfresh' (List.subset_append_right events _))
      cases hleaves with
      | ok hwork =>
          rename_i found
          rcases leads_ok hleads hwork with ⟨⟨hafter, hexpects⟩, hsteady⟩
          cases found with
          | none => exact hafter.attends (hsteady.trans hpause)
          | some suspension =>
              refine ⟨hafter.of_eq rfl rfl rfl rfl rfl, fun other hout => ?_⟩
              rcases hout with hout | hparked
              · cases hout
                exact (hexpects suspension rfl).of_eq rfl rfl rfl
              · cases hparked
      | error hwork =>
          rcases leads_error hleads hwork with ⟨hafter, hsteady⟩
          exact hafter.attends (hsteady.trans hpause)
  | @finish events walk frame rest outcome after h hpause hframes hnext hleaves ih =>
      have htended := h.tended.1
      have hleads := (finish_steady frame).leads
        (finish_lined ih.1 htended.planted htended.builder hframes)
      cases hleaves with
      | ok hwork =>
          rcases leads_ok hleads hwork with ⟨hafter, hsteady⟩
          exact hafter.attends (hsteady.trans hpause)
      | error hwork =>
          rcases leads_error hleads hwork with ⟨hafter, hsteady⟩
          exact hafter.attends (hsteady.trans hpause)
  | @handOut events walk suspension h hpause ih =>
      refine ⟨ih.1.of_eq rfl rfl rfl rfl rfl, fun other hout => ?_⟩
      rcases hout with hout | hparked
      · cases hout
        exact (ih.2 suspension (Or.inr hpause)).of_eq rfl rfl rfl
      · cases hparked
  | @resume events walk suspension resolved continuation next outcome after h hawait hleaves ih =>
      have hpause := h.tended.1
      have hsub := List.subset_append_left events
        (resumeTrail { walk with engine := next } continuation resolved)
      have hlined := ih.1.mono hsub
      have hleads : Leads (Walk.resume engine continuation resolved) { walk with engine := next }
          (fun _ => Attends engine (engine.function? state)
            (events ++ resumeTrail { walk with engine := next } continuation resolved) none)
          (Attends engine (engine.function? state)
            (events ++ resumeTrail { walk with engine := next } continuation resolved) none) := by
        cases (ih.2 suspension (Or.inl rfl)).mono hsub with
        | component hentrant => exact resumeComponent_lined hlined hentrant hpause hawait
        | deferred hfresh hview hevent =>
            exact resumeDeferred_lined hlined hfresh hview hevent hpause hawait
              (List.subset_append_right events _)
      cases hleaves with
      | ok hwork =>
          have hafter := leads_ok hleads hwork
          exact hafter
      | error hwork => exact leads_error hleads hwork
  | @fail events walk suspension e continuation next h hawait ih =>
      have hpause := h.tended.1
      have hengine : engine.function? next = engine.function? walk.engine := by
        cases suspension with
        | component pending =>
            simp only [Suspension.await, Prod.mk.injEq] at hawait
            rw [← hawait.2.2]
        | deferred pair data asked =>
            have hretains := engine.resolveBoth_retains asked.static asked.dynamic walk.engine
            simp only [Suspension.await] at hawait
            split at hawait
            · cases hawait
            · next e' state' hboth =>
                rw [hboth] at hretains
                cases hawait
                exact Engine.function?_of_templates hretains
      refine ⟨ih.1.of_eq rfl rfl rfl rfl hengine, fun other hout => ?_⟩
      rcases hout with hout | hparked
      · cases hout
      · cases hpause.symm.trans hparked

end Moves

end Walk

end RenderFold
