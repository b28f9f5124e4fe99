import RenderFold.Proofs.Folding.Lined
import RenderFold.Proofs.Folding.Planted

/-!
# Components Stand Side by Side

The expressions that use components are taken one after another while a walk
goes down. None of them stands below another: when a node is compared its
expression gives way to those of its children, and when it is a component its
own expression stays and the walk goes on in a copy of its render function.
So the trees below the expressions of all components that were entered have
no part in common, nor have they with those that are still ahead.

## Main definitions

* `Walk.ahead`: The expressions of the pairs that are still to be compared.
* `Walk.Spread`: What is taken and what is ahead stands side by side.

## Theorems

* `Walk.compare_spread`, `Walk.finish_spread`: What a move does to it.
* `Walk.Reaches.spread`: It always does.
-/

namespace RenderFold

open Script (Arena Id)
open Script.Arena (Forest KeepsForests)

namespace Program

variable {program after : Program} {slot function : Id} {ids rest : List Id}

/-- New expressions stand beside those that were there. -/
theorem Adds.forest (h : program.Adds ids after) (hforest : Forest Set.univ program.arena rest) :
    Forest Set.univ after.arena (ids ++ rest) :=
  Forest.beside h.grown hforest (.of_extends h.keeps) fun _ _ => trivial

/-- The expressions of the children take the place of the expression of the
    node. -/
theorem correlate_forest (h : Forest Set.univ program.arena (slot :: rest)) (count : Nat) :
    Forest Set.univ (program.correlate slot count).2.arena
      ((program.correlate slot count).1 ++ rest) := by
  unfold correlate
  dsimp only
  split
  · next elements hfound =>
      rcases Option.filter_eq_some_iff.mp hfound with ⟨hbind, -⟩
      rcases Option.bind_eq_some_iff.mp hbind with ⟨array, harray, helements⟩
      have hpart := Script.Arena.arguments_subset program.arena slot
        (Script.Arena.childArray?_mem_arguments harray)
      rcases h with ⟨_, hspans, hnodup, -⟩
      rcases hspans.of_cons with ⟨span, others, hspan, hothers, rfl⟩
      rcases Script.Arena.elements_spans hspan hpart helements with ⟨inner, hinner, hsub⟩
      refine ⟨inner ++ others, hinner.append hothers, hnodup.sublist ?_, fun _ _ => trivial⟩
      exact (hsub.trans (List.tail_sublist span)).append_right others
  · exact (pushHoles_adds count (program.markUnmatched slot)).1.forest
      (h.subperm (List.sublist_cons_self slot rest).subperm)

/-- The expression that a function returns takes the place of the function. -/
theorem locateRoot_forest (h : Forest Set.univ program.arena (function :: rest)) :
    Forest Set.univ (program.locateRoot function).2.arena
      ((program.locateRoot function).1 :: rest) := by
  unfold locateRoot
  split
  · next found hfound =>
      rcases h with ⟨_, hspans, hnodup, -⟩
      rcases hspans.of_cons with ⟨span, others, hspan, hothers, rfl⟩
      rcases Script.Arena.singleReturn?_spans hspan hfound with ⟨inner, hinner, hsub⟩
      refine ⟨inner ++ others, hinner.append hothers, ?_, fun _ _ => trivial⟩
      exact hnodup.sublist (hsub.append_right others)
  · exact (pushHole_adds (program.markUnmatched function)).forest
      (h.subperm (List.sublist_cons_self function rest).subperm)

end Program

namespace Walk

variable {engine : Engine} {walk after : Walk} {program : Program} {slot : Id} {ids ids' : List Id}
  {frame : Frame} {rest : List Frame} {pair : Pair} {pending : Pending}

/-- The expressions of the pairs that are still to be compared. -/
def ahead (walk : Walk) : List Id :=
  walk.frames.flatMap fun frame => frame.pairs.left.map (·.slot)

/-- The trees below `ids`, below the expressions at which entries have been made
    or opened, and below those that are ahead have no part in common. -/
def Spread (walk : Walk) (ids : List Id) : Prop :=
  Forest Set.univ walk.program.arena (ids ++ (walk.taken ++ walk.ahead))

/-- The expressions that are kept for what a walk waits for. -/
def keptFor : Option Suspension → List Id
  | none => []
  | some suspension => suspension.ids

namespace Spread

/-- Expressions may be left out or come in another order. -/
theorem subperm (h : walk.Spread ids) (hsub : ids'.Subperm ids) : walk.Spread ids' :=
  Forest.subperm h (hsub.append (.refl _))

theorem drop (h : walk.Spread ids) : walk.Spread [] := h.subperm (List.nil_sublist ids).subperm

/-- Editing the arena so that every forest stays one. -/
theorem edit (h : walk.Spread ids) (hkeeps : KeepsForests walk.program.arena program.arena) :
    Spread { walk with program } ids := hkeeps.forest h

/-- Nothing counts but the program, the frames and the entries. -/
theorem of_eq (h : walk.Spread ids) (hprogram : after.program = walk.program)
    (hframes : after.frames = walk.frames) (hbuilder : after.builder = walk.builder) :
    after.Spread ids := by
  rw [Spread, taken, boundaries, ahead, hprogram, hframes, hbuilder]
  exact h

/-- A frame is opened for what stands beside the rest. -/
theorem push (h : walk.Spread (frame.pairs.left.map (·.slot)))
    (hboundary : frame.boundary? = none) :
    Spread { walk with frames := frame :: walk.frames } [] := by
  have hboundaries : boundaries { walk with frames := frame :: walk.frames } = walk.boundaries := by
    rw [boundaries, List.filterMap_cons, hboundary, boundaries]
  rw [Spread, taken, hboundaries, ahead, List.flatMap_cons, List.nil_append]
  refine Forest.perm h ?_
  rw [← List.append_assoc, ← List.append_assoc]
  exact List.perm_append_comm.append_right _

end Spread

section Compare

/-- The children of a node are compared next. -/
theorem descend_spread {closing : String} {children : Twin (List View)} (h : walk.Spread [slot])
    (hlength : children.static.length = children.dynamic.length) :
    Leads (descend slot closing children) walk (fun _ after => after.Spread [])
      (fun after => after.Spread []) := by
  unfold descend
  rw [leads_bind, leads_fromProgram, leads_bind, leads_get, leads_pushFrame]
  have hforest := Program.correlate_forest h children.static.length
  have hcount := walk.program.length_correlate slot children.static.length
  generalize walk.program.correlate slot children.static.length = correlated at hforest hcount ⊢
  rcases correlated with ⟨slots, program⟩
  rcases zipPairs_spec (elementContext { walk with program })
    ((Twin.length_zipWith hlength).trans hcount.symm) with ⟨hslots, -, -⟩
  have hspread : Spread { walk with program } slots := hforest
  exact Spread.push (hslots.symm ▸ hspread) rfl

theorem compareFragments_spread {opening closing : Twin String} {children : Twin (List View)}
    (h : walk.Spread [slot]) :
    Leads (compareFragments slot opening closing children) walk (fun _ after => after.Spread [])
      (fun after => after.Spread []) := by
  unfold compareFragments
  split
  · dsimp only
    split
    · exact h.drop.edit (.refl _)
    · exact h.drop
  · split
    · next hsame =>
        simp only [Bool.and_eq_true, decide_eq_true_eq] at hsame
        rw [leads_bind, leads_onProgram]
        exact descend_spread (h.edit (.refl _)) hsame.1.1
    · exact h.drop

theorem recordText_keepsForests (program : Program) (slot : Id) (static dynamic : Option String) :
    KeepsForests program.arena (program.recordText slot static dynamic).arena := by
  unfold Program.recordText
  split
  · split
    · exact .refl _
    · exact .refl _
  · exact .refl _

theorem compareElements_spread {tag : String} {data : Twin NodeData} {children : Twin (List View)}
    (h : walk.Spread [pair.slot]) :
    Leads (compareElements engine pair tag data children) walk (fun _ after => after.Spread [])
      (fun after => after.Spread []) := by
  have hrecord (static dynamic : Option String) :
      Spread { walk with program := walk.program.recordText pair.slot static dynamic } [] :=
    h.drop.edit (recordText_keepsForests ..)
  unfold compareElements
  dsimp only
  split
  · exact hrecord _ _
  · split
    · split
      · exact hrecord _ _
      · split
        · next hlength =>
            split
            · rw [leads_bind, leads_onProgram]
              exact descend_spread (h.edit (.refl _)) hlength
            · exact descend_spread h hlength
        · exact h.drop
    · split
      · exact h.drop.edit (.refl _)
      · exact h.drop
    · exact h.drop

/-- A component is entered. Its expression is taken, and its root is ahead. -/
theorem enterComponent_spread (h : walk.Spread [pending.slot, pending.function]) :
    Leads (enterComponent engine pending) walk (fun _ after => after.Spread [])
      (fun after => after.Spread []) := by
  unfold enterComponent
  rw [leads_bind, leads_ofExcept]
  split
  · rw [leads_bind, leads_ofExcept]
    split
    · rw [leads_bind, leads_fromProgram, leads_bind, leads_get]
      dsimp only
      rw [leads_bind, leads_modify, leads_pushFrame]
      have hfunction := Forest.perm h (List.Perm.swap pending.function pending.slot _)
      have hroot := Program.locateRoot_forest hfunction
      -- The root comes behind what has been taken.
      exact hroot.perm (@List.perm_middle Id _ (pending.slot :: walk.taken) walk.ahead).symm
    · exact h.drop
  · exact h.drop

/-- Two components are compared. The copy of the function stands beside
    everything else. -/
theorem compareComponents_spread {component : Twin Component} {data : Twin NodeData}
    (h : walk.Spread [pair.slot]) :
    Leads (compareComponents engine pair component data) walk
      (fun out after => after.Spread (keptFor out)) (fun after => after.Spread []) := by
  unfold compareComponents
  split
  · exact h.drop
  · rw [leads_bind, leads_get]
    dsimp only
    rw [leads_bind, leads_onEngine]
    split
    · next own state hown =>
        rw [leads_bind, leads_onEngine]
        split
        · next own' state' hown' =>
            rw [leads_bind, leads_fromProgram]
            rcases own.1.isTree with ⟨tree, htree, hnodup⟩
            have hgrown := Script.Arena.graft_grown walk.program.arena htree hnodup
            have hext := Script.Arena.graft_extends walk.program.arena own.1.arena own.1.root
            have hforest : Forest Set.univ (walk.program.arena.graft own.1.arena own.1.root).2
                ([(walk.program.arena.graft own.1.arena own.1.root).1] ++
                  ([pair.slot] ++ (walk.taken ++ walk.ahead))) :=
              Forest.beside hgrown h (.of_extends hext) fun _ _ => trivial
            have hspread (pending : Pending) (hslot : pending.slot = pair.slot)
                (hfunction : pending.function =
                  (walk.program.arena.graft own.1.arena own.1.root).1) : Spread
                { walk with
                  engine := state'
                  program := ⟨(walk.program.arena.graft own.1.arena own.1.root).2,
                    walk.program.findings.setFunction pair.slot
                      (walk.program.arena.graft own.1.arena own.1.root).1⟩ }
                [pending.slot, pending.function] := by
              rw [hslot, hfunction]
              exact Forest.perm hforest (List.Perm.swap pair.slot _ _)
            dsimp only
            split
            · exact hspread _ rfl rfl
            · rw [leads_bind]
              exact enterComponent_spread (hspread _ rfl rfl)
        · exact h.drop.of_eq rfl rfl rfl
    · exact h.drop.of_eq rfl rfl rfl

theorem compareResolved_spread {compare : Pair → Walking (Option Suspension)}
    {data : Twin NodeData} (resolutions : Twin Resolution) (h : walk.Spread [pair.slot])
    (hcompare : ∀ view, Leads (compare { pair with view }) walk
      (fun out after => after.Spread (keptFor out)) (fun after => after.Spread [])) :
    Leads (compareResolved engine compare pair data resolutions) walk
      (fun out after => after.Spread (keptFor out)) (fun after => after.Spread []) := by
  unfold compareResolved
  split
  · exact compareComponents_spread h
  · exact hcompare _
  · split
    · next static dynamic _ _ hlength =>
        rw [leads_bind, leads_fromProgram, leads_bind, leads_pushFrame]
        rcases Program.pushHoles_adds static.length walk.program with ⟨hadds, hcount⟩
        generalize Program.pushHoles static.length walk.program = pushed at hadds hcount ⊢
        rcases pushed with ⟨slots, program⟩
        rcases zipPairs_spec pair.context ((Twin.length_zipWith hlength).trans hcount.symm) with
          ⟨hslots, -, -⟩
        have hspread : Spread { walk with program } slots := hadds.forest h.drop
        exact Spread.push (hslots.symm ▸ hspread) rfl
    · exact h.drop
  · rw [leads_bind, leads_onProgram]
    exact h.drop.edit (.refl _)

/-- Comparing a pair takes its expression, or leaves it out. -/
theorem compare_spread (depth : Nat) : ∀ {pair : Pair}, walk.Spread [pair.slot] →
    Leads (compare engine depth pair) walk (fun out after => after.Spread (keptFor out))
      (fun after => after.Spread []) := by
  induction depth with
  | zero => exact fun h => h.drop
  | succ depth ih =>
      intro pair h
      unfold compare
      split
      · rw [leads_bind, leads_onProgram]
        exact h.drop.edit (recordText_keepsForests ..)
      · rw [leads_bind, leads_get]
        split
        · rw [leads_bind, leads_onProgram]
          exact h.drop.edit (.refl _)
        · exact h.drop
      · rw [leads_bind]
        exact compareFragments_spread h
      · split
        · rw [leads_bind]
          exact compareElements_spread h
        · exact h.drop
      · exact compareComponents_spread h
      · rw [leads_bind, leads_ask, leads_bind, leads_ask]
        split
        · exact compareResolved_spread _ h fun view => ih h
        · exact h
      · exact h.drop

end Compare

section Finish

variable {boundary : Boundary} {pairs : Pairs}

/-- When a component is left, its expression goes to the entry around, and those
    below it are given up. -/
theorem Spread.close {function : RenderFunction} {isStatic : Bool} {stays : Id → Bool}
    (h : walk.Spread []) (hframes : walk.frames = .component boundary pairs :: rest)
    (hrest : after.frames = rest)
    (hkeeps : KeepsForests walk.program.arena after.program.arena)
    (hbuilder : after.builder = walk.builder.close boundary.slot function isStatic stays) :
    after.Spread [] := by
  refine Forest.subperm (hkeeps.forest h) (List.subperm_ext_iff.mpr fun x _ => ?_)
  rcases hwalk : walk.builder with ⟨_ | ⟨entry, _ | ⟨parent, others⟩⟩, root⟩
  all_goals
    simp only [taken, boundaries, ahead, hframes, hrest, hbuilder, hwalk, Builder.close,
      Builder.attach, Frame.boundary?, List.filterMap_cons, List.flatMap_cons, List.flatMap_nil,
      List.map_cons, List.map_append, List.map_nil, List.nil_append, List.count_append,
      List.count_cons, List.count_nil, List.cons_append]
    omega

/-- A component is left. -/
theorem leaveComponent_spread (h : walk.Spread [])
    (hframes : walk.frames = .component boundary pairs :: rest) :
    Leads (leaveComponent engine boundary) { walk with frames := rest }
      (fun _ after => after.Spread []) (fun after => after.Spread []) := by
  have hdropped : Spread { walk with frames := rest, active := boundary.around } [] := by
    refine Forest.subperm h (List.subperm_ext_iff.mpr fun x _ => ?_)
    simp only [taken, boundaries, ahead, hframes, Frame.boundary?, List.filterMap_cons,
      List.flatMap_cons, List.map_cons, List.nil_append, List.count_append, List.count_cons,
      List.cons_append]
    omega
  unfold leaveComponent
  rw [leads_bind, leads_modify, leads_bind, leads_get]
  dsimp only
  split
  · unfold leaveStatic
    rw [leads_bind, leads_onSynthesizer]
    split
    · exact hdropped.of_eq rfl rfl rfl
    · rw [leads_bind, leads_onProgram, leads_bind, leads_get]
      exact h.close hframes rfl (Script.Arena.becomeLiteral_keepsForests ..) rfl
  · split
    · exact h.close hframes rfl (.refl _) rfl
    · split
      · exact h.close hframes rfl (.refl _) rfl
      · unfold leaveRewritten
        rw [leads_bind, leads_get]
        dsimp only
        rw [leads_bind, leads_onProgram, leads_bind, leads_get, leads_bind, leads_onSynthesizer]
        have hkeeps (survivors : List Id) := Program.placeAll_keepsForests survivors
          (!walk.options.hoistStyles) walk.builder.childSlots walk.program.arena 0
        split
        · exact h.close hframes rfl (hkeeps _) rfl
        · exact h.close hframes rfl (hkeeps _) rfl

/-- Closing a frame takes nothing. -/
theorem finish_spread (h : walk.Spread []) (htended : walk.Tended ∅)
    (hframes : walk.frames = frame :: rest) :
    Leads (finish engine frame) { walk with frames := rest } (fun _ after => after.Spread [])
      (fun after => after.Spread []) := by
  have hnested := htended.nested
  rw [hframes] at hnested
  have hdropped (hboundary : frame.boundary? = none) :
      Spread { walk with frames := rest } [] := by
    refine Forest.subperm h (List.subperm_ext_iff.mpr fun x _ => ?_)
    simp only [taken, boundaries, ahead, hframes, hboundary, List.filterMap_cons,
      List.flatMap_cons, List.nil_append, List.count_append]
    omega
  cases hnested with
  | cons hframe hrest =>
      cases frame with
      | element slot closing pairs =>
          rcases hframe.left with ⟨span, -, -, -, hfixed⟩
          exact (hdropped rfl).edit
            (Program.foldLevel_keepsForests (hfixed slot closing pairs rfl).isMatch closing)
      | group slot pairs => exact (hdropped rfl).edit (Program.foldGroup_keepsForests ..)
      | component boundary pairs => exact leaveComponent_spread h hframes

end Finish

section Moves

variable {events : List Event} {out : Option Suspension} {options : Options} {root : Twin View}
  {state : Engine.State}

/-- What is taken, what is ahead and what is kept for a suspension stands side
    by side. -/
def Scattered (walk : Walk) (out : Option Suspension) : Prop :=
  walk.Spread (keptFor out) ∧
    ∀ suspension, walk.pause = .parked suspension → walk.Spread suspension.ids

theorem Spread.scattered (h : walk.Spread []) (hpause : walk.pause = .going) :
    walk.Scattered none :=
  ⟨h, fun _ hparked => by rw [hpause] at hparked; cases hparked⟩

/-- The next pair is taken from its frame. -/
theorem Spread.next {left : Pairs} (h : walk.Spread []) (hframes : walk.frames = frame :: rest)
    (hnext : frame.pairs.next? = some (pair, left)) :
    Spread { walk with frames := frame.withPairs left :: rest } [pair.slot] := by
  rcases Frame.next?_eq_some hnext with ⟨hleft, -⟩
  refine Forest.subperm h (List.subperm_ext_iff.mpr fun x _ => ?_)
  simp only [taken, boundaries, ahead, hframes, hleft, Frame.boundary?_withPairs,
    Frame.pairs_withPairs, List.filterMap_cons, List.flatMap_cons, List.map_cons, List.nil_append,
    List.count_append, List.count_cons, List.cons_append]
  omega

/-- A walk that goes on after a pause takes what was kept for it. -/
theorem resume_spread {suspension : Suspension} {resolved : Resolved}
    {continuation : Continuation} {next : Engine.State} (h : walk.Spread suspension.ids)
    (hpause : walk.pause = .waiting)
    (hawait : suspension.await engine walk.engine = (.ok resolved, continuation, next)) :
    Leads (resume engine continuation resolved) { walk with engine := next }
      (fun _ last => last.Scattered none) (fun last => last.Scattered none) := by
  have hgoing : Spread { walk with engine := next, pause := .going } suspension.ids :=
    h.of_eq rfl rfl rfl
  unfold resume
  rw [leads_bind, leads_get]
  dsimp only
  rw [hpause]
  dsimp only
  rw [leads_bind, leads_modify]
  cases suspension with
  | component pending =>
      rcases hboth : Engine.prefetchBoth pending.instances.static pending.instances.dynamic with
        ⟨_ | _, static, dynamic⟩
      · simp only [Suspension.await, hboth, Except.map, Prod.mk.injEq, reduceCtorEq,
          false_and] at hawait
      · simp only [Suspension.await, hboth, Except.map, Prod.mk.injEq, Except.ok.injEq] at hawait
        rcases hawait with ⟨rfl, rfl, rfl⟩
        have hentered : Leads
            (enterComponent engine { pending with instances := ⟨static, dynamic⟩ })
            { walk with pause := .going } (fun _ last => last.Spread []) (fun last => last.Spread []) :=
          enterComponent_spread hgoing
        exact leads_mono ((enterComponent_steady _).leads hentered)
          (fun _ _ hlast => hlast.1.scattered hlast.2) fun _ hlast => hlast.1.scattered hlast.2
  | deferred pair data asked =>
      simp only [Suspension.await] at hawait
      split at hawait
      · next static dynamic state hboth =>
          simp only [Prod.mk.injEq, Except.ok.injEq] at hawait
          rcases hawait with ⟨rfl, rfl, rfl⟩
          have hsteady : Steady (compareResolved engine (compare engine maxChain) pair data
              ⟨static, dynamic⟩) := compareResolved_steady (compare_steady maxChain) _ _ _
          have hfacing : Spread { walk with engine := state, pause := .going } [pair.slot] := hgoing
          dsimp only
          rw [leads_bind]
          refine leads_mono (hsteady.leads (compareResolved_spread _ hfacing fun _ =>
            compare_spread maxChain hfacing)) (fun out last hlast => ?_) fun last hlast => ?_
          · cases out with
            | none => exact Spread.scattered hlast.1 hlast.2
            | some suspension =>
                have hkept : last.Spread suspension.ids := hlast.1
                refine ⟨hkept.drop.of_eq rfl rfl rfl, fun parked hparked => ?_⟩
                cases hparked
                exact hkept.of_eq rfl rfl rfl
          · exact Spread.scattered hlast.1 hlast.2
      · simp only [Prod.mk.injEq, reduceCtorEq, false_and] at hawait

/-- Nothing is taken when a walk starts, and the root is ahead. -/
theorem start_spread (options : Options) (root : Twin View) (state : Engine.State) :
    (start options root state).Spread [] :=
  Program.empty.pushHole_adds.forest (.nil _ _)

/-- What is taken and what is ahead stands side by side in every state that a
    walk can be in. -/
theorem Reaches.spread (h : Reaches engine (.start options root state) events out walk) :
    walk.Scattered out := by
  induction h with
  | start => exact (start_spread options root state).scattered rfl
  | @compare _ _ _ _ pair _ _ _ h hpause hframes hnext hleaves ih =>
      have hsteady : Steady (Walk.compare engine maxChain pair) := compare_steady maxChain pair
      have hleads := hsteady.leads (compare_spread maxChain (ih.1.next hframes hnext))
      cases hleaves with
      | ok hwork =>
          rename_i found
          rcases leads_ok hleads hwork with ⟨hspread, hafter⟩
          cases found with
          | none => exact Spread.scattered hspread (hafter.trans hpause)
          | some suspension =>
              have hkept : Walk.Spread _ suspension.ids := hspread
              exact ⟨hkept.of_eq rfl rfl rfl, fun _ hparked => by cases hparked⟩
      | error hwork =>
          rcases leads_error hleads hwork with ⟨hspread, hafter⟩
          exact hspread.scattered (hafter.trans hpause)
  | @finish _ _ frame _ _ _ h hpause hframes hnext hleaves ih =>
      have hsteady : Steady (Walk.finish engine frame) := finish_steady frame
      have hleads := hsteady.leads (finish_spread ih.1 h.tended.1 hframes)
      cases hleaves with
      | ok hwork =>
          rcases leads_ok hleads hwork with ⟨hspread, hafter⟩
          exact hspread.scattered (hafter.trans hpause)
      | error hwork =>
          rcases leads_error hleads hwork with ⟨hspread, hafter⟩
          exact hspread.scattered (hafter.trans hpause)
  | handOut h hpause ih =>
      exact ⟨(ih.2 _ hpause).of_eq rfl rfl rfl, fun _ hparked => by cases hparked⟩
  | resume h hawait hleaves ih =>
      have hleads := resume_spread ih.1 h.tended.1 hawait
      cases hleaves with
      | ok hwork => exact leads_ok hleads hwork
      | error hwork => exact leads_error hleads hwork
  | fail h hawait ih =>
      refine ⟨ih.1.drop.of_eq rfl rfl rfl, fun suspension hparked => ?_⟩
      cases h.tended.1.symm.trans hparked

end Moves

end Walk

end RenderFold
