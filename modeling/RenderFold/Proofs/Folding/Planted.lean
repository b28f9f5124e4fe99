import RenderFold.Proofs.Folding.Soundness
import RenderFold.Proofs.Folding.Tended

/-!
# Functions in One Arena

A walk keeps the functions that it folds in one arena, and everything that
it knows is kept by index: frames, findings, open entries, what it waits
for. All of these indices lead to a node in every state that the walk can be
in. The function of every component that was entered is a tree at all times,
and no two functions have a part in common.

## Main definitions

* `Walk.Tended`: A walk whose program and frames are in order.
* `Walk.InRange`: All indices that a walk keeps lead to a node.

## Theorems

* `Walk.Reaches.tended`: Every move leaves a walk in order.
* `Walk.Reaches.functions_apart`: Indices lead to nodes, and functions are
  trees that have no part in common.
-/

namespace RenderFold

open Script (Arena Id)
open Script.Arena (Closed Forest Spans added)

namespace Frame

/-- All indices that a frame keeps. -/
def ids (frame : Frame) : List Id :=
  frame.own ++ frame.pairs.slots ++ frame.pairs.left.map (·.slot)

theorem Placed.ids_mem {program : Program} {inner zone : Set Id} {frame : Frame}
    (h : Placed program inner zone frame) : ∀ x ∈ frame.ids, x ∈ zone := by
  obtain ⟨span, hspan, -, hout, -⟩ := h.left
  intro x hx
  simp only [ids, List.mem_append] at hx
  rcases hx with (hx | hx) | hx
  · exact h.own_mem x hx
  · exact h.slots_mem x hx
  · exact (hout x (hspan.subset hx)).1

end Frame

/-- All indices that a suspension keeps. -/
def Suspension.ids : Suspension → List Id
  | component pending => [pending.slot, pending.function]
  | deferred pair _ _ => [pair.slot]

namespace Builder

/-- All indices that open entries keep are below a bound. -/
def Bounded (size : Nat) (builder : Builder) : Prop :=
  ∀ entry ∈ builder.entries, ∀ child ∈ entry.children, child.1 < size

variable {builder : Builder} {size size' : Nat} {slot : Id}

theorem Bounded.mono (h : builder.Bounded size) (hle : size ≤ size') : builder.Bounded size' :=
  fun entry hentry child hchild => Nat.lt_of_lt_of_le (h entry hentry child hchild) hle

theorem Bounded.enter (h : builder.Bounded size) (component : String) (styles : Styles) :
    (builder.enter component styles).Bounded size := by
  intro entry hentry child hchild
  rcases List.mem_cons.mp hentry with rfl | hentry
  · exact absurd hchild List.not_mem_nil
  · exact h entry hentry child hchild

theorem Bounded.attach (h : builder.Bounded size) (hslot : slot < size) (tree : FoldedTree) :
    (builder.attach slot tree).Bounded size := by
  obtain ⟨entries, root⟩ := builder
  cases entries with
  | nil => exact h
  | cons parent rest =>
      intro entry hentry child hchild
      rcases List.mem_cons.mp hentry with rfl | hentry
      · rcases List.mem_append.mp hchild with hchild | hchild
        · exact h parent List.mem_cons_self child hchild
        · rw [List.mem_singleton.mp hchild]
          exact hslot
      · exact h entry (List.mem_cons_of_mem _ hentry) child hchild

theorem Bounded.close (h : builder.Bounded size) (hslot : slot < size) (function : RenderFunction)
    (isStatic : Bool) (stays : Id → Bool) :
    (builder.close slot function isStatic stays).Bounded size := by
  obtain ⟨entries, root⟩ := builder
  cases entries with
  | nil => exact h
  | cons entry rest =>
      have hrest : Bounded size ⟨rest, root⟩ := fun other hother =>
        h other (List.mem_cons_of_mem _ hother)
      exact hrest.attach hslot _

end Builder

namespace Walk

variable {engine : Engine} {walk : Walk} {zone inner : Set Id} {slot : Id} {program : Program}
  {frame : Frame} {rest : List Frame} {pair : Pair} {pending : Pending}

/-- A walk whose program and frames are in order. It may work in `zone` next. -/
structure Tended (walk : Walk) (zone : Set Id) : Prop where
  planted : walk.program.Planted
  nested : Nested walk.program zone walk.frames
  builder : walk.builder.Bounded walk.program.arena.size
  rootSlot : walk.rootSlot < walk.program.arena.size

namespace Tended

/-- No place is left to work in. -/
theorem idle (h : walk.Tended zone) : walk.Tended ∅ :=
  { h with nested := h.nested.shrink (Set.empty_subset _) }

theorem tend (h : walk.Tended zone) (htends : walk.program.Tends zone program) :
    Tended { walk with program } (zone ∪ added walk.program.arena program.arena) where
  planted := htends.planted h.planted
  nested := h.nested.tend htends
  builder := h.builder.mono htends.arena.size_le
  rootSlot := Nat.lt_of_lt_of_le h.rootSlot htends.arena.size_le

/-- A walk depends on nothing but its program, its frames and its entries. -/
theorem of_eq {after : Walk} (h : walk.Tended zone) (hprogram : after.program = walk.program)
    (hframes : after.frames = walk.frames) (hbuilder : after.builder = walk.builder)
    (hroot : after.rootSlot = walk.rootSlot) : after.Tended zone where
  planted := hprogram ▸ h.planted
  nested := by
    rw [hprogram, hframes]
    exact h.nested
  builder := by
    rw [hprogram, hbuilder]
    exact h.builder
  rootSlot := by
    rw [hprogram, hroot]
    exact h.rootSlot

theorem push (h : walk.Tended zone) (hframe : frame.Placed walk.program inner zone) :
    Tended { walk with frames := frame :: walk.frames } inner :=
  { h with nested := .cons hframe h.nested }

theorem close (h : walk.Tended zone) (hslot : slot < walk.program.arena.size)
    (function : RenderFunction) (isStatic : Bool) (stays : Id → Bool) :
    Tended { walk with builder := walk.builder.close slot function isStatic stays } zone :=
  { h with builder := h.builder.close hslot function isStatic stays }

end Tended

/-- A walk that compares a pair: its expression is the root of a tree, in
    which it may work. -/
structure Facing (walk : Walk) (zone : Set Id) (slot : Id) : Prop where
  tended : walk.Tended zone
  closed : Closed walk.program.arena zone
  forest : Forest zone walk.program.arena [slot]

/-- A walk at a component whose function has been copied. -/
structure Admits (walk : Walk) (zone : Set Id) (pending : Pending) : Prop where
  tended : walk.Tended zone
  closed : Closed walk.program.arena zone
  slot_mem : pending.slot ∈ zone
  forest : Forest zone walk.program.arena [pending.function]
  function_mem : ∀ function,
    walk.program.findings.function? pending.slot = some function → function ∈ zone

/-- A walk that waits is in order for what it waits for. -/
inductive Holds (walk : Walk) : Suspension → Prop where
  | component {pending : Pending} {zone : Set Id} (h : walk.Admits zone pending) :
      Holds walk (.component pending)
  | deferred {pair : Pair} {data : Twin NodeData} {asked : Twin Engine.Asked} {zone : Set Id}
      (h : walk.Facing zone pair.slot) : Holds walk (.deferred pair data asked)

/-- A walk is in order, and for what it waits for if it does. -/
def Remains (walk : Walk) : Option Suspension → Prop
  | none => walk.Tended ∅
  | some suspension => walk.Holds suspension

namespace Facing

theorem slot_mem (h : walk.Facing zone slot) : slot ∈ zone := (h.forest.mem List.mem_cons_self).1

theorem tend (h : walk.Facing zone slot) (htends : walk.program.Tends zone program)
    (hsame : Script.Arena.SameParts walk.program.arena program.arena) :
    Facing { walk with program } (zone ∪ added walk.program.arena program.arena) slot :=
  ⟨h.tended.tend htends, htends.arena.closed,
    (hsame.forest h.forest).mono Set.subset_union_left⟩

end Facing

section Compare

/-- The children of a node are compared next. -/
theorem descend_tended {closing : String} {children : Twin (List View)}
    (h : walk.Facing zone slot) (hlength : children.static.length = children.dynamic.length) :
    Leads (descend slot closing children) walk (fun _ after => after.Tended ∅)
      (fun after => after.Tended ∅) := by
  unfold descend
  rw [leads_bind, leads_fromProgram, leads_bind, leads_get]
  obtain ⟨htends, span, hspan, hnodup, hzone, hfixed⟩ :=
    Program.correlate_tends h.closed h.forest children.static.length
  have hcount := walk.program.length_correlate slot children.static.length
  dsimp only
  generalize walk.program.correlate slot children.static.length = correlated
    at htends hspan hzone hfixed hcount ⊢
  obtain ⟨slots, program⟩ := correlated
  obtain ⟨hslots, -, -⟩ := zipPairs_spec (elementContext { walk with program })
    ((Twin.length_zipWith hlength).trans hcount.symm)
  rw [leads_pushFrame]
  refine (h.tended.tend htends).push ⟨htends.arena.closed, Set.empty_subset _, ?_, ?_,
    ⟨span, ?_, hnodup, fun x hx => ⟨hzone x hx, id⟩, ?_⟩, ?_⟩
  · intro x hx
    rw [List.mem_singleton.mp hx]
    exact Or.inl h.slot_mem
  · intro x hx
    refine hzone x (hspan.subset ?_)
    rwa [← hslots]
  · exact hslots.symm ▸ hspan
  · intro slot' closing' pairs hframe
    cases hframe
    refine Program.Fixed.mono (hslots.symm ▸ hfixed) fun x hx => ?_
    exact hx.elim (fun hin => absurd hin (Set.notMem_empty x)) fun hx => hx
  · intro boundary pairs hframe
    cases hframe

theorem compareFragments_tended {opening closing : Twin String} {children : Twin (List View)}
    (h : walk.Facing zone slot) :
    Leads (compareFragments slot opening closing children) walk (fun _ after => after.Tended ∅)
      (fun after => after.Tended ∅) := by
  unfold compareFragments
  split
  · dsimp only
    split
    · rw [leads_onProgram]
      exact (h.tended.tend (.markStatic h.closed h.slot_mem _)).idle
    · exact h.tended.idle
  · split
    · next hsame =>
        simp only [Bool.and_eq_true, decide_eq_true_eq] at hsame
        rw [leads_bind, leads_onProgram]
        exact descend_tended (h.tend (.setText h.closed h.slot_mem _) (.refl _)) hsame.1.1
    · exact h.tended.idle

theorem compareElements_tended {tag : String} {data : Twin NodeData} {children : Twin (List View)}
    (h : walk.Facing zone pair.slot) :
    Leads (compareElements engine pair tag data children) walk (fun _ after => after.Tended ∅)
      (fun after => after.Tended ∅) := by
  have hrecord (static dynamic : Option String) :
      Tended { walk with program := walk.program.recordText pair.slot static dynamic } ∅ :=
    (h.tended.tend (.recordText h.closed h.slot_mem static dynamic)).idle
  unfold compareElements
  dsimp only
  split
  · exact hrecord _ _
  · split
    · split
      · exact hrecord _ _
      · split
        · next hlength =>
            split
            · rw [leads_bind, leads_onProgram]
              exact descend_tended (h.tend (.setText h.closed h.slot_mem _) (.refl _)) hlength
            · exact descend_tended h hlength
        · exact h.tended.idle
    · split
      · exact (h.tended.tend (.markStatic h.closed h.slot_mem _)).idle
      · exact h.tended.idle
    · exact h.tended.idle

/-- A component is entered. Its root is below its function, or new. -/
theorem enterComponent_tended (h : walk.Admits zone pending) :
    Leads (enterComponent engine pending) walk (fun _ after => after.Tended ∅)
      (fun after => after.Tended ∅) := by
  unfold enterComponent
  rw [leads_bind, leads_ofExcept]
  split
  · next static hstatic =>
      rw [leads_bind, leads_ofExcept]
      split
      · next dynamic hdynamic =>
          rw [leads_bind, leads_fromProgram, leads_bind, leads_get]
          dsimp only
          rw [leads_bind, leads_modify, leads_pushFrame]
          obtain ⟨htends, hroot⟩ := Program.locateRoot_tends h.closed h.forest
          generalize walk.program.locateRoot pending.function = located at htends hroot ⊢
          obtain ⟨rootSlot, program⟩ := located
          obtain ⟨span, hspan, hnodup, hzone⟩ := hroot
          have hmem := hzone rootSlot (hspan.subset List.mem_cons_self)
          have htended := h.tended.tend htends
          have hentered : Tended
              { walk with
                program
                active := some pending.instances
                builder := walk.builder.enter pending.instances.static.component.name
                  pending.instances.static.component.styles }
              (zone ∪ added walk.program.arena program.arena) :=
            ⟨htended.planted, htended.nested, htended.builder.enter _ _, htended.rootSlot⟩
          refine hentered.push ⟨htends.arena.closed, Set.empty_subset _, ?_, ?_,
            ⟨span, hspan, hnodup, fun x hx => ⟨hzone x hx, id⟩, ?_⟩, ?_⟩
          · intro x hx
            simp only [Frame.own, List.mem_cons, List.not_mem_nil, or_false] at hx
            rcases hx with rfl | rfl
            · exact Or.inl h.slot_mem
            · exact hmem
          · intro x hx
            rw [List.mem_singleton.mp hx]
            exact hmem
          · intro slot closing pairs hframe
            cases hframe
          · intro boundary pairs hframe function hfunction
            cases hframe
            exact (htends.function _ function hfunction).imp_left (h.function_mem function)
      · exact h.tended.idle
  · exact h.tended.idle

/-- Two components are compared. The function of the static one becomes a tree
    of its own. -/
theorem compareComponents_tended {component : Twin Component} {data : Twin NodeData}
    (h : walk.Facing zone pair.slot) :
    Leads (compareComponents engine pair component data) walk
      (fun out after => after.Remains out) (fun after => after.Tended ∅) := by
  unfold compareComponents
  split
  · exact h.tended.idle
  · rw [leads_bind, leads_get]
    dsimp only
    rw [leads_bind, leads_onEngine]
    split
    · next own state hown =>
        rw [leads_bind, leads_onEngine]
        split
        · next own' state' hown' =>
            rw [leads_bind, leads_fromProgram]
            have htends := Program.graft_tends h.closed h.slot_mem own.1
            obtain ⟨tree, htree, hnodup⟩ := own.1.isTree
            have hgrown := Script.Arena.graft_grown walk.program.arena htree hnodup
            dsimp only
            generalize walk.program.arena.graft own.1.arena own.1.root = grafted
              at htends hgrown ⊢
            obtain ⟨function, arena⟩ := grafted
            obtain ⟨span, hspan, hnodup, hnew⟩ := hgrown
            have hadded : ∀ x ∈ span, x ∈ added walk.program.arena arena := fun x hx =>
              ⟨hnew x hx, hspan.lt_size x hx⟩
            have htended : Tended
                { walk with
                  engine := state'
                  program := ⟨arena, walk.program.findings.setFunction pair.slot function⟩ }
                (zone ∪ added walk.program.arena arena) :=
              (h.tended.tend htends).of_eq rfl rfl rfl rfl
            have hfunction : ∀ found,
                (walk.program.findings.setFunction pair.slot function).function? pair.slot =
                  some found → found ∈ zone ∪ added walk.program.arena arena := by
              intro found hfound
              rw [Findings.function?_setFunction_self] at hfound
              cases hfound
              exact Or.inr (hadded function (hspan.subset List.mem_cons_self))
            have hadmits (pending : Pending) (hslot : pending.slot = pair.slot)
                (hpending : pending.function = function) : Admits
                { walk with
                  engine := state'
                  program := ⟨arena, walk.program.findings.setFunction pair.slot function⟩ }
                (zone ∪ added walk.program.arena arena) pending :=
              ⟨htended, htends.arena.closed, hslot ▸ Or.inl h.slot_mem,
                ⟨span, hpending.symm ▸ hspan, hnodup, fun x hx => Or.inr (hadded x hx)⟩,
                hslot ▸ hfunction⟩
            split
            · exact .component (hadmits _ rfl rfl)
            · rw [leads_bind]
              exact enterComponent_tended (hadmits _ rfl rfl)
        · exact h.tended.idle.of_eq rfl rfl rfl rfl
    · exact h.tended.idle.of_eq rfl rfl rfl rfl

theorem compareResolved_tended {compare : Pair → Walking (Option Suspension)}
    {data : Twin NodeData} (resolutions : Twin Resolution) (h : walk.Facing zone pair.slot)
    (hcompare : ∀ view, Leads (compare { pair with view }) walk
      (fun out after => after.Remains out) (fun after => after.Tended ∅)) :
    Leads (compareResolved engine compare pair data resolutions) walk
      (fun out after => after.Remains out) (fun after => after.Tended ∅) := by
  unfold compareResolved
  split
  · exact compareComponents_tended h
  · exact hcompare _
  · split
    · rw [leads_bind, leads_fromProgram]
      next static dynamic _ _ hlength =>
      obtain ⟨hadds, hcount⟩ := Program.pushHoles_adds static.length walk.program
      have htends := hadds.tends h.closed
      generalize Program.pushHoles static.length walk.program = pushed at hadds hcount htends ⊢
      obtain ⟨slots, program⟩ := pushed
      obtain ⟨hslots, -, -⟩ := zipPairs_spec pair.context
        ((Twin.length_zipWith hlength).trans hcount.symm)
      obtain ⟨span, hspan, hnodup, hnew⟩ := hadds.grown
      have hadded : ∀ x ∈ span, x ∈ zone ∪ added walk.program.arena program.arena := fun x hx =>
        Or.inr ⟨hnew x hx, hspan.lt_size x hx⟩
      dsimp only
      rw [leads_bind, leads_pushFrame]
      refine (h.tended.tend htends).push ⟨htends.arena.closed, Set.empty_subset _, ?_, ?_,
        ⟨span, hslots.symm ▸ hspan, hnodup, fun x hx => ⟨hadded x hx, id⟩, ?_⟩, ?_⟩
      · intro x hx
        rw [List.mem_singleton.mp hx]
        exact Or.inl h.slot_mem
      · intro x hx
        exact hadded x (hspan.subset (by rwa [← hslots]))
      · intro slot closing pairs hframe
        cases hframe
      · intro boundary pairs hframe
        cases hframe
    · exact h.tended.idle
  · rw [leads_bind, leads_onProgram]
    exact (h.tended.tend (.markStatic h.closed h.slot_mem _)).idle

/-- Comparing a pair leaves the walk in order. -/
theorem compare_tended (depth : Nat) : ∀ {pair : Pair}, walk.Facing zone pair.slot →
    Leads (compare engine depth pair) walk (fun out after => after.Remains out)
      (fun after => after.Tended ∅) := by
  induction depth with
  | zero => exact fun h => h.tended.idle
  | succ depth ih =>
      intro pair h
      unfold compare
      split
      · rw [leads_bind, leads_onProgram]
        exact (h.tended.tend (.recordText h.closed h.slot_mem _ _)).idle
      · rw [leads_bind, leads_get]
        split
        · rw [leads_bind, leads_onProgram]
          exact (h.tended.tend (.markStatic h.closed h.slot_mem _)).idle
        · exact h.tended.idle
      · rw [leads_bind]
        exact compareFragments_tended h
      · split
        · rw [leads_bind]
          exact compareElements_tended h
        · exact h.tended.idle
      · exact compareComponents_tended h
      · rw [leads_bind, leads_ask, leads_bind, leads_ask]
        split
        · exact compareResolved_tended _ h fun view => ih h
        · exact .deferred h
      · exact h.tended.idle

end Compare

section Finish

/-- A component is left. Its function is in the zone of its frame, and so are
    the calls that are numbered. -/
theorem leaveComponent_tended {boundary : Boundary} (h : walk.Tended zone)
    (hclosed : Closed walk.program.arena zone) (hslot : boundary.slot ∈ zone)
    (hfunction : ∀ function,
      walk.program.findings.function? boundary.slot = some function → function ∈ zone) :
    Leads (leaveComponent engine boundary) walk (fun _ after => after.Tended ∅)
      (fun after => after.Tended ∅) := by
  have hlt := (hclosed _ hslot).1
  have hkept : Tended
      { walk with
        active := boundary.around
        builder := walk.builder.close boundary.slot boundary.own false fun _ => true } ∅ :=
    (h.idle.close hlt _ _ _).of_eq rfl rfl rfl rfl
  unfold leaveComponent
  rw [leads_bind, leads_modify, leads_bind, leads_get]
  dsimp only
  split
  · next text htext =>
      unfold leaveStatic
      rw [leads_bind, leads_onSynthesizer]
      split
      · exact h.idle.of_eq rfl rfl rfl rfl
      · rw [leads_bind, leads_onProgram, leads_bind, leads_get]
        have htends := Program.foldToLiteral_tends hclosed hslot text
        have hlt' := Nat.lt_of_lt_of_le hlt htends.arena.size_le
        exact ((h.tend htends).idle.close hlt' _ _ _).of_eq rfl rfl rfl rfl
  · split
    · exact hkept
    · next function hfound =>
        split
        · exact hkept
        · unfold leaveRewritten
          rw [leads_bind, leads_get]
          dsimp only
          rw [leads_bind, leads_onProgram, leads_bind, leads_get, leads_bind, leads_onSynthesizer]
          have htends := Program.placeAll_tends hclosed (hfunction function hfound)
            walk.builder.childSlots (!walk.options.hoistStyles)
          have hlt' := Nat.lt_of_lt_of_le hlt htends.arena.size_le
          have hplaced := (h.tend htends).idle.close hlt'
          split
          · exact (hplaced _ _ _).of_eq rfl rfl rfl rfl
          · exact (hplaced _ _ _).of_eq rfl rfl rfl rfl

/-- Closing a frame leaves the walk in order. -/
theorem finish_tended (h : walk.Tended ∅) (hframes : walk.frames = frame :: rest)
    (hnext : frame.pairs.next? = none) :
    Leads (finish engine frame) { walk with frames := rest } (fun _ after => after.Tended ∅)
      (fun after => after.Tended ∅) := by
  have hnested := h.nested
  rw [hframes] at hnested
  cases hnested with
  | cons hframe hrest =>
      rename_i zone
      have hwalk : Tended { walk with frames := rest } zone :=
        ⟨h.planted, hrest, h.builder, h.rootSlot⟩
      obtain ⟨span, -, -, -, hfixed⟩ := hframe.left
      cases frame with
      | element slot closing pairs =>
          rw [finish, leads_onProgram]
          exact (hwalk.tend (Program.foldLevel_tends hframe.closed
            (hframe.own_mem slot List.mem_cons_self) hframe.slots_mem
            (hfixed slot closing pairs rfl).isMatch closing)).idle
      | group slot pairs =>
          rw [finish, leads_onProgram]
          exact (hwalk.tend (Program.foldGroup_tends hframe.closed
            (hframe.own_mem slot List.mem_cons_self) pairs.slots)).idle
      | component boundary pairs =>
          exact leaveComponent_tended hwalk hframe.closed
            (hframe.own_mem boundary.slot List.mem_cons_self)
            (hframe.function_mem boundary pairs rfl)

end Finish

section Moves

variable {events : List Event} {out : Option Suspension} {options : Options}
  {root : Twin View} {state : Engine.State}

/-- A walk that is handed out a suspension waits in order for it, and one that
    is not is in order, and for what it has kept back if it has. -/
def Steadfast (walk : Walk) : Option Suspension → Prop
  | some suspension => walk.pause = .waiting ∧ walk.Holds suspension
  | none => walk.Tended ∅ ∧ ∀ suspension, walk.pause = .parked suspension → walk.Holds suspension

theorem Holds.tended {suspension : Suspension} (h : walk.Holds suspension) : walk.Tended ∅ := by
  cases h with
  | component h => exact h.tended.idle
  | deferred h => exact h.tended.idle

/-- What a walk waits for depends on nothing but its program, its frames and
    its entries. -/
theorem Holds.of_eq {after : Walk} {suspension : Suspension} (h : walk.Holds suspension)
    (hprogram : after.program = walk.program) (hframes : after.frames = walk.frames)
    (hbuilder : after.builder = walk.builder) (hroot : after.rootSlot = walk.rootSlot) :
    after.Holds suspension := by
  cases h with
  | component h =>
      refine .component ⟨h.tended.of_eq hprogram hframes hbuilder hroot, ?_, h.slot_mem, ?_, ?_⟩
      · rw [hprogram]
        exact h.closed
      · rw [hprogram]
        exact h.forest
      · rw [hprogram]
        exact h.function_mem
  | deferred h =>
      refine .deferred ⟨h.tended.of_eq hprogram hframes hbuilder hroot, ?_, ?_⟩
      · rw [hprogram]
        exact h.closed
      · rw [hprogram]
        exact h.forest

theorem Tended.steadfast (h : walk.Tended ∅) (hpause : walk.pause = .going) :
    walk.Steadfast none :=
  ⟨h, fun _ hparked => by rw [hpause] at hparked; cases hparked⟩

/-- A walk that goes on at a component after a pause. -/
theorem resumeComponent_tended {resolved : Resolved} {continuation : Continuation}
    {after : Engine.State} (h : walk.Admits zone pending) (hpause : walk.pause = .waiting)
    (hawait : (Suspension.component pending).await engine walk.engine =
      (.ok resolved, continuation, after)) :
    Leads (resume engine continuation resolved) { walk with engine := after }
      (fun _ last => last.Steadfast none) (fun last => last.Steadfast none) := by
  rcases hboth : Engine.prefetchBoth pending.instances.static pending.instances.dynamic with
    ⟨_ | _, static, dynamic⟩
  · simp only [Suspension.await, hboth, Except.map, Prod.mk.injEq, reduceCtorEq, false_and] at hawait
  · simp only [Suspension.await, hboth, Except.map, Prod.mk.injEq, Except.ok.injEq] at hawait
    obtain ⟨rfl, rfl, rfl⟩ := hawait
    unfold resume
    rw [leads_bind, leads_get]
    dsimp only
    rw [hpause]
    dsimp only
    rw [leads_bind, leads_modify]
    have hadmits : Admits { walk with pause := .going } zone
        { pending with instances := ⟨static, dynamic⟩ } :=
      ⟨h.tended.of_eq rfl rfl rfl rfl, h.closed, h.slot_mem, h.forest, h.function_mem⟩
    exact leads_mono ((enterComponent_steady _).leads (enterComponent_tended hadmits))
      (fun _ _ hlast => hlast.1.steadfast hlast.2) fun _ hlast => hlast.1.steadfast hlast.2

/-- A walk that goes on at async components after a pause. The views that they
    resolved to may have to wait again. -/
theorem resumeDeferred_tended {data : Twin NodeData} {asked : Twin Engine.Asked}
    {resolved : Resolved} {continuation : Continuation} {after : Engine.State}
    (h : walk.Facing zone pair.slot) (hpause : walk.pause = .waiting)
    (hawait : (Suspension.deferred pair data asked).await engine walk.engine =
      (.ok resolved, continuation, after)) :
    Leads (resume engine continuation resolved) { walk with engine := after }
      (fun _ last => last.Steadfast none) (fun last => last.Steadfast none) := by
  simp only [Suspension.await] at hawait
  split at hawait
  · next static dynamic state hboth =>
      simp only [Prod.mk.injEq, Except.ok.injEq] at hawait
      obtain ⟨rfl, rfl, rfl⟩ := hawait
      have hfacing : Facing { walk with engine := state, pause := .going } zone pair.slot :=
        ⟨h.tended.of_eq rfl rfl rfl rfl, h.closed, h.forest⟩
      have hleads : Leads (compareResolved engine (compare engine maxChain) pair data
          ⟨static, dynamic⟩) { walk with engine := state, pause := .going }
          (fun out after => after.Remains out) (fun after => after.Tended ∅) :=
        compareResolved_tended _ hfacing fun _ => compare_tended maxChain hfacing
      have hsteady : Steady (compareResolved engine (compare engine maxChain) pair data
          ⟨static, dynamic⟩) := compareResolved_steady (compare_steady maxChain) _ _ _
      unfold resume
      rw [leads_bind, leads_get]
      dsimp only
      rw [hpause]
      dsimp only
      rw [leads_bind, leads_modify, leads_bind]
      refine leads_mono (hsteady.leads hleads) (fun out last hlast => ?_) fun last hlast => ?_
      · cases out with
        | none => exact Tended.steadfast hlast.1 hlast.2
        | some suspension =>
            have hholds : Holds last suspension := hlast.1
            refine ⟨hholds.tended.of_eq rfl rfl rfl rfl, fun parked hparked => ?_⟩
            cases hparked
            exact hholds.of_eq rfl rfl rfl rfl
      · exact hlast.1.steadfast hlast.2
  · simp only [Prod.mk.injEq, reduceCtorEq, false_and] at hawait

/-- A walk that goes on after a pause is in order. -/
theorem resume_tended {suspension : Suspension} {resolved : Resolved}
    {continuation : Continuation} {after : Engine.State} (hpause : walk.pause = .waiting)
    (hholds : walk.Holds suspension)
    (hawait : suspension.await engine walk.engine = (.ok resolved, continuation, after)) :
    Leads (resume engine continuation resolved) { walk with engine := after }
      (fun _ last => last.Steadfast none) (fun last => last.Steadfast none) := by
  cases hholds with
  | component h => exact resumeComponent_tended h hpause hawait
  | deferred h => exact resumeDeferred_tended h hpause hawait

/-- What comparing the next pair leads to. -/
theorem Tended.compare {left : Pairs} (h : walk.Tended ∅) (hframes : walk.frames = frame :: rest)
    (hnext : frame.pairs.next? = some (pair, left)) :
    Leads (Walk.compare engine maxChain pair) { walk with frames := frame.withPairs left :: rest }
      (fun out after => after.Remains out) (fun after => after.Tended ∅) := by
  have hnested := h.nested
  rw [hframes] at hnested
  obtain ⟨span, hspan, hnodup, hnested⟩ := hnested.next hnext
  have hclosed : Closed walk.program.arena {x | x ∈ span} := fun x hx =>
    ⟨hspan.lt_size x hx, fun part hpart => hspan.closed hx hpart⟩
  exact compare_tended maxChain ⟨⟨h.planted, hnested, h.builder, h.rootSlot⟩, hclosed,
    ⟨span, hspan, hnodup, fun x hx => hx⟩⟩

/-- A walk starts with nothing but an expression for its root. -/
theorem start_tended (options : Options) (root : Twin View) (state : Engine.State) :
    (start options root state).Tended ∅ := by
  have hclosed : Closed Program.empty.arena ∅ := fun _ hid => absurd hid (Set.notMem_empty _)
  have hadds := Program.empty.pushHole_adds
  have htends := hadds.tends hclosed
  obtain ⟨span, hspan, hnodup, hnew⟩ := hadds.grown
  have hadded : ∀ x ∈ span, x ∈ ∅ ∪ added Program.empty.arena Program.empty.pushHole.2.arena :=
    fun x hx => Or.inr ⟨hnew x hx, hspan.lt_size x hx⟩
  have hslot := hspan.subset List.mem_cons_self
  have hempty : Program.empty.Planted :=
    ⟨fun id hid => absurd hid (Nat.not_lt_zero id), fun _ h => absurd h List.not_mem_nil,
      ⟨[], .nil _ _, fun _ _ h => by cases h⟩, fun _ _ _ h => by cases h⟩
  refine ⟨htends.planted hempty, .cons ⟨htends.arena.closed, Set.empty_subset _, ?_, ?_,
    ⟨span, hspan, hnodup, fun x hx => ⟨hadded x hx, id⟩, ?_⟩, ?_⟩ .nil,
    fun _ h => absurd h List.not_mem_nil, hspan.lt_size _ hslot⟩
  · intro x hx
    rw [List.mem_singleton.mp hx]
    exact hadded _ hslot
  · intro x hx
    rw [List.mem_singleton.mp hx]
    exact hadded _ hslot
  · intro slot closing pairs hframe
    cases hframe
  · intro boundary pairs hframe
    cases hframe

/-- Every move leaves a walk in order. -/
theorem Reaches.tended (h : Reaches engine (.start options root state) events out walk) :
    walk.Steadfast out := by
  induction h with
  | start => exact (start_tended options root state).steadfast rfl
  | @compare _ _ _ _ pair _ _ _ h hpause hframes hnext hleaves ih =>
      have hsteady : Steady (Walk.compare engine maxChain pair) := compare_steady maxChain pair
      have hleads := hsteady.leads (ih.1.compare hframes hnext)
      cases hleaves with
      | ok hwork =>
          rename_i found
          obtain ⟨hremains, hafter⟩ := leads_ok hleads hwork
          cases found with
          | none => exact Tended.steadfast hremains (hafter.trans hpause)
          | some suspension => exact ⟨rfl, Holds.of_eq hremains rfl rfl rfl rfl⟩
      | error hwork =>
          obtain ⟨htended, hafter⟩ := leads_error hleads hwork
          exact htended.steadfast (hafter.trans hpause)
  | @finish _ _ frame _ _ _ h hpause hframes hnext hleaves ih =>
      have hsteady : Steady (Walk.finish engine frame) := finish_steady frame
      have hleads := hsteady.leads (finish_tended ih.1 hframes hnext)
      cases hleaves with
      | ok hwork =>
          obtain ⟨htended, hafter⟩ := leads_ok hleads hwork
          exact htended.steadfast (hafter.trans hpause)
      | error hwork =>
          obtain ⟨htended, hafter⟩ := leads_error hleads hwork
          exact htended.steadfast (hafter.trans hpause)
  | handOut h hpause ih => exact ⟨rfl, (ih.2 _ hpause).of_eq rfl rfl rfl rfl⟩
  | resume h hawait hleaves ih =>
      obtain ⟨hpause, hholds⟩ := ih
      have hleads := resume_tended hpause hholds hawait
      cases hleaves with
      | ok hwork => exact leads_ok hleads hwork
      | error hwork => exact leads_error hleads hwork
  | fail h hawait ih =>
      refine ⟨ih.2.tended.of_eq rfl rfl rfl rfl, fun suspension hparked => ?_⟩
      cases ih.1.symm.trans hparked

end Moves

section Result

variable {events : List Event} {out : Option Suspension} {options : Options} {root : Twin View}
  {state : Engine.State}

/-- All indices that a walk keeps lead to a node. `out` is the suspension that
    was handed out. -/
structure InRange (walk : Walk) (out : Option Suspension) : Prop where
  parts : ∀ id < walk.program.arena.size, ∀ part ∈ (walk.program.arena.get id).children,
    part < walk.program.arena.size
  findings : ∀ entry ∈ walk.program.findings, entry.1 < walk.program.arena.size ∧
    ∀ function, entry.2.function = some function → function < walk.program.arena.size
  frames : ∀ frame ∈ walk.frames, ∀ id ∈ frame.ids, id < walk.program.arena.size
  builder : ∀ entry ∈ walk.builder.entries, ∀ child ∈ entry.children,
    child.1 < walk.program.arena.size
  rootSlot : walk.rootSlot < walk.program.arena.size
  parked : ∀ suspension, walk.pause = .parked suspension → ∀ id ∈ suspension.ids,
    id < walk.program.arena.size
  handedOut : ∀ suspension, out = some suspension → ∀ id ∈ suspension.ids,
    id < walk.program.arena.size

theorem ids_lt_of_nested {program : Program} {frames : List Frame}
    (h : Nested program inner frames) :
    ∀ frame ∈ frames, ∀ id ∈ frame.ids, id < program.arena.size := by
  induction h with
  | nil => exact fun _ h => absurd h List.not_mem_nil
  | cons hframe hrest ih =>
      intro frame hmem id hid
      rcases List.mem_cons.mp hmem with rfl | hmem
      · exact (hframe.closed id (hframe.ids_mem id hid)).1
      · exact ih frame hmem id hid

theorem Holds.ids_lt {suspension : Suspension} (h : walk.Holds suspension) :
    ∀ id ∈ suspension.ids, id < walk.program.arena.size := by
  intro id hid
  cases h with
  | component h =>
      simp only [Suspension.ids, List.mem_cons, List.not_mem_nil, or_false] at hid
      rcases hid with rfl | rfl
      · exact (h.closed _ h.slot_mem).1
      · exact (h.forest.mem List.mem_cons_self).2
  | deferred h =>
      rw [List.mem_singleton.mp hid]
      exact (h.forest.mem List.mem_cons_self).2

/-- In every state that a walk can be in, all indices that it keeps lead to a
    node. The render function of every component that was entered is a tree:
    there is one path to each of its nodes, and none of it is cut off when it
    is read off to be printed. No node is below two functions. -/
theorem Reaches.functions_apart
    (h : Reaches engine (.start options root state) events out walk) :
    walk.InRange out ∧
    (∀ slot function, walk.program.findings.function? slot = some function →
      walk.program.arena.IsTree function) ∧
    ∀ slot slot' function function', walk.program.findings.function? slot = some function →
      walk.program.findings.function? slot' = some function' → slot ≠ slot' →
      ∀ x path path', walk.program.arena.Path function path x →
        ¬ walk.program.arena.Path function' path' x := by
  have hsteadfast := h.tended
  have htended : walk.Tended ∅ := by
    cases out with
    | none => exact hsteadfast.1
    | some suspension => exact hsteadfast.2.tended
  obtain ⟨functions, hforest, hmem⟩ := htended.planted.forest
  refine ⟨⟨fun id hid => (htended.planted.valid id hid).2, htended.planted.bounded,
      ids_lt_of_nested htended.nested, htended.builder, htended.rootSlot, fun suspension hparked => ?_,
      fun suspension hout => ?_⟩,
    fun slot function hfunction => hforest.isTree (hmem slot function hfunction),
    fun slot slot' function function' hfunction hfunction' hne x path path' hpath => ?_⟩
  · cases out with
    | none => exact (hsteadfast.2 suspension hparked).ids_lt
    | some other => cases hsteadfast.1.symm.trans hparked
  · cases hout
    exact hsteadfast.2.ids_lt
  · refine hforest.disjoint (hmem slot function hfunction) (hmem slot' function' hfunction')
      (fun heq => hne ?_) hpath
    rw [← heq] at hfunction'
    exact htended.planted.apart slot slot' function hfunction hfunction'

/-- A page that uses another component. -/
def nesting : Component :=
  { Component.named "page" with
    components := [("card", .component 1)]
    render := (RenderFunction.compile "return _c(\"p\", [_c(\"card\")])").toOption }

/-- An engine for the page and the component that it uses. -/
def nestingEngine : Engine :=
  { engineOf nesting with
    components := fun id => if id = 0 then nesting else { shifting with name := "card" } }

theorem nesting_functions_apart : ∃ events walk,
    Reaches nestingEngine (.start .standard (named "ada") nestingEngine.initial) events none walk ∧
    walk.program.arena.IsTree 1 ∧ walk.program.arena.IsTree 10 ∧
    ∀ x path path', walk.program.arena.Path 1 path x → ¬ walk.program.arena.Path 10 path' x := by
  have hrun : (comparing nestingEngine
      (.start .standard (named "ada") nestingEngine.initial)).any (fun (_, entered) =>
        (comparing nestingEngine entered).any fun (_, opened) =>
          (comparing nestingEngine opened).any fun (_, walk) =>
            walk.program.findings.function? 0 = some 1 &&
              walk.program.findings.function? 5 = some 10) = true := by decide +kernel
  obtain ⟨⟨page, entered⟩, henter, hrun⟩ := (Option.any_eq_true _ _).mp hrun
  obtain ⟨⟨element, opened⟩, hopen, hrun⟩ := (Option.any_eq_true _ _).mp hrun
  obtain ⟨⟨card, walk⟩, hcompare, hrun⟩ := (Option.any_eq_true _ _).mp hrun
  simp only [Bool.and_eq_true, decide_eq_true_eq] at hrun
  -- The page is entered, then its element, and then the component inside.
  obtain ⟨hreaches, hpause⟩ := Reaches.start.comparing rfl henter
  obtain ⟨hreaches, hpause⟩ := hreaches.comparing hpause hopen
  obtain ⟨hreaches, -⟩ := hreaches.comparing hpause hcompare
  obtain ⟨-, htree, hapart⟩ := Reaches.functions_apart hreaches
  exact ⟨_, walk, hreaches, htree 0 1 hrun.1, htree 5 10 hrun.2,
    hapart 0 5 1 10 hrun.1 hrun.2 (by decide)⟩

end Result

end Walk

end RenderFold
