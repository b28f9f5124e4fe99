import RenderFold.Proofs.Folding.LevelZones
import RenderFold.Proofs.Folding.Records
import RenderFold.Proofs.Script.Grafts

/-!
# Stacks of Frames

What holds of the frames of a walk, all the time. Every frame has a zone: the
expressions that closing the frame may rewrite. The zone of a frame lies
inside those of the frames around it, and it holds nothing that is still to
be compared there. So whatever is done inside a frame leaves everything else
as it is, the expressions that are left to be compared and what was found out
before.

A frame also has an account. It lists the children that were compared, each
with what was recorded meanwhile, and says what each folds into if it is
static. And it holds the promise for the node itself: if all children fold,
the node folds into their markup between its own.

## Main definitions

* `Program.EditedIn`: Programs that differ in a zone.
* `Frame.Housed`, `Frame.Inside`: A frame and its zone.
* `Frame.Accounted`: A frame and its account.
* `Stacked`: A stack of frames, each inside the next.

## Theorems

* `Stacked.edit`: What is done inside a frame.
* `Stacked.next`: Taking the next pair of a frame.
* `Stacked.settle`: A child has been compared.
-/

namespace RenderFold

open Script (Arena Id)
open Script.Arena (Closed Spans added)

namespace Findings

variable {a b : Findings} {id : Id}

theorem text?_congr (h : b.get? id = a.get? id) : b.text? id = a.text? id := by
  rw [text?, h, text?]

theorem isStatic_congr (h : b.get? id = a.get? id) : b.isStatic id = a.isStatic id := by
  rw [isStatic, h, isStatic]

theorem function?_congr (h : b.get? id = a.get? id) : b.function? id = a.function? id := by
  rw [function?, h, function?]

theorem literal?_congr (h : b.get? id = a.get? id) : b.literal? id = a.literal? id := by
  rw [literal?, isStatic_congr h, text?_congr h, literal?]

end Findings

namespace Program

/-- Programs that differ inside a zone and by new expressions. -/
structure EditedIn (zone : Set Id) (a b : Program) : Prop where
  arena : Arena.EditedIn zone a.arena b.arena
  findings : ∀ id, id < a.arena.size → id ∉ zone → b.findings.get? id = a.findings.get? id

namespace EditedIn

variable {zone wider : Set Id} {a b c : Program}

theorem widen (h : EditedIn zone a b) (hsub : zone ⊆ wider) (hwider : Closed a.arena wider) :
    EditedIn wider a b :=
  ⟨h.arena.widen hsub hwider, fun id hid hout => h.findings id hid fun hin => hout (hsub hin)⟩

end EditedIn

end Program

namespace Frame

/-- The text before the children, if it is known. -/
def opening? (findings : Findings) : Frame → Option String
  | element slot _ _ => findings.text? slot
  | group .. => some ""
  | component .. => some ""

/-- The text after the children. -/
def closing : Frame → String
  | element _ closing _ => closing
  | group .. => ""
  | component .. => ""

/-- The instances around the node if `active` are those of its children. -/
def around (active : Option (Twin Instance)) : Frame → Option (Twin Instance)
  | component boundary _ => boundary.around
  | element .. => active
  | group .. => active

theorem pairs_withPairs (frame : Frame) (pairs : Pairs) :
    (frame.withPairs pairs).pairs = pairs := by
  cases frame <;> rfl

theorem slot_withPairs (frame : Frame) (pairs : Pairs) :
    (frame.withPairs pairs).slot = frame.slot := by
  cases frame <;> rfl

theorem opening?_withPairs (frame : Frame) (pairs : Pairs) (findings : Findings) :
    (frame.withPairs pairs).opening? findings = frame.opening? findings := by
  cases frame <;> rfl

theorem closing_withPairs (frame : Frame) (pairs : Pairs) :
    (frame.withPairs pairs).closing = frame.closing := by
  cases frame <;> rfl

theorem around_withPairs (frame : Frame) (pairs : Pairs) (active : Option (Twin Instance)) :
    (frame.withPairs pairs).around active = frame.around active := by
  cases frame <;> rfl

/-- A frame and its zone. `inner` is the zone of what goes on inside it, and
    `done` are the expressions of the children that were compared. -/
structure Housed (program : Program) (used inner zone : Set Id) (done : List Id) (frame : Frame) :
    Prop where
  closed : Closed program.arena zone
  inner_sub : inner ⊆ zone
  slot_mem : frame.slot ∈ zone
  slots_mem : ∀ x ∈ frame.pairs.slots, x ∈ zone
  done_used : ∀ x ∈ done, x ∈ used
  done_out : ∀ x ∈ done, x ∉ inner
  left : ∃ span, Spans program.arena (frame.pairs.left.map (·.slot)) span ∧ span.Nodup ∧
    ∀ x ∈ span, x ∈ zone ∧ x ∉ inner ∧ x ∉ used

/-- A frame whose expression is not that of a child. -/
structure Inside (program : Program) (used inner zone : Set Id) (frame : Frame) : Prop where
  slot_used : frame.slot ∈ used
  slot_out : frame.slot ∉ inner
  not_static : program.findings.isStatic frame.slot = false
  root : ∀ boundary pairs, frame = .component boundary pairs → pairs.slots = [boundary.rootSlot]
  function_mem : ∀ boundary pairs, frame = .component boundary pairs → ∀ function,
    program.findings.function? boundary.slot = some function → function ∈ zone

/-- A frame and its account. `opened` is what was recorded before the frame
    was opened, `done` are the children that were compared, each with what
    was recorded meanwhile, and `current` is the child that is being compared,
    if there is one. All children have the same context. -/
structure Accounted (engine : Engine) (functions : Component → Option RenderFunction)
    (comments : Bool) (findings : Findings) (active : Option (Twin Instance))
    (context : Twin TagContext) (opened : List Event) (done : List (Pair × List Event))
    (current : List Pair) (frame : Frame) : Prop where
  slots : frame.pairs.slots = (done.map (·.1) ++ current ++ frame.pairs.left).map (·.slot)
  contexts : ∀ pair ∈ done.map (·.1) ++ current ++ frame.pairs.left, pair.context = context
  folded : ∀ child ∈ done, ∀ text, findings.literal? child.1.slot = some text →
    Folds engine functions comments active context [child.1.view] (Event.answers child.2) text
  promise : ∀ opening, frame.opening? findings = some opening →
    Owes engine functions comments opened frame.slot fun answers text =>
      ∃ content, Folds engine functions comments active context
        ((done.map (·.1) ++ current ++ frame.pairs.left).map (·.view)) answers content ∧
        text = opening ++ content ++ frame.closing

variable {program program' : Program} {used used' inner inner' zone : Set Id} {frame : Frame}
  {done : List Id}

theorem Housed.edit (h : Housed program used inner zone done frame)
    (hedit : program.EditedIn inner program') (hused : ∀ x ∈ used, x < program.arena.size) :
    Housed program' used (inner ∪ added program.arena program'.arena)
      (zone ∪ added program.arena program'.arena) done frame := by
  refine ⟨(hedit.widen h.inner_sub h.closed).arena.closed, ?_, Or.inl h.slot_mem,
    fun x hx => Or.inl (h.slots_mem x hx), h.done_used, fun x hx => ?_, ?_⟩
  · exact Set.union_subset_union_left _ h.inner_sub
  · rintro (hin | hin)
    · exact h.done_out x hx hin
    · exact absurd (hused x (h.done_used x hx)) (Nat.not_lt_of_le hin.1)
  -- What is left to be compared is outside the inner zone, where nothing was
  -- edited, and apart from what was added.
  · obtain ⟨span, hspan, hnodup, hout⟩ := h.left
    refine ⟨span, ?_, hnodup, fun x hx => ⟨Or.inl (hout x hx).1, ?_, (hout x hx).2.2⟩⟩
    · exact hedit.arena.spans hspan fun x hx => (hout x hx).2.1
    · rintro (hin | hin)
      · exact (hout x hx).2.1 hin
      · exact absurd (hspan.lt_size x hx) (Nat.not_lt_of_le hin.1)

theorem Housed.use (h : Housed program used inner zone done frame) (hsub : used ⊆ used')
    (hnew : ∀ x ∈ used', x ∈ used ∨ x ∈ inner) : Housed program used' inner zone done frame := by
  refine ⟨h.closed, h.inner_sub, h.slot_mem, h.slots_mem, fun x hx => hsub (h.done_used x hx),
    h.done_out, ?_⟩
  obtain ⟨span, hspan, hnodup, hout⟩ := h.left
  refine ⟨span, hspan, hnodup, fun x hx => ⟨(hout x hx).1, (hout x hx).2.1, fun hin => ?_⟩⟩
  exact (hnew x hin).elim (hout x hx).2.2 (hout x hx).2.1

theorem Inside.edit (h : Inside program used inner zone frame) (hzone : frame.slot ∈ zone)
    (hclosed : Closed program.arena zone) (hedit : program.EditedIn inner program') :
    Inside program' used (inner ∪ added program.arena program'.arena)
      (zone ∪ added program.arena program'.arena) frame := by
  have hlt : frame.slot < program.arena.size := (hclosed _ hzone).1
  have hsame := hedit.findings frame.slot hlt h.slot_out
  refine ⟨h.slot_used, ?_, (Findings.isStatic_congr hsame).trans h.not_static, h.root,
    fun boundary pairs hframe function hfunction => ?_⟩
  · rintro (hin | hin)
    · exact h.slot_out hin
    · exact absurd hlt (Nat.not_lt_of_le hin.1)
  · have hslot : frame.slot = boundary.slot := by rw [hframe]; rfl
    rw [← hslot, Findings.function?_congr hsame, hslot] at hfunction
    exact Or.inl (h.function_mem boundary pairs hframe function hfunction)

theorem Inside.use (h : Inside program used inner zone frame) (hsub : used ⊆ used') :
    Inside program used' inner zone frame :=
  ⟨hsub h.slot_used, h.slot_out, h.not_static, h.root, h.function_mem⟩

variable {engine : Engine} {functions : Component → Option RenderFunction} {comments : Bool}
  {findings findings' : Findings} {active : Option (Twin Instance)} {context : Twin TagContext}
  {opened : List Event} {children : List (Pair × List Event)} {current : List Pair}

/-- An account stays as it is when nothing else is found out about the node
    and the children that were compared. -/
theorem Accounted.same
    (h : Accounted engine functions comments findings active context opened children current frame)
    (hopening : frame.opening? findings' = frame.opening? findings)
    (hdone : ∀ child ∈ children, findings'.literal? child.1.slot = findings.literal? child.1.slot) :
    Accounted engine functions comments findings' active context opened children current frame where
  slots := h.slots
  contexts := h.contexts
  folded child hchild text hliteral :=
    h.folded child hchild text (by rwa [hdone child hchild] at hliteral)
  promise opening hfound := h.promise opening (by rwa [hopening] at hfound)

/-- What is done inside a frame does not change what was found out about the
    children that were compared before. -/
theorem Housed.literal?_edit
    (h : Housed program used inner zone (children.map (·.1.slot)) frame)
    (hedit : program.EditedIn inner program') (hused : ∀ x ∈ used, x < program.arena.size) :
    ∀ child ∈ children,
      program'.findings.literal? child.1.slot = program.findings.literal? child.1.slot := by
  intro child hchild
  have hdone : child.1.slot ∈ children.map (·.1.slot) := List.mem_map_of_mem hchild
  exact Findings.literal?_congr
    (hedit.findings _ (hused _ (h.done_used _ hdone)) (h.done_out _ hdone))

/-- If all children are literals, they fold into what these are together. -/
theorem folds_of_literal?
    (hfolded : ∀ child ∈ children, ∀ text, findings.literal? child.1.slot = some text →
      Folds engine functions comments active context [child.1.view] (Event.answers child.2) text) :
    ∀ {content}, Run.literal? (findings.runs (children.map (·.1.slot))) = some content →
      Folds engine functions comments active context (children.map (·.1.view))
        (Event.answers (children.flatMap (·.2))) content := by
  -- By induction on the children, as their texts are put together.
  induction children with
  | nil =>
      intro content hcontent
      cases hcontent
      exact .nil
  | cons child rest ih =>
      intro content hcontent
      simp only [List.map_cons, Findings.runs] at hcontent
      split at hcontent
      · next text htext =>
          rw [Run.literal?_prependLiteral, Option.map_eq_some_iff] at hcontent
          obtain ⟨later, hlater, rfl⟩ := hcontent
          rw [List.map_cons, List.flatMap_cons, Event.answers_append]
          exact (hfolded child List.mem_cons_self text htext).append
            (ih (fun other hother => hfolded other (List.mem_cons_of_mem _ hother)) hlater)
      · cases hcontent

theorem opening?_congr (h : findings'.get? frame.slot = findings.get? frame.slot) :
    frame.opening? findings' = frame.opening? findings := by
  cases frame with
  | element slot closing pairs => exact Findings.text?_congr h
  | group slot pairs => rfl
  | component boundary pairs => rfl

theorem next?_eq_some {pairs left : Pairs} {pair : Pair} (h : pairs.next? = some (pair, left)) :
    pairs.left = pair :: left.left ∧ pairs.slots = left.slots := by
  unfold Pairs.next? at h
  split at h
  · cases h
  · next hleft =>
      cases h
      exact ⟨hleft, rfl⟩

/-- The next child of a frame is a tree, and nothing in it is used yet. It is
    the zone of what goes on inside the frame from then on. -/
theorem Housed.next {pair : Pair} {left : Pairs} (h : Housed program used inner zone done frame)
    (hnext : frame.pairs.next? = some (pair, left)) :
    ∃ span, Spans program.arena [pair.slot] span ∧ span.Nodup ∧ (∀ x ∈ span, x ∉ used) ∧
      Housed program used {x | x ∈ span} zone done (frame.withPairs left) := by
  obtain ⟨hleft, hslots⟩ := next?_eq_some hnext
  obtain ⟨whole, hspans, hnodup, hout⟩ := h.left
  rw [hleft, List.map_cons] at hspans
  obtain ⟨span, later, hspan, hlater, rfl⟩ := hspans.of_cons
  -- What is below the next child has nothing in common with what is below the
  -- children after it, so it can be a zone of its own.
  obtain ⟨hnodup, hnodup', hdisjoint⟩ := List.nodup_append.mp hnodup
  have hfirst : ∀ x ∈ span, x ∈ zone ∧ x ∉ used := fun x hx =>
    ⟨(hout x (List.mem_append_left _ hx)).1, (hout x (List.mem_append_left _ hx)).2.2⟩
  refine ⟨span, hspan, hnodup, fun x hx => (hfirst x hx).2, ?_⟩
  refine ⟨h.closed, fun x hx => (hfirst x hx).1, ?_, ?_, h.done_used, fun x hx hin => ?_, ?_⟩
  · rw [slot_withPairs]
    exact h.slot_mem
  · rw [pairs_withPairs, ← hslots]
    exact h.slots_mem
  · exact (hfirst x hin).2 (h.done_used x hx)
  · rw [pairs_withPairs]
    refine ⟨later, hlater, hnodup', fun x hx => ?_⟩
    have hx' := hout x (List.mem_append_right _ hx)
    exact ⟨hx'.1, fun hin => hdisjoint x hin x hx rfl, hx'.2.2⟩

theorem Inside.next {span : List Id} {left : Pairs} (h : Inside program used inner zone frame)
    (hspan : ∀ x ∈ span, x ∉ used) (hslots : frame.pairs.slots = left.slots) :
    Inside program used {x | x ∈ span} zone (frame.withPairs left) := by
  refine ⟨?_, ?_, ?_, fun boundary pairs hframe => ?_,
    fun boundary pairs hframe function hfunction => ?_⟩
  · rw [slot_withPairs]
    exact h.slot_used
  · rw [slot_withPairs]
    exact fun hin => hspan _ hin h.slot_used
  · rw [slot_withPairs]
    exact h.not_static
  · cases frame with
    | component own pairs' =>
        cases hframe
        exact hslots.symm.trans (h.root _ _ rfl)
    | element slot closing pairs' => cases hframe
    | group slot pairs' => cases hframe
  · cases frame with
    | component own pairs' =>
        cases hframe
        exact h.function_mem _ _ rfl function hfunction
    | element slot closing pairs' => cases hframe
    | group slot pairs' => cases hframe

theorem Accounted.next {pair : Pair} {left : Pairs}
    (h : Accounted engine functions comments findings active context opened children [] frame)
    (hnext : frame.pairs.next? = some (pair, left)) :
    Accounted engine functions comments findings active context opened children [pair]
      (frame.withPairs left) := by
  obtain ⟨hleft, hslots⟩ := next?_eq_some hnext
  have hsame : children.map (·.1) ++ [] ++ frame.pairs.left =
      children.map (·.1) ++ [pair] ++ (frame.withPairs left).pairs.left := by
    rw [hleft, pairs_withPairs, List.append_nil, List.append_assoc]
    rfl
  refine ⟨?_, ?_, h.folded, fun opening hopening => ?_⟩
  · rw [← hsame, pairs_withPairs, ← hslots]
    exact h.slots
  · rw [← hsame]
    exact h.contexts
  · rw [opening?_withPairs] at hopening
    rw [← hsame, slot_withPairs, closing_withPairs]
    exact h.promise opening hopening

/-- A child has been compared. -/
theorem Housed.settle {slot : Id} (h : Housed program used inner zone done frame)
    (hslot : slot ∈ used) : Housed program used ∅ zone (done ++ [slot]) frame := by
  refine ⟨h.closed, Set.empty_subset _, h.slot_mem, h.slots_mem, fun x hx => ?_, fun x _ => id, ?_⟩
  · rcases List.mem_append.mp hx with hx | hx
    · exact h.done_used x hx
    · rwa [List.mem_singleton.mp hx]
  · obtain ⟨span, hspan, hnodup, hout⟩ := h.left
    exact ⟨span, hspan, hnodup, fun x hx => ⟨(hout x hx).1, id, (hout x hx).2.2⟩⟩

theorem Inside.settle (h : Inside program used inner zone frame) :
    Inside program used ∅ zone frame :=
  ⟨h.slot_used, id, h.not_static, h.root, h.function_mem⟩

theorem Accounted.settle {pair : Pair} {events : List Event}
    (h : Accounted engine functions comments findings active context opened children [pair] frame)
    (hfolds : ∀ text, findings.literal? pair.slot = some text →
      Folds engine functions comments active pair.context [pair.view] (Event.answers events) text) :
    Accounted engine functions comments findings active context opened
      (children ++ [(pair, events)]) [] frame := by
  have hsame : (children ++ [(pair, events)]).map (·.1) ++ [] ++ frame.pairs.left =
      children.map (·.1) ++ [pair] ++ frame.pairs.left := by
    rw [List.map_append, List.append_nil]
    rfl
  have hcontext : pair.context = context :=
    h.contexts pair (List.mem_append_left _ (List.mem_append_right _ List.mem_cons_self))
  refine ⟨?_, ?_, fun child hchild => ?_, ?_⟩
  · rw [hsame]
    exact h.slots
  · rw [hsame]
    exact h.contexts
  · rcases List.mem_append.mp hchild with hchild | hchild
    · exact h.folded child hchild
    · rw [List.mem_singleton.mp hchild, ← hcontext]
      exact hfolds
  · rw [hsame]
    exact h.promise

end Frame

section Stack

variable (engine : Engine) (functions : Component → Option RenderFunction) (comments : Bool)
  (program : Program) (used : Set Id)

/-- A stack of frames, each inside the next. `start` is what was recorded
    before the current child of the innermost frame was compared, `inner` is
    the zone of that child, `active` are the instances that it comes from and
    `current` is the child itself, if there is one. -/
inductive Stacked :
    List Event → Set Id → Option (Twin Instance) → List Pair → List Frame → Prop where
  /-- The walk is over. -/
  | ended {start inner active current} : Stacked start inner active current []
  /-- The outermost frame holds the root, at an expression of its own. -/
  | root {inner zone active context done current slot pairs} (hslots : pairs.slots = [slot])
      (hhoused : Frame.Housed program used inner zone (done.map (·.1.slot)) (.group slot pairs))
      (haccounted : Frame.Accounted engine functions comments program.findings active context []
        done current (.group slot pairs)) :
      Stacked (done.flatMap (·.2)) inner active current [.group slot pairs]
  /-- A frame inside others was opened for their current child. What was
      recorded since then is about its zone, and about its own expression only
      as long as it was not open. -/
  | inside {inner zone active context opened done current frame rest outer before since}
      (hhoused : Frame.Housed program used inner zone (done.map (·.1.slot)) frame)
      (hinside : Frame.Inside program used inner zone frame)
      (haccounted : Frame.Accounted engine functions comments program.findings active context
        opened done current frame)
      (hopened : opened = before ++ .compared outer (frame.around active) :: since)
      (houter : outer.slot = frame.slot)
      (hwithin : ∀ x ∈ Event.slots (.compared outer (frame.around active) :: since), x ∈ zone)
      (hchildren : ∀ x ∈ Event.slots (done.flatMap (·.2)), x ∈ zone ∧ x ≠ frame.slot)
      (hrest : Stacked before zone (frame.around active) [outer] rest) :
      Stacked (opened ++ done.flatMap (·.2)) inner active current (frame :: rest)

end Stack

namespace Stacked

variable {engine : Engine} {functions : Component → Option RenderFunction} {comments : Bool}
  {program program' : Program} {used used' : Set Id} {start : List Event} {inner inner' : Set Id}
  {active : Option (Twin Instance)} {current : List Pair} {frames : List Frame}

/-- What is done inside the innermost frame leaves the stack as it is. -/
theorem edit (h : Stacked engine functions comments program used start inner active current frames)
    (hedit : program.EditedIn inner program') (hused : ∀ x ∈ used, x < program.arena.size) :
    Stacked engine functions comments program' used start
      (inner ∪ added program.arena program'.arena) active current frames := by
  -- By induction on the stack: what is inside the innermost frame is inside all
  -- the frames around it.
  induction h with
  | ended => exact .ended
  | root hslots hhoused haccounted =>
      exact .root hslots (hhoused.edit hedit hused)
        (haccounted.same rfl (hhoused.literal?_edit hedit hused))
  | inside hhoused hinside haccounted hopened houter hwithin hchildren hrest ih =>
      have hclosed := hhoused.closed
      refine .inside (hhoused.edit hedit hused)
        (hinside.edit hhoused.slot_mem hhoused.closed hedit)
        (haccounted.same ?_ (hhoused.literal?_edit hedit hused)) hopened houter
        (fun x hx => Or.inl (hwithin x hx))
        (fun x hx => ⟨Or.inl (hchildren x hx).1, (hchildren x hx).2⟩)
        (ih (hedit.widen hhoused.inner_sub hhoused.closed))
      exact Frame.opening?_congr (hedit.findings _ (hclosed _ hhoused.slot_mem).1 hinside.slot_out)

/-- More expressions are used inside the innermost frame. -/
theorem use (h : Stacked engine functions comments program used start inner active current frames)
    (hsub : used ⊆ used') (hnew : ∀ x ∈ used', x ∈ used ∨ x ∈ inner) :
    Stacked engine functions comments program used' start inner active current frames := by
  induction h with
  | ended => exact .ended
  | root hslots hhoused haccounted => exact .root hslots (hhoused.use hsub hnew) haccounted
  | inside hhoused hinside haccounted hopened houter hwithin hchildren hrest ih =>
      exact .inside (hhoused.use hsub hnew) (hinside.use hsub) haccounted hopened houter
        hwithin hchildren (ih fun x hx => (hnew x hx).imp id fun hin => hhoused.inner_sub hin)

/-- Taking the next pair of the innermost frame. -/
theorem next {frame : Frame} {rest : List Frame} {pair : Pair} {left : Pairs}
    (h : Stacked engine functions comments program used start inner active [] (frame :: rest))
    (hnext : frame.pairs.next? = some (pair, left)) :
    ∃ span, Spans program.arena [pair.slot] span ∧ span.Nodup ∧ (∀ x ∈ span, x ∉ used) ∧
      Stacked engine functions comments program used start {x | x ∈ span} active [pair]
        (frame.withPairs left :: rest) := by
  cases h with
  | root hslots hhoused haccounted =>
      obtain ⟨span, hspan, hnodup, hout, hhoused⟩ := hhoused.next hnext
      obtain ⟨-, hsame⟩ := Frame.next?_eq_some hnext
      exact ⟨span, hspan, hnodup, hout,
        .root (hsame.symm.trans hslots) hhoused (haccounted.next hnext)⟩
  | inside hhoused hinside haccounted hopened houter hwithin hchildren hrest =>
      obtain ⟨span, hspan, hnodup, hout, hhoused⟩ := hhoused.next hnext
      rw [← Frame.around_withPairs frame left active] at hopened hwithin hrest
      rw [← Frame.slot_withPairs frame left] at houter hchildren
      obtain ⟨-, hsame⟩ := Frame.next?_eq_some hnext
      exact ⟨span, hspan, hnodup, hout, .inside hhoused (hinside.next hout hsame)
        (haccounted.next hnext) hopened houter hwithin hchildren hrest⟩

/-- The current child of the innermost frame has been compared. -/
theorem settle {pair : Pair} {events whole : List Event}
    (h : Stacked engine functions comments program used start inner active [pair] frames)
    (hwhole : whole = start ++ events) (hinner : ∀ x ∈ Event.slots events, x ∈ inner)
    (hused : pair.slot ∈ used)
    (hfolds : ∀ text, program.findings.literal? pair.slot = some text →
      Folds engine functions comments active pair.context [pair.view] (Event.answers events) text) :
    Stacked engine functions comments program used whole ∅ active [] frames := by
  rw [hwhole]
  -- The child joins those that are done, with what was recorded for it.
  have hstart (done : List (Pair × List Event)) :
      done.flatMap (·.2) ++ events = (done ++ [(pair, events)]).flatMap (·.2) := by
    rw [List.flatMap_append, List.flatMap_singleton]
  have hmap (done : List (Pair × List Event)) :
      (done ++ [(pair, events)]).map (·.1.slot) = done.map (·.1.slot) ++ [pair.slot] := by
    rw [List.map_append]
    rfl
  cases h with
  | ended => exact .ended
  | @root _ _ _ _ done _ _ _ hslots hhoused haccounted =>
      rw [hstart]
      exact .root hslots (hmap done ▸ hhoused.settle hused) (haccounted.settle hfolds)
  | @inside _ zone _ _ opened done _ frame _ _ _ _ hhoused hinside haccounted hopened houter
      hwithin hchildren hrest =>
      -- What was recorded for it is about its zone, so not about the node itself.
      have hchildren' : ∀ x ∈ Event.slots ((done ++ [(pair, events)]).flatMap (·.2)),
          x ∈ zone ∧ x ≠ frame.slot := by
        intro x hx
        rw [← hstart, Event.slots_append] at hx
        rcases List.mem_append.mp hx with hx | hx
        · exact hchildren x hx
        · exact ⟨hhoused.inner_sub (hinner x hx), fun heq => hinside.slot_out (heq ▸ hinner x hx)⟩
      rw [List.append_assoc, hstart]
      exact .inside (hmap done ▸ hhoused.settle hused) hinside.settle (haccounted.settle hfolds)
        hopened houter hwithin hchildren' hrest

/-- A frame with no pairs left is the outermost one, or its node is the
    current child of the frame around it. It folds if all children do. -/
theorem finish {frame : Frame} {rest : List Frame}
    (h : Stacked engine functions comments program used start inner active [] (frame :: rest))
    (hnext : frame.pairs.next? = none) :
    (rest = [] ∧ ∃ slot pairs, frame = .group slot pairs ∧ pairs.slots = [slot]) ∨
      ∃ zone outer before since,
        start = before ++ .compared outer (frame.around active) :: since ∧
        outer.slot = frame.slot ∧
        (∀ x ∈ Event.slots (.compared outer (frame.around active) :: since), x ∈ zone) ∧
        Stacked engine functions comments program used before zone (frame.around active) [outer]
          rest ∧
        Closed program.arena zone ∧ frame.slot ∈ zone ∧ (∀ x ∈ frame.pairs.slots, x ∈ zone) ∧
        Frame.Inside program used inner zone frame ∧
        Owes engine functions comments start frame.slot fun answers text => answers = [] ∧
          ∃ opening content, frame.opening? program.findings = some opening ∧
            Run.literal? (program.findings.runs frame.pairs.slots) = some content ∧
            text = opening ++ content ++ frame.closing := by
  cases h with
  | root hslots hhoused haccounted => exact Or.inl ⟨rfl, _, _, rfl, hslots⟩
  | @inside _ zone _ context opened done _ _ _ outer before since hhoused hinside haccounted
      hopened houter hwithin hchildren hrest =>
      -- Nothing is left, so the account is about all children.
      have hleft : frame.pairs.left = [] := by
        unfold Pairs.next? at hnext
        split at hnext
        · assumption
        · cases hnext
      have hslots := haccounted.slots
      rw [hleft, List.append_nil, List.append_nil, List.map_map] at hslots
      refine Or.inr ⟨zone, outer, before, since ++ done.flatMap (·.2), ?_, houter, fun x hx => ?_,
        hrest, hhoused.closed, hhoused.slot_mem, hhoused.slots_mem, hinside, ?_⟩
      · rw [hopened, List.append_assoc, List.cons_append]
      · rw [← List.cons_append, Event.slots_append] at hx
        rcases List.mem_append.mp hx with hx | hx
        · exact hwithin x hx
        · exact (hchildren x hx).1
      · cases hopening : frame.opening? program.findings with
        -- No text is known that opens the node, and then nothing is owed.
        | none =>
            intro _ _ _ _ _ _ answers text hmet
            obtain ⟨-, opening, -, hnone, -⟩ := hmet
            cases hnone
        | some opening =>
            -- The promise was made when the frame was opened. What was recorded since is
            -- what the children fold into, and nothing of it is about the node.
            have howes := haccounted.promise opening hopening
            rw [hleft, List.append_nil, List.append_nil, List.map_map] at howes
            refine howes.append (fun hin => (hchildren _ hin).2 rfl) fun answers text hmet => ?_
            obtain ⟨rfl, _, content, hsome, hcontent, rfl⟩ := hmet
            cases hsome
            rw [hslots] at hcontent
            have hfolds := Frame.folds_of_literal? haccounted.folded hcontent
            rw [List.append_nil]
            exact ⟨content, hfolds, rfl⟩

end Stacked

end RenderFold
