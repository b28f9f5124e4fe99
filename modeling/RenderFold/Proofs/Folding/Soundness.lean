import RenderFold.Proofs.Folding.Finished
import RenderFold.Proofs.Folding.Reach
import RenderFold.Proofs.Folding.Resumed

/-!
# What Is Found Out Is Right

A walk starts idle, and every move it makes leaves it in order, so what it
has found out is right in every state it can be in. An expression is static
only if all pairs that were compared there fold, and then its markup is that
of their static sides. Any other text that was found for an expression opens
the static side of such a pair.

The dynamic sides have no part in what is kept. They only decide whether it
is kept: if their markup differs, nothing is.

## Theorems

* `Walk.start_idle`: A walk starts in order.
* `Walk.Reaches.sound`: It stays in order.
* `Walk.Reaches.text_written`: What is kept is markup of the static side.
* `Walk.Reaches.not_static`: Nothing is kept if the markup differs.
-/

namespace RenderFold

open Script (Id)
open Script.Arena (Closed)

/-- What async components resolved to in the static pass, whatever they
    resolved to in the other. -/
def Settled.staticAnswer (settled : Settled) : Answer :=
  ⟨settled.factories.static, some settled.resolutions.static⟩

/-- What async components resolved to in the dynamic pass. -/
def Settled.dynamicAnswer (settled : Settled) : Answer :=
  ⟨settled.factories.dynamic, some settled.resolutions.dynamic⟩

theorem Settled.static_of_symmetric {settled : Settled} (h : settled.isSymmetric = true) :
    settled.static = settled.staticAnswer := by
  simp only [static, h, if_true, staticAnswer]

theorem Settled.dynamic_of_symmetric {settled : Settled} (h : settled.isSymmetric = true) :
    settled.dynamic = settled.dynamicAnswer := by
  simp only [dynamic, h, if_true, dynamicAnswer]

namespace Walk

variable {engine : Engine} {functions : Component → Option RenderFunction} {comments : Bool}
  {options : Options} {root : Twin View} {state : Engine.State} {start walk : Walk}
  {events : List Event} {out : Option Suspension}

/-- A walk starts with an expression of its own for the root. -/
theorem start_idle (options : Options) (root : Twin View) (state : Engine.State) :
    Idle engine (engine.function? state) options.foldComments [] (.start options root state) where
  stacked := by
    have hclosed : Closed Program.empty.arena ∅ := fun _ hid => absurd hid (Set.notMem_empty _)
    have hlocates : Program.empty.Locates ∅ ∅ [Program.empty.pushHole.1] Program.empty.pushHole.2 :=
      Program.empty.pushHole_adds.locates hclosed fun x hx => absurd hx (Set.notMem_empty _)
    -- The expression of the root is the first of the program, so it is new.
    obtain ⟨span, hspan, hnodup, hout⟩ := hlocates.room
    have hslot : Program.empty.pushHole.1 ∈ span := hspan.subset List.mem_cons_self
    let pair : Pair := ⟨root, Program.empty.pushHole.1, ⟨.empty, .empty⟩⟩
    let done : List (Pair × List Event) := []
    have hhoused : Frame.Housed Program.empty.pushHole.2 {x | x ∈ Event.slots []} ∅
        (∅ ∪ Script.Arena.added Program.empty.arena Program.empty.pushHole.2.arena)
        (done.map (·.1.slot)) (.group pair.slot (.ofList [pair])) := by
      refine ⟨hlocates.edited.arena.closed, Set.empty_subset _, (hout _ hslot).1, fun x hx => ?_,
        fun x hx => absurd hx List.not_mem_nil, fun x _ => id, ?_⟩
      · exact List.mem_singleton.mp hx ▸ (hout _ hslot).1
      · exact ⟨span, hspan, hnodup, fun x hx => ⟨(hout x hx).1, id, List.not_mem_nil⟩⟩
    have haccounted : Frame.Accounted engine (engine.function? state) options.foldComments
        Program.empty.pushHole.2.findings none pair.context [] done []
        (.group pair.slot (.ofList [pair])) := by
      refine ⟨rfl, fun other hother => ?_, fun child hchild => absurd hchild List.not_mem_nil,
        fun _ _ => Owes.of_not_mem List.not_mem_nil⟩
      rw [List.mem_singleton.mp hother]
    exact ⟨∅, .root rfl hhoused haccounted⟩
  recorded := .empty
  used_lt x hx := absurd hx List.not_mem_nil
  functions := rfl
  comments := rfl

/-- What comparing the next pair leads to. -/
theorem Idle.compare {frame : Frame} {rest : List Frame} {pair : Pair} {left : Pairs}
    (h : Idle engine functions comments events walk) (hframes : walk.frames = frame :: rest)
    (hnext : frame.pairs.next? = some (pair, left)) :
    Leads (Walk.compare engine maxChain pair)
      { walk with frames := frame.withPairs left :: rest }
      (fun out after => Stands engine functions comments
        (events ++ trail walk.cached walk.active maxChain pair) after out)
      (Idle engine functions comments
        (events ++ trail walk.cached walk.active maxChain pair)) := by
  obtain ⟨zone, hbusy, hroom⟩ := h.next hframes hnext
  have hready : Ready engine functions comments (events ++ [.compared pair walk.active])
      { walk with frames := frame.withPairs left :: rest } pair zone :=
    ⟨hbusy, hroom, List.mem_append_right _ List.mem_cons_self⟩
  exact compare_leads maxChain hready

/-- Every move leaves a walk in order. -/
theorem Reaches.sound (hstart : Idle engine functions comments [] start)
    (hgoing : start.pause = .going) (h : Reaches engine start events out walk) :
    Sound engine functions comments events walk out := by
  -- By induction on the moves. A walk that is idle or waits before a move is so
  -- after it, and a move that fails leaves it idle: nothing was found out.
  induction h with
  | start => exact hstart.rests hgoing
  | compare h hpause hframes hnext hleaves ih =>
      have hleads := (compare_steady maxChain _).leads ((ih.idle hpause).compare hframes hnext)
      cases hleaves with
      | ok hwork =>
          rename_i found
          obtain ⟨hstands, hafter⟩ := leads_ok hleads hwork
          cases found with
          | none => exact Idle.rests hstands (hafter.trans hpause)
          | some suspension => exact ⟨rfl, Waits.withPause .waiting hstands⟩
      | error hwork =>
          obtain ⟨hidle, hafter⟩ := leads_error hleads hwork
          exact hidle.rests (hafter.trans hpause)
  | finish h hpause hframes hnext hleaves ih =>
      have hleads := (finish_steady _).leads (finish_leads (ih.idle hpause) hframes hnext)
      cases hleaves with
      | ok hwork =>
          obtain ⟨hidle, hafter⟩ := leads_ok hleads hwork
          exact hidle.rests (hafter.trans hpause)
      | error hwork =>
          obtain ⟨hidle, hafter⟩ := leads_error hleads hwork
          exact hidle.rests (hafter.trans hpause)
  | handOut h hpause ih =>
      exact ⟨rfl, (ih.waits hpause).withPause .waiting⟩
  | resume h hawait hleaves ih =>
      have hleads := resume_leads ih hawait
      cases hleaves with
      | ok hwork => exact leads_ok hleads hwork
      | error hwork => exact leads_error hleads hwork
  -- What the walk waits for has failed. It stays where it is, and what it has
  -- found out so far is all that is left to say about it.
  | fail h hawait ih =>
      obtain ⟨hpause, hwaits⟩ := ih
      rw [Sound, Rests, hpause]
      exact hwaits.recorded

/-- What a walk has found out is right in every state that it can be in. -/
theorem Reaches.recorded (h : Reaches engine (.start options root state) events out walk) :
    Recorded engine (engine.function? state) options.foldComments events
      walk.program.findings := by
  have hsound := h.sound (start_idle options root state) rfl
  cases out with
  | none => exact Rests.recorded hsound
  | some suspension => exact hsound.2.recorded

/-- The text kept for a static expression is the markup of the static side of
    every pair that was compared there, with what async components resolved
    to from then on. Two that resolved to different kinds of things are
    written as a comment. Any other text that is kept opens the static side
    of a pair. -/
theorem Reaches.text_written (h : Reaches engine (.start options root state) events out walk)
    (slot : Id) :
    (walk.program.findings.isStatic slot = true →
      slot ∈ Event.slots events ∧ ∃ text, walk.program.findings.text? slot = some text ∧
        ∀ before pair active after, events = before ++ .compared pair active :: after →
          pair.slot = slot → ∃ mine later steps, after = mine ++ later ∧
            Written engine (engine.function? state) .static id (active.map (·.static))
              pair.context.static [pair.view.static] ((Event.answers mine).map Settled.static) text
              steps) ∧
    (walk.program.findings.isStatic slot = false →
      ∀ text, walk.program.findings.text? slot = some text →
        ∃ pair active, .compared pair active ∈ events ∧ pair.slot = slot ∧
          pair.view.static.opening? engine.registry pair.context.static = some text) := by
  have hrecorded := h.recorded
  refine ⟨fun hstatic => ?_, fun hstatic text htext => hrecorded.opens slot text hstatic htext⟩
  obtain ⟨text, htext⟩ := hrecorded.text_of_static slot hstatic
  refine ⟨?_, text, htext, fun before pair active after hevents hslot => ?_⟩
  -- Nothing is static where no pair was compared.
  · by_contra hnone
    rw [(hrecorded.unknown slot hnone).2] at hstatic
    cases hstatic
  · obtain ⟨mine, later, hafter, hfolds⟩ := hrecorded.folds slot text
      (Findings.literal?_eq_some_iff.mpr ⟨hstatic, htext⟩) before pair active after hevents hslot
    obtain ⟨steps, hwritten⟩ := hfolds.written_static
    exact ⟨mine, later, steps, hafter, hwritten⟩

/-- A page whose markup has a blank before it or after it. -/
def shifting : Component :=
  { Component.named "page" with
    render := (RenderFunction.compile "return _ssrNode(name ? \"x \" : \" x\")").toOption }

/-- An engine that knows a single component. -/
def engineOf (component : Component) : Engine where
  components _ := component
  factories _ := default
  globals := []
  registry := .empty
  compiler := none
  refuses _ := none

/-- The two roots for a request with a name. -/
def named (name : String) : Twin View :=
  ⟨.component 0 .empty, .component 0 (.withProps (.object [("name", .str name)]))⟩

/-- The state after the next pair has been compared, with the pair. Nothing
    is compared if there is no pair. -/
def comparing (engine : Engine) (walk : Walk) : Option (Pair × Walk) :=
  match walk.frames with
  | [] => none
  | frame :: rest =>
    match frame.pairs.next? with
    | none => none
    | some (pair, left) =>
      match compare engine maxChain pair { walk with frames := frame.withPairs left :: rest } with
      | .ok none after => some (pair, after)
      | _ => none

theorem Reaches.comparing {after : Walk} {pair : Pair}
    (h : Reaches engine start events none walk) (hpause : walk.pause = .going)
    (hcompare : comparing engine walk = some (pair, after)) :
    Reaches engine start (events ++ trail walk.cached walk.active maxChain pair) none after ∧
      after.pause = .going := by
  unfold Walk.comparing at hcompare
  split at hcompare
  · cases hcompare
  · next frame rest hframes =>
      split at hcompare
      · cases hcompare
      · next pair' left hnext =>
          split at hcompare
          · next after' hwork =>
              cases hcompare
              exact ⟨.compare h hpause hframes hnext (.ok hwork),
                (leads_ok (compare_steady _ _ _) hwork).1.trans hpause⟩
          · cases hcompare

theorem trail_of_kind {cached : FactoryId → Option Resolution} {active : Option (Twin Instance)}
    {pair : Pair} (h : pair.view.static.kind ≠ "AsyncComponent") (depth : Nat) :
    trail cached active depth pair = [.compared pair active] := by
  cases depth with
  | zero => rfl
  | succ depth =>
      obtain ⟨⟨static, dynamic⟩, slot, context⟩ := pair
      cases static with
      | deferred id data => exact absurd rfl h
      | _ => rfl

/-- Whether a pair is that of the two roots of the page. -/
def isShifted (pair : Pair) : Bool :=
  match pair.view with
  | ⟨.fragment " x" "" [], .fragment "x " "" []⟩ => true
  | _ => false

theorem view_of_isShifted {pair : Pair} (h : isShifted pair = true) :
    pair.view = ⟨.fragment " x" "" [], .fragment "x " "" []⟩ := by
  unfold isShifted at h
  split at h
  · assumption
  · cases h

theorem shifting_reaches : ∃ before pair active walk,
    Reaches (engineOf shifting) (.start .standard (named "ada") (engineOf shifting).initial)
      (before ++ [.compared pair active]) none walk ∧
    Event.answers before = [] ∧ pair.view = ⟨.fragment " x" "" [], .fragment "x " "" []⟩ ∧
    walk.program.findings.isStatic pair.slot = true := by
  have hrun : (comparing (engineOf shifting)
      (.start .standard (named "ada") (engineOf shifting).initial)).any (fun (page, entered) =>
        page.view.static.kind ≠ "AsyncComponent" &&
          (comparing (engineOf shifting) entered).any fun (root, walk) =>
            isShifted root && walk.program.findings.isStatic root.slot) = true := by decide +kernel
  obtain ⟨⟨page, entered⟩, henter, hrun⟩ := (Option.any_eq_true _ _).mp hrun
  obtain ⟨hpage, hrun⟩ := Bool.and_eq_true_iff.mp hrun
  obtain ⟨⟨root, walk⟩, hcompare, hrun⟩ := (Option.any_eq_true _ _).mp hrun
  obtain ⟨hroot, hstatic⟩ := Bool.and_eq_true_iff.mp hrun
  -- The first move compares the two pages, and the second their roots.
  have hview := view_of_isShifted hroot
  obtain ⟨hreaches, hpause⟩ := Reaches.start.comparing rfl henter
  obtain ⟨hreaches, -⟩ := hreaches.comparing hpause hcompare
  rw [trail_of_kind (of_decide_eq_true hpage), trail_of_kind (by rw [hview]; decide)] at hreaches
  exact ⟨_, _, _, _, hreaches, rfl, hview, hstatic⟩

theorem shifting_text_written : ∃ before pair active walk text steps,
    Reaches (engineOf shifting) (.start .standard (named "ada") (engineOf shifting).initial)
      (before ++ [.compared pair active]) none walk ∧
    walk.program.findings.text? pair.slot = some text ∧
    Written (engineOf shifting) ((engineOf shifting).function? (engineOf shifting).initial) .static
      id (active.map (·.static)) pair.context.static [pair.view.static] [] text steps := by
  obtain ⟨before, pair, active, walk, hreaches, -, -, hstatic⟩ := shifting_reaches
  obtain ⟨-, text, htext, hwritten⟩ := (Reaches.text_written hreaches pair.slot).1 hstatic
  obtain ⟨mine, later, steps, hafter, hwritten⟩ := hwritten before pair active [] rfl rfl
  obtain ⟨rfl, -⟩ := List.append_eq_nil_iff.mp hafter.symm
  exact ⟨before, pair, active, walk, text, steps, hreaches, htext, hwritten⟩

/-- An expression is never static, now or later, if the two sides of a pair
    that was compared there have different markup. The markup is what each
    side amounts to on its own, with what the async components below it
    resolve to, some of which may not have resolved yet. Blanks at either end
    of markup without children do not count. -/
theorem Reaches.not_static (h : Reaches engine (.start options root state) events out walk)
    (hsymmetric : ∀ settled ∈ Event.answers events, settled.isSymmetric = true)
    {before after : List Event} {pair : Pair} {active : Option (Twin Instance)}
    (hevents : events = before ++ .compared pair active :: after)
    {whole mine mine' : List Settled} (hwhole : Event.answers after <+: whole)
    (hmine : mine <+: whole) (hmine' : mine' <+: whole) {html html' : String} {steps steps' : Nat}
    (hstatic : Written engine (engine.function? state) .static Text.trim (active.map (·.static))
      pair.context.static [pair.view.static] (mine.map Settled.staticAnswer) html steps)
    (hdynamic : Written engine (engine.function? state) .dynamic Text.trim
      (active.map (·.dynamic)) pair.context.dynamic [pair.view.dynamic]
      (mine'.map Settled.dynamicAnswer) html' steps')
    (hdiffer : html ≠ html') : walk.program.findings.isStatic pair.slot = false := by
  by_contra hstatic'
  rw [Bool.not_eq_false] at hstatic'
  have hrecorded := h.recorded
  obtain ⟨text, htext⟩ := hrecorded.text_of_static _ hstatic'
  obtain ⟨part, later, rfl, hfolds⟩ := hrecorded.folds _ text
    (Findings.literal?_eq_some_iff.mpr ⟨hstatic', htext⟩) before pair active after hevents rfl
  obtain ⟨trimmed, cost, cost', hwritten, hwritten'⟩ := hfolds.written_trimmed
  have hsymmetric' : ∀ settled ∈ Event.answers part, settled.isSymmetric = true := by
    intro settled hsettled
    refine hsymmetric settled ?_
    rw [hevents, Event.answers_append]
    refine List.mem_append_right _ ?_
    rw [← List.singleton_append, Event.answers_append, Event.answers_append]
    exact List.mem_append_right _ (List.mem_append_left _ hsettled)
  have hstatics : (Event.answers part).map Settled.static =
      (Event.answers part).map Settled.staticAnswer :=
    List.map_congr_left fun settled hsettled =>
      Settled.static_of_symmetric (hsymmetric' settled hsettled)
  have hdynamics : (Event.answers part).map Settled.dynamic =
      (Event.answers part).map Settled.dynamicAnswer :=
    List.map_congr_left fun settled hsettled =>
      Settled.dynamic_of_symmetric (hsymmetric' settled hsettled)
  rw [hstatics] at hwritten
  rw [hdynamics] at hwritten'
  -- The answers that each side takes are the first ones of one and the same list.
  have hpart : Event.answers part <+: whole := by
    refine List.IsPrefix.trans ?_ hwhole
    rw [Event.answers_append]
    exact List.prefix_append _ _
  obtain ⟨rest, hrest⟩ := hpart
  obtain ⟨others, hothers⟩ := hmine
  obtain ⟨others', hothers'⟩ := hmine'
  have hunique : trimmed = html := by
    have hanswers : (Event.answers part).map Settled.staticAnswer ++ rest.map Settled.staticAnswer =
        mine.map Settled.staticAnswer ++ others.map Settled.staticAnswer := by
      rw [← List.map_append, hrest, ← List.map_append, hothers]
    exact (hwritten.unique hstatic hanswers).2
  have hunique' : trimmed = html' := by
    have hanswers : (Event.answers part).map Settled.dynamicAnswer ++
          rest.map Settled.dynamicAnswer =
        mine'.map Settled.dynamicAnswer ++ others'.map Settled.dynamicAnswer := by
      rw [← List.map_append, hrest, ← List.map_append, hothers']
    exact (hwritten'.unique hdynamic hanswers).2
  exact hdiffer (hunique.symm.trans hunique')

theorem not_static_of_texts : ∃ events walk,
    Reaches (engineOf shifting)
      (.start .standard ⟨.text "" true, .text "ada" true⟩ (engineOf shifting).initial) events none
      walk ∧ walk.program.findings.isStatic 0 = false := by
  have hreaches : Reaches (engineOf shifting)
      (.start .standard ⟨.text "" true, .text "ada" true⟩ (engineOf shifting).initial) _ _ _ :=
    .compare .start rfl rfl rfl (.ok rfl)
  exact ⟨_, _, hreaches, Reaches.not_static hreaches (fun _ h => absurd h List.not_mem_nil) rfl
    (List.prefix_refl []) (List.prefix_refl []) (List.prefix_refl []) (.text rfl .nil)
    (.text rfl .nil) (by decide)⟩

/-- Blanks at either end of markup without children do count in the markup
    itself, so there are pairs with different markup that are static. -/
theorem static_of_shifting : ¬ ∀ (engine : Engine) (options : Options) (root : Twin View)
    (state : Engine.State) (events : List Event) (out : Option Suspension) (walk : Walk),
    Reaches engine (.start options root state) events out walk →
    (∀ settled ∈ Event.answers events, settled.isSymmetric = true) →
    ∀ before after pair active, events = before ++ .compared pair active :: after →
    ∀ whole mine mine' : List Settled, Event.answers after <+: whole → mine <+: whole →
    mine' <+: whole → ∀ html html' steps steps',
    Written engine (engine.function? state) .static id (active.map (·.static))
      pair.context.static [pair.view.static] (mine.map Settled.staticAnswer) html steps →
    Written engine (engine.function? state) .dynamic id (active.map (·.dynamic))
      pair.context.dynamic [pair.view.dynamic] (mine'.map Settled.dynamicAnswer) html' steps' →
    html ≠ html' → walk.program.findings.isStatic pair.slot = false := by
  intro hall
  obtain ⟨before, pair, active, walk, hreaches, hanswers, hview, hstatic⟩ := shifting_reaches
  have hnone : Event.answers (before ++ [.compared pair active]) = [] := by
    rw [Event.answers_append, hanswers]
    rfl
  -- Both roots are written as they stand, and the blank is at different ends.
  have hfalse := hall _ _ _ _ _ _ _ hreaches (by rw [hnone]; exact fun _ h => nomatch h) before []
    pair active rfl [] [] [] (List.prefix_refl _) (List.prefix_refl _) (List.prefix_refl _)
    " x" "x " _ _ (by rw [hview]; exact .alone rfl .nil) (by rw [hview]; exact .alone rfl .nil)
    (by decide)
  rw [hstatic] at hfalse
  cases hfalse

end Walk

end RenderFold
