import RenderFold.Proofs.Folding.Spread
import RenderFold.Proofs.Folding.Surviving
import RenderFold.Proofs.Folding.Untouched

/-!
# Entries and Their Numbers

Every entry of a folded tree was closed at one moment of the walk, when its
component was left. If its function was rewritten, the entry keeps the
children whose calls still stand in the rewritten function, in the order in
which they were closed, or all of them if nothing is hoisted. Each call that
stands there names the place of its own child among them.

A call without any argument is an exception. It cannot construct a node under
the name of the helper, but a variable may have taken that name, and then the
call may use a component all the same. It survives and gets no number.

## Main definitions

* `Walk.Leaving`: The moment at which an entry is closed.
* `Walk.Synthesizes`: The function of the component is rewritten then.
* `Walk.Numbering`: The entry and the function agree on the children.

## Theorems

* `Walk.Reaches.entries_left`: Every entry was closed at some moment.
* `Walk.Reaches.entries_numbered`: Its function and its children agree.
-/

namespace RenderFold

open Script (Arena Id)
open Script.Arena (Forest)

namespace Program

/-- Whether a call can still be reached from a function and still is an
    element. -/
def survives (arena : Arena) (function call : Id) : Bool :=
  (arena.reachable function).contains call && arena.helper? call = some .element

theorem contains_survivors {arena : Arena} {function call : Id} {calls : List Id}
    (hcall : call ∈ calls) :
    (survivors arena function calls).contains call = survives arena function call := by
  refine Bool.eq_iff_iff.mpr ⟨fun h => ?_, fun h => ?_⟩
  · exact (List.mem_filter.mp (List.contains_iff_mem.mp h)).2
  · exact List.contains_iff_mem.mpr (List.mem_filter.mpr ⟨hcall, h⟩)

end Program

namespace Builder

variable {builder : Builder} {slot : Id} {tree other : FoldedTree}

theorem trees_attach : ∀ child ∈ (builder.attach slot tree).trees,
    child ∈ builder.trees ∨ child = tree := by
  intro child hchild
  rcases builder with ⟨_ | ⟨parent, rest⟩, root⟩
  · cases root with
    | none =>
        rw [attach, trees, List.flatMap_nil, List.append_nil] at hchild
        exact Or.inr (List.mem_singleton.mp hchild)
    | some first => exact Or.inl hchild
  · simp only [attach, trees, List.flatMap_cons, List.map_append, List.map_cons, List.map_nil,
      List.mem_append, List.mem_singleton] at hchild ⊢
    rcases hchild with hroot | (hchild | rfl) | hrest
    · exact Or.inl (Or.inl hroot)
    · exact Or.inl (Or.inr (Or.inl hchild))
    · exact Or.inr rfl
    · exact Or.inl (Or.inr (Or.inr hrest))

/-- A tree that finds a place can be told from what is there then. -/
theorem attach_inj (hplace : builder.entries ≠ [] ∨ builder.root = none)
    (h : builder.attach slot tree = builder.attach slot other) : tree = other := by
  rcases builder with ⟨_ | ⟨parent, rest⟩, root⟩
  · cases hplace.resolve_left fun hne => hne rfl
    exact Option.some.inj (congrArg Builder.root h)
  · have hchildren := congrArg OpenEntry.children
      (List.cons.inj (congrArg Builder.entries h)).1
    exact (Prod.mk.inj (List.cons.inj (List.append_cancel_left hchildren)).1).2

end Builder

namespace Walk

variable {engine : Engine} {walk start last after : Walk} {events : List Event}
  {out : Option Suspension} {boundary : Boundary} {opened : OpenEntry} {pairs : Pairs}
  {rest : List Frame} {tree entry : FoldedTree} {function : Id} {result : RenderFunction}
  {options : Options} {root : Twin View} {state : Engine.State}

/-- A walk leaves a component next: nothing is left to be compared inside, and
    closing the frame puts `entry` where the open entry `opened` stood. -/
structure Leaving (engine : Engine) (walk : Walk) (boundary : Boundary) (opened : OpenEntry)
    (entry : FoldedTree) : Prop where
  going : walk.pause = .going
  closes : ∃ pairs rest others after, walk.frames = .component boundary pairs :: rest ∧
    pairs.next? = none ∧ walk.builder.entries = opened :: others ∧
    (others ≠ [] ∨ walk.builder.root = none) ∧
    finish engine (.component boundary pairs) { walk with frames := rest } = .ok () after ∧
    after.builder = Builder.attach { walk.builder with entries := others } boundary.slot entry

/-- The arena in which the calls that use the components below have been
    numbered. -/
def numbered (walk : Walk) (function : Id) : Arena :=
  Program.placeAll (Program.survivors walk.program.arena function walk.builder.childSlots)
    (!walk.options.hoistStyles) walk.program.arena 0 walk.builder.childSlots

/-- The function of the component that a walk leaves is rewritten: its root is
    not static, its root is known, and the rewritten function is accepted. -/
structure Synthesizes (engine : Engine) (walk : Walk) (boundary : Boundary) (function : Id)
    (result : RenderFunction) : Prop where
  varies : walk.program.findings.literal? boundary.rootSlot = none
  found : walk.program.findings.function? boundary.slot = some function
  matched : walk.program.findings.isUnmatched function = false
  accepted : (walk.synthesizer.synthesize engine (walk.numbered function) function
    boundary.inst).1 = some result

/-- The closed children that an entry keeps. -/
def kept (hoist : Bool) (arena : Arena) (function : Id) (closed : List (Id × FoldedTree)) :
    List (Id × FoldedTree) :=
  closed.filter fun child => !hoist || Program.survives arena function child.1

/-- The function of an entry was printed from an arena, and the calls in it agree
    with the children: they are the closed children whose calls survive, or all
    of them if nothing is hoisted, and a call that survives and can take a number
    names the place of its child. `before` is the arena without the numbers. -/
structure Numbering (hoist : Bool) (before after : Arena) (function : Id)
    (closed : List (Id × FoldedTree)) (entry : FoldedTree) : Prop where
  printed : RenderFunction.compile (after.print function) = .ok entry.function
  children : entry.children = (kept hoist after function closed).map (·.2)
  numbered : ∀ (i : Nat) (child : Id × FoldedTree), (kept hoist after function closed)[i]? =
    some child → Program.survives after function child.1 = true →
    Program.Addressable before child.1 → Program.Addresses after child.1 i

section Entries

/-- Every entry that has been closed was closed at some moment. -/
def Filed (engine : Engine) (start walk : Walk) : Prop :=
  ∀ tree ∈ walk.builder.trees, ∀ entry, tree.Has entry →
    ∃ events moment boundary opened, Reaches engine start events none moment ∧
      Leaving engine moment boundary opened entry

theorem Filed.of_trees (h : Filed engine start walk)
    (htrees : after.builder.trees = walk.builder.trees) : Filed engine start after := by
  rw [Filed, htrees]
  exact h

/-- Leaving a component closes the innermost entry, if it succeeds. -/
theorem leaveComponent_closes (boundary : Boundary) (walk : Walk) :
    Leads (leaveComponent engine boundary) walk
      (fun _ after => after.frames = walk.frames ∧ ∃ function isStatic stays,
        after.builder = walk.builder.close boundary.slot function isStatic stays)
      (fun after => after.builder = walk.builder) := by
  unfold leaveComponent
  rw [leads_bind, leads_modify, leads_bind, leads_get]
  dsimp only
  split
  · unfold leaveStatic
    rw [leads_bind, leads_onSynthesizer]
    split
    · rfl
    · exact ⟨rfl, _, _, _, rfl⟩
  · split
    · exact ⟨rfl, _, _, _, rfl⟩
    · split
      · exact ⟨rfl, _, _, _, rfl⟩
      · unfold leaveRewritten
        rw [leads_bind, leads_get]
        dsimp only
        rw [leads_bind, leads_onProgram, leads_bind, leads_get, leads_bind, leads_onSynthesizer]
        split
        · exact ⟨rfl, _, _, _, rfl⟩
        · exact ⟨rfl, _, _, _, rfl⟩

/-- The entry that is closed when a component is left was closed at this
    moment, and those below it were before. -/
theorem Filed.close {function : RenderFunction} {isStatic : Bool} {stays : Id → Bool}
    (h : Filed engine start walk) (hreaches : Reaches engine start events none walk)
    (hpause : walk.pause = .going) (hframes : walk.frames = .component boundary pairs :: rest)
    (hnext : pairs.next? = none)
    (hwork : finish engine (.component boundary pairs) { walk with frames := rest } = .ok () after)
    (hbuilder : after.builder = walk.builder.close boundary.slot function isStatic stays) :
    Filed engine start after := by
  rcases hentries : walk.builder.entries with _ | ⟨opened, others⟩
  · refine h.of_trees ?_
    rw [hbuilder, Builder.close, hentries]
  · have hold : ∀ tree, tree ∈ Builder.trees { walk.builder with entries := others } ∨
        tree ∈ opened.children.map (·.2) → tree ∈ walk.builder.trees := by
      intro tree htree
      simp only [Builder.trees, hentries, List.flatMap_cons, List.mem_append] at htree ⊢
      rcases htree with (hroot | hother) | hchild
      · exact Or.inl hroot
      · exact Or.inr (Or.inr hother)
      · exact Or.inr (Or.inl hchild)
    simp only [Builder.close, hentries] at hbuilder
    by_cases hplace : others ≠ [] ∨ walk.builder.root = none
    · intro tree htree entry hentry
      rw [hbuilder] at htree
      rcases Builder.trees_attach tree htree with hin | rfl
      · exact h tree (hold tree (Or.inl hin)) entry hentry
      · cases hentry with
        | self =>
            exact ⟨events, walk, boundary, opened, hreaches, hpause, pairs, rest, others, after,
              hframes, hnext, hentries, hplace, hwork, hbuilder⟩
        | child hchild hentry =>
            refine h _ (hold _ (Or.inr ?_)) entry hentry
            dsimp only at hchild
            rw [Builder.settle_children] at hchild
            exact (List.filter_sublist.map _).subset hchild
    · -- There is a root already, and it stays.
      rw [not_or, not_not] at hplace
      refine fun tree htree => h tree (hold tree (Or.inl ?_))
      rcases hroot : walk.builder.root with _ | first
      · exact absurd hroot hplace.2
      · rw [hbuilder, hplace.1] at htree
        rw [hplace.1]
        rw [Builder.attach, hroot] at htree
        rw [Builder.trees, hroot]
        exact htree

/-- Every entry that has been closed was closed when the walk left its
    component. -/
theorem Reaches.entries_left (h : Reaches engine start events out walk)
    (hstart : start.builder.trees = []) : Filed engine start walk := by
  induction h with
  | start =>
      intro tree htree
      rw [hstart] at htree
      exact absurd htree List.not_mem_nil
  | @compare _ _ _ _ pair _ _ _ _ _ _ _ hleaves ih =>
      have hkeeps : Preserves (·.builder.trees) (Walk.compare engine maxChain pair) :=
        compare_preserves untouched_trees maxChain pair
      cases hleaves with
      | @ok found _ hwork =>
          have hafter := leads_ok (hkeeps _) hwork
          cases found with
          | none => exact ih.of_trees hafter
          | some suspension => exact ih.of_trees hafter
      | error hwork =>
          have hafter := leads_error (hkeeps _) hwork
          exact ih.of_trees hafter
  | @finish _ walk frame _ _ _ h hpause hframes hnext hleaves ih =>
      cases frame with
      | element slot closing pairs =>
          cases hleaves with
          | ok hwork =>
              cases hwork
              exact ih
          | error hwork => cases hwork
      | group slot pairs =>
          cases hleaves with
          | ok hwork =>
              cases hwork
              exact ih
          | error hwork => cases hwork
      | component boundary pairs =>
          cases hleaves with
          | ok hwork =>
              rcases leads_ok (leaveComponent_closes boundary _) hwork with
                ⟨-, function, isStatic, stays, hbuilder⟩
              exact ih.close h hpause hframes hnext hwork hbuilder
          | error hwork =>
              have hbuilder := leads_error (leaveComponent_closes boundary _) hwork
              exact ih.of_trees (congrArg Builder.trees hbuilder)
  | handOut _ _ ih => exact ih
  | @resume _ _ _ resolved continuation _ _ _ _ _ hleaves ih =>
      have hkeeps : Preserves (·.builder.trees) (Walk.resume engine continuation resolved) :=
        resume_preserves untouched_trees (fun _ _ => rfl) continuation resolved
      cases hleaves with
      | ok hwork =>
          have hafter := leads_ok (hkeeps _) hwork
          exact ih.of_trees hafter
      | error hwork =>
          have hafter := leads_error (hkeeps _) hwork
          exact ih.of_trees hafter
  | fail _ _ ih => exact ih

end Entries

section Numbers

/-- The entry that is closed when the function is rewritten. -/
theorem Synthesizes.leads (h : Synthesizes engine walk boundary function result)
    (frames : List Frame) :
    Leads (leaveComponent engine boundary) { walk with frames }
      (fun _ after => after.builder = walk.builder.close boundary.slot result false fun slot =>
        !walk.options.hoistStyles ||
          (Program.survivors walk.program.arena function walk.builder.childSlots).contains slot)
      (fun _ => False) := by
  have haccepted := h.accepted
  unfold leaveComponent
  rw [leads_bind, leads_modify, leads_bind, leads_get]
  dsimp only
  rw [h.varies]
  dsimp only
  rw [h.found]
  dsimp only
  rw [h.matched, if_neg Bool.false_ne_true]
  unfold leaveRewritten
  rw [leads_bind, leads_get]
  dsimp only
  rw [leads_bind, leads_onProgram, leads_bind, leads_get, leads_bind, leads_onSynthesizer]
  rw [numbered] at haccepted
  dsimp only
  rw [haccepted]
  rfl

/-- The entry that is closed at a moment when the function is rewritten agrees
    with the function. -/
theorem Reaches.leaving_numbered
    (h : Reaches engine (.start options root state) events none walk)
    (hleaving : Leaving engine walk boundary opened entry)
    (hsynthesizes : Synthesizes engine walk boundary function result) :
    Numbering options.hoistStyles walk.program.arena (walk.numbered function) function
      opened.children entry := by
  rcases hleaving.closes with ⟨pairs, rest, others, after, hframes, -, hentries, hplace, hwork,
    hattached⟩
  have hoptions : walk.options = options := h.options_eq
  have hplanted := h.tended.1.planted
  rcases hplanted.forest with ⟨roots, hforest, hroots⟩
  have hfunction : Forest Set.univ walk.program.arena [function] :=
    hforest.subperm (List.singleton_sublist.mpr (hroots _ _ hsynthesizes.found)).subperm
  have hslots : walk.builder.childSlots = opened.children.map (·.1) := by
    rw [Builder.childSlots, hentries]
  -- The calls of the closed children stand side by side.
  have hcalls : Forest Set.univ walk.program.arena walk.builder.childSlots := by
    refine Forest.subperm h.spread.1 (List.Sublist.subperm ?_)
    rw [taken, hentries, List.flatMap_cons, hslots]
    exact ((List.sublist_append_left _ _).trans (List.sublist_append_right _ _)).trans
      ((List.sublist_append_left _ _).trans (List.sublist_append_right _ _))
  have hsurvive : Program.survivors (walk.numbered function) function walk.builder.childSlots =
      Program.survivors walk.program.arena function walk.builder.childSlots :=
    Program.survivors_placeAll hplanted.valid hfunction hcalls
  have hcontains (child : Id × FoldedTree) (hchild : child ∈ opened.children) :
      (Program.survivors walk.program.arena function walk.builder.childSlots).contains child.1 =
        Program.survives (walk.numbered function) function child.1 := by
    rw [← hsurvive]
    exact Program.contains_survivors (hslots ▸ List.mem_map_of_mem hchild)
  have hbuilder := leads_ok (hsynthesizes.leads rest) hwork
  simp only [Builder.close, hentries] at hbuilder
  have hentry := Builder.attach_inj hplace (hattached.symm.trans hbuilder)
  have hkept : kept options.hoistStyles (walk.numbered function) function opened.children =
      opened.children.filter fun child => !walk.options.hoistStyles ||
        (Program.survivors walk.program.arena function walk.builder.childSlots).contains child.1 := by
    rw [kept, hoptions]
    exact List.filter_congr fun child hchild => by rw [hcontains child hchild]
  have helements : ∀ a ∈ walk.builder.childSlots,
      (Program.survivors walk.program.arena function walk.builder.childSlots).contains a = true →
      walk.program.arena.helper? a = some .element := fun _ _ => Program.survivors_element
  refine ⟨?_, ?_, fun i child hchild hsurvives haddressable => ?_⟩
  · have hprinted := (Synthesizer.synthesize_sound (h.lined).1.synthesizer engine
      (walk.numbered function) function boundary.inst).2 result hsynthesizes.accepted
    rw [hentry]
    exact hprinted
  · rw [hentry, hkept]
    exact Builder.settle_children _ _
  · have hmem : child ∈ opened.children :=
      (List.mem_filter.mp (List.mem_of_getElem? hchild)).1
    have hstays := (hcontains child hmem).trans hsurvives
    have hcall : child.1 ∈ walk.builder.childSlots := hslots ▸ List.mem_map_of_mem hmem
    have hplaced : (walk.builder.childSlots.filter (Program.counts
        (Program.survivors walk.program.arena function walk.builder.childSlots)
        (!walk.options.hoistStyles)))[i]? = some child.1 := by
      rw [hkept] at hchild
      have hmap := congrArg (Option.map Prod.fst) hchild
      rw [← List.getElem?_map] at hmap
      rw [hslots, List.filter_map]
      rw [hslots] at hmap
      exact hmap
    have hseparate : Program.Separate walk.program.arena (walk.builder.childSlots.filter
        (Program.survivors walk.program.arena function walk.builder.childSlots).contains) := by
      intro a ha b hb
      exact Program.separate_survivors (hfunction.isTree List.mem_cons_self) a
        (List.contains_iff_mem.mp (List.mem_filter.mp ha).2) b
        (List.contains_iff_mem.mp (List.mem_filter.mp hb).2)
    have hnumbered := Program.placeAll_numbered 0 hplanted.valid h.lined.1.childSlots_nodup
      helements hseparate i child.1 hplaced hstays
    rw [Nat.zero_add] at hnumbered
    exact Program.addresses_of_numbered hnumbered (Program.placeAll_addressable hplanted.valid
      helements (helements _ hcall hstays) haddressable)

/-- Every entry of a folded tree was closed at a moment of the walk. If its
    function was rewritten then, its children are the closed children whose
    calls still stand in the rewritten function, in the order in which they were
    closed, or all of them if nothing is hoisted, and every call that stands
    there and has a first argument names the place of its child, unless its
    second argument may be of any form. -/
theorem Reaches.entries_numbered (h : Reaches engine (.start options root state) events none last)
    (hresult : last.result = .ok tree) (hentry : tree.Has entry) :
    (∃ events walk boundary opened,
      Reaches engine (.start options root state) events none walk ∧
      Leaving engine walk boundary opened entry) ∧
    ∀ events walk boundary opened function result,
      Reaches engine (.start options root state) events none walk →
      Leaving engine walk boundary opened entry →
      Synthesizes engine walk boundary function result →
      Numbering options.hoistStyles walk.program.arena (walk.numbered function) function
        opened.children entry := by
  refine ⟨h.entries_left rfl tree ?_ entry hentry, fun _ _ _ _ _ _ hreaches hleaving hsynthesizes =>
    hreaches.leaving_numbered hleaving hsynthesizes⟩
  have hroot : last.builder.root = some tree := by
    unfold result at hresult
    split at hresult
    · split at hresult
      · next hroot =>
          cases hresult
          exact hroot
      · cases hresult
    · cases hresult
  rw [Builder.trees, hroot]
  exact List.mem_append_left _ List.mem_cons_self

/-- The moment at which a walk leaves its outermost component, if it is about to
    and rewrites the function. -/
def ending? (engine : Engine) (walk : Walk) : Option (Boundary × OpenEntry × Id × RenderFunction) :=
  match walk.frames, walk.builder.entries, walk.builder.root with
  | [.component boundary pairs, .group _ others], [opened], none =>
    if pairs.isExhausted && others.isExhausted &&
        walk.program.findings.literal? boundary.rootSlot = none then
      match walk.program.findings.function? boundary.slot with
      | none => none
      | some function =>
        if walk.program.findings.isUnmatched function then none
        else (walk.synthesizer.synthesize engine (walk.numbered function) function
          boundary.inst).1.map fun result => (boundary, opened, function, result)
    else none
  | _, _, _ => none

theorem next?_of_isExhausted (h : pairs.isExhausted = true) : pairs.next? = none := by
  rw [Pairs.next?, List.isEmpty_iff.mp h]

/-- When the outermost component has been left, the walk is over and its entry is
    the root. -/
theorem Reaches.ending (h : Reaches engine start events none walk) (hpause : walk.pause = .going)
    (hending : ending? engine walk = some (boundary, opened, function, result)) :
    ∃ events last entry, Reaches engine start events none last ∧ last.result = .ok entry ∧
      Leaving engine walk boundary opened entry ∧
      Synthesizes engine walk boundary function result := by
  unfold ending? at hending
  split at hending
  · next boundary' pairs slot others opened' hframes hentries hroot =>
      split at hending
      · next hexhausted =>
          simp only [Bool.and_eq_true, decide_eq_true_eq] at hexhausted
          rcases hexhausted with ⟨⟨hpairs, hothers⟩, hvaries⟩
          split at hending
          · cases hending
          · next function' hfound =>
              split at hending
              · cases hending
              · next hmatched =>
                  rcases Option.map_eq_some_iff.mp hending with ⟨_, haccepted, hsame⟩
                  cases hsame
                  have hsynthesizes : Synthesizes engine walk boundary function result :=
                    ⟨hvaries, hfound, Bool.eq_false_iff.mpr hmatched, haccepted⟩
                  cases hwork : Walk.finish engine (.component boundary pairs)
                      { walk with frames := [.group slot others] } with
                  | error e after => exact (leads_error (hsynthesizes.leads _) hwork).elim
                  | ok _ after =>
                      have hbuilder := leads_ok (hsynthesizes.leads _) hwork
                      have hafter := (leads_ok (leaveComponent_closes boundary _) hwork).1
                      have hgoing := (leads_ok (finish_steady _ _) hwork).1.trans hpause
                      simp only [Builder.close, hentries] at hbuilder
                      have hleft := Reaches.finish h hpause hframes (next?_of_isExhausted hpairs)
                        (.ok hwork)
                      refine ⟨events, { after with
                          program := after.program.foldGroup slot others.slots, frames := [] }, _,
                        hleft.finish hgoing hafter (next?_of_isExhausted hothers) (.ok rfl), ?_,
                        ⟨hpause, pairs, _, [], after, hframes, next?_of_isExhausted hpairs,
                          hentries, Or.inr hroot, hwork, hbuilder⟩, hsynthesizes⟩
                      have hfiled := congrArg Builder.root hbuilder
                      simp only [Builder.attach, hroot] at hfiled
                      simp only [Walk.result, hgoing, hfiled]
                      rfl
      · cases hending
  · cases hending

/-- The state after so many moves, if none of them fails or pauses the walk. -/
def after? (engine : Engine) : Nat → Walk → Option Walk
  | 0, walk => some walk
  | steps + 1, walk =>
    match walk.frames with
    | [] => none
    | frame :: rest =>
      match frame.pairs.next? with
      | some (pair, left) =>
        match compare engine maxChain pair { walk with frames := frame.withPairs left :: rest } with
        | .ok none next => after? engine steps next
        | _ => none
      | none =>
        match finish engine frame { walk with frames := rest } with
        | .ok () next => after? engine steps next
        | .error _ _ => none

theorem Reaches.after? {steps : Nat} : ∀ {events : List Event} {walk : Walk},
    Reaches engine start events none walk → walk.pause = .going →
    after? engine steps walk = some last →
    (∃ events, Reaches engine start events none last) ∧ last.pause = .going := by
  induction steps with
  | zero =>
      intro events walk h hpause hafter
      cases hafter
      exact ⟨⟨events, h⟩, hpause⟩
  | succ steps ih =>
      intro events walk h hpause hafter
      unfold Walk.after? at hafter
      split at hafter
      · cases hafter
      · next frame rest hframes =>
          split at hafter
          · next pair left hnext =>
              split at hafter
              · next next hwork =>
                  exact ih (.compare h hpause hframes hnext (.ok hwork))
                    ((leads_ok (compare_steady _ _ _) hwork).1.trans hpause) hafter
              · cases hafter
          · next hnext =>
              split at hafter
              · next next hwork =>
                  exact ih (.finish h hpause hframes hnext (.ok hwork))
                    ((leads_ok (finish_steady _ _) hwork).1.trans hpause) hafter
              · cases hafter

/-- A page that uses cards. -/
def pageOf (source : String) : Component :=
  { Component.named "page" with
    components := [("card", .component 1)]
    render := (RenderFunction.compile source).toOption }

/-- An engine for a page and a card with a name. -/
def cardEngine (page : Component) : Engine :=
  { engineOf page with
    components := fun id =>
      if id = 0 then page
      else
        { Component.named "card" with
          render := (RenderFunction.compile
            "return _ssrNode(\"<b>\", \"</b>\", [_v(name)])").toOption } }

/-- An engine for a page with two cards, one of which has a name that depends on
    the request. -/
def twoCards : Engine :=
  cardEngine (pageOf "return _ssrNode(\"<p>\", \"</p>\", [_c(\"card\"), _c(\"card\", \x7bprops: \x7bname: name\x7d\x7d)])")

/-- Of two closed children one stays: the other card is static. -/
theorem entries_numbered_cards : ∃ events last tree,
    Reaches twoCards (.start .standard (named "ada") twoCards.initial) events none last ∧
    last.result = .ok tree ∧
    ∃ events walk boundary opened function result,
      Reaches twoCards (.start .standard (named "ada") twoCards.initial) events none walk ∧
      Leaving twoCards walk boundary opened tree ∧
      Synthesizes twoCards walk boundary function result ∧
      opened.children.map (·.1) = [11, 5] ∧ tree.children.length = 1 ∧
      Numbering true walk.program.arena (walk.numbered function) function opened.children tree := by
  have hrun : (after? twoCards 13 (.start .standard (named "ada") twoCards.initial)).any
      (fun walk => (ending? twoCards walk).any fun (_, opened, function, _) =>
        opened.children.map (·.1) = [11, 5] &&
          (kept true (walk.numbered function) function opened.children).length = 1) = true := by
    decide +kernel
  rcases (Option.any_eq_true _ _).mp hrun with ⟨walk, hafter, hrun⟩
  rcases (Option.any_eq_true _ _).mp hrun with ⟨⟨boundary, opened, function, result⟩, hending, hrun⟩
  simp only [Bool.and_eq_true, decide_eq_true_eq] at hrun
  rcases Reaches.start.after? rfl hafter with ⟨⟨events, hreaches⟩, hpause⟩
  rcases hreaches.ending hpause hending with
    ⟨events', last, tree, hlast, hresult, hleaving, hsynthesizes⟩
  have hnumbering := (hlast.entries_numbered hresult .self).2 events walk boundary opened function
    result hreaches hleaving hsynthesizes
  refine ⟨events', last, tree, hlast, hresult, events, walk, boundary, opened, function, result,
    hreaches, hleaving, hsynthesizes, hrun.1, ?_, hnumbering⟩
  rw [hnumbering.children, List.length_map]
  exact hrun.2

/-- An engine for a page in which a variable has the name of the helper that
    constructs nodes, and is called without an argument. -/
def shadowing : Engine :=
  cardEngine (pageOf "const _c = x => _c(\"card\", \x7bprops: \x7bname: name\x7d\x7d); return _ssrNode(\"<p>\", \"</p>\", [_c()])")

/-- A call without an argument is not numbered, whatever it constructs. -/
theorem entries_unnumbered : ¬ ∀ (engine : Engine) (options : Options) (root : Twin View)
    (state : Engine.State) (events : List Event) (last : Walk) (tree entry : FoldedTree),
    Reaches engine (.start options root state) events none last → last.result = .ok tree →
    tree.Has entry → ∀ events walk boundary opened function result,
      Reaches engine (.start options root state) events none walk →
      Leaving engine walk boundary opened entry →
      Synthesizes engine walk boundary function result → ∀ (i : Nat) (child : Id × FoldedTree),
        (kept options.hoistStyles (walk.numbered function) function opened.children)[i]? =
          some child →
        Program.survives (walk.numbered function) function child.1 = true →
        (∀ data, (walk.program.arena.arguments child.1)[1]? = some data →
          (∃ properties, walk.program.arena.get data = .object properties) ∨
            ∃ elements, walk.program.arena.get data = .array elements) →
        Program.Addresses (walk.numbered function) child.1 i := by
  intro hall
  have hrun : (after? shadowing 8
      (.start .standard (named "ada") shadowing.initial)).any (fun walk =>
        (ending? shadowing walk).any fun (_, opened, function, _) =>
          opened.children.map (·.1) = [5] &&
            Program.survives (walk.numbered function) function 5 &&
            walk.program.arena.arguments 5 = [] &&
            (walk.numbered function).arguments 5 = []) = true := by decide +kernel
  rcases (Option.any_eq_true _ _).mp hrun with ⟨walk, hafter, hrun⟩
  rcases (Option.any_eq_true _ _).mp hrun with ⟨⟨boundary, opened, function, result⟩, hending, hrun⟩
  simp only [Bool.and_eq_true, decide_eq_true_eq] at hrun
  rcases hrun with ⟨⟨⟨hchildren, hsurvives⟩, hbefore⟩, hnumbered⟩
  rcases List.map_eq_singleton_iff.mp hchildren with ⟨child, hchild, hslot⟩
  rcases Reaches.start.after? rfl hafter with ⟨⟨events, hreaches⟩, hpause⟩
  rcases hreaches.ending hpause hending with
    ⟨events', last, tree, hlast, hresult, hleaving, hsynthesizes⟩
  have hkept : kept true (walk.numbered function) function opened.children = [child] := by
    rw [kept, hchild, List.filter_cons_of_pos]
    · rfl
    · rw [hslot, hsurvives]
      rfl
  have haddresses := hall shadowing .standard (named "ada") shadowing.initial events'
    last tree tree hlast hresult .self events walk boundary opened function result hreaches hleaving
    hsynthesizes 0 child (by rw [show Options.standard.hoistStyles = true from rfl, hkept]; rfl)
    (hslot ▸ hsurvives) fun data hdata => by
      rw [hslot, hbefore] at hdata
      cases hdata
  rcases haddresses with ⟨data, properties, value, hdata, -⟩
  rw [hslot, hnumbered] at hdata
  cases hdata

end Numbers

end Walk

end RenderFold
