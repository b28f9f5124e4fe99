import RenderFold.Proofs.Folding.Descents

/-!
# The Walk Is the Traversal

A walk keeps a frame for every node it is inside, takes the next pair of the
innermost one, and may stop at any pair to wait. What it compares is what the
recursive traversal compares, in the same order, and it closes a frame when
the traversal leaves the node: after everything below it, and before the next
pair of the frame around it.

A frame that has pairs left stands for the rest of a traversal. What a walk
does until the innermost frame is closed is the traversal of what is left of
that frame, whatever the frames around it are.

## Main definitions

* `Walk.Faces`: What a walk has left to do in its innermost frame.
* `Walk.Unwinds`: The traversals that a stack of frames stands for.

## Theorems

* `Walk.rounds_of_visits`: A walk does what a traversal does.
* `Walk.Rounds.unwinds`: It does nothing else.
* `Walk.ends_iff_visits`: A walk is the traversal of its root.
-/

namespace RenderFold

theorem Frame.kind_withPairs (frame : Frame) (pairs : Pairs) :
    (frame.withPairs pairs).kind = frame.kind := by
  cases frame <;> rfl

namespace Walk

variable {engine : Engine} {walk after : Walk} {active : Option (Twin Instance)}
  {path : List Nat} {i : Nat} {place : Place} {places : List Place} {frame : Frame}
  {rest : List Frame} {state : Engine.State} {log : List Visit}

/-- What a walk has left to do in its innermost frame is to compare the given places,
    beginning with place number `i`. -/
structure Faces (walk : Walk) (active : Option (Twin Instance)) (i : Nat) (places : List Place)
    (frame : Frame) (rest : List Frame) (state : Engine.State) : Prop where
  frames : walk.frames = frame :: rest
  active : walk.active = active
  engine : walk.engine = state
  sound : walk.synthesizer.Sound
  left : frame.pairs.left.map Pair.place = places
  count : frame.pairs.size + 1 = i + places.length

/-- The next pair is at the next place. -/
theorem Faces.next (h : Faces walk active i (place :: places) frame rest state) :
    ∃ pair left, frame.pairs.next? = some (pair, left) ∧ pair.place = place ∧
      Frame.path (frame.withPairs left :: rest) = i :: Frame.path rest ∧
      (frame.withPairs left).pairs.left.map Pair.place = places ∧
      (frame.withPairs left).pairs.size + 1 = (i + 1) + places.length := by
  obtain ⟨pair, left, hleft, hplace, hplaces⟩ := List.map_eq_cons_iff.mp h.left
  have hcount := h.count
  have hlength : left.length = places.length := by rw [← hplaces, List.length_map]
  rw [List.length_cons] at hcount
  refine ⟨pair, { frame.pairs with left }, by simp only [Pairs.next?, hleft], hplace, ?_, ?_, ?_⟩
  · simp only [Frame.path, List.map_cons, Frame.pairs_withPairs, Pairs.size]
    rw [show frame.pairs.slots.length - left.length = i by unfold Pairs.size at hcount; omega]
  · rw [Frame.pairs_withPairs]
    exact hplaces
  · rw [Frame.pairs_withPairs]
    show frame.pairs.size + 1 = _
    omega

/-- Whatever a walk does from `after` on, it does from `walk` on, after `before`. -/
def Precedes (engine : Engine) (walk : Walk) (before : List Visit) (after : Walk) : Prop :=
  ∀ later result, Rounds engine after later result → Rounds engine walk (before ++ later) result

theorem Precedes.trans {middle : Walk} {before later : List Visit}
    (h : Precedes engine walk before middle) (h' : Precedes engine middle later after) :
    Precedes engine walk (before ++ later) after := by
  intro log result hrounds
  rw [List.append_assoc]
  exact h _ result (h' log result hrounds)

/-- What a walk has to do when a frame may have been opened for what is below a pair. -/
def FacesBelow (after : Walk) (active : Option (Twin Instance)) (i : Nat) (places : List Place)
    (frame : Frame) (rest : List Frame) (state : Engine.State) : Descent → Prop
  | .nothing => Faces after active i places frame rest state
  | .opens kind inside inner =>
    ∃ opened, opened.kind = kind ∧ opened.around inside = active ∧
      Faces after inside 1 inner opened (frame :: rest) state

/-- The next pair is met, and what is below it is to be compared next. -/
theorem Faces.meet {depth : Nat} {below : Descent} {middle : Engine.State}
    (h : Faces walk active i (place :: places) frame rest state)
    (hsight : engine.sight active depth place state = .ok below middle) :
    ∃ left after,
      Precedes engine walk (compareAll (i :: Frame.path rest) place.context
        (met engine depth place.view state)) after ∧
      Frame.path (frame.withPairs left :: rest) = i :: Frame.path rest ∧
      (frame.withPairs left).pairs.left.map Pair.place = places ∧
      (frame.withPairs left).pairs.size + 1 = (i + 1) + places.length ∧
      FacesBelow after active (i + 1) places (frame.withPairs left) rest middle below := by
  obtain ⟨pair, left, hnext, rfl, hpath, hleft, hcount⟩ := h.next
  obtain ⟨hframes, rfl, rfl, hsound, -, -⟩ := h
  have hsees := meet_sees engine depth pair { walk with frames := frame.withPairs left :: rest }
  rw [show engine.sight _ depth pair.place _ = _ from hsight] at hsees
  cases hwork : Walk.meet engine depth pair
      { walk with frames := frame.withPairs left :: rest } with
  | error e after =>
      rw [hwork] at hsees
      cases hsees
  | ok _ after =>
      rw [hwork] at hsees
      obtain ⟨hshows, hengine, hsynthesizer⟩ := hsees
      have hafter : after.synthesizer.Sound := hsynthesizer ▸ hsound
      refine ⟨left, after, fun later result hrounds => ?_, hpath, hleft, hcount, ?_⟩
      · rw [← hpath]
        exact .meet hframes hnext hwork hrounds
      · cases below with
        | nothing => exact ⟨hshows.1, hshows.2, hengine, hafter, hleft, hcount⟩
        | opens kind inside inner =>
            obtain ⟨hactive, opened, hopened, hkind, haround, hsize, hplaces⟩ := hshows
            refine ⟨opened, hkind, haround, hopened, hactive, hengine, hafter, hplaces, ?_⟩
            rw [hsize, Nat.add_comm]

/-- A pair that cannot be met stops the walk. -/
theorem Faces.meetFails {depth : Nat} {e : RenderError} {middle : Engine.State}
    (h : Faces walk active i (place :: places) frame rest state)
    (hsight : engine.sight active depth place state = .error e middle)
    (hfinished : e ≠ .unfinished) :
    Rounds engine walk (compareAll (i :: Frame.path rest) place.context
      (met engine depth place.view state)) (.error (.render e)) := by
  obtain ⟨pair, left, hnext, rfl, hpath, hleft, hcount⟩ := h.next
  obtain ⟨hframes, rfl, rfl, hsound, -, -⟩ := h
  have hsees := meet_sees engine depth pair { walk with frames := frame.withPairs left :: rest }
  rw [show engine.sight _ depth pair.place _ = _ from hsight] at hsees
  cases hwork : Walk.meet engine depth pair
      { walk with frames := frame.withPairs left :: rest } with
  | ok _ after =>
      rw [hwork] at hsees
      cases hsees
  | error e' after =>
      rw [hwork] at hsees
      cases hsees
      rw [← hpath]
      exact .meetFails hframes hnext hwork fun he => hfinished (by injection he)

/-- A frame without pairs that are left is closed. -/
theorem Faces.finish (h : Faces walk active i [] frame rest state) :
    ∃ after, Precedes engine walk [.finished (Frame.path rest) frame.kind] after ∧
      after.frames = rest ∧ after.active = frame.around active ∧ after.engine = state ∧
      after.synthesizer.Sound := by
  obtain ⟨hframes, rfl, rfl, hsound, hleft, -⟩ := h
  have hnext : frame.pairs.next? = none := by
    rw [Pairs.next?, List.map_eq_nil_iff.mp hleft]
  have hcloses := @finish_closes engine { walk with frames := rest } hsound frame
  cases hwork : Walk.finish engine frame { walk with frames := rest } with
  | error e after => exact (leads_error hcloses hwork).elim
  | ok _ after =>
      obtain ⟨hrest, hactive, hengine, hsound⟩ := leads_ok hcloses hwork
      exact ⟨after, fun later result hrounds => .finish hframes hnext hwork hrounds, hrest, hactive,
        hengine, hsound⟩

/-- What a walk does until its innermost frame is to be closed. It may fail on the way. -/
def Clears (engine : Engine) (walk : Walk) (active : Option (Twin Instance)) (frame : Frame)
    (rest : List Frame) (log : List Visit) : Except RenderError Engine.State → Prop
  | .ok state =>
    ∃ after pairs i, Faces after active i [] (frame.withPairs pairs) rest state ∧
      Precedes engine walk log after
  | .error e => Rounds engine walk log (.error (.render e))

theorem Clears.step {result : Except RenderError Engine.State} {before : List Visit} {pairs : Pairs}
    (hbefore : Precedes engine walk before after)
    (h : Clears engine after active (frame.withPairs pairs) rest log result) :
    Clears engine walk active frame rest (before ++ log) result := by
  cases result with
  | ok state =>
      obtain ⟨last, pairs', i, hfaces, hlast⟩ := h
      rw [show (frame.withPairs pairs).withPairs pairs' = frame.withPairs pairs' by
        cases frame <;> rfl] at hfaces
      exact ⟨last, pairs', i, hfaces, hbefore.trans hlast⟩
  | error e => exact hbefore log _ h

/-- The number of the place that is next in a frame. -/
def turn (frame : Frame) : Nat := frame.pairs.size - frame.pairs.left.length + 1

/-- The traversals that a stack of frames stands for: of what is left of the innermost
    one, and then, when it has been closed, of what is left of those around it. -/
inductive Unwinds (engine : Engine) :
    List Frame → Option (Twin Instance) → Engine.State → List Visit →
      Except RenderError Engine.State → Prop where
  | nil (active : Option (Twin Instance)) (state : Engine.State) :
      Unwinds engine [] active state [] (.ok state)
  | closes (frame : Frame) (rest : List Frame) (active : Option (Twin Instance))
      (state middle : Engine.State) (log later : List Visit)
      (result : Except RenderError Engine.State)
      (hvisits : engine.Visits active (Frame.path rest) (turn frame)
        (frame.pairs.left.map Pair.place) state log (.ok middle))
      (hrest : Unwinds engine rest (frame.around active) middle later result) :
      Unwinds engine (frame :: rest) active state
        (log ++ .finished (Frame.path rest) frame.kind :: later) result
  | fails (frame : Frame) (rest : List Frame) (active : Option (Twin Instance))
      (state : Engine.State) (log : List Visit) (e : RenderError)
      (hvisits : engine.Visits active (Frame.path rest) (turn frame)
        (frame.pairs.left.map Pair.place) state log (.error e)) :
      Unwinds engine (frame :: rest) active state log (.error e)

/-- A walk and a traversal end alike. -/
def Alike : Except FoldError Walk → Except RenderError Engine.State → Prop
  | .ok last, .ok state => last.engine = state
  | .error e, .error e' => e = .render e'
  | _, _ => False

/-- No frame has more pairs left than it has pairs. -/
def Counted (frames : List Frame) : Prop :=
  ∀ frame ∈ frames, frame.pairs.left.length ≤ frame.pairs.size

theorem left_of_next?_eq_none {pairs : Pairs} (h : pairs.next? = none) : pairs.left = [] := by
  unfold Pairs.next? at h
  split at h
  · assumption
  · cases h

/-- A frame from which a pair was taken. -/
theorem turn_of_next? {pair : Pair} {left : Pairs} (hnext : frame.pairs.next? = some (pair, left))
    (hcounted : frame.pairs.left.length ≤ frame.pairs.size) :
    turn (frame.withPairs left) = turn frame + 1 ∧
      Frame.path (frame.withPairs left :: rest) = turn frame :: Frame.path rest ∧
      (frame.withPairs left).pairs.left.length ≤ (frame.withPairs left).pairs.size := by
  obtain ⟨hleft, hslots⟩ := Frame.next?_eq_some hnext
  unfold Pairs.size at hcounted
  rw [hleft, hslots, List.length_cons] at hcounted
  simp only [turn, Frame.path, Frame.pairs_withPairs, Pairs.size, List.map_cons, hleft, hslots,
    List.length_cons, List.cons.injEq, and_true]
  omega

/-- What is done about a pair comes before what is left of the frame. -/
theorem Unwinds.take {pair : Pair} {left : Pairs} {before : List Visit} {start : Engine.State}
    {result : Except RenderError Engine.State} (hnext : frame.pairs.next? = some (pair, left))
    (hcounted : frame.pairs.left.length ≤ frame.pairs.size)
    (h : Unwinds engine (frame.withPairs left :: rest) active state log result)
    (hbefore : ∀ log result,
      engine.Visits active (Frame.path rest) (turn frame + 1) (left.left.map Pair.place) state log
        result →
      engine.Visits active (Frame.path rest) (turn frame)
        (pair.place :: left.left.map Pair.place) start (before ++ log) result) :
    Unwinds engine (frame :: rest) active start (before ++ log) result := by
  obtain ⟨hleft, -⟩ := Frame.next?_eq_some hnext
  have hplaces : frame.pairs.left.map Pair.place = pair.place :: left.left.map Pair.place := by
    rw [hleft, List.map_cons]
  obtain ⟨hturn, -, -⟩ := @turn_of_next? frame rest _ _ hnext hcounted
  cases h with
  | closes _ _ _ _ middle log later _ hvisits hrest =>
      rw [hturn, Frame.pairs_withPairs] at hvisits
      rw [Frame.around_withPairs] at hrest
      rw [Frame.kind_withPairs, ← List.append_assoc]
      exact .closes _ _ _ _ middle _ _ _ (hplaces ▸ hbefore _ _ hvisits) hrest
  | fails _ _ _ _ _ e hvisits =>
      rw [hturn, Frame.pairs_withPairs] at hvisits
      exact .fails _ _ _ _ _ e (hplaces ▸ hbefore _ _ hvisits)

/-- What is below a pair is compared first, in a frame of its own. -/
theorem Unwinds.opens {pair : Pair} {left : Pairs} {depth : Nat} {opened : Frame}
    {inside : Option (Twin Instance)} {inner : List Place} {start middle : Engine.State}
    {result : Except RenderError Engine.State} (hnext : frame.pairs.next? = some (pair, left))
    (hcounted : frame.pairs.left.length ≤ frame.pairs.size)
    (hsight : engine.sight active depth pair.place start =
      .ok (.opens opened.kind inside inner) middle)
    (haround : opened.around inside = active) (hsize : opened.pairs.size = inner.length)
    (hplaces : opened.pairs.left.map Pair.place = inner)
    (h : Unwinds engine (opened :: frame.withPairs left :: rest) inside middle log result) :
    Unwinds engine (frame :: rest) active start
      (compareAll (turn frame :: Frame.path rest) pair.place.context
        (met engine depth pair.place.view start) ++ log) result := by
  have hfirst : turn opened = 1 := by
    have hlength := congrArg List.length hplaces
    rw [List.length_map] at hlength
    unfold turn
    omega
  obtain ⟨-, hpath, -⟩ := @turn_of_next? frame rest _ _ hnext hcounted
  cases h with
  | closes _ _ _ _ between below later _ hvisits hrest =>
      rw [hfirst, hplaces, hpath] at hvisits
      rw [haround] at hrest
      rw [hpath, List.append_cons, ← List.append_assoc, ← List.append_assoc]
      refine hrest.take hnext hcounted fun log result hlater => ?_
      rw [List.append_assoc, List.singleton_append]
      exact .opens hsight hvisits hlater
  | fails _ _ _ _ below e hvisits =>
      rw [hfirst, hplaces, hpath] at hvisits
      obtain ⟨hleft, -⟩ := Frame.next?_eq_some hnext
      refine .fails _ _ _ _ _ e ?_
      rw [hleft, List.map_cons]
      exact .opensFails hsight hvisits

/-- A walk does nothing but what a traversal does. -/
theorem Rounds.unwinds {result : Except FoldError Walk} (h : Rounds engine walk log result)
    (hsound : walk.synthesizer.Sound) (hcounted : Counted walk.frames) :
    ∃ result', Alike result result' ∧
      Unwinds engine walk.frames walk.active walk.engine log result' := by
  -- By induction on the walk. After each step, the frames are those that the rest of
  -- the walk unwinds, and the step is put before it.
  induction h with
  | done hframes =>
      refine ⟨.ok _, rfl, ?_⟩
      rw [hframes]
      exact .nil _ _
  | @meet walk depth frame rest pair left after log result hframes hnext hwork hrest ih =>
      rw [hframes] at hcounted ⊢
      have hframe := hcounted frame List.mem_cons_self
      obtain ⟨-, hpath, htaken⟩ := @turn_of_next? frame rest _ _ hnext hframe
      have hrest : Counted (frame.withPairs left :: rest) := fun other hother =>
        (List.mem_cons.mp hother).elim (· ▸ htaken)
          fun hother => hcounted other (List.mem_cons_of_mem _ hother)
      have hsees := meet_sees engine depth pair { walk with frames := frame.withPairs left :: rest }
      rw [hwork] at hsees
      cases hsight : engine.sight walk.active depth pair.place walk.engine with
      | error e middle =>
          rw [show engine.sight _ depth pair.place _ = _ from hsight] at hsees
          exact hsees.elim
      | ok below middle =>
          rw [show engine.sight _ depth pair.place _ = _ from hsight] at hsees
          obtain ⟨hshows, rfl, hsynthesizer⟩ := hsees
          rw [hpath]
          cases below with
          | nothing =>
              obtain ⟨hafter, hactive⟩ := hshows
              obtain ⟨result', halike, hunwinds⟩ := ih (hsynthesizer ▸ hsound) (hafter ▸ hrest)
              rw [hafter, hactive] at hunwinds
              exact ⟨result', halike, hunwinds.take hnext hframe fun log result hvisits =>
                .leaf hsight hvisits⟩
          | opens kind inside inner =>
              obtain ⟨rfl, opened, hafter, rfl, haround, hsize, hplaces⟩ := hshows
              have hopened : opened.pairs.left.length ≤ opened.pairs.size := by
                rw [hsize, ← hplaces, List.length_map]
              obtain ⟨result', halike, hunwinds⟩ := ih (hsynthesizer ▸ hsound)
                (hafter ▸ fun other hother =>
                  (List.mem_cons.mp hother).elim (· ▸ hopened) (hrest other))
              rw [hafter] at hunwinds
              exact ⟨result', halike, hunwinds.opens hnext hframe hsight haround hsize hplaces⟩
  | @meetFails walk depth frame rest pair left e after hframes hnext hwork hfinished =>
      rw [hframes] at hcounted ⊢
      have hframe := hcounted frame List.mem_cons_self
      obtain ⟨-, hpath, -⟩ := @turn_of_next? frame rest _ _ hnext hframe
      have hsees := meet_sees engine depth pair { walk with frames := frame.withPairs left :: rest }
      rw [hwork] at hsees
      cases hsight : engine.sight walk.active depth pair.place walk.engine with
      | ok below middle =>
          rw [show engine.sight _ depth pair.place _ = _ from hsight] at hsees
          exact hsees.elim
      | error e' middle =>
          rw [show engine.sight _ depth pair.place _ = _ from hsight] at hsees
          refine ⟨.error e', hsees, .fails _ _ _ _ _ e' ?_⟩
          obtain ⟨hleft, -⟩ := Frame.next?_eq_some hnext
          rw [hleft, List.map_cons, hpath]
          exact .fails hsight fun he => hfinished (hsees.trans (congrArg _ he))
  | @finish walk frame rest after log result hframes hnext hwork hrest ih =>
      rw [hframes] at hcounted ⊢
      have hcloses := @finish_closes engine { walk with frames := rest } hsound frame
      obtain ⟨hafter, hactive, hengine, hsound'⟩ := leads_ok hcloses hwork
      obtain ⟨result', halike, hunwinds⟩ := ih hsound'
        (hafter ▸ fun other hother => hcounted other (List.mem_cons_of_mem _ hother))
      rw [hafter, hactive, hengine] at hunwinds
      refine ⟨result', halike, .closes _ _ _ _ _ [] _ _ ?_ hunwinds⟩
      rw [left_of_next?_eq_none hnext]
      exact .nil
  | @finishFails walk frame rest e after hframes hnext hwork hfinished =>
      have hcloses := @finish_closes engine { walk with frames := rest } hsound frame
      exact (leads_error hcloses hwork).elim

section Start

variable {options : Options} {root : Twin View}

/-- A walk that has not gone anywhere yet has the root to compare. -/
theorem start_faces (options : Options) (root : Twin View) (state : Engine.State) :
    ∃ frame, Faces (.start options root state) none 1 [⟨root, ⟨.empty, .empty⟩⟩] frame [] state ∧
      frame.kind = "fragment" ∧ turn frame = 1 :=
  ⟨_, ⟨rfl, rfl, rfl, Synthesizer.new_sound _, rfl, rfl⟩, rfl, rfl⟩

/-- The record of a walk is that of the traversal of its root. -/
def Traverses (engine : Engine) (root : Twin View) (state : Engine.State) (log : List Visit) :
    Except FoldError Walk → Prop
  | .ok _ =>
    ∃ visits after, engine.Visits none [] 1 [⟨root, ⟨.empty, .empty⟩⟩] state visits (.ok after) ∧
      log = visits ++ [.finished [] "fragment"]
  | .error e =>
    ∃ e', e = .render e' ∧
      engine.Visits none [] 1 [⟨root, ⟨.empty, .empty⟩⟩] state log (.error e')

/-- What the walk of a root does is its traversal. -/
theorem Rounds.traverses {result : Except FoldError Walk}
    (h : Rounds engine (.start options root state) log result) :
    Traverses engine root state log result := by
  obtain ⟨frame, hfaces, hkind, hturn⟩ := start_faces options root state
  have hcounted : Counted (Walk.start options root state).frames := by
    rw [hfaces.frames]
    intro other hother
    rw [List.mem_singleton.mp hother]
    have hcount := hfaces.count
    rw [← hfaces.left, List.length_map] at hcount
    omega
  obtain ⟨result', halike, hunwinds⟩ := h.unwinds hfaces.sound hcounted
  rw [hfaces.frames, hfaces.active, hfaces.engine] at hunwinds
  clear h
  cases hunwinds with
  | closes _ _ _ _ middle visits later _ hvisits hrest =>
      rw [hturn, hfaces.left] at hvisits
      rw [hkind]
      cases hrest
      cases result with
      | ok last => exact ⟨visits, middle, hvisits, rfl⟩
      | error e => exact halike.elim
  | fails _ _ _ _ _ e hvisits =>
      rw [hturn, hfaces.left] at hvisits
      cases result with
      | ok last => exact halike.elim
      | error e' => exact ⟨e, halike, hvisits⟩

end Start

end Walk

end RenderFold
