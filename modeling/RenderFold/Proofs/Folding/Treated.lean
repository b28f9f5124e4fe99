import RenderFold.Proofs.Folding.Trampoline

/-!
# Pairs That Have Been Treated

What a walk does from meeting a pair to closing the last frame that was opened
for it. A pair is met, and if a frame is opened for what is below it, the pairs
there are treated one after another and the frame is closed. So the stack of
frames takes the place of a recursion, and what holds of all pairs that are
treated can be shown by recursion.

## Main definitions

* `Walk.Treats`: Pairs of one frame, treated one after another.
* `Walk.WorksOff`: A stack of frames, worked off from the innermost one on.

## Theorems

* `Walk.Rounds.worksOff`: A walk that comes to its end has worked off its frames.
-/

namespace RenderFold

namespace Walk

variable {engine : Engine} {seen : Twin View → Prop} {log : List Visit}

/-- Pairs are treated one after another, inside of some frames. `seen` holds of
    the nodes that are compared. -/
inductive Treats (engine : Engine) (seen : Twin View → Prop) : List Pair → Walk → Walk → Prop where
  | nil {walk} : Treats engine seen [] walk walk
  | leaf {walk after last pair pairs frames depth} (hseen : seen pair.view)
      (hmeet : meet engine depth pair { walk with frames } = .ok () after)
      (hframes : after.frames = frames) (hrest : Treats engine seen pairs after last) :
      Treats engine seen (pair :: pairs) walk last
  | node {walk opened middle after last pair pairs frames frame depth} (hseen : seen pair.view)
      (hmeet : meet engine depth pair { walk with frames } = .ok () opened)
      (hopened : opened.frames = frame :: frames)
      (hinner : Treats engine seen frame.pairs.left opened middle)
      (hwork : finish engine frame { middle with frames } = .ok () after)
      (hrest : Treats engine seen pairs after last) :
      Treats engine seen (pair :: pairs) walk last

/-- Frames are worked off, beginning with the innermost one: the pairs that are
    left in it are treated, and then it is closed. -/
inductive WorksOff (engine : Engine) (seen : Twin View → Prop) :
    List Frame → Walk → Walk → Prop where
  | nil {walk} (hframes : walk.frames = []) : WorksOff engine seen [] walk walk
  | cons {walk middle after last frame rest}
      (hpairs : Treats engine seen frame.pairs.left walk middle)
      (hwork : finish engine frame { middle with frames := rest } = .ok () after)
      (hrest : WorksOff engine seen rest after last) :
      WorksOff engine seen (frame :: rest) walk last

variable {walk last : Walk}

/-- Closing a frame looks at the expressions of all its children, whether they
    have been compared or not. -/
theorem finish_withPairs (frame : Frame) {pairs : Pairs}
    (hslots : pairs.slots = frame.pairs.slots) :
    finish engine (frame.withPairs pairs) = finish engine frame := by
  cases frame <;> simp only [Frame.withPairs, finish, hslots, Frame.pairs]

/-- A meeting that opens a frame opens no other. -/
theorem frames_of_meet {depth : Nat} {pair : Pair} {after : Walk}
    (hmeet : meet engine depth pair walk = .ok () after) :
    after.frames = walk.frames ∨ ∃ frame, after.frames = frame :: walk.frames := by
  have hsees := meet_sees engine depth pair walk
  rw [hmeet] at hsees
  cases hsight : engine.sight walk.active depth pair.place walk.engine with
  | error e middle =>
      rw [hsight] at hsees
      exact hsees.elim
  | ok below middle =>
      rw [hsight] at hsees
      cases below with
      | nothing => exact Or.inl hsees.1.1
      | opens kind inside inner =>
          obtain ⟨-, frame, hframes, -⟩ := hsees.1
          exact Or.inr ⟨frame, hframes⟩

theorem synthesizer_of_meet {depth : Nat} {pair : Pair} {after : Walk}
    (hmeet : meet engine depth pair walk = .ok () after) :
    after.synthesizer = walk.synthesizer := by
  have hsees := meet_sees engine depth pair walk
  rw [hmeet] at hsees
  cases hsight : engine.sight walk.active depth pair.place walk.engine <;> rw [hsight] at hsees
  · exact hsees.2.2
  · exact hsees.elim

/-- A pair is compared when it is met. -/
theorem mem_met {depth : Nat} {pair : Pair} {after : Walk} (state : Engine.State)
    (hmeet : meet engine depth pair walk = .ok () after) :
    pair.view ∈ met engine depth pair.view state := by
  cases depth with
  | zero => cases hmeet
  | succ depth => exact List.mem_cons_self

/-- A walk that comes to its end has worked off its frames. -/
theorem Rounds.worksOff {result : Except FoldError Walk} (h : Rounds engine walk log result)
    (hlast : result = .ok last) (hsound : walk.synthesizer.Sound)
    (hseen : ∀ path view context, .compared path view context ∈ log → seen view) :
    WorksOff engine seen walk.frames walk last := by
  -- By induction on the walk. After each step the frames are worked off, and the
  -- step is put before that.
  induction h with
  | done hframes =>
      cases hlast
      rw [hframes]
      exact .nil hframes
  | @meet walk depth frame rest pair left after log result hframes hnext hwork hrest ih =>
      obtain ⟨hleft, hslots⟩ := Frame.next?_eq_some hnext
      have hpair : seen pair.view := hseen _ _ _ (List.mem_append_left _
        (List.mem_map.mpr ⟨pair.view, mem_met walk.engine hwork, rfl⟩))
      have hworks := ih hlast (synthesizer_of_meet hwork ▸ hsound) fun path view context hmem =>
        hseen path view context (List.mem_append_right _ hmem)
      have hpairs : (frame.withPairs left).pairs = left := by cases frame <;> rfl
      rw [hframes]
      rcases frames_of_meet hwork with hsame | ⟨opened, hopened⟩
      · rw [hsame] at hworks
        cases hworks with
        | cons htreats hclose hrest =>
            rw [hpairs] at htreats
            rw [finish_withPairs frame hslots.symm] at hclose
            refine .cons ?_ hclose hrest
            rw [hleft]
            exact .leaf hpair hwork hsame htreats
      · rw [hopened] at hworks
        cases hworks with
        | cons hinner hfinish hrest =>
            cases hrest with
            | cons htreats hclose hrest =>
                rw [hpairs] at htreats
                rw [finish_withPairs frame hslots.symm] at hclose
                refine .cons ?_ hclose hrest
                rw [hleft]
                exact .node hpair hwork hopened hinner hfinish htreats
  | @finish walk frame rest after log result hframes hnext hwork hrest ih =>
      obtain ⟨hafter, -, -, hsound'⟩ :=
        leads_ok (@finish_closes engine { walk with frames := rest } hsound frame) hwork
      have hworks := ih hlast hsound' fun path view context hmem =>
        hseen path view context (List.mem_cons_of_mem _ hmem)
      rw [hafter] at hworks
      rw [hframes]
      refine .cons ?_ hwork hworks
      rw [left_of_next?_eq_none hnext]
      exact .nil
  | meetFails => cases hlast
  | finishFails => cases hlast

end Walk

end RenderFold
