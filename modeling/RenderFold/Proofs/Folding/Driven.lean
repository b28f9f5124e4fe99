import RenderFold.Proofs.Folding.Descents
import RenderFold.Proofs.Folding.Soundness

/-!
# Walks Driven by Hand

Whoever drives a walk by hand may make its calls in any order, hand in
whatever they like, and go on after a failure. A call out of turn is refused
and changes nothing: going on while a suspension is outstanding, or resuming
while none is. Any other call that fails does change the walk. The pair
that could not be compared is taken, and a suspension that was resumed with
something that does not fit is not outstanding any more, so the walk can go
on to its end and give a tree that leaves out what failed.

## Main definitions

* `Command`, `Call`: A call, and one with what came of it.
* `Walk.Driven`: The calls that were made, latest first, and the walk that
  they lead to.
* `Call.Refused`: Calls out of turn.
* `Call.Completed`: Every suspension was resumed successfully.

## Theorems

* `Walk.responds`: What a call does.
* `Walk.Driven.completed_iff`: A tree leaves nothing out exactly if every call
  that failed was out of turn.
* `Walk.runFor_driven`: A run leaves nothing out.
-/

namespace RenderFold

/-- A call of whoever drives a walk. -/
inductive Command where
  | advance
  | resume (continuation : Continuation) (resolved : Resolved)

/-- A call that was made: the suspension that it handed out, if any, or the error. -/
structure Call where
  command : Command
  outcome : Except FoldError (Option Suspension)

namespace Call

/-- The suspension that is outstanding after some calls, latest first. -/
def outstanding : List Call → Option Suspension
  | [] => none
  | ⟨.advance, .ok (some suspension)⟩ :: _ => some suspension
  | ⟨.advance, _⟩ :: earlier => outstanding earlier
  | ⟨.resume .., _⟩ :: _ => none

/-- A call is out of turn after some others: going on while a suspension is outstanding,
    or resuming while none is. -/
def Refused (earlier : List Call) (call : Call) : Prop :=
  match call.command with
  | .advance => (outstanding earlier).isSome
  | .resume .. => outstanding earlier = none

/-- Every suspension that was handed out was completed: the next time the walk was
    resumed, it was so successfully. -/
def Completed (calls : List Call) : Prop :=
  ∀ later suspension earlier, calls = later ++ ⟨.advance, .ok (some suspension)⟩ :: earlier →
    ∃ rest continuation resolved between,
      later = rest ++ ⟨.resume continuation resolved, .ok none⟩ :: between ∧
      ∀ call ∈ between, call.command = .advance

/-- No call failed because a component could not be rendered. -/
def Renders (calls : List Call) : Prop := ∀ call ∈ calls, ∀ e, call.outcome ≠ .error (.render e)

/-- Every call that failed was out of turn. -/
def Obedient (calls : List Call) : Prop :=
  ∀ later call earlier, calls = later ++ call :: earlier → ∀ e, call.outcome = .error e →
    call.Refused earlier

end Call

namespace Walk

/-- Make a call. -/
def perform (engine : Engine) : Command → Walking (Option Suspension)
  | .advance => do return (← advance engine).suspension?
  | .resume continuation resolved => do
    resume engine continuation resolved
    return none

/-- A call with what comes of it, and the walk that it leaves behind. -/
def called (engine : Engine) (command : Command) (walk : Walk) : Call × Walk :=
  match perform engine command walk with
  | .ok out after => (⟨command, .ok out⟩, after)
  | .error e after => (⟨command, .error e⟩, after)

/-- The walks that calls lead to from `start`. The engine may have been used for other
    things between two calls. -/
inductive Driven (engine : Engine) (start : Walk) : List Call → Walk → Prop where
  | start : Driven engine start [] start
  | call {calls walk} (command : Command) (state : Engine.State)
      (h : Driven engine start calls walk) :
      Driven engine start ((called engine command { walk with engine := state }).1 :: calls)
        (called engine command { walk with engine := state }).2

section Errors

variable {engine : Engine} {walk after : Walk} {e : FoldError} {pair : Pair} {data : Twin NodeData}
  {resolutions : Twin Resolution}

theorem Sees.error {sight : EStateM.Result RenderError Engine.State Descent}
    (h : Sees walk sight (.error e after)) : ∃ e', e = .render e' := by
  cases sight with
  | ok below state => exact h.elim
  | error e' state => exact ⟨e', h⟩

/-- Comparing a pair fails only if a component cannot be rendered. -/
theorem compare_error {depth : Nat} (hwork : compare engine depth pair walk = .error e after) :
    ∃ e', e = .render e' := by
  by_cases hfinished : e = .render .unfinished
  · exact ⟨_, hfinished⟩
  · obtain ⟨more, hmore⟩ := meetsAs depth pair walk (finishes_of_error hwork hfinished)
    have hsees := meet_sees engine (0 + more) pair walk
    rw [(hmore 0).1.trans (bind_of_error hwork)] at hsees
    exact hsees.error

theorem compareResolved_error {depth : Nat}
    (hwork : compareResolved engine (compare engine depth) pair data resolutions walk =
      .error e after) : ∃ e', e = .render e' := by
  by_cases hfinished : e = .render .unfinished
  · exact ⟨_, hfinished⟩
  · obtain ⟨more, hmore⟩ := (meetsAs depth).settle (finishes_of_error hwork hfinished)
    have hsees := @settle_sees engine walk pair walk (meet engine (0 + more)) _ walk.engine data
      resolutions rfl rfl rfl rfl fun view => meet_sees engine (0 + more) { pair with view } walk
    rw [(hmore 0).1.trans (bind_of_error hwork)] at hsees
    exact hsees.error

theorem enterComponent_error {pending : Pending}
    (hwork : enterComponent engine pending walk = .error e after) : ∃ e', e = .render e' := by
  have hsees := @enterComponent_sees engine walk walk _ pending _ _ rfl rfl rfl rfl rfl rfl
  rw [hwork] at hsees
  exact hsees.error

/-- A step that fails only if a component cannot be rendered or a function cannot be
    read. -/
def Renders {α : Type} (work : Walking α) : Prop :=
  ∀ walk e after, work walk = .error e after → ∃ e', e = .render e'

theorem renders_bind {α β : Type} {work : Walking β} {next : β → Walking α} (h : Renders work)
    (hnext : ∀ b, Renders (next b)) : Renders (work >>= next) := by
  intro walk e after hwork
  rcases hfirst : work walk with ⟨b, middle⟩ | ⟨e', middle⟩
  · rw [bind_of_ok hfirst] at hwork
    exact hnext b middle e after hwork
  · rw [bind_of_error hfirst] at hwork
    cases hwork
    exact h walk e after hfirst

theorem renders_throw {α : Type} (e : RenderError) : Renders (throw (.render e) : Walking α) := by
  rintro walk _ after ⟨⟩
  exact ⟨e, rfl⟩

theorem renders_of_leads {α : Type} {work : Walking α}
    (h : ∀ walk, Leads work walk (fun _ _ => True) fun _ => False) : Renders work :=
  fun walk _ _ hwork => (leads_error (h walk) hwork).elim

theorem renders_get : Renders get := renders_of_leads fun _ => trivial

theorem renders_modify (change : Walk → Walk) : Renders (modify change) :=
  renders_of_leads fun _ => trivial

theorem renders_onSynthesizer {α : Type} (work : Synthesizer → α × Synthesizer) :
    Renders (onSynthesizer work) := renders_of_leads fun _ => trivial

/-- Closing a frame fails only if a function cannot be read. -/
theorem finish_renders (frame : Frame) : Renders (finish engine frame) := by
  cases frame with
  | element slot closing pairs => exact renders_modify _
  | group slot pairs => exact renders_modify _
  | component boundary pairs =>
      refine renders_bind (renders_modify _) fun _ => renders_bind renders_get fun walk => ?_
      dsimp only
      split
      · refine renders_bind (renders_onSynthesizer _) fun result => ?_
        split
        · exact renders_throw _
        · exact renders_bind (renders_modify _) fun _ => renders_bind renders_get fun _ =>
            renders_modify _
      · split
        · exact renders_modify _
        · split
          · exact renders_modify _
          · refine renders_bind renders_get fun _ => renders_bind (renders_modify _) fun _ =>
              renders_bind renders_get fun _ => renders_bind (renders_onSynthesizer _)
                fun rewritten => ?_
            split
            · exact renders_modify _
            · exact renders_modify _

end Errors

section Responses

variable {engine : Engine} {walk : Walk}

/-- What going on from a walk that does not wait does to it. -/
def Pauses : EStateM.Result FoldError Walk Progress → Prop
  | .ok progress after => after.pause = .waiting ↔ progress.suspension?.isSome
  | .error e after => after.pause ≠ .waiting ∧ ∃ e', e = .render e'

theorem advanceFor_pauses (steps : Nat) {walk : Walk} (hpause : walk.pause = .going) :
    Pauses (advanceFor engine steps walk) := by
  have hgoing {walk : Walk} (hpause : walk.pause = .going) : walk.pause ≠ .waiting :=
    fun hwaiting => Pause.noConfusion (hpause.symm.trans hwaiting)
  -- By induction on the steps that are left. Nothing pauses the walk but a suspension.
  induction steps generalizing walk with
  | zero => exact ⟨hgoing hpause, _, rfl⟩
  | succ steps ih =>
      rw [advanceFor, get_bind]
      rcases hframes : walk.frames with _ | ⟨frame, rest⟩
      · exact iff_of_false (hgoing hpause) Bool.false_ne_true
      · dsimp only
        rcases hnext : frame.pairs.next? with _ | ⟨pair, left⟩
        · dsimp only
          rw [modify_bind]
          have hsteady := @finish_steady engine frame { walk with frames := rest }
          cases hwork : finish engine frame { walk with frames := rest } with
          | error e after =>
              rw [bind_of_error hwork]
              exact ⟨hgoing ((leads_error hsteady hwork).1.trans hpause),
                finish_renders frame _ e after hwork⟩
          | ok _ after =>
              rw [bind_of_ok hwork]
              exact ih ((leads_ok hsteady hwork).1.trans hpause)
        · dsimp only
          rw [modify_bind]
          have hsteady := @compare_steady engine maxChain pair
            { walk with frames := frame.withPairs left :: rest }
          cases hwork : compare engine maxChain pair
              { walk with frames := frame.withPairs left :: rest } with
          | error e after =>
              rw [bind_of_error hwork]
              exact ⟨hgoing ((leads_error hsteady hwork).1.trans hpause), compare_error hwork⟩
          | ok out after =>
              rw [bind_of_ok hwork]
              cases out with
              | none => exact ih ((leads_ok hsteady hwork).1.trans hpause)
              | some suspension => exact iff_of_true rfl rfl

/-- What a call does. It is refused out of turn, and otherwise it succeeds, or fails
    because something cannot be rendered or does not fit. -/
def Responds (walk : Walk) : Call → Walk → Prop
  | ⟨.advance, .ok out⟩, after => walk.pause ≠ .waiting ∧ (after.pause = .waiting ↔ out.isSome)
  | ⟨.advance, .error e⟩, after =>
    (walk.pause = .waiting ∧ e = .notResumed ∧ after = walk) ∨
      (walk.pause ≠ .waiting ∧ after.pause ≠ .waiting ∧ ∃ e', e = .render e')
  | ⟨.resume .., .ok out⟩, after => walk.pause = .waiting ∧ after.pause ≠ .waiting ∧ out = none
  | ⟨.resume .., .error e⟩, after =>
    (walk.pause ≠ .waiting ∧ e = .resumeMismatch ∧ after = walk) ∨
      (walk.pause = .waiting ∧ after.pause ≠ .waiting ∧
        (e = .resumeMismatch ∨ ∃ e', e = .render e'))

theorem called_of_ok {command : Command} {out : Option Suspension} {after : Walk}
    (hwork : perform engine command walk = .ok out after) :
    called engine command walk = (⟨command, .ok out⟩, after) := by
  rw [called, hwork]

theorem called_of_error {command : Command} {e : FoldError} {after : Walk}
    (hwork : perform engine command walk = .error e after) :
    called engine command walk = (⟨command, .error e⟩, after) := by
  rw [called, hwork]

theorem responds_advance (walk : Walk) :
    Responds walk (called engine .advance walk).1 (called engine .advance walk).2 := by
  have hperform : perform engine .advance walk =
      (advance engine >>= fun progress => pure progress.suspension?) walk := rfl
  rw [advance, bind_assoc, get_bind] at hperform
  cases hpause : walk.pause with
  | waiting =>
      rw [hpause] at hperform
      rw [called_of_error hperform]
      exact .inl ⟨hpause, rfl, rfl⟩
  | parked suspension =>
      rw [hpause] at hperform
      rw [called_of_ok hperform]
      exact ⟨by rw [hpause]; exact Pause.noConfusion, iff_of_true rfl rfl⟩
  | going =>
      have hne : walk.pause ≠ .waiting := by rw [hpause]; exact Pause.noConfusion
      have hpauses := @advanceFor_pauses engine maxSteps walk hpause
      rw [hpause] at hperform
      cases hwork : advanceFor engine maxSteps walk with
      | ok progress after =>
          rw [hwork] at hpauses
          rw [called_of_ok (hperform.trans (bind_of_ok hwork))]
          exact ⟨hne, hpauses⟩
      | error e after =>
          rw [hwork] at hpauses
          rw [called_of_error (hperform.trans (bind_of_error hwork))]
          exact .inr ⟨hne, hpauses⟩

theorem resumed_error {continuation : Continuation} {resolved : Resolved} {e : FoldError}
    {after : Walk} (hpause : walk.pause = .waiting)
    (hwork : resume engine continuation resolved walk = .error e after) :
    after.pause ≠ .waiting ∧ (e = .resumeMismatch ∨ ∃ e', e = .render e') := by
  have hgoing {walk : Walk} (hpause : walk.pause = .going) : walk.pause ≠ .waiting :=
    fun hwaiting => Pause.noConfusion (hpause.symm.trans hwaiting)
  rw [resume_eq] at hwork
  rcases continuation with pending | ⟨pair, data⟩ <;> rcases resolved with _ | resolutions
  · rw [resumeWithin_component hpause] at hwork
    exact ⟨hgoing (leads_error (enterComponent_steady _ _) hwork).1,
      .inr (enterComponent_error hwork)⟩
  · unfold resumeWithin at hwork
    rw [get_bind, hpause] at hwork
    cases hwork
    exact ⟨Pause.noConfusion, .inl rfl⟩
  · unfold resumeWithin at hwork
    rw [get_bind, hpause] at hwork
    cases hwork
    exact ⟨Pause.noConfusion, .inl rfl⟩
  · rw [resumeWithin_deferred hpause] at hwork
    have hsteady := @compareResolved_steady engine _ (@compare_steady engine maxChain) pair data
      resolutions { walk with pause := .going }
    cases hcompare : compareResolved engine (compare engine maxChain) pair data resolutions
        { walk with pause := .going } with
    | ok out middle =>
        rw [hcompare] at hwork
        cases out <;> cases hwork
    | error e' middle =>
        rw [hcompare] at hwork
        cases hwork
        exact ⟨hgoing (leads_error hsteady hcompare).1, .inr (compareResolved_error hcompare)⟩

theorem responds_resume (continuation : Continuation) (resolved : Resolved) (walk : Walk) :
    Responds walk (called engine (.resume continuation resolved) walk).1
      (called engine (.resume continuation resolved) walk).2 := by
  have hperform : perform engine (.resume continuation resolved) walk =
      (resume engine continuation resolved >>= fun _ => pure none) walk := rfl
  by_cases hpause : walk.pause = .waiting
  · cases hwork : resume engine continuation resolved walk with
    | ok _ after =>
        rw [called_of_ok (hperform.trans (bind_of_ok hwork))]
        exact ⟨hpause, resumeWithin_pause hwork, rfl⟩
    | error e after =>
        rw [called_of_error (hperform.trans (bind_of_error hwork))]
        exact .inr ⟨hpause, resumed_error hpause hwork⟩
  · have hwork : resume engine continuation resolved walk = .error .resumeMismatch walk := by
      unfold resume
      rw [get_bind]
      cases hother : walk.pause with
      | waiting => exact absurd hother hpause
      | going => rfl
      | parked suspension => rfl
    rw [called_of_error (hperform.trans (bind_of_error hwork))]
    exact .inl ⟨hpause, rfl, rfl⟩

theorem responds (engine : Engine) (command : Command) (walk : Walk) :
    Responds walk (called engine command walk).1 (called engine command walk).2 := by
  cases command with
  | advance => exact responds_advance walk
  | resume continuation resolved => exact responds_resume continuation resolved walk

end Responses

section Calls

open Call

variable {engine : Engine} {start walk last : Walk} {calls earlier later : List Call} {call : Call}

/-- A walk waits if a suspension is outstanding. -/
theorem Driven.waiting_iff (h : Driven engine start calls walk) (hstart : start.pause ≠ .waiting) :
    walk.pause = .waiting ↔ (outstanding calls).isSome := by
  induction h with
  | start => exact iff_of_false hstart Bool.false_ne_true
  | @call calls walk command state h ih =>
      have hresponds := responds engine command { walk with engine := state }
      rcases hcalled : called engine command { walk with engine := state } with
        ⟨⟨made, outcome⟩, after⟩
      rw [hcalled] at hresponds
      rcases made with _ | ⟨continuation, resolved⟩ <;> rcases outcome with e | out
      · obtain ⟨hwaiting, -, rfl⟩ | ⟨hgoing, hafter, -⟩ := hresponds
        · exact ih
        · exact iff_of_false hafter (ih.not.mp hgoing)
      · obtain ⟨hgoing, hafter⟩ := hresponds
        cases out with
        | some suspension => exact hafter
        | none =>
            exact iff_of_false (hafter.not.mpr Bool.false_ne_true) (ih.not.mp hgoing)
      · obtain ⟨hgoing, -, rfl⟩ | ⟨-, hafter, -⟩ := hresponds
        · exact iff_of_false hgoing Bool.false_ne_true
        · exact iff_of_false hafter Bool.false_ne_true
      · exact iff_of_false hresponds.2.1 Bool.false_ne_true

/-- Every call that was made is answered for a walk that earlier calls lead to. -/
theorem Driven.responds (h : Driven engine start calls last)
    (hcalls : calls = later ++ call :: earlier) :
    ∃ walk state after, Driven engine start earlier walk ∧
      Responds { walk with engine := state } call after := by
  induction h generalizing later with
  | start => exact absurd hcalls (List.append_ne_nil_of_right_ne_nil _ (List.cons_ne_nil _ _)).symm
  | @call calls walk command state h ih =>
      cases later with
      | nil =>
          obtain ⟨rfl, rfl⟩ := List.cons.inj hcalls
          exact ⟨walk, state, _, h, Walk.responds engine command _⟩
      | cons other later => exact ih (List.cons.inj hcalls).2

end Calls

end Walk

namespace Call

variable {calls earlier later between : List Call}

/-- Calls begin with advances, and then the walk is resumed, if it is. -/
theorem resumed_or (calls : List Call) :
    (∀ call ∈ calls, call.command = .advance) ∨
      ∃ rest continuation resolved outcome between,
        calls = rest ++ ⟨.resume continuation resolved, outcome⟩ :: between ∧
        ∀ call ∈ between, call.command = .advance := by
  induction calls with
  | nil => exact .inl (List.forall_mem_nil _)
  | cons call calls ih =>
      obtain hall | ⟨rest, continuation, resolved, outcome, between, rfl, hbetween⟩ := ih
      · obtain ⟨_ | ⟨continuation, resolved⟩, outcome⟩ := call
        · exact .inl (List.forall_mem_cons.mpr ⟨rfl, hall⟩)
        · exact .inr ⟨[], continuation, resolved, outcome, calls, rfl, hall⟩
      · exact .inr ⟨call :: rest, continuation, resolved, outcome, between, rfl, hbetween⟩

/-- The first time that a walk is resumed is the only one. -/
theorem resume_unique {rest : List Call} {call resumed : Call} {between' : List Call}
    (hcalls : later ++ call :: between = rest ++ resumed :: between')
    (hcall : call.command ≠ .advance) (hresumed : resumed.command ≠ .advance)
    (hbetween : ∀ call ∈ between, call.command = .advance)
    (hbetween' : ∀ call ∈ between', call.command = .advance) : call = resumed := by
  rcases List.append_eq_append_iff.mp hcalls with ⟨more, hrest, hmore⟩ | ⟨more, hlater, hmore⟩
  · rcases more with _ | ⟨first, more⟩
    · exact (List.cons.inj hmore).1
    · obtain ⟨rfl, rfl⟩ := List.cons.inj hmore
      exact absurd (hbetween resumed (by simp)) hresumed
  · rcases more with _ | ⟨first, more⟩
    · exact (List.cons.inj hmore).1.symm
    · obtain ⟨rfl, rfl⟩ := List.cons.inj hmore
      exact absurd (hbetween' call (by simp)) hcall

/-- A suspension that was handed out is outstanding until the walk is resumed. -/
theorem outstanding_isSome {suspension : Suspension}
    (hbetween : ∀ call ∈ between, call.command = .advance) :
    (outstanding (between ++ ⟨.advance, .ok (some suspension)⟩ :: earlier)).isSome := by
  induction between with
  | nil => rfl
  | cons call between ih =>
      obtain ⟨hcall, hrest⟩ := List.forall_mem_cons.mp hbetween
      obtain ⟨command, e | _ | out⟩ := call <;> cases hcall
      · exact ih hrest
      · exact ih hrest
      · rfl

/-- A suspension that is outstanding was handed out, and the walk was not resumed since. -/
theorem handed_of_outstanding {suspension : Suspension}
    (h : outstanding calls = some suspension) :
    ∃ between earlier, calls = between ++ ⟨.advance, .ok (some suspension)⟩ :: earlier ∧
      ∀ call ∈ between, call.command = .advance := by
  induction calls with
  | nil => cases h
  | cons call calls ih =>
      obtain ⟨_ | ⟨continuation, resolved⟩, e | _ | out⟩ := call
      · obtain ⟨between, earlier, rfl, hbetween⟩ := ih h
        exact ⟨_ :: between, earlier, rfl, List.forall_mem_cons.mpr ⟨rfl, hbetween⟩⟩
      · obtain ⟨between, earlier, rfl, hbetween⟩ := ih h
        exact ⟨_ :: between, earlier, rfl, List.forall_mem_cons.mpr ⟨rfl, hbetween⟩⟩
      · cases h
        exact ⟨[], calls, rfl, List.forall_mem_nil _⟩
      · cases h
      · cases h
      · cases h

end Call

namespace Walk

open Call

variable {engine : Engine} {start last : Walk} {calls : List Call}

/-- If nothing is outstanding in the end, and every call that failed was out of turn, every
    suspension was completed. -/
theorem Driven.completed (h : Driven engine start calls last) (hnone : outstanding calls = none)
    (hobedient : Obedient calls) : Completed calls := by
  rintro later suspension earlier rfl
  obtain hall | ⟨rest, continuation, resolved, outcome, between, rfl, hbetween⟩ := resumed_or later
  · have hsome := @outstanding_isSome earlier later suspension hall
    rw [hnone] at hsome
    cases hsome
  · refine ⟨rest, continuation, resolved, between, ?_, hbetween⟩
    have hcalls : rest ++ ⟨.resume continuation resolved, outcome⟩ :: between ++
        ⟨.advance, .ok (some suspension)⟩ :: earlier =
          rest ++ ⟨.resume continuation resolved, outcome⟩ :: (between ++
            ⟨.advance, .ok (some suspension)⟩ :: earlier) := by
      rw [List.append_assoc, List.cons_append]
    obtain ⟨walk, state, after, -, hresponds⟩ := h.responds hcalls
    cases outcome with
    | ok out =>
        obtain ⟨-, -, rfl⟩ := hresponds
        rfl
    | error e =>
        have hrefused : outstanding _ = none := hobedient _ _ _ hcalls e rfl
        have hsome := @outstanding_isSome earlier between suspension hbetween
        rw [hrefused] at hsome
        cases hsome

/-- A call that is refused is not answered with a failure to render. -/
theorem Driven.renders (h : Driven engine start calls last) (hstart : start.pause ≠ .waiting)
    (hobedient : Obedient calls) : Call.Renders calls := by
  intro call hcall e he
  obtain ⟨later, earlier, hcalls⟩ := List.append_of_mem hcall
  obtain ⟨walk, state, after, hwalk, hresponds⟩ := h.responds hcalls
  have hrefused := hobedient later call earlier hcalls _ he
  have hwaiting := hwalk.waiting_iff hstart
  obtain ⟨_ | ⟨continuation, resolved⟩, outcome⟩ := call <;> cases he
  · obtain ⟨-, he, -⟩ | ⟨hgoing, -⟩ := hresponds
    · cases he
    · exact hgoing (hwaiting.mpr hrefused)
  · obtain ⟨-, he, -⟩ | ⟨hpause, -⟩ := hresponds
    · cases he
    · have hsome := hwaiting.mp hpause
      rw [show outstanding earlier = none from hrefused] at hsome
      cases hsome

/-- If every suspension was completed and nothing failed to render, a call that failed was
    out of turn. -/
theorem Driven.obedient (h : Driven engine start calls last) (hstart : start.pause ≠ .waiting)
    (hcompleted : Completed calls) (hrenders : Call.Renders calls) : Obedient calls := by
  rintro later call earlier hcalls e he
  obtain ⟨walk, state, after, hwalk, hresponds⟩ := h.responds hcalls
  have hwaiting := hwalk.waiting_iff hstart
  have hrender (e' : RenderError) : call.outcome ≠ .error (.render e') :=
    hrenders call (hcalls ▸ List.mem_append_right _ List.mem_cons_self) e'
  obtain ⟨_ | ⟨continuation, resolved⟩, outcome⟩ := call <;> cases he
  · obtain ⟨hpause, -⟩ | ⟨-, -, e', rfl⟩ := hresponds
    · exact hwaiting.mp hpause
    · exact absurd rfl (hrender e')
  · obtain ⟨hgoing, -⟩ | ⟨hpause, -, rfl | ⟨e', rfl⟩⟩ := hresponds
    · exact Option.not_isSome_iff_eq_none.mp (hwaiting.not.mp hgoing)
    · -- The suspension that was outstanding was resumed with something that does not fit, and
      -- so the first time it was resumed was no success.
      obtain ⟨suspension, houtstanding⟩ := Option.isSome_iff_exists.mp (hwaiting.mp hpause)
      obtain ⟨between, earlier', rfl, hbetween⟩ := handed_of_outstanding houtstanding
      obtain ⟨rest, continuation', resolved', between', hlater, hbetween'⟩ :=
        hcompleted (later ++ _ :: between) suspension earlier'
          (by rw [hcalls, List.append_assoc]; rfl)
      cases resume_unique hlater Command.noConfusion Command.noConfusion hbetween hbetween'
    · exact absurd rfl (hrender e')

/-- A walk that was driven by hand and gives a tree leaves nothing out exactly if every call
    that failed was out of turn. Nothing is left out if every suspension that was handed
    out was completed, and nothing failed to render. -/
theorem Driven.completed_iff {options : Options} {root : Twin View} {state : Engine.State}
    {tree : FoldedTree} (h : Driven engine (.start options root state) calls last)
    (hresult : last.result = .ok tree) :
    (Completed calls ∧ Call.Renders calls) ↔ Obedient calls := by
  have hstart : (Walk.start options root state).pause ≠ .waiting := Pause.noConfusion
  have hgoing : last.pause ≠ .waiting := by
    intro hwaiting
    rw [Walk.result, hwaiting] at hresult
    cases hresult
  have hnone : outstanding calls = none :=
    Option.not_isSome_iff_eq_none.mp ((h.waiting_iff hstart).not.mp hgoing)
  exact ⟨fun ⟨hcompleted, hrenders⟩ => h.obedient hstart hcompleted hrenders,
    fun hobedient => ⟨h.completed hnone hobedient, h.renders hstart hobedient⟩⟩

/-- A page with a hook. -/
def hooked : Component :=
  { Component.named "page" with
    prefetch := [fun _ => .now (.ok (.object []))]
    render := (RenderFunction.compile "return _c(\"p\", [_v(name)])").toOption }

/-- Going on from the start. -/
def hookedFirst : Call × Walk :=
  called (engineOf hooked) .advance (.start .standard (named "ada") (engineOf hooked).initial)

/-- Resuming what it has to wait for. -/
def hookedSecond : Call × Walk :=
  let command := match hookedFirst.1.outcome with
    | .ok (some suspension) => .resume suspension.continuation .prefetched
    | _ => .advance
  called (engineOf hooked) command hookedFirst.2

/-- Going on to the end. -/
def hookedThird : Call × Walk := called (engineOf hooked) .advance hookedSecond.2

/-- A walk that has to wait, is resumed, and gives a tree that leaves nothing out. -/
theorem completed_iff_hooked : ∃ calls last tree,
    Driven (engineOf hooked) (.start .standard (named "ada") (engineOf hooked).initial) calls last ∧
    last.result = .ok tree ∧ outstanding calls.tail.tail ≠ none ∧ Completed calls ∧
    Call.Renders calls := by
  have hdriven : Driven (engineOf hooked)
      (.start .standard (named "ada") (engineOf hooked).initial)
      [hookedThird.1, hookedSecond.1, hookedFirst.1] hookedThird.2 :=
    .call .advance hookedSecond.2.engine (.call _ hookedFirst.2.engine (.call .advance _ .start))
  have hrun : (hookedThird.2.result.toBool &&
      (outstanding [hookedFirst.1]).isSome && [hookedThird.1, hookedSecond.1, hookedFirst.1].all
        (·.outcome.toBool)) = true := by decide +kernel
  simp only [Bool.and_eq_true] at hrun
  obtain ⟨⟨hresult, hsome⟩, hall⟩ := hrun
  cases htree : hookedThird.2.result with
  | error e =>
      rw [htree] at hresult
      cases hresult
  | ok tree =>
      have hcompleted := (hdriven.completed_iff htree).mpr fun later call earlier hcalls e he => by
        have hok := List.all_eq_true.mp hall call (hcalls ▸ by simp)
        rw [he] at hok
        cases hok
      exact ⟨_, _, tree, hdriven, htree, Option.isSome_iff_ne_none.mp hsome, hcompleted⟩

/-- A page with a component that cannot be rendered. -/
def incomplete : Engine :=
  { engineOf hooked with
    components := fun id =>
      if id = 0 then
        { Component.named "page" with
          components := [("card", .component 1)]
          render := (RenderFunction.compile "return _c(\"p\", [_c(\"card\")])").toOption }
      else Component.named "card" }

/-- Going on after a component could not be rendered gives a tree without it. -/
theorem result_of_incomplete : ¬ ∀ (engine : Engine) (options : Options) (root : Twin View)
    (state : Engine.State) (calls : List Call) (last : Walk) (tree : FoldedTree),
    Driven engine (.start options root state) calls last → last.result = .ok tree →
    Completed calls ∧ Call.Renders calls := by
  intro hall
  let first := called incomplete .advance (.start .standard (named "ada") incomplete.initial)
  let second := called incomplete .advance first.2
  have hdriven : Driven incomplete (.start .standard (named "ada") incomplete.initial)
      [second.1, first.1] second.2 :=
    .call .advance first.2.engine (.call .advance _ .start)
  have hresult : second.2.result.toBool = true := by decide +kernel
  have hfirst : first.1.outcome.map (fun _ => ()) =
      .error (.render (.missingRender "card")) := by decide +kernel
  cases htree : second.2.result with
  | error e =>
      rw [htree] at hresult
      cases hresult
  | ok tree =>
      obtain ⟨-, hrenders⟩ := hall _ _ _ _ _ _ tree hdriven htree
      cases houtcome : first.1.outcome with
      | ok out =>
          rw [houtcome] at hfirst
          cases hfirst
      | error e =>
          rw [houtcome] at hfirst
          cases hfirst
          exact hrenders first.1 (by simp) _ houtcome

/-- Calls one after another. -/
theorem Driven.trans {middle : Walk} {more : List Call} (h : Driven engine start calls middle)
    (hmore : Driven engine middle more last) : Driven engine start (more ++ calls) last := by
  induction hmore with
  | start => exact h
  | call command state _ ih => exact .call command state ih

/-- A call that succeeds. -/
theorem Driven.single {walk after : Walk} {command : Command} {out : Option Suspension}
    (state : Engine.State)
    (hwork : perform engine command { walk with engine := state } = .ok out after) :
    Driven engine walk [⟨command, .ok out⟩] after := by
  have hcall : Driven engine walk _ _ := .call command state .start
  rwa [called_of_ok hwork] at hcall

/-- A run makes calls of which none fails, if it gives a tree. -/
theorem runFor_driven (pauses : Nat) {walk : Walk} {tree : FoldedTree}
    (hrun : runFor engine pauses walk = .ok tree last) :
    ∃ calls, Driven engine walk calls last ∧ last.result = .ok tree ∧
      ∀ call ∈ calls, ∀ e, call.outcome ≠ .error e := by
  -- By induction on the pauses. Each takes a call to go on and one to resume.
  induction pauses generalizing walk with
  | zero => cases hrun
  | succ pauses ih =>
      rw [runFor] at hrun
      rcases hadvance : advance engine walk with ⟨progress, middle⟩ | ⟨e, middle⟩
      · have hfirst : Driven engine walk [⟨.advance, .ok progress.suspension?⟩] middle :=
          .single walk.engine (bind_of_ok hadvance)
        rw [bind_of_ok hadvance] at hrun
        cases progress with
        | done =>
            dsimp only at hrun
            rw [get_bind] at hrun
            cases hresult : middle.result with
            | error e =>
                rw [hresult] at hrun
                cases hrun
            | ok tree' =>
                rw [hresult] at hrun
                cases hrun
                exact ⟨_, hfirst, hresult, List.forall_mem_singleton.mpr fun _ h => by cases h⟩
        | suspended suspension =>
            rcases hawait : suspension.await engine middle.engine with
              ⟨e | resolved, continuation, state⟩
            · dsimp only at hrun
              rw [bind_of_ok (await_of_eq hawait)] at hrun
              cases hrun
            · dsimp only at hrun
              rw [bind_of_ok (await_of_eq hawait)] at hrun
              dsimp only at hrun
              rw [show (ofExcept (.ok resolved) : Walking Resolved) = pure resolved from rfl,
                pure_bind] at hrun
              rcases hresume : resume engine continuation resolved
                { middle with engine := state } with ⟨_, after⟩ | ⟨e, after⟩
              · have hsecond : Driven engine middle [⟨.resume continuation resolved, .ok none⟩]
                    after := .single state (bind_of_ok hresume)
                rw [bind_of_ok hresume] at hrun
                obtain ⟨calls, hcalls, hresult, hnone⟩ := ih hrun
                refine ⟨_, (hfirst.trans hsecond).trans hcalls, hresult, fun call hcall => ?_⟩
                obtain hcall | hcall := List.mem_append.mp hcall
                · exact hnone call hcall
                · obtain rfl | hcall := List.mem_cons.mp hcall
                  · exact fun _ h => by cases h
                  · cases List.mem_singleton.mp hcall
                    exact fun _ h => by cases h
              · rw [bind_of_error hresume] at hrun
                cases hrun
      · rw [bind_of_error hadvance] at hrun
        cases hrun

end Walk

end RenderFold
