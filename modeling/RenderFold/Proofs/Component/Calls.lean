import RenderFold.Proofs.Component.Matching

/-!
# Overlapping Calls

Whoever needs an async component makes a call to its factory, and asks the
call from time to time whether it is done. Calls made by different callers
may overlap in any way, and what they come to is shared.

What is shared is looked up once, when a call is made. A call that was made
before the factory had resolved reports what the factory itself reports to
it, whenever that is, and that then takes the place of what was shared
before. So the first success stays if, and only if, no call that was open at
the time comes to anything else later. Calls that are made afterwards do no
harm.

## Main definitions

* `Engine.Call`, `Engine.Move`: A call, and what callers do.
* `Engine.poll`: Asking a call whether it is done.
* `Engine.play`: What comes of moves, in the order they happen in.

## Theorems

* `Engine.resolve_eq_play`, `Engine.resolveBoth_eq_play`: Waiting for one or
  for two answers is making calls and asking them until they are done.
* `Engine.first_success_stays_iff`: When the first success stays.
-/

namespace RenderFold

namespace Engine

/-- A call to a factory: just made, waited for, or settled. -/
inductive Call where
  | made (asked : Asked)
  | waiting (asked : Asked) (work : Delayed (Except RenderError Resolution))
  | settled (outcome : Except RenderError Resolution)

/-- What a caller does: make a call, or ask one whether it is done. -/
inductive Move where
  | make
  | poll (call : Nat)

/-- Ask work whether it is done. If it is, what it comes to is kept. -/
def attend (asked : Asked) : Delayed (Except RenderError Resolution) → EngineM Call
  | ⟨0, outcome⟩ => do
    keep asked outcome
    return .settled outcome
  | ⟨delay + 1, outcome⟩ => return .waiting asked ⟨delay, outcome⟩

/-- Ask a call whether it is done. Nothing happens in a call before it is asked
    for the first time. -/
def poll (engine : Engine) : Call → EngineM Call
  | .made asked => do attend asked (← engine.begin asked)
  | .waiting asked work => attend asked work
  | .settled outcome => return .settled outcome

/-- What a move does to the calls made so far. -/
def move (engine : Engine) (id : FactoryId) (calls : List Call) : Move → EngineM (List Call)
  | .make => do return calls ++ [.made (← ask id)]
  | .poll i =>
    match calls[i]? with
    | none => return calls
    | some call => do return calls.set i (← engine.poll call)

/-- What moves in turn do to the calls made so far. -/
def play (engine : Engine) (id : FactoryId) (calls : List Call) (moves : List Move) :
    EngineM (List Call) :=
  moves.foldlM (engine.move id) calls

/-- What was found when a call was made that is still open. -/
def Call.asked? : Call → Option Asked
  | .made asked => some asked
  | .waiting asked _ => some asked
  | .settled _ => none

/-- What a factory has resolved to. -/
def State.cached (state : State) (id : FactoryId) : Option Resolution :=
  (state.factories id).cached

variable {engine : Engine} {id : FactoryId} {state state' : State} {call call' : Call}
  {calls calls' : List Call} {resolution : Resolution}

theorem State.setFactory_self (state : State) (id : FactoryId) (value : FactoryState) :
    (state.setFactory id value).factories id = value := if_pos rfl

theorem State.setFactory_setFactory (state : State) (id : FactoryId)
    (first second : FactoryState) :
    (state.setFactory id first).setFactory id second = state.setFactory id second := by
  simp only [setFactory, State.mk.injEq, and_true]
  funext other
  split <;> rfl

theorem State.cached_setFactory (state : State) (id : FactoryId) (value : FactoryState)
    (other : FactoryId) :
    (state.setFactory id value).cached other =
      if other = id then value.cached else state.cached other := by
  simp only [cached, setFactory]
  split <;> rfl

theorem poll_made (engine : Engine) (asked : Asked) (state : State) :
    engine.poll (.made asked) state =
      attend asked (engine.begun asked state).1 (engine.begun asked state).2 := by
  simp only [poll, bind, EStateM.bind, begin_eq]

theorem move_make :
    engine.move id calls .make state = .ok (calls ++ [.made (state.asked id)]) state := by
  simp only [Engine.move, bind, EStateM.bind, ask_eq]
  rfl

theorem move_poll {i : Nat} (hcall : calls[i]? = some call)
    (h : engine.poll call state = .ok call' state') :
    engine.move id calls (.poll i) state = .ok (calls.set i call') state' := by
  simp only [Engine.move, hcall, bind, EStateM.bind, h]
  rfl

theorem exists_attend (asked : Asked) (work : Delayed (Except RenderError Resolution))
    (state : State) : ∃ call state', attend asked work state = .ok call state' := by
  obtain ⟨_ | delay, outcome⟩ := work
  · simp only [attend, bind, EStateM.bind, keep_eq]
    exact ⟨_, _, rfl⟩
  · exact ⟨_, _, rfl⟩

theorem exists_poll (engine : Engine) (call : Call) (state : State) :
    ∃ call' state', engine.poll call state = .ok call' state' := by
  cases call with
  | settled outcome => exact ⟨_, _, rfl⟩
  | waiting asked work => exact exists_attend asked work state
  | made asked =>
      rw [poll_made]
      exact exists_attend _ _ _

theorem exists_move (engine : Engine) (id : FactoryId) (calls : List Call) (move : Move)
    (state : State) : ∃ calls' state', engine.move id calls move state = .ok calls' state' := by
  cases move with
  | make => exact ⟨_, _, move_make⟩
  | poll i =>
      cases hcall : calls[i]? with
      | none =>
          simp only [Engine.move, hcall]
          exact ⟨_, _, rfl⟩
      | some call =>
          obtain ⟨call', state', hpoll⟩ := exists_poll engine call state
          exact ⟨_, _, move_poll hcall hpoll⟩

theorem play_cons {move : Move} {moves : List Move}
    (h : engine.move id calls move state = .ok calls' state') :
    engine.play id calls (move :: moves) state = engine.play id calls' moves state' := by
  simp only [play, List.foldlM_cons, bind, EStateM.bind, h]

theorem play_append {moves later : List Move}
    (h : engine.play id calls moves state = .ok calls' state') :
    engine.play id calls (moves ++ later) state = engine.play id calls' later state' := by
  unfold play at h ⊢
  simp only [List.foldlM_append, bind, EStateM.bind, h]

/-- Moves never fail. -/
theorem exists_play (id : FactoryId) (calls : List Call) (moves : List Move) (state : State) :
    ∃ calls' state', engine.play id calls moves state = .ok calls' state' := by
  induction moves generalizing calls state with
  | nil => exact ⟨calls, state, rfl⟩
  | cons move moves ih =>
      obtain ⟨calls', state', hmove⟩ := exists_move engine id calls move state
      rw [play_cons hmove]
      exact ih calls' state'

/-- A call that is asked often enough settles. -/
theorem play_attend (id : FactoryId) {i : Nat} {asked : Asked}
    {work : Delayed (Except RenderError Resolution)}
    (hcall : calls[i]? = some call) (h : engine.poll call state = attend asked work state') :
    engine.play id calls (List.replicate (work.delay + 1) (.poll i)) state =
      .ok (calls.set i (.settled work.value)) (state'.kept asked work.value) := by
  obtain ⟨delay, outcome⟩ := work
  induction delay generalizing calls call state with
  | zero =>
      have hpoll : engine.poll call state = .ok (.settled outcome) (state'.kept asked outcome) := by
        simp only [h, attend, bind, EStateM.bind, keep_eq]
        rfl
      exact play_cons (move_poll hcall hpoll)
  | succ delay ih =>
      have hlt : i < calls.length := (List.getElem?_eq_some_iff.mp hcall).1
      rw [List.replicate_succ, play_cons (move_poll hcall h), ih (List.getElem?_set_self hlt) rfl,
        List.set_set]

/-- Resolving a factory is making a call and asking it until it is done, with
    nothing else happening in between. -/
theorem resolve_eq_play (id : FactoryId) (calls : List Call) (state : State) :
    ∃ asks outcome state', engine.play id calls (.make :: List.replicate asks (.poll calls.length))
        state = .ok (calls ++ [.settled outcome]) state' ∧
      engine.resolve id state =
        match outcome with
        | .ok resolution => .ok resolution state'
        | .error e => .error e state' := by
  have hcall : (calls ++ [.made (state.asked id)])[calls.length]? =
      some (.made (state.asked id)) := List.getElem?_concat_length
  have hplay := play_attend id hcall (poll_made engine (state.asked id) state)
  rw [List.set_append_right _ _ (Nat.le_refl _), Nat.sub_self, List.set_cons_zero] at hplay
  refine ⟨_, _, _, (play_cons move_make).trans hplay, ?_⟩
  simp only [resolve, bind, EStateM.bind, ask_eq, begin_eq, keep_eq]
  cases (engine.begun (state.asked id) state).1.value <;> rfl

/-- Keeping what a call came to does not change what a call begins with. -/
theorem begun_kept (asked : Asked) (resolution : Resolution) (state : State) :
    engine.begun asked (state.kept asked (.ok resolution)) =
      ((engine.begun asked state).1, (engine.begun asked state).2.kept asked (.ok resolution)) := by
  cases asked with
  | answered other => rfl
  | call id =>
      cases hfactory : engine.factories id with
      | resolved other => simp only [begun, hfactory]
      | called report =>
          simp only [begun, hfactory, State.kept, State.setFactory_self,
            State.setFactory_setFactory]

/-- Waiting for two answers that both succeed. -/
theorem resolveBoth_ok {asked : Asked} {first second : Resolution}
    (h : engine.resolveBoth asked asked state = .ok (first, second) state') :
    ∃ a b between last, engine.begun asked state = (a, between) ∧
      engine.begun asked between = (b, last) ∧ a.value = .ok first ∧ b.value = .ok second ∧
      state' = if a.delay ≤ b.delay then (last.kept asked (.ok first)).kept asked (.ok second)
        else (last.kept asked (.ok second)).kept asked (.ok first) := by
  rw [resolveBoth_eq] at h
  split at h
  · cases h
  · next a between _ hbegun =>
      obtain ⟨b, last, hbegun'⟩ : ∃ b last, engine.begun asked between = (b, last) := ⟨_, _, rfl⟩
      rw [hbegun', keepBoth_eq] at h
      split at h
      · next resolutions hjoin =>
          cases h
          dsimp only at hjoin
          obtain ⟨_, _, ha, hb, heq⟩ := Delayed.join_ok.mp hjoin
          cases heq
          refine ⟨a, b, between, last, hbegun, hbegun', ha, hb, ?_⟩
          simp only [State.keptBoth, Matching.settledFirst_of_ok ha hb,
            Matching.settledSecond_of_ok ha hb, if_true, ha, hb]
      · cases h

/-- Two answers that are waited for side by side are what two calls come to
    that are made together: the one that takes longer is the last to be done. -/
theorem resolveBoth_eq_play {first second : Resolution}
    (h : engine.resolveBoth (state.asked id) (state.asked id) state = .ok (first, second) state') :
    ∃ moves, engine.play id [] (.make :: .make :: moves) state =
      .ok [.settled (.ok first), .settled (.ok second)] state' := by
  obtain ⟨⟨delay, _⟩, ⟨delay', _⟩, between, last, hbegun, hbegun', rfl, rfl, rfl⟩ :=
    resolveBoth_ok h
  have hmake (moves : List Move) : engine.play id [] (.make :: .make :: moves) state =
      engine.play id [.made (state.asked id), .made (state.asked id)] moves state :=
    (play_cons move_make).trans (play_cons move_make)
  have hpoll := poll_made engine (state.asked id) state
  rw [hbegun] at hpoll
  by_cases hle : delay ≤ delay'
  -- The first call is asked until it is done, and then the second one.
  · have hpoll' := poll_made engine (state.asked id) (between.kept (state.asked id) (.ok first))
    rw [begun_kept, hbegun'] at hpoll'
    refine ⟨List.replicate (delay + 1) (.poll 0) ++ List.replicate (delay' + 1) (.poll 1), ?_⟩
    rw [hmake, play_append (play_attend id rfl hpoll), if_pos hle]
    exact play_attend id rfl hpoll'
  -- The second call is done before the first one, which was asked once already.
  · have hpoll' := poll_made engine (state.asked id) between
    rw [hbegun'] at hpoll'
    obtain ⟨delay, rfl⟩ : ∃ earlier, delay = earlier + 1 := ⟨delay - 1, by omega⟩
    have hagain (later : State) :
        engine.poll (.waiting (state.asked id) ⟨delay, .ok first⟩) later =
          attend (state.asked id) ⟨delay, .ok first⟩ later := rfl
    refine ⟨.poll 0 :: (List.replicate (delay' + 1) (.poll 1) ++
      List.replicate (delay + 1) (.poll 0)), ?_⟩
    rw [hmake, play_cons (move_poll rfl hpoll), play_append (play_attend id rfl hpoll'), if_neg hle]
    exact play_attend id rfl (hagain _)

theorem begun_cached (asked : Asked) (state : State) :
    (engine.begun asked state).2.cached = state.cached := by
  funext id
  cases asked with
  | answered resolution => rfl
  | call other =>
      unfold begun
      dsimp only
      split
      · rfl
      · rw [State.cached_setFactory]
        split
        · next heq => rw [heq, State.cached]
        · rfl

theorem kept_cached (resolution : Resolution) (state : State) :
    (state.kept (.call id) (.ok resolution)).cached id = some resolution :=
  (State.cached_setFactory ..).trans (if_pos rfl)

/-- Keeping what a call comes to changes what the factory has resolved to only
    if it is a success, and then to that. -/
theorem kept_cached_or (id : FactoryId) (asked : Asked) (outcome : Except RenderError Resolution)
    (state : State) :
    (state.kept asked outcome).cached id = state.cached id ∨
      ∃ resolution, outcome = .ok resolution ∧
        (state.kept asked outcome).cached id = some resolution := by
  cases asked with
  | answered other => exact Or.inl rfl
  | call other =>
      cases outcome with
      | error e => exact Or.inl rfl
      | ok resolution =>
          by_cases heq : other = id
          · subst heq
            exact Or.inr ⟨resolution, rfl, kept_cached resolution state⟩
          · exact Or.inl ((State.cached_setFactory ..).trans (if_neg (Ne.symm heq)))

/-- What asking work comes to: it is waited for, or done and kept. -/
theorem attend_cases {asked : Asked} {work : Delayed (Except RenderError Resolution)}
    (h : attend asked work state = .ok call state') :
    (∃ later, call = .waiting asked later ∧ state' = state) ∨
      ∃ outcome, call = .settled outcome ∧ state' = state.kept asked outcome := by
  obtain ⟨_ | delay, outcome⟩ := work
  · simp only [attend, bind, EStateM.bind, keep_eq] at h
    cases h
    exact Or.inr ⟨outcome, rfl, rfl⟩
  · cases h
    exact Or.inl ⟨_, rfl, rfl⟩

/-- What asking a call comes to: nothing if it is settled, and otherwise it is
    waited for, or done and kept. -/
theorem poll_cases (h : engine.poll call state = .ok call' state') :
    (call.asked? = none ∧ call' = call ∧ state' = state) ∨
      ∃ asked between, call.asked? = some asked ∧ between.cached = state.cached ∧
        ((∃ later, call' = .waiting asked later ∧ state' = between) ∨
          ∃ outcome, call' = .settled outcome ∧ state' = between.kept asked outcome) := by
  cases call with
  | settled outcome => cases h; exact Or.inl ⟨rfl, rfl, rfl⟩
  | made asked =>
      rw [poll_made] at h
      exact Or.inr ⟨asked, _, rfl, begun_cached asked state, attend_cases h⟩
  | waiting asked work => exact Or.inr ⟨asked, state, rfl, rfl, attend_cases h⟩

/-- What a move does: it makes a call, it asks one, or it does nothing because
    there is no such call. -/
theorem move_cases {move : Move} (h : engine.move id calls move state = .ok calls' state') :
    (calls' = calls ++ [.made (state.asked id)] ∧ state' = state) ∨
      (∃ i call call', calls[i]? = some call ∧ engine.poll call state = .ok call' state' ∧
        calls' = calls.set i call') ∨
      (calls' = calls ∧ state' = state) := by
  cases move with
  | make =>
      cases move_make.symm.trans h
      exact Or.inl ⟨rfl, rfl⟩
  | poll i =>
      cases hcall : calls[i]? with
      | none =>
          simp only [Engine.move, hcall] at h
          cases h
          exact Or.inr (Or.inr ⟨rfl, rfl⟩)
      | some call =>
          obtain ⟨call', after, hpoll⟩ := exists_poll engine call state
          cases (move_poll hcall hpoll).symm.trans h
          exact Or.inr (Or.inl ⟨i, call, call', hcall, hpoll, rfl⟩)

/-- What every move preserves holds in the end. -/
theorem play_induction {holds : List Call → State → Prop}
    (hmove : ∀ {calls calls' move state state'}, holds calls state →
      engine.move id calls move state = .ok calls' state' → holds calls' state')
    {moves : List Move} (hstart : holds calls state)
    (h : engine.play id calls moves state = .ok calls' state') : holds calls' state' := by
  induction moves generalizing calls state with
  | nil => cases h; exact hstart
  | cons move moves ih =>
      simp only [play, List.foldlM_cons, bind, EStateM.bind] at h
      split at h
      · next hfirst => exact ih (hmove hstart hfirst) h
      · cases h

/-- What is known of a call to a factory that has resolved as given: what a
    call was answered with, and what it has come to, is something that the
    factory had resolved to. -/
inductive Call.Known (id : FactoryId) (cached : Option Resolution) : Call → Prop where
  | answered {answer} (h : cached.isSome) : Known id cached (.made (.answered answer))
  | made : Known id cached (.made (.call id))
  | waiting {work} : Known id cached (.waiting (.call id) work)
  | failed {e} : Known id cached (.settled (.error e))
  | succeeded {answer} (h : cached.isSome) : Known id cached (.settled (.ok answer))

theorem Call.Known.mono {cached cached' : Option Resolution} (h : call.Known id cached)
    (hcached : cached.isSome → cached'.isSome) : call.Known id cached' := by
  cases h with
  | answered h => exact .answered (hcached h)
  | made => exact .made
  | waiting => exact .waiting
  | failed => exact .failed
  | succeeded h => exact .succeeded (hcached h)

/-- A factory that has resolved stays resolved. -/
theorem poll_isSome (h : engine.poll call state = .ok call' state')
    (hcached : (state.cached id).isSome) : (state'.cached id).isSome := by
  rcases poll_cases h with ⟨-, -, rfl⟩ | ⟨asked, between, -, hbetween, ⟨later, -, rfl⟩ |
    ⟨outcome, -, rfl⟩⟩
  · exact hcached
  · rwa [hbetween]
  · rcases kept_cached_or id asked outcome between with hsame | ⟨resolution, -, hkept⟩
    · rwa [hsame, hbetween]
    · rw [hkept]; rfl

theorem Call.Known.poll (hcall : call.Known id (state.cached id))
    (h : engine.poll call state = .ok call' state') : call'.Known id (state'.cached id) := by
  cases hcall with
  | answered hcached => cases h; exact .succeeded hcached
  | failed => cases h; exact .failed
  | succeeded hcached => cases h; exact .succeeded hcached
  | made | waiting =>
      -- An open call to the factory is waited for, or what it comes to is kept.
      rcases poll_cases h with ⟨hasked, -⟩ | ⟨asked, between, hasked, -, ⟨later, rfl, -⟩ |
        ⟨outcome, rfl, rfl⟩⟩
      · cases hasked
      · cases hasked; exact .waiting
      · cases hasked
        cases outcome with
        | error e => exact .failed
        | ok resolution => exact .succeeded (by rw [kept_cached]; rfl)

theorem move_known {move : Move} (hcalls : ∀ call ∈ calls, call.Known id (state.cached id))
    (hmove : engine.move id calls move state = .ok calls' state') :
    ∀ call ∈ calls', call.Known id (state'.cached id) := by
  rcases move_cases hmove with ⟨rfl, rfl⟩ | ⟨i, call, call', hcall, hpoll, rfl⟩ | ⟨rfl, rfl⟩
  · refine List.forall_mem_append.mpr ⟨hcalls, List.forall_mem_singleton.mpr ?_⟩
    unfold State.asked
    cases hcached : (state'.factories id).cached with
    | none => exact .made
    | some resolution => exact .answered (by rw [State.cached, hcached]; rfl)
  · intro other hother
    rcases List.mem_or_eq_of_mem_set hother with hmem | rfl
    · exact (hcalls other hmem).mono (poll_isSome hpoll)
    · exact (hcalls call (List.mem_of_getElem? hcall)).poll hpoll
  · exact hcalls

/-- Once a call has succeeded, the factory has resolved to something. -/
theorem cached_of_success {moves : List Move} {start : State}
    (h : engine.play id [] moves start = .ok calls state)
    (hsuccess : .settled (.ok resolution) ∈ calls) : ∃ first, state.cached id = some first := by
  have hknown : ∀ call ∈ calls, call.Known id (state.cached id) :=
    play_induction (fun hcalls hmove => move_known hcalls hmove) (List.forall_mem_nil _) h
  cases hknown _ hsuccess with
  | succeeded hcached => exact Option.isSome_iff_exists.mp hcached

/-- A settled call stays as it is. -/
theorem move_settled {move : Move} {i : Nat} {outcome : Except RenderError Resolution}
    (h : engine.move id calls move state = .ok calls' state')
    (hsettled : calls[i]? = some (.settled outcome)) : calls'[i]? = some (.settled outcome) := by
  have hlt : i < calls.length := (List.getElem?_eq_some_iff.mp hsettled).1
  rcases move_cases h with ⟨rfl, rfl⟩ | ⟨j, call, call', hcall, hpoll, rfl⟩ | ⟨rfl, rfl⟩
  · rwa [List.getElem?_append_left hlt]
  · by_cases heq : j = i
    · subst heq
      cases hsettled.symm.trans hcall
      cases hpoll
      exact List.getElem?_set_self hlt
    · rwa [List.getElem?_set_ne heq]
  · exact hsettled

/-- A call that comes to a given success without the factory being called. -/
inductive Call.Has (resolution : Resolution) : Call → Prop where
  | made : Has resolution (.made (.answered resolution))
  | settled : Has resolution (.settled (.ok resolution))

theorem Call.Has.poll (hcall : call.Has resolution)
    (h : engine.poll call state = .ok call' state') : call'.Has resolution ∧ state' = state := by
  cases hcall <;> cases h <;> exact ⟨.settled, rfl⟩

/-- A call that was made and has not settled. -/
def Open (calls : List Call) (i : Nat) : Prop := ∃ call asked, calls[i]? = some call ∧
  call.asked? = some asked

/-- A call that has settled with a success. -/
def Succeeded (calls : List Call) (i : Nat) (resolution : Resolution) : Prop :=
  calls[i]? = some (.settled (.ok resolution))

/-- The factory has resolved to `first`, and every call that was not made
    before gets that. -/
structure Stays (id : FactoryId) (first : Resolution) (before calls : List Call)
    (state : State) : Prop where
  cached : state.cached id = some first
  later : ∀ {i : Nat} {call : Call}, before[i]? = none → calls[i]? = some call → call.Has first

/-- What has become of the calls made before and of those made later, if the
    factory had resolved to `first` by then: that stays, unless a call that was
    open has come to something else. -/
structure Since (id : FactoryId) (first : Resolution) (before calls : List Call)
    (state : State) : Prop where
  settled : ∀ {i : Nat} {outcome : Except RenderError Resolution},
    before[i]? = some (.settled outcome) → calls[i]? = some (.settled outcome)
  stays : Stays id first before calls state ∨
    ∃ i other, Open before i ∧ Succeeded calls i other ∧ other ≠ first

variable {first : Resolution} {before : List Call}

/-- Asking a call that was made before changes nothing for those made later. -/
theorem Stays.set {i : Nat} {old : Call} (h : Stays id first before calls state)
    (hold : before[i]? = some old) (hcached : state'.cached id = some first) :
    Stays id first before (calls.set i call') state' where
  cached := hcached
  later {j call} hnone hsome := by
    have hne : i ≠ j := fun heq => by rw [heq, hnone] at hold; cases hold
    rw [List.getElem?_set_ne hne] at hsome
    exact h.later hnone hsome

/-- A call that is made now is answered with what is there. -/
theorem Stays.make (h : Stays id first before calls state) :
    Stays id first before (calls ++ [.made (state.asked id)]) state where
  cached := h.cached
  later {i call} hnone hsome := by
    rcases Nat.lt_trichotomy i calls.length with hlt | rfl | hgt
    · rw [List.getElem?_append_left hlt] at hsome
      exact h.later hnone hsome
    · have hcached : (state.factories id).cached = some first := h.cached
      rw [List.getElem?_concat_length, Option.some.injEq] at hsome
      simp only [← hsome, State.asked, hcached]
      exact .made
    · rw [List.getElem?_eq_none (by simp only [List.length_append, List.length_singleton]; omega)]
        at hsome
      cases hsome

/-- Asking a call that was made later changes nothing at all. -/
theorem Stays.poll {i : Nat} (h : Stays id first before calls state) (hnone : before[i]? = none)
    (hcall : calls[i]? = some call) (hpoll : engine.poll call state = .ok call' state') :
    Stays id first before (calls.set i call') state' := by
  obtain ⟨hhas, rfl⟩ := (h.later hnone hcall).poll hpoll
  refine ⟨h.cached, fun {j other} hnone hsome => ?_⟩
  by_cases heq : i = j
  · subst heq
    rw [List.getElem?_set_self (List.getElem?_eq_some_iff.mp hcall).1, Option.some.injEq] at hsome
    exact hsome ▸ hhas
  · rw [List.getElem?_set_ne heq] at hsome
    exact h.later hnone hsome

/-- Asking a call that was open leaves what is there, or replaces it by
    something else. -/
theorem Stays.poll_open {i : Nat} (h : Stays id first before calls state) (hopen : Open before i)
    (hcall : calls[i]? = some call) (hpoll : engine.poll call state = .ok call' state') :
    Stays id first before (calls.set i call') state' ∨
      ∃ other, Succeeded (calls.set i call') i other ∧ other ≠ first := by
  obtain ⟨old, -, hold, -⟩ := hopen
  rcases poll_cases hpoll with ⟨-, -, rfl⟩ | ⟨asked, between, -, hbetween, ⟨later, -, rfl⟩ |
    ⟨outcome, rfl, rfl⟩⟩
  · exact Or.inl (h.set hold h.cached)
  · exact Or.inl (h.set hold (by rw [hbetween, h.cached]))
  · rcases kept_cached_or id asked outcome between with hsame | ⟨other, rfl, hkept⟩
    · exact Or.inl (h.set hold (by rw [hsame, hbetween, h.cached]))
    · by_cases heq : other = first
      · exact Or.inl (h.set hold (by rw [hkept, heq]))
      · exact Or.inr ⟨other, List.getElem?_set_self (List.getElem?_eq_some_iff.mp hcall).1, heq⟩

namespace Since

theorem start (h : state.cached id = some first) : Since id first calls calls state where
  settled hsettled := hsettled
  stays := Or.inl ⟨h, fun hnone hsome => by rw [hnone] at hsome; cases hsome⟩

theorem move {move : Move} (h : Since id first before calls state)
    (hmove : engine.move id calls move state = .ok calls' state') :
    Since id first before calls' state' where
  settled hbefore := move_settled hmove (h.settled hbefore)
  stays := by
    rcases h.stays with hstays | ⟨i, other, hopen, hother, hne⟩
    · rcases move_cases hmove with ⟨rfl, rfl⟩ | ⟨i, call, call', hcall, hpoll, rfl⟩ | ⟨rfl, rfl⟩
      · exact Or.inl hstays.make
      · cases hbefore : before[i]? with
        | none => exact Or.inl (hstays.poll hbefore hcall hpoll)
        | some old =>
            cases hasked : old.asked? with
            | none =>
                obtain ⟨outcome, rfl⟩ : ∃ outcome, old = .settled outcome := by
                  cases old <;> cases hasked
                  exact ⟨_, rfl⟩
                cases hcall.symm.trans (h.settled hbefore)
                cases hpoll
                exact Or.inl (hstays.set hbefore hstays.cached)
            | some asked =>
                have hopen : Open before i := ⟨old, asked, hbefore, hasked⟩
                exact (hstays.poll_open hopen hcall hpoll).imp_right fun ⟨other, hother, hne⟩ =>
                  ⟨i, other, hopen, hother, hne⟩
      · exact Or.inl hstays
    · exact Or.inr ⟨i, other, hopen, move_settled hmove hother, hne⟩

end Since

/-- Once a call has succeeded, what the factory has resolved to never changes
    and is what all calls get that succeed later, if and only if it is what the
    calls get that were open at the time. -/
theorem first_success_stays_iff {before after : List Move} {start memory memory' : State} {i : Nat}
    (hbefore : engine.play id [] before start = .ok calls memory)
    (hsuccess : Succeeded calls i resolution)
    (hafter : engine.play id calls after memory = .ok calls' memory') :
    (memory'.cached id = memory.cached id ∧
        ∀ j later, (∀ earlier, ¬ Succeeded calls j earlier) → Succeeded calls' j later →
          memory.cached id = some later) ↔
      ∀ j later, Open calls j → Succeeded calls' j later → memory.cached id = some later := by
  obtain ⟨first, hfirst⟩ := cached_of_success hbefore (List.mem_of_getElem? hsuccess)
  constructor
  · rintro ⟨-, hlater⟩ j later ⟨old, asked, hold, hasked⟩ hsucceeded
    refine hlater j later (fun earlier h => ?_) hsucceeded
    cases hold.symm.trans h
    cases hasked
  · intro hopen
    have hsince : Since id first calls calls' memory' :=
      play_induction (fun h hmove => h.move hmove) (.start hfirst) hafter
    rcases hsince.stays with hstays | ⟨j, other, hj, hother, hne⟩
    · refine ⟨hstays.cached.trans hfirst.symm, fun j later hnot hsucceeded => ?_⟩
      cases hj : calls[j]? with
      | none =>
          cases hstays.later hj hsucceeded with
          | settled => exact hfirst
      | some old =>
          cases old with
          | made | waiting => exact hopen j later ⟨_, _, hj, rfl⟩ hsucceeded
          | settled outcome =>
              cases hsucceeded.symm.trans (hsince.settled hj)
              exact absurd hj (hnot later)
    · exact absurd (Option.some.inj ((hopen j other hj hother).symm.trans hfirst)) hne

/-- An engine whose factories report a text at each call, after some rounds of
    waiting. -/
def reporting (report : Nat → Delayed String) : Engine where
  components _ := default
  factories _ := .called fun calls => (report calls).map fun text =>
    .resolved (.view (.text text false))
  globals := []
  registry := .empty
  compiler := none
  refuses _ := none

/-- An engine whose factories report the same at each call, but ever later. -/
def agreeing : Engine := reporting fun calls => ⟨calls, "ada"⟩

/-- Two calls overlap, and a third one is made when the first one has
    succeeded. -/
theorem first_success_stays_agreeing :
    ∃ calls memory calls' memory',
      agreeing.play 0 [] [.make, .make, .poll 0] agreeing.initial = .ok calls memory ∧
      Succeeded calls 0 (.view (.text "ada" false)) ∧
      agreeing.play 0 calls [.poll 1, .make, .poll 1, .poll 2] memory = .ok calls' memory' ∧
      memory'.cached 0 = memory.cached 0 ∧
      ∀ j later, (∀ earlier, ¬ Succeeded calls j earlier) → Succeeded calls' j later →
        memory.cached 0 = some later := by
  obtain ⟨memory, hbefore, hcached, memory', hafter⟩ : ∃ memory,
      agreeing.play 0 [] [.make, .make, .poll 0] agreeing.initial =
        .ok [.settled (.ok (.view (.text "ada" false))), .made (.call 0)] memory ∧
      memory.cached 0 = some (.view (.text "ada" false)) ∧ ∃ memory',
      agreeing.play 0 [.settled (.ok (.view (.text "ada" false))), .made (.call 0)]
          [.poll 1, .make, .poll 1, .poll 2] memory =
        .ok (List.replicate 3 (.settled (.ok (.view (.text "ada" false))))) memory' :=
    ⟨_, rfl, rfl, _, rfl⟩
  have hsuccess : Succeeded [.settled (.ok (.view (.text "ada" false))), .made (.call 0)] 0
      (.view (.text "ada" false)) := rfl
  refine ⟨_, memory, _, memory', hbefore, hsuccess, hafter,
    (first_success_stays_iff hbefore hsuccess hafter).mpr fun j later hopen hlater => ?_⟩
  -- Only the second call is open in between.
  obtain ⟨call, asked, hcall, hasked⟩ := hopen
  match j with
  | 0 => cases hcall; cases hasked
  | 1 => cases hlater; exact hcached
  | j + 2 => cases hcall

/-- An engine whose factories report something else at each later call. -/
def disagreeing : Engine := reporting fun calls => .now (if calls = 0 then "ada" else "bob")

/-- The second of two calls that overlap reports something else after the first
    one has succeeded. It gets that, and so does everyone later. -/
theorem later_success_replaces :
    ∃ calls memory calls' memory',
      disagreeing.play 0 [] [.make, .make, .poll 0] disagreeing.initial = .ok calls memory ∧
      Succeeded calls 0 (.view (.text "ada" false)) ∧
      memory.cached 0 = some (.view (.text "ada" false)) ∧
      disagreeing.play 0 calls [.poll 1] memory = .ok calls' memory' ∧
      Succeeded calls' 1 (.view (.text "bob" false)) ∧
      memory'.cached 0 = some (.view (.text "bob" false)) ∧
      memory'.cached 0 ≠ memory.cached 0 := by
  refine ⟨_, _, _, _, rfl, rfl, rfl, rfl, rfl, rfl, fun heq => ?_⟩
  have htext : Resolution.view (.text "bob" false) = .view (.text "ada" false) :=
    Option.some.inj heq
  injection htext with hview
  injection hview with htext
  exact absurd htext (by decide)

end Engine

end RenderFold
