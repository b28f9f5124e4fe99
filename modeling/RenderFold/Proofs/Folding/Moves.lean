import RenderFold.Proofs.Folding.LiteralTrees
import RenderFold.Proofs.Folding.Reach
import RenderFold.Proofs.Folding.Records

/-!
# Moves

A walk that never has to wait makes one move after another. The moves are
counted here, since a walk may only take so many without a pause.

What was there before some moves is still there after them. What is known to
be static stays static, entries that are open stay open, and an engine
remembers what it has remembered.

## Main definitions

* `Walk.Moves`: Moves that succeed without a pause.
* `Walk.Passes`: What moves that open and close frames leave behind.

## Theorems

* `Walk.Moves.advanceFor`: Going on makes the moves.
* `Walk.Moves.reaches`: They lead to walks that can be reached.
-/

namespace RenderFold

open Script (Id)

namespace Findings

/-- Every static expression has a text. -/
def Filled (findings : Findings) : Prop :=
  ∀ id, findings.isStatic id = true → (findings.text? id).isSome = true

/-- Texts and markup that are known stay known, if not the same. -/
structure Kept (a b : Findings) : Prop where
  text : ∀ id, (a.text? id).isSome = true → (b.text? id).isSome = true
  literal : ∀ id, (a.literal? id).isSome = true → (b.literal? id).isSome = true
  filled : a.Filled → b.Filled

variable {findings a b c : Findings} {id : Id} {text : String}

theorem isSome_literal? : (findings.literal? id).isSome = true ↔
    findings.isStatic id = true ∧ (findings.text? id).isSome = true := by
  unfold literal?
  cases findings.isStatic id <;> simp

theorem Kept.refl (a : Findings) : Kept a a := ⟨fun _ h => h, fun _ h => h, fun h => h⟩

theorem Kept.trans (hab : Kept a b) (hbc : Kept b c) : Kept a c where
  text id h := hbc.text id (hab.text id h)
  literal id h := hbc.literal id (hab.literal id h)
  filled h := hbc.filled (hab.filled h)

theorem SameTexts.kept (h : SameTexts a b) : Kept a b where
  text id hid := by rwa [h.text]
  literal id hid := by rwa [h.literal?]
  filled hfilled id hid := by
    rw [h.isStatic] at hid
    rw [h.text]
    exact hfilled id hid

theorem kept_setText : Kept findings (findings.setText id text) := by
  have htext (other : Id) (h : (findings.text? other).isSome = true) :
      ((findings.setText id text).text? other).isSome = true := by
    by_cases hother : other = id
    · rw [hother, text?_setText_self]
      rfl
    · rwa [text?_setText_of_ne hother]
  refine ⟨htext, fun other h => ?_, fun hfilled other h => ?_⟩
  · obtain ⟨hstatic, hsome⟩ := isSome_literal?.mp h
    exact isSome_literal?.mpr ⟨isStatic_setText.trans hstatic, htext other hsome⟩
  · exact htext other (hfilled other (isStatic_setText.symm.trans h))

theorem kept_markStatic : Kept findings (findings.markStatic id text) := by
  have htext (other : Id) (h : (findings.text? other).isSome = true) :
      ((findings.markStatic id text).text? other).isSome = true := by
    by_cases hother : other = id
    · rw [hother, text?_markStatic_self]
      rfl
    · rwa [text?_markStatic_of_ne hother]
  refine ⟨htext, fun other h => ?_, fun hfilled other h => ?_⟩
  · obtain ⟨hstatic, hsome⟩ := isSome_literal?.mp h
    refine isSome_literal?.mpr ⟨?_, htext other hsome⟩
    by_cases hother : other = id
    · rw [hother, isStatic_markStatic_self]
    · rwa [isStatic_markStatic_of_ne hother]
  · by_cases hother : other = id
    · rw [hother, text?_markStatic_self]
      rfl
    · rw [isStatic_markStatic_of_ne hother] at h
      exact htext other (hfilled other h)

theorem literal?_markStatic_self : (findings.markStatic id text).literal? id = some text :=
  literal?_eq_some_iff.mpr ⟨isStatic_markStatic_self, text?_markStatic_self⟩

/-- Children that are all static amount to one literal. -/
theorem isSome_literal?_runs {slots : List Id}
    (h : ∀ slot ∈ slots, (findings.literal? slot).isSome = true) :
    (Run.literal? (findings.runs slots)).isSome = true :=
  Option.isSome_iff_exists.mpr ⟨_, literal?_runs_iff.mpr ⟨h, rfl⟩⟩

end Findings

namespace Builder

/-- The same entries are open, and only the innermost one may have other
    children. -/
def Grows (before after : Builder) : Prop :=
  match before.entries with
  | [] => after.entries = []
  | entry :: rest => ∃ children, after = ⟨{ entry with children } :: rest, before.root⟩

variable {a b c : Builder}

theorem Grows.refl (a : Builder) : Grows a a := by
  obtain ⟨entries, root⟩ := a
  cases entries with
  | nil => exact rfl
  | cons entry rest => exact ⟨entry.children, rfl⟩

theorem Grows.trans (hab : Grows a b) (hbc : Grows b c) : Grows a c := by
  obtain ⟨entries, root⟩ := a
  -- With no entry open there is nothing to attach to, on either way.
  cases entries with
  | nil =>
      have hb : b.entries = [] := hab
      rw [Grows, hb] at hbc
      exact hbc
  | cons entry rest =>
      obtain ⟨children, rfl⟩ := hab
      exact hbc

theorem grows_attach (builder : Builder) (slot : Id) (tree : FoldedTree) :
    Grows builder (builder.attach slot tree) := by
  obtain ⟨entries, root⟩ := builder
  cases entries with
  | nil => exact rfl
  | cons entry rest => exact ⟨entry.children ++ [(slot, tree)], rfl⟩

theorem settle_none (styles : Styles) (children : List (Id × FoldedTree)) :
    (settle (fun _ => false) styles children).2 = [] := by
  induction children generalizing styles with
  | nil => rfl
  | cons child children ih => exact ih _

/-- Closing an entry as a literal, whatever was closed below it. -/
theorem close_literal {before builder : Builder} {component text : String} {styles : Styles}
    {function : RenderFunction} (h : Grows (before.enter component styles) builder)
    (hfunction : function.tree = .literal text) (slot : Id) :
    ∃ tree : FoldedTree, tree.IsLiteral component text ∧
      builder.close slot function true (fun _ => false) = before.attach slot tree := by
  obtain ⟨children, rfl⟩ := h
  exact ⟨_, ⟨rfl, rfl, settle_none styles children, hfunction⟩, rfl⟩

end Builder

namespace Walk

variable {engine : Engine} {walk last next : Walk} {steps steps' : Nat} {events events' : List Event}

/-- So many moves of a walk, all of which succeed without a pause, and what
    they record. -/
inductive Moves (engine : Engine) : Walk → Nat → List Event → Walk → Prop where
  | nil (walk : Walk) : Moves engine walk 0 [] walk
  | compare {walk frame rest pair left after steps events last}
      (hframes : walk.frames = frame :: rest) (hnext : frame.pairs.next? = some (pair, left))
      (hwork : Walk.compare engine maxChain pair
        { walk with frames := frame.withPairs left :: rest } = .ok none after)
      (hrest : Moves engine after steps events last) :
      Moves engine walk (steps + 1) (trail walk.cached walk.active maxChain pair ++ events) last
  | finish {walk frame rest after steps events last} (hframes : walk.frames = frame :: rest)
      (hnext : frame.pairs.next? = none)
      (hwork : Walk.finish engine frame { walk with frames := rest } = .ok () after)
      (hrest : Moves engine after steps events last) : Moves engine walk (steps + 1) events last

namespace Moves

theorem trans (h : Moves engine walk steps events next)
    (h' : Moves engine next steps' events' last) :
    Moves engine walk (steps + steps') (events ++ events') last := by
  induction h with
  | nil walk => rwa [Nat.zero_add]
  | compare hframes hnext hwork hrest ih =>
      rw [Nat.add_right_comm, List.append_assoc]
      exact .compare hframes hnext hwork (ih h')
  | finish hframes hnext hwork hrest ih =>
      rw [Nat.add_right_comm]
      exact .finish hframes hnext hwork (ih h')

/-- Going on makes the moves, and takes as many steps. -/
theorem advanceFor (h : Moves engine walk steps events last) (more : Nat) :
    Walk.advanceFor engine (steps + more) walk = Walk.advanceFor engine more last := by
  have hget (walk : Walk) : (get : Walking Walk) walk = .ok walk walk := rfl
  have hmodify (change : Walk → Walk) (walk : Walk) :
      (modify change : Walking PUnit) walk = .ok ⟨⟩ (change walk) := rfl
  -- By induction on the moves, each of which takes one step. The steps that are
  -- left over are for what comes after.
  induction h with
  | nil walk => rw [Nat.zero_add]
  | compare hframes hnext hwork hrest ih =>
      rw [← ih, Nat.add_right_comm, Walk.advanceFor]
      simp only [bind, EStateM.bind, hget, hframes, hnext, hmodify, hwork]
  | finish hframes hnext hwork hrest ih =>
      rw [← ih, Nat.add_right_comm, Walk.advanceFor]
      simp only [bind, EStateM.bind, hget, hframes, hnext, hmodify, hwork]

/-- Moves lead to walks that can be reached. -/
theorem reaches {start : Walk} {before : List Event} (h : Moves engine walk steps events last)
    (hstart : Reaches engine start before none walk) (hpause : walk.pause = .going) :
    Reaches engine start (before ++ events) none last ∧ last.pause = .going := by
  induction h generalizing before with
  | nil walk =>
      rw [List.append_nil]
      exact ⟨hstart, hpause⟩
  | compare hframes hnext hwork hrest ih =>
      rw [← List.append_assoc]
      have hsteady := leads_ok (compare_steady maxChain _ _) hwork
      exact ih (.compare hstart hpause hframes hnext (.ok hwork)) (hsteady.1.trans hpause)
  | finish hframes hnext hwork hrest ih =>
      have hsteady := leads_ok (finish_steady _ _) hwork
      exact ih (.finish hstart hpause hframes hnext (.ok hwork)) (hsteady.1.trans hpause)

end Moves

/-- What moves leave behind that close every frame they open. -/
structure Passes (engine : Engine) (walk last : Walk) : Prop where
  options : last.options = walk.options
  active : last.active = walk.active
  engine : Engine.Kept engine walk.engine last.engine
  findings : Findings.Kept walk.program.findings last.program.findings
  builder : Builder.Grows walk.builder last.builder
  synthesizer : walk.synthesizer.Sound → last.synthesizer.Sound

namespace Passes

theorem refl (engine : Engine) (walk : Walk) : Passes engine walk walk :=
  ⟨rfl, rfl, .refl engine _, .refl _, .refl _, id⟩

theorem trans (h : Passes engine walk next) (h' : Passes engine next last) :
    Passes engine walk last where
  options := h'.options.trans h.options
  active := h'.active.trans h.active
  engine := h.engine.trans h'.engine
  findings := h.findings.trans h'.findings
  builder := h.builder.trans h'.builder
  synthesizer hsound := h'.synthesizer (h.synthesizer hsound)

/-- Changing nothing but the program, and forgetting nothing. -/
theorem of_findings {program : Program} {frames : List Frame}
    (h : Findings.Kept walk.program.findings program.findings) :
    Passes engine walk { walk with program, frames } :=
  ⟨rfl, rfl, .refl engine _, h, .refl _, id⟩

end Passes

end Walk

end RenderFold
