import RenderFold.Proofs.Folding.Lined

/-!
# Literals as They Stand

A literal is markup that goes into a page as it is, whatever its text: quotes,
backslashes, control characters and what looks like an interpolation or a
comment are characters like others. On its way the text is quoted, printed as
part of a function, cut into tokens, parsed, evaluated and written, and nothing
of this depends on the instance that the function is run for.

A synthesizer reads a source once and remembers what it has read, so what it
gives for a literal may have been read long before, for something else that has
the same source. That makes no difference, because what is remembered for a
source was read from it.

## Main definitions

* `Synthesizer.Used`: A synthesizer after any number of requests.

## Theorems

* `Synthesizer.Used.sound`: What a used synthesizer remembers was read.
* `Engine.html_opening`: An opening without children is written as it is.
* `Synthesizer.literal_verbatim`: A literal is written as it is, for any
  instance.
-/

namespace RenderFold

open Script (Arena Id)

namespace Synthesizer

/-- A synthesizer after any number of requests, for literals and for rewritten
    functions. -/
inductive Used : Synthesizer → Prop where
  | new (validates : Bool) : Used (new validates)
  | literal {synthesizer : Synthesizer} (text : String) :
      Used synthesizer → Used (synthesizer.literal text).2
  | synthesize {synthesizer : Synthesizer} (engine : Engine) (arena : Arena) (function : Id)
      (inst : Instance) :
      Used synthesizer → Used (synthesizer.synthesize engine arena function inst).2

theorem Used.sound {synthesizer : Synthesizer} (h : Used synthesizer) : synthesizer.Sound := by
  induction h with
  | new validates => exact new_sound validates
  | literal text _ ih => exact (compile_sound ih _).1
  | synthesize engine arena function inst _ ih =>
      exact (synthesize_sound ih engine arena function inst).1

end Synthesizer

/-- A literal function gives the same node for every instance: its text, as an
    opening. -/
theorem Evaluator.run_literal (setting : Setting) (text : String) :
    Evaluator.run setting (.literal text) = .ok (.fragment text "" []) := rfl

/-- An opening with nothing after it is written as it is. Neither the plan nor
    the engine is asked about anything. -/
theorem Engine.html_opening {σ : Type} (engine : Engine) (plan : Plan σ) (text : String)
    (state : σ) (memory : Engine.State) :
    engine.html plan (.fragment text "" []) state memory = (.ok text, state, memory) := by
  have hsteps : Serializer.maxSteps = 1099511627773 + 3 := rfl
  -- The opening, the empty closing and the end of the work take a step each.
  have hwork (steps : Nat) :
      Serializer.work engine plan (steps + 3)
        ⟨"", [.view (.fragment text "" []) none .empty], state, memory⟩ =
      .ok () ⟨"" ++ text ++ "", [], state, memory⟩ := rfl
  unfold Engine.html
  rw [hsteps, hwork]
  simp only [String.empty_append, String.append_empty]

namespace Synthesizer

/-- Making a literal of a text succeeds, whatever was asked for before. Run for
    any instance of any component, with whatever scope, the function gives one
    and the same node, and that node is written as the text and nothing else,
    under any plan and with any engine. -/
theorem literal_verbatim {synthesizer : Synthesizer} (h : Used synthesizer) (text : String) :
    ∃ function root, (synthesizer.literal text).1 = .ok function ∧
      (∀ setting, Evaluator.run setting function.tree = .ok root) ∧
      (∀ (engine : Engine) (inst : Instance), engine.refuses function = none →
        engine.validate inst function = .ok root) ∧
      ∀ (σ : Type) (engine : Engine) (plan : Plan σ) (state : σ) (memory : Engine.State),
        engine.html plan root state memory = (.ok text, state, memory) := by
  obtain ⟨function, hliteral, htree, -⟩ := literal_spec h.sound text
  refine ⟨function, .fragment text "" [], hliteral, fun setting => ?_,
    fun engine inst hrefuses => ?_,
    fun σ engine plan state memory => engine.html_opening plan text state memory⟩
  · rw [htree]
    exact Evaluator.run_literal setting text
  · rw [Engine.validate_eq]
    exact Engine.render_literal _ hrefuses rfl htree

/-- A text with quotes, a backslash, line separators, an interpolation, a
    comment and markup, made a literal by a synthesizer that has just made a
    literal of the same text. -/
theorem literal_verbatim_twice :
    Used ((new true).literal "<p title=\"$\x7bx\x7d\">\\ /* 'é\u2028\x00").2 ∧
      ∃ function root,
        (((new true).literal "<p title=\"$\x7bx\x7d\">\\ /* 'é\u2028\x00").2.literal
          "<p title=\"$\x7bx\x7d\">\\ /* 'é\u2028\x00").1 = .ok function ∧
        (∀ setting, Evaluator.run setting function.tree = .ok root) ∧
        (∀ (engine : Engine) (inst : Instance), engine.refuses function = none →
          engine.validate inst function = .ok root) ∧
        ∀ (σ : Type) (engine : Engine) (plan : Plan σ) (state : σ) (memory : Engine.State),
          engine.html plan root state memory =
            (.ok "<p title=\"$\x7bx\x7d\">\\ /* 'é\u2028\x00", state, memory) :=
  ⟨.literal _ (.new true), literal_verbatim (.literal _ (.new true)) _⟩

end Synthesizer

end RenderFold
