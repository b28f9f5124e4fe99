import RenderFold.Proofs.Component.Repeated
import RenderFold.Proofs.Folding.LevelTrees
import RenderFold.Proofs.Folding.RawText
import RenderFold.Proofs.Html.Amounts

/-!
# Markup of Runs

The children of a node are put together into runs, and the runs amount to what
the children do: a block of static children is one literal made of what each of
them amounts to, and any other child is evaluated again.

There is one exception. A child that is a text is written as it stands under an
element whose text is raw. If it is moved under markup of another kind, it is
escaped from then on, and then the markup is longer unless there is nothing to
escape in it. So all there is to say of the markup as a whole is whether it has
grown.

## Main definitions

* `Grown`: Markup that may have grown by escaping.
* `Run.Amount`: The markup of runs.
* `Evaluator.AlwaysChild`: An expression that gives a child.
* `Findings.Unescaped`: There is nothing to escape in children that are texts.

## Theorems

* `Evaluator.AlwaysChild.piece`: A child that is moved.
* `Findings.runs_amount`: Runs amount to what the children do.
* `Run.Amount.views`: So do the expressions that runs are put into.
-/

namespace RenderFold

open Script (Arena Id Tree)
open Evaluator (Always)

/-- Markup that may be longer than other markup, and is the same under a
    condition. -/
def Grown (html html' : String) (P : Prop) : Prop :=
  html.length ≤ html'.length ∧ (html' = html ↔ P)

namespace Grown

variable {a a' b b' : String} {P Q : Prop}

theorem same (html : String) (hP : P) : Grown html html P := ⟨Nat.le_refl _, iff_of_true rfl hP⟩

theorem congr (h : Grown a a' P) (hPQ : P ↔ Q) : Grown a a' Q := ⟨h.1, h.2.trans hPQ⟩

/-- A text is longer where it is escaped, unless it is the same. -/
theorem escape (content : String) :
    Grown content (Markup.escape content) (Markup.escape content = content) :=
  ⟨Markup.length_le_escape content, Iff.rfl⟩

/-- Neither part gets shorter, so the whole is the same only if both are. -/
theorem append (h : Grown a a' P) (h' : Grown b b' Q) : Grown (a ++ b) (a' ++ b') (P ∧ Q) := by
  refine ⟨?_, ?_⟩
  · rw [String.length_append, String.length_append]
    exact Nat.add_le_add h.1 h'.1
  · rw [← h.2, ← h'.2]
    constructor
    · intro heq
      have hlength := congrArg String.length heq
      rw [String.length_append, String.length_append] at hlength
      have hfirst : a'.toList.length = a.toList.length := by
        rw [String.length_toList, String.length_toList]
        have := h.1
        have := h'.1
        omega
      have hlists := congrArg String.toList heq
      rw [String.toList_append, String.toList_append] at hlists
      obtain ⟨hleft, hright⟩ := List.append_inj hlists hfirst
      exact ⟨String.toList_inj.mp hleft, String.toList_inj.mp hright⟩
    · rintro ⟨rfl, rfl⟩
      rfl

/-- What stands around it is the same. -/
theorem surround (h : Grown a a' P) (opening closing : String) :
    Grown (opening ++ a ++ closing) (opening ++ a' ++ closing) P :=
  (((same opening trivial).append h).append (same closing trivial)).congr (by tauto)

end Grown

/-- The markup of runs, where each child amounts to one of some pieces. -/
inductive Run.Amount (piece : Id → String → Prop) : List Run → String → Prop where
  | nil : Amount piece [] ""
  | literal {rest : List Run} {html : String} (text : String) (hrest : Amount piece rest html) :
      Amount piece (.literal text :: rest) (text ++ html)
  | child {slot : Id} {rest : List Run} {first later : String} (hfirst : piece slot first)
      (hrest : Amount piece rest later) : Amount piece (.child slot :: rest) (first ++ later)

namespace Run.Amount

variable {piece : Id → String → Prop} {runs : List Run} {html text : String}

/-- A literal before runs, whether or not they begin with another. -/
theorem prepend (h : Amount piece runs html) (text : String) :
    Amount piece (prependLiteral text runs) (text ++ html) := by
  cases h with
  | literal later hrest =>
      rw [← String.append_assoc]
      exact .literal (text ++ later) hrest
  | nil => exact .literal text .nil
  | child hfirst hrest => exact .literal text (.child hfirst hrest)

theorem single (text : String) : Amount piece [.literal text] text := by
  have h : Amount piece [.literal text] (text ++ "") := .literal text .nil
  rwa [String.append_empty] at h

/-- The one literal that children amount to is their markup. -/
theorem eq_of_literal? (h : Amount piece runs html) (hliteral : Run.literal? runs = some text) :
    html = text := by
  cases h with
  | nil =>
      cases hliteral
      rfl
  | literal first hrest =>
      cases hrest with
      | nil =>
          cases hliteral
          rw [String.append_empty]
      | _ => cases hliteral
  | child => cases hliteral

end Run.Amount

section Runs

variable {engine : Engine} {functions : Component → Option RenderFunction}
  {cached : FactoryId → Option Resolution} {pass : Pass} {owner : Option Instance}
  {context : TagContext} {setting : Setting} {env : Env} {bound depth : Nat} {tree : Id → Tree}
  {raw raw' : Bool} {findings : Findings} {elements : List Id} {children : List View}
  {html : String}

/-- An expression gives a child, which stands under an element or markup. -/
def Evaluator.AlwaysChild (setting : Setting) (env : Env) (bound depth : Nat) (raw : Bool)
    (t : Tree) (child : View) : Prop :=
  ∃ view, Always setting env bound depth t (Datum.Shows view) ∧
    (∀ content, view ≠ .text content true) ∧ child = Datum.asChild raw view

/-- There is nothing to escape in the raw texts among children that are not
    static. -/
def Findings.Unescaped (findings : Findings) (elements : List Id) (children : List View) : Prop :=
  ∀ pair ∈ elements.zip children, Findings.literal? findings pair.1 = none →
    ∀ content, pair.2 = .text content true → Markup.escape content = content

open Evaluator (AlwaysChild)

/-- Children with the markup that an expression gives, under markup in which
    text may be raw. -/
def Piece (engine : Engine) (functions : Component → Option RenderFunction)
    (cached : FactoryId → Option Resolution) (pass : Pass) (owner : Option Instance)
    (context : TagContext) (setting : Setting) (env : Env) (bound depth : Nat) (tree : Id → Tree)
    (raw : Bool) (slot : Id) (html : String) : Prop :=
  ∃ view, Always setting env bound depth (tree slot) (Datum.Shows view) ∧
    Amounts engine functions cached pass owner context [Datum.asChild raw view] html

/-- A child that is moved under markup in which text is escaped is the same,
    unless it is a text. -/
theorem Evaluator.AlwaysChild.piece {slot : Id} {child : View}
    (h : AlwaysChild setting env bound depth raw (tree slot) child)
    (hraw : raw' = true → raw = true)
    (hhtml : Amounts engine functions cached pass owner context [child] html) :
    ∃ html', Piece engine functions cached pass owner context setting env bound depth tree raw' slot
        html' ∧
      Grown html html' (raw' = false → ∀ content, child = .text content true →
        Markup.escape content = content) := by
  obtain ⟨view, halways, hplain, rfl⟩ := h
  cases view with
  | text content isRaw =>
      obtain rfl : isRaw = false := by
        cases isRaw
        · rfl
        · exact absurd rfl (hplain content)
      cases raw' with
      | true =>
          obtain rfl := hraw rfl
          exact ⟨html, ⟨_, halways, hhtml⟩, .same html fun hfalse => nomatch hfalse⟩
      | false =>
          cases raw with
          | false =>
              exact ⟨html, ⟨_, halways, hhtml⟩, .same html fun _ content heq => nomatch heq⟩
          | true =>
              obtain rfl := (Amounts.text_iff rfl).mp hhtml
              refine ⟨Markup.escape html, ⟨_, halways, (Amounts.text_iff rfl).mpr rfl⟩,
                (Grown.escape html).congr ⟨?_, fun hall => hall rfl html rfl⟩⟩
              rintro hsame - content heq
              cases heq
              exact hsame
  | _ => exact ⟨html, ⟨_, halways, hhtml⟩, .same html fun _ content heq => nomatch heq⟩

/-- Runs amount to what the children do, but for the texts among them that are
    no longer raw. -/
theorem Findings.runs_amount
    (h : List.Forall₂ (fun element child =>
      AlwaysChild setting env bound depth raw (tree element) child) elements children)
    (hraw : raw' = true → raw = true)
    (hstatic : ∀ pair ∈ elements.zip children, ∀ text,
      Findings.literal? findings pair.1 = some text → ∀ html,
        Amounts engine functions cached pass owner context [pair.2] html → html = text)
    (hhtml : Amounts engine functions cached pass owner context children html) :
    ∃ html', Run.Amount (Piece engine functions cached pass owner context setting env bound depth
        tree raw') (findings.runs elements) html' ∧
      Grown html html' (raw' = false → findings.Unescaped elements children) := by
  induction h generalizing html with
  | nil =>
      obtain rfl := Amounts.nil_iff.mp hhtml
      exact ⟨"", .nil, .same "" fun _ pair hpair => absurd hpair List.not_mem_nil⟩
  | @cons element child elements children hchild hrest ih =>
      obtain ⟨first, later, rfl, hfirst, hlater⟩ := Amounts.cons_iff.mp hhtml
      obtain ⟨hown, hstatic⟩ := List.forall_mem_cons.mp hstatic
      obtain ⟨later', hruns, hgrown⟩ := ih hstatic hlater
      unfold Findings.runs
      cases hliteral : Findings.literal? findings element with
      | some text =>
          obtain rfl := hown text hliteral first hfirst
          refine ⟨_, hruns.prepend first, ((Grown.same first trivial).append hgrown).congr ?_⟩
          rw [true_and]
          refine imp_congr_right fun _ => ?_
          constructor
          · intro hall
            refine List.forall_mem_cons.mpr ⟨fun hnone => ?_, hall⟩
            cases hliteral.symm.trans hnone
          · exact fun hall => (List.forall_mem_cons.mp hall).2
      | none =>
          obtain ⟨first', hpiece, hgrown'⟩ := hchild.piece hraw hfirst
          refine ⟨_, .child hpiece hruns, (hgrown'.append hgrown).congr ?_⟩
          rw [← imp_and]
          refine imp_congr_right fun _ => ?_
          constructor
          · rintro ⟨hfirst, hall⟩
            exact List.forall_mem_cons.mpr ⟨fun _ => hfirst, hall⟩
          · intro hall
            obtain ⟨hfirst, hall⟩ := List.forall_mem_cons.mp hall
            exact ⟨hfirst hliteral, hall⟩

/-- Under an element in which text is escaped there are no raw texts. -/
theorem Findings.unescaped_of_not_raw
    (h : List.Forall₂ (fun element child =>
      AlwaysChild setting env bound depth false (tree element) child) elements children) :
    findings.Unescaped elements children := by
  induction h with
  | nil => exact fun pair hpair => absurd hpair List.not_mem_nil
  | cons hchild _ ih =>
      refine List.forall_mem_cons.mpr ⟨fun _ content heq => ?_, ih⟩
      obtain ⟨view, -, hplain, rfl⟩ := hchild
      cases view with
      | text other isRaw =>
          cases isRaw with
          | false => cases heq
          | true => exact absurd rfl (hplain other)
      | _ => cases heq

/-- The expressions that runs are put into give views that amount to the same. -/
theorem Run.Amount.views {runs : List Run} (hname : Env.get? env Helper.markup.name = none)
    (h : Run.Amount (Piece engine functions cached pass owner context setting env bound depth tree
      raw) runs html) :
    ∃ views, List.Forall₂ (fun t view => Always setting env bound (depth + 2) t (Datum.Shows view))
        (Run.trees tree runs) views ∧
      Amounts engine functions cached pass owner context (views.map (Datum.asChild raw)) html := by
  induction h with
  | nil => exact ⟨[], .nil, Amounts.nil_iff.mpr rfl⟩
  | literal text _ ih =>
      obtain ⟨views, hviews, hhtml⟩ := ih
      unfold Run.trees
      split
      · next hempty =>
          rw [hempty, String.empty_append]
          exact ⟨views, hviews, hhtml⟩
      · exact ⟨.fragment text "" [] :: views, .cons (Evaluator.always_literal hname text) hviews,
          Amounts.cons_iff.mpr ⟨text, _, rfl, Amounts.literal_iff.mpr rfl, hhtml⟩⟩
  | child hfirst _ ih =>
      obtain ⟨view, halways, hpiece⟩ := hfirst
      obtain ⟨views, hviews, hhtml⟩ := ih
      exact ⟨view :: views, .cons (halways.deeper (Nat.le_add_right depth 2)) hviews,
        Amounts.cons_iff.mpr ⟨_, _, rfl, hpiece, hhtml⟩⟩

end Runs

end RenderFold
