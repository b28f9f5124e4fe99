import RenderFold.Proofs.Html.Quiet

/-!
# Amounts

The markup of views depends on what their async components resolve to. Once
that is settled there is nothing left to choose: views have at most one markup,
and it is made of the markup of each view, one after another. So a view in a
list can be exchanged for any other that amounts to the same.

## Main definitions

* `Amounts`: The markup of views, with what async components have resolved to.
* `View.opening`, `View.ClosesWith`: The markup on both sides of the children.

## Theorems

* `Amounts.cons_iff`: Views one after another.
* `Amounts.enclosing_iff`: A node with its children.
* `Amounts.unique`: Views amount to one markup only.
-/

namespace RenderFold

/-- The markup that opens a node that has children. -/
def View.opening (engine : Engine) (context : TagContext) : View → String
  | element tag data _ => engine.registry.startTag tag data context
  | fragment opening _ _ => opening
  | _ => ""

/-- The node has its children written in it, and closes with some markup. -/
def View.ClosesWith (closing : String) : View → Prop
  | element tag data _ => Markup.endTag? tag = some closing ∧ data.content? = none
  | fragment _ other _ => other = closing
  | _ => False

/-- The markup that views amount to, where async components resolve to what
    they have resolved to. -/
def Amounts (engine : Engine) (functions : Component → Option RenderFunction)
    (cached : FactoryId → Option Resolution) (pass : Pass) (owner : Option Instance)
    (context : TagContext) (views : List View) (html : String) : Prop :=
  ∃ answers steps, Written engine functions pass id owner context views answers html steps ∧
    Answered cached answers

variable {engine : Engine} {functions : Component → Option RenderFunction}
  {cached : FactoryId → Option Resolution} {pass : Pass} {owner : Option Instance}
  {context : TagContext} {view : View} {views rest : List View} {html html' : String}

namespace Written

variable {answers answers' : List Answer} {steps steps' : Nat}

/-- The first view is written before all the others. -/
theorem of_cons
    (h : Written engine functions pass id owner context (view :: rest) answers html steps) :
    ∃ before after first later steps₁ steps₂, answers = before ++ after ∧ html = first ++ later ∧
      Written engine functions pass id owner context [view] before first steps₁ ∧
      Written engine functions pass id owner context rest after later steps₂ := by
  have halone : ∀ text : String, text = text ++ "" := fun _ => String.append_empty.symm
  cases h with
  | text hmarkup hrest =>
      exact ⟨[], _, _, _, _, _, rfl, by rw [← halone], .text hmarkup .nil, hrest⟩
  | comment hrest => exact ⟨[], _, _, _, _, _, rfl, by rw [← halone], .comment .nil, hrest⟩
  | fragment hchildren hrest =>
      exact ⟨_, _, _, _, _, _, by rw [List.append_nil], by rw [← halone],
        .fragment hchildren .nil, hrest⟩
  | void hend hstart hrest =>
      exact ⟨[], _, _, _, _, _, rfl, by rw [← halone], .void hend hstart .nil, hrest⟩
  | content hend hstart hcontent hrest =>
      exact ⟨[], _, _, _, _, _, rfl, by rw [← halone], .content hend hstart hcontent .nil, hrest⟩
  | element hend hstart hcontent hchildren hrest =>
      exact ⟨_, _, _, _, _, _, by rw [List.append_nil], by rw [← halone],
        .element hend hstart hcontent hchildren .nil, hrest⟩
  | component hroot hinner hrest =>
      exact ⟨_, _, _, _, _, _, by rw [List.append_nil], by rw [← halone],
        .component hroot hinner .nil, hrest⟩
  | deferredComponent hroot hinner hrest =>
      exact ⟨_, _, _, _, _, _, by rw [List.append_nil], by rw [← halone],
        .deferredComponent hroot hinner .nil, hrest⟩
  | deferredView hinner hrest =>
      exact ⟨_, _, _, _, _, _, by rw [List.append_nil], by rw [← halone],
        .deferredView hinner .nil, hrest⟩
  | deferredViews hinner hrest =>
      exact ⟨_, _, _, _, _, _, by rw [List.append_nil], by rw [← halone],
        .deferredViews hinner .nil, hrest⟩
  | differing hrest => exact ⟨[_], _, _, _, _, _, rfl, by rw [← halone], .differing .nil, hrest⟩

/-- Views have at most one markup with what is remembered. -/
theorem unique_of_answered
    (h : Written engine functions pass id owner context views answers html steps)
    (h' : Written engine functions pass id owner context views answers' html' steps')
    (hanswers : Answered cached answers) (hanswers' : Answered cached answers') :
    html = html' := by
  -- By induction on the first derivation. The view decides the rule of the other
  -- one, but for async components, where what is remembered does.
  induction h generalizing answers' html' steps' with
  | nil => cases h'; rfl
  | text hmarkup hrest ih =>
      cases h' with
      | text hmarkup' hrest' =>
          cases hmarkup.symm.trans hmarkup'
          rw [ih hrest' hanswers hanswers']
  | comment hrest ih =>
      cases h' with
      | comment hrest' => rw [ih hrest' hanswers hanswers']
  | fragment hchildren hrest ihchildren ih =>
      cases h' with
      | fragment hchildren' hrest' =>
          obtain ⟨hinner, hanswers⟩ := Answered.append_iff.mp hanswers
          obtain ⟨hinner', hanswers'⟩ := Answered.append_iff.mp hanswers'
          rw [ihchildren hchildren' hinner hinner', ih hrest' hanswers hanswers']
  | void hend hstart hrest ih =>
      cases h' with
      | void hend' hstart' hrest' =>
          cases hstart.symm.trans hstart'
          rw [ih hrest' hanswers hanswers']
      | content hend' => cases hend.symm.trans hend'
      | element hend' => cases hend.symm.trans hend'
  | content hend hstart hcontent hrest ih =>
      cases h' with
      | void hend' => cases hend.symm.trans hend'
      | content hend' hstart' hcontent' hrest' =>
          cases hstart.symm.trans hstart'
          cases hend.symm.trans hend'
          cases hcontent.symm.trans hcontent'
          rw [ih hrest' hanswers hanswers']
      | element hend' hstart' hcontent' => cases hcontent.symm.trans hcontent'
  | element hend hstart hcontent hchildren hrest ihchildren ih =>
      cases h' with
      | void hend' => cases hend.symm.trans hend'
      | content hend' hstart' hcontent' => cases hcontent.symm.trans hcontent'
      | element hend' hstart' hcontent' hchildren' hrest' =>
          obtain ⟨hinner, hanswers⟩ := Answered.append_iff.mp hanswers
          obtain ⟨hinner', hanswers'⟩ := Answered.append_iff.mp hanswers'
          cases hstart.symm.trans hstart'
          cases hend.symm.trans hend'
          rw [ihchildren hchildren' hinner hinner', ih hrest' hanswers hanswers']
  | component hroot hinner hrest ihinner ih =>
      cases h' with
      | component hroot' hinner' hrest' =>
          cases hroot.symm.trans hroot'
          obtain ⟨hbelow, hanswers⟩ := Answered.append_iff.mp hanswers
          obtain ⟨hbelow', hanswers'⟩ := Answered.append_iff.mp hanswers'
          rw [ihinner hinner' hbelow hbelow', ih hrest' hanswers hanswers']
  | deferredComponent hroot hinner hrest ihinner ih =>
      obtain ⟨hanswer, hanswers⟩ := Answered.cons_iff.mp hanswers
      obtain ⟨hbelow, hanswers⟩ := Answered.append_iff.mp hanswers
      cases h' with
      | deferredComponent hroot' hinner' hrest' =>
          obtain ⟨hanswer', hanswers'⟩ := Answered.cons_iff.mp hanswers'
          obtain ⟨hbelow', hafter'⟩ := Answered.append_iff.mp hanswers'
          cases hanswer.symm.trans hanswer'
          cases hroot.symm.trans hroot'
          rw [ihinner hinner' hbelow hbelow', ih hrest' hanswers hafter']
      | deferredView | deferredViews | differing =>
          cases hanswer.symm.trans (Answered.cons_iff.mp hanswers').1
  | deferredView hinner hrest ihinner ih =>
      obtain ⟨hanswer, hanswers⟩ := Answered.cons_iff.mp hanswers
      obtain ⟨hbelow, hanswers⟩ := Answered.append_iff.mp hanswers
      cases h' with
      | deferredView hinner' hrest' =>
          obtain ⟨hanswer', hanswers'⟩ := Answered.cons_iff.mp hanswers'
          obtain ⟨hbelow', hafter'⟩ := Answered.append_iff.mp hanswers'
          cases hanswer.symm.trans hanswer'
          rw [ihinner hinner' hbelow hbelow', ih hrest' hanswers hafter']
      | deferredComponent | deferredViews | differing =>
          cases hanswer.symm.trans (Answered.cons_iff.mp hanswers').1
  | deferredViews hinner hrest ihinner ih =>
      obtain ⟨hanswer, hanswers⟩ := Answered.cons_iff.mp hanswers
      obtain ⟨hbelow, hanswers⟩ := Answered.append_iff.mp hanswers
      cases h' with
      | deferredViews hinner' hrest' =>
          obtain ⟨hanswer', hanswers'⟩ := Answered.cons_iff.mp hanswers'
          obtain ⟨hbelow', hafter'⟩ := Answered.append_iff.mp hanswers'
          cases hanswer.symm.trans hanswer'
          rw [ihinner hinner' hbelow hbelow', ih hrest' hanswers hafter']
      | deferredComponent | deferredView | differing =>
          cases hanswer.symm.trans (Answered.cons_iff.mp hanswers').1
  | differing hrest ih =>
      obtain ⟨hanswer, hanswers⟩ := Answered.cons_iff.mp hanswers
      cases h' with
      | differing hrest' =>
          rw [ih hrest' hanswers (Answered.cons_iff.mp hanswers').2]
      | deferredComponent | deferredView | deferredViews =>
          cases hanswer.symm.trans (Answered.cons_iff.mp hanswers').1

end Written

namespace Amounts

/-- Views amount to one markup only. -/
theorem unique (h : Amounts engine functions cached pass owner context views html)
    (h' : Amounts engine functions cached pass owner context views html') : html = html' := by
  obtain ⟨answers, steps, hwritten, hanswers⟩ := h
  obtain ⟨answers', steps', hwritten', hanswers'⟩ := h'
  exact hwritten.unique_of_answered hwritten' hanswers hanswers'

theorem nil_iff : Amounts engine functions cached pass owner context [] html ↔ html = "" := by
  constructor
  · rintro ⟨answers, steps, hwritten, -⟩
    cases hwritten
    rfl
  · rintro rfl
    exact ⟨[], 0, .nil, fun _ hmem => absurd hmem List.not_mem_nil⟩

/-- The markup of the first view comes before that of the others. -/
theorem cons_iff : Amounts engine functions cached pass owner context (view :: rest) html ↔
    ∃ first later, html = first ++ later ∧
      Amounts engine functions cached pass owner context [view] first ∧
      Amounts engine functions cached pass owner context rest later := by
  constructor
  · rintro ⟨answers, steps, hwritten, hanswers⟩
    obtain ⟨before, after, first, later, _, _, rfl, rfl, hfirst, hlater⟩ := hwritten.of_cons
    obtain ⟨hbefore, hafter⟩ := Answered.append_iff.mp hanswers
    exact ⟨first, later, rfl, ⟨_, _, hfirst, hbefore⟩, ⟨_, _, hlater, hafter⟩⟩
  · rintro ⟨first, later, rfl, ⟨before, _, hfirst, hbefore⟩, ⟨after, _, hlater, hafter⟩⟩
    exact ⟨before ++ after, _, hfirst.append hlater, Answered.append_iff.mpr ⟨hbefore, hafter⟩⟩

/-- A view that no other is written inside amounts to what it is written as. -/
theorem of_written {steps : Nat}
    (h : Written engine functions pass id owner context views [] html steps) :
    Amounts engine functions cached pass owner context views html :=
  ⟨[], steps, h, fun _ hmem => absurd hmem List.not_mem_nil⟩

theorem text_iff {content markup : String} {raw : Bool}
    (hmarkup : (View.text content raw).textMarkup? = some markup) :
    Amounts engine functions cached pass owner context [.text content raw] html ↔
      html = markup := by
  have hwritten :
      Amounts engine functions cached pass owner context [.text content raw] markup := by
    rw [← String.append_empty (s := markup)]
    exact of_written (.text hmarkup .nil)
  exact ⟨fun h => h.unique hwritten, fun heq => heq ▸ hwritten⟩

theorem comment_iff {content : String} :
    Amounts engine functions cached pass owner context [.comment content] html ↔
      html = "<!--" ++ content ++ "-->" := by
  have hwritten : Amounts engine functions cached pass owner context [.comment content]
      ("<!--" ++ content ++ "-->") := by
    rw [← String.append_empty (s := "<!--" ++ content ++ "-->")]
    exact of_written (.comment .nil)
  exact ⟨fun h => h.unique hwritten, fun heq => heq ▸ hwritten⟩

/-- An element that has no end has no children either. -/
theorem void_iff {tag : String} {data : NodeData} {children : List View}
    (hend : Markup.endTag? tag = none) :
    Amounts engine functions cached pass owner context [.element tag data children] html ↔
      html = engine.registry.startTag tag data context := by
  have hwritten : Amounts engine functions cached pass owner context [.element tag data children]
      (engine.registry.startTag tag data context) := by
    rw [← String.append_empty (s := engine.registry.startTag tag data context)]
    exact of_written (.void hend rfl .nil)
  exact ⟨fun h => h.unique hwritten, fun heq => heq ▸ hwritten⟩

/-- An element with markup of its own in place of its children. -/
theorem content_iff {tag closing content : String} {data : NodeData} {children : List View}
    (hend : Markup.endTag? tag = some closing) (hcontent : data.content? = some content) :
    Amounts engine functions cached pass owner context [.element tag data children] html ↔
      html = engine.registry.startTag tag data context ++ content ++ closing := by
  have hwritten : Amounts engine functions cached pass owner context [.element tag data children]
      (engine.registry.startTag tag data context ++ content ++ closing) := by
    rw [← String.append_empty (s := _ ++ closing)]
    exact of_written (.content hend rfl hcontent .nil)
  exact ⟨fun h => h.unique hwritten, fun heq => heq ▸ hwritten⟩

/-- A node is written around its children. -/
theorem enclosing_iff {closing : String} (hcloses : view.ClosesWith closing) :
    Amounts engine functions cached pass owner context [view] html ↔
      ∃ content, html = view.opening engine context ++ content ++ closing ∧
        Amounts engine functions cached pass owner (.within owner) view.children content := by
  cases view with
  | element tag data children =>
      obtain ⟨hend, hcontent⟩ := hcloses
      constructor
      · rintro ⟨answers, steps, hwritten, hanswers⟩
        cases hwritten with
        | void hend' => cases hend.symm.trans hend'
        | content hend' hstart' hcontent' => cases hcontent.symm.trans hcontent'
        | element hend' hstart hcontent' hchildren hrest =>
            cases hrest
            cases hend.symm.trans hend'
            exact ⟨_, by rw [← hstart, String.append_empty]; rfl, _, _, hchildren,
              (Answered.append_iff.mp hanswers).1⟩
      · rintro ⟨content, rfl, answers, steps, hwritten, hanswers⟩
        have helement : Written engine functions pass id owner context
            [.element tag data children] (answers ++ [])
            (engine.registry.startTag tag data context ++ content ++ closing ++ "")
            (steps + 2 + 0) := .element hend rfl hcontent hwritten .nil
        exact ⟨answers, _, helement.of_append_nil, hanswers⟩
  | fragment opening other children =>
      obtain rfl := hcloses
      constructor
      · rintro ⟨answers, steps, hwritten, hanswers⟩
        cases hwritten with
        | fragment hchildren hrest =>
            cases hrest
            rw [hchildren.enclosed_id, String.append_empty]
            exact ⟨_, rfl, _, _, hchildren, (Answered.append_iff.mp hanswers).1⟩
      · rintro ⟨content, rfl, answers, steps, hwritten, hanswers⟩
        have hfragment : Written engine functions pass id owner context
            [.fragment opening other children] (answers ++ [])
            (opening ++ content ++ other ++ "") (steps + 2 + 0) := by
          rw [← hwritten.enclosed_id]
          exact .fragment hwritten .nil
        exact ⟨answers, _, hfragment.of_append_nil, hanswers⟩
  | text | comment | component | deferred => exact hcloses.elim

/-- Markup without children is what it opens with. -/
theorem literal_iff {text : String} :
    Amounts engine functions cached pass owner context [.fragment text "" []] html ↔
      html = text := by
  have hcloses : (View.fragment text "" []).ClosesWith "" := rfl
  rw [enclosing_iff hcloses]
  constructor
  · rintro ⟨content, rfl, hcontent⟩
    rw [nil_iff.mp hcontent, String.append_empty, String.append_empty]
    rfl
  · rintro rfl
    exact ⟨"", by rw [String.append_empty, String.append_empty]; rfl, nil_iff.mpr rfl⟩

end Amounts

end RenderFold
