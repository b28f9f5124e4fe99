import RenderFold.Proofs.Component.Received
import RenderFold.Proofs.Script.Grammar
import RenderFold.Proofs.Script.Rewritten

/-!
# Trees That Can Be Printed

A tree can be printed if it is an expression of the grammar without any of the
shapes that are read differently. Rewriting an expression puts calls of helpers,
lists, objects and sums around expressions and never takes one of them for a
target, so what can be printed still can be afterwards.

## Main definitions

* `Tree.Printable`: An expression that can be printed.

## Theorems

* `Printable.joined`, `Printable.wrapped`: Concatenations.
* `Printable.dataSet`: Arguments with a property that was set.
-/

namespace RenderFold

namespace Script

namespace Tree

/-- An expression of the grammar without any of the shapes that are read
    differently. -/
structure Printable (t : Tree) : Prop where
  expression : Expression t
  plain : t.Plain

namespace Printable

variable {helper : Helper} {arguments edited elements : List Tree}
  {properties : List (String × Tree)} {t left right whole value : Tree}
  {key opening closing : String}

theorem str (text : String) : Printable (.mk (.str text)) :=
  ⟨.str text, .mk rfl fun _ h => absurd h List.not_mem_nil⟩

theorem array (h : ∀ t ∈ elements, t.Printable) : Printable (.mk (.array elements)) :=
  ⟨.array fun t ht => (h t ht).expression, .mk rfl fun t ht => (h t ht).plain⟩

theorem of_array (h : Printable (.mk (.array elements))) : ∀ t ∈ elements, t.Printable := by
  intro t ht
  cases h.expression with
  | array helements => exact ⟨helements t ht, h.plain.part ht⟩

theorem object (h : ∀ property ∈ properties, property.2.Printable) :
    Printable (.mk (.object properties)) := by
  refine ⟨.object fun property hproperty => (h property hproperty).expression, .mk rfl ?_⟩
  intro t ht
  obtain ⟨property, hproperty, rfl⟩ := List.mem_map.mp ht
  exact (h property hproperty).plain

theorem of_object (h : Printable (.mk (.object properties))) :
    ∀ property ∈ properties, property.2.Printable := by
  intro property hproperty
  cases h.expression with
  | object hproperties =>
      exact ⟨hproperties property hproperty, h.plain.part (List.mem_map_of_mem hproperty)⟩

theorem ofCall (helper : Helper) (h : ∀ t ∈ arguments, t.Printable) :
    (Tree.ofCall helper arguments).Printable := by
  have hname : Name helper.name := by cases helper <;> exact ⟨by decide, by decide⟩
  refine ⟨.call (.ident hname) fun t ht => (h t ht).expression, .mk rfl ?_⟩
  rw [Node.children, List.forall_mem_cons]
  exact ⟨.mk rfl fun _ h => absurd h List.not_mem_nil, fun t ht => (h t ht).plain⟩

theorem of_ofCall (h : (Tree.ofCall helper arguments).Printable) :
    ∀ t ∈ arguments, t.Printable := by
  intro t ht
  cases h.expression with
  | call _ harguments => exact ⟨harguments t ht, h.plain.part (List.mem_cons_of_mem _ ht)⟩

/-- A literal. -/
theorem literal (text : String) : (Tree.ofCall .markup [.mk (.str text)]).Printable :=
  ofCall .markup (List.forall_mem_singleton.mpr (str text))

theorem sum (hleft : left.Printable) (hright : right.Printable) :
    Printable (.mk (.binary .add left right)) := by
  refine ⟨.binary hleft.expression hright.expression, .mk rfl ?_⟩
  rw [Node.children, List.forall_mem_cons, List.forall_mem_singleton]
  exact ⟨hleft.plain, hright.plain⟩

theorem of_sum (h : Printable (.mk (.binary .add left right))) :
    left.Printable ∧ right.Printable := by
  cases h.expression with
  | binary hleft hright =>
      exact ⟨⟨hleft, h.plain.part List.mem_cons_self⟩,
        hright, h.plain.part (List.mem_cons_of_mem _ List.mem_cons_self)⟩

/-- A chain of sums with another text at its end. -/
theorem endChanged {change : String → String} {first : Bool}
    (h : EndChanged change first left right) (hleft : left.Printable) : right.Printable := by
  induction h with
  | text first text => exact str _
  | left right _ ih => exact sum (ih hleft.of_sum.1) hleft.of_sum.2
  | right left _ ih => exact sum hleft.of_sum.1 (ih hleft.of_sum.2)

theorem joined (h : Arena.Joined left right whole) (hleft : left.Printable)
    (hright : right.Printable) : whole.Printable := by
  cases h with
  | literals => exact str _
  | before _ h => exact endChanged h hright
  | after _ h => exact endChanged h hleft
  | sum => exact sum hleft hright

/-- A text between two literals. -/
theorem wrapped (h : IsWrapped opening t closing whole) (ht : t.Printable) : whole.Printable := by
  obtain ⟨start, hstart, hwhole⟩ := h
  exact joined hwhole (joined hstart (str opening) ht) (str closing)

/-- Arguments in which a property was set. -/
theorem dataSet (h : DataSet key value arguments edited) (hvalue : value.Printable)
    (harguments : ∀ t ∈ arguments, t.Printable) : ∀ t ∈ edited, t.Printable := by
  have halone : Printable (.mk (.object [(key, value)])) :=
    object (List.forall_mem_singleton.mpr hvalue)
  cases h with
  | changed tag properties rest =>
      rw [List.forall_mem_cons, List.forall_mem_cons] at harguments ⊢
      obtain ⟨htag, hobject, hrest⟩ := harguments
      refine ⟨htag, object fun property hproperty => ?_, hrest⟩
      rcases Fields.mem_of_mem_insert hproperty with rfl | hmem
      · exact hvalue
      · exact hobject.of_object property hmem
  | alone tag =>
      rw [List.forall_mem_cons, List.forall_mem_singleton]
      exact ⟨harguments tag List.mem_cons_self, halone⟩
  | ahead tag elements rest =>
      rw [List.forall_mem_cons] at harguments
      exact List.forall_mem_cons.mpr ⟨harguments.1, List.forall_mem_cons.mpr ⟨halone, harguments.2⟩⟩

end Printable

end Tree

end Script

end RenderFold
