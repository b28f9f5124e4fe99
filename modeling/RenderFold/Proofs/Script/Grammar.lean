import RenderFold.Script.Parser
import RenderFold.Proofs.Script.Numbers

/-!
# The Trees of the Grammar

The trees that can be written down. An expression is made of expressions, a
statement of expressions and statements, and a function stands at the root
only. Names are identifiers and not keywords, a number is the number of some
literal, and a tree has no holes.

Such a tree may still be printed as something else. There are three shapes
that read differently where they stand: a number before a point, whose point
would belong to the number; a number that is too great for a literal; and an
object at the start of the body of an arrow function, which would be a block.
Everything else is told apart by parentheses. These take levels, of which a
reader has only so many.

## Main definitions

* `Expression`, `Statement`, `Function`: The trees of the grammar.
* `Tree.All`, `Arena.allTo`: A property of every node of a tree, and a check of it.
* `Node.isPlain`: A node with none of the three shapes.
* `Tree.nesting`: How many levels a printed tree takes.

## Theorems

* `Tree.All.part`: A property of a tree holds of its parts.
* `Tree.nesting_mono`: A place that asks for more takes more levels.
-/

namespace RenderFold

namespace Script

open Printer (isIdentifier)

/-- A name that can be declared and looked up. -/
def Name (name : String) : Prop := isIdentifier name = true ∧ isKeyword name = false

/-- The trees that stand for values. -/
inductive Expression : Tree → Prop
  | str (text : String) : Expression (.mk (.str text))
  | num {bits : UInt64} (hbits : Literal bits) : Expression (.mk (.num bits))
  | bool (value : Bool) : Expression (.mk (.bool value))
  | null : Expression (.mk .null)
  | ident {name : String} (hname : Name name) : Expression (.mk (.ident name))
  | member {target : Tree} {property : String} (htarget : Expression target)
      (hproperty : isIdentifier property = true) : Expression (.mk (.member target property))
  | index {target position : Tree} (htarget : Expression target)
      (hposition : Expression position) : Expression (.mk (.index target position))
  | call {callee : Tree} {arguments : List Tree} (hcallee : Expression callee)
      (harguments : ∀ t ∈ arguments, Expression t) : Expression (.mk (.call callee arguments))
  | array {elements : List Tree} (helements : ∀ t ∈ elements, Expression t) :
      Expression (.mk (.array elements))
  | object {properties : List (String × Tree)}
      (hproperties : ∀ property ∈ properties, Expression property.2) :
      Expression (.mk (.object properties))
  | not {argument : Tree} (hargument : Expression argument) : Expression (.mk (.not argument))
  | binary {op : BinaryOp} {left right : Tree} (hleft : Expression left)
      (hright : Expression right) : Expression (.mk (.binary op left right))
  | conditional {test consequent alternate : Tree} (htest : Expression test)
      (hconsequent : Expression consequent) (halternate : Expression alternate) :
      Expression (.mk (.conditional test consequent alternate))
  | arrow {params : List String} {body : Tree} (hparams : ∀ name ∈ params, Name name)
      (hbody : Expression body) : Expression (.mk (.arrow params body))

/-- The trees that are carried out, one line after the other. -/
inductive Statement : Tree → Prop
  | leave : Statement (.mk (.ret none))
  | ret {argument : Tree} (hargument : Expression argument) :
      Statement (.mk (.ret (some argument)))
  | declare {binding : Binding} {name : String} {init : Tree} (hname : Name name)
      (hinit : Expression init) : Statement (.mk (.declare binding name init))
  | branch {test : Tree} {consequent : List Tree} (htest : Expression test)
      (hconsequent : ∀ t ∈ consequent, Statement t) :
      Statement (.mk (.branch test consequent none))
  | branchElse {test : Tree} {consequent alternate : List Tree} (htest : Expression test)
      (hconsequent : ∀ t ∈ consequent, Statement t) (halternate : ∀ t ∈ alternate, Statement t) :
      Statement (.mk (.branch test consequent (some alternate)))
  | discard {expression : Tree} (hexpression : Expression expression) :
      Statement (.mk (.discard expression))

/-- The trees of render functions. -/
inductive Function : Tree → Prop
  | mk {name : Option String} {params : List String} {body : List Tree}
      (hname : ∀ n ∈ name, Name n) (hparams : ∀ n ∈ params, Name n)
      (hbody : ∀ t ∈ body, Statement t) : Function (.mk (.function name params body))

/-- Whether a tree is a number literal. -/
def Tree.isNumber : Tree → Bool
  | .mk (.num _) => true
  | _ => false

/-- Whether a tree is the variable of a given name. -/
def Tree.isVariable (name : String) : Tree → Bool
  | .mk (.ident other) => other = name
  | _ => false

theorem Tree.eq_of_isVariable {name : String} {t : Tree} (h : t.isVariable name = true) :
    t = .mk (.ident name) := by
  unfold isVariable at h
  split at h
  · rw [of_decide_eq_true h]
  · cases h

namespace Printer

mutual

/-- Whether a tree, in a place that asks for `tightness`, begins with an
    object literal. -/
def opensBrace (tightness : Nat) : Tree → Bool
  | .mk node => decide (tightness ≤ precedence node) && bareOpensBrace node
termination_by structural t => t

/-- Whether a node begins with an object literal. -/
def bareOpensBrace : Node Tree → Bool
  | .object _ => true
  | .member target _ => opensBrace postfixLevel target
  | .index target _ => opensBrace postfixLevel target
  | .call callee _ => opensBrace postfixLevel callee
  | .binary op left _ => opensBrace op.precedence left
  | .conditional test _ _ => opensBrace (conditionalLevel + 1) test
  | _ => false
termination_by structural node => node

end

mutual

/-- The levels that a printed tree takes in a place that asks for
    `tightness`. A property that holds the variable of its own name takes
    `own` of them: none where it is written as the name alone. -/
def nesting (own tightness : Nat) : Tree → Nat
  | .mk node => (if precedence node < tightness then 1 else 0) + bareNesting own node
termination_by structural t => t

/-- The levels that a node takes without parentheses around it. -/
def bareNesting (own : Nat) : Node Tree → Nat
  | .function _ _ body => partsNesting own body
  | .ret none => 0
  | .ret (some argument) => 1 + nesting own 0 argument
  | .declare _ _ init => 1 + nesting own 0 init
  | .branch test consequent none => max (1 + nesting own 0 test) (partsNesting own consequent)
  | .branch test consequent (some alternate) =>
    max (1 + nesting own 0 test) (max (partsNesting own consequent) (partsNesting own alternate))
  | .discard argument => 1 + nesting own 0 argument
  | .member target _ => nesting own postfixLevel target
  | .index target position => max (nesting own postfixLevel target) (1 + nesting own 0 position)
  | .call callee arguments => max (nesting own postfixLevel callee) (partsNesting own arguments)
  | .array elements => partsNesting own elements
  | .object properties => entriesNesting own properties
  | .not argument => 1 + nesting own notLevel argument
  | .binary op left right =>
    max (nesting own op.precedence left) (nesting own (op.precedence + 1) right)
  | .conditional test consequent alternate =>
    max (nesting own (conditionalLevel + 1) test)
      (max (1 + nesting own 0 consequent) (1 + nesting own 0 alternate))
  | .arrow _ body => (if isObject body then 2 else 1) + nesting own 0 body
  | .str _ | .num _ | .bool _ | .null | .ident _ | .hole => 0
termination_by structural node => node

/-- The levels that parts with a level of their own take. -/
def partsNesting (own : Nat) : List Tree → Nat
  | [] => 0
  | part :: rest => max (1 + nesting own 0 part) (partsNesting own rest)
termination_by structural ts => ts

/-- The levels that properties take. -/
def entriesNesting (own : Nat) : List (String × Tree) → Nat
  | [] => 0
  | (name, value) :: rest =>
    max (if value.isVariable name then own else 1 + nesting own 0 value) (entriesNesting own rest)
termination_by structural properties => properties

end

theorem nesting_zero (own : Nat) (t : Tree) : nesting own 0 t = bareNesting own t.node := by
  obtain ⟨node⟩ := t
  rw [nesting, if_neg (Nat.not_lt_zero _), Nat.zero_add]
  rfl

/-- A place that asks for more takes more levels. -/
theorem nesting_mono {low high : Nat} (h : low ≤ high) (own : Nat) (t : Tree) :
    nesting own low t ≤ nesting own high t := by
  obtain ⟨node⟩ := t
  rw [nesting, nesting]
  split <;> split <;> omega

theorem partsNesting_le_iff {own depth : Nat} {ts : List Tree} :
    partsNesting own ts ≤ depth ↔ ∀ t ∈ ts, nesting own 0 t < depth := by
  induction ts with
  | nil => exact iff_of_true (Nat.zero_le _) fun _ h => absurd h List.not_mem_nil
  | cons t ts ih => rw [partsNesting, Nat.max_le, ih, List.forall_mem_cons, Nat.one_add_le_iff]

theorem entriesNesting_le_iff {own depth : Nat} {properties : List (String × Tree)} :
    entriesNesting own properties ≤ depth ↔ ∀ property ∈ properties,
      (if property.2.isVariable property.1 then own else 1 + nesting own 0 property.2) ≤ depth := by
  induction properties with
  | nil => exact iff_of_true (Nat.zero_le _) fun _ h => absurd h List.not_mem_nil
  | cons property properties ih => rw [entriesNesting, Nat.max_le, ih, List.forall_mem_cons]

/-- Written in full, every property has a level of its own. -/
theorem nesting_lt_of_entries {depth : Nat} {properties : List (String × Tree)}
    (h : entriesNesting 1 properties ≤ depth) : ∀ property ∈ properties,
      nesting 1 0 property.2 < depth := by
  rintro ⟨name, value⟩ hmem
  have hle := entriesNesting_le_iff.mp h _ hmem
  split at hle
  · next hvariable =>
      cases (Tree.eq_of_isVariable hvariable : value = .mk (.ident name))
      exact hle
  · exact Nat.one_add_le_iff.mp hle

end Printer

/-- The levels that a tree takes when it is printed. -/
def Tree.nesting (t : Tree) : Nat := Printer.nesting 1 0 t

/-- Whether a node keeps its meaning when it is printed. -/
def Node.isPlain : Node Tree → Bool
  | .num bits => (Decimal.Exact.ofFloat? (Float.ofBits bits)).isSome
  | .member target _ => !target.isNumber
  | .arrow _ body => Printer.isObject body || !Printer.opensBrace Printer.arrowLevel body
  | _ => true

/-- A property of every node of a tree. -/
inductive Tree.All (p : Node Tree → Prop) : Tree → Prop
  | mk {node : Node Tree} (hnode : p node) (hparts : ∀ t ∈ node.children, All p t) :
      All p (.mk node)

/-- A tree without any of the shapes that are read differently. -/
def Tree.Plain (t : Tree) : Prop := t.All fun node => node.isPlain = true

namespace Tree.All

variable {p : Node Tree → Prop} {node : Node Tree} {t : Tree}

theorem here (h : All p (.mk node)) : p node := by
  cases h with
  | mk hnode hparts => exact hnode

theorem part (h : All p (.mk node)) (ht : t ∈ node.children) : All p t := by
  cases h with
  | mk hnode hparts => exact hparts t ht

end Tree.All

/-- Whether every node of a tree passes a check. -/
def Arena.allTo (arena : Arena) (check : Node Tree → Bool) : Nat → Id → Bool
  | 0, _ => check .hole
  | depth + 1, id =>
    check ((arena.get id).map (arena.treeTo depth)) &&
      (arena.get id).children.all (arena.allTo check depth)

theorem Arena.allTo_sound {arena : Arena} {check : Node Tree → Bool} {p : Node Tree → Prop}
    {depth : Nat} {id : Id} (hcheck : ∀ node, check node = true → p node)
    (h : arena.allTo check depth id = true) : (arena.treeTo depth id).All p := by
  induction depth generalizing id with
  | zero => exact .mk (hcheck _ h) fun _ ht => absurd ht List.not_mem_nil
  | succ depth ih =>
      obtain ⟨hnode, hparts⟩ := Bool.and_eq_true_iff.mp h
      refine .mk (hcheck _ hnode) fun t ht => ?_
      rw [Node.children_map] at ht
      obtain ⟨part, hpart, rfl⟩ := List.mem_map.mp ht
      exact ih (List.all_eq_true.mp hparts part hpart)

end Script

end RenderFold
