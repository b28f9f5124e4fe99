import RenderFold.Proofs.Script.Following
import RenderFold.Proofs.Script.Rereading

/-!
# Parentheses Are Exact

An expression is printed with parentheses wherever a part would be taken for
something else and nowhere else, whichever way it is nested. Folding makes trees
that no source text has, such as sums that nest to the right or conditionals
that are called, and these are read back as they are like any other.

A reader has only so many levels, and a tree may take more. Reading is followed
with as many levels as the tree takes, which gives the tree; a reader with fewer
does the same until it runs out of them, and says so.

## Main definitions

* `Node.isSymbolic`: A node that is neither a number nor an arrow function.

## Theorems

* `Parser.Setting.tree_copy`: A copy of an arena holds the same trees.
* `print_reread_expression`: A printed expression is read back, all of it,
  unless it nests too deep.
-/

namespace RenderFold

namespace Script

/-- Whether a node is neither a number nor an arrow function. -/
def Node.isSymbolic : Node Tree → Bool
  | .num _ | .arrow .. => false
  | _ => true

/-- Without numbers and arrow functions there is no shape that is read
    differently. -/
theorem Tree.Plain.of_symbolic {t : Tree} (h : t.All fun node => node.isSymbolic = true) :
    t.Plain := by
  induction h with
  | @mk node hnode hparts ih =>
      refine .mk ?_ ih
      cases node with
      | num | arrow => cases hnode
      | member target property =>
          obtain ⟨target⟩ := target
          have htarget := (hparts _ List.mem_cons_self).here
          cases target with
          | num => cases htarget
          | _ => rfl
      | _ => rfl

namespace Parser.Setting

variable (σ : Setting) {arena : Arena} {id : Id}

theorem get_copy (arena : Arena) (id : Id) :
    (σ.copy arena).get (σ.place id) = (arena.get id).map σ.place := by
  have hnode : (σ.copy arena).nodes[σ.place id]? = arena.nodes[id]?.map (·.map σ.place) := by
    rw [copy, place, Arena.size, Array.getElem?_append_right (Nat.le_add_right _ _),
      Nat.add_sub_cancel_left, Array.getElem?_map]
  rw [Arena.get, Arena.get, hnode]
  cases arena.nodes[id]? <;> rfl

theorem treeTo_copy (arena : Arena) (depth : Nat) :
    ∀ id, (σ.copy arena).treeTo depth (σ.place id) = arena.treeTo depth id := by
  induction depth with
  | zero => exact fun _ => rfl
  | succ depth ih =>
      intro id
      rw [Arena.treeTo, Arena.treeTo, get_copy, Node.map_map]
      exact congrArg Tree.mk (Node.map_congr fun part _ => ih part)

/-- A copy of an arena holds the same trees. -/
theorem tree_copy (h : arena.Ordered) (hid : id < arena.size) :
    (σ.copy arena).tree (σ.place id) = arena.tree id := by
  have hsize : (σ.copy arena).size = σ.below.size + arena.size := by
    rw [copy, Arena.size, Array.size_append, Array.size_map]
    rfl
  rw [Arena.tree, treeTo_copy, hsize]
  exact h.treeTo_eq (Nat.lt_of_lt_of_le hid (Nat.le_add_left _ _)) hid

end Parser.Setting

/-- An expression without numbers and arrow functions, printed and read into any
    arena, is taken to its last token and gives the same tree, or else it nests
    too deep and the parser says so. -/
theorem print_reread_expression {source : Arena} {root : Id} (h : Expression (source.tree root))
    (hsymbolic : (source.tree root).All fun node => node.isSymbolic = true) (arena : Arena) :
    ∃ tokens, tokenize (source.printExpression root 0) = .ok tokens ∧
      ((∃ id s, Parser.outermost.expression ⟨arena, tokens⟩ = .ok id s ∧
          s.rest.map (·.kind) = [.eof] ∧ s.arena.tree id = source.tree root) ∨
        maxNesting ≤ (source.tree root).nesting ∧
          ∃ e s, Parser.outermost.expression ⟨arena, tokens⟩ = .error e s ∧
            e.fault = .tooDeep) := by
  have hplain := Tree.Plain.of_symbolic hsymbolic
  have hreads : Lexer.Reads (source.printExpression root 0).toList
      (Printer.tokens 0 (source.tree root) ++ [.eof]) := by
    have hspelled := @Lexer.spelled _ h hplain 0 0 [] [.eof] (fun _ h => nomatch h)
      (.nil fun offset => ⟨offset, rfl⟩)
    rwa [List.append_nil] at hspelled
  obtain ⟨tokens, htokens, hkinds⟩ := hreads 0
  refine ⟨tokens, htokens, ?_⟩
  have hinner : .eof ∉ Printer.tokens 0 (source.tree root) := by
    obtain ⟨kinds, hends, hinner⟩ := Lexer.tokensFrom_ends htokens
    rwa [List.append_cancel_right (hkinds.symm.trans hends)]
  -- With one level more than the tree takes, it is read back.
  have hready : (⟨.empty, tokens⟩ : Parser.State).Ready
      (Printer.tokens 0 (source.tree root) ++ []) :=
    ⟨.empty, (List.append_nil _).symm ▸ hkinds⟩
  obtain ⟨id, s, hrun, hdone, -, hstands⟩ := (Parser.reread h hplain).whole
    (lt_max_of_lt_right (Nat.lt_succ_self _)) (fun _ h => absurd h (Option.not_mem_none _)) hready
  -- The reader with its own levels and arena follows that one.
  let σ : Parser.Setting := ⟨arena, false, maxNesting ≤ (source.tree root).nesting, nofun⟩
  have hbeside : σ.Beside ⟨.empty, tokens⟩ ⟨arena, tokens⟩ (Printer.tokens 0 (source.tree root)) :=
    ⟨hinner, hkinds, hkinds, σ.copy_empty.symm⟩
  have hlevels : σ.TracksLevel
      (Parser.levels (max maxNesting ((source.tree root).nesting + 1))) Parser.outermost :=
    σ.tracks_levels (Nat.le_max_left _ _) fun hlt =>
      Nat.le_of_lt_succ ((lt_max_iff.mp hlt).resolve_left (Nat.lt_irrefl _))
  rcases hlevels.expression _ hbeside hrun with
    ⟨kinds, s', hrun', -, hbeside'⟩ | ⟨hdeep, e, s', hrun', he⟩
  · have hkinds' : kinds = [] := List.append_cancel_right (hbeside'.ahead.symm.trans hdone.ahead)
    refine .inl ⟨_, s', hrun', ?_, ?_⟩
    · rw [hbeside'.ahead', hkinds']
      rfl
    · rw [hbeside'.arena, σ.tree_copy hdone.ordered hstands.1, hstands.2]
  · exact .inr ⟨hdeep, e, s', hrun', he⟩

theorem print_reread_expression_nested :
    let source : Arena := ⟨#[.ident "a", .str "b", .binary .add 0 1, .binary .add 0 2,
      .conditional 0 3 1, .call 4 [0]]⟩
    Expression (source.tree 5) ∧ ((source.tree 5).All fun node => node.isSymbolic = true) ∧
      ∃ tokens, tokenize "(a ? a + (a + \"b\") : \"b\")(a)" = .ok tokens ∧
        ∃ id s, Parser.outermost.expression ⟨.empty, tokens⟩ = .ok id s ∧
          s.rest.map (·.kind) = [.eof] ∧ s.arena.tree id = source.tree 5 := by
  intro source
  have hname : Expression (source.tree 0) := .ident ⟨by decide, by decide⟩
  have htext : Expression (source.tree 1) := .str "b"
  have hexpression : Expression (source.tree 5) :=
    .call (.conditional hname (.binary hname (.binary hname htext)) htext)
      (List.forall_mem_singleton.mpr hname)
  have hsymbolic : (source.tree 5).All fun node => node.isSymbolic = true := by
    have hname : (source.tree 0).All fun node => node.isSymbolic = true := .mk rfl nofun
    have htext : (source.tree 1).All fun node => node.isSymbolic = true := .mk rfl nofun
    have hpair {left right : Tree} (hleft : left.All fun node => node.isSymbolic = true)
        (hright : right.All fun node => node.isSymbolic = true) :
        (Tree.mk (.binary .add left right)).All fun node => node.isSymbolic = true :=
      .mk rfl (List.forall_mem_cons.mpr ⟨hleft, List.forall_mem_singleton.mpr hright⟩)
    exact .mk rfl (List.forall_mem_cons.mpr ⟨.mk rfl (List.forall_mem_cons.mpr ⟨hname,
      List.forall_mem_cons.mpr ⟨hpair hname (hpair hname htext),
        List.forall_mem_singleton.mpr htext⟩⟩), List.forall_mem_singleton.mpr hname⟩)
  obtain ⟨tokens, htokens, hread⟩ := print_reread_expression hexpression hsymbolic .empty
  have hshallow : ¬ maxNesting ≤ (source.tree 5).nesting := by decide +kernel
  have hprint : source.printExpression 5 0 = "(a ? a + (a + \"b\") : \"b\")(a)" := by
    decide +kernel
  exact ⟨hexpression, hsymbolic, tokens, hprint ▸ htokens,
    hread.resolve_right fun hdeep => hshallow hdeep.1⟩

end Script

end RenderFold
