import RenderFold.Proofs.Script.Edited
import RenderFold.Proofs.Script.Forests

/-!
# Rewritten Expressions

An expression that is rewritten gets a new node, and what stands below the node
was there before or was added for it. So its tree can be read off: the trees of
what was there before are what they were, as the expression is not below
itself, and the trees of what was added are known.

A text that is put between two literals is joined to the first of them and then
to the second. Either may be taken into the literal at that end of the text.

## Main definitions

* `Tree.ofCall`: A call of a helper.
* `Tree.IsWrapped`: A text between two literals.

## Theorems

* `Arena.tree_replace`: A node that is rewritten.
* `Arena.tree_becomeCall`, `Arena.tree_becomeLiteral`,
  `Arena.tree_becomeFragment`, `Arena.tree_becomeText_wrapped`: The edits.
* `Forest.tree_join_beside`: What is beside a concatenation.
-/

namespace RenderFold

namespace Script

/-- A call of a helper. -/
def Tree.ofCall (helper : Helper) (arguments : List Tree) : Tree :=
  .mk (.call (.mk (.ident helper.name)) arguments)

/-- A text between two literals, put together step by step. -/
def Tree.IsWrapped (opening : String) (text : Tree) (closing : String) (whole : Tree) : Prop :=
  ∃ start, Arena.Joined (.mk (.str opening)) text start ∧
    Arena.Joined start (.mk (.str closing)) whole

namespace Arena

variable {arena : Arena} {zone : Set Id} {id left right x : Id} {ids arguments : List Id}

/-- No path leaves the indices below some indices. -/
theorem Spans.isClosed {span : List Id} (h : Spans arena ids span) :
    Closed arena {x | x ∈ span} :=
  fun x hx => ⟨h.lt_size x hx, fun _ hpart => h.closed hx hpart⟩

/-- A root does not stand below itself, nor in the trees beside it. -/
theorem Forest.without_root (h : Forest zone arena (id :: ids)) :
    Forest {x | x ≠ id} arena ((arena.get id).children ++ ids) := by
  obtain ⟨span, hspan, hnodup, -⟩ := h
  cases hspan with
  | cons hlt hbelow hrest =>
      obtain ⟨hid, hnodup⟩ := List.nodup_cons.mp hnodup
      exact ⟨_, hbelow.append hrest, hnodup, fun x hx heq => hid (heq ▸ hx)⟩

/-- The tree of a node that is rewritten into one that stands over other
    trees. -/
theorem tree_replace (node : Node Id) (hlt : id < arena.size)
    (h : Forest {x | x ≠ id} arena node.children) :
    (arena.replace id node).tree id = .mk (node.map arena.tree) := by
  have hkeep : ∀ x ∈ {x | x ≠ id}, x < arena.size → (arena.replace id node).get x = arena.get x :=
    fun x hx _ => get_replace_of_ne arena node hx
  have hparts : node.map (arena.replace id node).tree = node.map arena.tree :=
    Node.map_congr fun part hpart =>
      h.tree_congr (Nat.le_of_eq (size_replace arena id node).symm) hkeep hpart
  obtain ⟨span, hspan, hnodup, hzone⟩ := h
  have hnode : (arena.replace id node).get id = node := get_replace_self hlt node
  have hbelow : Spans (arena.replace id node) ((arena.replace id node).get id).children span := by
    rw [hnode]
    exact hspan.transport (Nat.le_of_eq (size_replace arena id node).symm) fun x hx =>
      hkeep x (hzone x hx) (hspan.lt_size x hx)
  have htree : Forest Set.univ (arena.replace id node) [id] := by
    refine ⟨id :: span ++ [], .cons ?_ hbelow .nil, ?_, fun _ _ => trivial⟩
    · rwa [size_replace]
    · rw [List.append_nil]
      exact List.nodup_cons.mpr ⟨fun hmem => hzone id hmem rfl, hnodup⟩
  rw [(htree.isTree List.mem_cons_self).tree_eq, hnode, hparts]

/-- The tree of an expression that is rewritten into a call. -/
theorem tree_becomeCall (hlt : id < arena.size) (h : Forest {x | x ≠ id} arena arguments)
    (helper : Helper) :
    (arena.becomeCall id helper arguments).tree id = .ofCall helper (arguments.map arena.tree) := by
  have hcallee : (arena.push (.ident helper.name)).2.tree (arena.push (.ident helper.name)).1 =
      .mk (.ident helper.name) := Forest.tree_push (.ident helper.name) (.nil _ _)
  have hforest := h.pushLeaf (.ident helper.name) (Nat.ne_of_gt hlt) rfl
  have harguments : arguments.map (arena.push (.ident helper.name)).2.tree =
      arguments.map arena.tree :=
    List.map_congr_left fun argument hmem => h.tree_extends (.push arena _) hmem
  have hlt' : id < (arena.push (.ident helper.name)).2.size := by
    rw [size_push]
    exact Nat.lt_succ_of_lt hlt
  have htree := tree_replace (.call _ arguments) hlt' hforest
  rw [Node.map, hcallee, harguments] at htree
  exact htree

/-- The tree of an expression that is rewritten into a literal. -/
theorem tree_becomeLiteral (hlt : id < arena.size) (text : String) :
    (arena.becomeLiteral id text).tree id = .ofCall .markup [.mk (.str text)] := by
  have hlt' : id < (arena.push (.str text)).2.size := by
    rw [size_push]
    exact Nat.lt_succ_of_lt hlt
  have htext := (Forest.nil {x | x ≠ id} arena).pushLeaf (.str text) (Nat.ne_of_gt hlt) rfl
  have htree := tree_becomeCall hlt' htext .markup
  rw [List.map_singleton, Forest.tree_push (.str text) (.nil _ _)] at htree
  exact htree

/-- The tree of a new node stays when more are added. -/
theorem tree_push_extends (node : Node Id) (h : Forest Set.univ arena node.children) {b : Arena}
    (hext : Extends (arena.push node).2 b) :
    b.tree (arena.push node).1 = .mk (node.map arena.tree) := by
  have hnew : Forest Set.univ (arena.push node).2 [(arena.push node).1] :=
    Forest.push node (by rwa [List.append_nil]) trivial
  rw [hnew.tree_extends hext List.mem_cons_self, Forest.tree_push node h]

/-- The tree of a new literal. -/
theorem tree_pushLiteral (arena : Arena) (text : String) :
    (arena.pushLiteral text).2.tree (arena.pushLiteral text).1 =
      .ofCall .markup [.mk (.str text)] := by
  have htext := (Forest.nil Set.univ arena).pushLeaf (.str text) trivial rfl
  have hcall := htext.pushLeaf (.ident Helper.markup.name) trivial rfl
  have hargument := tree_push_extends (.str text) (.nil _ arena)
    (.push _ (.ident Helper.markup.name))
  have htree := Forest.tree_push (.call _ [_]) hcall
  rw [Node.map, List.map_singleton, hargument,
    Forest.tree_push (.ident Helper.markup.name) (.nil _ _)] at htree
  exact htree

/-- Joining two expressions leaves the trees beside them as they are. -/
theorem Forest.tree_join_beside (h : Forest zone arena (left :: right :: ids)) (hid : id ∈ ids) :
    (arena.join left right).2.tree id = arena.tree id := by
  have hpush (node : Node Id) : (arena.push node).2.tree id = arena.tree id :=
    h.tree_extends (.push arena node) (List.mem_cons_of_mem _ (List.mem_cons_of_mem _ hid))
  obtain ⟨span, hspan, hnodup, -⟩ := h
  obtain ⟨front, rest, hfront, hrest, rfl⟩ := hspan.of_cons
  obtain ⟨middle, back, hmiddle, hback, rfl⟩ := hrest.of_cons
  obtain ⟨hnodupF, hnodup, hdisjoint⟩ := List.nodup_append.mp hnodup
  obtain ⟨hnodupM, hnodupB, hdisjoint'⟩ := List.nodup_append.mp hnodup
  -- A literal that is changed is in the tree of one of the two.
  have hmap {target : Id} (change : String → String) (htarget : target ∉ back) :
      (arena.mapLiteral target change).tree id = arena.tree id := by
    have hapart : Forest {x | x ≠ target} arena ids :=
      ⟨back, hback, hnodupB, fun x hx heq => htarget (heq ▸ hx)⟩
    exact hapart.tree_congr (mapLiteral_sameParts arena target change).1
      (fun x hx _ => get_mapLiteral_of_ne arena change hx) hid
  unfold join
  split
  · exact hpush _
  · split
    · next target htarget =>
        have hmem : target ∈ {x | x ∈ middle} :=
          endLiteral?_mem hmiddle.isClosed (hmiddle.subset List.mem_cons_self) htarget
        exact hmap _ fun hin => hdisjoint' target hmem target hin rfl
    · exact hpush _
  · split
    · next target htarget =>
        have hmem : target ∈ {x | x ∈ front} :=
          endLiteral?_mem hfront.isClosed (hfront.subset List.mem_cons_self) htarget
        exact hmap _ fun hin => hdisjoint target hmem target (List.mem_append_right _ hin) rfl
    · exact hpush _
  · exact hpush _

/-- The tree of an expression that is rewritten into markup around children. -/
theorem tree_becomeFragment (hlt : id < arena.size) {children : List Id}
    (h : Forest {x | x ≠ id} arena children) (opening closing : String) :
    (arena.becomeFragment id opening closing children).tree id =
      .ofCall .markup [.mk (.str opening), .mk (.str closing),
        .mk (.array (children.map arena.tree))] := by
  have h₁ := Extends.push arena (.str opening)
  have h₂ := Extends.push (arena.push (.str opening)).2 (.str closing)
  have h₃ := Extends.push ((arena.push (.str opening)).2.push (.str closing)).2 (.array children)
  have hle₂ := h₁.1.trans h₂.1
  have hopening := h.pushLeaf (.str opening) (Nat.ne_of_gt hlt) rfl
  have hclosing := hopening.pushLeaf (.str closing) (Nat.ne_of_gt (hlt.trans_le h₁.1)) rfl
  have hlist := Forest.push (.array children)
    (hclosing.perm (List.perm_append_comm : ([_, _] ++ children).Perm _))
    (Nat.ne_of_gt (hlt.trans_le hle₂))
  have htree := tree_becomeCall (hlt.trans_le (hle₂.trans h₃.1))
    (hlist.perm (List.reverse_perm [_, _, _])) .markup
  have hchildren : children.map ((arena.push (.str opening)).2.push (.str closing)).2.tree =
      children.map arena.tree :=
    List.map_congr_left fun x hx => h.tree_extends (h₁.trans h₂) hx
  have hforest := (SameParts.of_extends (h₁.trans h₂)).forest (h.mono fun _ _ => trivial)
  simp only [List.map_cons, List.map_nil,
    tree_push_extends (.str opening) (.nil _ arena) (h₂.trans h₃),
    tree_push_extends (.str closing) (.nil _ _) h₃,
    Forest.tree_push (.array children) hforest, Node.map, hchildren] at htree
  exact htree

/-- The tree of an expression that is rewritten into a text between two
    literals. -/
theorem tree_becomeText_wrapped (hlt : id < arena.size) {argument : Id}
    (h : Forest {x | x ≠ id} arena [argument]) (opening closing : String) :
    ∃ whole, Tree.IsWrapped opening (arena.tree argument) closing whole ∧
      (let (opening, arena) := arena.push (.str opening)
       let (closing, arena) := arena.push (.str closing)
       let (start, arena) := arena.join opening argument
       let (whole, arena) := arena.join start closing
       arena.becomeText id whole).tree id = .ofCall .markup [whole] := by
  dsimp only
  have h₁ := Extends.push arena (.str opening)
  have h₂ := Extends.push (arena.push (.str opening)).2 (.str closing)
  have hlt₂ := hlt.trans_le (h₁.1.trans h₂.1)
  have hopening := h.pushLeaf (.str opening) (Nat.ne_of_gt hlt) rfl
  have hclosing := (hopening.pushLeaf (.str closing) (Nat.ne_of_gt (hlt.trans_le h₁.1)) rfl).perm
    (List.perm_append_comm : ([_] ++ [_, _]).Perm _)
  have hsame := join_sameParts ((arena.push (.str opening)).2.push (.str closing)).2
    (arena.push (.str opening)).1 argument
  have hlt₃ := hlt₂.trans_le hsame.1
  -- The text is joined to the literal before it, and then to the one after it.
  have hstart := join_forest hclosing (Nat.ne_of_gt hlt₂)
  have hwhole := join_forest hstart (Nat.ne_of_gt hlt₃)
  have hfirst := Forest.tree_join
    ((hclosing.subperm (List.sublist_append_left [_, _] [_]).subperm).mono fun _ _ => trivial)
  have hsecond := Forest.tree_join (hstart.mono fun _ _ => trivial)
  rw [hclosing.tree_join_beside List.mem_cons_self,
    Forest.tree_push (.str closing) (.nil _ _)] at hsecond
  rw [tree_push_extends (.str opening) (.nil _ arena) h₂,
    h.tree_extends (h₁.trans h₂) List.mem_cons_self] at hfirst
  refine ⟨_, ⟨_, hfirst, hsecond⟩, ?_⟩
  exact tree_becomeCall (hlt₃.trans_le (join_sameParts ..).1) hwhole .markup

end Arena

end Script

end RenderFold
