import RenderFold.Script.Parser
import RenderFold.Proofs.Script.Forests

/-!
# Building Trees

The parser adds every node after its parts and hands each index on exactly
once, to the node that becomes its parent. What it does to the arena is thus
a sequence of steps: a node is added over some of the indices that are at
hand, which are used up, and its own index is at hand instead.

`Builds` is the relation between arenas that these steps make up, and
`Makes` says of one parser that it is all that the parser does, whether it
succeeds or fails. The parsers are taken one by one, in the order of the
module that defines them; sequencing two of them chains what is at hand.
Everything that is to be said of the nodes then follows by induction on the
steps.

## Main definitions

* `Arena.Builds`: Nodes are added over indices that are at hand.
* `Parser.Keeps`, `Parser.Still`: A parser that adds no nodes.
* `Parser.Makes`: A parser that builds what it hands on.

## Theorems

* `Builds.trans`, `Builds.frame`: Steps in sequence, and with more at hand.
* `Builds.forest`: Forests that are at hand stay forests.
* `Parser.Makes.bind`: Parsers in sequence.
* `Parser.makes_program`: A whole render function.
-/

namespace RenderFold

namespace Script

namespace Arena

variable {a b c : Arena} {held ids ids' : List Id}

/-- Nodes were added to `arena` one by one. Each was made of indices that were
    at hand and of nothing else, and they are at hand no longer; at first
    those in `held` are. An index may also be given up. -/
inductive Builds (arena : Arena) (held : List Id) : Arena → List Id → Prop where
  | start : Builds arena held arena held
  | give {other : Arena} {ids ids' : List Id} (h : Builds arena held other ids)
      (hsub : ids'.Subperm ids) : Builds arena held other ids'
  | push {other : Arena} {rest : List Id} (node : Node Id)
      (h : Builds arena held other (node.children ++ rest)) :
      Builds arena held (other.push node).2 ((other.push node).1 :: rest)

namespace Builds

theorem trans (hab : Builds a held b ids) (hbc : Builds b ids c ids') : Builds a held c ids' := by
  induction hbc with
  | start => exact hab
  | give _ hsub ih => exact .give ih hsub
  | push node _ ih => exact .push node ih

/-- What is at hand besides stays at hand. -/
theorem frame (h : Builds a held b ids) (others : List Id) :
    Builds a (held ++ others) b (ids ++ others) := by
  induction h with
  | start => exact .start
  | give _ hsub ih => exact .give ih ((List.subperm_append_right others).mpr hsub)
  | push node _ ih =>
      rw [List.append_assoc] at ih
      exact .push node ih

/-- With indices at hand, nothing need be done with them. -/
theorem beside (h : Builds a [] b ids) (held : List Id) : Builds a held b (held ++ ids) :=
  .give (h.frame held) List.perm_append_comm.subperm

theorem nothing (h : Builds a held b ids) : Builds a held b [] := .give h List.nil_subperm

theorem grown (h : Builds a held b ids) : Extends a b := by
  induction h with
  | start => exact .refl a
  | give _ _ ih => exact ih
  | push node _ ih => exact ih.trans (.push _ node)

/-- Forests that are at hand stay forests, with new nodes in them. -/
theorem forest {zone : Set Id} (h : Builds a held b ids) (hheld : Forest zone a held)
    (hzone : ∀ x, a.size ≤ x → x ∈ zone) : Forest zone b ids := by
  induction h with
  | start => exact hheld
  | give _ hsub ih => exact ih.subperm hsub
  | push node h ih => exact ih.push node (hzone _ h.grown.1)

end Builds

end Arena

namespace Parser

open Arena (Builds)

variable {α β : Type}

theorem bind_eq_ok {x : Parse α} {f : α → Parse β} {s s'' : State} {b : β}
    (h : (x >>= f) s = .ok b s'') : ∃ a s', x s = .ok a s' ∧ f a s' = .ok b s'' := by
  change EStateM.bind x f s = .ok b s'' at h
  unfold EStateM.bind at h
  split at h
  · next a s' hx => exact ⟨a, s', hx, h⟩
  · cases h

theorem bind_eq_error {x : Parse α} {f : α → Parse β} {s s'' : State} {e : SyntaxError}
    (h : (x >>= f) s = .error e s'') :
    x s = .error e s'' ∨ ∃ a s', x s = .ok a s' ∧ f a s' = .error e s'' := by
  change EStateM.bind x f s = .error e s'' at h
  unfold EStateM.bind at h
  split at h
  · next a s' hx => exact Or.inr ⟨a, s', hx, h⟩
  · next e' s' hx =>
      cases h
      exact Or.inl hx

/-- A parser that adds no nodes. -/
def Keeps (parser : Parse α) : Prop :=
  ∀ ⦃s : State⦄ ⦃a : α⦄ ⦃s' : State⦄, parser s = .ok a s' → s'.arena = s.arena

/-- A parser that adds no nodes, whether it succeeds or fails. -/
structure Still (parser : Parse α) : Prop where
  ok : Keeps parser
  error : ∀ {s : State} {e : SyntaxError} {s' : State}, parser s = .error e s' → s'.arena = s.arena

/-- All that the parser does to the arena is to build, with `held` at hand. If
    it succeeds, the indices in `parts` are at hand afterwards. -/
structure Makes (held : List Id) (parser : Parse α) (parts : α → List Id) : Prop where
  ok : ∀ {s : State} {a : α} {s' : State}, parser s = .ok a s' →
    Builds s.arena held s'.arena (parts a)
  error : ∀ {s : State} {e : SyntaxError} {s' : State}, parser s = .error e s' →
    Builds s.arena held s'.arena []

namespace Still

theorem pure (a : α) : Still (Pure.pure a : Parse α) := by
  refine ⟨fun s a' s' h => ?_, fun h => ?_⟩
  · cases h
    rfl
  · cases h

theorem bind {x : Parse α} {f : α → Parse β} (hx : Still x) (hf : ∀ a, Still (f a)) :
    Still (x >>= f) := by
  refine ⟨fun s b s'' h => ?_, fun h => ?_⟩
  · obtain ⟨a, s', hxs, hfs⟩ := bind_eq_ok h
    rw [(hf a).ok hfs, hx.ok hxs]
  · rcases bind_eq_error h with hxs | ⟨a, s', hxs, hfs⟩
    · exact hx.error hxs
    · rw [(hf a).error hfs, hx.ok hxs]

theorem fail (fault : Fault) : Still (fail fault : Parse α) := by
  refine ⟨fun s a s' h => ?_, fun h => ?_⟩
  · cases h
  · cases h
    rfl

theorem tokens : Still (get : Parse State) := by
  refine ⟨fun s a s' h => ?_, fun h => ?_⟩
  · cases h
    rfl
  · cases h

/-- Moving on in the tokens adds no nodes. -/
theorem modify {f : State → State} (hf : ∀ s, (f s).arena = s.arena) :
    Still (modify f : Parse Unit) := by
  refine ⟨fun s a s' h => ?_, fun h => ?_⟩
  · cases h
    exact hf s
  · cases h

theorem unexpected (what : String) : Still (unexpected what : Parse α) :=
  bind (bind tokens fun _ => pure _) fun _ => fail _

theorem peek : Still peek := bind tokens fun _ => pure _

theorem remaining : Still remaining := bind tokens fun _ => pure _

theorem advance_arena (s : State) : s.advance.arena = s.arena := by
  unfold State.advance
  split <;> rfl

theorem bump : Still bump := by
  refine ⟨fun s a s' h => ?_, fun h => ?_⟩
  · cases h
    exact advance_arena s
  · cases h

theorem skipSemis : Still skipSemis := modify fun _ => rfl

theorem at? (mark : Punct) : Still (at? mark) := bind peek fun _ => pure _

theorem atKeyword? (name : String) : Still (atKeyword? name) := bind peek fun _ => pure _

theorem eat (mark : Punct) : Still (eat mark) := by
  refine bind (at? mark) fun found => ?_
  split
  · exact bind bump fun _ => pure _
  · exact pure _

theorem expect (mark : Punct) (what : String) : Still (expect mark what) := by
  refine bind (eat mark) fun found => ?_
  split
  · exact pure _
  · exact unexpected what

theorem identifier : Still identifier := by
  refine bind peek fun kind => ?_
  split
  · split
    · exact unexpected _
    · exact bind bump fun _ => pure _
  · exact unexpected _

theorem itemsTo {item : Parse α} (hitem : Still item) (close : Punct) (what : String) :
    ∀ fuel, Still (itemsTo close what item fuel)
  | 0 => pure _
  | fuel + 1 => by
      refine bind (eat close) fun closed => ?_
      split
      · exact pure _
      · refine bind hitem fun first => bind (eat .comma) fun more => ?_
        split
        · exact bind (itemsTo hitem close what fuel) fun _ => pure _
        · exact bind (expect close what) fun _ => pure _

theorem params : Still params := bind remaining fun _ => itemsTo identifier _ _ _

end Still

namespace Makes

variable {held : List Id} {parts : α → List Id} {parts' : β → List Id}

theorem pure {a : α} (h : held = parts a) : Makes held (Pure.pure a : Parse α) parts := by
  refine ⟨fun hs => ?_, fun hs => ?_⟩
  · cases hs
    exact h ▸ .start
  · cases hs

theorem of_pure {a : α} {f : α → Parse β} (h : Makes held (f a) parts') :
    Makes held (Pure.pure a >>= f) parts' := h

theorem bind {x : Parse α} {f : α → Parse β} (hx : Makes held x parts)
    (hf : ∀ a, Makes (parts a) (f a) parts') : Makes held (x >>= f) parts' := by
  refine ⟨fun h => ?_, fun h => ?_⟩
  · obtain ⟨a, s', hxs, hfs⟩ := bind_eq_ok h
    exact (hx.ok hxs).trans ((hf a).ok hfs)
  · rcases bind_eq_error h with hxs | ⟨a, s', hxs, hfs⟩
    · exact hx.error hxs
    · exact (hx.ok hxs).trans ((hf a).error hfs)

theorem map {x : Parse α} (hx : Makes held x parts) (f : α → β)
    (hparts : ∀ a, parts' (f a) = parts a) : Makes held (f <$> x) parts' := by
  have hmap : f <$> x = x >>= fun a => Pure.pure (f a) := rfl
  rw [hmap]
  exact bind hx fun a => pure (hparts a).symm

/-- What a parser does with nothing in hand it also does with something. -/
theorem frame {x : Parse α} (hx : Makes [] x parts) (held : List Id) :
    Makes held x fun a => held ++ parts a :=
  ⟨fun h => (hx.ok h).beside held, fun h => ((hx.error h).beside held).nothing⟩

theorem of_still {x : Parse α} (hx : Still x) (held : List Id) : Makes held x fun _ => held := by
  refine ⟨fun h => ?_, fun h => ?_⟩
  · rw [hx.ok h]
    exact .start
  · rw [hx.error h]
    exact Builds.start.nothing

/-- A step that adds no nodes, and what follows it. -/
theorem keep {x : Parse α} {f : α → Parse β} (hx : Still x)
    (hf : ∀ a, Makes held (f a) parts') : Makes held (x >>= f) parts' :=
  bind (of_still hx held) hf

theorem push (node : Node Id) : Makes node.children (push node) fun id => [id] := by
  refine ⟨fun {s id s'} h => ?_, fun h => ?_⟩
  · cases h
    have hheld : Builds s.arena node.children s.arena (node.children ++ []) := by
      rw [List.append_nil]
      exact .start
    exact .push node hheld
  · cases h

theorem fail (fault : Fault) : Makes held (fail fault : Parse α) parts := by
  refine ⟨fun h => ?_, fun h => ?_⟩
  · cases h
  · cases h
    exact Builds.start.nothing

theorem unexpected (what : String) : Makes held (unexpected what : Parse α) parts :=
  keep .peek fun _ => fail _

end Makes

open Makes (keep)

/-- Trees that a parser's result stands for, for a result that is one. -/
abbrev one : Id → List Id := fun id => [id]

theorem makes_itemsTo {item : Parse α} {parts : α → List Id} (hitem : Makes [] item parts)
    (close : Punct) (what : String) :
    ∀ fuel, Makes [] (itemsTo close what item fuel) fun (found : List α) => found.flatMap parts
  | 0 => .pure rfl
  | fuel + 1 => by
      refine keep (.eat close) fun closed => ?_
      split
      · exact .pure rfl
      · refine .bind hitem fun first => keep (.eat .comma) fun more => ?_
        split
        · refine .bind (.frame (makes_itemsTo hitem close what fuel) _) fun rest => ?_
          exact .pure List.flatMap_cons.symm
        · refine keep (.expect close what) fun _ => ?_
          exact .pure (by simp only [List.flatMap_cons, List.flatMap_nil, List.append_nil])

theorem makes_items {item : Parse α} {parts : α → List Id} (hitem : Makes [] item parts)
    (close : Punct) (what : String) :
    Makes [] (items close what item) fun (found : List α) => found.flatMap parts :=
  keep .remaining fun _ => makes_itemsTo hitem close what _

section Readers

variable {expression unary statement : Parse Id}

theorem makes_property (hexpression : Makes [] expression one) :
    Makes [] (property expression) fun found => [found.2] := by
  refine keep .peek fun kind => ?_
  -- What follows the key is the same for a name and for a text.
  have hrest : ∀ key isName, Makes [] (do
      let _ ← bump
      if ← eat .colon then return (key, ← expression)
      else if isName && !isKeyword key then return (key, ← push (.ident key))
      else unexpected "`:`") fun found => [found.2] := by
    intro key isName
    refine keep .bump fun _ => keep (.eat _) fun colon => ?_
    split
    · exact .bind hexpression fun _ => .pure rfl
    · split
      · exact .bind (.push (.ident key)) fun _ => .pure rfl
      · exact .unexpected _
  split
  · exact keep (.pure _) fun key => hrest key.1 key.2
  · exact keep (.pure _) fun key => hrest key.1 key.2
  · exact keep (.unexpected _) fun key => hrest key.1 key.2

theorem makes_primary (hexpression : Makes [] expression one) :
    Makes [] (primary expression) one := by
  refine keep .peek fun kind => ?_
  -- A literal or a name is a node without parts, whatever it stands for.
  have hleaf : ∀ node : Node Id, node.children = [] →
      Makes [] (do let _ ← bump; push node) one := by
    intro node hnode
    have hpush := Makes.push node
    rw [hnode] at hpush
    exact keep .bump fun _ => hpush
  split
  · exact hleaf _ rfl
  · exact hleaf _ rfl
  · split
    · exact hleaf (.bool true) rfl
    · exact hleaf (.bool false) rfl
    · exact hleaf .null rfl
    · split
      · exact .fail _
      · exact hleaf (.ident _) rfl
  · exact keep .bump fun _ => .bind hexpression fun inner =>
      keep (.expect _ _) fun _ => .pure rfl
  · refine keep .bump fun _ => .bind (makes_items hexpression _ _) fun elements => ?_
    have hflat : elements.flatMap one = elements := by
      simp only [List.flatMap_singleton']
    rw [hflat]
    exact .push (.array elements)
  · refine keep .bump fun _ => .bind (makes_items (makes_property hexpression) _ _) fun fields => ?_
    have hflat : (fields.flatMap fun field => [field.2]) = fields.map (·.2) := by
      rw [List.map_eq_flatMap]
    rw [hflat]
    exact .push (.object fields)
  · exact .unexpected _

theorem makes_suffixes (hexpression : Makes [] expression one) :
    ∀ fuel target, Makes [target] (suffixes expression fuel target) one
  | 0, target => .pure rfl
  | fuel + 1, target => by
      refine keep (.eat _) fun dot => ?_
      split
      · refine keep .bump fun kind => ?_
        split
        · exact .bind (.push (.member target _)) fun _ => makes_suffixes hexpression fuel _
        · exact .unexpected _
      -- The target is held while the position is read, and while the arguments are.
      refine keep (.eat _) fun square => ?_
      split
      · refine .bind (.frame hexpression [target]) fun position => keep (.expect _ _) fun _ => ?_
        exact .bind (.push (.index target position)) fun _ => makes_suffixes hexpression fuel _
      refine keep (.eat _) fun paren => ?_
      split
      · refine .bind (.frame (makes_items hexpression _ _) [target]) fun arguments => ?_
        have hflat : [target] ++ arguments.flatMap one = target :: arguments := by
          simp only [List.flatMap_singleton', List.singleton_append]
        rw [hflat]
        exact .bind (.push (.call target arguments)) fun _ => makes_suffixes hexpression fuel _
      · exact .pure rfl

theorem makes_accessed (hexpression : Makes [] expression one) :
    Makes [] (accessed expression) one :=
  .bind (makes_primary hexpression) fun target => keep .remaining fun _ =>
    makes_suffixes hexpression _ target

theorem makes_unaryWith {argument : Parse Id} (hexpression : Makes [] expression one)
    (hargument : Makes [] argument one) : Makes [] (unaryWith expression argument) one := by
  refine keep (.eat _) fun bang => ?_
  split
  · exact .bind hargument fun id => .push (.not id)
  · exact makes_accessed hexpression

theorem makes_chainRest {op? : TokenKind → Option BinaryOp} {operand : Parse Id}
    (hoperand : Makes [] operand one) :
    ∀ fuel left, Makes [left] (chainRest op? operand fuel left) one
  | 0, left => .pure rfl
  | fuel + 1, left => by
      refine keep .peek fun kind => ?_
      split
      · exact .pure rfl
      · next op _ =>
          refine keep .bump fun _ => .bind (.frame hoperand [left]) fun right => ?_
          exact .bind (.push (.binary op left right)) fun _ => makes_chainRest hoperand fuel _

theorem makes_chain {op? : TokenKind → Option BinaryOp} {operand : Parse Id}
    (hoperand : Makes [] operand one) : Makes [] (chain op? operand) one :=
  .bind hoperand fun left => keep .remaining fun _ => makes_chainRest hoperand _ left

theorem makes_binary (hunary : Makes [] unary one) : Makes [] (binary unary) one :=
  makes_chain (makes_chain (makes_chain (makes_chain hunary)))

theorem makes_arrow (hexpression : Makes [] expression one) :
    Makes [] (arrow expression) one := by
  have hrest : ∀ names : List String, Makes [] (do
      expect .arrow "`=>`"
      if ← at? .leftBrace then fail .arrowBlock
      push (.arrow names (← expression))) one := by
    intro names
    refine keep (.expect _ _) fun _ => keep (.at? _) fun brace => ?_
    split
    · exact keep (.fail _) fun _ => .bind hexpression fun body => .push (.arrow names body)
    · exact .bind hexpression fun body => .push (.arrow names body)
  refine keep (.eat _) fun paren => ?_
  split
  · exact keep .params hrest
  · exact keep .identifier fun name => hrest [name]

theorem makes_conditional (hexpression : Makes [] expression one) (hunary : Makes [] unary one) :
    Makes [] (conditional expression unary) one := by
  refine .bind (makes_binary hunary) fun test => keep (.eat _) fun question => ?_
  split
  · refine .bind (.frame hexpression [test]) fun consequent => keep (.expect _ _) fun _ => ?_
    exact .bind (.frame hexpression [test, consequent]) fun alternate =>
      .push (.conditional test consequent alternate)
  · exact .pure rfl

theorem makes_expressionWith (hexpression : Makes [] expression one)
    (hunary : Makes [] unary one) : Makes [] (expressionWith expression unary) one := by
  refine keep .tokens fun s => ?_
  split
  · exact makes_arrow hexpression
  · exact makes_conditional hexpression hunary

theorem makes_blockRest (hstatement : Makes [] statement one) :
    ∀ fuel, Makes [] (blockRest statement fuel) id
  | 0 => .pure rfl
  | fuel + 1 => by
      refine keep .skipSemis fun _ => keep (.eat _) fun brace => ?_
      split
      · exact .pure rfl
      refine keep .peek fun kind => ?_
      have hrest : Makes [] (do
          return (← statement) :: (← blockRest statement fuel)) id :=
        .bind hstatement fun first => .bind (.frame (makes_blockRest hstatement fuel) [first])
          fun rest => .pure rfl
      split
      · exact keep (.unexpected _) fun _ => hrest
      · exact hrest

theorem makes_block (hstatement : Makes [] statement one) : Makes [] (block statement) id :=
  keep (.expect _ _) fun _ => keep .remaining fun _ => makes_blockRest hstatement _

theorem makes_body (hstatement : Makes [] statement one) : Makes [] (body statement) id := by
  refine keep (.at? _) fun brace => ?_
  split
  · exact makes_block hstatement
  · exact .bind hstatement fun first => .pure rfl

theorem makes_declaration (binding : Binding) (hexpression : Makes [] expression one) :
    Makes [] (declaration binding expression) one :=
  keep .bump fun _ => keep .identifier fun name => keep (.expect _ _) fun _ =>
    .bind hexpression fun init => keep (.eat _) fun _ => .push (.declare binding name init)

theorem makes_statementWith (hstatement : Makes [] statement one)
    (hexpression : Makes [] expression one) :
    Makes [] (statementWith statement expression) one := by
  refine keep (.atKeyword? _) fun isReturn => ?_
  split
  · -- A return holds the trees of its argument, which are none if it is bare.
    have hrest : ∀ isBare : Bool, Makes [] (do
        let argument ← if isBare then pure none else some <$> expression
        let _ ← eat .semi
        push (.ret argument)) one := by
      intro isBare
      cases isBare with
      | true => exact .of_pure (keep (.eat _) fun _ => .push (.ret none))
      | false =>
          exact .bind (.map hexpression some fun _ => rfl) fun argument =>
            keep (.eat _) fun _ => .push (.ret argument)
    exact keep .bump fun _ => keep (.at? _) fun semi => keep (.at? _) fun brace =>
      keep .peek fun kind => hrest _
  refine keep (.atKeyword? _) fun isConst => ?_
  split
  · exact makes_declaration .const hexpression
  refine keep (.atKeyword? _) fun isLet => ?_
  split
  · exact makes_declaration .let hexpression
  refine keep (.atKeyword? _) fun isIf => ?_
  split
  · refine keep .bump fun _ => keep (.expect _ _) fun _ => .bind hexpression fun test =>
      keep (.expect _ _) fun _ => .bind (.frame (makes_body hstatement) [test]) fun consequent =>
      keep (.atKeyword? _) fun isElse => ?_
    split
    · refine keep .bump fun _ =>
        .bind (.frame (makes_body hstatement) ([test] ++ consequent)) fun alternate => ?_
      exact .push (.branch test consequent (some alternate))
    · have hpush := Makes.push (.branch test consequent none)
      simp only [Node.children, Option.getD_none, List.append_nil] at hpush
      exact hpush
  refine keep (.atKeyword? _) fun isFunction => ?_
  split
  · exact .fail _
  · exact .bind hexpression fun argument => keep (.eat _) fun _ => .push (.discard argument)

end Readers

/-- At every level the three parsers read trees. -/
theorem makes_levels : ∀ depth, Makes [] (levels depth).expression one ∧
    Makes [] (levels depth).unary one ∧ Makes [] (levels depth).statement one
  | 0 => ⟨.fail _, makes_unaryWith (.fail _) (.fail _), .fail _⟩
  -- One level reads its parts by the parsers of the level below.
  | depth + 1 => by
      obtain ⟨hexpression, hunary, hstatement⟩ := makes_levels depth
      have houter := makes_expressionWith hexpression hunary
      exact ⟨houter, makes_unaryWith houter hunary, makes_statementWith hstatement hexpression⟩

theorem makes_outermost : Makes [] outermost.statement one := (makes_levels maxNesting).2.2

theorem makes_function : Makes [] function one := by
  have hrest : ∀ name : Option String, Makes [] (do
      expect .leftParen "`(`"
      let names ← params
      push (.function name names (← block outermost.statement))) one := by
    intro name
    exact keep (.expect _ _) fun _ => keep .params fun names =>
      .bind (makes_block makes_outermost) fun body => .push (.function name names body)
  refine keep .bump fun _ => keep .peek fun kind => ?_
  split
  · exact .bind (.map (.of_still .identifier []) some fun _ => rfl) hrest
  · exact keep (.pure _) hrest

theorem makes_statements : ∀ fuel, Makes [] (statements fuel) id
  | 0 => .pure rfl
  | fuel + 1 => by
      refine keep .skipSemis fun _ => keep .peek fun kind => ?_
      split
      · exact .pure rfl
      · exact .bind makes_outermost fun first =>
          .bind (.frame (makes_statements fuel) [first]) fun rest => .pure rfl

theorem makes_program : Makes [] program one := by
  have hrest : ∀ root : Id, Makes [root] (do
      unless (← peek) = .eof do unexpected "end of input"
      return root) one := by
    intro root
    refine keep .peek fun kind => ?_
    split
    · exact .pure rfl
    · exact keep (.unexpected _) fun _ => .pure rfl
  refine keep (.atKeyword? _) fun isFunction => ?_
  split
  · exact .bind makes_function fun root => keep (.eat _) fun _ => .of_pure (hrest root)
  · exact keep .remaining fun _ => .bind (makes_statements _) fun body =>
      .bind (.push (.function none [] body)) hrest

end Parser

end Script

end RenderFold
