import RenderFold.Proofs.Script.Ordered
import RenderFold.Proofs.Script.ReadTrees
import RenderFold.Proofs.Script.Grammar

/-!
# What Is Read Is in the Grammar

A source text that is accepted is read as a tree of the grammar. The lexer hands
on identifiers and numbers only as they can be written, and the parser puts an
expression wherever the grammar asks for one. `Yields` says of one parser that
what it reads is so; as in the proof that reading gives trees, the parsers are
taken one by one in the order of the module that defines them.

## Main definitions

* `TokenKind.Formed`: A token that some text is read as.
* `Parser.Yields`: What a parser reads, if it succeeds.

## Theorems

* `Lexer.tokensFrom_formed`: The tokens of a text are formed.
* `Parser.Yields.bind`: Parsers in sequence.
* `parseFunction_function`: A render function that is read is in the grammar.
-/

namespace RenderFold

namespace Script

open Printer (isIdentifier)

/-- A token that some text is read as. -/
def TokenKind.Formed : TokenKind → Prop
  | .ident name => isIdentifier name = true
  | .num value => ∃ n k, value = Float.ofScientific n true k
  | .str _ | .punct _ | .eof => True

namespace Lexer

variable {start offset : Nat} {quote c : Char} {out text rest : List Char} {read : Read TokenKind}

theorem readQuoted_formed (h : readQuoted start quote out offset text = .ok read) :
    read.value.Formed := by
  fun_induction readQuoted start quote out offset text <;> grind [TokenKind.Formed]

theorem readTemplate_formed (h : readTemplate start out offset text = .ok read) :
    read.value.Formed := by
  fun_induction readTemplate start out offset text <;> grind [TokenKind.Formed]

theorem readNumber_formed (h : readNumber start text = .ok read) : read.value.Formed := by
  unfold readNumber at h
  dsimp only at h
  split at h
  · next value hvalue =>
      cases h
      unfold numberValue? at hvalue
      dsimp only at hvalue
      split at hvalue
      · cases hvalue
      · cases hvalue
        exact ⟨_, _, rfl⟩
  · cases h

theorem readIdent_formed (hstart : isIdentStart c = true) :
    (readIdent start (c :: rest)).value.Formed := by
  have hpart : isIdentPart c = true := by
    unfold isIdentPart
    rw [hstart, Bool.true_or]
  change isIdentifier (String.ofList ((c :: rest).takeWhile isIdentPart)) = true
  unfold isIdentifier
  rw [List.takeWhile_cons_of_pos hpart, String.toList_ofList]
  exact Bool.and_eq_true_iff.mpr ⟨hstart, List.all_eq_true.mpr fun _ => List.mem_takeWhile_imp⟩

theorem readPunct_formed (h : readPunct start c rest = .ok read) : read.value.Formed := by
  unfold readPunct at h
  split at h <;> cases h <;> trivial

theorem readToken_formed (h : readToken start c rest = .ok read) : read.value.Formed := by
  unfold readToken at h
  split at h
  · exact readQuoted_formed h
  split at h
  · exact readTemplate_formed h
  split at h
  · exact readNumber_formed h
  split at h
  · next hstart =>
      cases h
      exact readIdent_formed hstart
  · exact readPunct_formed h

/-- The tokens of a text are formed. -/
theorem tokensFrom_formed {tokens : List Token} (h : tokensFrom offset text = .ok tokens) :
    ∀ token ∈ tokens, token.kind.Formed := by
  fun_induction tokensFrom offset text generalizing tokens with
  | case2 =>
      cases h
      exact List.forall_mem_singleton.mpr trivial
  | case5 _ _ _ _ _ _ _ _ hread _ hlater ih =>
      cases h
      exact List.forall_mem_cons.mpr ⟨readToken_formed hread, ih hlater⟩
  | _ => cases h

end Lexer

namespace Parser

open Arena (Extends Ordered Stands)

variable {α β : Type} {s s' : State}

/-- The arena is in order and the tokens ahead are formed. -/
structure State.Fine (s : State) : Prop where
  ordered : s.arena.Ordered
  formed : ∀ token ∈ s.rest, token.kind.Formed

namespace State.Fine

theorem kind (h : s.Fine) : s.kind.Formed := by
  have hformed := h.formed
  unfold State.kind
  cases hrest : s.rest with
  | nil => trivial
  | cons token rest => exact hformed token (hrest ▸ List.mem_cons_self)

theorem advance (h : s.Fine) : s.advance.Fine := by
  have hformed := h.formed
  unfold State.advance
  split
  · next token next rest hrest =>
      exact ⟨h.ordered, fun other hother => hformed other (hrest ▸ List.mem_cons_of_mem _ hother)⟩
  · exact h

end State.Fine

/-- Something holds of the tree below an index. -/
def Holds (p : Tree → Prop) (arena : Arena) (id : Id) : Prop := id < arena.size ∧ p (arena.tree id)

theorem Holds.mono {p : Tree → Prop} {a b : Arena} {id : Id} (h : Holds p a id)
    (hext : Extends a b) (hb : b.Ordered) : Holds p b id :=
  ⟨Nat.lt_of_lt_of_le h.1 hext.1, (hb.tree_extends hext h.1).symm ▸ h.2⟩

/-- If the parser succeeds, `result` holds of what it reads. -/
def Yields (parser : Parse α) (s : State) (result : Arena → α → Prop) : Prop :=
  ∀ ⦃a s'⦄, parser s = .ok a s' → s'.Fine ∧ Extends s.arena s'.arena ∧ result s'.arena a

namespace Yields

variable {result : Arena → α → Prop} {result' : Arena → β → Prop}

theorem pure {a : α} (h : s.Fine) (ha : result s.arena a) :
    Yields (Pure.pure a : Parse α) s result := by
  rintro _ _ hrun
  cases hrun
  exact ⟨h, Extends.refl _, ha⟩

/-- One parser after another. -/
theorem bind {x : Parse α} {f : α → Parse β} (hx : Yields x s result)
    (hf : ∀ a s', s'.Fine → Extends s.arena s'.arena → result s'.arena a →
      Yields (f a) s' result') : Yields (x >>= f) s result' := by
  intro b s'' hrun
  obtain ⟨a, s', hrun, hrun'⟩ := bind_eq_ok hrun
  obtain ⟨hfine, hext, ha⟩ := hx hrun
  obtain ⟨hfine', hext', hb⟩ := hf a s' hfine hext ha hrun'
  exact ⟨hfine', hext.trans hext', hb⟩

/-- A result that is handed on in another form. -/
theorem map {x : Parse α} (hx : Yields x s result) (f : α → β) :
    Yields (f <$> x) s fun arena b => ∃ a, f a = b ∧ result arena a := by
  intro b s' hrun
  change EStateM.map f x s = .ok b s' at hrun
  unfold EStateM.map at hrun
  split at hrun
  · next a s'' hx' =>
      cases hrun
      obtain ⟨hfine, hext, ha⟩ := hx hx'
      exact ⟨hfine, hext, a, rfl, ha⟩
  · cases hrun

theorem fail (fault : Fault) : Yields (fail fault : Parse α) s result := by
  intro a s' hrun
  cases hrun

theorem unexpected (what : String) : Yields (unexpected what : Parse α) s result := by
  intro a s' hrun
  cases hrun

theorem peek (h : s.Fine) : Yields peek s fun _ kind => kind.Formed := by
  rintro _ _ hrun
  cases hrun
  exact ⟨h, Extends.refl _, h.kind⟩

theorem bump (h : s.Fine) : Yields bump s fun _ kind => kind.Formed := by
  rintro _ _ hrun
  cases hrun
  exact ⟨h.advance, by rw [Still.bump.ok rfl]; exact Extends.refl _, h.kind⟩

/-- A parser that neither takes a token nor adds a node. -/
theorem look {x : Parse α} (h : s.Fine) (hx : ∀ {a s'}, x s = .ok a s' → s' = s) :
    Yields x s fun _ _ => True := by
  intro a s' hrun
  cases hx hrun
  exact ⟨h, Extends.refl _, trivial⟩

theorem at? (h : s.Fine) (mark : Punct) : Yields (at? mark) s fun _ _ => True :=
  look h fun hrun => by cases hrun; rfl

theorem atKeyword? (h : s.Fine) (name : String) : Yields (atKeyword? name) s fun _ _ => True :=
  look h fun hrun => by cases hrun; rfl

theorem remaining (h : s.Fine) : Yields remaining s fun _ _ => True :=
  look h fun hrun => by cases hrun; rfl

theorem tokens (h : s.Fine) : Yields (get : Parse State) s fun _ _ => True :=
  look h fun hrun => by cases hrun; rfl

theorem skipSemis (h : s.Fine) : Yields skipSemis s fun _ _ => True := by
  rintro _ _ hrun
  cases hrun
  exact ⟨⟨h.ordered, fun token htoken => h.formed token (List.dropWhile_sublist _ |>.mem htoken)⟩,
    Extends.refl _, trivial⟩

theorem eat (h : s.Fine) (mark : Punct) : Yields (eat mark) s fun _ _ => True := by
  refine .bind (.at? h mark) fun found s' h' _ _ => ?_
  split
  · exact .bind (.bump h') fun _ _ h'' _ _ => .pure h'' trivial
  · exact .pure h' trivial

theorem expect (h : s.Fine) (mark : Punct) (what : String) :
    Yields (expect mark what) s fun _ _ => True := by
  refine .bind (.eat h mark) fun found s' h' _ _ => ?_
  split
  · exact .pure h' trivial
  · exact .unexpected _

theorem identifier (h : s.Fine) : Yields identifier s fun _ name => Name name := by
  refine .bind (.peek h) fun kind s' h' _ hkind => ?_
  split
  · split
    · exact .unexpected _
    · next hkeyword =>
        exact .bind (.bump h') fun _ _ h'' _ _ =>
          .pure h'' ⟨hkind, Bool.eq_false_of_not_eq_true hkeyword⟩
  · exact .unexpected _

/-- A node over parts that were read before. -/
theorem push {p : Tree → Prop} {shape : Node Id} (h : s.Fine)
    (hparts : ∀ part ∈ shape.children, part < s.arena.size)
    (hnode : p (.mk (shape.map s.arena.tree))) :
    Yields (push shape) s fun arena id => Holds p arena id := by
  rintro _ _ hrun
  cases hrun
  obtain ⟨hlt, htree⟩ := Stands.push h.ordered hparts
  exact ⟨⟨h.ordered.push hparts, h.formed⟩, Extends.push _ shape, hlt, htree.symm ▸ hnode⟩

end Yields

/-- What the parser reads stands for a tree with a property. -/
def Brings (p : Tree → Prop) (parser : Parse Id) : Prop :=
  ∀ ⦃s⦄, s.Fine → Yields parser s fun arena id => Holds p arena id

section Items

variable {item : Parse α} {result : Arena → α → Prop}

theorem yields_itemsTo (hitem : ∀ ⦃s⦄, s.Fine → Yields item s result)
    (hmono : ∀ {x y : Arena} {a}, Extends x y → y.Ordered → result x a → result y a)
    (close : Punct) (what : String) : ∀ fuel {s}, s.Fine →
      Yields (itemsTo close what item fuel) s fun arena found => ∀ a ∈ found, result arena a
  | 0, _, hs => .pure hs fun _ h => absurd h List.not_mem_nil
  | fuel + 1, _, hs => by
      refine .bind (.eat hs close) fun closed s₁ hs₁ _ _ => ?_
      split
      · exact .pure hs₁ fun _ h => absurd h List.not_mem_nil
      refine .bind (hitem hs₁) fun first s₂ hs₂ _ hfirst => ?_
      refine .bind (.eat hs₂ .comma) fun more s₃ hs₃ hext₃ _ => ?_
      have hfirst₃ := hmono hext₃ hs₃.ordered hfirst
      split
      · refine .bind (yields_itemsTo hitem hmono close what fuel hs₃) fun rest s₄ hs₄ hext₄ hrest => ?_
        exact .pure hs₄ (List.forall_mem_cons.mpr ⟨hmono hext₄ hs₄.ordered hfirst₃, hrest⟩)
      · refine .bind (.expect hs₃ close what) fun _ s₄ hs₄ hext₄ _ => ?_
        exact .pure hs₄ (List.forall_mem_singleton.mpr (hmono hext₄ hs₄.ordered hfirst₃))

theorem yields_items (hitem : ∀ ⦃s⦄, s.Fine → Yields item s result)
    (hmono : ∀ {x y : Arena} {a}, Extends x y → y.Ordered → result x a → result y a)
    (close : Punct) (what : String) (hs : s.Fine) :
    Yields (items close what item) s fun arena found => ∀ a ∈ found, result arena a :=
  .bind (.remaining hs) fun _ _ hs₁ _ _ => yields_itemsTo hitem hmono close what _ hs₁

theorem yields_params (hs : s.Fine) : Yields params s fun _ names => ∀ name ∈ names, Name name :=
  yields_items (fun _ => .identifier) (fun _ _ h => h) _ _ hs

end Items

section Readers

variable {expression unary statement : Parse Id}

theorem yields_trees (hexpression : Brings Expression expression) (close : Punct) (what : String)
    (hs : s.Fine) : Yields (items close what expression) s fun arena ids =>
      ∀ id ∈ ids, Holds Expression arena id :=
  yields_items hexpression (fun hext hy h => h.mono hext hy) close what hs

theorem yields_property (hexpression : Brings Expression expression) (hs : s.Fine) :
    Yields (property expression) s fun arena found => Holds Expression arena found.2 := by
  refine .bind (.peek hs) fun kind s₁ hs₁ _ hkind => ?_
  have hrest (key : String) (isName : Bool) (hkey : isName = true → isIdentifier key = true) :
      Yields (do
        let _ ← bump
        if ← eat .colon then return (key, ← expression)
        else if isName && !isKeyword key then return (key, ← push (.ident key))
        else unexpected "`:`") s₁ fun arena found => Holds Expression arena found.2 := by
    refine .bind (.bump hs₁) fun _ s₂ hs₂ _ _ => .bind (.eat hs₂ _) fun colon s₃ hs₃ _ _ => ?_
    split
    · exact .bind (hexpression hs₃) fun id s₄ hs₄ _ hid => .pure hs₄ hid
    split
    · next hname =>
        rw [Bool.and_eq_true, Bool.not_eq_true'] at hname
        refine .bind (.push hs₃ (fun _ h => absurd h List.not_mem_nil)
          (Expression.ident ⟨hkey hname.1, hname.2⟩)) fun id s₄ hs₄ _ hid => .pure hs₄ hid
    · exact .unexpected _
  split
  · exact hrest _ true fun _ => hkind
  · exact hrest _ false Bool.noConfusion
  · intro a s' hrun
    cases hrun

theorem primary_brings (hexpression : Brings Expression expression) :
    Brings Expression (primary expression) := by
  intro s hs
  refine .bind (.peek hs) fun kind s₁ hs₁ _ hkind => ?_
  -- A literal or a name is a node without parts, whatever it stands for.
  have hleaf (node : Node Id) (hnode : node.children = [])
      (hexpression : ∀ arena : Arena, Expression (.mk (node.map arena.tree))) :
      Yields (do let _ ← bump; push node) s₁ fun arena id => Holds Expression arena id := by
    refine .bind (.bump hs₁) fun _ s₂ hs₂ _ _ => .push hs₂ (fun part hpart => ?_) (hexpression _)
    rw [hnode] at hpart
    exact absurd hpart List.not_mem_nil
  split
  · exact hleaf (.str _) rfl fun _ => .str _
  · obtain ⟨n, k, rfl⟩ := hkind
    exact hleaf (.num _) rfl fun _ => .num ⟨n, k, rfl⟩
  · split
    · exact hleaf (.bool true) rfl fun _ => .bool true
    · exact hleaf (.bool false) rfl fun _ => .bool false
    · exact hleaf .null rfl fun _ => .null
    · split
      · exact .fail _
      · next hkeyword =>
          exact hleaf (.ident _) rfl fun _ => .ident ⟨hkind, Bool.eq_false_of_not_eq_true hkeyword⟩
  · refine .bind (.bump hs₁) fun _ s₂ hs₂ _ _ => .bind (hexpression hs₂) fun inner s₃ hs₃ _ hinner => ?_
    exact .bind (.expect hs₃ _ _) fun _ s₄ hs₄ hext₄ _ => .pure hs₄ (hinner.mono hext₄ hs₄.ordered)
  · refine .bind (.bump hs₁) fun _ s₂ hs₂ _ _ =>
      .bind (yields_trees hexpression _ _ hs₂) fun elements s₃ hs₃ _ helements => ?_
    exact .push hs₃ (fun id hid => (helements id hid).1)
      (Expression.array (List.forall_mem_map.mpr fun id hid => (helements id hid).2))
  · refine .bind (.bump hs₁) fun _ s₂ hs₂ _ _ =>
      .bind (yields_items (fun _ => yields_property hexpression) (fun hext hy h => h.mono hext hy)
        _ _ hs₂) fun fields s₃ hs₃ _ hfields => ?_
    exact .push hs₃ (List.forall_mem_map.mpr fun field hfield => (hfields field hfield).1)
      (Expression.object (List.forall_mem_map.mpr fun field hfield => (hfields field hfield).2))
  · exact .unexpected _

theorem suffixes_brings (hexpression : Brings Expression expression) :
    ∀ fuel {s target}, s.Fine → Holds Expression s.arena target →
      Yields (suffixes expression fuel target) s fun arena id => Holds Expression arena id
  | 0, _, _, hs, htarget => .pure hs htarget
  | fuel + 1, s, target, hs, htarget => by
      refine .bind (.eat hs _) fun dot s₁ hs₁ hext₁ _ => ?_
      have htarget₁ := htarget.mono hext₁ hs₁.ordered
      split
      · refine .bind (.bump hs₁) fun kind s₂ hs₂ hext₂ hkind => ?_
        have htarget₂ := htarget₁.mono hext₂ hs₂.ordered
        split
        · refine .bind (.push hs₂ (List.forall_mem_singleton.mpr htarget₂.1)
            (Expression.member htarget₂.2 hkind)) fun id s₃ hs₃ _ hid => ?_
          exact suffixes_brings hexpression fuel hs₃ hid
        · exact .unexpected _
      refine .bind (.eat hs₁ _) fun square s₂ hs₂ hext₂ _ => ?_
      have htarget₂ := htarget₁.mono hext₂ hs₂.ordered
      split
      · refine .bind (hexpression hs₂) fun position s₃ hs₃ hext₃ hposition => ?_
        refine .bind (.expect hs₃ _ _) fun _ s₄ hs₄ hext₄ _ => ?_
        have htarget₄ := htarget₂.mono (hext₃.trans hext₄) hs₄.ordered
        have hposition₄ := hposition.mono hext₄ hs₄.ordered
        refine .bind (.push hs₄ (List.forall_mem_cons.mpr
          ⟨htarget₄.1, List.forall_mem_singleton.mpr hposition₄.1⟩)
          (Expression.index htarget₄.2 hposition₄.2)) fun id s₅ hs₅ _ hid => ?_
        exact suffixes_brings hexpression fuel hs₅ hid
      refine .bind (.eat hs₂ _) fun paren s₃ hs₃ hext₃ _ => ?_
      have htarget₃ := htarget₂.mono hext₃ hs₃.ordered
      split
      · refine .bind (yields_trees hexpression _ _ hs₃) fun arguments s₄ hs₄ hext₄ harguments => ?_
        have htarget₄ := htarget₃.mono hext₄ hs₄.ordered
        refine .bind (.push hs₄ (List.forall_mem_cons.mpr
          ⟨htarget₄.1, fun id hid => (harguments id hid).1⟩)
          (Expression.call htarget₄.2 (List.forall_mem_map.mpr fun id hid => (harguments id hid).2)))
          fun id s₅ hs₅ _ hid => ?_
        exact suffixes_brings hexpression fuel hs₅ hid
      · exact .pure hs₃ htarget₃

theorem accessed_brings (hexpression : Brings Expression expression) :
    Brings Expression (accessed expression) := fun _ hs =>
  .bind (primary_brings hexpression hs) fun _ _ hs₁ _ htarget =>
    .bind (.remaining hs₁) fun _ _ hs₂ hext₂ _ =>
      suffixes_brings hexpression _ hs₂ (htarget.mono hext₂ hs₂.ordered)

theorem unaryWith_brings {argument : Parse Id} (hexpression : Brings Expression expression)
    (hargument : Brings Expression argument) :
    Brings Expression (unaryWith expression argument) := by
  intro s hs
  refine .bind (.eat hs _) fun bang s₁ hs₁ _ _ => ?_
  split
  · exact .bind (hargument hs₁) fun id s₂ hs₂ _ hid =>
      .push hs₂ (List.forall_mem_singleton.mpr hid.1) (Expression.not hid.2)
  · exact accessed_brings hexpression hs₁

section Chains

variable {op? : TokenKind → Option BinaryOp} {operand : Parse Id}

theorem chainRest_brings (hoperand : Brings Expression operand) :
    ∀ fuel {s left}, s.Fine → Holds Expression s.arena left →
      Yields (chainRest op? operand fuel left) s fun arena id => Holds Expression arena id
  | 0, _, _, hs, hleft => .pure hs hleft
  | fuel + 1, s, left, hs, hleft => by
      refine .bind (.peek hs) fun kind s₁ hs₁ hext₁ _ => ?_
      have hleft₁ := hleft.mono hext₁ hs₁.ordered
      split
      · exact .pure hs₁ hleft₁
      · refine .bind (.bump hs₁) fun _ s₂ hs₂ hext₂ _ =>
          .bind (hoperand hs₂) fun right s₃ hs₃ hext₃ hright => ?_
        have hleft₃ := hleft₁.mono (hext₂.trans hext₃) hs₃.ordered
        refine .bind (.push hs₃ (List.forall_mem_cons.mpr
          ⟨hleft₃.1, List.forall_mem_singleton.mpr hright.1⟩)
          (Expression.binary hleft₃.2 hright.2)) fun id s₄ hs₄ _ hid => ?_
        exact chainRest_brings hoperand fuel hs₄ hid

theorem chain_brings (hoperand : Brings Expression operand) :
    Brings Expression (chain op? operand) := fun _ hs =>
  .bind (hoperand hs) fun _ _ hs₁ _ hleft => .bind (.remaining hs₁) fun _ _ hs₂ hext₂ _ =>
    chainRest_brings hoperand _ hs₂ (hleft.mono hext₂ hs₂.ordered)

end Chains

theorem binary_brings (hunary : Brings Expression unary) : Brings Expression (binary unary) :=
  chain_brings (chain_brings (chain_brings (chain_brings hunary)))

theorem arrow_brings (hexpression : Brings Expression expression) :
    Brings Expression (arrow expression) := by
  intro s hs
  have hrest {s : State} (hs : s.Fine) {names : List String} (hnames : ∀ n ∈ names, Name n) :
      Yields (do
        expect .arrow "`=>`"
        if ← at? .leftBrace then fail .arrowBlock
        push (.arrow names (← expression))) s fun arena id => Holds Expression arena id := by
    refine .bind (.expect hs _ _) fun _ s₁ hs₁ _ _ => .bind (.at? hs₁ _) fun brace s₂ hs₂ _ _ => ?_
    split
    · intro a s' hrun
      cases hrun
    · exact .bind (hexpression hs₂) fun body s₃ hs₃ _ hbody =>
        .push hs₃ (List.forall_mem_singleton.mpr hbody.1) (Expression.arrow hnames hbody.2)
  refine .bind (.eat hs _) fun paren s₁ hs₁ _ _ => ?_
  split
  · exact .bind (yields_params hs₁) fun names s₂ hs₂ _ hnames => hrest hs₂ hnames
  · exact .bind (.identifier hs₁) fun name s₂ hs₂ _ hname =>
      hrest hs₂ (List.forall_mem_singleton.mpr hname)

theorem conditional_brings (hexpression : Brings Expression expression)
    (hunary : Brings Expression unary) : Brings Expression (conditional expression unary) := by
  intro s hs
  refine .bind (binary_brings hunary hs) fun test s₁ hs₁ _ htest => ?_
  refine .bind (.eat hs₁ _) fun question s₂ hs₂ hext₂ _ => ?_
  have htest₂ := htest.mono hext₂ hs₂.ordered
  split
  · refine .bind (hexpression hs₂) fun consequent s₃ hs₃ hext₃ hconsequent => ?_
    refine .bind (.expect hs₃ _ _) fun _ s₄ hs₄ hext₄ _ => ?_
    refine .bind (hexpression hs₄) fun alternate s₅ hs₅ hext₅ halternate => ?_
    have htest₅ := htest₂.mono ((hext₃.trans hext₄).trans hext₅) hs₅.ordered
    have hconsequent₅ := hconsequent.mono (hext₄.trans hext₅) hs₅.ordered
    exact .push hs₅ (List.forall_mem_cons.mpr ⟨htest₅.1, List.forall_mem_cons.mpr
      ⟨hconsequent₅.1, List.forall_mem_singleton.mpr halternate.1⟩⟩)
      (Expression.conditional htest₅.2 hconsequent₅.2 halternate.2)
  · exact .pure hs₂ htest₂

theorem expressionWith_brings (hexpression : Brings Expression expression)
    (hunary : Brings Expression unary) : Brings Expression (expressionWith expression unary) := by
  intro s hs
  refine .bind (.tokens hs) fun s' s₁ hs₁ _ _ => ?_
  split
  · exact arrow_brings hexpression hs₁
  · exact conditional_brings hexpression hunary hs₁

/-- What the parser reads stands for statements. -/
def BringsAll (parser : Parse (List Id)) : Prop :=
  ∀ ⦃s⦄, s.Fine → Yields parser s fun arena ids => ∀ id ∈ ids, Holds Statement arena id

theorem blockRest_brings (hstatement : Brings Statement statement) :
    ∀ fuel, BringsAll (blockRest statement fuel)
  | 0, _, hs => .pure hs fun _ h => absurd h List.not_mem_nil
  | fuel + 1, s, hs => by
      refine .bind (.skipSemis hs) fun _ s₁ hs₁ _ _ => .bind (.eat hs₁ _) fun brace s₂ hs₂ _ _ => ?_
      split
      · exact .pure hs₂ fun _ h => absurd h List.not_mem_nil
      refine .bind (.peek hs₂) fun kind s₃ hs₃ _ _ => ?_
      split
      · intro a s' hrun
        cases hrun
      · refine .bind (hstatement hs₃) fun first s₄ hs₄ _ hfirst => ?_
        refine .bind (blockRest_brings hstatement fuel hs₄) fun rest s₅ hs₅ hext₅ hrest => ?_
        exact .pure hs₅ (List.forall_mem_cons.mpr ⟨hfirst.mono hext₅ hs₅.ordered, hrest⟩)

theorem block_brings (hstatement : Brings Statement statement) : BringsAll (block statement) :=
  fun _ hs => .bind (.expect hs _ _) fun _ _ hs₁ _ _ => .bind (.remaining hs₁) fun _ _ hs₂ _ _ =>
    blockRest_brings hstatement _ hs₂

theorem body_brings (hstatement : Brings Statement statement) : BringsAll (body statement) := by
  intro s hs
  refine .bind (.at? hs _) fun brace s₁ hs₁ _ _ => ?_
  split
  · exact block_brings hstatement hs₁
  · exact .bind (hstatement hs₁) fun first s₂ hs₂ _ hfirst =>
      .pure hs₂ (List.forall_mem_singleton.mpr hfirst)

theorem declaration_brings (binding : Binding) (hexpression : Brings Expression expression) :
    Brings Statement (declaration binding expression) := fun _ hs =>
  .bind (.bump hs) fun _ _ hs₁ _ _ => .bind (.identifier hs₁) fun _ _ hs₂ _ hname =>
    .bind (.expect hs₂ _ _) fun _ _ hs₃ _ _ => .bind (hexpression hs₃) fun _ _ hs₄ _ hinit =>
      .bind (.eat hs₄ _) fun _ _ hs₅ hext₅ _ =>
        have hinit₅ := hinit.mono hext₅ hs₅.ordered
        .push hs₅ (List.forall_mem_singleton.mpr hinit₅.1) (Statement.declare hname hinit₅.2)

theorem branch_brings (hstatement : Brings Statement statement)
    (hexpression : Brings Expression expression) : Brings Statement (do
      let _ ← bump
      expect .leftParen "`(`"
      let test ← expression
      expect .rightParen "`)`"
      let consequent ← body statement
      if ← atKeyword? "else" then
        let _ ← bump
        let alternate ← body statement
        push (.branch test consequent (some alternate))
      else push (.branch test consequent none)) := by
  intro s hs
  refine .bind (.bump hs) fun _ s₁ hs₁ _ _ => .bind (.expect hs₁ _ _) fun _ s₂ hs₂ _ _ => ?_
  refine .bind (hexpression hs₂) fun test s₃ hs₃ _ htest => ?_
  refine .bind (.expect hs₃ _ _) fun _ s₄ hs₄ hext₄ _ => ?_
  refine .bind (body_brings hstatement hs₄) fun consequent s₅ hs₅ hext₅ hconsequent => ?_
  refine .bind (.atKeyword? hs₅ _) fun isElse s₆ hs₆ hext₆ _ => ?_
  have htest₆ := htest.mono ((hext₄.trans hext₅).trans hext₆) hs₆.ordered
  have hconsequent₆ := fun id hid => (hconsequent id hid).mono hext₆ hs₆.ordered
  split
  · refine .bind (.bump hs₆) fun _ s₇ hs₇ hext₇ _ => ?_
    refine .bind (body_brings hstatement hs₇) fun alternate s₈ hs₈ hext₈ halternate => ?_
    have hext := hext₇.trans hext₈
    have htest₈ := htest₆.mono hext hs₈.ordered
    have hconsequent₈ := fun id hid => (hconsequent₆ id hid).mono hext hs₈.ordered
    refine .push hs₈ (List.forall_mem_cons.mpr ⟨htest₈.1, List.forall_mem_append.mpr
      ⟨fun id hid => (hconsequent₈ id hid).1, fun id hid => (halternate id hid).1⟩⟩) ?_
    exact Statement.branchElse htest₈.2
      (List.forall_mem_map.mpr fun id hid => (hconsequent₈ id hid).2)
      (List.forall_mem_map.mpr fun id hid => (halternate id hid).2)
  · refine .push hs₆ (List.forall_mem_cons.mpr ⟨htest₆.1, ?_⟩) ?_
    · rw [Option.getD_none, List.append_nil]
      exact fun id hid => (hconsequent₆ id hid).1
    · exact Statement.branch htest₆.2
        (List.forall_mem_map.mpr fun id hid => (hconsequent₆ id hid).2)

theorem statementWith_brings (hstatement : Brings Statement statement)
    (hexpression : Brings Expression expression) :
    Brings Statement (statementWith statement expression) := by
  intro s hs
  refine .bind (.atKeyword? hs _) fun isReturn s₁ hs₁ _ _ => ?_
  split
  · have hrest {s : State} (hs : s.Fine) (isBare : Bool) : Yields (do
        let argument ← if isBare then pure none else some <$> expression
        let _ ← eat .semi
        push (.ret argument)) s fun arena id => Holds Statement arena id := by
      cases isBare with
      | true =>
          change Yields (eat .semi >>= fun _ => push (.ret none)) s _
          exact .bind (.eat hs _) fun _ s₁ hs₁ _ _ =>
            .push hs₁ (fun _ h => absurd h List.not_mem_nil) Statement.leave
      | false =>
          refine .bind (.map (hexpression hs) some) fun found s₁ hs₁ _ hfound => ?_
          obtain ⟨id, rfl, hid⟩ := hfound
          refine .bind (.eat hs₁ _) fun _ s₂ hs₂ hext₂ _ => ?_
          have hid₂ := hid.mono hext₂ hs₂.ordered
          exact .push hs₂ (List.forall_mem_singleton.mpr hid₂.1) (Statement.ret hid₂.2)
    exact .bind (.bump hs₁) fun _ s₂ hs₂ _ _ => .bind (.at? hs₂ _) fun _ s₃ hs₃ _ _ =>
      .bind (.at? hs₃ _) fun _ s₄ hs₄ _ _ => .bind (.peek hs₄) fun _ s₅ hs₅ _ _ => hrest hs₅ _
  refine .bind (.atKeyword? hs₁ _) fun isConst s₂ hs₂ _ _ => ?_
  split
  · exact declaration_brings .const hexpression hs₂
  refine .bind (.atKeyword? hs₂ _) fun isLet s₃ hs₃ _ _ => ?_
  split
  · exact declaration_brings .let hexpression hs₃
  refine .bind (.atKeyword? hs₃ _) fun isIf s₄ hs₄ _ _ => ?_
  split
  · exact branch_brings hstatement hexpression hs₄
  refine .bind (.atKeyword? hs₄ _) fun isFunction s₅ hs₅ _ _ => ?_
  split
  · exact .fail _
  · refine .bind (hexpression hs₅) fun argument s₆ hs₆ _ hargument =>
      .bind (.eat hs₆ _) fun _ s₇ hs₇ hext₇ _ => ?_
    have hargument₇ := hargument.mono hext₇ hs₇.ordered
    exact .push hs₇ (List.forall_mem_singleton.mpr hargument₇.1) (Statement.discard hargument₇.2)

end Readers

/-- At every level the three parsers read what the grammar has in their place. -/
theorem levels_bring : ∀ depth, Brings Expression (levels depth).expression ∧
    Brings Expression (levels depth).unary ∧ Brings Statement (levels depth).statement
  | 0 => ⟨fun _ _ => .fail _, unaryWith_brings (fun _ _ => .fail _) (fun _ _ => .fail _),
      fun _ _ => .fail _⟩
  -- One level reads its parts by the parsers of the level below.
  | depth + 1 => by
      obtain ⟨hexpression, hunary, hstatement⟩ := levels_bring depth
      have houter := expressionWith_brings hexpression hunary
      exact ⟨houter, unaryWith_brings houter hunary, statementWith_brings hstatement hexpression⟩

theorem outermost_brings : Brings Statement outermost.statement := (levels_bring maxNesting).2.2

theorem function_brings : Brings Function function := by
  intro s hs
  have hrest {s : State} (hs : s.Fine) {name : Option String} (hname : ∀ n ∈ name, Name n) :
      Yields (do
        expect .leftParen "`(`"
        let names ← params
        push (.function name names (← block outermost.statement))) s
          fun arena id => Holds Function arena id := by
    refine .bind (.expect hs _ _) fun _ s₁ hs₁ _ _ =>
      .bind (yields_params hs₁) fun names s₂ hs₂ _ hnames =>
        .bind (block_brings outermost_brings hs₂) fun body s₃ hs₃ _ hbody => ?_
    exact .push hs₃ (fun id hid => (hbody id hid).1)
      (Function.mk hname hnames (List.forall_mem_map.mpr fun id hid => (hbody id hid).2))
  refine .bind (.bump hs) fun _ s₁ hs₁ _ _ => .bind (.peek hs₁) fun kind s₂ hs₂ _ _ => ?_
  split
  · refine .bind (.map (.identifier hs₂) some) fun found s₃ hs₃ _ hfound => ?_
    obtain ⟨name, rfl, hname⟩ := hfound
    exact hrest hs₃ fun n hn => Option.mem_some_iff.mp hn ▸ hname
  · exact hrest hs₂ fun n hn => absurd hn (Option.not_mem_none _)

theorem statements_bring : ∀ fuel, BringsAll (statements fuel)
  | 0, _, hs => .pure hs fun _ h => absurd h List.not_mem_nil
  | fuel + 1, s, hs => by
      refine .bind (.skipSemis hs) fun _ s₁ hs₁ _ _ => .bind (.peek hs₁) fun kind s₂ hs₂ _ _ => ?_
      split
      · exact .pure hs₂ fun _ h => absurd h List.not_mem_nil
      · refine .bind (outermost_brings hs₂) fun first s₃ hs₃ _ hfirst => ?_
        refine .bind (statements_bring fuel hs₃) fun rest s₄ hs₄ hext₄ hrest => ?_
        exact .pure hs₄ (List.forall_mem_cons.mpr ⟨hfirst.mono hext₄ hs₄.ordered, hrest⟩)

theorem program_brings : Brings Function program := by
  intro s hs
  have hrest {s : State} (hs : s.Fine) {root : Id} (hroot : Holds Function s.arena root) :
      Yields (do
        unless (← peek) = .eof do unexpected "end of input"
        return root) s fun arena id => Holds Function arena id := by
    refine .bind (.peek hs) fun kind s₁ hs₁ hext₁ _ => ?_
    split
    · exact .pure hs₁ (hroot.mono hext₁ hs₁.ordered)
    · intro a s' hrun
      cases hrun
  refine .bind (.atKeyword? hs _) fun isFunction s₁ hs₁ _ _ => ?_
  split
  · refine .bind (function_brings hs₁) fun root s₂ hs₂ _ hroot => ?_
    exact .bind (.eat hs₂ _) fun _ s₃ hs₃ hext₃ _ => hrest hs₃ (hroot.mono hext₃ hs₃.ordered)
  · refine .bind (.remaining hs₁) fun _ s₂ hs₂ _ _ =>
      .bind (statements_bring _ hs₂) fun body s₃ hs₃ _ hbody => ?_
    refine .bind (.push hs₃ (fun id hid => (hbody id hid).1)
      (Function.mk (fun _ h => absurd h (Option.not_mem_none _)) (fun _ h => absurd h List.not_mem_nil)
        (List.forall_mem_map.mpr fun id hid => (hbody id hid).2))) fun root s₄ hs₄ _ hroot => ?_
    exact hrest hs₄ hroot

end Parser

/-- A render function that is read is in the grammar. -/
theorem parseFunction_function {source : String} {arena : Arena} {root : Id}
    (h : parseFunction source = .ok (arena, root)) : Function (arena.tree root) := by
  obtain ⟨tokens, rest, htokens, hprogram⟩ := parseFunction_eq_ok_iff.mp h
  have hfine : (⟨.empty, tokens⟩ : Parser.State).Fine :=
    ⟨.empty, Lexer.tokensFrom_formed htokens⟩
  exact (Parser.program_brings hfine hprogram).2.2.2

end Script

end RenderFold
