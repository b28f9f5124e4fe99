import RenderFold.Proofs.Script.Accepted
import RenderFold.Proofs.Script.Rereading

/-!
# Reading Lines Back

Statements are printed a line each and end with a mark of their own, so one is
read back whatever comes after it. The exception is a branch without an
alternative, which an `else` would give one. In a block no statement begins
with that, nor with a mark that the parser skips or takes for the end.

A function that is printed is then read back as a whole. What has been read is
in the grammar, so reading what it is printed as gives the same tree once more.
That is so unless the tree has one of the shapes that read differently where
they stand, or takes more levels than there are. A text that is accepted may
have such a shape in parentheses, which the printer leaves out, and it may have
a name alone for a property, which the printer writes in full.

## Main definitions

* `Parser.Restated`: A statement is read back from its tokens.

## Theorems

* `Parser.restated`: Statements are read back.
* `parseFunction_print`: So is a function that is printed.
* `parse_print_parse`: What has been read is read again from its print.
-/

namespace RenderFold

namespace Script

namespace Parser

open Arena (Extends Ordered Stands)
open Printer (Stops tokens bareTokens paramTokens lineTokens nesting bareNesting partsNesting
  arrowLevel)

variable {s : State} {after kinds : List TokenKind} {kind : TokenKind} {depth : Nat} {t : Tree}
  {ts : List Tree} {argument test : Tree} {name : String}

/-- A statement is read back from its tokens. -/
def Restated (t : Tree) : Prop := ∀ ⦃depth s after⦄, nesting 1 0 t < depth →
  after.head? ≠ some (.ident "else") → s.Ready (tokens 0 t ++ after) →
    Takes (levels depth).statement s after fun arena id => arena.Stands id t

/-- The tokens that a statement begins with. -/
def opens (kind : TokenKind) : Bool :=
  begins kind || [.ident "return", .ident "const", .ident "let", .ident "if"].contains kind

theorem tokens_open (h : Statement t) :
    ∃ kind rest, tokens 0 t = kind :: rest ∧ opens kind = true := by
  cases h with
  | @declare binding => cases binding <;> exact ⟨_, _, tokens_zero _, by decide⟩
  | discard hexpression =>
      obtain ⟨kind, rest, htokens, hbegins⟩ := tokens_begin hexpression 0
      refine ⟨kind, rest ++ [.punct .semi], ?_, Bool.or_eq_true_iff.mpr (Or.inl hbegins)⟩
      rw [tokens_zero, bareTokens, htokens, List.cons_append]
  | _ => exact ⟨_, _, tokens_zero _, by decide⟩

/-- A keyword that comes next. -/
theorem Takes.keyword {β : Type} {f : Bool → Parse β} {result : Arena → β → Prop}
    (h : s.Ready (.ident name :: kinds)) (hf : Takes (f true) s after result) :
    Takes (atKeyword? name >>= f) s after result :=
  .step (atKeyword?_eq name s) rfl (decide_eq_true h.kind_cons ▸ hf)

/-- A keyword that does not come next. -/
theorem Takes.unless {β : Type} {f : Bool → Parse β} {result : Arena → β → Prop}
    (h : s.kind ≠ .ident name) (hf : Takes (f false) s after result) :
    Takes (atKeyword? name >>= f) s after result :=
  .step (atKeyword?_eq name s) rfl (decide_eq_false h ▸ hf)

/-- A mark that does not come next. -/
theorem Takes.pass {β : Type} {f : Bool → Parse β} {mark : Punct} {result : Arena → β → Prop}
    (h : s.kind ≠ .punct mark) (hf : Takes (f false) s after result) :
    Takes (Parser.eat mark >>= f) s after result :=
  .step (eat_no h) rfl hf

/-- A result that is handed on in another form. -/
theorem Takes.map {α β : Type} {x : Parse α} {f : α → β} {result : Arena → α → Prop}
    (hx : Takes x s after result) :
    Takes (f <$> x) s after fun arena b => ∃ a, f a = b ∧ result arena a := by
  obtain ⟨a, s', hrun, hready, hext, ha⟩ := hx
  refine ⟨f a, s', ?_, hready, hext, a, rfl, ha⟩
  change EStateM.map f x s = _
  unfold EStateM.map
  rw [hrun]

section Statements

variable {binding : Binding} {consequent alternate : List Tree}

theorem restated_leave : Restated (.mk (.ret none)) := by
  intro depth s after hdepth _ hs
  obtain ⟨depth, rfl⟩ := Nat.exists_eq_succ_of_ne_zero (Nat.ne_of_gt (Nat.zero_lt_of_lt hdepth))
  rw [tokens_zero] at hs
  refine .keyword hs (.bump hs fun s₁ hs₁ _ => ?_)
  refine .step (at?_eq .semi s₁) rfl ?_
  refine .step (at?_eq .rightBrace s₁) rfl ?_
  refine .step (peek_eq s₁) rfl ?_
  rw [decide_eq_true hs₁.kind_cons]
  refine .eat hs₁ fun s₂ hs₂ _ => ?_
  exact .over hs₂ (fun _ h => absurd h List.not_mem_nil) rfl

theorem begins_kind (h : Expression t) (hs : s.Ready (tokens 0 t ++ after)) :
    begins s.kind = true := by
  obtain ⟨kind, rest, htokens, hbegins⟩ := tokens_begin h 0
  rw [htokens] at hs
  rwa [hs.kind_cons]

theorem restated_ret (hargument : Expression argument) (hplain : argument.Plain) :
    Restated (.mk (.ret (some argument))) := by
  intro depth s after hdepth _ hs
  obtain ⟨depth, rfl⟩ := Nat.exists_eq_succ_of_ne_zero (Nat.ne_of_gt (Nat.zero_lt_of_lt hdepth))
  rw [Printer.nesting_zero] at hdepth
  rw [tokens_zero, bareTokens, List.cons_append, List.append_assoc] at hs
  refine .keyword hs (.bump hs fun s₁ hs₁ _ => ?_)
  have hbegins := begins_kind hargument hs₁
  refine .step (at?_eq .semi s₁) rfl ?_
  refine .step (at?_eq .rightBrace s₁) rfl ?_
  refine .step (peek_eq s₁) rfl ?_
  have hne {kind : TokenKind} (hkind : begins kind = false) : s₁.kind ≠ kind :=
    fun heq => Bool.false_ne_true (hkind.symm.trans (heq ▸ hbegins))
  rw [decide_eq_false (hne rfl), decide_eq_false (hne rfl), decide_eq_false (hne rfl)]
  refine .bind (.map ((reread hargument hplain).whole
    (Nat.one_add_le_iff.mp (Nat.le_of_lt_succ hdepth)) (.of_binding rfl 0) hs₁))
    fun found s₂ hs₂ _ hfound => .eat hs₂ fun s₃ hs₃ harena => ?_
  obtain ⟨id, rfl, hstands⟩ := hfound
  rw [← harena] at hstands
  refine .over hs₃ (List.forall_mem_singleton.mpr hstands.1) ?_
  rw [Node.map, Option.map_some, hstands.2]

theorem restated_declare (hname : Name name) (hinit : Expression argument)
    (hplain : argument.Plain) : Restated (.mk (.declare binding name argument)) := by
  have hdeclare {depth : Nat} {s : State} {after : List TokenKind} {keyword : TokenKind}
      (hdepth : nesting 1 0 argument < depth)
      (hs : s.Ready (keyword :: .ident name :: .punct .assign ::
        (tokens 0 argument ++ .punct .semi :: after))) :
      Takes (declaration binding (levels depth).expression) s after fun arena id =>
        arena.Stands id (.mk (.declare binding name argument)) := by
    refine .bump hs fun s₁ hs₁ _ => .bind (.identifier hs₁ hname) fun found s₂ hs₂ _ hfound => ?_
    refine .expect hs₂ fun s₃ hs₃ _ => ?_
    refine .bind ((reread hinit hplain).whole hdepth (.of_binding rfl 0) hs₃)
      fun id s₄ hs₄ _ hstands => .eat hs₄ fun s₅ hs₅ harena => ?_
    rw [← harena] at hstands
    refine .over hs₅ (List.forall_mem_singleton.mpr hstands.1) ?_
    rw [Node.map, hstands.2, hfound]
  intro depth s after hdepth _ hs
  obtain ⟨depth, rfl⟩ := Nat.exists_eq_succ_of_ne_zero (Nat.ne_of_gt (Nat.zero_lt_of_lt hdepth))
  rw [Printer.nesting_zero] at hdepth
  rw [tokens_zero, bareTokens, List.cons_append, List.cons_append, List.cons_append,
    List.append_assoc, tokens_arrowLevel] at hs
  have hinner : nesting 1 0 argument < depth :=
    Nat.one_add_le_iff.mp (Nat.le_of_lt_succ hdepth)
  have hkind {other : String} (hother : binding.keyword ≠ other) : s.kind ≠ .ident other := by
    rw [hs.kind_cons]
    exact fun heq => hother (TokenKind.ident.inj heq)
  cases binding with
  | const => exact .unless (hkind (by decide)) (.keyword hs (hdeclare hinner hs))
  | «let» =>
      exact .unless (hkind (by decide)) (.unless (hkind (by decide))
        (.keyword hs (hdeclare hinner hs)))

theorem restated_discard (hargument : Expression argument) (hplain : argument.Plain) :
    Restated (.mk (.discard argument)) := by
  intro depth s after hdepth _ hs
  obtain ⟨depth, rfl⟩ := Nat.exists_eq_succ_of_ne_zero (Nat.ne_of_gt (Nat.zero_lt_of_lt hdepth))
  rw [Printer.nesting_zero] at hdepth
  rw [tokens_zero, bareTokens, List.append_assoc] at hs
  have hbegins := begins_kind hargument hs
  have hne {kind : TokenKind} (hkind : begins kind = false) : s.kind ≠ kind :=
    fun heq => Bool.false_ne_true (hkind.symm.trans (heq ▸ hbegins))
  refine .unless (hne rfl) (.unless (hne rfl) (.unless (hne rfl) (.unless (hne rfl)
    (.unless (hne rfl) ?_))))
  refine .bind ((reread hargument hplain).whole (Nat.one_add_le_iff.mp (Nat.le_of_lt_succ hdepth))
    (.of_binding rfl 0) hs) fun id s₁ hs₁ _ hstands => .eat hs₁ fun s₂ hs₂ harena => ?_
  rw [← harena] at hstands
  refine .over hs₂ (List.forall_mem_singleton.mpr hstands.1) ?_
  rw [Node.map, hstands.2]

end Statements

section Blocks

variable {consequent alternate : List Tree}

theorem skipSemis_eq (h : s.kind ≠ .punct .semi) : skipSemis s = .ok () s := by
  have hrest : s.rest.dropWhile (·.kind = .punct .semi) = s.rest := by
    unfold State.kind at h
    cases hrest : s.rest with
    | nil => rfl
    | cons token rest =>
        rw [hrest] at h
        exact List.dropWhile_cons_of_neg (by simpa using h)
  change EStateM.Result.ok () { s with rest := _ } = _
  rw [hrest]

/-- No statement begins with `else`. -/
theorem lines_ne_else (hts : ∀ t ∈ ts, Statement t) :
    (lineTokens ts ++ .punct .rightBrace :: after).head? ≠ some (.ident "else") := by
  cases ts with
  | nil => exact fun h => by cases h
  | cons t ts =>
      obtain ⟨kind, rest, htokens, hopens⟩ := tokens_open (hts t List.mem_cons_self)
      rw [lineTokens, htokens]
      rintro h
      cases h
      exact absurd hopens (by decide)

/-- Every statement has a token of its own. -/
theorem length_le_lines (hts : ∀ t ∈ ts, Statement t) : ts.length ≤ (lineTokens ts).length := by
  induction ts with
  | nil => exact Nat.zero_le _
  | cons t ts ih =>
      obtain ⟨kind, rest, htokens, -⟩ := tokens_open (hts t List.mem_cons_self)
      have hrest := ih fun t ht => hts t (List.mem_cons_of_mem _ ht)
      rw [lineTokens, htokens]
      simp only [List.length_append, List.length_cons]
      omega

/-- Statements up to the closing brace are read back. -/
theorem takes_blockRest (hts : ∀ t ∈ ts, Statement t) (hrestated : ∀ t ∈ ts, Restated t)
    (hdepth : partsNesting 1 ts ≤ depth) :
    ∀ {fuel s}, ts.length < fuel → s.Ready (lineTokens ts ++ .punct .rightBrace :: after) →
      Takes (blockRest (levels depth).statement fuel) s after fun arena ids =>
        List.Forall₂ (fun id t => arena.Stands id t) ids ts := by
  induction ts with
  | nil =>
      intro fuel s hfuel hs
      obtain ⟨fuel, rfl⟩ := Nat.exists_eq_succ_of_ne_zero (Nat.ne_of_gt hfuel)
      have hkind : s.kind ≠ .punct .semi := hs.kind_cons ▸ by decide
      exact .step (skipSemis_eq hkind) rfl (.eat hs fun s₁ hs₁ _ => .pure hs₁ .nil)
  | cons t ts ih =>
      intro fuel s hfuel hs
      obtain ⟨fuel, rfl⟩ := Nat.exists_eq_succ_of_ne_zero (Nat.ne_of_gt (Nat.zero_lt_of_lt hfuel))
      obtain ⟨hfirst, hrest⟩ := Nat.max_le.mp hdepth
      rw [lineTokens, List.append_assoc] at hs
      obtain ⟨kind, rest, htokens, hopens⟩ := tokens_open (hts t List.mem_cons_self)
      have hne {other : TokenKind} (hother : opens other = false) : s.kind ≠ other := by
        rw [htokens] at hs
        rw [hs.kind_cons]
        exact fun heq => Bool.false_ne_true (hother.symm.trans (heq ▸ hopens))
      refine .step (skipSemis_eq (hne (by decide))) rfl (.pass (hne (by decide)) ?_)
      refine .step (peek_eq s) rfl ?_
      rw [if_neg (hne (by decide))]
      have helse := @lines_ne_else after _ fun t ht => hts t (List.mem_cons_of_mem _ ht)
      refine .bind (hrestated t List.mem_cons_self (Nat.one_add_le_iff.mp hfirst) helse hs)
        fun first s₁ hs₁ _ hstands => ?_
      refine .bind (ih (fun t ht => hts t (List.mem_cons_of_mem _ ht))
        (fun t ht => hrestated t (List.mem_cons_of_mem _ ht)) hrest (Nat.lt_of_succ_lt_succ hfuel)
        hs₁) fun found s₂ hs₂ hext hfound => ?_
      exact .pure hs₂ (.cons (hstands.mono hext hs₂.ordered) hfound)

/-- Statements in braces are read back. -/
theorem takes_block (hts : ∀ t ∈ ts, Statement t) (hrestated : ∀ t ∈ ts, Restated t)
    (hdepth : partsNesting 1 ts ≤ depth)
    (hs : s.Ready (.punct .leftBrace :: (lineTokens ts ++ .punct .rightBrace :: after))) :
    Takes (block (levels depth).statement) s after fun arena ids =>
      List.Forall₂ (fun id t => arena.Stands id t) ids ts := by
  refine .expect hs fun s₁ hs₁ _ => .step (remaining_eq s₁) rfl ?_
  refine takes_blockRest hts hrestated hdepth ?_ hs₁
  have hlength := length_le_lines hts
  rw [hs₁.length, List.length_append, List.length_cons]
  omega

/-- So are they where a single statement could stand. -/
theorem takes_body (hts : ∀ t ∈ ts, Statement t) (hrestated : ∀ t ∈ ts, Restated t)
    (hdepth : partsNesting 1 ts ≤ depth)
    (hs : s.Ready (.punct .leftBrace :: (lineTokens ts ++ .punct .rightBrace :: after))) :
    Takes (body (levels depth).statement) s after fun arena ids =>
      List.Forall₂ (fun id t => arena.Stands id t) ids ts := by
  refine .step (at?_eq .leftBrace s) rfl ?_
  rw [decide_eq_true hs.kind_cons, if_pos rfl]
  exact takes_block hts hrestated hdepth hs

/-- A branch is read back, but for what may come after it. -/
theorem takes_branch (htest : Expression test) (hplain : test.Plain)
    (hconsequent : ∀ t ∈ consequent, Statement t) (hrestated : ∀ t ∈ consequent, Restated t)
    (hdepth : nesting 1 0 test < depth) (hbody : partsNesting 1 consequent ≤ depth)
    (hs : s.Ready (.ident "if" :: .punct .leftParen :: (tokens 0 test ++ .punct .rightParen ::
      .punct .leftBrace :: (lineTokens consequent ++ .punct .rightBrace :: kinds))))
    {node : Node Tree}
    (hf : ∀ id ids s', s'.Ready kinds → s'.arena.Stands id test →
      List.Forall₂ (fun id t => s'.arena.Stands id t) ids consequent → Takes (do
        if ← atKeyword? "else" then
          let _ ← bump
          let alternate ← body (levels depth).statement
          Parser.push (.branch id ids (some alternate))
        else Parser.push (.branch id ids none)) s' after
          fun arena id => arena.Stands id (.mk node)) :
    Takes (levels (depth + 1)).statement s after fun arena id => arena.Stands id (.mk node) := by
  have hne {other : String} (hother : "if" ≠ other) : s.kind ≠ .ident other := by
    rw [hs.kind_cons]
    exact fun heq => hother (TokenKind.ident.inj heq)
  refine .unless (hne (by decide)) (.unless (hne (by decide)) (.unless (hne (by decide))
    (.keyword hs (.bump hs fun s₁ hs₁ h₁ => .expect hs₁ fun s₂ hs₂ h₂ => ?_))))
  refine .bind ((reread htest hplain).whole hdepth (.of_binding rfl 0) hs₂)
    fun id s₃ hs₃ hext₃ hstands => .expect hs₃ fun s₄ hs₄ h₄ => ?_
  refine .bind (takes_body hconsequent hrestated hbody hs₄) fun ids s₅ hs₅ hext₅ hstands' => ?_
  rw [← h₄] at hstands
  exact hf id ids s₅ hs₅ (hstands.mono hext₅ hs₅.ordered) hstands'

theorem restated_branch (htest : Expression test) (hplain : test.Plain)
    (hconsequent : ∀ t ∈ consequent, Statement t) (hrestated : ∀ t ∈ consequent, Restated t) :
    Restated (.mk (.branch test consequent none)) := by
  intro depth s after hdepth helse hs
  obtain ⟨depth, rfl⟩ := Nat.exists_eq_succ_of_ne_zero (Nat.ne_of_gt (Nat.zero_lt_of_lt hdepth))
  rw [Printer.nesting_zero] at hdepth
  obtain ⟨hfirst, hbody⟩ := Nat.max_le.mp (Nat.le_of_lt_succ hdepth)
  have hsplit : tokens 0 (.mk (.branch test consequent none)) ++ after =
      .ident "if" :: .punct .leftParen :: (tokens 0 test ++ .punct .rightParen ::
        .punct .leftBrace :: (lineTokens consequent ++ .punct .rightBrace :: after)) := by
    rw [tokens_zero, bareTokens]
    simp only [List.cons_append, List.append_assoc, List.nil_append]
  rw [hsplit] at hs
  refine takes_branch htest hplain hconsequent hrestated (Nat.one_add_le_iff.mp hfirst) hbody hs
    fun id ids s' hs' hstands hids => .unless ?_ ?_
  · intro heq
    cases after with
    | nil => cases heq ▸ hs'.kind_nil
    | cons kind after => exact helse (congrArg some (hs'.kind_cons.symm.trans heq))
  · obtain ⟨htrees, hlt⟩ := Stands.list hids
    refine .over hs' (List.forall_mem_cons.mpr ⟨hstands.1, ?_⟩) ?_
    · rw [Option.getD_none, List.append_nil]
      exact hlt
    · rw [Node.map, hstands.2, htrees, Option.map_none]

theorem restated_branchElse (htest : Expression test) (hplain : test.Plain)
    (hconsequent : ∀ t ∈ consequent, Statement t) (hrestated : ∀ t ∈ consequent, Restated t)
    (halternate : ∀ t ∈ alternate, Statement t) (hrestated' : ∀ t ∈ alternate, Restated t) :
    Restated (.mk (.branch test consequent (some alternate))) := by
  intro depth s after hdepth helse hs
  obtain ⟨depth, rfl⟩ := Nat.exists_eq_succ_of_ne_zero (Nat.ne_of_gt (Nat.zero_lt_of_lt hdepth))
  rw [Printer.nesting_zero] at hdepth
  obtain ⟨hfirst, hbodies⟩ := Nat.max_le.mp (Nat.le_of_lt_succ hdepth)
  obtain ⟨hbody, hbody'⟩ := Nat.max_le.mp hbodies
  have hsplit : tokens 0 (.mk (.branch test consequent (some alternate))) ++ after =
      .ident "if" :: .punct .leftParen :: (tokens 0 test ++ .punct .rightParen ::
        .punct .leftBrace :: (lineTokens consequent ++ .punct .rightBrace :: .ident "else" ::
          .punct .leftBrace :: (lineTokens alternate ++ .punct .rightBrace :: after))) := by
    rw [tokens_zero, bareTokens]
    simp only [List.cons_append, List.append_assoc, List.nil_append]
  rw [hsplit] at hs
  refine takes_branch htest hplain hconsequent hrestated (Nat.one_add_le_iff.mp hfirst) hbody hs
    fun id ids s' hs' hstands hids => .keyword hs' (.bump hs' fun s₁ hs₁ h₁ => ?_)
  refine .bind (takes_body halternate hrestated' hbody' hs₁) fun ids' s₂ hs₂ hext hids' => ?_
  rw [← h₁] at hstands hids
  have hstands₂ := hstands.mono hext hs₂.ordered
  obtain ⟨htrees, hlt⟩ := Stands.list (hids.imp fun _ _ h => h.mono hext hs₂.ordered)
  obtain ⟨htrees', hlt'⟩ := Stands.list hids'
  refine .over hs₂ (List.forall_mem_cons.mpr ⟨hstands₂.1, List.forall_mem_append.mpr ⟨hlt, hlt'⟩⟩) ?_
  rw [Node.map, hstands₂.2, htrees, Option.map_some, htrees']

/-- Statements are read back. -/
theorem restated (h : Statement t) (hplain : t.Plain) : Restated t := by
  induction h with
  | leave => exact restated_leave
  | ret hargument => exact restated_ret hargument (hplain.part List.mem_cons_self)
  | declare hname hinit => exact restated_declare hname hinit (hplain.part List.mem_cons_self)
  | branch htest hconsequent ih =>
      exact restated_branch htest (hplain.part List.mem_cons_self) hconsequent fun t ht =>
        ih t ht (hplain.part (List.mem_cons_of_mem _ (List.mem_append_left _ ht)))
  | branchElse htest hconsequent halternate ihconsequent ihalternate =>
      exact restated_branchElse htest (hplain.part List.mem_cons_self) hconsequent
        (fun t ht => ihconsequent t ht
          (hplain.part (List.mem_cons_of_mem _ (List.mem_append_left _ ht))))
        halternate
        fun t ht => ihalternate t ht
          (hplain.part (List.mem_cons_of_mem _ (List.mem_append_right _ ht)))
  | discard hexpression => exact restated_discard hexpression (hplain.part List.mem_cons_self)

end Blocks

section Functions

variable {params : List String} {body : List Tree} {named : Option String}

/-- A function whose statements are read by a given parser. -/
def functionWith (statement : Parse Id) : Parse Id := do
  let _ ← bump
  let name ← match ← peek with
    | .ident _ => some <$> identifier
    | _ => pure none
  expect .leftParen "`(`"
  let names ← Parser.params
  Parser.push (.function name names (← block statement))

/-- A function is read back. -/
theorem takes_function (hname : ∀ n ∈ named, Name n) (hparams : ∀ n ∈ params, Name n)
    (hbody : ∀ t ∈ body, Statement t) (hplain : ∀ t ∈ body, t.Plain)
    (hdepth : partsNesting 1 body ≤ depth)
    (hs : s.Ready (tokens 0 (.mk (.function named params body)))) :
    Takes (functionWith (levels depth).statement) s [] fun arena id =>
      arena.Stands id (.mk (.function named params body)) := by
  have hrest {s : State} (hs : s.Ready (.punct .leftParen :: (paramTokens params ++
      .punct .rightParen :: .punct .leftBrace :: (lineTokens body ++ [.punct .rightBrace])))) :
      Takes (do
        expect .leftParen "`(`"
        let names ← Parser.params
        Parser.push (.function named names (← block (levels depth).statement))) s []
          fun arena id => arena.Stands id (.mk (.function named params body)) := by
    refine .expect hs fun s₁ hs₁ _ => .bind (takes_params hparams hs₁) fun names s₂ hs₂ _ hnames => ?_
    refine .bind (takes_block hbody (fun t ht => restated (hbody t ht) (hplain t ht)) hdepth hs₂)
      fun ids s₃ hs₃ _ hids => ?_
    obtain ⟨htrees, hlt⟩ := Stands.list hids
    refine .over hs₃ hlt ?_
    rw [Node.map, htrees, hnames]
  rw [tokens_zero, bareTokens] at hs
  refine .bump hs fun s₁ hs₁ _ => .step (peek_eq s₁) rfl ?_
  cases named with
  | none =>
      rw [hs₁.kind_cons]
      exact hrest hs₁
  | some name =>
      have hkind : s₁.kind = .ident name := hs₁.kind_cons
      rw [hkind]
      refine .bind (.map (.identifier hs₁ (hname name rfl))) fun found s₂ hs₂ _ hfound => ?_
      obtain ⟨_, rfl, rfl⟩ := hfound
      exact hrest hs₂

/-- A function with nothing after it is a whole render function. -/
theorem program_of_function {root : Id} {s' : State} (hkeyword : s.kind = .ident "function")
    (h : function s = .ok root s') (hend : s'.kind = .eof) : program s = .ok root s' := by
  unfold program
  rw [bind_eq (atKeyword?_eq _ _), decide_eq_true hkeyword, if_pos rfl, bind_eq h,
    bind_eq (eat_no (hend ▸ TokenKind.noConfusion)),
    bind_eq (rfl : (pure root : Parse Id) s' = .ok root s')]
  dsimp only
  rw [bind_eq (peek_eq s'), hend]
  rfl

/-- A whole render function is read back. -/
theorem takes_program (h : Function t) (hplain : t.Plain) (hdepth : t.nesting ≤ maxNesting)
    (hs : s.Ready (tokens 0 t)) :
    Takes program s [] fun arena id => arena.Stands id t := by
  cases h with
  | @mk named params body hname hparams hbody =>
      unfold Tree.nesting at hdepth
      rw [Printer.nesting_zero] at hdepth
      have hkeyword : s.kind = .ident "function" := by
        rw [tokens_zero, bareTokens] at hs
        exact hs.kind_cons
      obtain ⟨root, s', hrun, hready, hext, hstands⟩ :=
        takes_function hname hparams hbody (fun t ht => hplain.part ht) hdepth hs
      exact ⟨root, s', program_of_function hkeyword hrun hready.kind_nil, hready, hext, hstands⟩

end Functions

end Parser

/-- A function of the grammar is read back as it was printed, unless it has a shape that reads
    differently or nests too deep. -/
theorem parseFunction_print {t : Tree} (h : Function t) (hplain : t.Plain)
    (hdepth : t.nesting ≤ maxNesting) :
    ∃ arena root, parseFunction t.print = .ok (arena, root) ∧ arena.tree root = t := by
  obtain ⟨tokens, htokens, hkinds⟩ := Lexer.reads_print h hplain 0
  have hready : (⟨.empty, tokens⟩ : Parser.State).Ready (Printer.tokens 0 t) := ⟨.empty, hkinds⟩
  obtain ⟨root, s, hrun, -, -, hstands⟩ := Parser.takes_program h hplain hdepth hready
  exact ⟨s.arena, root, parseFunction_eq_ok_iff.mpr ⟨tokens, s.rest, htokens, hrun⟩, hstands.2⟩

/-- What has been read is printed as something that is read as the same tree, and so is printed
    the same once more. -/
theorem parse_print_parse {source : String} {arena : Arena} {root : Id}
    (h : parseFunction source = .ok (arena, root)) (hplain : (arena.tree root).Plain)
    (hdepth : (arena.tree root).nesting ≤ maxNesting) : ∃ arena' root',
      parseFunction (arena.print root) = .ok (arena', root') ∧
        arena'.tree root' = arena.tree root ∧ arena'.print root' = arena.print root := by
  obtain ⟨arena', root', hread, htree⟩ :=
    parseFunction_print (parseFunction_function h) hplain hdepth
  exact ⟨arena', root', hread, htree, congrArg Tree.print htree⟩

theorem parseFunction_of_nodes {source : String} {nodes : Array (Node Id)} {root : Id}
    (h : (parseFunction source).toOption.map (fun read => (read.1.nodes, read.2)) =
      some (nodes, root)) : parseFunction source = .ok (⟨nodes⟩, root) := by
  cases hread : parseFunction source with
  | error e =>
      rw [hread] at h
      cases h
  | ok read =>
      rw [hread] at h
      cases h
      rfl

theorem parse_print_parse_access : ∃ arena root,
    parseFunction "return !(a).b /* c */" = .ok (arena, root) ∧ (arena.tree root).Plain ∧
      (arena.tree root).nesting ≤ maxNesting ∧ ∃ arena' root',
        parseFunction (arena.print root) = .ok (arena', root') ∧
          arena'.tree root' = arena.tree root ∧ arena'.print root' = arena.print root := by
  let nodes : Array (Node Id) := #[.ident "a", .member 0 "b", .not 1, .ret (some 2),
    .function none [] [3]]
  have hread : parseFunction "return !(a).b /* c */" = .ok (⟨nodes⟩, 4) :=
    parseFunction_of_nodes (by decide +kernel)
  have hplain : (Arena.tree ⟨nodes⟩ 4).Plain :=
    .mk rfl (List.forall_mem_singleton.mpr (.mk rfl (List.forall_mem_singleton.mpr
      (.mk rfl (List.forall_mem_singleton.mpr (.mk rfl (List.forall_mem_singleton.mpr
        (.mk rfl fun _ h => absurd h List.not_mem_nil))))))))
  have hdepth : (Arena.tree ⟨nodes⟩ 4).nesting ≤ maxNesting := by decide +kernel
  exact ⟨_, _, hread, hplain, hdepth, parse_print_parse hread hplain hdepth⟩

/-- A number is printed without its parentheses, and a point after it belongs to it. -/
theorem parse_print_number : ∃ arena root,
    parseFunction "return (1).foo" = .ok (arena, root) ∧ ∃ arena' root',
      parseFunction (arena.print root) = .ok (arena', root') ∧
        arena'.tree root' ≠ arena.tree root ∧ arena'.print root' ≠ arena.print root := by
  let nodes : Array (Node Id) := #[.num 0x3FF0000000000000, .member 0 "foo", .ret (some 1),
    .function none [] [2]]
  let nodes' : Array (Node Id) := #[.num 0x3FF0000000000000, .ret (some 0), .ident "foo",
    .discard 2, .function none [] [1, 3]]
  have hread : parseFunction "return (1).foo" = .ok (⟨nodes⟩, 3) :=
    parseFunction_of_nodes (by decide +kernel)
  have hagain : parseFunction (Arena.print ⟨nodes⟩ 3) = .ok (⟨nodes'⟩, 4) :=
    parseFunction_of_nodes (by decide +kernel)
  have hprint : Arena.print ⟨nodes'⟩ 4 ≠ Arena.print ⟨nodes⟩ 3 := by decide +kernel
  exact ⟨_, _, hread, _, _, hagain, fun htree => hprint (congrArg Tree.print htree), hprint⟩

end Script

end RenderFold
