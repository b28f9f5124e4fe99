import RenderFold.Proofs.Script.Lines
import RenderFold.Proofs.Script.Parenthesized

/-!
# Printed Functions

A function that is printed is read back or refused, and never read as another
one. It is refused if it nests deeper than the parser goes. A parser that goes
deep enough reads the function, and the one there is follows it until it runs
out of levels.

## Theorems

* `parseFunction_print_eq`: What a printed function is read as is the function.
-/

namespace RenderFold

namespace Script

namespace Parser

variable {σ : Setting} {statement statement' : Parse Id}

namespace Setting

/-- A function, if its statements do the same. -/
theorem tracks_functionWith (hstatement : σ.Tracks σ.place statement statement')
    (kinds : List TokenKind) : σ.Follows σ.place (.ident "function" :: kinds) (kinds.length + 1)
      (functionWith statement) (functionWith statement') := by
  have hrest (name : Option String) (kinds : List TokenKind) :
      σ.Follows σ.place kinds kinds.length
        (do
          expect .leftParen "`(`"
          let names ← params
          push (.function name names (← block statement)))
        (do
          expect .leftParen "`(`"
          let names ← params
          push (.function name names (← block statement'))) := by
    refine .bind (.expect _ _ kinds) fun _ kinds₁ h₁ => ?_
    refine .bind (tracks_params kinds₁) fun names kinds₂ h₂ => ?_
    refine .bind (tracks_block hstatement kinds₂) fun body kinds₃ h₃ => ?_
    exact .push rfl (by omega)
  have hname : σ.Tracks id (some <$> identifier) (some <$> identifier) :=
    fun kinds => .map (.identifier kinds) fun _ => rfl
  refine .bump (.peek ?_)
  cases kinds with
  | nil =>
      -- At the end neither finds a name, whatever ends the second reading.
      rcases σ.ending_eq with hending | ⟨hending, -⟩
      · rw [hending]
        exact (hrest none []).mono (Nat.zero_le _)
      · rw [hending]
        exact (hrest none []).mono (Nat.zero_le _)
  | cons kind kinds =>
      dsimp only [List.head?_cons, Option.getD_some]
      split
      · refine .bind (hname _) fun name kinds₁ h₁ => ?_
        exact (hrest name kinds₁).mono (by omega)
      · exact (hrest none _).mono (Nat.le_succ _)

end Setting

end Parser

/-- A function that is printed is read back, or it nests too deep and is
    refused. -/
theorem parseFunction_print_eq {t : Tree} (h : Function t) (hplain : t.Plain) :
    (∃ arena root, parseFunction t.print = .ok (arena, root) ∧ arena.tree root = t) ∨
      ∃ e, parseFunction t.print = .error e := by
  obtain ⟨tokens, htokens, hkinds⟩ := Lexer.reads_print h hplain 0
  have hinner : .eof ∉ Printer.tokens 0 t := by
    obtain ⟨kinds, hends, hinner⟩ := Lexer.tokensFrom_ends htokens
    rwa [List.append_cancel_right (hkinds.symm.trans hends)]
  have hready : (⟨.empty, tokens⟩ : Parser.State).Ready (Printer.tokens 0 t) := ⟨.empty, hkinds⟩
  cases h with
  | @mk named params body hname hparams hbody =>
      have hkeyword : (⟨.empty, tokens⟩ : Parser.State).kind = .ident "function" := hready.kind_cons
      -- With as many levels as the function takes, it is read back.
      obtain ⟨root, s, hrun, hdone, -, hstands⟩ := Parser.takes_function hname hparams hbody
        (fun t ht => hplain.part ht) (Nat.le_max_right maxNesting _) hready
      -- The parser that there is follows that one.
      let σ : Parser.Setting :=
        ⟨.empty, false, maxNesting < max maxNesting (Printer.partsNesting 1 body), nofun⟩
      have hbeside : σ.Beside ⟨.empty, tokens⟩ ⟨.empty, tokens⟩
          (Printer.tokens 0 (.mk (.function named params body))) :=
        ⟨hinner, hkinds, hkinds, σ.copy_empty.symm⟩
      have hlevels := σ.tracks_levels (Nat.le_max_left maxNesting (Printer.partsNesting 1 body))
        fun hlt => hlt
      rcases σ.tracks_functionWith hlevels.statement _ hbeside hrun with
        ⟨kinds, s', hrun', -, hbeside'⟩ | ⟨-, e, s', hrun', -⟩
      · have hkinds' : kinds = [] :=
          List.append_cancel_right (hbeside'.ahead.symm.trans hdone.ahead)
        have hend : s'.kind = .eof := Parser.State.kind_of_rest (hkinds' ▸ hbeside'.ahead')
        have hprogram := Parser.program_of_function hkeyword hrun' hend
        refine .inl ⟨s'.arena, _,
          parseFunction_eq_ok_iff.mpr ⟨tokens, s'.rest, htokens, hprogram⟩, ?_⟩
        rw [hbeside'.arena, σ.tree_copy hdone.ordered hstands.1, hstands.2]
      · cases hread : parseFunction (Tree.mk (.function named params body)).print with
        | error e => exact .inr ⟨e, rfl⟩
        | ok read =>
            obtain ⟨tokens', rest, htokens', hprogram⟩ := parseFunction_eq_ok_iff.mp hread
            cases htokens.symm.trans htokens'
            unfold Parser.program at hprogram
            rw [Parser.bind_eq (Parser.atKeyword?_eq _ _), decide_eq_true hkeyword,
              if_pos rfl] at hprogram
            obtain ⟨root', s₁, hrun₁, -⟩ := Parser.bind_eq_ok hprogram
            cases hrun'.symm.trans hrun₁

end Script

end RenderFold
