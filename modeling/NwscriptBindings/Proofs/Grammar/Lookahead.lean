import NwscriptBindings.Proofs.Grammar.Reads

namespace NwscriptBindings.Parser

variable {α β : Type} {p q : Parser α} {a : α} {l : Lexeme} {ts rest : List Token}

def nextLexeme (ts : List Token) : Option Lexeme :=
  (ts.dropWhile Token.isTrivia).head?.map Token.lexeme

theorem Terminal.begins (mark : Terminal l ts) : nextLexeme ts = some l := by
  obtain ⟨t, ⟨gap, rfl, skipped, kept⟩, rfl⟩ := mark
  simp [nextLexeme, List.dropWhile_append_of_pos skipped, kept]

theorem nextLexeme_append (found : nextLexeme ts = some l) : nextLexeme (ts ++ rest) = some l := by
  rw [nextLexeme] at found ⊢
  cases shown : ts.dropWhile Token.isTrivia with
  | nil => simp [shown] at found
  | cons t more => simpa [List.dropWhile_append, shown] using found

theorem nonempty_of_nextLexeme (found : nextLexeme ts = some l) : ts ≠ [] := by
  rintro rfl
  simp [nextLexeme] at found

theorem nextLexeme_skip {gap : List Token} (skipped : ∀ g ∈ gap, g.isTrivia = true) :
    nextLexeme (gap ++ ts) = nextLexeme ts := by
  simp [nextLexeme, List.dropWhile_append_of_pos skipped]

theorem nextAfter_declines {skip : Token → Bool} {f : Token → Parser β}
    (other : ∀ t, (ts.dropWhile skip).head? = some t → f t = decline) :
    (nextAfter skip >>= f) ts = .declined := by
  rw [bind_eq, nextAfter]
  cases found : ts.dropWhile skip with
  | nil => rfl
  | cons t more => simp only [other t (by simp [found]), decline, Outcome.after]

theorem significant_declines {f : Token → Parser β}
    (other : ∀ t, nextLexeme ts = some t.lexeme → f t = decline) :
    (significant >>= f) ts = .declined :=
  nextAfter_declines fun t found => other t (by simp [nextLexeme, found])

-- Comments count here: what is seen next where they are nodes of their own.
def nextVisible (ts : List Token) : Option Lexeme :=
  (ts.dropWhile Token.isSpace).head?.map Token.lexeme

theorem nextVisible_append (found : nextVisible ts = some l) :
    nextVisible (ts ++ rest) = some l := by
  rw [nextVisible] at found ⊢
  cases shown : ts.dropWhile Token.isSpace with
  | nil => simp [shown] at found
  | cons t more => simpa [List.dropWhile_append, shown] using found

theorem Next.seen {t : Token} (next : Next Token.isSpace t ts) : nextVisible ts = some t.lexeme := by
  obtain ⟨gap, rfl, skipped, kept⟩ := next
  simp [nextVisible, List.dropWhile_append_of_pos skipped, kept]

theorem visible_declines {f : Token → Parser β}
    (other : ∀ t, nextVisible ts = some t.lexeme → f t = decline) :
    (visible >>= f) ts = .declined :=
  nextAfter_declines fun t found => other t (by simp [nextVisible, found])

theorem lexeme_declines (other : nextLexeme ts ≠ some l) : lexeme l ts = .declined := by
  refine significant_declines fun t found => ?_
  have differs : t.lexeme ≠ l := fun same => other (same ▸ found)
  simp [ensure, differs]

theorem lexeme_declined_iff : lexeme l ts = .declined ↔ nextLexeme ts ≠ some l := by
  refine ⟨fun declined found => ?_, lexeme_declines⟩
  cases shown : ts.dropWhile Token.isTrivia with
  | nil => simp [nextLexeme, shown] at found
  | cons t more =>
      have same : t.lexeme = l := by simpa [nextLexeme, shown] using found
      simp [lexeme, bind_eq, significant, nextAfter, shown, ensure, same, Outcome.after, pure]
        at declined

theorem word_declines (other : ∀ text, nextLexeme ts ≠ some (.word text)) :
    word ts = .declined := by
  refine significant_declines fun t found => ?_
  split
  · rename_i text same
    exact (other text (same ▸ found)).elim
  · rfl

theorem bind_declines {f : α → Parser β} (first : p ts = .declined) :
    (p >>= f) ts = .declined := by rw [bind_eq, first]

theorem map_declined_iff {f : α → β} :
    (p >>= fun a => pure (f a)) ts = .declined ↔ p ts = .declined := by
  rw [bind_eq]
  cases p ts with
  | accepted a n => simp [Outcome.after, pure]
  | declined => simp
  | failed e => simp

theorem bind_declines_later {f : α → Parser β} (first : Reads p a ts rest)
    (second : f a rest = .declined) : (p >>= f) (ts ++ rest) = .declined := by
  rw [Reads] at first
  simp [bind_eq, first, second, Outcome.after]

theorem ensure_declines {condition : Bool} {f : Unit → Parser β} (second : f () ts = .declined) :
    (ensure condition >>= f) ts = .declined := by
  cases condition with
  | true =>
      have passed : ensure true ts = .accepted () 0 := rfl
      simp [bind_eq, passed, second, Outcome.after]
  | false => rfl

theorem choice_declines (first : p ts = .declined) (second : q ts = .declined) :
    (p <|> q) ts = .declined := by
  have either : (p <|> q) ts = p.orElse q ts := rfl
  rw [either, orElse, first]
  exact second

theorem withTokens_declines {p : Parser (List Token → α)} (first : p ts = .declined) :
    withTokens p ts = .declined := by rw [withTokens, first]

theorem traced_declines (first : p ts = .declined) : traced p ts = .declined :=
  withTokens_declines (bind_declines first)

theorem optional_declines (first : p ts = .declined) : optional p ts = .accepted none 0 := by
  rw [optional, first]

end NwscriptBindings.Parser
