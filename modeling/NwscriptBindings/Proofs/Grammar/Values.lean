import NwscriptBindings.Proofs.Grammar.Derivation
import NwscriptBindings.Proofs.Grammar.Lookahead
import NwscriptBindings.Proofs.Grammar.Range

namespace NwscriptBindings.Parser

open Grammar

variable {α β : Type} {ts rest : List Token}

theorem reads_traced_rule {p : Parser α} {rule : α → List Token → Prop} {x : Traced α}
    (content : ∀ a, Reads p a ts rest ↔ rule a ts) :
    Reads (traced p) x ts rest ↔ TracedRule rule x ts := by
  rw [reads_traced_iff, content, TracedRule]

-- Repetition, where an item may depend on what follows it. Behind an item there is either another
-- item or the end, so both have to be fit to follow.
theorem reads_list_iff {stop : Parser Unit} {item : Parser α} {rule : α → List Token → Prop}
    {closes : List Token → Prop} {as : List α} (fits : List Token → Prop)
    (stopped : ∀ ts rest, Reads stop () ts rest ↔ closes ts)
    (sound : ∀ a ts rest, Reads item a ts rest → rule a ts)
    (complete : ∀ a ts rest, rule a ts → fits rest → Reads item a ts rest)
    (begins : ∀ a ts rest, rule a ts →
      ts ≠ [] ∧ stop (ts ++ rest) = .declined ∧ fits (ts ++ rest))
    (ends : ∀ ts rest, closes ts → fits (ts ++ rest)) :
    Reads (manyTill stop item) as ts rest ↔
      ∃ is cs, ts = is ++ cs ∧ ListRule rule as is ∧ closes cs := by
  constructor
  · intro read
    induction as generalizing ts with
    | nil =>
        rcases reads_manyTill_cases read with ⟨_, ended⟩ | ⟨_, _, _, _, same, _⟩
        · exact ⟨[], ts, rfl, .nil, (stopped _ _).mp ended⟩
        · cases same
    | cons a as ih =>
        rcases reads_manyTill_cases read with ⟨same, _⟩ | ⟨_, _, us, vs, same, rfl, _, _, first, more⟩
        · cases same
        · cases same
          obtain ⟨is, cs, rfl, others, closed⟩ := ih more
          exact ⟨us ++ is, cs, by simp, .cons (sound _ _ _ first) others, closed⟩
  · rintro ⟨is, cs, rfl, derived, closed⟩
    induction derived with
    | nil => exact reads_manyTill_stop ((stopped _ _).mpr closed)
    | @cons a us as vs first others ih =>
        obtain ⟨nonempty, going, _⟩ := begins a us (vs ++ cs ++ rest) first
        rw [List.append_assoc]
        refine reads_manyTill_item going (complete a us _ first ?_) nonempty ih
        cases others with
        | nil => exact ends cs rest closed
        | cons second _ => simpa using (begins _ _ _ second).2.2

theorem reads_scriptType_iff {x : ScriptType} :
    Reads scriptType x ts rest ↔ TypeRule x ts := by
  rw [scriptType, reads_bind_iff]
  constructor
  · rintro ⟨t, us, vs, rfl, next, found⟩
    rw [significant, reads_nextAfter_iff] at next
    split at found
    · rename_i same
      simp only [reads_bind_iff, reads_word_iff, reads_pure_iff] at found
      obtain ⟨name, ns, _, rfl, named, rfl, rfl⟩ := found
      rw [List.append_nil]
      exact .struct ⟨t, next, same⟩ named
    · rename_i type same
      obtain ⟨rfl, rfl⟩ := reads_pure_iff.mp found
      rw [List.append_nil]
      exact .basic ⟨t, next, same⟩
    · exact (reads_decline_iff.mp found).elim
  · intro derived
    cases derived with
    | basic mark =>
        obtain ⟨t, next, same⟩ := mark
        refine ⟨t, ts, [], by simp, reads_nextAfter_iff.mpr next, ?_⟩
        rw [same]
        exact reads_pure_iff.mpr ⟨rfl, rfl⟩
    | struct mark named =>
        obtain ⟨t, next, same⟩ := mark
        refine ⟨t, _, _, rfl, reads_nextAfter_iff.mpr next, ?_⟩
        rw [same]
        simp only [reads_bind_iff, reads_word_iff, reads_pure_iff]
        exact ⟨_, _, [], by simp, named, rfl, rfl⟩

theorem reads_unsigned_iff {negative : Bool} {v : Literal} :
    Reads (unsigned negative) v ts rest ↔
      ∃ l, Terminal (.literal l) ts ∧ numberLiteral negative l = some v := by
  rw [unsigned, reads_bind_iff]
  constructor
  · rintro ⟨t, us, vs, rfl, next, found⟩
    rw [significant, reads_nextAfter_iff] at next
    split at found
    · rename_i l same
      obtain ⟨valued, rfl⟩ := reads_ofOption_iff.mp found
      exact ⟨l, ⟨t, by simpa using next, same⟩, valued⟩
    · exact (reads_decline_iff.mp found).elim
  · rintro ⟨l, ⟨t, next, same⟩, valued⟩
    refine ⟨t, ts, [], by simp, reads_nextAfter_iff.mpr next, ?_⟩
    rw [same]
    exact reads_ofOption_iff.mpr ⟨valued, rfl⟩

theorem reads_number_iff {v : Literal} : Reads number v ts rest ↔ NumberRule v ts := by
  simp only [number, reads_choice_iff, operator, reads_bind_iff, reads_lexeme_iff,
    reads_unsigned_iff]
  constructor
  · rintro (⟨_, us, vs, rfl, minus, l, mark, valued⟩ | ⟨_, l, mark, valued⟩)
    · exact .negative minus mark valued
    · exact .plain mark valued
  · intro derived
    cases derived with
    | negative minus mark valued => exact .inl ⟨(), _, _, rfl, minus, _, mark, valued⟩
    | plain mark valued =>
        refine .inr ⟨bind_declines (lexeme_declines ?_), _, mark, valued⟩
        simp [nextLexeme_append mark.begins]

theorem reads_coordinate_iff {x : Binary32} :
    Reads coordinate x ts rest ↔ CoordinateRule x ts := by
  rw [coordinate, reads_bind_iff]
  constructor
  · rintro ⟨l, us, vs, rfl, read, found⟩
    rw [reads_number_iff] at read
    cases l with
    | int v raw =>
        obtain ⟨rfl, rfl⟩ := reads_pure_iff.mp found
        exact .int (by simpa using read)
    | float v raw =>
        obtain ⟨rfl, rfl⟩ := reads_pure_iff.mp found
        exact .float (by simpa using read)
    | _ => exact (reads_decline_iff.mp found).elim
  · intro derived
    cases derived with
    | int read =>
        exact ⟨_, ts, [], by simp, reads_number_iff.mpr read, reads_pure_iff.mpr ⟨rfl, rfl⟩⟩
    | float read =>
        exact ⟨_, ts, [], by simp, reads_number_iff.mpr read, reads_pure_iff.mpr ⟨rfl, rfl⟩⟩

def BeginsNumber (ts : List Token) : Prop :=
  nextLexeme ts = some (.operator .minus) ∨
    ∃ l, nextLexeme ts = some (.literal l) ∧ l.kind ≠ .string

theorem number_begins {v : Literal} (derived : NumberRule v ts) : BeginsNumber ts := by
  cases derived with
  | negative minus mark valued => exact .inl (nextLexeme_append minus.begins)
  | @plain l _ _ mark valued =>
      refine .inr ⟨l, mark.begins, ?_⟩
      rintro string
      cases l <;> simp [RawLiteral.kind, numberLiteral] at string valued

theorem coordinate_begins {x : Binary32} (derived : CoordinateRule x ts) : BeginsNumber ts := by
  cases derived with
  | int read => exact number_begins read
  | float read => exact number_begins read

theorem reads_vector_iff {v : Literal} : Reads vector v ts rest ↔
    (∃ os es, ts = os ++ es ∧ Terminal (.separator .openBracket) os ∧
      Terminal (.separator .closeBracket) es ∧ v = .vector .zero .zero .zero) ∨
    ∃ os xs cs ys ds zs es x y z, ts = os ++ (xs ++ (cs ++ (ys ++ (ds ++ (zs ++ es))))) ∧
      Terminal (.separator .openBracket) os ∧ CoordinateRule x xs ∧
      Terminal (.separator .comma) cs ∧ CoordinateRule y ys ∧ Terminal (.separator .comma) ds ∧
      CoordinateRule z zs ∧ Terminal (.separator .closeBracket) es ∧ v = .vector x y z := by
  simp only [vector, vectorBody, separator, reads_bind_iff, reads_choice_iff, reads_lexeme_iff,
    reads_coordinate_iff, reads_pure_iff]
  constructor
  · rintro ⟨_, os, _, rfl, opened, ⟨_, es, _, rfl, closed, rfl, rfl⟩ |
      ⟨_, x, xs, _, rfl, first, _, cs, _, rfl, comma, y, ys, _, rfl, second, _, ds, _, rfl, comma',
        z, zs, _, rfl, third, _, es, _, rfl, closed, rfl, rfl⟩⟩
    · exact .inl ⟨os, es, by simp, opened, closed, rfl⟩
    · exact .inr ⟨os, xs, cs, ys, ds, zs, es, x, y, z, by simp, opened, first, comma, second,
        comma', third, closed, rfl⟩
  · rintro (⟨os, es, rfl, opened, closed, rfl⟩ | ⟨os, xs, cs, ys, ds, zs, es, x, y, z, rfl, opened,
      first, comma, second, comma', third, closed, rfl⟩)
    · exact ⟨(), os, es, rfl, opened, .inl ⟨(), es, [], by simp, closed, rfl, rfl⟩⟩
    · refine ⟨(), os, _, rfl, opened, .inr ⟨bind_declines (lexeme_declines ?_), x, xs, _, rfl,
        first, (), cs, _, rfl, comma, y, ys, _, rfl, second, (), ds, _, rfl, comma', z, zs, _, rfl,
        third, (), es, [], by simp, closed, rfl, rfl⟩⟩
      rw [List.append_assoc]
      rcases coordinate_begins first with minus | ⟨l, numeral, _⟩
      · simp [nextLexeme_append minus]
      · simp [nextLexeme_append numeral]

theorem reads_stringLiteral_iff {v : Literal} : Reads stringLiteral v ts rest ↔
    ∃ body closed, Terminal (.literal (.string body closed)) ts ∧ v = .string body := by
  rw [stringLiteral, reads_bind_iff]
  constructor
  · rintro ⟨t, us, vs, rfl, next, found⟩
    rw [significant, reads_nextAfter_iff] at next
    split at found
    · rename_i body closed same
      obtain ⟨rfl, rfl⟩ := reads_pure_iff.mp found
      exact ⟨body, closed, ⟨t, by simpa using next, same⟩, rfl⟩
    · exact (reads_decline_iff.mp found).elim
  · rintro ⟨body, closed, ⟨t, next, same⟩, rfl⟩
    refine ⟨t, ts, [], by simp, reads_nextAfter_iff.mpr next, ?_⟩
    rw [same]
    exact reads_pure_iff.mpr ⟨rfl, rfl⟩

theorem stringLiteral_declines
    (other : ∀ body closed, nextLexeme ts ≠ some (.literal (.string body closed))) :
    stringLiteral ts = .declined := by
  refine significant_declines fun t found => ?_
  split
  · rename_i body closed same
    exact (other body closed (same ▸ found)).elim
  · rfl

theorem keyword_pure_reads_iff {k : Keyword} {a b : α} :
    Reads (do keyword k; pure a) b ts rest ↔ Terminal (.keyword k) ts ∧ b = a := by
  simp only [keyword, reads_bind_iff, reads_lexeme_iff, reads_pure_iff]
  constructor
  · rintro ⟨_, us, _, rfl, mark, rfl, rfl⟩
    exact ⟨by simpa using mark, rfl⟩
  · rintro ⟨mark, rfl⟩
    exact ⟨(), ts, [], by simp, mark, rfl, rfl⟩

theorem reads_literal_iff {v : Literal} : Reads literal v ts rest ↔ LiteralRule v ts := by
  simp only [literal, firstOf, reads_orElse_iff, keyword_pure_reads_iff, reads_vector_iff,
    reads_stringLiteral_iff, reads_number_iff, reads_decline_iff]
  constructor
  · rintro (⟨mark, rfl⟩ | ⟨_, ⟨mark, rfl⟩ | ⟨_, (⟨os, es, rfl, opened, closed, rfl⟩ |
      ⟨os, xs, cs, ys, ds, zs, es, x, y, z, rfl, opened, first, comma, second, comma', third,
        closed, rfl⟩) | ⟨_, ⟨body, closed, mark, rfl⟩ | ⟨_, read | ⟨_, none⟩⟩⟩⟩⟩)
    · exact .objectSelf mark
    · exact .objectInvalid mark
    · exact .zeroVector opened closed
    · exact .vector opened first comma second comma' third closed
    · exact .string mark
    · exact .number read
    · exact none.elim
  · -- The next lexeme tells the alternatives apart, so all earlier ones decline.
    have self : ∀ l, nextLexeme ts = some l → l ≠ .keyword .objectSelf →
        (do keyword .objectSelf; pure Literal.objectSelf) (ts ++ rest) = .declined :=
      fun l found other =>
        bind_declines (lexeme_declines (by simpa [nextLexeme_append found] using other))
    have invalid : ∀ l, nextLexeme ts = some l → l ≠ .keyword .objectInvalid →
        (do keyword .objectInvalid; pure Literal.objectInvalid) (ts ++ rest) = .declined :=
      fun l found other =>
        bind_declines (lexeme_declines (by simpa [nextLexeme_append found] using other))
    have noVector : ∀ l, nextLexeme ts = some l → l ≠ .separator .openBracket →
        vector (ts ++ rest) = .declined :=
      fun l found other =>
        bind_declines (lexeme_declines (by simpa [nextLexeme_append found] using other))
    intro derived
    cases derived with
    | objectSelf mark => exact .inl ⟨mark, rfl⟩
    | objectInvalid mark => exact .inr ⟨self _ mark.begins (by simp), .inl ⟨mark, rfl⟩⟩
    | zeroVector opened closed =>
        exact .inr ⟨self _ (nextLexeme_append opened.begins) (by simp),
          .inr ⟨invalid _ (nextLexeme_append opened.begins) (by simp),
          .inl (.inl ⟨_, _, rfl, opened, closed, rfl⟩)⟩⟩
    | vector opened first comma second comma' third closed =>
        exact .inr ⟨self _ (nextLexeme_append opened.begins) (by simp),
          .inr ⟨invalid _ (nextLexeme_append opened.begins) (by simp),
          .inl (.inr ⟨_, _, _, _, _, _, _, _, _, _, rfl, opened, first, comma, second, comma',
            third, closed, rfl⟩)⟩⟩
    | string mark =>
        have found := mark.begins
        exact .inr ⟨self _ found (by simp), .inr ⟨invalid _ found (by simp),
          .inr ⟨noVector _ found (by simp), .inl ⟨_, _, mark, rfl⟩⟩⟩⟩
    | number read =>
        rcases number_begins read with found | ⟨l, found, numeral⟩
        · exact .inr ⟨self _ found (by simp), .inr ⟨invalid _ found (by simp),
            .inr ⟨noVector _ found (by simp),
              .inr ⟨stringLiteral_declines (by simp [nextLexeme_append found]), .inl read⟩⟩⟩⟩
        · refine .inr ⟨self _ found (by simp), .inr ⟨invalid _ found (by simp),
            .inr ⟨noVector _ found (by simp), .inr ⟨stringLiteral_declines ?_, .inl read⟩⟩⟩⟩
          rintro body closed string
          rw [nextLexeme_append found] at string
          cases string
          exact numeral rfl

theorem unsigned_declines {negative : Bool} (other : ∀ l, nextLexeme ts ≠ some (.literal l)) :
    unsigned negative ts = .declined := by
  refine significant_declines fun t found => ?_
  split
  · rename_i l same
    exact (other l (same ▸ found)).elim
  · rfl

theorem literal_declines_word {name : List UInt8} (found : nextLexeme ts = some (.word name)) :
    literal ts = .declined := by
  have one : (do keyword .objectSelf; pure Literal.objectSelf) ts = .declined :=
    bind_declines (lexeme_declines (by simp [found]))
  have two : (do keyword .objectInvalid; pure Literal.objectInvalid) ts = .declined :=
    bind_declines (lexeme_declines (by simp [found]))
  have three : vector ts = .declined := bind_declines (lexeme_declines (by simp [found]))
  have four : stringLiteral ts = .declined := stringLiteral_declines (by simp [found])
  have five : number ts = .declined :=
    choice_declines (bind_declines (lexeme_declines (by simp [found])))
      (unsigned_declines (by simp [found]))
  simp only [literal, firstOf, orElse, one, two, three, four, five, decline]

theorem reads_value_iff {v : Value} : Reads value v ts rest ↔ ValueRule v ts := by
  simp only [value, reads_choice_iff, reads_bind_iff, reads_literal_iff, reads_word_iff,
    reads_pure_iff]
  constructor
  · rintro (⟨l, us, _, rfl, derived, rfl, rfl⟩ | ⟨_, name, us, _, rfl, named, rfl, rfl⟩)
    · exact .literal (by simpa using derived)
    · exact .reference (by simpa [NameRule] using named)
  · intro derived
    cases derived with
    | literal derived => exact .inl ⟨_, ts, [], by simp, derived, rfl, rfl⟩
    | reference named =>
        exact .inr ⟨bind_declines (literal_declines_word (nextLexeme_append named.begins)),
          _, ts, [], by simp, named, rfl, rfl⟩

theorem reads_arithmetic_iff {stop : Separator} {e : Traced Expr} :
    Reads (arithmetic stop) e ts rest ↔ ArithmeticRule stop e ts := by
  constructor
  · intro accepted
    rw [Reads, arithmetic] at accepted
    split at accepted
    · rename_i range found
      obtain ⟨rfl, length⟩ := Outcome.accepted.inj accepted
      obtain ⟨t, behind, parts, _, anywhere⟩ := rangeUpTo_split found
      have whole : ts = range ++ [t] := by
        have front := congrArg (List.take ts.length) parts
        rw [List.take_left, ← length, List.take_length_add_append] at front
        simpa using front
      subst whole
      exact ⟨range, t, rfl, anywhere [], rfl⟩
    · cases accepted
  · rintro ⟨range, t, rfl, found, rfl⟩
    obtain ⟨_, _, same, _, anywhere⟩ := rangeUpTo_split found
    obtain ⟨rfl, _⟩ := List.cons.inj (List.append_cancel_left same)
    simp [Reads, arithmetic, anywhere]

theorem reads_enclosed_iff {e : Traced Expr} : Reads enclosed e ts rest ↔
    ∃ range t, ts = range ++ [t] ∧ rangeEnclosed 0 ts = some range ∧
      e = ⟨⟨.logical, Expr.textOf range⟩, range.dropWhile Token.isSpace⟩ := by
  constructor
  · intro accepted
    rw [Reads, enclosed] at accepted
    split at accepted
    · rename_i range found
      obtain ⟨rfl, length⟩ := Outcome.accepted.inj accepted
      obtain ⟨t, behind, parts, _, anywhere⟩ := rangeEnclosed_split found
      have whole : ts = range ++ [t] := by
        have front := congrArg (List.take ts.length) parts
        rw [List.take_left, ← length, List.take_length_add_append] at front
        simpa using front
      subst whole
      exact ⟨range, t, rfl, anywhere [], rfl⟩
    · cases accepted
  · rintro ⟨range, t, rfl, found, rfl⟩
    obtain ⟨_, _, same, _, anywhere⟩ := rangeEnclosed_split found
    obtain ⟨rfl, _⟩ := List.cons.inj (List.append_cancel_left same)
    simp [Reads, enclosed, anywhere]

theorem reads_logical_iff {e : Traced Expr} : Reads logical e ts rest ↔ LogicalRule e ts := by
  simp only [logical, separator, reads_bind_iff, reads_lexeme_iff, reads_enclosed_iff]
  constructor
  · rintro ⟨_, os, _, rfl, opened, range, t, rfl, found, rfl⟩
    exact ⟨os, range, t, rfl, opened, found, rfl⟩
  · rintro ⟨os, range, t, rfl, opened, found, rfl⟩
    exact ⟨(), os, _, rfl, opened, range, t, rfl, found, rfl⟩

theorem reads_assigned_iff {e : Traced Expr} : Reads assigned e ts rest ↔ AssignedRule e ts := by
  simp only [assigned, reads_bind_iff, reads_arithmetic_iff, reads_ensure_iff, reads_pure_iff]
  constructor
  · rintro ⟨e, us, _, rfl, read, _, _, _, rfl, ⟨written, rfl⟩, rfl, rfl⟩
    exact ⟨by simpa using read, by simpa using written⟩
  · rintro ⟨read, written⟩
    exact ⟨e, ts, [], by simp, read, (), [], [], rfl, ⟨by simpa using written, rfl⟩, rfl, rfl⟩

theorem reads_plainEquals_iff {u : Unit} : Reads plainEquals u ts rest ↔ EqualsRule ts rest := by
  simp only [plainEquals, operator, reads_bind_iff, reads_lexeme_iff, reads_notTouching_iff]
  constructor
  · rintro ⟨_, us, _, rfl, mark, rfl, free⟩
    exact ⟨by simpa using mark, free⟩
  · rintro ⟨mark, free⟩
    exact ⟨(), ts, [], by simp, mark, rfl, free⟩

end NwscriptBindings.Parser
