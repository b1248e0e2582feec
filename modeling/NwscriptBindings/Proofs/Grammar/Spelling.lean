import NwscriptBindings.Grammar.Capture
import NwscriptBindings.Proofs.Text.Splitting
import NwscriptBindings.Proofs.Token.Lossless
import NwscriptBindings.Proofs.Token.Relex

namespace NwscriptBindings

namespace Expr

def spell (afterWord afterOperator gap : Bool) : List Token → List UInt8
  | [] => []
  | t :: rest =>
      if t.isTrivia then spell afterWord afterOperator true rest
      else
        (if afterWord || (gap && afterOperator && isOperator t) then utf8 " " else []) ++ t.raw ++
          spell (isWordLike t) (isOperator t) false rest

def EndsVisibly (t : Token) : Prop := t.raw ≠ [] ∧ t.raw.getLast? ≠ some (byte ' ')

theorem trimEnd_write {ts : List Token} (afterWord afterOperator gap : Bool)
    (either : (afterWord && afterOperator) = false)
    (visible : ∀ t ∈ ts, t.isTrivia = false → EndsVisibly t) :
    Bytes.trimEnd (· == byte ' ')
      ((if afterWord then utf8 " " else []) ++ write afterOperator gap ts) =
        spell afterWord afterOperator gap ts := by
  induction ts generalizing afterWord afterOperator gap with
  | nil => cases afterWord <;> rfl
  | cons t ts ih =>
      have others : ∀ u ∈ ts, u.isTrivia = false → EndsVisibly u :=
        fun u present => visible u (List.mem_cons_of_mem _ present)
      cases trivia : t.isTrivia with
      | true =>
          simp only [write, spell, trivia, if_true]
          exact ih _ _ _ either others
      | false =>
          obtain ⟨nonempty, ends⟩ := visible t (List.mem_cons_self ..) trivia
          have exclusive : (isWordLike t && isOperator t) = false := by
            simp only [isWordLike, isOperator]
            cases t.kind <;> rfl
          have space : (if afterWord then utf8 " " else []) ++
              (if gap && afterOperator && isOperator t then utf8 " " else []) =
              if afterWord || (gap && afterOperator && isOperator t) then utf8 " " else [] := by
            cases afterWord with
            | false => simp
            | true =>
                obtain rfl : afterOperator = false := by simpa using either
                simp
          have kept : ∀ front : List UInt8, ∀ b, (front ++ t.raw).getLast? = some b →
              (b == byte ' ') = false := by
            intro front b last
            rw [List.getLast?_append, List.getLast?_eq_some_getLast nonempty, Option.some_or] at last
            rw [List.getLast?_eq_some_getLast nonempty] at ends
            have differs : b ≠ byte ' ' := fun same => ends (same ▸ last)
            simpa using differs
          simp only [write, spell, trivia, Bool.false_eq_true, if_false, ← space]
          rw [← ih _ _ false exclusive others, ← Bytes.trimEnd_append (by simp [nonempty]) (kept _)]
          simp only [List.append_assoc]

theorem textOf_spell {ts : List Token} (visible : ∀ t ∈ ts, t.isTrivia = false → EndsVisibly t) :
    textOf ts = spell false false false ts :=
  trimEnd_write false false false rfl visible

theorem spell_trivia {gap ts : List Token} (skipped : ∀ g ∈ gap, g.isTrivia = true)
    (afterWord afterOperator before : Bool) : spell afterWord afterOperator before (gap ++ ts) =
      spell afterWord afterOperator (before || !gap.isEmpty) ts := by
  induction gap generalizing before with
  | nil => simp
  | cons g gap ih =>
      have trivia : g.isTrivia = true := skipped g (List.mem_cons_self ..)
      have others : ∀ u ∈ gap, u.isTrivia = true :=
        fun u present => skipped u (List.mem_cons_of_mem _ present)
      simp [spell, trivia, ih others]

theorem spell_next {gap more : List Token} {u : Token} (skipped : ∀ g ∈ gap, g.isTrivia = true)
    (kept : u.isTrivia = false) (afterWord afterOperator : Bool) :
    spell afterWord afterOperator false (gap ++ u :: more) =
      (if afterWord || (!gap.isEmpty && afterOperator && isOperator u) then utf8 " " else []) ++
        u.raw ++ spell (isWordLike u) (isOperator u) false more := by
  rw [spell_trivia skipped, spell, kept, Bool.false_or]
  rfl

theorem spell_after_word (afterOperator gap : Bool) (ts : List Token) {b : UInt8}
    (first : (spell true afterOperator gap ts ++ utf8 ")").head? = some b) :
    Scan.isWordByte b = false := by
  induction ts generalizing gap with
  | nil =>
      obtain rfl : byte ')' = b := Option.some.inj first
      decide
  | cons t ts ih =>
      cases trivia : t.isTrivia with
      | true =>
          simp only [spell, trivia, if_true] at first
          exact ih _ first
      | false =>
          simp only [spell, trivia, Bool.true_or, if_true] at first
          obtain rfl : byte ' ' = b := Option.some.inj first
          decide

-- Whether `u`, read behind a literal and trivia, could run on from the literal.
def RunsOn (u : Token) : Prop := u.kind = .literal ∨ u.kind = .keyword ∨ u.kind = .word

instance (u : Token) : Decidable (RunsOn u) := inferInstanceAs (Decidable (_ ∨ _))

-- No literal stands, across trivia and nothing else, in front of a token that could run on from it.
def Apart : List Token → Prop
  | [] => True
  | t :: rest =>
      (t.kind = .literal → rest.head?.any Token.isTrivia = true →
        ∀ u ∈ (rest.dropWhile Token.isTrivia).head?, ¬RunsOn u) ∧ Apart rest

instance Apart.decidable : (ts : List Token) → Decidable (Apart ts)
  | [] => isTrue trivial
  | _ :: rest =>
      have := Apart.decidable rest
      inferInstanceAs (Decidable (_ ∧ _))

end Expr

namespace Scanner

open NwscriptBindings.Expr

-- The two ways on from a token: nothing but trivia, or trivia and then a token with its first byte.
theorem run_ahead {s last : Scanner} {ts : List Token} (path : Run s ts last)
    (plain : ∀ t ∈ ts, t.kind ≠ .directive) :
    (∀ t ∈ ts, t.isTrivia = true) ∨
      ∃ gap u more c tail, ts = gap ++ u :: more ∧ (∀ g ∈ gap, g.isTrivia = true) ∧
        u.isTrivia = false ∧ u.raw = c :: tail ∧ Scan.Begins c u.lexeme ∧
        (gap = [] → ∃ left, s.rest = u.raw ++ left) := by
  induction path with
  | stop => exact .inl fun t present => by cases present
  | @step t middle ts last s found path ih =>
      obtain ⟨nonempty, parts⟩ := next?_parts _ _ _ found
      cases trivia : t.isTrivia with
      | false =>
          obtain ⟨c, rest, start, read⟩ := next?_lexeme found
          obtain ⟨d, tail, spelled⟩ := List.exists_cons_of_ne_nil nonempty
          rw [spelled, start, List.cons_append] at parts
          obtain ⟨rfl, _⟩ := List.cons.inj parts
          have begins := Scan.lexeme_begins read trivia (plain t (List.mem_cons_self ..))
          refine .inr ⟨[], t, ts, d, tail, rfl, by simp, trivia, spelled, begins, fun _ => ?_⟩
          exact ⟨middle.rest, (next?_parts _ _ _ found).2.symm⟩
      | true =>
          rcases ih fun u present => plain u (List.mem_cons_of_mem _ present) with
            all | ⟨gap, u, more, c, tail, rfl, skipped, kept, spelled, begins, _⟩
          · exact .inl (List.forall_mem_cons.mpr ⟨trivia, all⟩)
          · exact .inr ⟨t :: gap, u, more, c, tail, rfl, List.forall_mem_cons.mpr ⟨trivia, skipped⟩,
              kept, spelled, begins, by simp⟩

variable {s last : Scanner} {ts : List Token}

theorem operator_fits (path : Run s ts last) (plain : ∀ u ∈ ts, u.kind ≠ .directive) {b : UInt8}
    (mark : b = byte '/' ∨ b = byte '*')
    (first : (spell false true false ts ++ utf8 ")").head? = some b) : s.rest.head? = some b := by
  rcases run_ahead path plain with
    all | ⟨gap, u, more, c, tail, rfl, skipped, kept, spelled, begins, touching⟩
  · rw [← List.append_nil ts, spell_trivia all, spell] at first
    obtain rfl : byte ')' = b := Option.some.inj first
    exact absurd mark (by decide)
  · rw [spell_next skipped kept, spelled] at first
    cases gap with
    | nil =>
        obtain ⟨left, ahead⟩ := touching rfl
        rw [ahead, spelled]
        exact first
    | cons g gap =>
        by_cases operator : isOperator u = true
        · rw [operator] at first
          obtain rfl : byte ' ' = b := Option.some.inj first
          exact absurd mark (by decide)
        · rw [Bool.not_eq_true] at operator
          rw [operator] at first
          obtain rfl : c = b := Option.some.inj first
          have same : isOperator u = true := beq_iff_eq.mpr (begins.operator mark)
          rw [operator] at same
          cases same

theorem literal_fits {t : Token} (path : Run s ts last) (plain : ∀ u ∈ ts, u.kind ≠ .directive)
    (literal : t.kind = .literal) (apart : Apart (t :: ts)) :
    Scan.Follows s.rest (spell false false false ts ++ utf8 ")") ∧
      ∀ x d more, spell false false false ts ++ utf8 ")" = x :: d :: more →
        x = byte 'x' ∨ x = byte 'X' → Digits.isHex d = true → ∃ more', s.rest = x :: d :: more' := by
  rcases run_ahead path plain with
    all | ⟨gap, u, more, c, tail, rfl, skipped, kept, spelled, begins, touching⟩
  · rw [← List.append_nil ts, spell_trivia all, spell]
    refine ⟨fun b first word => ?_, fun x d more whole => by cases whole⟩
    obtain rfl : byte ')' = b := Option.some.inj first
    exact absurd word (by decide)
  · rw [spell_next skipped kept, spelled, Bool.and_false, Bool.false_and, Bool.or_false,
      if_neg Bool.false_ne_true, List.nil_append, List.append_assoc, List.cons_append]
    cases gap with
    | nil =>
        obtain ⟨left, ahead⟩ := touching rfl
        rw [ahead, spelled]
        refine ⟨fun b first _ => first, fun x d rest whole hexMark hex => ?_⟩
        obtain ⟨rfl, behind⟩ := List.cons.inj whole
        cases tail with
        | cons e tail =>
            obtain ⟨rfl, _⟩ := List.cons.inj behind
            exact ⟨tail ++ left, rfl⟩
        | nil =>
            -- A mark that is a token of its own is a word, and a space is written behind it.
            have wordLike : isWordLike u = true := by
              rw [isWordLike, Bool.or_eq_true, beq_iff_eq, beq_iff_eq]
              exact begins.hexMark hexMark
            rw [List.nil_append, wordLike] at behind
            have ends : Scan.isWordByte d = false :=
              spell_after_word (isOperator u) false more (by rw [behind]; rfl)
            rw [Scan.wordByte_of_hex hex] at ends
            cases ends
    | cons g gap =>
        have spaced : (g :: gap ++ u :: more).head?.any Token.isTrivia = true :=
          skipped g (List.mem_cons_self ..)
        have next : u ∈ ((g :: gap ++ u :: more).dropWhile Token.isTrivia).head? := by
          rw [List.dropWhile_append_of_pos skipped, List.dropWhile_cons, kept]
          rfl
        have noWord : Scan.isWordByte c ≠ true :=
          fun word => apart.1 literal spaced u next (begins.word word)
        refine ⟨fun b first word => ?_, fun x d rest whole hexMark _ => ?_⟩
        · obtain rfl : c = b := Option.some.inj first
          exact (noWord word).elim
        · obtain ⟨rfl, _⟩ := List.cons.inj whole
          rcases hexMark with rfl | rfl <;> exact (noWord (by decide)).elim

-- Every pair of neighbours is covered: whatever `t` is, what is written behind it lets it end
-- where it ended in the source.
theorem fits_spell {t : Token} (path : Run s ts last) (plain : ∀ u ∈ ts, u.kind ≠ .directive)
    (apart : Apart (t :: ts)) :
    Scan.Fits s.rest (spell (isWordLike t) (isOperator t) false ts ++ utf8 ")") t.lexeme := by
  obtain ⟨lexeme, span⟩ := t
  cases lexeme with
  | directive => trivial
  | comment => trivial
  | separator => trivial
  | operator => exact fun b mark first => operator_fits path plain mark first
  | literal => exact literal_fits path plain rfl apart
  | keyword => exact fun b first => spell_after_word _ _ _ first
  | word => exact fun b first => spell_after_word _ _ _ first

theorem run_left (path : Run s ts last) (more : last.rest ≠ []) : s.rest ≠ [] := by
  rw [← run_parts path]
  simp [more]

theorem run_endsVisibly (path : Run s ts last) (more : last.rest ≠ [])
    (plain : ∀ t ∈ ts, t.kind ≠ .directive) : ∀ t ∈ ts, t.isTrivia = false → EndsVisibly t := by
  induction path with
  | stop => intro t present; cases present
  | step found path ih =>
      obtain ⟨first, others⟩ := List.forall_mem_cons.mp plain
      refine List.forall_mem_cons.mpr ⟨fun visible => ?_, ih more others⟩
      obtain ⟨c, rest, _, read⟩ := next?_lexeme found
      exact ⟨(next?_parts _ _ _ found).1, Scan.lexeme_ends read visible first (run_left path more)⟩

def shown (ts : List Token) : List (List UInt8) := (ts.filter (!·.isSpace)).map Token.raw

theorem shown_step {n : Scanner} {c : UInt8} {rest left : List UInt8} {l : Lexeme}
    (start : n.rest = c :: rest) (found : Scan.lexeme n.context c rest = (l, left)) :
    ∃ after : Scanner, after.rest = left ∧ after.context = n.context.after l ∧
      shown n.tokens = if l.isSpace then shown after.tokens else l.raw :: shown after.tokens := by
  obtain ⟨t, after, tokens, rfl, left, context⟩ := tokens_of_lexeme start found
  refine ⟨after, left, context, ?_⟩
  rw [tokens, shown, List.filter_cons, ← Token.isSpace]
  cases t.isSpace with
  | true => rfl
  | false => rfl

theorem shown_blank {n : Scanner} {rest : List UInt8} (inLine : n.context.lineStart = false)
    (start : n.rest = utf8 " " ++ rest) : ∃ after : Scanner, after.rest = rest ∧
      after.context.lineStart = false ∧ shown n.tokens = shown after.tokens := by
  obtain ⟨after, left, context, same⟩ :=
    shown_step start (Scan.lexeme_separator n.context rest .space)
  exact ⟨after, left, by rw [context]; exact inLine, same⟩

theorem shown_token {t : Token} {middle n : Scanner} {other : List UInt8}
    (found : s.next? = some (t, middle)) (visible : t.isTrivia = false)
    (plain : t.kind ≠ .directive) (more : middle.rest ≠ [])
    (fits : Scan.Fits middle.rest other t.lexeme) (inLine : n.context.lineStart = false)
    (start : n.rest = t.raw ++ other) : ∃ after : Scanner, after.rest = other ∧
      after.context.lineStart = false ∧ shown n.tokens = t.raw :: shown after.tokens := by
  obtain ⟨c, rest, _, read⟩ := next?_lexeme found
  obtain ⟨rest', l, whole, again, raw, space⟩ :=
    Scan.lexeme_again read inLine visible plain more fits
  obtain ⟨after, left, context, same⟩ := shown_step (start.trans whole) again
  rw [space, if_neg Bool.false_ne_true, raw] at same
  exact ⟨after, left, by rw [context]; exact lineStart_after space, same⟩

-- Where the text is read is free: only that no line begins there.
theorem shown_spell (path : Run s ts last) (more : last.rest ≠ [])
    (plain : ∀ t ∈ ts, t.kind ≠ .directive) (apart : Apart ts) {n : Scanner}
    (inLine : n.context.lineStart = false) (afterWord afterOperator gap : Bool)
    (start : n.rest = spell afterWord afterOperator gap ts ++ utf8 ")") :
    shown n.tokens = (ts.filter (!·.isTrivia)).map Token.raw ++ [utf8 ")"] := by
  induction path generalizing n afterWord afterOperator gap with
  | stop =>
      obtain ⟨after, left, _, same⟩ :=
        shown_step start (Scan.lexeme_separator n.context [] .closeParen)
      rw [same, tokens_of_empty left]
      rfl
  | @step t middle ts last s found path ih =>
      obtain ⟨plainFirst, plainOthers⟩ := List.forall_mem_cons.mp plain
      cases trivia : t.isTrivia with
      | true =>
          rw [spell, trivia, if_pos rfl] at start
          rw [ih more plainOthers apart.2 inLine _ _ _ start, List.filter_cons, trivia]
          rfl
      | false =>
          have fits := fits_spell path plainOthers apart
          rw [spell, trivia, if_neg Bool.false_ne_true] at start
          obtain ⟨m, written, inLine, same⟩ : ∃ m : Scanner, m.rest = t.raw ++
              (spell (isWordLike t) (isOperator t) false ts ++ utf8 ")") ∧
              m.context.lineStart = false ∧ shown n.tokens = shown m.tokens := by
            split at start
            · exact shown_blank inLine (by simpa using start)
            · exact ⟨n, by simpa using start, inLine, rfl⟩
          obtain ⟨after, left, inLine, again⟩ :=
            shown_token found trivia plainFirst (run_left path more) fits inLine written
          rw [same, again, ih more plainOthers apart.2 inLine _ _ _ left, List.filter_cons, trivia]
          rfl

end Scanner

end NwscriptBindings
