import NwscriptBindings.Proofs.Binding.FloatLiterals
import NwscriptBindings.Proofs.Grammar.Spelling
import NwscriptBindings.Proofs.Token.Closing
import NwscriptBindings.Proofs.Token.Lexemes

namespace NwscriptBindings

open Grammar
open NwscriptBindings.Parser (Terminal)

namespace Token

def visible (ts : List Token) : List Lexeme := (ts.filter (!·.isTrivia)).map Token.lexeme

def visibleText (ts : List Token) : List UInt8 := (visible ts).flatMap Lexeme.raw

theorem visible_trivia_iff {ts : List Token} : visible ts = [] ↔ ∀ t ∈ ts, t.isTrivia = true := by
  simp [visible, List.filter_eq_nil_iff]

theorem visible_append (ts us : List Token) : visible (ts ++ us) = visible ts ++ visible us := by
  simp [visible]

theorem mem_visible {ts : List Token} {t : Token} (present : t ∈ ts) (kept : t.isTrivia = false) :
    t.lexeme ∈ visible ts :=
  List.mem_map_of_mem (List.mem_filter.mpr ⟨present, by simp [kept]⟩)

theorem visible_cons {ts : List Token} {a : Lexeme} {more : List Lexeme}
    (shown : visible ts = a :: more) :
    ∃ gap t rest, ts = gap ++ t :: rest ∧ (∀ g ∈ gap, g.isTrivia = true) ∧ t.isTrivia = false ∧
      t.lexeme = a ∧ visible rest = more := by
  obtain ⟨t, others, parts, same, later⟩ := List.map_eq_cons_iff.mp shown
  obtain ⟨gap, rest, rfl, skipped, kept, left⟩ := List.filter_eq_cons_iff.mp parts
  refine ⟨gap, t, rest, rfl, ?_, by simpa using kept, same, by rw [visible, left, later]⟩
  intro g present
  simpa using skipped g present

def EndsVisible (ts : List Token) : Prop := ∀ t ∈ ts.getLast?, t.isTrivia = false

theorem EndsVisible.back {front ts : List Token} (ends : EndsVisible (front ++ ts)) :
    EndsVisible ts := by
  intro t last
  refine ends t ?_
  rw [List.getLast?_append, Option.mem_def.mp last]
  rfl

theorem EndsVisible.eq_nil {ts : List Token} (ends : EndsVisible ts) (none : visible ts = []) :
    ts = [] := by
  cases last : ts.getLast? with
  | none => exact List.getLast?_eq_none_iff.mp last
  | some t =>
      have trivia := visible_trivia_iff.mp none t (List.mem_of_getLast? last)
      rw [ends t last] at trivia
      cases trivia

theorem endsVisible_of_terminal {l : Lexeme} {ts : List Token} (next : Terminal l ts)
    (front : List Token) : EndsVisible (front ++ ts) := by
  obtain ⟨t, ⟨gap, rfl, _, kept⟩, _⟩ := next
  intro last shown
  rw [← List.append_assoc, List.getLast?_concat] at shown
  cases shown
  exact kept

end Token

open Token

-- A literal that nothing cuts short: it is closed, and its bytes are read as it wherever they are.
structure RawLiteral.Complete (l : RawLiteral) : Prop where
  closed : ∀ body, l ≠ .string body false
  ends : l.raw ≠ [] ∧ l.raw.getLast? ≠ some (byte ' ')
  reread : ∀ context, Scan.lexemes context l.raw = [.literal l]

theorem Scan.literal_again {before : ScanContext} {c : UInt8} {rest left : List UInt8}
    {l : RawLiteral} (takes : Takes before c rest (.literal l) left)
    (closed : ∀ body, l ≠ .string body false) (context : ScanContext) :
    ∃ others, l.raw = c :: others ∧ lexeme context c others = (.literal l, []) := by
  rcases takes_literal takes with ⟨rfl, shown, _⟩ | ⟨digit, shown, _⟩
  · cases cut : stringCut rest with
    | mk body mark left =>
        rw [cut] at shown
        cases mark with
        | false => exact (closed body shown).elim
        | true =>
            rw [shown]
            refine ⟨body ++ [byte '"'], ?_, string_again context [] cut⟩
            rw [RawLiteral.raw, closingMark, List.append_assoc]
            rfl
  · have fits : Fits (number (c :: rest)).2 [] (.literal (number (c :: rest)).1) := by
      simp [Fits, Follows]
    obtain ⟨digits, raw, read⟩ := numeral_again context digit rfl fits
    rw [List.append_nil] at read
    rw [shown]
    exact ⟨digits, raw, read⟩

namespace Scanner

theorem tokenize_complete {source : List UInt8} {before more : List Token} {t : Token}
    {l : RawLiteral} (parts : tokenize source = before ++ t :: more) (follows : more ≠ [])
    (same : t.lexeme = .literal l) : l.Complete := by
  have closed : ∀ body, l ≠ .string body false := by
    rintro body rfl
    exact follows (tokenize_unfinished parts (.inl ⟨body, same⟩)).1
  obtain ⟨here, after, last, _, found, later, _⟩ := tokenize_step parts
  have left : after.rest ≠ [] := by
    intro none
    have bound := run_bound later
    rw [none, List.length_nil] at bound
    exact follows (List.length_eq_zero_iff.mp (by omega))
  refine ⟨closed, ?_, fun context => ?_⟩
  · obtain ⟨_, _, _, read⟩ := next?_lexeme found
    have nonempty := (next?_parts _ _ _ found).1
    rw [same] at read
    rw [Token.raw, same] at nonempty
    exact ⟨nonempty, Scan.lexeme_ends read rfl (by simp [Lexeme.kind]) left⟩
  · obtain ⟨c, rest, _, takes⟩ := next?_takes found
    rw [same] at takes
    obtain ⟨others, raw, read⟩ := Scan.literal_again takes closed context
    rw [raw, Scan.lexemes_cons read, Scan.lexemes_nil]

theorem tokenize_literals {source : List UInt8} {before ts after : List Token}
    (parts : tokenize source = before ++ (ts ++ after)) (follows : after ≠ []) :
    ∀ raw, .literal raw ∈ visible ts → raw.Complete := by
  intro raw shown
  obtain ⟨t, kept, same⟩ := List.mem_map.mp shown
  obtain ⟨front, back, rfl⟩ := List.append_of_mem (List.mem_filter.mp kept).1
  have place : tokenize source = (before ++ front) ++ t :: (back ++ after) := by simp [parts]
  exact tokenize_complete place (by simp [follows]) same

end Scanner

namespace Literal

-- An int or a string with the lexemes that spell it.
inductive Spelled : Literal → List Lexeme → Prop where
  | int {text : List UInt8} {v : Int32} : intValue? false text = some v →
      Spelled (.int v text) [.literal (.int text)]
  | negative {text : List UInt8} {v : Int32} : intValue? true text = some v →
      Spelled (.int v (utf8 "-" ++ text)) [.operator .minus, .literal (.int text)]
  | string {body : List UInt8} {closed : Bool} :
      Spelled (.string body) [.literal (.string body closed)]

variable {l : Literal} {ls : List Lexeme} {ts : List Token}

theorem Spelled.mem {a : Lexeme} (spelled : Spelled l ls) (present : a ∈ ls) :
    a = .operator .minus ∨ ∃ raw, a = .literal raw := by
  cases spelled with
  | int | string => exact .inr ⟨_, List.mem_singleton.mp present⟩
  | negative =>
      rcases List.mem_cons.mp present with sign | number
      · exact .inl sign
      · exact .inr ⟨_, List.mem_singleton.mp number⟩

theorem terminal_of_visible {a : Lexeme} (shown : visible ts = [a]) (ends : EndsVisible ts) :
    Terminal a ts := by
  obtain ⟨gap, t, rest, rfl, skipped, kept, same, none⟩ := visible_cons shown
  rw [List.append_cons] at ends
  obtain rfl := ends.back.eq_nil none
  exact ⟨t, ⟨gap, rfl, skipped, kept⟩, same⟩

-- Whatever trivia stands between its tokens, the grammar derives the literal from them.
theorem Spelled.rule (spelled : Spelled l (visible ts)) (ends : EndsVisible ts) :
    LiteralRule l ts := by
  generalize shown : visible ts = ls at spelled
  cases spelled with
  | @int text v value =>
      refine .number (.plain (terminal_of_visible shown ends) ?_)
      rw [Parser.numberLiteral, value]
      rfl
  | @negative text v value =>
      obtain ⟨gap, t, rest, rfl, skipped, kept, same, later⟩ := visible_cons shown
      have sign : Terminal (.operator .minus) (gap ++ [t]) := ⟨t, ⟨gap, rfl, skipped, kept⟩, same⟩
      rw [List.append_cons] at ends ⊢
      refine .number (.negative sign (terminal_of_visible later ends.back) ?_)
      rw [Parser.numberLiteral, value]
      rfl
  | string => exact .string (terminal_of_visible shown ends)

theorem Spelled.default (spelled : Spelled l ls)
    (complete : ∀ raw, .literal raw ∈ ls → raw.Complete) :
    defaultText? (.literal l) = some (ls.flatMap Lexeme.raw) := by
  cases spelled with
  | int =>
      rw [List.flatMap_singleton]
      rfl
  | negative =>
      rw [List.flatMap_cons, List.flatMap_singleton]
      rfl
  | @string body closed =>
      cases closed with
      | false => exact ((complete _ List.mem_cons_self).closed body rfl).elim
      | true =>
          rw [List.flatMap_singleton]
          rfl

theorem Spelled.lexemes (spelled : Spelled l ls)
    (complete : ∀ raw, .literal raw ∈ ls → raw.Complete) :
    Scan.lexemes {} (ls.flatMap Lexeme.raw) = ls := by
  cases spelled with
  | @int text v value =>
      rw [List.flatMap_singleton]
      exact (complete (.int text) (by simp)).reread {}
  | @negative text v value =>
      have sign := Scan.lexeme_operator {} text (o := .minus) (by simp)
      have number := (complete (.int text) (by simp)).reread
        (ScanContext.after {} (.operator .minus))
      rw [List.flatMap_cons, List.flatMap_singleton]
      exact (Scan.lexemes_cons sign).trans (congrArg (_ :: ·) number)
  | @string body closed =>
      rw [List.flatMap_singleton]
      exact (complete (.string body closed) (by simp)).reread {}

theorem spell_visible {a : Lexeme} {more : List Lexeme} (shown : visible ts = a :: more)
    (afterOperator gap : Bool) (apart : a.kind = .operator → afterOperator = false) :
    ∃ rest, visible rest = more ∧ Expr.spell false afterOperator gap ts = a.raw ++
      Expr.spell (a.kind == .keyword || a.kind == .word) (a.kind == .operator) false rest := by
  obtain ⟨front, t, rest, rfl, skipped, kept, rfl, later⟩ := visible_cons shown
  have space : ¬ ((gap || !front.isEmpty) && afterOperator && Expr.isOperator t) = true := by
    simp only [Bool.and_eq_true, Expr.isOperator, beq_iff_eq, Token.kind]
    rintro ⟨⟨_, after⟩, operator⟩
    rw [apart operator] at after
    cases after
  refine ⟨rest, later, ?_⟩
  rw [Expr.spell_trivia skipped, Expr.spell, kept, Bool.false_or, if_neg Bool.false_ne_true,
    if_neg space, List.nil_append]
  rfl

theorem spell_nothing (none : visible ts = []) (afterWord afterOperator gap : Bool) :
    Expr.spell afterWord afterOperator gap ts = [] := by
  rw [← List.append_nil ts]
  exact Expr.spell_trivia (visible_trivia_iff.mp none) afterWord afterOperator gap

theorem Spelled.spell (spelled : Spelled l (visible ts)) :
    Expr.spell false false false ts = visibleText ts := by
  unfold visibleText
  generalize shown : visible ts = ls at spelled
  cases spelled with
  | int | string =>
      obtain ⟨rest, none, first⟩ := spell_visible shown false false fun _ => rfl
      rw [first, spell_nothing none]
      rfl
  | negative =>
      obtain ⟨rest, later, first⟩ := spell_visible shown false false fun _ => rfl
      obtain ⟨others, none, second⟩ := spell_visible later true false (by simp [Lexeme.kind])
      rw [first]
      rw [spell_nothing none] at second
      exact congrArg (_ ++ ·) second

theorem Spelled.textOf (spelled : Spelled l (visible ts))
    (complete : ∀ raw, .literal raw ∈ visible ts → raw.Complete) :
    Expr.textOf ts = visibleText ts := by
  refine (Expr.textOf_spell fun t present kept => ?_).trans spelled.spell
  have shown := mem_visible present kept
  rw [Expr.EndsVisibly, Token.raw]
  rcases spelled.mem shown with sign | ⟨raw, same⟩
  · rw [sign]
    decide
  · rw [same] at shown ⊢
    exact (complete raw shown).ends

theorem Spelled.constantText {e : Traced Expr} {type : BasicType}
    (spelled : Spelled l (visible e.tokens)) (ends : EndsVisible e.tokens)
    (other : type = .float → ∃ body, l = .string body) :
    NwscriptBindings.constantText type e = e.content.text := by
  rw [NwscriptBindings.constantText, literalOf?_of_rule (spelled.rule ends)]
  generalize visible e.tokens = ls at spelled
  cases spelled with
  | int | negative =>
      refine if_neg fun float => ?_
      obtain ⟨body, same⟩ := other float
      cases same
  | string => rfl

theorem Spelled.reread (spelled : Spelled l ls)
    (complete : ∀ raw, .literal raw ∈ ls → raw.Complete) :
    ∃ own, literalOf? (tokenize (ls.flatMap Lexeme.raw)) = some ⟨l, own⟩ := by
  have again : (tokenize (ls.flatMap Lexeme.raw)).map Token.lexeme = ls :=
    spelled.lexemes complete
  generalize tokenize (ls.flatMap Lexeme.raw) = ts at again
  have kept : ∀ t ∈ ts, t.isTrivia = false := by
    intro t present
    have shown : t.lexeme ∈ ls := again ▸ List.mem_map_of_mem present
    rw [Token.isTrivia]
    rcases spelled.mem shown with same | ⟨raw, same⟩
    · rw [same]
      rfl
    · rw [same]
      rfl
  have same : visible ts = ls := by
    rw [visible, List.filter_eq_self.mpr fun t present => by simp [kept t present], again]
  have last : EndsVisible ts := fun t shown => kept t (List.mem_of_getLast? shown)
  exact ⟨_, literalOf?_of_rule (Spelled.rule (same ▸ spelled) last)⟩

-- The tokens are read as the literal, and both ways to write it give the text of these tokens
-- alone, which is read as it again. An expression states it as it was captured, a value as it was
-- parsed.
structure Agrees (l : Literal) (ts : List Token) : Prop where
  read : ∃ own, literalOf? ts = some ⟨l, own⟩
  captured : ∀ (e : Traced Expr) (type : BasicType), e.tokens = ts →
    e.content.text = Expr.textOf ts → (type = .float → ∃ body, l = .string body) →
    constantText type e = visibleText ts
  parsed : defaultText? (.literal l) = some (visibleText ts)
  reread : ∃ own, literalOf? (tokenize (visibleText ts)) = some ⟨l, own⟩

theorem Spelled.agrees (spelled : Spelled l (visible ts)) (ends : EndsVisible ts)
    (complete : ∀ raw, .literal raw ∈ visible ts → raw.Complete) : l.Agrees ts where
  read := ⟨_, literalOf?_of_rule (spelled.rule ends)⟩
  captured := by
    rintro e type rfl text other
    rw [spelled.constantText ends other, text, spelled.textOf complete]
  parsed := spelled.default complete
  reread := spelled.reread complete

end Literal
end NwscriptBindings
