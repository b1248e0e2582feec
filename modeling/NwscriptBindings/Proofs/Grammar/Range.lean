import NwscriptBindings.Grammar.Capture

namespace NwscriptBindings

inductive Verdict where
  | ends
  | refuses
  | goes (depth : Nat)
deriving DecidableEq

def rangeBy (rule : Nat → Token → Verdict) : Nat → List Token → Option (List Token)
  | _, [] => none
  | depth, t :: rest =>
      match rule depth t with
      | .ends => some []
      | .refuses => none
      | .goes depth => (rangeBy rule depth rest).map (t :: ·)

-- An opening parenthesis goes deeper and a closing one back; at depth zero there is nothing to
-- go back to. Other separators are left to the rule in use.
def upToRule (stop : Separator) (depth : Nat) (t : Token) : Verdict :=
  match t.lexeme with
  | .separator s =>
      if s.isSpace then .goes depth
      else if s = stop ∧ depth = 0 then .ends
      else match s, depth with
        | .openParen, depth => .goes (depth + 1)
        | .closeParen, 0 => .refuses
        | .closeParen, depth + 1 => .goes depth
        | .openBrace, _ | .closeBrace, _ => .refuses
        | _, depth => .goes depth
  | _ => .goes depth

def enclosedRule (depth : Nat) (t : Token) : Verdict :=
  match t.lexeme with
  | .separator s =>
      match s, depth with
      | .openParen, depth => .goes (depth + 1)
      | .closeParen, 0 => .ends
      | .closeParen, depth + 1 => .goes depth
      | .semicolon, _ | .openBrace, _ | .closeBrace, _ => .refuses
      | _, depth => .goes depth
  | _ => .goes depth

theorem rangeUpTo_eq (stop : Separator) (depth : Nat) (ts : List Token) :
    rangeUpTo stop depth ts = rangeBy (upToRule stop) depth ts := by
  induction ts generalizing depth with
  | nil => rfl
  | cons t rest ih =>
      simp only [rangeUpTo, rangeBy, upToRule, ih]
      cases t.lexeme with
      | separator s =>
          simp only
          split
          · rfl
          · split
            · rfl
            · cases s <;> cases depth <;> rfl
      | _ => rfl

theorem rangeEnclosed_eq (depth : Nat) (ts : List Token) :
    rangeEnclosed depth ts = rangeBy enclosedRule depth ts := by
  induction ts generalizing depth with
  | nil => rfl
  | cons t rest ih =>
      simp only [rangeEnclosed, rangeBy, enclosedRule, ih]
      cases t.lexeme with
      | separator s => cases s <;> cases depth <;> rfl
      | _ => rfl

variable {rule : Nat → Token → Verdict} {depth : Nat} {ts range : List Token}

theorem rangeBy_split (found : rangeBy rule depth ts = some range) :
    ∃ t rest, ts = range ++ t :: rest ∧ (∃ inner, rule inner t = .ends) ∧
      ∀ other, rangeBy rule depth (range ++ t :: other) = some range := by
  induction ts generalizing depth range with
  | nil => cases found
  | cons t rest ih =>
      rw [rangeBy] at found
      cases verdict : rule depth t with
      | refuses => simp [verdict] at found
      | ends =>
          simp only [verdict, Option.some.injEq] at found
          subst found
          exact ⟨t, rest, rfl, ⟨depth, verdict⟩, fun other => by simp [rangeBy, verdict]⟩
      | goes inner =>
          simp only [verdict, Option.map_eq_some_iff] at found
          obtain ⟨more, later, rfl⟩ := found
          obtain ⟨last, behind, rfl, ended, local_⟩ := ih later
          exact ⟨last, behind, rfl, ended, fun other => by simp [rangeBy, verdict, local_ other]⟩

-- Blanks and line ends are passed over before the end is looked for, so none of them is an end.
theorem upToRule_ends_iff {stop : Separator} {t : Token} :
    upToRule stop depth t = .ends ↔
      t.lexeme = .separator stop ∧ stop.isSpace = false ∧ depth = 0 := by
  unfold upToRule
  cases t.lexeme with
  | separator s =>
      simp only [Lexeme.separator.injEq]
      split
      · rename_i blank
        simp only [reduceCtorEq, false_iff, not_and]
        rintro rfl visible
        rw [blank] at visible
        cases visible
      · split
        · simp_all
        · rename_i going
          cases s <;> cases depth <;> simp_all
  | _ => simp

theorem enclosedRule_ends_iff {t : Token} :
    enclosedRule depth t = .ends ↔ t.lexeme = .separator .closeParen ∧ depth = 0 := by
  unfold enclosedRule
  cases t.lexeme with
  | separator s => cases s <;> cases depth <;> simp
  | _ => simp

theorem rangeUpTo_split {stop : Separator} (found : rangeUpTo stop depth ts = some range) :
    ∃ t rest, ts = range ++ t :: rest ∧ t.lexeme = .separator stop ∧
      ∀ other, rangeUpTo stop depth (range ++ t :: other) = some range := by
  rw [rangeUpTo_eq] at found
  obtain ⟨t, rest, parts, ⟨inner, ended⟩, anywhere⟩ := rangeBy_split found
  exact ⟨t, rest, parts, (upToRule_ends_iff.mp ended).1,
    fun other => by rw [rangeUpTo_eq, anywhere]⟩

theorem rangeEnclosed_split (found : rangeEnclosed depth ts = some range) :
    ∃ t rest, ts = range ++ t :: rest ∧ t.lexeme = .separator .closeParen ∧
      ∀ other, rangeEnclosed depth (range ++ t :: other) = some range := by
  rw [rangeEnclosed_eq] at found
  obtain ⟨t, rest, parts, ⟨inner, ended⟩, anywhere⟩ := rangeBy_split found
  exact ⟨t, rest, parts, (enclosedRule_ends_iff.mp ended).1,
    fun other => by rw [rangeEnclosed_eq, anywhere]⟩

theorem rangeUpTo_gap {gap : List Token} {t : Token} (skipped : ∀ g ∈ gap, g.isTrivia = true)
    (ends : t.lexeme = .separator .semicolon) (rest : List Token) :
    rangeUpTo .semicolon 0 (gap ++ t :: rest) = some gap := by
  induction gap with
  | nil => simp [rangeUpTo, ends, Separator.isSpace]
  | cons g gap ih =>
      have later := ih fun u present => skipped u (List.mem_cons_of_mem _ present)
      have first := skipped g (List.mem_cons_self ..)
      rw [Token.isTrivia] at first
      cases shown : g.lexeme with
      | comment c => simp [rangeUpTo, shown, later]
      | separator s =>
          rw [shown] at first
          simp only [Lexeme.isTrivia] at first
          simp [rangeUpTo, shown, first, later]
      | _ => simp [shown, Lexeme.isTrivia] at first

-- Parentheses in pairs; whatever else stands between them does not matter.
inductive Balanced : List Token → Prop where
  | nil : Balanced []
  | other {t : Token} {ts : List Token} (plain : t.lexeme ≠ .separator .openParen)
      (free : t.lexeme ≠ .separator .closeParen) (rest : Balanced ts) : Balanced (t :: ts)
  | pair {o c : Token} {us vs : List Token} (opens : o.lexeme = .separator .openParen)
      (closes : c.lexeme = .separator .closeParen) (inside : Balanced us) (behind : Balanced vs) :
      Balanced (o :: (us ++ c :: vs))

inductive Closes : Nat → List Token → Prop where
  | done {ts : List Token} (whole : Balanced ts) : Closes 0 ts
  | close {depth : Nat} {c : Token} {us vs : List Token} (front : Balanced us)
      (closes : c.lexeme = .separator .closeParen) (behind : Closes depth vs) :
      Closes (depth + 1) (us ++ c :: vs)

theorem Closes.other {t : Token} (plain : t.lexeme ≠ .separator .openParen)
    (free : t.lexeme ≠ .separator .closeParen) (rest : Closes depth ts) :
    Closes depth (t :: ts) := by
  cases rest with
  | done whole => exact .done (.other plain free whole)
  | close front closes behind => exact .close (.other plain free front) closes behind

theorem Closes.opened {t : Token} (opens : t.lexeme = .separator .openParen)
    (rest : Closes (depth + 1) ts) : Closes depth (t :: ts) := by
  cases rest with
  | @close _ c us vs inside closes behind =>
      cases behind with
      | done whole => exact .done (.pair opens closes inside whole)
      | @close depth d ws xs front ends later =>
          have joined : Closes (depth + 1) ((t :: (us ++ c :: ws)) ++ d :: xs) :=
            .close (.pair opens closes inside front) ends later
          simpa using joined

inductive Counted (t : Token) : Nat → Nat → Prop where
  | opened {d : Nat} (opens : t.lexeme = .separator .openParen) : Counted t d (d + 1)
  | closed {d : Nat} (closes : t.lexeme = .separator .closeParen) : Counted t (d + 1) d
  | other {d : Nat} (plain : t.lexeme ≠ .separator .openParen)
      (free : t.lexeme ≠ .separator .closeParen) : Counted t d d

theorem counted_iff {t : Token} {inner : Nat} : Counted t depth inner ↔
    (t.lexeme = .separator .openParen ∧ inner = depth + 1) ∨
    (t.lexeme = .separator .closeParen ∧ depth = inner + 1) ∨
    (t.lexeme ≠ .separator .openParen ∧ t.lexeme ≠ .separator .closeParen ∧ inner = depth) := by
  constructor
  · intro counted
    cases counted with
    | opened opens => exact .inl ⟨opens, rfl⟩
    | closed closes => exact .inr (.inl ⟨closes, rfl⟩)
    | other plain free => exact .inr (.inr ⟨plain, free, rfl⟩)
  · rintro (⟨opens, rfl⟩ | ⟨closes, rfl⟩ | ⟨plain, free, rfl⟩)
    · exact .opened opens
    · exact .closed closes
    · exact .other plain free

theorem rangeBy_closes (counts : ∀ d t d', rule d t = .goes d' → Counted t d d')
    (ends : ∀ d t, rule d t = .ends → d = 0) (found : rangeBy rule depth ts = some range) :
    Closes depth range := by
  induction ts generalizing depth range with
  | nil => cases found
  | cons t rest ih =>
      rw [rangeBy] at found
      cases verdict : rule depth t with
      | refuses => simp [verdict] at found
      | ends =>
          simp only [verdict, Option.some.injEq] at found
          subst found
          rw [ends depth t verdict]
          exact .done .nil
      | goes inner =>
          simp only [verdict, Option.map_eq_some_iff] at found
          obtain ⟨more, later, rfl⟩ := found
          have behind := ih later
          cases counts depth t inner verdict with
          | opened opens => exact behind.opened opens
          | closed closes => exact .close .nil closes behind
          | other plain free => exact behind.other plain free

theorem rangeBy_forall {holds : Token → Prop} (goes : ∀ d t d', rule d t = .goes d' → holds t)
    (found : rangeBy rule depth ts = some range) : ∀ t ∈ range, holds t := by
  induction ts generalizing depth range with
  | nil => cases found
  | cons t rest ih =>
      rw [rangeBy] at found
      cases verdict : rule depth t with
      | refuses => simp [verdict] at found
      | ends =>
          simp only [verdict, Option.some.injEq] at found
          subst found
          simp
      | goes inner =>
          simp only [verdict, Option.map_eq_some_iff] at found
          obtain ⟨more, later, rfl⟩ := found
          exact List.forall_mem_cons.mpr ⟨goes depth t inner verdict, ih later⟩

theorem upToRule_goes_iff {stop : Separator} {t : Token} {inner : Nat} :
    upToRule stop depth t = .goes inner ↔
      ¬ (t.lexeme = .separator stop ∧ stop.isSpace = false ∧ depth = 0) ∧
      Counted t depth inner ∧ t.lexeme ≠ .separator .openBrace ∧
      t.lexeme ≠ .separator .closeBrace := by
  rw [← upToRule_ends_iff, counted_iff]
  unfold upToRule
  cases t.lexeme with
  | separator s =>
      simp only
      split
      · rename_i blank
        cases s <;> simp_all [Separator.isSpace, eq_comm]
      · split
        · simp
        · cases s <;> cases depth <;> simp_all [Separator.isSpace, eq_comm]
  | _ => simp [eq_comm]

theorem enclosedRule_goes_iff {t : Token} {inner : Nat} :
    enclosedRule depth t = .goes inner ↔ ¬ (t.lexeme = .separator .closeParen ∧ depth = 0) ∧
      Counted t depth inner ∧ t.lexeme ≠ .separator .semicolon ∧
      t.lexeme ≠ .separator .openBrace ∧ t.lexeme ≠ .separator .closeBrace := by
  rw [← enclosedRule_ends_iff, counted_iff]
  unfold enclosedRule
  cases t.lexeme with
  | separator s => cases s <;> cases depth <;> simp [eq_comm]
  | _ => simp [eq_comm]

theorem Closes.balanced (closed : Closes 0 ts) : Balanced ts := by
  cases closed with
  | done whole => exact whole

theorem rangeUpTo_balanced {stop : Separator} (found : rangeUpTo stop 0 ts = some range) :
    Balanced range ∧ ∀ t ∈ range, t.lexeme ≠ .separator .openBrace ∧
      t.lexeme ≠ .separator .closeBrace := by
  rw [rangeUpTo_eq] at found
  constructor
  · exact (rangeBy_closes (fun _ _ _ passed => (upToRule_goes_iff.mp passed).2.1)
      (fun _ _ ended => (upToRule_ends_iff.mp ended).2.2) found).balanced
  · exact rangeBy_forall (fun _ _ _ passed => (upToRule_goes_iff.mp passed).2.2) found

theorem rangeEnclosed_balanced (found : rangeEnclosed 0 ts = some range) :
    Balanced range ∧ ∀ t ∈ range, t.lexeme ≠ .separator .semicolon ∧
      t.lexeme ≠ .separator .openBrace ∧ t.lexeme ≠ .separator .closeBrace := by
  rw [rangeEnclosed_eq] at found
  constructor
  · exact (rangeBy_closes (fun _ _ _ passed => (enclosedRule_goes_iff.mp passed).2.1)
      (fun _ _ ended => (enclosedRule_ends_iff.mp ended).2) found).balanced
  · exact rangeBy_forall (fun _ _ _ passed => (enclosedRule_goes_iff.mp passed).2.2) found

theorem trivia_no_paren {t : Token} {s : Separator} (trivia : t.isTrivia = true)
    (paren : t.lexeme = .separator s) : s.isSpace = true := by
  simpa [Token.isTrivia, paren, Lexeme.isTrivia] using trivia

theorem Balanced.front {gap : List Token} (skipped : ∀ g ∈ gap, g.isTrivia = true)
    (balanced : Balanced (gap ++ ts)) : Balanced ts := by
  induction gap with
  | nil => exact balanced
  | cons g gap ih =>
      obtain ⟨trivia, others⟩ := List.forall_mem_cons.mp skipped
      generalize same : (g :: gap) ++ ts = whole at balanced
      cases balanced with
      | nil => cases same
      | other _ _ rest =>
          cases same
          exact ih others rest
      | pair opens _ _ _ =>
          obtain ⟨rfl, _⟩ := List.cons.inj same
          cases trivia_no_paren trivia opens

theorem Balanced.back {gap : List Token} (skipped : ∀ g ∈ gap, g.isTrivia = true)
    (balanced : Balanced (ts ++ gap)) : Balanced ts := by
  generalize same : ts ++ gap = whole at balanced
  induction balanced generalizing ts with
  | nil =>
      rw [(List.append_eq_nil_iff.mp same).1]
      exact .nil
  | other plain free _ ih =>
      cases ts with
      | nil => exact .nil
      | cons t ts =>
          cases same
          exact .other plain free (ih rfl)
  | @pair o c us vs opens closes inside _ _ ih =>
      cases ts with
      | nil => exact .nil
      | cons t ts =>
          obtain ⟨rfl, parts⟩ := List.cons.inj same
          rcases List.append_eq_append_iff.mp parts with ⟨more, _, cut⟩ | ⟨more, rfl, cut⟩
          · cases trivia_no_paren (skipped c (by simp [cut])) closes
          · cases more with
            | nil =>
                rw [List.nil_append] at cut
                cases trivia_no_paren (skipped c (by simp [← cut])) closes
            | cons d more =>
                obtain ⟨rfl, rest⟩ := List.cons.inj cut
                exact .pair opens closes inside (ih rest.symm)

end NwscriptBindings
