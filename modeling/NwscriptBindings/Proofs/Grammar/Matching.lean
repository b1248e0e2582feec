import Mathlib.Data.Nat.Find
import NwscriptBindings.Proofs.Grammar.Attempts
import NwscriptBindings.Proofs.Grammar.Reemission

namespace NwscriptBindings

def openings (ts : List Token) : Nat := ts.countP (·.lexeme == .separator .openParen)

def closings (ts : List Token) : Nat := ts.countP (·.lexeme == .separator .closeParen)

def Matched (ts : List Token) : Prop :=
  closings ts = openings ts ∧ ∀ n, closings (ts.take n) ≤ openings (ts.take n)

def Least (holds : Nat → Prop) (i : Nat) : Prop := holds i ∧ ∀ j < i, ¬ holds j

theorem exists_least {holds : Nat → Prop} (some : ∃ i, holds i) : ∃ i, Least holds i := by
  classical
  exact ⟨Nat.find some, Nat.find_spec some, fun _ before => Nat.find_min some before⟩

section counting

variable {depth inner : Nat} {t : Token} {ts : List Token}

def Levels (depth : Nat) (ts : List Token) : Prop :=
  closings ts = depth + openings ts ∧ ∀ n, closings (ts.take n) ≤ depth + openings (ts.take n)

theorem matched_iff : Matched ts ↔ Levels 0 ts := by
  simp only [Matched, Levels, Nat.zero_add]

theorem levels_nil_iff : Levels depth [] ↔ depth = 0 := by
  simp [Levels, openings, closings, eq_comm]

theorem counts_cons (counted : Counted t depth inner) (ts : List Token) :
    closings (t :: ts) + inner + openings ts = closings ts + depth + openings (t :: ts) := by
  rw [openings, openings, closings, closings, List.countP_cons, List.countP_cons]
  cases counted with
  | opened opens =>
      simp [opens]
      omega
  | closed closes =>
      simp [closes]
      omega
  | other plain free => simp [plain, free]

theorem levels_cons_iff (counted : Counted t depth inner) :
    Levels depth (t :: ts) ↔ Levels inner ts := by
  have whole := counts_cons counted ts
  constructor
  · intro levels
    refine ⟨by have := levels.1; omega, fun n => ?_⟩
    have front := levels.2 (n + 1)
    have part := counts_cons counted (ts.take n)
    rw [List.take_succ_cons] at front
    omega
  · intro levels
    refine ⟨by have := levels.1; omega, fun n => ?_⟩
    cases n with
    | zero => simp [closings]
    | succ n =>
        have front := levels.2 n
        have part := counts_cons counted (ts.take n)
        rw [List.take_succ_cons]
        omega

theorem levels_counted (levels : Levels depth (t :: ts)) : ∃ inner, Counted t depth inner := by
  by_cases opens : t.lexeme = .separator .openParen
  · exact ⟨depth + 1, .opened opens⟩
  by_cases closes : t.lexeme = .separator .closeParen
  · have front := levels.2 1
    simp [closings, openings, closes] at front
    obtain ⟨inner, rfl⟩ : ∃ inner, depth = inner + 1 := ⟨depth - 1, by omega⟩
    exact ⟨inner, .closed closes⟩
  · exact ⟨depth, .other opens closes⟩

end counting

section walking

-- Index `i` ends a range behind `depth` open parentheses: its token stops and none before it is
-- barred.
structure EndsAt (stops barred : Token → Prop) (depth : Nat) (ts : List Token) (i : Nat) :
    Prop where
  stops : ∃ t, ts[i]? = some t ∧ stops t
  free : ∀ t ∈ ts.take i, ¬ barred t
  levels : Levels depth (ts.take i)

variable {stops barred : Token → Prop} {depth inner i : Nat} {t : Token} {ts range : List Token}

theorem endsAt_nil : ¬ EndsAt stops barred depth [] i := by
  intro ended
  obtain ⟨t, found, _⟩ := ended.stops
  cases found

theorem endsAt_zero_iff : EndsAt stops barred depth (t :: ts) 0 ↔ stops t ∧ depth = 0 := by
  constructor
  · intro ended
    obtain ⟨u, found, stop⟩ := ended.stops
    cases found
    exact ⟨stop, levels_nil_iff.mp ended.levels⟩
  · intro given
    obtain ⟨stop, outside⟩ := given
    exact ⟨⟨t, rfl, stop⟩, by simp, levels_nil_iff.mpr outside⟩

theorem endsAt_succ_iff (counted : Counted t depth inner) :
    EndsAt stops barred depth (t :: ts) (i + 1) ↔ ¬ barred t ∧ EndsAt stops barred inner ts i := by
  constructor
  · intro given
    obtain ⟨stop, free, levels⟩ := given
    rw [List.take_succ_cons] at free levels
    obtain ⟨first, others⟩ := List.forall_mem_cons.mp free
    exact ⟨first, by simpa using stop, others, (levels_cons_iff counted).mp levels⟩
  · intro given
    obtain ⟨first, stop, others, levels⟩ := given
    refine ⟨by simpa using stop, ?_, ?_⟩
    · rw [List.take_succ_cons]
      exact List.forall_mem_cons.mpr ⟨first, others⟩
    · rw [List.take_succ_cons]
      exact (levels_cons_iff counted).mpr levels

theorem endsAt_succ_counted (ended : EndsAt stops barred depth (t :: ts) (i + 1)) :
    ∃ inner, Counted t depth inner := by
  have levels := ended.levels
  rw [List.take_succ_cons] at levels
  exact levels_counted levels

-- A rule that counts parentheses, ends where `stops` holds at depth zero and refuses what is
-- barred.
structure Walks (rule : Nat → Token → Verdict) (stops barred : Token → Prop) : Prop where
  ends : ∀ d t, rule d t = .ends ↔ stops t ∧ d = 0
  goes : ∀ d t d', rule d t = .goes d' ↔ ¬ (stops t ∧ d = 0) ∧ Counted t d d' ∧ ¬ barred t

variable {rule : Nat → Token → Verdict} (walks : Walks rule stops barred)
include walks

theorem refused_never_ends (refused : rule depth t = .refuses) :
    ¬ EndsAt stops barred depth (t :: ts) i := by
  have going : ¬ (stops t ∧ depth = 0) := by
    intro stop
    rw [(walks.ends depth t).mpr stop] at refused
    cases refused
  intro ended
  cases i with
  | zero => exact going (endsAt_zero_iff.mp ended)
  | succ i =>
      obtain ⟨inner, counted⟩ := endsAt_succ_counted ended
      have passed : rule depth t = .goes inner :=
        (walks.goes depth t inner).mpr ⟨going, counted, ((endsAt_succ_iff counted).mp ended).1⟩
      rw [passed] at refused
      cases refused

-- The index counts down with the tokens, and one step of the walk is one step of the range.
theorem rangeBy_least_iff : rangeBy rule depth ts = some range ↔
    ∃ i, Least (EndsAt stops barred depth ts) i ∧ range = ts.take i := by
  induction ts generalizing depth range with
  | nil =>
      constructor
      · intro found
        cases found
      · intro given
        obtain ⟨i, least, _⟩ := given
        exact (endsAt_nil least.1).elim
  | cons t ts ih =>
      rw [rangeBy]
      cases verdict : rule depth t with
      | refuses =>
          constructor
          · intro found
            cases found
          · intro given
            obtain ⟨i, least, _⟩ := given
            exact (refused_never_ends walks verdict least.1).elim
      | ends =>
          have here : EndsAt stops barred depth (t :: ts) 0 :=
            endsAt_zero_iff.mpr ((walks.ends depth t).mp verdict)
          constructor
          · intro found
            cases found
            exact ⟨0, ⟨here, by simp⟩, rfl⟩
          · intro given
            obtain ⟨i, least, shown⟩ := given
            cases i with
            | zero => rw [shown, List.take_zero]
            | succ i => exact (least.2 0 (Nat.succ_pos i) here).elim
      | goes inner =>
          obtain ⟨going, counted, free⟩ := (walks.goes depth t inner).mp verdict
          have later : ∀ j, EndsAt stops barred depth (t :: ts) (j + 1) ↔
              EndsAt stops barred inner ts j := by
            intro j
            rw [endsAt_succ_iff counted, and_iff_right free]
          simp only [Option.map_eq_some_iff, ih]
          constructor
          · intro given
            obtain ⟨more, ⟨i, least, shown⟩, whole⟩ := given
            refine ⟨i + 1, ⟨(later i).mpr least.1, ?_⟩, by rw [← whole, shown, List.take_succ_cons]⟩
            intro j before ended
            cases j with
            | zero => exact going (endsAt_zero_iff.mp ended)
            | succ j => exact least.2 j (by omega) ((later j).mp ended)
          · intro given
            obtain ⟨i, least, shown⟩ := given
            cases i with
            | zero => exact (going (endsAt_zero_iff.mp least.1)).elim
            | succ i =>
                refine ⟨ts.take i, ⟨i, ⟨(later i).mp least.1, ?_⟩, rfl⟩, by rw [shown]; rfl⟩
                intro j before ended
                exact least.2 (j + 1) (by omega) ((later j).mpr ended)

end walking

section rules

def IsBrace (t : Token) : Prop :=
  t.lexeme = .separator .openBrace ∨ t.lexeme = .separator .closeBrace

def enclosable : List Separator :=
  [.space, .tab, .newline, .openParen, .closeParen, .comma, .openBracket, .closeBracket]

def Unenclosable (t : Token) : Prop := ∃ s, t.lexeme = .separator s ∧ s ∉ enclosable

theorem upToRule_walks {stop : Separator} (visible : stop.isSpace = false) :
    Walks (upToRule stop) (fun t => t.lexeme = .separator stop) IsBrace where
  ends _ _ := by simp [upToRule_ends_iff, visible]
  goes _ _ _ := by simp [upToRule_goes_iff, visible, IsBrace]

theorem unenclosable_iff {t : Token} : Unenclosable t ↔ t.lexeme = .separator .semicolon ∨
    t.lexeme = .separator .openBrace ∨ t.lexeme = .separator .closeBrace := by
  unfold Unenclosable
  cases t.lexeme with
  | separator s => cases s <;> simp [enclosable]
  | _ => simp

theorem enclosedRule_walks :
    Walks enclosedRule (fun t => t.lexeme = .separator .closeParen) Unenclosable where
  ends _ _ := enclosedRule_ends_iff
  goes _ _ _ := by rw [enclosedRule_goes_iff, unenclosable_iff, not_or, not_or]

end rules

structure EndsRange (stop : Separator) (toks : List Token) (cursor i : Nat) : Prop where
  behind : cursor ≤ i
  stops : ∃ t, toks[i]? = some t ∧ t.lexeme = .separator stop
  unbraced : ∀ t ∈ toks.extract cursor i, ¬ IsBrace t
  matched : Matched (toks.extract cursor i)

structure Encloses (toks : List Token) (cursor opened i : Nat) : Prop where
  behind : cursor ≤ opened
  skipped : ∀ t ∈ toks.extract cursor opened, t.isTrivia = true
  opens : ∃ t, toks[opened]? = some t ∧ t.lexeme = .separator .openParen
  inside : opened < i
  closes : ∃ t, toks[i]? = some t ∧ t.lexeme = .separator .closeParen
  plain : ∀ t ∈ toks.extract (opened + 1) i, ∀ s, t.lexeme = .separator s → s ∈ enclosable
  matched : Matched (toks.extract (opened + 1) i)

structure Spans (own range : List Token) : Prop where
  parts : ∃ front back, range = front ++ (own ++ back) ∧
    (∀ t ∈ front, t.isTrivia = true) ∧ ∀ t ∈ back, t.isTrivia = true
  first : ∀ t ∈ own.head?, t.isTrivia = false
  last : ∀ t ∈ own.getLast?, t.isTrivia = false

section stretches

variable {toks : List Token} {cursor opened i : Nat}

theorem extract_append_drop (behind : cursor ≤ i) :
    toks.extract cursor i ++ toks.drop i = toks.drop cursor := by
  have parts := List.take_append_drop (i - cursor) (toks.drop cursor)
  rwa [List.drop_drop, Nat.add_sub_cancel' behind] at parts

theorem drop_of_getElem? {t : Token} (found : toks[i]? = some t) :
    toks.drop i = t :: toks.drop (i + 1) := by
  obtain ⟨inside, rfl⟩ := List.getElem?_eq_some_iff.mp found
  exact List.drop_eq_getElem_cons inside

theorem getElem?_of_drop {front rest : List Token} {t : Token}
    (parts : toks.drop cursor = front ++ t :: rest) : toks[cursor + front.length]? = some t := by
  rw [← List.getElem?_drop, parts]
  simp

theorem drop_behind {front rest : List Token} {t : Token}
    (parts : toks.drop cursor = front ++ t :: rest) :
    toks.drop (cursor + front.length + 1) = rest := by
  rw [Nat.add_assoc, ← List.drop_drop, parts]
  simp

theorem extract_of_drop {front rest : List Token} (parts : toks.drop cursor = front ++ rest) :
    toks.extract cursor (cursor + front.length) = front := by
  rw [List.extract, parts, Nat.add_sub_cancel_left, List.take_left]

theorem trimTrivia_spans (range : List Token) : Spans (trimTrivia range) range :=
  ⟨trimTrivia_parts range, trimTrivia_first range, trimTrivia_last range⟩

end stretches

namespace Parser

variable {toks : List Token} {cursor opened i : Nat} {stop : Separator}

theorem endsRange_iff : EndsRange stop toks cursor i ↔ cursor ≤ i ∧
    EndsAt (fun t => t.lexeme = .separator stop) IsBrace 0 (toks.drop cursor) (i - cursor) := by
  constructor
  · intro ended
    refine ⟨ended.behind, ?_, ended.unbraced, matched_iff.mp ended.matched⟩
    rw [List.getElem?_drop, Nat.add_sub_cancel' ended.behind]
    exact ended.stops
  · intro given
    obtain ⟨behind, stops, free, levels⟩ := given
    rw [List.getElem?_drop, Nat.add_sub_cancel' behind] at stops
    exact ⟨behind, stops, free, matched_iff.mpr levels⟩

theorem least_endsRange_iff : Least (EndsRange stop toks cursor) i ↔ cursor ≤ i ∧
    Least (EndsAt (fun t => t.lexeme = .separator stop) IsBrace 0 (toks.drop cursor))
      (i - cursor) := by
  constructor
  · intro least
    obtain ⟨behind, ended⟩ := endsRange_iff.mp least.1
    refine ⟨behind, ended, fun j before earlier => ?_⟩
    apply least.2 (cursor + j) (by omega)
    rw [endsRange_iff, Nat.add_sub_cancel_left]
    exact ⟨by omega, earlier⟩
  · intro given
    obtain ⟨behind, ended, first⟩ := given
    refine ⟨endsRange_iff.mpr ⟨behind, ended⟩, fun j before earlier => ?_⟩
    obtain ⟨later, earlier⟩ := endsRange_iff.mp earlier
    exact first (j - cursor) (by omega) earlier

theorem rangeUpTo_found (visible : stop.isSpace = false)
    (least : Least (EndsRange stop toks cursor) i) :
    rangeUpTo stop 0 (toks.drop cursor) = some (toks.extract cursor i) := by
  rw [rangeUpTo_eq, rangeBy_least_iff (upToRule_walks visible)]
  exact ⟨i - cursor, (least_endsRange_iff.mp least).2, rfl⟩

theorem rangeUpTo_missing
    (none : ¬ (stop.isSpace = false ∧ ∃ i, EndsRange stop toks cursor i)) :
    rangeUpTo stop 0 (toks.drop cursor) = .none := by
  cases found : rangeUpTo stop 0 (toks.drop cursor) with
  | none => rfl
  | some range =>
      rw [rangeUpTo_eq] at found
      have visible : stop.isSpace = false := by
        obtain ⟨_, _, _, ⟨_, ended⟩, _⟩ := rangeBy_split found
        exact (upToRule_ends_iff.mp ended).2.1
      rw [rangeBy_least_iff (upToRule_walks visible)] at found
      obtain ⟨k, least, _⟩ := found
      refine (none ⟨visible, cursor + k, endsRange_iff.mpr ⟨by omega, ?_⟩⟩).elim
      rw [Nat.add_sub_cancel_left]
      exact least.1

theorem attempt_arithmetic (visible : stop.isSpace = false)
    (least : Least (EndsRange stop toks cursor) i) :
    attempt (arithmetic stop) toks cursor =
      ⟨some ⟨⟨.arithmetic, Expr.textOf (toks.extract cursor i)⟩,
        trimTrivia (toks.extract cursor i)⟩, i + 1, none⟩ := by
  obtain ⟨behind, ⟨t, found, _⟩, _, _⟩ := least.1
  have inside := (List.getElem?_eq_some_iff.mp found).1
  have length : (toks.extract cursor i).length = i - cursor := by
    rw [List.extract, List.length_take, List.length_drop]
    omega
  rw [attempt, arithmetic, rangeUpTo_found visible least]
  simp only [length, Standing.mk.injEq, and_true, true_and]
  omega

theorem attempt_arithmetic_missing
    (none : ¬ (stop.isSpace = false ∧ ∃ i, EndsRange stop toks cursor i)) :
    attempt (arithmetic stop) toks cursor = ⟨.none, cursor, .none⟩ := by
  rw [attempt, arithmetic, rangeUpTo_missing none]

-- A later end would have this one in its range, where it closes nothing.
theorem closing_least {barred : Token → Prop} {depth : Nat} {ts : List Token}
    (ended : EndsAt (fun t => t.lexeme = .separator .closeParen) barred depth ts i) :
    Least (EndsAt (fun t => t.lexeme = .separator .closeParen) barred depth ts) i := by
  refine ⟨ended, fun j before earlier => ?_⟩
  obtain ⟨t, found, closes⟩ := earlier.stops
  have covered := ended.levels.2 (j + 1)
  have level := earlier.levels.1
  rw [List.take_take, Nat.min_eq_left before, List.take_add_one, found] at covered
  simp only [closings, openings, List.countP_append, Option.toList_some, List.countP_singleton,
    closes] at covered level
  simp at covered
  omega

theorem rangeEnclosed_iff {ts range : List Token} : rangeEnclosed 0 ts = some range ↔
    ∃ t rest, ts = range ++ t :: rest ∧ t.lexeme = .separator .closeParen ∧
      (∀ u ∈ range, ¬ Unenclosable u) ∧ Matched range := by
  rw [rangeEnclosed_eq, rangeBy_least_iff enclosedRule_walks]
  constructor
  · intro given
    obtain ⟨k, least, rfl⟩ := given
    obtain ⟨⟨t, found, closes⟩, free, levels⟩ := least.1
    refine ⟨t, ts.drop (k + 1), ?_, closes, free, matched_iff.mpr levels⟩
    rw [← drop_of_getElem? found, List.take_append_drop]
  · intro given
    obtain ⟨t, rest, rfl, closes, free, matched⟩ := given
    refine ⟨range.length, closing_least ⟨⟨t, by simp, closes⟩, ?_, ?_⟩, by simp⟩
    · rwa [List.take_left]
    · rw [List.take_left]
      exact matched_iff.mp matched

theorem encloses_iff : Encloses toks cursor opened i ↔ ∃ gap o range t rest,
    toks.drop cursor = gap ++ o :: (range ++ t :: rest) ∧ opened = cursor + gap.length ∧
      i = opened + 1 + range.length ∧ (∀ g ∈ gap, g.isTrivia = true) ∧
      o.lexeme = .separator .openParen ∧ t.lexeme = .separator .closeParen ∧
      (∀ u ∈ range, ¬ Unenclosable u) ∧ Matched range := by
  constructor
  · intro given
    obtain ⟨behind, skipped, ⟨o, found, opens⟩, inside, ⟨t, last, closes⟩, plain, matched⟩ := given
    have first := (List.getElem?_eq_some_iff.mp found).1
    have final := (List.getElem?_eq_some_iff.mp last).1
    refine ⟨_, o, _, t, toks.drop (i + 1), ?_, ?_, ?_, skipped, opens, closes, ?_, matched⟩
    · rw [← drop_of_getElem? last, extract_append_drop inside, ← drop_of_getElem? found,
        extract_append_drop behind]
    · rw [List.extract, List.length_take, List.length_drop]
      omega
    · rw [List.extract, List.length_take, List.length_drop]
      omega
    · intro u present barred
      obtain ⟨s, shown, other⟩ := barred
      exact other (plain u present s shown)
  · intro given
    obtain ⟨gap, o, range, t, rest, parts, rfl, rfl, skipped, opens, closes, free, matched⟩ := given
    have later := drop_behind parts
    have inner := extract_of_drop later
    refine ⟨by omega, ?_, ⟨o, getElem?_of_drop parts, opens⟩, by omega,
      ⟨t, getElem?_of_drop later, closes⟩, ?_, inner.symm ▸ matched⟩
    · rwa [extract_of_drop parts]
    · intro u present s shown
      rw [inner] at present
      exact Classical.byContradiction fun other => free u present ⟨s, shown, other⟩

theorem attempt_logical (enclosed : Encloses toks cursor opened i) :
    attempt logical toks cursor = ⟨some ⟨⟨.logical, Expr.textOf (toks.extract (opened + 1) i)⟩,
      (toks.extract (opened + 1) i).dropWhile Token.isSpace⟩, i + 1, none⟩ := by
  obtain ⟨gap, o, range, t, rest, parts, rfl, rfl, skipped, opens, closes, free, matched⟩ :=
    encloses_iff.mp enclosed
  rw [extract_of_drop (drop_behind parts)]
  have found : rangeEnclosed 0 (range ++ [t]) = some range :=
    rangeEnclosed_iff.mpr ⟨t, [], rfl, closes, free, matched⟩
  have mark : Terminal (.separator .openParen) (gap ++ [o]) :=
    terminal_of_token gap skipped opens rfl
  have read : Reads logical _ ((gap ++ [o]) ++ (range ++ [t])) rest :=
    reads_logical_iff.mpr ⟨gap ++ [o], range, t, rfl, mark, found, rfl⟩
  have whole : toks.drop cursor = ((gap ++ [o]) ++ (range ++ [t])) ++ rest := by
    rw [parts]
    simp
  rw [Reads, ← whole] at read
  rw [attempt, read]
  simp only [Standing.mk.injEq, List.length_append, List.length_singleton, true_and, and_true]
  omega

theorem encloses_of_logical {e : Traced Expr} {n : Nat}
    (accepted : logical (toks.drop cursor) = .accepted e n) :
    ∃ opened i, Encloses toks cursor opened i := by
  have quiet : Confined false logical := confined_logical
  have read := confined_reads quiet accepted
  obtain ⟨os, range, t, parts, ⟨o, ⟨gap, rfl, skipped, _⟩, opens⟩, found, _⟩ :=
    reads_logical_iff.mp read
  obtain ⟨u, rest, same, closes, free, matched⟩ := rangeEnclosed_iff.mp found
  obtain ⟨rfl, _⟩ := List.cons.inj (List.append_cancel_left same)
  have whole : toks.drop cursor = gap ++ o :: (range ++ t :: (toks.drop cursor).drop n) := by
    have split := (List.take_append_drop n (toks.drop cursor)).symm
    rw [parts] at split
    simpa using split
  exact ⟨_, _, encloses_iff.mpr
    ⟨gap, o, range, t, _, whole, rfl, rfl, skipped, opens, closes, free, matched⟩⟩

theorem attempt_logical_missing (none : ∀ opened i, ¬ Encloses toks cursor opened i) :
    attempt logical toks cursor = ⟨.none, cursor, .none⟩ := by
  rw [attempt]
  cases outcome : logical (toks.drop cursor) with
  | declined => rfl
  | failed f => exact (quiet_never_fails confined_logical outcome).elim
  | accepted e n =>
      obtain ⟨opened, i, enclosed⟩ := encloses_of_logical outcome
      exact (none opened i enclosed).elim

-- A closing parenthesis may be the end, go back one level or close nothing, and a semicolon inside
-- parentheses ends nothing; which of these it is, the counts alone decide. A blank or a line end is
-- passed over wherever it stands, so a range up to one is never found.
theorem capture_exact (toks : List Token) (cursor : Nat) :
    (∀ stop,
      let found := attempt (arithmetic stop) toks cursor
      (found.value.isSome ↔ stop.isSpace = false ∧ ∃ i, EndsRange stop toks cursor i) ∧
        (stop.isSpace = false → ∀ i, Least (EndsRange stop toks cursor) i →
          ∃ e, found = ⟨some e, i + 1, none⟩ ∧
            e.content = ⟨.arithmetic, Expr.textOf (toks.extract cursor i)⟩ ∧
            Spans e.tokens (toks.extract cursor i)) ∧
        (found.value = none → found.cursor = cursor)) ∧
      let found := attempt logical toks cursor
      (found.value.isSome ↔ ∃ opened i, Encloses toks cursor opened i) ∧
        (∀ opened i, Encloses toks cursor opened i → ∃ e, found = ⟨some e, i + 1, none⟩ ∧
          e.content = ⟨.logical, Expr.textOf (toks.extract (opened + 1) i)⟩ ∧
          e.tokens = (toks.extract (opened + 1) i).dropWhile Token.isSpace) ∧
        (found.value = none → found.cursor = cursor) := by
  refine ⟨fun stop => ?_, ?_⟩
  · intro found
    by_cases ends : stop.isSpace = false ∧ ∃ i, EndsRange stop toks cursor i
    · obtain ⟨visible, some⟩ := ends
      obtain ⟨i, least⟩ := exists_least some
      have reached := attempt_arithmetic visible least
      refine ⟨by simp [found, reached, visible, some], fun _ j other => ?_, by simp [found, reached]⟩
      exact ⟨_, attempt_arithmetic visible other, rfl, trimTrivia_spans _⟩
    · have missed : found = ⟨none, cursor, none⟩ := attempt_arithmetic_missing ends
      refine ⟨by simp only [missed, ends]; simp, fun visible i least => ?_, fun _ => by rw [missed]⟩
      exact (ends ⟨visible, i, least.1⟩).elim
  · intro found
    by_cases closes : ∃ opened i, Encloses toks cursor opened i
    · obtain ⟨opened, i, enclosed⟩ := closes
      have reached := attempt_logical enclosed
      refine ⟨⟨fun _ => ⟨opened, i, enclosed⟩, fun _ => by simp [found, reached]⟩,
        fun outer j other => ?_, by simp [found, reached]⟩
      exact ⟨_, attempt_logical other, rfl, rfl⟩
    · have missed : found = ⟨none, cursor, none⟩ :=
        attempt_logical_missing fun opened i enclosed => closes ⟨opened, i, enclosed⟩
      refine ⟨by simp [missed, closes], fun opened i enclosed => ?_, fun _ => by rw [missed]⟩
      exact (closes ⟨opened, i, enclosed⟩).elim

end Parser

end NwscriptBindings
