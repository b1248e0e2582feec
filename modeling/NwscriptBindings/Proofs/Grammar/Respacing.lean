import Mathlib.Data.List.Forall2
import NwscriptBindings.Proofs.Grammar.Progress
import NwscriptBindings.Proofs.Grammar.Reemission

namespace NwscriptBindings

-- `behind` tells that an operator stands directly in front of both lists.
inductive Respaced : Bool → List Token → List Token → Prop where
  | nil : Respaced behind [] []
  | keep {t : Token} {behind : Bool} {ts us : List Token} :
      Respaced (Expr.isOperator t) ts us → Respaced behind (t :: ts) (t :: us)
  | space {s : Token} {behind : Bool} {ts us : List Token} : s.isSpace = true →
      ¬ (behind = true ∧ ts.head?.any Expr.isOperator = true) → Respaced false ts us →
      Respaced behind ts (s :: us)

namespace Respaced

variable {behind : Bool} {ts us : List Token}

theorem free (related : Respaced behind ts us) : Respaced false ts us := by
  cases related with
  | nil => exact .nil
  | keep later => exact .keep later
  | space blank _ later => exact .space blank (by simp) later

theorem same (behind : Bool) (ts : List Token) : Respaced behind ts ts := by
  induction ts generalizing behind with
  | nil => exact .nil
  | cons t ts ih => exact .keep (ih _)

theorem blanks {spaces : List Token} (blank : ∀ s ∈ spaces, s.isSpace = true)
    (apart : ¬ (behind = true ∧ ts.head?.any Expr.isOperator = true)) :
    Respaced behind ts (spaces ++ ts) := by
  induction spaces generalizing behind with
  | nil => exact same behind ts
  | cons s spaces ih =>
      obtain ⟨first, others⟩ := List.forall_mem_cons.mp blank
      exact .space first apart (ih others (by simp))

theorem insert {front back spaces : List Token} (blank : ∀ s ∈ spaces, s.isSpace = true)
    (apart : ¬ ((front.getLast?.map Expr.isOperator).getD behind = true ∧
      back.head?.any Expr.isOperator = true)) :
    Respaced behind (front ++ back) (front ++ (spaces ++ back)) := by
  induction front generalizing behind with
  | nil => exact blanks blank apart
  | cons t front ih =>
      apply Respaced.keep
      apply ih
      cases front with
      | nil => exact apart
      | cons u front =>
          obtain ⟨v, last⟩ := Option.ne_none_iff_exists'.mp
            (mt List.getLast?_eq_none_iff.mp (List.cons_ne_nil u front))
          rw [List.getLast?_cons_cons, last] at apart
          rwa [last]

theorem between {front back spaces : List Token} (blank : ∀ s ∈ spaces, s.isSpace = true)
    (apart : ¬ (front.getLast?.any Expr.isOperator = true ∧
      back.head?.any Expr.isOperator = true)) :
    Respaced false (front ++ back) (front ++ (spaces ++ back)) := by
  apply insert blank
  cases last : front.getLast? with
  | none => simp
  | some t => simpa [last] using apart

theorem next {skip : Token → Bool} (skips : ∀ s, s.isSpace = true → skip s = true)
    (related : Respaced behind ts us) :
    (ts.dropWhile skip = [] ∧ us.dropWhile skip = []) ∨
      ∃ t left other, ts.dropWhile skip = t :: left ∧ us.dropWhile skip = t :: other ∧
        Respaced (Expr.isOperator t) left other := by
  induction related with
  | nil => exact .inl ⟨rfl, rfl⟩
  | @keep t behind ts us later ih =>
      by_cases skipped : skip t = true
      · rw [List.dropWhile_cons_of_pos skipped, List.dropWhile_cons_of_pos skipped]
        exact ih
      · rw [List.dropWhile_cons_of_neg skipped, List.dropWhile_cons_of_neg skipped]
        exact .inr ⟨t, ts, us, rfl, rfl, later⟩
  | @space s behind ts us blank _ _ ih =>
      rw [List.dropWhile_cons_of_pos (skips s blank)]
      exact ih

theorem skipped {skip : Token → Bool} (skips : ∀ s, s.isSpace = true → skip s = true)
    (related : Respaced behind ts us) : ts.dropWhile skip = [] ↔ us.dropWhile skip = [] := by
  rcases related.next skips with ⟨one, two⟩ | ⟨t, left, other, one, two, _⟩
  · rw [one, two]
  · rw [one, two]
    simp

theorem all_space (related : Respaced behind ts us) :
    us.all Token.isSpace = ts.all Token.isSpace := by
  induction related with
  | nil => rfl
  | keep _ ih => simp only [List.all_cons, ih]
  | space blank _ _ ih => simp only [List.all_cons, blank, Bool.true_and, ih]

end Respaced

section captures

variable {behind : Bool} {ts us : List Token} {rule : Nat → Token → Verdict} {depth : Nat}

theorem rangeBy_head {range : List Token} (found : rangeBy rule depth ts = some range)
    (shown : range.head?.any Expr.isOperator = true) : ts.head?.any Expr.isOperator = true := by
  obtain ⟨t, rest, rfl, _⟩ := rangeBy_split found
  cases range with
  | nil => cases shown
  | cons u range => exact shown

-- Blanks are passed over at every depth, so both searches end at the same token.
theorem rangeBy_respaced (passes : ∀ depth s, s.isSpace = true → rule depth s = .goes depth)
    (related : Respaced behind ts us) :
    (rangeBy rule depth ts = none ∧ rangeBy rule depth us = none) ∨
      ∃ range other, rangeBy rule depth ts = some range ∧ rangeBy rule depth us = some other ∧
        Respaced behind range other ∧
        Respaced false (ts.drop (range.length + 1)) (us.drop (other.length + 1)) := by
  induction related generalizing depth with
  | nil => exact .inl ⟨rfl, rfl⟩
  | @keep t behind ts us later ih =>
      unfold rangeBy
      cases rule depth t with
      | ends => exact .inr ⟨[], [], rfl, rfl, .nil, later.free⟩
      | refuses => exact .inl ⟨rfl, rfl⟩
      | goes inner =>
          rcases @ih inner with ⟨one, two⟩ | ⟨range, other, one, two, inside, rest⟩
          · exact .inl ⟨by simp only [one, Option.map_none], by simp only [two, Option.map_none]⟩
          · exact .inr ⟨t :: range, t :: other, by simp only [one, Option.map_some],
              by simp only [two, Option.map_some], .keep inside, rest⟩
  | @space s behind ts us blank apart _ ih =>
      have passed : rangeBy rule depth (s :: us) = (rangeBy rule depth us).map (s :: ·) := by
        rw [rangeBy, passes depth s blank]
      rw [passed]
      rcases @ih depth with ⟨one, two⟩ | ⟨range, other, one, two, inside, rest⟩
      · exact .inl ⟨one, by rw [two, Option.map_none]⟩
      · refine .inr ⟨range, s :: other, one, by rw [two, Option.map_some], ?_, rest⟩
        apply Respaced.space blank _ inside
        intro touching
        exact apart ⟨touching.1, rangeBy_head one touching.2⟩

theorem space_separator {s : Token} (blank : s.isSpace = true) :
    ∃ x, s.lexeme = .separator x ∧ x.isSpace = true := by
  rw [Token.isSpace] at blank
  cases shown : s.lexeme with
  | separator x =>
      rw [shown] at blank
      exact ⟨x, rfl, blank⟩
  | _ => simp [shown, Lexeme.isSpace] at blank

theorem upToRule_passes (stop : Separator) (depth : Nat) (s : Token) (blank : s.isSpace = true) :
    upToRule stop depth s = .goes depth := by
  obtain ⟨x, shown, space⟩ := space_separator blank
  unfold upToRule
  simp only [shown, space, if_true]

theorem enclosedRule_passes (depth : Nat) (s : Token) (blank : s.isSpace = true) :
    enclosedRule depth s = .goes depth := by
  obtain ⟨x, shown, space⟩ := space_separator blank
  unfold enclosedRule
  rw [shown]
  cases x <;> first | rfl | cases space

namespace Expr

theorem write_apart {afterOperator : Bool} (gap : Bool)
    (apart : ¬ (afterOperator = true ∧ ts.head?.any isOperator = true)) :
    write afterOperator gap ts = write afterOperator true ts := by
  cases ts with
  | nil => rfl
  | cons t ts =>
      have single : (afterOperator && isOperator t) = false := by
        simpa using apart
      simp only [write, Bool.and_assoc, single, Bool.and_false]

theorem operator_visible {t : Token} (trivia : t.isTrivia = true) : isOperator t = false := by
  unfold isOperator Token.kind
  rw [Token.isTrivia] at trivia
  cases shown : t.lexeme with
  | operator o =>
      rw [shown] at trivia
      cases trivia
  | _ => rfl

-- The flag of the relation is what the writer knows: an operator was last, and no gap since.
theorem write_respaced {afterOperator gap : Bool} (related : Respaced behind ts us)
    (known : (afterOperator && !gap) = behind) :
    write afterOperator gap ts = write afterOperator gap us := by
  induction related generalizing afterOperator gap with
  | nil => rfl
  | @keep t behind ts us later ih =>
      unfold write
      by_cases trivia : t.isTrivia = true
      · rw [if_pos trivia, if_pos trivia]
        apply ih
        rw [operator_visible trivia, Bool.not_true, Bool.and_false]
      · rw [if_neg trivia, if_neg trivia, ih]
        rw [Bool.not_false, Bool.and_true]
  | @space s behind ts us blank apart _ ih =>
      have trivia := Parser.trivia_of_space blank
      have step : write afterOperator gap (s :: us) = write afterOperator true us := by
        rw [write, if_pos trivia]
      rw [step, ← @ih afterOperator true (by simp)]
      cases gap with
      | true => rfl
      | false =>
          apply write_apart
          rwa [← known, Bool.not_false, Bool.and_true] at apart

theorem textOf_respaced (related : Respaced false ts us) : textOf ts = textOf us := by
  unfold textOf
  rw [write_respaced related rfl]

end Expr

end captures

variable {α β : Type}

-- The same problem, and both or neither at the end of the input.
def Failure.Alike (e f : Failure) : Prop := e.problem = f.problem ∧ (e.place = [] ↔ f.place = [])

namespace Outcome

variable {related : α → α → Prop} {ts us : List Token} {o other : Outcome α}

-- The two readings come to the same verdict. Where both accept, related values are found and what
-- is left is related again.
def Agree (related : α → α → Prop) (ts us : List Token) : Outcome α → Outcome α → Prop
  | .accepted a n, .accepted b m => related a b ∧ Respaced false (ts.drop n) (us.drop m)
  | .declined, .declined => True
  | .failed e, .failed f => e.Alike f
  | _, _ => False

theorem Agree.cases (agree : Agree related ts us o other) :
    (∃ a n b m, o = .accepted a n ∧ other = .accepted b m ∧ related a b ∧
      Respaced false (ts.drop n) (us.drop m)) ∨
    (o = .declined ∧ other = .declined) ∨
    ∃ e f, o = .failed e ∧ other = .failed f ∧ e.Alike f := by
  cases o with
  | accepted a n =>
      cases other with
      | accepted b m => exact .inl ⟨a, n, b, m, rfl, rfl, agree⟩
      | declined => cases agree
      | failed f => cases agree
  | declined =>
      cases other with
      | accepted b m => cases agree
      | declined => exact .inr (.inl ⟨rfl, rfl⟩)
      | failed f => cases agree
  | failed e =>
      cases other with
      | accepted b m => cases agree
      | declined => cases agree
      | failed f => exact .inr (.inr ⟨e, f, rfl, rfl, agree⟩)

theorem Agree.after {values : β → β → Prop} {n m : Nat} {f g : α → β}
    (agree : Agree related (ts.drop n) (us.drop m) o other)
    (kept : ∀ a b, related a b → values (f a) (g b)) :
    Agree values ts us (o.after n f) (other.after m g) := by
  rcases agree.cases with ⟨a, k, b, l, rfl, rfl, same, later⟩ | ⟨rfl, rfl⟩ | ⟨_, _, rfl, rfl, like⟩
  · rw [List.drop_drop, List.drop_drop] at later
    exact ⟨kept a b same, later⟩
  · trivial
  · exact like

end Outcome

namespace Parser

-- Two productions read alike on lists of less than `n` and `m` tokens. The bounds are for what
-- nests in a statement, which is read only off shorter lists; elsewhere they are any.
def Alike (n m : Nat) (related : α → α → Prop) (p q : Parser α) : Prop :=
  ∀ ts us, ts.length < n → us.length < m → Respaced false ts us →
    Outcome.Agree related ts us (p ts) (q us)

variable {n m : Nat} {related : α → α → Prop} {values : β → β → Prop} {p q p' q' : Parser α}

theorem alike_pure {a b : α} (same : related a b) :
    Alike n m related (pure a : Parser α) (pure b) :=
  fun _ _ _ _ spaced => ⟨same, spaced⟩

theorem alike_decline : Alike n m related (decline : Parser α) decline := fun _ _ _ _ _ => trivial

theorem alike_ensure (condition : Bool) : Alike n m Eq (ensure condition) (ensure condition) := by
  cases condition with
  | true => exact alike_pure rfl
  | false => exact alike_decline

theorem alike_ofOption (o : Option α) : Alike n m Eq (ofOption o) (ofOption o) := by
  cases o with
  | some a => exact alike_pure rfl
  | none => exact alike_decline

theorem alike_bind {f g : α → Parser β} (first : Alike n m related p q)
    (second : ∀ a b, related a b → Alike n m values (f a) (g b)) :
    Alike n m values (p >>= f) (q >>= g) := by
  intro ts us short short' spaced
  rw [bind_eq, bind_eq]
  rcases (first ts us short short' spaced).cases with
    ⟨a, k, b, l, one, two, same, later⟩ | ⟨one, two⟩ | ⟨_, _, one, two, like⟩
  · rw [one, two]
    have fewer : (ts.drop k).length < n := by rw [List.length_drop]; omega
    have fewer' : (us.drop l).length < m := by rw [List.length_drop]; omega
    apply (second a b same _ _ fewer fewer' later).after
    exact fun _ _ found => found
  · rw [one, two]
    trivial
  · rw [one, two]
    exact like

theorem alike_map {f g : α → β} (first : Alike n m related p q)
    (kept : ∀ a b, related a b → values (f a) (g b)) :
    Alike n m values (do pure (f (← p))) (do pure (g (← q))) :=
  alike_bind first fun a b same => alike_pure (kept a b same)

theorem alike_orElse (first : Alike n m related p q) (second : Alike n m related p' q') :
    Alike n m related (p.orElse p') (q.orElse q') := by
  intro ts us short short' spaced
  have agree := first ts us short short' spaced
  unfold orElse
  rcases agree.cases with ⟨a, k, b, l, one, two, _⟩ | ⟨one, two⟩ | ⟨_, _, one, two, like⟩
  · rw [one, two] at agree
    rw [one, two]
    exact agree
  · rw [one, two]
    exact second ts us short short' spaced
  · rw [one, two]
    exact like

theorem alike_choice (first : Alike n m related p q) (second : Alike n m related p' q') :
    Alike n m related (p <|> p') (q <|> q') := alike_orElse first second

theorem alike_firstOf {ps qs : List (Parser α)} (each : List.Forall₂ (Alike n m related) ps qs) :
    Alike n m related (firstOf ps) (firstOf qs) := by
  induction each with
  | nil => exact alike_decline
  | cons first _ ih => exact alike_orElse first ih

theorem alike_optional (first : Alike n m related p q) :
    Alike n m (Option.Rel related) (optional p) (optional q) := by
  intro ts us short short' spaced
  unfold optional
  rcases (first ts us short short' spaced).cases with
    ⟨a, k, b, l, one, two, same, later⟩ | ⟨one, two⟩ | ⟨_, _, one, two, like⟩
  · rw [one, two]
    exact ⟨.some same, later⟩
  · rw [one, two]
    exact ⟨.none, spaced⟩
  · rw [one, two]
    exact like

theorem alike_orFail {problem : Problem} {place : List Token → List Token}
    (first : Alike n m related p q)
    (places : ∀ ts us, Respaced false ts us → (place ts = [] ↔ place us = [])) :
    Alike n m related (p.orFail problem place) (q.orFail problem place) := by
  intro ts us short short' spaced
  have agree := first ts us short short' spaced
  unfold orFail
  rcases agree.cases with ⟨a, k, b, l, one, two, _⟩ | ⟨one, two⟩ | ⟨_, _, one, two, like⟩
  · rw [one, two] at agree
    rw [one, two]
    exact agree
  · rw [one, two]
    exact ⟨rfl, places ts us spaced⟩
  · rw [one, two]
    exact like

-- The tokens that are handed over differ, so the values have to be related whatever they are.
theorem alike_withTokens {p q : Parser (List Token → α)}
    (first : Alike n m (fun f g => ∀ xs ys, related (f xs) (g ys)) p q) :
    Alike n m related (withTokens p) (withTokens q) := by
  intro ts us short short' spaced
  unfold withTokens
  rcases (first ts us short short' spaced).cases with
    ⟨f, k, g, l, one, two, same, later⟩ | ⟨one, two⟩ | ⟨_, _, one, two, like⟩
  · rw [one, two]
    exact ⟨same _ _, later⟩
  · rw [one, two]
    trivial
  · rw [one, two]
    exact like

theorem alike_traced (first : Alike n m related p q) :
    Alike n m (fun x y => related x.content y.content) (traced p) (traced q) :=
  alike_withTokens (alike_bind first fun _ _ same => alike_pure fun _ _ => same)

theorem alike_manyTill {stop stop' : Parser Unit} (stops : Alike n m Eq stop stop')
    (items : Alike n m related p q) (advances : Advances p) (advances' : Advances q) :
    Alike n m (List.Forall₂ related) (manyTill stop p) (manyTill stop' q) := by
  intro ts us short short' spaced
  induction size : ts.length using Nat.strongRecOn generalizing ts us with
  | ind k ih =>
      rw [manyTill, manyTill]
      rcases (stops ts us short short' spaced).cases with
        ⟨_, _, _, _, one, two, _, later⟩ | ⟨one, two⟩ | ⟨_, _, one, two, like⟩
      · rw [one, two]
        exact ⟨.nil, later⟩
      · rw [one, two]
        rcases (items ts us short short' spaced).cases with
          ⟨a, i, b, j, one, two, same, later⟩ | ⟨one, two⟩ | ⟨_, _, one, two, like⟩
        · have progress := advances ts a i one
          have progress' := advances' us b j two
          have length := List.length_pos_iff.mpr progress.2
          have shorter : (ts.drop i).length < k := by rw [List.length_drop]; omega
          have fewer : (us.drop j).length < m := by rw [List.length_drop]; omega
          rw [one, two]
          simp only [if_pos progress, if_pos progress']
          apply (ih _ shorter _ _ (by omega) fewer later rfl).after
          exact fun _ _ others => .cons same others
        · rw [one, two]
          trivial
        · rw [one, two]
          exact like
      · rw [one, two]
        exact like

theorem agree_next {skip : Token → Bool} (skips : ∀ s, s.isSpace = true → skip s = true)
    {behind : Bool} {ts us : List Token} {f g : Token → Parser β} (spaced : Respaced behind ts us)
    (second : ∀ t left other, left.length < ts.length → other.length < us.length →
      Respaced (Expr.isOperator t) left other →
        Outcome.Agree values left other (f t left) (g t other)) :
    Outcome.Agree values ts us ((nextAfter skip >>= f) ts) ((nextAfter skip >>= g) us) := by
  have cut : ∀ {vs left : List Token} {t : Token}, vs.dropWhile skip = t :: left →
      vs.drop ((vs.takeWhile skip).length + 1) = left ∧ left.length < vs.length := by
    intro vs left t shown
    have whole := List.takeWhile_append_dropWhile (p := skip) (l := vs)
    rw [shown] at whole
    generalize vs.takeWhile skip = gap at whole
    subst whole
    constructor
    · rw [List.drop_length_add_append, List.drop_one, List.tail_cons]
    · rw [List.length_append, List.length_cons]
      omega
  rw [bind_eq, bind_eq, nextAfter, nextAfter]
  rcases spaced.next skips with ⟨one, two⟩ | ⟨t, left, other, one, two, later⟩
  · rw [one, two]
    trivial
  · obtain ⟨here, shorter⟩ := cut one
    obtain ⟨there, shorter'⟩ := cut two
    have agree := second t left other shorter shorter' later
    rw [← here, ← there] at agree
    rw [one, two]
    simp only
    apply agree.after
    exact fun _ _ found => found

end Parser

end NwscriptBindings
