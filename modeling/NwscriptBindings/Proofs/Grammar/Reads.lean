import NwscriptBindings.Grammar.Outcome

namespace NwscriptBindings.Parser

variable {α β : Type} {p q : Parser α} {a : α} {ts rest : List Token}

def Reads (p : Parser α) (a : α) (ts rest : List Token) : Prop :=
  p (ts ++ rest) = .accepted a ts.length

def Next (skip : Token → Bool) (t : Token) (ts : List Token) : Prop :=
  ∃ gap, ts = gap ++ [t] ∧ (∀ g ∈ gap, skip g = true) ∧ skip t = false

def Terminal (l : Lexeme) (ts : List Token) : Prop :=
  ∃ t, Next Token.isTrivia t ts ∧ t.lexeme = l

-- Spelled out for the lookahead of assignments: only the token directly behind counts.
def StartsWith (l : Lexeme) (ts : List Token) : Prop := ∃ t more, ts = t :: more ∧ t.lexeme = l

theorem terminal_of_token {t : Token} {l : Lexeme} (gap : List Token)
    (skipped : ∀ g ∈ gap, g.isTrivia = true) (same : t.lexeme = l) (kept : l.isTrivia = false) :
    Terminal l (gap ++ [t]) :=
  ⟨t, ⟨gap, rfl, skipped, by rw [Token.isTrivia, same, kept]⟩, same⟩

theorem reads_pure_iff {b : α} : Reads (pure a) b ts rest ↔ b = a ∧ ts = [] := by
  constructor
  · intro accepted
    obtain ⟨rfl, none⟩ := Outcome.accepted.inj accepted
    exact ⟨rfl, List.length_eq_zero_iff.mp none.symm⟩
  · rintro ⟨rfl, rfl⟩
    rfl

theorem bind_eq (p : Parser α) (f : α → Parser β) : (p >>= f) ts =
    match p ts with
    | .accepted a n => (f a (ts.drop n)).after n id
    | .declined => .declined
    | .failed e => .failed e := rfl

theorem after_accepted_iff {change : α → β} {o : Outcome α} {n m : Nat} {b : β} :
    o.after n change = .accepted b m ↔ ∃ a k, o = .accepted a k ∧ b = change a ∧ m = n + k := by
  cases o with
  | accepted a k =>
      constructor
      · intro same
        obtain ⟨rfl, rfl⟩ := Outcome.accepted.inj same
        exact ⟨a, k, rfl, rfl, rfl⟩
      · rintro ⟨_, _, same, rfl, rfl⟩
        obtain ⟨rfl, rfl⟩ := Outcome.accepted.inj same
        rfl
  | declined => simp [Outcome.after]
  | failed e => simp [Outcome.after]

theorem reads_bind_iff {f : α → Parser β} {b : β} : Reads (p >>= f) b ts rest ↔
    ∃ a us vs, ts = us ++ vs ∧ Reads p a us (vs ++ rest) ∧ Reads (f a) b vs rest := by
  constructor
  · intro accepted
    rw [Reads, bind_eq] at accepted
    cases first : p (ts ++ rest) with
    | declined => simp [first] at accepted
    | failed e => simp [first] at accepted
    | accepted a n =>
        simp only [first, after_accepted_iff] at accepted
        obtain ⟨_, k, second, rfl, total⟩ := accepted
        have inside : n ≤ ts.length := by omega
        refine ⟨a, ts.take n, ts.drop n, (List.take_append_drop n ts).symm, ?_, ?_⟩
        · rw [Reads, ← List.append_assoc, List.take_append_drop, first, List.length_take_of_le inside]
        · rw [List.drop_append_of_le_length inside] at second
          rw [Reads, second, List.length_drop]
          simp only [Outcome.accepted.injEq, true_and]
          omega
  · rintro ⟨a, us, vs, rfl, first, second⟩
    rw [Reads] at first second ⊢
    rw [bind_eq, List.append_assoc, first]
    simp only [List.drop_left, second, Outcome.after, List.length_append, id]

theorem reads_map_iff {f : α → β} {b : β} :
    Reads (do pure (f (← p))) b ts rest ↔ ∃ a, Reads p a ts rest ∧ b = f a := by
  simp only [reads_bind_iff, reads_pure_iff]
  constructor
  · rintro ⟨a, us, _, rfl, read, rfl, rfl⟩
    exact ⟨a, by simpa using read, rfl⟩
  · rintro ⟨a, read, rfl⟩
    exact ⟨a, ts, [], by simp, read, rfl, rfl⟩

theorem reads_decline_iff : Reads decline a ts rest ↔ False := by
  simp [Reads, decline]

theorem reads_ensure_iff {condition : Bool} {u : Unit} :
    Reads (ensure condition) u ts rest ↔ condition = true ∧ ts = [] := by
  cases condition with
  | true => exact reads_pure_iff.trans (by simp)
  | false => simp [ensure, reads_decline_iff]

theorem reads_ofOption_iff {o : Option α} : Reads (ofOption o) a ts rest ↔ o = some a ∧ ts = [] := by
  cases o with
  | some b => exact reads_pure_iff.trans (by simp [eq_comm])
  | none => simp [ofOption, reads_decline_iff]

theorem reads_orElse_iff : Reads (p.orElse q) a ts rest ↔
    Reads p a ts rest ∨ p (ts ++ rest) = .declined ∧ Reads q a ts rest := by
  simp only [Reads, orElse]
  cases first : p (ts ++ rest) with
  | accepted b n => simp
  | declined => simp
  | failed e => simp

theorem reads_choice_iff : Reads (p <|> q) a ts rest ↔
    Reads p a ts rest ∨ p (ts ++ rest) = .declined ∧ Reads q a ts rest := reads_orElse_iff

theorem reads_optional_iff {o : Option α} : Reads (optional p) o ts rest ↔
    (∃ a, o = some a ∧ Reads p a ts rest) ∨ o = none ∧ ts = [] ∧ p rest = .declined := by
  constructor
  · intro accepted
    rw [Reads, optional] at accepted
    cases first : p (ts ++ rest) with
    | accepted b n =>
        simp only [first, Outcome.accepted.injEq] at accepted
        obtain ⟨rfl, rfl⟩ := accepted
        exact .inl ⟨b, rfl, first⟩
    | declined =>
        simp only [first, Outcome.accepted.injEq] at accepted
        obtain ⟨rfl, none⟩ := accepted
        obtain rfl := List.length_eq_zero_iff.mp none.symm
        exact .inr ⟨rfl, rfl, first⟩
    | failed e => simp [first] at accepted
  · rintro (⟨b, rfl, first⟩ | ⟨rfl, rfl, first⟩)
    · rw [Reads] at first
      simp [Reads, optional, first]
    · simp [Reads, optional, first]

theorem reads_orFail_iff {problem : Problem} {place : List Token → List Token} :
    Reads (p.orFail problem place) a ts rest ↔ Reads p a ts rest := by
  simp only [Reads, orFail]
  cases first : p (ts ++ rest) with
  | accepted b n => simp
  | declined => simp
  | failed e => simp

theorem reads_withTokens_iff {p : Parser (List Token → α)} : Reads (withTokens p) a ts rest ↔
    ∃ f, Reads p f ts rest ∧ a = f (ts.dropWhile Token.isSpace) := by
  simp only [Reads, withTokens]
  cases first : p (ts ++ rest) with
  | accepted f n =>
      constructor
      · intro accepted
        simp only [Outcome.accepted.injEq] at accepted
        obtain ⟨rfl, rfl⟩ := accepted
        exact ⟨f, rfl, by simp⟩
      · rintro ⟨g, same, rfl⟩
        obtain ⟨rfl, rfl⟩ := Outcome.accepted.inj same
        simp
  | declined => simp
  | failed e => simp

theorem reads_traced_iff {x : Traced α} : Reads (traced p) x ts rest ↔
    Reads p x.content ts rest ∧ x.tokens = ts.dropWhile Token.isSpace := by
  simp only [traced, reads_withTokens_iff, reads_bind_iff, reads_pure_iff]
  constructor
  · rintro ⟨f, ⟨a, us, vs, rfl, first, rfl, rfl⟩, rfl⟩
    simpa using first
  · rintro ⟨first, shown⟩
    refine ⟨_, ⟨x.content, ts, [], by simp, first, rfl, rfl⟩, ?_⟩
    rw [← shown]

theorem reads_nextAfter_iff {skip : Token → Bool} {t : Token} :
    Reads (nextAfter skip) t ts rest ↔ Next skip t ts := by
  constructor
  · intro accepted
    rw [Reads, nextAfter] at accepted
    split at accepted
    · cases accepted
    · rename_i u more found
      obtain ⟨rfl, count⟩ := Outcome.accepted.inj accepted
      have whole := List.takeWhile_append_dropWhile (p := skip) (l := ts ++ rest)
      rw [found] at whole
      have cut : ts = (ts ++ rest).takeWhile skip ++ [u] := by
        have front := congrArg (List.take ts.length) whole
        rw [List.take_left, ← count, List.take_length_add_append] at front
        simpa using front.symm
      refine ⟨_, cut, List.all_eq_true.mp List.all_takeWhile, ?_⟩
      have kept := List.head?_dropWhile_not skip (ts ++ rest)
      simpa [found] using kept
  · rintro ⟨gap, rfl, skipped, kept⟩
    simp [Reads, nextAfter, List.takeWhile_append_of_pos skipped,
      List.dropWhile_append_of_pos skipped, kept]

theorem reads_lexeme_iff {l : Lexeme} {u : Unit} :
    Reads (lexeme l) u ts rest ↔ Terminal l ts := by
  simp only [lexeme, significant, reads_bind_iff, reads_nextAfter_iff, reads_ensure_iff, Terminal]
  constructor
  · rintro ⟨t, us, vs, rfl, next, same, rfl⟩
    exact ⟨t, by simpa using next, by simpa using same⟩
  · rintro ⟨t, next, same⟩
    exact ⟨t, ts, [], by simp, next, by simpa using same, rfl⟩

theorem reads_word_iff {text : List UInt8} :
    Reads word text ts rest ↔ Terminal (.word text) ts := by
  simp only [word, significant, reads_bind_iff, reads_nextAfter_iff, Terminal]
  constructor
  · rintro ⟨t, us, vs, rfl, next, found⟩
    split at found
    · rename_i text' same
      obtain ⟨rfl, rfl⟩ := reads_pure_iff.mp found
      exact ⟨t, by simpa using next, same⟩
    · exact (reads_decline_iff.mp found).elim
  · rintro ⟨t, next, same⟩
    refine ⟨t, ts, [], by simp, next, ?_⟩
    simp only [same]
    exact reads_pure_iff.mpr ⟨rfl, rfl⟩

theorem reads_touching_iff {o : Operator} {u : Unit} :
    Reads (touching o) u ts rest ↔ ∃ t, ts = [t] ∧ t.lexeme = .operator o := by
  simp only [touching, adjacent, reads_bind_iff, reads_nextAfter_iff, reads_ensure_iff]
  constructor
  · rintro ⟨t, us, vs, rfl, ⟨gap, rfl, skipped, -⟩, same, rfl⟩
    cases gap with
    | nil => exact ⟨t, by simp, by simpa using same⟩
    | cons g more => simpa using skipped g
  · rintro ⟨t, rfl, same⟩
    exact ⟨t, [t], [], by simp, ⟨[], by simp⟩, by simpa using same, rfl⟩

theorem touching_eq (o : Operator) (ts : List Token) : touching o ts =
    match ts with
    | [] => .declined
    | t :: _ => if t.lexeme = .operator o then .accepted () 1 else .declined := by
  cases ts with
  | nil => rfl
  | cons t more =>
      by_cases same : t.lexeme = .operator o
      · simp [touching, adjacent, nextAfter, bind_eq, ensure, same, Outcome.after, pure]
      · simp [touching, adjacent, nextAfter, bind_eq, ensure, same, Outcome.after, decline]

theorem reads_notTouching_iff {o : Operator} {u : Unit} :
    Reads (notTouching o) u ts rest ↔ ts = [] ∧ ¬ StartsWith (.operator o) rest := by
  constructor
  · intro accepted
    rw [Reads, notTouching] at accepted
    split at accepted
    · cases accepted
    · rename_i other
      have none := (Outcome.accepted.inj accepted).2
      obtain rfl := List.length_eq_zero_iff.mp none.symm
      refine ⟨rfl, ?_⟩
      rintro ⟨t, more, rfl, same⟩
      exact other () 1 (by simp [touching_eq, same])
  · rintro ⟨rfl, free⟩
    rw [Reads, notTouching, touching_eq]
    cases rest with
    | nil => rfl
    | cons t more =>
        have other : t.lexeme ≠ .operator o := fun same => free ⟨t, more, rfl, same⟩
        simp [other]

theorem reads_manyTill_stop {stop : Parser Unit} (stopped : Reads stop () ts rest) :
    Reads (manyTill stop p) [] ts rest := by
  unfold Reads at stopped ⊢
  rw [manyTill, stopped]

theorem reads_manyTill_item {stop : Parser Unit} {us vs : List Token} {as : List α}
    (going : stop (us ++ (vs ++ rest)) = .declined) (first : Reads p a us (vs ++ rest))
    (nonempty : us ≠ []) (others : Reads (manyTill stop p) as vs rest) :
    Reads (manyTill stop p) (a :: as) (us ++ vs) rest := by
  have positive := List.length_pos_iff.mpr nonempty
  unfold Reads at first others ⊢
  rw [List.append_assoc, manyTill, going, first]
  simp [positive, nonempty, others, Outcome.after]

-- Repetition is a function on tokens before it is a production, so `reads_bind_iff` does not see it.
theorem reads_manyTill_bind_iff {stop : Parser Unit} {f : List α → Parser β} {b : β} :
    Reads (manyTill stop p >>= f) b ts rest ↔
      ∃ as us vs, ts = us ++ vs ∧ Reads (manyTill stop p) as us (vs ++ rest) ∧
        Reads (f as) b vs rest := reads_bind_iff

theorem reads_manyTill_cases {stop : Parser Unit} {as : List α}
    (accepted : Reads (manyTill stop p) as ts rest) :
    as = [] ∧ Reads stop () ts rest ∨
      ∃ a more us vs, as = a :: more ∧ ts = us ++ vs ∧ us ≠ [] ∧
        stop (ts ++ rest) = .declined ∧ Reads p a us (vs ++ rest) ∧
        Reads (manyTill stop p) more vs rest := by
  unfold Reads at accepted
  rw [manyTill] at accepted
  cases ended : stop (ts ++ rest) with
  | failed e => simp [ended] at accepted
  | accepted u n =>
      simp only [ended, Outcome.accepted.injEq] at accepted
      obtain ⟨rfl, rfl⟩ := accepted
      exact .inl ⟨rfl, ended⟩
  | declined =>
      simp only [ended] at accepted
      cases first : p (ts ++ rest) with
      | declined => simp [first] at accepted
      | failed e => simp [first] at accepted
      | accepted a n =>
          simp only [first] at accepted
          split at accepted
          · rename_i progress
            obtain ⟨more, k, second, rfl, total⟩ := after_accepted_iff.mp accepted
            have inside : n ≤ ts.length := by omega
            have length : (ts.take n).length = n := List.length_take_of_le inside
            refine .inr ⟨a, more, ts.take n, ts.drop n, rfl, (List.take_append_drop n ts).symm,
              ?_, rfl, ?_, ?_⟩
            · exact List.length_pos_iff.mp (by omega)
            · rw [Reads, ← List.append_assoc, List.take_append_drop, first, length]
            · rw [List.drop_append_of_le_length inside] at second
              unfold Reads
              rw [second, List.length_drop]
              simp only [Outcome.accepted.injEq, true_and]
              omega
          · cases accepted

end NwscriptBindings.Parser
