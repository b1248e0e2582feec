import NwscriptBindings.Token.Stream

namespace NwscriptBindings.Scanner

-- The steps are those of `next?`. How many there will be is not part of the relation.
inductive Run : Scanner → List Token → Scanner → Prop where
  | stop : Run s [] s
  | step : s.next? = some (t, middle) → Run middle ts after → Run s (t :: ts) after

theorem next?_none_iff (s : Scanner) : s.next? = none ↔ s.rest = [] := by
  cases left : s.rest with
  | nil => simp [next?, left]
  | cons c rest => simp [next?, left]

theorem next?_lexeme {s after : Scanner} {t : Token} (found : s.next? = some (t, after)) :
    ∃ c rest, s.rest = c :: rest ∧ Scan.lexeme s.context c rest = (t.lexeme, after.rest) := by
  cases left : s.rest with
  | nil => simp [next?, left] at found
  | cons c rest =>
      simp only [next?, left, Option.some.injEq, Prod.mk.injEq] at found
      obtain ⟨rfl, rfl⟩ := found
      exact ⟨c, rest, rfl, rfl⟩

theorem next?_context {s after : Scanner} {t : Token} (found : s.next? = some (t, after)) :
    after.context = s.context.after t.lexeme := by
  unfold next? at found
  split at found
  · cases found
  · cases found
    rfl

theorem lineStart_after {context : ScanContext} {l : Lexeme} (visible : l.isSpace = false) :
    (context.after l).lineStart = false := by
  cases l with
  | separator s => cases s <;> first | rfl | cases visible
  | _ => rfl

theorem tokens_of_empty {s : Scanner} (ended : s.rest = []) : s.tokens = [] := by
  rw [tokens]
  split
  · rfl
  · rename_i found
    rw [(next?_none_iff s).mpr ended] at found
    cases found

theorem tokens_of_lexeme {s : Scanner} {c : UInt8} {rest left : List UInt8} {l : Lexeme}
    (start : s.rest = c :: rest) (found : Scan.lexeme s.context c rest = (l, left)) :
    ∃ t after, s.tokens = t :: tokens after ∧ t.lexeme = l ∧ after.rest = left ∧
      after.context = s.context.after l := by
  refine ⟨⟨l, .ofText s.pos l.raw⟩, ⟨left, s.context.after l, s.pos.advanceBy l.raw⟩, ?_, rfl, rfl,
    rfl⟩
  rw [tokens]
  split
  · rename_i none
    simp [next?, start] at none
  · rename_i t after some
    simp only [next?, start, found, Option.some.injEq, Prod.mk.injEq] at some
    rw [some.1, some.2]

theorem run_tokens (s : Scanner) : ∃ last, Run s s.tokens last ∧ last.next? = none := by
  fun_induction tokens s with
  | case1 s ended => exact ⟨s, .stop, ended⟩
  | case2 s t after found ih =>
      obtain ⟨last, path, ended⟩ := ih
      exact ⟨last, .step found path, ended⟩

theorem tokens_of_run {s last : Scanner} {ts : List Token} (path : Run s ts last)
    (ended : last.rest = []) : s.tokens = ts := by
  induction path with
  | stop => exact tokens_of_empty ended
  | step found _ ih =>
      rw [tokens]
      split
      · rename_i none
        rw [found] at none
        cases none
      · rename_i some
        rw [found] at some
        obtain ⟨rfl, rfl⟩ := Prod.mk.inj (Option.some.inj some)
        rw [ih ended]

theorem run_parts (path : Run s ts after) : Token.rawText ts ++ after.rest = s.rest := by
  induction path with
  | stop => rfl
  | step found _ ih =>
      obtain ⟨_, parts⟩ := next?_parts _ _ _ found
      rw [← parts, ← ih]
      simp [Token.rawText]

theorem run_append_iff : Run s (ts ++ us) after ↔ ∃ middle, Run s ts middle ∧ Run middle us after := by
  induction ts generalizing s with
  | nil =>
      constructor
      · intro path
        exact ⟨s, .stop, path⟩
      · rintro ⟨_, stopped, path⟩
        cases stopped
        exact path
  | cons t ts ih =>
      constructor
      · intro path
        cases path with
        | step found path =>
            obtain ⟨middle, first, second⟩ := ih.mp path
            exact ⟨middle, .step found first, second⟩
      · rintro ⟨middle, first, second⟩
        cases first with
        | step found first => exact .step found (ih.mpr ⟨middle, first, second⟩)

theorem run_nonempty (path : Run s ts after) : ∀ t ∈ ts, t.raw ≠ [] := by
  induction path with
  | stop => intro t present; cases present
  | step found _ ih =>
      intro t present
      rcases List.mem_cons.mp present with rfl | later
      · exact (next?_parts _ _ _ found).1
      · exact ih t later

theorem run_bound (path : Run s ts after) :
    ts.length + after.rest.length ≤ s.rest.length := by
  induction path with
  | stop => simp
  | step found _ ih =>
      have shorter := next?_shorter _ _ _ found
      simp only [List.length_cons]
      omega

-- Every run from the beginning of a text, finished or not, accounts for all bytes before the
-- cursor and has at most one step for each byte; so the loop cannot go on for ever.
theorem tokenize_lossless (text : List UInt8) :
    Token.rawText (tokenize text) = text ∧ (∀ t ∈ tokenize text, t.raw ≠ []) ∧
      (∀ ts after, Run { rest := text } ts after →
        Token.rawText ts ++ after.rest = text ∧
          ts.length + after.rest.length ≤ text.length) ∧
      ∃ last, Run { rest := text } (tokenize text) last ∧ last.rest = [] ∧ last.next? = none := by
  obtain ⟨last, path, ended⟩ := run_tokens { rest := text }
  have nothing : last.rest = [] := (next?_none_iff last).mp ended
  have parts := run_parts path
  rw [nothing, List.append_nil] at parts
  refine ⟨parts, run_nonempty path, ?_, last, path, nothing, ended⟩
  intro ts after reached
  exact ⟨run_parts reached, run_bound reached⟩

end NwscriptBindings.Scanner
