import NwscriptBindings.Proofs.Grammar.Progress
import NwscriptBindings.Proofs.Grammar.Recognition

namespace NwscriptBindings

namespace Outcome

variable {α β γ : Type}

theorem after_after (o : Outcome α) (n m : Nat) (f : α → β) (g : β → γ) :
    (o.after n f).after m g = o.after (m + n) fun a => g (f a) := by
  cases o with
  | accepted a k => simp only [after, Nat.add_assoc]
  | declined => rfl
  | failed e => rfl

end Outcome

namespace Parser

variable {α β : Type} {p q : Parser α}

-- A blank or line end in front counts as accepted and is seen nowhere else.
def Skips (p : Parser α) : Prop := ∀ s ts, s.isSpace = true → p (s :: ts) = (p ts).after 1 id

theorem skips_nextAfter {skip : Token → Bool} (blank : ∀ s, s.isSpace = true → skip s = true) :
    Skips (nextAfter skip) := by
  intro s ts space
  unfold nextAfter
  rw [List.dropWhile_cons_of_pos (blank s space), List.takeWhile_cons_of_pos (blank s space)]
  cases ts.dropWhile skip with
  | nil => rfl
  | cons t more => simp only [Outcome.after, id, List.length_cons, Nat.add_comm]

theorem skips_significant : Skips significant := skips_nextAfter fun _ => trivia_of_space

theorem skips_visible : Skips visible := skips_nextAfter fun _ space => space

theorem after_skipped (s : Token) (ts : List Token) (f : Parser β) (n : Nat) :
    (f ((s :: ts).drop (1 + n))).after (1 + n) id = ((f (ts.drop n)).after n id).after 1 id := by
  rw [Outcome.after_after, Nat.add_comm 1 n, List.drop_succ_cons]
  rfl

theorem skips_bind {f : α → Parser β} (first : Skips p) : Skips (p >>= f) := by
  intro s ts space
  rw [bind_eq, bind_eq, first s ts space]
  cases p ts with
  | declined => rfl
  | failed e => rfl
  | accepted a n => exact after_skipped s ts (f a) n

theorem skips_orElse (first : Skips p) (second : Skips q) : Skips (p.orElse q) := by
  intro s ts space
  unfold orElse
  rw [first s ts space]
  cases p ts with
  | declined => exact second s ts space
  | failed e => rfl
  | accepted a n => rfl

theorem skips_firstOf {ps : List (Parser α)} (each : ∀ p ∈ ps, Skips p) : Skips (firstOf ps) := by
  induction ps with
  | nil =>
      intro s ts space
      rfl
  | cons p ps ih =>
      apply skips_orElse
      · exact each p List.mem_cons_self
      · exact ih fun q later => each q (List.mem_cons_of_mem p later)

theorem skips_optional {f : Option α → Parser β} (first : Skips p) (absent : Skips (f none)) :
    Skips (optional p >>= f) := by
  intro s ts space
  rw [bind_eq, bind_eq, optional, optional, first s ts space]
  cases p ts with
  | failed e => rfl
  | accepted a n => exact after_skipped s ts (f (some a)) n
  | declined =>
      change (f none (s :: ts)).after 0 id = ((f none ts).after 0 id).after 1 id
      rw [absent s ts space, Outcome.after_after, Outcome.after_after]

theorem skips_withTokens {p : Parser (List Token → α)} (first : Skips p) :
    Skips (withTokens p) := by
  intro s ts space
  unfold withTokens
  rw [first s ts space]
  cases p ts with
  | declined => rfl
  | failed e => rfl
  | accepted f n =>
      simp only [Outcome.after, id, Nat.add_comm 1 n, List.take_succ_cons,
        List.dropWhile_cons_of_pos space]

theorem skips_traced (first : Skips p) : Skips (traced p) := skips_withTokens (skips_bind first)

theorem skips_orFail {problem : Problem} {place : List Token → List Token} (first : Skips p)
    (same : ∀ s ts, s.isSpace = true → place (s :: ts) = place ts) :
    Skips (p.orFail problem place) := by
  intro s ts space
  unfold orFail
  rw [first s ts space]
  cases p ts with
  | declined => simp only [Outcome.after, same s ts space]
  | failed e => rfl
  | accepted a n => rfl

theorem skips_scriptType : Skips (traced scriptType) := skips_traced (skips_bind skips_significant)

theorem skips_keyword (k : Keyword) : Skips (keyword k) := skips_bind skips_significant

theorem skips_decl (forms : List StmtForm) : Skips (decl forms) := by
  apply skips_firstOf
  intro p present
  simp only [List.mem_cons, List.not_mem_nil, or_false] at present
  rcases present with rfl | rfl | rfl | rfl | rfl
  · exact skips_bind skips_visible
  · exact skips_bind (skips_bind skips_visible)
  · exact skips_bind (skips_bind skips_scriptType)
  · exact skips_bind (skips_optional (skips_keyword _) (skips_bind skips_scriptType))
  · exact skips_bind (skips_bind (skips_keyword _))

theorem skips_unitDecl (forms : List StmtForm) : Skips (unitDecl forms) := by
  apply skips_orFail (skips_traced (skips_decl forms))
  intro s ts space
  exact List.dropWhile_cons_of_pos space

theorem unitDecl_decides (forms : List StmtForm) (ts : List Token) :
    unitDecl forms ts ≠ .declined := by
  unfold unitDecl orFail
  cases traced (decl forms) ts <;> simp

theorem decls_eq (forms : List StmtForm) (ts : List Token) : decls forms ts =
    if ts.all Token.isSpace then .accepted [] ts.length
    else match unitDecl forms ts with
      | .declined => .declined
      | .failed e => .failed e
      | .accepted d n => (decls forms (ts.drop n)).after n (d :: ·) := by
  change manyTill endOfTokens (unitDecl forms) ts = _
  rw [manyTill]
  by_cases blank : ts.all Token.isSpace = true
  · have ended : endOfTokens ts = .accepted () ts.length := if_pos blank
    rw [if_pos blank, ended]
  · have going : endOfTokens ts = .declined := if_neg blank
    rw [if_neg blank, going]
    cases outcome : unitDecl forms ts with
    | declined => rfl
    | failed e => rfl
    | accepted d n =>
        simp only [if_pos (advances_unitDecl forms ts d n outcome)]
        rfl

theorem decls_nonempty {forms : List StmtForm} {ts : List Token} {e : Failure}
    (refused : decls forms ts = .failed e) : ts ≠ [] := by
  intro none
  rw [none, decls_eq] at refused
  cases refused

theorem decls_decide (forms : List StmtForm) (ts : List Token) : decls forms ts ≠ .declined := by
  induction size : ts.length using Nat.strongRecOn generalizing ts with
  | ind n ih =>
      rw [decls_eq]
      split
      · simp
      · cases outcome : unitDecl forms ts with
        | declined => exact (unitDecl_decides forms ts outcome).elim
        | failed e => simp
        | accepted d k =>
            obtain ⟨positive, nonempty⟩ := advances_unitDecl forms ts d k outcome
            have length := List.length_pos_iff.mpr nonempty
            have shorter : (ts.drop k).length < n := by
              rw [List.length_drop]
              omega
            have later := ih _ shorter (ts.drop k) rfl
            cases others : decls forms (ts.drop k) with
            | declined => exact (later others).elim
            | failed e => simp [others, Outcome.after]
            | accepted ds m => simp [others, Outcome.after]

theorem skips_decls (forms : List StmtForm) : Skips (decls forms) := by
  intro s ts space
  rw [decls_eq forms (s :: ts), decls_eq forms ts, List.all_cons, space, Bool.true_and]
  by_cases blank : ts.all Token.isSpace = true
  · rw [if_pos blank, if_pos blank]
    simp only [Outcome.after, id, List.length_cons, Nat.add_comm]
  · rw [if_neg blank, if_neg blank, skips_unitDecl forms s ts space]
    cases unitDecl forms ts with
    | declined => rfl
    | failed e => rfl
    | accepted d n =>
        change ((decls forms ((s :: ts).drop (1 + n))).after (1 + n) _) = _
        rw [Nat.add_comm 1 n, List.drop_succ_cons, Outcome.after_after, Nat.add_comm n 1]
        rfl

theorem decls_skip {forms : List StmtForm} {blanks more : List Token}
    (blank : ∀ t ∈ blanks, t.isSpace = true) :
    decls forms (blanks ++ more) = (decls forms more).after blanks.length id := by
  induction blanks with
  | nil =>
      rw [List.nil_append, List.length_nil]
      cases decls forms more with
      | accepted ds n => simp [Outcome.after]
      | declined => rfl
      | failed e => rfl
  | cons s blanks ih =>
      obtain ⟨first, others⟩ := List.forall_mem_cons.mp blank
      rw [List.cons_append, skips_decls forms s _ first, ih others, Outcome.after_after,
        List.length_cons, Nat.add_comm 1]
      rfl

theorem decls_whole {forms : List StmtForm} {ds : List (Traced Decl)} {ts : List Token} {n : Nat}
    (accepted : decls forms ts = .accepted ds n) : Reads (decls forms) ds ts [] := by
  have read := confined_reads (confined_decls forms) accepted
  have none := (decls_sound read).1
  have all : ts.take n = ts := by
    have parts := List.take_append_drop n ts
    rwa [none, List.append_nil] at parts
  rwa [none, all] at read

section whole

variable {forms : List StmtForm} (all : ∀ form, form ∈ forms)
include all

theorem decl_steady {d : Decl} {ts rest : List Token} (read : Reads (decl forms) d ts rest)
    (other : List Token) : Reads (decl forms) d ts other := by
  obtain ⟨d', reads⟩ := decl_complete all (decl_sound read)
  have same := (reads rest).symm.trans read
  obtain ⟨rfl, _⟩ := Outcome.accepted.inj same
  exact reads other

theorem decls_append {ds : List (Traced Decl)} {ts : List Token}
    (read : Reads (decls forms) ds ts []) (more : List Token) :
    decls forms (ts ++ more) = (decls forms more).after ts.length (ds ++ ·) := by
  induction ds generalizing ts with
  | nil =>
      rcases reads_manyTill_cases read with ⟨_, ended⟩ | ⟨_, _, _, _, same, _⟩
      · exact decls_skip (reads_endOfTokens_iff.mp ended).1
      · cases same
  | cons d ds ih =>
      rcases reads_manyTill_cases read with
        ⟨same, _⟩ | ⟨_, _, us, vs, same, rfl, nonempty, going, first, others⟩
      · cases same
      · cases same
        have shown : ¬ ((us ++ vs) ++ more).all Token.isSpace = true := by
          intro blank
          rw [List.all_append, Bool.and_eq_true] at blank
          rw [List.append_nil] at going
          rw [endOfTokens, if_pos blank.1] at going
          cases going
        have again : unitDecl forms ((us ++ vs) ++ more) = .accepted d us.length := by
          rw [reads_orFail_iff, reads_traced_iff] at first
          rw [List.append_assoc]
          apply reads_orFail_iff.mpr
          exact reads_traced_iff.mpr ⟨decl_steady all first.1 _, first.2⟩
        rw [decls_eq, if_neg shown, again]
        simp only
        rw [List.append_assoc, List.drop_left, ih others, Outcome.after_after, List.length_append]
        rfl

end whole

end Parser

namespace ScriptUnit

theorem report_append (lines : List (List UInt8)) (front : List Token) {tokens : List Token}
    (nonempty : tokens ≠ []) (f : Failure) :
    f.report lines (front ++ tokens) = f.report lines tokens := by
  unfold Failure.report
  rw [List.getLast?_append, List.getLast?_eq_some_getLast nonempty, Option.some_or]

-- One equation for both verdicts. Errors are equal as a whole: problem, token and line.
theorem parse_append {name : List UInt8} {lines : List (List UInt8)} {front : List Token}
    {u : ScriptUnit} (accepted : parse name lines front = .ok u) (back : List Token) :
    parse name lines (front ++ back) =
      (parse name lines back).map fun v => ⟨name, u.decls ++ v.decls, front ++ back⟩ := by
  unfold parse parseWith at accepted ⊢
  cases first : Parser.decls StmtForm.order front with
  | declined => simp [first] at accepted
  | failed e => simp [first] at accepted
  | accepted ds n =>
      simp only [first, Except.ok.injEq] at accepted
      rw [Parser.decls_append StmtForm.mem_order (Parser.decls_whole first), ← accepted]
      cases second : Parser.decls StmtForm.order back with
      | declined => exact (Parser.decls_decide _ back second).elim
      | accepted es m => rfl
      | failed e =>
          have nonempty := Parser.decls_nonempty second
          simp only [Outcome.after, Except.map, report_append lines front nonempty]

-- Blanks end the first list. Behind it stands a unit, or one that ends inside a block.
theorem parse_append_unfinished :
    let front := tokenize (utf8 "int f(int a = 1); \n")
    let back := tokenize (utf8 "/* g */ void g() \x7b if (a) \x7b x = 1; \x7d ")
    let closed := back ++ tokenize (utf8 "\x7d")
    ∃ u, parse [] [] front = .ok u ∧
      (∃ e, parse [] [] back = .error e ∧ parse [] [] (front ++ back) = .error e) ∧
      ∃ v, parse [] [] closed = .ok v ∧
        parse [] [] (front ++ closed) = .ok ⟨[], u.decls ++ v.decls, front ++ closed⟩ := by
  intro front back closed
  have whole : (parse [] [] front).isOk = true := by decide +kernel
  have unfinished : (parse [] [] back).isOk = false := by decide +kernel
  have finished : (parse [] [] closed).isOk = true := by decide +kernel
  cases first : parse [] [] front with
  | error e =>
      rw [first] at whole
      cases whole
  | ok u =>
      refine ⟨u, rfl, ?_, ?_⟩
      · have both := parse_append first back
        cases second : parse [] [] back with
        | ok v =>
            rw [second] at unfinished
            cases unfinished
        | error e =>
            rw [second] at both
            exact ⟨e, rfl, both⟩
      · have both := parse_append first closed
        cases second : parse [] [] closed with
        | error e =>
            rw [second] at finished
            cases finished
        | ok v =>
            rw [second] at both
            exact ⟨v, rfl, both⟩

end ScriptUnit
end NwscriptBindings
