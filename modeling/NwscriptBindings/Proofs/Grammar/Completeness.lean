import NwscriptBindings.Proofs.Grammar.Alternatives
import NwscriptBindings.Proofs.Grammar.Soundness

namespace NwscriptBindings

open Grammar

-- Ends in an `if` that an `else` behind the statement would belong to.
def Stmt.endsOpen : Stmt → Bool
  | .ifThen _ _ _ => true
  | .ifElse _ _ other _ _ => other.endsOpen
  | .whileLoop _ body _ => body.endsOpen
  | .forLoop _ _ _ body _ => body.endsOpen
  | _ => false

namespace Parser

variable {bare : Bool} {ts rest : List Token} {s : Stmt}

def Fits (s : Stmt) (rest : List Token) : Prop :=
  s.endsOpen = true → nextLexeme rest ≠ some (.keyword .elseWord)

def Attained (forms : List StmtForm) (ts : List Token) : Prop :=
  ∃ s, ∀ rest, Fits s rest → Reads (statement forms) s ts rest

theorem Terminal.positive {l : Lexeme} (mark : Terminal l ts) : 0 < ts.length := by
  obtain ⟨t, ⟨gap, rfl, _⟩, _⟩ := mark
  simp

theorem stmt_begins (derived : StmtRule bare s ts) :
    ∃ l, nextLexeme ts = some l ∧ l.leads ≠ [] := by
  cases derived with
  | block derived =>
      obtain ⟨opened, _, _⟩ := derived
      exact ⟨_, nextLexeme_append opened.begins, by simp [Lexeme.leads]⟩
  | var derived =>
      obtain ⟨k, found, kind⟩ := var_begins derived
      refine ⟨_, found, ?_⟩
      rcases kind with rfl | rfl | ⟨type, rfl⟩ <;> simp [Lexeme.leads]
  | assign named => exact ⟨_, nextLexeme_append named.1.begins, by simp [Lexeme.leads]⟩
  | step derived =>
      cases derived with
      | pre mark named =>
          rcases doubled_begins mark with found | found <;>
            exact ⟨_, nextLexeme_append (nextLexeme_append found), by simp [Lexeme.leads]⟩
      | post named =>
          exact ⟨_, nextLexeme_append (nextLexeme_append named.1.begins), by simp [Lexeme.leads]⟩
  | call named => exact ⟨_, nextLexeme_append named.begins, by simp [Lexeme.leads]⟩
  | label derived =>
      cases derived with
      | default mark => exact ⟨_, nextLexeme_append mark.begins, by simp [Lexeme.leads]⟩
      | case mark =>
          exact ⟨_, nextLexeme_append (nextLexeme_append mark.begins), by simp [Lexeme.leads]⟩
  | whileLoop mark | forLoop mark | doLoop mark | ifThen mark | ifElse mark | leave mark
  | switch mark | breakOut mark | continueOn mark =>
      exact ⟨_, nextLexeme_append mark.begins, by simp [Lexeme.leads]⟩

theorem attach_else {other : Stmt} {ws os : List Token} (derived : StmtRule bare s ts)
    (opened : s.endsOpen = true) (mark : Terminal (.keyword .elseWord) ws)
    (follows : StmtRule bare other os) : ∃ s', StmtRule bare s' (ts ++ (ws ++ os)) := by
  induction size : ts.length using Nat.strongRecOn generalizing s ts with
  | ind n ih =>
      subst size
      cases derived with
      | ifThen word enclosed nests =>
          simp only [List.append_assoc]
          exact ⟨_, .ifElse word enclosed nests mark follows⟩
      | @ifElse ks _ cs _ bs vs _ us word enclosed nests again otherwise =>
          have shorter : us.length < (ks ++ (cs ++ (bs ++ (vs ++ us)))).length := by
            have := word.positive
            simp only [List.length_append]
            omega
          obtain ⟨_, attached⟩ := ih _ shorter otherwise opened rfl
          simp only [List.append_assoc]
          exact ⟨_, .ifElse word enclosed nests again attached⟩
      | @whileLoop ks _ cs _ bs word enclosed nests =>
          have shorter : bs.length < (ks ++ (cs ++ bs)).length := by
            have := word.positive
            simp only [List.length_append]
            omega
          obtain ⟨_, attached⟩ := ih _ shorter nests opened rfl
          simp only [List.append_assoc]
          exact ⟨_, .whileLoop word enclosed attached⟩
      | @forLoop ks ps _ is _ cs _ qs _ bs word begun first second third nests =>
          have shorter : bs.length < (ks ++ (ps ++ (is ++ (cs ++ (qs ++ bs))))).length := by
            have := word.positive
            simp only [List.length_append]
            omega
          obtain ⟨_, attached⟩ := ih _ shorter nests opened rfl
          simp only [List.append_assoc]
          exact ⟨_, .forLoop word begun first second third attached⟩
      | _ => cases opened

theorem trivia_of_space {t : Token} (blank : t.isSpace = true) : t.isTrivia = true := by
  rw [Token.isTrivia, Token.isSpace] at *
  cases shown : t.lexeme with
  | separator x => simpa [shown, Lexeme.isSpace, Lexeme.isTrivia] using blank
  | _ => simp [shown, Lexeme.isSpace] at blank

theorem close_terminal (closed : CloseRule ts) : Terminal (.separator .closeBrace) ts := by
  obtain ⟨t, ⟨gap, rfl, skipped, _⟩, same⟩ := closed
  exact terminal_of_token gap (fun g present => trivia_of_space (skipped g present)) same rfl

theorem comment_skipped {c : Comment} (noted : CommentRule c ts) :
    nextLexeme (ts ++ rest) = nextLexeme rest := by
  obtain ⟨t, ⟨gap, rfl, skipped, _⟩, same⟩ := noted
  refine nextLexeme_skip fun g present => ?_
  rcases List.mem_append.mp present with front | last
  · exact trivia_of_space (skipped g front)
  · obtain rfl := List.mem_singleton.mp last
    simp [Token.isTrivia, same, Lexeme.isTrivia]

-- No `else` stands behind a statement in a block: neither a statement nor the end begins with it.
theorem items_follow {stmts : List Stmt} {is cs : List Token} (derived : ItemsRule bare stmts is)
    (closed : CloseRule cs) : nextLexeme (is ++ (cs ++ rest)) ≠ some (.keyword .elseWord) := by
  induction stmts generalizing is with
  | nil =>
      cases derived with
      | nil => simp [nextLexeme_append (close_terminal closed).begins]
  | cons s stmts ih =>
      cases derived with
      | comment noted others =>
          rw [List.append_assoc, comment_skipped noted]
          exact ih others
      | stmt free first others =>
          obtain ⟨l, found, leads⟩ := stmt_begins first
          rw [List.append_assoc, nextLexeme_append found]
          rintro same
          cases same
          exact leads rfl

theorem uncommented_seen {l : Lexeme} (free : Uncommented ts) (found : nextLexeme ts = some l) :
    nextVisible ts = some l := by
  rw [nextVisible]
  have split := List.takeWhile_append_dropWhile (p := Token.isSpace) (l := ts)
  have blank := List.all_eq_true.mp (List.all_takeWhile (p := Token.isSpace) (l := ts))
  rw [← split, nextLexeme_skip fun g present => trivia_of_space (blank g present)] at found
  cases shown : ts.dropWhile Token.isSpace with
  | nil => simp [shown, nextLexeme] at found
  | cons t more =>
      have kept := free t more shown
      simpa [shown, nextLexeme, kept] using found

theorem uncommented_append {l : Lexeme} (free : Uncommented ts) (found : nextLexeme ts = some l) :
    Uncommented (ts ++ rest) := by
  intro t more shown
  cases front : ts.dropWhile Token.isSpace with
  | nil =>
      have seen := uncommented_seen free found
      simp [nextVisible, front] at seen
  | cons u others =>
      simp only [List.dropWhile_append, front, List.isEmpty_cons] at shown
      obtain ⟨rfl, _⟩ := List.cons.inj shown
      exact free u others front

-- `nested` reads all that statements read off no more than `size` tokens.
def Serves (forms : List StmtForm) (nested : Parser Stmt) (size : Nat) : Prop :=
  ∀ s us more, (us ++ more).length ≤ size → Reads (statement forms) s us more →
    Reads nested s us more

theorem Serves.mono {forms : List StmtForm} {nested : Parser Stmt} {size less : Nat}
    (serves : Serves forms nested size) (bound : less ≤ size) : Serves forms nested less :=
  fun s us more short read => serves s us more (Nat.le_trans short bound) read

theorem below_serves {forms : List StmtForm} {size total : Nat} (less : size < total) :
    Serves forms (below forms total) size :=
  fun _ _ _ short read => reads_below_iff.mpr ⟨Nat.lt_of_le_of_lt short less, read⟩

section complete

variable {forms : List StmtForm}

section inner

variable {n : Nat} (inner : ∀ s us, StmtRule false s us → us.length < n → Attained forms us)
include inner

theorem items_complete {stmts : List Stmt} {is cs : List Token} (derived : ItemsRule false stmts is)
    (shorter : is.length < n) (closed : CloseRule cs) :
    ∃ stmts', ∀ nested rest, Serves forms nested (is ++ (cs ++ rest)).length →
      Reads (manyTill blockEnd (item nested)) stmts' (is ++ cs) rest := by
  induction stmts generalizing is with
  | nil =>
      cases derived with
      | nil => exact ⟨[], fun nested rest _ => reads_manyTill_stop (reads_blockEnd_iff.mpr closed)⟩
  | cons s stmts ih =>
      cases derived with
      | @comment c us _ vs noted others =>
          have fewer : vs.length < n := by simp only [List.length_append] at shorter; omega
          obtain ⟨stmts', read⟩ := ih others fewer
          refine ⟨.comment c (ownTokens us) :: stmts', fun nested rest serves => ?_⟩
          obtain ⟨t, next, same⟩ := noted
          have seen : nextVisible us = some (.comment c) := same ▸ next.seen
          rw [List.append_assoc]
          refine reads_manyTill_item (blockEnd_declines ?_)
            (reads_item_iff.mpr (.inl ⟨c, ⟨t, next, same⟩, rfl⟩)) ?_ (read nested rest ?_)
          · simp [nextVisible_append seen]
          · rintro rfl
            simp [nextVisible] at seen
          · exact serves.mono (by simp only [List.length_append]; omega)
      | @stmt us _ _ vs free first others =>
          have fewer : vs.length < n := by simp only [List.length_append] at shorter; omega
          have part : us.length < n := by simp only [List.length_append] at shorter; omega
          obtain ⟨stmts', read⟩ := ih others fewer
          obtain ⟨s', reads⟩ := inner s us first part
          obtain ⟨l, found, leads⟩ := stmt_begins first
          refine ⟨s' :: stmts', fun nested rest serves => ?_⟩
          have follow : Fits s' (vs ++ cs ++ rest) := by
            intro _
            rw [List.append_assoc]
            exact items_follow others closed
          rw [List.append_assoc]
          refine reads_manyTill_item (blockEnd_declines ?_) (reads_item_iff.mpr (.inr
            ⟨uncommented_append free found, serves _ _ _ ?_ (reads _ follow)⟩))
            (nonempty_of_nextLexeme found) (read nested rest ?_)
          · rw [nextVisible_append (uncommented_seen free found)]
            rintro same
            cases same
            exact leads rfl
          · simp only [List.length_append]
            omega
          · exact serves.mono (by simp only [List.length_append]; omega)

theorem block_complete {b : Traced (List Stmt)} (derived : BlockRule false b ts)
    (shorter : ts.length ≤ n) :
    ∃ b', ∀ nested rest, (∀ size, size < (ts ++ rest).length → Serves forms nested size) →
      Reads (block nested) b' ts rest := by
  cases derived with
  | @intro os stmts is cs opened listed closed =>
      have positive := opened.positive
      have fewer : is.length < n := by simp only [List.length_append] at shorter; omega
      obtain ⟨stmts', read⟩ := items_complete inner listed fewer closed
      refine ⟨⟨stmts', ownTokens (os ++ (is ++ cs))⟩, fun nested rest serves => ?_⟩
      refine reads_block_iff.mpr ⟨os, is ++ cs, rfl, opened, read nested rest (serves _ ?_), rfl⟩
      simp only [List.length_append]
      omega

end inner

variable (all : ∀ form, form ∈ forms)
include all

theorem attained_of_form (form : StmtForm)
    (read : ∀ rest, Fits s rest → Reads (ofForm (below forms (ts ++ rest).length) form) s ts rest)
    (others : ∀ nested rest other, other ≠ form → ofForm nested other (ts ++ rest) = .declined) :
    Attained forms ts := by
  refine ⟨s, fun rest fits => ?_⟩
  unfold Reads
  rw [statement_eq]
  exact forms_reads (all form) (read rest fits) (others _ rest)

theorem while_attained {test : Traced Expr} {ks cs bs : List Token}
    (mark : Terminal (.keyword .whileWord) ks) (enclosed : LogicalRule test cs)
    (nests : Attained forms bs) : Attained forms (ks ++ (cs ++ bs)) := by
  obtain ⟨body, read⟩ := nests
  refine attained_of_form (s := .whileLoop test body (ownTokens (ks ++ (cs ++ bs)))) all .whileLoop
    (fun rest fits => ?_) fun _ _ => others_decline (nextLexeme_append mark.begins) rfl
  refine reads_whileStmt_iff.mpr ⟨ks, cs, bs, test, body, rfl, mark, enclosed,
    reads_below_iff.mpr ⟨?_, read rest fits⟩, rfl⟩
  have positive := mark.positive
  simp only [List.length_append]
  omega

theorem for_attained {init test post : Traced Expr} {ks os is cs ps bs : List Token}
    (mark : Terminal (.keyword .forWord) ks) (opened : Terminal (.separator .openParen) os)
    (first : ArithmeticRule .semicolon init is) (second : ArithmeticRule .semicolon test cs)
    (third : ArithmeticRule .closeParen post ps) (nests : Attained forms bs) :
    Attained forms (ks ++ (os ++ (is ++ (cs ++ (ps ++ bs))))) := by
  obtain ⟨body, read⟩ := nests
  refine attained_of_form
    (s := .forLoop init test post body (ownTokens (ks ++ (os ++ (is ++ (cs ++ (ps ++ bs))))))) all
    .forLoop (fun rest fits => ?_) fun _ _ => others_decline (nextLexeme_append mark.begins) rfl
  refine reads_forStmt_iff.mpr ⟨ks, os, is, cs, ps, bs, init, test, post, body, rfl, mark, opened,
    first, second, third, reads_below_iff.mpr ⟨?_, read rest fits⟩, rfl⟩
  have positive := mark.positive
  simp only [List.length_append]
  omega

theorem do_attained {test : Traced Expr} {ks bs ws cs es : List Token}
    (mark : Terminal (.keyword .doWord) ks) (nests : Attained forms bs)
    (again : Terminal (.keyword .whileWord) ws) (enclosed : LogicalRule test cs)
    (ends : Terminal (.separator .semicolon) es) :
    Attained forms (ks ++ (bs ++ (ws ++ (cs ++ es)))) := by
  obtain ⟨body, read⟩ := nests
  refine attained_of_form
    (s := .doLoop body test (ownTokens (ks ++ (bs ++ (ws ++ (cs ++ es)))))) all .doLoop
    (fun rest _ => ?_) fun _ _ => others_decline (nextLexeme_append mark.begins) rfl
  have follow : Fits body (ws ++ (cs ++ (es ++ rest))) := by
    intro _
    simp [nextLexeme_append again.begins]
  refine reads_doStmt_iff.mpr ⟨ks, bs, ws, cs, es, body, test, rfl, mark,
    reads_below_iff.mpr ⟨?_, read _ follow⟩, again, enclosed, ends, rfl⟩
  have positive := mark.positive
  simp only [List.length_append]
  omega

theorem ifThen_attained {test : Traced Expr} {ks cs bs : List Token}
    (mark : Terminal (.keyword .ifWord) ks) (enclosed : LogicalRule test cs)
    (nests : Attained forms bs) : Attained forms (ks ++ (cs ++ bs)) := by
  obtain ⟨body, read⟩ := nests
  refine attained_of_form (s := .ifThen test body (ownTokens (ks ++ (cs ++ bs)))) all .ifThen
    (fun rest fits => ?_) fun _ _ => others_decline (nextLexeme_append mark.begins) rfl
  have free : nextLexeme rest ≠ some (.keyword .elseWord) := fits rfl
  refine reads_ifStmt_iff.mpr (.inl ⟨ks, cs, bs, test, body, rfl, mark, enclosed,
    reads_below_iff.mpr ⟨?_, read rest fun _ => free⟩, free, rfl⟩)
  have positive := mark.positive
  simp only [List.length_append]
  omega

-- A body that ends open takes the `else` itself, and what is left is an `if` without one.
theorem ifElse_attained {test : Traced Expr} {ks cs bs ws os : List Token} {other : Stmt}
    (mark : Terminal (.keyword .ifWord) ks) (enclosed : LogicalRule test cs)
    (nests : Attained forms bs) (again : Terminal (.keyword .elseWord) ws)
    (follows : StmtRule false other os) (attained : Attained forms os)
    (attaching : ∀ s, StmtRule false s (bs ++ (ws ++ os)) → Attained forms (bs ++ (ws ++ os))) :
    Attained forms (ks ++ (cs ++ (bs ++ (ws ++ os)))) := by
  obtain ⟨body, read⟩ := nests
  cases opened : body.endsOpen with
  | true =>
      have derived := statement_sound (read [] (by simp [Fits, nextLexeme]))
      obtain ⟨s, attached⟩ := attach_else derived opened again follows
      exact ifThen_attained all mark enclosed (attaching s attached)
  | false =>
      obtain ⟨other, reads⟩ := attained
      refine attained_of_form (s := .ifElse test body other (ownTokens (ws ++ os))
        (ownTokens (ks ++ (cs ++ (bs ++ (ws ++ os)))))) all .ifThen (fun rest fits => ?_)
        fun _ _ => others_decline (nextLexeme_append mark.begins) rfl
      have positive := mark.positive
      refine reads_ifStmt_iff.mpr (.inr ⟨ks, cs, bs, ws, os, test, body, other, rfl, mark, enclosed,
        reads_below_iff.mpr ⟨?_, read _ (by simp [Fits, opened])⟩, again,
        reads_below_iff.mpr ⟨?_, reads rest fits⟩, rfl⟩)
      · simp only [List.length_append]
        omega
      · simp only [List.length_append]
        omega

theorem statement_complete (derived : StmtRule false s ts) : Attained forms ts := by
  induction size : ts.length using Nat.strongRecOn generalizing s ts with
  | ind n ih =>
      subst size
      have inner : ∀ s us, StmtRule false s us → us.length < ts.length → Attained forms us :=
        fun s us nests shorter => ih us.length shorter nests rfl
      cases derived with
      | block derived =>
          obtain ⟨b, read⟩ := block_complete inner derived (Nat.le_refl _)
          obtain ⟨opened, _, _⟩ := derived
          exact attained_of_form all .block
            (fun rest _ => reads_blockStmt_iff.mpr ⟨b, read _ rest fun _ => below_serves, rfl⟩)
            fun _ _ => others_decline (nextLexeme_append opened.begins) rfl
      | var derived =>
          exact attained_of_form all .var (fun _ _ => reads_varStmt_iff.mpr ⟨_, derived, rfl⟩)
            fun _ _ => var_others_decline derived
      | assign named mark assigned =>
          refine attained_of_form all .assign (fun _ _ => reads_assignStmt_iff.mpr
            ⟨_, _, _, _, _, _, rfl, named, mark, assigned, rfl⟩) fun _ _ => ?_
          simp only [List.append_assoc]
          exact assign_others_decline named mark
      | step derived ends =>
          refine attained_of_form all .step (fun _ _ => reads_stepStmt_iff.mpr
            ⟨_, _, _, _, rfl, derived, ends, rfl⟩) fun _ _ => ?_
          rw [List.append_assoc]
          exact step_others_decline derived
      | call named enclosed ends =>
          refine attained_of_form all .call (fun _ _ => reads_callStmt_iff.mpr
            ⟨_, _, _, _, _, rfl, named, enclosed, ends, rfl⟩) fun _ _ => ?_
          simp only [List.append_assoc]
          exact call_others_decline named enclosed
      | leave mark derived =>
          obtain ⟨result, _, read⟩ := leaveStmt_complete mark derived
          exact attained_of_form all .leave (fun rest _ => read rest)
            fun _ _ => others_decline (nextLexeme_append mark.begins) rfl
      | label derived ends =>
          refine attained_of_form all .label (fun _ _ => reads_labelStmt_iff.mpr
            ⟨_, _, _, rfl, derived, ends, rfl⟩) fun _ _ => ?_
          cases derived with
          | default mark => exact others_decline (nextLexeme_append mark.begins) rfl
          | case mark => exact others_decline (nextLexeme_append (nextLexeme_append mark.begins)) rfl
      | breakOut mark ends =>
          exact attained_of_form all .branch (fun _ _ => reads_branchStmt_iff.mpr
            ⟨_, _, rfl, ends, .inl ⟨mark, rfl⟩⟩)
            fun _ _ => others_decline (nextLexeme_append mark.begins) rfl
      | continueOn mark ends =>
          exact attained_of_form all .branch (fun _ _ => reads_branchStmt_iff.mpr
            ⟨_, _, rfl, ends, .inr ⟨mark, rfl⟩⟩)
            fun _ _ => others_decline (nextLexeme_append mark.begins) rfl
      | switch mark enclosed derived =>
          obtain ⟨b, read⟩ := block_complete inner derived
            (by simp only [List.length_append]; omega)
          refine attained_of_form all .switch (fun rest _ => reads_switchStmt_iff.mpr
            ⟨_, _, _, _, b, rfl, mark, enclosed, read _ rest fun size less => below_serves ?_, rfl⟩)
            fun _ _ => others_decline (nextLexeme_append mark.begins) rfl
          simp only [List.length_append] at less ⊢
          omega
      | whileLoop mark enclosed nests =>
          have positive := mark.positive
          exact while_attained all mark enclosed
            (inner _ _ nests (by simp only [List.length_append]; omega))
      | forLoop mark opened first second third nests =>
          have positive := mark.positive
          exact for_attained all mark opened first second third
            (inner _ _ nests (by simp only [List.length_append]; omega))
      | doLoop mark nests again enclosed ends =>
          have positive := mark.positive
          exact do_attained all mark (inner _ _ nests (by simp only [List.length_append]; omega))
            again enclosed ends
      | ifThen mark enclosed nests =>
          have positive := mark.positive
          exact ifThen_attained all mark enclosed
            (inner _ _ nests (by simp only [List.length_append]; omega))
      | ifElse mark enclosed nests again follows =>
          have positive := mark.positive
          refine ifElse_attained all mark enclosed (inner _ _ nests ?_) again follows
            (inner _ _ follows ?_) (fun s attached => inner s _ attached ?_)
          all_goals
            simp only [List.length_append]
            omega

end complete

end Parser
end NwscriptBindings
