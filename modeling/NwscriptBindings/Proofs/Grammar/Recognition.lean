import NwscriptBindings.Proofs.Grammar.Completeness
import NwscriptBindings.Token.Stream

namespace NwscriptBindings

open Grammar

namespace Parser

variable {ts rest : List Token}

section types

variable {x : ScriptType} {us : List Token} (typed : TypeRule x us)
include typed

theorem signature_declines_unnamed (other : ∀ name, nextLexeme rest ≠ some (.word name)) :
    signature (us ++ rest) = .declined := by
  have first : Reads (traced scriptType) ⟨x, ownTokens us⟩ us rest :=
    reads_typed_iff.mpr ⟨typed, rfl⟩
  exact bind_declines_later first (bind_declines (word_declines other))

theorem signature_declines_named {name : List UInt8} {ns : List Token} (named : NameRule name ns)
    (other : nextLexeme rest ≠ some (.separator .openParen)) :
    signature (us ++ (ns ++ rest)) = .declined := by
  have first : Reads (traced scriptType) ⟨x, ownTokens us⟩ us (ns ++ rest) :=
    reads_typed_iff.mpr ⟨typed, rfl⟩
  exact bind_declines_later first (bind_declines_later (reads_word_iff.mpr named)
    (bind_declines (lexeme_declines other)))

theorem varDecl_declines_unnamed (other : ∀ name, nextLexeme rest ≠ some (.word name)) :
    varDecl (us ++ rest) = .declined := by
  have first : Reads (traced scriptType) ⟨x, ownTokens us⟩ us rest :=
    reads_typed_iff.mpr ⟨typed, rfl⟩
  have plain : optional (keyword .constWord) (us ++ rest) = .accepted none 0 := by
    refine optional_declines (lexeme_declines ?_)
    obtain ⟨k, found, kind⟩ := type_begins typed
    rw [nextLexeme_append found]
    rintro same
    rcases kind with rfl | ⟨type, rfl⟩ <;> cases same
  rw [Reads] at first
  simp only [varDecl, bind_eq, plain, List.drop_zero, first, List.drop_left, word_declines other,
    Outcome.after]

end types

theorem signature_declines_var {d : VarDecl} (derived : VarRule false d ts) :
    signature (ts ++ rest) = .declined := by
  have front : ∀ {isConst cs us ns vs} {type : Traced ScriptType} {name : List UInt8},
      ConstRule isConst cs → TracedRule TypeRule type us → NameRule name ns →
      nextLexeme vs ≠ some (.separator .openParen) →
        signature (cs ++ (us ++ (ns ++ vs))) = .declined := by
    intro isConst cs us ns vs type name mark typed named other
    cases mark with
    | absent =>
        rw [List.nil_append]
        exact signature_declines_named typed.1 named other
    | present mark =>
        refine bind_declines (traced_declines (scriptType_declines ?_ ?_))
        · simp [nextLexeme_append mark.begins]
        · simp [nextLexeme_append mark.begins]
  cases derived with
  | plain mark typed named ends =>
      simp only [List.append_assoc]
      exact front mark typed named (by simp [nextLexeme_append ends.begins])
  | initialized mark typed named equals =>
      simp only [List.append_assoc]
      exact front mark typed named (by simp [nextLexeme_append equals.1.begins])

theorem struct_declines {d : StructDecl} (derived : StructRule false d ts) (rest : List Token) :
    signature (ts ++ rest) = .declined ∧ varDecl (ts ++ rest) = .declined := by
  cases derived with
  | @intro ks name ns os _ _ _ _ mark named opened =>
      have typed := TypeRule.struct mark named
      have other : ∀ {vs : List Token} name, nextLexeme (os ++ vs) ≠ some (.word name) :=
        fun name => by simp [nextLexeme_append opened.begins]
      simp only [List.append_assoc]
      rw [← List.append_assoc]
      exact ⟨signature_declines_unnamed typed other, varDecl_declines_unnamed typed other⟩

theorem signature_begins {sig : Signature} (derived : SignatureRule sig ts) :
    ∃ k, nextLexeme ts = some (.keyword k) := by
  cases derived with
  | intro typed =>
      obtain ⟨k, found, _⟩ := type_begins typed.1
      exact ⟨k, nextLexeme_append found⟩

theorem marginal_declines {k : Keyword} (free : Uncommented ts)
    (found : nextLexeme ts = some (.keyword k)) (rest : List Token) :
    directiveDecl (ts ++ rest) = .declined ∧ commentDecl (ts ++ rest) = .declined := by
  have seen : nextVisible (ts ++ rest) = some (.keyword k) :=
    nextVisible_append (uncommented_seen free found)
  constructor
  · refine visible_declines fun t next => ?_
    have same : t.lexeme = .keyword k := Option.some.inj (next.symm.trans seen)
    simp [same]
  · exact bind_declines (comment_declined_iff.mpr (uncommented_append free found))

theorem endOfTokens_declines {l : Lexeme} (found : nextVisible ts = some l) :
    endOfTokens ts = .declined := by
  rw [endOfTokens, if_neg]
  intro blank
  have none : (ts ++ []).dropWhile Token.isSpace = [] :=
    List.dropWhile_append_of_pos (List.all_eq_true.mp blank)
  rw [List.append_nil] at none
  simp [nextVisible, none] at found

theorem struct_begins {d : StructDecl} (derived : StructRule false d ts) :
    nextLexeme ts = some (.keyword .structWord) := by
  obtain ⟨mark, _⟩ := derived
  exact nextLexeme_append mark.begins

theorem decl_seen {d : Decl} (derived : DeclRule false d ts) : ∃ l, nextVisible ts = some l := by
  cases derived with
  | directive next _ => exact ⟨_, next.seen⟩
  | comment noted =>
      obtain ⟨t, next, _⟩ := noted
      exact ⟨_, next.seen⟩
  | prototype free signed =>
      obtain ⟨k, found⟩ := signature_begins signed
      exact ⟨_, uncommented_seen free (nextLexeme_append found)⟩
  | function free signed =>
      obtain ⟨k, found⟩ := signature_begins signed
      exact ⟨_, uncommented_seen free (nextLexeme_append found)⟩
  | var free derived =>
      obtain ⟨k, found, _⟩ := var_begins derived
      exact ⟨_, uncommented_seen free found⟩
  | struct free derived => exact ⟨_, uncommented_seen free (struct_begins derived)⟩

theorem prototype_complete {forms : List StmtForm} {sig : Signature} {es : List Token}
    (signed : SignatureRule sig ts) (ends : Terminal (.separator .semicolon) es) :
    Reads (functionDecl forms) (.prototype sig) (ts ++ es) rest := by
  simp only [functionDecl, separator, reads_bind_iff, reads_signature_iff, reads_choice_iff,
    reads_lexeme_iff, reads_pure_iff]
  exact ⟨sig, ts, es, rfl, signed, .inl ⟨(), es, [], by simp, ends, rfl, rfl⟩⟩

section complete

variable {forms : List StmtForm} (all : ∀ form, form ∈ forms)
include all

theorem function_complete {sig : Signature} {b : Traced (List Stmt)} {bs : List Token}
    (signed : SignatureRule sig ts) (derived : BlockRule false b bs) :
    ∃ b', ∀ rest, Reads (functionDecl forms) (.function sig b') (ts ++ bs) rest := by
  obtain ⟨b', read⟩ := block_complete (n := bs.length)
    (fun s us nests _ => statement_complete all nests) derived (Nat.le_refl _)
  refine ⟨b', fun rest => ?_⟩
  have body := read (statement forms) rest fun _ _ _ _ _ _ nests => nests
  obtain ⟨opened, _, _⟩ := derived
  simp only [functionDecl, separator, reads_bind_iff, reads_signature_iff, reads_choice_iff,
    reads_pure_iff]
  refine ⟨sig, ts, _, rfl, signed, .inr ⟨bind_declines (lexeme_declines ?_), b', _, [],
    (List.append_nil _).symm, body, rfl, rfl⟩⟩
  rw [List.append_assoc, nextLexeme_append opened.begins]
  simp

theorem decl_complete {d : Decl} (derived : DeclRule false d ts) :
    ∃ d', ∀ rest, Reads (decl forms) d' ts rest := by
  simp only [decl, firstOf, reads_orElse_iff, commentDecl, reads_map_iff, reads_directiveDecl_iff,
    reads_comment_iff, reads_varDecl_iff, reads_structDecl_iff]
  cases derived with
  | directive next same => exact ⟨_, fun _ => .inl ⟨_, _, next, same, rfl⟩⟩
  | comment noted =>
      refine ⟨_, fun rest => .inr ⟨visible_declines fun t found => ?_, .inl ⟨_, noted, rfl⟩⟩⟩
      obtain ⟨u, next, same⟩ := noted
      have comment := Option.some.inj (found.symm.trans (nextVisible_append next.seen))
      simp [comment, same]
  | prototype free signed ends =>
      obtain ⟨k, found⟩ := signature_begins signed
      have marginal := marginal_declines free (nextLexeme_append found)
      exact ⟨_, fun rest => .inr ⟨(marginal rest).1, .inr ⟨(marginal rest).2,
        .inl (prototype_complete signed ends)⟩⟩⟩
  | function free signed derived =>
      obtain ⟨k, found⟩ := signature_begins signed
      obtain ⟨b, read⟩ := function_complete all signed derived
      have marginal := marginal_declines free (nextLexeme_append found)
      exact ⟨_, fun rest => .inr ⟨(marginal rest).1, .inr ⟨(marginal rest).2, .inl (read rest)⟩⟩⟩
  | var free derived =>
      obtain ⟨k, found, _⟩ := var_begins derived
      have marginal := marginal_declines free found
      exact ⟨_, fun rest => .inr ⟨(marginal rest).1, .inr ⟨(marginal rest).2,
        .inr ⟨bind_declines (signature_declines_var derived), .inl ⟨_, derived, rfl⟩⟩⟩⟩⟩
  | struct free derived =>
      have marginal := marginal_declines free (struct_begins derived)
      have others := struct_declines derived
      exact ⟨_, fun rest => .inr ⟨(marginal rest).1, .inr ⟨(marginal rest).2,
        .inr ⟨bind_declines (others rest).1, .inr ⟨bind_declines (others rest).2,
          .inl ⟨_, derived, rfl⟩⟩⟩⟩⟩⟩

theorem decls_complete {ds : List (Traced Decl)} {es : List Token}
    (derived : ListRule (TracedRule (DeclRule false)) ds ts) (blank : ∀ t ∈ es, t.isSpace = true) :
    ∃ ds', Reads (decls forms) ds' (ts ++ es) [] := by
  induction derived with
  | nil => exact ⟨[], reads_manyTill_stop (reads_endOfTokens_iff.mpr ⟨blank, rfl⟩)⟩
  | @cons d us ds vs first others ih =>
      obtain ⟨ds', read⟩ := ih
      obtain ⟨d', reads⟩ := decl_complete all first.1
      obtain ⟨l, seen⟩ := decl_seen first.1
      refine ⟨⟨d', ownTokens us⟩ :: ds', ?_⟩
      rw [List.append_assoc]
      refine reads_manyTill_item (endOfTokens_declines (nextVisible_append seen))
        (reads_orFail_iff.mpr (reads_traced_iff.mpr ⟨reads _, rfl⟩)) ?_ read
      rintro rfl
      simp [nextVisible] at seen

end complete

end Parser

theorem StmtForm.mem_order (form : StmtForm) : form ∈ StmtForm.order := by
  cases form <;> decide

namespace ScriptUnit

variable {forms : List StmtForm} {name : List UInt8} {lines : List (List UInt8)}
  {tokens : List Token}

theorem parseWith_reads {u : ScriptUnit} (parsed : parseWith forms name lines tokens = .ok u) :
    u.name = name ∧ u.tokens = tokens ∧ Parser.Reads (Parser.decls forms) u.decls tokens [] := by
  unfold parseWith at parsed
  split at parsed
  · rename_i ds n accepted
    cases parsed
    have read := Parser.confined_reads (Parser.confined_decls forms) accepted
    have none := (Parser.decls_sound read).1
    have whole := List.take_append_drop n tokens
    rw [none, List.append_nil] at whole
    rw [none, whole] at read
    exact ⟨rfl, rfl, read⟩
  · cases parsed
  · cases parsed

theorem parseWith_sound {u : ScriptUnit} (parsed : parseWith forms name lines tokens = .ok u) :
    u.name = name ∧ UnitRule false u tokens := by
  obtain ⟨named, own, read⟩ := parseWith_reads parsed
  obtain ⟨_, us, es, rfl, derived, blank⟩ := Parser.decls_sound read
  obtain ⟨_, decls, tokens⟩ := u
  subst own
  exact ⟨named, .intro derived blank⟩

theorem parseWith_complete {u : ScriptUnit} (all : ∀ form, form ∈ forms)
    (derived : UnitRule false u tokens) : ∃ u, parseWith forms name lines tokens = .ok u := by
  cases derived with
  | intro derived blank =>
      obtain ⟨ds, read⟩ := Parser.decls_complete all derived blank
      unfold Parser.Reads at read
      rw [List.append_nil] at read
      exact ⟨_, by rw [parseWith, read]⟩

-- Both directions speak of trees: the one that is read derives the tokens, and any other that does
-- is enough for one to be read.
theorem parse_recognises (name : List UInt8) (lines : List (List UInt8)) (tokens : List Token) :
    (∀ u, parse name lines tokens = .ok u → u.name = name ∧ UnitRule false u tokens) ∧
      ((∃ u, UnitRule false u tokens) → ∃ u, parse name lines tokens = .ok u) := by
  constructor
  · intro u parsed
    exact parseWith_sound parsed
  · rintro ⟨u, derived⟩
    exact parseWith_complete StmtForm.mem_order derived

-- With the brackets of `[const] Type Name [= Expr] ;` taken one by one a constant may be bare.
theorem bare_constant_refused :
    (∃ u, UnitRule true u (tokenize (utf8 "const int x;"))) ∧
      ∀ name lines u, parse name lines (tokenize (utf8 "const int x;")) ≠ .ok u := by
  constructor
  · have spelled : (tokenize (utf8 "const int x;")).map Token.lexeme =
        [.keyword .constWord, .separator .space, .keyword (.basic .int), .separator .space,
          .word (utf8 "x"), .separator .semicolon] := by decide +kernel
    generalize tokenize (utf8 "const int x;") = ts at spelled
    simp only [List.map_eq_cons_iff, List.map_eq_nil_iff] at spelled
    obtain ⟨a, _, rfl, isConst, b, _, rfl, blank, c, _, rfl, isInt, d, _, rfl, blank', e, _, rfl,
      isName, f, _, rfl, ends, rfl⟩ := spelled
    have terminal : ∀ {g t : Token} {l : Lexeme}, g.lexeme = .separator .space → t.lexeme = l →
        l.isTrivia = false → Parser.Terminal l [g, t] := fun blank =>
      Parser.terminal_of_token [_]
        (by simp [Token.isTrivia, blank, Lexeme.isTrivia, Separator.isSpace])
    have alone : ∀ {t : Token} {l : Lexeme}, t.lexeme = l → l.isTrivia = false →
        Parser.Terminal l [t] := Parser.terminal_of_token [] (by simp)
    have typed : TracedRule TypeRule ⟨.basic .int, ownTokens [b, c]⟩ [b, c] :=
      ⟨.basic (terminal blank isInt rfl), rfl⟩
    have declared := VarRule.plain (.present (alone isConst rfl)) typed
      (terminal blank' isName rfl) (alone ends rfl) fun _ => rfl
    have free : Uncommented [a, b, c, d, e, f] := by
      intro t more found
      simp only [List.dropWhile_cons, Token.isSpace, isConst, Lexeme.isSpace] at found
      obtain ⟨rfl, _⟩ := List.cons.inj found
      simp [Token.isTrivia, isConst, Lexeme.isTrivia]
    have single : TracedRule (DeclRule true) ⟨.var ⟨⟨.basic .int, ownTokens [b, c]⟩, utf8 "x", none,
        true⟩, ownTokens [a, b, c, d, e, f]⟩ [a, b, c, d, e, f] := ⟨.var free declared, rfl⟩
    have derived : UnitRule true ⟨[], _, _⟩ ([a, b, c, d, e, f] ++ [] ++ []) :=
      .intro (.cons single .nil) (by simp)
    exact ⟨_, derived⟩
  · intro name lines u parsed
    have refused : (parse [] [] (tokenize (utf8 "const int x;"))).isOk = false := by decide +kernel
    rw [parse, parseWith] at parsed refused
    split at parsed
    · rename_i accepted
      rw [accepted] at refused
      cases refused
    · cases parsed
    · cases parsed

end ScriptUnit
end NwscriptBindings
