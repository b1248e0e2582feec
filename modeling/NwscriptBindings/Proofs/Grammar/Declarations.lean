import NwscriptBindings.Proofs.Grammar.Values

namespace NwscriptBindings.Parser

open Grammar

variable {α : Type} {ts rest : List Token}

theorem type_begins {x : ScriptType} (derived : TypeRule x ts) :
    ∃ k, nextLexeme ts = some (.keyword k) ∧ (k = .structWord ∨ ∃ type, k = .basic type) := by
  cases derived with
  | basic mark => exact ⟨_, mark.begins, .inr ⟨_, rfl⟩⟩
  | struct mark named => exact ⟨_, nextLexeme_append mark.begins, .inl rfl⟩

theorem reads_typed_iff {x : Traced ScriptType} :
    Reads (traced scriptType) x ts rest ↔ TracedRule TypeRule x ts :=
  reads_traced_rule fun _ => reads_scriptType_iff

def BeginsVar (k : Keyword) : Prop := k = .constWord ∨ k = .structWord ∨ ∃ type, k = .basic type

theorem typed_begins {x : Traced ScriptType} (derived : TracedRule TypeRule x ts) :
    ∃ k, nextLexeme ts = some (.keyword k) ∧ BeginsVar k := by
  obtain ⟨k, found, kind⟩ := type_begins derived.1
  exact ⟨k, found, .inr kind⟩

theorem var_begins {bare : Bool} {d : VarDecl} (derived : VarRule bare d ts) :
    ∃ k, nextLexeme ts = some (.keyword k) ∧ BeginsVar k := by
  have front : ∀ {isConst cs us} {type : Traced ScriptType} {vs : List Token},
      ConstRule isConst cs → TracedRule TypeRule type us →
        ∃ k, nextLexeme (cs ++ (us ++ vs)) = some (.keyword k) ∧ BeginsVar k := by
    intro isConst cs us type vs mark typed
    cases mark with
    | absent =>
        obtain ⟨k, found, kind⟩ := typed_begins typed
        exact ⟨k, by rw [List.nil_append]; exact nextLexeme_append found, kind⟩
    | present mark => exact ⟨_, nextLexeme_append mark.begins, .inl rfl⟩
  cases derived with
  | plain mark typed => exact front mark typed
  | initialized mark typed => exact front mark typed

theorem reads_const_iff {o : Option Unit} {x : Traced ScriptType} {us : List Token}
    (typed : TracedRule TypeRule x us) :
    Reads (optional (keyword .constWord)) o ts (us ++ rest) ↔ ConstRule o.isSome ts := by
  simp only [keyword, reads_optional_iff, reads_lexeme_iff, lexeme_declined_iff]
  constructor
  · rintro (⟨_, rfl, mark⟩ | ⟨rfl, rfl, _⟩)
    · exact .present mark
    · exact .absent
  · intro mark
    cases o with
    | some u =>
        cases mark with
        | present mark => exact .inl ⟨u, rfl, mark⟩
    | none =>
        cases mark with
        | absent =>
            refine .inr ⟨rfl, rfl, ?_⟩
            obtain ⟨k, found, kind⟩ := type_begins typed.1
            rw [nextLexeme_append found]
            rintro same
            rcases kind with rfl | ⟨type, rfl⟩ <;> cases same

theorem reads_initializer_iff {isConst : Bool} {o : Option (Traced Expr)} :
    Reads (initializer isConst) o ts rest ↔
      (isConst = false ∧ Terminal (.separator .semicolon) ts ∧ o = none) ∨
      ∃ os es value, ts = os ++ es ∧ EqualsRule os (es ++ rest) ∧ AssignedRule value es ∧
        o = some value := by
  simp only [initializer, separator, reads_choice_iff, reads_bind_iff, reads_ensure_iff,
    reads_lexeme_iff, reads_plainEquals_iff, reads_assigned_iff, reads_pure_iff]
  constructor
  · rintro (⟨_, _, _, rfl, ⟨free, rfl⟩, _, es, _, rfl, mark, rfl, rfl⟩ |
      ⟨_, _, os, _, rfl, equals, value, es, _, rfl, assigned, rfl, rfl⟩)
    · exact .inl ⟨by simpa using free, by simpa using mark, rfl⟩
    · exact .inr ⟨os, es, value, by simp, by simpa using equals, assigned, rfl⟩
  · rintro (⟨rfl, mark, rfl⟩ | ⟨os, es, value, rfl, equals, assigned, rfl⟩)
    · exact .inl ⟨(), [], ts, rfl, ⟨rfl, rfl⟩, (), ts, [], by simp, mark, rfl, rfl⟩
    · refine .inr ⟨?_, (), os, es, rfl, equals, value, es, [], by simp, assigned, rfl, rfl⟩
      refine ensure_declines (bind_declines (lexeme_declines ?_))
      rw [List.append_assoc, nextLexeme_append equals.1.begins]
      simp

-- Whether an expression begins with an equals sign does not depend on what stands behind it.
theorem startsWith_assigned {e : Traced Expr} {es : List Token} {l : Lexeme}
    (assigned : ArithmeticRule .semicolon e es) :
    StartsWith l (es ++ rest) ↔ StartsWith l es := by
  obtain ⟨range, t, rfl, _, _⟩ := assigned
  cases range with
  | nil => simp [StartsWith]
  | cons u more => simp [StartsWith]

theorem reads_varDecl_iff {d : VarDecl} : Reads varDecl d ts rest ↔ VarRule false d ts := by
  simp only [varDecl, reads_bind_iff, reads_typed_iff, reads_word_iff, reads_initializer_iff,
    reads_pure_iff]
  constructor
  · rintro ⟨o, cs, _, rfl, marked, type, us, _, rfl, typed, name, ns, _, rfl, named, init, is, _,
      rfl, initialized, rfl, rfl⟩
    rw [List.append_assoc, reads_const_iff typed] at marked
    rw [List.append_nil]
    rcases initialized with ⟨free, mark, rfl⟩ | ⟨os, es, value, rfl, equals, assigned, rfl⟩
    · exact .plain marked typed named mark (by simp [free])
    · refine .initialized marked typed named ⟨equals.1, fun same => equals.2 ?_⟩ assigned
      rw [List.nil_append]
      exact (startsWith_assigned assigned.1).mpr same
  · intro derived
    cases derived with
    | @plain isConst cs type us name ns es mark typed named ends free =>
        obtain rfl : isConst = false := by simpa using free
        refine ⟨none, cs, _, rfl, ?_, type, us, _, rfl, typed, name, ns, _, rfl, named, none, es,
          [], by simp, .inl ⟨rfl, ends, rfl⟩, rfl, rfl⟩
        rw [List.append_assoc, reads_const_iff typed]
        exact mark
    | @initialized isConst cs type us name ns os es value mark typed named equals assigned =>
        have follow : EqualsRule os (es ++ ([] ++ rest)) :=
          ⟨equals.1, fun same => equals.2 ((startsWith_assigned assigned.1).mp same)⟩
        obtain ⟨o, rfl⟩ : ∃ o : Option Unit, o.isSome = isConst := by
          cases isConst with
          | true => exact ⟨some (), rfl⟩
          | false => exact ⟨none, rfl⟩
        refine ⟨o, cs, _, rfl, ?_, type, us, _, rfl, typed, name, ns, _, rfl, named, some value,
          os ++ es, [], by simp, .inr ⟨os, es, value, rfl, follow, assigned, rfl⟩, rfl, rfl⟩
        rw [List.append_assoc, reads_const_iff typed]
        exact mark

theorem reads_structField_iff {d : VarDecl} :
    Reads structField d ts rest ↔ FieldRule false d ts := by
  simp only [structField, reads_bind_iff, reads_varDecl_iff, reads_ensure_iff, reads_pure_iff]
  constructor
  · rintro ⟨d, us, _, rfl, derived, _, _, _, rfl, ⟨plain, rfl⟩, rfl, rfl⟩
    exact ⟨by simpa using derived, by simpa using plain⟩
  · rintro ⟨derived, plain⟩
    exact ⟨d, ts, [], by simp, derived, (), [], [], rfl, ⟨by simpa using plain, rfl⟩, rfl, rfl⟩

theorem reads_fields_iff {ds : List (Traced VarDecl)} :
    Reads (manyTill (separator .closeBrace) (traced structField)) ds ts rest ↔
      ∃ fs cs, ts = fs ++ cs ∧ ListRule (TracedRule (FieldRule false)) ds fs ∧
        Terminal (.separator .closeBrace) cs := by
  have field : ∀ (d : Traced VarDecl) (us more : List Token),
      Reads (traced structField) d us more ↔ TracedRule (FieldRule false) d us :=
    fun _ _ _ => reads_traced_rule fun _ => reads_structField_iff
  refine reads_list_iff (fun _ => True) (fun _ _ => reads_lexeme_iff)
    (fun d us more read => (field d us more).mp read)
    (fun d us more derived _ => (field d us more).mpr derived) ?_ (fun _ _ _ => trivial)
  intro d us more derived
  obtain ⟨k, found, _⟩ := var_begins derived.1.1
  refine ⟨nonempty_of_nextLexeme found, lexeme_declines ?_, trivial⟩
  simp [nextLexeme_append found]

theorem reads_structDecl_iff {d : StructDecl} :
    Reads structDecl d ts rest ↔ StructRule false d ts := by
  simp only [structDecl, keyword, separator, reads_bind_iff, reads_manyTill_bind_iff,
    reads_lexeme_iff, reads_word_iff, reads_pure_iff]
  constructor
  · rintro ⟨_, ks, _, rfl, mark, name, ns, _, rfl, named, _, os, _, rfl, opened, fields, fs, _, rfl,
      listed, _, es, _, rfl, ends, rfl, rfl⟩
    obtain ⟨fs, cs, rfl, derived, closed⟩ := reads_fields_iff.mp listed
    rw [List.append_nil]
    exact .intro mark named opened derived closed ends
  · intro derived
    cases derived with
    | intro mark named opened listed closed ends =>
        exact ⟨(), _, _, rfl, mark, _, _, _, rfl, named, (), _, _, rfl, opened, _, _, _, rfl,
          reads_fields_iff.mpr ⟨_, _, rfl, listed, closed⟩, (), _, [], by simp, ends, rfl, rfl⟩

theorem reads_default_iff {o : Option (Traced Value)} : Reads Parser.default o ts rest ↔
    DefaultRule o ts ∧ (o = none → nextLexeme rest ≠ some (.operator .equals)) := by
  have valued : ∀ {v : Traced Value} {us more : List Token},
      Reads (traced value) v us more ↔ TracedRule ValueRule v us :=
    reads_traced_rule fun _ => reads_value_iff
  simp only [Parser.default, operator, reads_bind_iff, reads_optional_iff, reads_lexeme_iff,
    lexeme_declined_iff]
  constructor
  · rintro ⟨_, os, vs, rfl, ⟨_, rfl, mark⟩ | ⟨rfl, rfl, other⟩, found⟩
    · simp only [reads_bind_iff, reads_pure_iff] at found
      obtain ⟨v, vs, _, rfl, derived, rfl, rfl⟩ := found
      rw [List.append_nil]
      exact ⟨.present mark (valued.mp derived), by simp⟩
    · obtain ⟨rfl, rfl⟩ := reads_pure_iff.mp found
      exact ⟨.absent, fun _ => other⟩
  · rintro ⟨derived, follow⟩
    cases derived with
    | absent =>
        exact ⟨none, [], [], rfl, .inr ⟨rfl, rfl, follow rfl⟩, reads_pure_iff.mpr ⟨rfl, rfl⟩⟩
    | present mark derived =>
        refine ⟨some (), _, _, rfl, .inl ⟨(), rfl, mark⟩, ?_⟩
        simp only [reads_bind_iff, reads_pure_iff]
        exact ⟨_, _, [], by simp, valued.mpr derived, rfl, rfl⟩

theorem reads_param_iff {x : Param} : Reads param x ts rest ↔
    ParamRule x ts ∧ (x.default = none → nextLexeme rest ≠ some (.operator .equals)) := by
  simp only [param, reads_bind_iff, reads_typed_iff, reads_word_iff, reads_default_iff,
    reads_pure_iff]
  constructor
  · rintro ⟨type, us, _, rfl, typed, name, ns, _, rfl, named, o, ds, _, rfl, ⟨derived, follow⟩,
      rfl, rfl⟩
    rw [List.append_nil]
    exact ⟨.intro typed named derived, by simpa using follow⟩
  · rintro ⟨derived, follow⟩
    cases derived with
    | intro typed named derived =>
        exact ⟨_, _, _, rfl, typed, _, _, _, rfl, named, _, _, [], by simp,
          ⟨derived, by simpa using follow⟩, rfl, rfl⟩

theorem reads_followingParam_iff {x : Traced Param} : Reads followingParam x ts rest ↔
    FollowingRule x ts ∧ (x.content.default = none → nextLexeme rest ≠ some (.operator .equals)) := by
  simp only [followingParam, separator, reads_bind_iff, reads_lexeme_iff, reads_traced_iff,
    reads_param_iff]
  constructor
  · rintro ⟨_, cs, ps, rfl, comma, ⟨derived, follow⟩, own⟩
    exact ⟨.intro comma ⟨derived, own⟩, follow⟩
  · rintro ⟨⟨comma, derived⟩, follow⟩
    exact ⟨(), _, _, rfl, comma, ⟨derived.1, follow⟩, derived.2⟩

theorem reads_followingParams_iff {xs : List (Traced Param)} :
    Reads (manyTill (separator .closeParen) followingParam) xs ts rest ↔
      ∃ os es, ts = os ++ es ∧ ListRule FollowingRule xs os ∧
        Terminal (.separator .closeParen) es := by
  refine reads_list_iff (fun more => nextLexeme more ≠ some (.operator .equals))
    (fun _ _ => reads_lexeme_iff) (fun _ _ _ read => (reads_followingParam_iff.mp read).1)
    (fun _ _ _ derived follow => reads_followingParam_iff.mpr ⟨derived, fun _ => follow⟩) ?_ ?_
  · intro x us more derived
    have found : nextLexeme us = some (.separator .comma) := by
      cases derived with
      | intro comma _ => exact nextLexeme_append comma.begins
    exact ⟨nonempty_of_nextLexeme found, lexeme_declines (by simp [nextLexeme_append found]),
      by simp [nextLexeme_append found]⟩
  · intro es more closed
    simp [nextLexeme_append closed.begins]

theorem param_begins {x : Param} (derived : ParamRule x ts) :
    ∃ k, nextLexeme ts = some (.keyword k) := by
  cases derived with
  | intro typed named given =>
      obtain ⟨k, found, _⟩ := type_begins typed.1
      exact ⟨k, nextLexeme_append found⟩

theorem reads_someParams_iff {xs : List (Traced Param)} : Reads someParams xs ts rest ↔
    ∃ x more ps os es, xs = x :: more ∧ ts = ps ++ (os ++ es) ∧ TracedRule ParamRule x ps ∧
      ListRule FollowingRule more os ∧ Terminal (.separator .closeParen) es := by
  simp only [someParams, reads_bind_iff, reads_manyTill_bind_iff, reads_traced_iff,
    reads_param_iff, reads_followingParams_iff, reads_pure_iff]
  constructor
  · rintro ⟨x, ps, _, rfl, ⟨⟨derived, _⟩, own⟩, more, _, _, rfl, ⟨os, es, rfl, others, closed⟩,
      rfl, rfl⟩
    exact ⟨x, more, ps, os, es, rfl, by simp, ⟨derived, own⟩, others, closed⟩
  · rintro ⟨x, more, ps, os, es, rfl, rfl, ⟨derived, own⟩, others, closed⟩
    refine ⟨x, ps, os ++ es, rfl, ⟨⟨derived, fun _ => ?_⟩, own⟩, more, os ++ es, [], by simp,
      ⟨os, es, rfl, others, closed⟩, rfl, rfl⟩
    cases others with
    | nil => simp [nextLexeme_append closed.begins]
    | cons second _ =>
        obtain ⟨comma, _⟩ := second
        simp [nextLexeme_append comma.begins]

theorem reads_signature_iff {sig : Signature} :
    Reads signature sig ts rest ↔ SignatureRule sig ts := by
  simp only [signature, separator, reads_bind_iff, reads_typed_iff, reads_word_iff,
    reads_lexeme_iff, reads_choice_iff, reads_someParams_iff, reads_pure_iff]
  constructor
  · rintro ⟨result, us, _, rfl, typed, name, ns, _, rfl, named, _, os, _, rfl, opened, params, ps,
      _, rfl, ⟨_, es, _, rfl, closed, rfl, rfl⟩ |
        ⟨_, x, more, qs, rs, es, rfl, rfl, first, others, closed⟩, rfl, rfl⟩
    · rw [List.append_nil, List.append_nil]
      exact .intro typed named opened (.empty closed)
    · rw [List.append_nil]
      exact .intro typed named opened (.some first others closed)
  · intro derived
    cases derived with
    | intro typed named opened listed =>
        refine ⟨_, _, _, rfl, typed, _, _, _, rfl, named, (), _, _, rfl, opened, _, _, [],
          (List.append_nil _).symm, ?_, rfl, rfl⟩
        cases listed with
        | empty closed => exact .inl ⟨(), _, [], by simp, closed, rfl, rfl⟩
        | some first others closed =>
            obtain ⟨k, found⟩ := param_begins first.1
            refine .inr ⟨bind_declines (lexeme_declines ?_), _, _, _, _, _, rfl, rfl, first, others,
              closed⟩
            rw [List.append_assoc, nextLexeme_append found]
            simp

end NwscriptBindings.Parser
