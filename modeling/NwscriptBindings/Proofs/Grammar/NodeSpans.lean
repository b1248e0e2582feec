import NwscriptBindings.Proofs.Grammar.NodeRules
import NwscriptBindings.Proofs.Token.Hulls

namespace NwscriptBindings

namespace Grammar

open NwscriptBindings.Parser (Terminal trivia_of_space)

section visible

variable {bare : Bool} {ts : List Token}

theorem mem_own {t : Token} (present : t ∈ ts) (kept : t.isTrivia = false) : t ∈ ownTokens ts := by
  obtain ⟨gap, whole, blank⟩ := own_parts ts
  rw [whole] at present
  rcases List.mem_append.mp present with skipped | here
  · exact absurd (trivia_of_space (blank t skipped)) (by simp [kept])
  · exact here

theorem own_visible (visible : Visible ts) : Visible (ownTokens ts) := by
  obtain ⟨t, present, kept⟩ := visible
  exact ⟨t, mem_own present kept, kept⟩

theorem type_visible {type : ScriptType} (derived : TypeRule type ts) : Visible ts := by
  cases derived with
  | basic found => exact terminal_visible found
  | struct found _ => exact (terminal_visible found).before _

theorem literal_visible {l : Literal} (derived : LiteralRule l ts) : Visible ts := by
  cases derived with
  | objectSelf found => exact terminal_visible found
  | objectInvalid found => exact terminal_visible found
  | zeroVector opened _ => exact (terminal_visible opened).before _
  | vector opened _ _ _ _ _ _ => exact (terminal_visible opened).before _
  | string found => exact terminal_visible found
  | number spelled =>
      cases spelled with
      | plain found _ => exact terminal_visible found
      | negative minus _ _ => exact (terminal_visible minus).before _

theorem value_visible {value : Value} (derived : ValueRule value ts) : Visible ts := by
  cases derived with
  | literal found => exact literal_visible found
  | reference named => exact terminal_visible named

theorem param_visible {param : Param} (derived : ParamRule param ts) : Visible ts := by
  cases derived with
  | intro _ named _ => exact ((terminal_visible named).before _).behind _

theorem var_visible {d : VarDecl} (derived : VarRule bare d ts) : Visible ts := by
  cases derived with
  | plain _ _ named _ _ => exact (((terminal_visible named).before _).behind _).behind _
  | initialized _ _ named _ _ => exact (((terminal_visible named).before _).behind _).behind _

theorem signature_visible {sig : Signature} (derived : SignatureRule sig ts) : Visible ts := by
  cases derived with
  | intro _ named _ _ => exact ((terminal_visible named).before _).behind _

theorem block_visible {b : Traced (List Stmt)} (derived : BlockRule bare b ts) : Visible ts := by
  cases derived with
  | intro opened _ _ => exact (terminal_visible opened).before _

theorem stmt_visible {s : Stmt} (derived : StmtRule bare s ts) : Visible ts := by
  cases derived with
  | block b => exact block_visible b
  | var d => exact var_visible d
  | assign target _ _ => exact (terminal_visible target.1).before _
  | step _ ended => exact (terminal_visible ended).behind _
  | call named _ _ => exact (terminal_visible named).before _
  | whileLoop word _ _ => exact (terminal_visible word).before _
  | forLoop word _ _ _ _ _ => exact (terminal_visible word).before _
  | doLoop word _ _ _ _ => exact (terminal_visible word).before _
  | ifThen word _ _ => exact (terminal_visible word).before _
  | ifElse word _ _ _ _ => exact (terminal_visible word).before _
  | leave word _ => exact (terminal_visible word).before _
  | switch word _ _ => exact (terminal_visible word).before _
  | label _ ended => exact (terminal_visible ended).behind _
  | breakOut word _ => exact (terminal_visible word).before _
  | continueOn word _ => exact (terminal_visible word).before _

theorem decl_visible {d : Decl} (derived : DeclRule bare d ts) :
    (∃ c, d = .comment c) ∨ Visible ts := by
  cases derived with
  | @directive t _ _ next same =>
      obtain ⟨gap, rfl, _, _⟩ := next
      exact .inr ⟨t, by simp, by simp [Token.isTrivia, same, Lexeme.isTrivia]⟩
  | comment found => exact .inl ⟨_, rfl⟩
  | prototype _ sig _ => exact .inr ((signature_visible sig).before _)
  | function _ sig _ => exact .inr ((signature_visible sig).before _)
  | var _ d => exact .inr (var_visible d)
  | struct _ d =>
      cases d with
      | intro word _ _ _ _ _ => exact .inr ((terminal_visible word).before _)

end visible

section places

variable {bare : Bool} {n : Node} {ts : List Token}

-- The tokens of a node among those from which it is derived. If all of them are skipped, then the
-- node is a comment or the unit, or it stands between tokens that are not.
structure Spot (n : Node) (ts front back : List Token) : Prop where
  whole : ts = front ++ (n.tokens ++ back)
  seen : n.isUnit = true ∨ n.comment?.isSome ∨ n.tokens = [] ∨ Visible n.tokens ∨
    Visible front ∧ Visible back

theorem spot_own (own : n.tokens = ownTokens ts) (visible : n.comment?.isSome ∨ Visible ts) :
    ∃ front back, Spot n ts front back := by
  obtain ⟨gap, whole, _⟩ := own_parts ts
  refine ⟨gap, [], by rwa [List.append_nil, own], ?_⟩
  rcases visible with comment | visible
  · exact .inr (.inl comment)
  · rw [own]
    exact .inr (.inr (.inr (.inl (own_visible visible))))

theorem trimTrivia_visible (range : List Token) :
    trimTrivia range = [] ∨ Visible (trimTrivia range) := by
  cases kept : trimTrivia range with
  | nil => exact .inl rfl
  | cons t more =>
      have first := trimTrivia_first range t (by rw [kept]; rfl)
      exact .inr ⟨t, List.mem_cons_self .., first⟩

theorem NodeRule.spot (derived : NodeRule bare n ts) : ∃ front back, Spot n ts front back := by
  cases derived with
  | unit u =>
      cases u with
      | intro _ _ => exact ⟨[], [], by simp [Node.tokens], .inl rfl⟩
  | @decl d ts derived =>
      refine spot_own derived.2 ?_
      obtain ⟨content, tokens⟩ := d
      rcases decl_visible derived.1 with ⟨c, rfl⟩ | visible
      · exact .inl rfl
      · exact .inr visible
  | field derived => exact spot_own derived.2 (.inr (var_visible derived.1.1))
  | param derived => exact spot_own derived.2 (.inr (param_visible derived.1))
  | type derived => exact spot_own derived.2 (.inr (type_visible derived.1))
  | value derived => exact spot_own derived.2 (.inr (value_visible derived.1))
  | arithmetic derived =>
      obtain ⟨range, t, rfl, _, rfl⟩ := derived
      obtain ⟨front, back, parts, _, _⟩ := trimTrivia_parts range
      refine ⟨front, back ++ [t], ?_, ?_⟩
      · rw [Node.tokens, ← List.append_assoc, ← List.append_assoc, List.append_assoc front, ← parts]
      · rcases trimTrivia_visible range with none | some
        · exact .inr (.inr (.inl none))
        · exact .inr (.inr (.inr (.inl some)))
  | logical derived =>
      obtain ⟨os, range, t, rfl, opened, found, rfl⟩ := derived
      obtain ⟨gap, whole, _⟩ := own_parts range
      refine ⟨os ++ gap, [t], ?_, ?_⟩
      · rw [Node.tokens, List.append_assoc, ← List.append_assoc gap, ← whole]
      · obtain ⟨_, _, same, closes, _⟩ := rangeEnclosed_split found
        obtain ⟨rfl, _⟩ := List.cons.inj (List.append_cancel_left same)
        have kept : t.isTrivia = false := by
          simp [Token.isTrivia, closes, Lexeme.isTrivia, Separator.isSpace]
        exact .inr (.inr (.inr (.inr ⟨(terminal_visible opened).before gap, t, by simp, kept⟩)))
  | comment found => exact spot_own rfl (.inl rfl)
  | stmt derived => exact spot_own (stmt_own derived) (.inr (stmt_visible derived))
  | otherwise word _ => exact spot_own rfl (.inr ((terminal_visible word).before _))

-- Whatever is not skipped stays with a node that has others below it.
theorem NodeRule.keeps (derived : NodeRule bare n ts) (some : n.parts ≠ []) {t : Token}
    (present : t ∈ ts) (kept : t.isTrivia = false) : t ∈ n.tokens := by
  cases derived with
  | unit u =>
      cases u
      exact present
  | decl derived => exact (derived.2 ▸ mem_own present kept : t ∈ _)
  | field derived => exact (derived.2 ▸ mem_own present kept : t ∈ _)
  | param derived => exact (derived.2 ▸ mem_own present kept : t ∈ _)
  | type _ => exact (some rfl).elim
  | value _ => exact (some rfl).elim
  | arithmetic _ => exact (some rfl).elim
  | logical _ => exact (some rfl).elim
  | comment _ => exact mem_own present kept
  | stmt derived =>
      rw [Node.tokens, stmt_own derived]
      exact mem_own present kept
  | otherwise _ _ => exact mem_own present kept

theorem NodeRule.child_spot (derived : NodeRule bare n ts) {child : Rose Node}
    (present : child ∈ n.parts) : ∃ front back, ts = front ++ (child.value.tokens ++ back) ∧
      (child.value.tokens = [] ∨ Visible child.value.tokens ∨ Visible front ∧ Visible back ∨
        n.isUnit = true ∧ child.value.comment?.isSome) := by
  obtain ⟨inner, left, us, right, rfl, below, enclosed⟩ := derived.parts_seated child present
  obtain ⟨front, back, whole, seen⟩ := below.spot
  refine ⟨left ++ front, back ++ right, by simp [whole], ?_⟩
  rcases seen with unit | comment | none | some | ⟨before, behind⟩
  · rw [inner] at unit
    cases unit
  · cases top : n.isUnit with
    | true => exact .inr (.inr (.inr ⟨rfl, comment⟩))
    | false =>
        obtain ⟨before, behind⟩ := enclosed (by rw [top]; rfl) comment
        exact .inr (.inr (.inl ⟨before.before front, behind.behind back⟩))
  · exact .inl none
  · exact .inr (.inl some)
  · exact .inr (.inr (.inl ⟨before.behind left, behind.before right⟩))

end places

section spans

variable {bare : Bool} {n : Node} {ts : List Token}

open Token (Ascending shown)

theorem shown_of_valid (ascending : Ascending ts) (valid : (tokensSpan ts).isValid = true) :
    shown ts ≠ [] := by
  intro none
  rw [Token.tokensSpan_zero none ascending.valid] at valid
  cases valid

theorem covers_of_ends (ascending : Ascending ts) {s : Span} {t u : Token} (left : t ∈ shown ts)
    (first : t.span.first.rank ≤ s.first.rank) (right : u ∈ shown ts)
    (last : s.last.rank ≤ u.span.last.rank) : (tokensSpan ts).Covers s := by
  have hull := ascending.tokensSpan_hull (List.ne_nil_of_mem left)
  have covers : ∀ v ∈ shown ts, (tokensSpan ts).Covers v.span := fun v present =>
    hull.covers v.span (List.mem_map_of_mem present)
      (ascending.valid v ((Token.shown_sublist ts).subset present))
  rw [Span.covers_iff_rank]
  have begins := (Span.covers_iff_rank.mp (covers t left)).1
  have ends := (Span.covers_iff_rank.mp (covers u right)).2
  exact ⟨Nat.le_trans begins first, Nat.le_trans last ends⟩

theorem span_ends (ascending : Ascending ts) (valid : (tokensSpan ts).isValid = true) :
    ∃ t ∈ shown ts, ∃ u ∈ shown ts, (tokensSpan ts).first = t.span.first ∧
      (tokensSpan ts).last = u.span.last := by
  have hull := ascending.tokensSpan_hull (shown_of_valid ascending valid)
  obtain ⟨_, among, _, first⟩ := hull.first
  obtain ⟨_, among', _, last⟩ := hull.last
  obtain ⟨t, present, rfl⟩ := List.mem_map.mp among
  obtain ⟨u, present', rfl⟩ := List.mem_map.mp among'
  exact ⟨t, present, u, present', first.symm, last.symm⟩

theorem NodeRule.comment_token (derived : NodeRule bare n ts) {c : Comment}
    (same : n.comment? = some c) : ∃ t, n.tokens = [t] ∧ t.lexeme = .comment c := by
  cases derived with
  | @decl d ts derived =>
      obtain ⟨content, tokens⟩ := d
      cases derived.1 with
      | comment found =>
          cases same
          obtain ⟨t, next, held⟩ := found
          exact ⟨t, derived.2.trans (ownTokens_next next), held⟩
      | _ => cases same
  | comment found =>
      cases same
      obtain ⟨t, next, held⟩ := found
      exact ⟨t, ownTokens_next next, held⟩
  | stmt derived => cases derived <;> cases same
  | _ => cases same

theorem ascending_middle {front us back : List Token} (ascending : Ascending ts)
    (whole : ts = front ++ (us ++ back)) : Ascending us := by
  refine ascending.sublist ?_
  rw [whole]
  exact (List.sublist_append_left us back).trans (List.sublist_append_right front _)

theorem NodeRule.covers (derived : NodeRule bare n ts) (ascending : Ascending ts)
    {child : Rose Node} (present : child ∈ n.parts) (valid : child.value.span.isValid = true) :
    n.span.Covers child.value.span ∨ n.isUnit = true ∧ child.value.comment?.isSome := by
  obtain ⟨_, _, around, _⟩ := derived.spot
  have outer := ascending_middle ascending around
  have keeps : ∀ t ∈ ts, t.isTrivia = false → t ∈ shown n.tokens := fun t among kept =>
    Token.mem_shown (derived.keeps (List.ne_nil_of_mem present) among kept) kept
  obtain ⟨front, back, whole, seen⟩ := derived.child_spot present
  obtain ⟨t, begins, u, ends, first, last⟩ := span_ends (ascending_middle ascending whole) valid
  have held := (Token.shown_sublist child.value.tokens).subset
  have among : ∀ v ∈ child.value.tokens, v ∈ ts := by
    intro v inside
    rw [whole]
    simp [inside]
  rcases seen with none | ⟨v, inside, kept⟩ | ⟨⟨a, before, left⟩, ⟨b, behind, right⟩⟩ | comment
  · have inside := held begins
    rw [none] at inside
    cases inside
  · -- The ends of the child are tokens of the node itself.
    rw [Token.shown_visible inside kept] at begins ends
    simp only [List.mem_filter, Bool.not_eq_true'] at begins ends
    exact .inl (covers_of_ends outer (keeps t (among t begins.1) begins.2)
      (Nat.le_of_eq (congrArg Pos.rank first.symm)) (keeps u (among u ends.1) ends.2)
      (Nat.le_of_eq (congrArg Pos.rank last)))
  · have apart := ascending.apart
    rw [whole, List.pairwise_append, List.pairwise_append] at apart
    obtain ⟨_, ⟨_, _, later⟩, earlier⟩ := apart
    have low := earlier a before t (List.mem_append_left _ (held begins))
    have high := later u (held ends) b behind
    have within : a ∈ ts ∧ b ∈ ts := by simp [whole, before, behind]
    have forward := ascending.forward a within.1
    have forward' := ascending.forward b within.2
    refine .inl (covers_of_ends outer (keeps a within.1 left) ?_ (keeps b within.2 right) ?_)
    · show a.span.first.rank ≤ (tokensSpan child.value.tokens).first.rank
      rw [first]
      omega
    · show (tokensSpan child.value.tokens).last.rank ≤ b.span.last.rank
      rw [last]
      omega
  · exact .inr comment

theorem within_sublist {trees : List (Rose Node)} (inside : Within trees ts) :
    ∀ tree ∈ trees, tree.value.tokens.Sublist ts := by
  induction trees generalizing ts with
  | nil => simp
  | cons tree trees ih =>
      cases inside with
      | @cons _ _ us gap _ _ later =>
          refine List.forall_mem_cons.mpr ⟨?_, fun other present => ?_⟩
          · exact (List.sublist_append_left _ us).trans (List.sublist_append_right gap _)
          · exact ((ih later other present).trans (List.sublist_append_right _ us)).trans
              (List.sublist_append_right gap _)

theorem within_apart {trees : List (Rose Node)} (inside : Within trees ts)
    (ascending : Ascending ts) : trees.Pairwise fun a b =>
      a.value.span.isValid = true → b.value.span.isValid = true →
        a.value.span.last.before b.value.span.first = true := by
  induction trees generalizing ts with
  | nil => exact .nil
  | cons tree trees ih =>
      cases inside with
      | @cons _ _ us gap _ _ later =>
          have own := ascending_middle ascending rfl
          have rest : Ascending us := ascending.sublist
            ((List.sublist_append_right _ us).trans (List.sublist_append_right gap _))
          refine List.pairwise_cons.mpr ⟨fun other present valid valid' => ?_, ih later rest⟩
          have part := within_sublist later other present
          obtain ⟨_, _, u, ends, _, last⟩ := span_ends own valid
          obtain ⟨t, begins, _, _, first, _⟩ := span_ends (rest.sublist part) valid'
          have apart := (List.pairwise_append.mp ascending.apart).2.1
          have behind := (List.pairwise_append.mp apart).2.2 u
            ((Token.shown_sublist _).subset ends) t
            (part.subset ((Token.shown_sublist _).subset begins))
          rw [Pos.before_iff_rank]
          show (tokensSpan tree.value.tokens).last.rank < (tokensSpan other.value.tokens).first.rank
          rwa [last, first]

end spans

end Grammar

namespace Node

structure Framed (n : Node) (below : List (Rose Node)) : Prop where
  visible : ∀ t u, (n.tokens.filter (!·.isTrivia)).head? = some t →
    (n.tokens.filter (!·.isTrivia)).getLast? = some u → n.span = ⟨t.span.first, u.span.last⟩
  comment : ∀ c, n.comment? = some c →
    ∃ t, n.tokens = [t] ∧ t.lexeme = .comment c ∧ n.span = t.span
  empty : n.tokens = [] → n.span = .zero
  inside : ∀ child ∈ below, child.value.span.isValid = true →
    n.span.Covers child.value.span ∨ n.isUnit = true ∧ child.value.comment?.isSome
  apart : below.Pairwise fun a b => a.value.span.isValid = true → b.value.span.isValid = true →
    a.value.span.last.before b.value.span.first = true

end Node

namespace ScriptUnit

theorem parse_spans {name text : List UInt8} {lines : List (List UInt8)} {u : ScriptUnit}
    (short : text.length < UInt32.size - 1)
    (parsed : parse name lines (tokenize text) = .ok u) : u.tree.Throughout Node.Framed := by
  have derived := (parseWith_sound parsed).2
  refine Grammar.unit_throughout derived fun n found inside => ?_
  obtain ⟨front, ts, back, whole, rule⟩ := found
  have ascending := Grammar.ascending_middle (Scanner.tokenize_ascending short) whole
  obtain ⟨_, _, around, _⟩ := rule.spot
  have own := Grammar.ascending_middle ascending around
  refine ⟨?_, ?_, ?_, fun child => rule.covers ascending, Grammar.within_apart inside own⟩
  · intro t u first last
    have present := List.mem_filter.mp (List.mem_of_mem_head? first)
    have seen := Token.shown_visible present.1 (by simpa using present.2)
    rw [← seen] at first last
    exact own.tokensSpan_eq first last
  · intro c same
    obtain ⟨t, alone, held⟩ := rule.comment_token same
    have seen : Token.shown n.tokens = [t] := by
      simp [alone, Token.shown, Token.isTrivia, Token.isComment, Token.kind, held, Lexeme.isTrivia,
        Lexeme.kind]
    refine ⟨t, alone, held, own.tokensSpan_eq ?_ ?_⟩
    · rw [seen]
      rfl
    · rw [seen]
      rfl
  · intro none
    rw [Node.span, none]
    rfl

-- The first comment is outside the span of the unit, and the clauses of the loop have no tokens.
theorem parse_spans_commented :
    let text := utf8 "/* a */ void f() \x7b g(/* b */); for (;;) return; // c\n\x7d"
    text.length < UInt32.size - 1 ∧ ∃ u, parse [] [] (tokenize text) = .ok u ∧
      (u.tree.preorder.map Node.span).take 2 = [⟨⟨1, 9⟩, ⟨2, 1⟩⟩, ⟨⟨1, 1⟩, ⟨1, 7⟩⟩] ∧
      (u.tree.preorder.filter (·.span == .zero)).length = 3 ∧ u.tree.Throughout Node.Framed := by
  intro text
  have short : text.length < UInt32.size - 1 := by decide
  have found : (parse [] [] (tokenize text)).toOption.any (fun u =>
      (u.tree.preorder.map Node.span).take 2 == [⟨⟨1, 9⟩, ⟨2, 1⟩⟩, ⟨⟨1, 1⟩, ⟨1, 7⟩⟩] &&
        (u.tree.preorder.filter (·.span == .zero)).length == 3) = true := by decide +kernel
  cases outcome : parse [] [] (tokenize text) with
  | error e =>
      rw [outcome] at found
      cases found
  | ok u =>
      simp only [outcome, Except.toOption, Option.any_some, Bool.and_eq_true, beq_iff_eq] at found
      exact ⟨short, u, rfl, found.1, found.2, parse_spans short outcome⟩

end ScriptUnit
end NwscriptBindings
