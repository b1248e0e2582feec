import NwscriptBindings.Proofs.Binding.Places
import NwscriptBindings.Proofs.Grammar.Recognition
import NwscriptBindings.Proofs.Text.Splitting
import NwscriptBindings.Proofs.Token.Closing
import NwscriptBindings.Proofs.Token.Extent
import NwscriptBindings.Proofs.Token.Lexemes

namespace NwscriptBindings

namespace Scan

def Unmarked (text : List UInt8) : Prop := ∀ n, ¬ CommentEnd text n

theorem commentEnd_append {front : List UInt8} {n : Nat} (back : List UInt8)
    (closes : CommentEnd front n) : CommentEnd (front ++ back) n := by
  obtain ⟨star, slash⟩ := closes
  have inside : n + 1 < front.length := (List.getElem?_eq_some_iff.mp slash).1
  unfold CommentEnd
  rw [List.getElem?_append_left (by omega), List.getElem?_append_left inside]
  exact ⟨star, slash⟩

theorem commentEnd_behind {front back : List UInt8} {n : Nat} :
    CommentEnd (front ++ back) (front.length + n) ↔ CommentEnd back n := by
  unfold CommentEnd
  rw [Nat.add_assoc, List.getElem?_append_right (by omega), List.getElem?_append_right (by omega)]
  simp

theorem Unmarked.front {front back : List UInt8} (free : Unmarked (front ++ back)) :
    Unmarked front := fun n closes => free n (commentEnd_append back closes)

-- A byte of another kind keeps two texts from forming a mark together.
theorem unmarked_join_iff {c : UInt8} {front back : List UInt8} (noStar : c ≠ byte '*')
    (noSlash : c ≠ byte '/') :
    Unmarked (front ++ c :: back) ↔ Unmarked front ∧ Unmarked back := by
  have whole : front ++ c :: back = (front ++ [c]) ++ back := by simp
  constructor
  · intro free
    refine ⟨free.front, fun n closes => ?_⟩
    rw [whole] at free
    exact free _ (commentEnd_behind.mpr closes)
  · rintro ⟨before, behind⟩ n closes
    obtain ⟨star, slash⟩ := closes
    rcases Nat.lt_trichotomy (n + 1) front.length with inside | ends | after
    · rw [List.getElem?_append_left (by omega)] at star
      rw [List.getElem?_append_left inside] at slash
      exact before n ⟨star, slash⟩
    · rw [ends, List.getElem?_append_right (Nat.le_refl _), Nat.sub_self] at slash
      exact noSlash (Option.some.inj slash)
    · rcases Nat.lt_or_ge front.length n with later | here
      · obtain ⟨m, rfl⟩ := Nat.exists_eq_add_of_lt later
        have same : front.length + m + 1 = (front ++ [c]).length + m := by simp; omega
        rw [whole, same] at star slash
        exact behind m (commentEnd_behind.mp ⟨star, slash⟩)
      · have same : n = front.length := by omega
        rw [same, List.getElem?_append_right (Nat.le_refl _), Nat.sub_self] at star
        exact noStar (Option.some.inj star)

theorem unmarked_nil : Unmarked [] := fun n closes => absurd closes.1 (by simp)

theorem unmarked_spaces {text : List UInt8} (n : Nat) (free : Unmarked text) :
    Unmarked (List.replicate n (byte ' ') ++ text) := by
  induction n with
  | zero => exact free
  | succ n ih =>
      have joined := (unmarked_join_iff (c := byte ' ') (by decide) (by decide)).mpr
        ⟨unmarked_nil, ih⟩
      exact joined

theorem unmarked_unlines_iff {ls : List (List UInt8)} :
    Unmarked (Bytes.unlines ls) ↔ ∀ l ∈ ls, Unmarked l := by
  induction ls with
  | nil => simpa [Bytes.unlines] using unmarked_nil
  | cons l ls ih =>
      cases ls with
      | nil => simp [Bytes.unlines]
      | cons next more =>
          have parts : Bytes.unlines (l :: next :: more) =
              l ++ Bytes.newline :: Bytes.unlines (next :: more) := by
            simp [Bytes.unlines, List.intercalate_cons_cons]
          rw [parts, unmarked_join_iff (by decide) (by decide), ih]
          exact List.forall_mem_cons.symm

theorem commentCut_inside (text : List UInt8) : Unmarked (commentCut text).inside := by
  intro n closes
  have parts := commentCut_parts text
  have whole : CommentEnd text n := by
    rw [← parts, List.append_assoc]
    exact commentEnd_append _ closes
  have late := ((commentCut_atFirst text).first n whole).2
  have early := (List.getElem?_eq_some_iff.mp closes.1).1
  omega

theorem commentCut_mark {body : List UInt8} (free : Unmarked body) (rest : List UInt8) :
    commentCut (body ++ (utf8 "*/" ++ rest)) = ⟨body, true, rest⟩ := by
  have closes : CommentEnd (body ++ (utf8 "*/" ++ rest)) (body.length + 0) :=
    commentEnd_behind.mpr ⟨rfl, rfl⟩
  have first : ∀ m < body.length + 0, ¬ CommentEnd (body ++ (utf8 "*/" ++ rest)) m := by
    intro m early ends
    -- The first byte of the mark is no slash, so a mark cannot begin with the last byte in front.
    obtain ⟨star, slash⟩ := ends
    rw [List.getElem?_append_left (by omega)] at star
    rcases Nat.lt_or_ge (m + 1) body.length with inside | last
    · rw [List.getElem?_append_left inside] at slash
      exact free m ⟨star, slash⟩
    · have same : m + 1 = body.length := by omega
      rw [same, List.getElem?_append_right (Nat.le_refl _), Nat.sub_self] at slash
      have mark : (utf8 "*/" ++ rest)[0]? = some (byte '*') := rfl
      rw [mark] at slash
      exact absurd slash (by decide)
  have parts := commentCut_parts (body ++ (utf8 "*/" ++ rest))
  obtain ⟨closed, length⟩ := (commentCut_atFirst _).least closes first
  cases found : commentCut (body ++ (utf8 "*/" ++ rest)) with
  | mk inside mark left =>
      rw [found] at parts closed length
      obtain rfl : mark = true := closed
      rw [List.append_assoc] at parts
      obtain ⟨same, behind⟩ := List.append_inj parts length
      obtain rfl : inside = body := same
      obtain rfl : left = rest := List.append_cancel_left behind
      rfl

theorem lexeme_block {body : List UInt8} (context : ScanContext) (free : Unmarked body)
    (rest : List UInt8) :
    lexeme context (byte '/') (byte '*' :: (body ++ (utf8 "*/" ++ rest))) =
      (.comment (.block body true), rest) := by
  have noHash : byte '/' ≠ byte '#' := by decide
  have noSlash : byte '*' ≠ byte '/' := by decide
  simp [lexeme, noHash, noSlash, commentCut_mark free]

theorem lexeme_line {text : List UInt8} (context : ScanContext) (plain : Bytes.newline ∉ text)
    (rest : List UInt8) :
    lexeme context (byte '/') (byte '/' :: (text ++ Bytes.newline :: rest)) =
      (.comment (.line text), Bytes.newline :: rest) := by
  have noHash : byte '/' ≠ byte '#' := by decide
  have inLine : ∀ c ∈ text, (c != Bytes.newline) = true := by
    intro c present
    rw [bne_iff_ne]
    rintro rfl
    exact plain present
  simp [lexeme, noHash, List.takeWhile_append_of_pos inLine, List.dropWhile_append_of_pos inLine]

end Scan

namespace Bytes

structure Trims (line kept : List UInt8) : Prop where
  blank : ∃ blanks, line = kept ++ blanks ∧ ∀ b ∈ blanks, isBlank b = true
  last : ∀ b, kept.getLast? = some b → isBlank b = false

theorem trimEnd_trims (line : List UInt8) : Trims line (trimEnd isBlank line) where
  blank := by
    refine ⟨(line.reverse.takeWhile isBlank).reverse, ?_, ?_⟩
    · rw [trimEnd, ← List.reverse_append, List.takeWhile_append_dropWhile, List.reverse_reverse]
    · intro b present
      exact List.all_eq_true.mp List.all_takeWhile b (List.mem_reverse.mp present)
  last _ ends := trimEnd_last isBlank line ends

end Bytes

namespace CodeLine

theorem render_cons (depth : Nat) (c : UInt8) (rest : List UInt8) : render ⟨depth, c :: rest⟩ =
    List.replicate (4 * depth) (byte ' ') ++ (c :: rest ++ [Bytes.newline]) :=
  List.append_assoc _ _ _

end CodeLine

namespace Comment

-- What the scanner leaves inside a comment: no line end in one, no closing mark in the other.
def Confined : Comment → Prop
  | line text => Bytes.newline ∉ text
  | block text _ => Scan.Unmarked text

-- A comment and the one that is written for it at a level.
inductive Kept (depth : Nat) : Comment → Comment → Prop where
  | line {text kept : List UInt8} : Bytes.Trims text kept → Kept depth (.line text) (.line kept)
  | block {text body : List UInt8} {kept : List (List UInt8)} {closed : Bool} :
      List.Forall₂ Bytes.Trims (Bytes.lines text) kept →
      Bytes.lines body = [] ::
        (kept.map (Bytes.indented depth) ++ [List.replicate (4 * depth) (byte ' ')]) →
      Kept depth (.block text closed) (.block body true)

def bodyLines (depth : Nat) (text : List UInt8) : List (List UInt8) :=
  ((Bytes.lines text).map (Bytes.trimEnd Bytes.isBlank)).map (Bytes.indented depth)

def written (depth : Nat) : Comment → Comment
  | line text => .line (Bytes.trimEnd Bytes.isBlank text)
  | block text _ =>
      .block (Bytes.unlines ([] :: bodyLines depth text ++
        [List.replicate (4 * depth) (byte ' ')])) true

theorem render_member (c : Comment) (depth : Nat) : renderCode (c.member.lines depth) =
    List.replicate (4 * depth) (byte ' ') ++ ((c.written depth).raw ++ [Bytes.newline]) := by
  cases c with
  | line text =>
      have only : renderCode (member (.line text) |>.lines depth) =
          CodeLine.render ⟨depth, utf8 "//" ++ Bytes.trimEnd Bytes.isBlank text⟩ :=
        List.append_nil _
      rw [only]
      exact CodeLine.render_cons depth (byte '/') _
  | block text closed =>
      have opened : renderCode [⟨depth, utf8 "/*"⟩] = List.replicate (4 * depth) (byte ' ') ++
          (utf8 "/*" ++ [Bytes.newline]) := by
        rw [renderCode, List.flatMap_singleton]
        exact CodeLine.render_cons depth (byte '/') [byte '*']
      have ended : renderCode [⟨depth, utf8 "*/"⟩] = List.replicate (4 * depth) (byte ' ') ++
          (utf8 "*/" ++ [Bytes.newline]) := by
        rw [renderCode, List.flatMap_singleton]
        exact CodeLine.render_cons depth (byte '*') [byte '/']
      have inside : renderCode ((Bytes.lines text).map fun l =>
          (⟨depth, Bytes.trimEnd Bytes.isBlank l⟩ : CodeLine)) =
            Bytes.endLines (bodyLines depth text) := by
        simp [renderCode, Bytes.endLines, bodyLines, List.flatMap_map, CodeLine.render_indented]
      rw [member, Member.lines, render_append, render_append, opened, inside, ended, written, raw,
        closingMark, Bytes.unlines_snoc, Bytes.endLines, Bytes.endLines, List.flatMap_cons]
      simp only [List.append_assoc, List.nil_append]

theorem block_lines {depth : Nat} {text l : List UInt8}
    (present : l ∈ [] :: bodyLines depth text ++ [List.replicate (4 * depth) (byte ' ')]) :
    ∃ line ∈ Bytes.lines text, ∃ n kept, kept <+: line ∧
      l = List.replicate n (byte ' ') ++ kept := by
  rw [List.cons_append, List.mem_cons, List.mem_append, List.mem_singleton] at present
  obtain ⟨first, some⟩ := List.exists_mem_of_ne_nil _ (Bytes.splitOn_ne_nil Bytes.newline text)
  rcases present with rfl | body | rfl
  · exact ⟨first, some, 0, [], List.nil_prefix, rfl⟩
  · obtain ⟨kept, trimmed, rfl⟩ := List.mem_map.mp body
    obtain ⟨line, present, rfl⟩ := List.mem_map.mp trimmed
    obtain ⟨blanks, parts, _⟩ := (Bytes.trimEnd_trims line).blank
    unfold Bytes.indented
    split
    · exact ⟨line, present, 0, [], List.nil_prefix, rfl⟩
    · exact ⟨line, present, 4 * depth, _, ⟨blanks, parts.symm⟩, rfl⟩
  · exact ⟨first, some, 4 * depth, [], List.nil_prefix, (List.append_nil _).symm⟩

theorem written_kept (c : Comment) (depth : Nat) : Kept depth c (c.written depth) := by
  cases c with
  | line text => exact .line (Bytes.trimEnd_trims text)
  | block text closed =>
      refine @Kept.block depth text _ ((Bytes.lines text).map (Bytes.trimEnd Bytes.isBlank)) closed
        ?_ ?_
      · rw [List.forall₂_map_right_iff]
        exact List.forall₂_same.mpr fun l _ => Bytes.trimEnd_trims l
      · refine Bytes.lines_unlines (by simp) fun l present ends => ?_
        obtain ⟨line, own, n, kept, front, rfl⟩ := block_lines present
        rcases List.mem_append.mp ends with space | inside
        · exact absurd (List.eq_of_mem_replicate space) (by decide)
        · exact Bytes.splitOn_plain _ _ _ own (front.subset inside)

theorem written_confined {c : Comment} (confined : c.Confined) (depth : Nat) :
    (c.written depth).Confined := by
  cases c with
  | line text =>
      obtain ⟨blanks, parts, _⟩ := (Bytes.trimEnd_trims text).blank
      intro ends
      refine confined ?_
      rw [parts]
      exact List.mem_append_left _ ends
  | block text closed =>
      have free : ∀ l ∈ Bytes.lines text, Scan.Unmarked l := by
        rw [← Scan.unmarked_unlines_iff, Bytes.unlines, Bytes.lines, Bytes.intercalate_splitOn]
        exact confined
      refine Scan.unmarked_unlines_iff.mpr fun l present => ?_
      obtain ⟨line, own, n, kept, ⟨blanks, rfl⟩, rfl⟩ := block_lines present
      exact Scan.unmarked_spaces n (free _ own).front

-- Behind the line end nothing of the comment is left over.
theorem lexemes_written {c : Comment} (confined : c.Confined) (depth : Nat) (rest : List UInt8) :
    Scan.lexemes {} (renderCode (c.member.lines depth) ++ rest) =
      List.replicate (4 * depth) (.separator .space) ++
        (.comment (c.written depth) :: .separator .newline :: Scan.lexemes {} rest) := by
  have inside := written_confined confined depth
  have found : ∃ more, (c.written depth).raw ++ Bytes.newline :: rest = byte '/' :: more ∧
      Scan.lexeme {} (byte '/') more = (.comment (c.written depth), Bytes.newline :: rest) := by
    cases c with
    | line text => exact ⟨_, rfl, Scan.lexeme_line {} inside rest⟩
    | block text closed =>
        refine ⟨_, ?_, Scan.lexeme_block {} inside (Bytes.newline :: rest)⟩
        rw [written, raw, closingMark, List.append_assoc, List.append_assoc]
        rfl
  obtain ⟨more, start, read⟩ := found
  rw [render_member, List.append_assoc, Scan.lexemes_spaces, List.append_assoc,
    List.singleton_append, start, Scan.lexemes_cons read]
  exact congrArg (_ ++ .comment (c.written depth) :: ·) (Scan.lexemes_separator _ .newline rest)

end Comment

theorem Scanner.tokenize_confined {text : List UInt8} {t : Token} {c : Comment}
    (present : t ∈ tokenize text) (same : t.lexeme = .comment c) : c.Confined := by
  obtain ⟨before, more, parts⟩ := List.append_of_mem present
  obtain ⟨here, after, _, _, found, _⟩ := tokenize_step parts
  cases c with
  | line body =>
      obtain ⟨first, rest, _, takes⟩ := next?_takes found
      generalize shown : t.lexeme = l, after.rest = left at takes
      rw [same] at shown
      cases takes with
      | line =>
          cases shown
          intro ends
          exact absurd (List.all_eq_true.mp List.all_takeWhile _ ends) (by decide)
      | word =>
          exact (Scan.wordLexeme_ne (by simp [Lexeme.kind]) (by simp [Lexeme.kind]) shown).elim
      | _ => cases shown
  | block body closed =>
      obtain ⟨behind, _, cut⟩ := next?_block found same
      have inside := Scan.commentCut_inside behind
      rw [cut] at inside
      exact inside

namespace ScriptUnit

open Grammar

variable {u : ScriptUnit} {name : List UInt8} {lines : List (List UInt8)} {toks : List Token}

theorem parse_comment_token {c : Comment} {ts : List Token}
    (parsed : parse name lines toks = .ok u) (present : ⟨.comment c, ts⟩ ∈ u.decls) :
    ∃ t ∈ toks, t.lexeme = .comment c ∧ ts = [t] := by
  have derived := (parseWith_sound parsed).2
  cases derived with
  | intro derived blank =>
      obtain ⟨before, us, after, rfl, rule, own⟩ := derived.place_of_mem present
      cases rule with
      | comment rule =>
          obtain ⟨t, next, same⟩ := rule
          refine ⟨t, ?_, same, own.trans (ownTokens_next next)⟩
          obtain ⟨gap, rfl, _⟩ := next
          simp

-- A comment is written in the class, at its level, and at any level it is read back as one comment
-- of its kind, with the text line by line; what follows it is read as it is without it.
theorem parse_comment_survives {text : List UInt8} {c : Comment} {ts : List Token}
    (parsed : parse name lines (tokenize text) = .ok u) (present : ⟨.comment c, ts⟩ ∈ u.decls) :
    (∃ t ∈ tokenize text, t.lexeme = .comment c ∧ ts = [t]) ∧
      (∀ code, u.generate = .ok code →
        ∃ front rear, code = front ++ (renderCode (c.member.lines 2) ++ rear)) ∧
      ∀ depth, ∃ out, c.Kept depth out ∧ ∀ rest,
        (tokenize (renderCode (c.member.lines depth) ++ rest)).map Token.lexeme =
          List.replicate (4 * depth) (.separator .space) ++
            (.comment out :: .separator .newline :: (tokenize rest).map Token.lexeme) := by
  obtain ⟨t, read, same, own⟩ := parse_comment_token parsed present
  refine ⟨⟨t, read, same, own⟩, ?_, ?_⟩
  · intro code generated
    obtain ⟨before, after, parts⟩ := List.append_of_mem present
    obtain ⟨profile, m, front, rear, _, found, rfl⟩ := generate_place generated parts
    rw [Profile.member_comment] at found
    cases found
    exact ⟨front, rear, rfl⟩
  · intro depth
    refine ⟨c.written depth, c.written_kept depth, fun rest => ?_⟩
    rw [Scan.tokenize_lexemes, Scan.tokenize_lexemes]
    exact Comment.lexemes_written (Scanner.tokenize_confined read same) depth rest

-- A block that the end of the text cuts short, with an empty line and blanks at line ends.
theorem parse_comment_survives_open :
    let text := utf8 "int n;\n/* a \n\n * b\t"
    let c : Comment := .block (utf8 " a \n\n * b\t") false
    let out : Comment := .block (utf8 "\n     a\n\n     * b\n    ") true
    ∃ u ts, parse (utf8 "nwscript.nss") [] (tokenize text) = .ok u ∧ ⟨.comment c, ts⟩ ∈ u.decls ∧
      c.Kept 1 out ∧ (tokenize (renderCode (c.member.lines 1))).map Token.lexeme =
        List.replicate 4 (.separator .space) ++ [.comment out, .separator .newline] := by
  intro text c out
  have found : (parse (utf8 "nwscript.nss") [] (tokenize text)).toOption.any (fun u =>
      u.decls.any fun d => match d.content with
        | .comment other => other == c
        | _ => false) = true := by decide +kernel
  have emitted : (tokenize (renderCode (c.member.lines 1))).map Token.lexeme =
      List.replicate 4 (.separator .space) ++ [.comment out, .separator .newline] := by
    decide +kernel
  cases outcome : parse (utf8 "nwscript.nss") [] (tokenize text) with
  | error e =>
      rw [outcome] at found
      cases found
  | ok u =>
      simp only [outcome, Except.toOption, Option.any_some, List.any_eq_true] at found
      obtain ⟨⟨content, ts⟩, present, same⟩ := found
      cases content with
      | comment other =>
          obtain rfl : other = c := by simpa using same
          obtain ⟨_, _, read⟩ := parse_comment_survives outcome present
          obtain ⟨kept, rule, lexemes⟩ := read 1
          have shown := lexemes []
          rw [List.append_nil, emitted] at shown
          have equal : out = kept :=
            Lexeme.comment.inj (List.cons.inj (List.append_cancel_left shown)).1
          exact ⟨u, ts, rfl, present, equal.symm ▸ rule, emitted⟩
      | _ => cases same

end ScriptUnit
end NwscriptBindings
