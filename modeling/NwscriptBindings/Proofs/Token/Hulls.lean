import NwscriptBindings.Proofs.Token.Extent
import NwscriptBindings.Tree.Basic

namespace NwscriptBindings

namespace Pos

def rank (p : Pos) : Nat := p.line.toNat * UInt32.size + p.col.toNat

theorem before_iff_rank {p q : Pos} : p.before q = true ↔ p.rank < q.rank := by
  have left := p.col.toNat_lt_size
  have right := q.col.toNat_lt_size
  rw [before_iff, rank, rank, ← UInt32.toNat_inj]
  simp only [UInt32.size] at *
  omega

theorem rank_injective {p q : Pos} (same : p.rank = q.rank) : p = q := by
  have left := p.col.toNat_lt_size
  have right := q.col.toNat_lt_size
  obtain ⟨line, col⟩ := p
  obtain ⟨line', col'⟩ := q
  rw [Pos.mk.injEq, ← UInt32.toNat_inj, ← UInt32.toNat_inj]
  simp only [rank, UInt32.size] at *
  omega

theorem isValid_iff_rank {p : Pos} : p.isValid = true ↔ UInt32.size ≤ p.rank := by
  have bound := p.col.toNat_lt_size
  rw [isValid, bne_iff_ne, ne_eq, ← UInt32.toNat_inj, rank]
  simp only [UInt32.size, UInt32.toNat_zero] at *
  omega

end Pos

namespace Span

def Covers (s t : Span) : Prop := t.first.before s.first = false ∧ s.last.before t.last = false

theorem covers_iff_rank {s t : Span} :
    s.Covers t ↔ s.first.rank ≤ t.first.rank ∧ t.last.rank ≤ s.last.rank := by
  rw [Covers, ← Bool.not_eq_true, ← Bool.not_eq_true, Pos.before_iff_rank, Pos.before_iff_rank,
    Nat.not_lt, Nat.not_lt]

theorem Covers.refl (s : Span) : s.Covers s := covers_iff_rank.mpr ⟨Nat.le_refl _, Nat.le_refl _⟩

theorem Covers.trans {s t u : Span} (first : s.Covers t) (second : t.Covers u) : s.Covers u := by
  rw [covers_iff_rank] at *
  exact ⟨Nat.le_trans first.1 second.1, Nat.le_trans second.2 first.2⟩

-- A span that is not valid takes no part.
structure Hull (s : Span) (spans : List Span) : Prop where
  valid : s.isValid = true
  covers : ∀ t ∈ spans, t.isValid = true → s.Covers t
  first : ∃ t ∈ spans, t.isValid = true ∧ t.first = s.first
  last : ∃ t ∈ spans, t.isValid = true ∧ t.last = s.last

section joining

variable {s t : Span} {spans : List Span}

theorem join_invalid (none : s.isValid = false) (t : Span) : s.join t = t := by
  simp [join, none]

theorem join_of_invalid (valid : s.isValid = true) (none : t.isValid = false) : s.join t = s := by
  simp [join, valid, none]

theorem join_valid (left : s.isValid = true) (right : t.isValid = true) :
    s.join t = ⟨if t.first.before s.first then t.first else s.first,
      if s.last.before t.last then t.last else s.last⟩ := by
  simp [join, left, right]

theorem join_first (left : s.isValid = true) (right : t.isValid = true) :
    (s.join t).first = s.first ∨ (s.join t).first = t.first := by
  rw [join_valid left right]
  dsimp only
  split
  · exact .inr rfl
  · exact .inl rfl

theorem join_last (left : s.isValid = true) (right : t.isValid = true) :
    (s.join t).last = s.last ∨ (s.join t).last = t.last := by
  rw [join_valid left right]
  dsimp only
  split
  · exact .inr rfl
  · exact .inl rfl

theorem join_isValid (left : s.isValid = true) (right : t.isValid = true) :
    (s.join t).isValid = true := by
  obtain ⟨first, last⟩ := Bool.and_eq_true_iff.mp left
  obtain ⟨first', last'⟩ := Bool.and_eq_true_iff.mp right
  rw [isValid, Bool.and_eq_true]
  constructor
  · rcases join_first left right with same | same <;> rwa [same]
  · rcases join_last left right with same | same <;> rwa [same]

theorem join_covers (left : s.isValid = true) (right : t.isValid = true) :
    (s.join t).Covers s ∧ (s.join t).Covers t := by
  rw [join_valid left right]
  simp only [covers_iff_rank, Pos.before_iff_rank]
  constructor
  · constructor <;> split <;> omega
  · constructor <;> split <;> omega

theorem Hull.single (valid : t.isValid = true) (none : ∀ s ∈ spans, s.isValid = false) :
    t.Hull (spans ++ [t]) := by
  refine ⟨valid, ?_, ⟨t, by simp, valid, rfl⟩, ⟨t, by simp, valid, rfl⟩⟩
  intro u present shown
  rcases List.mem_append.mp present with front | behind
  · exact absurd shown (by simp [none u front])
  · rw [List.mem_singleton.mp behind]
    exact .refl t

theorem Hull.skip (hull : s.Hull spans) (none : t.isValid = false) : s.Hull (spans ++ [t]) := by
  obtain ⟨valid, covers, ⟨a, among, shown, first⟩, ⟨b, among', shown', last⟩⟩ := hull
  refine ⟨valid, ?_, ⟨a, by simp [among], shown, first⟩, ⟨b, by simp [among'], shown', last⟩⟩
  intro u present shown
  rcases List.mem_append.mp present with front | behind
  · exact covers u front shown
  · rw [List.mem_singleton.mp behind, none] at shown
    cases shown

theorem Hull.join (hull : s.Hull spans) (added : t.isValid = true) :
    (s.join t).Hull (spans ++ [t]) := by
  obtain ⟨valid, covers, ⟨a, among, shown, first⟩, ⟨b, among', shown', last⟩⟩ := hull
  obtain ⟨covered, covered'⟩ := join_covers valid added
  have begins : ∃ u ∈ spans ++ [t], u.isValid = true ∧ u.first = (s.join t).first := by
    rcases join_first valid added with same | same
    · exact ⟨a, by simp [among], shown, first.trans same.symm⟩
    · exact ⟨t, by simp, added, same.symm⟩
  have ends : ∃ u ∈ spans ++ [t], u.isValid = true ∧ u.last = (s.join t).last := by
    rcases join_last valid added with same | same
    · exact ⟨b, by simp [among'], shown', last.trans same.symm⟩
    · exact ⟨t, by simp, added, same.symm⟩
  refine ⟨join_isValid valid added, ?_, begins, ends⟩
  intro u present shown
  rcases List.mem_append.mp present with front | behind
  · exact covered.trans (covers u front shown)
  · rw [List.mem_singleton.mp behind]
    exact covered'

def Gathers (s : Span) (spans : List Span) : Prop :=
  (∀ t ∈ spans, t.isValid = false) ∧ s.isValid = false ∨ s.Hull spans

theorem Gathers.join (gathered : s.Gathers spans) (t : Span) :
    (s.join t).Gathers (spans ++ [t]) := by
  rcases gathered with ⟨none, invalid⟩ | hull
  · rw [join_invalid invalid]
    cases shown : t.isValid with
    | true => exact .inr (.single shown none)
    | false =>
        refine .inl ⟨?_, shown⟩
        exact List.forall_mem_append.mpr ⟨none, List.forall_mem_singleton.mpr shown⟩
  · cases shown : t.isValid with
    | true => exact .inr (hull.join shown)
    | false =>
        rw [join_of_invalid hull.valid shown]
        exact .inr (hull.skip shown)

theorem Gathers.foldl (gathered : s.Gathers spans) (more : List Span) :
    (more.foldl Span.join s).Gathers (spans ++ more) := by
  induction more generalizing spans s with
  | nil => rwa [List.append_nil]
  | cons t more ih =>
      rw [List.append_cons]
      exact ih (gathered.join t)

theorem Gathers.hull_of_valid (gathered : s.Gathers spans) (present : t ∈ spans)
    (valid : t.isValid = true) : s.Hull spans := by
  rcases gathered with ⟨none, _⟩ | hull
  · exact absurd valid (by simp [none t present])
  · exact hull

theorem Gathers.hull (gathered : s.Gathers spans) (valid : ∀ t ∈ spans, t.isValid = true)
    (some : spans ≠ []) : s.Hull spans := by
  obtain ⟨t, present⟩ := List.exists_mem_of_ne_nil spans some
  exact gathered.hull_of_valid present (valid t present)

theorem gathers_zero : zero.Gathers [] := .inl ⟨by simp, rfl⟩

theorem joinAll_gathers (spans : List Span) : (joinAll spans).Gathers spans :=
  gathers_zero.foldl spans

end joining

end Span

namespace Token

-- Spans that are valid and not inverted, each behind the one before it.
structure Ascending (ts : List Token) : Prop where
  valid : ∀ t ∈ ts, t.span.isValid = true
  forward : ∀ t ∈ ts, t.span.first.rank ≤ t.span.last.rank
  apart : ts.Pairwise fun a b => a.span.last.rank < b.span.first.rank

def shown (ts : List Token) : List Token :=
  if ts.all (·.isTrivia) then ts.filter (·.isComment) else ts.filter (!·.isTrivia)

section shown

variable {ts us : List Token} {t u : Token}

theorem Ascending.sublist (ascending : Ascending ts) (part : us.Sublist ts) : Ascending us :=
  ⟨fun t present => ascending.valid t (part.subset present),
    fun t present => ascending.forward t (part.subset present), ascending.apart.sublist part⟩

theorem shown_sublist (ts : List Token) : (shown ts).Sublist ts := by
  unfold shown
  split
  · exact List.filter_sublist
  · exact List.filter_sublist

theorem shown_visible (present : t ∈ ts) (visible : t.isTrivia = false) :
    shown ts = ts.filter (!·.isTrivia) := by
  rw [shown, if_neg]
  intro skipped
  simp [List.all_eq_true.mp skipped t present] at visible

theorem mem_shown (present : t ∈ ts) (visible : t.isTrivia = false) : t ∈ shown ts := by
  rw [shown_visible present visible]
  simp [present, visible]

theorem Ascending.first_le (ascending : Ascending ts) (first : ts.head? = some t)
    (present : u ∈ ts) : t.span.first.rank ≤ u.span.first.rank := by
  obtain ⟨rest, rfl⟩ := List.head?_eq_some_iff.mp first
  rcases List.mem_cons.mp present with rfl | later
  · exact Nat.le_refl _
  · have behind := (List.pairwise_cons.mp ascending.apart).1 u later
    have forward := ascending.forward t (List.mem_cons_self ..)
    omega

theorem Ascending.le_last (ascending : Ascending ts) (last : ts.getLast? = some u)
    (present : t ∈ ts) : t.span.last.rank ≤ u.span.last.rank := by
  obtain ⟨front, rfl⟩ := List.getLast?_eq_some_iff.mp last
  rcases List.mem_append.mp present with earlier | same
  · have behind := (List.pairwise_append.mp ascending.apart).2.2 t earlier u (by simp)
    have forward := ascending.forward u (by simp)
    omega
  · obtain rfl := List.mem_singleton.mp same
    exact Nat.le_refl _

theorem Ascending.hull {s : Span} (ascending : Ascending ts) (hull : s.Hull (ts.map (·.span)))
    (first : ts.head? = some t) (last : ts.getLast? = some u) :
    s = ⟨t.span.first, u.span.last⟩ := by
  have begins : s.first = t.span.first := by
    have present := List.mem_of_mem_head? first
    obtain ⟨covered, _⟩ := Span.covers_iff_rank.mp
      (hull.covers t.span (List.mem_map_of_mem present) (ascending.valid t present))
    obtain ⟨_, held, _, same⟩ := hull.first
    obtain ⟨v, among, rfl⟩ := List.mem_map.mp held
    have least := ascending.first_le first among
    rw [same] at least
    exact Pos.rank_injective (Nat.le_antisymm covered least)
  have ends : s.last = u.span.last := by
    have present := List.mem_of_getLast? last
    obtain ⟨_, covered⟩ := Span.covers_iff_rank.mp
      (hull.covers u.span (List.mem_map_of_mem present) (ascending.valid u present))
    obtain ⟨_, held, _, same⟩ := hull.last
    obtain ⟨v, among, rfl⟩ := List.mem_map.mp held
    have most := ascending.le_last last among
    rw [same] at most
    exact Pos.rank_injective (Nat.le_antisymm most covered)
  rw [← begins, ← ends]

-- Comments count only where there is nothing else.
theorem tokensSpan_joined (valid : ∀ t ∈ ts, t.span.isValid = true) :
    tokensSpan ts = Span.joinAll ((shown ts).map (·.span)) := by
  by_cases skipped : ts.all (·.isTrivia) = true
  · have none : ts.filter (!·.isTrivia) = [] := by
      simpa [List.filter_eq_nil_iff] using skipped
    rw [tokensSpan, shown, if_pos skipped, none]
    rfl
  · have some : ts.filter (!·.isTrivia) ≠ [] := by
      simpa [List.filter_eq_nil_iff] using skipped
    rw [tokensSpan, shown, if_neg skipped, if_pos]
    refine ((Span.joinAll_gathers _).hull ?_ (by simpa using some)).valid
    intro s present
    obtain ⟨t, among, rfl⟩ := List.mem_map.mp present
    exact valid t (List.mem_filter.mp among).1

theorem tokensSpan_zero (none : shown ts = []) (valid : ∀ t ∈ ts, t.span.isValid = true) :
    tokensSpan ts = .zero := by
  rw [tokensSpan_joined valid, none]
  rfl

theorem Ascending.tokensSpan_hull (ascending : Ascending ts) (some : shown ts ≠ []) :
    (tokensSpan ts).Hull ((shown ts).map (·.span)) := by
  rw [tokensSpan_joined ascending.valid]
  refine (Span.joinAll_gathers _).hull ?_ (by simpa using some)
  intro s present
  obtain ⟨t, among, rfl⟩ := List.mem_map.mp present
  exact ascending.valid t ((shown_sublist ts).subset among)

theorem Ascending.tokensSpan_eq (ascending : Ascending ts) (first : (shown ts).head? = some t)
    (last : (shown ts).getLast? = some u) : tokensSpan ts = ⟨t.span.first, u.span.last⟩ := by
  have some : shown ts ≠ [] := by
    intro none
    rw [none] at first
    cases first
  exact (ascending.sublist (shown_sublist ts)).hull (ascending.tokensSpan_hull some) first last

end shown

end Token

namespace Pos

theorem advanceBy_rank_le {p : Pos} {text : List UInt8} (room : p.Room text.length) :
    p.rank ≤ (p.advanceBy text).rank := by
  by_cases empty : text = []
  · rw [empty]
    exact Nat.le_refl _
  · exact Nat.le_of_lt (before_iff_rank.mp (before_advanceBy room empty))

theorem rank_dropLast_lt {p : Pos} {text : List UInt8} (room : p.Room text.length)
    (nonempty : text ≠ []) : (p.advanceBy text.dropLast).rank < (p.advanceBy text).rank := by
  have parts : text.dropLast.length + 1 = text.length := by
    have := List.length_pos_iff.mpr nonempty
    rw [List.length_dropLast]
    omega
  rw [advanceBy_last nonempty]
  exact before_iff_rank.mp (before_advance _ (advanceBy_room text.dropLast (parts ▸ room)))

end Pos

namespace Scanner

theorem run_ascending {s after : Scanner} {ts : List Token} (path : Run s ts after)
    (room : s.pos.Room s.rest.length) :
    (∀ t ∈ ts, s.pos.rank ≤ t.span.first.rank ∧ t.span.first.rank ≤ t.span.last.rank) ∧
      ts.Pairwise fun a b => a.span.last.rank < b.span.first.rank := by
  induction path with
  | stop => exact ⟨by simp, .nil⟩
  | @step t middle ts after s found _ ih =>
      obtain ⟨nonempty, parts⟩ := next?_parts _ _ _ found
      have moved := (next?_position found).2
      rw [← parts, List.length_append] at room
      have own : s.pos.Room t.raw.length := ⟨by have := room.1; omega, by have := room.2; omega⟩
      have inner : s.pos.Room t.raw.dropLast.length := by
        have shorter : t.raw.dropLast.length = t.raw.length - 1 := List.length_dropLast
        exact ⟨by have := own.1; omega, by have := own.2; omega⟩
      have forward := Pos.advanceBy_rank_le inner
      have past := Pos.rank_dropLast_lt own nonempty
      obtain ⟨later, apart⟩ := ih (moved ▸ Pos.advanceBy_room t.raw room)
      rw [moved] at later
      refine ⟨List.forall_mem_cons.mpr ⟨?_, ?_⟩, List.pairwise_cons.mpr ⟨?_, apart⟩⟩
      · rw [next?_span found]
        exact ⟨Nat.le_refl _, forward⟩
      · intro u present
        obtain ⟨behind, straight⟩ := later u present
        exact ⟨by omega, straight⟩
      · intro u present
        rw [next?_span found]
        exact Nat.lt_of_lt_of_le past (later u present).1

theorem tokenize_ascending {text : List UInt8} (short : text.length < UInt32.size - 1) :
    Token.Ascending (tokenize text) := by
  obtain ⟨last, path, _⟩ := run_tokens { rest := text }
  have room : Pos.start.Room text.length := by
    constructor <;> simp only [Pos.start, UInt32.reduceToNat] <;> omega
  obtain ⟨forward, apart⟩ := run_ascending path room
  refine ⟨fun t present => ?_, fun t present => (forward t present).2, apart⟩
  obtain ⟨begins, ends⟩ := forward t present
  have origin : UInt32.size ≤ Pos.start.rank := by decide
  rw [Span.isValid, Bool.and_eq_true, Pos.isValid_iff_rank, Pos.isValid_iff_rank]
  exact ⟨Nat.le_trans origin begins, Nat.le_trans (Nat.le_trans origin begins) ends⟩

end Scanner
end NwscriptBindings
