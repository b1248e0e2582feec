import Mathlib.Data.Prod.Lex
import Mathlib.Order.Bounds.Basic
import NwscriptBindings.Proofs.Token.Hulls

namespace NwscriptBindings

namespace Pos

-- The line counts before the column.
def place (p : Pos) : ℕ ×ₗ ℕ := toLex (p.line.toNat, p.col.toNat)

theorem place_injective : Function.Injective place := by
  intro p q same
  obtain ⟨line, col⟩ := Prod.mk.inj (toLex.injective same)
  obtain ⟨_, _⟩ := p
  obtain ⟨_, _⟩ := q
  exact congrArg₂ Pos.mk (UInt32.toNat_inj.mp line) (UInt32.toNat_inj.mp col)

instance : PartialOrder Pos := PartialOrder.lift place place_injective

theorem le_iff_rank {p q : Pos} : p ≤ q ↔ p.rank ≤ q.rank := by
  have left := p.col.toNat_lt_size
  have right := q.col.toNat_lt_size
  change p.place ≤ q.place ↔ _
  rw [place, place, Prod.Lex.toLex_le_toLex, rank, rank]
  simp only [UInt32.size] at *
  omega

end Pos

namespace Span

-- Each end is compared for itself, so inverted spans have their place too.
instance : PartialOrder Span :=
  PartialOrder.lift (fun s => (OrderDual.toDual s.first, s.last)) fun s t same => by
    obtain ⟨first, last⟩ := Prod.mk.inj same
    obtain ⟨_, _⟩ := s
    obtain ⟨_, _⟩ := t
    exact congrArg₂ Span.mk (OrderDual.toDual.injective first) last

theorem le_iff_ends {s t : Span} : s ≤ t ↔ t.first ≤ s.first ∧ s.last ≤ t.last := Iff.rfl

theorem le_iff_covers {s t : Span} : s ≤ t ↔ t.Covers s := by
  rw [le_iff_ends, covers_iff_rank, Pos.le_iff_rank, Pos.le_iff_rank]

def valids (spans : List Span) : Set Span := {t | t ∈ spans ∧ t.isValid = true}

theorem mem_valids {t : Span} {spans : List Span} :
    t ∈ valids spans ↔ t ∈ spans ∧ t.isValid = true := Iff.rfl

section hulls

variable {s t u : Span} {spans others : List Span}

theorem valids_perm (same : (others.filter (·.isValid)).Perm (spans.filter (·.isValid))) :
    valids others = valids spans := by
  ext t
  simpa only [List.mem_filter, mem_valids] using same.mem_iff (a := t)

theorem valids_pair (left : s.isValid = true) (right : t.isValid = true) :
    valids [s, t] = {s, t} := by
  ext u
  simp only [mem_valids, List.mem_cons, List.not_mem_nil, or_false, Set.mem_insert_iff,
    Set.mem_singleton_iff, and_iff_left_iff_imp]
  rintro (rfl | rfl)
  · exact left
  · exact right

theorem Hull.isLUB (hull : s.Hull spans) : IsLUB (valids spans) s := by
  constructor
  · intro t valid
    exact le_iff_covers.mpr (hull.covers t valid.1 valid.2)
  · intro u above
    obtain ⟨a, among, valid, first⟩ := hull.first
    obtain ⟨b, among', valid', last⟩ := hull.last
    have begins := (le_iff_ends.mp (above ⟨among, valid⟩)).1
    have ends := (le_iff_ends.mp (above ⟨among', valid'⟩)).2
    exact le_iff_ends.mpr ⟨first ▸ begins, last ▸ ends⟩

theorem Hull.isLeast_first (hull : s.Hull spans) :
    IsLeast (Span.first '' valids spans) s.first := by
  obtain ⟨a, among, valid, first⟩ := hull.first
  refine ⟨⟨a, ⟨among, valid⟩, first⟩, ?_⟩
  rintro _ ⟨t, present, rfl⟩
  exact (le_iff_ends.mp (hull.isLUB.1 present)).1

theorem Hull.isGreatest_last (hull : s.Hull spans) :
    IsGreatest (Span.last '' valids spans) s.last := by
  obtain ⟨b, among, valid, last⟩ := hull.last
  refine ⟨⟨b, ⟨among, valid⟩, last⟩, ?_⟩
  rintro _ ⟨t, present, rfl⟩
  exact (le_iff_ends.mp (hull.isLUB.1 present)).2

-- Up to the first valid span the accumulator is whatever stood last, and counts for nothing.
theorem joinAll_hull (some : ∃ t ∈ spans, t.isValid = true) : (joinAll spans).Hull spans := by
  obtain ⟨t, present, valid⟩ := some
  exact (joinAll_gathers spans).hull_of_valid present valid

theorem joinAll_congr (some : ∃ t ∈ spans, t.isValid = true)
    (same : valids others = valids spans) : joinAll others = joinAll spans := by
  obtain ⟨t, present, valid⟩ := some
  have shared : t ∈ valids others := same ▸ ⟨present, valid⟩
  have hull := (joinAll_hull ⟨t, shared⟩).isLUB
  rw [same] at hull
  exact hull.unique (joinAll_hull ⟨t, present, valid⟩).isLUB

theorem joinAll_cons (s : Span) (spans : List Span) :
    joinAll (s :: spans) = spans.foldl join s := by
  rw [joinAll, List.foldl_cons, join_invalid rfl]

theorem join_isLUB (left : s.isValid = true) (right : t.isValid = true) :
    IsLUB {s, t} (s.join t) := by
  have hull : (joinAll [s, t]).Hull [s, t] := joinAll_hull ⟨s, by simp, left⟩
  rw [joinAll_cons] at hull
  rw [← valids_pair left right]
  exact hull.isLUB

theorem join_self (valid : s.isValid = true) : s.join s = s := by
  have single : IsLUB {s, s} s := by simp
  exact (join_isLUB valid valid).unique single

theorem join_comm (left : s.isValid = true) (right : t.isValid = true) :
    s.join t = t.join s := by
  have twice := join_isLUB right left
  rw [Set.pair_comm] at twice
  exact (join_isLUB left right).unique twice

theorem join_assoc (left : s.isValid = true) (middle : t.isValid = true)
    (right : u.isValid = true) : (s.join t).join u = s.join (t.join u) := by
  have turned : ([t, u] ++ [s]).Perm ([s] ++ [t, u]) := List.perm_append_comm
  calc (s.join t).join u
      = joinAll [s, t, u] := (joinAll_cons s [t, u]).symm
    _ = joinAll [t, u, s] := (joinAll_congr ⟨s, by simp, left⟩ (valids_perm (turned.filter _))).symm
    _ = (t.join u).join s := joinAll_cons t [u, s]
    _ = s.join (t.join u) := join_comm (join_isValid middle right) left

end hulls

theorem join_order_free :
    (∀ s t : Span, s.isValid = true → t.isValid = true →
      (s.join t).isValid = true ∧ IsLUB {s, t} (s.join t)) ∧
    (∀ s : Span, s.isValid = true → s.join s = s) ∧
    (∀ s t : Span, s.isValid = true → t.isValid = true → s.join t = t.join s) ∧
    (∀ s t u : Span, s.isValid = true → t.isValid = true → u.isValid = true →
      (s.join t).join u = s.join (t.join u)) ∧
    ∀ spans : List Span, (∃ t ∈ spans, t.isValid = true) →
      IsLeast (Span.first '' valids spans) (joinAll spans).first ∧
        IsGreatest (Span.last '' valids spans) (joinAll spans).last ∧
        ∀ others : List Span, (others.filter (·.isValid)).Perm (spans.filter (·.isValid)) →
          joinAll others = joinAll spans := by
  refine ⟨fun s t left right => ⟨join_isValid left right, join_isLUB left right⟩,
    fun s valid => join_self valid, fun s t => join_comm, fun s t u => join_assoc, ?_⟩
  intro spans some
  have hull := joinAll_hull some
  refine ⟨hull.isLeast_first, hull.isGreatest_last, ?_⟩
  intro others same
  exact joinAll_congr some (valids_perm same)

-- Two inverted spans, with two between them that are valid at one end only.
theorem join_order_free_inverted :
    let s : Span := ⟨⟨5, 7⟩, ⟨2, 1⟩⟩
    let t : Span := ⟨⟨4, 9⟩, ⟨1, 3⟩⟩
    let late : Span := ⟨⟨0, 5⟩, ⟨9, 9⟩⟩
    let early : Span := ⟨⟨1, 1⟩, ⟨0, 3⟩⟩
    IsLUB {s, t} ⟨⟨4, 9⟩, ⟨2, 1⟩⟩ ∧ s.join t = t.join s ∧ s.join s = s ∧
      (s.join t).join s = s.join (t.join s) ∧
      joinAll [late, s, early, t] = ⟨⟨4, 9⟩, ⟨2, 1⟩⟩ ∧
      IsLeast (Span.first '' valids [late, s, early, t]) ⟨4, 9⟩ ∧
      IsGreatest (Span.last '' valids [late, s, early, t]) ⟨2, 1⟩ ∧
      joinAll [early, t, late, s] = joinAll [late, s, early, t] := by
  intro s t late early
  obtain ⟨least, idempotent, commutes, associates, whole⟩ := join_order_free
  have left : s.isValid = true := by decide
  have right : t.isValid = true := by decide
  obtain ⟨first, last, reordered⟩ := whole [late, s, early, t] ⟨s, by decide, left⟩
  exact ⟨(least s t left right).2, commutes s t left right, idempotent s left,
    associates s t s left right left, by decide, first, last, reordered _ (by decide)⟩

end Span
end NwscriptBindings
