import Mathlib.Data.List.Forall2
import NwscriptBindings.Binding.Generate

namespace NwscriptBindings

section outcomes

variable {ε ζ α β : Type}

theorem bind_ok_iff {x : Except ε α} {f : α → Except ε β} {b : β} :
    (x >>= f) = .ok b ↔ ∃ a, x = .ok a ∧ f a = .ok b := by
  cases x with
  | error e => simp [bind, Except.bind]
  | ok a => simp [bind, Except.bind]

theorem bind_error_iff {x : Except ε α} {f : α → Except ε β} {e : ε} :
    (x >>= f) = .error e ↔ x = .error e ∨ ∃ a, x = .ok a ∧ f a = .error e := by
  cases x with
  | error d => simp [bind, Except.bind]
  | ok a => simp [bind, Except.bind]

theorem pure_ok_iff {a b : α} : (pure a : Except ε α) = .ok b ↔ a = b := by
  simp [pure, Except.pure]

theorem ok_of_isSome {x : Except ε α} (accepted : x.toOption.isSome = true) :
    ∃ a, x = .ok a := by
  cases x with
  | error e => cases accepted
  | ok a => exact ⟨a, rfl⟩

theorem map_ok_iff {f : α → β} {x : Except ε α} {b : β} :
    x.map f = .ok b ↔ ∃ a, x = .ok a ∧ f a = b := by
  cases x with
  | error e => simp [Except.map]
  | ok a => simp [Except.map]

theorem mapError_ok_iff {change : ε → ζ} {x : Except ε α} {a : α} :
    x.mapError change = .ok a ↔ x = .ok a := by
  cases x with
  | error e => simp [Except.mapError]
  | ok b => simp [Except.mapError]

theorem mapM_ok_iff {f : α → Except ε β} {xs : List α} {ys : List β} :
    xs.mapM f = .ok ys ↔ List.Forall₂ (fun x y => f x = .ok y) xs ys := by
  induction xs generalizing ys with
  | nil =>
      rw [List.mapM_nil, pure_ok_iff, List.forall₂_nil_left_iff]
      exact eq_comm
  | cons x xs ih =>
      simp only [List.mapM_cons, bind_ok_iff, pure_ok_iff, ih]
      rw [List.forall₂_cons_left_iff]
      constructor
      · rintro ⟨y, first, ys, others, rfl⟩
        exact ⟨y, ys, first, others, rfl⟩
      · rintro ⟨y, ys, first, others, rfl⟩
        exact ⟨y, first, ys, others, rfl⟩

theorem mapM_succeeds_iff {f : α → Except ε β} {xs : List α} :
    (∃ ys, xs.mapM f = .ok ys) ↔ ∀ x ∈ xs, ∃ y, f x = .ok y := by
  simp only [mapM_ok_iff]
  induction xs with
  | nil => simp
  | cons x xs ih =>
      rw [List.forall_mem_cons, ← ih]
      constructor
      · rintro ⟨_, _ | ⟨first, others⟩⟩
        exact ⟨⟨_, first⟩, _, others⟩
      · rintro ⟨⟨y, first⟩, ys, others⟩
        exact ⟨y :: ys, .cons first others⟩

theorem mapM_error {f : α → Except ε β} {xs : List α} {e : ε} (refused : xs.mapM f = .error e) :
    ∃ x ∈ xs, f x = .error e := by
  induction xs with
  | nil => cases refused
  | cons x xs ih =>
      rw [List.mapM_cons] at refused
      rcases bind_error_iff.mp refused with first | ⟨_, _, others⟩
      · exact ⟨x, List.mem_cons_self, first⟩
      · rcases bind_error_iff.mp others with later | ⟨_, _, never⟩
        · obtain ⟨y, present, found⟩ := ih later
          exact ⟨y, List.mem_cons_of_mem x present, found⟩
        · cases never

end outcomes

theorem defaultText_ok_iff {v : Value} {text : List UInt8} :
    defaultText v = .ok text ↔ defaultText? v = some text := by
  unfold defaultText
  cases defaultText? v with
  | none => simp
  | some own => simp

theorem inParameter_ok_iff {α : Type} {name : List UInt8} {r : Except TransferObstacle α} {a : α} :
    inParameter name r = .ok a ↔ r = .ok a := mapError_ok_iff

theorem inFunction_ok_iff {name : List UInt8} {r : Except FunctionObstacle Method}
    {m : Option Member} : inFunction name r = .ok m ↔ ∃ f, r = .ok f ∧ m = some (.method f) := by
  cases r with
  | error cause => simp [inFunction]
  | ok f => simp [inFunction, eq_comm]

end NwscriptBindings
