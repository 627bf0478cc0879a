import Mathlib.Tactic

/-! Greedy allocation with two choices: every item goes to the emptier one of its two bins, to the
first one on a tie, and is dropped when both are full. -/

namespace Xcache.TwoChoice

section
variable {α β : Type*} (cap : Nat) (first second : α → β)

def choose (loads : β → Nat) (x : α) : Option β :=
  if cap ≤ loads (first x) ∧ cap ≤ loads (second x) then none
  else if loads (first x) ≤ loads (second x) then some (first x)
  else some (second x)

section
variable {cap first second} {l : β → Nat} {x : α} {b : β}

theorem choose_eq_none :
    choose cap first second l x = none ↔ cap ≤ l (first x) ∧ cap ≤ l (second x) := by
  unfold choose
  split_ifs with full le <;> simp [full]

theorem choose_lt (chosen : choose cap first second l x = some b) :
    l b < cap ∧ (b = first x ∨ b = second x) := by
  unfold choose at chosen
  split_ifs at chosen with full le
  · cases chosen
    exact ⟨by omega, Or.inl rfl⟩
  · cases chosen
    exact ⟨by omega, Or.inr rfl⟩

end

variable [DecidableEq β]

def loads : List α → β → Nat :=
  List.foldl (fun l x =>
    match choose cap first second l x with
    | none => l
    | some b => Function.update l b (l b + 1)) fun _ => 0

/-- The item finds room at one of its turns. -/
def Placed (items : List α) (x : α) : Prop :=
  ∃ done, done ++ [x] <+: items ∧
    (loads cap first second done (first x) < cap ∨ loads cap first second done (second x) < cap)

variable {cap first second} {b : β}

theorem loads_dropped {items : List α} {x : α}
    (full : choose cap first second (loads cap first second items) x = none) :
    loads cap first second (items ++ [x]) = loads cap first second items := by
  unfold loads at full ⊢
  simp [full]

theorem loads_chosen {items : List α} {x : α}
    (chosen : choose cap first second (loads cap first second items) x = some b) :
    loads cap first second (items ++ [x]) =
      Function.update (loads cap first second items) b (loads cap first second items b + 1) := by
  unfold loads at chosen ⊢
  simp [chosen]

theorem placed_concat (items : List α) (x y : α) :
    Placed cap first second (items ++ [x]) y ↔ Placed cap first second items y ∨
      y = x ∧ choose cap first second (loads cap first second items) x ≠ none := by
  have room : choose cap first second (loads cap first second items) x ≠ none ↔
      (loads cap first second items (first x) < cap ∨
        loads cap first second items (second x) < cap) := by
    rw [Ne, choose_eq_none]
    omega
  rw [room]
  constructor
  · rintro ⟨done, le, fits⟩
    rcases List.prefix_concat_iff.mp le with eq | le'
    · obtain ⟨rfl, same⟩ := List.append_inj' eq rfl
      cases same
      exact Or.inr ⟨rfl, fits⟩
    · exact Or.inl ⟨done, le', fits⟩
  · rintro (⟨done, le, fits⟩ | ⟨rfl, fits⟩)
    · exact ⟨done, le.trans (List.prefix_append _ _), fits⟩
    · exact ⟨items, List.prefix_refl _, fits⟩

theorem not_placed_nil (x : α) : ¬ Placed cap first second [] x := by
  rintro ⟨done, le, -⟩
  simp at le

end

end Xcache.TwoChoice
