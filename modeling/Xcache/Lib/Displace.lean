import Mathlib.Tactic
import Mathlib.Data.Multiset.Range
import Mathlib.Data.Multiset.MapFold

/-! Chains of displaced entries. A trail follows from each cell the next one until there is none.
The entries of the cells on a trail can be moved on by one cell in two ways, forwards with the
displaced entry in hand and backwards from the last cell, and the two agree. -/

namespace Xcache
open Function

section
variable {ι : Type*} {next : ι → Option ι} {x y : ι} {l m p : List ι}

/-- The cells from one to a cell without a next one. -/
def Trail (next : ι → Option ι) : List ι → Prop
  | [] => False
  | [x] => next x = none
  | x :: y :: l => next x = some y ∧ Trail next (y :: l)

theorem Trail.of_append (trail : Trail next (p ++ x :: l)) : Trail next (x :: l) := by
  induction p with
  | nil => exact trail
  | cons z p ih =>
    cases p with
    | nil => exact trail.2
    | cons z' p => exact ih trail.2

theorem Trail.unique (trail : Trail next (x :: l)) (trail' : Trail next (x :: m)) : l = m := by
  induction l generalizing x m with
  | nil =>
    cases m with
    | nil => rfl
    | cons y m => exact absurd (trail.symm.trans trail'.1) nofun
  | cons y l ih =>
    cases m with
    | nil => exact absurd (trail'.symm.trans trail.1) nofun
    | cons y' m =>
      obtain rfl := Option.some_inj.mp (trail.1.symm.trans trail'.1)
      rw [ih trail.2 trail'.2]

/-- A trail does not meet a cell again: it would go round for ever. -/
theorem Trail.nodup (trail : Trail next l) : l.Nodup := by
  induction l with
  | nil => exact trail.elim
  | cons x l ih =>
    refine List.nodup_cons.mpr ⟨fun again => ?_, ?_⟩
    · obtain ⟨p, q, rfl⟩ := List.append_of_mem again
      have same := congrArg List.length (trail.unique (Trail.of_append (p := x :: p) trail))
      rw [List.length_append, List.length_cons] at same
      omega
    · cases l with
      | nil => exact List.nodup_nil
      | cons y l => exact ih trail.2

theorem Trail.forall {P : ι → Prop} (trail : Trail next (x :: l)) (first : P x)
    (step : ∀ i j, next i = some j → P j) :
    ∀ i ∈ x :: l, P i := by
  induction l generalizing x with
  | nil =>
    intro i mem
    rwa [List.mem_singleton.mp mem]
  | cons y l ih =>
    intro i mem
    rcases List.mem_cons.mp mem with rfl | mem
    · exact first
    · exact ih trail.2 (step x y trail.1) i mem

theorem Trail.last (trail : Trail next l) : ∃ p x, l = p ++ [x] ∧ next x = none := by
  induction l with
  | nil => exact trail.elim
  | cons x l ih =>
    cases l with
    | nil => exact ⟨[], x, rfl, trail⟩
    | cons y l =>
      obtain ⟨p, z, eq, stop⟩ := ih trail.2
      exact ⟨x :: p, z, by rw [eq]; rfl, stop⟩

end

section
variable {ι β : Type*} {l : List ι} {f : ι → β} {v : β}

/-- The entry in hand suits the first cell, and each entry on the way the cell after its own. -/
def Fits (P : ι → β → Prop) (f : ι → β) : List ι → β → Prop
  | [], _ => True
  | x :: l, v => P x v ∧ Fits P f l (f x)

theorem Fits.imp {P Q : ι → β → Prop} {R : β → Prop} (fits : Fits P f l v) (own : ∀ i, R (f i))
    (new : R v) (step : ∀ i b, R b → P i b → Q i b) : Fits Q f l v := by
  induction l generalizing v with
  | nil => trivial
  | cons x l ih => exact ⟨step x v new fits.1, ih fits.2 (own x)⟩

theorem Fits.forall_mem {P : ι → β → Prop} {Q : ι → Prop} (fits : Fits P f l v)
    (step : ∀ i b, P i b → Q i) : ∀ i ∈ l, Q i := by
  induction l generalizing v with
  | nil => exact List.forall_mem_nil Q
  | cons x l ih => exact List.forall_mem_cons.mpr ⟨step x v fits.1, ih fits.2⟩

end

section
variable {ι β : Type*} [DecidableEq ι] {x : ι} {l : List ι} {f : ι → β} {v : β}

/-- Each cell takes the entry in hand and gives its own. -/
def carry : List ι → (ι → β) → β → (ι → β) × β
  | [], f, v => (f, v)
  | x :: l, f, v => carry l (update f x v) (f x)

/-- From the last cell back, each cell takes the entry of the one before. -/
def shiftBack : List ι → (ι → β) → ι → β
  | x :: y :: l, f => update (shiftBack (y :: l) f) y (shiftBack (y :: l) f x)
  | [_], f => f
  | [], f => f

theorem carry_update (out : x ∉ l) (w : β) :
    carry l (update f x w) v = (update (carry l f v).1 x w, (carry l f v).2) := by
  induction l generalizing f v with
  | nil => rfl
  | cons y l ih =>
    have ne : y ≠ x := fun eq => out (eq ▸ List.mem_cons_self)
    unfold carry
    rw [update_comm ne.symm, ih (List.not_mem_of_not_mem_cons out),
      update_of_ne ne]

theorem carry_cons_fst (out : x ∉ l) :
    (carry (x :: l) f v).1 = update (carry l f (f x)).1 x v :=
  congrArg Prod.fst (carry_update out v)

theorem carry_cons_snd (out : x ∉ l) : (carry (x :: l) f v).2 = (carry l f (f x)).2 := by
  rw [carry, carry_update out]

theorem shiftBack_of_notMem (out : x ∉ l) : shiftBack l f x = f x := by
  induction l with
  | nil => rfl
  | cons y l ih =>
    cases l with
    | nil => rfl
    | cons z l =>
      have rest : x ∉ z :: l := List.not_mem_of_not_mem_cons out
      have ne : x ≠ z := fun eq => rest (eq ▸ List.mem_cons_self)
      unfold shiftBack
      rw [update_of_ne ne]
      exact ih rest

/-- Moving the entries back to front and putting the new one in front is the same as carrying it
along. -/
theorem update_shiftBack (nodup : (x :: l).Nodup) :
    update (shiftBack (x :: l) f) x v = (carry (x :: l) f v).1 := by
  induction l generalizing x v with
  | nil => rfl
  | cons y l ih =>
    obtain ⟨out, nodup⟩ := List.nodup_cons.mp nodup
    rw [carry_cons_fst out, ← ih nodup]
    change update (update (shiftBack (y :: l) f) y (shiftBack (y :: l) f x)) x v =
      _
    rw [shiftBack_of_notMem out]

/-- What is in hand at the end was in the last cell. -/
theorem carry_last (nodup : (l ++ [x]).Nodup) : (carry (l ++ [x]) f v).2 = f x := by
  induction l generalizing v with
  | nil => rfl
  | cons y l ih =>
    have ⟨out, rest⟩ := List.nodup_cons.mp nodup
    exact (carry_cons_snd out).trans (ih rest)

/-- A fact about cells and their entries is kept when it holds of the new entry in the first cell
and of each entry in the cell after its own. -/
theorem carry_forall {P : ι → β → Prop} {next : ι → Option ι} (trail : Trail next (x :: l))
    (before : ∀ i, P i (f i)) (first : P x v) (move : ∀ i j, next i = some j → P j (f i)) (i : ι) :
    P i ((carry (x :: l) f v).1 i) := by
  induction l generalizing x v with
  | nil =>
    change P i (update f x v i)
    by_cases here : i = x
    · rwa [here, update_self]
    · rw [update_of_ne here]
      exact before i
  | cons y l ih =>
    rw [carry_cons_fst (List.nodup_cons.mp trail.nodup).1]
    by_cases here : i = x
    · rwa [here, update_self]
    · rw [update_of_ne here]
      exact ih trail.2 (move x y trail.1)

theorem carry_forall_of_fits {P : ι → β → Prop} (nodup : l.Nodup) (before : ∀ i, P i (f i))
    (fits : Fits P f l v) (i : ι) :
    P i ((carry l f v).1 i) := by
  induction l generalizing v with
  | nil => exact before i
  | cons x l ih =>
    obtain ⟨out, nodup⟩ := List.nodup_cons.mp nodup
    rw [carry_cons_fst out]
    by_cases here : i = x
    · rw [here, update_self]
      exact fits.1
    · rw [update_of_ne here]
      exact ih nodup fits.2

/-- Carrying along cells in use fills the cell at the end and leaves the others in use or free. -/
theorem carry_append_iff {P : β → Prop} (nodup : (l ++ [x]).Nodup) (used : ∀ y ∈ l, P (f y))
    (new : P v) (i : ι) :
    P ((carry (l ++ [x]) f v).1 i) ↔ P (f i) ∨ i = x := by
  induction l generalizing v with
  | nil =>
    change P (update f x v i) ↔ _
    by_cases here : i = x
    · simpa [here] using new
    · simp [here]
  | cons y l ih =>
    rw [List.cons_append] at nodup ⊢
    obtain ⟨out, nodup⟩ := List.nodup_cons.mp nodup
    obtain ⟨first, used⟩ := List.forall_mem_cons.mp used
    rw [carry_cons_fst out]
    by_cases here : i = y
    · rw [here, update_self]
      exact iff_of_true new (Or.inl first)
    · rw [update_of_ne here]
      exact ih nodup used first

theorem countP_or_eq (s : Multiset ι) {P : ι → Prop} [DecidablePred P] (free : ¬ P x) :
    s.countP (fun i => P i ∨ i = x) = s.countP P + s.count x := by
  induction s using Multiset.induction_on with
  | empty => simp
  | cons i s ih =>
    rw [Multiset.countP_cons, Multiset.countP_cons, Multiset.count_cons, ih]
    by_cases here : i = x
    · subst here
      simp only [free, or_true, if_true, if_false]
      omega
    · simp only [here, Ne.symm here, or_false, if_false]
      omega

theorem countP_carry (s : Multiset ι) {P : β → Prop} [DecidablePred P] (nodup : (l ++ [x]).Nodup)
    (used : ∀ y ∈ l, P (f y)) (new : P v) (free : ¬ P (f x)) :
    s.countP (fun i => P ((carry (l ++ [x]) f v).1 i)) = s.countP (fun i => P (f i)) +
      s.count x := by
  rw [← countP_or_eq s free]
  exact Multiset.countP_congr rfl fun i _ => propext (carry_append_iff nodup used new i)

theorem map_update {s : Multiset ι} (nodup : s.Nodup) (mem : x ∈ s) :
    f x ::ₘ s.map (update f x v) = v ::ₘ s.map f := by
  have split : s = x ::ₘ s.erase x := (Multiset.cons_erase mem).symm
  have away : ∀ i ∈ s.erase x, update f x v i = f i := fun i inside =>
    update_of_ne ((Multiset.Nodup.mem_erase_iff nodup).mp inside).1 _ _
  rw [split, Multiset.map_cons, Multiset.map_cons, update_self,
    Multiset.map_congr rfl away, Multiset.cons_swap]

theorem map_carry {s : Multiset ι} (nodup : s.Nodup) (inside : ∀ x ∈ l, x ∈ s) :
    (carry l f v).2 ::ₘ s.map (carry l f v).1 = v ::ₘ s.map f := by
  induction l generalizing f v with
  | nil => rfl
  | cons x l ih =>
    unfold carry
    rw [ih fun y mem => inside y (List.mem_cons_of_mem x mem),
      map_update nodup (inside x List.mem_cons_self)]

end

end Xcache
