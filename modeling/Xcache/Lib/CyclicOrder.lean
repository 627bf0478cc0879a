import Mathlib.Data.List.Rotate
import Mathlib.Tactic

/-! Lists that are sorted when they are read around from the right place, insertion into them, and
a search that stops when it has passed the place of what it looks for. -/

namespace Xcache

section
variable {α β : Type} [LinearOrder β] (f : α → β)

/-- Sorted by `f` from one of its entries around to the one before it. -/
def CycSorted (l : List α) : Prop := ∃ a b, l = a ++ b ∧ (b ++ a).Pairwise fun x y => f x ≤ f y

/-- The place of `y` is between the neighbours `u` and `v`: they ascend across it, or they are the
largest and the smallest entry and it is outside. -/
def Between (u y v : α) : Prop := f v < f u ∧ (f y ≤ f v ∨ f u < f y) ∨ f u < f y ∧ f y ≤ f v

instance (u y v : α) : Decidable (Between f u y v) :=
  inferInstanceAs (Decidable (f v < f u ∧ (f y ≤ f v ∨ f u < f y) ∨ f u < f y ∧ f y ≤ f v))

/-- What follows `prev` once `y` has been put into its first place, or at the end. -/
def place (y : α) : α → List α → List α
  | _, [] => [y]
  | prev, next :: rest =>
    if Between f prev y next then y :: next :: rest else next :: place y next rest

/-- A walk from `u` to its neighbour `v` has passed the place of `x`. -/
def Passed (u : β) (x : β) (v : β) : Prop := u < x ∧ x < v ∨ x < v ∧ v < u ∨ v < u ∧ u < x

instance (u x v : β) : Decidable (Passed u x v) :=
  inferInstanceAs (Decidable (u < x ∧ x < v ∨ x < v ∧ v < u ∨ v < u ∧ u < x))

/-- The entry behind `prev` with the key `x` and the one before it. -/
def search (x : β) : α → List α → Option (α × α)
  | _, [] => none
  | prev, tmp :: rest =>
    if f tmp = x then some (tmp, prev)
    else if Passed (f prev) x (f tmp) then none
    else search x tmp rest

/-- The search from the front of the list, whose own entry has none before it. -/
def lookup (x : β) : List α → Option (α × Option α)
  | [] => none
  | head :: rest =>
    if f head = x then some (head, none) else (search f x head rest).map fun found => (found.1,
      some found.2)

/-- The search finds each entry by its key, with the one before it. -/
def Complete (l : List α) : Prop :=
  ∀ p y q, l = p ++ y :: q → lookup f (f y) l = some (y, p.getLast?)

variable {f} {l m p q rest : List α} {u v y : α}

theorem CycSorted.of_sorted (sorted : l.Pairwise fun x y => f x ≤ f y) : CycSorted f l :=
  ⟨[], l, rfl, by rwa [List.append_nil]⟩

theorem CycSorted.mono {γ : Type} [LinearOrder γ] {g : α → γ} (cyc : CycSorted f l)
    (le : ∀ x ∈ l, ∀ y ∈ l, f x ≤ f y → g x ≤ g y) : CycSorted g l := by
  obtain ⟨a, b, rfl, sorted⟩ := cyc
  refine ⟨a, b, rfl, List.Pairwise.imp_of_mem (fun {x y} memX memY => ?_) sorted⟩
  exact le x (List.perm_append_comm.subset memX) y (List.perm_append_comm.subset memY)

theorem CycSorted.congr {g : α → β} (cyc : CycSorted f l)
    (same : ∀ x ∈ l, g x = f x) : CycSorted g l :=
  cyc.mono fun x memX y memY le => by rwa [same x memX, same y memY]

theorem CycSorted.sublist (cyc : CycSorted f l) (sub : m.Sublist l) : CycSorted f m := by
  obtain ⟨a, b, rfl, sorted⟩ := cyc
  obtain ⟨a', b', rfl, subA, subB⟩ := List.sublist_append_iff.mp sub
  exact ⟨a', b', rfl, sorted.sublist (subB.append subA)⟩

theorem CycSorted.swap (cyc : CycSorted f (p ++ q)) : CycSorted f (q ++ p) := by
  obtain ⟨a, b, eq, sorted⟩ := cyc
  rcases List.append_eq_append_iff.mp eq with ⟨c, rfl, rfl⟩ | ⟨c, rfl, rfl⟩
  · exact ⟨c, b ++ p, by rw [List.append_assoc], by rwa [List.append_assoc]⟩
  · exact ⟨q ++ a, c, by rw [List.append_assoc], by rwa [← List.append_assoc]⟩

theorem CycSorted.of_isRotated (cyc : CycSorted f l) (rotated : l ~r m) : CycSorted f m := by
  obtain ⟨n, rfl⟩ := rotated
  rw [List.rotate_eq_drop_append_take_mod]
  refine CycSorted.swap ?_
  rwa [List.take_append_drop]

/-- Read from `v` to `u` the list is sorted, or `u` comes right before `v` where it is. -/
theorem CycSorted.cases_ends (cyc : CycSorted f (v :: (m ++ [u]))) :
    (v :: (m ++ [u])).Pairwise (fun x y => f x ≤ f y) ∨
      ∃ a b, v :: (m ++ [u]) = (v :: a) ++ (b ++ [u]) ∧ ((b ++ [u]) ++ (v :: a)).Pairwise fun x y =>
        f x ≤ f y := by
  obtain ⟨a, b, eq, sorted⟩ := cyc
  rcases List.eq_nil_or_concat' b with rfl | ⟨b, u', rfl⟩
  · rw [List.append_nil] at eq
    left
    rwa [List.nil_append, ← eq] at sorted
  · cases a with
    | nil =>
      left
      rwa [List.append_nil, ← List.nil_append (b ++ _), ← eq] at sorted
    | cons v' a =>
      right
      rw [List.cons_append, List.cons.injEq, ← List.append_assoc] at eq
      obtain ⟨rfl, eq⟩ := eq
      obtain ⟨rfl, last⟩ := List.append_inj' eq rfl
      cases last
      exact ⟨a, b, by rw [List.cons_append, List.append_assoc], sorted⟩

theorem CycSorted.cons (cyc : CycSorted f (v :: (m ++ [u]))) (between : Between f u y v) :
    CycSorted f (y :: v :: (m ++ [u])) := by
  rcases cyc.cases_ends with sorted | ⟨a, b, eq, sorted⟩
  · have ends : f v ≤ f u := (List.pairwise_cons.mp sorted).1 u (by simp)
    rcases between with ⟨_, low | high⟩ | ⟨lt, le⟩
    · refine .of_sorted (List.pairwise_cons.mpr ⟨fun x mem => low.trans ?_, sorted⟩)
      rcases List.mem_cons.mp mem with rfl | later
      · exact le_rfl
      · exact (List.pairwise_cons.mp sorted).1 x later
    · -- above the largest entry, which is the last one
      refine CycSorted.swap (p := v :: (m ++ [u])) (q := [y]) (.of_sorted ?_)
      refine List.pairwise_append.mpr ⟨sorted, List.pairwise_singleton _ _, fun x mem z here => ?_⟩
      rw [List.mem_singleton.mp here]
      refine le_trans ?_ high.le
      rw [← List.cons_append] at sorted mem
      rcases List.mem_append.mp mem with early | last
      · exact (List.pairwise_append.mp sorted).2.2 x early u List.mem_cons_self
      · rw [List.mem_singleton.mp last]
    · exact absurd (lt.trans_le le) ends.not_gt
  · obtain ⟨before, after, across⟩ := List.pairwise_append.mp sorted
    have step : f u < f y ∧ f y ≤ f v := by
      rcases between with ⟨lt, _⟩ | step
      · exact absurd lt (across u (by simp) v List.mem_cons_self).not_gt
      · exact step
    refine ⟨y :: v :: a, b ++ [u], by rw [eq]; rfl,
      List.pairwise_append.mpr ⟨before, ?_, fun x mem z here => ?_⟩⟩
    · refine List.pairwise_cons.mpr ⟨fun z here => step.2.trans ?_, after⟩
      rcases List.mem_cons.mp here with rfl | later
      · exact le_rfl
      · exact (List.pairwise_cons.mp after).1 z later
    · rcases List.mem_cons.mp here with rfl | later
      · rcases List.mem_append.mp mem with early | last
        · exact ((List.pairwise_append.mp before).2.2 x early u List.mem_cons_self).trans step.1.le
        · rw [List.mem_singleton.mp last]
          exact step.1.le
      · exact across x mem z later

theorem CycSorted.insert (cyc : CycSorted f (p ++ u :: v :: q)) (between : Between f u y v) :
    CycSorted f (p ++ u :: y :: v :: q) := by
  have turned : CycSorted f ((v :: q) ++ (p ++ [u])) := by
    refine CycSorted.swap ?_
    rwa [List.append_assoc]
  have inserted : CycSorted f ((y :: v :: q) ++ (p ++ [u])) := by
    rw [List.cons_append, ← List.append_assoc] at turned
    have := turned.cons between
    rwa [List.append_assoc] at this
  have back := inserted.swap
  rwa [List.append_assoc] at back

theorem chain_lt (chain : (v :: l).IsChain fun a b => ¬ Between f a y b)
    (sorted : (v :: l).Pairwise fun a b => f a ≤ f b) (lt : f v < f y) :
    ∀ x ∈ v :: l, f x < f y := by
  induction l generalizing v with
  | nil =>
    intro x mem
    rwa [List.mem_singleton.mp mem]
  | cons w l ih =>
    intro x mem
    obtain ⟨skip, rest⟩ := List.isChain_cons_cons.mp chain
    rcases List.mem_cons.mp mem with rfl | later
    · exact lt
    · exact ih rest (List.pairwise_cons.mp sorted).2 (lt_of_not_ge fun le => skip (Or.inr ⟨lt, le⟩))
        x later

theorem chain_le (chain : (l ++ [u]).IsChain fun a b => ¬ Between f a y b)
    (sorted : (l ++ [u]).Pairwise fun a b => f a ≤ f b) (le : f y ≤ f u) :
    ∀ x ∈ l ++ [u], f y ≤ f x := by
  induction l with
  | nil =>
    intro x mem
    rwa [List.mem_singleton.mp mem]
  | cons w l ih =>
    intro x mem
    have rest := ih (List.IsChain.tail chain) (List.pairwise_cons.mp sorted).2
    rcases List.mem_cons.mp mem with rfl | later
    · by_contra lt
      cases l with
      | nil => exact (List.isChain_cons_cons.mp chain).1 (Or.inr ⟨lt_of_not_ge lt, le⟩)
      | cons w l =>
        exact (List.isChain_cons_cons.mp chain).1
          (Or.inr ⟨lt_of_not_ge lt, rest w List.mem_cons_self⟩)
    · exact rest x later

/-- When no two neighbours have the place between them, it is at the end. -/
theorem CycSorted.concat (cyc : CycSorted f l) (chain : l.IsChain fun a b => ¬ Between f a y b) :
    CycSorted f (l ++ [y]) := by
  obtain ⟨a, b, eq, sorted⟩ := cyc
  have whole : l.Pairwise (fun a b => f a ≤ f b) → CycSorted f (l ++ [y]) := by
    intro sorted
    rcases l with _ | ⟨v, m⟩
    · exact .of_sorted (List.pairwise_singleton _ _)
    rcases lt_or_ge (f v) (f y) with lt | ge
    · refine .of_sorted (List.pairwise_append.mpr ⟨sorted, List.pairwise_singleton _ _,
        fun x mem z here => ?_⟩)
      rw [List.mem_singleton.mp here]
      exact (chain_lt chain sorted lt x mem).le
    · refine CycSorted.swap (p := [y]) (.of_sorted
        (List.pairwise_cons.mpr ⟨fun x mem => ge.trans ?_, sorted⟩))
      rcases List.mem_cons.mp mem with rfl | later
      · exact le_rfl
      · exact (List.pairwise_cons.mp sorted).1 x later
  rcases List.eq_nil_or_concat' a with rfl | ⟨a, w, rfl⟩
  · rw [List.nil_append] at eq
    rw [List.append_nil, ← eq] at sorted
    exact whole sorted
  cases b with
  | nil =>
    rw [List.append_nil] at eq
    rw [List.nil_append, ← eq] at sorted
    exact whole sorted
  | cons z b =>
    obtain ⟨low, high, across⟩ := List.pairwise_append.mp sorted
    rw [eq] at chain
    have split := List.isChain_append.mp chain
    have wrap : ¬ Between f w y z := split.2.2 w (by simp) z (by simp)
    rcases lt_or_ge (f z) (f w) with lt | ge
    · -- the cut of the order is inside, and `y` is not outside of it
      have above : f z < f y := lt_of_not_ge fun le => wrap (Or.inl ⟨lt, Or.inl le⟩)
      have below : f y ≤ f w := le_of_not_gt fun gt => wrap (Or.inl ⟨lt, Or.inr gt⟩)
      refine ⟨a ++ [w], (z :: b) ++ [y], by rw [eq, List.append_assoc], ?_⟩
      rw [List.append_assoc]
      refine List.pairwise_append.mpr ⟨low, List.pairwise_cons.mpr
        ⟨chain_le split.1 high below, high⟩, fun x mem t here => ?_⟩
      rcases List.mem_cons.mp here with rfl | later
      · exact (chain_lt split.2.1 low above x mem).le
      · exact across x mem t later
    · -- all entries are equal
      refine whole ?_
      have same : ∀ x ∈ (z :: b) ++ (a ++ [w]), f x = f z := by
        intro x mem
        have lower : f z ≤ f x := by
          rcases List.mem_cons.mp mem with rfl | later
          · exact le_rfl
          · exact (List.pairwise_cons.mp sorted).1 x later
        have upper : f x ≤ f w := by
          rw [← List.append_assoc] at sorted mem
          rcases List.mem_append.mp mem with early | last
          · exact (List.pairwise_append.mp sorted).2.2 x early w List.mem_cons_self
          · rw [List.mem_singleton.mp last]
        exact le_antisymm (upper.trans ge) lower
      rw [eq]
      refine List.pairwise_iff_forall_sublist.mpr fun {x t} sub => ?_
      have memX : x ∈ (a ++ [w]) ++ z :: b := sub.subset (by simp)
      have memT : t ∈ (a ++ [w]) ++ z :: b := sub.subset (by simp)
      rw [same x (List.perm_append_comm.subset memX), same t (List.perm_append_comm.subset memT)]

theorem CycSorted.place_after (cyc : CycSorted f (p ++ v :: rest))
    (chain : (p ++ [v]).IsChain fun a b => ¬ Between f a y b) :
    CycSorted f (p ++ v :: place f y v rest) := by
  induction rest generalizing p v with
  | nil =>
    have := cyc.concat chain
    rwa [List.append_assoc] at this
  | cons next rest ih =>
    rw [place]
    split
    · rename_i between
      exact cyc.insert between
    · rename_i skip
      have := ih (p := p ++ [v]) (v := next) (by rwa [List.append_assoc]) ?_
      · rwa [List.append_assoc] at this
      · refine List.isChain_append.mpr ⟨chain, List.isChain_singleton _, ?_⟩
        intro a lastA b firstB
        simp only [List.getLast?_append, List.getLast?_singleton,
          Option.some_or, Option.mem_some_iff] at lastA
        simp only [List.head?_cons, Option.mem_some_iff] at firstB
        subst lastA firstB
        exact skip

theorem CycSorted.place (cyc : CycSorted f (v :: rest)) : CycSorted f (v :: place f y v rest) :=
  CycSorted.place_after (p := []) cyc (List.isChain_singleton _)

theorem place_perm : (place f y v rest).Perm (y :: rest) := by
  induction rest generalizing v with
  | nil => exact .refl _
  | cons next rest ih =>
    rw [Xcache.place]
    split
    · exact .refl _
    · exact (ih.cons next).trans (.swap y next rest)

theorem mem_of_search {x : β} {found : α × α} (eq : search f x u rest = some found) :
    found.1 ∈ rest ∧ f found.1 = x := by
  induction rest generalizing u with
  | nil => cases eq
  | cons tmp rest ih =>
    rw [search] at eq
    split at eq
    · rename_i here
      cases eq
      exact ⟨List.mem_cons_self, here⟩
    · split at eq
      · cases eq
      · exact ⟨List.mem_cons_of_mem _ (ih eq).1, (ih eq).2⟩

theorem mem_of_lookup {x : β} {found : α × Option α} (eq : lookup f x l = some found) :
    found.1 ∈ l ∧ f found.1 = x := by
  cases l with
  | nil => cases eq
  | cons head rest =>
    rw [lookup] at eq
    split at eq
    · rename_i here
      cases eq
      exact ⟨List.mem_cons_self, here⟩
    · obtain ⟨found', later, rfl⟩ := Option.map_eq_some_iff.mp eq
      exact ⟨List.mem_cons_of_mem _ (mem_of_search later).1, (mem_of_search later).2⟩

omit [LinearOrder β] in
theorem key_ne (nodup : (l.map f).Nodup) (sub : [u, v].Sublist l) : f u ≠ f v :=
  List.pairwise_iff_forall_sublist.mp (List.pairwise_map.mp nodup) sub

/-- Neighbours in a cyclically sorted list have no other key between them. -/
theorem CycSorted.not_passed (cyc : CycSorted f (p ++ u :: v :: q)) (mem : y ∈ p ++ u :: v :: q) :
    ¬ Passed (f u) (f y) (f v) := by
  have turned : CycSorted f (v :: (q ++ p ++ [u])) := by
    have := CycSorted.swap (p := p ++ [u]) (q := v :: q) (by rwa [List.append_assoc])
    rwa [List.cons_append, ← List.append_assoc] at this
  have mem : y ∈ v :: (q ++ p ++ [u]) := by
    simp only [List.mem_append, List.mem_cons, List.not_mem_nil, or_false] at mem ⊢
    tauto
  unfold Passed
  rcases turned.cases_ends with sorted | ⟨a, b, eq, sorted⟩
  · have lower : f v ≤ f y := by
      rcases List.mem_cons.mp mem with rfl | later
      · exact le_rfl
      · exact (List.pairwise_cons.mp sorted).1 y later
    have upper : f y ≤ f u := by
      rw [← List.cons_append] at sorted mem
      rcases List.mem_append.mp mem with early | last
      · exact (List.pairwise_append.mp sorted).2.2 y early u List.mem_cons_self
      · rw [List.mem_singleton.mp last]
    rintro (⟨_, lt⟩ | ⟨lt, _⟩ | ⟨_, lt⟩)
    · exact lower.not_gt lt
    · exact lower.not_gt lt
    · exact upper.not_gt lt
  · obtain ⟨before, after, across⟩ := List.pairwise_append.mp sorted
    have ends := across u (by simp) v List.mem_cons_self
    rw [eq] at mem
    rcases List.mem_append.mp mem with high | low
    · have lower : f v ≤ f y := by
        rcases List.mem_cons.mp high with rfl | later
        · exact le_rfl
        · exact (List.pairwise_cons.mp after).1 y later
      rintro (⟨_, lt⟩ | ⟨lt, _⟩ | ⟨lt, _⟩)
      · exact lower.not_gt lt
      · exact lower.not_gt lt
      · exact ends.not_gt lt
    · have upper : f y ≤ f u := by
        rcases List.mem_append.mp low with early | last
        · exact (List.pairwise_append.mp before).2.2 y early u List.mem_cons_self
        · rw [List.mem_singleton.mp last]
      rintro (⟨lt, _⟩ | ⟨_, lt⟩ | ⟨_, lt⟩)
      · exact upper.not_gt lt
      · exact ends.not_gt lt
      · exact upper.not_gt lt

theorem CycSorted.search_eq (cyc : CycSorted f (p ++ u :: (m ++ y :: q)))
    (nodup : ((p ++ u :: (m ++ y :: q)).map f).Nodup) :
    search f (f y) u (m ++ y :: q) = some (y, (u :: m).getLast (List.cons_ne_nil u m)) := by
  induction m generalizing p u with
  | nil =>
    rw [List.nil_append, search, if_pos rfl]
    rfl
  | cons w m ih =>
    have sub : [w, y].Sublist (p ++ u :: w :: (m ++ y :: q)) :=
      (((List.singleton_sublist.mpr (by simp)).cons_cons w).cons u).trans
        (List.sublist_append_right p _)
    rw [List.cons_append, search, if_neg (key_ne nodup sub), if_neg (cyc.not_passed (by simp)),
      ih (p := p ++ [u]) (by rwa [List.append_assoc]) (by rwa [List.append_assoc])]
    rfl

theorem CycSorted.complete (cyc : CycSorted f l) (nodup : (l.map f).Nodup) : Complete f l := by
  rintro p y q rfl
  cases p with
  | nil =>
    rw [List.nil_append, lookup, if_pos rfl]
    rfl
  | cons head p =>
    have sub : [head, y].Sublist (head :: (p ++ y :: q)) :=
      (List.singleton_sublist.mpr (by simp)).cons_cons head
    rw [List.cons_append, lookup, if_neg (key_ne nodup sub),
      CycSorted.search_eq (p := []) cyc nodup,
      List.getLast?_eq_getLast_of_ne_nil (List.cons_ne_nil head p)]
    rfl

/-- From the larger one of two descending neighbours, the search takes the smallest key for
absent. -/
theorem lookup_smallest_eq_none (head : f y < f v) (step : f v < f u) :
    lookup f (f y) (u :: v :: rest) = none := by
  have passed : Passed (f u) (f y) (f v) := Or.inr (Or.inl ⟨head, step⟩)
  rw [lookup, if_neg (head.trans step).ne', search, if_neg head.ne', if_pos passed]
  rfl

/-- The search works from every place of the list exactly when the list is cyclically sorted. -/
theorem complete_iff_cycSorted (nodup : (l.map f).Nodup) :
    (∀ l', l ~r l' → Complete f l') ↔ CycSorted f l := by
  constructor
  · intro complete
    cases smallest : l.argmin f with
    | none =>
      rw [List.argmin_eq_none.mp smallest]
      exact .of_sorted List.Pairwise.nil
    | some y =>
      obtain ⟨p, q, rfl⟩ := List.append_of_mem (List.argmin_mem smallest)
      have turned : p ++ y :: q ~r y :: q ++ p := List.IsRotated.symm (List.isRotated_append)
      have nodup' : ((y :: q ++ p).map f).Nodup := (turned.map f).nodup_iff.mp nodup
      refine CycSorted.swap (.of_sorted (List.isChain_iff_pairwise.mp ?_))
      refine List.isChain_iff_forall_rel_of_append_cons_cons.mpr fun u v m rest eq => ?_
      by_contra descends
      have step : f v < f u := lt_of_not_ge descends
      have least : ∀ x ∈ y :: q ++ p, f y ≤ f x :=
        fun x mem => List.le_of_mem_argmin (turned.mem_iff.mpr mem) smallest
      rw [eq] at turned nodup' least
      cases m with
      | nil =>
        obtain ⟨rfl, _⟩ := List.cons.inj eq
        exact descends (least v (by simp))
      | cons y' m =>
        obtain ⟨rfl, _⟩ := List.cons.inj eq
        have sub : [y, v].Sublist (y :: (m ++ u :: v :: rest)) :=
          (List.singleton_sublist.mpr (by simp)).cons_cons y
        have less : f y < f v := lt_of_le_of_ne (least v (by simp)) (key_ne nodup' sub)
        have here := complete (u :: v :: rest ++ y :: m) (turned.trans List.isRotated_append)
          (u :: v :: rest) y m rfl
        rw [List.cons_append, List.cons_append, lookup_smallest_eq_none less step] at here
        cases here
  · intro cyc l' rotated
    exact (cyc.of_isRotated rotated).complete ((rotated.map f).nodup_iff.mp nodup)

end

end Xcache
