import Xcache.Lib.Runs

/-! A ring of cells for producers and consumers: every call draws a ticket of its side and then
works on the cell of that ticket only. -/

namespace Xcache.TicketRing
open Function

/-- How far a consumer is: it reads its cell until it finds a value, and clears the cell if that
value is still there. -/
inductive Take (α : Type*) where
  | reading
  | holding (v : α)
  | returned (v : α)
  deriving DecidableEq

/-- The calls stand in the order of their tickets. -/
structure State (ι α : Type*) where
  cell : ι → Option α
  puts : List (α × Bool)
  takes : List (Take α)

inductive Event (α : Type*) where
  | drawRear (v : α)
  | store (t : Nat)
  | drawFront
  | load (t : Nat)
  | clear (t : Nat)

section
variable {ι α : Type*}

def State.empty : State ι α := ⟨fun _ => none, [], []⟩

section
variable [DecidableEq ι] [DecidableEq α] (slot : Nat → ι)

def step (s : State ι α) : Event α → Option (State ι α)
  | .drawRear v => some { s with puts := s.puts ++ [(v, false)] }
  | .store t =>
    match s.puts[t]? with
    | some (v, false) =>
      if s.cell (slot t) = none then
        some { s with
          cell := update s.cell (slot t) (some v), puts := s.puts.set t (v, true) }
      else some s
    | _ => none
  | .drawFront => some { s with takes := s.takes ++ [.reading] }
  | .load t =>
    match s.takes[t]? with
    | some .reading =>
      match s.cell (slot t) with
      | none => some s
      | some v => some { s with takes := s.takes.set t (.holding v) }
    | _ => none
  | .clear t =>
    match s.takes[t]? with
    | some (.holding v) =>
      if s.cell (slot t) = some v then
        some { s with
          cell := update s.cell (slot t) none, takes := s.takes.set t (Take.returned v) }
      else some { s with takes := s.takes.set t .reading }
    | _ => none

theorem step_cases {s s' : State ι α} {e : Event α} (next : step slot s e = some s') :
    (∃ v, e = .drawRear v ∧ s' = { s with puts := s.puts ++ [(v, false)] }) ∨
      (e = .drawFront ∧ s' = { s with takes := s.takes ++ [.reading] }) ∨
      (∃ t v, e = .store t ∧ s.puts[t]? = some (v, false) ∧ s.cell (slot t) = none ∧
        s' = { s with
          cell := update s.cell (slot t) (some v), puts := s.puts.set t (v, true) }) ∨
      (∃ t v, e = .load t ∧ s.takes[t]? = some .reading ∧ s.cell (slot t) = some v ∧
        s' = { s with takes := s.takes.set t (.holding v) }) ∨
      (∃ t v, e = .clear t ∧ s.takes[t]? = some (.holding v) ∧ s.cell (slot t) = some v ∧
        s' = { s with
          cell := update s.cell (slot t) none,
          takes := s.takes.set t (Take.returned v) }) ∨
      (∃ t v, e = .clear t ∧ s.takes[t]? = some (.holding v) ∧ s.cell (slot t) ≠ some v ∧
        s' = { s with takes := s.takes.set t .reading }) ∨
      s' = s := by
  cases e <;> simp only [step] at next <;> grind

end

/-- The producer with ticket `t` has stored its value. -/
def Stored (puts : List (α × Bool)) (t : Nat) (v : α) : Prop := puts[t]? = some (v, true)

/-- The consumer with ticket `t` has returned a value. -/
def Taken (takes : List (Take α)) (t : Nat) (v : α) : Prop := takes[t]? = some (.returned v)

/-- The values that consumers got are those of the producers with the same tickets. -/
def Fifo (s : State ι α) : Prop := ∀ t v, Taken s.takes t v → (s.puts[t]?).map Prod.fst = some v

/-- A ticket has been drawn and its call has not finished. -/
def Pending (s : State ι α) (t : Nat) : Prop :=
  t < s.puts.length ∧ (∀ v, ¬ Stored s.puts t v) ∨ t < s.takes.length ∧ ∀ v, ¬ Taken s.takes t v

/-- No ticket is drawn while one that is smaller by `w` or more is pending. -/
def Windowed (w : Nat) (s : State ι α) : Event α → Prop
  | .drawRear _ => ∀ t, Pending s t → s.puts.length < t + w
  | .drawFront => ∀ t, Pending s t → s.takes.length < t + w
  | _ => True

/-- No ticket is drawn while a call of the same side works on the same cell. -/
def CellFree (slot : Nat → ι) (s : State ι α) : Event α → Prop
  | .drawRear _ => ∀ t < s.puts.length, slot t = slot s.puts.length → ∃ v, Stored s.puts t v
  | .drawFront => ∀ t < s.takes.length, slot t = slot s.takes.length → ∃ v, Taken s.takes t v
  | _ => True

structure Inv (slot : Nat → ι) (s : State ι α) : Prop where
  /-- Only the last producer of a cell may still wait for it. -/
  puts : ∀ t t', t < t' → slot t = slot t' → t' < s.puts.length → ∃ v, Stored s.puts t v
  takes : ∀ t t', t < t' → slot t = slot t' → t' < s.takes.length → ∃ v, Taken s.takes t v
  taken : ∀ t v, Taken s.takes t v → Stored s.puts t v
  /-- A cell is used again only after its last value was taken. -/
  turn : ∀ t t' v, t < t' → slot t = slot t' → Stored s.puts t' v → ∃ w, Taken s.takes t w
  cell : ∀ x v, s.cell x = some v ↔ ∃ t, slot t = x ∧ Stored s.puts t v ∧ ∀ w, ¬ Taken s.takes t w
  holding : ∀ t v, s.takes[t]? = some (.holding v) → s.cell (slot t) = some v

section
variable {slot : Nat → ι} {s s' : State ι α}

theorem Inv.empty (slot : Nat → ι) : Inv slot (State.empty : State ι α) := by
  constructor <;> simp [State.empty, Stored, Taken]

theorem Inv.fifo (inv : Inv slot s) : Fifo s := by
  intro t v taken
  rw [inv.taken t v taken]
  rfl

theorem Inv.drawRear (inv : Inv slot s) {v : α} (free : CellFree slot s (.drawRear v)) :
    Inv slot { s with puts := s.puts ++ [(v, false)] } := by
  obtain ⟨puts, takes, taken, turn, cell, holding⟩ := inv
  have stored : ∀ t w, Stored (s.puts ++ [(v, false)]) t w ↔ Stored s.puts t w := by
    intro t w
    unfold Stored
    grind
  refine ⟨?_, takes, ?_, ?_, ?_, holding⟩
  · intro t t' lt same drawn
    simp only [stored]
    rw [List.length_append, List.length_singleton] at drawn
    rcases Nat.lt_or_ge t' s.puts.length with old | new
    · exact puts t t' lt same old
    · have last : t' = s.puts.length := by omega
      subst last
      exact free t lt same
  · simpa only [stored] using taken
  · simpa only [stored] using turn
  · simpa only [stored] using cell

theorem Inv.drawFront (inv : Inv slot s) (free : CellFree slot s .drawFront) :
    Inv slot { s with takes := s.takes ++ [.reading] } := by
  obtain ⟨puts, takes, taken, turn, cell, holding⟩ := inv
  have same_taken : ∀ t w, Taken (s.takes ++ [.reading]) t w ↔ Taken s.takes t w := by
    intro t w
    unfold Taken
    grind
  refine ⟨puts, ?_, ?_, ?_, ?_, ?_⟩
  · intro t t' lt same drawn
    simp only [same_taken]
    rw [List.length_append, List.length_singleton] at drawn
    rcases Nat.lt_or_ge t' s.takes.length with old | new
    · exact takes t t' lt same old
    · have last : t' = s.takes.length := by omega
      subst last
      exact free t lt same
  · simpa only [same_taken] using taken
  · simpa only [same_taken] using turn
  · simpa only [same_taken] using cell
  · intro t w held
    refine holding t w ?_
    grind

theorem Inv.look (inv : Inv slot s) {t : Nat} {p : Take α} (busy : ∀ v, ¬ Taken s.takes t v)
    (next : ∀ v, p ≠ .returned v) (held : ∀ v, p = .holding v → s.cell (slot t) = some v) :
    Inv slot { s with takes := s.takes.set t p } := by
  obtain ⟨puts, takes, taken, turn, cell, holding⟩ := inv
  have same_taken : ∀ t' w, Taken (s.takes.set t p) t' w ↔ Taken s.takes t' w := by
    intro t' w
    unfold Taken at busy ⊢
    grind
  refine ⟨puts, ?_, ?_, ?_, ?_, ?_⟩
  · simpa only [same_taken, List.length_set] using takes
  · simpa only [same_taken] using taken
  · simpa only [same_taken] using turn
  · simpa only [same_taken] using cell
  · intro t' w held'
    by_cases here : t' = t
    · subst here
      refine held w ?_
      grind
    · refine holding t' w ?_
      grind

variable [DecidableEq ι]

theorem Inv.store (inv : Inv slot s) {t : Nat} {v : α} (waits : s.puts[t]? = some (v, false))
    (free : s.cell (slot t) = none) :
    Inv slot { s with
      cell := update s.cell (slot t) (some v), puts := s.puts.set t (v, true) } := by
  obtain ⟨puts, takes, taken, turn, cell, holding⟩ := inv
  have drawn := (List.getElem?_eq_some_iff.mp waits).1
  have open_ : ∀ w, ¬ Stored s.puts t w := by
    intro w stored
    rw [Stored, waits] at stored
    cases stored
  have stored : ∀ t' w, Stored (s.puts.set t (v, true)) t' w ↔
      Stored s.puts t' w ∨ t' = t ∧ w = v := by
    intro t' w
    unfold Stored at open_ ⊢
    grind
  -- the earlier values of this cell were taken, since it is empty
  have earlier : ∀ t' < t, slot t' = slot t → ∃ w, Taken s.takes t' w := by
    intro t' lt same
    obtain ⟨w, stored'⟩ := puts t' t lt same drawn
    by_contra none_
    push Not at none_
    have full := (cell (slot t) w).mpr ⟨t', same, stored', none_⟩
    rw [free] at full
    cases full
  refine ⟨?_, takes, ?_, ?_, ?_, ?_⟩
  · intro t₁ t₂ lt same drawn'
    obtain ⟨w, stored'⟩ := puts t₁ t₂ lt same (by simpa using drawn')
    exact ⟨w, (stored t₁ w).mpr (Or.inl stored')⟩
  · intro t' w taken'
    exact (stored t' w).mpr (Or.inl (taken t' w taken'))
  · intro t₁ t₂ w lt same stored'
    rcases (stored t₂ w).mp stored' with stored' | ⟨rfl, rfl⟩
    · exact turn t₁ t₂ w lt same stored'
    · exact earlier t₁ lt same
  · intro x w
    simp only [stored]
    by_cases here : x = slot t
    · subst here
      rw [update_self]
      constructor
      · rintro ⟨⟩
        exact ⟨t, rfl, Or.inr ⟨rfl, rfl⟩, fun w' taken' => open_ w' (taken t w' taken')⟩
      · rintro ⟨t', same, stored' | ⟨rfl, rfl⟩, left⟩
        · have full := (cell (slot t) w).mpr ⟨t', same, stored', left⟩
          rw [free] at full
          cases full
        · rfl
    · rw [update_of_ne here, cell]
      constructor
      · rintro ⟨t', same, stored', left⟩
        exact ⟨t', same, Or.inl stored', left⟩
      · rintro ⟨t', same, stored' | ⟨rfl, rfl⟩, left⟩
        · exact ⟨t', same, stored', left⟩
        · exact absurd same.symm here
  · intro t' w held
    have full := holding t' w held
    have other : slot t' ≠ slot t := by
      intro same
      rw [same, free] at full
      cases full
    simpa only [update_of_ne other] using full

theorem open_of_holding {takes : List (Take α)} {t : Nat} {v : α}
    (held : takes[t]? = some (.holding v)) :
    ∀ w, ¬ Taken takes t w := by
  intro w taken
  rw [Taken, held] at taken
  cases taken

omit [DecidableEq ι] in
theorem Inv.alone (inv : Inv slot s) {t t' : Nat} (drawn : t < s.takes.length)
    (drawn' : t' < s.takes.length) (open_ : ∀ w, ¬ Taken s.takes t w)
    (open' : ∀ w, ¬ Taken s.takes t' w) (same : slot t' = slot t) : t' = t := by
  rcases Nat.lt_trichotomy t' t with lt | eq | gt
  · obtain ⟨w, taken⟩ := inv.takes t' t lt same drawn
    exact absurd taken (open' w)
  · exact eq
  · obtain ⟨w, taken⟩ := inv.takes t t' gt same.symm drawn'
    exact absurd taken (open_ w)

omit [DecidableEq ι] in
/-- The value that a consumer sees in its cell is the one of its own ticket. -/
theorem Inv.own (inv : Inv slot s) {t t' : Nat} {v : α} (drawn : t < s.takes.length)
    (open_ : ∀ w, ¬ Taken s.takes t w) (same : slot t' = slot t) (stored : Stored s.puts t' v)
    (left : ∀ w, ¬ Taken s.takes t' w) : t' = t := by
  rcases Nat.lt_trichotomy t' t with lt | eq | gt
  · obtain ⟨w, taken⟩ := inv.takes t' t lt same drawn
    exact absurd taken (left w)
  · exact eq
  · obtain ⟨w, taken⟩ := inv.turn t t' v gt same.symm stored
    exact absurd taken (open_ w)

theorem Inv.clear (inv : Inv slot s) {t : Nat} {v : α} (held : s.takes[t]? = some (.holding v)) :
    Inv slot { s with
      cell := update s.cell (slot t) none, takes := s.takes.set t (.returned v) } := by
  have drawn := (List.getElem?_eq_some_iff.mp held).1
  have open_ := open_of_holding held
  have taken : ∀ t' w, Taken (s.takes.set t (.returned v)) t' w ↔ Taken s.takes t' w ∨ t' = t ∧
      w = v := by
    intro t' w
    unfold Taken at open_ ⊢
    grind
  have stored : Stored s.puts t v := by
    obtain ⟨t', same, stored, left⟩ := (inv.cell (slot t) v).mp (inv.holding t v held)
    obtain rfl := inv.own drawn open_ same stored left
    exact stored
  refine ⟨inv.puts, ?_, ?_, ?_, ?_, ?_⟩
  · intro t₁ t₂ lt same drawn'
    obtain ⟨w, taken'⟩ := inv.takes t₁ t₂ lt same (by simpa using drawn')
    exact ⟨w, (taken t₁ w).mpr (Or.inl taken')⟩
  · intro t' w taken'
    rcases (taken t' w).mp taken' with taken' | ⟨rfl, rfl⟩
    · exact inv.taken t' w taken'
    · exact stored
  · intro t₁ t₂ w lt same stored'
    obtain ⟨u, taken'⟩ := inv.turn t₁ t₂ w lt same stored'
    exact ⟨u, (taken t₁ u).mpr (Or.inl taken')⟩
  · intro x w
    simp only [taken]
    by_cases here : x = slot t
    · subst here
      rw [update_self]
      refine iff_of_false (by simp) ?_
      rintro ⟨t', same, stored', left⟩
      obtain rfl := inv.own drawn open_ same stored' fun u taken' => left u (Or.inl taken')
      exact left v (Or.inr ⟨rfl, rfl⟩)
    · rw [update_of_ne here, inv.cell]
      refine exists_congr fun t' => and_congr_right fun same => and_congr_right fun _ =>
        forall_congr' fun u => ?_
      have other : t' ≠ t := by
        rintro rfl
        exact here same.symm
      simp [other]
  · intro t' w held'
    have other : t' ≠ t := by
      rintro rfl
      grind
    have held₁ : s.takes[t']? = some (.holding w) := by grind
    have apart : slot t' ≠ slot t := by
      intro same
      exact other (inv.alone drawn (List.getElem?_eq_some_iff.mp held₁).1 open_
        (open_of_holding held₁) same)
    simpa only [update_of_ne apart] using inv.holding t' w held₁

variable [DecidableEq α]

theorem Inv.step {e : Event α} (inv : Inv slot s) (free : CellFree slot s e)
    (next : step slot s e = some s') :
    Inv slot s' := by
  rcases step_cases slot next with ⟨v, rfl, rfl⟩ | ⟨rfl, rfl⟩ | ⟨t, v, rfl, waits, empty, rfl⟩ | ⟨t,
    v, rfl, reads, full, rfl⟩ | ⟨t, v, rfl, held, full, rfl⟩ | ⟨t, v, rfl, held, changed, rfl⟩ | rfl
  · exact inv.drawRear free
  · exact inv.drawFront free
  · exact inv.store waits empty
  · refine inv.look ?_ (by simp) ?_
    · intro w taken
      rw [Taken, reads] at taken
      cases taken
    · rintro w ⟨⟩
      exact full
  · exact inv.clear held
  · exact absurd (inv.holding t v held) changed
  · exact inv

/-- Consumers get the values in the order of the tickets when no ticket is drawn for a cell that a
call of the same side still works on. -/
theorem fifo_of_cellFree {events : List (Event α)}
    (met : Runs.Meets (step slot) (CellFree slot) State.empty events) :
    Runs.Always (step slot) Fifo State.empty events :=
  Runs.always_of_meets (Inv.empty slot) (fun _ _ _ inv free next => inv.step free next)
    (fun _ inv => inv.fifo) met

end

section
variable [DecidableEq ι] [DecidableEq α] {slot : Nat → ι} {s : State ι α} {w : Nat}

omit [DecidableEq ι] [DecidableEq α] in
/-- A window in which no two of the first `m` tickets share a cell. -/
theorem Windowed.cellFree {e : Event α} (windowed : Windowed w s e) {m : Nat}
    (apart : ∀ t t', t < t' → t' < t + w → t' < m → slot t ≠ slot t') (puts : s.puts.length < m)
    (takes : s.takes.length < m) : CellFree slot s e := by
  cases e with
  | drawRear v =>
    intro t lt same
    by_contra left
    exact apart t _ lt (windowed t (Or.inl ⟨lt, not_exists.mp left⟩)) puts same
  | drawFront =>
    intro t lt same
    by_contra left
    exact apart t _ lt (windowed t (Or.inr ⟨lt, not_exists.mp left⟩)) takes same
  | _ => trivial

/-- One value goes through the ring. -/
def round (v : α) (t : Nat) : List (Event α) :=
  [.drawRear v, .store t, .drawFront, .load t, .clear t]

def rounds (v : α) : Nat → Nat → List (Event α)
  | _, 0 => []
  | t, n + 1 => round v t ++ rounds v (t + 1) n

/-- The consumer with ticket `t` pauses until ticket `n` has come round to the same cell. -/
def overlap (v a b : α) (t n : Nat) : List (Event α) :=
  rounds v 0 t ++ ([.drawRear a, .store t, .drawFront] ++
    (rounds v (t + 1) (n - (t + 1)) ++ [.drawRear b, .drawFront, .load n, .clear n]))

theorem getElem?_last {β : Type*} {l : List β} {t : Nat} (length : l.length = t) (x : β) :
    (l ++ [x])[t]? = some x := by
  simp [← length]

theorem set_last {β : Type*} {l : List β} {t : Nat} (length : l.length = t) (x y : β) :
    (l ++ [x]).set t y = l ++ [y] := by
  simp [← length]

omit [DecidableEq ι] [DecidableEq α] in
theorem Pending.of_put {c : ι → Option α} {v : α} {t : Nat}
    (pending : Pending ⟨c, s.puts ++ [(v, true)], s.takes⟩ t) :
    Pending s t := by
  unfold Pending Stored at pending ⊢
  grind

omit [DecidableEq ι] [DecidableEq α] in
theorem Pending.of_take {v : α} {t : Nat}
    (pending : Pending { s with takes := s.takes ++ [.returned v] } t) :
    Pending s t := by
  unfold Pending Taken at pending ⊢
  grind

theorem leads_round (v : α) {t : Nat} (puts : s.puts.length = t) (takes : s.takes.length = t)
    (free : s.cell (slot t) = none) (recent : ∀ t', Pending s t' → t < t' + w) :
    Runs.Leads (step slot) (Windowed w) s (round v t)
      { s with puts := s.puts ++ [(v, true)], takes := s.takes ++ [.returned v] } := by
  have back : update (update s.cell (slot t) (some v)) (slot t) none =
      s.cell := by
    rw [update_idem, ← free, update_eq_self]
  refine .cons (fun t' pending => puts ▸ recent t' pending) rfl ?_
  refine .cons trivial (by simp [step, getElem?_last puts, set_last puts, free]; rfl) ?_
  refine .cons (fun t' pending => takes ▸ recent t' pending.of_put) rfl ?_
  refine .cons trivial (by simp [step, getElem?_last takes, set_last takes]; rfl) ?_
  refine .cons trivial (by simp [step, getElem?_last takes, set_last takes, back]) .nil

theorem leads_rounds (v : α) (n : Nat) {t : Nat} (puts : s.puts.length = t)
    (takes : s.takes.length = t) (free : ∀ t', t ≤ t' → t' < t + n → s.cell (slot t') = none)
    (recent : ∀ t', Pending s t' → t + n ≤ t' + w) :
    Runs.Leads (step slot) (Windowed w) s (rounds v t n)
      { s with
        puts := s.puts ++ List.replicate n (v, true),
        takes := s.takes ++ List.replicate n (.returned v) } := by
  induction n generalizing s t with
  | zero => simpa [rounds] using Runs.Leads.nil
  | succ n ih =>
    have first := leads_round v puts takes (free t (Nat.le_refl t) (by omega))
      (fun t' pending => Nat.lt_of_lt_of_le (by omega) (recent t' pending))
    rw [rounds, List.replicate_succ, List.replicate_succ, List.append_cons,
      List.append_cons s.takes]
    refine first.append (ih ?_ ?_ ?_ ?_)
    · rw [List.length_append, puts, List.length_singleton]
    · rw [List.length_append, takes, List.length_singleton]
    · intro t' le lt
      exact free t' (by omega) (by omega)
    · intro t' pending
      have := recent t' pending.of_take.of_put
      omega

/-- A value is stored, and its consumer pauses with its ticket drawn. -/
theorem leads_pause (a : α) {t : Nat} (puts : s.puts.length = t) (takes : s.takes.length = t)
    (free : s.cell (slot t) = none) (recent : ∀ t', Pending s t' → t < t' + w) :
    Runs.Leads (step slot) (Windowed w) s [.drawRear a, .store t, .drawFront]
      ⟨update s.cell (slot t) (some a), s.puts ++ [(a, true)], s.takes ++ [.reading]⟩ := by
  refine .cons (fun t' pending => puts ▸ recent t' pending) rfl ?_
  refine .cons trivial (by simp [step, getElem?_last puts, set_last puts, free]; rfl) ?_
  exact .cons (fun t' pending => takes ▸ recent t' pending.of_put) rfl .nil

/-- The next consumer takes what it finds in its cell, while the producer with its ticket still
waits. -/
theorem leads_meet {a : α} (b : α) {n : Nat} (puts : s.puts.length = n) (takes : s.takes.length = n)
    (full : s.cell (slot n) = some a) (recent : ∀ t', Pending s t' → n < t' + w) (wide : 0 < w) :
    Runs.Leads (step slot) (Windowed w) s [.drawRear b, .drawFront, .load n, .clear n]
      ⟨update s.cell (slot n) none, s.puts ++ [(b, false)], s.takes ++ [.returned a]⟩ := by
  have recent' : ∀ t', Pending { s with puts := s.puts ++ [(b, false)] } t' → n < t' + w := by
    rintro t' (⟨drawn, left⟩ | busy)
    · rw [List.length_append, List.length_singleton, puts] at drawn
      rcases Nat.lt_succ_iff_lt_or_eq.mp drawn with old | rfl
      · refine recent t' (Or.inl ⟨puts ▸ old, fun v stored => left v ?_⟩)
        rw [Stored, List.getElem?_append_left (by omega)]
        exact stored
      · omega
    · exact recent t' (Or.inr busy)
  refine .cons (fun t' pending => puts ▸ recent t' pending) rfl ?_
  refine .cons (fun t' pending => takes ▸ recent' t' pending) rfl ?_
  refine .cons trivial (by simp [step, getElem?_last takes, set_last takes, full]; rfl) ?_
  exact .cons trivial (by simp [step, getElem?_last takes, set_last takes, full]) .nil

def idle (v : α) (t : Nat) : State ι α :=
  ⟨fun _ => none, List.replicate t (v, true), List.replicate t (.returned v)⟩

/-- The ring while the consumer with ticket `t` pauses and `k` more values went through. -/
def held (slot : Nat → ι) (v a : α) (t k : Nat) : State ι α :=
  ⟨update (fun _ => none) (slot t) (some a),
    List.replicate t (v, true) ++ [(a, true)] ++ List.replicate k (v, true),
    List.replicate t (.returned v) ++ [.reading] ++ List.replicate k (.returned v)⟩

omit [DecidableEq ι] [DecidableEq α] in
theorem not_pending_idle (v : α) (t t' : Nat) : ¬ Pending (idle v t : State ι α) t' := by
  unfold Pending idle Stored Taken
  grind

omit [DecidableEq α] in
theorem eq_of_pending_held {v a : α} {t k t' : Nat}
    (pending : Pending (held slot v a t k) t') : t' = t := by
  unfold Pending held Stored Taken at pending
  grind

omit [DecidableEq α] in
theorem length_held (slot : Nat → ι) (v a : α) {t n : Nat} (lt : t < n) :
    (held slot v a t (n - (t + 1))).puts.length = n ∧
      (held slot v a t (n - (t + 1))).takes.length = n := by
  simp only [held, List.length_append, List.length_replicate, List.length_singleton]
  omega

theorem leads_held (v a : α) {t n : Nat} (lt : t < n) (near : n < t + w)
    (between : ∀ t', t < t' → t' < n → slot t' ≠ slot t) :
    Runs.Leads (step slot) (Windowed w) (held slot v a t 0) (rounds v (t + 1) (n - (t + 1)))
      (held slot v a t (n - (t + 1))) := by
  have start : held slot v a t 0 = ⟨update (fun _ => none) (slot t) (some a),
      List.replicate t (v, true) ++ [(a, true)], List.replicate t (.returned v) ++ [.reading]⟩ := by
    simp [held]
  rw [start]
  refine leads_rounds v _ (by simp) (by simp) ?_ ?_
  · intro t' le lt'
    have apart := between t' (by omega) (by omega)
    simp [update_of_ne apart]
  · rw [← start]
    intro t' pending
    rw [eq_of_pending_held pending]
    omega

/-- Within a window in which two tickets share a cell, a consumer may get the value of another
ticket. -/
theorem overlap_not_fifo (v : α) {a b : α} (differ : a ≠ b) {t n : Nat} (lt : t < n)
    (near : n < t + w) (same : slot t = slot n)
    (between : ∀ t', t < t' → t' < n → slot t' ≠ slot t) :
    ∃ s, Runs.Leads (step slot) (Windowed w) State.empty (overlap v a b t n) s ∧ ¬ Fifo s := by
  obtain ⟨puts, takes⟩ := length_held slot v a lt
  have first : Runs.Leads (step slot) (Windowed w) State.empty (rounds v 0 t) (idle v t) :=
    leads_rounds v t rfl rfl (fun _ _ _ => rfl) (by simp [Pending, State.empty])
  have pause : Runs.Leads (step slot) (Windowed w) (idle v t) [.drawRear a, .store t, .drawFront]
      (held slot v a t 0) := by
    rw [held, List.replicate_zero, List.append_nil, List.replicate_zero, List.append_nil]
    exact leads_pause a (List.length_replicate ..) (List.length_replicate ..) rfl
      fun t' pending => absurd pending (not_pending_idle v t t')
  have full : (held slot v a t (n - (t + 1))).cell (slot n) = some a := by
    simp [held, same]
  have recent : ∀ t', Pending (held slot v a t (n - (t + 1))) t' → n < t' + w := by
    intro t' pending
    rw [eq_of_pending_held pending]
    exact near
  have last := leads_meet b puts takes full recent (by omega)
  refine ⟨_, first.append (pause.append ((leads_held v a lt near between).append last)), ?_⟩
  intro fifo
  have got := fifo n a (getElem?_last takes _)
  rw [getElem?_last puts] at got
  exact differ (Option.some.inj got).symm

end

end

end Xcache.TicketRing
