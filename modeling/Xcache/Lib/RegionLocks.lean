import Mathlib.Algebra.BigOperators.Group.Finset.Basic
import Mathlib.Algebra.BigOperators.Group.Finset.Piecewise
import Mathlib.Logic.Relation

/-! A memory cut into regions, each with a readers-writer lock, and operations that hold
the lock of one region while they run statement by statement. Beside the memory there is a
counter without a lock that statements only add to. Every run is a run of the operations
one after another, in the order in which they unlock. -/

namespace RegionLocks

/-- Operations as code that runs under the lock of one region. `final` is what the rest of
an operation does to the memory and the counter, and what it returns. -/
structure Code (Op Ret L C V R : Type*) where
  region : C → R
  start : Op → L
  home : L → R
  exclusive : L → Bool
  step : L → (C → V) → Nat → L × (C → V) × Nat
  done : L → Option Ret
  final : L → (C → V) → (C → V) × Nat × Ret
  home_step : ∀ l m n, home (step l m n).1 = home l
  exclusive_step : ∀ l m n, exclusive (step l m n).1 = exclusive l
  step_frame : ∀ l m n c, region c ≠ home l → (step l m n).2.1 c = m c
  step_shared : ∀ l m n, exclusive l = false → (step l m n).2.1 = m
  step_adds : ∀ l m n, n ≤ (step l m n).2.2
  final_done : ∀ l m r, done l = some r → final l m = (m, 0, r)
  final_step : ∀ l m n, done l = none → (final l m).1 = (final (step l m n).1 (step l m n).2.1).1 ∧
    (final l m).2.1 = (final (step l m n).1 (step l m n).2.1).2.1 + ((step l m n).2.2 - n) ∧
    (final l m).2.2 = (final (step l m n).1 (step l m n).2.1).2.2
  final_local : ∀ l m m', (∀ c, region c = home l → m c = m' c) →
    (∀ c, region c = home l → (final l m).1 c = (final l m').1 c) ∧ (final l m).2 = (final l m').2
  final_frame : ∀ l m c, region c ≠ home l → (final l m).1 c = m c
  final_shared : ∀ l m, exclusive l = false → (final l m).1 = m

inductive Phase (Op Ret L : Type*)
  | idle
  | waiting (op : Op)
  | inside (op : Op) (l : L) (added : Nat)
  | leaving (op : Op) (r : Ret)

/-- What the thread has added to the counter so far. -/
def Phase.added {Op Ret L : Type*} : Phase Op Ret L → Nat
  | .inside _ _ k => k
  | _ => 0

section
variable {Op Ret L : Type*} (op : Op) (l : L) (k : Nat) (r : Ret)

@[simp] theorem Phase.added_inside : (Phase.inside op l k : Phase Op Ret L).added = k := rfl

@[simp] theorem Phase.added_leaving : (Phase.leaving op r : Phase Op Ret L).added = 0 := rfl

end

/-- The log has the operations in the order of their unlocks, the mark of a thread is the
length of the log when its call began. No step reads them. -/
structure State (T Op Ret L C V : Type*) where
  mem : C → V
  count : Nat
  threads : T → Phase Op Ret L
  log : List (T × Op × Ret)
  mark : T → Nat

variable {T Op Ret L C V R : Type*} (code : Code Op Ret L C V R)

namespace Code

/-- An operation as a whole. -/
def apply (op : Op) (a : (C → V) × Nat) : ((C → V) × Nat) × Ret :=
  (((code.final (code.start op) a.1).1, a.2 + (code.final (code.start op) a.1).2.1),
    (code.final (code.start op) a.1).2.2)

/-- The log is a run of whole operations with these results. -/
inductive Replays (a₀ : (C → V) × Nat) : List (T × Op × Ret) → (C → V) × Nat → Prop
  | nil : Replays a₀ [] a₀
  | snoc {log : List (T × Op × Ret)} {a : (C → V) × Nat} (t : T) (op : Op) : Replays a₀ log a →
      Replays a₀ (log ++ [(t, op, (code.apply op a).2)]) (code.apply op a).1

end Code

namespace State

def start (a : (C → V) × Nat) : State T Op Ret L C V := ⟨a.1, a.2, fun _ => .idle, [], fun _ => 0⟩

/-- Nobody inside the region of the operation excludes it. -/
def Admits (s : State T Op Ret L C V) (op : Op) : Prop :=
  ∀ u op' l k, s.threads u = .inside op' l k → code.home l = code.home (code.start op) →
    code.exclusive l = false ∧ code.exclusive (code.start op) = false

variable [DecidableEq T]

inductive Step : State T Op Ret L C V → State T Op Ret L C V → Prop
  | call {s : State T Op Ret L C V} (t : T) (op : Op) : s.threads t = .idle →
      Step s { s with
        threads := Function.update s.threads t (.waiting op)
        mark := Function.update s.mark t s.log.length }
  | lock {s : State T Op Ret L C V} (t : T) (op : Op) : s.threads t = .waiting op →
    s.Admits code op →
      Step s { s with threads := Function.update s.threads t (.inside op (code.start op) 0) }
  | run {s : State T Op Ret L C V} (t : T) (op : Op) (l : L) (k : Nat) :
    s.threads t = .inside op l k → code.done l = none → Step s { s with
        mem := (code.step l s.mem s.count).2.1
        count := (code.step l s.mem s.count).2.2
        threads := Function.update s.threads t (.inside op (code.step l s.mem s.count).1
          (k + ((code.step l s.mem s.count).2.2 - s.count))) }
  | unlock {s : State T Op Ret L C V} (t : T) (op : Op) (l : L) (k : Nat) (r : Ret) :
      s.threads t = .inside op l k → code.done l = some r → Step s { s with
        threads := Function.update s.threads t (.leaving op r)
        log := s.log ++ [(t, op, r)] }
  | ret {s : State T Op Ret L C V} (t : T) (op : Op) (r : Ret) : s.threads t = .leaving op r →
      Step s { s with threads := Function.update s.threads t .idle }

end State

variable {code} {s s' : State T Op Ret L C V} {a a₀ : (C → V) × Nat}

/-- The rest of an operation that is inside leads where the whole of it would lead. -/
structure OnTrack (code : Code Op Ret L C V R) (m m' : C → V) (op : Op) (l : L)
    (k : Nat) : Prop where
  home : code.home l = code.home (code.start op)
  exclusive : code.exclusive l = code.exclusive (code.start op)
  mem : ∀ c, code.region c = code.home l → (code.final l m).1 c =
    (code.final (code.start op) m').1 c
  count : (code.final l m).2.1 + k = (code.final (code.start op) m').2.1
  ret : (code.final l m).2.2 = (code.final (code.start op) m').2.2

section
variable {m m' n n' : C → V} {op : Op} {l : L} {k : Nat}

theorem OnTrack.congr (on : OnTrack code m m' op l k)
    (same : ∀ c, code.region c = code.home l → n c = m c)
    (same' : ∀ c, code.region c = code.home l → n' c = m' c) : OnTrack code n n' op l k := by
  obtain ⟨cells, rest⟩ := code.final_local l n m same
  obtain ⟨cells', rest'⟩ := code.final_local (code.start op) n' m' (on.home ▸ same')
  refine ⟨on.home, on.exclusive, fun c here => ?_, ?_, ?_⟩
  · rw [cells c here, cells' c (here.trans on.home), on.mem c here]
  · rw [rest, rest', on.count]
  · rw [rest, rest', on.ret]

theorem OnTrack.start (same : ∀ c, code.region c = code.home (code.start op) → m c = m' c) :
    OnTrack code m m' op (code.start op) 0 := by
  obtain ⟨cells, rest⟩ := code.final_local (code.start op) m m' same
  exact ⟨rfl, rfl, cells, congrArg Prod.fst rest, congrArg Prod.snd rest⟩

theorem OnTrack.step (on : OnTrack code m m' op l k) (more : code.done l = none) (n : Nat) :
    OnTrack code (code.step l m n).2.1 m' op (code.step l m n).1
      (k + ((code.step l m n).2.2 - n)) := by
  obtain ⟨cells, count, ret⟩ := code.final_step l m n more
  have home := code.home_step l m n
  refine ⟨home.trans on.home, (code.exclusive_step l m n).trans on.exclusive,
    fun c here => ?_, ?_, ?_⟩
  · rw [← cells, on.mem c (here.trans home)]
  · rw [← on.count, count]
    omega
  · rw [← ret, on.ret]

end

variable [Fintype T]

/-- A state of a run, and the state of the memory after the operations of the log. -/
structure Linear (code : Code Op Ret L C V R) (a₀ : (C → V) × Nat) (s : State T Op Ret L C V)
    (a : (C → V) × Nat) : Prop where
  replays : code.Replays a₀ s.log a
  apart : ∀ t u op op' l l' k k', s.threads t = .inside op l k → s.threads u = .inside op' l' k' →
    t ≠ u → code.home l = code.home l' → code.exclusive l = false ∧ code.exclusive l' = false
  mem : ∀ c, (∀ t op l k, s.threads t = .inside op l k → code.exclusive l = true →
    code.home l ≠ code.region c) → s.mem c = a.1 c
  inside : ∀ t op l k, s.threads t = .inside op l k → OnTrack code s.mem a.1 op l k
  count : s.count = a.2 + ∑ t, (s.threads t).added
  leaving : ∀ t op r, s.threads t = .leaving op r → ∃ i, s.mark t ≤ i ∧ s.log[i]? = some (t, op, r)
  mark : ∀ t, s.mark t ≤ s.log.length

theorem linear_start : Linear code a₀ (State.start a₀ : State T Op Ret L C V) a₀ := by
  refine ⟨.nil, nofun, fun _ _ => rfl, nofun, ?_, nofun, fun _ => le_refl _⟩
  have none : ∑ t : T, ((State.start a₀ : State T Op Ret L C V).threads t).added = 0 :=
    Finset.sum_eq_zero fun _ _ => rfl
  rw [none]
  rfl

variable [DecidableEq T]

section
variable {f : T → Phase Op Ret L} {t u : T} {p : Phase Op Ret L} {op : Op} {l : L} {k : Nat}
  {r : Ret}

omit [Fintype T] in
theorem inside_update (inside : Function.update f t p u = .inside op l k) :
    (u = t ∧ p = .inside op l k) ∨ u ≠ t ∧ f u = .inside op l k := by
  rw [Function.update_apply] at inside
  split at inside
  · exact Or.inl ⟨‹_›, inside⟩
  · exact Or.inr ⟨‹_›, inside⟩

omit [Fintype T] in
theorem leaving_update (stays : ∀ op r, p ≠ .leaving op r)
    (leaves : Function.update f t p u = .leaving op r) :
    f u = .leaving op r := by
  rw [Function.update_apply] at leaves
  split at leaves
  · exact absurd leaves (stays op r)
  · exact leaves

theorem sum_added_update (f : T → Phase Op Ret L) (t : T) (p : Phase Op Ret L) :
    ∑ u, (Function.update f t p u).added + (f t).added = ∑ u, (f u).added + p.added := by
  have split : ∑ u, (Function.update f t p u).added = ∑ u,
      Function.update (fun u => (f u).added) t p.added u :=
    Finset.sum_congr rfl fun u _ => congrFun (Function.comp_update Phase.added f t p) u
  have all := Finset.add_sum_erase Finset.univ (fun u => (f u).added) (Finset.mem_univ t)
  rw [split, Finset.sum_update_of_mem (Finset.mem_univ t), Finset.sdiff_singleton_eq_erase]
  omega

end

omit [Fintype T] in
theorem inside_of_outside {f : T → Phase Op Ret L} {t u : T} {p : Phase Op Ret L} {op : Op} {l : L}
    {k : Nat} (before : ∀ op l k, f t ≠ .inside op l k) (inside : f u = .inside op l k) :
    Function.update f t p u = .inside op l k := by
  rw [Function.update_of_ne, inside]
  rintro rfl
  exact before op l k inside

theorem Linear.outside (lin : Linear code a₀ s a) {t : T} {p : Phase Op Ret L} {mark : T → Nat}
    (before : ∀ op l k, s.threads t ≠ .inside op l k) (out : ∀ op l k, p ≠ .inside op l k)
    (added : (s.threads t).added = p.added)
    (leaving : ∀ u op r, Function.update s.threads t p u = .leaving op r →
      ∃ i, mark u ≤ i ∧ s.log[i]? = some (u, op, r))
    (marks : ∀ u, mark u ≤ s.log.length) :
    Linear code a₀ { s with threads := Function.update s.threads t p, mark := mark } a := by
  have old : ∀ {u op l k}, Function.update s.threads t p u = .inside op l k →
      s.threads u = .inside op l k :=
    fun inside => ((inside_update inside).resolve_left fun mine => out _ _ _ mine.2).2
  refine ⟨lin.replays, ?_, ?_, ?_, ?_, leaving, marks⟩
  · intro u u' op op' l l' k k' inside inside'
    exact lin.apart u u' op op' l l' k k' (old inside) (old inside')
  · intro c free
    exact lin.mem c fun u op l k inside => free u op l k (inside_of_outside before inside)
  · intro u op l k inside
    exact lin.inside u op l k (old inside)
  · have sum := sum_added_update s.threads t p
    have count := lin.count
    show s.count = a.2 + ∑ u, (Function.update s.threads t p u).added
    omega

omit [DecidableEq T] in
theorem Linear.mem_of_admits (lin : Linear code a₀ s a) {op : Op} (admits : s.Admits code op)
    {c : C} (here : code.region c = code.home (code.start op)) : s.mem c = a.1 c := by
  refine lin.mem c fun u op' l k inside exclusive same => ?_
  rw [(admits u op' l k inside (same.trans here)).1] at exclusive
  cases exclusive

theorem Linear.lock (lin : Linear code a₀ s a) {t : T} {op : Op} (waits : s.threads t = .waiting op)
    (admits : s.Admits code op) :
    Linear code a₀
      { s with threads := Function.update s.threads t (.inside op (code.start op) 0) } a := by
  have before : ∀ op l k, s.threads t ≠ .inside op l k := by
    rw [waits]
    exact nofun
  refine ⟨lin.replays, ?_, ?_, ?_, ?_, ?_, lin.mark⟩
  · intro u u' op₁ op₂ l l' k k' inside inside' apart same
    rcases inside_update inside with ⟨rfl, ⟨⟩⟩ | ⟨_, old⟩ <;> rcases inside_update inside' with
      ⟨rfl, ⟨⟩⟩ | ⟨_, old'⟩
    · exact absurd rfl apart
    · exact (admits _ _ _ _ old' same.symm).symm
    · exact admits _ _ _ _ old same
    · exact lin.apart _ _ _ _ _ _ _ _ old old' apart same
  · intro c free
    exact lin.mem c fun u op' l k inside => free u op' l k (inside_of_outside before inside)
  · intro u op' l k inside
    rcases inside_update inside with ⟨rfl, ⟨⟩⟩ | ⟨_, old⟩
    · exact OnTrack.start fun c here => lin.mem_of_admits admits here
    · exact lin.inside u op' l k old
  · have sum := sum_added_update s.threads t (.inside op (code.start op) 0)
    rw [waits] at sum
    exact lin.count.trans (congrArg (a.2 + ·) sum.symm)
  · intro u op' r leaves
    exact lin.leaving u op' r (leaving_update (by exact nofun) leaves)

theorem Linear.run (lin : Linear code a₀ s a) {t : T} {op : Op} {l : L} {k : Nat}
    (mine : s.threads t = .inside op l k) (more : code.done l = none) :
    Linear code a₀ { s with
      mem := (code.step l s.mem s.count).2.1
      count := (code.step l s.mem s.count).2.2
      threads := Function.update s.threads t (.inside op (code.step l s.mem s.count).1
        (k + ((code.step l s.mem s.count).2.2 - s.count))) } a := by
  have home := code.home_step l s.mem s.count
  have exclusive := code.exclusive_step l s.mem s.count
  -- a cell changes only under the lock of its region alone
  have frame : ∀ c, (code.exclusive l = true → code.home l ≠ code.region c) →
      (code.step l s.mem s.count).2.1 c = s.mem c := by
    intro c away
    cases mode : code.exclusive l with
    | true => exact code.step_frame l s.mem s.count c (away mode).symm
    | false => rw [code.step_shared l s.mem s.count mode]
  refine ⟨lin.replays, ?_, ?_, ?_, ?_, ?_, lin.mark⟩
  · intro u u' op₁ op₂ l₁ l₂ k₁ k₂ inside inside' apart same
    rcases inside_update inside with ⟨rfl, ⟨⟩⟩ | ⟨_, old⟩ <;> rcases inside_update inside' with
      ⟨rfl, ⟨⟩⟩ | ⟨_, old'⟩
    · exact absurd rfl apart
    · rw [exclusive]
      exact lin.apart _ _ _ _ _ _ _ _ mine old' apart (home.symm.trans same)
    · rw [exclusive]
      exact lin.apart _ _ _ _ _ _ _ _ old mine apart (same.trans home)
    · exact lin.apart _ _ _ _ _ _ _ _ old old' apart same
  · intro c free
    have away : code.exclusive l = true → code.home l ≠ code.region c := by
      rw [← home, ← exclusive]
      exact free t op _ _ (Function.update_self ..)
    refine (frame c away).trans (lin.mem c fun u op' l' k' inside => ?_)
    by_cases here : u = t
    · subst here
      rw [mine] at inside
      cases inside
      exact away
    · exact free u op' l' k' ((Function.update_of_ne here ..).trans inside)
  · intro u op' l' k' inside
    rcases inside_update inside with ⟨rfl, ⟨⟩⟩ | ⟨other, old⟩
    · exact (lin.inside u op l k mine).step more s.count
    · refine (lin.inside u op' l' k' old).congr (fun c here => frame c fun alone same => ?_)
        fun _ _ => rfl
      rw [(lin.apart _ _ _ _ _ _ _ _ mine old other.symm (same.trans here)).1] at alone
      cases alone
  · have sum := sum_added_update s.threads t (.inside op (code.step l s.mem s.count).1
      (k + ((code.step l s.mem s.count).2.2 - s.count)))
    rw [mine, Phase.added_inside, Phase.added_inside] at sum
    have count := lin.count
    have adds := code.step_adds l s.mem s.count
    show (code.step l s.mem s.count).2.2 = a.2 + ∑ u, (Function.update s.threads t _ u).added
    omega
  · intro u op' r leaves
    exact lin.leaving u op' r (leaving_update (by exact nofun) leaves)

theorem Linear.unlock (lin : Linear code a₀ s a) {t : T} {op : Op} {l : L} {k : Nat} {r : Ret}
    (mine : s.threads t = .inside op l k) (ends : code.done l = some r) :
    Linear code a₀ { s with
      threads := Function.update s.threads t (.leaving op r)
      log := s.log ++ [(t, op, r)] } (code.apply op a).1 := by
  have on := lin.inside t op l k mine
  have last := code.final_done l s.mem r ends
  have ret : r = (code.apply op a).2 := by
    have ret := on.ret
    rwa [last] at ret
  have old : ∀ {u op' l' k'}, Function.update s.threads t (.leaving op r) u = .inside op' l' k' →
      u ≠ t ∧ s.threads u = .inside op' l' k' :=
    fun inside => (inside_update inside).resolve_left nofun
  refine ⟨?_, ?_, ?_, ?_, ?_, ?_, ?_⟩
  · rw [ret]
    exact lin.replays.snoc t op
  · intro u u' op₁ op₂ l₁ l₂ k₁ k₂ inside inside'
    exact lin.apart u u' op₁ op₂ l₁ l₂ k₁ k₂ (old inside).2 (old inside').2
  · intro c free
    by_cases here : code.region c = code.home l
    · have stored := on.mem c here
      rwa [last] at stored
    · show s.mem c = (code.final (code.start op) a.1).1 c
      rw [code.final_frame _ _ _ (on.home ▸ here)]
      refine lin.mem c fun u op' l' k' inside => ?_
      by_cases same : u = t
      · subst same
        rw [mine] at inside
        cases inside
        exact fun _ => Ne.symm here
      · exact free u op' l' k' ((Function.update_of_ne same ..).trans inside)
  · intro u op' l' k' inside
    obtain ⟨other, before⟩ := old inside
    refine (lin.inside u op' l' k' before).congr (fun _ _ => rfl) fun c here => ?_
    show (code.final (code.start op) a.1).1 c = a.1 c
    by_cases same : code.home l = code.home l'
    · have shared := (lin.apart _ _ _ _ _ _ _ _ mine before other.symm same).1
      rw [code.final_shared _ _ (on.exclusive ▸ shared)]
    · refine code.final_frame _ _ _ ?_
      rw [here, ← on.home]
      exact Ne.symm same
  · have sum := sum_added_update s.threads t (.leaving op r)
    rw [mine, Phase.added_inside, Phase.added_leaving] at sum
    have count := lin.count
    have added : 0 + k = (code.final (code.start op) a.1).2.1 := by
      have added := on.count
      rwa [last] at added
    show s.count = a.2 + (code.final (code.start op) a.1).2.1 + ∑ u,
      (Function.update s.threads t _ u).added
    omega
  · intro u op' r' leaves
    by_cases here : u = t
    · subst here
      have now : Function.update s.threads u (.leaving op r) u = .leaving op' r' := leaves
      rw [Function.update_self] at now
      cases now
      exact ⟨s.log.length, lin.mark u, List.getElem?_concat_length ..⟩
    · obtain ⟨i, le, found⟩ :=
        lin.leaving u op' r' ((Function.update_of_ne here ..).symm.trans leaves)
      exact ⟨i, le, (List.getElem?_append_left (List.getElem?_eq_some_iff.mp found).1).trans found⟩
  · intro u
    refine (lin.mark u).trans ?_
    simp

theorem Linear.step (lin : Linear code a₀ s a) (step : s.Step code s') :
    ∃ a', Linear code a₀ s' a' := by
  cases step with
  | call t op idle =>
    refine ⟨a, lin.outside (by rw [idle]; exact nofun) nofun (by rw [idle]; rfl) ?_ ?_⟩
    · intro u op' r leaves
      have before : s.threads u = .leaving op' r := leaving_update (by exact nofun) leaves
      obtain ⟨i, le, found⟩ := lin.leaving u op' r before
      refine ⟨i, ?_, found⟩
      rwa [Function.update_of_ne]
      rintro rfl
      rw [idle] at before
      cases before
    · exact (Function.forall_update_iff s.mark fun _ n => n ≤ s.log.length).mpr ⟨le_refl _,
        fun u _ => lin.mark u⟩
  | lock t op waits admits => exact ⟨a, lin.lock waits admits⟩
  | run t op l k mine more => exact ⟨a, lin.run mine more⟩
  | unlock t op l k r mine ends => exact ⟨_, lin.unlock mine ends⟩
  | ret t op r leaves =>
    refine ⟨a, lin.outside (by rw [leaves]; exact nofun) nofun (by rw [leaves]; rfl) ?_ lin.mark⟩
    intro u op' r' leaves
    exact lin.leaving u op' r' (leaving_update (by exact nofun) leaves)

theorem linear_of_run (run : Relation.ReflTransGen (State.Step code) (State.start a₀) s) :
    ∃ a, Linear code a₀ s a := by
  induction run with
  | refl => exact ⟨a₀, linear_start⟩
  | tail _ step ih =>
    obtain ⟨a, lin⟩ := ih
    exact lin.step step

end RegionLocks
