import Mathlib.Data.Finset.Card
import Mathlib.Data.Fintype.Basic
import Mathlib.Tactic

/-! A counting lock in one signed word. Holders raise the word and lower it again; a
suspender replaces it by -1 and waits until the holders it found have brought it down
by their number. First the three methods, one access to the word at a time, then what
the word tells about the threads that use them. -/

namespace SuspendLock

inductive LockPc
  | load | cas (val : Nat)

inductive UnlockPc
  | load | cas (val : Int)

inductive SuspendPc
  | load | cas (val : Nat) | wait (val : Nat)

/-- One access of a method: where it goes on or what it returns, and what it stored. -/
inductive Out (C : Type)
  | next (c : C)
  | ret (b : Bool)
  | storeNext (v : Int) (c : C)
  | storeRet (v : Int) (b : Bool)

def lock (sema : Int) : LockPc → Out LockPc
  | .load => if 0 ≤ sema then .next (.cas sema.toNat) else .ret false
  | .cas val => if sema = val then .storeRet (val + 1) true else .next .load

def unlock (sema : Int) : UnlockPc → Out UnlockPc
  | .load => .next (.cas sema)
  | .cas val => if sema = val then .storeRet (val - 1) true else .next .load

def suspend (sema : Int) : SuspendPc → Out SuspendPc
  | .load => if sema < 0 then .ret false else .next (.cas sema.toNat)
  | .cas val => if sema = val then .storeNext (-1) (.wait val) else .next .load
  | .wait val => if val = 0 ∨ sema = -(val : Int) - 1 then .ret true else .next (.wait val)

/-- `lock` stores once, at its return, and raises a word that was not negative. -/
theorem lock_cases (sema : Int) (c : LockPc) :
    (∃ c', lock sema c = .next c') ∨ lock sema c = .ret false ∨
    0 ≤ sema ∧ lock sema c = .storeRet (sema + 1) true := by
  cases c with
  | load =>
    simp only [lock]
    split
    · exact Or.inl ⟨_, rfl⟩
    · exact Or.inr (Or.inl rfl)
  | cas val =>
    simp only [lock]
    split
    · rename_i eq
      exact Or.inr (Or.inr ⟨by omega, by rw [eq]⟩)
    · exact Or.inl ⟨_, rfl⟩

theorem unlock_cases (sema : Int) (c : UnlockPc) :
    (∃ c', unlock sema c = .next c') ∨ unlock sema c = .storeRet (sema - 1) true := by
  cases c with
  | load => exact Or.inl ⟨_, rfl⟩
  | cas val =>
    simp only [unlock]
    split
    · rename_i eq
      exact Or.inr (by rw [eq])
    · exact Or.inl ⟨_, rfl⟩

/-- `suspend` is waiting exactly between its one store and its return. -/
def SuspendPc.waits : SuspendPc → Option Nat
  | .wait val => some val
  | _ => none

theorem suspend_cases (sema : Int) (c : SuspendPc) :
    (∃ c', suspend sema c = .next c' ∧ c'.waits = c.waits) ∨
    (c.waits = none ∧ suspend sema c = .ret false) ∨
    (c.waits = none ∧ ∃ val : Nat, sema = val ∧ suspend sema c = .storeNext (-1) (.wait val)) ∨
    ∃ val : Nat, c.waits = some val ∧ (val = 0 ∨ sema = -(val : Int) - 1) ∧
      suspend sema c = .ret true := by
  cases c with
  | load =>
    simp only [suspend]
    split
    · exact Or.inr (Or.inl ⟨rfl, rfl⟩)
    · exact Or.inl ⟨_, rfl, rfl⟩
  | cas val =>
    simp only [suspend]
    split
    · exact Or.inr (Or.inr (Or.inl ⟨rfl, val, ‹_›, rfl⟩))
    · exact Or.inl ⟨_, rfl, rfl⟩
  | wait val =>
    simp only [suspend]
    split
    · exact Or.inr (Or.inr (Or.inr ⟨val, rfl, ‹_›, rfl⟩))
    · exact Or.inl ⟨_, rfl, rfl⟩

section
variable {T : Type*}

/-- The word, the threads between acquire and release, and the suspension in force with
the value it replaced. -/
structure Word (T : Type*) where
  sema : Int
  inside : Finset T
  susp : Option (T × Nat)

/-- The word tells the number of holders. -/
def Sound (w : Word T) : Prop :=
  match w.susp with
  | none => w.sema = w.inside.card
  | some (_, v) => w.inside.card ≤ v ∧ w.sema = -1 - ((v : Int) - w.inside.card)

theorem Sound.susp_of_nonneg {w : Word T} (sound : Sound w)
    (nonneg : 0 ≤ w.sema) : w.susp = none := by
  unfold Sound at sound
  cases held : w.susp with
  | none => rfl
  | some p =>
    rw [held] at sound
    obtain ⟨le, eq⟩ := sound
    omega

theorem Sound.sema_of_none {w : Word T} (sound : Sound w) (free : w.susp = none) :
    w.sema = w.inside.card := by
  unfold Sound at sound
  rwa [free] at sound

theorem Sound.sema_neg {w : Word T} (sound : Sound w) {t : T} {v : Nat}
    (held : w.susp = some (t, v)) :
    w.sema < 0 := by
  unfold Sound at sound
  rw [held] at sound
  obtain ⟨le, eq⟩ := sound
  omega

/-- When the wait of a suspender ends, nobody is inside. -/
theorem Sound.drained {w : Word T} (sound : Sound w) {t : T} {v : Nat} (held : w.susp = some (t, v))
    (done : v = 0 ∨ w.sema = -(v : Int) - 1) : w.inside = ∅ := by
  unfold Sound at sound
  rw [held] at sound
  obtain ⟨le, eq⟩ := sound
  apply Finset.card_eq_zero.mp
  omega

variable [DecidableEq T]

/-- What a thread can do to the word. -/
inductive Step (t : T) : Word T → Word T → Prop
  | acquire {w : Word T} : 0 ≤ w.sema → t ∉ w.inside →
    Step t w ⟨w.sema + 1, insert t w.inside, w.susp⟩
  | release {w : Word T} : t ∈ w.inside → Step t w ⟨w.sema - 1, w.inside.erase t, w.susp⟩
  | suspend {w : Word T} (v : Nat) : w.sema = v → Step t w ⟨-1, w.inside, some (t, v)⟩
  | resume {w : Word T} (v : Nat) : w.susp = some (t, v) → w.inside = ∅ → Step t w ⟨0, ∅, none⟩

theorem Step.sound {t : T} {w w' : Word T} (sound : Sound w) (step : Step t w w') : Sound w' := by
  cases step with
  | acquire nonneg out =>
    have free := sound.susp_of_nonneg nonneg
    have count := sound.sema_of_none free
    show Sound ⟨_, _, w.susp⟩
    rw [free]
    show w.sema + 1 = ((insert t w.inside).card : Int)
    rw [Finset.card_insert_of_notMem out, count]
    rfl
  | release mem =>
    have card := Finset.card_erase_add_one mem
    unfold Sound at sound ⊢
    cases held : w.susp with
    | none =>
      rw [held] at sound
      show w.sema - 1 = ((w.inside.erase t).card : Int)
      have : w.sema = w.inside.card := sound
      omega
    | some p =>
      rw [held] at sound
      obtain ⟨le, eq⟩ := sound
      show (w.inside.erase t).card ≤ p.2 ∧ w.sema - 1 = -1 - ((p.2 : Int) - (w.inside.erase t).card)
      constructor <;> omega
  | suspend v eq =>
    have free := sound.susp_of_nonneg (by omega)
    have count := sound.sema_of_none free
    show w.inside.card ≤ v ∧ (-1 : Int) = -1 - ((v : Int) - w.inside.card)
    constructor <;> omega
  | resume v held empty =>
    show (0 : Int) = ((∅ : Finset T).card : Int)
    rfl

theorem Step.susp_other {t t' : T} {v : Nat} {w w' : Word T} (sound : Sound w) (step : Step t w w')
    (held : w.susp = some (t', v)) (other : t' ≠ t) : w'.susp = some (t', v) := by
  cases step with
  | acquire nonneg out => exact held
  | release mem => exact held
  | suspend u eq =>
    cases held.symm.trans (sound.susp_of_nonneg (by omega))
  | resume u mine empty =>
    cases held.symm.trans mine
    exact absurd rfl other

theorem Step.inside_empty {t t' : T} {v : Nat} {w w' : Word T} (sound : Sound w)
    (step : Step t w w') (held : w.susp = some (t', v)) (empty : w.inside = ∅) : w'.inside = ∅ := by
  cases step with
  | acquire nonneg out => exact absurd nonneg (not_le.mpr (sound.sema_neg held))
  | release mem =>
    rw [empty] at mem
    exact absurd mem (Finset.notMem_empty t)
  | suspend u eq => exact empty
  | resume u mine empty => rfl

theorem holders_update [Fintype T] {L : Type*} (P : L → Prop) [DecidablePred P] (threads : T → L)
    (t : T) (l : L) :
    Finset.univ.filter (fun u => P (Function.update threads t l u)) =
      if P l then insert t (Finset.univ.filter fun u => P (threads u))
      else (Finset.univ.filter fun u => P (threads u)).erase t := by
  ext u
  by_cases same : u = t
  · subst same
    simp only [Finset.mem_filter, Function.update_self]
    split <;> simp_all
  · simp only [Finset.mem_filter, Function.update_of_ne same]
    split <;> simp [same]

theorem holders_update_same [Fintype T] {L : Type*} {P : L → Prop} [DecidablePred P]
    {threads : T → L} {t : T} {l : L} (same : P l ↔ P (threads t)) :
    Finset.univ.filter (fun u => P (Function.update threads t l u)) =
      Finset.univ.filter fun u => P (threads u) := by
  ext u
  by_cases here : u = t
  · subst here
    simp [same]
  · simp [Function.update_of_ne here]

end

end SuspendLock
