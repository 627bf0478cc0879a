import Mathlib.Data.List.Rotate
import Mathlib.Tactic

/-! Rings of nodes that are linked in one direction. -/

namespace Xcache

section
variable {α : Type} (next : α → Option α)

/-- The links lead from `a` through the nodes of the list to `b`. -/
def Path : α → List α → α → Prop
  | a, [], b => next a = some b
  | a, c :: rest, b => next a = some c ∧ Path c rest b

/-- The links lead from the first node of the list through the others and back. -/
def Ring : List α → Prop
  | [] => False
  | a :: rest => Path next a rest a ∧ (a :: rest).Nodup

def follow : Nat → α → Option α
  | 0, a => some a
  | j + 1, a => (next a).bind (follow j)

variable {next} {next' : α → Option α} {a b c new : α} {l m q rest : List α}

theorem Path.congr (path : Path next a rest b) (same : ∀ x ∈ a :: rest, next' x = next x) :
    Path next' a rest b := by
  induction rest generalizing a with
  | nil =>
    rw [Path, same a List.mem_cons_self]
    exact path
  | cons c rest ih =>
    refine ⟨(same a List.mem_cons_self).trans path.1, ih path.2 fun x mem =>
      same x (List.mem_cons_of_mem _ mem)⟩

theorem path_append : Path next a (m ++ c :: q) b ↔ Path next a m c ∧ Path next c q b := by
  induction m generalizing a with
  | nil => exact Iff.rfl
  | cons d m ih => rw [List.cons_append, Path, Path, ih, and_assoc]

/-- A node gets into the path behind the last node of `a :: m`, from which it takes the link. -/
theorem Path.insert [DecidableEq α] (path : Path next a (m ++ q) b) (nodup : (a :: (m ++ q)).Nodup)
    (fresh : new ∉ a :: (m ++ q)) (last : (a :: m).getLast? = some c) (link : next' c = some new)
    (copy : next' new = next c) (same : ∀ x, x ≠ c → x ≠ new → next' x = next x) :
    Path next' a (m ++ new :: q) b := by
  induction m generalizing a with
  | nil =>
    cases last
    refine ⟨link, ?_⟩
    cases q with
    | nil => exact copy.trans path
    | cons d q =>
      refine ⟨copy.trans path.1, path.2.congr fun x mem => same x ?_ ?_⟩
      · rintro rfl
        exact (List.nodup_cons.mp nodup).1 mem
      · rintro rfl
        exact fresh (List.mem_cons_of_mem _ mem)
  | cons d m ih =>
    obtain ⟨outside, nodup'⟩ := List.nodup_cons.mp nodup
    rw [List.getLast?_cons_cons] at last
    refine ⟨(same a ?_ ?_).trans path.1, ih path.2 nodup'
      (fun mem => fresh (List.mem_cons_of_mem _ mem)) last⟩
    · rintro rfl
      exact outside (List.mem_append_left q (List.mem_of_getLast? last))
    · rintro rfl
      exact fresh List.mem_cons_self

theorem Ring.congr (ring : Ring next l) (same : ∀ x ∈ l, next' x = next x) : Ring next' l := by
  cases l with
  | nil => exact ring
  | cons a rest => exact ⟨ring.1.congr same, ring.2⟩

theorem Ring.nodup (ring : Ring next l) : l.Nodup := by
  cases l with
  | nil => exact ring.elim
  | cons a rest => exact ring.2

theorem Ring.rotate_one (ring : Ring next (a :: rest)) : Ring next (rest ++ [a]) := by
  have turned : a :: rest ~r rest ++ [a] := ⟨1, by simp⟩
  cases rest with
  | nil => exact ring
  | cons b rest => exact ⟨path_append.mpr ⟨ring.1.2, ring.1.1⟩, turned.nodup_iff.mp ring.2⟩

theorem Ring.of_isRotated (ring : Ring next l) (turned : l ~r m) : Ring next m := by
  obtain ⟨j, rfl⟩ := turned
  induction j generalizing l with
  | zero => rwa [List.rotate_zero]
  | succ j ih =>
    cases l with
    | nil => exact ring.elim
    | cons a rest =>
      rw [List.rotate_cons_succ]
      exact ih ring.rotate_one

theorem Ring.exists_next (ring : Ring next l) (mem : a ∈ l) : ∃ b, next a = some b := by
  obtain ⟨p, q, rfl⟩ := List.append_of_mem mem
  have turned : p ++ a :: q ~r a :: (q ++ p) := List.isRotated_append
  have path := (ring.of_isRotated turned).1
  cases rest : q ++ p with
  | nil =>
    rw [rest] at path
    exact ⟨a, path⟩
  | cons c rest' =>
    rw [rest] at path
    exact ⟨c, path.1⟩

theorem Ring.step (ring : Ring next (a :: rest)) :
    ∃ b tail, next a = some b ∧ a :: rest ~r b :: tail ∧ Ring next (b :: tail) := by
  have turned : a :: rest ~r rest ++ [a] := ⟨1, by simp⟩
  have links := ring.rotate_one
  cases rest with
  | nil => exact ⟨a, [], ring.1, turned, links⟩
  | cons b rest => exact ⟨b, rest ++ [a], ring.1.1, turned, links⟩

theorem Ring.follow (ring : Ring next (a :: rest)) (j : Nat) :
    ∃ b tail, follow next j a = some b ∧ a :: rest ~r b :: tail ∧ Ring next (b :: tail) := by
  induction j generalizing a rest with
  | zero => exact ⟨a, rest, rfl, .refl _, ring⟩
  | succ j ih =>
    obtain ⟨b, tail, step, turned, ring'⟩ := ring.step
    obtain ⟨c, tail', steps, turned', ring''⟩ := ih ring'
    exact ⟨c, tail', by rw [Xcache.follow, step]; exact steps, turned.trans turned', ring''⟩

theorem Path.follow (path : Path next a rest b) :
    Xcache.follow next (rest.length + 1) a = some b := by
  induction rest generalizing a with
  | nil =>
    rw [List.length_nil, Xcache.follow, path]
    rfl
  | cons c rest ih =>
    rw [List.length_cons, Xcache.follow, path.1]
    exact ih path.2

theorem Ring.exists_follow (ring : Ring next (a :: rest)) (mem : b ∈ a :: rest) :
    ∃ j, Xcache.follow next j a = some b := by
  rcases List.mem_cons.mp mem with rfl | later
  · exact ⟨0, rfl⟩
  · obtain ⟨m, q, rfl⟩ := List.append_of_mem later
    exact ⟨_, (path_append.mp ring.1).1.follow⟩

theorem Path.unique (path : Path next a l b) (path' : Path next a m b) (out : b ∉ l)
    (out' : b ∉ m) : l = m := by
  induction l generalizing a m with
  | nil =>
    cases m with
    | nil => rfl
    | cons c m =>
      cases path.symm.trans path'.1
      exact absurd List.mem_cons_self out'
  | cons c l ih =>
    cases m with
    | nil =>
      cases path'.symm.trans path.1
      exact absurd List.mem_cons_self out
    | cons d m =>
      cases path.1.symm.trans path'.1
      rw [ih path.2 path'.2 (fun mem => out (List.mem_cons_of_mem _ mem)) fun mem =>
        out' (List.mem_cons_of_mem _ mem)]

theorem Ring.unique (ring : Ring next (a :: l)) (ring' : Ring next (a :: m)) : l = m :=
  ring.1.unique ring'.1 (List.nodup_cons.mp ring.2).1 (List.nodup_cons.mp ring'.2).1

theorem Path.start (path : Path next a rest b) (link : next' c = next a)
    (same : ∀ x ∈ rest, next' x = next x) : Path next' c rest b := by
  cases rest with
  | nil => exact link.trans path
  | cons d rest => exact ⟨link.trans path.1, path.2.congr same⟩

/-- A node `b` gets out of the ring when the one before it takes over its link. -/
theorem Ring.remove (ring : Ring next (m ++ a :: b :: q)) (link : next' a = next b)
    (same : ∀ x, x ≠ a → x ≠ b → next' x = next x) :
    Ring next' (m ++ a :: q) := by
  have turned : m ++ a :: b :: q ~r a :: b :: (q ++ m) := List.isRotated_append
  have links := ring.of_isRotated turned
  have nodup := links.nodup
  obtain ⟨outA, nodup'⟩ := List.nodup_cons.mp nodup
  obtain ⟨outB, _⟩ := List.nodup_cons.mp nodup'
  have rest : Ring next' (a :: (q ++ m)) := by
    refine ⟨links.1.2.start link fun x mem => same x ?_ ?_,
      nodup.sublist ((List.sublist_cons_self b _).cons_cons a)⟩
    · rintro rfl
      exact outA (List.mem_cons_of_mem b mem)
    · rintro rfl
      exact outB mem
  have back : a :: q ++ m ~r m ++ a :: q := List.isRotated_append
  exact rest.of_isRotated back

end

end Xcache
