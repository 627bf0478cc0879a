import Mathlib.Data.List.Perm.Basic
import Mathlib.Data.List.Nodup
import Mathlib.Logic.Function.Basic
import Mathlib.Tactic

/-! Containers whose elements are reached through iterators: every element sits in a node of its
own, and a table keeps the node of each key. -/

namespace Xcache.Nodes

/-- An iterator is the identity of the node that it points to. -/
structure Node (α : Type*) where
  id : Nat
  item : α
  deriving DecidableEq

section
variable {α κ : Type*}

def nodeAt (nodes : List (Node α)) (id : Nat) : Option (Node α) :=
  nodes.find? fun n => decide (n.id = id)

def keys (key : α → κ) (nodes : List (Node α)) : List κ := nodes.map fun n => key n.item

@[simp] theorem keys_nil (key : α → κ) : keys key [] = [] := rfl

@[simp] theorem keys_cons (key : α → κ) (n : Node α) (nodes : List (Node α)) :
    keys key (n :: nodes) = key n.item :: keys key nodes := rfl

theorem keys_perm (key : α → κ) {nodes other : List (Node α)} (perm : nodes.Perm other) :
    (keys key nodes).Perm (keys key other) := perm.map _

theorem mem_keys {key : α → κ} {nodes : List (Node α)} {k : κ} :
    k ∈ keys key nodes ↔ ∃ n ∈ nodes, key n.item = k := by
  simp [keys]

/-- The table `finder` names the node of every key, and no other node. Nodes below `fresh` have been
allocated. -/
structure Indexed (key : α → κ) (nodes : List (Node α)) (finder : κ → Option Nat)
    (fresh : Nat) : Prop where
  ids : (nodes.map Node.id).Nodup
  nodup : (keys key nodes).Nodup
  names : ∀ n ∈ nodes, finder (key n.item) = some n.id
  named : ∀ k, k ∉ keys key nodes → finder k = none
  old : ∀ n ∈ nodes, n.id < fresh

variable {key : α → κ} {nodes other : List (Node α)} {finder : κ → Option Nat} {fresh : Nat}

theorem Indexed.nil : Indexed key [] (fun _ => none) 0 := by
  constructor <;> simp

theorem Indexed.perm (index : Indexed key nodes finder fresh) (perm : nodes.Perm other) :
    Indexed key other finder fresh where
  ids := (perm.map Node.id).nodup_iff.mp index.ids
  nodup := (keys_perm key perm).nodup_iff.mp index.nodup
  names n mem := index.names n (perm.mem_iff.mpr mem)
  named k missing := index.named k fun mem => missing ((keys_perm key perm).mem_iff.mp mem)
  old n mem := index.old n (perm.mem_iff.mpr mem)

theorem Indexed.isSome_iff (index : Indexed key nodes finder fresh) (k : κ) :
    (finder k).isSome ↔ k ∈ keys key nodes := by
  constructor
  · intro found
    by_contra missing
    simp [index.named k missing] at found
  · intro mem
    obtain ⟨n, inside, rfl⟩ := mem_keys.mp mem
    simp [index.names n inside]

theorem nodeAt_eq (ids : (nodes.map Node.id).Nodup) {n : Node α} (mem : n ∈ nodes) :
    nodeAt nodes n.id = some n := by
  induction nodes with
  | nil => simp at mem
  | cons first rest ih =>
    obtain ⟨apart, ids⟩ := List.nodup_cons.mp ids
    rcases List.mem_cons.mp mem with rfl | later
    · simp [nodeAt]
    · have ne : first.id ≠ n.id := fun eq => apart (eq ▸ List.mem_map_of_mem later)
      simpa [nodeAt, ne] using ih ids later

theorem Indexed.find (index : Indexed key nodes finder fresh) {k : κ} (mem : k ∈ keys key nodes) :
    ∃ n ∈ nodes, key n.item = k ∧ finder k = some n.id ∧ nodeAt nodes n.id = some n := by
  obtain ⟨n, inside, rfl⟩ := mem_keys.mp mem
  exact ⟨n, inside, rfl, index.names n inside, nodeAt_eq index.ids inside⟩

section
variable [DecidableEq κ]

theorem Indexed.cons (index : Indexed key nodes finder fresh) {a : α}
    (missing : key a ∉ keys key nodes) :
    Indexed key (⟨fresh, a⟩ :: nodes) (Function.update finder (key a) (some fresh))
      (fresh + 1) where
  ids := by
    refine List.nodup_cons.mpr ⟨fun mem => ?_, index.ids⟩
    obtain ⟨n, inside, eq⟩ := List.mem_map.mp mem
    exact (index.old n inside).ne eq
  nodup := List.nodup_cons.mpr ⟨missing, index.nodup⟩
  names := by
    intro n mem
    rcases List.mem_cons.mp mem with rfl | later
    · simp
    · have ne : key n.item ≠ key a := fun eq => missing (eq ▸ mem_keys.mpr ⟨n, later, rfl⟩)
      simpa [ne] using index.names n later
  named := by
    intro k out
    have ne : k ≠ key a := fun eq => out (by simp [eq])
    simpa [ne] using index.named k fun mem => out (by simp [mem])
  old := by
    intro n mem
    rcases List.mem_cons.mp mem with rfl | later
    · exact Nat.lt_succ_self fresh
    · exact (index.old n later).trans (Nat.lt_succ_self fresh)

theorem Indexed.uncons {n : Node α} (index : Indexed key (n :: nodes) finder fresh) :
    Indexed key nodes (Function.update finder (key n.item) none) fresh where
  ids := (List.nodup_cons.mp index.ids).2
  nodup := (List.nodup_cons.mp index.nodup).2
  names := by
    intro m mem
    have ne : key m.item ≠ key n.item := fun eq =>
      (List.nodup_cons.mp index.nodup).1 (mem_keys.mpr ⟨m, mem, eq⟩)
    simpa [ne] using index.names m (List.mem_cons_of_mem n mem)
  named := by
    intro k out
    by_cases here : k = key n.item
    · simp [here]
    · simpa [here] using index.named k (by simp [here, out])
  old m mem := index.old m (List.mem_cons_of_mem n mem)

theorem Indexed.retag {n : Node α} (index : Indexed key (n :: nodes) finder fresh) {a : α}
    (same : key a = key n.item) :
    Indexed key (⟨fresh, a⟩ :: nodes) (Function.update finder (key a) (some fresh))
      (fresh + 1) := by
  have missing : key a ∉ keys key nodes := same ▸ (List.nodup_cons.mp index.nodup).1
  have again := index.uncons.cons missing
  rwa [same, Function.update_idem, ← same] at again

end

end

end Xcache.Nodes
