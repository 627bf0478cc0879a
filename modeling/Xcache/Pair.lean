import Mathlib.Tactic

/-! Keys, values and slots of the server's hash tables (`server/util/pair.h`),
and the part of `IHash` that the key-value front end calls. -/

namespace Xcache

abbrev Key := BitVec 64

/-- `Value_t`, the address of a page. -/
abbrev Value := BitVec 64

def sentinelKey : Key := -2
def invalidKey : Key := -1
def noneValue : Value := 0

/-- One slot. The default constructor sets only the key, so `none` stands for a
value member that nothing has written yet. -/
structure Pair where
  key : Key
  value : Option Value
  deriving DecidableEq

def Pair.fresh : Pair := ⟨invalidKey, none⟩

@[simp] theorem Pair.fresh_key : Pair.fresh.key = invalidKey := rfl

/-- A slot is live when its key is not the free marker. -/
def Pair.Live (p : Pair) : Prop := p.key ≠ invalidKey

instance (p : Pair) : Decidable p.Live := inferInstanceAs (Decidable (p.key ≠ invalidKey))

@[simp] theorem Pair.not_live_fresh : ¬ Pair.fresh.Live := fun live => live rfl

/-- The virtual functions that `KV` calls. `insert` is `none` when the call does not
return, and otherwise gives the removed key, with -1 for none. `get` is `none`
when it would read a value member that was never written. -/
structure IHash (σ : Type) where
  insert : σ → Key → Value → Option (σ × Key)
  get : σ → Key → Option Value

end Xcache
