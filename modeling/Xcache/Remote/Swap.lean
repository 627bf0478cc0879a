import Xcache.Remote.Returns
import Xcache.Remote.Watch

/-! The swap of `client/juleeswap.c` over the remote store: `ckswap_store` and `ckswap_load` as
calls of `rdpma_put` and `rdpma_get` of one client. -/

namespace Xcache.Remote.Swap

inductive Event
  | ckswapStore (type : BitVec 32) (cpuid t : Nat) (pageid : Key) (page : Page)
  | ckswapLoad (type : BitVec 32) (cpuid t : Nat) (pageid : Key) (raddr : BitVec 64)
  | other (e : Remote.Event) (running : e.cpuid = none)

/-- The key is the page id alone. -/
def Event.inner (c : Client) : Event → Remote.Event
  | .ckswapStore _ cpuid t pageid page => .startPut c cpuid t pageid page
  | .ckswapLoad _ cpuid t pageid raddr => .startGet c cpuid t pageid raddr
  | .other e _ => e

section
variable {σ : Type} (H : IHash σ) (cfg : Config) (c : Client)

def step (s : Watch σ) (e : Event) : Option (Watch σ) := s.step H cfg (e.inner c)

/-- Some steps lead to a state in which the load has returned. -/
def CanReturn (s : Watch σ) (q : Queue) (n : Nat) : Prop :=
  ∃ events t, Runs.run (step H cfg c) s events = some t ∧
    (t.fresh.sys.readQs (c, q)).calls n = none ∧ t.LoadsBack

end

section
variable {σ : Type} {H : IHash σ} {cfg : Config} {c : Client} {bufferSize globalMr : BitVec 64}
  {empty : σ} {f : BloomFilter} {s t : Watch σ} {e : Event}

/-- Every key belongs to the one client that swaps. -/
def only (c : Client) : Client → Set Key := fun c' => { _key | c' = c }

end

section
variable {σ : Type} {t : Watch σ}

end

/-- An event of the remote store, as the swap of its client sees it. -/
def Event.of : Remote.Event → Event
  | .startPut _ cpuid t key page => .ckswapStore 0 cpuid t key page
  | .startGet _ cpuid t key raddr => .ckswapLoad 0 cpuid t key raddr
  | .setUp c q => .other (.setUp c q) rfl
  | .put c q t => .other (.put c q t) rfl
  | .transmit c q => .other (.transmit c q) rfl
  | .serveWrite c q => .other (.serveWrite c q) rfl
  | .get c q t => .other (.get c q t) rfl
  | .request c q => .other (.request c q) rfl
  | .serveRead c q => .other (.serveRead c q) rfl
  | .reply c q => .other (.reply c q) rfl
  | .send c => .other (.send c) rfl

def loaded : List Remote.Event := Fresh.firstBatch ++ .startGet 0 1 0 1 0 :: Fresh.getSteps

/-- One page is stored, and its load starts when the store has returned 0. -/
def buffered : List Remote.Event :=
  .setUp 0 5 :: System.putSteps 0 1 1 (Fresh.plain 1) 13 ++ .startGet 0 1 0 1 0 :: Fresh.getSteps

end Xcache.Remote.Swap
