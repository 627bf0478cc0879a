import Xcache.Client.Get
import Xcache.Lib.Runs
import Xcache.Pair

/-! The error paths of `rdpma_put` (`client/rdpma.c`, two-sided, batches of four): one queue, one
call after the other, and every outcome of the kernel services that a call uses. -/

namespace Xcache.PutErrors
open Function

open Client

/-- What the kernel and the network answer to one call. The polls end when no further completion
ever arrives. -/
structure Services where
  metadata : Bool
  pages : Req
  keys : Req
  postSend : Int
  sendPolls : List Poll
  recvPolls : List Poll
  postRecv : Int

structure Queue (Page : Type) where
  globalLock : Bool
  nrBuffered : Nat
  buffer : Nat → Page
  keys : Nat → Key

section
variable {Page : Type}

def postRecv (services : Services) : Int := if services.postRecv ≠ 0 then 1 else 0

/-- The label `out`. Whatever went wrong before, `ret` is now that of `post_recv`. -/
def out (services : Services) (q : Queue Page) : Outcome (Int × Queue Page) :=
  let q := { q with nrBuffered := 0, globalLock := false }
  let ret := postRecv services
  if ret ≠ 0 then .oops else .ret (ret, q)

def exchange (services : Services) (q : Queue Page) : Outcome (Int × Queue Page) :=
  match pollCq services.sendPolls with
  | none => .spins
  | some (.completion true _) =>
    match pollCq services.recvPolls with
    | none => .spins
    | some (.completion true _) => out services q
    | some _ => .ret (-1, q)
  | some _ => out services q

/-- From the second half of the function on: the batch is full and the lock is held. -/
def flush (services : Services) (q : Queue Page) : Outcome (Int × Queue Page) :=
  if services.metadata = false then .ret (eNoMem, q)
  else getReq (·, q) services.pages (getReq (·, q) services.keys (exchange services q))

structure Call (Page : Type) where
  page : Page
  key : Key
  services : Services

def rdpmaPut (q : Queue Page) (call : Call Page) : Outcome (Int × Queue Page) :=
  if q.globalLock then .spins
  else
    let bufId := q.nrBuffered
    if bufId ≥ batchSize then .oops
    else
      let q : Queue Page :=
        { globalLock := true
          nrBuffered := bufId + 1
          buffer := update q.buffer bufId call.page
          keys := update q.keys bufId call.key }
      if bufId < batchSize - 1 then .ret (0, { q with globalLock := false })
      else flush call.services q

def step (q : Queue Page) (call : Call Page) : Option (Queue Page) :=
  match rdpmaPut q call with
  | .ret (_, q) => some q
  | _ => none

/-- The send was posted and completed, and the reply of the server was received. -/
structure Delivered (services : Services) : Prop where
  posted : services.postSend = 0
  sent : Completed services.sendPolls
  replied : Completed services.recvPolls

structure Usable (q : Queue Page) : Prop where
  unlocked : q.globalLock = false
  room : q.nrBuffered < batchSize

def Flushes (q : Queue Page) : Prop := q.nrBuffered = batchSize - 1

/-- A call that returns leaves the queue usable, and a flushing one returns 0 only for a delivered
batch. -/
def Clean (q : Queue Page) (call : Call Page) : Prop :=
  ∀ ret t, rdpmaPut q call = .ret (ret, t) → Usable t ∧
    (Flushes q → ret = 0 → Delivered call.services)

structure Mapped (services : Services) : Prop where
  metadata : services.metadata = true
  pages : services.pages.Ready
  keys : services.keys.Ready

def Broken (polls : List Poll) : Prop :=
  ∃ p, pollCq polls = some p ∧ ∀ immData, p ≠ .completion true immData

/-- The faults that a flushing call survives: it returns although something has failed. -/
inductive Faulty (services : Services) : Prop
  | metadata (failed : services.metadata = false)
  | pages (allocated : services.metadata = true) (failed : services.pages.Unmapped)
  | keys (allocated : services.metadata = true) (mapped : services.pages.Ready)
    (failed : services.keys.Unmapped)
  | send (mapped : Mapped services) (broken : Broken services.sendPolls)
    (reposted : services.postRecv = 0)
  | reply (mapped : Mapped services) (sent : Completed services.sendPolls)
    (broken : Broken services.recvPolls)
  | post (mapped : Mapped services) (failed : services.postSend ≠ 0)
    (sent : Completed services.sendPolls)
      (replied : Completed services.recvPolls) (reposted : services.postRecv = 0)

/-- No flush meets such a fault. -/
def Careful (q : Queue Page) (call : Call Page) : Prop := Flushes q → ¬ Faulty call.services

variable {services : Services} {q t : Queue Page} {ret : Int} {call : Call Page}

theorem out_returned (q : Queue Page) (reposted : services.postRecv = 0) :
    out services q = .ret (0, { q with nrBuffered := 0, globalLock := false }) := by
  simp [out, postRecv, reposted]

theorem out_eq_returned (eq : out services q = .ret (ret, t)) :
    services.postRecv = 0 ∧ Usable t := by
  by_cases reposted : services.postRecv = 0
  · rw [out_returned q reposted] at eq
    cases eq
    exact ⟨reposted, rfl, show 0 < batchSize by decide⟩
  · simp [out, postRecv, reposted] at eq

theorem flush_mapped (mapped : Mapped services) (q : Queue Page) :
    flush services q = exchange services q := by
  rw [flush, if_neg (by simp [mapped.metadata]), getReq_of_ready mapped.pages,
    getReq_of_ready mapped.keys]

theorem exchange_of_broken (broken : Broken services.sendPolls) :
    exchange services q = out services q := by
  obtain ⟨p, eq, bad⟩ := broken
  unfold exchange
  rw [eq]
  cases p with
  | completion success immData => cases success <;> first | rfl | exact absurd rfl (bad immData)
  | _ => rfl

theorem exchange_of_completed (sent : Completed services.sendPolls) : exchange services q =
    match pollCq services.recvPolls with
    | none => .spins
    | some (.completion true _) => out services q
    | some _ => .ret (-1, q) := by
  obtain ⟨_, eq⟩ := sent
  unfold exchange
  rw [eq]

theorem exchange_of_replied (sent : Completed services.sendPolls)
    (replied : Completed services.recvPolls) :
    exchange services q = out services q := by
  obtain ⟨_, eq⟩ := replied
  rw [exchange_of_completed sent, eq]

theorem exchange_of_no_reply (sent : Completed services.sendPolls)
    (broken : Broken services.recvPolls) :
    exchange services q = .ret (-1, q) := by
  obtain ⟨p, eq, bad⟩ := broken
  rw [exchange_of_completed sent, eq]
  cases p with
  | completion success immData => cases success <;> first | rfl | exact absurd rfl (bad immData)
  | _ => rfl

theorem pollCq_cases (polls : List Poll) :
    pollCq polls = none ∨ Completed polls ∨ Broken polls := by
  cases eq : pollCq polls with
  | none => exact Or.inl rfl
  | some p =>
    by_cases good : ∃ immData, p = .completion true immData
    · obtain ⟨immData, rfl⟩ := good
      exact Or.inr (Or.inl ⟨immData, eq⟩)
    · exact Or.inr (Or.inr ⟨p, eq, fun immData same => good ⟨immData, same⟩⟩)

theorem Broken.not_completed {polls : List Poll} (broken : Broken polls) : ¬ Completed polls := by
  rintro ⟨immData, eq⟩
  obtain ⟨p, eq', bad⟩ := broken
  exact bad immData (Option.some.inj (eq'.symm.trans eq))

/-- Every such fault ends in a return with the lock held, or in a 0 for a batch that is lost. -/
theorem flush_of_faulty (faulty : Faulty services) (locked : q.globalLock = true) :
    ∃ ret t, flush services q = .ret (ret, t) ∧
      (t.globalLock = true ∨ ret = 0 ∧ ¬ Delivered services) := by
  cases faulty with
  | metadata failed => exact ⟨eNoMem, q, if_pos failed, Or.inl locked⟩
  | pages allocated failed =>
    refine ⟨eNoMem, q, ?_, Or.inl locked⟩
    rw [flush, if_neg (by simp [allocated]), getReq_of_unmapped failed]
  | keys allocated mapped failed =>
    refine ⟨eNoMem, q, ?_, Or.inl locked⟩
    rw [flush, if_neg (by simp [allocated]), getReq_of_ready mapped, getReq_of_unmapped failed]
  | send mapped broken reposted =>
    exact ⟨0, _, (flush_mapped mapped q).trans
      ((exchange_of_broken broken).trans (out_returned q reposted)),
      Or.inr ⟨rfl, fun delivered => broken.not_completed delivered.sent⟩⟩
  | reply mapped sent broken =>
    exact ⟨-1, q, (flush_mapped mapped q).trans (exchange_of_no_reply sent broken), Or.inl locked⟩
  | post mapped failed sent replied reposted =>
    exact ⟨0, _, (flush_mapped mapped q).trans
      ((exchange_of_replied sent replied).trans (out_returned q reposted)),
      Or.inr ⟨rfl, fun delivered => failed delivered.posted⟩⟩

theorem mapped_of_not_faulty (fine : ¬ Faulty services)
    (eq : flush services q = .ret (ret, t)) : Mapped services := by
  have allocated : services.metadata = true := by
    by_contra failed
    exact fine (.metadata (by simpa using failed))
  rw [flush, if_neg (by simp [allocated])] at eq
  rcases getReq_cases (·, q) services.pages with pages | failed | oops
  · rw [getReq_of_ready pages] at eq
    rcases getReq_cases (·, q) services.keys with keys | failed | oops
    · exact ⟨allocated, pages, keys⟩
    · exact absurd (.keys allocated pages failed) fine
    · cases (oops _).symm.trans eq
  · exact absurd (.pages allocated failed) fine
  · cases (oops _).symm.trans eq

/-- Without them a flush that returns has delivered its batch. -/
theorem flush_of_not_faulty (fine : ¬ Faulty services) (eq : flush services q = .ret (ret, t)) :
    Usable t ∧ Delivered services := by
  have mapped := mapped_of_not_faulty fine eq
  rw [flush_mapped mapped] at eq
  rcases pollCq_cases services.sendPolls with none | sent | broken
  · unfold exchange at eq
    rw [none] at eq
    cases eq
  · rcases pollCq_cases services.recvPolls with none | replied | broken
    · rw [exchange_of_completed sent, none] at eq
      cases eq
    · rw [exchange_of_replied sent replied] at eq
      obtain ⟨reposted, usable⟩ := out_eq_returned eq
      refine ⟨usable, ?_, sent, replied⟩
      by_contra failed
      exact fine (.post mapped failed sent replied reposted)
    · exact absurd (.reply mapped sent broken) fine
  · rw [exchange_of_broken broken] at eq
    exact absurd (.send mapped broken (out_eq_returned eq).1) fine

/-- A usable queue: the call is clean exactly when its flush meets no such fault. -/
theorem clean_iff_careful (usable : Usable q) : Clean q call ↔ Careful q call := by
  obtain ⟨unlocked, room⟩ := usable
  by_cases last : Flushes q
  · have flushed : rdpmaPut q call = flush call.services
        ⟨true, q.nrBuffered + 1, update q.buffer q.nrBuffered call.page,
          update q.keys q.nrBuffered call.key⟩ := by
      simp [rdpmaPut, unlocked, Nat.not_le.mpr room,
        show ¬ q.nrBuffered < batchSize - 1 by rw [last]; omega]
    constructor
    · intro clean _ faulty
      obtain ⟨ret, t, eq, bad⟩ := flush_of_faulty faulty
        (q := ⟨true, q.nrBuffered + 1, update q.buffer q.nrBuffered call.page,
          update q.keys q.nrBuffered call.key⟩) rfl
      obtain ⟨usable, delivered⟩ := clean ret t (flushed.trans eq)
      rcases bad with locked | ⟨zero, lost⟩
      · simp [usable.unlocked] at locked
      · exact lost (delivered last zero)
    · intro careful ret t eq
      obtain ⟨usable, delivered⟩ := flush_of_not_faulty (careful last) (flushed.symm.trans eq)
      exact ⟨usable, fun _ _ => delivered⟩
  · have early : q.nrBuffered < batchSize - 1 := by
      unfold Flushes at last
      omega
    refine ⟨fun _ flushes => absurd flushes last, fun _ ret t eq => ?_⟩
    simp only [rdpmaPut, unlocked, Bool.false_eq_true, if_false, Nat.not_le.mpr room, early,
      if_true, Outcome.ret.injEq, Prod.mk.injEq] at eq
    obtain ⟨-, rfl⟩ := eq
    exact ⟨⟨rfl, by change q.nrBuffered + 1 < batchSize; omega⟩, fun flushes => absurd flushes last⟩

def start (buffer : Nat → Page) (keys : Nat → Key) : Queue Page := ⟨false, 0, buffer, keys⟩

theorem Clean.usable (clean : Clean q call) (next : step q call = some t) : Usable t := by
  cases ended : rdpmaPut q call with
  | ret result =>
    simp only [step, ended, Option.some.injEq] at next
    exact next ▸ (clean result.1 result.2 ended).1
  | oops => simp [step, ended] at next
  | spins => simp [step, ended] at next

theorem usable_start (buffer : Nat → Page) (keys : Nat → Key) : Usable (start buffer keys) :=
  ⟨rfl, show 0 < batchSize by decide⟩

/-- Along every sequence of calls: all returns are clean exactly when no flush meets a fault that it
survives. -/
theorem clean_calls_iff (buffer : Nat → Page) (keys : Nat → Key) (calls : List (Call Page)) :
    Runs.Meets step Clean (start buffer keys) calls ↔
      Runs.Meets step Careful (start buffer keys) calls := by
  constructor
  · intro clean done call q le reached
    have usable : Usable q :=
      Runs.invariant (usable_start buffer keys) (fun _ _ _ _ ok next => ok.usable next)
      (clean.mono ((List.prefix_append _ _).trans le)) reached
    exact (clean_iff_careful usable).mp (clean done call q le reached)
  · intro careful done call q le reached
    have usable : Usable q := Runs.invariant (usable_start buffer keys)
      (fun _ _ _ usable ok next => ((clean_iff_careful usable).mpr ok).usable next)
      (careful.mono ((List.prefix_append _ _).trans le)) reached
    exact (clean_iff_careful usable).mpr (careful done call q le reached)

/-- Services that work: the mappings, the post, both completions and the new receive. -/
def working : Services where
  metadata := true
  pages := ⟨true, false, 0x1000⟩
  keys := ⟨true, false, 0x2000⟩
  postSend := 0
  sendPolls := [.empty, .completion true 0]
  recvPolls := [.empty, .completion true 0]
  postRecv := 0

def threePuts : List (Call Nat) := [⟨1, 1, working⟩, ⟨2, 2, working⟩, ⟨3, 3, working⟩]

/-- The fourth put returns with the lock held when there is no memory for the metadata, and returns
0 when the send has failed. -/
theorem flush_keeps_lock_and_hides_error :
    ¬ Runs.Meets step Clean (start (fun _ => 0) fun _ => 0)
        (threePuts ++ [⟨4, 4, { working with metadata := false }⟩]) ∧
      ¬ Runs.Meets step Clean (start (fun _ => 0) fun _ => 0)
        (threePuts ++ [⟨4, 4, { working with sendPolls := [.completion false 0] }⟩]) := by
  have reached : Runs.run step (start (fun _ => 0) fun _ => 0) threePuts =
      some ⟨false, 3, update (update (update (fun _ => 0) 0 1) 1 2) 2 3,
        update (update (update (fun _ => 0) 0 1) 1 2) 2 3⟩ := rfl
  constructor
  · intro clean
    obtain ⟨usable, -⟩ := clean threePuts _ _ (List.prefix_refl _) reached eNoMem _ rfl
    exact absurd usable.unlocked (by decide)
  · intro clean
    obtain ⟨-, delivered⟩ := clean threePuts _ _ (List.prefix_refl _) reached 0 _ rfl
    obtain ⟨_, sent⟩ := (delivered rfl rfl).sent
    cases sent

end

end Xcache.PutErrors
