import Mathlib.Tactic

/-! What client and server agree on: message and transaction codes, the packed
immediate word, queue numbering and the metadata slots (`client/julee.h`,
`client/rdpma.h`, `client/rdpma.c`, `server/rdma_svr.h`). -/

namespace Xcache

inductive MsgType
  | writeRequest | writeRequestReply | write | writeReply
  | readRequest | readRequestReply | read | readReply
  deriving DecidableEq, Repr

inductive TxState
  | writeBegin | writeReady | writeCommitted | writeAborted
  | readBegin | readReady | readCommitted | readAborted
  deriving DecidableEq, Repr

def MsgType.code : MsgType → BitVec 32
  | .writeRequest => 0 | .writeRequestReply => 1 | .write => 2 | .writeReply => 3
  | .readRequest => 4 | .readRequestReply => 5 | .read => 6 | .readReply => 7

def TxState.code : TxState → BitVec 32
  | .writeBegin => 0 | .writeReady => 1 | .writeCommitted => 2 | .writeAborted => 3
  | .readBegin => 4 | .readReady => 5 | .readCommitted => 6 | .readAborted => 7

/-- The fields of an immediate word. -/
structure Imm where
  num : BitVec 32
  msgNum : BitVec 32
  type : BitVec 32
  state : BitVec 32
  qid : BitVec 32
  deriving DecidableEq

def bitMask (m : Imm) : BitVec 32 :=
  m.num <<< 28 ||| m.msgNum <<< 16 ||| m.type <<< 12 ||| m.state <<< 8 ||| (m.qid &&& 0xff#32)

def bitUnmask (target : BitVec 32) : Imm where
  num := target >>> 28 &&& 0xf#32
  msgNum := target >>> 16 &&& 0xfff#32
  type := target >>> 12 &&& 0xf#32
  state := target >>> 8 &&& 0xf#32
  qid := target &&& 0xff#32

/-- Byte order of the network; the hosts are little-endian. -/
def htonl (w : BitVec 32) : BitVec 32 :=
  w.extractLsb' 0 8 ++ w.extractLsb' 8 8 ++ w.extractLsb' 16 8 ++ w.extractLsb' 24 8

def ntohl (w : BitVec 32) : BitVec 32 := htonl w

def batchSize : Nat := 4
def numEntry : Nat := 4

section
variable (numqueues cpuid : Nat)

def getReadQueueId : Nat := cpuid % (numqueues / 2)
def getWriteQueueId : Nat := cpuid % (numqueues / 2) + numqueues / 2

/-- The number of a cpu among those of its queue. -/
def getMsgId : Nat := cpuid / (numqueues / 2)

end

/-- The word a server thread answers with. -/
def replyImm (mid qid : Nat) (state : TxState) : BitVec 32 :=
  htonl (bitMask ⟨0, BitVec.ofNat 32 mid, MsgType.readReply.code, state.code, BitVec.ofNat 32 qid⟩)

end Xcache
