import Mathlib.Data.Int.Order.Basic
import StreakKernel.Lib.Word

/-!
# Reassembly of IPv4 datagrams

The queue of the fragments of one datagram in `net/ipv4/ip_fragment.c`. A new fragment is
cut off where an earlier one reaches into it, and it cuts off or replaces later ones.
Every allocation on the way can fail.
-/

namespace StreakKernel.Reassembly

abbrev Byte := UInt8

inductive Errno where
  | noent
  | inval
  | nomem
  | timedout
  | toobig
  deriving DecidableEq, Repr

/-- A buffer from `skb->data` on, with its pages, and the bytes of its `frag_list`. `headerLen` is
`ip_hdrlen` of its header. -/
structure Skb where
  headerLen : ℕ
  data : List Byte
  chained : List Byte
  deriving DecidableEq, Repr

namespace Skb

variable (skb : Skb)

def bytes : List Byte := skb.data ++ skb.chained

def len : ℕ := skb.bytes.length

def pull (count : ℕ) : Skb :=
  { skb with
    data := skb.data.drop count
    chained := skb.chained.drop (count - skb.data.length) }

def trim (count : ℕ) : Skb :=
  { skb with
    data := skb.data.take count
    chained := skb.chained.take (count - skb.data.length) }

end Skb

/-- A fragment as it is received, with its header in front. -/
structure Packet where
  fragOff : Fin 65536
  fragComplete : Bool
  skb : Skb
  headerLe : skb.headerLen ≤ skb.len
  lenLe : skb.len ≤ 65535

namespace Packet

variable (packet : Packet)

def offset : ℕ := packet.fragOff.val % 8192 * 8

def moreFragments : Bool := packet.fragOff.val / 8192 % 2 = 1

/-- The end of the fragment. Only the last one may end within a unit. -/
def stop : ℕ :=
  let stop := packet.offset + packet.skb.len - packet.skb.headerLen
  if packet.moreFragments then stop - stop % 8 else stop

def payload : List Byte := packet.skb.bytes.drop packet.skb.headerLen

end Packet

structure Frag where
  offset : ℕ
  skb : Skb
  deriving DecidableEq, Repr

def Frag.stop (frag : Frag) : ℕ := frag.offset + frag.skb.len

/-- `struct ipq`. The flags are those of `last_in`. -/
structure Queue where
  fragments : List Frag
  len : ℕ
  meat : ℤ
  firstIn : Bool
  lastIn : Bool
  complete : Bool
  rid : ℕ
  deriving DecidableEq, Repr

/-- The counter of the peer, `sysctl_ipfrag_max_dist`, whether the timer was pending, and which
allocations succeed. -/
structure Env where
  peerRid : Option ℕ
  maxDist : ℕ
  timerPending : Bool
  pullHeader : Bool
  trim : Bool
  pullHead : Bool
  pullNext : Bool
  clone : Bool
  expandHead : Bool
  splitHead : Bool
  deriving DecidableEq, Repr

/-- How a call ends. `oops` is the use of the head of an empty queue. -/
inductive Outcome where
  | failed (errno : Errno)
  | inProgress
  | delivered (payload : List Byte)
  | oops
  deriving DecidableEq, Repr

/-- How `ip_frag_queue` ends before the reassembly. `ip_frag_reasm` is told whether there is a
fragment before the new one. -/
inductive Verdict where
  | done (outcome : Outcome)
  | reasm (hasPrev : Bool)
  deriving DecidableEq, Repr

namespace Queue

variable (env : Env) (queue : Queue)

def kill : Queue := { queue with complete := true }

def ipFragTooFar : Bool × Queue :=
  match env.peerRid with
  | none => (false, queue)
  | some last =>
    if env.maxDist = 0 then (false, queue)
    else
      (decide (queue.fragments ≠ [] ∧ env.maxDist < Word.sub last queue.rid),
        { queue with rid := last })

/-- `ip_frag_reinit`: all is forgotten, unless the timer has just run out. -/
def ipFragReinit : Option Queue :=
  if env.timerPending then
    some { queue with
      fragments := [], len := 0, meat := 0, firstIn := false, lastIn := false, complete := false }
  else none

/-- The test for a fragment that is too far ahead. -/
def accept (packet : Packet) : Except Queue Queue :=
  if packet.fragComplete then .ok queue
  else
    let (far, queue) := queue.ipFragTooFar env
    if far then
      match queue.ipFragReinit env with
      | some fresh => .ok fresh
      | none => .error queue.kill
    else .ok queue

/-- The test of the end of a fragment against what is known of the datagram. -/
def noteEnd (packet : Packet) : Option Queue :=
  if packet.moreFragments then
    if queue.len < packet.stop then
      if queue.lastIn then none else some { queue with len := packet.stop }
    else some queue
  else if packet.stop < queue.len ∨ queue.lastIn ∧ packet.stop ≠ queue.len then none
  else some { queue with lastIn := true, len := packet.stop }

end Queue

def clearFront (env : Env) (front : List Frag) (offset stop : ℕ) (skb : Skb) :
    Except Errno Frag :=
  match front.getLast? with
  | none => .ok ⟨offset, skb⟩
  | some prev =>
    let overlap := prev.stop - offset
    if 0 < overlap then
      if stop ≤ offset + overlap then .error .inval
      else if env.pullHead then .ok ⟨offset + overlap, skb.pull overlap⟩
      else .error .nomem
    else .ok ⟨offset, skb⟩

/-- The loop over the fragments that the new one reaches into: what is left, the new `meat`, and
whether the pull succeeded. -/
def clearBack (env : Env) (stop : ℕ) : List Frag → ℤ → List Frag × ℤ × Bool
  | [], meat => ([], meat, true)
  | next :: rest, meat =>
    if next.offset < stop then
      let overlap := stop - next.offset
      if overlap < next.skb.len then
        if env.pullNext then
          (⟨next.offset + overlap, next.skb.pull overlap⟩ :: rest, meat - overlap, true)
        else (next :: rest, meat, false)
      else clearBack env stop rest (meat - next.skb.len)
    else (next :: rest, meat, true)

namespace Queue

variable (env : Env) (queue : Queue)

def link (front : List Frag) (frag : Frag) (back : List Frag) (meat : ℤ) : Queue :=
  { queue with
    fragments := front ++ frag :: back
    meat := meat + frag.skb.len
    firstIn := queue.firstIn || decide (frag.offset = 0) }

def insert (offset stop : ℕ) (skb : Skb) : Queue × Verdict :=
  let front := queue.fragments.takeWhile fun frag => frag.offset < offset
  let back := queue.fragments.dropWhile fun frag => frag.offset < offset
  match clearFront env front offset stop skb with
  | .error errno => (queue, .done (.failed errno))
  | .ok frag =>
    match clearBack env stop back queue.meat with
    | (back, meat, false) =>
      ({ queue with fragments := front ++ back, meat := meat }, .done (.failed .nomem))
    | (back, meat, true) =>
      let queue := queue.link front frag back meat
      if queue.firstIn ∧ queue.lastIn ∧ ¬ queue.complete ∧ queue.meat = queue.len then
        (queue, .reasm (front ≠ []))
      else (queue, .done .inProgress)

/-- `ip_frag_queue` up to the call of `ip_frag_reasm`. -/
def collect (packet : Packet) : Queue × Verdict :=
  if queue.complete then (queue, .done (.failed .noent))
  else
    match queue.accept env packet with
    | .error queue => (queue, .done (.failed .timedout))
    | .ok queue =>
      match queue.noteEnd packet with
      | none => (queue, .done (.failed .inval))
      | some queue =>
        if packet.stop = packet.offset then (queue, .done (.failed .inval))
        else if ¬ env.pullHeader ∨ ¬ env.trim then (queue, .done (.failed .nomem))
        else
          queue.insert env packet.offset packet.stop
            ((packet.skb.pull packet.skb.headerLen).trim (packet.stop - packet.offset))

/-- A head with a `frag_list` is split into two chunks. -/
def splitHead (head : Skb) : List Skb :=
  if head.chained = [] then [head]
  else [{ head with chained := [] }, ⟨0, [], head.chained⟩]

/-- `ip_frag_reasm`. A new fragment that is not the first changes places with it in memory; the
list stays the same. -/
def ipFragReasm (hasPrev : Bool) : Queue × Outcome :=
  let queue := queue.kill
  if hasPrev ∧ ¬ env.clone then (queue, .failed .nomem)
  else
    match queue.fragments with
    | [] => (queue, .oops)
    | head :: rest =>
      if 65535 < head.skb.headerLen + queue.len then (queue, .failed .toobig)
      else if ¬ env.expandHead then (queue, .failed .nomem)
      else if head.skb.chained ≠ [] ∧ ¬ env.splitHead then (queue, .failed .nomem)
      else
        ({ queue with fragments := [] },
          .delivered ((splitHead head.skb ++ rest.map Frag.skb).flatMap Skb.bytes))

def ipFragQueue (packet : Packet) : Queue × Outcome :=
  match queue.collect env packet with
  | (queue, .done outcome) => (queue, outcome)
  | (queue, .reasm hasPrev) => queue.ipFragReasm env hasPrev

def ipExpire : Queue := if queue.complete then queue else queue.kill

/-- A queue that `ip_find` has just made. -/
def created : Queue := ⟨[], 0, 0, false, false, false, 0⟩

end Queue

/-! ## The life of a queue -/

inductive Event where
  | receive (packet : Packet) (env : Env)
  | expire

/-- The queue, and the datagram that it has delivered. -/
structure State where
  queue : Queue
  delivered : Option (List Byte)

namespace State

def step (state : State) : Event → State
  | .receive packet env =>
    match state.queue.ipFragQueue env packet with
    | (queue, .delivered payload) => ⟨queue, some payload⟩
    | (queue, _) => { state with queue := queue }
  | .expire => { state with queue := state.queue.ipExpire }

def created : State := ⟨Queue.created, none⟩

end State

end StreakKernel.Reassembly
